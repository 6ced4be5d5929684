import TwinClasses.Expansion.SyncForm
import TwinClasses.Syntax.Tokens

set_option autoImplicit false

/-! What conversion does to each token. The edits of a tree are its tokens in order, each with its
fate: it is kept, maybe with another text, or replaced by the next token that is kept, which takes
over its trivia, or dropped with its trivia. -/

namespace TwinClasses

inductive Fate where
  /-- The token stays, with this text; `taken` is the trivia that it takes over. -/
  | kept (taken : List String) (text : String)
  | replaced
  | dropped
  deriving DecidableEq, Repr

structure Edit where
  token : Token
  fate : Fate
  deriving DecidableEq, Repr

namespace Edit

def outcome (e : Edit) : Option Token :=
  match e.fate with
  | .kept taken text => some ⟨e.token.kind, taken.foldr mergeTrivia e.token.leading, text⟩
  | .replaced => none
  | .dropped => none

def respell (t : Token) (text : String) : Edit := ⟨t, .kept [] text⟩

def keep (t : Token) : Edit := respell t t.text

def replace (t : Token) : Edit := ⟨t, .replaced⟩

def drop (t : Token) : Edit := ⟨t, .dropped⟩

def keepAll (ts : List Token) : List Edit := ts.map keep

def dropAll (ts : List Token) : List Edit := ts.map drop

def tokens (es : List Edit) : List Token := es.map token

def outcomes (es : List Edit) : List Token := es.filterMap outcome

/-- The first token that is kept takes over some trivia. -/
def handOver (leading : String) : List Edit → List Edit
  | [] => []
  | ⟨t, .kept taken text⟩ :: es => ⟨t, .kept (leading :: taken) text⟩ :: es
  | ⟨t, .replaced⟩ :: es => ⟨t, .replaced⟩ :: handOver leading es
  | ⟨t, .dropped⟩ :: es => ⟨t, .dropped⟩ :: handOver leading es

/-- Trivia in front of the first token. -/
def withTrivia (leading : String) : List Edit → List Edit
  | [] => []
  | e :: es => ⟨e.token.ledBy (leading ++ e.token.leading), e.fate⟩ :: es

@[simp] theorem tokens_nil : tokens [] = [] := rfl

@[simp] theorem tokens_append (es fs : List Edit) : tokens (es ++ fs) = tokens es ++ tokens fs := by
  simp [tokens]

@[simp] theorem tokens_respell (t : Token) (text : String) (es : List Edit) :
    tokens (respell t text :: es) = t :: tokens es := rfl

@[simp] theorem tokens_keep (t : Token) (es : List Edit) :
    tokens (keep t :: es) = t :: tokens es := rfl

@[simp] theorem tokens_replace (t : Token) (es : List Edit) :
    tokens (replace t :: es) = t :: tokens es := rfl

@[simp] theorem tokens_drop (t : Token) (es : List Edit) :
    tokens (drop t :: es) = t :: tokens es := rfl

@[simp] theorem tokens_keepAll (ts : List Token) : tokens (keepAll ts) = ts := by
  induction ts with
  | nil => rfl
  | cons t ts ih => simpa [keepAll] using ih

@[simp] theorem tokens_dropAll (ts : List Token) : tokens (dropAll ts) = ts := by
  induction ts with
  | nil => rfl
  | cons t ts ih => simpa [dropAll] using ih

@[simp] theorem tokens_handOver (leading : String) (es : List Edit) :
    tokens (handOver leading es) = tokens es := by
  induction es with
  | nil => rfl
  | cons e es ih =>
    obtain ⟨t, fate⟩ := e
    cases fate with
    | kept taken text => rfl
    | replaced => exact congrArg (t :: ·) ih
    | dropped => exact congrArg (t :: ·) ih

@[simp] theorem tokens_withTrivia (leading : String) (es : List Edit) :
    tokens (withTrivia leading es) = Token.withTrivia leading (tokens es) := by
  cases es with
  | nil => rfl
  | cons e es => rfl

@[simp] theorem outcomes_nil : outcomes [] = [] := rfl

@[simp] theorem outcomes_append (es fs : List Edit) :
    outcomes (es ++ fs) = outcomes es ++ outcomes fs := by
  simp [outcomes]

@[simp] theorem outcomes_respell (t : Token) (text : String) (es : List Edit) :
    outcomes (respell t text :: es) = t.spelled text :: outcomes es := rfl

@[simp] theorem outcomes_keep (t : Token) (es : List Edit) :
    outcomes (keep t :: es) = t :: outcomes es := rfl

@[simp] theorem outcomes_replace (t : Token) (es : List Edit) :
    outcomes (replace t :: es) = outcomes es := rfl

@[simp] theorem outcomes_drop (t : Token) (es : List Edit) :
    outcomes (drop t :: es) = outcomes es := rfl

@[simp] theorem outcomes_keepAll (ts : List Token) : outcomes (keepAll ts) = ts := by
  induction ts with
  | nil => rfl
  | cons t ts ih => simpa [keepAll] using ih

@[simp] theorem outcomes_dropAll (ts : List Token) : outcomes (dropAll ts) = [] := by
  induction ts with
  | nil => rfl
  | cons t ts ih => simpa [dropAll] using ih

theorem outcomes_handOver (leading : String) (es : List Edit) :
    outcomes (handOver leading es) = (outcomes es).modifyHead (Token.takeOver leading) := by
  induction es with
  | nil => rfl
  | cons e es ih =>
    obtain ⟨t, fate⟩ := e
    cases fate with
    | kept taken text => rfl
    | replaced => exact ih
    | dropped => exact ih

/-- The first token is kept as it is. -/
def Begins (es : List Edit) : Prop := ∃ t rest, es = keep t :: rest

theorem Begins.append {es : List Edit} (h : Begins es) (fs : List Edit) : Begins (es ++ fs) := by
  obtain ⟨t, rest, rfl⟩ := h
  exact ⟨t, rest ++ fs, rfl⟩

theorem begins_keepAll_append (ts : List Token) {es : List Edit} (h : Begins es) :
    Begins (keepAll ts ++ es) := by
  cases ts with
  | nil => exact h
  | cons t ts => exact ⟨t, keepAll ts ++ es, rfl⟩

theorem outcomes_withTrivia (leading : String) {es : List Edit} (h : Begins es) :
    outcomes (withTrivia leading es) = Token.withTrivia leading (outcomes es) := by
  obtain ⟨t, rest, rfl⟩ := h
  rfl

end Edit

open Edit

mutual

def Node.edits (types : TypeTable) : Node → List Edit
  | .token t => [respell t (types.rename t).text]
  | .group g => g.edits types
  | .classDecl c => c.edits types
  | .forOf keyword none head => keep keyword :: head.edits types
  | .forOf keyword (some awaiting) head =>
    keep keyword :: replace awaiting :: handOver awaiting.leading (head.edits types)
  | .await keyword operand =>
    replace keyword :: handOver keyword.leading (Node.editsAll types operand)
  | .access object dot name =>
    if isAsyncIterator object name then [keep object, keep dot, respell name "iterator"]
    else [respell object (types.rename object).text, keep dot, keep name]
  | .typeRef r => r.edits types

def Node.editsAll (types : TypeTable) : List Node → List Edit
  | [] => []
  | n :: ns => n.edits types ++ Node.editsAll types ns

def Group.edits (types : TypeTable) : Group → List Edit
  | ⟨_, opening, children, closing⟩ =>
    keep opening :: Node.editsAll types children ++ [keep closing]

def Group.editsOption (types : TypeTable) : Option Group → List Edit
  | none => []
  | some g => g.edits types

def Clause.edits (types : TypeTable) : Clause → List Edit
  | ⟨mark, content⟩ => keep mark :: Node.editsAll types content

def Clause.editsAll (types : TypeTable) : List Clause → List Edit
  | [] => []
  | c :: cs => c.edits types ++ Clause.editsAll types cs

def Clause.editsOption (types : TypeTable) : Option Clause → List Edit
  | none => []
  | some c => c.edits types

def TypeRef.edits (types : TypeTable) : TypeRef → List Edit
  | ⟨name, dot :: path, arguments⟩ =>
    keep name :: keepAll ((dot :: path).flatMap fun (dot, name) => [dot, name])
      ++ TypeArguments.editsOption types arguments
  | ⟨name, [], none⟩ => [respell name (types.rename name).text]
  | ⟨name, [], some arguments⟩ =>
    if types.unwraps name.text then
      replace name :: handOver name.leading (arguments.editsOfFirst types)
    else respell name (types.rename name).text :: arguments.edits types

def TypeArguments.edits (types : TypeTable) : TypeArguments → List Edit
  | ⟨opening, items, closing⟩ =>
    keep opening :: TypeArgument.editsAll types items ++ [keep closing]

def TypeArguments.editsOption (types : TypeTable) : Option TypeArguments → List Edit
  | none => []
  | some a => a.edits types

/-- Nothing is left of the list but its first argument. A list without one does not convert. -/
def TypeArguments.editsOfFirst (types : TypeTable) : TypeArguments → List Edit
  | ⟨opening, [], closing⟩ => [keep opening, keep closing]
  | ⟨opening, ⟨type, comma⟩ :: items, closing⟩ =>
    drop opening :: Node.editsAll types type ++ dropAll comma.toList
      ++ dropAll (TypeArgument.tokensAll items) ++ [drop closing]

def TypeArgument.edits (types : TypeTable) : TypeArgument → List Edit
  | ⟨type, comma⟩ => Node.editsAll types type ++ keepAll comma.toList

def TypeArgument.editsAll (types : TypeTable) : List TypeArgument → List Edit
  | [] => []
  | a :: as => a.edits types ++ TypeArgument.editsAll types as

def ClassDecl.edits (types : TypeTable) : ClassDecl → List Edit
  | ⟨keyword, name, heritage, opening, members, closing, _⟩ =>
    keep keyword :: keepAll name.toList ++ Node.editsAll types heritage
      ++ keep opening :: Member.editsAll types members ++ [keep closing]

def Member.edits (types : TypeTable) : Member → List Edit
  | .method m => m.edits types
  | .getter g => g.edits types
  | .other ns => Node.editsAll types ns

def Member.editsAll (types : TypeTable) : List Member → List Edit
  | [] => []
  | m :: ms => m.edits types ++ Member.editsAll types ms

def Method.edits (types : TypeTable) : Method → List Edit
  | ⟨leading, decorators, modifiers, asterisk, name, question, typeParameters, parameters,
      returnType, body, terminator⟩ =>
    Edit.withTrivia leading (Clause.editsAll types decorators ++ keepAll modifiers
      ++ keepAll asterisk.toList ++ name.edits types ++ keepAll question.toList
      ++ Node.editsAll types typeParameters ++ parameters.edits types
      ++ Clause.editsOption types returnType ++ Group.editsOption types body
      ++ keepAll terminator.toList)

def Getter.edits (types : TypeTable) : Getter → List Edit
  | ⟨leading, decorators, modifiers, keyword, name, parameters, returnType, body, terminator⟩ =>
    Edit.withTrivia leading (Clause.editsAll types decorators ++ keepAll modifiers
      ++ keep keyword :: name.edits types ++ parameters.edits types
      ++ Clause.editsOption types returnType ++ Group.editsOption types body
      ++ keepAll terminator.toList)

def MemberName.edits (types : TypeTable) : MemberName → List Edit
  | .identifier t | .literal t => [keep t]
  | .computed g => g.edits types

def ParameterList.edits (types : TypeTable) : ParameterList → List Edit
  | ⟨opening, items, closing⟩ =>
    keep opening :: Parameter.editsAll types items ++ [keep closing]

def Parameter.edits (types : TypeTable) : Parameter → List Edit
  | ⟨modifiers, rest, binding, question, type, initializer, comma⟩ =>
    keepAll modifiers ++ keepAll rest.toList ++ binding.edits types ++ keepAll question.toList
      ++ Clause.editsOption types type ++ Clause.editsOption types initializer
      ++ keepAll comma.toList

def Parameter.editsAll (types : TypeTable) : List Parameter → List Edit
  | [] => []
  | p :: ps => p.edits types ++ Parameter.editsAll types ps

def Binding.edits (types : TypeTable) : Binding → List Edit
  | .identifier t => [keep t]
  | .pattern g => g.edits types

end

theorem Clause.begins_editsAll_append (types : TypeTable) (cs : List Clause) {es : List Edit}
    (h : Begins es) : Begins (Clause.editsAll types cs ++ es) := by
  cases cs with
  | nil =>
    rw [Clause.editsAll]
    exact h
  | cons c cs =>
    obtain ⟨mark, content⟩ := c
    rw [Clause.editsAll, Clause.edits]
    exact ⟨mark, _, rfl⟩

theorem MemberName.begins_edits (types : TypeTable) (n : MemberName) : Begins (n.edits types) := by
  cases n with
  | computed g =>
    obtain ⟨d, opening, children, closing⟩ := g
    rw [MemberName.edits, Group.edits]
    exact ⟨opening, _, rfl⟩
  | identifier t =>
    rw [MemberName.edits]
    exact ⟨t, [], rfl⟩
  | literal t =>
    rw [MemberName.edits]
    exact ⟨t, [], rfl⟩

/-! Every token of a tree has its edit. -/

mutual

theorem Node.tokens_edits (types : TypeTable) : ∀ n : Node, Edit.tokens (n.edits types) = n.tokens
  | .token t => by simp [Node.edits, Node.tokens]
  | .group g => by simp [Node.edits, Node.tokens, Group.tokens_edits types g]
  | .classDecl c => by simp [Node.edits, Node.tokens, ClassDecl.tokens_edits types c]
  | .forOf _ none head => by simp [Node.edits, Node.tokens, Group.tokens_edits types head]
  | .forOf _ (some _) head => by simp [Node.edits, Node.tokens, Group.tokens_edits types head]
  | .await _ operand => by simp [Node.edits, Node.tokens, Node.tokens_editsAll types operand]
  | .access object dot name => by
    rw [Node.edits, Node.tokens]
    split <;> simp
  | .typeRef r => by simp [Node.edits, Node.tokens, TypeRef.tokens_edits types r]

theorem Node.tokens_editsAll (types : TypeTable) :
    ∀ ns : List Node, Edit.tokens (Node.editsAll types ns) = Node.tokensAll ns
  | [] => by simp [Node.editsAll, Node.tokensAll]
  | n :: ns => by
    simp [Node.editsAll, Node.tokensAll, Node.tokens_edits types n, Node.tokens_editsAll types ns]

theorem Group.tokens_edits (types : TypeTable) :
    ∀ g : Group, Edit.tokens (g.edits types) = g.tokens
  | ⟨_, _, children, _⟩ => by
    simp [Group.edits, Group.tokens, Node.tokens_editsAll types children]

theorem Group.tokens_editsOption (types : TypeTable) :
    ∀ g : Option Group, Edit.tokens (Group.editsOption types g) = Group.tokensOption g
  | none => by simp [Group.editsOption, Group.tokensOption]
  | some g => by simp [Group.editsOption, Group.tokensOption, Group.tokens_edits types g]

theorem Clause.tokens_edits (types : TypeTable) :
    ∀ c : Clause, Edit.tokens (c.edits types) = c.tokens
  | ⟨_, content⟩ => by simp [Clause.edits, Clause.tokens, Node.tokens_editsAll types content]

theorem Clause.tokens_editsAll (types : TypeTable) :
    ∀ cs : List Clause, Edit.tokens (Clause.editsAll types cs) = Clause.tokensAll cs
  | [] => by simp [Clause.editsAll, Clause.tokensAll]
  | c :: cs => by
    simp [Clause.editsAll, Clause.tokensAll, Clause.tokens_edits types c,
      Clause.tokens_editsAll types cs]

theorem Clause.tokens_editsOption (types : TypeTable) :
    ∀ c : Option Clause, Edit.tokens (Clause.editsOption types c) = Clause.tokensOption c
  | none => by simp [Clause.editsOption, Clause.tokensOption]
  | some c => by simp [Clause.editsOption, Clause.tokensOption, Clause.tokens_edits types c]

theorem TypeRef.tokens_edits (types : TypeTable) :
    ∀ r : TypeRef, Edit.tokens (r.edits types) = r.tokens
  | ⟨_, _ :: _, arguments⟩ => by
    simp [TypeRef.edits, TypeRef.tokens, TypeArguments.tokens_editsOption types arguments]
  | ⟨_, [], none⟩ => by simp [TypeRef.edits, TypeRef.tokens, TypeArguments.tokensOption]
  | ⟨_, [], some arguments⟩ => by
    rw [TypeRef.edits]
    split
    · simp [TypeRef.tokens, TypeArguments.tokensOption,
        TypeArguments.tokens_editsOfFirst types arguments]
    · simp [TypeRef.tokens, TypeArguments.tokensOption, TypeArguments.tokens_edits types arguments]

theorem TypeArguments.tokens_edits (types : TypeTable) :
    ∀ a : TypeArguments, Edit.tokens (a.edits types) = a.tokens
  | ⟨_, items, _⟩ => by
    simp [TypeArguments.edits, TypeArguments.tokens, TypeArgument.tokens_editsAll types items]

theorem TypeArguments.tokens_editsOption (types : TypeTable) : ∀ a : Option TypeArguments,
    Edit.tokens (TypeArguments.editsOption types a) = TypeArguments.tokensOption a
  | none => by simp [TypeArguments.editsOption, TypeArguments.tokensOption]
  | some a => by
    simp [TypeArguments.editsOption, TypeArguments.tokensOption,
      TypeArguments.tokens_edits types a]

theorem TypeArguments.tokens_editsOfFirst (types : TypeTable) :
    ∀ a : TypeArguments, Edit.tokens (a.editsOfFirst types) = a.tokens
  | ⟨_, [], _⟩ => by
    simp [TypeArguments.editsOfFirst, TypeArguments.tokens, TypeArgument.tokensAll]
  | ⟨_, ⟨type, _⟩ :: _, _⟩ => by
    simp [TypeArguments.editsOfFirst, TypeArguments.tokens, TypeArgument.tokensAll,
      TypeArgument.tokens, Node.tokens_editsAll types type]

theorem TypeArgument.tokens_edits (types : TypeTable) :
    ∀ a : TypeArgument, Edit.tokens (a.edits types) = a.tokens
  | ⟨type, _⟩ => by
    simp [TypeArgument.edits, TypeArgument.tokens, Node.tokens_editsAll types type]

theorem TypeArgument.tokens_editsAll (types : TypeTable) : ∀ as : List TypeArgument,
    Edit.tokens (TypeArgument.editsAll types as) = TypeArgument.tokensAll as
  | [] => by simp [TypeArgument.editsAll, TypeArgument.tokensAll]
  | a :: as => by
    simp [TypeArgument.editsAll, TypeArgument.tokensAll, TypeArgument.tokens_edits types a,
      TypeArgument.tokens_editsAll types as]

theorem ClassDecl.tokens_edits (types : TypeTable) :
    ∀ c : ClassDecl, Edit.tokens (c.edits types) = c.tokens
  | ⟨_, _, heritage, _, members, _, _⟩ => by
    simp [ClassDecl.edits, ClassDecl.tokens, Node.tokens_editsAll types heritage,
      Member.tokens_editsAll types members]

theorem Member.tokens_edits (types : TypeTable) :
    ∀ m : Member, Edit.tokens (m.edits types) = m.tokens
  | .method m => by simp [Member.edits, Member.tokens, Method.tokens_edits types m]
  | .getter g => by simp [Member.edits, Member.tokens, Getter.tokens_edits types g]
  | .other ns => by simp [Member.edits, Member.tokens, Node.tokens_editsAll types ns]

theorem Member.tokens_editsAll (types : TypeTable) :
    ∀ ms : List Member, Edit.tokens (Member.editsAll types ms) = Member.tokensAll ms
  | [] => by simp [Member.editsAll, Member.tokensAll]
  | m :: ms => by
    simp [Member.editsAll, Member.tokensAll, Member.tokens_edits types m,
      Member.tokens_editsAll types ms]

theorem Method.tokens_edits (types : TypeTable) :
    ∀ m : Method, Edit.tokens (m.edits types) = m.tokens
  | ⟨_, decorators, _, _, name, _, typeParameters, parameters, returnType, body, _⟩ => by
    simp [Method.edits, Method.tokens, Clause.tokens_editsAll types decorators,
      MemberName.tokens_edits types name, Node.tokens_editsAll types typeParameters,
      ParameterList.tokens_edits types parameters, Clause.tokens_editsOption types returnType,
      Group.tokens_editsOption types body]

theorem Getter.tokens_edits (types : TypeTable) :
    ∀ g : Getter, Edit.tokens (g.edits types) = g.tokens
  | ⟨_, decorators, _, _, name, parameters, returnType, body, _⟩ => by
    simp [Getter.edits, Getter.tokens, Clause.tokens_editsAll types decorators,
      MemberName.tokens_edits types name, ParameterList.tokens_edits types parameters,
      Clause.tokens_editsOption types returnType, Group.tokens_editsOption types body]

theorem MemberName.tokens_edits (types : TypeTable) :
    ∀ n : MemberName, Edit.tokens (n.edits types) = n.tokens
  | .identifier _ | .literal _ => by simp [MemberName.edits, MemberName.tokens]
  | .computed g => by simp [MemberName.edits, MemberName.tokens, Group.tokens_edits types g]

theorem ParameterList.tokens_edits (types : TypeTable) :
    ∀ ps : ParameterList, Edit.tokens (ps.edits types) = ps.tokens
  | ⟨_, items, _⟩ => by
    simp [ParameterList.edits, ParameterList.tokens, Parameter.tokens_editsAll types items]

theorem Parameter.tokens_edits (types : TypeTable) :
    ∀ p : Parameter, Edit.tokens (p.edits types) = p.tokens
  | ⟨_, _, binding, _, type, initializer, _⟩ => by
    simp [Parameter.edits, Parameter.tokens, Binding.tokens_edits types binding,
      Clause.tokens_editsOption types type, Clause.tokens_editsOption types initializer]

theorem Parameter.tokens_editsAll (types : TypeTable) :
    ∀ ps : List Parameter, Edit.tokens (Parameter.editsAll types ps) = Parameter.tokensAll ps
  | [] => by simp [Parameter.editsAll, Parameter.tokensAll]
  | p :: ps => by
    simp [Parameter.editsAll, Parameter.tokensAll, Parameter.tokens_edits types p,
      Parameter.tokens_editsAll types ps]

theorem Binding.tokens_edits (types : TypeTable) :
    ∀ b : Binding, Edit.tokens (b.edits types) = b.tokens
  | .identifier _ => by simp [Binding.edits, Binding.tokens]
  | .pattern g => by simp [Binding.edits, Binding.tokens, Group.tokens_edits types g]

end

end TwinClasses
