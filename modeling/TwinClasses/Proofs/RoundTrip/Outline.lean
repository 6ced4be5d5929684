import TwinClasses.Syntax.Leading
import TwinClasses.Syntax.Tokens

set_option autoImplicit false

/-! Outlines of syntax trees. A `get` accessor may be written with a `*` in front of its name and
with a mark and type parameters behind it, and its tree has no place for them. The outline of a tree
is the list of its tokens with these two places marked as gaps, and `Fills` says which tokens a tree
with that outline may have been written as. -/

namespace TwinClasses

/-- A place where an accessor drops what it was written with. -/
inductive Gap where
  /-- In front of the name, where a `*` may stand. -/
  | beforeName
  /-- Behind the name, where a mark and type parameters may stand. -/
  | afterName
  deriving DecidableEq, Repr

/-- A token of a tree, or a gap between two of them. -/
inductive Spot where
  | token (token : Token)
  | gap (gap : Gap)
  deriving DecidableEq, Repr

namespace Spot

def token? : Spot → Option Token
  | token t => some t
  | gap _ => none

def ofTokens (ts : List Token) : List Spot := ts.map token

/-- The tokens of an outline, its gaps left empty. -/
def tokens (spots : List Spot) : List Token := spots.filterMap token?

/-- Trivia in front of the first token. -/
def withTrivia (leading : String) : List Spot → List Spot
  | [] => []
  | token t :: spots => token (t.ledBy (leading ++ t.leading)) :: spots
  | gap g :: spots => gap g :: withTrivia leading spots

@[simp] theorem tokens_nil : tokens [] = [] := rfl

@[simp] theorem tokens_token (t : Token) (spots : List Spot) :
    tokens (token t :: spots) = t :: tokens spots := rfl

@[simp] theorem tokens_gap (g : Gap) (spots : List Spot) :
    tokens (gap g :: spots) = tokens spots := rfl

@[simp] theorem tokens_append (as bs : List Spot) : tokens (as ++ bs) = tokens as ++ tokens bs := by
  simp [tokens]

@[simp] theorem tokens_ofTokens (ts : List Token) : tokens (ofTokens ts) = ts := by
  induction ts with
  | nil => rfl
  | cons t ts ih => simpa [ofTokens, tokens, token?] using ih

@[simp] theorem ofTokens_nil : ofTokens [] = [] := rfl

@[simp] theorem ofTokens_cons (t : Token) (ts : List Token) :
    ofTokens (t :: ts) = token t :: ofTokens ts := rfl

@[simp] theorem ofTokens_append (ts us : List Token) :
    ofTokens (ts ++ us) = ofTokens ts ++ ofTokens us := by simp [ofTokens]

theorem tokens_withTrivia (leading : String) (spots : List Spot) :
    tokens (withTrivia leading spots) = Token.withTrivia leading (tokens spots) := by
  induction spots with
  | nil => rfl
  | cons spot spots ih =>
    cases spot with
    | token t => rfl
    | gap g => simpa [withTrivia] using ih

end Spot

mutual

/-- The tokens of the node, with the gaps of the accessors in it. -/
def Node.outline : Node → List Spot
  | .token t => [.token t]
  | .group g => g.outline
  | .classDecl c => c.outline
  | .forOf keyword awaiting head =>
    .token keyword :: Spot.ofTokens awaiting.toList ++ head.outline
  | .await keyword operand => .token keyword :: Node.outlineAll operand
  | .access object dot name => [.token object, .token dot, .token name]
  | .typeRef r => r.outline

def Node.outlineAll : List Node → List Spot
  | [] => []
  | n :: ns => n.outline ++ Node.outlineAll ns

def Group.outline : Group → List Spot
  | ⟨_, opening, children, closing⟩ =>
    .token opening :: Node.outlineAll children ++ [.token closing]

def Group.outlineOption : Option Group → List Spot
  | none => []
  | some g => g.outline

def Clause.outline : Clause → List Spot
  | ⟨mark, content⟩ => .token mark :: Node.outlineAll content

def Clause.outlineAll : List Clause → List Spot
  | [] => []
  | c :: cs => c.outline ++ Clause.outlineAll cs

def Clause.outlineOption : Option Clause → List Spot
  | none => []
  | some c => c.outline

def TypeRef.outline : TypeRef → List Spot
  | ⟨name, path, arguments⟩ =>
    .token name :: Spot.ofTokens (path.flatMap fun (dot, name) => [dot, name])
      ++ TypeArguments.outlineOption arguments

def TypeArguments.outline : TypeArguments → List Spot
  | ⟨opening, items, closing⟩ =>
    .token opening :: TypeArgument.outlineAll items ++ [.token closing]

def TypeArguments.outlineOption : Option TypeArguments → List Spot
  | none => []
  | some a => a.outline

def TypeArgument.outline : TypeArgument → List Spot
  | ⟨type, comma⟩ => Node.outlineAll type ++ Spot.ofTokens comma.toList

def TypeArgument.outlineAll : List TypeArgument → List Spot
  | [] => []
  | a :: as => a.outline ++ TypeArgument.outlineAll as

def ClassDecl.outline : ClassDecl → List Spot
  | ⟨keyword, name, heritage, opening, members, closing, _⟩ =>
    .token keyword :: Spot.ofTokens name.toList ++ Node.outlineAll heritage
      ++ .token opening :: Member.outlineAll members ++ [.token closing]

def Member.outline : Member → List Spot
  | .method m => m.outline
  | .getter g => g.outline
  | .other ns => Node.outlineAll ns

def Member.outlineAll : List Member → List Spot
  | [] => []
  | m :: ms => m.outline ++ Member.outlineAll ms

def Method.outline : Method → List Spot
  | ⟨leading, decorators, modifiers, asterisk, name, question, typeParameters, parameters,
      returnType, body, terminator⟩ =>
    Spot.withTrivia leading (Clause.outlineAll decorators ++ Spot.ofTokens modifiers
      ++ Spot.ofTokens asterisk.toList ++ name.outline ++ Spot.ofTokens question.toList
      ++ Node.outlineAll typeParameters ++ parameters.outline ++ Clause.outlineOption returnType
      ++ Group.outlineOption body ++ Spot.ofTokens terminator.toList)

def Getter.outline : Getter → List Spot
  | ⟨leading, decorators, modifiers, keyword, name, parameters, returnType, body, terminator⟩ =>
    Spot.withTrivia leading (Clause.outlineAll decorators ++ Spot.ofTokens modifiers
      ++ .token keyword :: .gap .beforeName :: name.outline ++ .gap .afterName ::
        parameters.outline ++ Clause.outlineOption returnType ++ Group.outlineOption body
      ++ Spot.ofTokens terminator.toList)

def MemberName.outline : MemberName → List Spot
  | .identifier t | .literal t => [.token t]
  | .computed g => g.outline

def ParameterList.outline : ParameterList → List Spot
  | ⟨opening, items, closing⟩ => .token opening :: Parameter.outlineAll items ++ [.token closing]

def Parameter.outline : Parameter → List Spot
  | ⟨modifiers, rest, binding, question, type, initializer, comma⟩ =>
    Spot.ofTokens modifiers ++ Spot.ofTokens rest.toList ++ binding.outline
      ++ Spot.ofTokens question.toList ++ Clause.outlineOption type
      ++ Clause.outlineOption initializer ++ Spot.ofTokens comma.toList

def Parameter.outlineAll : List Parameter → List Spot
  | [] => []
  | p :: ps => p.outline ++ Parameter.outlineAll ps

def Binding.outline : Binding → List Spot
  | .identifier t => [.token t]
  | .pattern g => g.outline

end

theorem Node.outlineAll_append (ns ms : List Node) :
    Node.outlineAll (ns ++ ms) = Node.outlineAll ns ++ Node.outlineAll ms := by
  induction ns with
  | nil => simp [Node.outlineAll]
  | cons n ns ih => simp [Node.outlineAll, ih]

theorem Clause.outlineAll_append (cs ds : List Clause) :
    Clause.outlineAll (cs ++ ds) = Clause.outlineAll cs ++ Clause.outlineAll ds := by
  induction cs with
  | nil => simp [Clause.outlineAll]
  | cons c cs ih => simp [Clause.outlineAll, ih]

/-! The tokens of an outline are those the tree prints. -/

mutual

theorem Node.tokens_outline : ∀ n : Node, Spot.tokens n.outline = n.tokens
  | .token t => rfl
  | .group g => by simp [Node.outline, Node.tokens, Group.tokens_outline g]
  | .classDecl c => by simp [Node.outline, Node.tokens, ClassDecl.tokens_outline c]
  | .forOf _ _ head => by simp [Node.outline, Node.tokens, Group.tokens_outline head]
  | .await _ operand => by simp [Node.outline, Node.tokens, Node.tokens_outlineAll operand]
  | .access _ _ _ => rfl
  | .typeRef r => by simp [Node.outline, Node.tokens, TypeRef.tokens_outline r]

theorem Node.tokens_outlineAll :
    ∀ ns : List Node, Spot.tokens (Node.outlineAll ns) = Node.tokensAll ns
  | [] => by simp [Node.outlineAll, Node.tokensAll]
  | n :: ns => by
    simp [Node.outlineAll, Node.tokensAll, Node.tokens_outline n, Node.tokens_outlineAll ns]

theorem Group.tokens_outline : ∀ g : Group, Spot.tokens g.outline = g.tokens
  | ⟨_, _, children, _⟩ => by
    simp [Group.outline, Group.tokens, Node.tokens_outlineAll children]

theorem Group.tokens_outlineOption :
    ∀ g : Option Group, Spot.tokens (Group.outlineOption g) = Group.tokensOption g
  | none => by simp [Group.outlineOption, Group.tokensOption]
  | some g => by simp [Group.outlineOption, Group.tokensOption, Group.tokens_outline g]

theorem Clause.tokens_outline : ∀ c : Clause, Spot.tokens c.outline = c.tokens
  | ⟨_, content⟩ => by simp [Clause.outline, Clause.tokens, Node.tokens_outlineAll content]

theorem Clause.tokens_outlineAll :
    ∀ cs : List Clause, Spot.tokens (Clause.outlineAll cs) = Clause.tokensAll cs
  | [] => by simp [Clause.outlineAll, Clause.tokensAll]
  | c :: cs => by
    simp [Clause.outlineAll, Clause.tokensAll, Clause.tokens_outline c,
      Clause.tokens_outlineAll cs]

theorem Clause.tokens_outlineOption :
    ∀ c : Option Clause, Spot.tokens (Clause.outlineOption c) = Clause.tokensOption c
  | none => by simp [Clause.outlineOption, Clause.tokensOption]
  | some c => by simp [Clause.outlineOption, Clause.tokensOption, Clause.tokens_outline c]

theorem TypeRef.tokens_outline : ∀ r : TypeRef, Spot.tokens r.outline = r.tokens
  | ⟨_, _, arguments⟩ => by
    simp [TypeRef.outline, TypeRef.tokens, TypeArguments.tokens_outlineOption arguments]

theorem TypeArguments.tokens_outline : ∀ a : TypeArguments, Spot.tokens a.outline = a.tokens
  | ⟨_, items, _⟩ => by
    simp [TypeArguments.outline, TypeArguments.tokens, TypeArgument.tokens_outlineAll items]

theorem TypeArguments.tokens_outlineOption : ∀ a : Option TypeArguments,
    Spot.tokens (TypeArguments.outlineOption a) = TypeArguments.tokensOption a
  | none => by simp [TypeArguments.outlineOption, TypeArguments.tokensOption]
  | some a => by
    simp [TypeArguments.outlineOption, TypeArguments.tokensOption, TypeArguments.tokens_outline a]

theorem TypeArgument.tokens_outline : ∀ a : TypeArgument, Spot.tokens a.outline = a.tokens
  | ⟨type, _⟩ => by
    simp [TypeArgument.outline, TypeArgument.tokens, Node.tokens_outlineAll type]

theorem TypeArgument.tokens_outlineAll : ∀ as : List TypeArgument,
    Spot.tokens (TypeArgument.outlineAll as) = TypeArgument.tokensAll as
  | [] => by simp [TypeArgument.outlineAll, TypeArgument.tokensAll]
  | a :: as => by
    simp [TypeArgument.outlineAll, TypeArgument.tokensAll, TypeArgument.tokens_outline a,
      TypeArgument.tokens_outlineAll as]

theorem ClassDecl.tokens_outline : ∀ c : ClassDecl, Spot.tokens c.outline = c.tokens
  | ⟨_, _, heritage, _, members, _, _⟩ => by
    simp [ClassDecl.outline, ClassDecl.tokens, Node.tokens_outlineAll heritage,
      Member.tokens_outlineAll members]

theorem Member.tokens_outline : ∀ m : Member, Spot.tokens m.outline = m.tokens
  | .method m => by simp [Member.outline, Member.tokens, Method.tokens_outline m]
  | .getter g => by simp [Member.outline, Member.tokens, Getter.tokens_outline g]
  | .other ns => by simp [Member.outline, Member.tokens, Node.tokens_outlineAll ns]

theorem Member.tokens_outlineAll :
    ∀ ms : List Member, Spot.tokens (Member.outlineAll ms) = Member.tokensAll ms
  | [] => by simp [Member.outlineAll, Member.tokensAll]
  | m :: ms => by
    simp [Member.outlineAll, Member.tokensAll, Member.tokens_outline m,
      Member.tokens_outlineAll ms]

theorem Method.tokens_outline : ∀ m : Method, Spot.tokens m.outline = m.tokens
  | ⟨_, decorators, _, _, name, _, typeParameters, parameters, returnType, body, _⟩ => by
    simp [Method.outline, Method.tokens, Spot.tokens_withTrivia,
      Clause.tokens_outlineAll decorators, MemberName.tokens_outline name,
      Node.tokens_outlineAll typeParameters, ParameterList.tokens_outline parameters,
      Clause.tokens_outlineOption returnType, Group.tokens_outlineOption body]

theorem Getter.tokens_outline : ∀ g : Getter, Spot.tokens g.outline = g.tokens
  | ⟨_, decorators, _, _, name, parameters, returnType, body, _⟩ => by
    simp [Getter.outline, Getter.tokens, Spot.tokens_withTrivia,
      Clause.tokens_outlineAll decorators, MemberName.tokens_outline name,
      ParameterList.tokens_outline parameters, Clause.tokens_outlineOption returnType,
      Group.tokens_outlineOption body]

theorem MemberName.tokens_outline : ∀ n : MemberName, Spot.tokens n.outline = n.tokens
  | .identifier _ | .literal _ => by simp [MemberName.outline, MemberName.tokens]
  | .computed g => by simp [MemberName.outline, MemberName.tokens, Group.tokens_outline g]

theorem ParameterList.tokens_outline : ∀ ps : ParameterList, Spot.tokens ps.outline = ps.tokens
  | ⟨_, items, _⟩ => by
    simp [ParameterList.outline, ParameterList.tokens, Parameter.tokens_outlineAll items]

theorem Parameter.tokens_outline : ∀ p : Parameter, Spot.tokens p.outline = p.tokens
  | ⟨_, _, binding, _, type, initializer, _⟩ => by
    simp [Parameter.outline, Parameter.tokens, Binding.tokens_outline binding,
      Clause.tokens_outlineOption type, Clause.tokens_outlineOption initializer]

theorem Parameter.tokens_outlineAll :
    ∀ ps : List Parameter, Spot.tokens (Parameter.outlineAll ps) = Parameter.tokensAll ps
  | [] => by simp [Parameter.outlineAll, Parameter.tokensAll]
  | p :: ps => by
    simp [Parameter.outlineAll, Parameter.tokensAll, Parameter.tokens_outline p,
      Parameter.tokens_outlineAll ps]

theorem Binding.tokens_outline : ∀ b : Binding, Spot.tokens b.outline = b.tokens
  | .identifier _ => by simp [Binding.outline, Binding.tokens]
  | .pattern g => by simp [Binding.outline, Binding.tokens, Group.tokens_outline g]

end

end TwinClasses
