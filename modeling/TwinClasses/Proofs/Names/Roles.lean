import Mathlib.Data.List.Chain
import TwinClasses.Syntax.Leading
import TwinClasses.Syntax.Tokens

set_option autoImplicit false

/-! What the tokens of a tree are in it. A name directly behind a dot may be the name in a property
access, part of a qualified type name, or a node of its own further along a chain. -/

namespace TwinClasses

inductive Role where
  /-- A node of its own. -/
  | plain
  /-- The name in a property access of the object with the given text. -/
  | property (object : String)
  /-- A name behind a dot of a qualified type name. -/
  | qualified
  /-- A bracket, or any other token of a construct. -/
  | other
  deriving DecidableEq, Repr

/-- A token without its trivia, and what it is in its tree. -/
structure Occurrence where
  kind : Kind
  text : String
  role : Role
  deriving DecidableEq, Repr

def Token.as (role : Role) (t : Token) : Occurrence := ⟨t.kind, t.text, role⟩

def Kind.isDot (k : Kind) : Bool := k = .dot || k = .questionDot

mutual

def Node.occurrences : Node → List Occurrence
  | .token t => [t.as .plain]
  | .group g => g.occurrences
  | .classDecl c => c.occurrences
  | .forOf keyword awaiting head =>
    keyword.as .other :: awaiting.toList.map (Token.as .other) ++ head.occurrences
  | .await keyword operand => keyword.as .other :: Node.occurrencesAll operand
  | .access object dot name =>
    [object.as .other, dot.as .other, name.as (.property object.text)]
  | .typeRef r => r.occurrences

def Node.occurrencesAll : List Node → List Occurrence
  | [] => []
  | n :: ns => n.occurrences ++ Node.occurrencesAll ns

def Group.occurrences : Group → List Occurrence
  | ⟨_, opening, children, closing⟩ =>
    opening.as .other :: Node.occurrencesAll children ++ [closing.as .other]

def Group.occurrencesOption : Option Group → List Occurrence
  | none => []
  | some g => g.occurrences

def Clause.occurrences : Clause → List Occurrence
  | ⟨mark, content⟩ => mark.as .other :: Node.occurrencesAll content

def Clause.occurrencesAll : List Clause → List Occurrence
  | [] => []
  | c :: cs => c.occurrences ++ Clause.occurrencesAll cs

def Clause.occurrencesOption : Option Clause → List Occurrence
  | none => []
  | some c => c.occurrences

def TypeRef.occurrences : TypeRef → List Occurrence
  | ⟨name, path, arguments⟩ =>
    name.as .other :: path.flatMap (fun (dot, name) => [dot.as .other, name.as .qualified])
      ++ TypeArguments.occurrencesOption arguments

def TypeArguments.occurrences : TypeArguments → List Occurrence
  | ⟨opening, items, closing⟩ =>
    opening.as .other :: TypeArgument.occurrencesAll items ++ [closing.as .other]

def TypeArguments.occurrencesOption : Option TypeArguments → List Occurrence
  | none => []
  | some a => a.occurrences

def TypeArgument.occurrences : TypeArgument → List Occurrence
  | ⟨type, comma⟩ => Node.occurrencesAll type ++ comma.toList.map (Token.as .other)

def TypeArgument.occurrencesAll : List TypeArgument → List Occurrence
  | [] => []
  | a :: as => a.occurrences ++ TypeArgument.occurrencesAll as

def ClassDecl.occurrences : ClassDecl → List Occurrence
  | ⟨keyword, name, heritage, opening, members, closing, _⟩ =>
    keyword.as .other :: name.toList.map (Token.as .other) ++ Node.occurrencesAll heritage
      ++ opening.as .other :: Member.occurrencesAll members ++ [closing.as .other]

def Member.occurrences : Member → List Occurrence
  | .method m => m.occurrences
  | .getter g => g.occurrences
  | .other ns => Node.occurrencesAll ns

def Member.occurrencesAll : List Member → List Occurrence
  | [] => []
  | m :: ms => m.occurrences ++ Member.occurrencesAll ms

def Method.occurrences : Method → List Occurrence
  | ⟨_, decorators, modifiers, asterisk, name, question, typeParameters, parameters, returnType,
      body, terminator⟩ =>
    Clause.occurrencesAll decorators ++ modifiers.map (Token.as .other)
      ++ asterisk.toList.map (Token.as .other) ++ name.occurrences
      ++ question.toList.map (Token.as .other) ++ Node.occurrencesAll typeParameters
      ++ parameters.occurrences ++ Clause.occurrencesOption returnType
      ++ Group.occurrencesOption body ++ terminator.toList.map (Token.as .other)

def Getter.occurrences : Getter → List Occurrence
  | ⟨_, decorators, modifiers, keyword, name, parameters, returnType, body, terminator⟩ =>
    Clause.occurrencesAll decorators ++ modifiers.map (Token.as .other)
      ++ keyword.as .other :: name.occurrences ++ parameters.occurrences
      ++ Clause.occurrencesOption returnType ++ Group.occurrencesOption body
      ++ terminator.toList.map (Token.as .other)

def MemberName.occurrences : MemberName → List Occurrence
  | .identifier t | .literal t => [t.as .other]
  | .computed g => g.occurrences

def ParameterList.occurrences : ParameterList → List Occurrence
  | ⟨opening, items, closing⟩ =>
    opening.as .other :: Parameter.occurrencesAll items ++ [closing.as .other]

def Parameter.occurrences : Parameter → List Occurrence
  | ⟨modifiers, rest, binding, question, type, initializer, comma⟩ =>
    modifiers.map (Token.as .other) ++ rest.toList.map (Token.as .other) ++ binding.occurrences
      ++ question.toList.map (Token.as .other) ++ Clause.occurrencesOption type
      ++ Clause.occurrencesOption initializer ++ comma.toList.map (Token.as .other)

def Parameter.occurrencesAll : List Parameter → List Occurrence
  | [] => []
  | p :: ps => p.occurrences ++ Parameter.occurrencesAll ps

def Binding.occurrences : Binding → List Occurrence
  | .identifier t => [t.as .other]
  | .pattern g => g.occurrences

end

theorem Node.occurrencesAll_append (ns ms : List Node) : Node.occurrencesAll (ns ++ ms) =
    Node.occurrencesAll ns ++ Node.occurrencesAll ms := by
  induction ns with
  | nil => simp [Node.occurrencesAll]
  | cons n ns ih => simp [Node.occurrencesAll, ih]

theorem Node.occurrences_ne_nil : ∀ n : Node, n.occurrences ≠ []
  | .token _ | .forOf _ _ _ | .await _ _ | .access _ _ _ => by simp [Node.occurrences]
  | .group ⟨_, _, _, _⟩ => by simp [Node.occurrences, Group.occurrences]
  | .classDecl ⟨_, _, _, _, _, _, _⟩ => by simp [Node.occurrences, ClassDecl.occurrences]
  | .typeRef ⟨_, _, _⟩ => by simp [Node.occurrences, TypeRef.occurrences]

theorem Clause.occurrencesAll_append (cs ds : List Clause) : Clause.occurrencesAll (cs ++ ds) =
    Clause.occurrencesAll cs ++ Clause.occurrencesAll ds := by
  induction cs with
  | nil => simp [Clause.occurrencesAll]
  | cons c cs ih => simp [Clause.occurrencesAll, ih]

/-! Trivia makes no difference. -/

theorem MemberName.occurrences_mapFirst {f : Token → Token}
    (hf : ∀ t, (f t).as .other = t.as .other) (n : MemberName) :
    (n.mapFirst f).occurrences = n.occurrences := by
  cases n with
  | computed g =>
    obtain ⟨d, opening, children, closing⟩ := g
    simp [mapFirst, occurrences, Group.occurrences, hf]
  | _ => simp [mapFirst, occurrences, hf]

theorem Method.occurrences_mapFirst {f : Token → Token} (hf : ∀ t, (f t).as .other = t.as .other)
    (m : Method) : (m.mapFirst f).occurrences = m.occurrences := by
  obtain ⟨leading, decorators, modifiers, asterisk, name, question, typeParameters, parameters,
    returnType, body, terminator⟩ := m
  cases decorators with
  | cons d ds =>
    obtain ⟨mark, content⟩ := d
    simp [mapFirst, occurrences, Clause.occurrencesAll, Clause.occurrences, hf]
  | nil =>
    cases modifiers with
    | cons t ts => simp [mapFirst, occurrences, hf]
    | nil => cases asterisk <;> simp [mapFirst, occurrences, MemberName.occurrences_mapFirst hf, hf]

theorem Getter.occurrences_mapFirst {f : Token → Token} (hf : ∀ t, (f t).as .other = t.as .other)
    (g : Getter) : (g.mapFirst f).occurrences = g.occurrences := by
  obtain ⟨leading, decorators, modifiers, keyword, name, parameters, returnType, body,
    terminator⟩ := g
  cases decorators with
  | cons d ds =>
    obtain ⟨mark, content⟩ := d
    simp [mapFirst, occurrences, Clause.occurrencesAll, Clause.occurrences, hf]
  | nil => cases modifiers <;> simp [mapFirst, occurrences, hf]

theorem Method.occurrences_hoistLeading (m : Method) :
    m.hoistLeading.occurrences = m.occurrences := by
  rw [← occurrences_mapFirst (f := (·.ledBy "")) (fun _ => rfl) m, hoistLeading]
  generalize m.mapFirst (·.ledBy "") = m'
  cases m'
  simp [occurrences]

theorem Getter.occurrences_hoistLeading (g : Getter) :
    g.hoistLeading.occurrences = g.occurrences := by
  rw [← occurrences_mapFirst (f := (·.ledBy "")) (fun _ => rfl) g, hoistLeading]
  generalize g.mapFirst (·.ledBy "") = g'
  cases g'
  simp [occurrences]

/-! Lists of occurrences in which names behind dots are no other parts of constructs. -/

namespace Occurrence

def isDot (o : Occurrence) : Bool := o.kind.isDot

theorem isDot_as {t : Token} {k : Kind} (h : t.kind = k) (role : Role) (hk : k.isDot = false) :
    (t.as role).isDot = false := by
  rw [isDot, Token.as, h, hk]

/-- What the occurrence is allows it to stand behind a dot. -/
def MayFollowDot (o : Occurrence) : Prop := o.kind = .identifier → o.role ≠ .other

def Linked (os : List Occurrence) : Prop :=
  os.IsChain fun d n => d.isDot = true → n.MayFollowDot

/-- The last of them is no dot. -/
def Closed (os : List Occurrence) : Prop := ∀ o ∈ os.getLast?, o.isDot = false

/-- The first of them may stand behind a dot. -/
def Starts (os : List Occurrence) : Prop := ∀ o ∈ os.head?, o.MayFollowDot

/-- Linked, whatever comes behind them. -/
structure Whole (os : List Occurrence) : Prop where
  linked : Linked os
  closed : Closed os

variable {o : Occurrence} {os ps : List Occurrence}

theorem starts_as {t : Token} (h : t.kind ≠ .identifier) (role : Role) (os : List Occurrence) :
    Starts (t.as role :: os) := by
  intro o ho hk
  obtain rfl : t.as role = o := by simpa using ho
  exact absurd hk h

theorem linked_nil : Linked [] := .nil

theorem Linked.append_of_closed (h : Linked os) (hc : Closed os) (h' : Linked ps) :
    Linked (os ++ ps) := by
  refine List.isChain_append.2 ⟨h, h', ?_⟩
  intro d hd n _ hdot
  rw [hc d hd] at hdot
  cases hdot

theorem Linked.append_of_starts (h : Linked os) (h' : Linked ps) (hs : Starts ps) :
    Linked (os ++ ps) :=
  List.isChain_append.2 ⟨h, h', fun _ _ n hn _ => hs n hn⟩

theorem Linked.cons (h : Linked os) (hs : o.isDot = true → Starts os) : Linked (o :: os) :=
  List.isChain_cons.2 ⟨fun n hn hdot => hs hdot n hn, h⟩

theorem Closed.append_left (h : Closed ps) (hne : ps ≠ []) (os : List Occurrence) :
    Closed (os ++ ps) := by
  intro o ho
  rw [List.getLast?_append_of_ne_nil _ hne] at ho
  exact h o ho

theorem closed_append (h : Closed ps) (hos : ps = [] → Closed os) : Closed (os ++ ps) := by
  cases ps with
  | nil => simpa using hos rfl
  | cons p ps => exact h.append_left (by simp) os

theorem whole_nil : Whole [] := ⟨linked_nil, by simp [Closed]⟩

theorem Whole.append (h : Whole os) (h' : Whole ps) : Whole (os ++ ps) :=
  ⟨h.linked.append_of_closed h.closed h'.linked, closed_append h'.closed fun _ => h.closed⟩

theorem whole_single (ho : o.isDot = false) : Whole [o] :=
  ⟨List.isChain_singleton o, by simpa [Closed] using ho⟩

theorem Whole.cons (h : Whole os) (ho : o.isDot = false) : Whole (o :: os) :=
  (whole_single ho).append h

/-- Tokens of which none is a dot. -/
theorem whole_map (role : Role) {ts : List Token} (h : ∀ t ∈ ts, t.kind.isDot = false) :
    Whole (ts.map (Token.as role)) := by
  induction ts with
  | nil => exact whole_nil
  | cons t ts ih =>
    exact (ih fun u hu => h u (List.mem_cons_of_mem _ hu)).cons (h t List.mem_cons_self)

/-- Between brackets, the last may be a dot. -/
theorem Linked.enclose (h : Linked os) {opening closing : Token}
    (hopen : opening.kind.isDot = false) (hclose : closing.kind.isDot = false)
    (hidentifier : closing.kind ≠ .identifier) :
    Whole (opening.as .other :: os ++ [closing.as .other]) := by
  have hbracket : Whole [closing.as .other] := whole_single hclose
  refine ⟨?_, hbracket.closed.append_left (by simp) _⟩
  refine (h.cons ?_).append_of_starts hbracket.linked (starts_as hidentifier _ _)
  intro hdot
  rw [show (opening.as .other).isDot = false from hopen] at hdot
  cases hdot

end Occurrence

end TwinClasses
