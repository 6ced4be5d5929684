import TwinClasses.Proofs.RoundTrip.Fronts
import TwinClasses.Proofs.RoundTrip.Yields
import TwinClasses.Proofs.Traversal
import TwinClasses.Syntax.Reader

set_option autoImplicit false

/-! What the readers promise. A part of a syntax tree `ReadFrom` some trees stands for all of their
tokens, in order, up to the gaps of its accessors, and its awaits and type arguments are filled.
`ReadersSound w` says so of every reader on trees that weigh less than `w`; the other modules of
this folder carry it from one weight to the next. -/

namespace TwinClasses

def Node.ReadFrom (n : Node) (ts : List Tree) : Prop :=
  Stands n.outline ts ∧ n.Every Node.IsWritten

def Node.AllReadFrom (ns : List Node) (ts : List Tree) : Prop :=
  Stands (Node.outlineAll ns) ts ∧ Node.EveryOf Node.IsWritten ns

def Group.ReadFrom (g : Group) (ts : List Tree) : Prop :=
  Stands g.outline ts ∧ g.Every Node.IsWritten

def Group.OptionReadFrom (g : Option Group) (ts : List Tree) : Prop :=
  Stands (Group.outlineOption g) ts ∧ Group.EveryIn Node.IsWritten g

def Clause.OptionReadFrom (c : Option Clause) (ts : List Tree) : Prop :=
  Stands (Clause.outlineOption c) ts ∧ Clause.EveryIn Node.IsWritten c

def Clause.AllReadFrom (cs : List Clause) (ts : List Tree) : Prop :=
  Stands (Clause.outlineAll cs) ts ∧ Clause.EveryOf Node.IsWritten cs

def TypeRef.ReadFrom (r : TypeRef) (ts : List Tree) : Prop :=
  Stands r.outline ts ∧ (Node.typeRef r).Every Node.IsWritten

def TypeArgument.AllReadFrom (items : List TypeArgument) (ts : List Tree) : Prop :=
  Stands (TypeArgument.outlineAll items) ts ∧ TypeArgument.EveryOf Node.IsWritten items ∧
    ∀ a ∈ items, a.type ≠ []

/-- Type arguments and the angle bracket that closes their list. -/
def TypeArgument.RestReadFrom (found : List TypeArgument × Token) (ts : List Tree) : Prop :=
  ∃ (inner : List Tree) (l : Lexeme), ts = inner ++ [.token l] ∧ found.2 = l.toToken ∧
    TypeArgument.AllReadFrom found.1 inner

def Member.ReadFrom (m : Member) (ts : List Tree) : Prop :=
  Stands m.outline ts ∧ m.Every Node.IsWritten

def Member.AllReadFrom (ms : List Member) (ts : List Tree) : Prop :=
  Stands (Member.outlineAll ms) ts ∧ Member.EveryOf Node.IsWritten ms

def MemberName.ReadFrom (n : MemberName) (ts : List Tree) : Prop :=
  Stands n.outline ts ∧ n.Every Node.IsWritten

def Binding.ReadFrom (b : Binding) (ts : List Tree) : Prop :=
  Stands b.outline ts ∧ b.Every Node.IsWritten

def Parameter.ReadFrom (p : Parameter) (ts : List Tree) : Prop :=
  Stands p.outline ts ∧ p.Every Node.IsWritten

def Parameter.AllReadFrom (ps : List Parameter) (ts : List Tree) : Prop :=
  Stands (Parameter.outlineAll ps) ts ∧ Parameter.EveryOf Node.IsWritten ps

theorem Stands.ofTokens {xs : List Token} {ts : List Tree} (h : Tree.tokensAll ts = xs) :
    Stands (Spot.ofTokens xs) ts := by
  subst h
  exact ⟨[], .ofTokens _⟩

namespace Node

variable {ns ms : List Node} {n : Node} {ts us : List Tree}

theorem AllReadFrom.nil : AllReadFrom [] [] := by
  refine ⟨?_, ?_⟩
  · simpa [outlineAll] using Stands.nil
  · simp [EveryOf]

theorem ReadFrom.cons (h : n.ReadFrom ts) (h' : AllReadFrom ns us) :
    AllReadFrom (n :: ns) (ts ++ us) := by
  refine ⟨?_, ?_⟩
  · rw [outlineAll]
    exact h.1.append h'.1
  · rw [EveryOf]
    exact ⟨h.2, h'.2⟩

theorem AllReadFrom.append (h : AllReadFrom ns ts) (h' : AllReadFrom ms us) :
    AllReadFrom (ns ++ ms) (ts ++ us) := by
  refine ⟨?_, ?_⟩
  · rw [outlineAll_append]
    exact h.1.append h'.1
  · rw [everyOf_append]
    exact ⟨h.2, h'.2⟩

theorem ReadFrom.token (l : Lexeme) : (Node.token l.toToken).ReadFrom [.token l] := by
  refine ⟨?_, ?_⟩
  · rw [outline]
    exact Stands.single l
  · simp [Every, IsWritten, IsFilled]

theorem ReadFrom.single (h : n.ReadFrom ts) : AllReadFrom [n] ts := by
  have hc := h.cons AllReadFrom.nil
  rwa [List.append_nil] at hc

theorem AllReadFrom.token (l : Lexeme) (h : AllReadFrom ns ts) :
    AllReadFrom (.token l.toToken :: ns) (.token l :: ts) :=
  (ReadFrom.token l).cons h

theorem AllReadFrom.ne_nil (h : AllReadFrom ns ts) (hts : ts ≠ []) : ns ≠ [] := by
  rintro rfl
  have ho := h.1.ne_nil hts
  simp [outlineAll] at ho

theorem ReadFrom.access (object dot name : Lexeme) :
    (Node.access object.toToken dot.toToken name.toToken).ReadFrom
      [.token object, .token dot, .token name] := by
  refine ⟨?_, ?_⟩
  · rw [outline]
    exact ((Stands.single name).token dot).token object
  · simp [Every, IsWritten, IsFilled]

theorem ReadFrom.await (l : Lexeme) (h : AllReadFrom ns ts) (hts : ts ≠ []) :
    (Node.await l.toToken ns).ReadFrom (.token l :: ts) := by
  refine ⟨?_, ?_⟩
  · rw [outline]
    exact h.1.token l
  · rw [Every]
    exact ⟨h.ne_nil hts, h.2⟩

end Node

theorem Clause.AllReadFrom.nil : AllReadFrom [] [] := by
  refine ⟨?_, ?_⟩
  · simpa [outlineAll] using Stands.nil
  · simp [EveryOf]

/-- A mark, such as a colon, and the nodes behind it. -/
theorem Node.AllReadFrom.clause {ns : List Node} {ts : List Tree} (mark : Lexeme)
    (h : AllReadFrom ns ts) :
    Clause.OptionReadFrom (some ⟨mark.toToken, ns⟩) (.token mark :: ts) := by
  refine ⟨?_, ?_⟩
  · rw [Clause.outlineOption, Clause.outline]
    exact h.1.token mark
  · rw [Clause.EveryIn, Clause.Every]
    exact h.2

theorem Clause.OptionReadFrom.none : OptionReadFrom none [] := by
  refine ⟨?_, ?_⟩
  · simpa [outlineOption] using Stands.nil
  · simp [EveryIn]

theorem Group.OptionReadFrom.none : OptionReadFrom none [] := by
  refine ⟨?_, ?_⟩
  · simpa [outlineOption] using Stands.nil
  · simp [EveryIn]

/-- One more decorator, behind those before it. -/
theorem Clause.AllReadFrom.snoc {cs : List Clause} {ns : List Node} {ts us : List Tree}
    (mark : Lexeme) (h : AllReadFrom cs ts) (h' : Node.AllReadFrom ns us) :
    AllReadFrom (cs ++ [⟨mark.toToken, ns⟩]) (ts ++ .token mark :: us) := by
  refine ⟨?_, ?_⟩
  · rw [outlineAll_append]
    apply h.1.append
    have hm := h'.1.token mark
    simpa [outlineAll, outline] using hm
  · rw [everyOf_append]
    exact ⟨h.2, by simpa [EveryOf, Every] using h'.2⟩

theorem Group.ReadFrom.ofChildren {d : Delimiter} {opening closing : Lexeme} {ns : List Node}
    {ts : List Tree} (h : Node.AllReadFrom ns ts) :
    (Group.mk d opening.toToken ns closing.toToken).ReadFrom [.group d opening ts closing] := by
  refine ⟨?_, ?_⟩
  · rw [Group.outline]
    exact h.1.group d opening closing
  · rw [Group.Every]
    exact h.2

theorem Group.ReadFrom.node {g : Group} {ts : List Tree} (h : g.ReadFrom ts) :
    (Node.group g).ReadFrom ts := by
  refine ⟨?_, ?_⟩
  · rw [Node.outline]
    exact h.1
  · rw [Node.Every]
    exact ⟨trivial, h.2⟩

theorem MemberName.ReadFrom.identifier (l : Lexeme) :
    (MemberName.identifier l.toToken).ReadFrom [.token l] := by
  refine ⟨?_, ?_⟩
  · rw [outline]
    exact .single l
  · rw [Every]
    trivial

theorem MemberName.ReadFrom.literal (l : Lexeme) :
    (MemberName.literal l.toToken).ReadFrom [.token l] := by
  refine ⟨?_, ?_⟩
  · rw [outline]
    exact .single l
  · rw [Every]
    trivial

theorem Group.ReadFrom.computed {g : Group} {ts : List Tree} (h : g.ReadFrom ts) :
    (MemberName.computed g).ReadFrom ts := by
  refine ⟨?_, ?_⟩
  · rw [MemberName.outline]
    exact h.1
  · rw [MemberName.Every]
    exact h.2

theorem Node.AllReadFrom.other {ns : List Node} {ts : List Tree} (h : AllReadFrom ns ts) :
    (Member.other ns).ReadFrom ts := by
  refine ⟨?_, ?_⟩
  · rw [Member.outline]
    exact h.1
  · rw [Member.Every]
    exact h.2

theorem Member.AllReadFrom.nil : AllReadFrom [] [] := by
  refine ⟨?_, ?_⟩
  · simpa [outlineAll] using Stands.nil
  · simp [EveryOf]

theorem Member.ReadFrom.cons {m : Member} {ms : List Member} {ts us : List Tree}
    (h : m.ReadFrom ts) (h' : AllReadFrom ms us) : AllReadFrom (m :: ms) (ts ++ us) := by
  refine ⟨?_, ?_⟩
  · rw [outlineAll]
    exact h.1.append h'.1
  · rw [EveryOf]
    exact ⟨h.2, h'.2⟩

theorem Parameter.AllReadFrom.nil : AllReadFrom [] [] := by
  refine ⟨?_, ?_⟩
  · simpa [outlineAll] using Stands.nil
  · simp [EveryOf]

theorem Parameter.ReadFrom.cons {p : Parameter} {ps : List Parameter} {ts us : List Tree}
    (h : p.ReadFrom ts) (h' : AllReadFrom ps us) : AllReadFrom (p :: ps) (ts ++ us) := by
  refine ⟨?_, ?_⟩
  · rw [outlineAll]
    exact h.1.append h'.1
  · rw [EveryOf]
    exact ⟨h.2, h'.2⟩

theorem Parameter.AllReadFrom.list {ps : List Parameter} {ts : List Tree} (opening close : Lexeme)
    (h : AllReadFrom ps ts) :
    Stands (ParameterList.mk opening.toToken ps close.toToken).outline
        [.group .paren opening ts close] ∧
      (ParameterList.mk opening.toToken ps close.toToken).Every Node.IsWritten := by
  refine ⟨?_, ?_⟩
  · rw [ParameterList.outline]
    exact h.1.group .paren opening close
  · rw [ParameterList.Every]
    exact h.2

theorem TypeRef.ReadFrom.node {r : TypeRef} {ts : List Tree} (h : r.ReadFrom ts) :
    (Node.typeRef r).ReadFrom ts := by
  refine ⟨?_, h.2⟩
  rw [Node.outline]
  exact h.1

namespace Reader

/-- What has been found is read from the trees; what is to be kept as it was written, trivially. -/
def Declared.ReadFrom : Declared → List Tree → Prop
  | .member m, ts => m.ReadFrom ts
  | .verbatim, _ => True
  | .property, _ => True

/-- The readers do what they promise on trees that weigh less than `w`. -/
structure ReadersSound (w : Nat) : Prop where
  type : ∀ closing conditional ts, Tree.weightAll ts < w →
    (type closing conditional ts).Yields Node.AllReadFrom
  operands : ∀ closing conditional ts, Tree.weightAll ts < w →
    (operands closing conditional ts).Yields Node.AllReadFrom
  operand : ∀ closing ts, Tree.weightAll ts < w → (operand closing ts).Yields Node.AllReadFrom
  primary : ∀ closing ts, Tree.weightAll ts < w → (primary closing ts).Yields Node.AllReadFrom
  typeArgumentsRest : ∀ closing ts, Tree.weightAll ts < w →
    (typeArgumentsRest closing ts).Yields TypeArgument.RestReadFrom
  sequence : ∀ parent last ts ns, Tree.weightAll ts < w → sequence parent last ts = .ok ns →
    Node.AllReadFrom ns ts
  members : ∀ closing ts ms, Tree.weightAll ts < w → members closing ts = .ok ms →
    Member.AllReadFrom ms ts
  declared : ∀ closing decorators before ts, Tree.weightAll ts < w →
    Clause.AllReadFrom decorators before →
    (declared closing decorators ts).Yields fun found read => found.ReadFrom (before ++ read)
  parameters : ∀ closing ts ps, Tree.weightAll ts < w → parameters closing ts = .ok ps →
    Parameter.AllReadFrom ps ts

variable {w : Nat}

theorem group_readFrom (hs : ∀ parent last ts ns, Tree.weightAll ts < w →
    sequence parent last ts = .ok ns → Node.AllReadFrom ns ts)
    {d : Delimiter} {opening closing : Lexeme} {children : List Tree} {g : Group}
    (hw : Tree.weightAll children < w) (h : group d opening children closing = .ok g) :
    g.ReadFrom [.group d opening children closing] := by
  unfold group at h
  cases hc : sequence (some d) none children with
  | error fault => simp [hc, Except.map] at h
  | ok ns =>
    simp only [hc, Except.map, Except.ok.injEq] at h
    subst h
    exact .ofChildren (hs _ _ _ _ hw hc)

/-- The group that comes after the trees in `before`. -/
theorem yields_group (ih : ReadersSound w) {d : Delimiter} {opening closing : Lexeme}
    {children us ts : List Tree} (h : Follows us ts) (before : List Tree)
    (hts : ts = before ++ .group d opening children closing :: us)
    (hw : Tree.weightAll children < w) :
    (Reading.ofExcept (group d opening children closing) us h).Yields fun g read =>
      read = before ++ [.group d opening children closing] ∧
        g.ReadFrom [.group d opening children closing] := by
  refine Reading.Yields.ofExcept (before ++ [.group d opening children closing])
    (by simpa using hts) ?_
  intro g hg
  exact ⟨rfl, group_readFrom ih.sequence hw hg⟩

end Reader

end TwinClasses
