import TwinClasses.Proofs.Names.Roles
import TwinClasses.Proofs.RoundTrip.Fronts
import TwinClasses.Proofs.RoundTrip.Yields
import TwinClasses.Syntax.Reader

set_option autoImplicit false

/-! Where the constructs without brackets of their own end: what is chained to an operand, to a
decorator or to a type does not end in a dot, and a property only where the class ends. -/

namespace TwinClasses

namespace Tree

def isDot : Tree → Bool
  | token l => l.kind.isDot
  | group .. => false

/-- The last of the trees is no dot. -/
def Closed (ts : List Tree) : Prop := ∀ t ∈ ts.getLast?, t.isDot = false

/-- There is a last tree, and it is no dot. -/
structure Ends (ts : List Tree) : Prop where
  ne_nil : ts ≠ []
  closed : Closed ts

variable {t : Tree} {ts us : List Tree}

theorem closed_nil : Closed [] := by simp [Closed]

theorem closed_single (ht : t.isDot = false) : Closed [t] := by simpa [Closed] using ht

theorem Closed.append (h : Closed ts) (h' : Closed us) : Closed (ts ++ us) := by
  cases us with
  | nil => simpa using h
  | cons u us =>
    intro t ht
    rw [List.getLast?_append_of_ne_nil _ (by simp)] at ht
    exact h' t ht

theorem Closed.of_append (h : Closed (ts ++ us)) : Closed us := by
  cases us with
  | nil => exact closed_nil
  | cons u us =>
    intro t ht
    apply h t
    rwa [List.getLast?_append_of_ne_nil _ (by simp)]

/-- Of what is in front, only the last tree counts. -/
theorem Closed.of_getLast? (h : Closed (ts.getLast?.toList ++ us)) : Closed (ts ++ us) := by
  cases us with
  | nil =>
    intro t ht
    apply h
    rw [List.append_nil] at ht ⊢
    rw [ht]
    rfl
  | cons u us =>
    intro t ht
    apply h
    rwa [List.getLast?_append_of_ne_nil _ (by simp)] at ht ⊢

theorem ends_single (ht : t.isDot = false) : Ends [t] := ⟨by simp, closed_single ht⟩

theorem Ends.append_left (h : Ends us) (ts : List Tree) : Ends (ts ++ us) := by
  refine ⟨by simp [h.ne_nil], ?_⟩
  intro t ht
  rw [List.getLast?_append_of_ne_nil _ h.ne_nil] at ht
  exact h.closed t ht

theorem Ends.append (h : Ends ts) (h' : Closed us) : Ends (ts ++ us) :=
  ⟨by simp [h.ne_nil], h.closed.append h'⟩

theorem Ends.cons (h : Ends ts) (t : Tree) : Ends (t :: ts) := h.append_left [t]

theorem closed_cons (ht : t.isDot = false) (h : Closed ts) : Closed (t :: ts) :=
  (closed_single ht).append h

theorem before_eq {read rest : List Tree} (h : ts = read ++ rest) : before ts rest = read := by
  rw [h]
  simp [before]

theorem closed_take_frontToken? {k : Kind} (hk : k.isDot = false) (ts : List Tree) :
    Closed (ts.take (frontToken? k ts).toList.length) := by
  cases h : frontToken? k ts with
  | none => simpa using closed_nil
  | some t =>
    obtain ⟨l, us, rfl, rfl, rfl⟩ := frontToken?_eq_some h
    exact closed_single hk

end Tree

namespace Reading

variable {α : Type} {ts us : List Tree} {P Q : α → List Tree → Prop}

theorem yields_true (r : Reading α ts) : r.Yields fun _ _ => True := by
  cases r with
  | done a rest h =>
    obtain ⟨read, rfl⟩ := h.suffix
    exact ⟨read, rfl, trivial⟩
  | failed fault rest => trivial

theorem Yields.and {r : Reading α ts} (h : r.Yields P) (h' : r.Yields Q) :
    r.Yields fun a read => P a read ∧ Q a read := by
  cases r with
  | done a rest hr =>
    obtain ⟨read, hts, hp⟩ := h
    obtain ⟨read', hts', hq⟩ := h'
    obtain rfl : read = read' := List.append_cancel_right (hts.symm.trans hts')
    exact ⟨read, hts, hp, hq⟩
  | failed fault rest => trivial

end Reading

namespace Reader

open Extent Reading TwinClasses.Tree

theorem isDot_of_isMemberName {t : Tree} (h : isMemberName t = true) : t.isDot = false := by
  cases t with
  | group d opening children closing => rfl
  | token l =>
    simp only [isMemberName, Bool.or_eq_true, decide_eq_true_eq] at h
    obtain h | h := h <;> simp [isDot, Kind.isDot, h]

theorem isDot_of_isOptionalLink {t : Tree} (h : isOptionalLink t = true) : t.isDot = false := by
  cases t with
  | group d opening children closing => rfl
  | token l => exact isDot_of_isMemberName h

theorem isDot_of_isOperandCore {t : Tree} (h : isOperandCore t = true) : t.isDot = false := by
  cases t with
  | group d opening children closing => rfl
  | token l =>
    cases hk : l.kind <;> simp [isOperandCore, hk, Kind.isLiteral] at h <;>
      simp [isDot, Kind.isDot, hk]

theorem isDot_of_isIncomplete {t : Tree} (h : isIncomplete t = false) : t.isDot = false := by
  cases t with
  | group d opening children closing => rfl
  | token l => cases hk : l.kind <;> simp [isIncomplete, hk] at h <;> simp [isDot, Kind.isDot, hk]

/-- A type argument list ends in its angle bracket. -/
theorem typeArgumentsRest_ends (closing : Option Nat) (ts : List Tree) :
    (typeArgumentsRest closing ts).Yields fun _ read => Ends read := by
  unfold typeArgumentsRest
  have hangle : ∀ l : Lexeme, l.kind = .greaterThan → Ends [.token l] :=
    fun l hl => ends_single (by simp [isDot, Kind.isDot, hl])
  generalize hc : Tree.frontToken? .greaterThan ts = c
  cases c with
  | some close =>
    obtain ⟨l, us, rfl, hl, rfl⟩ := frontToken?_eq_some hc
    exact ⟨[.token l], rfl, hangle l hl⟩
  | none =>
    apply (yields_true _).andThen
    intro nodes read us h hts _
    split
    · rename_i l vs h
      have hvs := h.tail.weight_lt
      split
      · apply Yields.map
        refine Yields.within (read ++ [.token l]) (by simp [hts]) ?_
        apply (typeArgumentsRest_ends closing vs).mono
        intro found rest hrest
        exact hrest.append_left _
      · split
        · rename_i hl
          exact ⟨read ++ [.token l], by simp [hts], (hangle l hl).append_left read⟩
        · exact yields_unexpected _ _ _
    · exact yields_unexpected _ _ _
  termination_by Tree.weightAll ts

theorem typeArguments_ends (closing : Option Nat) (ts : List Tree) :
    (typeArguments closing ts).Yields fun _ read => Ends read := by
  unfold typeArguments
  split
  · rename_i opening us
    split
    · apply Yields.after
      apply Yields.map
      apply (typeArgumentsRest_ends closing us).mono
      intro found read hread
      exact hread.cons _
    · exact yields_unexpected _ _ _
  · exact yields_unexpected _ _ _

/-- What is chained to an operand does not end in a dot. -/
theorem closed_take_chainLength (ts : List Tree) : Closed (ts.take (chainLength ts)) := by
  have hlink : ∀ (l : Lexeme) (us : List Tree) (p : Tree → Bool), us.head?.any p = true →
      (∀ t, p t = true → t.isDot = false) → Closed ((us.drop 1).take (chainLength (us.drop 1))) →
      Closed ((Tree.token l :: us).take (2 + chainLength (us.drop 1))) := by
    intro l us p hany hp hrest
    cases us with
    | nil => cases hany
    | cons t us =>
      have ht : Closed [.token l, t] := by simpa [Closed] using hp t (by simpa using hany)
      rw [Nat.add_comm]
      exact ht.append hrest
  match ts with
  | [] => simpa using closed_nil
  | .group d opening children closing :: us =>
    rw [chainLength]
    split
    · exact closed_nil
    · rw [Nat.add_comm]
      exact closed_cons rfl (closed_take_chainLength us)
  | .token l :: us =>
    rw [chainLength]
    split
    · split
      · rename_i hany
        exact hlink l us isMemberName hany (fun t => isDot_of_isMemberName)
          (closed_take_chainLength (us.drop 1))
      · exact closed_nil
    · split
      · rename_i hany
        exact hlink l us isOptionalLink hany (fun t => isDot_of_isOptionalLink)
          (closed_take_chainLength (us.drop 1))
      · exact closed_nil
    · rename_i hk
      split
      · rw [Nat.add_comm]
        exact closed_cons (by simp [isDot, Kind.isDot, hk]) (closed_take_chainLength us)
      · exact closed_nil
    · rename_i hk
      split
      · rw [Nat.add_comm]
        exact closed_cons (by simp [isDot, Kind.isDot, hk]) (closed_take_chainLength us)
      · exact closed_nil
    · split
      · split
        · rename_i arguments vs h hr
          split
          · have hy := typeArguments_ends none (.token l :: us)
            rw [hr] at hy
            obtain ⟨read, hts, hread⟩ := hy
            have hlength : us.length + 1 - vs.length = read.length := by
              have := congrArg List.length hts
              simp only [List.length_cons, List.length_append] at this
              omega
            have hvs := h.weight_lt
            rw [hts, hlength, List.take_length_add_append]
            exact hread.closed.append (closed_take_chainLength vs)
          · exact closed_nil
        · exact closed_nil
      · exact closed_nil
    · exact closed_nil
  termination_by Tree.weightAll ts
  decreasing_by all_goals grind

theorem closed_take_operandLength (ts : List Tree) : Closed (ts.take (operandLength ts)) := by
  rw [operandLength]
  split
  · rename_i t us hd
    split
    · rename_i ht
      have hchain := closed_take_chainLength us
      rw [Nat.add_assoc, List.take_add, hd, Nat.add_comm 1, List.take_succ_cons]
      have hends : Ends (t :: us.take (chainLength us)) :=
        (ends_single (isDot_of_isOperandCore ht)).append hchain
      exact (hends.append_left _).closed
    · exact closed_nil
  · exact closed_nil

theorem closed_take_decoratorLength (ts : List Tree) :
    Closed (ts.take (decoratorLength ts)) := by
  induction ts using decoratorLength.induct with
  | case1 dot name ts h ih =>
    have hname : (Tree.token name).isDot = false := by
      simp only [Bool.and_eq_true, decide_eq_true_eq] at h
      simp [isDot, Kind.isDot, h.2]
    rw [decoratorLength, if_pos h, Nat.add_comm]
    exact (((ends_single hname).cons (.token dot)).append ih).closed
  | case2 dot name ts h =>
    rw [decoratorLength, if_neg h]
    exact closed_nil
  | case3 opening children closing ts h =>
    rw [decoratorLength, if_pos h]
    exact closed_nil
  | case4 opening children closing ts h ih =>
    rw [decoratorLength, if_neg h, Nat.add_comm]
    exact closed_cons rfl ih
  | case5 ts hdotted hgroup =>
    rw [decoratorLength.eq_3 ts hdotted hgroup]
    exact closed_nil

/-- A property goes on behind a dot, wherever the line ends. -/
theorem closed_take_propertyLength (previous : Option Tree) (ts : List Tree) :
    ts.drop (propertyLength previous ts) = [] ∨
      Closed (previous.toList ++ ts.take (propertyLength previous ts)) := by
  induction ts generalizing previous with
  | nil => exact .inl rfl
  | cons t ts ih =>
    rw [propertyLength]
    split
    · rename_i hk
      have ht : t.isDot = false := by
        cases t with
        | group d opening children closing => rfl
        | token l =>
          have hl : l.kind = .semicolon := by simpa [isKind] using hk
          simp [isDot, Kind.isDot, hl]
      exact .inr ((ends_single ht).append_left _).closed
    · split
      · rename_i h
        rw [Bool.and_eq_true] at h
        obtain ⟨p, rfl, hp⟩ := (Option.any_eq_true _ _).1 h.2
        rw [Bool.not_eq_true', Bool.or_eq_false_iff] at hp
        exact .inr (closed_single (isDot_of_isIncomplete hp.1))
      · rw [Nat.add_comm, List.drop_succ_cons, List.take_succ_cons]
        obtain hend | hclosed := ih (some t)
        · exact .inl hend
        · exact .inr (Ends.append_left ⟨by simp, hclosed⟩ _).closed

end Reader

end TwinClasses
