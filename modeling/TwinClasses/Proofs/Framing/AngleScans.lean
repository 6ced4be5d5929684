import TwinClasses.Proofs.Framing.Angles
import TwinClasses.Proofs.Framing.Properties

set_option autoImplicit false

/-! Two ways to find the end of a list in angle brackets. Type arguments are read one type after
another, type parameters are only scanned for the bracket that closes the first one. Trees that can
be read as type arguments end at the same bracket either way. -/

namespace TwinClasses

namespace Extent

open TwinClasses.Tree

/-- The scan passes trees that leave some of its lists open, each time before the next of them, and
goes on with as many lists as are open then. -/
theorem angleLength?_append_of_open {depth : Nat} {ts : List Tree}
    (hopen : ∀ us, us <+: ts → us.length < ts.length → closeAngles us < openAngles us + depth)
    (rest : List Tree) : angleLength? depth (ts ++ rest) =
      (angleLength? (openAngles ts + depth - closeAngles ts) rest).map (· + ts.length) := by
  induction ts generalizing depth with
  | nil => simp
  | cons t ts ih =>
    cases depth with
    | zero => exact absurd (hopen [] (List.nil_prefix) (Nat.zero_lt_succ _)) (Nat.lt_irrefl 0)
    | succ depth =>
      have hstep := angleDepth_add_closeAngles t depth
      simp only [openAngles_cons, closeAngles_cons, openAngles_nil, closeAngles_nil] at hstep
      -- Behind the first tree the others are open at the depth with which the scan goes on.
      have htail : ∀ us, us <+: ts → us.length < ts.length → closeAngles us < openAngles us +
          (if t.isKind .lessThan then depth + 2
            else if t.isKind .greaterThan then depth else depth + 1) := by
        intro us hus hlt
        have hlt' : (t :: us).length < (t :: ts).length := Nat.succ_lt_succ hlt
        have := hopen (t :: us) ((List.prefix_cons_inj t).2 hus) hlt'
        simp only [openAngles_cons, closeAngles_cons] at this
        omega
      have hdepth : openAngles (t :: ts) + (depth + 1) - closeAngles (t :: ts) = openAngles ts +
          (if t.isKind .lessThan then depth + 2
            else if t.isKind .greaterThan then depth else depth + 1) - closeAngles ts := by
        simp only [openAngles_cons, closeAngles_cons]
        omega
      rw [List.cons_append, angleLength?, ih htail, hdepth, Option.map_map]
      rfl

/-- Behind the bracket that opens a list, the scan for the one that closes it takes the rest of the
list and nothing more. -/
theorem angleLength?_of_angleList {opening : Lexeme} {ts : List Tree}
    (h : AngleList (.token opening :: ts)) (rest : List Tree) :
    angleLength? 1 (ts ++ rest) = some ts.length := by
  have hk := h.opening_kind
  have hopen : ∀ us, us <+: ts → us.length < ts.length → closeAngles us < openAngles us + 1 := by
    intro us hus hlt
    have hlt' : (Tree.token opening :: us).length < (Tree.token opening :: ts).length :=
      Nat.succ_lt_succ hlt
    have := h.close_lt ((List.prefix_cons_inj _).2 hus) (List.cons_ne_nil _ _) hlt'
    simpa [isKind, hk] using this
  have heq : closeAngles ts = openAngles ts + 1 := by
    simpa [isKind, hk] using h.balanced.close_eq
  rw [angleLength?_append_of_open hopen, heq, Nat.sub_self]
  simp [angleLength?]

end Extent

namespace Reader

open Extent TwinClasses.Tree

/-- A list of type parameters in front of other trees is refined as a whole, and alone. -/
theorem typeParameters_of_angleList {opening : Lexeme} {us rest : List Tree}
    (hlist : AngleList (.token opening :: us)) (closing : Option Nat)
    (h : Follows rest (.token opening :: (us ++ rest))) :
    typeParameters closing (.token opening :: (us ++ rest)) =
      .ofExcept (sequence none none (.token opening :: us)) rest h := by
  have htake : (Tree.token opening :: (us ++ rest)).take (us.length + 1) =
      .token opening :: us := by
    rw [List.take_succ_cons, List.take_left]
  have hdrop : (us ++ rest).drop us.length = rest := List.drop_left
  unfold typeParameters
  simp only [hlist.opening_kind, if_true, angleLength?_of_angleList hlist rest, htake, hdrop]

/-- Where a list of type arguments can be read, the scan for a list of type parameters ends at the
same bracket, and refines the trees that the list consists of. -/
theorem typeParameters_eq_of_typeArguments {closing : Option Nat} {ts rest : List Tree}
    {arguments : TypeArguments} {h : Follows rest ts}
    (hread : typeArguments closing ts = .done arguments rest h) :
    ∃ opening us, ts = .token opening :: (us ++ rest) ∧ opening.kind = .lessThan ∧
      angleLength? 1 (us ++ rest) = some us.length ∧
      ∀ closing', typeParameters closing' ts =
        .ofExcept (sequence none none (.token opening :: us)) rest h := by
  have hy := typeArguments_angleList closing ts
  rw [hread] at hy
  obtain ⟨read, hts, hlist⟩ := hy
  obtain ⟨opening, us, rfl⟩ : ∃ opening us, read = .token opening :: us := by
    obtain ⟨opening, inner, close, heq, -⟩ := hlist
    exact ⟨opening, _, heq⟩
  rw [List.cons_append] at hts
  subst hts
  exact ⟨opening, us, rfl, hlist.opening_kind, angleLength?_of_angleList hlist rest,
    fun closing' => typeParameters_of_angleList hlist closing' h⟩

/-- A qualified name with arguments of its own, a generic function type, a conditional type and a
group, all in one list, and a call. -/
def nestedList : String := "<A.b<C>, <T>(x: T) => U[], D extends E ? F : (G<H>)>(x)"

/-- The call is left, and all in front of it is scanned. -/
theorem nestedList_scanned : ∃ opening us arguments rest h,
    typeArguments none (bodyTrees nestedList) = .done arguments rest h ∧ rest.length = 1 ∧
    bodyTrees nestedList = .token opening :: (us ++ rest) ∧
    angleLength? 1 (us ++ rest) = some us.length ∧ us.length = 23 := by
  have hlength : (bodyTrees nestedList).length = 25 := by decide +kernel
  have hsummary : (match typeArguments none (bodyTrees nestedList) with
      | .done _ rest _ => some rest.length
      | .failed _ _ => none) = some 1 := by decide +kernel
  generalize hread : typeArguments none (bodyTrees nestedList) = r at hsummary
  cases r with
  | failed fault rest => cases hsummary
  | done arguments rest h =>
    obtain ⟨opening, us, htrees, -, hscan, -⟩ := typeParameters_eq_of_typeArguments hread
    have hrest : rest.length = 1 := Option.some.inj hsummary
    rw [htrees] at hlength
    simp only [List.length_cons, List.length_append] at hlength
    exact ⟨opening, us, arguments, rest, h, rfl, hrest, htrees, hscan, by omega⟩

end Reader

end TwinClasses
