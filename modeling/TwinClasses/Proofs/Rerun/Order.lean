import TwinClasses.Project

set_option autoImplicit false

/-! The order of source files. Sorted and without repetitions, the files of a project come in the
strict order of their components, and of files with the same components the first one named is
kept. -/

namespace TwinClasses

namespace Path

theorem Component.compare_name (s t : String) :
    compare (Component.name s) (Component.name t) = compare s t := by
  change (compare s t).then .eq = compare s t
  cases compare s t <;> rfl

instance Component.instTransOrd : Std.TransOrd Component where
  eq_swap := by
    intro a b
    cases a with
    | name s =>
      cases b with
      | name t =>
        rw [compare_name, compare_name]
        exact Std.OrientedOrd.eq_swap
      | _ => rfl
    | _ => cases b <;> rfl
  isLE_trans := by
    intro a b c hab hbc
    cases a with
    | name s =>
      cases b with
      | name t =>
        cases c with
        | name u =>
          rw [compare_name] at hab hbc ⊢
          exact Std.TransOrd.isLE_trans hab hbc
        | _ => cases hbc
      | _ => cases hab
    | _ =>
      have hne {o : Ordering} (h : o.isLE = true) (ho : o = .gt) : False := by
        rw [ho] at h
        cases h
      cases b <;> cases c <;> first | rfl | exact (hne hab rfl).elim | exact (hne hbc rfl).elim

instance Component.instLawfulEqOrd : Std.LawfulEqOrd Component where
  compare_self := by
    intro a
    cases a with
    | name s =>
      rw [compare_name]
      exact Std.ReflOrd.compare_self
    | _ => rfl
  eq_of_compare := by
    intro a b h
    cases a with
    | name s =>
      cases b with
      | name t =>
        rw [compare_name] at h
        rw [Std.LawfulEqOrd.eq_of_compare h]
      | _ => cases h
    | _ => cases b <;> first | rfl | cases h

theorem le_trans (p q r : Path) (hpq : p.le q = true) (hqr : q.le r = true) : p.le r = true :=
  Std.TransOrd.isLE_trans hpq hqr

theorem le_total (p q : Path) : (p.le q || q.le p) = true := by
  have hswap : compare q.components p.components = (compare p.components q.components).swap :=
    Std.OrientedOrd.eq_swap
  rw [le, le, hswap]
  cases compare p.components q.components <;> rfl

theorem le_antisymm {p q : Path} (hpq : p.le q = true) (hqp : q.le p = true) :
    p.components = q.components := by
  have hswap : compare q.components p.components = (compare p.components q.components).swap :=
    Std.OrientedOrd.eq_swap
  rw [le, hswap] at hqp
  rw [le] at hpq
  apply Std.LawfulEqOrd.eq_of_compare
  revert hpq hqp
  cases compare p.components q.components <;> simp

theorem le_of_components {p q : Path} (h : p.components = q.components) : p.le q = true := by
  rw [le, h, Std.ReflOrd.compare_self]
  rfl

/-- Paths that are the same but for how they are written. -/
def alike (p q : Path) : Bool := p.components = q.components

end Path

namespace Project

variable {ps qs : List Path} {p q : Path}

/-- Before and not alike. -/
def Precedes (p q : Path) : Prop := p.le q = true ∧ p.components ≠ q.components

theorem dropRepeated_subset (ps : List Path) : ∀ p ∈ dropRepeated ps, p ∈ ps := by
  induction ps with
  | nil => simp [dropRepeated]
  | cons q qs ih =>
    intro p hp
    unfold dropRepeated at hp
    split at hp
    · rw [List.mem_singleton] at hp
      rw [hp]
      exact List.mem_cons_self
    · rename_i r rs hd
      rw [hd] at ih
      split at hp
      · rcases List.mem_cons.1 hp with rfl | hp
        · exact List.mem_cons_self
        · exact List.mem_cons_of_mem _ (ih _ (List.mem_cons_of_mem _ hp))
      · rcases List.mem_cons.1 hp with rfl | hp
        · exact List.mem_cons_self
        · exact List.mem_cons_of_mem _ (ih _ hp)

/-- Of each path one that is alike is kept. -/
theorem exists_alike_of_mem (h : p ∈ ps) :
    ∃ q ∈ dropRepeated ps, q.components = p.components := by
  induction ps with
  | nil => cases h
  | cons r rs ih =>
    unfold dropRepeated
    have hrest : p ∈ rs → ∃ q ∈ dropRepeated rs, q.components = p.components := ih
    split
    · rename_i hd
      rw [hd] at hrest
      rcases List.mem_cons.1 h with rfl | h
      · exact ⟨_, List.mem_singleton_self _, rfl⟩
      · obtain ⟨q, hq, -⟩ := hrest h
        cases hq
    · rename_i s ss hd
      rw [hd] at hrest
      split
      · rename_i heq
        rcases List.mem_cons.1 h with rfl | h
        · exact ⟨_, List.mem_cons_self, rfl⟩
        · obtain ⟨q, hq, hqp⟩ := hrest h
          rcases List.mem_cons.1 hq with rfl | hq
          · exact ⟨r, List.mem_cons_self, heq.trans hqp⟩
          · exact ⟨q, List.mem_cons_of_mem _ hq, hqp⟩
      · rcases List.mem_cons.1 h with rfl | h
        · exact ⟨_, List.mem_cons_self, rfl⟩
        · obtain ⟨q, hq, hqp⟩ := hrest h
          exact ⟨q, List.mem_cons_of_mem _ hq, hqp⟩

theorem Precedes.of_le {r : Path} (h : Precedes q r) (hpq : p.le q = true) : Precedes p r := by
  refine ⟨Path.le_trans p q r hpq h.1, fun heq => h.2 (Path.le_antisymm h.1 ?_)⟩
  exact Path.le_trans r p q (Path.le_of_components heq.symm) hpq

theorem pairwise_dropRepeated (h : ps.Pairwise fun p q => p.le q = true) :
    (dropRepeated ps).Pairwise Precedes := by
  induction ps with
  | nil => exact List.Pairwise.nil
  | cons p ps ih =>
    obtain ⟨hp, hps⟩ := List.pairwise_cons.1 h
    have hsub := dropRepeated_subset ps
    have hrest := ih hps
    unfold dropRepeated
    split
    · exact List.pairwise_singleton _ _
    · rename_i q qs hd
      rw [hd] at hrest hsub
      obtain ⟨hq, hqs⟩ := List.pairwise_cons.1 hrest
      have hpq := hp q (hsub q List.mem_cons_self)
      split
      · exact List.pairwise_cons.2 ⟨fun r hr => (hq r hr).of_le hpq, hqs⟩
      · rename_i hne
        refine List.pairwise_cons.2 ⟨fun r hr => ?_, hrest⟩
        rcases List.mem_cons.1 hr with rfl | hr
        · exact ⟨hpq, hne⟩
        · exact (hq r hr).of_le hpq

/-- Of alike paths the first one is kept. -/
theorem find?_of_mem_dropRepeated (h : ps.Pairwise fun p q => p.le q = true)
    (hp : p ∈ dropRepeated ps) : ps.find? (·.alike p) = some p := by
  induction ps with
  | nil => cases hp
  | cons r rs ih =>
    obtain ⟨hr, hrs⟩ := List.pairwise_cons.1 h
    have hfirst : (r :: rs).find? (·.alike r) = some r := by
      rw [List.find?_cons_of_pos (by simp [Path.alike])]
    have hlater : p ∈ dropRepeated rs → r.components ≠ p.components →
        (r :: rs).find? (·.alike p) = some p := by
      intro hp hne
      rw [List.find?_cons_of_neg (by simpa [Path.alike] using hne)]
      exact ih hrs hp
    have hsub := dropRepeated_subset rs
    have hstrict := pairwise_dropRepeated hrs
    unfold dropRepeated at hp
    split at hp
    · rw [List.mem_singleton] at hp
      rw [hp]
      exact hfirst
    · rename_i q qs hd
      rw [hd] at hsub hstrict hlater
      obtain ⟨hq, -⟩ := List.pairwise_cons.1 hstrict
      have hrq := hr q (hsub q List.mem_cons_self)
      split at hp
      · rcases List.mem_cons.1 hp with rfl | hp
        · exact hfirst
        · exact hlater (List.mem_cons_of_mem _ hp) ((hq p hp).of_le hrq).2
      · rename_i hne
        rcases List.mem_cons.1 hp with rfl | hp
        · exact hfirst
        · refine hlater hp ?_
          rcases List.mem_cons.1 hp with rfl | hp
          · exact hne
          · exact ((hq p hp).of_le hrq).2

theorem pairwise_mergeSort_le (ps : List Path) :
    (ps.mergeSort Path.le).Pairwise fun p q => p.le q = true :=
  List.pairwise_mergeSort Path.le_trans Path.le_total ps

/-- Sorting leaves alike paths in their order. -/
theorem find?_mergeSort (ps : List Path) (p : Path) :
    (ps.mergeSort Path.le).find? (·.alike p) = ps.find? (·.alike p) := by
  have halike : ((ps.filter (·.alike p)).Pairwise fun q r => q.le r = true) := by
    refine List.pairwise_of_forall_mem_list ?_
    intro q hq r hr
    have hq : q.components = p.components := by simpa [Path.alike] using (List.mem_filter.1 hq).2
    have hr : r.components = p.components := by simpa [Path.alike] using (List.mem_filter.1 hr).2
    exact Path.le_of_components (hq.trans hr.symm)
  have hsub := List.sublist_mergeSort Path.le_trans Path.le_total halike List.filter_sublist
  have hfilter := hsub.filter (·.alike p)
  rw [List.filter_filter] at hfilter
  simp only [Bool.and_self] at hfilter
  have heq := hfilter.eq_of_length ((List.mergeSort_perm ps Path.le).symm.filter _).length_eq
  rw [← List.head?_filter, ← List.head?_filter, heq]

/-- The files in the order of their paths, of alike ones the first. -/
def ordered (ps : List Path) : List Path := dropRepeated (ps.mergeSort Path.le)

theorem find?_of_mem_ordered (h : p ∈ ordered ps) : ps.find? (·.alike p) = some p := by
  rw [← find?_mergeSort]
  exact find?_of_mem_dropRepeated (pairwise_mergeSort_le ps) h

theorem exists_mem_ordered (h : p ∈ ps) : ∃ q ∈ ordered ps, q.components = p.components :=
  exists_alike_of_mem ((List.mergeSort_perm ps Path.le).mem_iff.2 h)

theorem pairwise_ordered (ps : List Path) : (ordered ps).Pairwise Precedes :=
  pairwise_dropRepeated (pairwise_mergeSort_le ps)

/-- The first file that is looked for comes before all others of them. -/
theorem le_of_find?_ordered {accepts : Path → Bool} (h : (ordered ps).find? accepts = some p)
    (hq : q ∈ ordered ps) (haccepts : accepts q = true) : p.le q = true := by
  obtain ⟨-, before, after, hsplit, hbefore⟩ := List.find?_eq_some_iff_append.1 h
  have hsorted := pairwise_ordered ps
  rw [hsplit] at hq hsorted
  rcases List.mem_append.1 hq with hq | hq
  · have hnot := hbefore q hq
    rw [haccepts] at hnot
    cases hnot
  · rcases List.mem_cons.1 hq with rfl | hq
    · exact Path.le_of_components rfl
    · exact ((List.pairwise_cons.1 (List.pairwise_append.1 hsorted).2.1).1 q hq).1

end Project

end TwinClasses
