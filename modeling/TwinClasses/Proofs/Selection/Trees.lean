import Mathlib.Data.List.Infix
import TwinClasses.Proofs.Rerun.Sources

set_option autoImplicit false

/-! Directory trees. What is on a disk that is one does not depend on the order in which its entries
are listed, and the sources below a directory are the files with the right names at places of the
tree. -/

namespace TwinClasses

namespace FileSystem

open TwinClasses.Path (IsName)

variable {disk disk' : FileSystem} {l d : Location} {e : Entry} {names : List String}

/-- Each place has one entry, and all above it are directories. -/
structure IsTree (disk : FileSystem) : Prop where
  distinct : (disk.entries.map (·.1)).Nodup
  reached : ∀ x ∈ disk.entries, disk.Reached x.1

theorem lookup_eq_some_iff_mem {entries : List (Location × Entry)}
    (h : (entries.map (·.1)).Nodup) : entries.lookup l = some e ↔ (l, e) ∈ entries := by
  induction entries with
  | nil => simp
  | cons x xs ih =>
    obtain ⟨k, v⟩ := x
    obtain ⟨hk, hxs⟩ := List.nodup_cons.1 h
    rw [List.lookup_cons, List.mem_cons]
    by_cases hl : l = k
    · subst hl
      have hnot : (l, e) ∉ xs := fun hmem => hk (List.mem_map.2 ⟨(l, e), hmem, rfl⟩)
      simp [hnot, eq_comm]
    · rw [beq_eq_false_iff_ne.2 hl]
      simp [ih hxs, hl]

theorem get?_of_perm (h : (disk.entries.map (·.1)).Nodup)
    (hperm : disk'.entries.Perm disk.entries) (l : Location) : disk'.get? l = disk.get? l := by
  have hnodup : (disk'.entries.map (·.1)).Nodup := (hperm.map _).nodup_iff.2 h
  rw [get?, get?]
  congr 1
  refine Option.ext fun e => ?_
  rw [lookup_eq_some_iff_mem h, lookup_eq_some_iff_mem hnodup, hperm.mem_iff]

theorem isDirectory_of_get? (h : ∀ l, disk'.get? l = disk.get? l) (p : Path) :
    disk'.isDirectory p = disk.isDirectory p := by
  rw [Bool.eq_iff_iff, isDirectory_iff, isDirectory_iff, locate_of_get? h]
  simp only [h]

theorem not_isFixed_of_names (hne : names ≠ []) (hnames : ∀ s ∈ names, IsName s) :
    (d ++ names).isFixed = false := by
  have hlast := hnames _ (List.getLast_mem hne)
  have hmem : names.getLast hne ∈ d ++ names := List.mem_append_right d (List.getLast_mem hne)
  rw [Location.isFixed, Bool.or_eq_false_iff, decide_eq_false_iff_not, Bool.eq_false_iff]
  refine ⟨fun h => ?_, fun h => ?_⟩
  · rw [h, List.mem_singleton] at hmem
    exact hlast.2 (by rw [hmem]; decide)
  · exact (Path.isName_iff.1 hlast).1.2.2 (of_decide_eq_true (List.all_eq_true.1 h _ hmem))

theorem below?_append (hne : names ≠ []) (hnames : ∀ s ∈ names, IsName s) :
    Location.below? (d ++ names) d = some names := by
  cases names with
  | nil => exact absurd rfl hne
  | cons s ss =>
    have hs := hnames s List.mem_cons_self
    have hroot : s ≠ "/" := fun h => hs.2 (by rw [h]; decide)
    have hup : s ≠ ".." := (Path.isName_iff.1 hs).1.2.2
    rw [Location.below?, List.drop_left]
    split
    · rename_i h
      cases h
    · rename_i h
      cases h
      exact absurd rfl hroot
    · rename_i h
      cases h
      exact absurd rfl hup
    · simp

/-- The files below a directory of a tree are at the places of their names. -/
theorem IsTree.exists_below?_iff (tree : disk.IsTree) :
    (∃ l, disk.HasFile l ∧ l.below? d = some names) ↔
      names ≠ [] ∧ (∀ s ∈ names, IsName s) ∧
        ∃ e, disk.get? (d ++ names) = some e ∧ e ≠ .directory := by
  constructor
  · rintro ⟨l, ⟨e, he, hmem⟩, hbelow⟩
    obtain ⟨rfl, hne, -, -⟩ := below?_eq_some hbelow
    have hnames := (tree.reached _ hmem).isName_of_below? hbelow
    refine ⟨hne, hnames, e, ?_, he⟩
    rw [get?, not_isFixed_of_names hne hnames, if_neg Bool.false_ne_true]
    exact (lookup_eq_some_iff_mem tree.distinct).2 hmem
  · rintro ⟨hne, hnames, e, hget, he⟩
    exact ⟨d ++ names, hasFile_of_get? hget he, below?_append hne hnames⟩

/-- Whether all entries stand at names below the working directory, each at a place of its own and
in directories that are there. -/
def testTree (disk : FileSystem) : Bool :=
  decide (disk.entries.map (·.1)).Nodup && disk.entries.all fun x =>
    x.1.all (fun s => decide (Path.component? s = some (.name s)) && !s.toList.contains '/') &&
      x.1.inits.all fun above => above = x.1 || disk.get? above = some .directory

theorem isTree_of_test (h : disk.testTree = true) : disk.IsTree := by
  simp only [testTree, Bool.and_eq_true, decide_eq_true_eq, List.all_eq_true, Bool.or_eq_true,
    Bool.not_eq_true', List.contains_eq_mem, decide_eq_false_iff_not, List.mem_inits] at h
  refine ⟨h.1, fun x hx => ?_⟩
  obtain ⟨hnames, habove⟩ := h.2 x hx
  exact ⟨⟨[], x.1, rfl, rfl, hnames⟩, fun q hq hne => (habove q hq).resolve_left hne⟩

end FileSystem

namespace Project

variable {disk : FileSystem} {base : Path} {names ms : List String}

/-- A file with the extension of sources, by its names from the directory at `base` down. Neither
that directory nor one on the way to the file is one of libraries. -/
structure IsSource (disk : FileSystem) (base : Path) (names : List String) : Prop where
  isFile : ∃ d e, disk.locate base = .ok d ∧ disk.get? (d ++ names) = some e ∧ e ≠ .directory
  isName : ∀ s ∈ names, Path.IsName s
  extension : names.getLast?.any (hasExtension "ts") = true
  notLibrary : ∀ s ∈ base.fileName?.toList ++ names.dropLast, s ∉ libraryDirectories

theorem mem_candidates_iff_isSource (tree : disk.IsTree) :
    names ∈ candidates disk base ↔ IsSource disk base names := by
  have hlib : (¬ base.fileName?.any (· ∈ libraryDirectories)) ∧
      names.dropLast.all (· ∉ libraryDirectories) ↔
        ∀ s ∈ base.fileName?.toList ++ names.dropLast, s ∉ libraryDirectories := by
    cases base.fileName? <;> simp
  rw [mem_candidates_iff]
  constructor
  · rintro ⟨d, hd, hbase, hfile, hall, hext⟩
    obtain ⟨-, hnames, e, hget, he⟩ := tree.exists_below?_iff.1 hfile
    exact ⟨⟨d, e, hd, hget, he⟩, hnames, hext, hlib.1 ⟨hbase, hall⟩⟩
  · rintro ⟨⟨d, e, hd, hget, he⟩, hnames, hext, hnot⟩
    have hne : names ≠ [] := by
      rintro rfl
      cases hext
    obtain ⟨hbase, hall⟩ := hlib.2 hnot
    exact ⟨d, hd, hbase, tree.exists_below?_iff.2 ⟨hne, hnames, e, hget, he⟩, hall, hext⟩

/-- No source is found twice. -/
theorem nodup_candidates (h : (disk.entries.map (·.1)).Nodup) : (candidates disk base).Nodup := by
  rw [candidates]
  split
  · exact List.nodup_nil
  · split
    · exact List.nodup_nil
    · refine List.Pairwise.filter _ ?_
      rw [FileSystem.filesBelow]
      refine List.Pairwise.filterMap _ ?_ (List.pairwise_map.1 h)
      rintro ⟨l, e⟩ ⟨l', e'⟩ hne names hnames names' hnames' rfl
      refine hne ?_
      dsimp only at hnames hnames'
      split at hnames
      · cases hnames
      · split at hnames'
        · cases hnames'
        · obtain ⟨hl, -⟩ := Option.filter_eq_some_iff.1 hnames
          obtain ⟨hl', -⟩ := Option.filter_eq_some_iff.1 hnames'
          rw [(FileSystem.below?_eq_some hl).1, (FileSystem.below?_eq_some hl').1]

theorem candidates_perm {disk' : FileSystem} (h : (disk.entries.map (·.1)).Nodup)
    (hperm : disk'.entries.Perm disk.entries) :
    (candidates disk' base).Perm (candidates disk base) := by
  rw [candidates, candidates, FileSystem.locate_of_get? (FileSystem.get?_of_perm h hperm)]
  split
  · exact List.Perm.refl []
  · split
    · exact List.Perm.refl []
    · exact (hperm.filterMap _).filter _

/-- The names from the base down are those of the path that is shown, behind those of the base. -/
theorem counted_joinAll (base : Path) (hne : names ≠ []) (hnames : ∀ s ∈ names, Path.IsName s) :
    (base.joinAll names).counted = base.counted ++ names := by
  cases names with
  | nil => exact absurd rfl hne
  | cons s ss =>
    obtain ⟨habs, hsegments⟩ := Path.segments_intercalate
      (Path.isName_iff.1 (hnames s List.mem_cons_self)).1.1 fun t ht => (hnames t ht).2
    obtain ⟨-, lead, hjoin, hlead⟩ := Path.join_eq base habs
    have hbase : base.counted = lead.filter fun s => (Path.component? s).isSome := by
      rw [Path.counted]
      obtain hlead | hlead := hlead
      · rw [hlead]
      · rw [hlead, List.filter_append]
        simp [Path.component?]
    have hall : (s :: ss).filter (fun s => (Path.component? s).isSome) = s :: ss :=
      List.filter_eq_self.2 fun t ht => by rw [(hnames t ht).1]; rfl
    rw [Path.joinAll, Path.counted, hjoin, hsegments, List.filter_append, hbase, hall]

/-- Different files have paths that differ in more than in how they are written. -/
theorem eq_of_components_joinAll
    (h : (base.joinAll names).components = (base.joinAll ms).components)
    (hne : names ≠ []) (hnames : ∀ s ∈ names, Path.IsName s) (hne' : ms ≠ [])
    (hms : ∀ s ∈ ms, Path.IsName s) : names = ms := by
  have hcounted := (Path.eq_of_components h).2
  rw [counted_joinAll base hne hnames, counted_joinAll base hne' hms] at hcounted
  exact List.append_cancel_left hcounted

end Project

end TwinClasses
