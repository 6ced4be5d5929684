import Mathlib.Data.List.Pairwise
import TwinClasses.Proofs.Selection.Trees

set_option autoImplicit false

/-! The files that a configuration names, as the tree has them: those that it lists, and the sources
that its patterns select. In which order a disk lists its entries makes no difference. -/

namespace TwinClasses.Project

variable {disk disk' : FileSystem} {config : Configuration} {file base p : Path}
  {patterns names : List String} {pattern : String} {ls ms ms' : List Path}

/-- The pattern can be read, as it is meant where it stands. -/
def IsPattern (disk : FileSystem) (base : Path) (pattern : String) : Prop :=
  ∃ glob, Glob.ofText (effectivePattern disk base pattern) = .ok glob

/-- The pattern, as it is meant where it stands, matches a path below. -/
def Matches (disk : FileSystem) (base : Path) (pattern : String) (names : List String) : Prop :=
  ∃ glob, Glob.ofText (effectivePattern disk base pattern) = .ok glob ∧
    glob.isMatch ("/".intercalate names) = true

/-- Some pattern of what is included matches the path, and none of what is excluded. -/
structure IsSelected (disk : FileSystem) (config : Configuration) (base : Path)
    (names : List String) : Prop where
  included : ∃ pattern ∈ config.patterns, Matches disk base pattern names
  notExcluded : ∀ pattern ∈ config.excluded, ¬ Matches disk base pattern names

theorem exists_readPatterns (file : Path) (h : ∀ pattern ∈ patterns, IsPattern disk base pattern) :
    ∃ globs, readPatterns disk file base patterns = .ok globs := by
  induction patterns with
  | nil => exact ⟨[], rfl⟩
  | cons pattern patterns ih =>
    obtain ⟨⟨glob, hglob⟩, hpatterns⟩ := List.forall_mem_cons.1 h
    obtain ⟨globs, hglobs⟩ := ih hpatterns
    refine ⟨glob :: globs, ?_⟩
    rw [readPatterns, hglob, hglobs]
    rfl

theorem any_isMatch_iff {globs : List Glob} (h : readPatterns disk file base patterns = .ok globs)
    (names : List String) : globs.any (·.isMatch ("/".intercalate names)) = true ↔
      ∃ pattern ∈ patterns, Matches disk base pattern names := by
  induction patterns generalizing globs with
  | nil =>
    cases h
    simp
  | cons pattern patterns ih =>
    simp only [readPatterns, ok_bind, ok_mapError, ok_pure] at h
    obtain ⟨glob, hglob, globs, hglobs, rfl⟩ := h
    have hfirst : Matches disk base pattern names ↔
        glob.isMatch ("/".intercalate names) = true := by
      rw [Matches, hglob]
      simp
    simp [ih hglobs, hfirst]

theorem exists_taken (file : Path)
    (h : ∀ pattern ∈ config.patterns ++ config.excluded, IsPattern disk base pattern) :
    ∃ takes, taken disk config file base = .ok takes := by
  obtain ⟨included, hincluded⟩ := exists_readPatterns file
    fun pattern hp => h pattern (List.mem_append_left _ hp)
  obtain ⟨excluded, hexcluded⟩ := exists_readPatterns file
    fun pattern hp => h pattern (List.mem_append_right _ hp)
  exact ⟨_, by rw [taken, hincluded, hexcluded]; rfl⟩

theorem takes_iff {takes : List String → Bool} (h : taken disk config file base = .ok takes) :
    takes names = true ↔ IsSelected disk config base names := by
  simp only [taken, ok_bind, ok_pure] at h
  obtain ⟨included, hincluded, excluded, hexcluded, rfl⟩ := h
  rw [Bool.and_eq_true, any_isMatch_iff hincluded, Bool.not_eq_true', ← Bool.not_eq_true,
    any_isMatch_iff hexcluded]
  constructor
  · rintro ⟨hincluded, hexcluded⟩
    exact ⟨hincluded, fun pattern hp hm => hexcluded ⟨pattern, hp, hm⟩⟩
  · rintro ⟨hincluded, hexcluded⟩
    refine ⟨hincluded, ?_⟩
    rintro ⟨pattern, hp, hm⟩
    exact hexcluded pattern hp hm

/-- A path is named if and only if it is listed or is that of a source that the patterns select. -/
theorem exists_mem_listRootFiles_iff {files : List Path} (tree : disk.IsTree)
    (h : listRootFiles disk config file base = .ok files) :
    (∃ q ∈ files, q.components = p.components) ↔
      (∃ name ∈ config.files.getD [],
        (base.join (String.ofList (withoutHere name.toList))).components = p.components) ∨
      ∃ names, IsSource disk base names ∧ IsSelected disk config base names ∧
        (base.joinAll names).components = p.components := by
  obtain ⟨takes, htakes, rfl⟩ := listRootFiles_eq_ok_iff.1 h
  have hnamed : (∃ q ∈ ordered (listed config base ++ matched disk base takes),
      q.components = p.components) ↔
      ∃ q ∈ listed config base ++ matched disk base takes, q.components = p.components := by
    constructor
    · rintro ⟨q, hq, hqp⟩
      exact ⟨q, List.mem_of_find?_eq_some (find?_of_mem_ordered hq), hqp⟩
    · rintro ⟨q, hq, hqp⟩
      obtain ⟨r, hr, hrq⟩ := exists_mem_ordered hq
      exact ⟨r, hr, hrq.trans hqp⟩
  rw [hnamed]
  simp only [List.mem_append, listed, matched, List.mem_map, List.mem_filter, or_and_right,
    exists_or, mem_candidates_iff_isSource tree, takes_iff htakes]
  refine or_congr ⟨?_, ?_⟩ ⟨?_, ?_⟩
  · rintro ⟨q, ⟨name, hname, rfl⟩, hqp⟩
    exact ⟨name, hname, hqp⟩
  · rintro ⟨name, hname, hqp⟩
    exact ⟨_, ⟨name, hname, rfl⟩, hqp⟩
  · rintro ⟨q, ⟨names, ⟨hsource, hselect⟩, rfl⟩, hqp⟩
    exact ⟨names, hsource, hselect, hqp⟩
  · rintro ⟨names, hsource, hselect, hqp⟩
    exact ⟨_, ⟨names, ⟨hsource, hselect⟩, rfl⟩, hqp⟩

theorem mem_ordered_iff : p ∈ ordered ls ↔ ls.find? (·.alike p) = some p := by
  refine ⟨find?_of_mem_ordered, fun h => ?_⟩
  obtain ⟨q, hq, halike⟩ := exists_mem_ordered (List.mem_of_find?_eq_some h)
  have hfirst := find?_of_mem_ordered hq
  simp only [Path.alike, halike] at h hfirst
  rw [h] at hfirst
  rwa [Option.some.inj hfirst]

/-- Where no two paths are alike, their order does not decide which one is found. -/
theorem find?_alike_of_perm (h : ms.Pairwise fun p q => p.components ≠ q.components)
    (hperm : ms'.Perm ms) (p : Path) : ms'.find? (·.alike p) = ms.find? (·.alike p) := by
  have hsymm : Std.Symm fun q r : Path => q.components = r.components → q = r :=
    ⟨fun _ _ h heq => (h heq.symm).symm⟩
  have hunique : ∀ q ∈ ms, ∀ r ∈ ms, q.components = r.components → q = r :=
    (h.imp fun hne heq => absurd heq hne).forall_of_forall fun _ _ _ => rfl
  cases hfind : ms.find? (·.alike p) with
  | none =>
    rw [List.find?_eq_none] at hfind ⊢
    exact fun q hq => hfind q (hperm.mem_iff.1 hq)
  | some q =>
    have hq := List.mem_of_find?_eq_some hfind
    have halike : q.components = p.components := by simpa [Path.alike] using List.find?_some hfind
    cases hfind' : ms'.find? (·.alike p) with
    | none =>
      have := List.find?_eq_none.1 hfind' q (hperm.mem_iff.2 hq)
      simp [Path.alike, halike] at this
    | some r =>
      have hr := hperm.mem_iff.1 (List.mem_of_find?_eq_some hfind')
      have halike' : r.components = p.components := by
        simpa [Path.alike] using List.find?_some hfind'
      rw [hunique r hr q hq (halike'.trans halike.symm)]

/-- Of the paths after the listed ones, only which there are matters. -/
theorem ordered_perm (h : ms.Pairwise fun p q => p.components ≠ q.components)
    (hperm : ms'.Perm ms) : ordered (ls ++ ms') = ordered (ls ++ ms) := by
  have hmem : ∀ p, p ∈ ordered (ls ++ ms') ↔ p ∈ ordered (ls ++ ms) := fun p => by
    rw [mem_ordered_iff, mem_ordered_iff, List.find?_append, List.find?_append,
      find?_alike_of_perm h hperm]
  have hnodup : ∀ ps, (ordered ps).Nodup := fun ps =>
    (pairwise_ordered ps).imp fun hpq heq => hpq.2 (congrArg Path.components heq)
  refine List.Perm.eq_of_pairwise ?_ (pairwise_ordered _) (pairwise_ordered _)
    ((List.perm_ext_iff_of_nodup (hnodup _) (hnodup _)).2 hmem)
  intro p q _ _ hpq hqp
  exact absurd (Path.le_antisymm hpq.1 hqp.1) hpq.2

theorem pairwise_matched (tree : disk.IsTree) (takes : List String → Bool) :
    (matched disk base takes).Pairwise fun p q => p.components ≠ q.components := by
  rw [matched, List.pairwise_map]
  refine ((nodup_candidates tree.distinct).filter takes).imp_of_mem ?_
  intro names names' h h' hne heq
  have hsource : ∀ ms ∈ (candidates disk base).filter takes,
      ms ≠ [] ∧ ∀ s ∈ ms, Path.IsName s := by
    intro ms hms
    have hms := (mem_candidates_iff_isSource tree).1 (List.mem_filter.1 hms).1
    refine ⟨?_, hms.isName⟩
    rintro rfl
    cases hms.extension
  obtain ⟨hne', hnames⟩ := hsource names h
  obtain ⟨hne'', hnames'⟩ := hsource names' h'
  exact hne (eq_of_components_joinAll heq hne' hnames hne'' hnames')

theorem effectivePattern_of_get? (h : ∀ l, disk'.get? l = disk.get? l) (pattern : String) :
    effectivePattern disk' base pattern = effectivePattern disk base pattern := by
  simp only [effectivePattern, FileSystem.isDirectory_of_get? h]

/-- The files that a configuration names come in the strict order of their paths. A path is one of
them if and only if it is listed, whatever is excluded, or is that of a source that the patterns
select. The same files come from every order of the entries of the disk. -/
theorem listRootFiles_determined (file : Path) (tree : disk.IsTree)
    (h : ∀ pattern ∈ config.patterns ++ config.excluded, IsPattern disk base pattern) :
    ∃ files, listRootFiles disk config file base = .ok files ∧ files.Pairwise Precedes ∧
      (∀ p : Path, (∃ q ∈ files, q.components = p.components) ↔
        (∃ name ∈ config.files.getD [],
          (base.join (String.ofList (withoutHere name.toList))).components = p.components) ∨
        ∃ names, IsSource disk base names ∧ IsSelected disk config base names ∧
          (base.joinAll names).components = p.components) ∧
      ∀ entries, entries.Perm disk.entries →
        listRootFiles ⟨entries⟩ config file base = .ok files := by
  obtain ⟨takes, htakes⟩ := exists_taken file h
  have hfiles := listRootFiles_eq_ok_iff.2 ⟨takes, htakes, rfl⟩
  refine ⟨_, hfiles, pairwise_ordered _, fun p => exists_mem_listRootFiles_iff tree hfiles,
    fun entries hperm => ?_⟩
  have hget (l : Location) : FileSystem.get? ⟨entries⟩ l = disk.get? l :=
    FileSystem.get?_of_perm tree.distinct hperm l
  refine listRootFiles_eq_ok_iff.2 ⟨takes, ?_, ?_⟩
  · rw [taken_of_effectivePattern fun pattern _ => effectivePattern_of_get? hget pattern, htakes]
  · refine (ordered_perm (pairwise_matched tree takes) ?_).symm
    exact ((candidates_perm tree.distinct hperm).filter takes).map _

/-- Files that are named in their order, each once, are the root files. -/
theorem listRootFiles_of_sorted {files : List Path}
    (hfiles : (taken disk config file base).toOption.map (fun takes =>
      listed config base ++ matched disk base takes) = some files)
    (hsorted : files.Pairwise fun p q => p.le q = true) (hdrop : dropRepeated files = files) :
    listRootFiles disk config file base = .ok files := by
  obtain ⟨takes, htakes, rfl⟩ := Option.map_eq_some_iff.1 hfiles
  refine listRootFiles_eq_ok_iff.2 ⟨takes, toOption_eq_some_iff.1 htakes, ?_⟩
  rw [ordered, List.mergeSort_of_pairwise hsorted, hdrop]

/-- A project with a library inside of its templates and one file that only the list names. -/
def selectionDisk : FileSystem :=
  ⟨[(["tsconfig.json"], .text ""), (["extra"], .directory), (["extra", "typings.ts"], .text ""),
    (["template"], .directory), (["template", "enumerable.ts"], .text ""),
    (["template", "out"], .directory), (["template", "out", "enumerable.ts"], .text ""),
    (["template", "node_modules"], .directory), (["template", "node_modules", "lib.ts"], .text ""),
    (["notes.md"], .text ""), (["top.ts"], .text "")]⟩

def selection : Configuration :=
  ⟨some ["./extra/typings.ts"], some ["template", "*.ts"], ["template/out", "extra"]⟩

theorem isTree_selectionDisk : selectionDisk.IsTree :=
  FileSystem.isTree_of_test (by decide +kernel)

theorem listRootFiles_selectionDisk :
    listRootFiles selectionDisk selection ⟨"tsconfig.json"⟩ ⟨"."⟩ =
      .ok [⟨"./extra/typings.ts"⟩, ⟨"./template/enumerable.ts"⟩, ⟨"./top.ts"⟩] :=
  listRootFiles_of_sorted (by decide +kernel) (by decide +kernel) (by decide +kernel)

/-- The listed file is there though it is excluded, and the entries may come in any order. -/
theorem selectionDisk_determined : selectionDisk.IsTree ∧
    (∀ pattern ∈ selection.patterns ++ selection.excluded,
      IsPattern selectionDisk ⟨"."⟩ pattern) ∧
    ∃ files, listRootFiles selectionDisk selection ⟨"tsconfig.json"⟩ ⟨"."⟩ = .ok files ∧
      files.map (·.text) = ["./extra/typings.ts", "./template/enumerable.ts", "./top.ts"] ∧
      ∀ entries, entries.Perm selectionDisk.entries →
        listRootFiles ⟨entries⟩ selection ⟨"tsconfig.json"⟩ ⟨"."⟩ = .ok files := by
  have htest : (selection.patterns ++ selection.excluded).all (fun pattern =>
      (Glob.ofText (effectivePattern selectionDisk ⟨"."⟩ pattern)).toOption.isSome) = true := by
    decide +kernel
  have hpatterns : ∀ pattern ∈ selection.patterns ++ selection.excluded,
      IsPattern selectionDisk ⟨"."⟩ pattern := by
    intro pattern hp
    obtain ⟨glob, hglob⟩ := Option.isSome_iff_exists.1 (List.all_eq_true.1 htest pattern hp)
    exact ⟨glob, toOption_eq_some_iff.1 hglob⟩
  obtain ⟨files, hfiles, -, -, horder⟩ :=
    listRootFiles_determined ⟨"tsconfig.json"⟩ isTree_selectionDisk hpatterns
  refine ⟨isTree_selectionDisk, hpatterns, files, hfiles, ?_, horder⟩
  rw [← Except.ok.inj (listRootFiles_selectionDisk.symm.trans hfiles)]
  rfl

end TwinClasses.Project
