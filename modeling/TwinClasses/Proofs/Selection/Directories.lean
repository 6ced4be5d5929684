import TwinClasses.Proofs.Selection.Literals
import TwinClasses.Proofs.Selection.RootFiles

set_option autoImplicit false

/-! Entries that name directories. Without special characters, an entry that consists of the names
from the configuration's directory down stands for all that is below the directory; no other
spelling of a directory stands for anything. -/

namespace TwinClasses

variable {cs : List Char}

theorem intercalate_splitSlash (cs : List Char) : ['/'].intercalate (splitSlash cs) = cs := by
  induction cs with
  | nil => rfl
  | cons c cs ih =>
    rw [splitSlash]
    cases hs : splitSlash cs with
    | nil => exact absurd hs (splitSlash_ne_nil cs)
    | cons s ss =>
      rw [hs] at ih
      split
      · rename_i hc
        rw [List.intercalate_cons_cons, ih, hc]
        rfl
      · cases ss with
        | nil => simpa using ih
        | cons t ts =>
          rw [List.intercalate_cons_cons] at ih ⊢
          simpa using ih

theorem splitSlash_injective {cs ds : List Char} (h : splitSlash cs = splitSlash ds) : cs = ds := by
  rw [← intercalate_splitSlash cs, h, intercalate_splitSlash]

/-- The segments of a text between its slashes. -/
def segmentsOf (cs : List Char) : List String := (splitSlash cs).map String.ofList

theorem segmentsOf_append (cs ds : List Char) :
    segmentsOf (cs ++ '/' :: ds) = segmentsOf cs ++ segmentsOf ds := by
  rw [segmentsOf, splitSlash_append, List.map_append]
  rfl

theorem segmentsOf_ne_nil (cs : List Char) : segmentsOf cs ≠ [] := by
  simpa [segmentsOf] using splitSlash_ne_nil cs

theorem segmentsOf_injective {cs ds : List Char} (h : segmentsOf cs = segmentsOf ds) : cs = ds :=
  splitSlash_injective (List.map_injective_iff.2 (fun _ _ => String.ofList_injective) h)

theorem intercalate_segmentsOf (cs : List Char) :
    "/".intercalate (segmentsOf cs) = String.ofList cs := by
  rw [← String.toList_inj, String.toList_intercalate, segmentsOf, String.toList_ofList]
  simpa [Function.comp_def] using intercalate_splitSlash cs

section Names

variable {names : List String}

theorem segmentsOf_intercalate (hne : names ≠ []) (hnames : ∀ s ∈ names, Path.IsName s) :
    segmentsOf ("/".intercalate names).toList = names :=
  Path.map_splitSlash_intercalate hne fun s hs => (hnames s hs).2

theorem toList_intercalate_eq_iff (hne : names ≠ []) (hnames : ∀ s ∈ names, Path.IsName s) :
    ("/".intercalate names).toList = cs ↔ names = segmentsOf cs := by
  constructor
  · rintro rfl
    exact (segmentsOf_intercalate hne hnames).symm
  · intro h
    exact segmentsOf_injective ((segmentsOf_intercalate hne hnames).trans h)

/-- A path begins with a text and a slash if its names begin with those of the text. -/
theorem exists_toList_intercalate_iff (hne : names ≠ []) (hnames : ∀ s ∈ names, Path.IsName s) :
    (∃ rest, ("/".intercalate names).toList = cs ++ '/' :: rest) ↔
      segmentsOf cs <+: names ∧ segmentsOf cs ≠ names := by
  simp only [toList_intercalate_eq_iff hne hnames, segmentsOf_append]
  constructor
  · rintro ⟨rest, h⟩
    rw [h]
    refine ⟨List.prefix_append _ _, fun heq => segmentsOf_ne_nil rest ?_⟩
    simpa using heq
  · rintro ⟨⟨more, rfl⟩, hmore⟩
    have hmore : more ≠ [] := fun h => hmore (by rw [h, List.append_nil])
    refine ⟨("/".intercalate more).toList, ?_⟩
    rw [segmentsOf_intercalate hmore fun s hs => hnames s (List.mem_append_right _ hs)]

end Names

namespace Project

open TwinClasses.Path (IsName)

variable {disk : FileSystem} {config : Configuration} {file base : Path} {d down l : Location}
  {entry : String} {names ss : List String}

/-- The text of an entry without `./` in front and slashes at the end. -/
def trimmed (entry : String) : List Char :=
  ((withoutHere entry.toList).reverse.dropWhile (· = '/')).reverse

/-- The entry consists of names, but for what is trimmed. -/
def IsSpelled (entry : String) : Prop := ∀ s ∈ segmentsOf (trimmed entry), IsName s

theorem effectivePattern_eq (disk : FileSystem) (base : Path) (entry : String) :
    effectivePattern disk base entry =
      if (trimmed entry).all (fun c => c ≠ '*' && c ≠ '?') &&
        disk.isDirectory (base.join (String.ofList (trimmed entry))) then
        String.ofList (trimmed entry) ++ "/**/*"
      else String.ofList (trimmed entry) := rfl

theorem withoutHere_suffix (cs : List Char) : withoutHere cs <:+ cs := by
  induction cs using withoutHere.induct with
  | case1 cs ih =>
    rw [withoutHere]
    exact ih.trans ((List.suffix_cons _ _).trans (List.suffix_cons _ _))
  | case2 cs h =>
    rw [withoutHere]
    exact h

theorem trimmed_subset (entry : String) : trimmed entry ⊆ entry.toList := by
  intro c hc
  have hc := (List.dropWhile_sublist _).subset (List.mem_reverse.1 hc)
  exact (withoutHere_suffix _).subset (List.mem_reverse.1 hc)

/-- An entry stands for the paths below a directory, or for one path. -/
theorem matches_iff (hliteral : ∀ c ∈ entry.toList, c ∉ Glob.specials) (hne : names ≠ [])
    (hnames : ∀ s ∈ names, IsName s) : Matches disk base entry names ↔
      if disk.isDirectory (base.join (String.ofList (trimmed entry))) then
        segmentsOf (trimmed entry) <+: names ∧ segmentsOf (trimmed entry) ≠ names
      else names = segmentsOf (trimmed entry) := by
  have hcs : ∀ c ∈ trimmed entry, c ∉ Glob.specials := fun c hc =>
    hliteral c (trimmed_subset entry hc)
  have hall : (trimmed entry).all (fun c => c ≠ '*' && c ≠ '?') = true := by
    rw [List.all_eq_true]
    intro c hc
    have := hcs c hc
    simp only [Glob.specials, List.mem_cons, not_or] at this
    simp [this]
  rw [Matches, effectivePattern_eq, hall, Bool.true_and]
  split
  · rw [Glob.ofText_below hcs, ← exists_toList_intercalate_iff hne hnames, ← Glob.isMatch_below]
    simp
  · rw [Glob.ofText_literals hcs, ← toList_intercalate_eq_iff hne hnames, ← Glob.isMatch_literals]
    simp

theorem filter_segmentsOf_withoutHere (cs : List Char) :
    (segmentsOf (withoutHere cs)).filter (fun s => (Path.component? s).isSome) =
      (segmentsOf cs).filter fun s => (Path.component? s).isSome := by
  induction cs using withoutHere.induct with
  | case1 cs ih =>
    rw [withoutHere, ih, show '.' :: '/' :: cs = ['.'] ++ '/' :: cs from rfl, segmentsOf_append,
      List.filter_append]
    rfl
  | case2 cs h =>
    rw [withoutHere]
    exact h

theorem filter_segmentsOf_trimEnd (cs : List Char) :
    (segmentsOf (cs.dropWhile (· = '/')).reverse).filter (fun s => (Path.component? s).isSome) =
      (segmentsOf cs.reverse).filter fun s => (Path.component? s).isSome := by
  induction cs with
  | nil => rfl
  | cons c cs ih =>
    rw [List.dropWhile_cons]
    split
    · rename_i hc
      rw [ih, decide_eq_true_iff.1 hc, List.reverse_cons, segmentsOf_append, List.filter_append]
      exact (List.append_nil _).symm
    · rfl

/-- What is trimmed leads nowhere. -/
theorem filter_segmentsOf_trimmed (entry : String) :
    (segmentsOf (trimmed entry)).filter (fun s => (Path.component? s).isSome) =
      (segmentsOf entry.toList).filter fun s => (Path.component? s).isSome := by
  rw [trimmed, filter_segmentsOf_trimEnd, List.reverse_reverse, filter_segmentsOf_withoutHere]

theorem IsSpelled.filter_eq (h : IsSpelled entry) :
    (segmentsOf (trimmed entry)).filter (fun s => (Path.component? s).isSome) =
      segmentsOf (trimmed entry) :=
  List.filter_eq_self.2 fun s hs => by rw [(h s hs).1]; rfl

theorem IsSpelled.not_isAbsolute (h : IsSpelled entry) : Path.isAbsolute ⟨entry⟩ = false := by
  rw [Bool.eq_false_iff, ne_eq, Path.isAbsolute, decide_eq_true_iff]
  intro habs
  obtain ⟨cs, hcs⟩ := List.head?_eq_some_iff.1 habs
  have hprefix : trimmed entry <+: '/' :: cs := by
    rw [trimmed, hcs, ← List.reverse_suffix, List.reverse_reverse]
    exact List.dropWhile_suffix _
  have hempty : "" ∈ segmentsOf (trimmed entry) := by
    rcases List.prefix_cons_iff.1 hprefix with hnil | ⟨ds, hds, -⟩
    · rw [hnil]
      exact List.mem_singleton_self _
    · rw [hds]
      exact List.mem_cons_self
  exact (Path.isName_iff.1 (h _ hempty)).1.1 rfl

/-- Segments that do not count may be left out of a way that leads somewhere. -/
theorem foldlM_filter (h : ss.foldlM disk.step d = .ok l) :
    (ss.filter fun s => (Path.component? s).isSome).foldlM disk.step d = .ok l := by
  induction ss generalizing d with
  | nil => exact h
  | cons s ss ih =>
    rw [List.foldlM_cons, ok_bind] at h
    obtain ⟨m, hm, h⟩ := h
    rw [List.filter_cons]
    split
    · rw [List.foldlM_cons, ok_bind]
      exact ⟨m, hm, ih h⟩
    · rename_i hs
      have hmute := (FileSystem.step_eq_ok_iff.1 hm).2
      rw [FileSystem.next_of_mute (by simpa using hs)] at hmute
      exact ih (hmute ▸ h)

theorem eq_append_of_foldlM (hnames : ∀ s ∈ ss, IsName s)
    (h : ss.foldlM disk.step d = .ok l) : l = d ++ ss := by
  induction ss generalizing d with
  | nil =>
    cases h
    rw [List.append_nil]
  | cons s ss ih =>
    obtain ⟨hs, hss⟩ := List.forall_mem_cons.1 hnames
    rw [List.foldlM_cons, ok_bind] at h
    obtain ⟨m, hm, h⟩ := h
    rw [ih hss h, (FileSystem.step_eq_ok_iff.1 hm).2, FileSystem.next_of_isName hs,
      List.append_assoc, List.singleton_append]

/-- An entry that consists of names leads to the place of these names. -/
theorem IsSpelled.locate_eq (h : IsSpelled entry) (hbase : disk.locate base = .ok d)
    (hentry : disk.locate (base.join entry) = .ok l) : l = d ++ segmentsOf (trimmed entry) := by
  obtain ⟨habs, lead, hjoin, hlead⟩ := Path.join_eq base h.not_isAbsolute
  have hwalk := FileSystem.walk_of_locate hentry
  rw [FileSystem.walk, hjoin, List.foldlM_append, Location.start, habs, ← Location.start, ok_bind,
    FileSystem.foldlM_of_walk hlead (FileSystem.walk_of_locate hbase)] at hwalk
  obtain ⟨_, heq, hwalk⟩ := hwalk
  obtain rfl := Except.ok.inj heq
  have hsegments : Path.segments ⟨entry⟩ = segmentsOf entry.toList := by
    rw [Path.segments_eq, Path.relative, h.not_isAbsolute]
    rfl
  have hfold := foldlM_filter hwalk
  rw [hsegments, ← filter_segmentsOf_trimmed, h.filter_eq] at hfold
  exact eq_append_of_foldlM h hfold

/-- So does its text without what is trimmed. -/
theorem IsSpelled.isDirectory (h : IsSpelled entry) (hbase : disk.locate base = .ok d)
    (hentry : disk.locate (base.join entry) = .ok l) (hl : disk.get? l = some .directory) :
    disk.isDirectory (base.join (String.ofList (trimmed entry))) = true := by
  have hplace := h.locate_eq hbase hentry
  have hreached := FileSystem.reached_of_locate hentry
  refine FileSystem.isDirectory_iff.2 ⟨l, ?_, hl⟩
  rw [← intercalate_segmentsOf, hplace]
  refine FileSystem.locate_joinAll (FileSystem.walk_of_locate hbase) (segmentsOf_ne_nil _) h
    fun ns hns hne => hreached.directories _ ?_ ?_
  · rw [hplace]
    exact (List.prefix_append_right_inj d).2 hns
  · rw [hplace]
    exact fun heq => hne (List.append_cancel_left heq)

theorem IsSource.ne_nil (h : IsSource disk base names) : names ≠ [] := by
  rintro rfl
  cases h.extension

/-- A source is no directory. -/
theorem IsSource.ne_of_directory (h : IsSource disk base names) (hbase : disk.locate base = .ok d)
    (hdirectory : disk.get? (d ++ down) = some .directory) : down ≠ names := by
  rintro rfl
  obtain ⟨d', e, hd', hget, he⟩ := h.isFile
  obtain rfl := Except.ok.inj (hbase.symm.trans hd')
  rw [hdirectory] at hget
  exact he (Option.some.inj hget).symm

/-- An entry that names a directory matches the sources below it if it consists of names, and no
source otherwise. -/
theorem matches_directory_iff (hliteral : ∀ c ∈ entry.toList, c ∉ Glob.specials)
    (hbase : disk.locate base = .ok d) (hentry : disk.locate (base.join entry) = .ok (d ++ down))
    (hdirectory : disk.get? (d ++ down) = some .directory) (hsource : IsSource disk base names) :
    Matches disk base entry names ↔ IsSpelled entry ∧ down <+: names := by
  rw [matches_iff hliteral hsource.ne_nil hsource.isName]
  by_cases hspelled : IsSpelled entry
  · have hdown := List.append_cancel_left (hspelled.locate_eq hbase hentry)
    have hne := hsource.ne_of_directory hbase hdirectory
    rw [if_pos (hspelled.isDirectory hbase hentry hdirectory), ← hdown]
    simp [hspelled, hne]
  · refine iff_of_false (fun h => hspelled fun s hs => hsource.isName s ?_) fun h => hspelled h.1
    split at h
    · exact h.1.subset hs
    · rwa [h]

/-- An entry without special characters that names a directory includes all sources below it, but
for those that are excluded, if it consists of names. No other entry that names a directory includes
anything. -/
theorem directory_entry_includes {files : List Path} (tree : disk.IsTree)
    (h : listRootFiles disk config file base = .ok files) (hmem : entry ∈ config.patterns)
    (hliteral : ∀ c ∈ entry.toList, c ∉ Glob.specials) (hbase : disk.locate base = .ok d)
    (hentry : disk.locate (base.join entry) = .ok (d ++ down))
    (hdirectory : disk.get? (d ++ down) = some .directory) :
    (IsSpelled entry → ∀ names, IsSource disk base names → down <+: names →
      (∀ pattern ∈ config.excluded, ¬ Matches disk base pattern names) →
        ∃ q ∈ files, q.components = (base.joinAll names).components) ∧
    (¬ IsSpelled entry → ∀ names, IsSource disk base names → ¬ Matches disk base entry names) := by
  have hmatches {names : List String} (hsource : IsSource disk base names) :
      Matches disk base entry names ↔ IsSpelled entry ∧ down <+: names :=
    matches_directory_iff hliteral hbase hentry hdirectory hsource
  refine ⟨fun hspelled names hsource hbelow hexcluded => ?_, fun hspelled names hsource hm => ?_⟩
  · have hselected : IsSelected disk config base names :=
      ⟨⟨entry, hmem, (hmatches hsource).2 ⟨hspelled, hbelow⟩⟩, hexcluded⟩
    exact (exists_mem_listRootFiles_iff tree h).2 (.inr ⟨names, hsource, hselected, rfl⟩)
  · exact hspelled ((hmatches hsource).1 hm).1

def templates : Configuration := ⟨none, some ["./template/"], ["template/out"]⟩

theorem listRootFiles_templates :
    listRootFiles selectionDisk templates ⟨"tsconfig.json"⟩ ⟨"."⟩ =
      .ok [⟨"./template/enumerable.ts"⟩] :=
  listRootFiles_of_sorted (by decide +kernel) (by decide +kernel) (by decide +kernel)

/-- A directory may be written with `./` in front and a slash at the end. -/
theorem templates_includes : selectionDisk.IsTree ∧
    listRootFiles selectionDisk templates ⟨"tsconfig.json"⟩ ⟨"."⟩ =
      .ok [⟨"./template/enumerable.ts"⟩] ∧
    (∀ c ∈ "./template/".toList, c ∉ Glob.specials) ∧
    selectionDisk.locate ⟨"."⟩ = .ok [] ∧
    selectionDisk.locate ((⟨"."⟩ : Path).join "./template/") = .ok ["template"] ∧
    IsSpelled "./template/" ∧ IsSource selectionDisk ⟨"."⟩ ["template", "enumerable.ts"] ∧
    ∃ q ∈ [(⟨"./template/enumerable.ts"⟩ : Path)],
      q.components = ((⟨"."⟩ : Path).joinAll ["template", "enumerable.ts"]).components := by
  have hplain : "./template/".toList.all (fun c => decide (c ∉ Glob.specials)) = true := by
    decide +kernel
  have hliteral : ∀ c ∈ "./template/".toList, c ∉ Glob.specials := by simpa using hplain
  have hbase : selectionDisk.locate ⟨"."⟩ = .ok [] := toOption_eq_some_iff.1 (by decide +kernel)
  have hentry : selectionDisk.locate ((⟨"."⟩ : Path).join "./template/") = .ok ["template"] :=
    toOption_eq_some_iff.1 (by decide +kernel)
  have hspelled : IsSpelled "./template/" := by
    rw [IsSpelled, show segmentsOf (trimmed "./template/") = ["template"] by decide +kernel]
    simpa using ⟨rfl, by decide⟩
  have hsource : IsSource selectionDisk ⟨"."⟩ ["template", "enumerable.ts"] :=
    (mem_candidates_iff_isSource isTree_selectionDisk).1 (by decide +kernel)
  have hexcluded : ∀ pattern ∈ templates.excluded,
      ¬ Matches selectionDisk ⟨"."⟩ pattern ["template", "enumerable.ts"] := by
    rintro pattern hp ⟨glob, hglob, hmatch⟩
    rw [List.mem_singleton.1 hp] at hglob
    have htest : (Glob.ofText (effectivePattern selectionDisk ⟨"."⟩ "template/out")).toOption.map
        (·.isMatch ("/".intercalate ["template", "enumerable.ts"])) = some false := by
      decide +kernel
    rw [hglob] at htest
    exact Bool.false_ne_true ((Option.some.inj htest).symm.trans hmatch)
  refine ⟨isTree_selectionDisk, listRootFiles_templates, hliteral, hbase, hentry, hspelled, hsource,
    ?_⟩
  exact (directory_entry_includes (d := []) isTree_selectionDisk listRootFiles_templates
    (List.mem_singleton_self _) hliteral hbase hentry (by decide +kernel)).1 hspelled _ hsource
    ⟨["enumerable.ts"], rfl⟩ hexcluded

/-- One source beside the configuration. -/
def hereDisk : FileSystem := ⟨[(["a.ts"], .text ""), (["tsconfig.json"], .text "")]⟩

/-- So `.` does not stand for what is in the directory of the configuration. -/
theorem not_directory_entry_includes : ¬ ∀ (disk : FileSystem) (config : Configuration)
    (file base : Path) (files : List Path) (entry : String) (d down : Location),
    disk.IsTree → listRootFiles disk config file base = .ok files → entry ∈ config.patterns →
      (∀ c ∈ entry.toList, c ≠ '*' ∧ c ≠ '?') → disk.locate base = .ok d →
        disk.locate (base.join entry) = .ok (d ++ down) →
          disk.get? (d ++ down) = some .directory → ∀ names, IsSource disk base names →
            down <+: names → (∀ pattern ∈ config.excluded, ¬ Matches disk base pattern names) →
              ∃ q ∈ files, q.components = (base.joinAll names).components := by
  intro h
  have tree : hereDisk.IsTree := FileSystem.isTree_of_test (by decide +kernel)
  have hsource : IsSource hereDisk ⟨"."⟩ ["a.ts"] :=
    (mem_candidates_iff_isSource tree).1 (by decide +kernel)
  obtain ⟨q, hq, -⟩ := h hereDisk ⟨none, some ["."], []⟩ ⟨"tsconfig.json"⟩ ⟨"."⟩ [] "." [] [] tree
    (listRootFiles_of_sorted (by decide +kernel) (by decide +kernel) (by decide +kernel))
    (List.mem_singleton_self _) (by simp) (toOption_eq_some_iff.1 (by decide +kernel))
    (toOption_eq_some_iff.1 (by decide +kernel)) rfl ["a.ts"] hsource List.nil_prefix nofun
  cases hq

end Project

end TwinClasses
