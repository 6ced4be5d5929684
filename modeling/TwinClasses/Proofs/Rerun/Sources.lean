import TwinClasses.Proofs.Rerun.Order
import TwinClasses.Proofs.Rerun.Writing

set_option autoImplicit false

/-! The source files of a project, before and after some files are written. -/

namespace TwinClasses

namespace Path

variable {p q : Path} {s t : String}

/-- The path ends with a name that ends so. -/
def EndsWith (p : Path) (ending : String) : Prop :=
  ∃ s, p.segments.getLast? = some s ∧ IsName s ∧ ending.toList <:+ s.toList

/-- Only names end so. -/
def IsEnding (ending : String) : Prop := '/' ∉ ending.toList ∧ 3 ≤ ending.toList.length

theorem IsEnding.isName {ending : String} (h : IsEnding ending) (hs : ending.toList <:+ s.toList)
    (hslash : '/' ∉ s.toList) : IsName s := by
  have hlen := Nat.le_trans h.2 hs.length_le
  refine isName_iff.2 ⟨⟨?_, ?_, ?_⟩, hslash⟩
  · rintro rfl
    exact absurd hlen (by decide)
  · rintro rfl
    exact absurd hlen (by decide)
  · rintro rfl
    exact absurd hlen (by decide)

theorem endsWith_iff {ending : String} (h : IsEnding ending) :
    p.EndsWith ending ↔ ending.toList <:+ p.text.toList := by
  constructor
  · rintro ⟨s, hs, -, hsuffix⟩
    exact (isSuffix_text_iff h.1 hs).2 hsuffix
  · intro hsuffix
    have hs := List.getLast?_eq_some_getLast p.segments_ne_nil
    have hsuffix := (isSuffix_text_iff h.1 hs).1 hsuffix
    exact ⟨_, hs, h.isName hsuffix (notMem_of_mem_segments (List.mem_of_getLast? hs)), hsuffix⟩

theorem counted_getLast? (hp : p.segments.getLast? = some s) (hs : IsName s) :
    p.counted.getLast? = some s := by
  obtain ⟨before, hbefore⟩ := List.getLast?_eq_some_iff.1 hp
  rw [counted, hbefore, List.filter_append, List.filter_cons_of_pos (by rw [hs.1]; rfl),
    List.filter_nil, List.getLast?_concat]

/-- Alike paths that end with names end with the same name. -/
theorem last_of_alike (h : p.components = q.components) (hp : p.segments.getLast? = some s)
    (hs : IsName s) (hq : q.segments.getLast? = some t) (ht : IsName t) : s = t := by
  have hlast := counted_getLast? hp hs
  rw [(eq_of_components h).2, counted_getLast? hq ht] at hlast
  exact (Option.some.inj hlast).symm

theorem EndsWith.of_alike {ending other : String} (h : p.EndsWith ending) (hq : q.EndsWith other)
    (halike : p.components = q.components) : q.EndsWith ending := by
  obtain ⟨s, hp, hs, hsuffix⟩ := h
  obtain ⟨t, hq, ht, -⟩ := hq
  rw [last_of_alike halike hp hs hq ht] at hsuffix
  exact ⟨t, hq, ht, hsuffix⟩

theorem suffix_of_hasExtension {extension fileName : String}
    (h : hasExtension extension fileName = true) :
    '.' :: extension.toList <:+ fileName.toList := by
  rw [hasExtension] at h
  have hsplit := List.takeWhile_append_dropWhile (p := (· ≠ '.')) (l := fileName.toList.reverse)
  have hhead := List.head?_dropWhile_not (· ≠ '.') fileName.toList.reverse
  split at h
  · cases h
  · cases h
  · rename_i hnil _
    cases hdrop : fileName.toList.reverse.dropWhile (· ≠ '.') with
    | nil => exact absurd hdrop hnil
    | cons c cs =>
      rw [hdrop] at hsplit hhead
      rw [decide_eq_true_iff.1 h] at hsplit
      have hc : c = '.' := by simpa using hhead
      refine ⟨cs.reverse, ?_⟩
      rw [← List.reverse_inj, ← hsplit, hc]
      simp

theorem suffix_intercalate {names : List String} {name : String}
    (h : names.getLast? = some name) : name.toList <:+ ("/".intercalate names).toList := by
  induction names with
  | nil => cases h
  | cons n ns ih =>
    cases ns with
    | nil =>
      have hn : n = name := by simpa using h
      simp [hn]
    | cons m ms =>
      rw [List.getLast?_cons_cons] at h
      rw [String.intercalate_cons_cons, String.toList_append]
      exact (ih h).trans (List.suffix_append _ _)

theorem suffix_join (base : Path) (name : String) :
    name.toList <:+ (base.join name).text.toList := by
  rw [join]
  split
  · exact List.suffix_rfl
  · split
    · rw [String.toList_append]
      exact List.suffix_append _ _
    · rw [String.toList_append]
      exact List.suffix_append _ _

end Path

namespace Project

variable {disk disk' : FileSystem} {config : Configuration} {file base start p : Path}
  {files : List Path} {names : List String}

/-- The paths of the files that a configuration lists. -/
def listed (config : Configuration) (base : Path) : List Path :=
  (config.files.getD []).map fun file => base.join (String.ofList (withoutHere file.toList))

/-- What is taken of the files below the base: what is included and not excluded. -/
def taken (disk : FileSystem) (config : Configuration) (file base : Path) :
    Except RunError (List String → Bool) := do
  let included ← readPatterns disk file base config.patterns
  let excluded ← readPatterns disk file base config.excluded
  return fun names =>
    let path := "/".intercalate names
    included.any (·.isMatch path) && !excluded.any (·.isMatch path)

/-- The paths of the files that are taken. -/
def matched (disk : FileSystem) (base : Path) (takes : List String → Bool) : List Path :=
  ((candidates disk base).filter takes).map base.joinAll

theorem listRootFiles_eq_ok_iff : listRootFiles disk config file base = .ok files ↔
    ∃ takes, taken disk config file base = .ok takes ∧
      files = ordered (listed config base ++ matched disk base takes) := by
  simp only [listRootFiles, taken, ok_bind, ok_pure]
  constructor
  · rintro ⟨included, hincluded, excluded, hexcluded, rfl⟩
    exact ⟨_, ⟨included, hincluded, excluded, hexcluded, rfl⟩, rfl⟩
  · rintro ⟨_, ⟨included, hincluded, excluded, hexcluded, rfl⟩, rfl⟩
    exact ⟨included, hincluded, excluded, hexcluded, rfl⟩

theorem ofDirectory_eq_ok_iff {project : Project} : ofDirectory disk start = .ok project ↔
    ∃ file, findConfiguration? disk start = some file ∧
    ∃ text, disk.readText file = .ok text ∧
    ∃ config, Configuration.ofText text = .ok config ∧
    ∃ takes, taken disk config file (baseOf file) = .ok takes ∧
      project =
        ⟨file, ordered (listed config (baseOf file) ++ matched disk (baseOf file) takes)⟩ := by
  rw [ofDirectory]
  cases findConfiguration? disk start with
  | none => simp [throw, throwThe, MonadExceptOf.throw]
  | some file =>
    simp only [ok_bind, ok_pure, ok_mapError, listRootFiles_eq_ok_iff, Option.some.injEq]
    constructor
    · rintro ⟨text, htext, config, hconfig, _, ⟨takes, htakes, rfl⟩, rfl⟩
      exact ⟨file, rfl, text, htext, config, hconfig, takes, htakes, rfl⟩
    · rintro ⟨_, rfl, text, htext, config, hconfig, takes, htakes, rfl⟩
      exact ⟨text, htext, config, hconfig, _, ⟨takes, htakes, rfl⟩, rfl⟩

/-- Files that are named in their order, each once, are the files of the project. -/
theorem ofDirectory_of_sorted {text : String} (hfile : findConfiguration? disk start = some file)
    (htext : disk.readText file = .ok text) (hconfig : Configuration.ofText text = .ok config)
    (hfiles : (taken disk config file (baseOf file)).toOption.map (fun takes =>
      listed config (baseOf file) ++ matched disk (baseOf file) takes) = some files)
    (hsorted : files.Pairwise fun p q => p.le q = true) (hdrop : dropRepeated files = files) :
    ofDirectory disk start = .ok ⟨file, files⟩ := by
  obtain ⟨takes, htakes, rfl⟩ := Option.map_eq_some_iff.1 hfiles
  refine ofDirectory_eq_ok_iff.2 ⟨file, hfile, text, htext, config, hconfig, takes,
    toOption_eq_some_iff.1 htakes, ?_⟩
  rw [ordered, List.mergeSort_of_pairwise hsorted, hdrop]

theorem mem_candidates_iff : names ∈ candidates disk base ↔
    ∃ d, disk.locate base = .ok d ∧ ¬ base.fileName?.any (· ∈ libraryDirectories) ∧
      (∃ l, disk.HasFile l ∧ l.below? d = some names) ∧
      names.dropLast.all (· ∉ libraryDirectories) ∧ names.getLast?.any (hasExtension "ts") := by
  rw [candidates]
  cases disk.locate base with
  | error fault => simp
  | ok d =>
    have hbelow : names ∈ disk.filesBelow libraryDirectories d ↔
        (∃ l, disk.HasFile l ∧ l.below? d = some names) ∧
          names.dropLast.all (· ∉ libraryDirectories) := by
      rw [FileSystem.filesBelow, List.mem_filterMap]
      constructor
      · rintro ⟨⟨l, e⟩, hmem, hsome⟩
        by_cases he : e = .directory
        · simp [he] at hsome
        · simp only [he, if_false, Option.filter_eq_some_iff] at hsome
          exact ⟨⟨l, ⟨e, he, hmem⟩, hsome.1⟩, hsome.2⟩
      · rintro ⟨⟨l, ⟨e, he, hmem⟩, hl⟩, hall⟩
        refine ⟨(l, e), hmem, ?_⟩
        simp only [he, if_false, Option.filter_eq_some_iff]
        exact ⟨hl, hall⟩
    by_cases hlib : base.fileName?.any (· ∈ libraryDirectories)
    · simp [hlib]
    · simp only [hlib, Except.ok.injEq, exists_eq_left']
      simp [hbelow, and_assoc]

theorem baseOf_text_ne_empty (file : Path) : (baseOf file).text ≠ "" := by
  rw [baseOf]
  split
  · split
    · simp
    · assumption
  · simp

theorem isFixed_start (p : Path) : (Location.start p).isFixed = true := by
  rw [Location.start]
  split <;> rfl

theorem step_start (p : Path) {t : String} (ht : t = "" ∨ t = ".") :
    disk.step (.start p) t = .ok (.start p) := by
  refine FileSystem.step_eq_ok_iff.2 ⟨FileSystem.get?_of_isFixed (isFixed_start p), ?_⟩
  obtain rfl | rfl := ht <;> rfl

/-- Above what is somewhere there are directories. -/
theorem walk_of_mem_parents {parent : Path} {l : Location} (hparent : parent ∈ p.parents)
    (h : disk.walk p = .ok l) : ∃ d, disk.walk parent = .ok d ∧
      (disk.get? l = some .directory → disk.get? d = some .directory) := by
  obtain ⟨habs, kept, ⟨rest, hrest⟩, hsegments⟩ := Path.exists_kept_of_mem_parents hparent
  obtain hkept | ⟨-, hempty⟩ := hsegments
  · rw [FileSystem.walk, ← hrest, List.foldlM_append, ok_bind] at h
    obtain ⟨d, hd, hrest⟩ := h
    refine ⟨d, by rw [FileSystem.walk, hkept, Location.start, habs]; exact hd, fun hl => ?_⟩
    cases rest with
    | nil =>
      cases hrest
      exact hl
    | cons s rest =>
      rw [List.foldlM_cons, ok_bind] at hrest
      obtain ⟨m, hm, -⟩ := hrest
      exact (FileSystem.step_eq_ok_iff.1 hm).1
  · refine ⟨.start parent, ?_, fun _ => FileSystem.get?_of_isFixed (isFixed_start parent)⟩
    rw [FileSystem.walk, hempty, List.foldlM_cons, step_start parent (.inl rfl)]
    rfl

theorem locate_baseOf {l : Location} (h : disk.walk file = .ok l) :
    ∃ d, disk.locate (baseOf file) = .ok d := by
  have hhere : disk.locate ⟨"."⟩ = .ok [] := by
    have hstep : disk.step (.start ⟨"."⟩) "." = .ok (.start ⟨"."⟩) := step_start _ (.inr rfl)
    rw [FileSystem.locate_eq_walk (by simp)]
    exact hstep
  rw [baseOf]
  split
  · rename_i parent hparent
    split
    · exact ⟨[], hhere⟩
    · rename_i hne
      rw [FileSystem.locate_eq_walk hne]
      obtain ⟨d, hd, -⟩ := walk_of_mem_parents (List.mem_of_head? hparent) h
      exact ⟨d, hd⟩
  · exact ⟨[], hhere⟩

variable {written : Location → Prop}

theorem mem_candidates_of_evolves (h : disk.Evolves disk' written)
    (hnames : names ∈ candidates disk base) : names ∈ candidates disk' base := by
  obtain ⟨d, hd, hlib, ⟨l, hl, hbelow⟩, hall⟩ := mem_candidates_iff.1 hnames
  exact mem_candidates_iff.2 ⟨d, h.locate hd, hlib, ⟨l, h.hasFile l hl, hbelow⟩, hall⟩

/-- New candidates are among what has been written. -/
theorem mem_candidates_or_written (h : disk.Evolves disk' written) {d : Location}
    (hbase : disk.locate base = .ok d) (hnames : names ∈ candidates disk' base) :
    names ∈ candidates disk base ∨ ∃ l, written l ∧ l.below? d = some names := by
  obtain ⟨d', hd', hlib, ⟨l, hl, hbelow⟩, hall⟩ := mem_candidates_iff.1 hnames
  obtain rfl : d = d' := Except.ok.inj ((h.locate hbase).symm.trans hd')
  obtain hl | hl := h.isFile l hl
  · exact .inl (mem_candidates_iff.2 ⟨d, hbase, hlib, ⟨l, hl, hbelow⟩, hall⟩)
  · exact .inr ⟨l, hl, hbelow⟩

theorem endsWith_of_mem_matched {takes : List String → Bool} (h : p ∈ matched disk base takes) :
    p.EndsWith ".ts" := by
  obtain ⟨names, hnames, rfl⟩ := List.mem_map.1 h
  obtain ⟨-, -, -, -, -, hlast⟩ := mem_candidates_iff.1 (List.mem_filter.1 hnames).1
  obtain ⟨name, hname, hext⟩ := (Option.any_eq_true _ _).1 hlast
  rw [Path.endsWith_iff ⟨by decide, by decide⟩]
  exact (Path.suffix_of_hasExtension hext).trans
    ((Path.suffix_intercalate hname).trans (Path.suffix_join _ _))

/-- What is looked for where a file with this ending is needed. -/
def isAccepted (ending : String) (p : Path) : Bool := ending.toList.isSuffixOf p.text.toList

theorem isAccepted_iff {ending : String} (h : Path.IsEnding ending) :
    isAccepted ending p = true ↔ p.EndsWith ending := by
  rw [isAccepted, List.isSuffixOf_iff_suffix, Path.endsWith_iff h]

theorem findFile_eq_ok_iff {project : Project} {ending : String} :
    project.findFile ending = .ok p ↔ project.rootFiles.find? (isAccepted ending) = some p := by
  rw [findFile]
  split
  · rename_i h
    change List.find? (isAccepted ending) _ = _ at h
    simp [h]
  · rename_i h
    change List.find? (isAccepted ending) _ = _ at h
    simp [h]

section Growth

variable {listed matched matched' : List Path} {q : Path} {ending : String}

/-- A file that is named still is represented when more or less is matched, and by a path that ends
as its own does. -/
theorem exists_mem_ordered_endsWith (hmatched : ∀ q ∈ matched', q.EndsWith ".ts")
    (hp : p ∈ ordered (listed ++ matched)) (hnamed : p ∈ listed ++ matched')
    (hending : p.EndsWith ending) :
    ∃ q ∈ ordered (listed ++ matched'), q.components = p.components ∧ q.EndsWith ending := by
  obtain ⟨q, hq, halike⟩ := exists_mem_ordered hnamed
  refine ⟨q, hq, halike, ?_⟩
  have hfirst := find?_of_mem_ordered hp
  have hfirst' := find?_of_mem_ordered hq
  simp only [Path.alike, halike, List.find?_append] at hfirst hfirst'
  cases hlisted : listed.find? fun r => r.components = p.components with
  | some r =>
    simp only [hlisted, Option.some_or, Option.some.injEq] at hfirst hfirst'
    rwa [← hfirst', hfirst]
  | none =>
    simp only [hlisted, Option.none_or] at hfirst'
    exact hending.of_alike (hmatched q (List.mem_of_find?_eq_some hfirst')) halike.symm

/-- When more is matched, the file that is found is the one from before, or new. -/
theorem exists_findFile_of_grown {file file' : Path} (hgrown : ∀ q ∈ matched, q ∈ matched')
    (hmatched : ∀ q ∈ matched', q.EndsWith ".ts") (hending : Path.IsEnding ending)
    (h : (Project.mk file (ordered (listed ++ matched))).findFile ending = .ok p) :
    ∃ p', (Project.mk file' (ordered (listed ++ matched'))).findFile ending = .ok p' ∧
      p'.EndsWith ending ∧ p' ∈ listed ++ matched' ∧
      (p' ∈ listed ++ matched → p'.components = p.components) := by
  have hnamed : ∀ q ∈ listed ++ matched, q ∈ listed ++ matched' := fun q hq =>
    List.mem_append.2 ((List.mem_append.1 hq).imp_right (hgrown q))
  have hfind := findFile_eq_ok_iff.1 h
  have hp := List.mem_of_find?_eq_some hfind
  have hends := (isAccepted_iff hending).1 (List.find?_some hfind)
  obtain ⟨q, hq, hqp, hqends⟩ := exists_mem_ordered_endsWith hmatched hp
    (hnamed p (List.mem_of_find?_eq_some (find?_of_mem_ordered hp))) hends
  cases hfind' : (ordered (listed ++ matched')).find? (isAccepted ending) with
  | none => exact absurd ((isAccepted_iff hending).2 hqends) (List.find?_eq_none.1 hfind' q hq)
  | some p' =>
    have hp' := List.mem_of_find?_eq_some hfind'
    have hends' := (isAccepted_iff hending).1 (List.find?_some hfind')
    refine ⟨p', findFile_eq_ok_iff.2 hfind', hends',
      List.mem_of_find?_eq_some (find?_of_mem_ordered hp'), fun hold => ?_⟩
    obtain ⟨r, hr, hrp, hrends⟩ :=
      exists_mem_ordered_endsWith (fun q hq => hmatched q (hgrown q hq)) hp' hold hends'
    have hpr := le_of_find?_ordered hfind hr ((isAccepted_iff hending).2 hrends)
    have hpq := le_of_find?_ordered hfind' hq ((isAccepted_iff hending).2 hqends)
    exact Path.le_antisymm (Path.le_trans _ _ _ hpq (Path.le_of_components hqp))
      (Path.le_trans _ _ _ hpr (Path.le_of_components hrp))

end Growth

/-- The same configuration is found in the second state, and its patterns take the same of the files
that there were in the first. -/
structure IsKept (disk disk' : FileSystem) (start : Path) : Prop where
  configuration : findConfiguration? disk' start = findConfiguration? disk start
  patterns : ∀ file text config takes, findConfiguration? disk start = some file →
    disk.readText file = .ok text → Configuration.ofText text = .ok config →
      taken disk config file (baseOf file) = .ok takes →
        ∃ takes', taken disk' config file (baseOf file) = .ok takes' ∧
          ∀ names ∈ candidates disk (baseOf file), takes' names = takes names

/-- Patterns that stand for the same take the same. -/
theorem taken_of_effectivePattern (h : ∀ pattern ∈ config.patterns ++ config.excluded,
    effectivePattern disk' base pattern = effectivePattern disk base pattern) :
    taken disk' config file base = taken disk config file base := by
  have hread : ∀ patterns : List String, (∀ pattern ∈ patterns,
      effectivePattern disk' base pattern = effectivePattern disk base pattern) →
        readPatterns disk' file base patterns = readPatterns disk file base patterns := by
    intro patterns hpatterns
    induction patterns with
    | nil => rfl
    | cons pattern patterns ih =>
      obtain ⟨hfirst, hrest⟩ := List.forall_mem_cons.1 hpatterns
      rw [readPatterns, readPatterns, hfirst, ih hrest]
  rw [taken, taken, hread _ fun pattern hp => h pattern (List.mem_append_left _ hp),
    hread _ fun pattern hp => h pattern (List.mem_append_right _ hp)]

theorem isName_configurationName : Path.IsName configurationName :=
  ⟨rfl, by decide⟩

theorem exists_lead_of_findConfiguration? (h : findConfiguration? disk start = some file) :
    ∃ lead, file.segments = lead ++ [configurationName] := by
  obtain ⟨directory, -, rfl⟩ := List.mem_map.1 (List.mem_of_find?_eq_some h)
  obtain ⟨habs, hsegments⟩ := FileSystem.segments_of_isName isName_configurationName
  obtain ⟨-, lead, hlead, -⟩ := Path.join_eq directory habs
  exact ⟨lead, by rw [hlead, hsegments]⟩

/-- Where the search for the configuration starts in a directory that is there, writing other files
does not change what it finds. -/
theorem findConfiguration?_of_evolves (h : disk.Evolves disk' written)
    (hwritten : ∀ l, written l → l.getLast? ≠ some configurationName)
    (hstart : disk.isDirectory start = true) :
    findConfiguration? disk' start = findConfiguration? disk start := by
  obtain ⟨l, hl, hdir⟩ := FileSystem.isDirectory_iff.1 hstart
  have hwalk : ∀ a ∈ start.ancestors, ∃ d, disk.walk a = .ok d ∧ disk.get? d = some .directory := by
    rw [Path.ancestors, List.forall_mem_cons]
    have hstart := FileSystem.walk_of_locate hl
    refine ⟨⟨l, hstart, hdir⟩, fun a ha => ?_⟩
    obtain ⟨d, hd, hd'⟩ := walk_of_mem_parents ha hstart
    exact ⟨d, hd, hd' hdir⟩
  have hsame : ∀ a ∈ start.ancestors,
      disk'.isFile (a.join configurationName) = disk.isFile (a.join configurationName) := by
    intro a ha
    obtain ⟨d, hd, hdir⟩ := hwalk a ha
    have hfile := FileSystem.locate_join_of_walk hd hdir isName_configurationName
    have hnot : ¬ written (d ++ [configurationName]) := fun hw =>
      hwritten _ hw List.getLast?_concat
    rw [Bool.eq_iff_iff, FileSystem.isFile_iff, FileSystem.isFile_iff, hfile, h.locate hfile]
    refine exists_congr fun m => exists_congr fun e => ?_
    constructor
    · rintro ⟨heq, hget, he⟩
      cases heq
      exact ⟨rfl, (h.get?_eq_some_iff hnot he).1 hget, he⟩
    · rintro ⟨heq, hget, he⟩
      cases heq
      exact ⟨rfl, (h.get?_eq_some_iff hnot he).2 hget, he⟩
  rw [findConfiguration?, findConfiguration?, ← List.head?_filter, ← List.head?_filter]
  congr 1
  exact List.filter_congr (List.forall_mem_map.2 hsame)

/-- A file that is taken only afterwards has been written. -/
theorem mem_matched_or_written {takes takes' : List String → Bool} {l : Location}
    (h : disk.Evolves disk' written) (hreached : ∀ l, written l → disk'.Reached l)
    (hbase : disk.locate base = .ok l) (hempty : base.text ≠ "")
    (htakes : ∀ names ∈ candidates disk base, takes' names = takes names)
    (hp : p ∈ matched disk' base takes') :
    p ∈ matched disk base takes ∨ ∃ m, disk'.locate p = .ok m ∧ written m := by
  obtain ⟨names, hnames, rfl⟩ := List.mem_map.1 hp
  obtain ⟨hnames, htaken⟩ := List.mem_filter.1 hnames
  obtain hold | ⟨m, hm, hbelow⟩ := mem_candidates_or_written h hbase hnames
  · rw [htakes names hold] at htaken
    exact .inl (List.mem_map.2 ⟨names, List.mem_filter.2 ⟨hold, htaken⟩, rfl⟩)
  · obtain ⟨rfl, hne, -⟩ := FileSystem.below?_eq_some hbelow
    have hr := hreached _ hm
    refine .inr ⟨_, FileSystem.locate_joinAll ?_ hne (hr.isName_of_below? hbelow) ?_, hm⟩
    · rw [← FileSystem.locate_eq_walk hempty]
      exact h.locate hbase
    · intro ns hns hne'
      exact hr.directories _ ((List.prefix_append_right_inj l).2 hns) (by simpa using hne')

/-- After some files are written, the project of a configuration that is kept is found again. For
each ending it has the file that it had, or one that has been written. -/
theorem exists_ofDirectory_of_isKept {project : Project} (h : disk.Evolves disk' written)
    (hreached : ∀ l, written l → disk'.Reached l)
    (hwritten : ∀ l, written l → l.getLast? ≠ some configurationName)
    (hkept : IsKept disk disk' start) (hproject : ofDirectory disk start = .ok project) :
    ∃ project', ofDirectory disk' start = .ok project' ∧
      ∀ ending p, Path.IsEnding ending → project.findFile ending = .ok p →
        ∃ p', project'.findFile ending = .ok p' ∧ p'.EndsWith ending ∧
          ((∀ l, disk'.locate p' = .ok l → ¬ written l) → p'.components = p.components) := by
  obtain ⟨file, hfile, text, htext, config, hconfig, takes, htakes, rfl⟩ :=
    ofDirectory_eq_ok_iff.1 hproject
  obtain ⟨lead, hlead⟩ := exists_lead_of_findConfiguration? hfile
  obtain ⟨l, hl, -⟩ := FileSystem.readText_eq_ok_iff.1 htext
  obtain ⟨d, hd⟩ := locate_baseOf (FileSystem.walk_of_locate hl)
  obtain ⟨takes', htakes', hsame⟩ :=
    hkept.patterns file text config takes hfile htext hconfig htakes
  have htext' : disk'.readText file = .ok text := by
    refine h.readText htext fun m hm hw => hwritten m hw ?_
    obtain ⟨d', -, -, rfl⟩ := (FileSystem.locate_eq_ok_iff hlead isName_configurationName).1 hm
    exact List.getLast?_concat
  refine ⟨_, ofDirectory_eq_ok_iff.2 ⟨file, hkept.configuration.trans hfile, text, htext', config,
    hconfig, takes', htakes', rfl⟩, fun ending p hending hp => ?_⟩
  have hgrown : ∀ q ∈ matched disk (baseOf file) takes, q ∈ matched disk' (baseOf file) takes' := by
    intro q hq
    obtain ⟨names, hnames, rfl⟩ := List.mem_map.1 hq
    obtain ⟨hnames, htaken⟩ := List.mem_filter.1 hnames
    refine List.mem_map.2 ⟨names, List.mem_filter.2 ⟨mem_candidates_of_evolves h hnames, ?_⟩, rfl⟩
    rw [hsame names hnames, htaken]
  obtain ⟨p', hp', hends, hnamed, hcomponents⟩ :=
    exists_findFile_of_grown hgrown (fun q hq => endsWith_of_mem_matched hq) hending hp
  refine ⟨p', hp', hends, fun hnot => hcomponents ?_⟩
  rcases List.mem_append.1 hnamed with hlisted | hmatched
  · exact List.mem_append_left _ hlisted
  · obtain hold | ⟨m, hm, hw⟩ :=
      mem_matched_or_written h hreached hd (baseOf_text_ne_empty file) hsame hmatched
    · exact List.mem_append_right _ hold
    · exact absurd hw (hnot m hm)

end Project

end TwinClasses
