import TwinClasses.Proofs.Rerun.Banner
import TwinClasses.Proofs.Rerun.Outputs

set_option autoImplicit false

/-! Running again. What a run has written stays as it is in the next one if and only if the project
then has no output for a skeleton; an output that is taken for a skeleton is expanded once more. -/

namespace TwinClasses

variable {root : Path} {disk disk' : FileSystem} {outputs : List Output} {output : Output}
  {paths : List Path} {flavor : Flavor} {l : Location}

/-- How the path of a skeleton ends. -/
def Flavor.ending : Flavor → String
  | .synchronous => "enumerable.ts"
  | .asynchronous => "asyncEnumerable.ts"

theorem skeletonFile_ofRoot (root : Path) (flavor : Flavor) :
    (Settings.ofRoot root).skeletonFile flavor = flavor.ending := by
  cases flavor <;> rfl

theorem Flavor.isEnding (flavor : Flavor) : Path.IsEnding flavor.ending := by
  cases flavor <;> exact ⟨by decide, by decide⟩

theorem Flavor.isPlain_ending (flavor : Flavor) :
    ∀ c ∈ flavor.ending.toList, (c ≠ '/' && c ≠ '\\') = true := by
  refine List.all_eq_true.1 ?_
  cases flavor <;> decide

/-- The output is named after a skeleton of the flavor. -/
def Output.IsFor (root : Path) (flavor : Flavor) (output : Output) : Prop :=
  ∃ name, output.path = (Settings.ofRoot root).outputDirectory.join name ∧ Path.IsName name ∧
    shortName name = name ∧ flavor.ending.toList <:+ name.toList

theorem Output.IsFor.last (h : output.IsFor root flavor) (hl : disk.locate output.path = .ok l) :
    ∃ d name, l = d ++ [name] ∧ flavor.ending.toList <:+ name.toList := by
  obtain ⟨name, hpath, hname, -, hsuffix⟩ := h
  rw [hpath] at hl
  obtain ⟨d, hd, -⟩ := FileSystem.locate_join hname hl
  exact ⟨d, name, hd, hsuffix⟩

/-- No name ends in two ways of which neither is the end of the other. -/
theorem not_suffix_both {as bs cs : List Char} (hab : ¬ as <:+ bs) (hba : ¬ bs <:+ as)
    (ha : as <:+ cs) : ¬ bs <:+ cs :=
  fun hb => (List.suffix_or_suffix_of_suffix ha hb).elim hab hba

theorem isFor_of_generateFlavor {project : Project} {templates : TemplateClasses}
    (h : generateFlavor (.ofRoot root) disk project templates flavor = .ok output) :
    output.IsFor root flavor := by
  have hending := flavor.isEnding
  have hplain := flavor.isPlain_ending
  rw [← skeletonFile_ofRoot root] at hending hplain
  obtain ⟨name, hpath, hname, hshort, hsuffix⟩ := path_of_generateFlavor hending hplain h
  rw [skeletonFile_ofRoot] at hsuffix
  exact ⟨name, hpath, hname, hshort, hsuffix⟩

theorem isFor_of_generate (h : generate (.ofRoot root) disk = .ok outputs) :
    ∃ synchronous asynchronous, outputs = [synchronous, asynchronous] ∧
      synchronous.IsFor root .synchronous ∧ asynchronous.IsFor root .asynchronous := by
  obtain ⟨project, -, h⟩ := generate_eq_ok_iff.1 h
  obtain ⟨-, -, templates, -, synchronous, hsync, asynchronous, hasync, rfl⟩ :=
    generateIn_eq_ok_iff.1 h
  exact ⟨synchronous, asynchronous, rfl, isFor_of_generateFlavor hsync,
    isFor_of_generateFlavor hasync⟩

/-- The outputs of a run have different places. -/
theorem Output.IsFor.apart {synchronous asynchronous : Output}
    (hsync : synchronous.IsFor root .synchronous) (hasync : asynchronous.IsFor root .asynchronous) :
    [synchronous, asynchronous].Pairwise fun o o' => ∀ (d : FileSystem) (l : Location),
      d.locate o.path = .ok l → d.locate o'.path ≠ .ok l := by
  rw [List.pairwise_pair]
  intro d l hl hl'
  obtain ⟨d₁, name, rfl, hname⟩ := hsync.last hl
  obtain ⟨d₂, name', heq, hname'⟩ := hasync.last hl'
  obtain ⟨-, rfl⟩ := List.append_singleton_inj.1 heq
  exact not_suffix_both (by decide) (by decide) hname hname'

/-- One of the paths leads there. -/
def IsPlaceOf (disk : FileSystem) (paths : List Path) (l : Location) : Prop :=
  ∃ p ∈ paths, disk.locate p = .ok l

/-- What a run leaves: its outputs are written, and nothing else is. -/
theorem evolves_run (h : run (.ofRoot root) disk = (.ok paths, disk')) :
    ∃ outputs, generate (.ofRoot root) disk = .ok outputs ∧ paths = outputs.map (·.path) ∧
      disk.Evolves disk' (IsPlaceOf disk' paths) ∧ ∀ o ∈ outputs, o.IsWritten disk' := by
  obtain ⟨outputs, houtputs, hwrite, rfl⟩ := run_eq_ok_iff.1 h
  obtain ⟨synchronous, asynchronous, rfl, hsync, hasync⟩ := isFor_of_generate houtputs
  refine ⟨_, houtputs, rfl, (Output.evolves_writeOutputs hwrite).mono ?_,
    Output.isWritten_writeOutputs hwrite (hsync.apart hasync)⟩
  rintro l ⟨o, ho, hl⟩
  exact ⟨o.path, List.mem_map_of_mem ho, hl⟩

theorem exists_isFor (h : generate (.ofRoot root) disk = .ok outputs) (ho : output ∈ outputs) :
    ∃ flavor, output.IsFor root flavor := by
  obtain ⟨synchronous, asynchronous, rfl, hsync, hasync⟩ := isFor_of_generate h
  simp only [List.mem_cons, List.not_mem_nil, or_false] at ho
  obtain rfl | rfl := ho
  · exact ⟨_, hsync⟩
  · exact ⟨_, hasync⟩

theorem last_of_isPlaceOf (h : generate (.ofRoot root) disk = .ok outputs)
    (hl : IsPlaceOf disk' (outputs.map (·.path)) l) :
    ∃ (flavor : Flavor) (d : Location) (name : String),
      l = d ++ [name] ∧ flavor.ending.toList <:+ name.toList := by
  obtain ⟨p, hp, hl⟩ := hl
  obtain ⟨o, ho, rfl⟩ := List.mem_map.1 hp
  obtain ⟨flavor, hfor⟩ := exists_isFor h ho
  exact ⟨flavor, hfor.last hl⟩

theorem getLast?_ne_of_isPlaceOf (h : generate (.ofRoot root) disk = .ok outputs)
    (hl : IsPlaceOf disk' (outputs.map (·.path)) l) :
    l.getLast? ≠ some Project.configurationName := by
  obtain ⟨flavor, d, name, rfl, hname⟩ := last_of_isPlaceOf h hl
  rw [List.getLast?_concat, ne_eq, Option.some.injEq]
  rintro rfl
  revert hname
  cases flavor <;> decide

/-- Where the file for an ending is none that has been written, it is the file that there was. -/
theorem keepsSource_of_components {project project' : Project} {ending : String}
    {written : Location → Prop} (hending : Path.IsEnding ending)
    (h : disk.Evolves disk' written)
    (hfound : ∀ p, project.findFile ending = .ok p → ∃ p', project'.findFile ending = .ok p' ∧
      p'.EndsWith ending ∧ p'.components = p.components ∧
        ∀ l, disk'.locate p' = .ok l → ¬ written l) :
    KeepsSource disk disk' project project' ending := by
  intro p text hp htext
  obtain ⟨p', hp', ⟨s', hlast', hs', -⟩, hcomponents, hnot⟩ := hfound p hp
  obtain ⟨s, hlast, hs, -⟩ := (Project.isAccepted_iff hending).1
    (List.find?_some (Project.findFile_eq_ok_iff.1 hp))
  have hlocate : disk'.locate p' = disk'.locate p :=
    FileSystem.locate_congr hcomponents hlast' hs' hlast hs
  rw [hlocate] at hnot
  refine ⟨p', hp', ?_, ?_⟩
  · rw [FileSystem.readText_eq_ok_iff, hlocate, ← FileSystem.readText_eq_ok_iff]
    exact h.readText htext hnot
  · rw [shortName_text hlast', shortName_text hlast,
      Path.last_of_alike hcomponents hlast' hs' hlast hs]

/-- No file that stands for a skeleton is at the place of one of the paths. -/
def SparesOutputs (disk : FileSystem) (settings : Settings) (paths : List Path) : Prop :=
  ∀ project, Project.ofDirectory disk settings.templateDirectory = .ok project →
    ∀ flavor p, project.findFile (settings.skeletonFile flavor) = .ok p →
      ∀ path ∈ paths, disk.locate p ≠ disk.locate path

def templateEnding : String := "implementationTemplate.ts"

theorem isEnding_template : Path.IsEnding templateEnding := ⟨by decide, by decide⟩

theorem ending_not_suffix_template (flavor : Flavor) :
    ¬ flavor.ending.toList <:+ templateEnding.toList ∧
      ¬ templateEnding.toList <:+ flavor.ending.toList := by
  cases flavor <;> decide

/-- The last name on the way to a path that ends so. -/
theorem FileSystem.last_of_endsWith {p : Path} {ending : String} (h : p.EndsWith ending)
    (hl : disk.locate p = .ok l) :
    ∃ d name, l = d ++ [name] ∧ ending.toList <:+ name.toList := by
  obtain ⟨s, hlast, hs, hsuffix⟩ := h
  obtain ⟨lead, hlead⟩ := List.getLast?_eq_some_iff.1 hlast
  obtain ⟨d, -, -, rfl⟩ := (locate_eq_ok_iff hlead hs).1 hl
  exact ⟨d, s, rfl, hsuffix⟩

theorem run_again_of_spares (h : run (.ofRoot root) disk = (.ok paths, disk'))
    (hkept : Project.IsKept disk disk' (root.join "template"))
    (hspares : SparesOutputs disk' (.ofRoot root) paths) :
    ∃ disk'', run (.ofRoot root) disk' = (.ok paths, disk'') ∧
      ∀ l, disk''.get? l = disk'.get? l := by
  obtain ⟨outputs, houtputs, rfl, hevolves, hwritten⟩ := evolves_run h
  obtain ⟨project, hproject, hgenerate⟩ := generate_eq_ok_iff.1 houtputs
  obtain ⟨project', hproject', hfound⟩ := Project.exists_ofDirectory_of_isKept hevolves
    (fun l ⟨p, _, hl⟩ => FileSystem.reached_of_locate hl)
    (fun l hl => getLast?_ne_of_isPlaceOf houtputs hl) hkept hproject
  have htemplate : KeepsSource disk disk' project project' templateEnding := by
    refine keepsSource_of_components isEnding_template hevolves fun p hp => ?_
    obtain ⟨p', hp', hends, hcomponents⟩ := hfound _ p isEnding_template hp
    have hnot : ∀ l, disk'.locate p' = .ok l → ¬ IsPlaceOf disk' (outputs.map (·.path)) l := by
      intro l hl hw
      obtain ⟨d, name, rfl, hname⟩ := FileSystem.last_of_endsWith hends hl
      obtain ⟨flavor, d', name', heq, hname'⟩ := last_of_isPlaceOf houtputs hw
      obtain ⟨-, rfl⟩ := List.append_singleton_inj.1 heq
      obtain ⟨hne, hne'⟩ := ending_not_suffix_template flavor
      exact not_suffix_both hne' hne hname hname'
    exact ⟨p', hp', hends, hcomponents hnot, hnot⟩
  have hskeleton : ∀ flavor,
      KeepsSource disk disk' project project' ((Settings.ofRoot root).skeletonFile flavor) := by
    intro flavor
    have hending := flavor.isEnding
    rw [← skeletonFile_ofRoot root] at hending
    refine keepsSource_of_components hending hevolves fun p hp => ?_
    obtain ⟨p', hp', hends, hcomponents⟩ := hfound _ p hending hp
    have hnot : ∀ l, disk'.locate p' = .ok l → ¬ IsPlaceOf disk' (outputs.map (·.path)) l :=
      fun l hl ⟨path, hpath, hl'⟩ =>
        hspares project' hproject' flavor p' hp' path hpath (hl.trans hl'.symm)
    exact ⟨p', hp', hends, hcomponents hnot, hnot⟩
  obtain ⟨disk'', hwrite, hget⟩ := Output.writeOutputs_of_isWritten hwritten
  have hagain : generateIn (.ofRoot root) disk' project' = .ok outputs :=
    generateIn_of_keeps htemplate hskeleton hgenerate
  exact ⟨disk'', run_eq_ok_iff.2
    ⟨outputs, generate_eq_ok_iff.2 ⟨project', hproject', hagain⟩, hwrite, rfl⟩, hget⟩

theorem exists_mem_of_generate {project : Project} (h : generate (.ofRoot root) disk = .ok outputs)
    (hproject : Project.ofDirectory disk (root.join "template") = .ok project) (flavor : Flavor) :
    ∃ templates, ∃ o ∈ outputs,
      generateFlavor (.ofRoot root) disk project templates flavor = .ok o := by
  obtain ⟨project', hproject', h⟩ := generate_eq_ok_iff.1 h
  obtain rfl : project' = project := Except.ok.inj (hproject'.symm.trans hproject)
  obtain ⟨-, -, templates, -, synchronous, hsync, asynchronous, hasync, rfl⟩ :=
    generateIn_eq_ok_iff.1 h
  cases flavor with
  | synchronous => exact ⟨templates, synchronous, by simp, hsync⟩
  | asynchronous => exact ⟨templates, asynchronous, by simp, hasync⟩

theorem spares_of_run_again {disk'' : FileSystem}
    (h : run (.ofRoot root) disk' = (.ok paths, disk''))
    (hget : ∀ l, disk''.get? l = disk'.get? l) : SparesOutputs disk' (.ofRoot root) paths := by
  intro project hproject flavor p hp path hpath heq
  obtain ⟨outputs, houtputs, rfl, -, hwritten⟩ := evolves_run h
  obtain ⟨templates, o, ho, hgenerate⟩ := exists_mem_of_generate houtputs hproject flavor
  obtain ⟨p', hp', text, expanded, htext, ⟨skeleton, hread, hrun⟩, hname, rfl⟩ :=
    exists_of_generateFlavor hgenerate
  obtain rfl : p' = p := Except.ok.inj (hp'.symm.trans hp)
  obtain ⟨other, hother, rfl⟩ := List.mem_map.1 hpath
  obtain ⟨_, name, hother', hname', hshort, -⟩ := exists_isFor houtputs hother
  obtain ⟨l, hl, hcontents⟩ := FileSystem.readText_eq_ok_iff.1 htext
  have hsame : (expanded.output (.ofRoot root)).path = other.path := by
    have hending := flavor.isEnding
    rw [← skeletonFile_ofRoot root] at hending
    obtain ⟨s, hlast, hs, -⟩ := (Project.isAccepted_iff hending).1
      (List.find?_some (Project.findFile_eq_ok_iff.1 hp))
    obtain ⟨lead, hlead⟩ := List.getLast?_eq_some_iff.1 hlast
    obtain ⟨d, -, -, rfl⟩ := (FileSystem.locate_eq_ok_iff hlead hs).1 hl
    rw [heq, hother'] at hl
    obtain ⟨d', heq', -⟩ := FileSystem.locate_join hname' hl
    obtain ⟨-, rfl⟩ := List.append_singleton_inj.1 heq'
    rw [SourceFile.output, SourceFile.baseName_eq, hname, shortName_text hlast, hshort, hother']
  rw [heq] at hl
  obtain ⟨l', htarget, hcontents'⟩ := (hwritten _ ho).contents
  obtain ⟨-, hl', -⟩ := FileSystem.target_eq_ok_iff.1 htarget
  rw [FileSystem.locate_of_get? hget, hsame, hl, Except.ok.injEq] at hl'
  rw [← hl', hget, hcontents, Option.some.injEq, Entry.text.injEq] at hcontents'
  exact banner_source_ne hread hrun skipped_standardBanner (by decide) hcontents'.symm

/-- Where the template directory is there and no pattern stands for a directory that the run makes,
the configuration is kept. -/
theorem isKept_of_isDirectory (h : run (.ofRoot root) disk = (.ok paths, disk'))
    (hstart : disk.isDirectory (root.join "template") = true)
    (hpatterns : ∀ file text config,
      Project.findConfiguration? disk (root.join "template") = some file →
        disk.readText file = .ok text → Configuration.ofText text = .ok config →
          ∀ pattern ∈ config.patterns ++ config.excluded,
            Project.effectivePattern disk' (Project.baseOf file) pattern =
              Project.effectivePattern disk (Project.baseOf file) pattern) :
    Project.IsKept disk disk' (root.join "template") := by
  obtain ⟨outputs, houtputs, rfl, hevolves, -⟩ := evolves_run h
  refine ⟨Project.findConfiguration?_of_evolves hevolves
    (fun l hl => getLast?_ne_of_isPlaceOf houtputs hl) hstart, ?_⟩
  intro file text config takes hfile htext hconfig htakes
  refine ⟨takes, ?_, fun _ _ => rfl⟩
  rw [Project.taken_of_effectivePattern (hpatterns file text config hfile htext hconfig), htakes]

/-- Where the same configuration is found again and takes the same of the files that there were, a
second run changes nothing if and only if the project has no output of the first for a skeleton. -/
theorem run_again_iff (h : run (.ofRoot root) disk = (.ok paths, disk'))
    (hkept : Project.IsKept disk disk' (root.join "template")) :
    (∃ disk'', run (.ofRoot root) disk' = (.ok paths, disk'') ∧ ∀ l, disk''.get? l = disk'.get? l) ↔
      SparesOutputs disk' (.ofRoot root) paths :=
  ⟨fun ⟨_, hagain, hget⟩ => spares_of_run_again hagain hget, run_again_of_spares h hkept⟩

/-- A template directory, and a configuration at a place. -/
def diskWith (place : Location) (configuration : String) : FileSystem where
  entries := [(["template", "asyncEnumerable.ts"], .text ""),
    (["template", "enumerable.ts"], .text "class Enumerable \x7b \x7d"),
    (["template", "implementationTemplate.ts"],
      .text "class EnumerableTemplate \x7b a(): Promise<T> \x7b return b; \x7d \x7d"),
    (place, .text configuration), (["template"], .directory)]

def templateSources (directory : String) : List Path :=
  ["asyncEnumerable.ts", "enumerable.ts", "implementationTemplate.ts"].map fun name =>
    ⟨directory ++ name⟩

def memberText : String := " a(): T \x7b return b; \x7d"

/-- What is generated from skeletons that start with some banners and have some members. -/
def outputsFor (banners members : String) : List Output :=
  [⟨⟨"src/enumerable.ts"⟩, banners ++ "class Enumerable \x7b" ++ members ++ " \x7d"⟩,
    ⟨⟨"src/asyncEnumerable.ts"⟩, banners⟩]

def afterRun (disk : FileSystem) : FileSystem :=
  (writeOutputs (outputsFor standardBanner memberText) disk).2

/-- The configuration lies beside the sources and names no others. -/
def besideDisk : FileSystem :=
  diskWith ["template", "tsconfig.json"] "\x7b \"include\": [\"./*.ts\"] \x7d"

theorem findConfiguration?_besideDisk :
    Project.findConfiguration? besideDisk ((⟨""⟩ : Path).join "template") =
      some ⟨"template/tsconfig.json"⟩ := by
  decide +kernel

theorem besideDisk_run_again : ∃ paths disk',
    run (.ofRoot ⟨""⟩) besideDisk = (.ok paths, disk') ∧
    Project.IsKept besideDisk disk' ((⟨""⟩ : Path).join "template") ∧
    SparesOutputs disk' (.ofRoot ⟨""⟩) paths ∧
    ∃ disk'', run (.ofRoot ⟨""⟩) disk' = (.ok paths, disk'') ∧
      ∀ l, disk''.get? l = disk'.get? l := by
  have hconfig : Configuration.ofText "\x7b \"include\": [\"./*.ts\"] \x7d" =
      .ok { included := some ["./*.ts"] } := toOption_eq_some_iff.1 (by decide +kernel)
  have hproject : Project.ofDirectory besideDisk ⟨"template"⟩ =
      .ok ⟨⟨"template/tsconfig.json"⟩, templateSources "template/"⟩ :=
    Project.ofDirectory_of_sorted (by decide +kernel) (toOption_eq_some_iff.1 (by decide +kernel))
      hconfig (by decide +kernel) (by decide +kernel) (by decide +kernel)
  have hproject' : Project.ofDirectory (afterRun besideDisk) ⟨"template"⟩ =
      .ok ⟨⟨"template/tsconfig.json"⟩, templateSources "template/"⟩ :=
    Project.ofDirectory_of_sorted (by decide +kernel) (toOption_eq_some_iff.1 (by decide +kernel))
      hconfig (by decide +kernel) (by decide +kernel) (by decide +kernel)
  have hgenerate : generate (.ofRoot ⟨""⟩) besideDisk =
      .ok (outputsFor standardBanner memberText) :=
    generate_eq_ok_iff.2 ⟨_, hproject, toOption_eq_some_iff.1 (by decide +kernel)⟩
  have hwrite : writeOutputs (outputsFor standardBanner memberText) besideDisk =
      (.ok (), afterRun besideDisk) :=
    Prod.ext (toOption_eq_some_iff.1 (by decide +kernel)) (by rw [afterRun])
  have hrun := run_eq_ok_iff.2 ⟨_, hgenerate, hwrite, rfl⟩
  have hkept : Project.IsKept besideDisk (afterRun besideDisk)
      ((⟨""⟩ : Path).join "template") := by
    refine isKept_of_isDirectory hrun (by decide +kernel) ?_
    intro file text config hfile htext hconfig'
    obtain rfl : (⟨"template/tsconfig.json"⟩ : Path) = file :=
      Option.some.inj (findConfiguration?_besideDisk.symm.trans hfile)
    obtain rfl : "\x7b \"include\": [\"./*.ts\"] \x7d" = text :=
      Except.ok.inj (Eq.trans (toOption_eq_some_iff.1 (by decide +kernel)).symm htext)
    obtain rfl : { included := some ["./*.ts"] } = config :=
      Except.ok.inj (hconfig.symm.trans hconfig')
    decide +kernel
  have hspares : SparesOutputs (afterRun besideDisk) (.ofRoot ⟨""⟩)
      ((outputsFor standardBanner memberText).map (·.path)) := by
    intro project hproject'' flavor p hp path hpath heq
    obtain rfl := Except.ok.inj (hproject'.symm.trans hproject'')
    obtain rfl : ⟨"template/" ++ flavor.ending⟩ = p := by
      refine Except.ok.inj (Eq.trans ?_ hp)
      cases flavor <;> exact toOption_eq_some_iff.1 (by decide +kernel)
    have hapart : ∀ path ∈ (outputsFor standardBanner memberText).map (·.path),
        ((afterRun besideDisk).locate ⟨"template/" ++ flavor.ending⟩).toOption ≠
          ((afterRun besideDisk).locate path).toOption := by
      cases flavor <;> decide +kernel
    exact hapart path hpath (congrArg Except.toOption heq)
  exact ⟨_, _, hrun, hkept, hspares, (run_again_iff hrun hkept).2 hspares⟩

/-- The configuration lies above the template directory and names all files below it. -/
def aboveDisk : FileSystem := diskWith ["tsconfig.json"] "\x7b\x7d"

/-- A run that finds its own outputs reads them as skeletons, and expands them once more. -/
theorem not_run_again : ¬ ∀ (root : Path) (disk disk' : FileSystem) (paths : List Path),
    run (.ofRoot root) disk = (.ok paths, disk') →
      ∃ disk'', run (.ofRoot root) disk' = (.ok paths, disk'') ∧
        ∀ l, disk''.get? l = disk'.get? l := by
  have hconfig : Configuration.ofText "\x7b\x7d" = .ok {} :=
    toOption_eq_some_iff.1 (by decide +kernel)
  have hproject : Project.ofDirectory aboveDisk ⟨"template"⟩ =
      .ok ⟨⟨"tsconfig.json"⟩, templateSources "./template/"⟩ :=
    Project.ofDirectory_of_sorted (by decide +kernel) (toOption_eq_some_iff.1 (by decide +kernel))
      hconfig (by decide +kernel) (by decide +kernel) (by decide +kernel)
  -- the outputs come before the sources, because their directory does
  have hproject' : Project.ofDirectory (afterRun aboveDisk) ⟨"template"⟩ =
      .ok ⟨⟨"tsconfig.json"⟩, [⟨"./src/asyncEnumerable.ts"⟩, ⟨"./src/enumerable.ts"⟩] ++
        templateSources "./template/"⟩ :=
    Project.ofDirectory_of_sorted (by decide +kernel) (toOption_eq_some_iff.1 (by decide +kernel))
      hconfig (by decide +kernel) (by decide +kernel) (by decide +kernel)
  have hgenerate : generate (.ofRoot ⟨""⟩) aboveDisk = .ok (outputsFor standardBanner memberText) :=
    generate_eq_ok_iff.2 ⟨_, hproject, toOption_eq_some_iff.1 (by decide +kernel)⟩
  have hgenerate' : generate (.ofRoot ⟨""⟩) (afterRun aboveDisk) =
      .ok (outputsFor (standardBanner ++ standardBanner) (memberText ++ memberText)) :=
    generate_eq_ok_iff.2 ⟨_, hproject', toOption_eq_some_iff.1 (by decide +kernel)⟩
  have hwrite : writeOutputs (outputsFor standardBanner memberText) aboveDisk =
      (.ok (), afterRun aboveDisk) :=
    Prod.ext (toOption_eq_some_iff.1 (by decide +kernel)) (by rw [afterRun])
  intro h
  obtain ⟨disk'', hrun, hsame⟩ := h ⟨""⟩ aboveDisk (afterRun aboveDisk) _
    (run_eq_ok_iff.2 ⟨_, hgenerate, hwrite, rfl⟩)
  obtain ⟨outputs, houtputs, hagain, -⟩ := run_eq_ok_iff.1 hrun
  obtain rfl := Except.ok.inj (hgenerate'.symm.trans houtputs)
  obtain rfl : (writeOutputs _ (afterRun aboveDisk)).2 = disk'' := congrArg Prod.snd hagain
  have hentry := hsame ["src", "enumerable.ts"]
  revert hentry
  decide +kernel

end TwinClasses
