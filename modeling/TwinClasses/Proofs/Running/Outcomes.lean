import TwinClasses.Proofs.Rerun.Stability

set_option autoImplicit false

/-! What a run leaves behind, whether it succeeds or fails. Nothing is touched until both outputs
are made, and then they are written one after the other; so a failure leaves all files as they
were, unless it is the second output that cannot be written: then the first one stands. -/

namespace TwinClasses

variable {settings : Settings} {disk disk' next : FileSystem} {output first second : Output}
  {outputs : List Output} {e : RunError}

/-- But for the given places, the same files are there and have the same contents. -/
def FileSystem.KeepsFiles (disk disk' : FileSystem) (written : Location → Prop) : Prop :=
  ∀ l e, e ≠ .directory → ¬ written l → (disk'.get? l = some e ↔ disk.get? l = some e)

theorem FileSystem.Evolves.keepsFiles {written : Location → Prop}
    (h : disk.Evolves disk' written) : disk.KeepsFiles disk' written :=
  fun _ _ he hl => h.get?_eq_some_iff hl he

/-- The output for the skeleton of a flavor: its expansion below the banner, under its own name. -/
def Output.IsMade (settings : Settings) (disk : FileSystem) (flavor : Flavor) (output : Output) :
    Prop :=
  ∃ project template templates skeleton expanded,
    Project.ofDirectory disk settings.templateDirectory = .ok project ∧
    project.parseFile disk settings.templateFile = .ok template ∧
    TemplateClasses.ofFile template = .ok templates ∧
    project.parseFile disk (settings.skeletonFile flavor) = .ok skeleton ∧
    Expansion.run ⟨flavor, templates, settings.conventions⟩ skeleton = .ok expanded ∧
    output.path = settings.outputDirectory.join expanded.baseName ∧
    output.contents = settings.banner ++ expanded.source

/-- The ways in which a run may end: with a result, and with the files it leaves. -/
inductive Outcome (settings : Settings) (disk : FileSystem) :
    Except RunError (List Path) → FileSystem → Prop where
  | notGenerated {e : RunError} : generate settings disk = .error e →
    Outcome settings disk (.error e) disk
  | noneWritten {first second : Output} {fault : FileFault} {disk' : FileSystem} :
    generate settings disk = .ok [first, second] →
    disk.KeepsFiles disk' (fun _ => False) →
    Outcome settings disk (.error (.unwritable first.path fault)) disk'
  | firstWritten {first second : Output} {fault : FileFault} {disk' : FileSystem} :
    generate settings disk = .ok [first, second] → first.IsMade settings disk .synchronous →
    first.IsWritten disk' → disk.KeepsFiles disk' (IsPlaceOf disk' [first.path]) →
    Outcome settings disk (.error (.unwritable second.path fault)) disk'
  /-- Where both paths lead to one place, the second output stands there. -/
  | bothWritten {first second : Output} {disk' : FileSystem} :
    generate settings disk = .ok [first, second] →
    first.IsMade settings disk .synchronous → second.IsMade settings disk .asynchronous →
    (disk'.locate first.path ≠ disk'.locate second.path → first.IsWritten disk') →
    second.IsWritten disk' → disk.KeepsFiles disk' (IsPlaceOf disk' [first.path, second.path]) →
    Outcome settings disk (.ok [first.path, second.path]) disk'

theorem isMade_of_generate (h : generate settings disk = .ok outputs) :
    ∃ first second, outputs = [first, second] ∧ first.IsMade settings disk .synchronous ∧
      second.IsMade settings disk .asynchronous := by
  obtain ⟨project, hproject, h⟩ := generate_eq_ok_iff.1 h
  obtain ⟨template, htemplate, templates, htemplates, first, hfirst, second, hsecond, rfl⟩ :=
    generateIn_eq_ok_iff.1 h
  have hmade : ∀ flavor output,
      generateFlavor settings disk project templates flavor = .ok output →
        output.IsMade settings disk flavor := by
    intro flavor output ho
    obtain ⟨skeleton, hskeleton, expanded, hrun, rfl⟩ := generateFlavor_eq_ok_iff.1 ho
    refine ⟨project, template, templates, skeleton, expanded, hproject, htemplate, htemplates,
      hskeleton, hrun, ?_, ?_⟩
    · rw [SourceFile.output]
    · rw [SourceFile.output]
  exact ⟨first, second, rfl, hmade _ _ hfirst, hmade _ _ hsecond⟩

namespace Output

/-- What cannot be written leaves the files as they were; directories may have been made for it. -/
theorem evolves_write_error (h : output.write disk = (.error e, disk')) :
    (∃ fault, e = .unwritable output.path fault) ∧ disk.Evolves disk' fun _ => False := by
  rw [Output.write] at h
  split at h
  · rename_i fault made hmade
    change output.makeParent disk = _ at hmade
    cases h
    exact ⟨⟨fault, rfl⟩, (evolves_makeParent _ hmade).1⟩
  · rename_i made hmade
    change output.makeParent disk = _ at hmade
    split at h
    · cases h
    · rename_i fault hwrite
      cases h
      exact ⟨⟨fault, rfl⟩, (evolves_makeParent _ hmade).1⟩

/-- What is written stays so when nothing else can be. -/
theorem firstWritten_of_write (h : first.write disk = (.ok (), next))
    (hsecond : next.Evolves disk' fun _ => False) :
    first.IsWritten disk' ∧ disk.KeepsFiles disk' (IsPlaceOf disk' [first.path]) := by
  obtain ⟨hevolves, hwritten⟩ := evolves_write h
  refine ⟨hwritten.evolves hsecond fun _ _ hfalse => hfalse, ?_⟩
  refine FileSystem.Evolves.keepsFiles (hevolves.mono ?_ |>.trans (hsecond.mono ?_))
  · exact fun l hl => ⟨first.path, List.mem_cons_self, hsecond.locate hl⟩
  · exact fun l hl => hl.elim

theorem bothWritten_of_write (h : first.write disk = (.ok (), next))
    (hsecond : second.write next = (.ok (), disk')) :
    (disk'.locate first.path ≠ disk'.locate second.path → first.IsWritten disk') ∧
      second.IsWritten disk' ∧
      disk.KeepsFiles disk' (IsPlaceOf disk' [first.path, second.path]) := by
  obtain ⟨hevolves, hwritten⟩ := evolves_write h
  obtain ⟨hevolves', hwritten'⟩ := evolves_write hsecond
  refine ⟨fun hapart => hwritten.evolves hevolves' fun l hl hl' => hapart ?_, hwritten', ?_⟩
  · rw [hevolves'.locate hl, hl']
  · refine FileSystem.Evolves.keepsFiles (hevolves.mono ?_ |>.trans (hevolves'.mono ?_))
    · exact fun l hl => ⟨first.path, by simp, hevolves'.locate hl⟩
    · exact fun l hl => ⟨second.path, by simp, hl⟩

end Output

/-- A directory stands where the second output goes. -/
def blockedDisk : FileSystem where
  entries := (["src", "asyncEnumerable.ts"], .directory) :: (["src"], .directory) ::
    besideDisk.entries

/-- Both outputs are made from one skeleton. -/
def sharedSettings : Settings :=
  { Settings.ofRoot ⟨""⟩ with
    asynchronousFile := "enumerable.ts"
    conventions := { naming := { asyncStart := "" } } }

def sharedOutputs : List Output :=
  [⟨⟨"src/enumerable.ts"⟩,
      standardBanner ++ "class Enumerable \x7b" ++ memberText ++ " \x7d"⟩,
    ⟨⟨"src/enumerable.ts"⟩, standardBanner ++
      "class Enumerable \x7b public async a(): Promise<T> \x7b return b; \x7d \x7d"⟩]

end TwinClasses
