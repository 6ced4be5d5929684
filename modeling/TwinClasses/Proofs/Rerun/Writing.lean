import TwinClasses.Proofs.Rerun.Places
import TwinClasses.Run

set_option autoImplicit false

/-! What writing does to the disk. Nothing is lost but the former contents of what is written, and
writing once more what has been written changes nothing. -/

namespace TwinClasses

namespace FileSystem

variable {disk disk' disk'' : FileSystem} {p : Path} {l m : Location} {e : Entry}
  {contents : String} {written written' : Location → Prop}

/-- One of the entries is a file at this place. -/
def HasFile (disk : FileSystem) (l : Location) : Prop := ∃ e ≠ .directory, (l, e) ∈ disk.entries

/-- Only the given places are written, and they hold files then. -/
structure Evolves (disk disk' : FileSystem) (written : Location → Prop) : Prop where
  kept : ∀ l e, disk.get? l = some e → ¬ written l → disk'.get? l = some e
  directory : ∀ l, disk.get? l = some .directory → disk'.get? l = some .directory
  hasFile : ∀ l, disk.HasFile l → disk'.HasFile l
  isFile : ∀ l, disk'.HasFile l → disk.HasFile l ∨ written l

theorem Evolves.refl (disk : FileSystem) (written : Location → Prop) : disk.Evolves disk written :=
  ⟨fun _ _ h _ => h, fun _ h => h, fun _ h => h, fun _ h => .inl h⟩

theorem Evolves.trans (h : disk.Evolves disk' written) (h' : disk'.Evolves disk'' written) :
    disk.Evolves disk'' written where
  kept l e hl hw := h'.kept l e (h.kept l e hl hw) hw
  directory l hl := h'.directory l (h.directory l hl)
  hasFile l hl := h'.hasFile l (h.hasFile l hl)
  isFile l hl := (h'.isFile l hl).elim (h.isFile l) .inr

theorem Evolves.mono (h : disk.Evolves disk' written) (hw : ∀ l, written l → written' l) :
    disk.Evolves disk' written' where
  kept l e hl hnot := h.kept l e hl fun hl => hnot (hw l hl)
  directory := h.directory
  hasFile := h.hasFile
  isFile l hl := (h.isFile l hl).imp_right (hw l)

theorem mem_entries_set {x : Location × Entry} :
    x ∈ (disk.set l e).entries ↔ x = (l, e) ∨ x ∈ disk.entries ∧ x.1 ≠ l := by
  simp [set]

theorem not_isFixed (h : disk.get? l ≠ some .directory) : l.isFixed = false := by
  rw [Bool.eq_false_iff]
  exact fun hl => h (get?_of_isFixed hl)

theorem get?_set_self (h : disk.get? l ≠ some .directory) : (disk.set l e).get? l = some e := by
  rw [get?_set, not_isFixed h]
  simp

theorem get?_set_of_ne (h : m ≠ l) : (disk.set l e).get? m = disk.get? m := by
  rw [get?_set, if_neg h]
  split
  · rename_i hfixed
    rw [get?_of_isFixed hfixed]
  · rfl

theorem fst_ne_of_get? (h : disk.get? l = none) {x : Location × Entry} (hx : x ∈ disk.entries) :
    x.1 ≠ l := by
  rintro rfl
  rw [get?] at h
  split at h
  · cases h
  · simpa using List.lookup_eq_none_iff.1 h x hx

theorem hasFile_of_get? (h : disk.get? l = some e) (he : e ≠ .directory) : disk.HasFile l := by
  rw [get?] at h
  split at h
  · cases h
    exact absurd rfl he
  · obtain ⟨before, after, hentries, -⟩ := List.lookup_eq_some_iff.1 h
    exact ⟨e, he, by simp [hentries]⟩

/-- Files are found where they were and where one was written. -/
theorem Evolves.get?_eq_some_iff (h : disk.Evolves disk' written) (hl : ¬ written l)
    (he : e ≠ .directory) : disk'.get? l = some e ↔ disk.get? l = some e := by
  refine ⟨fun hget => ?_, fun hget => h.kept l e hget hl⟩
  obtain ⟨e', he', hmem⟩ := (h.isFile l (hasFile_of_get? hget he)).resolve_right hl
  cases hold : disk.get? l with
  | none => exact absurd rfl (fst_ne_of_get? hold hmem)
  | some e'' => rw [← h.kept l e'' hold hl, hget]

theorem evolves_set_directory (h : disk.get? l = none) (written : Location → Prop) :
    disk.Evolves (disk.set l .directory) written := by
  have hne : ∀ m e, disk.get? m = some e → m ≠ l := by
    rintro m e hm rfl
    rw [h] at hm
    cases hm
  have hkept : ∀ m e, disk.get? m = some e → (disk.set l .directory).get? m = some e :=
    fun m e hm => by rw [get?_set_of_ne (hne m e hm), hm]
  refine ⟨fun m e hm _ => hkept m e hm, fun m hm => hkept m _ hm, ?_, ?_⟩
  · rintro m ⟨e, he, hm⟩
    exact ⟨e, he, mem_entries_set.2 (.inr ⟨hm, fst_ne_of_get? h hm⟩)⟩
  · rintro m ⟨e, he, hm⟩
    rcases mem_entries_set.1 hm with heq | ⟨hm, -⟩
    · cases heq
      exact absurd rfl he
    · exact .inl ⟨e, he, hm⟩

theorem evolves_set_text (h : disk.get? l ≠ some .directory) (contents : String) :
    disk.Evolves (disk.set l (.text contents)) (· = l) := by
  refine ⟨fun m e hm hne => by rw [get?_set_of_ne hne, hm], fun m hm => ?_, ?_, ?_⟩
  · rw [get?_set_of_ne, hm]
    rintro rfl
    exact h hm
  · rintro m ⟨e, he, hm⟩
    by_cases hml : m = l
    · exact ⟨.text contents, by simp, mem_entries_set.2 (.inl (by rw [hml]))⟩
    · exact ⟨e, he, mem_entries_set.2 (.inr ⟨hm, hml⟩)⟩
  · rintro m ⟨e, he, hm⟩
    rcases mem_entries_set.1 hm with heq | ⟨hm, -⟩
    · exact .inr (congrArg Prod.fst heq)
    · exact .inl ⟨e, he, hm⟩

theorem Evolves.locate (h : disk.Evolves disk' written) (hl : disk.locate p = .ok l) :
    disk'.locate p = .ok l := by
  have hfold : ∀ (ss : List String) (d : Location), ss.foldlM disk.step d = .ok l →
      ss.foldlM disk'.step d = .ok l := by
    intro ss
    induction ss with
    | nil => exact fun d hd => hd
    | cons s ss ih =>
      intro d hd
      rw [List.foldlM_cons, ok_bind] at hd ⊢
      obtain ⟨m, hm, hrest⟩ := hd
      obtain ⟨hdir, rfl⟩ := step_eq_ok_iff.1 hm
      exact ⟨_, step_eq_ok_iff.2 ⟨h.directory d hdir, rfl⟩, ih _ hrest⟩
  rw [FileSystem.locate] at hl ⊢
  split at hl
  · cases hl
  · rename_i hp
    rw [if_neg hp]
    exact hfold _ _ hl

theorem find_eq_ok_iff :
    disk.find p = .ok e ↔ ∃ l, disk.locate p = .ok l ∧ disk.get? l = some e := by
  rw [find, ok_bind]
  refine exists_congr fun l => and_congr_right fun _ => ?_
  cases disk.get? l with
  | none => simp [throw, throwThe, MonadExceptOf.throw]
  | some e' => exact (ok_pure e' e).trans (by rw [Option.some.injEq, eq_comm])

theorem isDirectory_iff : disk.isDirectory p = true ↔
    ∃ l, disk.locate p = .ok l ∧ disk.get? l = some .directory := by
  rw [← find_eq_ok_iff, isDirectory]
  split <;> simp_all

theorem readText_eq_ok_iff : disk.readText p = .ok contents ↔
    ∃ l, disk.locate p = .ok l ∧ disk.get? l = some (.text contents) := by
  rw [← find_eq_ok_iff, readText, ok_bind]
  constructor
  · rintro ⟨e, he, h⟩
    cases e with
    | text contents' =>
      cases h
      exact he
    | directory => cases h
    | binary => cases h
  · exact fun h => ⟨_, h, rfl⟩

theorem Evolves.readText (h : disk.Evolves disk' written) (hp : disk.readText p = .ok contents)
    (hnot : ∀ l, disk'.locate p = .ok l → ¬ written l) : disk'.readText p = .ok contents := by
  obtain ⟨l, hl, hcontents⟩ := readText_eq_ok_iff.1 hp
  have hl' := h.locate hl
  exact readText_eq_ok_iff.2 ⟨l, hl', h.kept l _ hcontents (hnot l hl')⟩

theorem isFile_iff : disk.isFile p = true ↔
    ∃ l e, disk.locate p = .ok l ∧ disk.get? l = some e ∧ e ≠ .directory := by
  have hfind : disk.isFile p = true ↔ ∃ e, disk.find p = .ok e ∧ e ≠ .directory := by
    rw [isFile]
    split <;> simp_all
  simp only [hfind, find_eq_ok_iff]
  constructor
  · rintro ⟨e, ⟨l, hl, hget⟩, he⟩
    exact ⟨l, e, hl, hget, he⟩
  · rintro ⟨l, e, hl, hget, he⟩
    exact ⟨e, ⟨l, hl, hget⟩, he⟩

theorem Evolves.isDirectory (h : disk.Evolves disk' written) (hp : disk.isDirectory p = true) :
    disk'.isDirectory p = true := by
  obtain ⟨l, hl, hdir⟩ := isDirectory_iff.1 hp
  exact isDirectory_iff.2 ⟨l, h.locate hl, h.directory l hdir⟩

theorem makeDirectory_eq_ok_iff : disk.makeDirectory p = .ok disk' ↔
    ∃ l, disk.locate p = .ok l ∧ disk.get? l = none ∧ disk' = disk.set l .directory := by
  rw [makeDirectory, ok_bind]
  refine exists_congr fun l => and_congr_right fun _ => ?_
  cases disk.get? l with
  | none => simp [ok_pure]
  | some e => simp [throw, throwThe, MonadExceptOf.throw]

theorem evolves_attempt {r : Except FileFault Unit} (written : Location → Prop)
    (h : makeDirectoryBelow.attempt p disk = (r, disk')) :
    disk.Evolves disk' written ∧ (r = .ok () → disk'.isDirectory p = true) := by
  rw [makeDirectoryBelow.attempt] at h
  split at h
  · rename_i disk₁ hmake
    cases h
    obtain ⟨l, hl, hnone, rfl⟩ := makeDirectory_eq_ok_iff.1 hmake
    have hevolves := evolves_set_directory hnone written
    refine ⟨hevolves, fun _ => isDirectory_iff.2 ⟨l, hevolves.locate hl, ?_⟩⟩
    exact get?_set_self (by simp [hnone])
  · cases h
    refine ⟨.refl _ _, fun hr => ?_⟩
    split at hr
    · assumption
    · cases hr

theorem evolves_makeDirectoryBelow {parents : List Path} {r : Except FileFault Unit}
    (written : Location → Prop) (h : disk.makeDirectoryBelow p parents = (r, disk')) :
    disk.Evolves disk' written ∧ (r = .ok () → disk'.isDirectory p = true) := by
  induction parents generalizing p r disk' with
  | nil => exact evolves_attempt written h
  | cons parent parents ih =>
    rw [makeDirectoryBelow] at h
    split at h
    · split at h
      · exact evolves_attempt written h
      · split at h
        · rename_i made hmade
          obtain ⟨hevolves, hdir⟩ := evolves_attempt written h
          exact ⟨(ih hmade).1.trans hevolves, hdir⟩
        · rename_i failed hfailed
          refine ⟨(ih h).1, fun hr => ?_⟩
          rw [hr] at h
          exact (hfailed disk' h).elim
    · exact evolves_attempt written h

theorem evolves_makeDirectories {r : Except FileFault Unit} (written : Location → Prop)
    (h : disk.makeDirectories p = (r, disk')) : disk.Evolves disk' written ∧
      (r = .ok () → p.text ≠ "" → disk'.isDirectory p = true) := by
  rw [makeDirectories] at h
  split at h
  · rename_i hp
    cases h
    exact ⟨.refl _ _, fun _ hne => absurd hp hne⟩
  · obtain ⟨hevolves, hdir⟩ := evolves_makeDirectoryBelow written h
    exact ⟨hevolves, fun hr _ => hdir hr⟩

/-- A directory that is there is not made again. -/
theorem makeDirectories_of_isDirectory (h : p.text ≠ "" → disk.isDirectory p = true) :
    disk.makeDirectories p = (.ok (), disk) := by
  rw [makeDirectories]
  split
  · rfl
  · rename_i hp
    obtain ⟨l, hl, hdir⟩ := isDirectory_iff.1 (h hp)
    have hmake : disk.makeDirectory p = .error .alreadyExists := by
      simp [makeDirectory, hl, hdir, bind, Except.bind, throw, throwThe, MonadExceptOf.throw]
    have hattempt : makeDirectoryBelow.attempt p disk = (.ok (), disk) := by
      rw [makeDirectoryBelow.attempt, hmake, h hp]
      rfl
    cases p.parents with
    | nil => exact hattempt
    | cons parent parents => rw [makeDirectoryBelow, hmake, hattempt]

theorem target_eq_ok_iff : disk.target p = .ok l ↔
    p.endsWithSlash = false ∧ disk.locate p = .ok l ∧ disk.get? l ≠ some .directory := by
  rw [target]
  cases hslash : p.endsWithSlash with
  | true =>
    simp only [if_true, ok_bind]
    simp [throw, throwThe, MonadExceptOf.throw]
  | false =>
    simp only [Bool.false_eq_true, if_false, ok_bind, true_and]
    constructor
    · rintro ⟨m, hm, h⟩
      split at h
      · cases h
      · rename_i hdir
        cases h
        exact ⟨hm, hdir⟩
    · rintro ⟨hl, hdir⟩
      exact ⟨l, hl, by rw [if_neg hdir]; rfl⟩

/-- The entries at all places say where paths lead. -/
theorem locate_of_get? (h : ∀ l, disk'.get? l = disk.get? l) (p : Path) :
    disk'.locate p = disk.locate p := by
  have hstep : disk'.step = disk.step := by
    funext l s
    simp only [step, h]
  rw [FileSystem.locate, FileSystem.locate, hstep]

end FileSystem

namespace Output

variable {disk disk' : FileSystem} {output : Output} {outputs : List Output}

/-- The file holds what the output says, in a directory that is there. -/
structure IsWritten (disk : FileSystem) (output : Output) : Prop where
  directory : ∀ parent, output.path.parent? = some parent → parent.text ≠ "" →
    disk.isDirectory parent = true
  contents : ∃ l, disk.target output.path = .ok l ∧ disk.get? l = some (.text output.contents)

/-- The directory of an output is made first. -/
def makeParent (output : Output) (disk : FileSystem) : Except FileFault Unit × FileSystem :=
  match output.path.parent? with
  | some parent => disk.makeDirectories parent
  | none => (.ok (), disk)

theorem write_eq_ok_iff : output.write disk = (.ok (), disk') ↔
    ∃ made, output.makeParent disk = (.ok (), made) ∧
      made.writeText output.path output.contents = .ok disk' := by
  rw [Output.write]
  split
  · rename_i fault made hmade
    change output.makeParent disk = _ at hmade
    simp [hmade]
  · rename_i made hmade
    change output.makeParent disk = _ at hmade
    split <;> rename_i htext <;> simp [hmade, htext]

theorem writeText_eq_ok_iff {p : Path} {contents : String} :
    disk.writeText p contents = .ok disk' ↔
      ∃ l, disk.target p = .ok l ∧ disk' = disk.set l (.text contents) := by
  rw [FileSystem.writeText]
  cases disk.target p <;> simp [Except.map, eq_comm]

theorem evolves_makeParent {r : Except FileFault Unit} (written : Location → Prop)
    (h : output.makeParent disk = (r, disk')) : disk.Evolves disk' written ∧
      (r = .ok () → ∀ parent, output.path.parent? = some parent → parent.text ≠ "" →
        disk'.isDirectory parent = true) := by
  rw [makeParent] at h
  cases hparent : output.path.parent? with
  | none =>
    rw [hparent] at h
    cases h
    exact ⟨.refl _ _, fun _ _ hnone => nomatch hnone⟩
  | some parent =>
    rw [hparent] at h
    obtain ⟨hevolves, hdir⟩ := FileSystem.evolves_makeDirectories written h
    refine ⟨hevolves, fun hr _ hsome => ?_⟩
    cases hsome
    exact hdir hr

theorem evolves_write (h : output.write disk = (.ok (), disk')) :
    disk.Evolves disk' (fun l => disk'.locate output.path = .ok l) ∧ output.IsWritten disk' := by
  obtain ⟨made, hmade, hwrite⟩ := write_eq_ok_iff.1 h
  obtain ⟨l, htarget, rfl⟩ := writeText_eq_ok_iff.1 hwrite
  obtain ⟨hslash, hl, hdir⟩ := FileSystem.target_eq_ok_iff.1 htarget
  have hset := FileSystem.evolves_set_text hdir output.contents
  have hl' := hset.locate hl
  obtain ⟨hparent, hdirectory⟩ := evolves_makeParent (· = l) hmade
  refine ⟨(hparent.trans hset).mono fun m hm => by rw [hm, hl'], ⟨?_, l, ?_, ?_⟩⟩
  · exact fun parent hsome hne => hset.isDirectory (hdirectory rfl parent hsome hne)
  · refine FileSystem.target_eq_ok_iff.2 ⟨hslash, hl', ?_⟩
    rw [FileSystem.get?_set_self hdir]
    simp
  · exact FileSystem.get?_set_self hdir

/-- What is written stays so if nothing is written in its place. -/
theorem IsWritten.evolves {written : Location → Prop} (h : output.IsWritten disk)
    (hevolves : disk.Evolves disk' written)
    (hnot : ∀ l, disk.locate output.path = .ok l → ¬ written l) : output.IsWritten disk' := by
  obtain ⟨l, htarget, hl⟩ := h.contents
  obtain ⟨hslash, hlocate, -⟩ := FileSystem.target_eq_ok_iff.1 htarget
  have hl' := hevolves.kept l _ hl (hnot l hlocate)
  refine ⟨fun parent hsome hne => hevolves.isDirectory (h.directory parent hsome hne), l, ?_, hl'⟩
  refine FileSystem.target_eq_ok_iff.2 ⟨hslash, hevolves.locate hlocate, ?_⟩
  rw [hl']
  simp

theorem writeOutputs_cons : writeOutputs (output :: outputs) disk = (.ok (), disk') ↔
    ∃ next, output.write disk = (.ok (), next) ∧ writeOutputs outputs next = (.ok (), disk') := by
  rw [writeOutputs]
  split
  · rename_i next hwrite
    simp [hwrite]
  · rename_i failed hfailed
    constructor
    · exact fun h => (hfailed disk' h).elim
    · rintro ⟨next, hwrite, -⟩
      exact (hfailed next hwrite).elim

theorem evolves_writeOutputs (h : writeOutputs outputs disk = (.ok (), disk')) :
    disk.Evolves disk' fun l => ∃ o ∈ outputs, disk'.locate o.path = .ok l := by
  induction outputs generalizing disk with
  | nil =>
    cases h
    exact .refl _ _
  | cons output outputs ih =>
    obtain ⟨next, hwrite, hrest⟩ := writeOutputs_cons.1 h
    have hevolves := ih hrest
    refine FileSystem.Evolves.trans ((evolves_write hwrite).1.mono fun l hl => ?_)
      (hevolves.mono ?_)
    · exact ⟨output, List.mem_cons_self, hevolves.locate hl⟩
    · rintro l ⟨o, ho, hl⟩
      exact ⟨o, List.mem_cons_of_mem _ ho, hl⟩

/-- Outputs that never have the same place all stay written. -/
theorem isWritten_writeOutputs (h : writeOutputs outputs disk = (.ok (), disk'))
    (hapart : outputs.Pairwise fun o o' => ∀ (d : FileSystem) (l : Location),
      d.locate o.path = .ok l → d.locate o'.path ≠ .ok l) :
    ∀ o ∈ outputs, o.IsWritten disk' := by
  induction outputs generalizing disk with
  | nil => simp
  | cons output outputs ih =>
    obtain ⟨next, hwrite, hrest⟩ := writeOutputs_cons.1 h
    obtain ⟨hfirst, hothers⟩ := List.pairwise_cons.1 hapart
    have hevolves := evolves_writeOutputs hrest
    rw [List.forall_mem_cons]
    refine ⟨(evolves_write hwrite).2.evolves hevolves ?_, ih hrest hothers⟩
    rintro l hl ⟨o, ho, hol⟩
    exact hfirst o ho disk' l (hevolves.locate hl) hol

theorem IsWritten.of_get? (h : output.IsWritten disk) (hget : ∀ l, disk'.get? l = disk.get? l) :
    output.IsWritten disk' := by
  have hlocate := FileSystem.locate_of_get? hget
  obtain ⟨l, htarget, hl⟩ := h.contents
  refine ⟨fun parent hsome hne => ?_, l, ?_, by rw [hget, hl]⟩
  · have hdir := h.directory parent hsome hne
    rw [FileSystem.isDirectory_iff] at hdir ⊢
    simpa only [hlocate, hget] using hdir
  · rw [FileSystem.target_eq_ok_iff] at htarget ⊢
    simpa only [hlocate, hget] using htarget

/-- Writing what is written changes no entry. -/
theorem IsWritten.write (h : output.IsWritten disk) :
    ∃ disk', output.write disk = (.ok (), disk') ∧ ∀ l, disk'.get? l = disk.get? l := by
  obtain ⟨l, htarget, hl⟩ := h.contents
  have hmade : output.makeParent disk = (.ok (), disk) := by
    rw [makeParent]
    split
    · rename_i parent hparent
      exact FileSystem.makeDirectories_of_isDirectory (h.directory parent hparent)
    · rfl
  refine ⟨_, write_eq_ok_iff.2 ⟨disk, hmade, writeText_eq_ok_iff.2 ⟨l, htarget, rfl⟩⟩, fun m => ?_⟩
  by_cases hm : m = l
  · rw [hm, FileSystem.get?_set_self (FileSystem.target_eq_ok_iff.1 htarget).2.2, hl]
  · exact FileSystem.get?_set_of_ne hm

theorem writeOutputs_of_isWritten (h : ∀ o ∈ outputs, o.IsWritten disk) :
    ∃ disk', writeOutputs outputs disk = (.ok (), disk') ∧ ∀ l, disk'.get? l = disk.get? l := by
  induction outputs generalizing disk with
  | nil => exact ⟨disk, rfl, fun _ => rfl⟩
  | cons output outputs ih =>
    rw [List.forall_mem_cons] at h
    obtain ⟨next, hwrite, hnext⟩ := h.1.write
    obtain ⟨disk', hrest, hget⟩ := ih fun o ho => (h.2 o ho).of_get? hnext
    exact ⟨disk', writeOutputs_cons.2 ⟨next, hwrite, hrest⟩, fun l => by rw [hget, hnext]⟩

end Output

end TwinClasses
