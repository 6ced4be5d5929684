import Mathlib.Data.List.TakeWhile
import TwinClasses.Proofs.Rerun.Sources

set_option autoImplicit false

/-! What the outputs depend on. Of a source file that is its text and the end of its name; the rest
of the name is only shown where the file is wrong. -/

namespace TwinClasses

/-- The part of a name after the last slash or backslash. -/
def shortName (name : String) : String :=
  String.ofList (name.toList.reverse.takeWhile fun c => c ≠ '/' && c ≠ '\\').reverse

theorem takeWhile_append_cons {α : Type} {accepts : α → Bool} {b : α} (hb : accepts b = false)
    (as bs : List α) : (as ++ b :: bs).takeWhile accepts = as.takeWhile accepts := by
  induction as with
  | nil => exact List.takeWhile_cons_of_neg (by simp [hb])
  | cons a as ih => rw [List.cons_append, List.takeWhile_cons, List.takeWhile_cons, ih]

theorem shortName_text {p : Path} {s : String} (h : p.segments.getLast? = some s) :
    shortName p.text = shortName s := by
  obtain htext | ⟨before, htext⟩ := Path.text_of_last h
  · rw [shortName, htext, shortName]
  · rw [shortName, htext, shortName, List.reverse_append, List.reverse_cons, List.append_assoc,
      List.singleton_append, takeWhile_append_cons (by decide)]

theorem notMem_shortName (name : String) : '/' ∉ (shortName name).toList := by
  rw [shortName, String.toList_ofList, List.mem_reverse]
  intro h
  have hall := List.all_eq_true.1 List.all_takeWhile _ h
  simp at hall

theorem shortName_shortName (name : String) : shortName (shortName name) = shortName name := by
  rw [shortName, shortName, String.toList_ofList, List.reverse_reverse, List.takeWhile_idem]

theorem suffix_shortName {ending s : String}
    (hending : ∀ c ∈ ending.toList, (c ≠ '/' && c ≠ '\\') = true)
    (h : ending.toList <:+ s.toList) : ending.toList <:+ (shortName s).toList := by
  obtain ⟨before, hbefore⟩ := h
  rw [shortName, String.toList_ofList, ← hbefore, List.reverse_append,
    List.takeWhile_append_of_pos fun c hc => hending c (List.mem_reverse.1 hc), List.reverse_append,
    List.reverse_reverse]
  exact List.suffix_append _ _

namespace SourceFile

variable {f : SourceFile} {name name' source : String}

theorem baseName_eq (f : SourceFile) : f.baseName = shortName f.name := rfl

theorem ofSource_rename (h : ofSource name source = .ok f) (name' : String) :
    ofSource name' source = .ok { f with name := name' } ∧ f.name = name := by
  rw [ofSource] at h ⊢
  cases hread : Tree.ofLexemes (Lexer.lexemes source).lexemes >>= Reader.sequence none none with
  | error fault =>
    simp only [hread] at h
    cases h
  | ok nodes =>
    simp only [hread] at h ⊢
    cases h
    exact ⟨rfl, rfl⟩

end SourceFile

namespace TemplateClasses

theorem foldlM_add_rename {cs : List ClassDecl} {file : String} {templates result : TemplateClasses}
    (h : cs.foldlM (add file) templates = .ok result) (file' : String) :
    cs.foldlM (add file') templates = .ok result := by
  induction cs generalizing templates with
  | nil => exact h
  | cons c cs ih =>
    rw [List.foldlM_cons, ok_bind] at h ⊢
    obtain ⟨next, hnext, hrest⟩ := h
    refine ⟨next, ?_, ih hrest⟩
    rw [add] at hnext ⊢
    split at hnext
    · cases hnext
    · exact hnext

end TemplateClasses

namespace Expansion

variable {e : Expansion} {file : String}

theorem visitClass_rename {c c' : ClassDecl} (h : e.visitClass file c = .ok c') (file' : String) :
    e.visitClass file' c = .ok c' := by
  rw [visitClass] at h ⊢
  split at h
  · rename_i hexpression
    rw [if_pos hexpression]
    exact h
  · rename_i hexpression
    rw [if_neg hexpression]
    split at h
    · cases h
    · exact h

mutual

theorem visit_rename {n n' : Node} (h : e.visit file n = .ok n') (file' : String) :
    e.visit file' n = .ok n' := by
  match n with
  | .classDecl c =>
    simp only [visit, ok_bind, ok_pure] at h ⊢
    obtain ⟨c', hc, rfl⟩ := h
    exact ⟨c', visitClass_rename hc file', rfl⟩
  | .group ⟨d, opening, children, closing⟩ =>
    simp only [visit, ok_bind, ok_pure] at h ⊢
    obtain ⟨children', hchildren, rfl⟩ := h
    exact ⟨children', visitAll_rename hchildren file', rfl⟩
  | .token t | .forOf keyword awaiting head | .await keyword operand | .access object dot name
  | .typeRef r => exact h

theorem visitAll_rename {ns ns' : List Node} (h : e.visitAll file ns = .ok ns') (file' : String) :
    e.visitAll file' ns = .ok ns' := by
  match ns with
  | [] => exact h
  | n :: ns =>
    simp only [visitAll, ok_bind, ok_pure] at h ⊢
    obtain ⟨n', hn, ns', hns, rfl⟩ := h
    exact ⟨n', visit_rename hn file', ns', visitAll_rename hns file', rfl⟩

end

theorem run_rename {skeleton result : SourceFile} (h : e.run skeleton = .ok result)
    (name : String) :
    e.run { skeleton with name } = .ok { result with name } ∧ result.name = skeleton.name := by
  simp only [run, ok_bind, ok_pure] at h ⊢
  obtain ⟨nodes, hnodes, rfl⟩ := h
  exact ⟨⟨nodes, visitAll_rename hnodes name, rfl⟩, rfl⟩

end Expansion

/-- The outputs for a project that has been found. -/
def generateIn (settings : Settings) (disk : FileSystem) (project : Project) :
    Except RunError (List Output) := do
  let template ← project.parseFile disk settings.templateFile
  let templates ← (TemplateClasses.ofFile template).mapError .expansion
  let synchronous ← generateFlavor settings disk project templates .synchronous
  let asynchronous ← generateFlavor settings disk project templates .asynchronous
  return [synchronous, asynchronous]

section Generation

variable {settings : Settings} {disk disk' : FileSystem} {project project' : Project}
  {outputs : List Output} {paths : List Path} {ending : String} {f : SourceFile} {output : Output}
  {templates : TemplateClasses} {flavor : Flavor}

theorem generate_eq_ok_iff : generate settings disk = .ok outputs ↔
    ∃ project, Project.ofDirectory disk settings.templateDirectory = .ok project ∧
      generateIn settings disk project = .ok outputs :=
  ok_bind _ _ _

theorem run_eq_ok_iff : run settings disk = (.ok paths, disk') ↔
    ∃ outputs, generate settings disk = .ok outputs ∧
      writeOutputs outputs disk = (.ok (), disk') ∧ paths = outputs.map (·.path) := by
  rw [run]
  cases generate settings disk with
  | error e => simp
  | ok outputs =>
    simp only [Except.ok.injEq, exists_eq_left']
    split
    · rename_i after h
      simp [h, eq_comm, and_comm]
    · rename_i e after h
      simp [h]

theorem parseFile_eq_ok_iff : project.parseFile disk ending = .ok f ↔
    ∃ p, project.findFile ending = .ok p ∧ ∃ text, disk.readText p = .ok text ∧
      SourceFile.ofSource p.text text = .ok f := by
  simp only [Project.parseFile, ok_bind, ok_mapError]

theorem generateFlavor_eq_ok_iff :
    generateFlavor settings disk project templates flavor = .ok output ↔
      ∃ skeleton, project.parseFile disk (settings.skeletonFile flavor) = .ok skeleton ∧
      ∃ expanded, Expansion.run ⟨flavor, templates, settings.conventions⟩ skeleton = .ok expanded ∧
        output = expanded.output settings := by
  simp only [generateFlavor, ok_bind, ok_mapError, ok_pure]

theorem generateIn_eq_ok_iff : generateIn settings disk project = .ok outputs ↔
    ∃ template, project.parseFile disk settings.templateFile = .ok template ∧
    ∃ templates, TemplateClasses.ofFile template = .ok templates ∧
    ∃ sync, generateFlavor settings disk project templates .synchronous = .ok sync ∧
    ∃ async, generateFlavor settings disk project templates .asynchronous = .ok async ∧
      outputs = [sync, async] := by
  simp only [generateIn, ok_bind, ok_mapError, ok_pure]

/-- What is found for an ending in one state is found in another, if maybe under another name. -/
def KeepsSource (disk disk' : FileSystem) (project project' : Project) (ending : String) : Prop :=
  ∀ p text, project.findFile ending = .ok p → disk.readText p = .ok text →
    ∃ p', project'.findFile ending = .ok p' ∧ disk'.readText p' = .ok text ∧
      shortName p'.text = shortName p.text

theorem parseFile_of_keeps (h : KeepsSource disk disk' project project' ending)
    (hf : project.parseFile disk ending = .ok f) :
    ∃ name, project'.parseFile disk' ending = .ok { f with name } ∧
      shortName name = shortName f.name := by
  obtain ⟨p, hp, text, htext, hread⟩ := parseFile_eq_ok_iff.1 hf
  obtain ⟨p', hp', htext', hname⟩ := h p text hp htext
  obtain ⟨hread', hfname⟩ := SourceFile.ofSource_rename hread p'.text
  exact ⟨p'.text, parseFile_eq_ok_iff.2 ⟨p', hp', text, htext', hread'⟩, by rw [hname, hfname]⟩

theorem generateFlavor_of_keeps
    (h : KeepsSource disk disk' project project' (settings.skeletonFile flavor))
    (ho : generateFlavor settings disk project templates flavor = .ok output) :
    generateFlavor settings disk' project' templates flavor = .ok output := by
  obtain ⟨skeleton, hskeleton, expanded, hrun, rfl⟩ := generateFlavor_eq_ok_iff.1 ho
  obtain ⟨name, hskeleton', hname⟩ := parseFile_of_keeps h hskeleton
  obtain ⟨hrun', hexpanded⟩ := Expansion.run_rename hrun name
  refine generateFlavor_eq_ok_iff.2 ⟨_, hskeleton', _, hrun', ?_⟩
  rw [SourceFile.output, SourceFile.output, SourceFile.baseName_eq, SourceFile.baseName_eq, hname,
    hexpanded]
  rfl

/-- The same sources give the same outputs. -/
theorem generateIn_of_keeps
    (htemplate : KeepsSource disk disk' project project' settings.templateFile)
    (hskeleton : ∀ flavor,
      KeepsSource disk disk' project project' (settings.skeletonFile flavor))
    (h : generateIn settings disk project = .ok outputs) :
    generateIn settings disk' project' = .ok outputs := by
  obtain ⟨template, hread, templates, htemplates, synchronous, hsync, asynchronous, hasync, rfl⟩ :=
    generateIn_eq_ok_iff.1 h
  obtain ⟨name, hread', -⟩ := parseFile_of_keeps htemplate hread
  exact generateIn_eq_ok_iff.2 ⟨_, hread', templates,
    TemplateClasses.foldlM_add_rename htemplates name, synchronous,
    generateFlavor_of_keeps (hskeleton _) hsync, asynchronous,
    generateFlavor_of_keeps (hskeleton _) hasync, rfl⟩

theorem exists_of_generateFlavor
    (h : generateFlavor settings disk project templates flavor = .ok output) :
    ∃ p, project.findFile (settings.skeletonFile flavor) = .ok p ∧
    ∃ text expanded, disk.readText p = .ok text ∧
      (∃ skeleton, SourceFile.ofSource p.text text = .ok skeleton ∧
        Expansion.run ⟨flavor, templates, settings.conventions⟩ skeleton = .ok expanded) ∧
      expanded.name = p.text ∧ output = expanded.output settings := by
  obtain ⟨skeleton, hskeleton, expanded, hrun, rfl⟩ := generateFlavor_eq_ok_iff.1 h
  obtain ⟨p, hp, text, htext, hread⟩ := parseFile_eq_ok_iff.1 hskeleton
  refine ⟨p, hp, text, expanded, htext, ⟨skeleton, hread, hrun⟩, ?_, rfl⟩
  rw [(Expansion.run_rename hrun "").2, (SourceFile.ofSource_rename hread "").2]

/-- An output has the name of its skeleton, and lies in the output directory. -/
theorem path_of_generateFlavor (hending : Path.IsEnding (settings.skeletonFile flavor))
    (hplain : ∀ c ∈ (settings.skeletonFile flavor).toList, (c ≠ '/' && c ≠ '\\') = true)
    (h : generateFlavor settings disk project templates flavor = .ok output) :
    ∃ name, output.path = settings.outputDirectory.join name ∧ Path.IsName name ∧
      shortName name = name ∧ (settings.skeletonFile flavor).toList <:+ name.toList := by
  obtain ⟨p, hp, text, expanded, -, -, hname, rfl⟩ := exists_of_generateFlavor h
  have haccepted := List.find?_some (Project.findFile_eq_ok_iff.1 hp)
  rw [Project.isAccepted, List.isSuffixOf_iff_suffix] at haccepted
  have hsuffix := suffix_shortName hplain haccepted
  refine ⟨shortName p.text, ?_, hending.isName hsuffix (notMem_shortName _),
    shortName_shortName _, hsuffix⟩
  rw [SourceFile.output, SourceFile.baseName_eq, hname]

end Generation

end TwinClasses
