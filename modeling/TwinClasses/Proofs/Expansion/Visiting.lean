import TwinClasses.Proofs.Expansion.Growth

set_option autoImplicit false

/-! Which classes of a skeleton an expansion deals with. The query for classes looks into brackets,
awaited operands and loop heads; the expansion looks into brackets alone. So a target class in an
operand or a loop head is reported, and stays as it is. -/

namespace TwinClasses

/-- A class declaration at its place in a file. -/
structure Finding where
  declaration : ClassDecl
  /-- It stands in brackets at most, in no awaited operand and no loop head. -/
  isOpen : Bool

def Finding.hidden (c : ClassDecl) : Finding := ⟨c, false⟩

mutual

def Node.finds : Node → List Finding
  | .classDecl c => if c.isExpression then [] else [⟨c, true⟩]
  | .group ⟨_, _, children, _⟩ => Node.findsAll children
  | .forOf _ _ head => head.classes.map Finding.hidden
  | .await _ operand => (Node.classesAll operand).map Finding.hidden
  | .token _ | .access .. | .typeRef _ => []

def Node.findsAll : List Node → List Finding
  | [] => []
  | n :: ns => n.finds ++ Node.findsAll ns

end

def SourceFile.finds (f : SourceFile) : List Finding := Node.findsAll f.nodes

theorem Finding.declaration_hidden (cs : List ClassDecl) :
    (cs.map hidden).map declaration = cs := by
  rw [List.map_map]
  exact List.map_id cs

mutual

theorem Node.declarations_finds (n : Node) : n.finds.map Finding.declaration = n.classes := by
  match n with
  | .classDecl c =>
    rw [Node.finds, Node.classes]
    split <;> rfl
  | .group ⟨d, opening, children, closing⟩ =>
    rw [Node.finds, Node.classes, Group.classes]
    exact Node.declarations_findsAll children
  | .forOf keyword awaiting head =>
    rw [Node.finds, Node.classes]
    exact Finding.declaration_hidden _
  | .await keyword operand =>
    rw [Node.finds, Node.classes]
    exact Finding.declaration_hidden _
  | .token t => simp [Node.finds, Node.classes]
  | .access object dot name => simp [Node.finds, Node.classes]
  | .typeRef r => simp [Node.finds, Node.classes]

theorem Node.declarations_findsAll (ns : List Node) :
    (Node.findsAll ns).map Finding.declaration = Node.classesAll ns := by
  match ns with
  | [] => simp [Node.findsAll, Node.classesAll]
  | n :: ns =>
    rw [Node.findsAll, Node.classesAll, List.map_append, Node.declarations_finds n,
      Node.declarations_findsAll ns]

end

mutual

theorem Node.isExpression_of_mem_classes {c : ClassDecl} (n : Node) (h : c ∈ n.classes) :
    c.isExpression = false := by
  match n with
  | .classDecl d =>
    rw [Node.classes] at h
    cases hd : d.isExpression with
    | true => simp [hd] at h
    | false =>
      obtain rfl : c = d := by simpa [hd] using h
      exact hd
  | .group ⟨_, _, children, _⟩ =>
    rw [Node.classes, Group.classes] at h
    exact Node.isExpression_of_mem_classesAll children h
  | .forOf _ _ ⟨_, _, children, _⟩ =>
    rw [Node.classes, Group.classes] at h
    exact Node.isExpression_of_mem_classesAll children h
  | .await _ operand =>
    rw [Node.classes] at h
    exact Node.isExpression_of_mem_classesAll operand h
  | .token _ => simp [Node.classes] at h
  | .access _ _ _ => simp [Node.classes] at h
  | .typeRef _ => simp [Node.classes] at h

theorem Node.isExpression_of_mem_classesAll {c : ClassDecl} (ns : List Node)
    (h : c ∈ Node.classesAll ns) : c.isExpression = false := by
  match ns with
  | [] => simp [Node.classesAll] at h
  | n :: ns =>
    rw [Node.classesAll, List.mem_append] at h
    obtain h | h := h
    · exact Node.isExpression_of_mem_classes n h
    · exact Node.isExpression_of_mem_classesAll ns h

end

/-- What is found is a declaration. -/
theorem SourceFile.isExpression_of_mem_finds {f : SourceFile} {s : Finding} (h : s ∈ f.finds) :
    s.declaration.isExpression = false := by
  apply Node.isExpression_of_mem_classesAll f.nodes
  rw [← Node.declarations_findsAll]
  exact List.mem_map_of_mem h

/-- The declaration has a name that makes it a target, or none. -/
def ClassDecl.isConcerned (naming : Naming) (c : ClassDecl) : Bool :=
  c.givenName?.all naming.expands

namespace Expansion

variable {e : Expansion} {file : String}

/-- What becomes of a class that has been found: nothing, unless it is open. -/
def answer (e : Expansion) (file : String) (s : Finding) : Except ExpansionError ClassDecl :=
  if s.isOpen then e.visitClass file s.declaration else .ok s.declaration

/-- The class is one that the expansion deals with. -/
def handles (e : Expansion) (s : Finding) : Bool :=
  s.isOpen && s.declaration.isConcerned e.conventions.naming

/-- A class that is dealt with is rejected for want of a name, or expanded. -/
theorem answer_of_handles {s : Finding} (hs : s.declaration.isExpression = false)
    (h : e.handles s = true) :
    (s.declaration.givenName? = none ∧ e.answer file s = .error (.anonymousClass file)) ∨
      ∃ name, s.declaration.givenName? = some name ∧
        e.answer file s = e.expand name s.declaration := by
  simp only [handles, Bool.and_eq_true, ClassDecl.isConcerned] at h
  obtain ⟨hopen, hconcerned⟩ := h
  cases hname : s.declaration.givenName? with
  | none =>
    refine .inl ⟨rfl, ?_⟩
    simp [answer, visitClass, hopen, hs, hname]
  | some name =>
    rw [hname] at hconcerned
    refine .inr ⟨name, rfl, ?_⟩
    have hexpands : e.conventions.naming.expands name = true := hconcerned
    simp [answer, visitClass, hopen, hs, hname, hexpands]

theorem answer_of_not_handles {s : Finding} (h : e.handles s = false) :
    e.answer file s = .ok s.declaration := by
  unfold answer
  split
  · rename_i hopen
    simp only [handles, hopen, Bool.true_and, ClassDecl.isConcerned] at h
    unfold visitClass
    split
    · rfl
    · cases hname : s.declaration.givenName? with
      | none => simp [hname] at h
      | some name =>
        rw [hname] at h
        have hexpands : e.conventions.naming.expands name = false := h
        simp [hexpands]
  · rfl

/-- A class that is open if it has to be is visited. -/
theorem answer_eq_visitClass {s : Finding}
    (h : s.declaration.isConcerned e.conventions.naming = true → s.isOpen = true) :
    e.answer file s = e.visitClass file s.declaration := by
  cases hopen : s.isOpen with
  | true => simp [answer, hopen]
  | false =>
    have hc : s.declaration.isConcerned e.conventions.naming = false := by
      cases hc : s.declaration.isConcerned e.conventions.naming with
      | false => rfl
      | true => exact absurd (h hc) (by simp [hopen])
    have hvisit : e.answer file ⟨s.declaration, true⟩ = .ok s.declaration :=
      answer_of_not_handles (by simp [handles, hc])
    rw [answer_of_not_handles (by simp [handles, hopen])]
    exact hvisit.symm

theorem answers_hidden (cs : List ClassDecl) :
    (cs.map Finding.hidden).mapM (e.answer file) = .ok cs := by
  induction cs with
  | nil => rfl
  | cons c cs ih =>
    rw [List.map_cons, List.mapM_cons, ih]
    rfl

theorem isExpression_of_visitClass {c c' : ClassDecl} (h : e.visitClass file c = .ok c') :
    c'.isExpression = c.isExpression := by
  unfold visitClass at h
  split at h
  · cases h
    rfl
  · split at h
    · cases h
    · split at h
      · simp only [expand, ok_bind] at h
        obtain ⟨expected, -, h⟩ := h
        split at h
        · cases h
        · simp only [ok_bind, ok_pure] at h
          obtain ⟨added, -, rfl⟩ := h
          rfl
      · cases h
        rfl

/-! The classes of what a node is turned into are the answers for those found in it, in order, up to
the first that fails. -/

mutual

theorem classes_visit (n : Node) :
    (e.visit file n).map Node.classes = n.finds.mapM (e.answer file) := by
  match n with
  | .classDecl c =>
    rw [visit, Node.finds]
    cases hc : e.visitClass file c with
    | error fault =>
      have hexpression : c.isExpression = false := by
        cases hx : c.isExpression with
        | false => rfl
        | true => simp [visitClass, hx] at hc
      simp [hexpression, answer, hc, Except.map, bind, Except.bind]
    | ok c' =>
      have hexpression := isExpression_of_visitClass hc
      cases hx : c.isExpression with
      | true =>
        simp [Except.map, bind, Except.bind, pure, Except.pure, Node.classes, hexpression, hx]
      | false =>
        simp [answer, hc, Except.map, bind, Except.bind, pure, Except.pure, Node.classes,
          hexpression, hx]
  | .group ⟨d, opening, children, closing⟩ =>
    rw [visit, Node.finds, ← classes_visitAll children]
    cases e.visitAll file children with
    | error fault => rfl
    | ok ns => simp [Except.map, bind, Except.bind, pure, Except.pure, Node.classes, Group.classes]
  | .forOf keyword awaiting head =>
    rw [visit, Node.finds, answers_hidden]
    · simp [Except.map, Node.classes]
    · simp
    · simp
  | .await keyword operand =>
    rw [visit, Node.finds, answers_hidden]
    · simp [Except.map, Node.classes]
    · simp
    · simp
  | .token t => rfl
  | .access object dot name => rfl
  | .typeRef r => rfl

theorem classes_visitAll (ns : List Node) :
    (e.visitAll file ns).map Node.classesAll = (Node.findsAll ns).mapM (e.answer file) := by
  match ns with
  | [] => rfl
  | n :: ns =>
    rw [visitAll, Node.findsAll, List.mapM_append, ← classes_visit n, ← classes_visitAll ns]
    cases e.visit file n with
    | error fault => rfl
    | ok n' =>
      cases e.visitAll file ns with
      | error fault => rfl
      | ok ns' => rfl

end

theorem classes_run (e : Expansion) (f : SourceFile) :
    (e.run f).map SourceFile.classes = f.finds.mapM (e.answer f.name) := by
  rw [SourceFile.finds, ← classes_visitAll, run]
  cases e.visitAll f.name f.nodes with
  | error fault => rfl
  | ok ns => rfl

/-- The classes that the expansion of a file deals with. -/
def handled (e : Expansion) (f : SourceFile) : List ClassDecl :=
  (f.finds.filter e.handles).map Finding.declaration

theorem handled_eq_iff (e : Expansion) (f : SourceFile) :
    e.handled f = f.classes.filter (·.isConcerned e.conventions.naming) ↔
      ∀ s ∈ f.finds, s.declaration.isConcerned e.conventions.naming = true → s.isOpen = true := by
  rw [SourceFile.classes, ← Node.declarations_findsAll, handled, SourceFile.finds]
  generalize Node.findsAll f.nodes = found
  rw [List.filter_map]
  constructor
  · intro h s hs hconcerned
    have hlength := congrArg List.length h
    rw [List.length_map, List.length_map] at hlength
    have hsub : (found.filter e.handles).Sublist
        (found.filter ((·.isConcerned e.conventions.naming) ∘ Finding.declaration)) := by
      apply List.monotone_filter_right
      intro u hu
      exact (Bool.and_eq_true _ _ ▸ hu).2
    have hmem : s ∈ found.filter e.handles := by
      rw [hsub.eq_of_length hlength]
      exact List.mem_filter.2 ⟨hs, hconcerned⟩
    have hhandles : e.handles s = true := (List.mem_filter.1 hmem).2
    exact (Bool.and_eq_true _ _ ▸ hhandles).1
  · intro h
    congr 1
    apply List.filter_congr
    intro s hs
    cases hc : s.declaration.isConcerned e.conventions.naming with
    | false => simp [handles, hc]
    | true => simp [handles, hc, h s hs hc]

/-- The query reports the classes that have been found. Expansion answers for them one by one, up to
the first that fails: it rejects or expands those that it deals with, and leaves the others. These
are all that have a target's name or none if and only if no such class stands in an awaited operand
or a loop head; then expansion does to every class reported what it does to a class. -/
theorem run_answers (e : Expansion) (f : SourceFile) :
    f.finds.map Finding.declaration = f.classes ∧
    (e.run f).map SourceFile.classes = f.finds.mapM (e.answer f.name) ∧
    (∀ s ∈ f.finds,
      (e.handles s = false → e.answer f.name s = .ok s.declaration) ∧
      (e.handles s = true →
        (s.declaration.givenName? = none ∧ e.answer f.name s = .error (.anonymousClass f.name)) ∨
        ∃ name, s.declaration.givenName? = some name ∧
          e.answer f.name s = e.expand name s.declaration)) ∧
    (e.handled f = f.classes.filter (·.isConcerned e.conventions.naming) ↔
      ∀ s ∈ f.finds, s.declaration.isConcerned e.conventions.naming = true → s.isOpen = true) ∧
    (e.handled f = f.classes.filter (·.isConcerned e.conventions.naming) →
      (e.run f).map SourceFile.classes = f.classes.mapM (e.visitClass f.name)) := by
  refine ⟨Node.declarations_findsAll f.nodes, classes_run e f, ?_, handled_eq_iff e f, ?_⟩
  · intro s hs
    refine ⟨answer_of_not_handles, ?_⟩
    exact answer_of_handles (SourceFile.isExpression_of_mem_finds hs)
  · intro hall
    have hopen := (handled_eq_iff e f).1 hall
    rw [classes_run, SourceFile.classes, ← Node.declarations_findsAll, List.mapM_map]
    exact mapM_congr fun s hs => answer_eq_visitClass (hopen s hs)

/-- An arrow function that is awaited, with a target class in its body: expansion leaves the class as
it is. -/
theorem not_run_visits : ¬ ∀ (name source : String) (e : Expansion) (f : SourceFile),
    SourceFile.ofSource name source = .ok f →
      (e.run f).map SourceFile.classes = f.classes.mapM (e.visitClass f.name) := by
  intro hall
  let source := "await run(() => \x7b class Enumerable \x7b\x7d \x7d);"
  let sizes := fun r : Except ExpansionError (List ClassDecl) =>
    r.toOption.map (·.map (·.members.length))
  have hsizes : ((SourceFile.ofSource "a.ts" source).toOption.map fun f =>
      (sizes ((sizeExpansion.run f).map SourceFile.classes),
        sizes (f.classes.mapM (sizeExpansion.visitClass f.name)))) =
          some (some [0], some [1]) := by
    decide +kernel
  cases hf : SourceFile.ofSource "a.ts" source with
  | error fault => simp [hf, Except.toOption] at hsizes
  | ok f =>
    rw [hf] at hsizes
    obtain ⟨hrun, hvisits⟩ := Prod.mk.inj (Option.some.inj hsizes)
    rw [hall _ _ sizeExpansion f hf, hvisits] at hrun
    exact absurd hrun (by decide)

end Expansion

end TwinClasses
