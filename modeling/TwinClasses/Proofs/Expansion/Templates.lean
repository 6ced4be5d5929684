import TwinClasses.Expansion
import TwinClasses.Proofs.Success

set_option autoImplicit false

/-! The classes of a template file. They are taken in the order of the source, until one of them has
no name or that of an earlier one. What stands inside of classes, and classes that are values, are
no matter. -/

namespace TwinClasses

/-- The classes have names, each another. -/
structure ClassDecl.AreDistinct (cs : List ClassDecl) : Prop where
  named : ∀ c ∈ cs, c.givenName?.isSome
  distinct : cs.Pairwise fun c d => c.givenName? ≠ d.givenName?

/-- The class cannot be taken up after the earlier ones, and the message that says so. -/
inductive ClassDecl.Spoils (file : String) (earlier : List ClassDecl) (c : ClassDecl) :
    ExpansionError → Prop where
  | anonymous : c.givenName? = none → Spoils file earlier c (.anonymousTemplateClass file)
  | repeated {d : ClassDecl} {name : String} : d ∈ earlier → d.givenName? = some name →
    c.givenName? = some name → Spoils file earlier c (.duplicateTemplateClass name)

namespace ClassDecl

variable {file : String} {earlier later : List ClassDecl} {c : ClassDecl} {e : ExpansionError}

theorem AreDistinct.nil : AreDistinct [] where
  named _ hc := absurd hc List.not_mem_nil
  distinct := .nil

theorem AreDistinct.snoc {name : String} (h : AreDistinct earlier)
    (hname : c.givenName? = some name)
    (hnew : ∀ d ∈ earlier, d.givenName? ≠ some name) : AreDistinct (earlier ++ [c]) where
  named d hd := by
    obtain hd | hd := List.mem_append.1 hd
    · exact h.named d hd
    · rw [List.mem_singleton.1 hd, hname]
      rfl
  distinct := by
    refine List.pairwise_append.2 ⟨h.distinct, List.pairwise_singleton _ _, ?_⟩
    intro d hd d' hd'
    rw [List.mem_singleton.1 hd', hname]
    exact hnew d hd

theorem AreDistinct.not_spoils (h : AreDistinct (earlier ++ c :: later)) :
    ¬ c.Spoils file earlier e := by
  intro hs
  cases hs with
  | anonymous hname =>
    have := h.named c (List.mem_append_right _ List.mem_cons_self)
    rw [hname] at this
    cases this
  | repeated hd hdname hname =>
    have := (List.pairwise_append.1 h.distinct).2.2 _ hd c List.mem_cons_self
    exact this (hdname.trans hname.symm)

end ClassDecl

namespace TemplateClasses

open ClassDecl

variable {file : String} {t t' : TemplateClasses} {earlier cs : List ClassDecl} {c : ClassDecl}
  {e : ExpansionError}

/-- The classes that have been taken up so far are these. -/
structure Lists (t : TemplateClasses) (cs : List ClassDecl) : Prop where
  distinct : AreDistinct cs
  size_eq : t.size = cs.length
  find?_eq_some : ∀ name c, t.find? name = some c ↔ c ∈ cs ∧ c.givenName? = some name

theorem lists_nil : Lists ⟨[]⟩ [] where
  distinct := .nil
  size_eq := rfl
  find?_eq_some name c := by simp [find?]

theorem Lists.isSome_find? (h : t.Lists earlier) (name : String) :
    (t.find? name).isSome ↔ ∃ d ∈ earlier, d.givenName? = some name := by
  simp only [Option.isSome_iff_exists, h.find?_eq_some]

/-- A class is refused exactly if it spoils the list, with the message for that. -/
theorem Lists.add_eq_error (h : t.Lists earlier) :
    t.add file c = .error e ↔ c.Spoils file earlier e := by
  unfold add
  split
  · rename_i hname
    constructor
    · rintro ⟨⟩
      exact .anonymous hname
    · rintro (_ | ⟨-, -, hsome⟩)
      · rfl
      · exact absurd (hname.symm.trans hsome) nofun
  · rename_i name hname
    have hrepeats : c.Spoils file earlier e ↔ e = .duplicateTemplateClass name ∧
        ∃ d ∈ earlier, d.givenName? = some name := by
      constructor
      · rintro (hnone | ⟨hd, hdname, hsome⟩)
        · exact absurd (hname.symm.trans hnone) nofun
        · obtain rfl := Option.some.inj (hname.symm.trans hsome)
          exact ⟨rfl, _, hd, hdname⟩
      · rintro ⟨rfl, d, hd, hdname⟩
        exact .repeated hd hdname hname
    rw [hrepeats, ← h.isSome_find?]
    split <;> simp [*, eq_comm]

theorem find?_snoc {name name' : String} {d : ClassDecl} :
    (TemplateClasses.mk (t.classes ++ [(name, c)])).find? name' = some d ↔
      t.find? name' = some d ∨ t.find? name' = none ∧ name' = name ∧ c = d := by
  have hlast : [(name, c)].lookup name' = some d ↔ name' = name ∧ c = d := by
    rw [List.lookup_cons]
    by_cases hn : name' = name
    · simp [hn]
    · simp [hn, beq_eq_false_iff_ne.2 hn]
  unfold find?
  rw [List.lookup_append, Option.or_eq_some_iff, hlast]

/-- The list grows by a class that is taken up. -/
theorem Lists.add (h : t.Lists earlier) (hadd : t.add file c = .ok t') :
    t'.Lists (earlier ++ [c]) := by
  unfold TemplateClasses.add at hadd
  split at hadd
  · cases hadd
  · rename_i name hname
    split at hadd
    · cases hadd
    · rename_i hnew
      cases hadd
      have hother : ∀ d ∈ earlier, d.givenName? ≠ some name := by
        intro d hd hdname
        exact hnew ((h.isSome_find? name).2 ⟨d, hd, hdname⟩)
      refine ⟨h.distinct.snoc hname hother, by simpa [size] using h.size_eq, ?_⟩
      intro name' d
      rw [find?_snoc, h.find?_eq_some, List.mem_append, List.mem_singleton]
      constructor
      · rintro (⟨hd, hdname⟩ | ⟨-, rfl, rfl⟩)
        · exact ⟨Or.inl hd, hdname⟩
        · exact ⟨Or.inr rfl, hname⟩
      · rintro ⟨hd | rfl, hdname⟩
        · exact Or.inl ⟨hd, hdname⟩
        · obtain rfl := Option.some.inj (hname.symm.trans hdname)
          exact Or.inr ⟨Option.not_isSome_iff_eq_none.1 hnew, rfl, rfl⟩

/-- The first class that spoils the list is the one that is refused. -/
theorem Lists.foldlM_add_eq_error (h : t.Lists earlier) :
    cs.foldlM (TemplateClasses.add file) t = .error e ↔ ∃ before c after,
      cs = before ++ c :: after ∧ AreDistinct (earlier ++ before) ∧
        c.Spoils file (earlier ++ before) e := by
  -- Each class that is taken up moves to the end of the earlier ones, so these are not fixed.
  induction cs generalizing t earlier with
  | nil => simp [pure, Except.pure]
  | cons c cs ih =>
    rw [List.foldlM_cons]
    cases hadd : t.add file c with
    | error e' =>
      have hspoils := h.add_eq_error.1 hadd
      constructor
      · rintro ⟨⟩
        exact ⟨[], c, cs, rfl, by simpa using h.distinct, by simpa using hspoils⟩
      · rintro ⟨before, d, after, hcs, hdistinct, hd⟩
        cases before with
        | nil =>
          obtain ⟨rfl, rfl⟩ := List.cons.inj hcs
          rw [List.append_nil] at hd
          rw [← hadd, h.add_eq_error.2 hd]
          rfl
        | cons d' before =>
          -- A later class cannot be the first: the one that spoils the list would be before it.
          obtain ⟨rfl, rfl⟩ := List.cons.inj hcs
          exact absurd hspoils hdistinct.not_spoils
    | ok t' =>
      have hlists := h.add hadd
      refine (ih hlists).trans ⟨?_, ?_⟩
      · rintro ⟨before, d, after, rfl, hdistinct, hd⟩
        rw [List.append_assoc] at hdistinct hd
        exact ⟨c :: before, d, after, rfl, hdistinct, hd⟩
      · rintro ⟨before, d, after, hcs, hdistinct, hd⟩
        cases before with
        | nil =>
          obtain ⟨rfl, rfl⟩ := List.cons.inj hcs
          rw [List.append_nil] at hd
          exact absurd hd hlists.distinct.not_spoils
        | cons d' before =>
          obtain ⟨rfl, rfl⟩ := List.cons.inj hcs
          refine ⟨before, d, after, rfl, ?_, ?_⟩
          · rwa [List.append_assoc]
          · rwa [List.append_assoc]

theorem Lists.foldlM_add (h : t.Lists earlier)
    (hfold : cs.foldlM (TemplateClasses.add file) t = .ok t') : t'.Lists (earlier ++ cs) := by
  induction cs generalizing t earlier with
  | nil =>
    cases hfold
    rwa [List.append_nil]
  | cons c cs ih =>
    rw [List.foldlM_cons, ok_bind] at hfold
    obtain ⟨next, hadd, hrest⟩ := hfold
    have hlists := ih (h.add hadd) hrest
    rwa [List.append_assoc] at hlists

theorem lists_ofFile {f : SourceFile} (h : ofFile f = .ok t) : t.Lists f.classes :=
  lists_nil.foldlM_add h

theorem ofFile_eq_error {f : SourceFile} : ofFile f = .error e ↔ ∃ earlier c later,
    f.classes = earlier ++ c :: later ∧ AreDistinct earlier ∧ c.Spoils f.name earlier e :=
  lists_nil.foldlM_add_eq_error

theorem exists_ofFile_eq_ok {f : SourceFile} : (∃ t, ofFile f = .ok t) ↔ AreDistinct f.classes := by
  constructor
  · rintro ⟨t, h⟩
    exact (lists_ofFile h).distinct
  · intro hdistinct
    cases h : ofFile f with
    | ok t => exact ⟨t, rfl⟩
    | error e =>
      obtain ⟨earlier, c, later, hclasses, -, hspoils⟩ := ofFile_eq_error.1 h
      rw [hclasses] at hdistinct
      exact absurd hspoils hdistinct.not_spoils

end TemplateClasses

/-! What stands in classes. -/

/-- The class with nothing in it. -/
def ClassDecl.shell (c : ClassDecl) : ClassDecl := { c with heritage := [], members := [] }

mutual

/-- The node with nothing in its class declarations, and the mere keyword for a class that is a
value. -/
def Node.shell : Node → Node
  | .classDecl c => if c.isExpression then .token c.keyword else .classDecl c.shell
  | .group g => .group g.shell
  | .forOf keyword awaiting head => .forOf keyword awaiting head.shell
  | .await keyword operand => .await keyword (Node.shellAll operand)
  | .token t => .token t
  | .access object dot name => .access object dot name
  | .typeRef r => .typeRef r

def Node.shellAll : List Node → List Node
  | [] => []
  | n :: ns => n.shell :: Node.shellAll ns

def Group.shell : Group → Group
  | ⟨d, opening, children, closing⟩ => ⟨d, opening, Node.shellAll children, closing⟩

end

mutual

theorem Node.classes_shell : ∀ n : Node, n.shell.classes = n.classes.map ClassDecl.shell
  | .classDecl c => by
    by_cases hc : c.isExpression
    · simp [Node.shell, Node.classes, hc]
    · simp [Node.shell, Node.classes, hc, ClassDecl.shell]
  | .group g => by rw [Node.shell, Node.classes, Node.classes, Group.classes_shell g]
  | .forOf _ _ head => by rw [Node.shell, Node.classes, Node.classes, Group.classes_shell head]
  | .await _ operand => by
    rw [Node.shell, Node.classes, Node.classes, Node.classesAll_shellAll operand]
  | .token _ | .access _ _ _ | .typeRef _ => by simp [Node.shell, Node.classes]

theorem Node.classesAll_shellAll :
    ∀ ns : List Node, Node.classesAll (Node.shellAll ns) = (Node.classesAll ns).map ClassDecl.shell
  | [] => by simp [Node.shellAll, Node.classesAll]
  | n :: ns => by
    rw [Node.shellAll, Node.classesAll, Node.classesAll, Node.classes_shell n,
      Node.classesAll_shellAll ns, List.map_append]

theorem Group.classes_shell : ∀ g : Group, g.shell.classes = g.classes.map ClassDecl.shell
  | ⟨_, _, children, _⟩ => by
    rw [Group.shell, Group.classes, Group.classes, Node.classesAll_shellAll children]

end

mutual

/-- The classes of a node are found in the order of its tokens, and apart from each other. -/
theorem Node.tokens_classes_sublist :
    ∀ n : Node, (n.classes.flatMap ClassDecl.tokens).Sublist n.tokens
  | .classDecl c => by
    by_cases hc : c.isExpression
    · simp [Node.classes, hc]
    · simp [Node.classes, Node.tokens, hc]
  | .group g => by
    rw [Node.classes, Node.tokens]
    exact Group.tokens_classes_sublist g
  | .forOf keyword awaiting head => by
    rw [Node.classes, Node.tokens]
    exact (Group.tokens_classes_sublist head).trans (List.sublist_append_right _ _)
  | .await keyword operand => by
    rw [Node.classes, Node.tokens]
    exact (Node.tokens_classesAll_sublist operand).cons _
  | .token _ | .access _ _ _ | .typeRef _ => by simp [Node.classes]

theorem Node.tokens_classesAll_sublist : ∀ ns : List Node,
    ((Node.classesAll ns).flatMap ClassDecl.tokens).Sublist (Node.tokensAll ns)
  | [] => by simp [Node.classesAll]
  | n :: ns => by
    rw [Node.classesAll, Node.tokensAll, List.flatMap_append]
    exact (Node.tokens_classes_sublist n).append (Node.tokens_classesAll_sublist ns)

theorem Group.tokens_classes_sublist :
    ∀ g : Group, (g.classes.flatMap ClassDecl.tokens).Sublist g.tokens
  | ⟨_, _, children, _⟩ => by
    rw [Group.classes, Group.tokens]
    have hchildren := Node.tokens_classesAll_sublist children
    exact (hchildren.trans (List.sublist_append_left _ _)).cons _

end

namespace TemplateClasses

open ClassDecl

/-- The classes with nothing in them. -/
def shell (t : TemplateClasses) : TemplateClasses :=
  ⟨t.classes.map fun (name, c) => (name, c.shell)⟩

theorem find?_shell (t : TemplateClasses) (name : String) :
    t.shell.find? name = (t.find? name).map ClassDecl.shell := by
  obtain ⟨classes⟩ := t
  induction classes with
  | nil => rfl
  | cons entry classes ih =>
    obtain ⟨name', c⟩ := entry
    simp only [shell, find?, List.map_cons, List.lookup_cons] at ih ⊢
    split
    · rfl
    · exact ih

theorem add_shell (file : String) (t : TemplateClasses) (c : ClassDecl) :
    t.shell.add file c.shell = (t.add file c).map shell := by
  have hname : c.shell.givenName? = c.givenName? := rfl
  unfold add
  rw [hname]
  split
  · rfl
  · rename_i name _
    rw [find?_shell, Option.isSome_map]
    split
    · rfl
    · simp [shell, Except.map]

theorem foldlM_add_shell (file : String) (cs : List ClassDecl) (t : TemplateClasses) :
    (cs.map ClassDecl.shell).foldlM (add file) t.shell = (cs.foldlM (add file) t).map shell := by
  induction cs generalizing t with
  | nil => rfl
  | cons c cs ih =>
    rw [List.map_cons, List.foldlM_cons, List.foldlM_cons, add_shell]
    cases t.add file c with
    | error e => rfl
    | ok t' => exact ih t'

theorem ofFile_shellAll (f : SourceFile) :
    ofFile { f with nodes := Node.shellAll f.nodes } = (ofFile f).map shell := by
  have hclasses : SourceFile.classes { f with nodes := Node.shellAll f.nodes } =
      f.classes.map ClassDecl.shell := Node.classesAll_shellAll f.nodes
  unfold ofFile
  rw [hclasses]
  exact foldlM_add_shell f.name f.classes ⟨[]⟩

/-- A file gives template classes exactly if its class declarations have names, each another. Then
every name finds the class that has it and there are as many as declarations; otherwise the message
is about the first declaration, in the order of the source, without a name or with that of an
earlier one. Classes that are values, and what stands inside of classes, are no matter. -/
theorem ofFile_indexes (f : SourceFile) :
    ((∃ t, ofFile f = .ok t) ↔ AreDistinct f.classes) ∧
    (∀ t, ofFile f = .ok t → t.size = f.classes.length ∧
      ∀ name c, t.find? name = some c ↔ c ∈ f.classes ∧ c.givenName? = some name) ∧
    (∀ e, ofFile f = .error e ↔ ∃ earlier c later, f.classes = earlier ++ c :: later ∧
      AreDistinct earlier ∧ c.Spoils f.name earlier e) ∧
    (f.classes.flatMap ClassDecl.tokens).Sublist (Node.tokensAll f.nodes) ∧
    ofFile { f with nodes := Node.shellAll f.nodes } = (ofFile f).map shell := by
  refine ⟨exists_ofFile_eq_ok, fun t h => ?_, fun e => ofFile_eq_error,
    Node.tokens_classesAll_sublist f.nodes, ofFile_shellAll f⟩
  exact ⟨(lists_ofFile h).size_eq, (lists_ofFile h).find?_eq_some⟩

/-- Two declarations, one of them in braces, and three classes that have their names but are values
or stand in them. -/
def nestedClasses : String :=
  "class A \x7b b = class \x7b \x7d; c = class A \x7b \x7d \x7d\nf(class B \x7b \x7d)\n" ++
    "\x7b class B \x7b m() \x7b class A \x7b \x7d \x7d \x7d \x7d"

theorem nestedClasses_indexed : ∃ f t a b, SourceFile.ofSource "a.ts" nestedClasses = .ok f ∧
    f.classes = [a, b] ∧ ofFile f = .ok t ∧ t.size = 2 ∧ t.find? "A" = some a ∧
    t.find? "B" = some b ∧ t.find? "C" = none := by
  have hread : (SourceFile.ofSource "a.ts" nestedClasses).toOption.map
      (·.classes.map ClassDecl.givenName?) = some [some "A", some "B"] := by decide +kernel
  obtain ⟨f, hf, hnames⟩ := Option.map_eq_some_iff.1 hread
  obtain ⟨a, rest, hclasses, ha, hrest⟩ := List.map_eq_cons_iff.1 hnames
  obtain ⟨b, rest, rfl, hb, hnil⟩ := List.map_eq_cons_iff.1 hrest
  obtain rfl := List.map_eq_nil_iff.1 hnil
  obtain ⟨hdistinct, hfound, -⟩ := ofFile_indexes f
  obtain ⟨t, ht⟩ := hdistinct.2 ⟨by simp [hclasses, ha, hb], by simp [hclasses, ha, hb]⟩
  obtain ⟨hsize, hfind⟩ := hfound t ht
  refine ⟨f, t, a, b, toOption_eq_some_iff.1 hf, hclasses, ht, ?_, ?_, ?_, ?_⟩
  · rw [hsize, hclasses]
    rfl
  · exact (hfind "A" a).2 ⟨by simp [hclasses], ha⟩
  · exact (hfind "B" b).2 ⟨by simp [hclasses], hb⟩
  · refine Option.eq_none_iff_forall_ne_some.2 fun c hc => ?_
    obtain ⟨hmem, hname⟩ := (hfind "C" c).1 hc
    simp only [hclasses, List.mem_cons, List.not_mem_nil, or_false] at hmem
    obtain rfl | rfl := hmem
    · exact absurd (ha.symm.trans hname) (by decide)
    · exact absurd (hb.symm.trans hname) (by decide)

end TemplateClasses

end TwinClasses
