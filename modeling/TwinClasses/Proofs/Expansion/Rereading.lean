import TwinClasses.Proofs.Expansion.Growth
import TwinClasses.Proofs.Framing.Classes
import TwinClasses.Proofs.RoundTrip.Lossless

set_option autoImplicit false

/-! Expanded classes, read again. New members come behind those of the skeleton with nothing to set
them apart. They are read as what they are if the last member of the skeleton ends in front of them;
a property without a semicolon may go on with them. -/

namespace TwinClasses

namespace Expansion

variable {e : Expansion}

/-- What a member is expanded to ends with its body, whatever comes after it. -/
theorem endsBefore_of_makes {naming : Naming} {owner : String} {m : Member} {ms : List Member}
    (h : m.Makes naming owner ms) (more : List Tree) (t : Tree) :
    ∀ m' ∈ ms, m'.endsBefore more t = true := by
  cases h <;> simp [Member.endsBefore]

theorem Adds.endsBefore {c : ClassDecl} {added : List Member} (h : e.Adds c added)
    (more : List Tree) (t : Tree) : ∀ m ∈ added, m.endsBefore more t = true := by
  obtain ⟨name, expected, template, parts, -, -, -, hparts, rfl⟩ := h
  intro m hm
  generalize template.members = ms at hparts
  induction hparts with
  | nil => cases hm
  | cons hrewrites _ ih =>
    rw [List.flatten_cons, List.mem_append] at hm
    obtain hm | hm := hm
    · exact endsBefore_of_makes hrewrites.makes more t m hm
    · exact ih hm

/-- The class `c'` is `c` with what expansion adds to it, if it adds anything. -/
def Extended (e : Expansion) (c c' : ClassDecl) : Prop :=
  ∃ added, (added = [] ∨ e.Adds c added) ∧ c' = { c with members := c.members ++ added }

theorem extended_self (c : ClassDecl) : e.Extended c c := by
  refine ⟨[], .inl rfl, ?_⟩
  cases c
  simp

mutual

/-- The classes of what a node grows to are its own, extended. -/
theorem Grows.classes {n n' : Node} (h : e.Grows n n') :
    List.Forall₂ e.Extended n.classes n'.classes := by
  cases h with
  | group g hchildren =>
    cases g
    exact hchildren.classes
  | target c htarget hadds =>
    have hexpression : ¬ c.isExpression = true := by
      simp only [ClassDecl.isTarget, Bool.and_eq_true, Bool.not_eq_true'] at htarget
      simp [htarget.1]
    rw [Node.classes, Node.classes, if_neg hexpression, if_neg hexpression]
    exact .cons ⟨_, .inr hadds, rfl⟩ .nil
  | _ => exact List.forall₂_same.2 fun c _ => extended_self c

theorem AllGrow.classes {ns ns' : List Node} (h : e.AllGrow ns ns') :
    List.Forall₂ e.Extended (Node.classesAll ns) (Node.classesAll ns') := by
  cases h with
  | nil => exact .nil
  | cons hn hns => exact List.rel_append hn.classes hns.classes

end

/-- Among `ts` are trees that are read as the class `c`, and with trees of the new members at the
end of the body they are read as `c'`: with whatever trees are read as these members and begin as a
member may, if the last member of `c` ends in front of them. -/
def Rereads (ts : List Tree) (c c' : ClassDecl) : Prop :=
  ∃ k parent last added, Tree.Contains (ClassTrees.trees k) ts ∧ k.IsRead parent last c ∧
    c' = { c with members := c.members ++ added } ∧
    ∀ more, Extent.beginsMember more = true → Reader.members none more = .ok added →
      (∀ m ∈ c.members.getLast?, ∀ t ∈ k.body.getLast?, m.endsBefore more t = true) →
        (k.grow more).IsRead parent last c'

theorem members_eq_ok_nil {closing : Option Nat} {ts : List Tree}
    (h : Reader.members closing ts = .ok []) : ts = [] := by
  cases ts with
  | nil => rfl
  | cons t us =>
    obtain ⟨m, vs, hv, ms, -, -, hms⟩ := Reader.members_cons_eq_ok h
    cases hms

theorem Extended.rereads {c c' : ClassDecl} {ts : List Tree} (h : e.Extended c c')
    {k : ClassTrees} {parent : Option Delimiter} {last : Option Node}
    (hk : k.Makes parent last c) (hin : Tree.Contains k.trees ts) : Rereads ts c c' := by
  obtain ⟨added, hadded, rfl⟩ := h
  refine ⟨k, parent, last, added, hin, hk.isRead, rfl, ?_⟩
  intro more hm hmore hend
  -- what closes the new members does not matter: none of them goes on
  have hclosing : Reader.members (some k.closing.offset) more = .ok added := by
    obtain rfl | hadds := hadded
    · rw [members_eq_ok_nil hmore, Reader.members]
    · have hnil : Reader.members (some k.closing.offset) (more ++ []) = _ :=
        Reader.members_append rfl hmore fun m hm' t _ =>
          hadds.endsBefore [] t m (List.mem_of_getLast? hm')
      rw [List.append_nil, Reader.members] at hnil
      simpa [Except.map] using hnil
  exact (hk.grow hm hclosing hend).isRead

/-- A skeleton with one target, which has a method. -/
def methodTarget : SourceFile where
  name := "enumerable.ts"
  nodes := [.classDecl {
    keyword := .identifier "" "class"
    name := some (.identifier " " "Enumerable")
    heritage := []
    opening := ⟨.openBrace, " ", "\x7b"⟩
    members := [.method {
      leading := " "
      decorators := []
      modifiers := []
      asterisk := none
      name := .identifier (.identifier "" "all")
      question := none
      typeParameters := []
      parameters := ⟨.bare .openParen "(", [], .bare .closeParen ")"⟩
      returnType := none
      body := some (.of .brace " " [] " ")
      terminator := none }]
    closing := ⟨.closeBrace, " ", "\x7d"⟩
    isExpression := false }]
  trailing := ""

/-- The trees of the skeleton. -/
def methodTrees : List Tree :=
  [.token ⟨.identifier "" "class", 0⟩, .token ⟨.identifier " " "Enumerable", 6⟩,
    .group .brace ⟨⟨.openBrace, " ", "\x7b"⟩, 17⟩
      [.token ⟨.identifier " " "all", 19⟩,
        .group .paren ⟨.bare .openParen "(", 22⟩ [] ⟨.bare .closeParen ")", 23⟩,
        .group .brace ⟨⟨.openBrace, " ", "\x7b"⟩, 25⟩ [] ⟨⟨.closeBrace, " ", "\x7d"⟩, 27⟩]
      ⟨⟨.closeBrace, " ", "\x7d"⟩, 29⟩]

theorem ofSource_methodTarget :
    SourceFile.ofSource "enumerable.ts" "class Enumerable { all() { } }" = .ok methodTarget := by
  have hlexemes : Lexer.lexemes "class Enumerable { all() { } }" =
      ⟨Tree.lexemesAll methodTrees, ""⟩ := by decide +kernel
  have htrees : Tree.ofLexemes (Tree.lexemesAll methodTrees) = .ok methodTrees := rfl
  have hnodes : Reader.sequence none none methodTrees = .ok methodTarget.nodes := by
    with_unfolding_all rfl
  rw [SourceFile.ofSource, hlexemes]
  simp only [htrees, bind, Except.bind, hnodes]
  rfl

/-- The getter of the template, as it is generated. -/
def sizeGetter : Getter where
  leading := " "
  decorators := []
  modifiers := []
  keyword := .identifier "" "get"
  name := .identifier (.identifier " " "size")
  parameters := ⟨.bare .openParen "(", [], .bare .closeParen ")"⟩
  returnType := some ⟨.bare .colon ":", [.typeRef (.named (.identifier " " "Iterable") none)]⟩
  body := some (.of .brace " " [] " ")
  terminator := none

def sizeTrees : List Tree :=
  [.token ⟨.identifier " " "get", 0⟩, .token ⟨.identifier " " "size", 0⟩,
    .group .paren ⟨.bare .openParen "(", 0⟩ [] ⟨.bare .closeParen ")", 0⟩,
    .token ⟨.bare .colon ":", 0⟩, .token ⟨.identifier " " "Iterable", 0⟩,
    .group .brace ⟨⟨.openBrace, " ", "\x7b"⟩, 0⟩ [] ⟨⟨.closeBrace, " ", "\x7d"⟩, 0⟩]

/-- A skeleton can be expanded with the template classes of a text, and the result passes a test. -/
def expandsTo (test : SourceFile → Bool) (flavor : Flavor) (template skeleton : String) : Bool :=
  ((SourceFile.ofSource "template.ts" template).toOption.bind fun t =>
    (TemplateClasses.ofFile t).toOption.bind fun templates =>
      (SourceFile.ofSource "skeleton.ts" skeleton).toOption.bind fun f =>
        ((Expansion.mk flavor templates {}).run f).toOption.map test) = some true

theorem exists_of_expandsTo {test : SourceFile → Bool} {flavor : Flavor}
    {template skeleton : String} (h : expandsTo test flavor template skeleton = true) :
    ∃ t templates f g, SourceFile.ofSource "template.ts" template = .ok t ∧
      TemplateClasses.ofFile t = .ok templates ∧
      SourceFile.ofSource "skeleton.ts" skeleton = .ok f ∧
      (Expansion.mk flavor templates {}).run f = .ok g ∧ test g = true := by
  simp only [expandsTo, decide_eq_true_eq, Option.bind_eq_some_iff, Option.map_eq_some_iff,
    toOption_eq_some_iff] at h
  obtain ⟨t, ht, templates, htemplates, f, hf, g, hg, htest⟩ := h
  exact ⟨t, templates, f, g, ht, htemplates, hf, hg, htest⟩

end Expansion

end TwinClasses
