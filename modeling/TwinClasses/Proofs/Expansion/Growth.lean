import Mathlib.Data.List.Forall2
import TwinClasses.Expansion
import TwinClasses.Proofs.Lexemes
import TwinClasses.Proofs.Expansion.Wrapping

set_option autoImplicit false

/-! What expansion adds to a skeleton, and that it changes nothing else. A target class grows at its
end, by what the members of its template class expand to; a group changes as its children do; every
other node stays. So the text of the result is the text of the skeleton with something new in front
of the closing braces of its targets. -/

namespace TwinClasses

/-- The shape of what a member is expanded to for the class `owner`. -/
inductive Member.Makes (naming : Naming) (owner : String) : Member → List Member → Prop where
  | other (nodes : List Node) : Makes naming owner (.other nodes) []
  | getter (g g' : Getter) : Makes naming owner (.getter g) [.getter g']
  | method (m m' : Method) : ¬ m.IsWrapped naming → Makes naming owner (.method m) [.method m']
  | wrapped (m : Method) (name : String) (arguments : List Node) (outer inner : String)
    {w i : Method} : m.IsWrapped naming → m.name.identifier? = some name →
      w.Wraps naming owner name arguments outer inner i →
      Makes naming owner (.method m) [.method w, .method i]

/-- The declaration is one of those that are expanded. -/
def ClassDecl.isTarget (naming : Naming) (c : ClassDecl) : Bool :=
  !c.isExpression && c.givenName?.any naming.expands

namespace Expansion

/-- The template member `m` is expanded to `ms` for the class `owner`. -/
structure Rewrites (e : Expansion) (owner : String) (m : Member) (ms : List Member) : Prop where
  expanded : m.expand e.conventions e.flavor owner = .ok ms
  makes : m.Makes e.conventions.naming owner ms

/-- The class gets `added`: what the members of its template class expand to, in their order. -/
def Adds (e : Expansion) (c : ClassDecl) (added : List Member) : Prop :=
  ∃ name expected template parts, c.givenName? = some name ∧
    e.conventions.naming.templateName e.flavor name = .ok expected ∧
    e.templates.find? expected = some template ∧
    List.Forall₂ (e.Rewrites name) template.members parts ∧ added = parts.flatten

mutual

/-- The second node is what the first grows to. -/
inductive Grows (e : Expansion) : Node → Node → Prop where
  | token (t : Token) : Grows e (.token t) (.token t)
  | forOf (keyword : Token) (awaiting : Option Token) (head : Group) :
    Grows e (.forOf keyword awaiting head) (.forOf keyword awaiting head)
  | await (keyword : Token) (operand : List Node) :
    Grows e (.await keyword operand) (.await keyword operand)
  | access (object dot name : Token) :
    Grows e (.access object dot name) (.access object dot name)
  | typeRef (r : TypeRef) : Grows e (.typeRef r) (.typeRef r)
  | ordinary (c : ClassDecl) : c.isTarget e.conventions.naming = false →
    Grows e (.classDecl c) (.classDecl c)
  | target (c : ClassDecl) {added : List Member} : c.isTarget e.conventions.naming = true →
    e.Adds c added →
      Grows e (.classDecl c) (.classDecl { c with members := c.members ++ added })
  | group (g : Group) {children : List Node} : AllGrow e g.children children →
    Grows e (.group g) (.group { g with children })

inductive AllGrow (e : Expansion) : List Node → List Node → Prop where
  | nil : AllGrow e [] []
  | cons {n n' : Node} {ns ns' : List Node} : Grows e n n' → AllGrow e ns ns' →
    AllGrow e (n :: ns) (n' :: ns')

end

end Expansion

/-! Places where text is added. -/

/-- A token of a skeleton, or the place at the end of a target class, in front of the trivia of its
closing brace. -/
inductive Slot where
  | token (token : Token)
  | site (target : ClassDecl)

namespace Slot

def token? : Slot → Option Token
  | token t => some t
  | site _ => none

/-- The tokens of a skeleton, with nothing added. -/
def tokens (slots : List Slot) : List Token := slots.filterMap token?

def ofTokens (ts : List Token) : List Slot := ts.map token

@[simp] theorem tokens_nil : tokens [] = [] := rfl

@[simp] theorem tokens_token (t : Token) (slots : List Slot) :
    tokens (token t :: slots) = t :: tokens slots := rfl

@[simp] theorem tokens_site (c : ClassDecl) (slots : List Slot) :
    tokens (site c :: slots) = tokens slots := rfl

@[simp] theorem tokens_append (as bs : List Slot) : tokens (as ++ bs) = tokens as ++ tokens bs := by
  simp [tokens]

@[simp] theorem tokens_ofTokens (ts : List Token) : tokens (ofTokens ts) = ts := by
  induction ts with
  | nil => rfl
  | cons t ts ih => simpa [ofTokens, tokens, token?] using ih

end Slot

/-- The tokens up to the closing brace. -/
def ClassDecl.openTokens (c : ClassDecl) : List Token :=
  c.keyword :: c.name.toList ++ Node.tokensAll c.heritage ++ c.opening :: Member.tokensAll c.members

theorem ClassDecl.tokens_eq (c : ClassDecl) : c.tokens = c.openTokens ++ [c.closing] := by
  cases c
  simp [tokens, openTokens]

theorem Member.tokensAll_append (ms ms' : List Member) :
    Member.tokensAll (ms ++ ms') = Member.tokensAll ms ++ Member.tokensAll ms' := by
  induction ms with
  | nil => simp [Member.tokensAll]
  | cons m ms ih => simp [Member.tokensAll, ih]

mutual

/-- The tokens of the node and the places where it may grow. -/
def Node.slots (naming : Naming) : Node → List Slot
  | .classDecl c =>
    if c.isTarget naming then Slot.ofTokens c.openTokens ++ [.site c, .token c.closing]
    else Slot.ofTokens c.tokens
  | .group ⟨_, opening, children, closing⟩ =>
    .token opening :: Node.slotsAll naming children ++ [.token closing]
  | .token t => Slot.ofTokens (Node.token t).tokens
  | .forOf keyword awaiting head => Slot.ofTokens (Node.forOf keyword awaiting head).tokens
  | .await keyword operand => Slot.ofTokens (Node.await keyword operand).tokens
  | .access object dot name => Slot.ofTokens (Node.access object dot name).tokens
  | .typeRef r => Slot.ofTokens (Node.typeRef r).tokens

def Node.slotsAll (naming : Naming) : List Node → List Slot
  | [] => []
  | n :: ns => n.slots naming ++ Node.slotsAll naming ns

end

mutual

theorem Node.tokens_slots (naming : Naming) (n : Node) :
    Slot.tokens (n.slots naming) = n.tokens := by
  match n with
  | .classDecl c =>
    simp only [Node.slots, Node.tokens]
    split
    · simp [ClassDecl.tokens_eq]
    · simp
  | .group ⟨d, opening, children, closing⟩ =>
    simp [Node.slots, Node.tokens, Group.tokens, Node.tokens_slotsAll naming children]
  | .token t => simp [Node.slots]
  | .forOf keyword awaiting head => simp [Node.slots]
  | .await keyword operand => simp [Node.slots]
  | .access object dot name => simp [Node.slots]
  | .typeRef r => simp [Node.slots]

theorem Node.tokens_slotsAll (naming : Naming) (ns : List Node) :
    Slot.tokens (Node.slotsAll naming ns) = Node.tokensAll ns := by
  match ns with
  | [] => rfl
  | n :: ns =>
    simp [Node.slotsAll, Node.tokensAll, Node.tokens_slots naming n, Node.tokens_slotsAll naming ns]

end

namespace Expansion

/-- Each place is filled with the tokens of the members that its class gets. -/
inductive Filled (e : Expansion) : List Slot → List Token → Prop where
  | nil : Filled e [] []
  | token (t : Token) {slots : List Slot} {ts : List Token} :
    Filled e slots ts → Filled e (.token t :: slots) (t :: ts)
  | site (c : ClassDecl) {added : List Member} {slots : List Slot} {ts : List Token} :
    e.Adds c added → Filled e slots ts →
      Filled e (.site c :: slots) (Member.tokensAll added ++ ts)

namespace Filled

variable {e : Expansion} {slots slots' : List Slot} {ts us : List Token}

theorem append (h : Filled e slots ts) (h' : Filled e slots' us) :
    Filled e (slots ++ slots') (ts ++ us) := by
  induction h with
  | nil => exact h'
  | token t _ ih => exact .token t ih
  | site c hadds _ ih =>
    rw [List.append_assoc]
    exact .site c hadds ih

theorem ofTokens (ts : List Token) : Filled e (Slot.ofTokens ts) ts := by
  induction ts with
  | nil => exact .nil
  | cons t ts ih => exact .token t ih

end Filled

variable {e : Expansion}

mutual

/-- What a node grows to has its tokens, with new ones in the places for them. -/
theorem Grows.filled {n n' : Node} (h : e.Grows n n') :
    e.Filled (n.slots e.conventions.naming) n'.tokens := by
  match h with
  | .token t => exact .ofTokens _
  | .forOf keyword awaiting head => exact .ofTokens _
  | .await keyword operand => exact .ofTokens _
  | .access object dot name => exact .ofTokens _
  | .typeRef r => exact .ofTokens _
  | .ordinary c hc =>
    rw [Node.slots, if_neg (by simp [hc])]
    exact .ofTokens _
  | .target c hc hadds =>
    rw [Node.slots, if_pos hc, Node.tokens, ClassDecl.tokens_eq]
    have hopen := Filled.ofTokens (e := e) c.openTokens
    have hsite := Filled.site c hadds (.token c.closing .nil)
    simpa [ClassDecl.openTokens, Member.tokensAll_append] using hopen.append hsite
  | .group ⟨d, opening, children, closing⟩ hchildren =>
    exact (Filled.token opening hchildren.filled).append (.token closing .nil)

theorem AllGrow.filled {ns ns' : List Node} (h : e.AllGrow ns ns') :
    e.Filled (Node.slotsAll e.conventions.naming ns) (Node.tokensAll ns') := by
  match h with
  | .nil => exact .nil
  | .cons hn hns => exact hn.filled.append hns.filled

end

end Expansion

/-! Expansion. -/

section

variable {conventions : Conventions} {owner : String}

theorem Method.makes_expand {flavor : Flavor} {m : Method} {ms : List Member}
    (h : m.expand conventions flavor owner = .ok ms) :
    (Member.method m).Makes conventions.naming owner ms := by
  unfold expand at h
  rw [ok_bind] at h
  obtain ⟨t, ht, h⟩ := h
  obtain rfl : t.method = m := (TemplateMethod.ofMethod_eq_ok ht).1
  have hplain : t.strategy ≠ .stream true → ¬ t.method.IsWrapped conventions.naming := by
    rintro hne ⟨t', ht', hstrategy⟩
    rw [ht] at ht'
    cases ht'
    exact hne hstrategy
  have hwrapped : t.strategy = .stream true → ∀ {parts : WrapperParts}, parts.owner = owner →
      t.withWrapper conventions.naming parts = .ok ms →
        (Member.method t.method).Makes conventions.naming owner ms := by
    intro hstrategy parts hparts h
    obtain ⟨name, names, w, i, rfl, -, hname, -, -, -, -, hwraps⟩ :=
      TemplateMethod.withWrapper_eq_ok h
    rw [hparts] at hwraps
    exact .wrapped _ name _ _ _ ⟨t, ht, hstrategy⟩ hname hwraps
  cases flavor with
  | synchronous =>
    simp only [TemplateMethod.expandSync] at h
    cases hstrategy : t.strategy with
    | aggregate =>
      simp only [hstrategy, ok_bind, ok_pure] at h
      obtain ⟨a, -, rfl⟩ := h
      exact .method _ a (hplain (by simp [hstrategy]))
    | stream wrapper =>
      cases wrapper with
      | false =>
        simp only [hstrategy, ok_bind, ok_pure] at h
        obtain ⟨a, -, rfl⟩ := h
        exact .method _ a (hplain (by simp [hstrategy]))
      | true =>
        simp only [hstrategy, ok_bind] at h
        obtain ⟨typeParameters, -, parameters, -, body, -, h⟩ := h
        exact hwrapped hstrategy rfl h
  | asynchronous =>
    simp only [TemplateMethod.expandAsync] at h
    cases hstrategy : t.strategy with
    | aggregate =>
      simp only [hstrategy] at h
      cases h
      exact .method _ _ (hplain (by simp [hstrategy]))
    | stream wrapper =>
      cases wrapper with
      | false =>
        simp only [hstrategy] at h
        cases h
        exact .method _ _ (hplain (by simp [hstrategy]))
      | true =>
        simp only [hstrategy] at h
        exact hwrapped hstrategy rfl h

theorem Member.makes_expand {flavor : Flavor} {m : Member} {ms : List Member}
    (h : m.expand conventions flavor owner = .ok ms) : m.Makes conventions.naming owner ms := by
  cases m with
  | method m => exact Method.makes_expand h
  | getter g =>
    cases flavor with
    | synchronous =>
      simp only [expand, Getter.expand, ok_bind, ok_pure] at h
      obtain ⟨a, -, rfl⟩ := h
      exact .getter g a
    | asynchronous =>
      cases h
      exact .getter g _
  | other nodes =>
    cases h
    exact .other nodes

end

namespace Expansion

variable {e : Expansion}

theorem generated_eq_ok {owner : String} {template added : List Member}
    (h : e.generated owner template = .ok added) :
    ∃ parts, List.Forall₂ (e.Rewrites owner) template parts ∧ added = parts.flatten := by
  induction template generalizing added with
  | nil =>
    cases h
    exact ⟨[], .nil, rfl⟩
  | cons m template ih =>
    simp only [generated, ok_bind, ok_pure] at h
    obtain ⟨ms, hms, rest, hrest, rfl⟩ := h
    obtain ⟨parts, hparts, rfl⟩ := ih hrest
    exact ⟨ms :: parts, .cons ⟨hms, Member.makes_expand hms⟩ hparts, rfl⟩

theorem expand_eq_ok {name : String} {c c' : ClassDecl} (hname : c.givenName? = some name)
    (h : e.expand name c = .ok c') :
    ∃ added, e.Adds c added ∧ c' = { c with members := c.members ++ added } := by
  unfold expand at h
  rw [ok_bind] at h
  obtain ⟨expected, hexpected, h⟩ := h
  split at h
  · cases h
  · rename_i template htemplate
    simp only [ok_bind, ok_pure] at h
    obtain ⟨added, hadded, rfl⟩ := h
    obtain ⟨parts, hparts, rfl⟩ := generated_eq_ok hadded
    exact ⟨_, ⟨name, expected, template, parts, hname, hexpected, htemplate, hparts, rfl⟩, rfl⟩

theorem grows_visitClass {file : String} {c c' : ClassDecl} (h : e.visitClass file c = .ok c') :
    e.Grows (.classDecl c) (.classDecl c') := by
  unfold visitClass at h
  split at h
  · rename_i hexpression
    cases h
    exact .ordinary c (by simp [ClassDecl.isTarget, hexpression])
  · rename_i hexpression
    split at h
    · cases h
    · rename_i name hname
      split at h
      · rename_i hexpands
        obtain ⟨added, hadds, rfl⟩ := expand_eq_ok hname h
        exact .target c (by simp [ClassDecl.isTarget, hexpression, hname, hexpands]) hadds
      · rename_i hexpands
        cases h
        exact .ordinary c (by simp [ClassDecl.isTarget, hname, hexpands])

mutual

theorem grows_visit {file : String} {n n' : Node} (h : e.visit file n = .ok n') :
    e.Grows n n' := by
  match n with
  | .classDecl c =>
    simp only [visit, ok_bind, ok_pure] at h
    obtain ⟨c', hc, rfl⟩ := h
    exact grows_visitClass hc
  | .group ⟨d, opening, children, closing⟩ =>
    simp only [visit, ok_bind, ok_pure] at h
    obtain ⟨children', hchildren, rfl⟩ := h
    exact .group _ (allGrow_visitAll hchildren)
  | .token t =>
    cases h
    exact .token t
  | .forOf keyword awaiting head =>
    cases h
    exact .forOf keyword awaiting head
  | .await keyword operand =>
    cases h
    exact .await keyword operand
  | .access object dot name =>
    cases h
    exact .access object dot name
  | .typeRef r =>
    cases h
    exact .typeRef r

theorem allGrow_visitAll {file : String} {ns ns' : List Node}
    (h : e.visitAll file ns = .ok ns') : e.AllGrow ns ns' := by
  match ns with
  | [] =>
    cases h
    exact .nil
  | n :: ns =>
    simp only [visitAll, ok_bind, ok_pure] at h
    obtain ⟨n', hn, ns', hns, rfl⟩ := h
    exact .cons (grows_visit hn) (allGrow_visitAll hns)

end

/-- Expansion only adds members, each at the end of a target class, and keeps the rest of the
skeleton: the text of the result is the skeleton's with the new members in their places. -/
theorem run_grows {skeleton result : SourceFile} (h : e.run skeleton = .ok result) :
    result.name = skeleton.name ∧ result.trailing = skeleton.trailing ∧
      e.AllGrow skeleton.nodes result.nodes ∧
      ∃ ts, e.Filled (Node.slotsAll e.conventions.naming skeleton.nodes) ts ∧
        skeleton.source = Token.sourceOf
          (Slot.tokens (Node.slotsAll e.conventions.naming skeleton.nodes)) ++ skeleton.trailing ∧
        result.source = Token.sourceOf ts ++ skeleton.trailing := by
  simp only [run, ok_bind, ok_pure] at h
  obtain ⟨nodes, hnodes, rfl⟩ := h
  have hgrow := allGrow_visitAll hnodes
  refine ⟨rfl, rfl, hgrow, _, hgrow.filled, ?_, rfl⟩
  rw [Node.tokens_slotsAll]
  rfl

/-- A target class inside of braces. -/
def bracedTarget : SourceFile where
  name := "enumerable.ts"
  nodes := [.group (.of .brace "" [.classDecl {
    keyword := .identifier " " "class"
    name := some (.identifier " " "Enumerable")
    heritage := []
    opening := ⟨.openBrace, " ", "\x7b"⟩
    members := []
    closing := ⟨.closeBrace, " ", "\x7d"⟩
    isExpression := false }] " ")]
  trailing := "\n"

/-- A template class with one getter. -/
def sizeTemplate : ClassDecl where
  keyword := .identifier "" "class"
  name := some (.identifier " " "EnumerableTemplate")
  heritage := []
  opening := ⟨.openBrace, " ", "\x7b"⟩
  members := [.getter {
    leading := " "
    decorators := []
    modifiers := []
    keyword := .identifier "" "get"
    name := .identifier (.identifier " " "size")
    parameters := ⟨.bare .openParen "(", [], .bare .closeParen ")"⟩
    returnType := some ⟨.bare .colon ":",
      [.typeRef (.named (.identifier " " "AsyncIterable") none)]⟩
    body := some (.of .brace " " [] " ")
    terminator := none }]
  closing := ⟨.closeBrace, " ", "\x7d"⟩
  isExpression := false

def sizeExpansion : Expansion :=
  ⟨.synchronous, ⟨[("EnumerableTemplate", sizeTemplate)]⟩, {}⟩

theorem bracedTarget_grows : ∃ result, sizeExpansion.run bracedTarget = .ok result ∧
    sizeExpansion.AllGrow bracedTarget.nodes result.nodes ∧
    result.source = "{ class Enumerable { get size(): Iterable { } } }\n" := by
  have h : sizeExpansion.run bracedTarget = .ok _ := rfl
  have hgrow := (run_grows h).2.2.1
  exact ⟨_, h, hgrow, by decide +kernel⟩

end Expansion

end TwinClasses
