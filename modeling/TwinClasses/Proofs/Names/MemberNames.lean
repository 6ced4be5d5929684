import TwinClasses.Proofs.Conversion.Erasure
import TwinClasses.Proofs.Names.Members
import TwinClasses.Proofs.RoundTrip.Lossless

set_option autoImplicit false

/-! Names directly behind dots under conversion. They keep their text in a property access and in a
qualified type; one that is a node of its own gets the name that the table has for it. -/

namespace TwinClasses

open Occurrence

/-- What a name behind a dot is called after conversion, by what it is. -/
inductive Role.Renders (types : TypeTable) (t : Token) : Role → String → Prop where
  | plain : Renders types t .plain (types.rename t).text
  | qualified : Renders types t .qualified t.text
  | property (object : String) : Renders types t (.property object)
      (if object = "Symbol" && t.text = "asyncIterator" then "iterator" else t.text)

namespace Node

/-- The tokens, each with what becomes of it and what it is. -/
def sites (types : TypeTable) (ns : List Node) : List (Edit × Occurrence) :=
  (editsAll types ns).zip (occurrencesAll ns)

/-- The token is an identifier, and the one directly in front of it a dot. -/
structure BehindDot (types : TypeTable) (ns : List Node) (e : Edit) (o : Occurrence) : Prop where
  identifier : e.token.kind = .identifier
  exists_dot : ∃ d : Edit × Occurrence, d.1.token.kind.isDot = true ∧
    [d, (e, o)] <:+: sites types ns

/-- Names behind dots have their text wherever they stay, but for `Symbol.asyncIterator`. -/
def KeepsMemberNames (types : TypeTable) (ns : List Node) : Prop :=
  ∀ e o, BehindDot types ns e o → ∀ taken text, e.fate = .kept taken text →
    text = e.token.text ∨
      (o.role = .property "Symbol" ∧ e.token.text = "asyncIterator" ∧ text = "iterator")

variable {types : TypeTable} {ns : List Node} {e : Edit} {o : Occurrence}

theorem map_fst_sites (types : TypeTable) (ns : List Node) :
    (sites types ns).map Prod.fst = editsAll types ns :=
  List.map_fst_zip (suit_editsAll types ns).length_eq.le

theorem map_snd_sites (types : TypeTable) (ns : List Node) :
    (sites types ns).map Prod.snd = occurrencesAll ns :=
  List.map_snd_zip (suit_editsAll types ns).length_eq.ge

theorem suits_of_mem_sites (h : (e, o) ∈ sites types ns) : e.Suits types o :=
  (List.forall₂_iff_zip.1 (suit_editsAll types ns)).2 h

theorem BehindDot.mem (h : BehindDot types ns e o) : (e, o) ∈ sites types ns := by
  obtain ⟨d, -, hd⟩ := h.exists_dot
  exact hd.subset (by simp)

theorem BehindDot.role_ne (h : BehindDot types ns e o) (hl : Linked (occurrencesAll ns)) :
    o.role ≠ .other := by
  obtain ⟨⟨d, dot⟩, hdot, hsites⟩ := h.exists_dot
  have hchain : (sites types ns).IsChain fun d n => d.2.isDot = true → n.2.MayFollowDot := by
    rw [← map_snd_sites types] at hl
    exact (List.isChain_map Prod.snd).1 hl
  have hpair := List.IsChain.infix hchain hsites
  have hfollows := List.isChain_pair.1 hpair
  have hd : d.Suits types dot := suits_of_mem_sites (hsites.subset (by simp))
  apply hfollows
  · rw [isDot, ← hd.kind]
    exact hdot
  · rw [← (suits_of_mem_sites h.mem).kind]
    exact h.identifier

theorem BehindDot.ne_replaced (h : BehindDot types ns e o) (hl : Linked (occurrencesAll ns)) :
    e.fate ≠ .replaced := by
  intro hf
  have hfate := (suits_of_mem_sites h.mem).fate
  rw [hf] at hfate
  exact h.role_ne hl hfate

theorem BehindDot.renders (h : BehindDot types ns e o) (hl : Linked (occurrencesAll ns))
    {taken : List String} {text : String} (hf : e.fate = .kept taken text) :
    o.role.Renders types e.token text := by
  have hs := suits_of_mem_sites h.mem
  have hfate := hs.fate
  simp only [hf, Occurrence.Admits] at hfate
  cases hr : o.role with
  | other => exact absurd hr (h.role_ne hl)
  | plain =>
    simp only [hr] at hfate
    rw [hfate]
    exact .plain
  | qualified =>
    simp only [hr] at hfate
    rw [hfate, ← hs.text]
    exact .qualified
  | property object =>
    simp only [hr] at hfate
    rw [hfate, ← hs.text]
    exact .property object

/-- A name behind a dot goes with what it is part of, or its text is the one for its role. -/
theorem BehindDot.dropped_or_renders (h : BehindDot types ns e o)
    (hl : Linked (occurrencesAll ns)) : e.fate = .dropped ∨
      ∃ taken text, e.fate = .kept taken text ∧ o.role.Renders types e.token text := by
  cases hf : e.fate with
  | dropped => exact .inl rfl
  | replaced => exact absurd hf (h.ne_replaced hl)
  | kept taken text => exact .inr ⟨taken, text, rfl, h.renders hl hf⟩

/-- Only names that are nodes of their own can change. -/
theorem keepsMemberNames_iff (hl : Linked (occurrencesAll ns)) : KeepsMemberNames types ns ↔
    ∀ e o, BehindDot types ns e o → o.role = .plain → e.fate ≠ .dropped →
      (types.rename e.token).text = e.token.text := by
  constructor
  · intro hkeeps e o h hrole hstays
    obtain hdropped | ⟨taken, text, hfate, hrenders⟩ := h.dropped_or_renders hl
    · exact absurd hdropped hstays
    · rw [hrole] at hrenders
      cases hrenders
      obtain htext | ⟨hproperty, -⟩ := hkeeps e o h taken _ hfate
      · exact htext
      · rw [hrole] at hproperty
        cases hproperty
  · intro hplain e o h taken text hfate
    have hrenders := h.renders hl hfate
    generalize hrole : o.role = role at hrenders
    cases hrenders with
    | plain => exact .inl (hplain e o h hrole (by simp [hfate]))
    | qualified => exact .inl rfl
    | property object =>
      split
      · rename_i hiterator
        rw [Bool.and_eq_true, decide_eq_true_eq, decide_eq_true_eq] at hiterator
        obtain ⟨rfl, htext⟩ := hiterator
        exact .inr ⟨rfl, htext, rfl⟩
      · exact .inl rfl

end Node

namespace SourceFile

theorem linked_ofSource {name source : String} {f : SourceFile}
    (h : ofSource name source = .ok f) : Linked (Node.occurrencesAll f.nodes) := by
  obtain ⟨trees, htrees, hsequence, -⟩ := ofSource_eq_ok h
  have hfits : Reader.Fits (Tree.weightAll trees + 1) trees :=
    ⟨Nat.lt_succ_self _, none, (Tree.ofLexemes_eq_ok_iff.1 htrees).2⟩
  exact ((Reader.readersLinked _).sequence _ _ _ _ hfits hsequence).linked

/-- What becomes of a name directly behind a dot follows from what it is in the tree: in a property
access and in a qualified type it stays, but for `Symbol.asyncIterator`, and a node of its own is
renamed like any other. So member names are kept if and only if the table has no other name for one
of the latter kind. -/
theorem renders_behindDot {types : TypeTable} {member name source : String} {f : SourceFile}
    {ms : List Node} (hf : ofSource name source = .ok f)
    (h : Node.toSyncAll types member f.nodes = .ok ms) :
    Edit.tokens ((Node.sites types f.nodes).map Prod.fst) = Node.tokensAll f.nodes ∧
    Node.tokensAll ms = Edit.outcomes ((Node.sites types f.nodes).map Prod.fst) ∧
    (∀ e o, Node.BehindDot types f.nodes e o → e.fate = .dropped ∨
      ∃ taken text, e.fate = .kept taken text ∧ o.role.Renders types e.token text) ∧
    (Node.KeepsMemberNames types f.nodes ↔ ∀ e o, Node.BehindDot types f.nodes e o →
      o.role = .plain → e.fate ≠ .dropped → (types.rename e.token).text = e.token.text) := by
  have hl := linked_ofSource hf
  rw [Node.map_fst_sites]
  exact ⟨Node.tokens_editsAll types f.nodes, Node.tokens_toSyncAll f.nodes ms h,
    fun e o hbehind => hbehind.dropped_or_renders hl, Node.keepsMemberNames_iff hl⟩

/-- The same name in a qualified type and in a property access. -/
theorem keepsMemberNames_typed_access : ∃ f ms,
    ofSource "a.ts" "class C { f(): a.AsyncIterable { return b.AsyncIterable; } }" = .ok f ∧
    Node.toSyncAll {} "f" f.nodes = .ok ms ∧ Node.KeepsMemberNames {} f.nodes := by
  have hplain : ((ofSource "a.ts"
      "class C { f(): a.AsyncIterable { return b.AsyncIterable; } }").toOption.map fun f =>
        ((Node.toSyncAll {} "f" f.nodes).toOption.isSome, (Node.sites {} f.nodes).all fun p =>
          p.2.role ≠ .plain || (({} : TypeTable).rename p.1.token).text = p.1.token.text)) =
            some (true, true) := by
    decide +kernel
  obtain ⟨f, hf, hrest⟩ := Option.map_eq_some_iff.1 hplain
  obtain ⟨hconverts, hsites⟩ := Prod.mk.inj hrest
  obtain ⟨ms, hms⟩ := Option.isSome_iff_exists.1 hconverts
  have hok := toOption_eq_some_iff.1 hf
  have hconverted := toOption_eq_some_iff.1 hms
  refine ⟨f, ms, hok, hconverted, (renders_behindDot hok hconverted).2.2.2.2 ?_⟩
  intro e o h hrole _
  have he := List.all_eq_true.1 hsites (e, o) h.mem
  simpa [hrole] using he

/-- Further along a chain the name is a node of its own, and changes. -/
theorem not_keepsMemberNames : ¬ ∀ (types : TypeTable) (member name source : String)
    (f : SourceFile) (ms : List Node), ofSource name source = .ok f →
    Node.toSyncAll types member f.nodes = .ok ms → Node.KeepsMemberNames types f.nodes := by
  intro hall
  let dot : Token := ⟨.dot, "", "."⟩
  let chained : Token := .identifier "" "AsyncIterable"
  have hrenamed : ((ofSource "a.ts" "a.b.AsyncIterable;").toOption.map fun f =>
      ((Node.toSyncAll {} "f" f.nodes).toOption.map Node.sourceAll,
        decide ([(Edit.keep dot, dot.as .plain),
          (Edit.respell chained "Iterable", chained.as .plain)] <:+: Node.sites {} f.nodes))) =
            some (some "a.b.Iterable;", true) := by
    decide +kernel
  obtain ⟨f, hf, hrest⟩ := Option.map_eq_some_iff.1 hrenamed
  obtain ⟨hconverts, hsites⟩ := Prod.mk.inj hrest
  obtain ⟨ms, hms, -⟩ := Option.map_eq_some_iff.1 hconverts
  have hbehind : Node.BehindDot {} f.nodes (Edit.respell chained "Iterable") (chained.as .plain) :=
    ⟨rfl, (Edit.keep dot, dot.as .plain), rfl, of_decide_eq_true hsites⟩
  obtain htext | ⟨hrole, -⟩ := hall {} "f" "a.ts" "a.b.AsyncIterable;" f ms
    (toOption_eq_some_iff.1 hf) (toOption_eq_some_iff.1 hms) _ _ hbehind [] "Iterable" rfl
  · exact absurd htext (by decide)
  · cases hrole

end SourceFile

end TwinClasses
