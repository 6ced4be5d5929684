import TwinClasses.Proofs.Classless.Readers
import TwinClasses.Proofs.RoundTrip.Lossless
import TwinClasses.Proofs.Success
import TwinClasses.Syntax.Cursor

set_option autoImplicit false

/-! Texts without the word `class`. What is read of them is written as it was read, token for token,
and they are read if and only if their brackets match. -/

namespace TwinClasses

theorem Stands.tokens_eq {spots : List Spot} {ts : List Tree} (h : Stands spots ts)
    (hg : Spot.Gapless spots) : Spot.tokens spots = Tree.tokensAll ts := by
  obtain ⟨lost, hl⟩ := h
  exact (hl.written_eq (hl.lost_eq_nil hg)).symm

/-- At least one tree is taken, and the tokens of what is found are those of the trees taken. -/
theorem Reading.Yields.lossless {α : Type} {ts : List Tree} {r : Reading α ts}
    {outline : α → List Spot} (hy : r.Yields fun a read => Stands (outline a) read)
    (hg : r.Gives fun a => Spot.Gapless (outline a)) :
    r.Yields fun a read => read ≠ [] ∧ Spot.tokens (outline a) = Tree.tokensAll read := by
  cases r with
  | failed fault rest => trivial
  | done a rest hf =>
    obtain ⟨read, hts, hs⟩ := hy
    refine ⟨read, hts, ?_, hs.tokens_eq hg⟩
    rintro rfl
    have hlt := hf.weight_lt
    rw [hts] at hlt
    exact absurd hlt (Nat.lt_irrefl _)

namespace Cursor

/-- Where the reader succeeds, it has passed at least one tree, and the tokens of what it has found
are those of the trees passed. -/
def Passes {α : Type} (c : Cursor) (reader : Option Nat → (ts : List Tree) → Reading α ts)
    (tokens : α → List Token) : Prop :=
  ∀ a c', c.run reader = (.ok a, c') →
    c'.since c.position ≠ [] ∧ tokens a = Tree.tokensAll (c'.since c.position)

theorem passes_of_yields {α : Type} {c : Cursor}
    {reader : Option Nat → (ts : List Tree) → Reading α ts} {tokens : α → List Token}
    (h : (reader c.closing c.rest).Yields fun a read =>
      read ≠ [] ∧ tokens a = Tree.tokensAll read) : c.Passes reader tokens := by
  intro a c' hrun
  unfold run at hrun
  cases hr : reader c.closing c.rest with
  | failed fault left =>
    rw [hr] at hrun
    cases hrun
  | done a left hf =>
    rw [hr] at hrun h
    cases hrun
    obtain ⟨read, hrest, hread⟩ := h
    have hsince : (c.moveTo (c.position + (c.rest.length - left.length))).since c.position =
        read := by
      have hlen : c.rest.length - left.length = read.length := by
        rw [hrest, List.length_append, Nat.add_sub_cancel]
      rw [hlen, since, moveTo, List.drop_take, Nat.add_sub_cancel_left]
      show c.rest.take read.length = read
      rw [hrest, List.take_left]
    rw [hsince]
    exact hread

end Cursor

namespace Reader

variable {ts : List Tree}

theorem sequence_of_classFree (hc : Tree.ClassFree ts) (parent : Option Delimiter)
    (last : Option Node) : ∃ ns, sequence parent last ts = .ok ns ∧
      Node.tokensAll ns = Tree.tokensAll ts := by
  have hw := Nat.lt_succ_self (Tree.weightAll ts)
  obtain ⟨ns, hns, hg⟩ := (readersGapless _).sequence parent last ts hw hc
  refine ⟨ns, hns, ?_⟩
  rw [← Node.tokens_outlineAll]
  exact ((readersSound _).sequence parent last ts ns hw hns).1.tokens_eq hg

theorem parameters_of_classFree (hc : Tree.ClassFree ts) {closing : Option Nat}
    {ps : List Parameter} (h : parameters closing ts = .ok ps) :
    Parameter.tokensAll ps = Tree.tokensAll ts := by
  have hw := Nat.lt_succ_self (Tree.weightAll ts)
  rw [← Parameter.tokens_outlineAll]
  exact ((readersSound _).parameters closing ts ps hw h).1.tokens_eq
    ((readersGapless _).parameters closing ts ps hw hc h)

theorem type_of_classFree (hc : Tree.ClassFree ts) (closing : Option Nat) (conditional : Bool) :
    (type closing conditional ts).Yields fun ns read =>
      read ≠ [] ∧ Node.tokensAll ns = Tree.tokensAll read := by
  have hw := Nat.lt_succ_self (Tree.weightAll ts)
  simp only [← Node.tokens_outlineAll]
  exact (((readersSound _).type closing conditional ts hw).mono fun _ _ h => h.1).lossless
    ((readersGapless _).type closing conditional ts hw hc)

theorem typeReference_of_classFree (hc : Tree.ClassFree ts) (closing : Option Nat) :
    (typeReference closing ts).Yields fun r read =>
      read ≠ [] ∧ r.tokens = Tree.tokensAll read := by
  have hw := Nat.le_refl (Tree.weightAll ts)
  simp only [← TypeRef.tokens_outline]
  exact ((typeReference_readFrom (readersSound _) closing hw).mono fun _ _ h => h.1).lossless
    (typeReference_gapless (readersGapless _) closing hw hc)

theorem typeArguments_of_classFree (hc : Tree.ClassFree ts) (closing : Option Nat) :
    (typeArguments closing ts).Yields fun a read =>
      read ≠ [] ∧ a.tokens = Tree.tokensAll read := by
  have hw := Nat.le_refl (Tree.weightAll ts)
  simp only [← TypeArguments.tokens_outline]
  exact ((typeArguments_readFrom (readersSound _) closing hw).mono fun _ _ h => h.1).lossless
    (typeArguments_gapless (readersGapless _) closing hw hc)

theorem typeParameters_of_classFree (hc : Tree.ClassFree ts) (closing : Option Nat) :
    (typeParameters closing ts).Yields fun ns read =>
      read ≠ [] ∧ Node.tokensAll ns = Tree.tokensAll read := by
  have hw := Nat.le_refl (Tree.weightAll ts)
  simp only [← Node.tokens_outlineAll]
  exact ((typeParameters_readFrom (readersSound _) closing hw).mono fun _ _ h => h.1.1).lossless
    (typeParameters_gapless (readersGapless _) closing hw hc)

end Reader

theorem ParameterList.ofGroup_of_classFree {opening closing : Lexeme} {children : List Tree}
    {ps : ParameterList} (hc : Tree.ClassFree children)
    (h : ofGroup opening children closing = .ok ps) :
    ps.tokens = Tree.tokensAll [.group .paren opening children closing] := by
  unfold ofGroup at h
  cases hp : Reader.parameters (some closing.offset) children with
  | error fault => simp [hp, Except.map] at h
  | ok items =>
    simp only [hp, Except.map, Except.ok.injEq] at h
    subst h
    simp [ParameterList.tokens, Reader.parameters_of_classFree hc hp]

theorem Tree.classFree_of_ofLexemes {source : String} {trees : List Tree}
    (hc : ∀ t ∈ (Lexer.lexemes source).tokens, t.isWord "class" = false)
    (h : Tree.ofLexemes (Lexer.lexemes source).lexemes = .ok trees) : ClassFree trees := by
  intro l hl
  rw [lexemesAll_of_ofLexemes h] at hl
  exact hc _ (List.mem_map_of_mem hl)

theorem SourceFile.exists_ofSource_iff (name : String) {source : String}
    (hc : ∀ t ∈ (Lexer.lexemes source).tokens, t.isWord "class" = false) :
    (∃ f, ofSource name source = .ok f) ↔
      ∃ trees, Tree.ofLexemes (Lexer.lexemes source).lexemes = .ok trees := by
  constructor
  · rintro ⟨f, hf⟩
    obtain ⟨trees, ht, -⟩ := ofSource_eq_ok hf
    exact ⟨trees, ht⟩
  · rintro ⟨trees, ht⟩
    obtain ⟨ns, hns, -⟩ :=
      Reader.sequence_of_classFree (Tree.classFree_of_ofLexemes hc ht) none none
    have hread : Tree.ofLexemes (Lexer.lexemes source).lexemes >>= Reader.sequence none none =
        .ok ns := by
      rw [ht]
      exact hns
    unfold ofSource
    simp only [hread]
    exact ⟨_, rfl⟩

/-- Only the body of a class can fail or lose tokens. Where the word `class` does not occur, trees
are always read as nodes that are written as they were; parameter lists, and at any place types,
type references, type arguments and type parameters, are not read or are written as they were; and
a text is read if its brackets match. -/
theorem classFree_lossless :
    (∀ ts, Tree.ClassFree ts → ∀ parent last, ∃ ns, Reader.sequence parent last ts = .ok ns ∧
      Node.tokensAll ns = Tree.tokensAll ts) ∧
    (∀ opening children closing ps, Tree.ClassFree children →
      ParameterList.ofGroup opening children closing = .ok ps →
      ps.tokens = Tree.tokensAll [.group .paren opening children closing]) ∧
    (∀ c : Cursor, Tree.ClassFree c.trees →
      (∀ conditional, c.Passes (Reader.type · conditional) Node.tokensAll) ∧
      c.Passes Reader.typeReference TypeRef.tokens ∧
      c.Passes Reader.typeArguments TypeArguments.tokens ∧
      c.Passes Reader.typeParameters Node.tokensAll) ∧
    ∀ name source, (∀ t ∈ (Lexer.lexemes source).tokens, t.isWord "class" = false) →
      ((∃ f, SourceFile.ofSource name source = .ok f) ↔
        ∃ trees, Tree.ofLexemes (Lexer.lexemes source).lexemes = .ok trees) := by
  refine ⟨fun ts hc => Reader.sequence_of_classFree hc,
    fun opening children closing ps => ParameterList.ofGroup_of_classFree, fun c hc => ?_,
    fun name source => SourceFile.exists_ofSource_iff name⟩
  have hrest : Tree.ClassFree c.rest := hc.drop _
  refine ⟨fun conditional => ?_, ?_, ?_, ?_⟩
  · exact Cursor.passes_of_yields (Reader.type_of_classFree hrest _ conditional)
  · exact Cursor.passes_of_yields (Reader.typeReference_of_classFree hrest _)
  · exact Cursor.passes_of_yields (Reader.typeArguments_of_classFree hrest _)
  · exact Cursor.passes_of_yields (Reader.typeParameters_of_classFree hrest _)

/-- A parameter; its type starts at the fourth tree. -/
def parameterTarget : String := "a?: Map<A, B[]> = await f"

def parameterBrackets : Lexeme × Lexeme :=
  (⟨⟨.openParen, "", "("⟩, 0⟩, ⟨⟨.closeParen, "", ")"⟩, 26⟩)

theorem parameterTarget_lossless : ∃ trees,
    Tree.ofLexemes (Lexer.lexemes parameterTarget).lexemes = .ok trees ∧
    (∃ ns, Reader.sequence none none trees = .ok ns ∧
      Node.tokensAll ns = Tree.tokensAll trees) ∧
    (∃ ps, ParameterList.ofGroup parameterBrackets.1 trees parameterBrackets.2 = .ok ps ∧
      ps.tokens =
        Tree.tokensAll [.group .paren parameterBrackets.1 trees parameterBrackets.2]) ∧
    (∃ ns c, ((Cursor.ofTrees trees).moveTo 3).run (Reader.type · true) = (.ok ns, c) ∧
      Node.tokensAll ns = Tree.tokensAll (c.since 3)) ∧
    ∃ f, SourceFile.ofSource "a.ts" parameterTarget = .ok f := by
  obtain ⟨hsequence, hparameters, hcursor, hsource⟩ := classFree_lossless
  have hfree : ∀ t ∈ (Lexer.lexemes parameterTarget).tokens, t.isWord "class" = false := by
    decide +kernel
  have hread : (Tree.ofLexemes (Lexer.lexemes parameterTarget).lexemes).toOption.map
      (fun trees =>
        ((ParameterList.ofGroup parameterBrackets.1 trees parameterBrackets.2).isOk,
          (((Cursor.ofTrees trees).moveTo 3).run (Reader.type · true)).1.isOk)) =
      some (true, true) := by
    decide +kernel
  obtain ⟨trees, htrees, hboth⟩ := Option.map_eq_some_iff.1 hread
  have htrees := toOption_eq_some_iff.1 htrees
  obtain ⟨hp, ht⟩ := Prod.mk.inj hboth
  have hclass := Tree.classFree_of_ofLexemes hfree htrees
  refine ⟨trees, htrees, hsequence trees hclass none none, ?_, ?_,
    (hsource "a.ts" parameterTarget hfree).2 ⟨trees, htrees⟩⟩
  · cases hps : ParameterList.ofGroup parameterBrackets.1 trees parameterBrackets.2 with
    | error fault => simp [hps, Except.isOk, Except.toBool] at hp
    | ok ps => exact ⟨ps, rfl, hparameters _ _ _ _ hclass hps⟩
  · cases hrun : ((Cursor.ofTrees trees).moveTo 3).run (Reader.type · true) with
    | mk result c =>
      cases result with
      | error fault => simp [hrun, Except.isOk, Except.toBool] at ht
      | ok ns => exact ⟨ns, c, rfl, ((hcursor _ hclass).1 true ns c hrun).2⟩

end TwinClasses
