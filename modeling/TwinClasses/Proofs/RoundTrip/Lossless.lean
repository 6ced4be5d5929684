import TwinClasses.Proofs.RoundTrip.Members
import TwinClasses.Syntax.Equality
import TwinClasses.Syntax.SourceFile

set_option autoImplicit false

/-! Reading a file and printing it. All that printing can lose is what accessors have no place for:
a `*` in front of their name, and a mark and type parameters behind it. -/

namespace TwinClasses.SourceFile

variable {name source : String} {f : SourceFile}

theorem ofSource_eq_ok (h : ofSource name source = .ok f) : ∃ trees,
    Tree.ofLexemes (Lexer.lexemes source).lexemes = .ok trees ∧
      Reader.sequence none none trees = .ok f.nodes ∧
      f.trailing = (Lexer.lexemes source).trailing := by
  unfold ofSource at h
  cases ht : Tree.ofLexemes (Lexer.lexemes source).lexemes with
  | error fault => simp [ht, bind, Except.bind] at h
  | ok trees =>
    cases hs : Reader.sequence none none trees with
    | error fault => simp [ht, hs, bind, Except.bind] at h
    | ok nodes =>
      simp only [ht, hs, bind, Except.bind, Except.ok.injEq] at h
      subst h
      exact ⟨trees, rfl, hs, rfl⟩

theorem allReadFrom_ofSource (h : ofSource name source = .ok f) : ∃ trees,
    Tree.tokensAll trees = (Lexer.lexemes source).tokens ∧ Node.AllReadFrom f.nodes trees := by
  obtain ⟨trees, ht, hs, -⟩ := ofSource_eq_ok h
  refine ⟨trees, ?_, ?_⟩
  · rw [Tree.tokensAll, Tree.lexemesAll_of_ofLexemes ht]
    rfl
  · exact (Reader.readersSound (Tree.weightAll trees + 1)).sequence _ _ _ _ (by omega) hs

theorem isFilled_ofSource (h : ofSource name source = .ok f) :
    Node.EveryOf Node.IsFilled f.nodes := by
  obtain ⟨trees, -, hr⟩ := allReadFrom_ofSource h
  exact hr.2.mono fun _ => Node.IsWritten.isFilled

/-- The tokens of a text are those of its tree, up to what the gaps of its accessors held. -/
theorem fills_ofSource (h : ofSource name source = .ok f) :
    ∃ lost, Fills (Node.outlineAll f.nodes) (Lexer.lexemes source).tokens lost := by
  obtain ⟨trees, ht, hr⟩ := allReadFrom_ofSource h
  obtain ⟨lost, hl⟩ := hr.1
  rw [ht] at hl
  exact ⟨lost, hl⟩

theorem mem_lexemes_of_mem_tokens {t : Token} (h : ofSource name source = .ok f)
    (ht : t ∈ Node.tokensAll f.nodes) : t ∈ (Lexer.lexemes source).tokens := by
  obtain ⟨lost, hl⟩ := fills_ofSource h
  rw [← Node.tokens_outlineAll] at ht
  exact hl.sublist.subset ht

theorem source_eq (h : ofSource name source = .ok f) :
    f.source = Token.sourceOf (Spot.tokens (Node.outlineAll f.nodes))
      ++ (Lexer.lexemes source).trailing := by
  obtain ⟨trees, -, -, ht⟩ := ofSource_eq_ok h
  rw [SourceFile.source, Node.sourceAll, Node.tokens_outlineAll, ht]

/-- The text is as long as what is printed and what is lost. -/
theorem length_source {lost : List Token} (h : ofSource name source = .ok f)
    (hl : Fills (Node.outlineAll f.nodes) (Lexer.lexemes source).tokens lost) :
    source.length = f.source.length + (Token.sourceOf lost).length := by
  have hs := congrArg String.length (Lexer.sourceOf_lexemes source)
  rw [String.length_append, hl.length_sourceOf] at hs
  rw [source_eq h, String.length_append]
  omega

theorem lost_eq_nil {lost : List Token} (h : ofSource name source = .ok f)
    (hl : Fills (Node.outlineAll f.nodes) (Lexer.lexemes source).tokens lost)
    (hle : source.length ≤ f.source.length) : lost = [] := by
  have hlen := length_source h hl
  have hzero : (Token.sourceOf lost).length = 0 := by omega
  by_cases hne : lost = []
  · exact hne
  · refine absurd (String.length_eq_zero_iff.1 hzero) (Token.sourceOf_ne_empty hne ?_)
    intro t ht
    exact Lexer.text_ne_empty_of_mem_lexemes source t (hl.lost_sublist.subset ht)

theorem source_eq_source {lost : List Token} (h : ofSource name source = .ok f)
    (hl : Fills (Node.outlineAll f.nodes) (Lexer.lexemes source).tokens lost) :
    f.source = source ↔ lost = [] := by
  constructor
  · intro hs
    exact lost_eq_nil h hl (Nat.le_of_eq (congrArg String.length hs.symm))
  · intro hlost
    rw [source_eq h, ← hl.written_eq hlost, Lexer.sourceOf_lexemes]

/-- What is printed is the text if it is not shorter. -/
theorem source_eq_of_length_le (h : ofSource name source = .ok f)
    (hle : source.length ≤ f.source.length) : f.source = source := by
  obtain ⟨lost, hl⟩ := fills_ofSource h
  exact (source_eq_source h hl).2 (lost_eq_nil h hl hle)

/-- A file is printed as it was written if and only if no accessor was written with something that
its tree has no place for. -/
theorem source_eq_iff_lost_nil (h : ofSource name source = .ok f) :
    ∃ lost, Fills (Node.outlineAll f.nodes) (Lexer.lexemes source).tokens lost ∧
      (f.source = source ↔ lost = []) := by
  obtain ⟨lost, hl⟩ := fills_ofSource h
  exact ⟨lost, hl, source_eq_source h hl⟩

theorem printed_generator_getter :
    (ofSource "a.ts" "class A { get *b() {} }").toOption.map SourceFile.source =
      some "class A { getb() {} }" := by
  decide +kernel

/-- The `*` of an accessor is lost. -/
theorem exists_lost_of_generator_getter : ∃ f lost,
    ofSource "a.ts" "class A { get *b() {} }" = .ok f ∧
      Fills (Node.outlineAll f.nodes) (Lexer.lexemes "class A { get *b() {} }").tokens lost ∧
      f.source = "class A { getb() {} }" ∧ lost ≠ [] := by
  have hp := printed_generator_getter
  cases h : ofSource "a.ts" "class A { get *b() {} }" with
  | error d => simp [h, Except.toOption] at hp
  | ok f =>
    have hs : f.source = "class A { getb() {} }" := by simpa [h, Except.toOption] using hp
    obtain ⟨lost, hl, hiff⟩ := source_eq_iff_lost_nil h
    refine ⟨f, lost, rfl, hl, hs, ?_⟩
    intro hn
    have heq := hs.symm.trans (hiff.2 hn)
    exact absurd heq (by decide)

theorem not_source_eq : ¬ ∀ (name source : String) (f : SourceFile),
    ofSource name source = .ok f → f.source = source := by
  intro hall
  have hp := printed_generator_getter
  cases h : ofSource "a.ts" "class A { get *b() {} }" with
  | error d => simp [h, Except.toOption] at hp
  | ok f =>
    have hs : f.source = "class A { getb() {} }" := by simpa [h, Except.toOption] using hp
    have heq := hs.symm.trans (hall _ _ _ h)
    exact absurd heq (by decide)

/-- Without accessors nothing is lost. -/
theorem source_eq_of_gapless (h : ofSource name source = .ok f)
    (hg : ∀ g, Spot.gap g ∉ Node.outlineAll f.nodes) : f.source = source := by
  obtain ⟨lost, hl⟩ := fills_ofSource h
  exact (source_eq_source h hl).2 (hl.lost_eq_nil hg)

end TwinClasses.SourceFile
