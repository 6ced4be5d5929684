import TwinClasses.Proofs.Lexemes
import TwinClasses.Proofs.Lexing.Positions

set_option autoImplicit false

/-! The spans of a text cut it up without a gap, between characters, and the tokens lie where the
spans say: their texts and the trivia in front of them fill the text from its first byte on. -/

namespace TwinClasses.Lexer

open Text

/-- The spans cut the text from the byte `start` on: none of them is empty, each starts where the
one before it stops, the last one stops at the end of the text, and all of them start and stop
between characters. -/
def Tile (source : String) (start : Nat) : List Span → Prop
  | [] => start = source.utf8ByteSize
  | span :: spans => span.start = start ∧ span.start < span.stop ∧
    String.Pos.Raw.IsValid source ⟨span.start⟩ ∧ String.Pos.Raw.IsValid source ⟨span.stop⟩ ∧
    Tile source span.stop spans

/-- From the byte `start` on, each text follows the trivia in front of it, and this the text before.
-/
def Placed (start : Nat) : List Lexeme → Prop
  | [] => True
  | l :: ls =>
    l.offset = start + l.leading.utf8ByteSize ∧ Placed (l.offset + l.text.utf8ByteSize) ls

def lexemeSpan (l : Lexeme) : Span := ⟨l.kind, l.offset, l.offset + l.text.utf8ByteSize⟩

/-- The text that the source has where the token is. -/
def lexemeSlice? (source : String) (l : Lexeme) : Option (List Char) :=
  slice? source (lexemeSpan l).start (lexemeSpan l).stop

section Pieces

variable {source : String} {before : List Char} {ps : List Piece}

theorem tile_spansFrom (h : source.toList = before ++ ps.flatMap Piece.text)
    (hne : ∀ p ∈ ps, p.text ≠ []) :
    Tile source (byteLength before) (spansFrom (byteLength before) ps) := by
  induction ps generalizing before with
  | nil =>
    rw [List.flatMap_nil, List.append_nil] at h
    rw [spansFrom, Tile, ← byteLength_toList, h]
  | cons p ps ih =>
    rw [List.flatMap_cons, ← List.append_assoc] at h
    obtain ⟨hp, hps⟩ := List.forall_mem_cons.1 hne
    have hstop : byteLength (before ++ p.text) = byteLength before + byteLength p.text :=
      byteLength_append _ _
    have hlt : byteLength before < byteLength before + byteLength p.text := by
      obtain ⟨c, cs, hc⟩ := List.exists_cons_of_ne_nil hp
      have hpos := c.utf8Size_pos
      rw [hc, byteLength_cons]
      omega
    refine ⟨rfl, hlt, ?_, ?_, ?_⟩
    · rw [List.append_assoc] at h
      exact isValid_of_toList h
    · rw [← hstop]
      exact isValid_of_toList h
    · rw [← hstop]
      exact ih h hps

theorem slices_spansFrom (h : source.toList = before ++ ps.flatMap Piece.text) :
    (spansFrom (byteLength before) ps).map (fun span => slice? source span.start span.stop) =
      ps.map fun p => some p.text := by
  induction ps generalizing before with
  | nil => rfl
  | cons p ps ih =>
    rw [List.flatMap_cons, ← List.append_assoc] at h
    simp only [spansFrom, List.map_cons, slice?_of_toList h]
    rw [← byteLength_append, ih h]

end Pieces

theorem byteLength_eq_size_ofList (cs : List Char) :
    byteLength cs = (String.ofList cs).utf8ByteSize := by
  rw [← byteLength_toList, String.toList_ofList]

/-- The trivia that waits for the next token is counted in front of it. -/
theorem placed_foldTrivia (start : Nat) (pending : String) (ps : List Piece) :
    Placed start (foldTrivia (start + pending.utf8ByteSize) pending ps).lexemes := by
  induction ps generalizing start pending with
  | nil => trivial
  | cons p ps ih =>
    cases hp : p.kind.isTrivia with
    | true =>
      have hsize : start + pending.utf8ByteSize + byteLength p.text =
          start + (pending ++ String.ofList p.text).utf8ByteSize := by
        rw [byteLength_eq_size_ofList, String.utf8ByteSize_append, Nat.add_assoc]
      rw [foldTrivia_of_isTrivia hp, hsize]
      exact ih start _
    | false =>
      simp only [foldTrivia, hp, Bool.false_eq_true, if_false]
      refine ⟨rfl, ?_⟩
      rw [byteLength_eq_size_ofList]
      exact ih _ ""

theorem lexemeSpan_foldTrivia (offset : Nat) (pending : String) (ps : List Piece) :
    (foldTrivia offset pending ps).lexemes.map lexemeSpan =
      (spansFrom offset ps).filter (!·.kind.isTrivia) := by
  induction ps generalizing offset pending with
  | nil => rfl
  | cons p ps ih =>
    cases hp : p.kind.isTrivia with
    | true =>
      rw [foldTrivia_of_isTrivia hp, ih, spansFrom, List.filter_cons_of_neg (by simp [hp])]
    | false =>
      rw [spansFrom, List.filter_cons_of_pos (by simp [hp]), ← ih _ ""]
      simp [foldTrivia, hp, lexemeSpan, byteLength_eq_size_ofList]

theorem lexemeSlice?_foldTrivia {source : String} {before : List Char} {ps : List Piece}
    (pending : String) (h : source.toList = before ++ ps.flatMap Piece.text) :
    ∀ l ∈ (foldTrivia (byteLength before) pending ps).lexemes,
      lexemeSlice? source l = some l.text.toList := by
  induction ps generalizing before pending with
  | nil => simp [foldTrivia]
  | cons p ps ih =>
    rw [List.flatMap_cons, ← List.append_assoc] at h
    have hrest := fun pending => ih pending h
    rw [byteLength_append] at hrest
    cases hp : p.kind.isTrivia with
    | true =>
      rw [foldTrivia_of_isTrivia hp]
      exact hrest _
    | false =>
      simp only [foldTrivia, hp, Bool.false_eq_true, if_false, List.forall_mem_cons]
      refine ⟨?_, hrest ""⟩
      rw [String.toList_ofList, ← slice?_of_toList h, byteLength_eq_size_ofList p.text]
      rfl

/-- Byte positions suffice to lex a text: the scanner, which gives up on a position out of range or
inside a character and on a piece that does not bring it forward, finds the spans of the text. They
tile the text, each piece is what stands at its span, and the tokens are at the spans that are no
trivia: with the trivia in front of them and at the end they make up the text, each one follows the
trivia in front of it, and its text is what the source has at its place. -/
theorem spans_tile (source : String) :
    Scanner.start.spansFrom? source 0 = some (spans source) ∧
      Tile source 0 (spans source) ∧
      (spans source).map (fun span => slice? source span.start span.stop) =
        (pieces source).map (fun piece => some piece.text) ∧
      (lexemes source).lexemes.map lexemeSpan = (spans source).filter (!·.kind.isTrivia) ∧
      Token.sourceOf (lexemes source).tokens ++ (lexemes source).trailing = source ∧
      Placed 0 (lexemes source).lexemes ∧
      (lexemes source).lexemes.map (lexemeSlice? source) =
        (lexemes source).lexemes.map (fun l => some l.text.toList) := by
  have h : source.toList = [] ++ (pieces source).flatMap Piece.text := by
    rw [pieces, flatMap_piecesFrom, List.nil_append]
  refine ⟨?_, ?_, ?_, ?_, ?_, ?_, ?_⟩
  · have hagrees : Scanner.start.Agrees source .start := ⟨rfl, rfl⟩
    have hall : source.toList = [] ++ source.toList := rfl
    exact Scanner.spansFrom?_eq hagrees hall
  · exact tile_spansFrom h (text_ne_nil_of_mem_piecesFrom _ _)
  · exact slices_spansFrom h
  · exact lexemeSpan_foldTrivia 0 "" (pieces source)
  · exact sourceOf_lexemes source
  · exact placed_foldTrivia 0 "" (pieces source)
  · exact List.map_congr_left (lexemeSlice?_foldTrivia "" h)

end TwinClasses.Lexer
