import TwinClasses.Syntax.Tokens
import TwinClasses.Token.Lexer

set_option autoImplicit false

/-! Lexemes of a text. Printed, and followed by the trivia after the last of them, they are the text
again, and none of them is empty. -/

namespace TwinClasses

@[simp] theorem Token.sourceOf_nil : Token.sourceOf [] = "" := rfl

@[simp] theorem Token.sourceOf_cons (t : Token) (ts : List Token) :
    Token.sourceOf (t :: ts) = t.source ++ Token.sourceOf ts := by
  simp [Token.sourceOf, String.join_cons]

@[simp] theorem Token.sourceOf_append (ts us : List Token) :
    Token.sourceOf (ts ++ us) = Token.sourceOf ts ++ Token.sourceOf us := by
  simp [Token.sourceOf, String.join_append]

theorem Token.sourceOf_ne_empty {ts : List Token} (hts : ts ≠ [])
    (h : ∀ t ∈ ts, t.text ≠ "") : Token.sourceOf ts ≠ "" := by
  cases ts with
  | nil => exact absurd rfl hts
  | cons t ts =>
    have ht := h t List.mem_cons_self
    simp [Token.source, ht]

namespace Lexer

/-- The tokens of the text, without their places. -/
def Lexemes.tokens (ls : Lexemes) : List Token := ls.lexemes.map Lexeme.toToken

theorem text_ne_nil_of_mem_piecesFrom (ctx : Context) (cs : List Char) :
    ∀ p ∈ piecesFrom ctx cs, p.text ≠ [] := by
  fun_induction piecesFrom ctx cs with
  | case1 => simp
  | case2 ctx c cs kind n braces h piece ih =>
    intro p hp
    cases List.mem_cons.1 hp with
    | inl hp =>
      rw [hp]
      simp [piece]
    | inr hp => exact ih p hp

theorem foldTrivia_of_isTrivia {p : Piece} (h : p.kind.isTrivia = true) (offset : Nat)
    (pending : String) (ps : List Piece) : foldTrivia offset pending (p :: ps) =
      foldTrivia (offset + Text.byteLength p.text) (pending ++ String.ofList p.text) ps := by
  simp only [foldTrivia, h, if_true]

theorem tokens_foldTrivia {p : Piece} (h : p.kind.isTrivia = false) (offset : Nat)
    (pending : String) (ps : List Piece) : (foldTrivia offset pending (p :: ps)).tokens =
      ⟨p.kind, pending, String.ofList p.text⟩ ::
        (foldTrivia (offset + Text.byteLength p.text) "" ps).tokens := by
  simp [foldTrivia, h, Lexemes.tokens]

theorem trailing_foldTrivia {p : Piece} (h : p.kind.isTrivia = false) (offset : Nat)
    (pending : String) (ps : List Piece) : (foldTrivia offset pending (p :: ps)).trailing =
      (foldTrivia (offset + Text.byteLength p.text) "" ps).trailing := by
  simp [foldTrivia, h]

theorem sourceOf_foldTrivia (offset : Nat) (pending : String) (ps : List Piece) :
    Token.sourceOf (foldTrivia offset pending ps).tokens ++
      (foldTrivia offset pending ps).trailing =
        pending ++ String.ofList (ps.flatMap Piece.text) := by
  induction ps generalizing offset pending with
  | nil => simp [foldTrivia, Lexemes.tokens]
  | cons p ps ih =>
    cases hp : p.kind.isTrivia with
    | true =>
      rw [foldTrivia_of_isTrivia hp, ih, List.flatMap_cons, String.ofList_append,
        String.append_assoc]
    | false =>
      rw [tokens_foldTrivia hp, trailing_foldTrivia hp, Token.sourceOf_cons, String.append_assoc,
        ih, List.flatMap_cons, String.ofList_append]
      simp [Token.source, String.append_assoc]

/-- The tokens of a text and its last trivia make up the text. -/
theorem sourceOf_lexemes (source : String) :
    Token.sourceOf (lexemes source).tokens ++ (lexemes source).trailing = source := by
  rw [lexemes, sourceOf_foldTrivia, pieces, flatMap_piecesFrom]
  simp

theorem text_ne_empty_of_mem_foldTrivia (offset : Nat) (pending : String) (ps : List Piece)
    (h : ∀ p ∈ ps, p.text ≠ []) : ∀ t ∈ (foldTrivia offset pending ps).tokens, t.text ≠ "" := by
  induction ps generalizing offset pending with
  | nil => simp [foldTrivia, Lexemes.tokens]
  | cons p ps ih =>
    have hps : ∀ q ∈ ps, q.text ≠ [] := fun q hq => h q (List.mem_cons_of_mem _ hq)
    cases hp : p.kind.isTrivia with
    | true =>
      rw [foldTrivia_of_isTrivia hp]
      exact ih _ _ hps
    | false =>
      intro t ht
      rw [tokens_foldTrivia hp] at ht
      cases List.mem_cons.1 ht with
      | inl ht =>
        rw [ht]
        simpa using h p List.mem_cons_self
      | inr ht => exact ih _ _ hps t ht

theorem text_ne_empty_of_mem_lexemes (source : String) :
    ∀ t ∈ (lexemes source).tokens, t.text ≠ "" :=
  text_ne_empty_of_mem_foldTrivia _ _ _ (text_ne_nil_of_mem_piecesFrom _ _)

end Lexer

end TwinClasses
