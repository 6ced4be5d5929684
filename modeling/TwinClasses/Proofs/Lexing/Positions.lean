import TwinClasses.Proofs.Lexing.Bytes
import TwinClasses.Proofs.Lexing.Spacing

set_option autoImplicit false

/-! Lexing by byte positions. A `Scanner` knows its place in a text by a byte position only, cuts
pieces out of the text by their bytes, looks for the ends of template pieces and regular expressions
among the bytes, and goes on where the last piece has stopped; it gives up where a position is out
of range or inside a character, and where it would not move on. It is shown that it never gives up,
and that it finds the spans of the lexer. -/

namespace TwinClasses

namespace Text

/-- The characters between two byte positions; nothing when one of them is out of range or inside a
character. -/
def slice? (source : String) (start stop : Nat) : Option (List Char) :=
  if String.Pos.Raw.IsValid source ⟨start⟩ ∧ String.Pos.Raw.IsValid source ⟨stop⟩ ∧
      start ≤ stop then
    some (String.Pos.Raw.extract source ⟨start⟩ ⟨stop⟩).toList
  else none

variable {source : String} {before cs after : List Char}

theorem isValid_of_toList (h : source.toList = before ++ after) :
    String.Pos.Raw.IsValid source ⟨byteLength before⟩ := by
  rw [String.Pos.Raw.isValid_iff_exists_append]
  refine ⟨String.ofList before, String.ofList after, ?_, ?_⟩
  · rw [← String.ofList_append, ← h, String.ofList_toList]
  · rw [← String.toList_ofList (l := before), byteLength_toList, String.toList_ofList]
    rfl

theorem slice?_of_toList (h : source.toList = before ++ cs ++ after) :
    slice? source (byteLength before) (byteLength before + byteLength cs) = some cs := by
  have hstop := isValid_of_toList h
  rw [byteLength_append] at hstop
  rw [List.append_assoc] at h
  have hlen : ∀ ds : List Char, byteLength ds = String.utf8Len ds := fun ds => by
    rw [← String.utf8ByteSize_ofList, ← byteLength_toList, String.toList_ofList]
  have hextract := String.extract_of_valid before cs after
  rw [List.append_assoc, ← h, String.ofList_toList, ← hlen, ← hlen] at hextract
  rw [slice?, if_pos ⟨isValid_of_toList h, hstop, Nat.le_add_right _ _⟩, hextract,
    String.toList_ofList]

theorem drop_bytes {c : Char} (h : source.toList = before ++ c :: after) (hc : c.utf8Size = 1) :
    (bytes source.toList).drop (byteLength before + 1) = bytes after := by
  have hlen : byteLength before + 1 = (bytes (before ++ [c])).length := by
    rw [length_bytes, byteLength_append, byteLength_cons, byteLength_nil, hc]
  rw [hlen, h, show before ++ c :: after = (before ++ [c]) ++ after by simp,
    bytes_append (before ++ [c]), List.drop_left]

end Text

namespace Lexer

open Text

/-- The open braces, and the spans found so far, last first. -/
structure Scanner where
  braces : List BraceUse
  spans : List Span

namespace Scanner

def start : Scanner := ⟨[], []⟩

/-- Whether a slash starts a regular expression; nothing when the text in front of it cannot be
cut out. -/
def expectsOperand? (source : String) (s : Scanner) : Option Bool :=
  match s.spans.find? (!·.kind.isTrivia) with
  | none => some true
  | some span => (slice? source span.start span.stop).map fun text =>
      (Context.mk [] (some ⟨span.kind, text⟩)).expectsOperand

/-- The template piece whose first byte is at `start`: its kind, its end and the braces open after
it. -/
def segment (source : String) (resumed : Bool) (braces : List BraceUse) (start : Nat) :
    Kind × Nat × List BraceUse :=
  let bs := bytes source.toList
  match Literal.pieceEndOfBytes? (bs.drop (start + 1)) with
  | some (e, n) => (pieceKind resumed e, start + 1 + n, bracesAfter braces e)
  | none => (.unknown, bs.length, braces)

/-- The operator between two byte positions, or the regular expression that its slash starts. -/
def operator? (source : String) (s : Scanner) (start stop : Nat) :
    Option (Kind × Nat × List BraceUse) :=
  (slice? source start stop).bind fun text =>
    (if text.head? = some '/' then s.expectsOperand? source else some false).map fun expected =>
      match if expected then
          Literal.regexLengthOfBytes? false ((bytes source.toList).drop (start + 1))
        else none with
      | some n => (.regex, start + 1 + n, s.braces)
      | none => (.operator, stop, s.braces)

/-- The kind of the next piece, its end and the braces open after it; `c :: cs` is the text from
`start` on. -/
def next? (source : String) (s : Scanner) (start : Nat) (c : Char) (cs : List Char) :
    Option (Kind × Nat × List BraceUse) :=
  let (kind, n) := Scan.token c cs
  let stop := start + byteLength (c :: cs.take n)
  match kind with
  | .template => some (segment source false s.braces start)
  | .openBrace => some (.openBrace, stop, .block :: s.braces)
  | .closeBrace =>
    match s.braces with
    | .substitution :: braces => some (segment source true braces start)
    | braces => some (.closeBrace, stop, braces.tail)
  | .operator => s.operator? source start stop
  | kind => some (kind, stop, s.braces)

/-- The spans from a byte position on. -/
def spansFrom? (source : String) (s : Scanner) (start : Nat) : Option (List Span) :=
  if _h : start < source.utf8ByteSize then
    match slice? source start source.utf8ByteSize with
    | some (c :: cs) =>
      match s.next? source start c cs with
      | some (kind, stop, braces) =>
        let span : Span := ⟨kind, start, stop⟩
        if _h : start < stop then
          (spansFrom? source ⟨braces, span :: s.spans⟩ stop).map (span :: ·)
        else none
      | none => none
    | _ => none
  else some []
  termination_by source.utf8ByteSize - start

/-- The scanner knows what the lexer knows. -/
structure Agrees (source : String) (s : Scanner) (ctx : Context) : Prop where
  braces : s.braces = ctx.braces
  previous : (s.spans.find? (!·.kind.isTrivia)).map
      (fun span => (span.kind, slice? source span.start span.stop)) =
    ctx.previous.map fun piece => (piece.kind, some piece.text)

variable {source : String} {s : Scanner} {ctx : Context} {before cs : List Char} {c : Char}

theorem Agrees.expectsOperand? (h : s.Agrees source ctx) :
    s.expectsOperand? source = some ctx.expectsOperand := by
  obtain ⟨braces, previous⟩ := ctx
  have hp := h.previous
  unfold Scanner.expectsOperand?
  cases hf : s.spans.find? (!·.kind.isTrivia) with
  | none =>
    rw [hf] at hp
    cases previous with
    | none => rfl
    | some piece => cases hp
  | some span =>
    rw [hf] at hp
    cases previous with
    | none => cases hp
    | some piece =>
      simp only [Option.map_some, Option.some.injEq, Prod.mk.injEq] at hp
      simp only [hp.1, hp.2, Option.map_some]
      rfl

theorem Agrees.after {piece : Piece} {span : Span} {braces : List BraceUse}
    (h : s.Agrees source ctx) (hkind : span.kind = piece.kind)
    (htext : slice? source span.start span.stop = some piece.text) :
    Agrees source ⟨braces, span :: s.spans⟩ (ctx.after piece braces) := by
  refine ⟨rfl, ?_⟩
  simp only [List.find?_cons, hkind, Context.after]
  cases hk : piece.kind.isTrivia with
  | true => exact h.previous
  | false => simp [hkind, htext]

theorem segment_eq (h : source.toList = before ++ c :: cs) (hc : c.utf8Size = 1) (resumed : Bool)
    (braces : List BraceUse) : segment source resumed braces (byteLength before) =
      let (kind, n, braces) := templateSegment resumed braces cs
      (kind, byteLength before + byteLength (c :: cs.take n), braces) := by
  unfold segment
  simp only [drop_bytes h hc, Literal.pieceEndOfBytes?_bytes]
  cases hp : Literal.pieceEnd? cs with
  | none =>
    simp [templateSegment, hp, h, length_bytes]
  | some p =>
    obtain ⟨e, n⟩ := p
    rw [templateSegment_of_pieceEnd? hp]
    simp only [Option.map_some, byteLength_cons, hc, Nat.add_assoc]

theorem slice?_piece (h : source.toList = before ++ c :: cs) (n : Nat) :
    slice? source (byteLength before) (byteLength before + byteLength (c :: cs.take n)) =
      some (c :: cs.take n) := by
  have hsplit : source.toList = before ++ c :: cs.take n ++ cs.drop n := by
    rw [h]
    simp
  exact slice?_of_toList hsplit

theorem operator?_eq (hs : s.Agrees source ctx) (h : source.toList = before ++ c :: cs) (n : Nat) :
    s.operator? source (byteLength before) (byteLength before + byteLength (c :: cs.take n)) =
      match if c = '/' && ctx.expectsOperand then Literal.regexLength? false cs else none with
      | some m => some (.regex, byteLength before + byteLength (c :: cs.take m), ctx.braces)
      | none =>
        some (.operator, byteLength before + byteLength (c :: cs.take n), ctx.braces) := by
  unfold operator?
  rw [slice?_piece h, Option.bind_some, List.head?_cons, hs.braces]
  by_cases hc : c = '/'
  · subst hc
    have hone : '/'.utf8Size = 1 := rfl
    simp only [if_pos, hs.expectsOperand?, Option.map_some, drop_bytes h hone,
      Literal.regexLengthOfBytes?_bytes, decide_true, Bool.true_and]
    cases ctx.expectsOperand with
    | false => rfl
    | true =>
      cases Literal.regexLength? false cs with
      | none => rfl
      | some m => simp [hone, Nat.add_assoc]
  · simp [hc]

/-- The scanner finds what the lexer finds. -/
theorem next?_eq (hs : s.Agrees source ctx) (h : source.toList = before ++ c :: cs) :
    s.next? source (byteLength before) c cs =
      let (kind, n, braces) := ctx.next c cs
      some (kind, byteLength before + byteLength (c :: cs.take n), braces) := by
  unfold next?
  fun_cases Context.next ctx c cs with
  | case1 n ht =>
    obtain rfl := Scan.eq_backtick (congrArg Prod.fst ht)
    simp only [ht, hs.braces]
    rw [segment_eq h rfl]
  | case2 n ht => simp only [ht, hs.braces]
  | case3 n ht braces hb =>
    obtain rfl := Scan.eq_closeBrace (congrArg Prod.fst ht)
    simp only [ht, hs.braces, hb]
    rw [segment_eq h rfl]
  | case4 n ht braces hb => simp only [ht, hs.braces, hb, List.tail_cons]
  | case5 n ht hb => simp only [ht, hs.braces, hb, List.tail_nil]
  | case6 n ht m hm =>
    simp only [ht]
    rw [operator?_eq hs h, hm]
  | case7 n ht hm =>
    simp only [ht]
    rw [operator?_eq hs h, hm]
  | case8 kind n h1 h2 h3 h4 ht =>
    simp only [ht, hs.braces]

/-- The scanner never gives up, and finds the spans of the lexer. -/
theorem spansFrom?_eq (hs : s.Agrees source ctx) (h : source.toList = before ++ cs) :
    s.spansFrom? source (byteLength before) =
      some (Lexer.spansFrom (byteLength before) (piecesFrom ctx cs)) := by
  fun_induction piecesFrom ctx cs generalizing s before with
  | case1 ctx =>
    have hsize : source.utf8ByteSize = byteLength before := by
      rw [← byteLength_toList, h, List.append_nil]
    rw [spansFrom?, dif_neg (by omega)]
    rfl
  | case2 ctx c cs kind n braces hnext piece =>
    rename_i ih
    have hsize : source.utf8ByteSize = byteLength before + byteLength (c :: cs) := by
      rw [← byteLength_toList, h, byteLength_append]
    have hpos := c.utf8Size_pos
    have hlt : byteLength before < source.utf8ByteSize := by
      rw [hsize, byteLength_cons]
      omega
    have hrest : slice? source (byteLength before) source.utf8ByteSize = some (c :: cs) := by
      have hsplit : source.toList = before ++ c :: cs ++ [] := by rw [h, List.append_nil]
      rw [hsize]
      exact slice?_of_toList hsplit
    have hlen : byteLength (before ++ piece.text) = byteLength before + byteLength piece.text :=
      byteLength_append _ _
    have hstop : byteLength before < byteLength (before ++ piece.text) := by
      rw [hlen, byteLength_cons]
      omega
    have htext : source.toList = before ++ piece.text ++ cs.drop n := by
      rw [h]
      simp [piece]
    have hagrees : Agrees source ⟨braces, ⟨kind, byteLength before,
        byteLength (before ++ piece.text)⟩ :: s.spans⟩ (ctx.after piece braces) :=
      hs.after rfl (by rw [hlen]; exact slice?_of_toList htext)
    rw [spansFrom?, dif_pos hlt, hrest]
    simp only [next?_eq hs h, hnext]
    rw [← hlen, dif_pos hstop, ih hagrees htext, Option.map_some,
      Lexer.spansFrom, hlen]

end Scanner

end Lexer

end TwinClasses
