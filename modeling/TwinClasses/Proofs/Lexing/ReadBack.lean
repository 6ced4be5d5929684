import TwinClasses.Proofs.Lexing.Bounds

set_option autoImplicit false

/-! Reading printed tokens. The text of some tokens is read as these tokens if and only if each of
them is what the lexer finds where it stands, given the tokens in front of it and the text after it.
-/

namespace TwinClasses.Lexer

/-- The tokens of a text and the trivia after the last of them. -/
def Lexemes.content (ls : Lexemes) : List Token × String := (ls.tokens, ls.trailing)

theorem content_foldTrivia (offset offset' : Nat) (pending : String) (ps : List Piece) :
    (foldTrivia offset pending ps).content = (foldTrivia offset' pending ps).content := by
  induction ps generalizing offset offset' pending with
  | nil => rfl
  | cons p ps ih =>
    cases hp : p.kind.isTrivia with
    | true => rw [foldTrivia_of_isTrivia hp, foldTrivia_of_isTrivia hp, ih]
    | false =>
      have hrest := ih (offset + Text.byteLength p.text) (offset' + Text.byteLength p.text) ""
      obtain ⟨htokens, htrailing⟩ := Prod.mk.inj hrest
      rw [Lexemes.content, tokens_foldTrivia hp, trailing_foldTrivia hp, htokens, htrailing,
        Lexemes.content, tokens_foldTrivia hp, trailing_foldTrivia hp]

namespace Context

/-- What is read of a text, some trivia in front of it having been read. -/
def content (ctx : Context) (pending : String) (cs : List Char) : List Token × String :=
  (foldTrivia 0 pending (piecesFrom ctx cs)).content

variable {ctx : Context} {pending : String} {c : Char} {cs : List Char}

theorem content_nil : ctx.content pending [] = ([], pending) := by
  simp [content, piecesFrom, foldTrivia, Lexemes.content, Lexemes.tokens]

theorem content_of_isTrivia (h : (ctx.next c cs).1.isTrivia = true) :
    ctx.content pending (c :: cs) =
      ctx.content (pending ++ String.ofList (c :: cs.take (ctx.next c cs).2.1))
        (cs.drop (ctx.next c cs).2.1) := by
  obtain ⟨hk, hn⟩ := next_of_isTrivia h
  rw [hn] at h ⊢
  rw [content, piecesFrom, hn]
  simp only [after, h, if_true]
  rw [foldTrivia_of_isTrivia h]
  exact content_foldTrivia _ _ _ _

theorem content_of_token {kind : Kind} {n : Nat} {braces : List BraceUse}
    (hn : ctx.next c cs = (kind, n, braces)) (hk : kind.isTrivia = false) :
    ctx.content pending (c :: cs) =
      let rest := (ctx.after ⟨kind, c :: cs.take n⟩ braces).content "" (cs.drop n)
      (⟨kind, pending, String.ofList (c :: cs.take n)⟩ :: rest.1, rest.2) := by
  have hp : (Piece.mk kind (c :: cs.take n)).kind.isTrivia = false := hk
  rw [content, piecesFrom, hn]
  simp only
  rw [Lexemes.content, tokens_foldTrivia hp, trailing_foldTrivia hp, content,
    content_foldTrivia 0 (0 + Text.byteLength (c :: cs.take n))]
  rfl

/-- Trivia that was read stays in front of the first token. -/
theorem leading_of_content {t : Token} {ts : List Token} {trailing : String}
    (h : ctx.content pending cs = (t :: ts, trailing)) : ∃ s, t.leading = pending ++ s := by
  generalize hlen : cs.length = len
  induction len using Nat.strong_induction_on generalizing pending cs with
  | _ len ih =>
    cases cs with
    | nil => simp [content_nil] at h
    | cons c cs =>
      cases hk : (ctx.next c cs).1.isTrivia with
      | true =>
        rw [content_of_isTrivia hk] at h
        simp only [List.length_cons] at hlen
        obtain ⟨s, hs⟩ := ih _ (by rw [List.length_drop]; omega) h rfl
        exact ⟨_, by rw [hs, String.append_assoc]⟩
      | false =>
        have hnext : ctx.next c cs = (_, (ctx.next c cs).2.1, (ctx.next c cs).2.2) := rfl
        rw [content_of_token hnext hk] at h
        obtain ⟨ht, -⟩ := List.cons.inj (Prod.mk.inj h).1
        exact ⟨"", by simp [← ht]⟩

/-! Passing over trivia. -/

theorem next_space (ctx : Context) (hc : Scan.isSpace c = true) (cs : List Char) :
    ctx.next c cs = (.whitespace, Scan.run Scan.isSpace cs, ctx.braces) := by
  have ht : Scan.token c cs = (.whitespace, Scan.run Scan.isSpace cs) := by simp [Scan.token, hc]
  rw [next_of_token_isTrivia ctx (by rw [ht]; rfl), ht]

theorem content_space (hc : Scan.isSpace c = true) (cs : List Char) :
    ctx.content pending (c :: cs) = ctx.content (pending ++ String.ofList [c]) cs := by
  have hnext := next_space ctx hc cs
  rw [content_of_isTrivia (by rw [hnext]; rfl), hnext]
  simp only
  cases cs with
  | nil => rfl
  | cons d cs =>
    cases hd : Scan.isSpace d with
    | false => rw [Scan.run_cons_of_not hd, List.take_zero, List.drop_zero]
    | true =>
      have hnext' := next_space ctx hd cs
      rw [content_of_isTrivia (c := d) (by rw [hnext']; rfl), hnext', Scan.run_cons hd]
      simp only
      rw [List.take_succ_cons, List.drop_succ_cons, String.append_assoc, ← String.ofList_append]
      rfl

theorem content_line {line : List Char} (h : '\n' ∉ line) (ds : List Char) :
    ctx.content pending ('/' :: '/' :: (line ++ '\n' :: ds)) =
      ctx.content (pending ++ String.ofList ('/' :: '/' :: line)) ('\n' :: ds) := by
  have ht : Scan.token '/' ('/' :: (line ++ '\n' :: ds)) = (.lineComment, 1 + line.length) := by
    rw [← Scan.run_line h ds]
    rfl
  have hnext := next_of_token_isTrivia ctx (by rw [ht]; rfl)
  rw [ht] at hnext
  rw [content_of_isTrivia (by rw [hnext]; rfl), hnext]
  simp [Nat.add_comm 1]

theorem content_last_line {line : List Char} (h : '\n' ∉ line) :
    ctx.content pending ('/' :: '/' :: line) =
      ([], pending ++ String.ofList ('/' :: '/' :: line)) := by
  have hrun : Scan.run (· ≠ '\n') line = line.length := by
    rw [Scan.run, List.takeWhile_eq_self_iff.2]
    intro c hc
    have hne : c ≠ '\n' := fun heq => h (heq ▸ hc)
    simpa using hne
  have ht : Scan.token '/' ('/' :: line) = (.lineComment, 1 + line.length) := by
    rw [← hrun]
    rfl
  have hnext := next_of_token_isTrivia ctx (by rw [ht]; rfl)
  rw [ht] at hnext
  rw [content_of_isTrivia (by rw [hnext]; rfl), hnext]
  simp [Nat.add_comm 1, content_nil]

theorem content_block {block : List Char} (h : Scan.commentLength? block = some block.length)
    (ds : List Char) : ctx.content pending ('/' :: '*' :: (block ++ ds)) =
      ctx.content (pending ++ String.ofList ('/' :: '*' :: block)) ds := by
  have ht : Scan.token '/' ('*' :: (block ++ ds)) = (.blockComment, 1 + block.length) := by
    simp [Scan.token, Scan.isSpace, Scan.isIdentifierStart, Scan.isNameStart,
      (Scan.commentLength?_append h ds).1]
  have hnext := next_of_token_isTrivia ctx (by rw [ht]; rfl)
  rw [ht] at hnext
  rw [content_of_isTrivia (by rw [hnext]; rfl), hnext]
  simp [Nat.add_comm 1]

theorem content_skipped {s : List Char} (hs : Skipped s) (cs : List Char) :
    ctx.content pending (s ++ cs) = ctx.content (pending ++ String.ofList s) cs := by
  induction hs generalizing pending with
  | nil => simp
  | space hc _ ih =>
    rw [List.cons_append, content_space hc, ih, String.append_assoc, ← String.ofList_append]
    rfl
  | line line hline _ ih =>
    rw [List.cons_append, List.cons_append, List.append_assoc, List.cons_append,
      content_line hline, content_space (by decide), ih, String.append_assoc, String.append_assoc,
      ← String.ofList_append, ← String.ofList_append]
    rfl
  | block hblock _ ih =>
    rw [List.cons_append, List.cons_append, List.append_assoc, content_block hblock, ih,
      String.append_assoc, ← String.ofList_append]
    rfl

theorem content_trailing {trailing : String} (h : Waits trailing []) :
    ctx.content "" trailing.toList = ([], trailing) := by
  obtain hs | ⟨⟨a, line, ha, hline, hs⟩, -⟩ := h
  · have hc : ctx.content "" (trailing.toList ++ []) = _ := content_skipped hs []
    rw [List.append_nil, content_nil] at hc
    simpa using hc
  · have ht : trailing = String.ofList a ++ String.ofList ('/' :: '/' :: line) := by
      rw [← String.ofList_append, ← hs, String.ofList_toList]
    rw [hs, content_skipped ha, content_last_line hline, ht]
    simp

/-! Reading back. -/

/-- In a text that starts with the text of `t` and goes on with `rest`, the first token is `t`;
after it, `ctx'` is known. -/
def Takes (ctx : Context) (t : Token) (rest : List Char) (ctx' : Context) : Prop :=
  ∃ c cs braces, t.text.toList = c :: cs ∧ t.kind.isTrivia = false ∧
    ctx.next c (cs ++ rest) = (t.kind, cs.length, braces) ∧
    ctx' = ctx.after ⟨t.kind, c :: cs⟩ braces

/-- Each token is the first of what is left of the text when its turn comes. -/
def Reads (ctx : Context) (trailing : String) : List Token → Prop
  | [] => True
  | t :: ts => ∃ ctx', ctx.Takes t (Token.sourceOf ts ++ trailing).toList ctx' ∧
    ctx'.Reads trailing ts

theorem content_of_takes {t : Token} {rest : List Char} {ctx' : Context}
    (h : ctx.Takes t rest ctx') (hp : pending = t.leading) :
    ctx.content pending (t.text.toList ++ rest) =
      (t :: (ctx'.content "" rest).1, (ctx'.content "" rest).2) := by
  obtain ⟨c, cs, braces, htext, hk, hnext, rfl⟩ := h
  rw [htext, List.cons_append, content_of_token hnext hk, List.take_left, List.drop_left, ← htext,
    hp]
  simp

theorem takes_of_content {t : Token} {ts : List Token} {rest : List Char} {trailing : String}
    (h : ctx.content t.leading (t.text.toList ++ rest) = (t :: ts, trailing))
    (htext : t.text ≠ "") :
    ∃ ctx', ctx.Takes t rest ctx' ∧ ctx'.content "" rest = (ts, trailing) := by
  cases hcs : t.text.toList with
  | nil => exact absurd (String.toList_eq_nil_iff.1 hcs) htext
  | cons c cs =>
    rw [hcs, List.cons_append] at h
    obtain ⟨⟨kind, n, braces⟩, hnext⟩ : ∃ r, ctx.next c (cs ++ rest) = r := ⟨_, rfl⟩
    cases hk : kind.isTrivia with
    | true =>
      rw [content_of_isTrivia (by rw [hnext, hk])] at h
      obtain ⟨s, hs⟩ := leading_of_content h
      have hlen := congrArg String.length hs
      simp only [String.length_append, String.length_ofList, List.length_cons] at hlen
      omega
    | false =>
      rw [content_of_token hnext hk] at h
      obtain ⟨hcons, htrailing⟩ := Prod.mk.inj h
      obtain ⟨ht, hts⟩ := List.cons.inj hcons
      obtain rfl : kind = t.kind := congrArg Token.kind ht
      have htake : (cs ++ rest).take n = cs := by
        have heq := congrArg (fun u => u.text.toList) ht
        simp only [String.toList_ofList, hcs] at heq
        exact (List.cons.inj heq).2
      obtain rfl : n = cs.length := by
        have hle := next_le ctx c (cs ++ rest)
        rw [hnext] at hle
        have hlen := congrArg List.length htake
        rw [List.length_take_of_le hle] at hlen
        exact hlen
      rw [List.drop_left, List.take_left] at hts htrailing
      exact ⟨_, ⟨c, cs, braces, hcs, hk, hnext, rfl⟩, Prod.ext hts htrailing⟩

/-- Printed tokens are read back if and only if each of them is found where it stands. -/
theorem content_eq_iff {ts : List Token} {trailing : String}
    (hs : ∀ t ∈ ts, Skipped t.leading.toList) (hne : ∀ t ∈ ts, t.text ≠ "")
    (ht : Waits trailing []) :
    ctx.content "" (Token.sourceOf ts ++ trailing).toList = (ts, trailing) ↔
      ctx.Reads trailing ts := by
  induction ts generalizing ctx with
  | nil =>
    rw [Token.sourceOf_nil, String.empty_append, content_trailing ht]
    simp [Reads]
  | cons t ts ih =>
    obtain ⟨hleading, hleadings⟩ := List.forall_mem_cons.1 hs
    obtain ⟨htext, htexts⟩ := List.forall_mem_cons.1 hne
    have hsource : (Token.sourceOf (t :: ts) ++ trailing).toList =
        t.leading.toList ++ (t.text.toList ++ (Token.sourceOf ts ++ trailing).toList) := by
      simp [Token.source, String.toList_append]
    rw [hsource, content_skipped hleading, String.empty_append, String.ofList_toList]
    constructor
    · intro h
      obtain ⟨ctx', htakes, hrest⟩ := takes_of_content h htext
      exact ⟨ctx', htakes, (ih hleadings htexts).1 hrest⟩
    · rintro ⟨ctx', htakes, hreads⟩
      have hrest : ctx'.content "" _ = (ts, trailing) := (ih hleadings htexts).2 hreads
      rw [content_of_takes htakes rfl, hrest]

end Context

end TwinClasses.Lexer
