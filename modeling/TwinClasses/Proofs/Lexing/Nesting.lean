import TwinClasses.Proofs.Lexemes
import TwinClasses.Proofs.Lexing.Spacing
import TwinClasses.Proofs.Success
import TwinClasses.Syntax.Tree

set_option autoImplicit false

/-! Two stacks over one text. The lexer keeps its open braces to tell a closing brace from the end of
a substitution, the builder keeps its open groups to match the brackets. Where the builder goes on,
its blocks and templates are the braces of the lexer, so it can only find the wrong bracket where a
parenthesis or a square bracket is still open. -/

namespace TwinClasses

/-- What the lexer takes an open group for; it knows nothing of parentheses and square brackets. -/
def Delimiter.braceUse? : Delimiter → Option Lexer.BraceUse
  | brace => some .block
  | template => some .substitution
  | paren | bracket => none

theorem Delimiter.eq_paren_or_bracket {d : Delimiter} (h : d.braceUse? = none) :
    d = .paren ∨ d = .bracket := by
  cases d <;> simp_all [braceUse?]

namespace Tree.Builder

/-- The open groups that the lexer knows of, innermost first. -/
def braceUses (b : Builder) : List Lexer.BraceUse := b.frames.filterMap (·.delimiter.braceUse?)

/-- What the builder may find wrong with a token: a middle or a tail of a template is never out of
place at the top, and where it or a closing brace is found, only a parenthesis or a square bracket
may be missing. -/
inductive Blames (l : Lexeme) : Fault → Prop where
  | unexpected (hmiddle : l.kind ≠ .templateMiddle) (htail : l.kind ≠ .templateTail) :
      Blames l (unexpected l)
  | mismatched (d : Delimiter)
      (h : l.kind ∈ [.closeBrace, .templateMiddle, .templateTail] → d = .paren ∨ d = .bracket) :
      Blames l (mismatched l d)

variable {b b' : Builder} {l : Lexeme} {fault : Fault} {bs : List Lexer.BraceUse}

theorem braceUses_eq_cons {frame : Frame} {frames : List Frame} (h : b.frames = frame :: frames) :
    b.braceUses =
      frame.delimiter.braceUse?.toList ++ frames.filterMap (·.delimiter.braceUse?) := by
  rw [braceUses, h, List.filterMap_cons]
  cases frame.delimiter.braceUse? <;> rfl

theorem braceUses_enter (d : Delimiter) (hk : l.kind = d.openKind)
    (hn : Lexer.nest b.braceUses l.kind = some bs) : (b.enter d l).braceUses = bs := by
  rw [hk] at hn
  cases d <;> cases hn <;> rfl

theorem braceUses_resume (hk : l.kind = .templateMiddle)
    (hn : Lexer.nest b.braceUses l.kind = some bs) (h : b.resume l = .ok b') :
    b'.braceUses = bs := by
  rw [hk] at hn
  obtain ⟨outer, hb, rfl⟩ := Lexer.braces_of_nest (e := .substitution) hn
  unfold resume at h
  split at h
  · cases h
  · split at h
    · cases h
      exact hb
    · cases h

theorem braceUses_leave (hn : Lexer.nest b.braceUses l.kind = some bs) (h : b.leave l = .ok b') :
    b'.braceUses = bs := by
  unfold leave at h
  split at h
  · cases h
  · rename_i d opening before frames hf
    split at h
    · rename_i hk
      cases h
      rw [braceUses_eq_cons hf, ← hk] at hn
      cases d <;> cases hn <;> rfl
    · cases h

theorem blames_resume (hk : l.kind = .templateMiddle)
    (hn : Lexer.nest b.braceUses l.kind = some bs) (h : b.resume l = .error fault) :
    Blames l fault := by
  rw [hk] at hn
  obtain ⟨outer, hb, -⟩ := Lexer.braces_of_nest (e := .substitution) hn
  unfold resume at h
  split at h
  · rename_i hf
    rw [braceUses, hf] at hb
    cases hb
  · rename_i frame frames hf
    split at h
    · cases h
    · rename_i hd
      cases h
      refine .mismatched _ fun _ => ?_
      rw [braceUses_eq_cons hf] at hb
      cases hframe : frame.delimiter <;> simp_all [Delimiter.braceUse?]

/-- A closing brace, a middle or a tail that nests fits the innermost group the lexer knows of. -/
theorem closeKind_eq_of_nest {d : Delimiter} {use : Lexer.BraceUse} {outer : List Lexer.BraceUse}
    (hd : d.braceUse? = some use) (hn : Lexer.nest (use :: outer) l.kind = some bs)
    (hbrace : l.kind ∈ [.closeBrace, .templateTail]) :
    d.closeKind = l.kind := by
  simp only [List.mem_cons, List.not_mem_nil, or_false] at hbrace
  rcases hbrace with hk | hk <;> rw [hk] at hn ⊢ <;> cases d <;> cases hd <;> cases hn <;> rfl

theorem blames_leave (hclose : l.kind.isCloseBracket = true)
    (hn : Lexer.nest b.braceUses l.kind = some bs) (h : b.leave l = .error fault) :
    Blames l fault := by
  have hmiddle : l.kind ≠ .templateMiddle := by
    intro hk
    rw [hk] at hclose
    cases hclose
  unfold leave at h
  split at h
  · rename_i hf
    cases h
    refine .unexpected hmiddle fun hk => ?_
    rw [braceUses, hf, hk] at hn
    cases hn
  · rename_i d opening before frames hf
    split at h
    · cases h
    · rename_i hd
      cases h
      refine .mismatched d fun hk => Delimiter.eq_paren_or_bracket ?_
      rw [braceUses_eq_cons hf] at hn
      cases huse : d.braceUse? with
      | none => rfl
      | some use =>
        rw [huse] at hn
        refine absurd (closeKind_eq_of_nest huse hn ?_) hd
        simpa [hmiddle] using hk

theorem nest_of_flat (hopen : Delimiter.ofOpenKind? l.kind = none)
    (hmiddle : l.kind ≠ .templateMiddle) (hclose : l.kind.isCloseBracket = false)
    (bs : List Lexer.BraceUse) :
    Lexer.nest bs l.kind = some bs := by
  revert hopen hmiddle hclose
  cases l.kind <;> simp [Delimiter.ofOpenKind?, Kind.isCloseBracket, Lexer.nest]

/-- A step that goes on keeps the builder with the lexer. -/
theorem braceUses_step (hn : Lexer.nest b.braceUses l.kind = some bs) (h : b.step l = .ok b') :
    b'.braceUses = bs := by
  unfold step at h
  split at h
  · rename_i d hd
    cases h
    exact braceUses_enter d (Delimiter.ofOpenKind?_eq_some_iff.1 hd) hn
  · rename_i hopen
    split at h
    · rename_i hk
      exact braceUses_resume hk hn h
    · rename_i hmiddle
      split at h
      · exact braceUses_leave hn h
      · rename_i hclose
        cases h
        rw [nest_of_flat hopen hmiddle (by simpa using hclose)] at hn
        exact Option.some.inj hn

/-- A step that fails blames the token for a parenthesis or a square bracket, or as one too many. -/
theorem blames_step (hn : Lexer.nest b.braceUses l.kind = some bs) (h : b.step l = .error fault) :
    Blames l fault := by
  unfold step at h
  split at h
  · cases h
  · split at h
    · rename_i hk
      exact blames_resume hk hn h
    · split at h
      · rename_i hclose
        exact blames_leave hclose hn h
      · cases h

/-- A group that is never closed was opened by a token. -/
theorem unclosed_of_finish (h : b.finish = .error fault) :
    ∃ l ∈ b.lexemes, fault = ⟨.unclosed l.text, some l.offset⟩ := by
  unfold finish at h
  split at h
  · cases h
  · rename_i frame frames hf
    cases h
    refine ⟨frame.opening, ?_, rfl⟩
    simp [lexemes, hf, Frame.lexemes]

end Tree.Builder

namespace Lexer

/-- What the lexer knows after `n` pieces, and the text that it has not read. -/
def Context.afterPieces : Nat → Context → List Char → Context × List Char
  | 0, ctx, cs => (ctx, cs)
  | _ + 1, ctx, [] => (ctx, [])
  | n + 1, ctx, c :: cs =>
    let (kind, m, braces) := ctx.next c cs
    afterPieces n (ctx.after ⟨kind, c :: cs.take m⟩ braces) (cs.drop m)

/-- The last piece goes on with a template after a substitution and finds no end. -/
def EndsResumed (ps : List Piece) : Prop :=
  ∃ before cs, ps = before ++ [⟨.unknown, '\x7d' :: cs⟩] ∧ Literal.pieceEnd? cs = none

theorem EndsResumed.cons {ps : List Piece} (h : EndsResumed ps) (p : Piece) :
    EndsResumed (p :: ps) := by
  obtain ⟨before, cs, rfl, hend⟩ := h
  exact ⟨p :: before, cs, rfl, hend⟩

/-- The tokens of the first `n` pieces of a text. -/
def lexemesOfPieces (source : String) (n : Nat) : List Lexeme :=
  (foldTrivia 0 "" ((pieces source).take n)).lexemes

variable {ctx : Context} {c : Char} {cs : List Char} {k : Kind} {n : Nat} {braces : List BraceUse}

/-- What is no token nests, too, unless it goes on with a template. -/
theorem nest_or_resumed (h : ctx.next c cs = (k, n, braces)) :
    nest ctx.braces k = some braces ∨
      k = .unknown ∧ c = '\x7d' ∧ n = cs.length ∧ Literal.pieceEnd? cs = none ∧
        ctx.braces = .substitution :: braces := by
  by_cases hu : k = .unknown
  · subst hu
    revert h
    fun_cases Context.next ctx c cs with
    | case1 m ht =>
      cases hp : Literal.pieceEnd? cs with
      | none =>
        rw [templateSegment, hp]
        rintro ⟨⟩
        exact .inl rfl
      | some p =>
        obtain ⟨e, m⟩ := p
        rw [templateSegment_of_pieceEnd? hp]
        cases e <;> rintro ⟨⟩
    | case3 m ht bs hb =>
      cases hp : Literal.pieceEnd? cs with
      | none =>
        rw [templateSegment, hp]
        rintro ⟨⟩
        exact .inr ⟨rfl, Scan.eq_closeBrace (congrArg Prod.fst ht), rfl, rfl, hb⟩
      | some p =>
        obtain ⟨e, m⟩ := p
        rw [templateSegment_of_pieceEnd? hp]
        cases e <;> rintro ⟨⟩
    | case8 kind m h1 h2 h3 h4 ht =>
      rintro ⟨⟩
      exact .inl rfl
    | _ => rintro ⟨⟩
  · exact .inl (nest_of_next h hu)

theorem nest_of_isTrivia (hk : k.isTrivia = true) (bs : List BraceUse) : nest bs k = some bs := by
  cases k <;> first | rfl | cases hk

theorem lexemes_foldTrivia {p : Piece} (h : p.kind.isTrivia = false) (offset : Nat)
    (pending : String) (ps : List Piece) : (foldTrivia offset pending (p :: ps)).lexemes =
      ⟨⟨p.kind, pending, String.ofList p.text⟩, offset⟩ ::
        (foldTrivia (offset + Text.byteLength p.text) "" ps).lexemes := by
  simp [foldTrivia, h]

/-- The pieces that are left are those of the text that is left. -/
theorem piecesFrom_drop (n : Nat) (ctx : Context) (cs : List Char) : (piecesFrom ctx cs).drop n =
    piecesFrom (ctx.afterPieces n cs).1 (ctx.afterPieces n cs).2 := by
  induction n generalizing ctx cs with
  | zero => rfl
  | succ n ih =>
    cases cs with
    | nil => simp [Context.afterPieces, piecesFrom]
    | cons c cs =>
      rw [piecesFrom, List.drop_succ_cons, ih]
      rfl

theorem lexemes_take_isPrefix (n : Nat) (offset : Nat) (pending : String) (ps : List Piece) :
    (foldTrivia offset pending (ps.take n)).lexemes <+: (foldTrivia offset pending ps).lexemes := by
  induction ps generalizing n offset pending with
  | nil => simp
  | cons p ps ih =>
    cases n with
    | zero => exact List.nil_prefix
    | succ n =>
      rw [List.take_succ_cons]
      cases hp : p.kind.isTrivia with
      | true =>
        rw [foldTrivia_of_isTrivia hp, foldTrivia_of_isTrivia hp]
        exact ih _ _ _
      | false =>
        rw [lexemes_foldTrivia hp, lexemes_foldTrivia hp]
        exact List.cons_prefix_cons.2 ⟨rfl, ih _ _ _⟩

open TwinClasses.Tree (Builder)

/-- The blocks and templates of the builder are the braces that the lexer has open after `n` pieces,
but for one substitution more once these are all and the last one goes on with a template that does
not end. -/
def KnowsBraces (b : Builder) (ctx : Context) (cs : List Char) (n : Nat) : Prop :=
  b.braceUses = (ctx.afterPieces n cs).1.braces ∨
    (piecesFrom ctx cs).drop n = [] ∧ EndsResumed (piecesFrom ctx cs) ∧
      b.braceUses = .substitution :: (ctx.afterPieces n cs).1.braces

variable {b b' : Builder} {offset : Nat} {pending : String} {fault : Fault}

theorem KnowsBraces.next (hnext : ctx.next c cs = (k, n, braces)) {m : Nat}
    (h : KnowsBraces b (ctx.after ⟨k, c :: cs.take n⟩ braces) (cs.drop n) m) :
    KnowsBraces b ctx (c :: cs) (m + 1) := by
  rw [KnowsBraces, piecesFrom, hnext]
  simp only [Context.afterPieces, hnext, List.drop_succ_cons]
  obtain hsame | ⟨hdrop, hends, hmore⟩ := h
  · exact .inl hsame
  · exact .inr ⟨hdrop, hends.cons _, hmore⟩

/-- A piece that goes on with a template and does not end leaves the substitution with the builder.
-/
theorem knowsBraces_of_resumed (hnext : ctx.next '\x7d' cs = (.unknown, cs.length, braces))
    (hend : Literal.pieceEnd? cs = none) (hb : b.braceUses = .substitution :: braces) (m : Nat) :
    KnowsBraces b ctx ('\x7d' :: cs) (m + 1) := by
  rw [KnowsBraces, piecesFrom, hnext]
  simp only [Context.afterPieces, hnext, List.drop_succ_cons, List.drop_length, List.take_length,
    piecesFrom]
  refine .inr ⟨List.drop_nil, ⟨[], cs, rfl, hend⟩, ?_⟩
  cases m <;> exact hb

theorem knowsBraces_foldTrivia (m : Nat) (hb : b.braceUses = ctx.braces)
    (h : (foldTrivia offset pending ((piecesFrom ctx cs).take m)).lexemes.foldlM Builder.step b =
      .ok b') : KnowsBraces b' ctx cs m := by
  induction m generalizing ctx cs b offset pending with
  | zero =>
    cases h
    exact .inl hb
  | succ m ih =>
    cases cs with
    | nil =>
      rw [piecesFrom, List.take_nil] at h
      cases h
      exact .inl hb
    | cons c cs =>
      obtain ⟨⟨kind, n, braces⟩, hnext⟩ : ∃ r, ctx.next c cs = r := ⟨_, rfl⟩
      rw [piecesFrom, hnext, List.take_succ_cons] at h
      obtain hnest | ⟨rfl, rfl, rfl, hend, hsub⟩ := nest_or_resumed hnext
      · refine KnowsBraces.next hnext ?_
        cases htrivia : kind.isTrivia with
        | true =>
          rw [nest_of_isTrivia htrivia] at hnest
          rw [foldTrivia_of_isTrivia htrivia] at h
          exact ih (hb.trans (Option.some.inj hnest)) h
        | false =>
          rw [lexemes_foldTrivia htrivia, List.foldlM_cons] at h
          obtain ⟨b₁, hstep, h⟩ := (ok_bind _ _ _).1 h
          exact ih (Builder.braceUses_step (hb ▸ hnest) hstep) h
      · rw [List.drop_length, piecesFrom, List.take_nil, lexemes_foldTrivia rfl] at h
        cases h
        exact knowsBraces_of_resumed hnext hend (hb.trans hsub) m

/-- Where the builder fails, it blames the token that it fails at. -/
theorem blames_foldTrivia (hb : b.braceUses = ctx.braces)
    (h : (foldTrivia offset pending (piecesFrom ctx cs)).lexemes.foldlM Builder.step b =
      .error fault) :
    ∃ before l after b',
      (foldTrivia offset pending (piecesFrom ctx cs)).lexemes = before ++ l :: after ∧
      before.foldlM Builder.step b = .ok b' ∧ b'.step l = .error fault ∧
      Builder.Blames l fault := by
  fun_induction piecesFrom ctx cs generalizing b offset pending with
  | case1 ctx => cases h
  | case2 ctx c cs kind n braces hnext piece =>
    rename_i ih
    cases htrivia : kind.isTrivia with
    | true =>
      rw [foldTrivia_of_isTrivia htrivia] at h ⊢
      have hsame : braces = ctx.braces := by
        obtain hnest | ⟨rfl, -⟩ := nest_or_resumed hnext
        · rw [nest_of_isTrivia htrivia] at hnest
          exact (Option.some.inj hnest).symm
        · cases htrivia
      exact ih (hb.trans hsame.symm) h
    | false =>
      rw [lexemes_foldTrivia htrivia] at h ⊢
      rw [List.foldlM_cons] at h
      obtain hnest | ⟨rfl, rfl, rfl, hend, hsub⟩ := nest_or_resumed hnext
      · cases hstep : b.step ⟨⟨kind, pending, String.ofList piece.text⟩, offset⟩ with
        | error f =>
          rw [hstep] at h
          cases h
          exact ⟨[], _, _, b, rfl, rfl, hstep, Builder.blames_step (hb ▸ hnest) hstep⟩
        | ok b₁ =>
          rw [hstep] at h
          obtain ⟨before, l, after, b', hsplit, hfold, hfail, hblames⟩ :=
            ih (Builder.braceUses_step (hb ▸ hnest) hstep) h
          refine ⟨_ :: before, l, after, b', congrArg (_ :: ·) hsplit, ?_, hfail, hblames⟩
          rw [List.foldlM_cons, hstep]
          exact hfold
      · rw [List.drop_length, piecesFrom] at h
        cases h

/-- Lexer and builder agree on what every brace belongs to. As long as the builder goes on, the
blocks and templates it has open are the braces the lexer has open, and where it fails, a middle or
a tail of a template is not one too many, and a closing brace, a middle or a tail is only in the
place of a parenthesis or a square bracket. -/
theorem nesting_agrees (source : String) :
    (∀ n, lexemesOfPieces source n <+: (lexemes source).lexemes ∧
      (pieces source).drop n =
        piecesFrom (Context.start.afterPieces n source.toList).1
          (Context.start.afterPieces n source.toList).2) ∧
    (∀ n b, (lexemesOfPieces source n).foldlM Builder.step .start = .ok b →
      KnowsBraces b .start source.toList n) ∧
    ∀ fault, Tree.ofLexemes (lexemes source).lexemes = .error fault →
      (∃ before l after b, (lexemes source).lexemes = before ++ l :: after ∧
        before.foldlM Builder.step .start = .ok b ∧ b.step l = .error fault ∧
        Builder.Blames l fault) ∨
      ∃ l ∈ (lexemes source).lexemes, fault = ⟨.unclosed l.text, some l.offset⟩ := by
  refine ⟨fun n => ⟨lexemes_take_isPrefix _ _ _ _, piecesFrom_drop _ _ _⟩,
    fun n b h => knowsBraces_foldTrivia n rfl h, fun fault h => ?_⟩
  rw [Tree.ofLexemes] at h
  cases hfold : (lexemes source).lexemes.foldlM Builder.step .start with
  | error f =>
    rw [hfold] at h
    cases h
    exact .inl (blames_foldTrivia rfl hfold)
  | ok b =>
    rw [hfold] at h
    obtain ⟨l, hl, hfault⟩ := Builder.unclosed_of_finish h
    rw [Builder.lexemes_foldlM hfold] at hl
    exact .inr ⟨l, hl, hfault⟩

/-- A block in a substitution; the closing brace is found where its parenthesis is still open. -/
def nestedTarget : String := "\x60a$\x7b \x7bb( \x7d\x60"

theorem nestedTarget_agrees :
    (∃ b, (lexemesOfPieces nestedTarget 5).foldlM Builder.step .start = .ok b ∧
      b.braceUses = [.block, .substitution] ∧ KnowsBraces b .start nestedTarget.toList 5) ∧
    ∃ before l after b, (lexemes nestedTarget).lexemes = before ++ l :: after ∧
      before.foldlM Builder.step .start = .ok b ∧
      b.step l = .error ⟨.mismatched "\x7d" ")", some 9⟩ ∧
      Builder.Blames l ⟨.mismatched "\x7d" ")", some 9⟩ := by
  obtain ⟨-, hsteps, hfaults⟩ := nesting_agrees nestedTarget
  have huses : ((lexemesOfPieces nestedTarget 5).foldlM Builder.step .start).toOption.map
      Builder.braceUses = some [.block, .substitution] := by decide +kernel
  have hfault : Tree.ofLexemes (lexemes nestedTarget).lexemes =
      .error ⟨.mismatched "\x7d" ")", some 9⟩ := by
    have hmatch : (match Tree.ofLexemes (lexemes nestedTarget).lexemes with
        | .error fault => some fault
        | .ok _ => none) = some ⟨.mismatched "\x7d" ")", some 9⟩ := by decide +kernel
    revert hmatch
    cases Tree.ofLexemes (lexemes nestedTarget).lexemes with
    | error fault => exact fun hmatch => congrArg Except.error (Option.some.inj hmatch)
    | ok ts => rintro ⟨⟩
  constructor
  · obtain ⟨b, hb, huses⟩ := Option.map_eq_some_iff.1 huses
    have hb := toOption_eq_some_iff.1 hb
    exact ⟨b, hb, huses, hsteps 5 b hb⟩
  · obtain hblames | ⟨l, -, hl⟩ := hfaults _ hfault
    · exact hblames
    · cases hl

end Lexer

end TwinClasses
