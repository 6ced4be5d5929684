import TwinClasses.Proofs.Faults.Readers
import TwinClasses.Proofs.Lexing.Nesting
import TwinClasses.Syntax.SourceFile

set_option autoImplicit false

/-! Where faults are found. Every fault of a source has an offset, at which the token it is about
starts, so it has its place in a line of the source; none of them is put at the end of the source
for want of a better place. -/

namespace TwinClasses

open Text

/-! Lines and columns. -/

/-- The line is that of the character after `before`, and the column its distance in bytes from the
start of the line; both count from one. -/
structure Text.Position.IsAfter (p : Position) (before : List Char) : Prop where
  line : p.line = 1 + before.count '\n'
  column : ∃ lines start, before = lines ++ start ∧ '\n' ∉ start ∧
    (∀ c ∈ lines.getLast?, c = '\n') ∧ p.column = byteLength before - byteLength lines + 1

theorem Text.byteLength_reverse (cs : List Char) : byteLength cs.reverse = byteLength cs := by
  induction cs with
  | nil => rfl
  | cons c cs ih =>
    rw [List.reverse_cons, byteLength_append, ih, byteLength_cons, byteLength_cons, byteLength_nil]
    omega

theorem Text.Position.isAfter_after (before : List Char) :
    (Position.after before).IsAfter before where
  line := Nat.add_comm _ _
  column := by
    have hsplit : before = (before.reverse.dropWhile (· ≠ '\n')).reverse ++
        (before.reverse.takeWhile (· ≠ '\n')).reverse := by
      rw [← List.reverse_append, List.takeWhile_append_dropWhile, List.reverse_reverse]
    refine ⟨_, _, hsplit, ?_, ?_, ?_⟩
    · intro hmem
      have hline := List.mem_takeWhile_imp (List.mem_reverse.1 hmem)
      simp at hline
    · intro c hc
      rw [List.getLast?_reverse] at hc
      have hlast := List.head?_dropWhile_not (· ≠ '\n') before.reverse
      rw [hc] at hlast
      simpa using hlast
    · have hlength := congrArg byteLength hsplit
      rw [byteLength_append, byteLength_reverse (before.reverse.takeWhile _)] at hlength
      change byteLength (before.reverse.takeWhile _) + 1 = _
      omega

/-! Tokens. -/

/-- A token of the source, and its text in the source, start at the offset. -/
structure Lexeme.StartsAt (source : String) (offset : Nat) (l : Lexeme) : Prop where
  mem : l ∈ (Lexer.lexemes source).lexemes
  offset_eq : l.offset = offset
  found : ∃ before after, source.toList = before ++ l.text.toList ++ after ∧
    byteLength before = offset

/-- The text of a token is told by its kind, where the table of symbols has only one. -/
theorem Scan.eq_of_token {c : Char} {cs : List Char} {k : Kind} (text : List Char)
    (h : (token c cs).1 = k) (hk : k.isTrivia = false)
    (hn : k ∉ [.identifier, .privateName, .number, .string, .unknown])
    (htable : ∀ e ∈ symbols, e.2 = k → e.1 = text) : c :: cs.take (token c cs).2 = text := by
  obtain ⟨rest, hmem, ⟨after, rfl⟩, hlength⟩ := mem_symbols_of_token h hk hn
  rw [hlength, List.take_left]
  exact htable _ hmem rfl

namespace Lexer

/-- What the lexer knows of the text before makes no angle bracket. -/
theorem token_of_next_lessThan {ctx : Context} {c : Char} {cs : List Char} {n : Nat}
    {braces : List BraceUse} (h : ctx.next c cs = (.lessThan, n, braces)) :
    Scan.token c cs = (.lessThan, n) := by
  revert h
  fun_cases Context.next ctx c cs with
  | case1 m ht =>
    intro h
    obtain ⟨e, -, he, -⟩ := pieceEnd?_of_templateSegment h (by decide)
    cases e <;> cases he
  | case3 m ht bs hb =>
    intro h
    obtain ⟨e, -, he, -⟩ := pieceEnd?_of_templateSegment h (by decide)
    cases e <;> cases he
  | case8 kind m h1 h2 h3 h4 ht =>
    intro h
    simp only [Prod.mk.injEq] at h
    obtain ⟨rfl, rfl, -⟩ := h
    exact ht
  | _ => rintro ⟨⟩

theorem text_of_mem_piecesFrom (ctx : Context) (cs : List Char) :
    ∀ p ∈ piecesFrom ctx cs, p.kind = .lessThan → p.text = ['<'] := by
  fun_induction piecesFrom ctx cs with
  | case1 => simp
  | case2 ctx c cs kind n braces h piece ih =>
    rw [List.forall_mem_cons]
    refine ⟨?_, ih⟩
    rintro rfl
    have ht := token_of_next_lessThan h
    have hkind : (Scan.token c cs).1 = .lessThan := congrArg Prod.fst ht
    have htext := Scan.eq_of_token ['<'] hkind rfl (by decide) (by decide)
    rwa [ht] at htext

theorem exists_piece_of_mem_foldTrivia {offset : Nat} {ps : List Piece} {pending : String}
    {l : Lexeme} (h : l ∈ (foldTrivia offset pending ps).lexemes) :
    ∃ p ∈ ps, p.kind = l.kind ∧ l.text = String.ofList p.text := by
  induction ps generalizing offset pending with
  | nil => cases h
  | cons p ps ih =>
    have hrest : ∀ {offset pending}, l ∈ (foldTrivia offset pending ps).lexemes →
        ∃ q ∈ p :: ps, q.kind = l.kind ∧ l.text = String.ofList q.text := fun h =>
      (ih h).imp fun q hq => hq.imp_left (List.mem_cons_of_mem p)
    cases hp : p.kind.isTrivia with
    | true =>
      rw [foldTrivia_of_isTrivia hp] at h
      exact hrest h
    | false =>
      rw [lexemes_foldTrivia hp] at h
      obtain rfl | h := List.mem_cons.1 h
      · exact ⟨p, List.mem_cons_self, rfl, rfl⟩
      · exact hrest h

theorem text_of_lessThan {source : String} {l : Lexeme} (h : l ∈ (lexemes source).lexemes)
    (hk : l.kind = .lessThan) : l.text = "<" := by
  obtain ⟨p, hp, hkind, htext⟩ := exists_piece_of_mem_foldTrivia h
  rw [htext, text_of_mem_piecesFrom _ _ p hp (hkind.trans hk)]

theorem exists_split_of_mem_foldTrivia (before : List Char) {ps : List Piece} {pending : String}
    {l : Lexeme} (h : l ∈ (foldTrivia (byteLength before) pending ps).lexemes) :
    ∃ lead after, before ++ ps.flatMap Piece.text = lead ++ l.text.toList ++ after ∧
      byteLength lead = l.offset := by
  induction ps generalizing before pending with
  | nil => cases h
  | cons p ps ih =>
    rw [List.flatMap_cons, ← List.append_assoc]
    cases hp : p.kind.isTrivia with
    | true =>
      rw [foldTrivia_of_isTrivia hp, ← byteLength_append] at h
      exact ih _ h
    | false =>
      rw [lexemes_foldTrivia hp, ← byteLength_append] at h
      obtain rfl | h := List.mem_cons.1 h
      · exact ⟨before, ps.flatMap Piece.text, by simp, rfl⟩
      · exact ih _ h

theorem startsAt_of_mem {source : String} {l : Lexeme} (h : l ∈ (lexemes source).lexemes) :
    l.StartsAt source l.offset := by
  obtain ⟨lead, after, hsplit, hlead⟩ := exists_split_of_mem_foldTrivia [] h
  rw [pieces, flatMap_piecesFrom] at hsplit
  exact ⟨h, rfl, lead, after, hsplit, hlead⟩

end Lexer

/-! Causes. -/

/-- What the cause is about starts at the offset: the token that was found, the bracket that is not
closed, or the bracket that closes the group in which the source ran out. -/
def Fault.Cause.StartsAt (source : String) (offset : Nat) : Fault.Cause → Prop
  | .unexpected found _ | .mismatched found _ | .unclosed found =>
    ∃ l : Lexeme, l.text = found ∧ l.StartsAt source offset
  | .unexpectedEnd construct =>
    ∃ trees d opening children closing,
      Tree.ofLexemes (Lexer.lexemes source).lexemes = .ok trees ∧
        Tree.Contains [.group d opening children closing] trees ∧
        Tree.RunsOut construct (.group d opening children closing) ∧
        closing.StartsAt source offset

/-- A fault of a source, at the offset that it is about. -/
def Fault.IsPlaced (source : String) (fault : Fault) : Prop :=
  ∃ offset, fault.offset = some offset ∧ fault.cause.StartsAt source offset

theorem Tree.isPlaced_of_ofLexemes {source : String} {fault : Fault}
    (h : ofLexemes (Lexer.lexemes source).lexemes = .error fault) : fault.IsPlaced source := by
  rw [ofLexemes] at h
  cases hfold : (Lexer.lexemes source).lexemes.foldlM Builder.step .start with
  | error fault' =>
    rw [hfold] at h
    cases h
    obtain ⟨before, l, after, b, hsplit, -, -, hblames⟩ := Lexer.blames_foldTrivia rfl hfold
    have hl : l ∈ (Lexer.lexemes source).lexemes := by
      rw [Lexer.lexemes, Lexer.pieces, hsplit]
      simp
    cases hblames with
    | unexpected => exact ⟨l.offset, rfl, l, rfl, Lexer.startsAt_of_mem hl⟩
    | mismatched d => exact ⟨l.offset, rfl, l, rfl, Lexer.startsAt_of_mem hl⟩
  | ok b =>
    rw [hfold] at h
    obtain ⟨l, hl, rfl⟩ := Builder.unclosed_of_finish h
    rw [Builder.lexemes_foldlM hfold] at hl
    exact ⟨l.offset, rfl, l, rfl, Lexer.startsAt_of_mem hl⟩

theorem Tree.isPlaced_of_blames {source : String} {trees : List Tree} {fault : Fault}
    (ht : ofLexemes (Lexer.lexemes source).lexemes = .ok trees) (h : Blames trees fault) :
    fault.IsPlaced source := by
  have hmem : ∀ l ∈ lexemesAll trees, l.StartsAt source l.offset := by
    rw [lexemesAll_of_ofLexemes ht]
    exact fun l => Lexer.startsAt_of_mem
  cases h with
  | unexpected construct hl => exact ⟨_, rfl, _, rfl, hmem _ hl⟩
  | unclosed hl hk => exact ⟨_, rfl, _, Lexer.text_of_lessThan (hmem _ hl).mem hk, hmem _ hl⟩
  | ended hin hr =>
    refine ⟨_, rfl, trees, _, _, _, _, ht, hin, hr, hmem _ ?_⟩
    exact hin.lexemesAll_subset (by simp [lexemesAll, lexemes])

theorem Fault.Cause.StartsAt.exists_split {source : String} {offset : Nat} {cause : Cause}
    (h : cause.StartsAt source offset) :
    ∃ before after, source.toList = before ++ after ∧ byteLength before = offset := by
  have htoken : ∀ {l : Lexeme}, l.StartsAt source offset →
      ∃ before after, source.toList = before ++ after ∧ byteLength before = offset := by
    intro l hl
    obtain ⟨before, after, hsplit, hbefore⟩ := hl.found
    exact ⟨before, l.text.toList ++ after, by rw [hsplit, List.append_assoc], hbefore⟩
  cases cause with
  | unexpectedEnd construct =>
    obtain ⟨_, _, _, _, _, _, _, _, hl⟩ := h
    exact htoken hl
  | _ =>
    obtain ⟨l, -, hl⟩ := h
    exact htoken hl

namespace SourceFile

variable {name source : String} {fault : Fault} {d : Diagnostic}

theorem isPlaced_of_error
    (h : Tree.ofLexemes (Lexer.lexemes source).lexemes >>= Reader.sequence none none =
      .error fault) : fault.IsPlaced source := by
  cases ht : Tree.ofLexemes (Lexer.lexemes source).lexemes with
  | error fault' =>
    rw [ht] at h
    cases h
    exact Tree.isPlaced_of_ofLexemes ht
  | ok trees =>
    rw [ht] at h
    exact Tree.isPlaced_of_blames ht
      ((Reader.readersBlame _).sequence none none trees fault (Nat.lt_succ_self _) h)

/-- A source that cannot be read has a fault at a byte between two of its characters, and the line
and the column reported are those of this byte; what starts there is what the fault is about. -/
theorem exists_offset_of_error (h : ofSource name source = .error d) :
    ∃ offset before after,
      Tree.ofLexemes (Lexer.lexemes source).lexemes >>= Reader.sequence none none =
          .error ⟨d.cause, some offset⟩ ∧
        source.toList = before ++ after ∧ byteLength before = offset ∧
        d.position.IsAfter before ∧ d.cause.StartsAt source offset := by
  unfold ofSource at h
  simp only at h
  split at h
  · cases h
  · rename_i fault hfault
    cases h
    obtain ⟨offset, hoffset, hstarts⟩ := isPlaced_of_error hfault
    obtain ⟨before, after, hsplit, hbefore⟩ := hstarts.exists_split
    obtain ⟨cause, offset'⟩ := fault
    obtain rfl : offset' = some offset := hoffset
    have hposition : Position.ofOffset source offset = .after before := by
      rw [Position.ofOffset, hsplit, ← hbefore, takeBytes_append]
    refine ⟨offset, before, after, hfault, hsplit, hbefore, ?_, hstarts⟩
    change (Position.ofOffset source offset).IsAfter before
    rw [hposition]
    exact Position.isAfter_after before

/-- A class with a parameter whose type is missing, on its second line. -/
def untypedParameter : String := "class A \x7b\n  f(é: ) \x7b \x7d\n\x7d"

theorem untypedParameter_placed :
    ∃ d, ofSource "a.ts" untypedParameter = .error d ∧
      d.message = "a.ts:2:9: unexpected end of a type" ∧
      ∃ before after, untypedParameter.toList = before ++ after ∧ byteLength before = 18 ∧
        d.position.IsAfter before ∧ d.cause.StartsAt untypedParameter 18 := by
  have herror : ofSource "a.ts" untypedParameter =
      .error ⟨"a.ts", ⟨2, 9⟩, .unexpectedEnd "a type"⟩ :=
    error?_eq_some_iff.1 (by decide +kernel)
  have hfault : Tree.ofLexemes (Lexer.lexemes untypedParameter).lexemes >>=
      Reader.sequence none none = .error ⟨.unexpectedEnd "a type", some 18⟩ :=
    error?_eq_some_iff.1 (by decide +kernel)
  obtain ⟨offset, before, after, hoffset, hplaced⟩ := exists_offset_of_error herror
  rw [hfault] at hoffset
  cases hoffset
  exact ⟨_, herror, by decide +kernel, before, after, hplaced⟩

end SourceFile

end TwinClasses
