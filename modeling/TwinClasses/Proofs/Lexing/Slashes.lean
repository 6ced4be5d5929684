import TwinClasses.Proofs.Lexing.Nesting

set_option autoImplicit false

/-! Slashes. A slash that opens no comment divides, or it starts a regular expression if no operand
has just ended and another slash closes it on its line. The lexer goes by the last token alone, so
it misjudges two operand ends that only the tokens before show: a keyword that names a member, and a
`!` behind an operand. It also takes a line break along that stands behind a backslash. -/

namespace TwinClasses

namespace Literal

/-- What stands between the slashes of a regular expression, from a place inside a class or outside
of all of them: a backslash takes any character with it, the others stay on the line, and a slash
stands in a class only. -/
inductive IsRegexBody : Bool → List Char → Prop where
  | nil : IsRegexBody false []
  | escape {inClass : Bool} {cs : List Char} (c : Char) : IsRegexBody inClass cs →
    IsRegexBody inClass ('\\' :: c :: cs)
  | openClass {inClass : Bool} {cs : List Char} : IsRegexBody true cs →
    IsRegexBody inClass ('[' :: cs)
  | closeClass {inClass : Bool} {cs : List Char} : IsRegexBody false cs →
    IsRegexBody inClass (']' :: cs)
  | char {inClass : Bool} {c : Char} {cs : List Char} : c ∉ ['\\', '[', ']', '\n', '\r'] →
    (c = '/' → inClass = true) → IsRegexBody inClass cs → IsRegexBody inClass (c :: cs)

/-- A regular expression that goes on with the text finds its closing slash there. -/
def Closes (inClass : Bool) (cs : List Char) : Prop :=
  ∃ body, IsRegexBody inClass body ∧ body ++ ['/'] <+: cs

def isLineBreak (c : Char) : Bool := c = '\n' || c = '\r'

/-- The number of backslashes at the end. -/
def backslashes (cs : List Char) : Nat := (cs.reverse.takeWhile (· = '\\')).length

/-- The last of an odd number of backslashes takes the next character with it. -/
def escapesNext (cs : List Char) : Bool := backslashes cs % 2 = 1

/-- Behind `line` the text ends, or the line does. -/
def EndsLine (line rest : List Char) : Prop :=
  ∀ c ∈ rest.head?, isLineBreak c = true ∧ escapesNext line = false

variable {inClass : Bool} {body cs : List Char} {c : Char} {n : Nat}

theorem regexLength?_char (hc : c ∉ ['\\', '[', ']', '\n', '\r']) (hs : c = '/' → inClass = true)
    (cs : List Char) :
    regexLength? inClass (c :: cs) = (regexLength? inClass cs).map (· + 1) := by
  simp only [List.mem_cons, List.not_mem_nil, or_false, not_or] at hc
  obtain ⟨hescape, hopen, hclose, hfeed, hreturn⟩ := hc
  rw [regexLength?.eq_4 _ _ _ (fun h _ => hescape h) (fun _ _ h _ => hescape h)]
  by_cases hslash : c = '/'
  · simp [hslash, hs hslash]
  · simp [*]

theorem regexLength?_of_body (h : IsRegexBody inClass body) (rest : List Char) :
    regexLength? inClass (body ++ '/' :: rest) =
      some (body.length + 1 + Scan.run Char.isAlpha rest) := by
  induction h with
  | nil => simp [regexLength?, Scan.run]
  | escape c _ ih =>
    simp [regexLength?, ih]
    omega
  | openClass _ ih =>
    simp [regexLength?, ih]
    omega
  | closeClass _ ih =>
    simp [regexLength?, ih]
    omega
  | char hc hs _ ih =>
    rw [List.cons_append, regexLength?_char hc hs, ih, List.length_cons]
    simp
    omega

theorem body_of_regexLength? (h : regexLength? inClass cs = some n) :
    ∃ body rest, cs = body ++ '/' :: rest ∧ IsRegexBody inClass body ∧
      n = body.length + 1 + Scan.run Char.isAlpha rest := by
  fun_induction regexLength? inClass cs generalizing n with
  | case1 => cases h
  | case2 => cases h
  | case3 inClass c cs ih =>
    obtain ⟨m, hm, rfl⟩ := Option.map_eq_some_iff.1 h
    obtain ⟨body, rest, rfl, hbody, rfl⟩ := ih hm
    exact ⟨_, rest, rfl, hbody.escape c, by simp only [List.length_cons]; omega⟩
  | case4 => cases h
  | case5 inClass cs _ _ _ ih =>
    obtain ⟨m, hm, rfl⟩ := Option.map_eq_some_iff.1 h
    obtain ⟨body, rest, rfl, hbody, rfl⟩ := ih hm
    exact ⟨_, rest, rfl, hbody.openClass, by simp only [List.length_cons]; omega⟩
  | case6 inClass cs _ _ _ _ ih =>
    obtain ⟨m, hm, rfl⟩ := Option.map_eq_some_iff.1 h
    obtain ⟨body, rest, rfl, hbody, rfl⟩ := ih hm
    exact ⟨_, rest, rfl, hbody.closeClass, by simp only [List.length_cons]; omega⟩
  | case7 inClass c cs _ _ _ _ _ hslash =>
    cases h
    simp only [Bool.and_eq_true, decide_eq_true_eq, Bool.not_eq_true'] at hslash
    obtain ⟨rfl, rfl⟩ := hslash
    exact ⟨[], cs, rfl, .nil, by simp [Scan.run]⟩
  | case8 inClass c cs hlone hescape hbreak hopen hclose hslash ih =>
    obtain ⟨m, hm, rfl⟩ := Option.map_eq_some_iff.1 h
    obtain ⟨body, rest, rfl, hbody, rfl⟩ := ih hm
    refine ⟨c :: body, rest, rfl, .char ?_ ?_ hbody, by simp only [List.length_cons]; omega⟩
    · -- Behind a lone backslash there is no slash, and any other one escapes.
      have hlast : c ≠ '\\' := by
        cases body with
        | nil => exact fun hc => hescape _ _ hc rfl
        | cons d body => exact fun hc => hescape _ _ hc rfl
      simp_all
    · simpa using hslash

theorem closes_iff : Closes inClass cs ↔ (regexLength? inClass cs).isSome = true := by
  rw [Option.isSome_iff_exists]
  constructor
  · rintro ⟨body, hbody, rest, rfl⟩
    rw [List.append_assoc]
    exact ⟨_, regexLength?_of_body hbody rest⟩
  · rintro ⟨n, h⟩
    obtain ⟨body, rest, rfl, hbody, -⟩ := body_of_regexLength? h
    exact ⟨body, hbody, rest, by simp⟩

/-! Escaped characters. -/

theorem backslashes_le (cs : List Char) : backslashes cs ≤ cs.length := by
  have hle := (List.takeWhile_sublist (l := cs.reverse) (· = '\\')).length_le
  rwa [List.length_reverse] at hle

theorem backslashes_cons (c : Char) (cs : List Char) : backslashes (c :: cs) =
    if backslashes cs = cs.length ∧ c = '\\' then cs.length + 1 else backslashes cs := by
  simp only [backslashes, List.reverse_cons, List.takeWhile_append, List.length_reverse]
  by_cases hall : (cs.reverse.takeWhile (· = '\\')).length = cs.length
  · by_cases hc : c = '\\' <;> simp [hall, hc]
  · simp [hall]

theorem escapesNext_cons (h : c ≠ '\\') (cs : List Char) :
    escapesNext (c :: cs) = escapesNext cs := by
  rw [escapesNext, escapesNext, backslashes_cons, if_neg fun hc => h hc.2]

/-- An escaped character does not escape the next one. -/
theorem escapesNext_escape (c : Char) (cs : List Char) :
    escapesNext ('\\' :: c :: cs) = escapesNext cs := by
  have hle := backslashes_le cs
  have hcount : backslashes ('\\' :: c :: cs) = backslashes cs ∨
      backslashes ('\\' :: c :: cs) = backslashes cs + 2 := by
    rw [backslashes_cons, backslashes_cons, List.length_cons]
    by_cases hall : backslashes cs = cs.length ∧ c = '\\'
    · simp [hall]
    · rw [if_neg hall]
      exact .inl (if_neg fun h => by omega)
  simp only [escapesNext, decide_eq_decide]
  omega

/-- Between the slashes of a regular expression only a backslash lets the line end. -/
theorem IsRegexBody.escapesNext (h : IsRegexBody inClass body) {before after : List Char}
    (hb : body = before ++ c :: after) (hc : isLineBreak c = true) :
    escapesNext before = true := by
  -- A character that is no backslash and no line break leaves the rest to the induction.
  have hplain : ∀ {d : Char} {cs before : List Char}, d ≠ '\\' → isLineBreak d = false →
      (∀ {before}, cs = before ++ c :: after → Literal.escapesNext before = true) →
      d :: cs = before ++ c :: after → Literal.escapesNext before = true := by
    intro d cs before hd hbreak ih hb
    cases before with
    | nil =>
      obtain ⟨rfl, -⟩ := List.cons.inj hb
      rw [hbreak] at hc
      cases hc
    | cons e before =>
      obtain ⟨rfl, htail⟩ := List.cons.inj hb
      rw [escapesNext_cons hd]
      exact ih htail
  induction h generalizing before with
  | nil => simp at hb
  | escape d _ ih =>
    match before, hb with
    | [], hb =>
      obtain ⟨rfl, -⟩ := List.cons.inj hb
      cases hc
    | [_], hb =>
      obtain ⟨rfl, -⟩ := List.cons.inj hb
      decide
    | _ :: _ :: before, hb =>
      simp only [List.cons_append, List.cons.injEq] at hb
      obtain ⟨rfl, rfl, hb⟩ := hb
      rw [escapesNext_escape]
      exact ih hb
  | openClass _ ih => exact hplain (by decide) (by decide) ih hb
  | closeClass _ ih => exact hplain (by decide) (by decide) ih hb
  | char hd _ _ ih =>
    simp only [List.mem_cons, List.not_mem_nil, or_false, not_or] at hd
    exact hplain hd.1 (by simp [isLineBreak, hd]) ih hb

/-- Neither the slashes nor the flags of a regular expression let the line end. -/
theorem IsRegexBody.escapesNext_literal (h : IsRegexBody false body) {flags front back : List Char}
    (hf : ∀ d ∈ flags, d.isAlpha = true) (heq : '/' :: body ++ '/' :: flags = front ++ c :: back)
    (hc : isLineBreak c = true) : Literal.escapesNext front = true := by
  have hslash : c ≠ '/' := by
    rintro rfl
    cases hc
  have halpha : c.isAlpha = false := by
    simp only [isLineBreak, Bool.or_eq_true, decide_eq_true_eq] at hc
    obtain rfl | rfl := hc <;> decide
  cases front with
  | nil => exact absurd (List.cons.inj heq).1.symm hslash
  | cons d front =>
    obtain ⟨rfl, hrest⟩ := List.cons.inj heq
    rw [escapesNext_cons (by decide)]
    obtain ⟨as, rfl, htail⟩ | ⟨bs, rfl, htail⟩ := List.append_eq_append_iff.1 hrest
    · cases as with
      | nil => exact absurd (List.cons.inj htail).1.symm hslash
      | cons d as =>
        obtain ⟨-, rfl⟩ := List.cons.inj htail
        rw [hf c (by simp)] at halpha
        cases halpha
    · cases bs with
      | nil => exact absurd (List.cons.inj htail).1 hslash
      | cons d bs =>
        obtain ⟨rfl, -⟩ := List.cons.inj htail
        exact h.escapesNext rfl hc

/-- A regular expression is closed on its line or not at all. -/
theorem Closes.of_endsLine {line rest : List Char} (h : Closes inClass (line ++ rest))
    (hend : EndsLine line rest) : Closes inClass line := by
  obtain ⟨body, hbody, more, heq⟩ := h
  obtain ⟨as, rfl, -⟩ | ⟨bs, hline, rfl⟩ := List.append_eq_append_iff.1 heq
  · exact ⟨body, hbody, List.prefix_append _ as⟩
  · cases bs with
    | nil =>
      rw [List.append_nil] at hline
      exact ⟨body, hbody, hline ▸ List.prefix_refl _⟩
    | cons c bs =>
      obtain ⟨hc, hescape⟩ := hend c rfl
      obtain ⟨as, rfl, htail⟩ | ⟨front, rfl, htail⟩ := List.append_eq_append_iff.1 hline
      · cases as with
        | nil =>
          obtain ⟨rfl, -⟩ := List.cons.inj htail
          cases hc
        | cons d as => simp at htail
      · cases front with
        | nil =>
          obtain ⟨rfl, -⟩ := List.cons.inj htail
          cases hc
        | cons d front =>
          obtain ⟨rfl, -⟩ := List.cons.inj htail
          rw [hbody.escapesNext rfl hc] at hescape
          cases hescape

end Literal

namespace Lexer

/-! Operands. Pieces that have been read are listed with the last one first. -/

/-- The pieces that are no trivia, the last one first. -/
def recent (ps : List Piece) : List Piece := (ps.filter (!·.kind.isTrivia)).reverse

def Piece.isOperandKeyword (p : Piece) : Bool :=
  p.kind = .identifier && String.ofList p.text ∈ operandKeywords

def Piece.isStep (p : Piece) : Bool :=
  p.kind = .operator && (p.text = ['+', '+'] || p.text = ['-', '-'])

/-- The pieces end with the dot of a member access. -/
def accessesMember (ps : List Piece) : Bool := ps.head?.any (·.kind ∈ [.dot, .questionDot])

/-- The pieces end with an operand: a name, also one that is a keyword elsewhere, a literal, a
closing parenthesis or square bracket, or an operand and `++`, `--` or `!` behind it. -/
def endsOperand : List Piece → Bool
  | [] => false
  | p :: ps =>
    match p.kind with
    | .identifier => !p.isOperandKeyword || accessesMember ps
    | .privateName | .number | .string | .template | .templateTail | .regex | .closeParen
    | .closeBracket => true
    | .operator => p.isStep && endsOperand ps
    | .bang => endsOperand ps
    | _ => false

/-- The pieces end with an operand that its last piece does not show: a keyword that names a member,
or a `!` behind an operand. -/
def isMisjudged : List Piece → Bool
  | [] => false
  | p :: ps => p.isOperandKeyword && accessesMember ps || p.kind = .bang && endsOperand ps

/-- The pieces end with one behind which the lexer reads no operand, whatever came before it. -/
def isBlocked (ps : List Piece) : Bool := ps.head?.any fun p => p.isStep || p.kind = .unknown

variable {ctx : Context} {c : Char} {cs rest : List Char} {braces : List BraceUse} {n : Nat}
  {before after : List Piece} {p : Piece} {source : String}

/-- What the lexer makes of the last token: it expects an operand unless one has just ended, and
behind an operand end that it misjudges. -/
theorem expectsOperand_eq {ps : List Piece} (h : ctx.previous = ps.head?) :
    ctx.expectsOperand = (endsOperand ps == isMisjudged ps && !isBlocked ps) := by
  cases ps with
  | nil => simp_all [Context.expectsOperand, endsOperand, isMisjudged, isBlocked]
  | cons p ps =>
    obtain ⟨kind, text⟩ := p
    cases kind with
    | identifier =>
      simp only [Context.expectsOperand, h, List.head?_cons, endsOperand, isMisjudged, isBlocked,
        Piece.isOperandKeyword, Piece.isStep, Option.any_some]
      cases decide (String.ofList text ∈ operandKeywords) <;> cases accessesMember ps <;> rfl
    | _ =>
      simp_all [Context.expectsOperand, endsOperand, isMisjudged, isBlocked,
        Piece.isOperandKeyword, Piece.isStep]

theorem recent_cons (p : Piece) (ps : List Piece) :
    recent (p :: ps) = recent ps ++ if p.kind.isTrivia then [] else [p] := by
  cases hp : p.kind.isTrivia <;> simp [recent, hp]

/-- The lexer knows the last token that it has read. -/
theorem previous_afterPieces (n : Nat) (ctx : Context) (cs : List Char) :
    (ctx.afterPieces n cs).1.previous =
      (recent ((piecesFrom ctx cs).take n)).head?.or ctx.previous := by
  induction n generalizing ctx cs with
  | zero => rfl
  | succ n ih =>
    cases cs with
    | nil => simp [Context.afterPieces, piecesFrom, recent]
    | cons c cs =>
      rw [piecesFrom, List.take_succ_cons, recent_cons, List.head?_append]
      simp only [Context.afterPieces]
      rw [ih]
      cases (recent _).head? with
      | some p => rfl
      | none =>
        simp only [Context.after]
        split <;> rfl

/-- Each piece is found in a context that knows the last token before it. -/
theorem exists_next (h : pieces source = before ++ p :: after) :
    ∃ (ctx : Context) (c : Char) (rest : List Char) (n : Nat) (braces : List BraceUse),
    ctx.previous = (recent before).head? ∧ (p :: after).flatMap Piece.text = c :: rest ∧
      ctx.next c rest = (p.kind, n, braces) ∧ p.text = c :: rest.take n := by
  have hdrop : p :: after = (pieces source).drop before.length := by
    rw [h, List.drop_left]
  have hprevious := previous_afterPieces before.length .start source.toList
  rw [pieces] at h hdrop
  rw [piecesFrom_drop] at hdrop
  rw [h, List.take_left] at hprevious
  obtain ⟨⟨ctx, cs⟩, hat⟩ : ∃ r, Context.start.afterPieces before.length source.toList = r :=
    ⟨_, rfl⟩
  rw [hat] at hdrop hprevious
  cases cs with
  | nil =>
    rw [piecesFrom] at hdrop
    cases hdrop
  | cons c rest =>
    have htext := congrArg (List.flatMap Piece.text) hdrop
    rw [flatMap_piecesFrom] at htext
    obtain ⟨⟨kind, n, braces⟩, hnext⟩ : ∃ r, ctx.next c rest = r := ⟨_, rfl⟩
    rw [piecesFrom, hnext] at hdrop
    obtain ⟨rfl, -⟩ := List.cons.inj hdrop
    refine ⟨ctx, c, rest, n, braces, ?_, htext, hnext, rfl⟩
    simpa [Context.start] using hprevious

/-- What the lexer makes of a slash that opens no comment. -/
theorem next_slash (ctx : Context) (h : Scan.Stops Scan.opensComment rest) :
    ((ctx.next '/' rest).1 = .regex ∨ (ctx.next '/' rest).1 = .operator) ∧
      ((ctx.next '/' rest).1 = .regex ↔
        ctx.expectsOperand = true ∧ Literal.Closes false rest) := by
  rw [Literal.closes_iff, Context.next, Scan.token_slash_eq h]
  cases ctx.expectsOperand with
  | false => simp
  | true => cases Literal.regexLength? false rest <;> simp

theorem slash_of_next_regex (h : ctx.next c rest = (.regex, n, braces)) :
    c = '/' ∧ Scan.Stops Scan.opensComment rest ∧ Literal.regexLength? false rest = some n := by
  revert h
  fun_cases Context.next ctx c rest with
  | case1 m ht =>
    intro h
    obtain ⟨e, -, he, -⟩ := pieceEnd?_of_templateSegment h (by decide)
    cases e <;> cases he
  | case3 m ht bs hb =>
    intro h
    obtain ⟨e, -, he, -⟩ := pieceEnd?_of_templateSegment h (by decide)
    cases e <;> cases he
  | case6 m ht k hk =>
    rintro ⟨⟩
    split at hk
    · rename_i hc
      obtain rfl : c = '/' := by simpa using (Bool.and_eq_true_iff.1 hc).1
      exact ⟨rfl, Scan.stops_opensComment ht rfl (by decide), hk⟩
    · cases hk
  | case8 kind m _ _ _ _ ht =>
    rintro ⟨⟩
    have hne : (Scan.token c rest).1 ≠ .regex := Scan.token_ne (by decide)
    rw [ht] at hne
    exact absurd rfl hne
  | _ => rintro ⟨⟩

/-- A regular expression is a body between two slashes, and flags. -/
theorem body_of_regex (h : pieces source = before ++ p :: after) (hk : p.kind = .regex) :
    ∃ body flags, p.text = '/' :: body ++ '/' :: flags ∧ Literal.IsRegexBody false body ∧
      ∀ c ∈ flags, c.isAlpha = true := by
  obtain ⟨ctx, c, rest, n, braces, -, -, hnext, htext⟩ := exists_next h
  rw [hk] at hnext
  obtain ⟨rfl, -, hlength⟩ := slash_of_next_regex hnext
  obtain ⟨body, more, rfl, hbody, rfl⟩ := Literal.body_of_regexLength? hlength
  refine ⟨body, more.take (Scan.run Char.isAlpha more), ?_, hbody, ?_⟩
  · rw [htext, Nat.add_assoc, List.take_length_add_append, Nat.add_comm, List.take_succ_cons]
    rfl
  · rw [Scan.take_run]
    exact fun c hc => List.mem_takeWhile_imp hc

/-- How a slash that opens no comment is read. -/
theorem slash_read (h : pieces source = before ++ p :: after)
    (hrest : (p :: after).flatMap Piece.text = '/' :: rest)
    (hc : Scan.Stops Scan.opensComment rest) :
    (p.kind = .regex ∨ p.kind = .operator) ∧
      (p.kind = .regex ↔ (endsOperand (recent before) = isMisjudged (recent before) ∧
        isBlocked (recent before) = false) ∧ Literal.Closes false rest) := by
  obtain ⟨ctx, c, rest', n, braces, hprevious, htext, hnext, -⟩ := exists_next h
  obtain ⟨rfl, rfl⟩ := List.cons.inj (htext.symm.trans hrest)
  have hslash := next_slash ctx hc
  rw [hnext, expectsOperand_eq hprevious] at hslash
  simpa using hslash

/-- A regular expression comes directly behind an operand only where the lexer misjudges its end.
There, and where no operand has ended, every slash that a second one answers on its line starts a
regular expression, but for those behind `++`, `--` and what is no token. -/
theorem regex_behind_operand (source : String) (before : List Piece) (p : Piece)
    (after : List Piece) (h : pieces source = before ++ p :: after) :
    (p.kind = .regex →
      (endsOperand (recent before) = true ↔ isMisjudged (recent before) = true)) ∧
    ∀ rest, (p :: after).flatMap Piece.text = '/' :: rest →
      Scan.Stops Scan.opensComment rest →
      (p.kind = .regex ↔ (endsOperand (recent before) = isMisjudged (recent before) ∧
        isBlocked (recent before) = false) ∧ Literal.Closes false rest) := by
  refine ⟨fun hk => ?_, fun rest hrest hc => (slash_read h hrest hc).2⟩
  obtain ⟨ctx, c, rest, n, braces, -, htext, hnext, -⟩ := exists_next h
  rw [hk] at hnext
  obtain ⟨rfl, hc, -⟩ := slash_of_next_regex hnext
  obtain ⟨⟨hends, -⟩, -⟩ := (slash_read h htext hc).2.1 hk
  rw [hends]

theorem pieces_asserted : pieces "a! /b/" =
    [⟨.identifier, ['a']⟩, ⟨.bang, ['!']⟩, ⟨.whitespace, [' ']⟩] ++
      ⟨.regex, ['/', 'b', '/']⟩ :: [] := by
  decide +kernel

/-- What is divided is an operand, asserted to be there. -/
theorem asserted_behind_operand :
    let before : List Piece := [⟨.identifier, ['a']⟩, ⟨.bang, ['!']⟩, ⟨.whitespace, [' ']⟩]
    pieces "a! /b/" = before ++ ⟨.regex, ['/', 'b', '/']⟩ :: [] ∧
      endsOperand (recent before) = true ∧ isMisjudged (recent before) = true := by
  intro before
  have h := (regex_behind_operand _ _ _ _ pieces_asserted).1 rfl
  have hends : endsOperand (recent before) = true := by decide
  exact ⟨pieces_asserted, hends, h.1 hends⟩

theorem not_divides_behind_operand : ¬ ∀ source before p after,
    pieces source = before ++ p :: after → p.kind = .regex →
      endsOperand (recent before) = false := by
  intro hall
  have h := hall _ _ _ _ pieces_asserted rfl
  exact absurd h (by decide)

/-- In a regular expression a line break stands only behind a backslash that takes it along. Where
the line ends in front of the closing slash in any other way, also inside a class, the slash is an
operator. -/
theorem regex_on_line (source : String) (before : List Piece) (p : Piece) (after : List Piece)
    (h : pieces source = before ++ p :: after) :
    (p.kind = .regex → ∀ front c back, p.text = front ++ c :: back →
      Literal.isLineBreak c = true → Literal.escapesNext front = true) ∧
    ∀ line rest, (p :: after).flatMap Piece.text = '/' :: (line ++ rest) →
      Scan.Stops Scan.opensComment (line ++ rest) → Literal.EndsLine line rest →
      ¬ Literal.Closes false line → p.kind = .operator := by
  constructor
  · intro hk front c back hsplit hbreak
    obtain ⟨body, flags, htext, hbody, hflags⟩ := body_of_regex h hk
    exact hbody.escapesNext_literal hflags (htext.symm.trans hsplit) hbreak
  · intro line rest htext hc hend hopen
    obtain ⟨hkind, hregex⟩ := slash_read h htext hc
    refine hkind.resolve_left fun hk => hopen ?_
    exact (hregex.1 hk).2.of_endsLine hend

theorem pieces_escaped_break : pieces "/a\\\nb/" =
    [] ++ ⟨.regex, ['/', 'a', '\\', '\n', 'b', '/']⟩ :: [] := by
  decide +kernel

theorem pieces_open_class : pieces "/[a\n/]" = [] ++ ⟨.operator, ['/']⟩ ::
    [⟨.openBracket, ['[']⟩, ⟨.identifier, ['a']⟩, ⟨.whitespace, ['\n']⟩, ⟨.operator, ['/']⟩,
      ⟨.closeBracket, [']']⟩] := by
  decide +kernel

/-- A backslash takes the line break along; a class does not. -/
theorem escaped_break_on_line :
    (∃ p ∈ pieces "/a\\\nb/", p.kind = .regex ∧ p.text = ['/', 'a', '\\'] ++ '\n' :: ['b', '/'] ∧
      Literal.escapesNext ['/', 'a', '\\'] = true) ∧
    Literal.EndsLine ['[', 'a'] ['\n', '/', ']'] ∧ ¬ Literal.Closes false ['[', 'a'] ∧
    ∃ p ∈ pieces "/[a\n/]", p.text = ['/'] ∧ p.kind = .operator := by
  have hend : Literal.EndsLine ['[', 'a'] ['\n', '/', ']'] := by
    rintro c ⟨⟩
    decide
  have hopen : ¬ Literal.Closes false ['[', 'a'] := by
    rw [Literal.closes_iff]
    decide
  have hregex := (regex_on_line _ _ _ _ pieces_escaped_break).1 rfl ['/', 'a', '\\'] '\n'
    ['b', '/'] rfl rfl
  have hoperator := (regex_on_line _ _ _ _ pieces_open_class).2 ['[', 'a'] ['\n', '/', ']'] rfl
    (by decide) hend hopen
  refine ⟨⟨⟨.regex, _⟩, ?_, rfl, rfl, hregex⟩, hend, hopen, ⟨⟨.operator, _⟩, ?_, rfl, hoperator⟩⟩
  · rw [pieces_escaped_break]
    exact List.mem_cons_self
  · rw [pieces_open_class]
    exact List.mem_cons_self

theorem not_regex_on_line : ¬ ∀ source, ∀ p ∈ pieces source, p.kind = .regex →
    ∀ c ∈ p.text, Literal.isLineBreak c = false := by
  intro hall
  have h := hall _ _ (by rw [pieces_escaped_break]; exact List.mem_cons_self) rfl '\n' (by decide)
  cases h

end Lexer

end TwinClasses
