import TwinClasses.Proofs.Lexing.Boundary
import TwinClasses.Proofs.Lexing.ReadBack

set_option autoImplicit false

/-! Tokens that stay apart. Printed tokens are read back if braces and templates nest, a slash
stands where its kind is expected, and no token goes on with the first character of what comes after
it. -/

namespace TwinClasses

namespace Scan

/-- A slash and one of these start a comment. -/
def opensComment (d : Char) : Bool := d = '/' || d = '*'

/-- A token of the kind, with the given text, might go on with the character. -/
def continues (kind : Kind) (text : List Char) (d : Char) : Bool :=
  match kind with
  | .identifier | .privateName => isIdentifierPart d
  | .number => continuesNumber d
  | .regex => d.isAlpha
  | .string | .template | .templateHead | .templateMiddle | .templateTail => false
  | _ => continuesSymbol text d || text = ['.'] && d.isDigit ||
    text = ['/'] && opensComment d

variable {c : Char} {cs rest rest' : List Char} {k : Kind}

section

variable (hspace : isSpace c = false) (hstart : isIdentifierStart c = false)
  (hdigit : c.isDigit = false) (hquote : ¬ (c = '"' ∨ c = '\''))

theorem token_space (h : isSpace c = true) (cs : List Char) :
    token c cs = (.whitespace, run isSpace cs) := by
  simp [token, h]

theorem token_identifier (hspace : isSpace c = false) (h : isIdentifierStart c = true)
    (cs : List Char) : token c cs = (.identifier, run isIdentifierPart cs) := by
  simp [token, hspace, h]

include hspace hstart

theorem token_number (h : c.isDigit = true) (cs : List Char) :
    token c cs = (.number, numberLength c cs) := by
  simp [token, hspace, hstart, h]

include hdigit

theorem token_quote (h : c = '"' ∨ c = '\'') (cs : List Char) : token c cs =
    (if (stringLength c cs).1 then .string else .unknown, (stringLength c cs).2) := by
  simp [token, hspace, hstart, hdigit, h]

include hquote

theorem token_symbol (hslash : c ≠ '/') (hhash : c ≠ '#') (hdot : c ≠ '.') (cs : List Char) :
    token c cs = symbol (c :: cs) := by
  simp [token, hspace, hstart, hdigit, hquote, hslash, hhash]

end

theorem token_slash (h : Stops opensComment cs) : token '/' cs = symbol ('/' :: cs) := by
  cases cs with
  | nil => rfl
  | cons d cs =>
    have hd : opensComment d = false := h d rfl
    simp only [opensComment, Bool.or_eq_false_iff, decide_eq_false_iff_not] at hd
    simp [token, isSpace, isIdentifierStart, isNameStart, hd.1, hd.2]

theorem stops_opensComment {n : Nat} (h : token '/' cs = (k, n)) (hk : k.isTrivia = false)
    (hu : k ≠ .unknown) : Stops opensComment cs := by
  intro d hd
  rw [Bool.eq_false_iff]
  intro hopens
  cases cs with
  | nil => cases hd
  | cons e cs =>
    obtain rfl := Option.some.inj hd
    simp only [opensComment, Bool.or_eq_true, decide_eq_true_eq] at hopens
    obtain rfl | rfl := hopens
    · obtain ⟨rfl, -⟩ := Prod.mk.inj h
      cases hk
    · cases hn : commentLength? cs with
      | some n =>
        have ht : token '/' ('*' :: cs) = (.blockComment, 1 + n) := by
          simp [token, isSpace, isIdentifierStart, isNameStart, hn]
        rw [ht] at h
        obtain ⟨rfl, -⟩ := Prod.mk.inj h
        cases hk
      | none =>
        have ht : token '/' ('*' :: cs) = (.unknown, cs.length + 1) := by
          simp [token, isSpace, isIdentifierStart, isNameStart, hn]
        rw [ht] at h
        exact absurd (Prod.mk.inj h).1.symm hu

theorem token_hash (d : Char) (cs : List Char) : token '#' (d :: cs) =
    if isNameStart d then (.privateName, 1 + run isPrivateNamePart cs) else (.unknown, 0) := rfl

theorem token_dot (cs : List Char) : token '.' cs =
    match pointNumberLength? cs with
    | some n => (.number, n)
    | none => symbol ('.' :: cs) := by
  cases cs <;> rfl

/-- A character that starts no symbol but itself. -/
theorem continuesSymbol_eq_false (h : ∀ e ∈ symbols, e.1.head? = some c → e.1.length = 1)
    (d : Char) : continuesSymbol [c] d = false := by
  rw [Bool.eq_false_iff]
  intro hc
  obtain ⟨e, he, hp⟩ := List.any_eq_true.1 hc
  obtain ⟨tail, htail⟩ := List.isPrefixOf_iff_prefix.1 hp
  have hone := h e he (by rw [← htail]; rfl)
  rw [← htail] at hone
  simp at hone

/-- What might make a symbol longer might be read on to by its token. -/
theorem stops_continuesSymbol (h : (c :: cs, k) ∈ symbols)
    (hr : Stops (continues k (c :: cs)) rest') : Stops (continuesSymbol (c :: cs)) rest' := by
  have htemplate : ∀ e ∈ symbols, e.2 = .template → e.1 = ['\x60'] := by decide
  have hnone : ∀ e ∈ symbols, e.2 ∉ [Kind.identifier, .privateName, .number, .regex, .string,
      .templateHead, .templateMiddle, .templateTail] := by decide
  by_cases hk : k = .template
  · obtain ⟨rfl, rfl⟩ := List.cons.inj (htemplate _ h hk)
    exact fun d _ => continuesSymbol_eq_false (by decide) d
  · have hother := hnone _ h
    apply hr.mono
    intro d hd
    unfold continues
    split <;> simp_all

theorem stops_isDigit (h : (['.'], k) ∈ symbols) (hr : Stops (continues k ['.']) rest') :
    Stops Char.isDigit rest' := by
  have hdot : ∀ e ∈ symbols, e.1 = ['.'] → e.2 = .dot := by decide
  obtain rfl : k = .dot := hdot _ h rfl
  apply hr.mono
  intro d hd
  simp [continues, hd]

theorem stops_slash (h : (['/'], k) ∈ symbols) (hr : Stops (continues k ['/']) rest') :
    Stops opensComment rest' := by
  have hslash : ∀ e ∈ symbols, e.1 = ['/'] → e.2 = .operator := by decide
  obtain rfl : k = .operator := hslash _ h rfl
  apply hr.mono
  intro d hd
  simp [continues, hd]

/-- The same symbol is found. -/
theorem symbol_boundary_of_continues (h : symbol (c :: cs ++ rest) = (k, cs.length))
    (hu : k ≠ .unknown) (hr : Stops (continues k (c :: cs)) rest') :
    symbol (c :: cs ++ rest') = (k, cs.length) :=
  symbol_boundary h hu (stops_continuesSymbol (mem_symbols h hu) hr)

theorem token_boundary_slash (h : token '/' (cs ++ rest) = (k, cs.length))
    (hk : k.isTrivia = false) (hu : k ≠ .unknown) (hr : Stops (continues k ('/' :: cs)) rest') :
    token '/' (cs ++ rest') = (k, cs.length) := by
  have hs := stops_opensComment h hk hu
  rw [token_slash hs] at h
  have hs' : Stops opensComment (cs ++ rest') := by
    cases cs with
    | nil => exact stops_slash (mem_symbols h hu) hr
    | cons d cs => exact hs
  rw [token_slash hs']
  exact symbol_boundary_of_continues h hu hr

theorem token_boundary_hash (h : token '#' (cs ++ rest) = (k, cs.length))
    (hu : k ≠ .unknown) (hr : Stops (continues k ('#' :: cs)) rest') :
    token '#' (cs ++ rest') = (k, cs.length) := by
  cases cs with
  | nil =>
    cases rest with
    | nil =>
      obtain ⟨rfl, -⟩ := Prod.mk.inj h
      exact absurd rfl hu
    | cons d rest =>
      rw [List.nil_append, token_hash] at h
      split at h
      · obtain ⟨-, hlen⟩ := Prod.mk.inj h
        rw [List.length_nil] at hlen
        omega
      · obtain ⟨rfl, -⟩ := Prod.mk.inj h
        exact absurd rfl hu
  | cons d cs =>
    rw [List.cons_append, token_hash] at h ⊢
    split at h
    · rename_i hd
      obtain ⟨rfl, hlen⟩ := Prod.mk.inj h
      rw [List.length_cons] at hlen
      have hstop : Stops isPrivateNamePart rest' := by
        apply hr.mono
        intro e he
        simp only [isPrivateNamePart, Bool.or_eq_true] at he
        obtain he | he := he <;> simp [continues, isIdentifierPart, isIdentifierStart, he]
      have hrun : run isPrivateNamePart (cs ++ rest') = run isPrivateNamePart (cs ++ rest) :=
        run_boundary (by omega) hstop
      rw [if_pos hd, hrun, hlen, List.length_cons]
    · obtain ⟨rfl, -⟩ := Prod.mk.inj h
      exact absurd rfl hu

theorem token_boundary_dot (h : token '.' (cs ++ rest) = (k, cs.length))
    (hu : k ≠ .unknown) (hr : Stops (continues k ('.' :: cs)) rest') :
    token '.' (cs ++ rest') = (k, cs.length) := by
  rw [token_dot] at h ⊢
  cases hn : pointNumberLength? (cs ++ rest) with
  | some n =>
    rw [hn] at h
    obtain ⟨rfl, rfl⟩ := Prod.mk.inj h
    rw [pointNumberLength?_boundary hn hr]
  | none =>
    rw [hn] at h
    have hnone : pointNumberLength? (cs ++ rest') = none := by
      refine pointNumberLength?_eq_none_boundary hn ?_
      rintro rfl
      exact stops_isDigit (mem_symbols h hu) hr
    rw [hnone]
    exact symbol_boundary_of_continues h hu hr

/-- A token is found again in front of what it does not go on with. -/
theorem token_boundary (h : token c (cs ++ rest) = (k, cs.length)) (hk : k.isTrivia = false)
    (hu : k ≠ .unknown) (hr : Stops (continues k (c :: cs)) rest') :
    token c (cs ++ rest') = (k, cs.length) := by
  cases hspace : isSpace c with
  | true =>
    rw [token_space hspace] at h
    obtain ⟨rfl, -⟩ := Prod.mk.inj h
    cases hk
  | false =>
  cases hstart : isIdentifierStart c with
  | true =>
    rw [token_identifier hspace hstart] at h ⊢
    obtain ⟨rfl, hlen⟩ := Prod.mk.inj h
    rw [run_boundary (Nat.le_of_eq hlen) hr, hlen]
  | false =>
  cases hdigit : c.isDigit with
  | true =>
    rw [token_number hspace hstart hdigit] at h ⊢
    obtain ⟨rfl, hlen⟩ := Prod.mk.inj h
    rw [numberLength_boundary hlen hr]
  | false =>
  by_cases hquote : c = '"' ∨ c = '\''
  · rw [token_quote hspace hstart hdigit hquote] at h ⊢
    obtain ⟨hclosed, hlen⟩ := Prod.mk.inj h
    cases hend : (stringLength c (cs ++ rest)).1 with
    | false =>
      rw [hend] at hclosed
      exact absurd hclosed.symm hu
    | true =>
      rw [hend] at hclosed
      have hstring : stringLength c (cs ++ rest) = (true, cs.length) := Prod.ext hend hlen
      rw [stringLength_boundary hstring (Nat.le_refl _), ← hclosed]
  · by_cases hslash : c = '/'
    · subst hslash
      exact token_boundary_slash h hk hu hr
    · by_cases hhash : c = '#'
      · subst hhash
        exact token_boundary_hash h hu hr
      · by_cases hdot : c = '.'
        · subst hdot
          exact token_boundary_dot h hu hr
        · rw [token_symbol hspace hstart hdigit hquote hslash hhash hdot] at h ⊢
          exact symbol_boundary_of_continues h hu hr

theorem token_backtick (cs : List Char) : token '\x60' cs = (.template, 0) := by
  have h : token '\x60' ([] ++ []) = (.template, ([] : List Char).length) := by decide
  exact token_boundary h rfl (by decide) fun _ _ => rfl

theorem token_closeBrace (cs : List Char) : token '\x7d' cs = (.closeBrace, 0) := by
  have h : token '\x7d' ([] ++ []) = (.closeBrace, ([] : List Char).length) := by decide
  refine token_boundary h rfl (by decide) fun d _ => ?_
  simp [continues, continuesSymbol_eq_false (c := '\x7d') (by decide)]

/-- The kinds of symbols come from the table. -/
theorem mem_symbols_or_unknown (c : Char) (cs : List Char) :
    (∃ text, (c :: text, (symbol (c :: cs)).1) ∈ symbols ∧ text <+: cs ∧
      (symbol (c :: cs)).2 = text.length) ∨
      (symbol (c :: cs)).1 = .unknown ∧ ∀ e ∈ symbols, ¬ e.1 <+: c :: cs := by
  obtain ⟨before, text, kind, after, hsplit, ⟨tail, htail⟩, -, hs⟩ | ⟨hnone, hs⟩ :=
    symbol_cases (c :: cs)
  · have hmem : (text, kind) ∈ symbols := by simp [hsplit]
    cases text with
    | nil => exact absurd rfl (symbols_ne_nil _ hmem)
    | cons d text =>
      obtain ⟨rfl, rfl⟩ := List.cons.inj htail
      rw [hs]
      exact Or.inl ⟨text, hmem, List.prefix_append text tail, rfl⟩
  · rw [hs]
    exact Or.inr ⟨rfl, hnone⟩

theorem symbol_slash (cs : List Char) : (symbol ('/' :: cs)).1 = .operator := by
  have hslash : ∀ e ∈ symbols, e.1.head? = some '/' → e.2 = .operator := by decide
  obtain ⟨text, hmem, -⟩ | ⟨-, hnone⟩ := mem_symbols_or_unknown '/' cs
  · exact hslash _ hmem rfl
  · exact absurd (List.prefix_append ['/'] cs) (hnone (['/'], .operator) (by decide))

/-- A slash that opens no comment is an operator, as far as it can be told without the context. -/
theorem token_slash_eq (h : Stops opensComment cs) :
    token '/' cs = (.operator, (token '/' cs).2) := by
  refine Prod.ext ?_ rfl
  rw [token_slash h]
  exact symbol_slash cs

theorem mem_symbols_of_token (h : (token c cs).1 = k) (hk : k.isTrivia = false)
    (hn : k ∉ [.identifier, .privateName, .number, .string, .unknown]) :
    ∃ text, (c :: text, k) ∈ symbols ∧ text <+: cs ∧ (token c cs).2 = text.length := by
  have hsymbol : ∀ c cs, (symbol (c :: cs)).1 = k →
      ∃ text, (c :: text, k) ∈ symbols ∧ text <+: cs ∧ (symbol (c :: cs)).2 = text.length := by
    rintro c cs rfl
    obtain hmem | ⟨hu, -⟩ := mem_symbols_or_unknown c cs
    · exact hmem
    · simp [hu] at hn
  revert h
  fun_cases token c cs with
  | case4 c cs _ _ _ _ closed n _ => cases closed <;> rintro rfl <;> simp at hn
  | case11 => exact hsymbol _ _
  | case12 => exact hsymbol _ _
  | case1 => rintro rfl; cases hk
  | case5 => rintro rfl; cases hk
  | case6 => rintro rfl; cases hk
  | _ => rintro rfl; simp at hn

theorem eq_backtick (h : (token c cs).1 = .template) : c = '\x60' := by
  have htable : ∀ e ∈ symbols, e.2 = .template → e.1 = ['\x60'] := by decide
  obtain ⟨text, hmem, -⟩ := mem_symbols_of_token h rfl (by decide)
  exact (List.cons.inj (htable _ hmem rfl)).1

theorem eq_closeBrace (h : (token c cs).1 = .closeBrace) : c = '\x7d' := by
  have htable : ∀ e ∈ symbols, e.2 = .closeBrace → e.1 = ['\x7d'] := by decide
  obtain ⟨text, hmem, -⟩ := mem_symbols_of_token h rfl (by decide)
  exact (List.cons.inj (htable _ hmem rfl)).1

/-- Kinds that are only told from the context. -/
theorem token_ne (h : k ∈ [.templateHead, .templateMiddle, .templateTail, .regex]) :
    (token c cs).1 ≠ k := by
  have htable : ∀ e ∈ symbols,
      e.2 ∉ [Kind.templateHead, .templateMiddle, .templateTail, .regex] := by decide
  intro hk
  have hrest : k.isTrivia = false ∧
      k ∉ [.identifier, .privateName, .number, .string, .unknown] := by
    simp only [List.mem_cons, List.not_mem_nil, or_false] at h
    obtain rfl | rfl | rfl | rfl := h <;> decide
  obtain ⟨text, hmem, -⟩ := mem_symbols_of_token hk hrest.1 hrest.2
  exact htable _ hmem h

end Scan

namespace Lexer

/-- The braces that are open after a token of the kind, if it may stand there: what closes a
substitution is no brace. -/
def nest (braces : List BraceUse) : Kind → Option (List BraceUse)
  | .openBrace => some (.block :: braces)
  | .templateHead => some (.substitution :: braces)
  | .closeBrace =>
    match braces with
    | .substitution :: _ => none
    | .block :: braces => some braces
    | [] => some []
  | .templateMiddle =>
    match braces with
    | .substitution :: braces => some (.substitution :: braces)
    | _ => none
  | .templateTail =>
    match braces with
    | .substitution :: braces => some braces
    | _ => none
  | _ => some braces

section

variable {resumed : Bool} {braces braces' : List BraceUse} {cs : List Char} {n : Nat} {k : Kind}
  {e : Literal.PieceEnd}

def pieceKind (resumed : Bool) : Literal.PieceEnd → Kind
  | .backtick => if resumed then .templateTail else .template
  | .substitution => if resumed then .templateMiddle else .templateHead

def bracesAfter (braces : List BraceUse) : Literal.PieceEnd → List BraceUse
  | .backtick => braces
  | .substitution => .substitution :: braces

theorem templateSegment_of_pieceEnd? (h : Literal.pieceEnd? cs = some (e, n)) :
    templateSegment resumed braces cs = (pieceKind resumed e, n, bracesAfter braces e) := by
  unfold templateSegment
  rw [h]
  cases e <;> rfl

theorem pieceEnd?_of_templateSegment (h : templateSegment resumed braces cs = (k, n, braces'))
    (hu : k ≠ .unknown) : ∃ e, Literal.pieceEnd? cs = some (e, n) ∧ k = pieceKind resumed e ∧
      braces' = bracesAfter braces e := by
  cases hp : Literal.pieceEnd? cs with
  | none =>
    rw [templateSegment, hp] at h
    exact absurd (Prod.mk.inj h).1.symm hu
  | some p =>
    obtain ⟨e, m⟩ := p
    rw [templateSegment_of_pieceEnd? hp] at h
    cases h
    exact ⟨e, rfl, rfl, rfl⟩

end

variable {ctx ctx' : Context} {c : Char} {cs rest rest' : List Char} {k : Kind}
  {braces braces' : List BraceUse}

/-- What the lexer finds nests, and only that. -/
theorem nest_of_next {n : Nat} (h : ctx.next c cs = (k, n, braces)) (hu : k ≠ .unknown) :
    nest ctx.braces k = some braces := by
  revert h
  fun_cases Context.next ctx c cs with
  | case1 m ht =>
    intro h
    obtain ⟨e, -, rfl, rfl⟩ := pieceEnd?_of_templateSegment h hu
    cases e <;> rfl
  | case3 m ht bs hb =>
    intro h
    obtain ⟨e, -, rfl, rfl⟩ := pieceEnd?_of_templateSegment h hu
    rw [hb]
    cases e <;> rfl
  | case8 kind m h1 h2 h3 h4 ht =>
    intro h
    simp only [Prod.mk.injEq] at h
    obtain ⟨rfl, rfl, rfl⟩ := h
    have hcontext : kind ∉ [Kind.templateHead, .templateMiddle, .templateTail, .regex] :=
      fun hmem => Scan.token_ne hmem (by rw [ht])
    cases kind <;> simp_all [nest]
  | _ =>
    rintro ⟨⟩
    simp [nest, *]

theorem next_backtick {n : Nat} {e : Literal.PieceEnd} (ctx : Context)
    (h : Literal.pieceEnd? cs = some (e, n)) :
    ctx.next '\x60' cs = (pieceKind false e, n, bracesAfter ctx.braces e) := by
  rw [Context.next, Scan.token_backtick]
  exact templateSegment_of_pieceEnd? h

/-- In a substitution, a closing brace goes on with the template. -/
theorem next_resumed {n : Nat} {e : Literal.PieceEnd} (hb : ctx.braces = .substitution :: braces)
    (h : Literal.pieceEnd? cs = some (e, n)) :
    ctx.next '\x7d' cs = (pieceKind true e, n, bracesAfter braces e) := by
  rw [Context.next, Scan.token_closeBrace, hb]
  exact templateSegment_of_pieceEnd? h

theorem next_closeBrace {n : Nat} (ht : Scan.token c cs = (.closeBrace, n))
    (hn : nest ctx.braces .closeBrace = some braces) :
    ctx.next c cs = (.closeBrace, n, braces) := by
  rw [Context.next, ht]
  cases hb : ctx.braces with
  | nil =>
    rw [hb] at hn
    cases hn
    rfl
  | cons use bs =>
    rw [hb] at hn
    cases use with
    | block =>
      cases hn
      rfl
    | substitution => cases hn

theorem next_regex {n : Nat} (he : ctx.expectsOperand = true)
    (h : Literal.regexLength? false cs = some n) (hs : Scan.Stops Scan.opensComment cs) :
    ctx.next '/' cs = (.regex, n, ctx.braces) := by
  rw [Context.next, Scan.token_slash_eq hs]
  simp [he, h]

theorem next_operator {n : Nat} (ht : Scan.token c cs = (.operator, n))
    (he : c = '/' → ctx.expectsOperand = false) : ctx.next c cs = (.operator, n, ctx.braces) := by
  rw [Context.next, ht]
  by_cases hc : c = '/'
  · simp [he hc]
  · simp [hc]

/-- Where a template may go on or end, a substitution is open. -/
theorem braces_of_nest {bs bs' : List BraceUse} {e : Literal.PieceEnd}
    (hn : nest bs (pieceKind true e) = some bs') :
    ∃ outer, bs = .substitution :: outer ∧ bs' = bracesAfter outer e := by
  cases bs with
  | nil => cases e <;> cases hn
  | cons use outer =>
    cases use with
    | block => cases e <;> cases hn
    | substitution =>
      refine ⟨outer, rfl, ?_⟩
      cases e <;> cases hn <;> rfl

/-- A template may begin anywhere. -/
theorem nest_pieceKind (bs : List BraceUse) (e : Literal.PieceEnd) :
    nest bs (pieceKind false e) = some (bracesAfter bs e) := by
  cases e <;> rfl

/-- The lexer finds the same in another text, and with other braces open, if the token may stand
there and does not go on. -/
theorem next_boundary (h : ctx.next c (cs ++ rest) = (k, cs.length, braces))
    (hk : k.isTrivia = false) (hu : k ≠ .unknown) (hn : nest ctx'.braces k = some braces')
    (hs : c = '/' → (ctx'.expectsOperand = true ↔ k = .regex))
    (hr : Scan.Stops (Scan.continues k (c :: cs)) rest') :
    ctx'.next c (cs ++ rest') = (k, cs.length, braces') := by
  revert h
  fun_cases Context.next ctx c (cs ++ rest) with
  | case1 n ht =>
    intro h
    obtain rfl := Scan.eq_backtick (congrArg Prod.fst ht)
    obtain ⟨e, hp, rfl, rfl⟩ := pieceEnd?_of_templateSegment h hu
    rw [nest_pieceKind] at hn
    rw [next_backtick ctx' (Literal.pieceEnd?_boundary hp (Nat.le_refl _)), Option.some.inj hn]
  | case2 n ht =>
    rintro ⟨⟩
    cases hn
    rw [Context.next, Scan.token_boundary ht hk hu hr]
  | case3 n ht bs hb =>
    intro h
    obtain rfl := Scan.eq_closeBrace (congrArg Prod.fst ht)
    obtain ⟨e, hp, rfl, rfl⟩ := pieceEnd?_of_templateSegment h hu
    obtain ⟨outer, hb', rfl⟩ := braces_of_nest hn
    exact next_resumed hb' (Literal.pieceEnd?_boundary hp (Nat.le_refl _))
  | case4 n ht bs hb =>
    rintro ⟨⟩
    exact next_closeBrace (Scan.token_boundary ht hk hu hr) hn
  | case5 n ht hb =>
    rintro ⟨⟩
    exact next_closeBrace (Scan.token_boundary ht hk hu hr) hn
  | case6 n ht m hm =>
    rintro ⟨⟩
    cases hn
    split at hm
    · rename_i hc
      obtain rfl : c = '/' := by simpa using (Bool.and_eq_true_iff.1 hc).1
      have hstop : Scan.Stops Scan.opensComment (cs ++ rest') := by
        have hstop := Scan.stops_opensComment ht rfl (by decide)
        cases cs with
        | nil => exact absurd (Literal.regexLength?_pos hm) (Nat.lt_irrefl 0)
        | cons d cs => exact hstop
      exact next_regex ((hs rfl).2 rfl) (Literal.regexLength?_boundary hm (Nat.le_refl _) hr) hstop
    · cases hm
  | case7 n ht hm =>
    rintro ⟨⟩
    cases hn
    refine next_operator (Scan.token_boundary ht hk hu hr) fun hc => ?_
    rw [Bool.eq_false_iff]
    intro he
    cases (hs hc).1 he
  | case8 kind n h1 h2 h3 h4 ht =>
    rintro ⟨⟩
    have hcontext : k ∉ [Kind.templateHead, .templateMiddle, .templateTail, .regex] :=
      fun hmem => Scan.token_ne hmem (by rw [ht])
    have hnest : nest ctx'.braces k = some ctx'.braces := by
      cases k <;> simp_all [nest]
    rw [hnest] at hn
    cases hn
    rw [Context.next, Scan.token_boundary ht hk hu hr]
    cases k <;> simp_all

/-- Somewhere the lexer takes the token. -/
def IsWhole (t : Token) : Prop := ∃ (ctx : Context) (rest : List Char) (ctx' : Context),
  ctx.Takes t rest ctx'

theorem IsWhole.text_ne_empty {t : Token} (h : IsWhole t) : t.text ≠ "" := by
  obtain ⟨ctx, rest, ctx', c, cs, braces, htext, -⟩ := h
  intro hempty
  rw [hempty] at htext
  cases htext

/-- After `previous`, each token is known and stands apart from what follows it, and a slash stands
where its kind is expected. -/
def Apart (trailing : String) (previous : Option Piece) : List Token → Prop
  | [] => True
  | t :: ts => t.kind ≠ .unknown ∧
    (t.text.toList.head? = some '/' →
      ((Context.mk [] previous).expectsOperand = true ↔ t.kind = .regex)) ∧
    Scan.Stops (Scan.continues t.kind t.text.toList) (Token.sourceOf ts ++ trailing).toList ∧
    Apart trailing (some ⟨t.kind, t.text.toList⟩) ts

instance decidableApart (trailing : String) : ∀ (previous : Option Piece) (ts : List Token),
    Decidable (Apart trailing previous ts)
  | _, [] => isTrue trivial
  | _, t :: ts =>
    have := decidableApart trailing (some ⟨t.kind, t.text.toList⟩) ts
    inferInstanceAs (Decidable (_ ∧ _ ∧ Scan.Stops _ _ ∧ _))

theorem Context.takes_of_apart {t : Token} (hw : IsWhole t) (hu : t.kind ≠ .unknown)
    (hn : nest ctx.braces t.kind = some braces)
    (hs : t.text.toList.head? = some '/' → (ctx.expectsOperand = true ↔ t.kind = .regex))
    (hr : Scan.Stops (Scan.continues t.kind t.text.toList) rest) :
    ctx.Takes t rest ⟨braces, some ⟨t.kind, t.text.toList⟩⟩ := by
  obtain ⟨ctx₀, rest₀, ctx₁, c, cs, braces₀, htext, hk, hnext, -⟩ := hw
  rw [htext] at hs hr ⊢
  refine ⟨c, cs, braces, htext, hk, next_boundary hnext hk hu hn ?_ hr, ?_⟩
  · rintro rfl
    exact hs rfl
  · simp [after, hk]

/-- Tokens that stand apart are read where their braces nest. -/
theorem Context.reads_of_apart {trailing : String} {ts : List Token} (hw : ∀ t ∈ ts, IsWhole t)
    (hn : (ts.map Token.kind).foldlM nest ctx.braces = some braces)
    (ha : Apart trailing ctx.previous ts) : ctx.Reads trailing ts := by
  induction ts generalizing ctx with
  | nil => trivial
  | cons t ts ih =>
    obtain ⟨ht, hts⟩ := List.forall_mem_cons.1 hw
    obtain ⟨hu, hs, hr, hrest⟩ := ha
    rw [List.map_cons, List.foldlM_cons] at hn
    obtain ⟨inner, hinner, hn⟩ := Option.bind_eq_some_iff.1 hn
    exact ⟨_, takes_of_apart ht hu hinner hs hr, ih hts hn hrest⟩

theorem content_lexemes_of_apart {trailing : String} {ts : List Token}
    (hleading : ∀ t ∈ ts, Skipped t.leading.toList) (hw : ∀ t ∈ ts, IsWhole t)
    (ht : Waits trailing []) (hn : (ts.map Token.kind).foldlM nest [] = some braces)
    (ha : Apart trailing none ts) :
    (lexemes (Token.sourceOf ts ++ trailing)).content = (ts, trailing) :=
  (Context.content_eq_iff hleading (fun t hts => (hw t hts).text_ne_empty) ht).2
    (Context.reads_of_apart hw hn ha)

/-- The tokens of a text are whole, and they nest but for what is no token. -/
theorem Context.Reads.isWhole {trailing : String} {ts : List Token} (h : ctx.Reads trailing ts) :
    ∀ t ∈ ts, IsWhole t := by
  induction ts generalizing ctx with
  | nil => simp
  | cons t ts ih =>
    obtain ⟨ctx', htakes, hrest⟩ := h
    exact List.forall_mem_cons.2 ⟨⟨ctx, _, ctx', htakes⟩, ih hrest⟩

theorem Context.Takes.nest {t : Token} (h : ctx.Takes t rest ctx') (hu : t.kind ≠ .unknown) :
    Lexer.nest ctx.braces t.kind = some ctx'.braces := by
  obtain ⟨c, cs, braces, -, -, hnext, rfl⟩ := h
  exact nest_of_next hnext hu

theorem reads_lexemes (source : String) :
    Context.start.Reads (lexemes source).trailing (lexemes source).tokens := by
  refine (Context.content_eq_iff (skipped_leading_lexemes source)
    (text_ne_empty_of_mem_lexemes source) (waits_trailing_lexemes source)).1 ?_
  rw [sourceOf_lexemes]
  rfl

end Lexer

end TwinClasses
