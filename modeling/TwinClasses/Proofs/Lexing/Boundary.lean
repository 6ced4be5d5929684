import TwinClasses.Proofs.Lexing.Bounds

set_option autoImplicit false

/-! Where tokens end. A token found in a text is found again when the text after it changes, as long
as what comes next cannot continue it. -/

namespace TwinClasses

namespace Scan

/-- The text does not go on with a character of the class. -/
def Stops (p : Char → Bool) (rest : List Char) : Prop := ∀ d ∈ rest.head?, p d = false

instance decidableStops (p : Char → Bool) : ∀ rest : List Char, Decidable (Stops p rest)
  | [] => isTrue (by simp [Stops])
  | d :: _ => decidable_of_iff (p d = false) (by simp [Stops])

theorem Stops.mono {p q : Char → Bool} {rest : List Char} (h : Stops p rest)
    (hpq : ∀ d, q d = true → p d = true) : Stops q rest := by
  intro d hd
  have hp := h d hd
  cases hq : q d with
  | false => rfl
  | true =>
    rw [hpq d hq] at hp
    cases hp

section

variable {p : Char → Bool} {cs rest rest' : List Char}

theorem run_stops (h : Stops p rest) : run p rest = 0 := by
  cases rest with
  | nil => rfl
  | cons d rest => exact run_cons_of_not (h d rfl) rest

theorem run_boundary (h : run p (cs ++ rest) ≤ cs.length) (hr : Stops p rest') :
    run p (cs ++ rest') = run p (cs ++ rest) := by
  induction cs with
  | nil =>
    rw [List.nil_append, List.nil_append, run_stops hr]
    exact (Nat.le_zero.1 h).symm
  | cons c cs ih =>
    rw [List.cons_append, List.cons_append] at *
    cases hc : p c with
    | false => rw [run_cons_of_not hc, run_cons_of_not hc]
    | true =>
      rw [run_cons hc, List.length_cons] at h
      rw [run_cons hc, run_cons hc, ih (Nat.le_of_succ_le_succ h)]

end

/-- What may go on with a number. -/
def continuesNumber (d : Char) : Bool := isIdentifierPart d || d = '.'

section

variable {cs rest rest' : List Char}

theorem continuesNumber_of_isDigitPart (d : Char) (h : isDigitPart d = true) :
    continuesNumber d = true := by
  simp only [isDigitPart, Bool.or_eq_true, decide_eq_true_eq] at h
  obtain h | rfl := h
  · simp [continuesNumber, isIdentifierPart, h]
  · decide

theorem continuesNumber_of_isRadixDigitPart (d : Char) (h : isRadixDigitPart d = true) :
    continuesNumber d = true := by
  simp only [isRadixDigitPart, Bool.or_eq_true, Bool.and_eq_true, decide_eq_true_eq] at h
  obtain (h | h) | h := h
  · exact continuesNumber_of_isDigitPart d h
  · have hlower : d.isLower = true := by
      have h2 : d.val ≤ 'z'.val := UInt32.le_trans h.2 (by decide)
      exact Bool.and_eq_true_iff.2 ⟨decide_eq_true h.1, decide_eq_true h2⟩
    have halpha : d.isAlpha = true := Bool.or_eq_true_iff.2 (Or.inr hlower)
    simp [continuesNumber, isIdentifierPart, isIdentifierStart, isNameStart, halpha]
  · have hupper : d.isUpper = true := by
      have h2 : d.val ≤ 'Z'.val := UInt32.le_trans h.2 (by decide)
      exact decide_eq_true ⟨h.1, h2⟩
    have halpha : d.isAlpha = true := Bool.or_eq_true_iff.2 (Or.inl hupper)
    simp [continuesNumber, isIdentifierPart, isIdentifierStart, isNameStart, halpha]

theorem continuesNumber_of_isDigit (d : Char) (h : d.isDigit = true) : continuesNumber d = true :=
  continuesNumber_of_isDigitPart d (by simp [isDigitPart, h])

/-- A number is not continued by a character that it could not go on with. -/
theorem ne_of_stops (h : Stops continuesNumber rest) {d : Char} (hd : continuesNumber d = true)
    (ds : List Char) : rest ≠ d :: ds := by
  rintro rfl
  have hf := h d rfl
  rw [hd] at hf
  cases hf

/-- Length of the sign of an exponent. -/
def signLength : List Char → Nat
  | s :: _ => if s = '+' || s = '-' then 1 else 0
  | [] => 0

theorem signLength_le (cs : List Char) : signLength cs ≤ 1 := by
  fun_cases signLength cs <;> omega

/-- The digits after the sign of an exponent. -/
def exponentDigits (cs : List Char) : Nat := run Char.isDigit (cs.drop (signLength cs))

theorem exponentLength_cons (e : Char) (cs : List Char) : exponentLength (e :: cs) =
    if (e = 'e' ∨ e = 'E') ∧ exponentDigits cs ≠ 0 then 1 + signLength cs + exponentDigits cs
    else 0 := by
  have hlen : exponentLength (e :: cs) = if e = 'e' || e = 'E' then
      if exponentDigits cs = 0 then 0 else 1 + signLength cs + exponentDigits cs else 0 := by
    cases cs <;> rfl
  rw [hlen]
  by_cases he : e = 'e' ∨ e = 'E'
  · by_cases hd : exponentDigits cs = 0 <;> simp [he, hd]
  · simp [he]

/-- Sign and digits stay if all of them stand in front of the part that changes. -/
theorem exponentDigits_boundary (h₀ : exponentDigits (cs ++ rest) ≠ 0)
    (h : signLength (cs ++ rest) + exponentDigits (cs ++ rest) ≤ cs.length)
    (hr : Stops continuesNumber rest') :
    signLength (cs ++ rest') = signLength (cs ++ rest) ∧
      exponentDigits (cs ++ rest') = exponentDigits (cs ++ rest) := by
  cases cs with
  | nil =>
    rw [List.length_nil] at h
    omega
  | cons s cs =>
    have hle : signLength (s :: cs) ≤ (s :: cs).length := by
      have hone := signLength_le (s :: cs)
      rw [List.length_cons]
      omega
    have hdigits : ∀ ds, exponentDigits (s :: cs ++ ds) =
        run Char.isDigit ((s :: cs).drop (signLength (s :: cs)) ++ ds) := fun ds =>
      congrArg (run Char.isDigit) (List.drop_append_of_le_length hle)
    refine ⟨rfl, ?_⟩
    rw [hdigits] at h
    rw [hdigits, hdigits]
    refine run_boundary ?_ (hr.mono continuesNumber_of_isDigit)
    have hsign : signLength (s :: cs ++ rest) = signLength (s :: cs) := rfl
    rw [List.length_drop]
    omega

theorem exponentLength_stops (h : Stops continuesNumber rest) : exponentLength rest = 0 := by
  cases rest with
  | nil => rfl
  | cons e rest =>
    have he : ¬ (e = 'e' ∨ e = 'E') := by
      rintro (rfl | rfl)
      · exact ne_of_stops h (by decide) rest rfl
      · exact ne_of_stops h (by decide) rest rfl
    simp [exponentLength, he]

theorem exponentLength_boundary (h₀ : 0 < exponentLength (cs ++ rest))
    (h : exponentLength (cs ++ rest) ≤ cs.length) (hr : Stops continuesNumber rest') :
    exponentLength (cs ++ rest') = exponentLength (cs ++ rest) := by
  cases cs with
  | nil => exact absurd h₀ (Nat.not_lt.2 h)
  | cons e cs =>
    rw [List.cons_append, exponentLength_cons] at h h₀
    split at h₀
    · rename_i hc
      rw [if_pos hc, List.length_cons] at h
      obtain ⟨hsign, hdigits⟩ := exponentDigits_boundary hc.2 (by omega) hr
      rw [List.cons_append, List.cons_append, exponentLength_cons, exponentLength_cons, hsign,
        hdigits]
    · exact absurd h₀ (Nat.lt_irrefl 0)

theorem eq_of_bigMarkLength {c : Char} (h : bigMarkLength (c :: cs ++ rest) = (c :: cs).length) :
    c = 'n' := by
  by_cases hc : c = 'n'
  · exact hc
  · rw [List.cons_append, bigMarkLength.eq_2 _ (by simpa using hc)] at h
    cases h

theorem bigMarkLength_boundary (h : bigMarkLength (cs ++ rest) = cs.length)
    (hr : Stops continuesNumber rest') : bigMarkLength (cs ++ rest') = cs.length := by
  cases cs with
  | nil =>
    rw [List.nil_append]
    fun_cases bigMarkLength rest' with
    | case1 rest' => exact absurd rfl (ne_of_stops hr (by decide) rest')
    | case2 => rfl
  | cons c cs =>
    obtain rfl := eq_of_bigMarkLength h
    exact h

/-- What a decimal number ends with: an exponent and a mark. -/
def suffixLength (cs : List Char) : Nat :=
  exponentLength cs + bigMarkLength (cs.drop (exponentLength cs))

theorem suffixLength_boundary (h : suffixLength (cs ++ rest) = cs.length)
    (hr : Stops continuesNumber rest') : suffixLength (cs ++ rest') = cs.length := by
  unfold suffixLength at h ⊢
  by_cases h₀ : exponentLength (cs ++ rest) = 0
  · -- without an exponent there is only the mark, or nothing
    rw [h₀, List.drop_zero, Nat.zero_add] at h
    have hmark := bigMarkLength_boundary h hr
    have hzero : exponentLength (cs ++ rest') = 0 := by
      cases cs with
      | nil => exact exponentLength_stops hr
      | cons c cs =>
        obtain rfl := eq_of_bigMarkLength h
        rw [List.cons_append, exponentLength_cons]
        simp
    rw [hzero, List.drop_zero, Nat.zero_add, hmark]
  · have hle : exponentLength (cs ++ rest) ≤ cs.length := by omega
    have hexponent := exponentLength_boundary (Nat.pos_of_ne_zero h₀) hle hr
    rw [List.drop_append_of_le_length hle] at h
    have hmark : bigMarkLength (cs.drop (exponentLength (cs ++ rest)) ++ rest) =
        (cs.drop (exponentLength (cs ++ rest))).length := by
      rw [List.length_drop]
      omega
    rw [hexponent, List.drop_append_of_le_length hle, bigMarkLength_boundary hmark hr,
      List.length_drop]
    omega

theorem fractionLength_boundary (h : fractionLength (cs ++ rest) ≤ cs.length)
    (hr : Stops continuesNumber rest') :
    fractionLength (cs ++ rest') = fractionLength (cs ++ rest) := by
  cases cs with
  | nil =>
    rw [List.nil_append] at h
    rw [List.nil_append, List.nil_append, Nat.le_zero.1 h]
    fun_cases fractionLength rest' with
    | case1 rest' => exact absurd rfl (ne_of_stops hr (by decide) rest')
    | case2 => rfl
  | cons c cs =>
    rw [List.cons_append] at h ⊢
    rw [List.cons_append]
    by_cases hc : c = '.'
    · subst hc
      rw [fractionLength, List.length_cons] at h
      have hrun : run isDigitPart (cs ++ rest') = run isDigitPart (cs ++ rest) :=
        run_boundary (by omega) (hr.mono continuesNumber_of_isDigitPart)
      rw [fractionLength, fractionLength, hrun]
    · have hne : ∀ ds es, c :: ds = '.' :: es → False := fun ds es heq => hc (List.cons.inj heq).1
      rw [fractionLength.eq_2 _ (hne _), fractionLength.eq_2 _ (hne _)]

theorem decimalLength_boundary (h : decimalLength (cs ++ rest) = cs.length)
    (hr : Stops continuesNumber rest') : decimalLength (cs ++ rest') = cs.length := by
  have hlen : ∀ ds, decimalLength ds = run isDigitPart ds
      + fractionLength (ds.drop (run isDigitPart ds))
      + suffixLength ((ds.drop (run isDigitPart ds)).drop
        (fractionLength (ds.drop (run isDigitPart ds)))) := by
    intro ds
    simp only [decimalLength, suffixLength, List.drop_drop]
    omega
  rw [hlen] at h ⊢
  have hwhole : run isDigitPart (cs ++ rest') = run isDigitPart (cs ++ rest) :=
    run_boundary (by omega) (hr.mono continuesNumber_of_isDigitPart)
  rw [hwhole]
  generalize hw : run isDigitPart (cs ++ rest) = whole at h ⊢
  have hle : whole ≤ cs.length := by omega
  rw [List.drop_append_of_le_length hle] at h ⊢
  have hfraction : fractionLength (cs.drop whole ++ rest') =
      fractionLength (cs.drop whole ++ rest) :=
    fractionLength_boundary (by rw [List.length_drop]; omega) hr
  rw [hfraction]
  generalize hf : fractionLength (cs.drop whole ++ rest) = fraction at h ⊢
  have hle' : fraction ≤ (cs.drop whole).length := by
    rw [List.length_drop]
    omega
  rw [List.drop_append_of_le_length hle'] at h ⊢
  have hsuffix : suffixLength ((cs.drop whole).drop fraction ++ rest) =
      ((cs.drop whole).drop fraction).length := by
    rw [List.length_drop, List.length_drop]
    omega
  rw [suffixLength_boundary hsuffix hr, List.length_drop, List.length_drop]
  omega

theorem radixLength?_boundary (h : radixLength? (cs ++ rest) = some cs.length)
    (hr : Stops continuesNumber rest') : radixLength? (cs ++ rest') = some cs.length := by
  cases cs with
  | nil =>
    cases rest with
    | nil => cases h
    | cons x rest =>
      simp only [List.nil_append, radixLength?] at h
      split at h
      · split at h
        · cases h
        · have hlen := Option.some.inj h
          rw [List.length_nil] at hlen
          omega
      · cases h
  | cons x cs =>
    rw [List.cons_append, radixLength?] at h ⊢
    split at h
    · rename_i hx
      rw [if_pos hx]
      simp only at h ⊢
      split at h
      · cases h
      · rename_i hd
        have hlen := Option.some.inj h
        rw [List.length_cons] at hlen
        have hdigits : run isRadixDigitPart (cs ++ rest') = run isRadixDigitPart (cs ++ rest) :=
          run_boundary (by omega) (hr.mono continuesNumber_of_isRadixDigitPart)
        rw [hdigits, if_neg hd]
        generalize hg : run isRadixDigitPart (cs ++ rest) = digits at hlen hd ⊢
        have hle : digits ≤ cs.length := by omega
        rw [List.drop_append_of_le_length hle] at hlen ⊢
        have hmark : bigMarkLength (cs.drop digits ++ rest) = (cs.drop digits).length := by
          rw [List.length_drop]
          omega
        rw [bigMarkLength_boundary hmark hr, List.length_drop, List.length_cons]
        congr 1
        omega
    · cases h

theorem radixLength?_eq_none_boundary (h : radixLength? (cs ++ rest) = none)
    (hr : Stops continuesNumber rest') : radixLength? (cs ++ rest') = none := by
  cases cs with
  | nil =>
    cases rest' with
    | nil => rfl
    | cons x rest' =>
      have hx : x ∉ ['x', 'X', 'o', 'O', 'b', 'B'] := by
        intro hx
        refine ne_of_stops hr ?_ rest' rfl
        simp only [List.mem_cons, List.not_mem_nil, or_false] at hx
        obtain rfl | rfl | rfl | rfl | rfl | rfl := hx <;> decide
      rw [List.nil_append, radixLength?, if_neg hx]
  | cons x cs =>
    rw [List.cons_append, radixLength?] at h ⊢
    split at h
    · rename_i hx
      rw [if_pos hx]
      simp only at h ⊢
      split at h
      · rename_i hd
        have hdigits : run isRadixDigitPart (cs ++ rest') = run isRadixDigitPart (cs ++ rest) :=
          run_boundary (by omega) (hr.mono continuesNumber_of_isRadixDigitPart)
        rw [hdigits, if_pos hd]
      · cases h
    · rename_i hx
      rw [if_neg hx]

theorem numberLength_boundary {c : Char} (h : numberLength c (cs ++ rest) = cs.length)
    (hr : Stops continuesNumber rest') : numberLength c (cs ++ rest') = cs.length := by
  unfold numberLength at h ⊢
  by_cases hc : c = '0'
  · rw [if_pos hc] at h ⊢
    cases hn : radixLength? (cs ++ rest) with
    | some n =>
      rw [hn] at h
      obtain rfl : n = cs.length := h
      rw [radixLength?_boundary hn hr]
    | none =>
      rw [hn] at h
      rw [radixLength?_eq_none_boundary hn hr]
      exact decimalLength_boundary h hr
  · rw [if_neg hc] at h ⊢
    exact decimalLength_boundary h hr

theorem pointNumberLength?_boundary (h : pointNumberLength? (cs ++ rest) = some cs.length)
    (hr : Stops continuesNumber rest') : pointNumberLength? (cs ++ rest') = some cs.length := by
  cases cs with
  | nil =>
    cases rest with
    | nil => cases h
    | cons d rest =>
      simp only [List.nil_append, pointNumberLength?] at h
      split at h
      · have hlen := Option.some.inj h
        rw [List.length_nil] at hlen
        omega
      · cases h
  | cons d cs =>
    rw [List.cons_append, pointNumberLength?] at h ⊢
    split at h
    · rename_i hd
      rw [if_pos hd]
      simp only at h ⊢
      have hlen := Option.some.inj h
      rw [List.length_cons] at hlen
      have hdigits : run isDigitPart (cs ++ rest') = run isDigitPart (cs ++ rest) :=
        run_boundary (by omega) (hr.mono continuesNumber_of_isDigitPart)
      rw [hdigits]
      generalize hg : run isDigitPart (cs ++ rest) = digits at hlen ⊢
      have hle : digits ≤ cs.length := by omega
      rw [List.drop_append_of_le_length hle] at hlen ⊢
      have hexponent : exponentLength (cs.drop digits ++ rest') = (cs.drop digits).length := by
        by_cases h₀ : exponentLength (cs.drop digits ++ rest) = 0
        · have hnil : cs.drop digits = [] := by
            rw [← List.length_eq_zero_iff, List.length_drop]
            omega
          rw [hnil, List.nil_append, exponentLength_stops hr]
          rfl
        · rw [exponentLength_boundary (Nat.pos_of_ne_zero h₀) (by rw [List.length_drop]; omega) hr,
            List.length_drop]
          omega
      rw [hexponent, List.length_drop, List.length_cons]
      congr 1
      omega
    · cases h

/-- A point in front of which no number was found makes none with what is no digit. -/
theorem pointNumberLength?_eq_none_boundary (h : pointNumberLength? (cs ++ rest) = none)
    (hr : cs = [] → Stops Char.isDigit rest') : pointNumberLength? (cs ++ rest') = none := by
  cases cs with
  | nil =>
    cases rest' with
    | nil => rfl
    | cons d rest' =>
      have hd : d.isDigit = false := hr rfl d rfl
      simp [pointNumberLength?, hd]
  | cons d cs =>
    rw [List.cons_append, pointNumberLength?] at h ⊢
    split at h
    · cases h
    · rename_i hd
      rw [if_neg hd]

theorem stringLength_pos {quote : Char} {n : Nat} (h : stringLength quote cs = (true, n)) :
    0 < n := by
  revert h
  fun_cases stringLength quote cs <;> grind

theorem stringLength_escape (quote d : Char) (cs : List Char) :
    stringLength quote ('\\' :: d :: cs) =
      ((stringLength quote cs).1, (stringLength quote cs).2 + 2) := rfl

theorem stringLength_cons {quote c : Char} (hc : c ≠ '\\') (cs : List Char) :
    stringLength quote (c :: cs) = if c = quote then (true, 1) else if c = '\n' then (false, 0)
      else ((stringLength quote cs).1, (stringLength quote cs).2 + 1) :=
  stringLength.eq_4 quote c cs (fun h _ => hc h) fun _ _ h _ => hc h

/-- A character that takes no other with it. -/
theorem ne_backslash {c : Char} {cs : List Char} (hnil : c = '\\' → cs = [] → False)
    (hcons : ∀ d ds, c = '\\' → cs = d :: ds → False) : c ≠ '\\' := by
  intro hc
  cases cs with
  | nil => exact hnil hc rfl
  | cons d ds => exact hcons d ds hc rfl

/-- A closed string ends at its quote. -/
theorem stringLength_boundary {quote : Char} {n : Nat}
    (h : stringLength quote (cs ++ rest) = (true, n)) (hle : n ≤ cs.length) :
    stringLength quote (cs ++ rest') = (true, n) := by
  fun_induction stringLength quote cs generalizing n with
  | case1 => exact absurd (stringLength_pos h) (Nat.not_lt.2 hle)
  | case2 =>
    cases rest with
    | nil => cases h
    | cons d rest =>
      rw [List.cons_append, List.nil_append, stringLength_escape] at h
      obtain ⟨-, rfl⟩ := Prod.mk.inj h
      rw [List.length_singleton] at hle
      omega
  | case3 d cs closed m heq ih =>
    obtain ⟨⟨closed', k⟩, hk⟩ : ∃ r, stringLength quote (cs ++ rest) = r := ⟨_, rfl⟩
    rw [List.cons_append, List.cons_append, stringLength_escape, hk] at h
    obtain ⟨rfl, rfl⟩ := Prod.mk.inj h
    rw [List.cons_append, List.cons_append, stringLength_escape,
      ih hk (Nat.le_of_add_le_add_right hle)]
  | case4 cs hnil hcons =>
    have hq := ne_backslash hnil hcons
    rw [List.cons_append, stringLength_cons hq, if_pos rfl] at h
    rw [List.cons_append, stringLength_cons hq, if_pos rfl, h]
  | case5 cs hnil hcons hq =>
    rw [List.cons_append, stringLength_cons (by decide), if_neg hq, if_pos rfl] at h
    cases h
  | case6 c cs hnil hcons hq hn closed m heq ih =>
    have hc := ne_backslash hnil hcons
    obtain ⟨⟨closed', k⟩, hk⟩ : ∃ r, stringLength quote (cs ++ rest) = r := ⟨_, rfl⟩
    rw [List.cons_append, stringLength_cons hc, if_neg hq, if_neg hn, hk] at h
    obtain ⟨rfl, rfl⟩ := Prod.mk.inj h
    rw [List.cons_append, stringLength_cons hc, if_neg hq, if_neg hn,
      ih hk (Nat.le_of_succ_le_succ hle)]

/-- The text with one more character starts a symbol. -/
def continuesSymbol (text : List Char) (d : Char) : Bool :=
  symbols.any fun (s, _) => (text ++ [d]).isPrefixOf s

/-- What starts a longer text starts the shorter one, or goes on with the character after it. -/
theorem prefix_or_continues {text s rest : List Char} (h : s <+: text ++ rest) :
    s <+: text ∨ ∃ d ∈ rest.head?, text ++ [d] <+: s := by
  by_cases hle : s.length ≤ text.length
  · exact Or.inl (List.prefix_of_prefix_length_le h (List.prefix_append text rest) hle)
  · cases rest with
    | nil =>
      rw [List.append_nil] at h
      exact Or.inl h
    | cons d rest =>
      have hd : text ++ [d] <+: text ++ d :: rest :=
        (List.prefix_append_right_inj text).2 (List.prefix_append [d] rest)
      refine Or.inr ⟨d, rfl, List.prefix_of_prefix_length_le hd h ?_⟩
      rw [List.length_append, List.length_singleton]
      omega

/-- The symbol found is the text that it is found with. -/
theorem symbols_eq_append {k : Kind} {c : Char} (h : symbol (c :: cs ++ rest) = (k, cs.length))
    (hk : k ≠ .unknown) : ∃ before after, symbols = before ++ (c :: cs, k) :: after ∧
      ∀ e ∈ before, ¬ e.1 <+: c :: cs ++ rest := by
  obtain ⟨before, text, kind, after, hsplit, hp, hbefore, hs⟩ | ⟨-, hs⟩ :=
    symbol_cases (c :: cs ++ rest)
  · rw [hs] at h
    obtain ⟨rfl, hlen⟩ := Prod.mk.inj h
    have hpos : 0 < text.length :=
      List.length_pos_iff.2 (symbols_ne_nil (text, kind) (by simp [hsplit]))
    have hsame : text.length = (c :: cs).length := by
      rw [List.length_cons]
      omega
    have htext : text <+: c :: cs :=
      List.prefix_of_prefix_length_le hp (List.prefix_append (c :: cs) rest) (Nat.le_of_eq hsame)
    rw [htext.eq_of_length hsame] at hsplit
    exact ⟨before, after, hsplit, hbefore⟩
  · rw [hs] at h
    exact absurd (Prod.mk.inj h).1.symm hk

theorem mem_symbols {k : Kind} {c : Char} (h : symbol (c :: cs ++ rest) = (k, cs.length))
    (hk : k ≠ .unknown) : (c :: cs, k) ∈ symbols := by
  obtain ⟨before, after, hsplit, -⟩ := symbols_eq_append h hk
  simp [hsplit]

theorem symbol_boundary {k : Kind} {c : Char} (h : symbol (c :: cs ++ rest) = (k, cs.length))
    (hk : k ≠ .unknown) (hr : Stops (continuesSymbol (c :: cs)) rest') :
    symbol (c :: cs ++ rest') = (k, cs.length) := by
  obtain ⟨before, after, hsplit, hbefore⟩ := symbols_eq_append h hk
  refine symbol_of_first hsplit (List.prefix_append _ _) fun e he hprefix => ?_
  obtain hshort | ⟨d, hd, hlong⟩ := prefix_or_continues hprefix
  · exact hbefore e he (hshort.trans (List.prefix_append _ _))
  · have hmem : e ∈ symbols := by
      rw [hsplit]
      exact List.mem_append_left _ he
    have hstop := hr d hd
    have hcontinues : continuesSymbol (c :: cs) d = true :=
      List.any_eq_true.2 ⟨e, hmem, List.isPrefixOf_iff_prefix.2 hlong⟩
    rw [hcontinues] at hstop
    cases hstop

end

end Scan

namespace Literal

variable {cs rest rest' : List Char}

theorem pieceEnd?_pos {e : PieceEnd} {n : Nat} (h : pieceEnd? cs = some (e, n)) : 0 < n := by
  revert h
  fun_cases pieceEnd? cs <;> grind [Option.map_eq_some_iff]

theorem pieceEnd?_cons {c : Char} (hc : c ≠ '\\') (hq : c ≠ '\x60')
    (hs : ∀ ds, c = '$' → cs = '\x7b' :: ds → False) :
    pieceEnd? (c :: cs) = (pieceEnd? cs).map fun (e, n) => (e, n + 1) :=
  pieceEnd?.eq_6 c cs (fun h _ => hc h) (fun _ _ h _ => hc h) hq hs

/-- A template piece ends at its mark. -/
theorem pieceEnd?_boundary {e : PieceEnd} {n : Nat} (h : pieceEnd? (cs ++ rest) = some (e, n))
    (hle : n ≤ cs.length) : pieceEnd? (cs ++ rest') = some (e, n) := by
  fun_induction pieceEnd? cs generalizing n with
  | case1 => exact absurd (pieceEnd?_pos h) (Nat.not_lt.2 hle)
  | case2 =>
    cases rest with
    | nil => cases h
    | cons d rest =>
      obtain ⟨⟨e', m⟩, -, heq⟩ := Option.map_eq_some_iff.1 h
      cases heq
      rw [List.length_singleton] at hle
      omega
  | case3 d cs ih =>
    obtain ⟨⟨e', m⟩, hm, heq⟩ := Option.map_eq_some_iff.1 h
    cases heq
    exact Option.map_eq_some_iff.2 ⟨(e, m), ih hm (Nat.le_of_add_le_add_right hle), rfl⟩
  | case4 cs => exact h
  | case5 cs => exact h
  | case6 c cs hnil hcons hq hs ih =>
    have hc := Scan.ne_backslash hnil hcons
    cases cs with
    | nil =>
      -- one character alone ends a piece only if it is the mark
      by_cases hsub : ∃ ds, c = '$' ∧ rest = '\x7b' :: ds
      · obtain ⟨ds, rfl, rfl⟩ := hsub
        cases h
        rw [List.length_singleton] at hle
        omega
      · rw [List.cons_append, List.nil_append,
          pieceEnd?_cons hc hq fun ds hd hr => hsub ⟨ds, hd, hr⟩] at h
        obtain ⟨⟨e', m⟩, hm, heq⟩ := Option.map_eq_some_iff.1 h
        cases heq
        have hpos := pieceEnd?_pos hm
        rw [List.length_singleton] at hle
        omega
    | cons d cs =>
      have hsub : ∀ es ds, c = '$' → d :: es = '\x7b' :: ds → False := by
        intro es ds hd heq
        obtain ⟨rfl, -⟩ := List.cons.inj heq
        exact hs cs hd rfl
      rw [List.cons_append, List.cons_append, pieceEnd?_cons hc hq (hsub _)] at h
      obtain ⟨⟨e', m⟩, hm, heq⟩ := Option.map_eq_some_iff.1 h
      cases heq
      rw [List.cons_append, List.cons_append, pieceEnd?_cons hc hq (hsub _)]
      exact Option.map_eq_some_iff.2 ⟨(e, m), ih hm (Nat.le_of_succ_le_succ hle), rfl⟩

theorem regexLength?_pos {inClass : Bool} {n : Nat} (h : regexLength? inClass cs = some n) :
    0 < n := by
  revert h
  fun_cases regexLength? inClass cs <;> grind [Option.map_eq_some_iff]

theorem regexLength?_cons {c : Char} (hc : c ≠ '\\') (inClass : Bool) (cs : List Char) :
    regexLength? inClass (c :: cs) =
      if c = '\n' || c = '\r' then none
      else if c = '[' then (regexLength? true cs).map (· + 1)
      else if c = ']' then (regexLength? false cs).map (· + 1)
      else if c = '/' && !inClass then some (1 + (cs.takeWhile Char.isAlpha).length)
      else (regexLength? inClass cs).map (· + 1) :=
  regexLength?.eq_4 inClass c cs (fun h _ => hc h) fun _ _ h _ => hc h

/-- A regular expression ends at its slash and the flags after it. -/
theorem regexLength?_boundary {inClass : Bool} {n : Nat}
    (h : regexLength? inClass (cs ++ rest) = some n) (hle : n ≤ cs.length)
    (hr : Scan.Stops Char.isAlpha rest') : regexLength? inClass (cs ++ rest') = some n := by
  fun_induction regexLength? inClass cs generalizing n with
  | case1 => exact absurd (regexLength?_pos h) (Nat.not_lt.2 hle)
  | case2 =>
    cases rest with
    | nil => cases h
    | cons d rest =>
      obtain ⟨m, -, rfl⟩ := Option.map_eq_some_iff.1 h
      rw [List.length_singleton] at hle
      omega
  | case3 inClass d cs ih =>
    obtain ⟨m, hm, rfl⟩ := Option.map_eq_some_iff.1 h
    exact Option.map_eq_some_iff.2 ⟨m, ih hm (Nat.le_of_add_le_add_right hle), rfl⟩
  | case4 inClass c cs hnil hcons hn =>
    rw [List.cons_append, regexLength?_cons (Scan.ne_backslash hnil hcons), if_pos hn] at h
    cases h
  | case5 inClass cs hnil hcons hn ih =>
    obtain ⟨m, hm, rfl⟩ := Option.map_eq_some_iff.1 h
    exact Option.map_eq_some_iff.2 ⟨m, ih hm (Nat.le_of_succ_le_succ hle), rfl⟩
  | case6 inClass cs hnil hcons hn hopen ih =>
    obtain ⟨m, hm, rfl⟩ := Option.map_eq_some_iff.1 h
    exact Option.map_eq_some_iff.2 ⟨m, ih hm (Nat.le_of_succ_le_succ hle), rfl⟩
  | case7 inClass c cs hnil hcons hn hopen hclose hslash =>
    have hc := Scan.ne_backslash hnil hcons
    rw [List.cons_append, regexLength?_cons hc, if_neg hn, if_neg hopen, if_neg hclose,
      if_pos hslash] at h
    have hrun : 1 + Scan.run Char.isAlpha (cs ++ rest) = n := Option.some.inj h
    rw [List.length_cons] at hle
    rw [List.cons_append, regexLength?_cons hc, if_neg hn, if_neg hopen, if_neg hclose,
      if_pos hslash]
    have hrun' : Scan.run Char.isAlpha (cs ++ rest') = Scan.run Char.isAlpha (cs ++ rest) :=
      Scan.run_boundary (by omega) hr
    exact congrArg some (by rw [← hrun, ← hrun']; rfl)
  | case8 inClass c cs hnil hcons hn hopen hclose hslash ih =>
    have hc := Scan.ne_backslash hnil hcons
    rw [List.cons_append, regexLength?_cons hc, if_neg hn, if_neg hopen, if_neg hclose,
      if_neg hslash] at h
    obtain ⟨m, hm, rfl⟩ := Option.map_eq_some_iff.1 h
    rw [List.cons_append, regexLength?_cons hc, if_neg hn, if_neg hopen, if_neg hclose,
      if_neg hslash]
    exact Option.map_eq_some_iff.2 ⟨m, ih hm (Nat.le_of_succ_le_succ hle), rfl⟩

end Literal

end TwinClasses
