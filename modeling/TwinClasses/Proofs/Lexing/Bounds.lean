import TwinClasses.Proofs.Lexing.Skipping

set_option autoImplicit false

/-! No token is longer than the text it is found in. -/

namespace TwinClasses

namespace Scan

theorem exponentLength_le (cs : List Char) : exponentLength cs ≤ cs.length := by
  fun_cases exponentLength cs with
  | case1 e cs he sign digits hd => omega
  | case2 e cs he sign digits hd =>
    have hdigits := run_le Char.isDigit (cs.drop sign)
    simp only [List.length_drop] at hdigits
    simp only [List.length_cons]
    omega
  | case3 e cs he => omega
  | case4 => omega

theorem bigMarkLength_le (cs : List Char) : bigMarkLength cs ≤ cs.length := by
  fun_cases bigMarkLength cs <;> simp

theorem fractionLength_le (cs : List Char) : fractionLength cs ≤ cs.length := by
  fun_cases fractionLength cs with
  | case1 cs =>
    have hrun := run_le isDigitPart cs
    simp only [List.length_cons]
    omega
  | case2 => omega

theorem decimalLength_le (cs : List Char) : decimalLength cs ≤ cs.length := by
  unfold decimalLength
  have hwhole := run_le isDigitPart cs
  have hfraction := fractionLength_le (cs.drop (run isDigitPart cs))
  have hexponent := exponentLength_le
    (cs.drop (run isDigitPart cs + fractionLength (cs.drop (run isDigitPart cs))))
  have hmark := bigMarkLength_le
    (cs.drop (run isDigitPart cs + fractionLength (cs.drop (run isDigitPart cs)) + exponentLength
      (cs.drop (run isDigitPart cs + fractionLength (cs.drop (run isDigitPart cs))))))
  simp only [List.length_drop] at hfraction hexponent hmark
  simp only
  omega

theorem radixLength?_le {cs : List Char} {n : Nat} (h : radixLength? cs = some n) :
    n ≤ cs.length := by
  revert h
  fun_cases radixLength? cs with
  | case1 x cs hx digits hd => simp
  | case2 x cs hx digits hd =>
    rintro ⟨⟩
    have hdigits := run_le isRadixDigitPart cs
    have hmark := bigMarkLength_le (cs.drop digits)
    simp only [List.length_drop] at hmark
    simp only [List.length_cons]
    omega
  | case3 => simp
  | case4 => simp

theorem numberLength_le (c : Char) (cs : List Char) : numberLength c cs ≤ cs.length := by
  unfold numberLength
  split
  · rename_i n h
    split at h
    · exact radixLength?_le h
    · cases h
  · exact decimalLength_le cs

theorem pointNumberLength?_le {cs : List Char} {n : Nat} (h : pointNumberLength? cs = some n) :
    n ≤ cs.length := by
  revert h
  fun_cases pointNumberLength? cs with
  | case1 d cs hd digits =>
    rintro ⟨⟩
    have hdigits := run_le isDigitPart cs
    have hexponent := exponentLength_le (cs.drop digits)
    simp only [List.length_drop] at hexponent
    simp only [List.length_cons]
    omega
  | case2 => simp
  | case3 => simp

theorem stringLength_le (quote : Char) (cs : List Char) :
    (stringLength quote cs).2 ≤ cs.length := by
  fun_induction stringLength quote cs with
  | case1 => simp
  | case2 => simp
  | case3 d cs closed n heq ih =>
    simp only [heq, List.length_cons] at ih ⊢
    omega
  | case4 => simp
  | case5 => simp
  | case6 c cs _ _ _ _ closed n heq ih =>
    simp only [heq, List.length_cons] at ih ⊢
    omega

theorem symbol_le (c : Char) (cs : List Char) : (symbol (c :: cs)).2 ≤ cs.length := by
  obtain ⟨before, text, kind, after, -, hp, -, hs⟩ | ⟨-, hs⟩ := symbol_cases (c :: cs)
  · have hle := hp.length_le
    rw [List.length_cons] at hle
    rw [hs]
    simp only
    omega
  · simp [hs]

theorem token_le (c : Char) (cs : List Char) : (token c cs).2 ≤ cs.length := by
  fun_cases token c cs with
  | case1 c cs hs => exact run_le _ cs
  | case2 c cs hs hi => exact run_le _ cs
  | case3 c cs hs hi hd => exact numberLength_le c cs
  | case4 c cs hs hi hd hq closed n heq =>
    have hle := stringLength_le c cs
    rw [heq] at hle
    exact hle
  | case5 ds =>
    have hle := run_le (· ≠ '\n') ds
    simp only [List.length_cons]
    omega
  | case6 ds n hn =>
    have hle := (commentLength?_append hn []).2
    simp only [List.length_cons]
    omega
  | case7 => simp
  | case8 d ds hd =>
    have hle := run_le isPrivateNamePart ds
    simp only [List.length_cons]
    omega
  | case9 => simp
  | case10 cs n hn => exact pointNumberLength?_le hn
  | case11 cs hn => exact symbol_le '.' cs
  | case12 c cs => exact symbol_le c cs

end Scan

namespace Literal

theorem pieceEnd?_le {cs : List Char} {e : PieceEnd} {n : Nat} (h : pieceEnd? cs = some (e, n)) :
    n ≤ cs.length := by
  fun_induction pieceEnd? cs generalizing n with
  | case1 => cases h
  | case2 => cases h
  | case3 d cs ih =>
    obtain ⟨⟨e', m⟩, hm, heq⟩ := Option.map_eq_some_iff.1 h
    cases heq
    have hle := ih hm
    simp only [List.length_cons]
    omega
  | case4 => cases h; simp
  | case5 => cases h; simp
  | case6 c cs _ _ _ _ ih =>
    obtain ⟨⟨e', m⟩, hm, heq⟩ := Option.map_eq_some_iff.1 h
    cases heq
    have hle := ih hm
    simp only [List.length_cons]
    omega

theorem regexLength?_le {inClass : Bool} {cs : List Char} {n : Nat}
    (h : regexLength? inClass cs = some n) : n ≤ cs.length := by
  fun_induction regexLength? inClass cs generalizing n with
  | case1 => cases h
  | case2 => cases h
  | case3 inClass d cs ih =>
    obtain ⟨m, hm, rfl⟩ := Option.map_eq_some_iff.1 h
    have hle := ih hm
    simp only [List.length_cons]
    omega
  | case4 => cases h
  | case5 inClass cs _ _ _ ih =>
    obtain ⟨m, hm, rfl⟩ := Option.map_eq_some_iff.1 h
    exact Nat.succ_le_succ (ih hm)
  | case6 inClass cs _ _ _ _ ih =>
    obtain ⟨m, hm, rfl⟩ := Option.map_eq_some_iff.1 h
    exact Nat.succ_le_succ (ih hm)
  | case7 inClass c cs =>
    cases h
    have hle := Scan.run_le Char.isAlpha cs
    rw [Scan.run] at hle
    rw [List.length_cons]
    omega
  | case8 inClass c cs _ _ _ _ _ _ ih =>
    obtain ⟨m, hm, rfl⟩ := Option.map_eq_some_iff.1 h
    exact Nat.succ_le_succ (ih hm)

end Literal

namespace Lexer

theorem templateSegment_le (resumed : Bool) (braces : List BraceUse) (cs : List Char) :
    (templateSegment resumed braces cs).2.1 ≤ cs.length := by
  unfold templateSegment
  split
  · rename_i h
    exact Literal.pieceEnd?_le h
  · rename_i h
    exact Literal.pieceEnd?_le h
  · exact Nat.le_refl _

theorem Context.next_le (ctx : Context) (c : Char) (cs : List Char) :
    (ctx.next c cs).2.1 ≤ cs.length := by
  have hle := Scan.token_le c cs
  fun_cases Context.next ctx c cs <;> simp_all [templateSegment_le]
  rename_i h
  exact Literal.regexLength?_le h.2

end Lexer

end TwinClasses
