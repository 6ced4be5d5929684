import Mathlib.Data.List.Chain
import Mathlib.Data.List.Forall2
import Mathlib.Data.List.TakeWhile
import TwinClasses.Json.Noise
import TwinClasses.Json.Reading

set_option autoImplicit false

/-! The words of a JSON text: the text of each of its tokens as it is written. Between them only
whitespace stands, and whatever stands there, they are read as the same tokens. -/

namespace TwinClasses.Json

/-- Nothing is wrong with the token. -/
def Token.isSound : Token → Bool
  | broken .. | string _ (some _) => false
  | _ => true

def Token.isClosing : Token → Bool
  | closeObject | closeArray => true
  | _ => false

/-- It may come after a value. -/
def Token.isSeparator (t : Token) : Bool := t = comma || t.isClosing

/-- Its text may be a number, which goes on as long as it can. -/
def Token.isOpenEnded (t : Token) : Bool := t = scalar || t = hugeNumber

/-- What may stand right after a token: no closing bracket after a comma, and nothing but commas and
closing brackets after a number. -/
structure Token.Precedes (t u : Token) : Prop where
  comma : t = comma → u.isClosing = false
  openEnded : t.isOpenEnded → u.isSeparator

/-- Tokens without faults that follow each other as in a value. -/
structure Sound (ts : List Token) : Prop where
  sound : ∀ t ∈ ts, t.isSound
  chain : ts.IsChain Token.Precedes

def Expected.admits : Expected → Token → Bool
  | value closable, t | key closable, t => closable || !t.isClosing
  | colon, _ => true
  | separator, t => t.isSeparator

/-- Sound tokens, the first of which may be what is expected. -/
structure Expected.Fits (e : Expected) (ts : List Token) : Prop where
  sound : Sound ts
  head : ∀ t ∈ ts.head?, e.admits t

section

variable {e : Expected} {t : Token} {ts : List Token}

theorem Sound.cons (h : Sound ts) (ht : t.isSound) (hnext : ∀ u ∈ ts.head?, t.Precedes u) :
    Sound (t :: ts) :=
  ⟨List.forall_mem_cons.2 ⟨ht, h.sound⟩, List.isChain_cons.2 ⟨hnext, h.chain⟩⟩

theorem Sound.head (h : Sound (t :: ts)) : ∀ u ∈ ts.head?, t.Precedes u :=
  (List.isChain_cons.1 h.chain).1

theorem Sound.tail (h : Sound (t :: ts)) : Sound ts :=
  ⟨(List.forall_mem_cons.1 h.sound).2, (List.isChain_cons.1 h.chain).2⟩

theorem Expected.Fits.sound_comma (h : e.Fits ts) (he : ∀ u, e.admits u → u.isClosing = false) :
    Sound (.comma :: ts) :=
  h.sound.cons rfl fun u hu => ⟨fun _ => he u (h.head u hu), fun hn => by cases hn⟩

theorem Expected.Fits.sound_closed (h : e.Fits ts) (ht : t.isSound) (hc : t ≠ .comma)
    (hn : t.isOpenEnded = false) : Sound (t :: ts) :=
  h.sound.cons ht fun _ _ => ⟨fun htc => absurd htc hc, fun htn => by simp [hn] at htn⟩

theorem Expected.Fits.sound_value (h : separator.Fits ts) (ht : t.isSound) (hc : t ≠ .comma) :
    Sound (t :: ts) :=
  h.sound.cons ht fun u hu => ⟨fun htc => absurd htc hc, fun _ => h.head u hu⟩

end

/-- What is passed over as a value, whatever stands around it. -/
theorem fits_of_skip {around : List Enclosure} {expected : Expected} {ts : List Token}
    (h : skip around expected ts = .ok []) : expected.Fits ts := by
  induction ts generalizing around expected with
  | nil => simp [skip] at h
  | cons t ts ih =>
    have done {around : List Enclosure} (h : (if around.isEmpty then .ok ts
        else skip around .separator ts) = Except.ok []) (ht : t.isSound) (hc : t ≠ .comma) :
        Sound (t :: ts) := by
      split at h
      · cases h
        exact ⟨by simpa using ht, List.isChain_singleton t⟩
      · exact (ih h).sound_value ht hc
    unfold skip at h
    split at h
    case h_14 | h_15 =>
      exact ⟨(ih h).sound_comma (by simp [Expected.admits]),
        by simp [Expected.admits, Token.isSeparator]⟩
    case h_2 | h_3 | h_11 | h_13 =>
      exact ⟨(ih h).sound_closed rfl (by simp) rfl, by simp [Expected.admits, Token.isClosing]⟩
    case h_5 items fault hno =>
      cases fault with
      | none => exact ⟨done h rfl (by simp), by simp [Expected.admits, Token.isClosing]⟩
      | some f => exact (hno f rfl).elim
    case h_6 | h_7 | h_8 | h_1 | h_10 | h_16 | h_17 =>
      exact ⟨done h rfl (by simp), by simp [Expected.admits, Token.isClosing, Token.isSeparator]⟩
    all_goals simp at h

/-! Reading a word again in front of another text. -/

/-- A number goes on where the character comes next. -/
def isNumberPart (c : Char) : Bool := c.isDigit || c = '.' || c = 'e' || c = 'E'

def EndsNumber (rest : List Char) : Prop := ∀ c ∈ rest.head?, isNumberPart c = false

/-- Neither blank nor the start of a string, a comment or a trailing comma. -/
def isPlain (c : Char) : Bool := !Text.isBlank c && c ≠ '"' && c ≠ '/' && c ≠ ','

/-- The reader takes `w` off the front of a text, as a number or its end. -/
structure TakesNumber (read : List Char → Token × List Char) (w : List Char) (t : Token) :
    Prop where
  plain : ∀ c ∈ w, isPlain c
  openEnded : t.isOpenEnded
  again : ∀ rest, EndsNumber rest → read (w ++ rest) = (t, rest)

theorem isPlain_of_isDigit {c : Char} (h : c.isDigit) : isPlain c := by
  have hn : 48 ≤ c.toNat ∧ c.toNat ≤ 57 := by
    simpa [Char.isDigit, UInt32.le_iff_toNat_le] using h
  have hblank : Text.isBlank c = false := by
    simp [Text.isBlank, Text.blankRanges]
    omega
  have hne {d : Char} (hd : d.toNat < 48) : c ≠ d := fun he => by
    rw [he] at hn
    omega
  simp [isPlain, hblank, hne (d := '"') (by decide), hne (d := '/') (by decide),
    hne (d := ',') (by decide)]

section

variable {whole fraction cs rest : List Char} {t : Token}

theorem isPlain_of_mem_digits {c : Char} (h : c ∈ cs.takeWhile Char.isDigit) : isPlain c :=
  isPlain_of_isDigit (List.mem_takeWhile_imp h)

/-- Digits are taken again in front of a text that does not go on with them. -/
theorem takeWhile_digits_append (cs : List Char) (hr : ∀ c ∈ rest.head?, c.isDigit = false) :
    (cs.takeWhile Char.isDigit ++ rest).takeWhile Char.isDigit = cs.takeWhile Char.isDigit ∧
      (cs.takeWhile Char.isDigit ++ rest).dropWhile Char.isDigit = rest := by
  have hd : ∀ c ∈ cs.takeWhile Char.isDigit, c.isDigit := fun c hc => List.mem_takeWhile_imp hc
  rw [List.takeWhile_append_of_pos hd, List.dropWhile_append_of_pos hd]
  cases rest with
  | nil => simp
  | cons c cs =>
    have hc := hr c rfl
    simp [hc]

theorem EndsNumber.not_digit (h : EndsNumber rest) : ∀ c ∈ rest.head?, c.isDigit = false :=
  fun c hc => by
    have hn := h c hc
    simp only [isNumberPart, Bool.or_eq_false_iff] at hn
    exact hn.1.1.1

theorem EndsNumber.not_point (h : EndsNumber rest) : ∀ c ∈ rest.head?, c ≠ '.' := fun c hc => by
  rintro rfl
  exact absurd (h '.' hc) (by decide)

theorem EndsNumber.not_exponent (h : EndsNumber rest) :
    ∀ c ∈ rest.head?, ¬(c = 'e' ∨ c = 'E') := fun c hc => by
  rintro (rfl | rfl)
  · exact absurd (h 'e' hc) (by decide)
  · exact absurd (h 'E' hc) (by decide)

theorem forall_head?_append {p : Char → Prop} {w : List Char} (hw : ∀ c ∈ w.head?, p c)
    (hr : ∀ c ∈ rest.head?, p c) : ∀ c ∈ (w ++ rest).head?, p c := by
  cases w with
  | nil => exact hr
  | cons d w => exact hw

theorem isOpenEnded_numberToken (whole fraction : List Char) (exponent : Int) :
    (numberToken whole fraction exponent).isOpenEnded := by
  unfold numberToken
  split <;> rfl

/-- The sign of an exponent, and what follows it. -/
def signed : List Char → Bool × List Char
  | '+' :: cs => (false, cs)
  | '-' :: cs => (true, cs)
  | cs => (false, cs)

theorem signed_append (cs : List Char) :
    ∃ sign, cs = sign ++ (signed cs).2 ∧ (∀ c ∈ sign, isPlain c) ∧
      ∀ d ds, d.isDigit → signed (sign ++ d :: ds) = ((signed cs).1, d :: ds) := by
  fun_cases signed cs with
  | case1 cs => exact ⟨['+'], rfl, List.all_eq_true.1 rfl, fun d ds _ => rfl⟩
  | case2 cs => exact ⟨['-'], rfl, List.all_eq_true.1 rfl, fun d ds _ => rfl⟩
  | case3 =>
    refine ⟨[], rfl, by simp, fun d ds hd => ?_⟩
    rw [List.nil_append, signed.eq_3]
    · rintro _ ⟨⟩
      exact absurd hd (by decide)
    · rintro _ ⟨⟩
      exact absurd hd (by decide)

theorem readExponent_exponent {c : Char} (hc : c = 'e' ∨ c = 'E') (cs : List Char) :
    readExponent whole fraction (c :: cs) =
      if ((signed cs).2.takeWhile Char.isDigit).isEmpty then withoutDigits (signed cs).2
      else
        (numberToken whole fraction
          (if (signed cs).1 then -Nat.ofDigitChars 10 ((signed cs).2.takeWhile Char.isDigit) 0
            else Nat.ofDigitChars 10 ((signed cs).2.takeWhile Char.isDigit) 0),
          (signed cs).2.dropWhile Char.isDigit) := by
  unfold readExponent
  simp only [decide_eq_true_eq, Bool.or_eq_true, if_pos hc]
  fun_cases signed cs with
  | case3 => simp
  | _ => rfl

theorem readExponent_of_not_exponent (h : ∀ c ∈ cs.head?, ¬(c = 'e' ∨ c = 'E')) :
    readExponent whole fraction cs = (numberToken whole fraction 0, cs) := by
  cases cs with
  | nil => rfl
  | cons c cs =>
    have hc := h c rfl
    simp [readExponent, hc]

theorem readExponent_takes (h : readExponent whole fraction cs = (t, rest)) (ht : t.isSound) :
    ∃ w, cs = w ++ rest ∧ (∀ c ∈ w.head?, c = 'e' ∨ c = 'E') ∧
      TakesNumber (readExponent whole fraction) w t := by
  by_cases hc : ∃ c ds, cs = c :: ds ∧ (c = 'e' ∨ c = 'E')
  · obtain ⟨c, ds, rfl, hc⟩ := hc
    obtain ⟨sign, hsign, hplain, hagain⟩ := signed_append ds
    rw [readExponent_exponent hc] at h
    split at h
    · obtain ⟨rfl, -⟩ := Prod.mk.inj h
      cases ht
    · rename_i hdigits
      obtain ⟨rfl, rfl⟩ := Prod.mk.inj h
      have hcplain : isPlain c := by obtain rfl | rfl := hc <;> decide
      refine ⟨c :: (sign ++ (signed ds).2.takeWhile Char.isDigit), ?_, by simpa using hc, ?_,
        isOpenEnded_numberToken .., fun r hr => ?_⟩
      · rw [List.cons_append, List.append_assoc, List.takeWhile_append_dropWhile, ← hsign]
      · exact List.forall_mem_cons.2
          ⟨hcplain, List.forall_mem_append.2 ⟨hplain, fun d => isPlain_of_mem_digits⟩⟩
      · obtain ⟨htake, hdrop⟩ := takeWhile_digits_append (signed ds).2 hr.not_digit
        have hsigned : signed (sign ++ ((signed ds).2.takeWhile Char.isDigit ++ r)) =
            ((signed ds).1, (signed ds).2.takeWhile Char.isDigit ++ r) := by
          -- Were there no digit, what follows could be taken for the sign.
          obtain ⟨d, ds', hcons⟩ := List.exists_cons_of_ne_nil (mt List.isEmpty_iff.2 hdigits)
          have hd : d ∈ (signed ds).2.takeWhile Char.isDigit := by
            rw [hcons]
            exact List.mem_cons_self
          rw [hcons]
          exact hagain d _ (List.mem_takeWhile_imp hd)
        rw [List.cons_append, List.append_assoc, readExponent_exponent hc, hsigned, htake, hdrop,
          if_neg hdigits]
  · have hno : ∀ c ∈ cs.head?, ¬(c = 'e' ∨ c = 'E') := fun c hh hce =>
      hc ⟨c, cs.tail, (List.cons_head?_tail hh).symm, hce⟩
    obtain ⟨rfl, rfl⟩ := Prod.mk.inj ((readExponent_of_not_exponent hno).symm.trans h)
    exact ⟨[], rfl, by simp, by simp, isOpenEnded_numberToken ..,
      fun r hr => readExponent_of_not_exponent hr.not_exponent⟩

/-- What follows the digits of a number's whole part. -/
def readFraction (whole : List Char) : List Char → Token × List Char
  | '.' :: cs =>
    if (cs.takeWhile Char.isDigit).isEmpty then withoutDigits cs
    else readExponent whole (cs.takeWhile Char.isDigit) (cs.dropWhile Char.isDigit)
  | cs => readExponent whole [] cs

def hasLeadingZero (whole : List Char) : Bool := whole.head? = some '0' && whole.length ≠ 1

theorem readNumber_eq (cs : List Char) :
    readNumber cs =
      if (cs.takeWhile Char.isDigit).isEmpty then withoutDigits cs
      else if hasLeadingZero (cs.takeWhile Char.isDigit) then (.broken .malformed .malformed, [])
      else readFraction (cs.takeWhile Char.isDigit) (cs.dropWhile Char.isDigit) := rfl

theorem readFraction_of_not_point (h : ∀ c ∈ cs.head?, c ≠ '.') :
    readFraction whole cs = readExponent whole [] cs := by
  unfold readFraction
  split
  · exact absurd rfl (h '.' rfl)
  · rfl

theorem readFraction_takes (h : readFraction whole cs = (t, rest)) (ht : t.isSound) :
    ∃ w, cs = w ++ rest ∧ (∀ c ∈ w.head?, c.isDigit = false) ∧
      TakesNumber (readFraction whole) w t := by
  have not_digit {w : List Char} (hw : ∀ c ∈ w.head?, c = 'e' ∨ c = 'E') :
      ∀ c ∈ w.head?, c.isDigit = false := fun c hc => by
    obtain rfl | rfl := hw c hc <;> rfl
  by_cases hc : ∃ ds, cs = '.' :: ds
  · obtain ⟨ds, rfl⟩ := hc
    rw [readFraction] at h
    split at h
    · obtain ⟨rfl, -⟩ := Prod.mk.inj h
      cases ht
    · rename_i hdigits
      obtain ⟨w, hw, hhead, hplain, hopen, hagain⟩ := readExponent_takes h ht
      refine ⟨'.' :: (ds.takeWhile Char.isDigit ++ w), ?_, by simp, ?_, hopen, fun r hr => ?_⟩
      · rw [List.cons_append, List.append_assoc, ← hw, List.takeWhile_append_dropWhile]
      · exact List.forall_mem_cons.2
          ⟨by decide, List.forall_mem_append.2 ⟨fun d => isPlain_of_mem_digits, hplain⟩⟩
      · obtain ⟨htake, hdrop⟩ := takeWhile_digits_append ds
          (forall_head?_append (not_digit hhead) hr.not_digit)
        rw [List.cons_append, List.append_assoc, readFraction, htake, hdrop, if_neg hdigits,
          hagain r hr]
  · have hno : ∀ c ∈ cs.head?, c ≠ '.' := fun c hh hce =>
      hc ⟨cs.tail, by rw [← hce]; exact (List.cons_head?_tail hh).symm⟩
    rw [readFraction_of_not_point hno] at h
    obtain ⟨w, hw, hhead, hplain, hopen, hagain⟩ := readExponent_takes h ht
    refine ⟨w, hw, not_digit hhead, hplain, hopen, fun r hr => ?_⟩
    have not_point : ∀ c ∈ w.head?, c ≠ '.' := fun c hc => by
      obtain rfl | rfl := hhead c hc <;> decide
    rw [readFraction_of_not_point (forall_head?_append not_point hr.not_point), hagain r hr]

theorem readNumber_takes (h : readNumber cs = (t, rest)) (ht : t.isSound) :
    ∃ w, w ≠ [] ∧ cs = w ++ rest ∧ TakesNumber readNumber w t := by
  rw [readNumber_eq] at h
  split at h
  · obtain ⟨rfl, -⟩ := Prod.mk.inj h
    cases ht
  split at h
  · obtain ⟨rfl, -⟩ := Prod.mk.inj h
    cases ht
  rename_i hdigits hzero
  obtain ⟨w, hw, hhead, hplain, hopen, hagain⟩ := readFraction_takes h ht
  refine ⟨cs.takeWhile Char.isDigit ++ w, ?_, ?_, ?_, hopen, fun r hr => ?_⟩
  · rw [List.isEmpty_iff] at hdigits
    simp [hdigits]
  · rw [List.append_assoc, ← hw, List.takeWhile_append_dropWhile]
  · exact List.forall_mem_append.2 ⟨fun d => isPlain_of_mem_digits, hplain⟩
  · obtain ⟨htake, hdrop⟩ :=
      takeWhile_digits_append cs (forall_head?_append hhead hr.not_digit)
    rw [List.append_assoc, readNumber_eq, htake, hdrop, if_neg hdigits, if_neg hzero, hagain r hr]

theorem readWord_eq {word : Token} {expected : List Char}
    (h : readWord word expected cs = (t, rest)) (ht : t.isSound) :
    cs = expected ++ rest ∧ t = word := by
  induction expected generalizing cs with
  | nil =>
    obtain ⟨rfl, rfl⟩ := Prod.mk.inj h
    exact ⟨rfl, rfl⟩
  | cons x xs ih =>
    cases cs with
    | nil =>
      obtain ⟨rfl, -⟩ := Prod.mk.inj h
      cases ht
    | cons c cs =>
      rw [readWord] at h
      split at h
      · rename_i hxc
        obtain ⟨rfl, rfl⟩ := ih h
        exact ⟨by rw [hxc, List.cons_append], rfl⟩
      · obtain ⟨rfl, -⟩ := Prod.mk.inj h
        cases ht

theorem readWord_append (word : Token) (expected rest : List Char) :
    readWord word expected (expected ++ rest) = (word, rest) := by
  induction expected with
  | nil => rfl
  | cons x xs ih => rw [List.cons_append, readWord, if_pos rfl, ih]

end

theorem stringLength?_cons {c : Char} (hq : c ≠ '"') (hb : c ≠ '\\') (cs : List Char) :
    stringLength? (c :: cs) = (stringLength? cs).map (· + 1) := by
  rw [stringLength?.eq_5]
  · exact hq
  · exact fun h _ => hb h
  · exact fun _ _ h _ => hb h

theorem hexValue?_ne {c : Char} {n : Nat} (h : hexValue? c = some n) : c ≠ '"' ∧ c ≠ '\\' := by
  constructor <;>
  · rintro rfl
    simp [hexValue?] at h

theorem stringLength?_unit {a b c d : Char} {n : Nat} (h : unit? a b c d = some n)
    (cs : List Char) :
    stringLength? ('\\' :: 'u' :: a :: b :: c :: d :: cs) = (stringLength? cs).map (· + 6) := by
  simp only [unit?, bind, Option.bind_eq_some_iff] at h
  obtain ⟨_, ha, _, hb, _, hc, _, hd, -⟩ := h
  rw [stringLength?, if_neg (by decide), stringLength?_cons (hexValue?_ne ha).1 (hexValue?_ne ha).2,
    stringLength?_cons (hexValue?_ne hb).1 (hexValue?_ne hb).2,
    stringLength?_cons (hexValue?_ne hc).1 (hexValue?_ne hc).2,
    stringLength?_cons (hexValue?_ne hd).1 (hexValue?_ne hd).2]
  cases stringLength? cs <;> rfl

/-- What is read as a string ends where the next unescaped quote is. -/
theorem stringLength?_of_readString {cs rest : List Char}
    (h : (readString cs).2 = .ok rest) :
    ∃ body, cs = body ++ rest ∧ stringLength? body = some body.length ∧
      ∀ r, readString (body ++ r) = ((readString cs).1, .ok r) := by
  fun_induction readString cs with
  | case2 cs =>
    obtain rfl : cs = rest := by simpa using h
    exact ⟨['"'], rfl, rfl, fun r => rfl⟩
  | case4 a b c d cs n hn ih =>
    obtain ⟨body, hcs, hlen, hagain⟩ := ih h
    refine ⟨'\\' :: 'u' :: a :: b :: c :: d :: body, by simp [hcs], ?_, fun r => ?_⟩
    · rw [stringLength?_unit hn, hlen]
      rfl
    · simp only [List.cons_append, readString, hn, hagain, withItem]
  | case7 c cs hlong hshort c' he ih =>
    obtain ⟨body, hcs, hlen, hagain⟩ := ih h
    have hn : c ≠ '\n' := by
      rintro rfl
      have hnone : escaped? '\n' = none := by decide
      rw [hnone] at he
      cases he
    refine ⟨'\\' :: c :: body, by simp [hcs], ?_, fun r => ?_⟩
    · rw [stringLength?, if_neg hn, hlen]
      rfl
    · rw [List.cons_append, List.cons_append,
        readString.eq_6 _ _ (fun _ _ _ _ _ hu => absurd hu hshort) hshort, he]
      simp only [hagain, withItem]
  | case10 c cs hq hlast _ _ hback hc ih =>
    obtain ⟨body, hcs, hlen, hagain⟩ := ih h
    have hb : c ≠ '\\' := fun hb => by
      cases cs with
      | nil => exact hlast hb rfl
      | cons d cs => exact hback d cs hb rfl
    refine ⟨c :: body, by simp [hcs], ?_, fun r => ?_⟩
    · rw [stringLength?_cons hq hb, hlen]
      rfl
    · rw [List.cons_append, readString.eq_7, if_neg hc, hagain]
      · rfl
      all_goals grind
  | _ => simp at h

/-- What a token is written as: a comma, a string, or characters that no string, comment or trailing
comma starts with. -/
inductive IsWord : List Char → Prop where
  | comma : IsWord [',']
  | string {body : List Char} : stringLength? body = some body.length → IsWord ('"' :: body)
  | plain {c : Char} {cs : List Char} : (∀ d ∈ c :: cs, isPlain d) → IsWord (c :: cs)

/-- The word is written for the token: it is read as the token off the front of any text that does
not go on with it. -/
structure Spells (w : List Char) (t : Token) : Prop where
  isWord : IsWord w
  read : ∃ c cs, w = c :: cs ∧ isBlank c = false ∧
    ∀ rest, (t.isOpenEnded → EndsNumber rest) → readToken c (cs ++ rest) = (t, rest)

section

variable {c : Char} {cs rest : List Char} {t : Token}

theorem readToken_digit (hc : c.isDigit) (cs : List Char) :
    readToken c cs = readNumber (c :: cs) := by
  unfold readToken
  split
  case h_12 => rw [if_pos hc]
  all_goals exact absurd hc (by decide)

theorem TakesNumber.spells (h : TakesNumber readNumber cs t) (hp : isPlain c)
    (hc : isBlank c = false) (hread : ∀ ds, readToken c ds = readNumber ds) : Spells (c :: cs) t :=
  ⟨.plain (List.forall_mem_cons.2 ⟨hp, h.plain⟩), c, cs, rfl, hc, fun rest hr => by
    rw [hread, h.again rest (hr h.openEnded)]⟩

theorem spells_of_readWord {word : Token} {expected : List Char}
    (h : readWord word expected cs = (t, rest)) (ht : t.isSound)
    (hread : ∀ ds, readToken c ds = readWord word expected ds)
    (hp : ∀ d ∈ c :: expected, isPlain d) (hc : isBlank c = false) :
    ∃ w, cs = w ++ rest ∧ Spells (c :: w) t := by
  obtain ⟨rfl, rfl⟩ := readWord_eq h ht
  exact ⟨expected, rfl, .plain hp, c, expected, rfl, hc, fun r _ => by
    rw [hread, readWord_append]⟩

theorem spells_of_readToken (hc : isBlank c = false) (h : readToken c cs = (t, rest))
    (ht : t.isSound) : ∃ w, cs = w ++ rest ∧ Spells (c :: w) t := by
  unfold readToken at h
  split at h
  case h_7 =>
    split at h
    · rename_i items rest' hread
      obtain ⟨rfl, rfl⟩ := Prod.mk.inj h
      have hrest : (readString cs).2 = .ok rest' := by rw [hread]
      obtain ⟨body, hbody, hlen, hagain⟩ := stringLength?_of_readString hrest
      refine ⟨body, hbody, .string hlen, _, body, rfl, hc, fun r _ => ?_⟩
      simp [readToken, hagain, hread]
    · obtain ⟨rfl, -⟩ := Prod.mk.inj h
      cases ht
  case h_8 | h_9 | h_10 =>
    exact spells_of_readWord h ht (fun ds => rfl) (List.all_eq_true.1 rfl) hc
  case h_11 =>
    obtain ⟨w, -, hw, htakes⟩ := readNumber_takes h ht
    exact ⟨w, hw, htakes.spells (by decide) hc fun ds => rfl⟩
  case h_12 =>
    split at h
    · rename_i hdigit
      obtain ⟨w, hne, hw, htakes⟩ := readNumber_takes h ht
      obtain ⟨d, w, rfl⟩ := List.exists_cons_of_ne_nil hne
      obtain ⟨rfl, htail⟩ := List.cons.inj hw
      refine ⟨w, htail, .plain htakes.plain, _, w, rfl, hc, fun r hr => ?_⟩
      rw [readToken_digit hdigit, ← List.cons_append, htakes.again r (hr htakes.openEnded)]
    · obtain ⟨rfl, -⟩ := Prod.mk.inj h
      cases ht
  case h_5 =>
    obtain ⟨rfl, rfl⟩ := Prod.mk.inj h
    exact ⟨[], rfl, .comma, _, [], rfl, hc, fun r _ => rfl⟩
  all_goals
    obtain ⟨rfl, rfl⟩ := Prod.mk.inj h
    exact ⟨[], rfl, .plain (List.all_eq_true.1 rfl), _, [], rfl, hc, fun r _ => rfl⟩

end

/-- The words of a text as they are written, one for each of its tokens. -/
def words : List Char → List (List Char)
  | [] => []
  | c :: cs =>
    if isBlank c then words cs
    else
      have := readToken_length c cs
      (c :: cs.take (cs.length - (readToken c cs).2.length)) :: words (readToken c cs).2
termination_by cs => cs.length
decreasing_by all_goals (simp; try omega)

theorem take_of_eq_append {w cs rest : List Char} (h : cs = w ++ rest) :
    cs.take (cs.length - rest.length) = w := by
  rw [h, List.length_append, Nat.add_sub_cancel, List.take_left]

theorem words_spell {cs : List Char} (h : ∀ t ∈ tokens cs, t.isSound) :
    List.Forall₂ Spells (words cs) (tokens cs) := by
  induction cs using tokens.induct with
  | case1 =>
    rw [words, tokens]
    exact .nil
  | case2 c cs hc ih =>
    rw [tokens, if_pos hc] at h ⊢
    rw [words, if_pos hc]
    exact ih h
  | case3 c cs hc hlen ih =>
    rw [tokens, if_neg hc] at h ⊢
    obtain ⟨ht, hts⟩ := List.forall_mem_cons.1 h
    obtain ⟨w, hw, hspell⟩ :=
      spells_of_readToken (by simpa using hc) (Prod.eta (readToken c cs)).symm ht
    rw [words, if_neg hc, take_of_eq_append hw]
    exact .cons hspell (ih hts)

end TwinClasses.Json
