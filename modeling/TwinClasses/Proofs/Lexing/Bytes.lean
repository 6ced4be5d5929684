import Mathlib.Data.String.Basic
import TwinClasses.Proofs.Lexing.Boundary

set_option autoImplicit false

/-! Texts as bytes. No byte of a character beyond ASCII is an ASCII character, so the ends of
template pieces and regular expressions that are looked for byte by byte, with a backslash that
takes only one byte with it, are the ends of whole characters and the ones found in the text. -/

namespace TwinClasses.Text

/-- The bytes of some characters in UTF-8. -/
def bytes (cs : List Char) : List UInt8 := cs.flatMap String.utf8EncodeChar

@[simp] theorem bytes_nil : bytes [] = [] := rfl

@[simp] theorem bytes_cons (c : Char) (cs : List Char) :
    bytes (c :: cs) = String.utf8EncodeChar c ++ bytes cs := rfl

theorem bytes_append (cs ds : List Char) : bytes (cs ++ ds) = bytes cs ++ bytes ds := by
  simp [bytes]

theorem length_bytes (cs : List Char) : (bytes cs).length = byteLength cs := by
  induction cs with
  | nil => rfl
  | cons c cs ih => simp [ih, String.length_utf8EncodeChar]

theorem bytes_toList (s : String) : (bytes s.toList).toByteArray = s.toByteArray := by
  rw [bytes, ← List.utf8Encode, ← String.toByteArray_ofList, String.ofList_toList]

theorem byteLength_toList (s : String) : byteLength s.toList = s.utf8ByteSize := by
  rw [← length_bytes, ← String.size_toByteArray, ← bytes_toList, List.size_toByteArray]

/-- An ASCII character is its own byte; the bytes of any other are none of an ASCII character. -/
theorem utf8EncodeChar_cases (c : Char) :
    (∃ b : UInt8, String.utf8EncodeChar c = [b] ∧ b.toNat = c.toNat) ∨
      128 ≤ c.toNat ∧ ∀ b ∈ String.utf8EncodeChar c, 128 ≤ b.toNat := by
  unfold String.utf8EncodeChar
  have hc : c.toNat = c.val.toNat := rfl
  simp only
  split
  · refine Or.inl ⟨_, rfl, ?_⟩
    rw [UInt8.toNat_ofNat', hc]
    omega
  · refine Or.inr ⟨by omega, ?_⟩
    intro b hb
    split at hb
    · simp only [List.mem_cons, List.not_mem_nil, or_false] at hb
      rcases hb with rfl | rfl <;> rw [UInt8.toNat_ofNat'] <;> omega
    · split at hb <;> simp only [List.mem_cons, List.not_mem_nil, or_false] at hb
      · rcases hb with rfl | rfl | rfl <;> rw [UInt8.toNat_ofNat'] <;> omega
      · rcases hb with rfl | rfl | rfl | rfl <;> rw [UInt8.toNat_ofNat'] <;> omega

/-- Behind its first byte, a character has no byte of an ASCII character. -/
theorem utf8EncodeChar_eq_cons (c : Char) : ∃ b bs, String.utf8EncodeChar c = b :: bs ∧
    (∀ b ∈ bs, 128 ≤ b.toNat) ∧ c.utf8Size = bs.length + 1 := by
  have hlen := String.length_utf8EncodeChar c
  rcases utf8EncodeChar_cases c with ⟨b, hb, -⟩ | ⟨-, hge⟩
  · refine ⟨b, [], hb, by simp, ?_⟩
    rw [← hlen, hb]
    rfl
  · cases hbs : String.utf8EncodeChar c with
    | nil =>
      have hpos := c.utf8Size_pos
      rw [hbs, List.length_nil] at hlen
      omega
    | cons b bs =>
      rw [hbs] at hge hlen
      exact ⟨b, bs, rfl, (List.forall_mem_cons.1 hge).2, by rw [← hlen]; rfl⟩

theorem byte_eq_iff {b e : UInt8} {c d : Char} (hb : b.toNat = c.toNat) (he : e.toNat = d.toNat) :
    b = e ↔ c = d := by
  rw [← UInt8.toNat_inj, hb, he, Char.toNat_inj]

/-- The first byte of some characters is that of an ASCII character if and only if this one is the
first. -/
theorem head?_bytes {e : UInt8} {d : Char} (he : e.toNat = d.toNat) (hd : d.toNat < 128)
    (cs : List Char) : (bytes cs).head? = some e ↔ cs.head? = some d := by
  cases cs with
  | nil => simp
  | cons c cs =>
    rcases utf8EncodeChar_cases c with ⟨b, hb, hbc⟩ | ⟨hc, hge⟩
    · simp [hb, byte_eq_iff hbc he]
    · obtain ⟨b, bs, hbs, -⟩ := utf8EncodeChar_eq_cons c
      rw [hbs] at hge
      have hb := hge b List.mem_cons_self
      have hbe : b ≠ e := by
        rintro rfl
        omega
      have hcd : c ≠ d := by
        rintro rfl
        omega
      simp [hbs, hbe, hcd]

end TwinClasses.Text

namespace TwinClasses.Literal

open Text

/-- The end of a template piece, found byte by byte. A backslash takes one byte with it, which need
not be a whole character. -/
def pieceEndOfBytes? : List UInt8 → Option (PieceEnd × Nat)
  | [] => none
  | 0x5C :: [] => none
  | 0x5C :: _ :: bs => (pieceEndOfBytes? bs).map fun (e, n) => (e, n + 2)
  | 0x60 :: _ => some (.backtick, 1)
  | 0x24 :: 0x7B :: _ => some (.substitution, 2)
  | _ :: bs => (pieceEndOfBytes? bs).map fun (e, n) => (e, n + 1)

def isAlphaByte (b : UInt8) : Bool :=
  (0x41 ≤ b.toNat && b.toNat ≤ 0x5A) || (0x61 ≤ b.toNat && b.toNat ≤ 0x7A)

/-- The length of a regular expression, found byte by byte. -/
def regexLengthOfBytes? (inClass : Bool) : List UInt8 → Option Nat
  | [] => none
  | 0x5C :: [] => none
  | 0x5C :: _ :: bs => (regexLengthOfBytes? inClass bs).map (· + 2)
  | b :: bs =>
    if b = 0x0A || b = 0x0D then none
    else if b = 0x5B then (regexLengthOfBytes? true bs).map (· + 1)
    else if b = 0x5D then (regexLengthOfBytes? false bs).map (· + 1)
    else if b = 0x2F && !inClass then some (1 + (bs.takeWhile isAlphaByte).length)
    else (regexLengthOfBytes? inClass bs).map (· + 1)

theorem pieceEndOfBytes?_cons {b : UInt8} {bs : List UInt8} (hb : b ≠ 0x5C) (hq : b ≠ 0x60)
    (hs : b = 0x24 → bs.head? ≠ some 0x7B) :
    pieceEndOfBytes? (b :: bs) = (pieceEndOfBytes? bs).map fun (e, n) => (e, n + 1) :=
  pieceEndOfBytes?.eq_6 b bs (fun h _ => hb h) (fun _ _ h _ => hb h) hq
    fun cs h hcs => hs h (by rw [hcs]; rfl)

theorem ne_of_le {a b : UInt8} (ha : 128 ≤ a.toNat) (hb : b.toNat < 128) : a ≠ b := by
  rintro rfl
  omega

theorem pieceEndOfBytes?_append {as : List UInt8} (h : ∀ a ∈ as, 128 ≤ a.toNat)
    (bs : List UInt8) : pieceEndOfBytes? (as ++ bs) =
      (pieceEndOfBytes? bs).map fun (e, n) => (e, n + as.length) := by
  induction as with
  | nil => simp
  | cons a as ih =>
    obtain ⟨ha, has⟩ := List.forall_mem_cons.1 h
    rw [List.cons_append, pieceEndOfBytes?_cons (ne_of_le ha (by decide))
      (ne_of_le ha (by decide)) (fun h24 => absurd h24 (ne_of_le ha (by decide))), ih has]
    simp [Function.comp_def, Nat.add_assoc]

/-- Whole characters are found, although a backslash may take only a part of one with it. -/
theorem pieceEndOfBytes?_bytes (cs : List Char) : pieceEndOfBytes? (bytes cs) =
    (pieceEnd? cs).map fun (e, n) => (e, byteLength (cs.take n)) := by
  fun_induction pieceEnd? cs with
  | case1 => rfl
  | case2 => rfl
  | case3 d cs ih =>
    obtain ⟨b, bs, hbs, hge, hsize⟩ := utf8EncodeChar_eq_cons d
    have hcons : bytes ('\\' :: d :: cs) = 0x5C :: b :: (bs ++ bytes cs) := by
      simp only [bytes_cons, hbs]
      rfl
    rw [hcons, pieceEndOfBytes?, pieceEndOfBytes?_append hge, ih]
    cases pieceEnd? cs with
    | none => rfl
    | some p =>
      have hone : '\\'.utf8Size = 1 := rfl
      simp only [Option.map_some, Option.some.injEq, Prod.mk.injEq, true_and,
        List.take_succ_cons, byteLength_cons, hone, hsize]
      omega
  | case4 cs => rfl
  | case5 cs => rfl
  | case6 c cs hnil hcons hq hs ih =>
    have hc := Scan.ne_backslash hnil hcons
    rcases utf8EncodeChar_cases c with ⟨b, hb, hbc⟩ | ⟨-, hge⟩
    · have hone := String.length_utf8EncodeChar c
      rw [hb, List.length_singleton] at hone
      have hstep : pieceEndOfBytes? (b :: bytes cs) =
          (pieceEndOfBytes? (bytes cs)).map fun (e, n) => (e, n + 1) := by
        refine pieceEndOfBytes?_cons ?_ ?_ ?_
        · exact fun h => hc ((byte_eq_iff hbc rfl).1 h)
        · exact fun h => hq ((byte_eq_iff hbc rfl).1 h)
        · intro h hhead
          have hd := (head?_bytes (d := '\x7b') rfl (by decide) cs).1 hhead
          obtain ⟨ds, hds⟩ := List.head?_eq_some_iff.1 hd
          exact hs ds ((byte_eq_iff (d := '$') hbc rfl).1 h) hds
      rw [bytes_cons, hb, List.singleton_append, hstep, ih]
      simp [Function.comp_def, ← hone, Nat.add_comm]
    · rw [bytes_cons, pieceEndOfBytes?_append hge, ih]
      simp [Function.comp_def, String.length_utf8EncodeChar, Nat.add_comm]

theorem regexLengthOfBytes?_cons {b : UInt8} (hb : b ≠ 0x5C) (inClass : Bool) (bs : List UInt8) :
    regexLengthOfBytes? inClass (b :: bs) =
      if b = 0x0A || b = 0x0D then none
      else if b = 0x5B then (regexLengthOfBytes? true bs).map (· + 1)
      else if b = 0x5D then (regexLengthOfBytes? false bs).map (· + 1)
      else if b = 0x2F && !inClass then some (1 + (bs.takeWhile isAlphaByte).length)
      else (regexLengthOfBytes? inClass bs).map (· + 1) :=
  regexLengthOfBytes?.eq_4 inClass b bs (fun h _ => hb h) fun _ _ h _ => hb h

theorem regexLengthOfBytes?_append {as : List UInt8} (h : ∀ a ∈ as, 128 ≤ a.toNat)
    (inClass : Bool) (bs : List UInt8) : regexLengthOfBytes? inClass (as ++ bs) =
      (regexLengthOfBytes? inClass bs).map (· + as.length) := by
  induction as with
  | nil => simp
  | cons a as ih =>
    obtain ⟨ha, has⟩ := List.forall_mem_cons.1 h
    rw [List.cons_append, regexLengthOfBytes?_cons (ne_of_le ha (by decide)), ih has]
    have h10 := ne_of_le (b := 0x0A) ha (by decide)
    have h13 := ne_of_le (b := 0x0D) ha (by decide)
    have hopen := ne_of_le (b := 0x5B) ha (by decide)
    have hclose := ne_of_le (b := 0x5D) ha (by decide)
    have hslash := ne_of_le (b := 0x2F) ha (by decide)
    simp [h10, h13, hopen, hclose, hslash, Function.comp_def, Nat.add_assoc]

theorem isAlpha_iff (c : Char) : c.isAlpha = true ↔
    (65 ≤ c.toNat ∧ c.toNat ≤ 90) ∨ (97 ≤ c.toNat ∧ c.toNat ≤ 122) := by
  have hupper : c.isUpper = true ↔ 65 ≤ c.toNat ∧ c.toNat ≤ 90 := decide_eq_true_iff
  have hlower : c.isLower = true ↔ 97 ≤ c.toNat ∧ c.toNat ≤ 122 :=
    Bool.and_eq_true_iff.trans (and_congr decide_eq_true_iff decide_eq_true_iff)
  rw [← hupper, ← hlower]
  exact Bool.or_eq_true_iff

theorem isAlphaByte_eq {b : UInt8} {c : Char} (h : b.toNat = c.toNat) :
    isAlphaByte b = c.isAlpha := by
  rw [Bool.eq_iff_iff, isAlpha_iff, isAlphaByte, h]
  simp

theorem isAlpha_eq_false {c : Char} (h : 128 ≤ c.toNat) : c.isAlpha = false := by
  rw [Bool.eq_false_iff, ne_eq, isAlpha_iff]
  omega

theorem takeWhile_isAlphaByte (cs : List Char) : ((bytes cs).takeWhile isAlphaByte).length =
    byteLength (cs.takeWhile Char.isAlpha) := by
  induction cs with
  | nil => rfl
  | cons c cs ih =>
    rcases utf8EncodeChar_cases c with ⟨b, hb, hbc⟩ | ⟨hc, hge⟩
    · have hone := String.length_utf8EncodeChar c
      rw [hb, List.length_singleton] at hone
      rw [bytes_cons, hb, List.singleton_append, List.takeWhile_cons, List.takeWhile_cons,
        isAlphaByte_eq hbc]
      cases c.isAlpha with
      | true => simp [ih, ← hone, Nat.add_comm]
      | false => rfl
    · obtain ⟨b, bs, hbs, -⟩ := utf8EncodeChar_eq_cons c
      rw [hbs] at hge
      have hb := hge b List.mem_cons_self
      have hbyte : isAlphaByte b = false := by
        simp only [isAlphaByte, Bool.or_eq_false_iff, Bool.and_eq_false_iff,
          decide_eq_false_iff_not]
        omega
      have hchar : c.isAlpha = false := isAlpha_eq_false hc
      rw [bytes_cons, hbs, List.cons_append, List.takeWhile_cons, List.takeWhile_cons, hbyte, hchar]
      rfl

/-- Whole characters are found here, too. -/
theorem regexLengthOfBytes?_bytes (inClass : Bool) (cs : List Char) :
    regexLengthOfBytes? inClass (bytes cs) =
      (regexLength? inClass cs).map fun n => byteLength (cs.take n) := by
  fun_induction regexLength? inClass cs with
  | case1 => rfl
  | case2 => rfl
  | case3 inClass d cs ih =>
    obtain ⟨b, bs, hbs, hge, hsize⟩ := utf8EncodeChar_eq_cons d
    have hcons : bytes ('\\' :: d :: cs) = 0x5C :: b :: (bs ++ bytes cs) := by
      simp only [bytes_cons, hbs]
      rfl
    rw [hcons, regexLengthOfBytes?, regexLengthOfBytes?_append hge, ih]
    cases regexLength? inClass cs with
    | none => rfl
    | some n =>
      have hone : '\\'.utf8Size = 1 := rfl
      simp only [Option.map_some, Option.some.injEq, List.take_succ_cons, byteLength_cons, hone,
        hsize]
      omega
  | case4 inClass c cs hnil hcons hn =>
    simp only [Bool.or_eq_true, decide_eq_true_eq] at hn
    rcases hn with rfl | rfl <;> rfl
  | case5 inClass cs hnil hcons hn ih =>
    have hcons : bytes ('[' :: cs) = 0x5B :: bytes cs := rfl
    have hone : '['.utf8Size = 1 := rfl
    rw [hcons, regexLengthOfBytes?_cons (by decide), ih]
    simp [Function.comp_def, hone, Nat.add_comm]
  | case6 inClass cs hnil hcons hn hopen ih =>
    have hcons : bytes (']' :: cs) = 0x5D :: bytes cs := rfl
    have hone : ']'.utf8Size = 1 := rfl
    rw [hcons, regexLengthOfBytes?_cons (by decide), ih]
    simp [Function.comp_def, hone, Nat.add_comm]
  | case7 inClass c cs hnil hcons hn hopen hclose hslash =>
    simp only [Bool.and_eq_true, decide_eq_true_eq, Bool.not_eq_true'] at hslash
    obtain ⟨rfl, rfl⟩ := hslash
    have hcons : bytes ('/' :: cs) = 0x2F :: bytes cs := rfl
    have hone : '/'.utf8Size = 1 := rfl
    have htake : cs.take (cs.takeWhile Char.isAlpha).length = cs.takeWhile Char.isAlpha :=
      Scan.take_run Char.isAlpha cs
    rw [hcons, regexLengthOfBytes?_cons (by decide), takeWhile_isAlphaByte]
    simp [htake, hone, Nat.add_comm 1]
  | case8 inClass c cs hnil hcons hn hopen hclose hslash ih =>
    have hc := Scan.ne_backslash hnil hcons
    rcases utf8EncodeChar_cases c with ⟨b, hb, hbc⟩ | ⟨-, hge⟩
    · have hone := String.length_utf8EncodeChar c
      rw [hb, List.length_singleton] at hone
      have hne : ∀ (e : UInt8) (d : Char), e.toNat = d.toNat → c ≠ d → b ≠ e :=
        fun _ _ he hd h => hd ((byte_eq_iff hbc he).1 h)
      simp only [Bool.or_eq_true, decide_eq_true_eq, not_or] at hn
      have hbslash : ¬ ((b = 0x2F && !inClass) = true) := by
        simpa [byte_eq_iff (d := '/') hbc (e := 0x2F) rfl] using hslash
      rw [bytes_cons, hb, List.singleton_append, regexLengthOfBytes?_cons (hne 0x5C _ rfl hc), ih]
      simp [hne 0x0A _ rfl hn.1, hne 0x0D _ rfl hn.2, hne 0x5B _ rfl hopen, hne 0x5D _ rfl hclose,
        hbslash, Function.comp_def, ← hone, Nat.add_comm]
    · rw [bytes_cons, regexLengthOfBytes?_append hge, ih]
      simp [Function.comp_def, String.length_utf8EncodeChar, Nat.add_comm]

end TwinClasses.Literal
