set_option autoImplicit false

/-! Which decimal numbers have a value in double precision. The value is computed: as many digits as
64 bits can hold make up a whole number, and it and the power of ten that scales it are rounded, and
so is their product. Near the largest value it therefore matters how a number is written. -/

namespace TwinClasses.Json

/-- The weight of the last of the 53 binary digits that a number keeps. -/
def lastWeight (n : Nat) : Nat := Nat.pow 2 (n.log2 - 52)

/-- The nearest number that has no binary digits after its first 53; of two that are as near, the
one whose last digit is even. -/
def roundDouble (n : Nat) : Nat :=
  let weight := lastWeight n
  let rest := n % weight
  if weight < 2 * rest || weight = 2 * rest && n / weight % 2 = 1 then n - rest + weight
  else n - rest

theorem roundDouble_of_log2_lt {n : Nat} (h : n.log2 < 53) : roundDouble n = n := by
  have hw : lastWeight n = 1 := by
    rw [lastWeight, Nat.sub_eq_zero_of_le (Nat.le_of_lt_succ h)]
  simp [roundDouble, hw, Nat.mod_one]

/-- Rounding moves a number by at most half of the last weight. -/
theorem roundDouble_near (n : Nat) :
    2 * n ≤ 2 * roundDouble n + lastWeight n ∧ 2 * roundDouble n ≤ 2 * n + lastWeight n := by
  have hw : 0 < lastWeight n := Nat.two_pow_pos _
  have hr : n % lastWeight n < lastWeight n := Nat.mod_lt n hw
  have hn : n % lastWeight n ≤ n := Nat.mod_le n _
  unfold roundDouble
  simp only [Bool.or_eq_true, Bool.and_eq_true, decide_eq_true_eq]
  split <;> omega

/-- The number that `value` becomes with more digits after its own, as long as 64 bits can hold it,
and how many of them they are. -/
def appendDigits (value : Nat) : List Char → Nat × Nat
  | [] => (value, 0)
  | c :: cs =>
    let next := value * 10 + (c.toNat - '0'.toNat)
    if next < UInt64.size then
      let (value, count) := appendDigits next cs
      (value, count + 1)
    else (value, 0)

theorem appendDigits_lt {value : Nat} (h : value < UInt64.size) (cs : List Char) :
    (appendDigits value cs).1 < UInt64.size := by
  induction cs generalizing value with
  | nil => exact h
  | cons c cs ih =>
    simp only [appendDigits]
    split
    · exact ih ‹_›
    · exact h

/-- The number `value * 10 ^ exponent` has a value: one of at most 1024 binary digits. Small numbers
are rounded to zero at worst. -/
def isFinite (value : Nat) (exponent : Int) : Bool :=
  value = 0 || exponent < 0 || exponent ≤ 308 &&
    (roundDouble (roundDouble value * roundDouble (Nat.pow 10 exponent.toNat))).log2 < 1024

/-- The number with the given digits and exponent has a value. Digits of its whole part that do not
fit count as zeros; in its fraction nothing counts from the first digit on that does not fit. -/
def hasDouble (whole fraction : List Char) (exponent : Int) : Bool :=
  let (integer, kept) := appendDigits 0 whole
  let (value, places) := appendDigits integer fraction
  isFinite value (exponent + (whole.length - kept : Nat) - places)

end TwinClasses.Json
