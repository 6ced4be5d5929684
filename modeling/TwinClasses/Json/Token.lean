import TwinClasses.Json.Double
import TwinClasses.Text.Bytes

set_option autoImplicit false

/-! The tokens of a JSON text. Tokens are cut before anything is known of the shape that is wanted,
so each carries what is wrong with it: whether that matters may depend on who reads it. -/

namespace TwinClasses.Json

inductive Fault where
  | malformed
  /-- It has another shape than wanted. -/
  | misshapen
  | truncated
  deriving DecidableEq, Repr

/-- What a string consists of: characters, and code units written as numbers. -/
inductive StringItem where
  | char (c : Char)
  | unit (n : Nat)
  deriving DecidableEq, Repr

inductive Token where
  | openObject
  | closeObject
  | openArray
  | closeArray
  | comma
  | colon
  /-- A string as far as it could be read. -/
  | string (items : List StringItem) (fault : Option Fault)
  | null
  | scalar
  /-- A number that only counts as one when its value is not asked for. -/
  | hugeNumber
  /-- What starts like a number or a word, or like nothing at all, with the faults for those who
  pass over it and for those who read it. -/
  | broken (passed read : Fault)
  deriving DecidableEq, Repr

def isBlank (c : Char) : Bool := c = ' ' || c = '\t' || c = '\n' || c = '\r'

def hexValue? (c : Char) : Option Nat :=
  if c.isDigit then some (c.toNat - '0'.toNat)
  else if 'a' ≤ c && c ≤ 'f' then some (c.toNat - 'a'.toNat + 10)
  else if 'A' ≤ c && c ≤ 'F' then some (c.toNat - 'A'.toNat + 10)
  else none

def unit? (a b c d : Char) : Option Nat := do
  return (((← hexValue? a) * 16 + (← hexValue? b)) * 16 + (← hexValue? c)) * 16 + (← hexValue? d)

/-- The character that is written with a backslash before `c`. -/
def escaped? (c : Char) : Option Char :=
  [('"', '"'), ('\\', '\\'), ('/', '/'), ('b', '\x08'), ('f', '\x0c'), ('n', '\n'), ('r', '\r'),
    ('t', '\t')].lookup c

def withItem (item : StringItem) (read : List StringItem × Except Fault (List Char)) :
    List StringItem × Except Fault (List Char) :=
  (item :: read.1, read.2)

/-- The content of a string after its opening quote, and what follows its closing one. -/
def readString : List Char → List StringItem × Except Fault (List Char)
  | [] => ([], .error .truncated)
  | '"' :: cs => ([], .ok cs)
  | ['\\'] => ([], .error .truncated)
  | '\\' :: 'u' :: a :: b :: c :: d :: cs =>
    match unit? a b c d with
    | some n => withItem (.unit n) (readString cs)
    | none => ([], .error .malformed)
  | '\\' :: 'u' :: cs => ([], .error (if Text.byteLength cs < 4 then .truncated else .malformed))
  | '\\' :: c :: cs =>
    match escaped? c with
    | some c => withItem (.char c) (readString cs)
    | none => ([], .error .malformed)
  | c :: cs =>
    if c < ' ' then ([], .error .malformed)
    else withItem (.char c) (readString cs)

def numberToken (whole fraction : List Char) (exponent : Int) : Token :=
  if hasDouble whole fraction exponent then .scalar else .hugeNumber

/-- A number whose digits are missing where `cs` starts. -/
def withoutDigits (cs : List Char) : Token × List Char :=
  (.broken .malformed (if cs.isEmpty then .truncated else .malformed), [])

def readExponent (whole fraction : List Char) : List Char → Token × List Char
  | c :: cs =>
    if c = 'e' || c = 'E' then
      let (negative, cs) : Bool × List Char := match cs with
        | '+' :: cs => (false, cs)
        | '-' :: cs => (true, cs)
        | cs => (false, cs)
      let digits := cs.takeWhile Char.isDigit
      let exponent : Int := Nat.ofDigitChars 10 digits 0
      if digits.isEmpty then withoutDigits cs
      else (numberToken whole fraction (if negative then -exponent else exponent),
        cs.dropWhile Char.isDigit)
    else (numberToken whole fraction 0, c :: cs)
  | [] => (numberToken whole fraction 0, [])

def readNumber (cs : List Char) : Token × List Char :=
  let whole := cs.takeWhile Char.isDigit
  if whole.isEmpty then withoutDigits cs
  else if whole.head? = some '0' && whole.length ≠ 1 then (.broken .malformed .malformed, [])
  else
    match cs.dropWhile Char.isDigit with
    | '.' :: cs =>
      let fraction := cs.takeWhile Char.isDigit
      if fraction.isEmpty then withoutDigits cs
      else readExponent whole fraction (cs.dropWhile Char.isDigit)
    | cs => readExponent whole [] cs

/-- A word of which `expected` is still to come. -/
def readWord (word : Token) : (expected cs : List Char) → Token × List Char
  | [], cs => (word, cs)
  | _ :: _, [] => (.broken .truncated .truncated, [])
  | x :: xs, c :: cs => if x = c then readWord word xs cs else (.broken .malformed .malformed, [])

/-- The token that starts with `c`, and what follows it: nothing, if something is wrong with it. -/
def readToken (c : Char) (cs : List Char) : Token × List Char :=
  match c with
  | '\x7b' => (.openObject, cs)
  | '\x7d' => (.closeObject, cs)
  | '[' => (.openArray, cs)
  | ']' => (.closeArray, cs)
  | ',' => (.comma, cs)
  | ':' => (.colon, cs)
  | '"' =>
    match readString cs with
    | (items, .ok rest) => (.string items none, rest)
    | (items, .error fault) => (.string items (some fault), [])
  | 'n' => readWord .null ['u', 'l', 'l'] cs
  | 't' => readWord .scalar ['r', 'u', 'e'] cs
  | 'f' => readWord .scalar ['a', 'l', 's', 'e'] cs
  | '-' => readNumber cs
  | c => if c.isDigit then readNumber (c :: cs) else (.broken .malformed .malformed, [])

theorem readString_length {cs rest : List Char} (h : (readString cs).2 = .ok rest) :
    rest.length ≤ cs.length := by
  fun_induction readString cs with
  | case2 => simp_all
  | case4 | case7 | case10 =>
    rename_i ih
    have := ih h
    simp only [List.length_cons]
    omega
  | _ => simp_all

theorem readExponent_length (whole fraction cs : List Char) :
    (readExponent whole fraction cs).2.length ≤ cs.length := by
  have h (ds : List Char) := (ds.dropWhile_sublist Char.isDigit).length_le
  unfold readExponent
  split
  · split
    · split
      grind [withoutDigits]
    · simp
  · simp

theorem readNumber_length (cs : List Char) : (readNumber cs).2.length ≤ cs.length := by
  have h (ds : List Char) := (ds.dropWhile_sublist Char.isDigit).length_le
  unfold readNumber
  grind [withoutDigits, readExponent_length]

theorem readWord_length (word : Token) (expected cs : List Char) :
    (readWord word expected cs).2.length ≤ cs.length := by
  fun_induction readWord word expected cs <;> grind

theorem readNumber_digit_length (c : Char) (cs : List Char) (hc : c.isDigit) :
    (readNumber (c :: cs)).2.length ≤ cs.length := by
  have h (ds : List Char) := (ds.dropWhile_sublist Char.isDigit).length_le
  simp only [readNumber, List.takeWhile_cons, hc, List.dropWhile_cons]
  grind [withoutDigits, readExponent_length]

theorem readToken_length (c : Char) (cs : List Char) :
    (readToken c cs).2.length ≤ cs.length := by
  unfold readToken
  split
  case h_7 =>
    split
    · exact readString_length (by simp [*])
    · simp
  case h_8 | h_9 | h_10 => exact readWord_length ..
  case h_11 => exact readNumber_length cs
  case h_12 =>
    split
    · exact readNumber_digit_length _ cs ‹_›
    · simp
  all_goals exact Nat.le_refl _

/-- The tokens of a text; a token that something is wrong with is the last one. -/
def tokens : List Char → List Token
  | [] => []
  | c :: cs =>
    if isBlank c then tokens cs
    else
      have := readToken_length c cs
      (readToken c cs).1 :: tokens (readToken c cs).2
termination_by cs => cs.length
decreasing_by all_goals (simp; try omega)

end TwinClasses.Json
