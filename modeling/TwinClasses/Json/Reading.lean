import TwinClasses.Json.Token

set_option autoImplicit false

/-! Reading values off the front of JSON tokens. Values that nobody asks for are passed over: they
must be well-formed, but what they mean does not matter. -/

namespace TwinClasses.Json

/-- A value read off the front of tokens, and the tokens after it. -/
abbrev Read (α : Type) := List Token → Except Fault (α × List Token)

def joinSurrogates (high low : Nat) : Nat := (high - 0xD800) * 1024 + (low - 0xDC00) + 0x10000

def isHighSurrogate (n : Nat) : Bool := 0xD800 ≤ n && n ≤ 0xDBFF

def isLowSurrogate (n : Nat) : Bool := 0xDC00 ≤ n && n ≤ 0xDFFF

/-- The characters of a string. Surrogates must come in pairs; where a high one is the last thing
that could be read, what is wrong with the string comes first. -/
def characters (fault : Option Fault) : List StringItem → Except Fault (List Char)
  | [] =>
    match fault with
    | some fault => .error fault
    | none => .ok []
  | .char c :: items => return c :: (← characters fault items)
  | [.unit n] =>
    if isHighSurrogate n then .error (fault.getD .malformed)
    else if isLowSurrogate n then .error .malformed
    else return Char.ofNat n :: (← characters fault [])
  | .unit n :: .unit m :: items =>
    if isHighSurrogate n then
      if isLowSurrogate m then return Char.ofNat (joinSurrogates n m) :: (← characters fault items)
      else .error .malformed
    else if isLowSurrogate n then .error .malformed
    else return Char.ofNat n :: (← characters fault (.unit m :: items))
  | .unit n :: .char c :: items =>
    if isHighSurrogate n || isLowSurrogate n then .error .malformed
    else return Char.ofNat n :: (← characters fault (.char c :: items))

/-- What is wrong with a token where a value of another shape is wanted. -/
def Token.mismatch : Token → Fault
  | openObject | openArray | null | scalar => .misshapen
  | hugeNumber | closeObject | closeArray | comma | colon => .malformed
  | string items fault =>
    match characters fault items with
    | .ok _ => .misshapen
    | .error fault => fault
  | broken _ read => read

inductive Enclosure where
  | object
  | array
  deriving DecidableEq, Repr

/-- What comes next while a value is passed over; `closable` if the bracket around it may close. -/
inductive Expected where
  | value (closable : Bool)
  | key (closable : Bool)
  | colon
  | separator
  deriving DecidableEq, Repr

/-- The tokens after a value, of which what is expected is still to come, and then the rest of the
objects and arrays around that, innermost first. -/
def skip (around : List Enclosure) (expected : Expected) : List Token → Except Fault (List Token)
  | [] => .error .truncated
  | t :: ts =>
    let done (around : List Enclosure) : Except Fault (List Token) :=
      if around.isEmpty then .ok ts else skip around .separator ts
    match expected, t, around with
    | .value true, .closeArray, _ => done around.tail
    | .value _, .openObject, _ => skip (.object :: around) (.key true) ts
    | .value _, .openArray, _ => skip (.array :: around) (.value true) ts
    | .value _, .string _ (some fault), _ => .error fault
    | .value _, .string .., _ | .value _, .null, _ | .value _, .scalar, _
    | .value _, .hugeNumber, _ => done around
    | .value _, .broken passed _, _ => .error passed
    | .key true, .closeObject, _ => done around.tail
    | .key _, .string _ none, _ => skip around .colon ts
    | .key _, .string _ (some fault), _ => .error fault
    | .colon, .colon, _ => skip around (.value false) ts
    | .separator, .comma, .object :: _ => skip around (.key false) ts
    | .separator, .comma, .array :: _ => skip around (.value false) ts
    | .separator, .closeObject, .object :: around => done around
    | .separator, .closeArray, .array :: around => done around
    | _, _, _ => .error .malformed

theorem skip_length {around : List Enclosure} {expected : Expected} {ts rest : List Token}
    (h : skip around expected ts = .ok rest) : rest.length < ts.length := by
  induction ts generalizing around expected with
  | nil => simp [skip] at h
  | cons t ts ih =>
    have next {around : List Enclosure} {expected : Expected}
        (h : skip around expected ts = .ok rest) : rest.length < (t :: ts).length :=
      Nat.lt_succ_of_lt (ih h)
    have done {around : List Enclosure} (h : (if around.isEmpty then .ok ts
        else skip around .separator ts) = Except.ok rest) : rest.length < (t :: ts).length := by
      split at h
      · cases h
        simp
      · exact next h
    unfold skip at h
    split at h <;> grind

mutual

/-- The strings of an array after its opening bracket or a comma, and what follows the array. -/
def readElements (closable : Bool) : Read (List String)
  | [] => .error .truncated
  | .closeArray :: ts => if closable then .ok ([], ts) else .error .malformed
  | .string items fault :: ts => do
    let s ← characters fault items
    let (ss, rest) ← readMoreElements ts
    return (String.ofList s :: ss, rest)
  | t :: _ => .error t.mismatch

def readMoreElements : Read (List String)
  | .comma :: ts => readElements false ts
  | .closeArray :: ts => .ok ([], ts)
  | [] => .error .truncated
  | _ => .error .malformed

end

def readStrings : Read (List String)
  | .openArray :: ts => readElements true ts
  | t :: _ => .error t.mismatch
  | [] => .error .truncated

def readStrings? : Read (Option (List String))
  | .null :: ts => .ok (none, ts)
  | ts => do
    let (ss, rest) ← readStrings ts
    return (some ss, rest)

mutual

theorem readElements_length {closable : Bool} {ts rest : List Token} {ss : List String}
    (h : readElements closable ts = .ok (ss, rest)) : rest.length < ts.length := by
  match ts with
  | [] => simp [readElements] at h
  | t :: ts =>
    unfold readElements at h
    split at h
    · simp at h
    · rename_i heq
      cases heq
      split at h
      · cases h
        simp
      · simp at h
    · rename_i items fault ts' heq
      cases heq
      cases hc : characters fault items with
      | error e => simp [hc, bind, Except.bind] at h
      | ok s =>
        cases hm : readMoreElements ts with
        | error e => simp [hc, hm, bind, Except.bind] at h
        | ok r =>
          obtain ⟨ss', rest'⟩ := r
          simp only [hc, hm, bind, Except.bind, pure, Except.pure, Except.ok.injEq,
            Prod.mk.injEq] at h
          rw [← h.2]
          exact Nat.lt_succ_of_lt (readMoreElements_length hm)
    · simp at h

theorem readMoreElements_length {ts rest : List Token} {ss : List String}
    (h : readMoreElements ts = .ok (ss, rest)) : rest.length < ts.length := by
  match ts with
  | [] => simp [readMoreElements] at h
  | t :: ts =>
    unfold readMoreElements at h
    split at h
    · rename_i heq
      cases heq
      exact Nat.lt_succ_of_lt (readElements_length h)
    · rename_i heq
      cases heq
      cases h
      simp
    · simp at h
    · simp at h

end

theorem readStrings_length {ts rest : List Token} {ss : List String}
    (h : readStrings ts = .ok (ss, rest)) : rest.length < ts.length := by
  unfold readStrings at h
  split at h
  · exact Nat.lt_succ_of_lt (readElements_length h)
  · simp at h
  · simp at h

theorem readStrings?_length {ts rest : List Token} {ss : Option (List String)}
    (h : readStrings? ts = .ok (ss, rest)) : rest.length < ts.length := by
  unfold readStrings? at h
  split at h
  · cases h
    simp
  · cases hs : readStrings ts with
    | error e => simp [hs, bind, Except.bind] at h
    | ok r =>
      obtain ⟨ss', rest'⟩ := r
      simp only [hs, bind, Except.bind, pure, Except.pure, Except.ok.injEq, Prod.mk.injEq] at h
      rw [← h.2]
      exact readStrings_length hs

end TwinClasses.Json
