import TwinClasses.Json.Noise
import TwinClasses.Json.Reading

set_option autoImplicit false

/-! The configuration file of a project, as far as it says which source files belong to it. -/

namespace TwinClasses

structure Configuration where
  files : Option (List String) := none
  included : Option (List String) := none
  excluded : List String := []
  deriving DecidableEq, Repr

namespace Configuration

/-- What is included: without a list of files or patterns, everything. -/
def patterns (config : Configuration) : List String :=
  match config.included, config.files with
  | some patterns, _ => patterns
  | none, some _ => []
  | none, none => ["**/*"]

structure Draft where
  files : Option (Option (List String)) := none
  included : Option (Option (List String)) := none
  excluded : Option (List String) := none

def Draft.finish (d : Draft) : Configuration :=
  ⟨d.files.join, d.included.join, d.excluded.getD []⟩

def afterColon : List Json.Token → Except Json.Fault (List Json.Token)
  | .colon :: ts => .ok ts
  | [] => .error .truncated
  | _ => .error .malformed

theorem afterColon_length {ts rest : List Json.Token} (h : afterColon ts = .ok rest) :
    rest.length < ts.length := by
  unfold afterColon at h
  split at h <;> grind

/-- A value after a colon, put where it belongs. -/
def readValue {α : Type} (read : Json.Read α) (put : α → Draft) : Json.Read Draft := fun ts => do
  let (value, rest) ← read (← afterColon ts)
  return (put value, rest)

def passOver : Json.Read Unit := fun ts => (Json.skip [] (.value false) ts).map ((), ·)

/-- The draft with the member of the given name, from its colon on. No member may be there twice;
members of other names do not matter. -/
def readMember (d : Draft) (name : String) : Json.Read Draft :=
  match name with
  | "files" =>
    if d.files.isSome then fun _ => .error .misshapen
    else readValue Json.readStrings? fun files => { d with files := some files }
  | "include" =>
    if d.included.isSome then fun _ => .error .misshapen
    else readValue Json.readStrings? fun included => { d with included := some included }
  | "exclude" =>
    if d.excluded.isSome then fun _ => .error .misshapen
    else readValue Json.readStrings fun excluded => { d with excluded := some excluded }
  | _ => readValue passOver fun _ => d

theorem readValue_length {α : Type} {read : Json.Read α} {put : α → Draft}
    {ts rest : List Json.Token} {d : Draft}
    (shorter : ∀ {ts rest : List Json.Token} {a : α},
      read ts = .ok (a, rest) → rest.length < ts.length)
    (h : readValue read put ts = .ok (d, rest)) : rest.length < ts.length := by
  unfold readValue at h
  cases hc : afterColon ts with
  | error e => simp [hc, bind, Except.bind] at h
  | ok ts' =>
    cases hr : read ts' with
    | error e => simp [hc, hr, bind, Except.bind] at h
    | ok r =>
      simp only [hc, hr, bind, Except.bind, pure, Except.pure, Except.ok.injEq, Prod.mk.injEq] at h
      rw [← h.2]
      exact Nat.lt_trans (shorter hr) (afterColon_length hc)

theorem passOver_length {ts rest : List Json.Token} {u : Unit} (h : passOver ts = .ok (u, rest)) :
    rest.length < ts.length := by
  unfold passOver at h
  cases hs : Json.skip [] (.value false) ts with
  | error e => simp [hs, Except.map] at h
  | ok r =>
    simp only [hs, Except.map, Except.ok.injEq, Prod.mk.injEq] at h
    rw [← h.2]
    exact Json.skip_length hs

theorem readMember_length {d d' : Draft} {name : String} {ts rest : List Json.Token}
    (h : readMember d name ts = .ok (d', rest)) : rest.length < ts.length := by
  unfold readMember at h
  split at h
  · split at h
    · simp at h
    · exact readValue_length Json.readStrings?_length h
  · split at h
    · simp at h
    · exact readValue_length Json.readStrings?_length h
  · split at h
    · simp at h
    · exact readValue_length Json.readStrings_length h
  · exact readValue_length passOver_length h

/-- The members of an object, after its opening bracket or a comma. -/
def readMembers (d : Draft) (closable : Bool) : Json.Read Configuration
  | .closeObject :: ts => if closable then .ok (d.finish, ts) else .error .malformed
  | .string items fault :: ts =>
    match Json.characters fault items with
    | .error fault => .error fault
    | .ok name =>
      match h : readMember d (String.ofList name) ts with
      | .error fault => .error fault
      | .ok (d, .comma :: rest) =>
        have := readMember_length h
        readMembers d false rest
      | .ok (d, .closeObject :: rest) => .ok (d.finish, rest)
      | .ok (_, []) => .error .truncated
      | .ok (_, _ :: _) => .error .malformed
  | [] => .error .truncated
  | _ => .error .malformed
termination_by ts => ts.length
decreasing_by simp_all; omega

/-- What follows the comma after an element of an array that needs another one. -/
def afterNeededComma : List Json.Token → Except Json.Fault (List Json.Token)
  | .comma :: ts => .ok ts
  | .closeArray :: _ => .error .misshapen
  | [] => .error .truncated
  | _ => .error .malformed

def afterArray : List Json.Token → Except Json.Fault (List Json.Token)
  | .closeArray :: ts => .ok ts
  | [] => .error .truncated
  | _ => .error .malformed

/-- The members in the order of their fields, after the opening bracket of an array; the last one
may be missing. -/
def readPositions : Json.Read Configuration
  | .closeArray :: _ => .error .misshapen
  | ts => do
    let (files, rest) ← Json.readStrings? ts
    let (included, rest) ← Json.readStrings? (← afterNeededComma rest)
    match rest with
    | .comma :: rest => do
      let (excluded, rest) ← Json.readStrings rest
      return (⟨files, included, excluded⟩, ← afterArray rest)
    | rest => return (⟨files, included, []⟩, ← afterArray rest)

def ofTokens (ts : List Json.Token) : Except Json.Fault Configuration := do
  let (config, rest) ← match ts with
    | .openObject :: ts => readMembers {} true ts
    | .openArray :: ts => readPositions ts
    | t :: _ => .error t.mismatch
    | [] => .error .truncated
  if rest.isEmpty then return config else throw .malformed

def ofText (text : String) : Except Json.Fault Configuration :=
  ofTokens (Json.tokens (Json.stripNoise text).toList)

end Configuration

end TwinClasses
