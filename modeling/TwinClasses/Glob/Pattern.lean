set_option autoImplicit false

/-! File name patterns, and how they are written. -/

namespace TwinClasses

namespace Glob

/-- What a pattern consists of. Names are what stands between slashes. -/
inductive Piece where
  | literal (c : Char)
  | anyInName
  | anyRunInName
  /-- `**` and a slash at the start: any directories. -/
  | leading
  /-- `**` at the end with the slash before it: anything below a directory. -/
  | trailing
  /-- `**` between slashes: any directories, or none. -/
  | between
  | oneOf (negated : Bool) (ranges : List (Char × Char))
  | choice (branches : List (List Piece))
  deriving Repr

inductive Fault where
  | unclosedClass
  | invalidRange (low high : Char)
  | unclosedChoice
  | unopenedChoice
  | danglingEscape
  deriving DecidableEq, Repr

def Fault.message : Fault → String
  | unclosedClass => "unclosed character class; missing ']'"
  | invalidRange low high => s!"invalid range; '{low}' > '{high}'"
  | unclosedChoice =>
    "unclosed alternate group; missing '\x7d' (maybe escape '\x7b' with '[\x7b]'?)"
  | unopenedChoice =>
    "unopened alternate group; missing '\x7b' (maybe escape '\x7d' with '[\x7d]'?)"
  | danglingEscape => "dangling '\\'"

/-- Where reading is inside of a class. -/
inductive ClassState where
  | start
  | item
  /-- After a `-` that may join two ends. -/
  | range
  deriving DecidableEq, Repr

/-- The ranges of a class up to its `]`, which is an ordinary character at the start. A `-` joins
the end of the last range to the character after it; it is ordinary at either end of the class. -/
def readRanges (state : ClassState) (ranges : List (Char × Char)) :
    List Char → Except Fault (List (Char × Char) × List Char)
  | [] => .error .unclosedClass
  | c :: cs =>
    if c = ']' && state ≠ .start then
      .ok (if state = .range then ranges ++ [('-', '-')] else ranges, cs)
    else if c = '-' && state = .item then readRanges .range ranges cs
    else
      match state, ranges.getLast? with
      | .range, some (low, _) =>
        if c < low then .error (.invalidRange low c)
        else readRanges .item (ranges.dropLast ++ [(low, c)]) cs
      | _, _ => readRanges .item (ranges ++ [(c, c)]) cs

theorem readRanges_length {cs : List Char} {state : ClassState} {ranges : List (Char × Char)}
    {result : List (Char × Char) × List Char} (h : readRanges state ranges cs = .ok result) :
    result.2.length < cs.length := by
  induction cs generalizing state ranges with
  | nil => simp [readRanges] at h
  | cons c cs ih =>
    simp only [readRanges] at h
    split at h
    · cases h
      simp
    · split at h
      · exact Nat.lt_succ_of_lt (ih h)
      · split at h
        · split at h
          · cases h
          · exact Nat.lt_succ_of_lt (ih h)
        · exact Nat.lt_succ_of_lt (ih h)

def readClass : List Char → Except Fault (Piece × List Char)
  | '!' :: cs | '^' :: cs =>
    (readRanges .start [] cs).map fun (ranges, cs) => (.oneOf true ranges, cs)
  | cs => (readRanges .start [] cs).map fun (ranges, cs) => (.oneOf false ranges, cs)

theorem readClass_length {cs : List Char} {result : Piece × List Char}
    (h : readClass cs = .ok result) : result.2.length < cs.length := by
  have key (negated : Bool) (cs' : List Char) (hl : cs'.length ≤ cs.length)
      (h : (readRanges .start [] cs').map (fun (ranges, cs) => (Piece.oneOf negated ranges, cs))
        = .ok result) : result.2.length < cs.length := by
    cases hr : readRanges .start [] cs' with
    | error e => simp [hr, Except.map] at h
    | ok r =>
      simp only [hr, Except.map, Except.ok.injEq] at h
      subst h
      exact Nat.lt_of_lt_of_le (readRanges_length hr) hl
  unfold readClass at h
  split at h
  · exact key true _ (by simp) h
  · exact key true _ (by simp) h
  · exact key false _ (Nat.le_refl _) h

/-- A choice that is being read: its finished branches, and what its own branch holds before it. -/
structure OpenChoice where
  branches : List (List Piece)
  before : List Piece

/-- What has been read: the pieces of the current branch, latest first, and the choices around it,
innermost first. -/
structure Draft where
  pieces : List Piece := []
  choices : List OpenChoice := []

namespace Draft

def push (d : Draft) (p : Piece) : Draft := { d with pieces := p :: d.pieces }

/-- A piece in the place of the latest one, unless that is one for directories at an end already. -/
def replaceLast (d : Draft) (p : Piece) : Draft :=
  match d.pieces with
  | .leading :: _ | .trailing :: _ => d
  | _ :: pieces => { d with pieces := p :: pieces }
  | [] => d.push p

def openChoice (d : Draft) : Draft := ⟨[], ⟨[], d.pieces⟩ :: d.choices⟩

def nextBranch (d : Draft) : Draft :=
  match d.choices with
  | [] => d.push (.literal ',')
  | c :: cs => ⟨[], ⟨c.branches ++ [d.pieces.reverse], c.before⟩ :: cs⟩

def closeChoice (d : Draft) : Except Fault Draft :=
  match d.choices with
  | [] => .error .unopenedChoice
  | c :: cs => .ok ⟨.choice (c.branches ++ [d.pieces.reverse]) :: c.before, cs⟩

/-- The character before a `**` lets it stand for directories. -/
def mayPrecede (d : Draft) (previous : Option Char) : Bool :=
  previous = some '/' || !d.choices.isEmpty && (previous = some ',' || previous = some '\x7b')

/-- What `**` stands for, by the characters around it; a slash after it belongs to it. -/
def doubleStar (d : Draft) (previous : Option Char) (cs : List Char) : Draft × List Char :=
  let runs := (d.push .anyRunInName).push .anyRunInName
  if d.pieces.isEmpty then
    match cs with
    | [] => (d.push .leading, [])
    | '/' :: cs => (d.push .leading, cs)
    | _ => (runs, cs)
  else if d.mayPrecede previous then
    match cs with
    | [] => (d.replaceLast .trailing, [])
    | '/' :: cs => (d.replaceLast .between, cs)
    | c :: _ =>
      if !d.choices.isEmpty && (c = ',' || c = '\x7d') then (d.replaceLast .trailing, cs)
      else (runs, cs)
  else (runs, cs)

theorem doubleStar_length (d : Draft) (previous : Option Char) (cs : List Char) :
    (d.doubleStar previous cs).2.length ≤ cs.length := by
  unfold doubleStar
  split
  · split <;> simp
  · split
    · split
      · simp
      · simp
      · split <;> simp
    · simp

end Draft

/-- The pieces of a pattern, after what has been read of it. -/
def readPieces (d : Draft) (previous : Option Char) : List Char → Except Fault (List Piece)
  | [] => if d.choices.isEmpty then .ok d.pieces.reverse else .error .unclosedChoice
  | '?' :: cs => readPieces (d.push .anyInName) (some '?') cs
  | '*' :: '*' :: cs =>
    have := d.doubleStar_length previous cs
    readPieces (d.doubleStar previous cs).1
      (some (if (d.doubleStar previous cs).2.length = cs.length then '*' else '/'))
      (d.doubleStar previous cs).2
  | '*' :: cs => readPieces (d.push .anyRunInName) (some '*') cs
  | '[' :: cs =>
    match h : readClass cs with
    | .error fault => .error fault
    | .ok (piece, rest) =>
      have := readClass_length h
      readPieces (d.push piece) (some ']') rest
  | '\x7b' :: cs => readPieces d.openChoice (some '\x7b') cs
  | '\x7d' :: cs =>
    match d.closeChoice with
    | .error fault => .error fault
    | .ok d => readPieces d (some '\x7d') cs
  | ',' :: cs => readPieces d.nextBranch (some ',') cs
  | ['\\'] => .error .danglingEscape
  | '\\' :: c :: cs => readPieces (d.push (.literal c)) (some c) cs
  | c :: cs => readPieces (d.push (.literal c)) (some c) cs
termination_by cs => cs.length
decreasing_by all_goals (simp_all; try omega)

end Glob

structure Glob where
  pieces : List Glob.Piece
  deriving Repr

def Glob.ofText (text : String) : Except Glob.Fault Glob :=
  (Glob.readPieces {} none text.toList).map Glob.mk

end TwinClasses
