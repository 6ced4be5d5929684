import TwinClasses.Glob.Pattern

set_option autoImplicit false

/-! Which paths match a pattern. Patterns match the bytes of paths, so `?` and a class stand for one
byte each. A piece is described by what it may leave of the bytes in front of it. -/

namespace TwinClasses

namespace Glob

def slash : UInt8 := 47

/-- A run without slashes may have been taken. -/
def afterName : List UInt8 → List (List UInt8)
  | [] => [[]]
  | b :: bs => (b :: bs) :: if b = slash then [] else afterName bs

/-- All has been taken up to some slash. -/
def afterSlashes : List UInt8 → List (List UInt8)
  | [] => []
  | b :: bs => if b = slash then bs :: afterSlashes bs else afterSlashes bs

/-- Any start may have been taken. -/
def afterAny : List UInt8 → List (List UInt8)
  | [] => [[]]
  | b :: bs => (b :: bs) :: afterAny bs

def afterBytes? : List UInt8 → List UInt8 → Option (List UInt8)
  | [], bs => some bs
  | _ :: _, [] => none
  | x :: xs, b :: bs => if x = b then afterBytes? xs bs else none

/-- The bytes of a range of characters, as ranges of bytes: the last byte of the lower end reaches
to the first of the upper one, and the others stand for themselves. -/
def byteRanges (range : Char × Char) : List (UInt8 × UInt8) :=
  let low := String.utf8EncodeChar range.1
  let high := String.utf8EncodeChar range.2
  let single (b : UInt8) := (b, b)
  if range.1 = range.2 then low.map single
  else low.dropLast.map single ++ (low.getLast?.toList.zip high) ++ high.tail.map single

def isInRanges (ranges : List (Char × Char)) (b : UInt8) : Bool :=
  (ranges.flatMap byteRanges).any fun (low, high) => low ≤ b && b ≤ high

mutual

/-- The piece is made of nothing at all; such branches of a choice do not count. -/
def Piece.isVoid : Piece → Bool
  | .choice branches => areVoid branches
  | _ => false

def areVoidPieces : List Piece → Bool
  | [] => true
  | p :: ps => p.isVoid && areVoidPieces ps

def areVoid : List (List Piece) → Bool
  | [] => true
  | ps :: branches => areVoidPieces ps && areVoid branches

end

mutual

def Piece.rests : Piece → List UInt8 → List (List UInt8)
  | .literal c, bs => (afterBytes? (String.utf8EncodeChar c) bs).toList
  | .anyInName, b :: bs => if b = slash then [] else [bs]
  | .anyInName, [] => []
  | .anyRunInName, bs => afterName bs
  | .leading, bs => bs :: afterSlashes bs
  | .trailing, b :: bs => if b = slash then afterAny bs else []
  | .trailing, [] => []
  | .between, b :: bs => if b = slash then bs :: afterSlashes bs else []
  | .between, [] => []
  | .oneOf negated ranges, b :: bs => if isInRanges ranges b ≠ negated then [bs] else []
  | .oneOf .., [] => []
  | .choice branches, bs => if areVoid branches then [bs] else restsOfAny branches bs

/-- What may be left after all pieces, one after the other. -/
def restsOfAll : List Piece → List UInt8 → List (List UInt8)
  | [], bs => [bs]
  | p :: ps, bs => ((p.rests bs).flatMap (restsOfAll ps)).eraseDups

def restsOfAny : List (List Piece) → List UInt8 → List (List UInt8)
  | [], _ => []
  | ps :: branches, bs =>
    (if areVoidPieces ps then [] else restsOfAll ps bs) ++ restsOfAny branches bs

end

/-- The path is one that the pattern stands for; `**` alone stands for all. -/
def isMatch (glob : Glob) (path : String) : Bool :=
  match glob.pieces with
  | [.leading] => true
  | pieces => [] ∈ restsOfAll pieces (path.toList.flatMap String.utf8EncodeChar)

end Glob

end TwinClasses
