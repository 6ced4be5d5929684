set_option autoImplicit false

/-! Blank characters in the sense of the Unicode property White_Space, and texts cut free of them.
-/

namespace TwinClasses.Text

/-- The ranges of code points with the property White_Space, ends included. -/
def blankRanges : List (Nat × Nat) :=
  [(0x09, 0x0D), (0x20, 0x20), (0x85, 0x85), (0xA0, 0xA0), (0x1680, 0x1680), (0x2000, 0x200A),
    (0x2028, 0x2029), (0x202F, 0x202F), (0x205F, 0x205F), (0x3000, 0x3000)]

def isBlank (c : Char) : Bool :=
  blankRanges.any fun (first, last) => first ≤ c.toNat && c.toNat ≤ last

def trimStart (s : String) : String := String.ofList (s.toList.dropWhile isBlank)

def trimEnd (s : String) : String := String.ofList (s.toList.reverse.dropWhile isBlank).reverse

def trim (s : String) : String := trimEnd (trimStart s)

def allBlank (s : String) : Bool := s.toList.all isBlank

theorem trimStart_of_not_blank (c : Char) (cs : List Char) (h : isBlank c = false) :
    trimStart (String.ofList (c :: cs)) = String.ofList (c :: cs) := by
  simp [trimStart, h]

end TwinClasses.Text
