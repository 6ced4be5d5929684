set_option autoImplicit false

/-! Sizes of text in bytes of its UTF-8 form. Offsets and columns count bytes, text is cut by
characters, and `byteLength` is what connects the two. -/

namespace TwinClasses.Text

/-- Number of bytes that the characters take in UTF-8. -/
def byteLength : List Char → Nat
  | [] => 0
  | c :: cs => c.utf8Size + byteLength cs

@[simp] theorem byteLength_nil : byteLength [] = 0 := rfl

@[simp] theorem byteLength_cons (c : Char) (cs : List Char) :
    byteLength (c :: cs) = c.utf8Size + byteLength cs := rfl

@[simp] theorem byteLength_append (cs ds : List Char) :
    byteLength (cs ++ ds) = byteLength cs + byteLength ds := by
  induction cs with
  | nil => simp
  | cons c cs ih => simp [ih, Nat.add_assoc]

/-- The characters that start before byte `offset`; all of them when the text is shorter. -/
def takeBytes : Nat → List Char → List Char
  | _, [] => []
  | offset, c :: cs => if offset = 0 then [] else c :: takeBytes (offset - c.utf8Size) cs

theorem takeBytes_isPrefix (offset : Nat) (cs : List Char) : takeBytes offset cs <+: cs := by
  induction cs generalizing offset with
  | nil => simp [takeBytes]
  | cons c cs ih =>
    unfold takeBytes
    split
    · simp
    · exact List.cons_prefix_cons.2 ⟨rfl, ih _⟩

/-- Cutting at a character boundary gives back what stands before it. -/
theorem takeBytes_append (cs ds : List Char) : takeBytes (byteLength cs) (cs ++ ds) = cs := by
  induction cs with
  | nil => cases ds <;> simp [takeBytes]
  | cons c cs ih =>
    have h : c.utf8Size + byteLength cs ≠ 0 := by
      have := c.utf8Size_pos
      omega
    rw [byteLength_cons, List.cons_append, takeBytes, if_neg h, Nat.add_sub_cancel_left, ih]

end TwinClasses.Text
