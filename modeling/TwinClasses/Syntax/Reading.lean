import TwinClasses.Syntax.Tree

set_option autoImplicit false

/-! Reading a list of bracket trees from the front. A `Reading` says what was found and what is
left, and that at least one tree has been consumed, so readers may follow each other without end in
sight and still come to one: what is left weighs less. -/

namespace TwinClasses

mutual

/-- Number of brackets and tokens, a pair of brackets counted once. -/
def Tree.weight : Tree → Nat
  | .token _ => 1
  | .group _ _ children _ => Tree.weightAll children + 1

def Tree.weightAll : List Tree → Nat
  | [] => 0
  | t :: ts => t.weight + Tree.weightAll ts

end

@[simp] theorem Tree.weightAll_nil : Tree.weightAll [] = 0 := rfl

@[simp, grind =] theorem Tree.weightAll_cons (t : Tree) (ts : List Tree) :
    Tree.weightAll (t :: ts) = t.weight + Tree.weightAll ts := rfl

@[simp, grind =] theorem Tree.weight_token (l : Lexeme) : (Tree.token l).weight = 1 := rfl

@[simp, grind =] theorem Tree.weight_group (d : Delimiter) (o c : Lexeme) (ts : List Tree) :
    (Tree.group d o ts c).weight = Tree.weightAll ts + 1 := rfl

theorem Tree.weight_pos (t : Tree) : 0 < t.weight := by cases t <;> simp

theorem Tree.weightAll_append (ts us : List Tree) :
    Tree.weightAll (ts ++ us) = Tree.weightAll ts + Tree.weightAll us := by
  induction ts with
  | nil => simp
  | cons t ts ih => simp [ih, Nat.add_assoc]

theorem Tree.weightAll_take_add_drop (n : Nat) (ts : List Tree) :
    Tree.weightAll (ts.take n) + Tree.weightAll (ts.drop n) = Tree.weightAll ts := by
  rw [← Tree.weightAll_append, List.take_append_drop]

theorem Tree.weightAll_take_le (n : Nat) (ts : List Tree) :
    Tree.weightAll (ts.take n) ≤ Tree.weightAll ts := by
  have := Tree.weightAll_take_add_drop n ts
  omega

theorem Tree.weightAll_drop_le (n : Nat) (ts : List Tree) :
    Tree.weightAll (ts.drop n) ≤ Tree.weightAll ts := by
  have := Tree.weightAll_take_add_drop n ts
  omega

@[grind →] theorem Tree.weight_add_le_of_drop_eq_cons {n : Nat} {t : Tree} {ts us : List Tree}
    (h : ts.drop n = t :: us) : t.weight + Tree.weightAll us ≤ Tree.weightAll ts := by
  rw [← Tree.weightAll_cons, ← h]
  exact Tree.weightAll_drop_le n ts

grind_pattern Tree.weight_pos => t.weight

grind_pattern Tree.weightAll_take_le => Tree.weightAll (ts.take n)

grind_pattern Tree.weightAll_drop_le => Tree.weightAll (ts.drop n)

/-- `rest` is left of `trees` after at least one of them. -/
def Follows (rest trees : List Tree) : Prop := ∃ t ts, trees = t :: ts ∧ rest <:+ ts

namespace Follows

theorem tail_of_cons (t : Tree) (ts : List Tree) : Follows ts (t :: ts) :=
  ⟨t, ts, rfl, List.suffix_refl ts⟩

theorem suffix {us ts : List Tree} (h : Follows us ts) : us <:+ ts := by
  obtain ⟨t, ts, rfl, h⟩ := h
  exact h.trans (List.suffix_cons t ts)

theorem of_suffix {vs us ts : List Tree} (h : Follows us ts) (hv : vs <:+ us) : Follows vs ts := by
  obtain ⟨t, ts, rfl, hu⟩ := h
  exact ⟨t, ts, rfl, hv.trans hu⟩

theorem of_suffix_right {us ts ss : List Tree} (h : Follows us ts) (ht : ts <:+ ss) :
    Follows us ss := by
  obtain ⟨t, ts, rfl, hu⟩ := h
  obtain ⟨read, rfl⟩ := ht
  cases read with
  | nil => exact ⟨t, ts, rfl, hu⟩
  | cons s read =>
    exact ⟨s, _, rfl, hu.trans ((List.suffix_cons t ts).trans (List.suffix_append read _))⟩

theorem trans {vs us ts : List Tree} (h : Follows vs us) (hu : Follows us ts) : Follows vs ts :=
  hu.of_suffix h.suffix

theorem tail {t : Tree} {us ts : List Tree} (h : Follows (t :: us) ts) : Follows us ts :=
  h.of_suffix (List.suffix_cons t us)

theorem drop {us ts : List Tree} (h : Follows us ts) (n : Nat) : Follows (us.drop n) ts :=
  h.of_suffix (List.drop_suffix n us)

theorem of_drop_eq_cons {n : Nat} {t : Tree} {us ts : List Tree} (h : ts.drop n = t :: us) :
    Follows us ts :=
  (tail_of_cons t us).of_suffix_right (h ▸ List.drop_suffix n ts)

@[grind →] theorem weight_lt {us ts : List Tree} (h : Follows us ts) :
    Tree.weightAll us < Tree.weightAll ts := by
  obtain ⟨t, ts, rfl, read, rfl⟩ := h
  have := t.weight_pos
  simp [Tree.weightAll_append]
  omega

end Follows

/-- The trees of `trees` before the end piece `rest`. -/
def Tree.before (trees rest : List Tree) : List Tree := trees.take (trees.length - rest.length)

theorem Tree.weightAll_before_le (trees rest : List Tree) :
    Tree.weightAll (Tree.before trees rest) ≤ Tree.weightAll trees :=
  Tree.weightAll_take_le _ trees

grind_pattern Tree.weightAll_before_le => Tree.weightAll (Tree.before trees rest)

theorem Tree.before_append {trees rest : List Tree} (h : rest <:+ trees) :
    Tree.before trees rest ++ rest = trees := by
  obtain ⟨read, rfl⟩ := h
  simp [Tree.before]

/-- A fault about the tree in front. At the end of a group the bracket that closes it, at offset
`closing`, is where the fault is. -/
def Fault.unexpectedFront (construct : String) (closing : Option Nat) : List Tree → Fault
  | [] => ⟨.unexpectedEnd construct, closing⟩
  | t :: _ => ⟨.unexpected t.first.text construct, some t.first.offset⟩

/-- The outcome of reading some trees: a value and the trees left, or a fault and the trees in front
of which reading stopped. -/
inductive Reading (α : Type) (trees : List Tree) where
  | done (value : α) (rest : List Tree) (follows : Follows rest trees)
  | failed (fault : Fault) (rest : List Tree)

namespace Reading

variable {α β : Type} {ts us : List Tree}

def map (f : α → β) : Reading α ts → Reading β ts
  | done a rest h => done (f a) rest h
  | failed fault rest => failed fault rest

def andThen (r : Reading α ts) (f : α → (rest : List Tree) → Follows rest ts → Reading β ts) :
    Reading β ts :=
  match r with
  | done a rest h => f a rest h
  | failed fault rest => failed fault rest

/-- A reading of what is left of `ts`, as one of `ts`. -/
def within (r : Reading α us) (h : Follows us ts) : Reading α ts :=
  match r with
  | done a rest hr => done a rest (hr.trans h)
  | failed fault rest => failed fault rest

def after {t : Tree} (r : Reading α us) : Reading α (t :: us) := r.within (.tail_of_cons t us)

/-- Stops in front of a tree that does not belong here. -/
def unexpected (construct : String) (closing : Option Nat) (rest : List Tree) : Reading α ts :=
  failed (.unexpectedFront construct closing rest) rest

/-- A result that leaves `rest` whether it is a value or a fault. -/
def ofExcept (r : Except Fault α) (rest : List Tree) (h : Follows rest ts) : Reading α ts :=
  match r with
  | .ok a => done a rest h
  | .error fault => failed fault rest

def expect (kind : Kind) (construct : String) (closing : Option Nat) :
    (ts : List Tree) → Reading Token ts
  | .token l :: us =>
    if l.kind = kind then done l.toToken us (.tail_of_cons _ _)
    else unexpected construct closing (.token l :: us)
  | ts => unexpected construct closing ts

end Reading

def Tree.frontToken? (kind : Kind) : List Tree → Option Token
  | .token l :: _ => if l.kind = kind then some l.toToken else none
  | _ => none

end TwinClasses
