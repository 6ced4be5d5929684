import TwinClasses.Syntax.Reading

set_option autoImplicit false

/-! What successful readings yield. A reading satisfies `Yields P` if it fails, or if its value and
the trees it has taken from the front satisfy `P`; there is one rule for each way of putting
readings together. -/

namespace TwinClasses.Reading

variable {α β : Type} {ts us : List Tree}

/-- If the reading succeeds, its value and the trees it took satisfy `P`. -/
def Yields (P : α → List Tree → Prop) : Reading α ts → Prop
  | done a rest _ => ∃ read, ts = read ++ rest ∧ P a read
  | failed _ _ => True

variable {P : α → List Tree → Prop} {Q : β → List Tree → Prop}

theorem Yields.done {a : α} {rest : List Tree} {h : Follows rest ts} (read : List Tree)
    (hts : ts = read ++ rest) (hp : P a read) : (Reading.done a rest h).Yields P := ⟨read, hts, hp⟩

theorem Yields.mono {P' : α → List Tree → Prop} {r : Reading α ts} (h : r.Yields P)
    (hp : ∀ a read, P a read → P' a read) : r.Yields P' := by
  cases r with
  | done a rest hf =>
    obtain ⟨read, hts, h⟩ := h
    exact ⟨read, hts, hp a read h⟩
  | failed fault rest => trivial

theorem Yields.map {f : α → β} {r : Reading α ts} (h : r.Yields fun a read => Q (f a) read) :
    (r.map f).Yields Q := by
  cases r with
  | done a rest hf => exact h
  | failed fault rest => trivial

theorem Yields.andThen {r : Reading α ts}
    {f : α → (rest : List Tree) → Follows rest ts → Reading β ts} (h : r.Yields P)
    (hf : ∀ a read rest h, ts = read ++ rest → P a read → (f a rest h).Yields Q) :
    (r.andThen f).Yields Q := by
  cases r with
  | done a rest hr =>
    obtain ⟨read, hts, h⟩ := h
    exact hf a read rest hr hts h
  | failed fault rest => trivial

/-- A reading of what is left, as one of all trees. -/
theorem Yields.within {r : Reading α us} {h : Follows us ts} (before : List Tree)
    (hts : ts = before ++ us) (hr : r.Yields fun a read => P a (before ++ read)) :
    (r.within h).Yields P := by
  cases r with
  | done a rest hf =>
    obtain ⟨read, hus, hr⟩ := hr
    refine ⟨before ++ read, ?_, hr⟩
    rw [hts, hus, List.append_assoc]
  | failed fault rest => trivial

/-- One reading after another, each of what the one before it has left. -/
theorem Yields.within_andThen {r : Reading α us} {h : Follows us ts} (before : List Tree)
    {f : α → (rest : List Tree) → Follows rest ts → Reading β ts} (hts : ts = before ++ us)
    (hr : r.Yields P)
    (hf : ∀ a read rest h, ts = before ++ read ++ rest → P a read → (f a rest h).Yields Q) :
    ((r.within h).andThen f).Yields Q := by
  cases r with
  | done a rest hrest =>
    obtain ⟨read, hus, hp⟩ := hr
    refine hf a read rest _ ?_ hp
    rw [hts, hus, List.append_assoc]
  | failed fault rest => trivial

theorem Yields.after {t : Tree} {r : Reading α us}
    (hr : r.Yields fun a read => P a (t :: read)) : (r.after (t := t)).Yields P :=
  Yields.within [t] rfl hr

theorem Yields.ofExcept {r : Except Fault α} {rest : List Tree} {h : Follows rest ts}
    (read : List Tree) (hts : ts = read ++ rest) (hr : ∀ a, r = .ok a → P a read) :
    (Reading.ofExcept r rest h).Yields P := by
  cases r with
  | ok a => exact ⟨read, hts, hr a rfl⟩
  | error fault => trivial

theorem yields_unexpected (construct : String) (closing : Option Nat) (rest : List Tree) :
    (Reading.unexpected construct closing rest : Reading α ts).Yields P := trivial

theorem yields_expect (kind : Kind) (construct : String) (closing : Option Nat)
    (ts : List Tree) : (Reading.expect kind construct closing ts).Yields fun t read =>
      ∃ l : Lexeme, l.kind = kind ∧ t = l.toToken ∧ read = [.token l] := by
  cases ts with
  | nil => trivial
  | cons t ts =>
    cases t with
    | group d opening children close => trivial
    | token l =>
      by_cases hk : l.kind = kind
      · simp only [Reading.expect, hk, if_true]
        exact ⟨[.token l], rfl, l, hk, rfl, rfl⟩
      · simp only [Reading.expect, hk, if_false]
        trivial

end TwinClasses.Reading
