import TwinClasses.Proofs.Framing.Classes

set_option autoImplicit false

/-! What a fault is about. A reader blames a lexeme of its trees, the closing bracket of a group
among them in which the trees ran out, or, where its own trees ran out, the bracket that closes
these. A group tells its readers that bracket, so no fault gets out of a group without an offset. -/

namespace TwinClasses

/-- `us` is left of `ts` when the reader has read some items one after the other. -/
inductive Reader.Leaves {α : Type} (reader : (ts : List Tree) → Reading α ts) (us : List Tree) :
    List Tree → Prop where
  | here : Leaves reader us us
  | step {ts vs : List Tree} {a : α} {h : Follows vs ts} :
    reader ts = .done a vs h → Leaves reader us vs → Leaves reader us ts

/-- The trees run out in the group: in a member of a class or in a parameter that has begun, or in a
type in parentheses. -/
inductive Tree.RunsOut (construct : String) : Tree → Prop where
  | member {opening closing : Lexeme} {children us : List Tree} {t : Tree} :
    Reader.Leaves (Reader.member (some closing.offset)) (t :: us) children →
    Reader.member (some closing.offset) (t :: us) =
        .failed ⟨.unexpectedEnd construct, some closing.offset⟩ [] →
      RunsOut construct (.group .brace opening children closing)
  | parameter {opening closing : Lexeme} {children us : List Tree} {t : Tree} :
    Reader.Leaves (Reader.parameter (some closing.offset)) (t :: us) children →
    Reader.parameter (some closing.offset) (t :: us) =
        .failed ⟨.unexpectedEnd construct, some closing.offset⟩ [] →
      RunsOut construct (.group .paren opening children closing)
  | type {opening closing : Lexeme} {children : List Tree} :
    Reader.type (some closing.offset) true children =
        .failed ⟨.unexpectedEnd construct, some closing.offset⟩ [] →
      RunsOut construct (.group .paren opening children closing)

/-- The fault is about a lexeme of the trees, or about a group among them in which they run out. -/
inductive Tree.Blames (ts : List Tree) : Fault → Prop where
  | unexpected (construct : String) {l : Lexeme} : l ∈ lexemesAll ts →
    Blames ts ⟨.unexpected l.text construct, some l.offset⟩
  | unclosed {l : Lexeme} : l ∈ lexemesAll ts → l.kind = .lessThan →
    Blames ts ⟨.unclosed "<", some l.offset⟩
  | ended {construct : String} {d : Delimiter} {opening closing : Lexeme} {children : List Tree} :
    Contains [.group d opening children closing] ts →
    RunsOut construct (.group d opening children closing) →
      Blames ts ⟨.unexpectedEnd construct, some closing.offset⟩

namespace Tree

variable {ts us : List Tree} {fault : Fault}

theorem lexemesAll_subset_of_isInfix (h : us <:+: ts) : lexemesAll us ⊆ lexemesAll ts := by
  obtain ⟨before, after, rfl⟩ := h
  intro l hl
  simp [lexemesAll_append, hl]

theorem lexemesAll_subset_of_mem {d : Delimiter} {opening closing : Lexeme} {children : List Tree}
    (h : .group d opening children closing ∈ ts) : lexemesAll children ⊆ lexemesAll ts := by
  obtain ⟨before, after, rfl⟩ := List.append_of_mem h
  intro l hl
  simp [lexemesAll_append, lexemesAll, lexemes, hl]

theorem Contains.lexemesAll_subset (h : Contains us ts) : lexemesAll us ⊆ lexemesAll ts := by
  induction h with
  | beside hu => exact lexemesAll_subset_of_isInfix hu
  | inside hmem _ ih => exact List.Subset.trans ih (lexemesAll_subset_of_mem hmem)

theorem Blames.of_isInfix (h : Blames us fault) (hu : us <:+: ts) : Blames ts fault := by
  cases h with
  | unexpected construct hl => exact .unexpected construct (lexemesAll_subset_of_isInfix hu hl)
  | unclosed hl hk => exact .unclosed (lexemesAll_subset_of_isInfix hu hl) hk
  | ended hin hr => exact .ended (hin.of_isInfix hu) hr

theorem Blames.inside {d : Delimiter} {opening closing : Lexeme} {children : List Tree}
    (h : Blames children fault) (hmem : .group d opening children closing ∈ ts) :
    Blames ts fault := by
  cases h with
  | unexpected construct hl => exact .unexpected construct (lexemesAll_subset_of_mem hmem hl)
  | unclosed hl hk => exact .unclosed (lexemesAll_subset_of_mem hmem hl) hk
  | ended hin hr => exact .ended (.inside hmem hin) hr

theorem Blames.of_mem {construct : String} {d : Delimiter} {opening closing : Lexeme}
    {children : List Tree} (hmem : .group d opening children closing ∈ ts)
    (hr : RunsOut construct (.group d opening children closing)) :
    Blames ts ⟨.unexpectedEnd construct, some closing.offset⟩ := by
  obtain ⟨before, after, rfl⟩ := List.append_of_mem hmem
  exact .ended (.beside ⟨before, after, by simp⟩) hr

theorem first_mem_lexemesAll (t : Tree) (us : List Tree) : t.first ∈ lexemesAll (t :: us) := by
  cases t <;> simp [lexemesAll, lexemes, first]

theorem blames_unexpectedFront (construct : String) (closing : Option Nat) (t : Tree)
    (us : List Tree) : Blames (t :: us) (.unexpectedFront construct closing (t :: us)) :=
  .unexpected construct (first_mem_lexemesAll t us)

end Tree

namespace Reading

variable {α β : Type} {ts us : List Tree} {closing : Option Nat}

/-- The trees ran out, or the fault is about something in them. -/
def Blames (closing : Option Nat) : Reading α ts → Prop
  | done _ _ _ => True
  | failed fault rest =>
    (rest = [] ∧ ∃ construct, fault = ⟨.unexpectedEnd construct, closing⟩) ∨ Tree.Blames ts fault

theorem Blames.map {r : Reading α ts} (h : r.Blames closing) (f : α → β) :
    (r.map f).Blames closing := by
  cases r <;> exact h

theorem Blames.andThen {r : Reading α ts}
    {f : α → (rest : List Tree) → Follows rest ts → Reading β ts} (h : r.Blames closing)
    (hf : ∀ a rest h, (f a rest h).Blames closing) : (r.andThen f).Blames closing := by
  cases r with
  | done a rest hr => exact hf a rest hr
  | failed fault rest => exact h

theorem Blames.within {r : Reading α us} (h : r.Blames closing) (hu : Follows us ts) :
    (r.within hu).Blames closing := by
  cases r with
  | done a rest hr => exact trivial
  | failed fault rest => exact h.imp_right fun h => h.of_isInfix hu.suffix.isInfix

theorem Blames.after {t : Tree} {r : Reading α us} (h : r.Blames closing) :
    (r.after (t := t)).Blames closing :=
  h.within _

theorem Blames.ofExcept {r : Except Fault α} {rest : List Tree} {h : Follows rest ts}
    (hr : ∀ fault, r = .error fault → Tree.Blames ts fault) :
    (Reading.ofExcept r rest h).Blames closing := by
  cases r with
  | ok a => exact trivial
  | error fault => exact .inr (hr fault rfl)

theorem error_of_map_failed {r : Except Fault α} {rest rest' : List Tree} {h : Follows rest ts}
    {f : α → β} {fault : Fault} (hr : (Reading.ofExcept r rest h).map f = .failed fault rest') :
    r = .error fault := by
  cases r <;> cases hr
  rfl

theorem blames_unexpected (construct : String) {rest : List Tree} (h : rest <:+ ts) :
    (unexpected construct closing rest : Reading α ts).Blames closing := by
  cases rest with
  | nil => exact .inl ⟨rfl, construct, rfl⟩
  | cons t us =>
    have hfront := Tree.blames_unexpectedFront construct closing t us
    exact .inr (hfront.of_isInfix h.isInfix)

theorem blames_expect (kind : Kind) (construct : String) (closing : Option Nat) (ts : List Tree) :
    (expect kind construct closing ts).Blames closing := by
  unfold expect
  split
  · split
    · exact trivial
    · exact blames_unexpected _ (List.suffix_refl _)
  · exact blames_unexpected _ (List.suffix_refl _)

end Reading

end TwinClasses
