import TwinClasses.Syntax.Extent

set_option autoImplicit false

/-! Reading with more trees behind. A reader that has found what it reads finds the same when more
trees come after those it was given, as long as they begin something new, and wherever the bracket
is that closes them; there is one rule for each way of putting readings together. -/

namespace TwinClasses

/-- Trees, by the first of them. -/
@[elab_as_elim]
theorem Tree.frontCases {motive : List Tree → Prop} (nil : motive [])
    (token : ∀ l us, motive (.token l :: us))
    (group : ∀ d opening children close us, motive (.group d opening children close :: us))
    (ts : List Tree) : motive ts := by
  cases ts with
  | nil => exact nil
  | cons t us =>
    cases t with
    | token l => exact token l us
    | group d opening children close => exact group d opening children close us

theorem Tree.length_toList_le {us : List Tree} {found : Option Token}
    (h : us = [] → found = none) : found.toList.length ≤ us.length := by
  cases us with
  | nil =>
    rw [h rfl]
    exact Nat.le_refl _
  | cons u us =>
    cases found with
    | none => exact Nat.zero_le _
    | some t => exact Nat.succ_le_succ (Nat.zero_le _)

/-- The trees begin with what may begin a member. -/
def Extent.beginsItem : List Tree → Bool
  | [] => true
  | .token l :: _ => l.kind ∈ [.identifier, .string, .number, .privateName, .asterisk, .atSign]
  | .group d opening _ _ :: _ => d = .bracket && opening.toToken.opensLine

/-- The trees begin with what may begin a member and goes on with no type in front of it. -/
def Extent.beginsMember : List Tree → Bool
  | [] => true
  | .token l :: _ =>
    l.kind ∈ [.identifier, .string, .number, .privateName, .asterisk, .atSign] &&
      !l.toToken.isWord "is" && !l.toToken.isWord "extends"
  | .group d opening _ _ :: _ => d = .bracket && opening.toToken.opensLine

theorem Extent.kind_of_beginsItem {l : Lexeme} {us : List Tree}
    (h : beginsItem (.token l :: us) = true) :
    l.kind ∈ [.identifier, .string, .number, .privateName, .asterisk, .atSign] :=
  of_decide_eq_true h

theorem Extent.beginsItem_of_beginsMember {more : List Tree} (h : beginsMember more = true) :
    beginsItem more = true := by
  cases more using Tree.frontCases with
  | nil => rfl
  | token l more =>
    simp only [beginsMember, Bool.and_eq_true] at h
    exact h.1.1
  | group d opening children close more => exact h

/-- A reading that leaves `rest` does not go on with `more` after it. -/
structure Halts (more rest : List Tree) : Prop where
  apart : rest = [] → Extent.beginsMember more = true
  ne_dot : ∀ l : Lexeme, rest = [.token l] → l.kind ≠ .dot

namespace Halts

variable {more us : List Tree}

theorem beginsItem (h : Halts more us) (hu : us = []) : Extent.beginsItem more = true :=
  Extent.beginsItem_of_beginsMember (h.apart hu)

theorem token {l : Lexeme} (h : l.kind ≠ .dot) (us : List Tree) : Halts more (.token l :: us) := by
  refine ⟨by simp, fun m hm => ?_⟩
  obtain ⟨rfl, -⟩ : l = m ∧ us = [] := by simpa using hm
  exact h

theorem group (d : Delimiter) (opening closing : Lexeme) (children us : List Tree) :
    Halts more (.group d opening children closing :: us) := ⟨by simp, by simp⟩

/-- It has to be seen only of the end and of a dot. -/
theorem of_front (hnil : us = [] → Halts more us)
    (hdot : ∀ l vs, us = .token l :: vs → l.kind = .dot → Halts more us) : Halts more us := by
  cases us using Tree.frontCases with
  | nil => exact hnil rfl
  | group d opening children close us => exact .group d opening close children us
  | token l us =>
    by_cases hd : l.kind = .dot
    · exact hdot l us rfl hd
    · exact .token hd us

end Halts

namespace Reading

variable {α β : Type} {more ts ts' us us' : List Tree} {G G' : List Tree → Prop}

/-- What `r` finds, `r'` finds with `more` left as well, if what `r` leaves satisfies `G`. -/
def Extends (G : List Tree → Prop) (more : List Tree) (r : Reading α ts) (r' : Reading α ts') :
    Prop :=
  ∀ a rest h, r = .done a rest h → G rest → ∃ h', r' = .done a (rest ++ more) h'

theorem extends_failed (fault : Fault) (rest : List Tree) (r' : Reading α ts') :
    (Reading.failed fault rest : Reading α ts).Extends G more r' := by
  intro a vs h heq
  cases heq

theorem extends_unexpected (construct : String) (closing : Option Nat) (rest : List Tree)
    (r' : Reading α ts') :
    (Reading.unexpected construct closing rest : Reading α ts).Extends G more r' :=
  extends_failed _ _ r'

theorem extends_done (a : α) (rest : List Tree) (h : Follows rest ts)
    (h' : Follows (rest ++ more) ts') :
    (Reading.done a rest h).Extends G more (.done a (rest ++ more) h') := by
  intro b vs hb heq _
  cases heq
  exact ⟨h', rfl⟩

variable {r : Reading α ts} {r' : Reading α ts'}

theorem Extends.map (f : α → β) (h : r.Extends G more r') :
    (r.map f).Extends G more (r'.map f) := by
  intro b rest hb heq hrest
  cases r with
  | failed fault rest => cases heq
  | done a vs hr =>
    cases heq
    obtain ⟨h', rfl⟩ := h a rest hr rfl hrest
    exact ⟨h', rfl⟩

/-- One reading after another: where the second comes to an end, the first has halted. -/
theorem Extends.andThen {f : α → (rest : List Tree) → Follows rest ts → Reading β ts}
    {f' : α → (rest : List Tree) → Follows rest ts' → Reading β ts'} (h : r.Extends G more r')
    (hf : ∀ a vs hv hv', (f a vs hv).Extends G' more (f' a (vs ++ more) hv'))
    (hg : ∀ a vs hv b rest hr, f a vs hv = .done b rest hr → G' rest → G vs) :
    (r.andThen f).Extends G' more (r'.andThen f') := by
  intro b rest hb heq hrest
  cases r with
  | failed fault rest => cases heq
  | done a vs hr =>
    have hvs := hg a vs hr b rest hb heq hrest
    obtain ⟨h', rfl⟩ := h a vs hr rfl hvs
    exact hf a vs hr h' b rest hb heq hrest

/-- After a first reading that nothing can go on with. -/
theorem Extends.andThen_of_true {f : α → (rest : List Tree) → Follows rest ts → Reading β ts}
    {f' : α → (rest : List Tree) → Follows rest ts' → Reading β ts'}
    (h : r.Extends (fun _ => True) more r')
    (hf : ∀ a vs hv hv', (f a vs hv).Extends G' more (f' a (vs ++ more) hv')) :
    (r.andThen f).Extends G' more (r'.andThen f') :=
  h.andThen hf fun _ _ _ _ _ _ _ _ => trivial

theorem Extends.within {r : Reading α us} {r' : Reading α us'} (h : r.Extends G more r')
    (hf : Follows us ts) (hf' : Follows us' ts') :
    (r.within hf).Extends G more (r'.within hf') := by
  intro b rest hb heq hrest
  cases r with
  | failed fault rest => cases heq
  | done a vs hr =>
    cases heq
    obtain ⟨h', rfl⟩ := h b rest hr rfl hrest
    exact ⟨h'.trans hf', rfl⟩

theorem Extends.after {t : Tree} {r : Reading α us} {r' : Reading α us'}
    (h : r.Extends G more r') : (r.after (t := t)).Extends G more (r'.after (t := t)) :=
  h.within _ _

theorem extends_ofExcept (e : Except Fault α) (rest : List Tree) (h : Follows rest ts)
    (h' : Follows (rest ++ more) ts') :
    (Reading.ofExcept e rest h).Extends G more (.ofExcept e (rest ++ more) h') := by
  cases e with
  | ok a => exact extends_done a rest h h'
  | error fault => exact extends_failed _ _ _

theorem extends_expect (kind : Kind) (construct : String) (closing closing' : Option Nat)
    (ts more : List Tree) : (Reading.expect kind construct closing ts).Extends G more
      (Reading.expect kind construct closing' (ts ++ more)) := by
  cases ts with
  | nil => exact extends_unexpected _ _ _ _
  | cons t ts =>
    cases t with
    | group d opening children close => exact extends_unexpected _ _ _ _
    | token l =>
      by_cases hk : l.kind = kind
      · simp only [Reading.expect, List.cons_append, hk, if_true]
        exact extends_done _ _ _ _
      · simp only [Reading.expect, hk, if_false]
        exact extends_unexpected _ _ _ _

/-- Where a token of a kind is expected and comes, no dot does. -/
theorem halts_of_expect {kind : Kind} {construct : String} {closing : Option Nat}
    {hus : Follows us ts} {f : Token → (rest : List Tree) → Follows rest ts → Reading β ts} {b : β}
    {rest : List Tree} {hr : Follows rest ts} (hk : kind ≠ .dot)
    (h : ((Reading.expect kind construct closing us).within hus).andThen f = .done b rest hr) :
    Halts more us := by
  cases us with
  | nil => cases h
  | cons u us =>
    cases u with
    | group d opening children close => cases h
    | token l =>
      by_cases hl : l.kind = kind
      · exact .token (hl ▸ hk) us
      · simp only [Reading.expect, hl, if_false] at h
        cases h

end Reading

end TwinClasses
