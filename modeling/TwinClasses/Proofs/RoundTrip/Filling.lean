import TwinClasses.Proofs.Lexemes
import TwinClasses.Proofs.RoundTrip.Outline

set_option autoImplicit false

/-! Outlines filled with tokens. What stands in the gaps is lost when the tree is printed; without
it the tokens written are those of the tree. -/

namespace TwinClasses

def IsAngleList (ts : List Token) : Prop :=
  ts = [] ∨ ∃ (opening : Token) (inner : List Token) (closing : Token),
    opening.kind = .lessThan ∧ closing.kind = .greaterThan ∧ ts = opening :: inner ++ [closing]

/-- What may stand in a gap. -/
def Gap.Admits : Gap → List Token → Prop
  | .beforeName, ts => ∃ asterisk : Option Token,
    (∀ t ∈ asterisk, t.kind = .asterisk) ∧ ts = asterisk.toList
  | .afterName, ts => ∃ (mark : Option Token) (parameters : List Token),
    (∀ t ∈ mark, t.kind = .question ∨ t.kind = .bang) ∧ IsAngleList parameters ∧
      ts = mark.toList ++ parameters

/-- The outline with something in its gaps reads `written`; `lost` is what stands in them. -/
inductive Fills : List Spot → List Token → List Token → Prop where
  | nil : Fills [] [] []
  | token (t : Token) {spots : List Spot} {written lost : List Token} :
    Fills spots written lost → Fills (.token t :: spots) (t :: written) lost
  | gap (g : Gap) {ts : List Token} {spots : List Spot} {written lost : List Token} :
    g.Admits ts → Fills spots written lost → Fills (.gap g :: spots) (ts ++ written) (ts ++ lost)

namespace Fills

variable {spots spots' : List Spot} {written written' lost lost' : List Token}

theorem append (h : Fills spots written lost) (h' : Fills spots' written' lost') :
    Fills (spots ++ spots') (written ++ written') (lost ++ lost') := by
  induction h with
  | nil => exact h'
  | token t _ ih => exact .token t ih
  | gap g ha _ ih =>
    rw [List.append_assoc, List.append_assoc]
    exact .gap g ha ih

theorem ofTokens (ts : List Token) : Fills (Spot.ofTokens ts) ts [] := by
  induction ts with
  | nil => exact .nil
  | cons t ts ih => exact .token t ih

/-- Where nothing is lost, the tokens written are those of the tree. -/
theorem written_eq (h : Fills spots written lost) (hl : lost = []) :
    written = Spot.tokens spots := by
  induction h with
  | nil => rfl
  | token t _ ih => rw [Spot.tokens_token, ih hl]
  | gap g ha _ ih =>
    obtain ⟨rfl, hl⟩ := List.append_eq_nil_iff.1 hl
    exact ih hl

/-- The tokens of the tree are written, all of them and in order. -/
theorem sublist (h : Fills spots written lost) : (Spot.tokens spots).Sublist written := by
  induction h with
  | nil => exact List.Sublist.slnil
  | token t _ ih => exact ih.cons_cons t
  | gap g ha _ ih => exact ih.trans (List.sublist_append_right _ _)

theorem lost_eq_nil (h : Fills spots written lost) (hg : ∀ g, Spot.gap g ∉ spots) : lost = [] := by
  induction h with
  | nil => rfl
  | token t _ ih => exact ih fun g hmem => hg g (List.mem_cons_of_mem _ hmem)
  | gap g ha _ ih => exact absurd List.mem_cons_self (hg g)

theorem lost_sublist (h : Fills spots written lost) : lost.Sublist written := by
  induction h with
  | nil => exact List.Sublist.slnil
  | token t _ ih => exact ih.cons t
  | gap g ha _ ih => exact List.Sublist.append_left ih _

end Fills

/-- The length of a text is what the tree prints and what it loses. -/
theorem Fills.length_sourceOf {spots : List Spot} {written lost : List Token}
    (h : Fills spots written lost) :
    (Token.sourceOf written).length =
      (Token.sourceOf (Spot.tokens spots)).length + (Token.sourceOf lost).length := by
  induction h with
  | nil => rfl
  | token t _ ih =>
    simp only [Spot.tokens_token, Token.sourceOf_cons, String.length_append]
    omega
  | gap g ha _ ih =>
    simp only [Spot.tokens_gap, Token.sourceOf_append, String.length_append]
    omega

namespace Tree

@[simp] theorem tokensAll_nil : tokensAll [] = [] := rfl

@[simp] theorem tokensAll_token (l : Lexeme) (ts : List Tree) :
    tokensAll (token l :: ts) = l.toToken :: tokensAll ts := rfl

@[simp] theorem tokensAll_group (d : Delimiter) (opening : Lexeme) (children : List Tree)
    (closing : Lexeme) (ts : List Tree) :
    tokensAll (group d opening children closing :: ts) =
      opening.toToken :: tokensAll children ++ closing.toToken :: tokensAll ts := by
  simp [tokensAll, lexemesAll, lexemes]

@[simp] theorem tokensAll_append (ts us : List Tree) :
    tokensAll (ts ++ us) = tokensAll ts ++ tokensAll us := by
  simp [tokensAll, lexemesAll_append]

theorem tokensAll_ne_nil {ts : List Tree} (h : ts ≠ []) : tokensAll ts ≠ [] := by
  cases ts with
  | nil => exact absurd rfl h
  | cons t ts => cases t <;> simp

end Tree

/-- The trees were written as the outline says, up to what its gaps hold. -/
def Stands (spots : List Spot) (trees : List Tree) : Prop :=
  ∃ lost, Fills spots (Tree.tokensAll trees) lost

namespace Stands

variable {spots spots' : List Spot} {trees trees' : List Tree}

theorem nil : Stands [] [] := ⟨[], .nil⟩

theorem append (h : Stands spots trees) (h' : Stands spots' trees') :
    Stands (spots ++ spots') (trees ++ trees') := by
  obtain ⟨lost, h⟩ := h
  obtain ⟨lost', h'⟩ := h'
  refine ⟨lost ++ lost', ?_⟩
  rw [Tree.tokensAll_append]
  exact h.append h'

theorem token (l : Lexeme) (h : Stands spots trees) :
    Stands (.token l.toToken :: spots) (.token l :: trees) := by
  obtain ⟨lost, h⟩ := h
  exact ⟨lost, .token l.toToken h⟩

theorem single (l : Lexeme) : Stands [.token l.toToken] [.token l] := nil.token l

theorem group (d : Delimiter) (opening closing : Lexeme) (h : Stands spots trees) :
    Stands (.token opening.toToken :: spots ++ [.token closing.toToken])
      [.group d opening trees closing] := by
  obtain ⟨lost, h⟩ := h
  refine ⟨lost, ?_⟩
  have hc : Fills (spots ++ [.token closing.toToken])
      (Tree.tokensAll trees ++ [closing.toToken]) (lost ++ []) :=
    h.append (.token closing.toToken .nil)
  rw [List.append_nil] at hc
  simpa using Fills.token opening.toToken hc

theorem ne_nil (h : Stands spots trees) (ht : trees ≠ []) : spots ≠ [] := by
  rintro rfl
  obtain ⟨lost, h⟩ := h
  have hw := Tree.tokensAll_ne_nil ht
  generalize Tree.tokensAll trees = written at h hw
  cases h
  exact hw rfl

end Stands

end TwinClasses
