import TwinClasses.Proofs.Framing.Arguments
import TwinClasses.Proofs.Framing.Properties

set_option autoImplicit false

/-! Default values of parameters: the trees each is read from, and the comma it ends at. -/

namespace TwinClasses

namespace Reader

open Extent TwinClasses.Tree

/-- The trees `value` are the default value of a parameter: they come behind an equals sign, and
behind them stands the parameter's comma, or nothing. -/
structure IsDefault (ts : List Tree) (p : Parameter) (value rest : List Tree) : Prop where
  behind : ∃ before equals content, ts = before ++ .token equals :: (value ++ rest) ∧
    equals.kind = .equals ∧ p.initializer = some ⟨equals.toToken, content⟩ ∧
      sequence (some .paren) none value = .ok content
  comma : p.comma = frontToken? .comma rest
  ends : p.comma = none → rest = []

theorem IsDefault.of_suffix {ts us value rest : List Tree} {p : Parameter}
    (h : IsDefault us p value rest) (hs : us <:+ ts) : IsDefault ts p value rest := by
  obtain ⟨before, equals, content, rfl, hk, hp, hv⟩ := h.behind
  obtain ⟨front, rfl⟩ := hs
  exact ⟨⟨front ++ before, equals, content, (List.append_assoc _ _ _).symm, hk, hp, hv⟩, h.comma,
    h.ends⟩

variable {closing : Option Nat} {ts us : List Tree} {p : Parameter}

theorem exists_value_of_initializer {c : Clause} {rest : List Tree} {h : Follows us ts}
    {hr : Follows rest ts} (hinit : initializer us h = .done (some c) rest hr) :
    ∃ equals value content, us = .token equals :: (value ++ rest) ∧ equals.kind = .equals ∧
      c = ⟨equals.toToken, content⟩ ∧ sequence (some .paren) none value = .ok content ∧
      EndsAtComma (fun front _ => Pending front) value rest := by
  rw [initializer] at hinit
  split at hinit
  · cases hinit
  · rename_i mark hmark
    obtain ⟨equals, vs, rfl, hk, rfl⟩ := frontToken?_eq_some hmark
    obtain ⟨value, us, hvs, hlength, hends⟩ := argumentLength_endsAtComma isSurplus_nil vs
    subst hvs
    have hlength : argumentLength 0 false (value ++ us) = value.length := hlength
    simp only [List.drop_succ_cons, List.drop_zero, hlength, List.take_left, List.drop_left]
      at hinit
    cases hs : sequence (some .paren) none value with
    | error fault =>
      rw [hs] at hinit
      cases hinit
    | ok content =>
      rw [hs] at hinit
      obtain ⟨hc, rfl⟩ := Reading.done.inj hinit
      exact ⟨equals, value, content, rfl, hk, (Option.some.inj hc).symm, hs, hends⟩

theorem exists_isDefault_of_bound {modifiers : List Token} {mark : Option Token} {binding : Binding}
    {h : Follows us ts} {left : List Tree} {hl : Follows left ts}
    (hb : bound closing modifiers mark binding us h = .done p left hl)
    (hp : p.initializer.isSome = true) :
    ∃ value rest, IsDefault ts p value rest ∧ left = rest.drop p.comma.toList.length ∧
      EndsAtComma (fun front _ => Pending front) value rest := by
  rw [bound] at hb
  obtain ⟨type, vs, hv, -, hb⟩ := Reading.andThen_eq_done.1 hb
  obtain ⟨c, rest, hr, hinit, hb⟩ := Reading.andThen_eq_done.1 hb
  simp only at hb
  split at hb
  · cases hb
  · rename_i hcomma
    obtain ⟨rfl, rfl⟩ := Reading.done.inj hb
    obtain ⟨c, rfl⟩ := Option.isSome_iff_exists.1 hp
    obtain ⟨equals, value, content, rfl, hk, rfl, hs, hends⟩ := exists_value_of_initializer hinit
    obtain ⟨before, hbefore⟩ := hv.suffix
    have hempty : frontToken? .comma rest = none → rest = [] := by
      intro hnone
      simpa [hnone] using hcomma
    have hbehind := hbefore.symm
    exact ⟨value, rest, ⟨⟨before, equals, content, hbehind, hk, rfl, hs⟩, rfl, hempty⟩, rfl, hends⟩

theorem exists_isDefault_of_parameter {left : List Tree} {hl : Follows left ts}
    (h : parameter closing ts = .done p left hl) (hp : p.initializer.isSome = true) :
    ∃ value rest, IsDefault ts p value rest ∧ left = rest.drop p.comma.toList.length ∧
      EndsAtComma (fun front _ => Pending front) value rest := by
  rw [parameter] at h
  split at h
  · split at h
    · exact exists_isDefault_of_bound h hp
    · cases h
  · split at h
    · cases h
    · obtain ⟨g, vs, hv, -, h⟩ := Reading.andThen_eq_done.1 h
      exact exists_isDefault_of_bound h hp
  · cases h

theorem exists_parameter_of_cons {ps : List Parameter} (h : parameters closing ts = .ok (p :: ps)) :
    ∃ left hl, parameter closing ts = .done p left hl ∧ parameters closing left = .ok ps := by
  cases ts with
  | nil =>
    rw [parameters] at h
    cases h
  | cons t us =>
    rw [parameters] at h
    cases hp : parameter closing (t :: us) with
    | failed fault left =>
      rw [hp] at h
      cases h
    | done q left hl =>
      simp only [hp] at h
      cases hq : parameters closing left with
      | error fault =>
        rw [hq] at h
        cases h
      | ok qs =>
        rw [hq] at h
        cases h
        exact ⟨left, hl, rfl, hq⟩

/-- The parameters after one with a default value are read from what its default value leaves. -/
theorem exists_isDefault {earlier later : List Parameter}
    (h : parameters closing ts = .ok (earlier ++ p :: later)) (hp : p.initializer.isSome = true) :
    ∃ value rest, IsDefault ts p value rest ∧
      parameters closing (rest.drop p.comma.toList.length) = .ok later ∧
      EndsAtComma (fun front _ => Pending front) value rest := by
  induction earlier generalizing ts with
  | nil =>
    obtain ⟨left, hl, hread, hlater⟩ := exists_parameter_of_cons h
    obtain ⟨value, rest, hdefault, rfl, hends⟩ := exists_isDefault_of_parameter hread hp
    exact ⟨value, rest, hdefault, hlater, hends⟩
  | cons q earlier ih =>
    obtain ⟨left, hl, -, hlater⟩ := exists_parameter_of_cons h
    obtain ⟨value, rest, hdefault, hrest⟩ := ih hlater
    exact ⟨value, rest, hdefault.of_suffix hl.suffix, hrest⟩

/-- Where the default value of a parameter ends: at the first comma that no list is open in front
of, or at the end of the group. That is the first comma that is in no list of type arguments just if
the count and the lists agree on the commas up to there, and so wherever each angle bracket that is
counted begins a list that can be read and each that opens in such a list is counted. -/
theorem default_ends_at_comma {earlier later : List Parameter}
    (h : parameters closing ts = .ok (earlier ++ p :: later)) (hp : p.initializer.isSome = true) :
    ∃ value rest, IsDefault ts p value rest ∧
      parameters closing (rest.drop p.comma.toList.length) = .ok later ∧
      EndsAtComma (fun front _ => Pending front) value rest ∧
      (EndsAtComma (InTypeList closing) value rest ↔
        ∀ front comma back, value ++ rest = front ++ comma :: back → comma.isKind .comma = true →
          front.length ≤ value.length →
            (Pending front ↔ InTypeList closing front (comma :: back))) ∧
      (OpensRead closing value rest → ListsCounted closing value rest →
        EndsAtComma (InTypeList closing) value rest) := by
  obtain ⟨value, rest, hdefault, hlater, hends⟩ := exists_isDefault h hp
  exact ⟨value, rest, hdefault, hlater, hends, hends.iff_agree, hends.of_pending⟩

/-- Where only one equals sign stands in a group, the default value begins behind it. -/
theorem IsDefault.append_eq {ts value rest : List Tree} {p : Parameter} {n : Nat}
    (h : IsDefault ts p value rest)
    (hn : ∀ i < ts.length, (ts.drop i).head?.any (isKind .equals) = true → i = n) :
    value ++ rest = ts.drop (n + 1) := by
  obtain ⟨before, equals, content, rfl, hk, -⟩ := h.behind
  obtain rfl := hn before.length (by simp) (by simp [isKind, hk])
  rw [← List.drop_drop, List.drop_left]
  rfl

/-- A list of type arguments, a call and one more parameter. -/
def defaultTarget : String := "a = f<T, U>(b), c"

/-- The comma between the type arguments is in the default value, the one behind the call is its
end. -/
theorem defaultTarget_ends : ∃ p q value rest,
    parameters none (bodyTrees defaultTarget) = .ok [p, q] ∧
    IsDefault (bodyTrees defaultTarget) p value rest ∧
    parameters none (rest.drop p.comma.toList.length) = .ok [q] ∧
    EndsAtComma (InTypeList none) value rest := by
  have hread : (parameters none (bodyTrees defaultTarget)).toOption.map
      (·.map (·.initializer.isSome)) = some [true, false] := by
    decide +kernel
  obtain ⟨ps, hps, hsome⟩ := Option.map_eq_some_iff.1 hread
  obtain ⟨p, ps, rfl, hp, hsome⟩ := List.map_eq_cons_iff.1 hsome
  obtain ⟨q, ps, rfl, -, hnil⟩ := List.map_eq_cons_iff.1 hsome
  obtain rfl := List.map_eq_nil_iff.1 hnil
  have hps : parameters none (bodyTrees defaultTarget) = .ok ([] ++ p :: [q]) :=
    toOption_eq_some_iff.1 hps
  obtain ⟨value, rest, hdefault, hlater, -, -, hends⟩ := default_ends_at_comma hps hp
  have hafter : value ++ rest = (bodyTrees defaultTarget).drop 2 :=
    hdefault.append_eq (by decide +kernel)
  refine ⟨p, q, value, rest, hps, hdefault, hlater, hends (.of_append ?_) ?_⟩
  · rw [hafter]
    have htest : readsOpens none none ((bodyTrees defaultTarget).drop 2) = true := by decide +kernel
    intro before t inner hts ho
    rw [List.append_nil]
    exact readsOpens_sound htest hts (by rwa [Option.or_none])
  · refine listsCounted_of_count ?_
    rw [hafter]
    decide +kernel

/-- So a comparison without a blank takes in the parameters behind it. -/
theorem not_ends_at_comma : ¬ ∀ (closing : Option Nat) (ts : List Tree)
    (earlier later : List Parameter) (p : Parameter),
    parameters closing ts = .ok (earlier ++ p :: later) → p.initializer.isSome = true →
      ∃ value rest, IsDefault ts p value rest ∧ EndsAtComma (InTypeList closing) value rest := by
  intro hall
  have hread : (parameters none (bodyTrees "a = x<b, c")).toOption.map
      (·.map fun p => (p.initializer.isSome, p.comma)) = some [(true, none)] := by
    decide +kernel
  obtain ⟨ps, hps, hone⟩ := Option.map_eq_some_iff.1 hread
  obtain ⟨p, ps, rfl, hp, hnil⟩ := List.map_eq_cons_iff.1 hone
  obtain rfl := List.map_eq_nil_iff.1 hnil
  obtain ⟨hp, hcomma⟩ := Prod.mk.inj hp
  have hps : parameters none (bodyTrees "a = x<b, c") = .ok ([] ++ p :: []) :=
    toOption_eq_some_iff.1 hps
  obtain ⟨value, rest, hdefault, hends⟩ := hall none _ [] [] p hps hp
  obtain rfl := hdefault.ends hcomma
  have hvalue : value ++ [] = (bodyTrees "a = x<b, c").drop 2 :=
    hdefault.append_eq (by decide +kernel)
  rw [List.append_nil] at hvalue
  -- There is a comma in the value, but no bracket that could close a list around it.
  have hany : value.any (isKind .comma) = true := by
    rw [hvalue]
    decide +kernel
  obtain ⟨comma, hmem, hc⟩ := List.any_eq_true.1 hany
  obtain ⟨front, back, hsplit⟩ := List.append_of_mem hmem
  have hclose := (hends.1 front comma back hsplit hc).closeAngles_pos
  rw [List.append_nil, ← hsplit, hvalue] at hclose
  revert hclose
  decide +kernel

end Reader

end TwinClasses
