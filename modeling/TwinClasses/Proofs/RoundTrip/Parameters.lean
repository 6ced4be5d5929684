import TwinClasses.Proofs.RoundTrip.Types

set_option autoImplicit false

/-! Parameters and the parts they share with members: annotations, bodies and default values. Each
of these readers goes on where another has stopped; `before` holds the trees read up to there. -/

namespace TwinClasses.Reader

open Extent Reading

variable {w : Nat}

theorem typeClause_readFrom (ih : ReadersSound w) (closing : Option Nat) {ts us : List Tree}
    (before : List Tree) (h : Follows us ts) (hts : ts = before ++ us)
    (hw : Tree.weightAll us ≤ w) : (typeClause closing us h).Yields fun c read =>
      ∃ r, read = before ++ r ∧ Clause.OptionReadFrom c r := by
  unfold typeClause
  generalize hc : Tree.frontToken? .colon us = c
  cases c with
  | none => exact ⟨before, hts, [], by simp, .none⟩
  | some colon =>
    obtain ⟨l, vs, rfl, -, rfl⟩ := Tree.frontToken?_eq_some hc
    rw [Tree.weightAll_cons, Tree.weight_token] at hw
    apply Yields.map
    refine Yields.within (before ++ [.token l]) (by simp [hts]) ?_
    apply (ih.type closing true vs (by omega)).mono
    intro ns read hn
    exact ⟨.token l :: read, by simp, hn.clause l⟩

theorem body_readFrom (ih : ReadersSound w) {ts us : List Tree} (before : List Tree)
    (h : Follows us ts) (hts : ts = before ++ us) (hw : Tree.weightAll us ≤ w) :
    (body us h).Yields fun g read => ∃ r, read = before ++ r ∧ Group.OptionReadFrom g r := by
  unfold body
  split
  · rename_i opening children closing vs h
    rw [Tree.weightAll_cons, Tree.weight_group] at hw
    apply Yields.map
    refine Yields.ofExcept (before ++ [.group .brace opening children closing])
      (by simp [hts]) ?_
    intro g hg
    have hread := group_readFrom ih.sequence (by omega) hg
    refine ⟨[.group .brace opening children closing], rfl, ?_, ?_⟩
    · rw [Group.outlineOption]
      exact hread.1
    · rw [Group.EveryIn]
      exact hread.2
  · exact ⟨before, hts, [], by simp, .none⟩

theorem initializer_readFrom (ih : ReadersSound w) {ts us : List Tree} (before : List Tree)
    (h : Follows us ts) (hts : ts = before ++ us) (hw : Tree.weightAll us ≤ w) :
    (initializer us h).Yields fun c read =>
      ∃ r, read = before ++ r ∧ Clause.OptionReadFrom c r := by
  unfold initializer
  generalize hc : Tree.frontToken? .equals us = c
  cases c with
  | none => exact ⟨before, hts, [], by simp, .none⟩
  | some equals =>
    obtain ⟨l, vs, rfl, -, rfl⟩ := Tree.frontToken?_eq_some hc
    rw [Tree.weightAll_cons, Tree.weight_token] at hw
    simp only [List.drop_succ_cons, List.drop_zero]
    apply Yields.map
    refine Yields.ofExcept
      (before ++ .token l :: vs.take (argumentLength 0 false vs)) (by simp [hts]) ?_
    intro ns hns
    have htake := Tree.weightAll_take_le (argumentLength 0 false vs) vs
    have hn := ih.sequence _ _ _ _ (by omega) hns
    exact ⟨_, rfl, hn.clause l⟩

theorem bound_readFrom (ih : ReadersSound w) (closing : Option Nat) {modifiers : List Token}
    {rest : Option Token} {binding : Binding} {ts us : List Tree} (before : List Tree)
    (h : Follows us ts) (hts : ts = before ++ us) (hw : Tree.weightAll us ≤ w)
    (hs : Stands (Spot.ofTokens modifiers ++ Spot.ofTokens rest.toList ++ binding.outline) before)
    (he : binding.Every Node.IsWritten) :
    (bound closing modifiers rest binding us h).Yields Parameter.ReadFrom := by
  unfold bound
  obtain ⟨q, hq, hqt⟩ := Tree.beginsWith_frontToken? .question us
  have hdrop := Tree.weightAll_drop_le (Tree.frontToken? .question us).toList.length us
  simp only
  apply (typeClause_readFrom ih closing (before ++ q) _
    (by rw [List.append_assoc, ← hq]; exact hts) (by omega)).andThen
  rintro type read vs h hts ⟨ra, rfl, ha⟩
  have hvs : Tree.weightAll vs ≤ w := by
    have hus := congrArg Tree.weightAll (hts.symm.trans ‹ts = before ++ us›)
    simp only [Tree.weightAll_append] at hus
    omega
  apply (initializer_readFrom ih _ h hts hvs).andThen
  rintro value read xs h hts ⟨ri, rfl, hi⟩
  obtain ⟨c, hc, hct⟩ := Tree.beginsWith_frontToken? .comma xs
  split
  · exact yields_unexpected _ _ _
  · refine Yields.done (before ++ q ++ ra ++ ri ++ c)
      (by rw [List.append_assoc _ c, ← hc]; exact hts) ⟨?_, ?_⟩
    · rw [Parameter.outline]
      exact (((hs.append (.ofTokens hqt)).append ha.1).append hi.1).append (.ofTokens hct)
    · rw [Parameter.Every]
      exact ⟨he, ha.2, hi.2⟩

theorem parameter_readFrom (ih : ReadersSound w) (closing : Option Nat) {ts : List Tree}
    (hw : Tree.weightAll ts ≤ w) : (parameter closing ts).Yields Parameter.ReadFrom := by
  unfold parameter
  obtain ⟨read, hts, hx⟩ := (beginsWith_modifiersOfParameter ts).append
    (Tree.beginsWith_frontToken? .ellipsis (ts.drop (modifiersOfParameter ts).length))
  rw [List.length_append] at hts
  have hs := Stands.ofTokens hx
  rw [Spot.ofTokens_append] at hs
  simp only
  split
  · rename_i l us hd
    rw [hd] at hts
    have hus : Tree.weightAll us ≤ w := by
      have := Tree.weight_add_le_of_drop_eq_cons hd
      omega
    split
    · refine bound_readFrom ih closing (read ++ [.token l]) _ (by simpa using hts) hus ?_ ?_
      · rw [Binding.outline]
        exact hs.append (.single l)
      · rw [Binding.Every]
        trivial
    · exact yields_unexpected _ _ _
  · rename_i d opening children close us hd
    rw [hd] at hts
    have hus := Tree.weight_add_le_of_drop_eq_cons hd
    rw [Tree.weight_group] at hus
    split
    · exact yields_unexpected _ _ _
    · apply (yields_group ih (.of_drop_eq_cons hd) read hts (by omega)).andThen
      rintro g r vs h hts' ⟨rfl, hg⟩
      have hvs := h.weight_lt
      refine bound_readFrom ih closing _ h hts' (by omega) ?_ ?_
      · rw [Binding.outline]
        exact hs.append hg.1
      · rw [Binding.Every]
        exact hg.2
  · exact yields_unexpected _ _ _

theorem parameters_readFrom (ih : ReadersSound w) (closing : Option Nat) {ts : List Tree}
    {ps : List Parameter} (hw : Tree.weightAll ts ≤ w) (h : parameters closing ts = .ok ps) :
    Parameter.AllReadFrom ps ts := by
  unfold parameters at h
  split at h
  · cases h
    exact .nil
  · rename_i t us
    cases hp : parameter closing (t :: us) with
    | failed fault rest => simp [hp] at h
    | done p vs hf =>
      have hy := parameter_readFrom ih closing hw
      rw [hp] at hy
      obtain ⟨read, hts, hread⟩ := hy
      have hvs := hf.weight_lt
      cases hq : parameters closing vs with
      | error fault => simp [hp, hq, Except.map] at h
      | ok qs =>
        simp only [hp, hq, Except.map, Except.ok.injEq] at h
        subst h
        have hqs := ih.parameters _ _ _ (by omega) hq
        rw [hts]
        exact hread.cons hqs

end TwinClasses.Reader
