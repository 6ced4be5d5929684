import TwinClasses.Proofs.Faults.Blame

set_option autoImplicit false

/-! What the faults of the readers are about. A reader on its own blames something in its trees, or
their end; where a group is read, its end is its closing bracket. Readers that look ahead have no
closing bracket to blame, but their faults are dropped. -/

namespace TwinClasses.Reader

open Extent Reading

section Items

variable {α : Type} {reader : Option Nat → (ts : List Tree) → Reading α ts} {closing : Option Nat}
  {ts us : List Tree} {fault : Fault}

/-- The fault of reading items one after the other: it is about their trees, or these ran out in an
item that had begun. -/
def ItemsBlame (reader : Option Nat → (ts : List Tree) → Reading α ts) (closing : Option Nat)
    (ts : List Tree) (fault : Fault) : Prop :=
  (∃ t us construct, Leaves (reader closing) (t :: us) ts ∧
    fault = ⟨.unexpectedEnd construct, closing⟩ ∧ reader closing (t :: us) = .failed fault []) ∨
      Tree.Blames ts fault

theorem ItemsBlame.of_done {a : α} {h : Follows us ts} (hr : reader closing ts = .done a us h)
    (hu : ItemsBlame reader closing us fault) : ItemsBlame reader closing ts fault := by
  obtain ⟨t, vs, construct, hleaves, hfault⟩ | hu := hu
  · exact .inl ⟨t, vs, construct, .step hr hleaves, hfault⟩
  · exact .inr (hu.of_isInfix h.suffix.isInfix)

theorem itemsBlame_failed {t : Tree} {rest : List Tree}
    (h : (reader closing (t :: us)).Blames closing)
    (hr : reader closing (t :: us) = .failed fault rest) :
    ItemsBlame reader closing (t :: us) fault := by
  rw [hr] at h
  obtain ⟨rfl, construct, hfault⟩ | h := h
  · exact .inl ⟨t, us, construct, .here, hfault, hr⟩
  · exact .inr h

/-- A reader of items reads one, and then the others. -/
theorem itemsBlame_cons {items : List Tree → Except Fault (List α)} {t : Tree}
    (hdone : ∀ a vs hf, reader closing (t :: us) = .done a vs hf →
      items (t :: us) = (items vs).map (a :: ·))
    (hfailed : ∀ fault rest, reader closing (t :: us) = .failed fault rest →
      items (t :: us) = .error fault)
    (hr : (reader closing (t :: us)).Blames closing)
    (hrest : ∀ vs fault, Follows vs (t :: us) → items vs = .error fault →
      ItemsBlame reader closing vs fault)
    (h : items (t :: us) = .error fault) : ItemsBlame reader closing (t :: us) fault := by
  cases hitem : reader closing (t :: us) with
  | done a vs hf =>
    rw [hdone a vs hf hitem] at h
    cases hi : items vs with
    | ok as => simp [hi, Except.map] at h
    | error fault' =>
      rw [hi] at h
      cases h
      exact .of_done hitem (hrest vs _ hf hi)
  | failed fault' rest =>
    rw [hfailed fault' rest hitem] at h
    cases h
    exact itemsBlame_failed hr hitem

end Items

/-- The faults of the readers on trees that weigh less than `w`. -/
structure ReadersBlame (w : Nat) : Prop where
  type : ∀ closing conditional ts, Tree.weightAll ts < w →
    (type closing conditional ts).Blames closing
  operands : ∀ closing conditional ts, Tree.weightAll ts < w →
    (operands closing conditional ts).Blames closing
  operand : ∀ closing ts, Tree.weightAll ts < w → (operand closing ts).Blames closing
  primary : ∀ closing ts, Tree.weightAll ts < w → (primary closing ts).Blames closing
  typeArgumentsRest : ∀ closing ts, Tree.weightAll ts < w →
    (typeArgumentsRest closing ts).Blames closing
  sequence : ∀ parent last ts fault, Tree.weightAll ts < w →
    sequence parent last ts = .error fault → Tree.Blames ts fault
  declared : ∀ closing decorators ts, Tree.weightAll ts < w →
    (declared closing decorators ts).Blames closing
  members : ∀ closing ts fault, Tree.weightAll ts < w → members closing ts = .error fault →
    ItemsBlame member closing ts fault
  parameters : ∀ closing ts fault, Tree.weightAll ts < w → parameters closing ts = .error fault →
    ItemsBlame parameter closing ts fault

variable {w : Nat} {ts us : List Tree} {fault : Fault}

/-! Groups. -/

theorem group_blames (ih : ReadersBlame w) {d : Delimiter} {opening closing : Lexeme}
    {children : List Tree} (hw : Tree.weightAll children < w)
    (hmem : .group d opening children closing ∈ ts)
    (h : group d opening children closing = .error fault) : Tree.Blames ts fault := by
  unfold group at h
  cases hs : sequence (some d) none children with
  | ok ns => simp [hs, Except.map] at h
  | error fault' =>
    rw [hs] at h
    cases h
    exact (ih.sequence _ _ _ _ hw hs).inside hmem

theorem parenthesized_blames (ih : ReadersBlame w) {opening close : Lexeme} {children : List Tree}
    (hw : Tree.weightAll children < w) (hmem : .group .paren opening children close ∈ ts)
    (h : parenthesized opening children close = .error fault) : Tree.Blames ts fault := by
  unfold parenthesized at h
  have htype := ih.type (some close.offset) true children hw
  split at h
  · cases h
  · rename_i nodes t us hf hr
    cases h
    have hfront := Tree.blames_unexpectedFront "a parenthesized type" (some close.offset) t us
    exact (hfront.of_isInfix hf.suffix.isInfix).inside hmem
  · rename_i fault' rest hr
    cases h
    rw [hr] at htype
    obtain ⟨rfl, construct, rfl⟩ | hblames := htype
    · exact .of_mem hmem (.type hr)
    · exact hblames.inside hmem

/-! Sequences. -/

theorem classDecl_blames (ih : ReadersBlame w) {parent : Option Delimiter} {last : Option Node}
    {l : Lexeme} {rest : List Tree} (hw : Tree.weightAll (.token l :: us) ≤ w)
    (h : classDecl parent last l us = some (.failed fault rest)) :
    Tree.Blames (.token l :: us) fault := by
  rw [Tree.weightAll_cons, Tree.weight_token] at hw
  unfold classDecl at h
  split at h
  · cases h
  · rename_i name hname
    split at h
    · cases h
    · rename_i split hsplit
      have hlt := split.weight_lt
      have hle := Tree.weightAll_drop_le name.toList.length us
      have hinfix : split.heritage ++ .group .brace split.opening split.children split.closing ::
          split.rest <:+: .token l :: us := by
        rw [← split.eq]
        exact ((List.drop_suffix _ us).trans (List.suffix_cons _ us)).isInfix
      split at h
      · rename_i fault' hheritage
        cases h
        exact (ih.sequence _ _ _ _ (by omega) hheritage).of_isInfix
          ((List.prefix_append _ _).isInfix.trans hinfix)
      · rename_i heritage hheritage
        have hm := error_of_map_failed (Option.some.inj h)
        have hmem : .group .brace split.opening split.children split.closing ∈
            Tree.token l :: us := hinfix.subset (by simp)
        obtain ⟨t, vs, construct, hleaves, rfl, hfailed⟩ | hblames :=
          ih.members _ _ _ (by omega) hm
        · exact .of_mem hmem (.member hleaves hfailed)
        · exact hblames.inside hmem

theorem forOf_blames (ih : ReadersBlame w) {l : Lexeme} {rest : List Tree}
    (hw : Tree.weightAll (.token l :: us) ≤ w) (h : forOf l us = some (.failed fault rest)) :
    Tree.Blames (.token l :: us) fault := by
  rw [Tree.weightAll_cons, Tree.weight_token] at hw
  unfold forOf at h
  split at h
  · rename_i opening children closing vs
    rw [Tree.weightAll_cons, Tree.weight_group] at hw
    split at h
    · exact group_blames ih (by omega) (by simp) (error_of_map_failed (Option.some.inj h))
    · cases h
  · rename_i word opening children closing vs
    rw [Tree.weightAll_cons, Tree.weightAll_cons, Tree.weight_group] at hw
    split at h
    · exact group_blames ih (by omega) (by simp) (error_of_map_failed (Option.some.inj h))
    · cases h
  · cases h

theorem await_blames (ih : ReadersBlame w) {l : Lexeme} {rest : List Tree}
    (hw : Tree.weightAll (.token l :: us) ≤ w) (h : await l us = some (.failed fault rest)) :
    Tree.Blames (.token l :: us) fault := by
  rw [Tree.weightAll_cons, Tree.weight_token] at hw
  have hle := Tree.weightAll_take_le (operandLength us) us
  unfold await at h
  simp only at h
  split at h
  · cases h
  · have hs := error_of_map_failed (Option.some.inj h)
    exact (ih.sequence _ _ _ _ (by omega) hs).of_isInfix
      ((List.take_prefix _ us).isInfix.trans (List.suffix_cons _ us).isInfix)

/-- A reference that is looked for ahead is found or it is none. -/
theorem attachedReference_ne_failed (l : Lexeme) (us : List Tree) (fault : Fault)
    (rest : List Tree) : attachedReference l us ≠ some (.failed fault rest) := by
  unfold attachedReference
  split
  · split
    · split
      · split <;> simp
      · simp
    · simp
  · simp

theorem access_ne_failed (l : Lexeme) (us : List Tree) (fault : Fault) (rest : List Tree) :
    access l us ≠ some (.failed fault rest) := by
  unfold access
  split
  · split <;> simp
  · simp

theorem construct_blames (ih : ReadersBlame w) {parent : Option Delimiter} {last : Option Node}
    {l : Lexeme} {rest : List Tree} (hw : Tree.weightAll (.token l :: us) ≤ w)
    (h : construct parent last l us = some (.failed fault rest)) :
    Tree.Blames (.token l :: us) fault := by
  unfold construct at h
  split at h
  · exact classDecl_blames ih hw h
  · split at h
    · exact forOf_blames ih hw h
    · split at h
      · exact await_blames ih hw h
      · split at h
        · rename_i reading hr
          cases h
          exact absurd hr (attachedReference_ne_failed _ _ _ _)
        · exact absurd h (access_ne_failed _ _ _ _)

theorem sequence_blames (ih : ReadersBlame w) {parent : Option Delimiter} {last : Option Node}
    (hw : Tree.weightAll ts ≤ w) (h : sequence parent last ts = .error fault) :
    Tree.Blames ts fault := by
  have hrest : ∀ {last' us} {n : Node}, Follows us ts →
      (sequence parent last' us).map (n :: ·) = .error fault → Tree.Blames ts fault := by
    intro last' us n hf he
    have hlt := hf.weight_lt
    cases hs : sequence parent last' us with
    | ok ns => simp [hs, Except.map] at he
    | error fault' =>
      rw [hs] at he
      cases he
      exact (ih.sequence _ _ _ _ (by omega) hs).of_isInfix hf.suffix.isInfix
  unfold sequence at h
  split at h
  · cases h
  · rename_i d opening children closing us
    split at h
    · exact hrest (Follows.tail_of_cons _ us) h
    · rename_i fault' hg
      cases h
      rw [Tree.weightAll_cons, Tree.weight_group] at hw
      exact group_blames ih (by omega) List.mem_cons_self hg
  · rename_i l us
    split at h
    · rename_i node vs hf hc
      exact hrest hf h
    · rename_i fault' rest hc
      cases h
      split at hc
      · exact construct_blames ih hw hc
      · cases hc
    · exact hrest (Follows.tail_of_cons _ us) h

/-! Types. -/

theorem typeArguments_blames (ih : ReadersBlame w) (closing : Option Nat)
    (hw : Tree.weightAll ts ≤ w) : (typeArguments closing ts).Blames closing := by
  unfold typeArguments
  split
  · rename_i opening us
    rw [Tree.weightAll_cons, Tree.weight_token] at hw
    split
    · exact ((ih.typeArgumentsRest closing us (by omega)).map _).after
    · exact blames_unexpected _ (List.suffix_refl _)
  · exact blames_unexpected _ (List.suffix_refl _)

theorem typeReference_blames (ih : ReadersBlame w) (closing : Option Nat)
    (hw : Tree.weightAll ts ≤ w) : (typeReference closing ts).Blames closing := by
  unfold typeReference
  split
  · rename_i name us
    rw [Tree.weightAll_cons, Tree.weight_token] at hw
    split
    · have hle := Tree.weightAll_drop_le (2 * (qualifiers us).length) us
      simp only
      split
      · exact ((typeArguments_blames ih closing (by omega)).within _).map _
      · exact trivial
    · exact blames_unexpected _ (List.suffix_refl _)
  · exact blames_unexpected _ (List.suffix_refl _)

/-- An angle bracket that is not closed is at the front of what was read. -/
theorem typeParameters_blames (ih : ReadersBlame w) (closing : Option Nat)
    (hw : Tree.weightAll ts ≤ w) : (typeParameters closing ts).Blames closing := by
  unfold typeParameters
  split
  · rename_i opening us
    split
    · rename_i hk
      split
      · rename_i n hn
        apply Blames.ofExcept
        intro fault h
        have hle := Tree.weightAll_take_le (n + 1) (.token opening :: us)
        exact (sequence_blames ih (by omega) h).of_isInfix (List.take_prefix _ _).isInfix
      · exact .inr (.unclosed (Tree.first_mem_lexemesAll (.token opening) us) hk)
    · exact blames_unexpected _ (List.suffix_refl _)
  · exact blames_unexpected _ (List.suffix_refl _)

theorem dottedRest_blames (closing : Option Nat) (nodes : List Node) (us : List Tree)
    (h : Follows us ts) : (dottedRest closing nodes us h).Blames closing := by
  fun_induction dottedRest closing nodes us h with
  | case1 nodes dot name us h hd => exact trivial
  | case2 nodes dot name us h hd hk ih => exact ih
  | case3 nodes dot name us h hd hk => exact blames_unexpected _ h.tail.suffix
  | case4 nodes dot us h hu hd => exact blames_unexpected _ h.tail.suffix
  | case5 nodes dot us h hu hd => exact trivial
  | case6 nodes us h hu hd => exact trivial

theorem indexed_blames (ih : ReadersBlame w) (closing : Option Nat) (nodes : List Node)
    (us : List Tree) (h : Follows us ts) (hw : Tree.weightAll us ≤ w) :
    (indexed nodes us h).Blames closing := by
  induction us generalizing nodes with
  | nil =>
    unfold indexed
    exact trivial
  | cons u us ihu =>
    unfold indexed
    split
    · rename_i opening children close vs h heq _
      obtain ⟨rfl, rfl⟩ := List.cons.inj heq
      rw [Tree.weightAll_cons, Tree.weight_group] at hw
      split
      · exact trivial
      · split
        · exact ihu _ _ (by omega)
        · rename_i fault hg
          exact .inr (group_blames ih (by omega) (h.suffix.subset List.mem_cons_self) hg)
    · exact trivial

theorem primary_token_blames (ih : ReadersBlame w) (closing : Option Nat) {l : Lexeme}
    (hw : Tree.weightAll (.token l :: us) ≤ w) :
    (primary closing (.token l :: us)).Blames closing := by
  have hus : Tree.weightAll us < w := by
    rw [Tree.weightAll_cons, Tree.weight_token] at hw
    omega
  unfold primary
  split
  · split
    · exact ((ih.operand closing us hus).map _).after
    · split
      · exact ((ih.primary closing us hus).map _).after
      · split
        · exact ((blames_expect _ _ _ _).map _).after
        · split
          · apply Blames.after
            apply (blames_expect _ _ _ _).andThen
            intro name vs h
            exact dottedRest_blames closing _ vs h
          · split
            · exact trivial
            · apply (typeReference_blames ih closing hw).andThen
              intro r vs h
              split
              · rename_i word ws h
                have hws := h.tail.weight_lt
                split
                · exact ((ih.type closing true ws (by omega)).within _).map _
                · exact trivial
              · exact trivial
  · exact trivial
  · exact trivial
  · exact trivial
  · split
    · exact ((blames_expect _ _ _ _).map _).after
    · exact blames_unexpected _ (List.suffix_refl _)
  · apply (typeParameters_blames ih closing hw).andThen
    intro parameters vs h
    have hvs := h.weight_lt
    exact ((ih.primary closing vs (by omega)).within h).map _
  · exact blames_unexpected _ (List.suffix_refl _)

theorem primary_group_blames (ih : ReadersBlame w) (closing : Option Nat) {d : Delimiter}
    {opening close : Lexeme} {children : List Tree}
    (hw : Tree.weightAll (.group d opening children close :: us) ≤ w) :
    (primary closing (.group d opening children close :: us)).Blames closing := by
  rw [Tree.weightAll_cons, Tree.weight_group] at hw
  have hgroup : ∀ fault, group d opening children close = .error fault →
      Tree.Blames (.group d opening children close :: us) fault := fun fault =>
    group_blames ih (by omega) List.mem_cons_self
  unfold primary
  cases d with
  | paren =>
    cases ha : Tree.frontToken? .arrow us with
    | some arrow =>
      apply (Blames.ofExcept hgroup).andThen
      intro g vs h
      have hle := Tree.weightAll_drop_le 1 vs
      have hlt := h.weight_lt
      rw [Tree.weightAll_cons, Tree.weight_group] at hlt
      exact ((ih.type closing true (vs.drop 1) (by omega)).within _).map _
    | none =>
      apply Blames.map
      apply Blames.ofExcept
      exact fun fault => parenthesized_blames ih (by omega) List.mem_cons_self
  | _ => exact (Blames.ofExcept hgroup).map _

theorem primary_blames (ih : ReadersBlame w) (closing : Option Nat) (hw : Tree.weightAll ts ≤ w) :
    (primary closing ts).Blames closing := by
  cases ts with
  | nil =>
    unfold primary
    exact blames_unexpected _ (List.suffix_refl _)
  | cons t us =>
    cases t with
    | token l => exact primary_token_blames ih closing hw
    | group d opening children close => exact primary_group_blames ih closing hw

theorem operand_blames (ih : ReadersBlame w) (closing : Option Nat) (hw : Tree.weightAll ts ≤ w) :
    (operand closing ts).Blames closing := by
  unfold operand
  apply (primary_blames ih closing hw).andThen
  intro nodes us h
  have hus := h.weight_lt
  exact indexed_blames ih closing nodes us h (by omega)

theorem conditionalRest_blames (ih : ReadersBlame w) (closing : Option Nat)
    (hw : Tree.weightAll ts < w) : (conditionalRest closing ts).Blames closing := by
  unfold conditionalRest
  apply (ih.type closing false ts hw).andThen
  intro bound us h
  apply ((blames_expect _ _ _ _).within h).andThen
  intro question vs h
  have hvs := h.weight_lt
  apply ((ih.type closing true vs (by omega)).within h).andThen
  intro yes us h
  apply ((blames_expect _ _ _ _).within h).andThen
  intro colon xs h
  have hxs := h.weight_lt
  exact ((ih.type closing true xs (by omega)).within h).map _

theorem operands_blames (ih : ReadersBlame w) (closing : Option Nat) (conditional : Bool)
    (hw : Tree.weightAll ts ≤ w) : (operands closing conditional ts).Blames closing := by
  unfold operands
  apply (operand_blames ih closing hw).andThen
  intro nodes us h
  split
  · rename_i l vs h
    have hvs := h.tail.weight_lt
    split
    · exact ((conditionalRest_blames ih closing (by omega)).within _).map _
    · split
      · exact ((ih.operands closing conditional vs (by omega)).within _).map _
      · exact trivial
  · exact trivial

theorem type_blames (ih : ReadersBlame w) (closing : Option Nat) (conditional : Bool)
    (hw : Tree.weightAll ts ≤ w) : (type closing conditional ts).Blames closing := by
  unfold type
  split
  · rename_i l us
    split
    · rw [Tree.weightAll_cons, Tree.weight_token] at hw
      exact ((operands_blames ih closing conditional (by omega)).map _).after
    · exact operands_blames ih closing conditional hw
  · exact operands_blames ih closing conditional hw

theorem typeArgumentsRest_blames (ih : ReadersBlame w) (closing : Option Nat)
    (hw : Tree.weightAll ts ≤ w) : (typeArgumentsRest closing ts).Blames closing := by
  unfold typeArgumentsRest
  generalize hf : Tree.frontToken? .greaterThan ts = front
  cases front with
  | some close =>
    obtain ⟨l, us, rfl, -, rfl⟩ := Tree.frontToken?_eq_some hf
    exact trivial
  | none =>
    apply (type_blames ih closing true hw).andThen
    intro nodes us h
    split
    · rename_i l vs h
      have hvs := h.tail.weight_lt
      split
      · exact ((ih.typeArgumentsRest closing vs (by omega)).within _).map _
      · split
        · exact trivial
        · exact blames_unexpected _ h.suffix
    · exact blames_unexpected _ h.suffix

theorem typeClause_blames (ih : ReadersBlame w) (closing : Option Nat) (h : Follows us ts)
    (hw : Tree.weightAll us ≤ w) : (typeClause closing us h).Blames closing := by
  unfold typeClause
  generalize hf : Tree.frontToken? .colon us = front
  cases front with
  | none => exact trivial
  | some colon =>
    obtain ⟨l, vs, rfl, -, rfl⟩ := Tree.frontToken?_eq_some hf
    rw [Tree.weightAll_cons, Tree.weight_token] at hw
    exact ((ih.type closing true vs (by omega)).within _).map _

/-! Parameters. -/

theorem initializer_blames (ih : ReadersBlame w) (closing : Option Nat) (h : Follows us ts)
    (hw : Tree.weightAll us ≤ w) : (initializer us h).Blames closing := by
  unfold initializer
  generalize hf : Tree.frontToken? .equals us = front
  cases front with
  | none => exact trivial
  | some equals =>
    obtain ⟨l, vs, rfl, -, rfl⟩ := Tree.frontToken?_eq_some hf
    apply Blames.map
    apply Blames.ofExcept
    intro fault hs
    simp only [List.drop_succ_cons, List.drop_zero] at hs
    have hle := Tree.weightAll_take_le (argumentLength 0 false vs) vs
    rw [Tree.weightAll_cons, Tree.weight_token] at hw
    exact (ih.sequence _ _ _ _ (by omega) hs).of_isInfix
      ((List.take_prefix _ vs).isInfix.trans h.tail.suffix.isInfix)

theorem bound_blames (ih : ReadersBlame w) (closing : Option Nat) (modifiers : List Token)
    (rest : Option Token) (binding : Binding) (h : Follows us ts) (hw : Tree.weightAll ts ≤ w) :
    (bound closing modifiers rest binding us h).Blames closing := by
  have hweight : ∀ {vs}, Follows vs ts → Tree.weightAll vs ≤ w := fun hv =>
    Nat.le_trans (Nat.le_of_lt hv.weight_lt) hw
  unfold bound
  apply (typeClause_blames ih closing _ (hweight (h.drop _))).andThen
  intro type vs h
  apply (initializer_blames ih closing h (hweight h)).andThen
  intro value xs h
  simp only
  split
  · exact blames_unexpected _ h.suffix
  · exact trivial

theorem parameter_blames (ih : ReadersBlame w) (closing : Option Nat)
    (hw : Tree.weightAll ts ≤ w) : (parameter closing ts).Blames closing := by
  unfold parameter
  simp only
  split
  · rename_i l us hd
    split
    · exact bound_blames ih closing _ _ _ _ hw
    · exact blames_unexpected _ (hd ▸ List.drop_suffix _ ts)
  · rename_i d opening children close us hd
    have hus := Tree.weight_add_le_of_drop_eq_cons hd
    rw [Tree.weight_group] at hus
    have hsuffix : .group d opening children close :: us <:+ ts := hd ▸ List.drop_suffix _ ts
    split
    · exact blames_unexpected _ hsuffix
    · apply Blames.andThen
      · exact Blames.ofExcept fun fault =>
          group_blames ih (by omega) (hsuffix.subset List.mem_cons_self)
      · exact fun g us h => bound_blames ih closing _ _ _ _ hw
  · exact blames_unexpected _ List.nil_suffix

theorem parameters_blame (ih : ReadersBlame w) (closing : Option Nat)
    (hw : Tree.weightAll ts ≤ w) (h : parameters closing ts = .error fault) :
    ItemsBlame parameter closing ts fault := by
  cases ts with
  | nil =>
    rw [parameters] at h
    cases h
  | cons t us =>
    refine itemsBlame_cons (fun p vs hf hp => ?_) (fun fault rest hp => ?_)
      (parameter_blames ih closing hw) (fun vs fault hf => ?_) h
    · rw [parameters, hp]
    · rw [parameters, hp]
    · have hlt := hf.weight_lt
      exact ih.parameters _ _ _ (by omega)

/-! Members. -/

theorem body_blames (ih : ReadersBlame w) (closing : Option Nat) (h : Follows us ts)
    (hw : Tree.weightAll us ≤ w) : (body us h).Blames closing := by
  unfold body
  split
  · rename_i opening children close vs h
    rw [Tree.weightAll_cons, Tree.weight_group] at hw
    exact (Blames.ofExcept fun fault =>
      group_blames ih (by omega) (h.suffix.subset List.mem_cons_self)).map _
  · exact trivial

theorem signature_blames (ih : ReadersBlame w) (closing : Option Nat) (decorators : List Clause)
    (head : MemberHead) (name : MemberName) (h : Follows us ts) (hw : Tree.weightAll ts ≤ w) :
    (signature closing decorators head name us h).Blames closing := by
  have hweight : ∀ {vs}, Follows vs ts → Tree.weightAll vs ≤ w := fun hv =>
    Nat.le_trans (Nat.le_of_lt hv.weight_lt) hw
  unfold signature
  apply Blames.andThen
  · split
    · exact (typeParameters_blames ih closing (hweight (h.drop _))).within _
    · exact trivial
  · intro generics vs h
    split
    · rename_i opening children close vs h
      have hmem := h.suffix.subset List.mem_cons_self
      have hlt := hweight h
      rw [Tree.weightAll_cons, Tree.weight_group] at hlt
      split
      · rename_i fault hparameters
        obtain ⟨t, us, construct, hleaves, rfl, hfailed⟩ | hblames :=
          ih.parameters _ _ _ (by omega) hparameters
        · exact .inr (.of_mem hmem (.parameter hleaves hfailed))
        · exact .inr (hblames.inside hmem)
      · apply (typeClause_blames ih closing _ (hweight h.tail)).andThen
        intro returnType vs h
        apply (body_blames ih closing h (hweight h)).andThen
        exact fun _ _ _ => trivial
    · exact trivial

theorem named_blames (ih : ReadersBlame w) (closing : Option Nat) (decorators : List Clause)
    (hw : Tree.weightAll ts ≤ w) : (named closing decorators ts).Blames closing := by
  unfold named
  simp only
  split
  · rename_i l us hd
    split
    · exact signature_blames ih closing _ _ _ _ hw
    · split
      · exact signature_blames ih closing _ _ _ _ hw
      · exact blames_unexpected _ (hd ▸ List.drop_suffix _ ts)
  · rename_i opening children close us hd
    have hus := Tree.weight_add_le_of_drop_eq_cons hd
    rw [Tree.weight_group] at hus
    have hsuffix : .group .bracket opening children close :: us <:+ ts :=
      hd ▸ List.drop_suffix _ ts
    apply Blames.andThen
    · exact Blames.ofExcept fun fault =>
        group_blames ih (by omega) (hsuffix.subset List.mem_cons_self)
    · exact fun g us h => signature_blames ih closing _ _ _ _ hw
  · exact blames_unexpected _ (List.drop_suffix _ ts)

theorem declared_blames (ih : ReadersBlame w) (closing : Option Nat) (decorators : List Clause)
    (hw : Tree.weightAll ts ≤ w) : (declared closing decorators ts).Blames closing := by
  unfold declared
  split
  · rename_i mark us
    split
    · rw [Tree.weightAll_cons, Tree.weight_token] at hw
      apply Blames.after
      apply (blames_expect _ _ _ _).andThen
      intro name vs h
      apply Blames.andThen
      · apply Blames.ofExcept
        intro fault hs
        have hle := Tree.weightAll_before_le us (vs.drop (decoratorLength vs))
        exact (ih.sequence _ _ _ _ (by omega) hs).of_isInfix (List.take_prefix _ us).isInfix
      · intro expression ws h
        have hlt := h.weight_lt
        exact (ih.declared _ _ _ (by omega)).within h
    · exact named_blames ih closing decorators hw
  · exact named_blames ih closing decorators hw

theorem member_blames (ih : ReadersBlame w) (closing : Option Nat) (hw : Tree.weightAll ts ≤ w) :
    (member closing ts).Blames closing := by
  have hverbatim : ∀ us fault, sequence (some .brace) none (Tree.before ts us) = .error fault →
      Tree.Blames ts fault := by
    intro us fault hs
    have hle := Tree.weightAll_before_le ts us
    exact (sequence_blames ih (by omega) hs).of_isInfix (List.take_prefix _ ts).isInfix
  unfold member
  generalize hf : Tree.frontToken? .semicolon ts = front
  cases front with
  | some semicolon =>
    obtain ⟨l, us, rfl, -, rfl⟩ := Tree.frontToken?_eq_some hf
    exact trivial
  | none =>
    apply (declared_blames ih closing [] hw).andThen
    intro found us h
    cases found with
    | member m => exact trivial
    | verbatim => exact (Blames.ofExcept (hverbatim _)).map _
    | property => exact (Blames.ofExcept (hverbatim _)).map _

theorem members_blame (ih : ReadersBlame w) (closing : Option Nat) (hw : Tree.weightAll ts ≤ w)
    (h : members closing ts = .error fault) : ItemsBlame member closing ts fault := by
  cases ts with
  | nil =>
    rw [members] at h
    cases h
  | cons t us =>
    refine itemsBlame_cons (fun m vs hf hm => members_cons hm) (fun fault rest hm => ?_)
      (member_blames ih closing hw) (fun vs fault hf => ?_) h
    · rw [members, hm]
    · have hlt := hf.weight_lt
      exact ih.members _ _ _ (by omega)

theorem readersBlame (w : Nat) : ReadersBlame w := by
  -- on the same trees the readers only call those proved before them here
  induction w with
  | zero => constructor <;> intros <;> omega
  | succ w ih =>
    exact {
      type := fun closing conditional ts hw => type_blames ih closing conditional (by omega)
      operands := fun closing conditional ts hw => operands_blames ih closing conditional (by omega)
      operand := fun closing ts hw => operand_blames ih closing (by omega)
      primary := fun closing ts hw => primary_blames ih closing (by omega)
      typeArgumentsRest := fun closing ts hw => typeArgumentsRest_blames ih closing (by omega)
      sequence := fun parent last ts fault hw => sequence_blames ih (by omega)
      declared := fun closing decorators ts hw => declared_blames ih closing decorators (by omega)
      members := fun closing ts fault hw => members_blame ih closing (by omega)
      parameters := fun closing ts fault hw => parameters_blame ih closing (by omega) }

end TwinClasses.Reader
