import TwinClasses.Proofs.RoundTrip.Sequences

set_option autoImplicit false

/-! Types. Their operands, type parameters and index brackets follow one another without brackets
around them, so each reader hands on what it has read so far, with the trees it came from. -/

namespace TwinClasses.Reader

open Extent Reading Node

variable {w : Nat}

theorem typeParameters_readFrom (ih : ReadersSound w) (closing : Option Nat) {ts : List Tree}
    (hw : Tree.weightAll ts ≤ w) : (typeParameters closing ts).Yields fun ns read =>
      AllReadFrom ns read ∧ IsAngleList (Tree.tokensAll read) := by
  unfold typeParameters
  split
  · rename_i opening us
    split
    · rename_i hk
      split
      · rename_i n hn
        rw [List.take_succ_cons]
        have htake : Tree.weightAll (.token opening :: us.take n) ≤ w := by
          have := Tree.weightAll_take_le n us
          simp at hw ⊢
          omega
        refine Yields.ofExcept (.token opening :: us.take n) (by simp) ?_
        intro ns hns
        refine ⟨sequence_readFrom ih htake hns, ?_⟩
        obtain ⟨inner, l, hi, hl⟩ := take_angleLength? hn
        refine Or.inr ⟨opening.toToken, Tree.tokensAll inner, l.toToken, hk, hl, ?_⟩
        rw [hi]
        simp
      · trivial
    · exact yields_unexpected _ _ _
  · exact yields_unexpected _ _ _

/-- The trees in `front` come before those that are read here; the first nodes stand for them. -/
theorem dottedRest_readFrom (front : List Tree) (closing : Option Nat) {ts read : List Tree}
    (nodes : List Node) (us : List Tree) (h : Follows us ts) (hts : ts = read ++ us)
    (hn : AllReadFrom nodes (front ++ read)) :
    (dottedRest closing nodes us h).Yields fun ns read => AllReadFrom ns (front ++ read) := by
  fun_induction dottedRest closing nodes us h generalizing read with
  | case1 nodes dot name us h hd => exact ⟨read, hts, hn⟩
  | case2 nodes dot name us h hd hk ih =>
    have hts' : ts = (read ++ [.token dot, .token name]) ++ us := by simp [hts]
    refine ih hts' ?_
    rw [← List.append_assoc]
    exact hn.append (((ReadFrom.token name).single).token dot)
  | case3 nodes dot name us h hd hk => exact yields_unexpected _ _ _
  | case4 nodes dot us h hu hd => exact yields_unexpected _ _ _
  | case5 nodes dot us h hu hd => exact ⟨read, hts, hn⟩
  | case6 nodes us h hu hd => exact ⟨read, hts, hn⟩

theorem indexed_readFrom (ih : ReadersSound w) {ts read : List Tree} (nodes : List Node)
    (us : List Tree) (h : Follows us ts) (hts : ts = read ++ us) (hw : Tree.weightAll us ≤ w)
    (hn : AllReadFrom nodes read) : (indexed nodes us h).Yields AllReadFrom := by
  induction us generalizing nodes read with
  | nil =>
    unfold indexed
    exact ⟨read, hts, hn⟩
  | cons u us ihu =>
    unfold indexed
    split
    · rename_i opening children closing vs h heq _
      obtain ⟨rfl, rfl⟩ := List.cons.inj heq
      split
      · exact ⟨read, hts, hn⟩
      · rw [Tree.weightAll_cons, Tree.weight_group] at hw
        split
        · rename_i g hg
          have hg := group_readFrom ih.sequence (by omega) hg
          have hts' : ts = (read ++ [.group .bracket opening children closing]) ++ us := by
            simp [hts]
          refine ihu _ _ hts' (by omega) ?_
          exact hn.append hg.node.single
        · trivial
    · exact ⟨read, hts, hn⟩

theorem parenthesized_readFrom (ih : ReadersSound w) {opening close : Lexeme}
    {children : List Tree} (hw : Tree.weightAll children < w) {g : Group}
    (h : parenthesized opening children close = .ok g) :
    g.ReadFrom [.group .paren opening children close] := by
  unfold parenthesized at h
  split at h
  · rename_i nodes hf hr
    have hy := ih.type (some close.offset) true children hw
    rw [hr] at hy
    obtain ⟨read, hts, hn⟩ := hy
    rw [List.append_nil] at hts
    subst hts
    cases h
    exact .ofChildren hn
  · cases h
  · cases h

/-- A token, and what is read after it. -/
theorem prefixed_readFrom (l : Lexeme) {us : List Tree} {r : Reading (List Node) us}
    (h : r.Yields AllReadFrom) :
    ((r.map (.token l.toToken :: ·)).after (t := .token l)).Yields AllReadFrom := by
  apply Yields.after
  apply Yields.map
  apply h.mono
  intro ns read hn
  exact hn.token l

/-- A token, and one of a certain kind after it. -/
theorem paired_readFrom (l : Lexeme) (kind : Kind) (closing : Option Nat) (us : List Tree) :
    (((Reading.expect kind "a type" closing us).map fun name =>
      [.token l.toToken, .token name]).after (t := .token l)).Yields AllReadFrom := by
  apply Yields.after
  apply Yields.map
  apply (yields_expect _ _ _ us).mono
  rintro t read ⟨name, -, rfl, rfl⟩
  exact ((ReadFrom.token name).single).token l

theorem primary_token_readFrom (ih : ReadersSound w) (closing : Option Nat) {l : Lexeme}
    {us : List Tree} (hw : Tree.weightAll (.token l :: us) ≤ w) :
    (primary closing (.token l :: us)).Yields AllReadFrom := by
  have hus : Tree.weightAll us < w := by
    simp at hw
    omega
  have hsingle : AllReadFrom [.token l.toToken] [.token l] := (ReadFrom.token l).single
  unfold primary
  split
  · split
    · exact prefixed_readFrom l (ih.operand closing us hus)
    · split
      · exact prefixed_readFrom l (ih.primary closing us hus)
      · split
        · exact paired_readFrom l .identifier closing us
        · split
          · apply Yields.after
            apply (yields_expect _ _ _ us).andThen
            rintro t read vs h hvs ⟨name, -, rfl, rfl⟩
            exact dottedRest_readFrom [.token l] closing _ vs h hvs
              (((ReadFrom.token name).single).token l)
          · split
            · exact ⟨[.token l], rfl, hsingle⟩
            · apply (typeReference_readFrom ih closing hw).andThen
              intro r read vs h hts hr
              split
              · rename_i word ws h
                split
                · apply Yields.map
                  refine Yields.within (read ++ [.token word]) (by simp [hts]) ?_
                  have hws := h.tail.weight_lt
                  apply (ih.type closing true ws (by omega)).mono
                  intro ns rest hn
                  simpa using hr.node.cons (hn.token word)
                · exact ⟨read, hts, hr.node.single⟩
              · exact ⟨read, hts, hr.node.single⟩
  · exact ⟨[.token l], rfl, hsingle⟩
  · exact ⟨[.token l], rfl, hsingle⟩
  · exact ⟨[.token l], rfl, hsingle⟩
  · split
    · exact paired_readFrom l .number closing us
    · exact yields_unexpected _ _ _
  · apply (typeParameters_readFrom ih closing hw).andThen
    intro parameters read vs h hts hp
    have hvs := h.weight_lt
    apply Yields.map
    refine Yields.within read hts ?_
    apply (ih.primary closing vs (by omega)).mono
    intro ns rest hn
    exact hp.1.append hn
  · exact yields_unexpected _ _ _

theorem primary_group_readFrom (ih : ReadersSound w) (closing : Option Nat) {d : Delimiter}
    {opening close : Lexeme} {children us : List Tree}
    (hw : Tree.weightAll (.group d opening children close :: us) ≤ w) :
    (primary closing (.group d opening children close :: us)).Yields AllReadFrom := by
  rw [Tree.weightAll_cons, Tree.weight_group] at hw
  unfold primary
  cases d with
  | paren =>
    cases ha : Tree.frontToken? .arrow us with
    | some arrow =>
      apply (yields_group ih (.tail_of_cons _ us) [] rfl (by omega)).andThen
      rintro g read vs h hts ⟨rfl, hg⟩
      obtain ⟨-, rfl⟩ := List.cons.inj hts
      obtain ⟨l, ws, rfl, -, rfl⟩ := Tree.frontToken?_eq_some ha
      apply Yields.map
      refine Yields.within [.group .paren opening children close, .token l] rfl ?_
      rw [Tree.weightAll_cons, Tree.weight_token] at hw
      apply (ih.type closing true ws (by omega)).mono
      intro ns rest hn
      exact hg.node.cons (hn.token l)
    | none =>
      apply Yields.map
      refine Yields.ofExcept [.group .paren opening children close] rfl ?_
      intro g hg
      exact (parenthesized_readFrom ih (by omega) hg).node.single
  | _ =>
    apply Yields.map
    refine Yields.ofExcept [.group _ opening children close] rfl ?_
    intro g hg
    exact (group_readFrom ih.sequence (by omega) hg).node.single

theorem primary_readFrom (ih : ReadersSound w) (closing : Option Nat) {ts : List Tree}
    (hw : Tree.weightAll ts ≤ w) : (primary closing ts).Yields AllReadFrom := by
  cases ts with
  | nil =>
    unfold primary
    exact yields_unexpected _ _ _
  | cons t us =>
    cases t with
    | token l => exact primary_token_readFrom ih closing hw
    | group d opening children close => exact primary_group_readFrom ih closing hw

theorem operand_readFrom (ih : ReadersSound w) (closing : Option Nat) {ts : List Tree}
    (hw : Tree.weightAll ts ≤ w) : (operand closing ts).Yields AllReadFrom := by
  unfold operand
  apply (primary_readFrom ih closing hw).andThen
  intro nodes read us h hts hn
  have hus := h.weight_lt
  exact indexed_readFrom ih nodes us h hts (by omega) hn

theorem conditionalRest_readFrom (ih : ReadersSound w) (closing : Option Nat) {ts : List Tree}
    (hw : Tree.weightAll ts < w) : (conditionalRest closing ts).Yields AllReadFrom := by
  unfold conditionalRest
  apply (ih.type closing false ts hw).andThen
  intro bound read us h hts hb
  have hus := h.weight_lt
  apply Yields.within_andThen read hts (yields_expect .question _ closing us)
  rintro question r vs h hts ⟨l, -, rfl, rfl⟩
  have hvs := h.weight_lt
  apply Yields.within_andThen _ hts (ih.type closing true vs (by omega))
  intro yes ryes ws h hts hyes
  have hws := h.weight_lt
  apply Yields.within_andThen _ hts (yields_expect .colon _ closing ws)
  rintro colon r xs h hts ⟨l', -, rfl, rfl⟩
  have hxs := h.weight_lt
  apply Yields.map
  refine Yields.within _ hts ?_
  apply (ih.type closing true xs (by omega)).mono
  intro no rno hno
  simpa using hb.append ((hyes.append (hno.token l')).token l)

theorem operands_readFrom (ih : ReadersSound w) (closing : Option Nat) (conditional : Bool)
    {ts : List Tree} (hw : Tree.weightAll ts ≤ w) :
    (operands closing conditional ts).Yields AllReadFrom := by
  unfold operands
  apply (operand_readFrom ih closing hw).andThen
  intro nodes read us h hts hn
  split
  · rename_i l vs h
    have hvs := h.tail.weight_lt
    split
    · apply Yields.map
      refine Yields.within (read ++ [.token l]) (by simp [hts]) ?_
      apply (conditionalRest_readFrom ih closing (by omega)).mono
      intro ns rest hr
      simpa using hn.append (hr.token l)
    · split
      · apply Yields.map
        refine Yields.within (read ++ [.token l]) (by simp [hts]) ?_
        apply (ih.operands closing conditional vs (by omega)).mono
        intro ns rest hr
        simpa using hn.append (hr.token l)
      · exact ⟨read, hts, hn⟩
  · exact ⟨read, hts, hn⟩

theorem type_readFrom (ih : ReadersSound w) (closing : Option Nat) (conditional : Bool)
    {ts : List Tree} (hw : Tree.weightAll ts ≤ w) :
    (type closing conditional ts).Yields AllReadFrom := by
  unfold type
  split
  · rename_i l us
    split
    · have hus : Tree.weightAll us ≤ w := by
        simp at hw
        omega
      apply Yields.after
      apply Yields.map
      apply (operands_readFrom ih closing conditional hus).mono
      intro ns read hn
      exact hn.token l
    · exact operands_readFrom ih closing conditional hw
  · exact operands_readFrom ih closing conditional hw

theorem typeArgumentsRest_readFrom (ih : ReadersSound w) (closing : Option Nat) {ts : List Tree}
    (hw : Tree.weightAll ts ≤ w) :
    (typeArgumentsRest closing ts).Yields TypeArgument.RestReadFrom := by
  unfold typeArgumentsRest
  generalize hc : Tree.frontToken? .greaterThan ts = c
  cases c with
  | some close =>
    obtain ⟨l, us, rfl, -, rfl⟩ := Tree.frontToken?_eq_some hc
    refine ⟨[.token l], rfl, [], l, rfl, rfl, ?_, ?_, ?_⟩
    · simpa [TypeArgument.outlineAll] using Stands.nil
    · simp [TypeArgument.EveryOf]
    · simp
  | none =>
    apply (type_readFrom ih closing true hw).andThen
    intro nodes read us h hts hn
    -- The type is not empty, because a reading takes at least one tree.
    have hne : nodes ≠ [] := by
      apply hn.ne_nil
      rintro rfl
      have hlt := h.weight_lt
      rw [hts] at hlt
      simp at hlt
    split
    · rename_i l vs h
      have hvs := h.tail.weight_lt
      split
      · apply Yields.map
        refine Yields.within (read ++ [.token l]) (by simp [hts]) ?_
        apply (ih.typeArgumentsRest closing vs (by omega)).mono
        rintro ⟨items, close⟩ rest ⟨inner, l', rfl, hclose, hi⟩
        refine ⟨read ++ .token l :: inner, l', by simp, hclose, ?_, ?_, ?_⟩
        · rw [TypeArgument.outlineAll, TypeArgument.outline]
          simpa using hn.1.append (hi.1.token l)
        · rw [TypeArgument.EveryOf, TypeArgument.Every]
          exact ⟨hn.2, hi.2.1⟩
        · simpa using ⟨hne, hi.2.2⟩
      · split
        · refine ⟨read ++ [.token l], by simp [hts], read, l, rfl, rfl, ?_, ?_, ?_⟩
          · simpa [TypeArgument.outlineAll, TypeArgument.outline] using hn.1
          · simpa [TypeArgument.EveryOf, TypeArgument.Every] using hn.2
          · simpa using hne
        · exact yields_unexpected _ _ _
    · exact yields_unexpected _ _ _

end TwinClasses.Reader
