import TwinClasses.Proofs.RoundTrip.Reads

set_option autoImplicit false

/-! Node sequences and the constructs that stand out in them: classes, loop heads, awaits, type
references and property accesses. -/

namespace TwinClasses.Reader

open Extent Reading

variable {w : Nat}

theorem typeArguments_readFrom (ih : ReadersSound w) (closing : Option Nat) {ts : List Tree}
    (hw : Tree.weightAll ts ≤ w) :
    (typeArguments closing ts).Yields fun a read =>
      Stands a.outline read ∧ a.Every Node.IsWritten ∧ ∀ x ∈ a.items, x.type ≠ [] := by
  unfold typeArguments
  split
  · rename_i opening us
    have hus : Tree.weightAll us < w := by
      simp at hw
      omega
    split
    · apply Yields.after
      apply Yields.map
      apply (ih.typeArgumentsRest closing us hus).mono
      rintro ⟨items, close⟩ read ⟨inner, l, rfl, rfl, hi⟩
      refine ⟨?_, ?_, hi.2.2⟩
      · rw [TypeArguments.outline]
        exact (hi.1.append (Stands.single l)).token opening
      · rw [TypeArguments.Every]
        exact hi.2.1
    · exact yields_unexpected _ _ _
  · exact yields_unexpected _ _ _

/-- Qualifiers are dots with identifiers after them. -/
theorem qualifiers_spelled {ts : List Tree} {q : Token × Token} (hq : q ∈ qualifiers ts) :
    q.1.kind = .dot ∧ q.2.kind = .identifier := by
  fun_induction qualifiers ts with
  | case1 dot name ts h ih =>
    obtain rfl | hq := List.mem_cons.1 hq
    · simpa using h
    · exact ih hq
  | case2 dot name ts h => cases hq
  | case3 ts h => cases hq

theorem typeReference_readFrom (ih : ReadersSound w) (closing : Option Nat) {ts : List Tree}
    (hw : Tree.weightAll ts ≤ w) : (typeReference closing ts).Yields TypeRef.ReadFrom := by
  unfold typeReference
  split
  · rename_i name us
    have hus : Tree.weightAll us < w := by
      simp at hw
      omega
    split
    · rename_i hk
      have hspelled : ∀ list, (TypeRef.mk name.toToken (qualifiers us) list).IsSpelled :=
        fun _ => ⟨hk, fun _ => qualifiers_spelled⟩
      obtain ⟨read, hr, hp⟩ := beginsWith_qualifiers us
      rw [length_qualifiers_tokens] at hr
      have hd : Tree.weightAll (us.drop (2 * (qualifiers us).length)) ≤ w := by
        have := Tree.weightAll_drop_le (2 * (qualifiers us).length) us
        omega
      have hname := (Stands.ofTokens hp).token name
      simp only
      split
      · apply Yields.map
        refine Yields.within (.token name :: read) (by rw [List.cons_append, ← hr]) ?_
        apply (typeArguments_readFrom ih closing hd).mono
        rintro a rest ⟨ha, he, hn⟩
        refine ⟨?_, ?_⟩
        · rw [TypeRef.outline, TypeArguments.outlineOption]
          exact hname.append ha
        · rw [Node.Every, TypeRef.Every, TypeArguments.EveryIn]
          exact ⟨⟨hspelled _, by simpa [Node.IsFilled] using hn⟩, he⟩
      · refine Yields.done (.token name :: read) (by rw [List.cons_append, ← hr]) ⟨?_, ?_⟩
        · rw [TypeRef.outline, TypeArguments.outlineOption, List.append_nil]
          exact hname
        · rw [Node.Every, TypeRef.Every, TypeArguments.EveryIn]
          exact ⟨⟨hspelled _, by simp [Node.IsFilled]⟩, trivial⟩
    · exact yields_unexpected _ _ _
  · exact yields_unexpected _ _ _

theorem attachedReference_readFrom (ih : ReadersSound w) {l : Lexeme} {us : List Tree}
    (hw : Tree.weightAll (.token l :: us) ≤ w) {r : Reading Node (.token l :: us)}
    (h : attachedReference l us = some r) : r.Yields Node.ReadFrom := by
  unfold attachedReference at h
  split at h
  · rename_i opening us
    split at h
    · split at h
      · rename_i reference vs hf hr
        split at h
        · have hy := typeReference_readFrom ih none hw
          rw [hr] at hy
          obtain ⟨read, hts, hread⟩ := hy
          cases h
          exact ⟨read, hts, hread.node⟩
        · cases h
      · cases h
    · cases h
  · cases h

theorem access_readFrom {l : Lexeme} {us : List Tree} {r : Reading Node (.token l :: us)}
    (h : access l us = some r) : r.Yields Node.ReadFrom := by
  unfold access at h
  split at h
  · rename_i dot name vs
    split at h
    · cases h
      exact ⟨[.token l, .token dot, .token name], rfl, .access l dot name⟩
    · cases h
  · cases h

theorem forOf_readFrom (ih : ReadersSound w) {l : Lexeme} {us : List Tree}
    (hw : Tree.weightAll (.token l :: us) ≤ w) {r : Reading Node (.token l :: us)}
    (h : forOf l us = some r) : r.Yields Node.ReadFrom := by
  unfold forOf at h
  split at h
  · rename_i opening children closing vs
    split at h
    · cases h
      apply Yields.map
      refine Yields.ofExcept [.token l, .group .paren opening children closing] rfl ?_
      intro g hg
      have hr := group_readFrom ih.sequence (by simp at hw; omega) hg
      refine ⟨?_, ?_⟩
      · rw [Node.outline]
        exact hr.1.token l
      · rw [Node.Every]
        exact ⟨trivial, hr.2⟩
    · cases h
  · rename_i word opening children closing vs
    split at h
    · cases h
      apply Yields.map
      refine Yields.ofExcept
        [.token l, .token word, .group .paren opening children closing] rfl ?_
      intro g hg
      have hr := group_readFrom ih.sequence (by simp at hw; omega) hg
      refine ⟨?_, ?_⟩
      · rw [Node.outline]
        exact (hr.1.token word).token l
      · rw [Node.Every]
        exact ⟨trivial, hr.2⟩
    · cases h
  · cases h

theorem operandLength_nil : operandLength [] = 0 := by
  rw [operandLength]
  rfl

theorem await_readFrom (ih : ReadersSound w) {l : Lexeme} {us : List Tree}
    (hw : Tree.weightAll (.token l :: us) ≤ w) {r : Reading Node (.token l :: us)}
    (h : await l us = some r) : r.Yields Node.ReadFrom := by
  unfold await at h
  simp only at h
  split at h
  · cases h
  · rename_i hn
    cases h
    apply Yields.map
    refine Yields.ofExcept (.token l :: us.take (operandLength us)) (by simp) ?_
    intro operand ho
    have hus : Tree.weightAll (us.take (operandLength us)) < w := by
      have := Tree.weightAll_take_le (operandLength us) us
      simp at hw
      omega
    refine .await l (ih.sequence none none _ _ hus ho) ?_
    intro ht
    rw [List.take_eq_nil_iff] at ht
    rcases ht with ht | rfl
    · exact hn ht
    · exact hn operandLength_nil

theorem beginsWith_className? {us : List Tree} {name : Option Token}
    (h : className? us = some name) : Tree.BeginsWith name.toList us := by
  unfold className? at h
  split at h
  · cases h
  · cases h
    exact Tree.beginsWith_nil _
  · rename_i l vs
    split at h
    · cases h
      split
      · exact Tree.beginsWith_nil _
      · exact (Tree.beginsWith_nil vs).cons l
    · split at h
      · cases h
        exact Tree.beginsWith_nil _
      · cases h

theorem classDecl_readFrom (ih : ReadersSound w) {parent : Option Delimiter} {last : Option Node}
    {l : Lexeme} {us : List Tree} (hw : Tree.weightAll (.token l :: us) ≤ w)
    (hl : l.toToken.isWord "class" = true) {r : Reading Node (.token l :: us)}
    (h : classDecl parent last l us = some r) : r.Yields Node.ReadFrom := by
  unfold classDecl at h
  split at h
  · cases h
  · rename_i name hname
    obtain ⟨read, hread, hx⟩ := beginsWith_className? hname
    split at h
    · cases h
    · rename_i split hsplit
      have hlt := split.weight_lt
      have hle := Tree.weightAll_drop_le name.toList.length us
      rw [Tree.weightAll_cons, Tree.weight_token] at hw
      split at h
      · cases h
        trivial
      · rename_i heritage hh
        have hheritage := ih.sequence _ _ _ _ (by omega) hh
        cases h
        apply Yields.map
        refine Yields.ofExcept (.token l :: read ++ split.heritage
          ++ [.group .brace split.opening split.children split.closing]) ?_ ?_
        · have heq := split.eq
          simp only [List.cons_append, List.append_assoc, List.nil_append]
          rw [← heq, ← hread]
        · intro ms hms
          have hmembers := ih.members _ _ _ (by omega) hms
          refine ⟨?_, ?_⟩
          · rw [Node.outline, ClassDecl.outline]
            have hb := hmembers.1.group .brace split.opening split.closing
            have hn := (Stands.ofTokens hx).token l
            simpa [List.append_assoc] using (hn.append hheritage.1).append hb
          · rw [Node.Every, ClassDecl.Every]
            exact ⟨hl, hheritage.2, hmembers.2⟩

theorem construct_readFrom (ih : ReadersSound w) {parent : Option Delimiter} {last : Option Node}
    {l : Lexeme} {us : List Tree} (hw : Tree.weightAll (.token l :: us) ≤ w)
    (hl : l.kind = .identifier) {r : Reading Node (.token l :: us)}
    (h : construct parent last l us = some r) : r.Yields Node.ReadFrom := by
  unfold construct at h
  split at h
  · rename_i htext
    exact classDecl_readFrom ih hw (by simp [Token.isWord, hl, htext]) h
  · split at h
    · exact forOf_readFrom ih hw h
    · split at h
      · exact await_readFrom ih hw h
      · split at h
        · rename_i hr
          cases h
          exact attachedReference_readFrom ih hw hr
        · exact access_readFrom h

theorem sequence_readFrom (ih : ReadersSound w) {parent : Option Delimiter} {last : Option Node}
    {ts : List Tree} {ns : List Node} (hw : Tree.weightAll ts ≤ w)
    (h : sequence parent last ts = .ok ns) : Node.AllReadFrom ns ts := by
  unfold sequence at h
  split at h
  · cases h
    exact .nil
  · rename_i d opening children closing us
    have hpos := (Tree.group d opening children closing).weight_pos
    rw [Tree.weightAll_cons, Tree.weight_group] at hw
    cases hg : group d opening children closing with
    | error fault => simp [hg] at h
    | ok g =>
      have hread := group_readFrom ih.sequence (by omega) hg
      cases hs : sequence parent (some (.group g)) us with
      | error fault => simp [hg, hs, Except.map] at h
      | ok ms =>
        simp only [hg, hs, Except.map, Except.ok.injEq] at h
        subst h
        exact hread.node.cons (ih.sequence _ _ _ _ (by omega) hs)
  · rename_i l us
    split at h
    · rename_i node vs hf hc
      have hvs := hf.weight_lt
      have hy : (Reading.done node vs hf).Yields Node.ReadFrom := by
        split at hc
        · rename_i hk
          rw [Bool.and_eq_true, decide_eq_true_eq] at hk
          exact construct_readFrom ih hw hk.1 hc
        · cases hc
      obtain ⟨read, hts, hread⟩ := hy
      cases hs : sequence parent (some node) vs with
      | error fault => simp [hs, Except.map] at h
      | ok ms =>
        simp only [hs, Except.map, Except.ok.injEq] at h
        subst h
        rw [hts]
        exact hread.cons (ih.sequence _ _ _ _ (by omega) hs)
    · cases h
    · rw [Tree.weightAll_cons, Tree.weight_token] at hw
      cases hs : sequence parent (some (.token l.toToken)) us with
      | error fault => simp [hs, Except.map] at h
      | ok ms =>
        simp only [hs, Except.map, Except.ok.injEq] at h
        subst h
        exact (ih.sequence _ _ _ _ (by omega) hs).token l

end TwinClasses.Reader
