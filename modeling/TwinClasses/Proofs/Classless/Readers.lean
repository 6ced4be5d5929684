import TwinClasses.Proofs.RoundTrip.Types

set_option autoImplicit false

/-! Readers where no class is written. Only the body of a class can make them fail on matched
brackets, and only an accessor in it has gaps; so without the word `class` node sequences are always
read, and what any reader finds has no gap. -/

namespace TwinClasses

/-- Nothing is missing between the tokens of the outline. -/
def Spot.Gapless (spots : List Spot) : Prop := ∀ g, gap g ∉ spots

@[simp] theorem Spot.gapless_nil : Gapless [] := by simp [Gapless]

@[simp] theorem Spot.gapless_token (t : Token) (spots : List Spot) :
    Gapless (token t :: spots) ↔ Gapless spots := by
  simp [Gapless]

@[simp] theorem Spot.gapless_append (as bs : List Spot) :
    Gapless (as ++ bs) ↔ Gapless as ∧ Gapless bs := by
  simp [Gapless, forall_and]

@[simp] theorem Spot.gapless_ofTokens (ts : List Token) : Gapless (ofTokens ts) := by
  induction ts with
  | nil => simp
  | cons t ts ih => simpa using ih

def Node.Gapless (ns : List Node) : Prop := Spot.Gapless (Node.outlineAll ns)

@[simp] theorem Node.gapless_nil : Gapless [] := by simp [Gapless, outlineAll]

@[simp] theorem Node.gapless_cons (n : Node) (ns : List Node) :
    Gapless (n :: ns) ↔ Spot.Gapless n.outline ∧ Gapless ns := by
  simp [Gapless, outlineAll]

@[simp] theorem Node.gapless_append (ns ms : List Node) :
    Gapless (ns ++ ms) ↔ Gapless ns ∧ Gapless ms := by
  simp [Gapless, outlineAll_append]

@[simp] theorem Node.gapless_outline_token (t : Token) : Spot.Gapless (Node.token t).outline := by
  simp [outline]

@[simp] theorem Node.gapless_outlineAll (ns : List Node) :
    Spot.Gapless (outlineAll ns) ↔ Gapless ns := Iff.rfl

@[simp] theorem Group.gapless_outline (g : Group) :
    Spot.Gapless g.outline ↔ Node.Gapless g.children := by
  cases g
  simp [outline]

namespace Tree

/-- None of the tokens is the word `class`, however deeply it is nested. -/
def ClassFree (ts : List Tree) : Prop := ∀ l ∈ lexemesAll ts, l.toToken.isWord "class" = false

variable {ts us : List Tree}

@[simp] theorem classFree_append : ClassFree (ts ++ us) ↔ ClassFree ts ∧ ClassFree us := by
  simp [ClassFree, lexemesAll_append, or_imp, forall_and]

theorem ClassFree.of_suffix (h : ClassFree ts) (hu : us <:+ ts) : ClassFree us := by
  obtain ⟨read, rfl⟩ := hu
  exact (classFree_append.1 h).2

theorem ClassFree.take (h : ClassFree ts) (n : Nat) : ClassFree (ts.take n) := by
  rw [← List.take_append_drop n ts] at h
  exact (classFree_append.1 h).1

theorem ClassFree.drop (h : ClassFree ts) (n : Nat) : ClassFree (ts.drop n) :=
  h.of_suffix (List.drop_suffix n ts)

theorem ClassFree.tail {t : Tree} (h : ClassFree (t :: ts)) : ClassFree ts :=
  h.of_suffix (List.suffix_cons t ts)

theorem ClassFree.children {d : Delimiter} {opening closing : Lexeme} {children : List Tree}
    (h : ClassFree (group d opening children closing :: ts)) : ClassFree children := by
  intro l hl
  apply h l
  simp [lexemesAll, lexemes, hl]

theorem ClassFree.front {l : Lexeme} (h : ClassFree (token l :: ts)) :
    l.toToken.isWord "class" = false := by
  apply h l
  simp [lexemesAll, lexemes]

theorem ClassFree.of_follows (h : ClassFree ts) (hu : Follows us ts) :
    ClassFree us := h.of_suffix hu.suffix

end Tree

namespace Reading

variable {α β : Type} {ts us : List Tree}

/-- What is found, if something is, satisfies `P`. -/
def Gives (P : α → Prop) : Reading α ts → Prop
  | done a _ _ => P a
  | failed _ _ => True

variable {P : α → Prop} {Q : β → Prop}

theorem Gives.map {f : α → β} {r : Reading α ts} (h : r.Gives fun a => Q (f a)) :
    (r.map f).Gives Q := by
  cases r with
  | done a rest hf => exact h
  | failed fault rest => trivial

theorem Gives.mono {P' : α → Prop} {r : Reading α ts} (h : r.Gives P) (hp : ∀ a, P a → P' a) :
    r.Gives P' := by
  cases r with
  | done a rest hf => exact hp a h
  | failed fault rest => trivial

theorem Gives.andThen {r : Reading α ts}
    {f : α → (rest : List Tree) → Follows rest ts → Reading β ts} (h : r.Gives P)
    (hf : ∀ a rest h, P a → (f a rest h).Gives Q) : (r.andThen f).Gives Q := by
  cases r with
  | done a rest hr => exact hf a rest hr h
  | failed fault rest => trivial

theorem Gives.within {r : Reading α us} (h : r.Gives P) (hu : Follows us ts) :
    (r.within hu).Gives P := by
  cases r with
  | done a rest hf => exact h
  | failed fault rest => trivial

theorem Gives.after {t : Tree} {r : Reading α us} (h : r.Gives P) : (r.after (t := t)).Gives P :=
  h.within _

theorem Gives.ofExcept {r : Except Fault α} {rest : List Tree} {h : Follows rest ts}
    (hr : ∀ a, r = .ok a → P a) : (Reading.ofExcept r rest h).Gives P := by
  cases r with
  | ok a => exact hr a rfl
  | error fault => trivial

theorem gives_unexpected (construct : String) (closing : Option Nat) (rest : List Tree) :
    (Reading.unexpected construct closing rest : Reading α ts).Gives P := trivial

theorem gives_true (r : Reading α ts) : r.Gives fun _ => True := by
  cases r <;> trivial

end Reading

namespace Reader

open Extent Reading Node

/-- Without classes, sequences are read and what the readers find on trees that weigh less than `w`
has no gap. -/
structure ReadersGapless (w : Nat) : Prop where
  type : ∀ closing conditional ts, Tree.weightAll ts < w → Tree.ClassFree ts →
    (type closing conditional ts).Gives Node.Gapless
  operands : ∀ closing conditional ts, Tree.weightAll ts < w → Tree.ClassFree ts →
    (operands closing conditional ts).Gives Node.Gapless
  operand : ∀ closing ts, Tree.weightAll ts < w → Tree.ClassFree ts →
    (operand closing ts).Gives Node.Gapless
  primary : ∀ closing ts, Tree.weightAll ts < w → Tree.ClassFree ts →
    (primary closing ts).Gives Node.Gapless
  typeArgumentsRest : ∀ closing ts, Tree.weightAll ts < w → Tree.ClassFree ts →
    (typeArgumentsRest closing ts).Gives fun found =>
      Spot.Gapless (TypeArgument.outlineAll found.1)
  sequence : ∀ parent last ts, Tree.weightAll ts < w → Tree.ClassFree ts →
    ∃ ns, sequence parent last ts = .ok ns ∧ Node.Gapless ns
  parameters : ∀ closing ts ps, Tree.weightAll ts < w → Tree.ClassFree ts →
    parameters closing ts = .ok ps → Spot.Gapless (Parameter.outlineAll ps)

variable {w : Nat}

theorem group_gapless (ih : ReadersGapless w) (d : Delimiter) (opening closing : Lexeme)
    {children : List Tree} (hw : Tree.weightAll children < w) (hc : Tree.ClassFree children) :
    ∃ g, group d opening children closing = .ok g ∧ Node.Gapless g.children := by
  obtain ⟨ns, hns, hg⟩ := ih.sequence (some d) none children hw hc
  unfold group
  rw [hns]
  exact ⟨_, rfl, hg⟩

theorem typeArguments_gapless (ih : ReadersGapless w) (closing : Option Nat) {ts : List Tree}
    (hw : Tree.weightAll ts ≤ w) (hc : Tree.ClassFree ts) :
    (typeArguments closing ts).Gives fun a => Spot.Gapless a.outline := by
  unfold typeArguments
  split
  · rename_i opening us
    rw [Tree.weightAll_cons, Tree.weight_token] at hw
    split
    · apply Gives.after
      apply Gives.map
      apply (ih.typeArgumentsRest closing us (by omega) hc.tail).mono
      rintro ⟨items, close⟩ hi
      simpa [TypeArguments.outline] using hi
    · exact gives_unexpected _ _ _
  · exact gives_unexpected _ _ _

theorem typeReference_gapless (ih : ReadersGapless w) (closing : Option Nat) {ts : List Tree}
    (hw : Tree.weightAll ts ≤ w) (hc : Tree.ClassFree ts) :
    (typeReference closing ts).Gives fun r => Spot.Gapless r.outline := by
  unfold typeReference
  split
  · rename_i name us
    rw [Tree.weightAll_cons, Tree.weight_token] at hw
    split
    · have hle := Tree.weightAll_drop_le (2 * (qualifiers us).length) us
      simp only
      split
      · apply Gives.map
        apply Gives.within
        apply (typeArguments_gapless ih closing (by omega) (hc.tail.drop _)).mono
        intro a ha
        simpa [TypeRef.outline, TypeArguments.outlineOption] using ha
      · simp [Gives, TypeRef.outline, TypeArguments.outlineOption]
    · exact gives_unexpected _ _ _
  · exact gives_unexpected _ _ _

theorem attachedReference_gapless (ih : ReadersGapless w) {l : Lexeme} {us : List Tree}
    (hw : Tree.weightAll (.token l :: us) ≤ w) (hc : Tree.ClassFree (.token l :: us))
    {r : Reading Node (.token l :: us)} (h : attachedReference l us = some r) :
    ∃ n vs hf, r = .done n vs hf ∧ Spot.Gapless n.outline := by
  unfold attachedReference at h
  split at h
  · rename_i opening us
    split at h
    · split at h
      · rename_i reference vs hf hr
        split at h
        · have hg := typeReference_gapless ih none hw hc
          rw [hr] at hg
          cases h
          exact ⟨_, vs, hf, rfl, by simpa [outline, Gives] using hg⟩
        · cases h
      · cases h
    · cases h
  · cases h

theorem access_gapless {l : Lexeme} {us : List Tree} {r : Reading Node (.token l :: us)}
    (h : access l us = some r) : ∃ n vs hf, r = .done n vs hf ∧ Spot.Gapless n.outline := by
  unfold access at h
  split at h
  · split at h
    · cases h
      exact ⟨_, _, _, rfl, by simp [outline]⟩
    · cases h
  · cases h

theorem forOf_gapless (ih : ReadersGapless w) {l : Lexeme} {us : List Tree}
    (hw : Tree.weightAll (.token l :: us) ≤ w) (hc : Tree.ClassFree (.token l :: us))
    {r : Reading Node (.token l :: us)} (h : forOf l us = some r) :
    ∃ n vs hf, r = .done n vs hf ∧ Spot.Gapless n.outline := by
  rw [Tree.weightAll_cons, Tree.weight_token] at hw
  unfold forOf at h
  split at h
  · rename_i opening children closing vs
    rw [Tree.weightAll_cons, Tree.weight_group] at hw
    obtain ⟨g, hg, hgapless⟩ :=
      group_gapless ih .paren opening closing (by omega) hc.tail.children
    rw [hg] at h
    split at h
    · cases h
      exact ⟨_, _, _, rfl, by simpa [outline] using hgapless⟩
    · cases h
  · rename_i word opening children closing vs
    rw [Tree.weightAll_cons, Tree.weight_token, Tree.weightAll_cons, Tree.weight_group] at hw
    obtain ⟨g, hg, hgapless⟩ :=
      group_gapless ih .paren opening closing (by omega) hc.tail.tail.children
    rw [hg] at h
    split at h
    · cases h
      exact ⟨_, _, _, rfl, by simpa [outline] using hgapless⟩
    · cases h
  · cases h

theorem await_gapless (ih : ReadersGapless w) {l : Lexeme} {us : List Tree}
    (hw : Tree.weightAll (.token l :: us) ≤ w) (hc : Tree.ClassFree (.token l :: us))
    {r : Reading Node (.token l :: us)} (h : await l us = some r) :
    ∃ n vs hf, r = .done n vs hf ∧ Spot.Gapless n.outline := by
  rw [Tree.weightAll_cons, Tree.weight_token] at hw
  have hle := Tree.weightAll_take_le (operandLength us) us
  obtain ⟨ns, hns, hg⟩ := ih.sequence none none (us.take (operandLength us)) (by omega)
    (hc.tail.take _)
  unfold await at h
  simp only [hns] at h
  split at h
  · cases h
  · cases h
    exact ⟨_, _, _, rfl, by simpa [outline] using hg⟩

/-- No construct fails, because a class is none of those that are tried. -/
theorem construct_gapless (ih : ReadersGapless w) {parent : Option Delimiter}
    {last : Option Node} {l : Lexeme} {us : List Tree} (hk : l.kind = .identifier)
    (hw : Tree.weightAll (.token l :: us) ≤ w) (hc : Tree.ClassFree (.token l :: us))
    {r : Reading Node (.token l :: us)} (h : construct parent last l us = some r) :
    ∃ n vs hf, r = .done n vs hf ∧ Spot.Gapless n.outline := by
  have hclass : l.text ≠ "class" := by
    intro ht
    have hfront := hc.front
    simp [Token.isWord, hk, ht] at hfront
  unfold construct at h
  rw [if_neg hclass] at h
  split at h
  · exact forOf_gapless ih hw hc h
  · split at h
    · exact await_gapless ih hw hc h
    · split at h
      · rename_i hr
        cases h
        exact attachedReference_gapless ih hw hc hr
      · exact access_gapless h

theorem sequence_gapless (ih : ReadersGapless w) (parent : Option Delimiter) (last : Option Node)
    {ts : List Tree} (hw : Tree.weightAll ts ≤ w) (hc : Tree.ClassFree ts) :
    ∃ ns, sequence parent last ts = .ok ns ∧ Node.Gapless ns := by
  unfold sequence
  split
  · exact ⟨[], rfl, gapless_nil⟩
  · rename_i d opening children closing us
    rw [Tree.weightAll_cons, Tree.weight_group] at hw
    obtain ⟨g, hg, hgapless⟩ := group_gapless ih d opening closing (by omega) hc.children
    obtain ⟨ns, hns, hrest⟩ := ih.sequence parent (some (.group g)) us (by omega) hc.tail
    simp only [hg, hns]
    exact ⟨_, rfl, by simpa [outline] using ⟨hgapless, hrest⟩⟩
  · rename_i l us
    split
    · rename_i node vs hf hr
      split at hr
      · rename_i hk
        simp only [Bool.and_eq_true, decide_eq_true_eq] at hk
        obtain ⟨n, vs', hf', hdone, hgapless⟩ := construct_gapless ih hk.1 hw hc hr
        cases hdone
        have hvs := hf.weight_lt
        obtain ⟨ns, hns, hrest⟩ :=
          ih.sequence parent (some node) vs (by omega) (hc.of_follows hf)
        rw [hns]
        exact ⟨_, rfl, by simpa using ⟨hgapless, hrest⟩⟩
      · cases hr
    · rename_i fault vs hr
      split at hr
      · rename_i hk
        simp only [Bool.and_eq_true, decide_eq_true_eq] at hk
        obtain ⟨n, vs', hf', hdone, -⟩ := construct_gapless ih hk.1 hw hc hr
        cases hdone
      · cases hr
    · rw [Tree.weightAll_cons, Tree.weight_token] at hw
      obtain ⟨ns, hns, hrest⟩ :=
        ih.sequence parent (some (.token l.toToken)) us (by omega) hc.tail
      rw [hns]
      exact ⟨_, rfl, by simpa using hrest⟩

theorem typeParameters_gapless (ih : ReadersGapless w) (closing : Option Nat) {ts : List Tree}
    (hw : Tree.weightAll ts ≤ w) (hc : Tree.ClassFree ts) :
    (typeParameters closing ts).Gives Node.Gapless := by
  unfold typeParameters
  split
  · rename_i opening us
    split
    · split
      · rename_i n hn
        apply Gives.ofExcept
        intro ns hns
        have hle := Tree.weightAll_take_le (n + 1) (.token opening :: us)
        obtain ⟨ns', hns', hg⟩ := sequence_gapless ih none none (Nat.le_trans hle hw) (hc.take _)
        rw [hns'] at hns
        cases hns
        exact hg
      · trivial
    · exact gives_unexpected _ _ _
  · exact gives_unexpected _ _ _

theorem dottedRest_gapless (closing : Option Nat) {ts : List Tree} (nodes : List Node)
    (us : List Tree) (h : Follows us ts) (hn : Node.Gapless nodes) :
    (dottedRest closing nodes us h).Gives Node.Gapless := by
  fun_induction dottedRest closing nodes us h with
  | case1 nodes dot name us h hd => exact hn
  | case2 nodes dot name us h hd hk ih => exact ih (by simpa using hn)
  | case3 nodes dot name us h hd hk => exact gives_unexpected _ _ _
  | case4 nodes dot us h hu hd => exact gives_unexpected _ _ _
  | case5 nodes dot us h hu hd => exact hn
  | case6 nodes us h hu hd => exact hn

theorem indexed_gapless (ih : ReadersGapless w) {ts : List Tree} (nodes : List Node)
    (us : List Tree) (h : Follows us ts) (hw : Tree.weightAll us ≤ w) (hc : Tree.ClassFree us)
    (hn : Node.Gapless nodes) : (indexed nodes us h).Gives Node.Gapless := by
  induction us generalizing nodes with
  | nil =>
    unfold indexed
    exact hn
  | cons u us ihu =>
    unfold indexed
    split
    · rename_i opening children closing vs h heq _
      obtain ⟨rfl, rfl⟩ := List.cons.inj heq
      split
      · exact hn
      · rw [Tree.weightAll_cons, Tree.weight_group] at hw
        obtain ⟨g, hg, hgapless⟩ :=
          group_gapless ih .bracket opening closing (by omega) hc.children
        rw [hg]
        exact ihu _ _ (by omega) hc.tail (by simpa [outline] using ⟨hn, hgapless⟩)
    · exact hn

theorem parenthesized_gapless (ih : ReadersGapless w) {opening close : Lexeme}
    {children : List Tree} (hw : Tree.weightAll children < w) (hc : Tree.ClassFree children)
    {g : Group} (h : parenthesized opening children close = .ok g) :
    Node.Gapless g.children := by
  unfold parenthesized at h
  split at h
  · rename_i nodes hf hr
    have hg := ih.type (some close.offset) true children hw hc
    rw [hr] at hg
    cases h
    exact hg
  · cases h
  · cases h

/-- A token, and what is read after it. -/
theorem prefixed_gapless (l : Lexeme) {us : List Tree} {r : Reading (List Node) us}
    (h : r.Gives Node.Gapless) :
    ((r.map (.token l.toToken :: ·)).after (t := .token l)).Gives Node.Gapless := by
  apply Gives.after
  apply Gives.map
  apply h.mono
  intro ns hn
  simpa using hn

/-- A token, and one more after it. -/
theorem paired_gapless (l : Lexeme) {us : List Tree} (r : Reading Token us) :
    ((r.map fun t => [.token l.toToken, .token t]).after (t := .token l)).Gives Node.Gapless := by
  apply Gives.after
  apply Gives.map
  apply (gives_true r).mono
  simp

theorem primary_token_gapless (ih : ReadersGapless w) (closing : Option Nat) {l : Lexeme}
    {us : List Tree} (hw : Tree.weightAll (.token l :: us) ≤ w)
    (hc : Tree.ClassFree (.token l :: us)) :
    (primary closing (.token l :: us)).Gives Node.Gapless := by
  have hus : Tree.weightAll us < w := by
    rw [Tree.weightAll_cons, Tree.weight_token] at hw
    omega
  have hsingle : Node.Gapless [.token l.toToken] := by simp
  unfold primary
  split
  · split
    · exact prefixed_gapless l (ih.operand closing us hus hc.tail)
    · split
      · exact prefixed_gapless l (ih.primary closing us hus hc.tail)
      · split
        · exact paired_gapless l _
        · split
          · apply Gives.after
            apply (gives_true _).andThen
            intro name vs h _
            exact dottedRest_gapless closing _ vs h (by simp)
          · split
            · exact hsingle
            · apply (typeReference_gapless ih closing hw hc).andThen
              intro r vs h hr
              have hreference : Node.Gapless [.typeRef r] := by simpa [outline] using hr
              split
              · rename_i word ws h
                split
                · apply Gives.map
                  apply Gives.within
                  have hws := h.tail.weight_lt
                  apply (ih.type closing true ws (by omega) (hc.of_follows h.tail)).mono
                  intro ns hn
                  simpa [outline] using ⟨hr, hn⟩
                · exact hreference
              · exact hreference
  · exact hsingle
  · exact hsingle
  · exact hsingle
  · split
    · exact paired_gapless l _
    · exact gives_unexpected _ _ _
  · apply (typeParameters_gapless ih closing hw hc).andThen
    intro parameters vs h hp
    have hvs := h.weight_lt
    apply Gives.map
    apply Gives.within
    apply (ih.primary closing vs (by omega) (hc.of_follows h)).mono
    intro ns hn
    simpa using ⟨hp, hn⟩
  · exact gives_unexpected _ _ _

theorem primary_group_gapless (ih : ReadersGapless w) (closing : Option Nat) {d : Delimiter}
    {opening close : Lexeme} {children us : List Tree}
    (hw : Tree.weightAll (.group d opening children close :: us) ≤ w)
    (hc : Tree.ClassFree (.group d opening children close :: us)) :
    (primary closing (.group d opening children close :: us)).Gives Node.Gapless := by
  rw [Tree.weightAll_cons, Tree.weight_group] at hw
  obtain ⟨g, hg, hgapless⟩ := group_gapless ih d opening close (by omega) hc.children
  have hgroup : Node.Gapless [.group g] := by simpa [outline] using hgapless
  unfold primary
  cases d with
  | paren =>
    cases ha : Tree.frontToken? .arrow us with
    | some arrow =>
      have hle := Tree.weightAll_drop_le 1 us
      simp only [hg]
      apply Gives.map
      apply Gives.within
      apply (ih.type closing true (us.drop 1) (by omega) (hc.tail.drop 1)).mono
      intro ns hn
      simpa [outline] using ⟨hgapless, hn⟩
    | none =>
      apply Gives.map
      apply Gives.ofExcept
      intro p hp
      simpa [outline] using parenthesized_gapless ih (by omega) hc.children hp
  | _ =>
    simp only [hg]
    exact hgroup

theorem primary_gapless (ih : ReadersGapless w) (closing : Option Nat) {ts : List Tree}
    (hw : Tree.weightAll ts ≤ w) (hc : Tree.ClassFree ts) :
    (primary closing ts).Gives Node.Gapless := by
  cases ts with
  | nil =>
    unfold primary
    exact gives_unexpected _ _ _
  | cons t us =>
    cases t with
    | token l => exact primary_token_gapless ih closing hw hc
    | group d opening children close => exact primary_group_gapless ih closing hw hc

theorem operand_gapless (ih : ReadersGapless w) (closing : Option Nat) {ts : List Tree}
    (hw : Tree.weightAll ts ≤ w) (hc : Tree.ClassFree ts) :
    (operand closing ts).Gives Node.Gapless := by
  unfold operand
  apply (primary_gapless ih closing hw hc).andThen
  intro nodes us h hn
  have hus := h.weight_lt
  exact indexed_gapless ih nodes us h (by omega) (hc.of_follows h) hn

theorem conditionalRest_gapless (ih : ReadersGapless w) (closing : Option Nat) {ts : List Tree}
    (hw : Tree.weightAll ts < w) (hc : Tree.ClassFree ts) :
    (conditionalRest closing ts).Gives Node.Gapless := by
  unfold conditionalRest
  apply (ih.type closing false ts hw hc).andThen
  intro bound us h hb
  apply (gives_true _).andThen
  intro question vs h _
  have hvs := h.weight_lt
  apply ((ih.type closing true vs (by omega) (hc.of_follows h)).within h).andThen
  intro yes us h hyes
  apply (gives_true _).andThen
  intro colon xs h _
  have hxs := h.weight_lt
  apply Gives.map
  apply Gives.within
  apply (ih.type closing true xs (by omega) (hc.of_follows h)).mono
  intro no hno
  simpa using ⟨hb, hyes, hno⟩

theorem operands_gapless (ih : ReadersGapless w) (closing : Option Nat) (conditional : Bool)
    {ts : List Tree} (hw : Tree.weightAll ts ≤ w) (hc : Tree.ClassFree ts) :
    (operands closing conditional ts).Gives Node.Gapless := by
  unfold operands
  apply (operand_gapless ih closing hw hc).andThen
  intro nodes us h hn
  split
  · rename_i l vs h
    have hvs := h.tail.weight_lt
    have hcv := hc.of_follows h.tail
    split
    · apply Gives.map
      apply Gives.within
      apply (conditionalRest_gapless ih closing (by omega) hcv).mono
      intro ns hr
      simpa using ⟨hn, hr⟩
    · split
      · apply Gives.map
        apply Gives.within
        apply (ih.operands closing conditional vs (by omega) hcv).mono
        intro ns hr
        simpa using ⟨hn, hr⟩
      · exact hn
  · exact hn

theorem type_gapless (ih : ReadersGapless w) (closing : Option Nat) (conditional : Bool)
    {ts : List Tree} (hw : Tree.weightAll ts ≤ w) (hc : Tree.ClassFree ts) :
    (type closing conditional ts).Gives Node.Gapless := by
  unfold type
  split
  · rename_i l us
    split
    · rw [Tree.weightAll_cons, Tree.weight_token] at hw
      exact prefixed_gapless l (operands_gapless ih closing conditional (by omega) hc.tail)
    · exact operands_gapless ih closing conditional hw hc
  · exact operands_gapless ih closing conditional hw hc

theorem typeArgumentsRest_gapless (ih : ReadersGapless w) (closing : Option Nat)
    {ts : List Tree} (hw : Tree.weightAll ts ≤ w) (hc : Tree.ClassFree ts) :
    (typeArgumentsRest closing ts).Gives fun found =>
      Spot.Gapless (TypeArgument.outlineAll found.1) := by
  unfold typeArgumentsRest
  generalize hf : Tree.frontToken? .greaterThan ts = front
  cases front with
  | some close =>
    obtain ⟨l, us, rfl, -, rfl⟩ := Tree.frontToken?_eq_some hf
    simp [Gives, TypeArgument.outlineAll]
  | none =>
    apply (type_gapless ih closing true hw hc).andThen
    intro nodes us h hn
    split
    · rename_i l vs h
      have hvs := h.tail.weight_lt
      split
      · apply Gives.map
        apply Gives.within
        apply (ih.typeArgumentsRest closing vs (by omega) (hc.of_follows h.tail)).mono
        rintro ⟨items, close⟩ hi
        simpa [TypeArgument.outlineAll, TypeArgument.outline] using ⟨hn, hi⟩
      · split
        · simpa [Gives, TypeArgument.outlineAll, TypeArgument.outline] using hn
        · exact gives_unexpected _ _ _
    · exact gives_unexpected _ _ _

theorem typeClause_gapless (ih : ReadersGapless w) (closing : Option Nat) {ts us : List Tree}
    (h : Follows us ts) (hw : Tree.weightAll us ≤ w) (hc : Tree.ClassFree us) :
    (typeClause closing us h).Gives fun c => Spot.Gapless (Clause.outlineOption c) := by
  unfold typeClause
  generalize hf : Tree.frontToken? .colon us = front
  cases front with
  | none => simp [Gives, Clause.outlineOption]
  | some colon =>
    obtain ⟨l, vs, rfl, -, rfl⟩ := Tree.frontToken?_eq_some hf
    rw [Tree.weightAll_cons, Tree.weight_token] at hw
    apply Gives.map
    apply Gives.within
    apply (ih.type closing true vs (by omega) hc.tail).mono
    intro ns hn
    simpa [Clause.outlineOption, Clause.outline] using hn

theorem initializer_gapless (ih : ReadersGapless w) {ts us : List Tree} (h : Follows us ts)
    (hw : Tree.weightAll us ≤ w) (hc : Tree.ClassFree us) :
    (initializer us h).Gives fun c => Spot.Gapless (Clause.outlineOption c) := by
  unfold initializer
  generalize hf : Tree.frontToken? .equals us = front
  cases front with
  | none => simp [Gives, Clause.outlineOption]
  | some equals =>
    obtain ⟨l, vs, rfl, -, rfl⟩ := Tree.frontToken?_eq_some hf
    rw [Tree.weightAll_cons, Tree.weight_token] at hw
    have hle := Tree.weightAll_take_le (argumentLength 0 false vs) vs
    obtain ⟨ns, hns, hg⟩ := ih.sequence (some .paren) none
      (vs.take (argumentLength 0 false vs)) (by omega) (hc.tail.take _)
    simp only [List.drop_succ_cons, List.drop_zero, hns]
    simpa [Reading.ofExcept, Reading.map, Gives, Clause.outlineOption, Clause.outline] using hg

theorem bound_gapless (ih : ReadersGapless w) (closing : Option Nat) (modifiers : List Token)
    (rest : Option Token) {binding : Binding} {ts us : List Tree} (h : Follows us ts)
    (hw : Tree.weightAll ts ≤ w) (hc : Tree.ClassFree ts)
    (hb : Spot.Gapless binding.outline) :
    (bound closing modifiers rest binding us h).Gives fun p => Spot.Gapless p.outline := by
  have hfollow : ∀ {vs}, Follows vs ts → Tree.weightAll vs ≤ w ∧ Tree.ClassFree vs := fun hv =>
    ⟨Nat.le_trans (Nat.le_of_lt hv.weight_lt) hw, hc.of_follows hv⟩
  unfold bound
  obtain ⟨hwd, hcd⟩ := hfollow (h.drop (Tree.frontToken? .question us).toList.length)
  simp only
  apply (typeClause_gapless ih closing _ hwd hcd).andThen
  intro type vs h ht
  apply (initializer_gapless ih h (hfollow h).1 (hfollow h).2).andThen
  intro value xs h hv
  split
  · exact gives_unexpected _ _ _
  · simpa [Gives, Parameter.outline] using ⟨hb, ht, hv⟩

theorem parameter_gapless (ih : ReadersGapless w) (closing : Option Nat) {ts : List Tree}
    (hw : Tree.weightAll ts ≤ w) (hc : Tree.ClassFree ts) :
    (parameter closing ts).Gives fun p => Spot.Gapless p.outline := by
  unfold parameter
  simp only
  split
  · split
    · exact bound_gapless ih closing _ _ _ hw hc (by simp [Binding.outline])
    · exact gives_unexpected _ _ _
  · rename_i d opening children close us hd
    have hus := Tree.weight_add_le_of_drop_eq_cons hd
    rw [Tree.weight_group] at hus
    split
    · exact gives_unexpected _ _ _
    · have hdrop := hc.drop ((modifiersOfParameter ts).length +
        (Tree.frontToken? .ellipsis (ts.drop (modifiersOfParameter ts).length)).toList.length)
      rw [hd] at hdrop
      obtain ⟨g, hg, hgapless⟩ := group_gapless ih d opening close (by omega) hdrop.children
      simp only [hg]
      exact bound_gapless ih closing _ _ _ hw hc (by simpa [Binding.outline] using hgapless)
  · exact gives_unexpected _ _ _

theorem parameters_gapless (ih : ReadersGapless w) (closing : Option Nat) {ts : List Tree}
    {ps : List Parameter} (hw : Tree.weightAll ts ≤ w) (hc : Tree.ClassFree ts)
    (h : parameters closing ts = .ok ps) : Spot.Gapless (Parameter.outlineAll ps) := by
  unfold parameters at h
  split at h
  · cases h
    simp [Parameter.outlineAll]
  · rename_i t us
    cases hp : parameter closing (t :: us) with
    | failed fault rest => simp [hp] at h
    | done p vs hf =>
      have hg := parameter_gapless ih closing hw hc
      rw [hp] at hg
      have hvs := hf.weight_lt
      cases hq : parameters closing vs with
      | error fault => simp [hp, hq, Except.map] at h
      | ok qs =>
        simp only [hp, hq, Except.map, Except.ok.injEq] at h
        subst h
        have hqs := ih.parameters _ _ _ (by omega) (hc.of_follows hf) hq
        simpa [Parameter.outlineAll] using ⟨hg, hqs⟩

theorem readersGapless (w : Nat) : ReadersGapless w := by
  induction w with
  | zero => constructor <;> intros <;> omega
  | succ w ih =>
    constructor
    · intro closing conditional ts hw hc
      exact type_gapless ih closing conditional (by omega) hc
    · intro closing conditional ts hw hc
      exact operands_gapless ih closing conditional (by omega) hc
    · intro closing ts hw hc
      exact operand_gapless ih closing (by omega) hc
    · intro closing ts hw hc
      exact primary_gapless ih closing (by omega) hc
    · intro closing ts hw hc
      exact typeArgumentsRest_gapless ih closing (by omega) hc
    · intro parent last ts hw hc
      exact sequence_gapless ih parent last (by omega) hc
    · intro closing ts ps hw hc h
      exact parameters_gapless ih closing (by omega) hc h

end Reader

end TwinClasses
