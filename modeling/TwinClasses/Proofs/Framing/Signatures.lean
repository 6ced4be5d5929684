import TwinClasses.Proofs.Framing.Types

set_option autoImplicit false

/-! Names and signatures of members with more trees behind. A name stays what it is unless it is the
last tree and a word that may also stand in front of a name; a callable ends with its type, its body
or its semicolon. -/

namespace TwinClasses

open Extent

namespace Reading

variable {α β : Type} {ts us : List Tree}

theorem andThen_eq_done {r : Reading α ts}
    {f : α → (rest : List Tree) → Follows rest ts → Reading β ts} {b : β} {rest : List Tree}
    {hr : Follows rest ts} : r.andThen f = .done b rest hr ↔
      ∃ a vs hv, r = .done a vs hv ∧ f a vs hv = .done b rest hr := by
  cases r with
  | failed fault vs => simp [andThen]
  | done a vs hv =>
    constructor
    · intro h
      exact ⟨a, vs, hv, rfl, h⟩
    · rintro ⟨a', vs', hv', heq, h⟩
      cases heq
      exact h

theorem andThen_done {r : Reading α ts}
    {f : α → (rest : List Tree) → Follows rest ts → Reading β ts} {a : α} {vs : List Tree}
    {hv : Follows vs ts} (h : r = .done a vs hv) : r.andThen f = f a vs hv := by
  rw [h]
  rfl

theorem within_eq_done {r : Reading α us} {h : Follows us ts} {a : α} {rest : List Tree}
    {hr : Follows rest ts} (heq : r.within h = .done a rest hr) : ∃ hr', r = .done a rest hr' := by
  cases r with
  | failed fault vs => cases heq
  | done b vs hv =>
    cases heq
    exact ⟨hv, rfl⟩

theorem within_done {r : Reading α us} (h : Follows us ts) {a : α} {rest : List Tree}
    {hr : Follows rest us} (heq : r = .done a rest hr) :
    r.within h = .done a rest (hr.trans h) := by
  rw [heq]
  rfl

theorem exists_done_eq {a b : α} {vs rest : List Tree} {h : Follows vs ts} (ha : a = b)
    (hv : vs = rest) : ∃ hr, Reading.done a vs h = .done b rest hr := by
  subst ha hv
  exact ⟨h, rfl⟩

theorem ofExcept_eq_done {e : Except Fault α} {vs rest : List Tree} {h : Follows vs ts} {a : α}
    {hr : Follows rest ts} (heq : Reading.ofExcept e vs h = .done a rest hr) :
    e = .ok a ∧ rest = vs := by
  cases e with
  | error fault => cases heq
  | ok b =>
    cases heq
    exact ⟨rfl, rfl⟩

end Reading

namespace Reader

variable {more ts ts' : List Tree} {closing closing' : Option Nat}

theorem typeClause_extends (closing closing' : Option Nat) (us : List Tree) (h : Follows us ts)
    (h' : Follows (us ++ more) ts') : (typeClause closing us h).Extends (Halts more) more
      (typeClause closing' (us ++ more) h') := by
  rw [typeClause, typeClause]
  cases hc : Tree.frontToken? .colon us with
  | none =>
    intro a rest hr heq hrest
    cases heq
    rw [Halts.frontToken?_append hrest.beginsItem (by decide), hc]
    exact ⟨h', rfl⟩
  | some colon =>
    obtain ⟨l, ws, rfl, hl, rfl⟩ := Tree.frontToken?_eq_some hc
    have hc' : Tree.frontToken? .colon (.token l :: ws ++ more) = some l.toToken := by
      simp [Tree.frontToken?, hl]
    rw [hc']
    exact ((type_extends closing closing' true ws more).within _ _).map _

/-- What may begin a member is no body. -/
theorem body_of_beginsItem (hm : beginsItem more = true) (h : Follows more ts) :
    body more h = .done none more h := by
  cases more using Tree.frontCases with
  | nil =>
    rw [body]
    simp
  | token l more =>
    rw [body]
    simp
  | group d opening children close more =>
    simp only [beginsItem, Bool.and_eq_true, decide_eq_true_eq] at hm
    obtain ⟨rfl, -⟩ := hm
    rw [body]
    simp

theorem body_append (hm : beginsItem more = true) {us : List Tree} {h : Follows us ts}
    (h' : Follows (us ++ more) ts') {found : Option Group} {rest : List Tree}
    {hr : Follows rest ts} (hb : body us h = .done found rest hr) :
    ∃ hr', body (us ++ more) h' = .done found (rest ++ more) hr' := by
  cases us using Tree.frontCases with
  | nil =>
    rw [body] at hb
    · cases hb
      exact ⟨h', body_of_beginsItem hm h'⟩
    · simp
  | token l us =>
    simp only [List.cons_append] at h' ⊢
    rw [body] at hb ⊢
    · cases hb
      exact ⟨h', rfl⟩
    · simp
    · simp
  | group d opening children close us =>
    simp only [List.cons_append] at h' ⊢
    by_cases hd : d = .brace
    · subst hd
      rw [body] at hb ⊢
      cases hg : group .brace opening children close with
      | error fault =>
        rw [hg] at hb
        cases hb
      | ok g =>
        rw [hg] at hb
        cases hb
        exact ⟨h'.tail, rfl⟩
    · rw [body] at hb ⊢
      · cases hb
        exact ⟨h', rfl⟩
      · simp [hd]
      · simp [hd]

theorem declare_ne_property (decorators : List Clause) (head : MemberHead) (name : MemberName)
    (question : Option Token) (typeParameters : List Node) (parameters : ParameterList)
    (returnType : Option Clause) (body : Option Group) (terminator : Option Token) :
    declare decorators head name question typeParameters parameters returnType body terminator ≠
      .property := by
  unfold declare
  split
  · simp
  · split
    · simp
    · split <;> simp

/-- The semicolon after a callable without a body. -/
def terminator (body : Option Group) (us : List Tree) : Option Token :=
  if body.isSome then none else Tree.frontToken? .semicolon us

theorem terminator_append (hm : beginsItem more = true) (body : Option Group) (us : List Tree) :
    terminator body (us ++ more) = terminator body us := by
  rw [terminator, Halts.frontToken?_append (fun _ => hm) (by decide), terminator]

theorem length_terminator_le (body : Option Group) (us : List Tree) :
    (terminator body us).toList.length ≤ us.length := by
  refine Tree.length_toList_le ?_
  rintro rfl
  cases body <;> rfl

/-- In front of a body or a semicolon, a type has come to an end. -/
theorem halts_of_body {us vs : List Tree} {h : Follows us ts} {found : Option Group}
    {hr : Follows vs ts} (hb : body us h = .done found vs hr)
    (hh : Halts more (vs.drop (terminator found vs).toList.length)) : Halts more us := by
  refine .of_front ?_ ?_
  · rintro rfl
    rw [body] at hb
    · cases hb
      exact hh
    · simp
  · rintro l ws rfl hl
    rw [body] at hb
    · cases hb
      have ht : terminator none (.token l :: ws) = none := by
        simp [terminator, Tree.frontToken?, hl]
      rw [ht] at hh
      exact hh
    · simp

/-- The mark after a name. -/
def nameMark (us : List Tree) : Option Token :=
  (Tree.frontToken? .question us).or (Tree.frontToken? .bang us)

theorem nameMark_append (hm : beginsItem more = true) (us : List Tree) :
    nameMark (us ++ more) = nameMark us := by
  rw [nameMark, Halts.frontToken?_append (fun _ => hm) (by decide),
    Halts.frontToken?_append (fun _ => hm) (by decide)]
  rfl

theorem length_nameMark_le (us : List Tree) : (nameMark us).toList.length ≤ us.length :=
  Tree.length_toList_le fun h => by rw [h]; rfl

/-- The type parameters after a name and its mark. -/
def generics (closing : Option Nat) (us : List Tree) (h : Follows us ts) :
    Reading (List Node) ts :=
  if (Tree.frontToken? .lessThan us).isSome then (typeParameters closing us).within h
  else .done [] us h

theorem generics_extends (hm : beginsItem more = true) (us : List Tree) (h : Follows us ts)
    (h' : Follows (us ++ more) ts') : (generics closing us h).Extends (fun _ => True) more
      (generics closing' (us ++ more) h') := by
  rw [generics, generics, Halts.frontToken?_append (fun _ => hm) (by decide)]
  by_cases hl : (Tree.frontToken? .lessThan us).isSome
  · rw [if_pos hl, if_pos hl]
    exact (typeParameters_extends closing closing' us more).within h h'
  · rw [if_neg hl, if_neg hl]
    exact Reading.extends_done _ _ _ _

section

variable {decorators : List Clause} {head : MemberHead} {name : MemberName} {us vs : List Tree}
  {ns : List Node} {h : Follows us ts} {hv : Follows vs ts} {found : Declared} {rest : List Tree}
  {hr : Follows rest ts}

/-- Without parameters a member is a property. -/
theorem signature_property
    (hg : generics closing (us.drop (nameMark us).toList.length) (h.drop _) = .done ns vs hv)
    (hp : vs.head?.any (·.isGroup .paren) = false) :
    signature closing decorators head name us h = .done .property vs hv := by
  rw [signature]
  refine (Reading.andThen_done hg).trans ?_
  cases vs using Tree.frontCases with
  | nil => rfl
  | token l vs => rfl
  | group d opening children close vs =>
    cases d with
    | paren => cases hp
    | _ => rfl

/-- With parameters it is a callable. -/
theorem signature_callable {opening close : Lexeme} {children : List Tree} {items : List Parameter}
    {hv : Follows (.group .paren opening children close :: vs) ts}
    (hg : generics closing (us.drop (nameMark us).toList.length) (h.drop _) =
      .done ns (.group .paren opening children close :: vs) hv)
    (hp : parameters (some close.offset) children = .ok items) :
    signature closing decorators head name us h =
      (typeClause closing vs hv.tail).andThen fun returnType vs h =>
        (body vs h).andThen fun body vs h =>
          .done (declare decorators head name (nameMark us) ns
            ⟨opening.toToken, items, close.toToken⟩ returnType body (terminator body vs))
            (vs.drop (terminator body vs).toList.length) (h.drop _) := by
  rw [signature]
  refine (Reading.andThen_done hg).trans ?_
  simp only [hp]
  rfl

/-- A signature that is read is one or the other. -/
theorem exists_generics_of_signature
    (hs : signature closing decorators head name us h = .done found rest hr) :
    ∃ ns vs hv, generics closing (us.drop (nameMark us).toList.length) (h.drop _) =
        .done ns vs hv ∧
      (vs.head?.any (·.isGroup .paren) = false ∨
        ∃ opening children close ws items, vs = .group .paren opening children close :: ws ∧
          parameters (some close.offset) children = .ok items) := by
  rw [signature] at hs
  obtain ⟨ns, vs, hv, hg, hs⟩ := Reading.andThen_eq_done.1 hs
  refine ⟨ns, vs, hv, hg, ?_⟩
  cases vs using Tree.frontCases with
  | nil => exact Or.inl rfl
  | token l vs => exact Or.inl rfl
  | group d opening children close vs =>
    cases d with
    | paren =>
      cases hp : parameters (some close.offset) children with
      | error fault =>
        simp only [hp] at hs
        cases hs
      | ok items => exact Or.inr ⟨opening, children, close, vs, items, rfl, hp⟩
    | _ => exact Or.inl rfl

theorem not_isGroup_of_beginsItem (hm : beginsItem more = true) :
    more.head?.any (·.isGroup .paren) = false := by
  cases more using Tree.frontCases with
  | nil => rfl
  | token l more => rfl
  | group d opening children close more =>
    simp only [beginsItem, Bool.and_eq_true, decide_eq_true_eq] at hm
    obtain ⟨rfl, -⟩ := hm
    rfl

theorem signature_append (hm : beginsItem more = true) (h' : Follows (us ++ more) ts')
    (hs : signature closing decorators head name us h = .done found rest hr)
    (hh : found ≠ .property → Halts more rest) :
    ∃ hr', signature closing' decorators head name (us ++ more) h' =
      .done found (rest ++ more) hr' := by
  obtain ⟨ns, vs, hv, hg, hcase⟩ := exists_generics_of_signature hs
  have hdrop : (us ++ more).drop (nameMark (us ++ more)).toList.length =
      us.drop (nameMark us).toList.length ++ more := by
    rw [nameMark_append hm, List.drop_append_of_le_length (length_nameMark_le us)]
  obtain ⟨hv', hg'⟩ : ∃ hv', generics closing' ((us ++ more).drop
      (nameMark (us ++ more)).toList.length) (h'.drop _) = .done ns (vs ++ more) hv' := by
    generalize h'.drop (nameMark (us ++ more)).toList.length = hf'
    revert hf'
    rw [hdrop]
    intro hf'
    exact generics_extends hm _ _ hf' _ _ _ hg trivial
  obtain hp | ⟨opening, children, close, ws, items, rfl, hitems⟩ := hcase
  · rw [signature_property hg hp] at hs
    cases hs
    have hp' : (rest ++ more).head?.any (·.isGroup .paren) = false := by
      cases rest with
      | nil => exact not_isGroup_of_beginsItem hm
      | cons v vs => exact hp
    exact ⟨hv', signature_property hg' hp'⟩
  · rw [signature_callable hg hitems] at hs
    rw [signature_callable hg' hitems, nameMark_append hm]
    obtain ⟨returnType, xs, hx, htype, hs⟩ := Reading.andThen_eq_done.1 hs
    obtain ⟨written, ys, hy, hbody, hs⟩ := Reading.andThen_eq_done.1 hs
    have hrest := hh (fun hfound => by
      rw [hfound] at hs
      exact declare_ne_property _ _ _ _ _ _ _ _ _ (Reading.done.inj hs).1)
    obtain ⟨hfound, hys⟩ := Reading.done.inj hs
    have hxs : Halts more xs := halts_of_body hbody (hys ▸ hrest)
    obtain ⟨hx', htype'⟩ := typeClause_extends closing closing' ws hv.tail hv'.tail _ _ _ htype hxs
    obtain ⟨hy', hbody'⟩ := body_append hm hx' hbody
    refine (Reading.andThen_done htype').symm ▸ (Reading.andThen_done hbody').symm ▸ ?_
    refine Reading.exists_done_eq ?_ ?_
    · rw [terminator_append hm, hfound]
    · rw [terminator_append hm, List.drop_append_of_le_length (length_terminator_le written ys),
        hys]

end

end Reader

namespace Extent

variable {more ts : List Tree}

/-- A word that is no name in front of one. -/
def isHeadWord : Tree → Bool
  | .token l =>
    l.kind = .identifier && (l.text ∈ memberModifierWords || l.text = "get" || l.text = "set")
  | .group .. => false

theorem not_word_of_isHeadWord {l : Lexeme} (h : isHeadWord (.token l) = false)
    (hk : l.kind = .identifier) :
    l.text ∉ memberModifierWords ∧ l.text ≠ "get" ∧ l.text ≠ "set" := by
  simpa [isHeadWord, hk, and_assoc] using h

theorem mayNameMember_append (hts : ts ≠ []) : mayNameMember (ts ++ more) = mayNameMember ts := by
  cases ts with
  | nil => exact absurd rfl hts
  | cons t ts => cases t <;> rfl

theorem ne_nil_of_mayNameMember (h : mayNameMember ts = true) : ts ≠ [] := by
  rintro rfl
  cases h

/-- The trees begin with one that stays what it is whatever comes after them. -/
def IsSettledFront (ts : List Tree) : Prop :=
  ∃ t us, ts = t :: us ∧ (us = [] → isHeadWord t = false)

theorem modifiersOfMember_append (h : IsSettledFront (ts.drop (modifiersOfMember ts).length)) :
    modifiersOfMember (ts ++ more) = modifiersOfMember ts := by
  fun_induction modifiersOfMember ts with
  | case1 l ts hc ih =>
    simp only [Bool.and_eq_true] at hc
    have hn : mayNameMember (ts ++ more) = true := by
      rw [mayNameMember_append (ne_nil_of_mayNameMember hc.2)]
      exact hc.2
    rw [List.cons_append, modifiersOfMember, hc.1.1, hc.1.2, hn, ih h]
    rfl
  | case2 l ts hc =>
    obtain ⟨t, us, heq, ht⟩ := h
    obtain ⟨rfl, rfl⟩ := List.cons.inj heq
    rw [List.cons_append, modifiersOfMember, if_neg]
    by_cases hts : ts = []
    · simp only [Bool.and_eq_true, decide_eq_true_eq]
      rintro ⟨⟨hk, hw⟩, -⟩
      exact (not_word_of_isHeadWord (ht hts) hk).1 hw
    · rwa [mayNameMember_append hts]
  | case3 ts hc =>
    obtain ⟨t, us, rfl, ht⟩ := h
    cases t with
    | token l => exact (hc l us rfl).elim
    | group d opening children close => rfl

namespace IsSettledFront

theorem ne_nil (h : IsSettledFront ts) : ts ≠ [] := by
  obtain ⟨t, us, rfl, -⟩ := h
  simp

theorem of_drop {n : Nat} (h : IsSettledFront (ts.drop n)) : IsSettledFront ts := by
  cases n with
  | zero => exact h
  | succ n =>
    cases ts with
    | nil => exact absurd rfl h.ne_nil
    | cons t us =>
      refine ⟨t, us, rfl, ?_⟩
      rintro rfl
      exact absurd (List.drop_nil ..) h.ne_nil

theorem drop_append {n : Nat} (h : IsSettledFront (ts.drop n)) :
    (ts ++ more).drop n = ts.drop n ++ more := by
  refine List.drop_append_of_le_length (Nat.le_of_not_lt fun hlt => ?_)
  exact h.ne_nil (List.drop_eq_nil_of_le (Nat.le_of_lt hlt))

theorem frontToken?_append (h : IsSettledFront ts) (kind : Kind) :
    Tree.frontToken? kind (ts ++ more) = Tree.frontToken? kind ts := by
  obtain ⟨t, us, rfl, -⟩ := h
  cases t <;> rfl

end IsSettledFront

theorem accessorWord?_append (h : IsSettledFront ts) :
    accessorWord? (ts ++ more) = accessorWord? ts := by
  obtain ⟨t, us, rfl, ht⟩ := h
  cases t with
  | group d opening children close => rfl
  | token l =>
    by_cases hus : us = []
    · subst hus
      have hword : l.toToken.isWord "get" = false ∧ l.toToken.isWord "set" = false := by
        have hnot := not_word_of_isHeadWord (ht rfl)
        constructor <;> simp only [Token.isWord, Bool.and_eq_false_iff, decide_eq_false_iff_not]
        · exact Decidable.or_iff_not_imp_left.2 fun hk => (hnot (Decidable.not_not.1 hk)).2.1
        · exact Decidable.or_iff_not_imp_left.2 fun hk => (hnot (Decidable.not_not.1 hk)).2.2
      simp [accessorWord?, hword]
    · rw [List.cons_append, accessorWord?, mayNameMember_append hus, accessorWord?]

theorem memberHead_append (h : IsSettledFront (ts.drop (memberHead ts).length)) :
    memberHead (ts ++ more) = memberHead ts := by
  have hlength : (memberHead ts).length = (modifiersOfMember ts).length +
      (memberHead ts).accessor.toList.length + (memberHead ts).asterisk.toList.length := rfl
  rw [hlength, ← List.drop_drop, ← List.drop_drop] at h
  have hm : IsSettledFront (ts.drop (modifiersOfMember ts).length) := h.of_drop.of_drop
  have ha : IsSettledFront ((ts.drop (modifiersOfMember ts).length).drop
    (accessorWord? (ts.drop (modifiersOfMember ts).length)).toList.length) := h.of_drop
  simp only [memberHead]
  rw [modifiersOfMember_append hm, hm.drop_append, accessorWord?_append hm, ha.drop_append,
    ha.frontToken?_append]

end Extent

namespace Reader

section

variable {more ts ts' : List Tree} {closing closing' : Option Nat} {decorators : List Clause}
  {found : Declared} {rest : List Tree} {hr : Follows rest ts}

/-- The name that a tree is. -/
def nameOf? : Tree → Option MemberName
  | .token l =>
    if l.kind = .identifier then some (.identifier l.toToken)
    else if l.kind ∈ [.string, .number, .privateName] then some (.literal l.toToken)
    else none
  | .group .bracket opening children close =>
    (group .bracket opening children close).toOption.map .computed
  | .group .. => none

theorem named_eq {t : Tree} {us : List Tree} {name : MemberName}
    (h : ts.drop (memberHead ts).length = t :: us) (hn : nameOf? t = some name)
    (hu : Follows us ts) : named closing decorators ts =
      signature closing decorators (memberHead ts) name us hu := by
  rw [named]
  split
  · rename_i l us' heq
    obtain ⟨rfl, rfl⟩ := List.cons.inj (h.symm.trans heq)
    by_cases hk : l.kind = .identifier
    · rw [if_pos hk]
      simp only [nameOf?, hk, if_true, Option.some.injEq] at hn
      rw [hn]
    · rw [if_neg hk]
      by_cases hk' : l.kind ∈ [.string, .number, .privateName]
      · rw [if_pos hk']
        simp only [nameOf?, hk, hk', if_false, if_true, Option.some.injEq] at hn
        rw [hn]
      · simp only [nameOf?, hk, hk', if_false] at hn
        cases hn
  · rename_i opening children close us' heq
    obtain ⟨rfl, rfl⟩ := List.cons.inj (h.symm.trans heq)
    rw [nameOf?] at hn
    cases hg : group .bracket opening children close with
    | error fault => simp [hg, Except.toOption] at hn
    | ok g =>
      obtain rfl : MemberName.computed g = name := by simpa [hg, Except.toOption] using hn
      rfl
  · rename_i hx hx'
    cases t with
    | token l => exact (hx l us h).elim
    | group d opening children close =>
      cases d with
      | bracket => exact (hx' opening children close us h).elim
      | _ => cases hn

theorem exists_nameOf_named {found : Declared} {rest : List Tree} {hr : Follows rest ts}
    (hs : named closing decorators ts = .done found rest hr) :
    ∃ t us name, ts.drop (memberHead ts).length = t :: us ∧ nameOf? t = some name := by
  rw [named] at hs
  split at hs
  · rename_i l us heq
    by_cases hk : l.kind = .identifier
    · exact ⟨_, us, _, heq, by rw [nameOf?, if_pos hk]⟩
    · rw [if_neg hk] at hs
      by_cases hk' : l.kind ∈ [.string, .number, .privateName]
      · exact ⟨_, us, _, heq, by rw [nameOf?, if_neg hk, if_pos hk']⟩
      · rw [if_neg hk'] at hs
        cases hs
  · rename_i opening children close us heq
    cases hg : group .bracket opening children close with
    | error fault =>
      rw [hg] at hs
      cases hs
    | ok g => exact ⟨_, us, .computed g, heq, by rw [nameOf?, hg]; rfl⟩
  · cases hs

end

end Reader

end TwinClasses
