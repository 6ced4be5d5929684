import TwinClasses.Proofs.Framing.Signatures

set_option autoImplicit false

/-! Members with more trees behind. A class body followed by trees that are read as members is read
as its own members and these, unless the last of its own is a property that goes on. -/

namespace TwinClasses

open Extent

namespace Reader

section

variable {more ts : List Tree} {closing closing' : Option Nat} {decorators : List Clause}
  {found : Declared} {rest : List Tree} {hr : Follows rest ts}

theorem signature_nil {head : MemberHead} {name : MemberName} (h : Follows [] ts) :
    signature closing decorators head name [] h = .done .property [] h := by
  have hg : generics closing [] h = .done [] [] h := rfl
  exact signature_property hg rfl

theorem getLast?_of_drop {n : Nat} {t : Tree} (h : ts.drop n = [t]) : ts.getLast? = some t := by
  rw [← List.take_append_drop n ts, h]
  simp

theorem named_append (hm : beginsItem more = true)
    (hs : named closing decorators ts = .done found rest hr)
    (hh : found ≠ .property → Halts more rest)
    (hl : found = .property → rest = [] → ∀ t ∈ ts.getLast?, isHeadWord t = false) :
    ∃ hr', named closing' decorators (ts ++ more) = .done found (rest ++ more) hr' := by
  obtain ⟨t, us, name, hdrop, hname⟩ := exists_nameOf_named hs
  have hu : Follows us ts := .of_drop_eq_cons hdrop
  rw [named_eq hdrop hname hu] at hs
  have hsettled : IsSettledFront (ts.drop (memberHead ts).length) := by
    refine ⟨t, us, hdrop, ?_⟩
    rintro rfl
    rw [signature_nil] at hs
    obtain ⟨hfound, hrest⟩ := Reading.done.inj hs
    exact hl hfound.symm hrest.symm t (getLast?_of_drop hdrop)
  have hhead : memberHead (ts ++ more) = memberHead ts := memberHead_append hsettled
  have hdrop' : (ts ++ more).drop (memberHead (ts ++ more)).length = t :: (us ++ more) := by
    rw [hhead, hsettled.drop_append, hdrop, List.cons_append]
  have hu' : Follows (us ++ more) (ts ++ more) := .of_drop_eq_cons hdrop'
  rw [named_eq hdrop' hname hu', hhead]
  exact signature_append hm hu' hs hh

theorem ne_nil_of_declared {us : List Tree} {hr : Follows rest us}
    (hs : declared closing decorators us = .done found rest hr) : us ≠ [] := by
  rintro rfl
  rw [declared] at hs
  · obtain ⟨t, us, name, hdrop, -⟩ := exists_nameOf_named hs
    rw [List.drop_nil] at hdrop
    cases hdrop
  · simp

/-- No member is named by a dot. -/
theorem declared_dot {l : Lexeme} (hk : l.kind = .dot) {hr : Follows rest [.token l]} :
    declared closing decorators [.token l] ≠ .done found rest hr := by
  intro hs
  have hat : ¬ l.kind = .atSign := by rw [hk]; decide
  rw [declared, if_neg hat] at hs
  obtain ⟨t, us, name, hdrop, hname⟩ := exists_nameOf_named hs
  have hhead : (memberHead [.token l]).length = 0 := by
    simp [memberHead, modifiersOfMember, accessorWord?, Tree.frontToken?, MemberHead.length,
      Token.isWord, hk]
  rw [hhead] at hdrop
  obtain ⟨rfl, -⟩ := List.cons.inj hdrop
  simp [nameOf?, hk] at hname

theorem ne_dot_of_declared {us : List Tree} {hr : Follows rest us}
    (hs : declared closing decorators us = .done found rest hr) :
    ∀ l : Lexeme, us = [.token l] → l.kind ≠ .dot := by
  rintro l rfl hk
  exact declared_dot hk hs

/-- A decorator, and what comes after it. -/
theorem declared_decorator {mark : Lexeme} {us vs ws : List Tree} {name : Token}
    {hv : Follows vs us} {expression : List Node} (hk : mark.kind = .atSign)
    (he : Reading.expect .identifier "a decorator" closing us = .done name vs hv)
    (hw : vs.drop (decoratorLength vs) = ws)
    (hq : sequence none none (Tree.before us ws) = .ok expression)
    (hf : Follows ws us) : declared closing decorators (.token mark :: us) =
      ((declared closing (decorators ++ [⟨mark.toToken, expression⟩]) ws).within hf).after := by
  subst hw
  rw [declared, if_pos hk, Reading.andThen_done he]
  simp only [hq]
  rfl

theorem exists_decorator {mark : Lexeme} {us : List Tree} {hr : Follows rest (.token mark :: us)}
    (hk : mark.kind = .atSign)
    (hs : declared closing decorators (.token mark :: us) = .done found rest hr) :
    ∃ name vs hv expression,
      Reading.expect .identifier "a decorator" closing us = .done name vs hv ∧
      sequence none none (Tree.before us (vs.drop (decoratorLength vs))) = .ok expression ∧
      ∃ hr', declared closing (decorators ++ [⟨mark.toToken, expression⟩])
        (vs.drop (decoratorLength vs)) = .done found rest hr' := by
  rw [declared, if_pos hk] at hs
  obtain ⟨hr', hs⟩ := Reading.within_eq_done hs
  obtain ⟨name, vs, hv, he, hs⟩ := Reading.andThen_eq_done.1 hs
  obtain ⟨expression, ws, hw, hq, hs⟩ := Reading.andThen_eq_done.1 hs
  obtain ⟨hok, rfl⟩ := Reading.ofExcept_eq_done hq
  exact ⟨name, vs, hv, expression, he, hok, Reading.within_eq_done hs⟩

theorem decoratorLength_of_beginsItem (hm : beginsItem more = true) :
    decoratorLength more = 0 := by
  cases more using Tree.frontCases with
  | nil => rfl
  | token l us =>
    have hk : l.kind ≠ .dot := by
      intro hk
      have hin := kind_of_beginsItem hm
      rw [hk] at hin
      revert hin
      decide
    cases us using Tree.frontCases with
    | nil => simp [decoratorLength]
    | group d opening children close us => simp [decoratorLength]
    | token name us => simp [decoratorLength, hk]
  | group d opening children close us =>
    simp only [beginsItem, Bool.and_eq_true, decide_eq_true_eq] at hm
    obtain ⟨rfl, -⟩ := hm
    simp [decoratorLength]

theorem decoratorLength_append {vs : List Tree} (hm : beginsItem more = true)
    (h : ∀ l : Lexeme, vs.drop (decoratorLength vs) = [.token l] → l.kind ≠ .dot) :
    decoratorLength (vs ++ more) = decoratorLength vs := by
  fun_induction decoratorLength vs with
  | case1 dot name vs hk ih =>
    rw [Nat.add_comm] at h
    simp only [List.cons_append]
    rw [decoratorLength, if_pos hk, ih h]
  | case2 dot name vs hk =>
    simp only [List.cons_append]
    rw [decoratorLength, if_neg hk]
  | case3 opening children close vs hl =>
    simp only [List.cons_append]
    rw [decoratorLength, if_pos hl]
  | case4 opening children close vs hl ih =>
    rw [Nat.add_comm] at h
    simp only [List.cons_append]
    rw [decoratorLength, if_neg hl, ih h]
  | case5 vs hx hx' =>
    rw [List.drop_zero] at h
    cases vs using Tree.frontCases with
    | nil => exact decoratorLength_of_beginsItem hm
    | token l vs =>
      cases vs using Tree.frontCases with
      | nil =>
        cases more using Tree.frontCases with
        | nil => rfl
        | group d opening children close more => simp [decoratorLength]
        | token name more => simp [decoratorLength, h l rfl]
      | token name vs => exact (hx l name vs rfl).elim
      | group d opening children close vs => simp [decoratorLength]
    | group d opening children close vs =>
      cases d with
      | paren => exact (hx' opening children close vs rfl).elim
      | _ => simp [decoratorLength]

theorem length_decoratorLength_le (vs : List Tree) : decoratorLength vs ≤ vs.length := by
  fun_induction decoratorLength vs with
  | case1 dot name vs hk ih =>
    simp only [List.length_cons]
    omega
  | case4 opening children close vs hl ih =>
    simp only [List.length_cons]
    omega
  | _ => exact Nat.zero_le _

theorem before_append_append {us ws : List Tree} (h : ws <:+ us) (more : List Tree) :
    Tree.before (us ++ more) (ws ++ more) = Tree.before us ws := by
  obtain ⟨read, rfl⟩ := h
  simp [Tree.before]

theorem getLast?_of_suffix {us ws : List Tree} (h : ws <:+ us) (hne : ws ≠ []) :
    ws.getLast? = us.getLast? := by
  obtain ⟨read, rfl⟩ := h
  rw [List.getLast?_append]
  cases hw : ws.getLast? with
  | none => exact absurd (List.getLast?_eq_none_iff.1 hw) hne
  | some t => rfl

theorem declared_append {decorators : List Clause} {ts : List Tree} {hr : Follows rest ts}
    (hm : beginsItem more = true)
    (hs : declared closing decorators ts = .done found rest hr)
    (hh : found ≠ .property → Halts more rest)
    (hl : found = .property → rest = [] → ∀ t ∈ ts.getLast?, isHeadWord t = false) :
    ∃ hr', declared closing' decorators (ts ++ more) = .done found (rest ++ more) hr' := by
  cases ts with
  | nil => exact absurd rfl (ne_nil_of_declared hs)
  | cons t us =>
    cases t with
    | group d opening children close =>
      simp only [List.cons_append]
      rw [declared] at hs ⊢
      · exact named_append hm hs hh hl
      · simp
      · simp
    | token mark =>
      simp only [List.cons_append]
      by_cases hk : mark.kind = .atSign
      · obtain ⟨name, vs, hv, expression, he, hq, hr', hs⟩ := exists_decorator hk hs
        have hlength := decoratorLength_append hm (ne_dot_of_declared hs)
        have hle := length_decoratorLength_le vs
        have hws : vs.drop (decoratorLength vs) <:+ us := (hv.drop _).suffix
        obtain ⟨hv', he'⟩ := Reading.extends_expect (G := fun _ => True) .identifier "a decorator"
          closing closing' us more _ _ _ he trivial
        have hw' : (vs ++ more).drop (decoratorLength (vs ++ more)) =
            vs.drop (decoratorLength vs) ++ more := by
          rw [hlength, List.drop_append_of_le_length hle]
        have hf' : Follows (vs.drop (decoratorLength vs) ++ more) (us ++ more) := hw' ▸ hv'.drop _
        have hlast : (vs.drop (decoratorLength vs)).getLast? = (Tree.token mark :: us).getLast? :=
          getLast?_of_suffix (hws.trans (List.suffix_cons _ _)) (ne_nil_of_declared hs)
        obtain ⟨hr'', hs'⟩ := declared_append hm hs hh (hlast ▸ hl)
        rw [declared_decorator hk he' hw' (by rwa [before_append_append hws]) hf',
          Reading.after, Reading.within_done _ (Reading.within_done _ hs')]
        exact ⟨(hr''.trans hf').trans (.tail_of_cons _ _), rfl⟩
      · rw [declared, if_neg hk] at hs ⊢
        exact named_append hm hs hh hl
  termination_by Tree.weightAll ts
  decreasing_by all_goals grind

/-! Properties. -/

theorem isContinuation_of_beginsItem {u : Tree} (hm : beginsItem (u :: more) = true) :
    isContinuation u = false ∧ u.isKind .semicolon = false := by
  cases u with
  | group d opening children close => exact ⟨rfl, rfl⟩
  | token l =>
    have hk := kind_of_beginsItem hm
    revert hk
    simp only [isContinuation, Tree.isKind]
    cases l.kind <;> decide

theorem propertyLength_append (hm : beginsItem more = true) {previous : Option Tree}
    {us : List Tree}
    (hend : us.drop (propertyLength previous us) = [] →
      (∃ t ∈ us.getLast?, t.isKind .semicolon = true) ∨
      ∃ t ∈ us.getLast?.or previous,
        isIncomplete t = false ∧ more.head?.all Tree.opensLine = true) :
    propertyLength previous (us ++ more) = propertyLength previous us := by
  induction us generalizing previous with
  | nil =>
    obtain ⟨t, ht, -⟩ | ⟨t, rfl, hi, hopens⟩ := hend rfl
    · cases ht
    · cases more with
      | nil => rfl
      | cons u more =>
        obtain ⟨hc, hk⟩ := isContinuation_of_beginsItem hm
        have hu : u.opensLine = true := by simpa using hopens
        simp [propertyLength, hk, hu, hi, hc]
  | cons u us ih =>
    rw [List.cons_append, propertyLength, propertyLength]
    rw [propertyLength] at hend
    by_cases hk : u.isKind .semicolon = true
    · rw [if_pos hk, if_pos hk]
    · rw [if_neg hk] at hend ⊢
      rw [if_neg hk]
      split
      · rfl
      · rename_i hgo
        rw [if_neg hgo, Nat.add_comm, List.drop_succ_cons] at hend
        rw [ih]
        intro hnil
        have hlast : (u :: us).getLast? = us.getLast?.or (some u) := by
          rw [List.getLast?_cons]
          cases us.getLast? <;> rfl
        rw [hlast] at hend
        obtain ⟨t, ht, hsemicolon⟩ | ⟨t, ht, hi, hopens⟩ := hend hnil
        · cases hu : us.getLast? with
          | none =>
            rw [hu] at ht
            cases ht
            exact absurd hsemicolon hk
          | some t' =>
            rw [hu] at ht
            exact Or.inl ⟨t, ht, hsemicolon⟩
        · refine Or.inr ⟨t, ?_, hi, hopens⟩
          cases hu : us.getLast? with
          | none =>
            rw [hu] at ht
            exact ht
          | some t' =>
            rw [hu] at ht
            exact ht

theorem getLast?_of_typeParameters {us : List Tree} {generics : List Node} {hr : Follows [] us}
    (h : typeParameters closing us = .done generics [] hr) :
    ∃ l : Lexeme, us.getLast? = some (.token l) ∧ l.kind = .greaterThan := by
  cases us using Tree.frontCases with
  | nil =>
    rw [typeParameters] at h
    · cases h
    · simp
  | group d opening children close us =>
    rw [typeParameters] at h
    · cases h
    · simp
  | token opening us =>
    rw [typeParameters] at h
    by_cases hk : opening.kind = .lessThan
    · rw [if_pos hk] at h
      cases hn : angleLength? 1 us with
      | none =>
        rw [hn] at h
        cases h
      | some n =>
        rw [hn] at h
        obtain ⟨-, hdrop⟩ := Reading.ofExcept_eq_done h
        obtain ⟨inner, l, hi, hl⟩ := take_angleLength? hn
        rw [← List.take_append_drop n us, ← hdrop, hi]
        refine ⟨l, ?_, hl⟩
        rw [List.append_nil, ← List.cons_append, List.getLast?_concat]
    · rw [if_neg hk] at h
      cases h

theorem not_semicolon_of_nameMark {us : List Tree} (h : us.drop (nameMark us).toList.length = []) :
    ∀ t ∈ us.getLast?, t.isKind .semicolon = false := by
  cases us with
  | nil => simp
  | cons u us =>
    cases hq : nameMark (u :: us) with
    | none =>
      rw [hq] at h
      cases h
    | some mark =>
      rw [hq] at h
      have hus : us = [] := h
      subst hus
      rintro t ⟨⟩
      cases u with
      | group d opening children close => rfl
      | token l =>
        by_cases hk : l.kind = .semicolon
        · simp [nameMark, Tree.frontToken?, hk] at hq
        · simp [Tree.isKind, hk]

/-- A property that ends with its name, its mark or its type parameters. -/
theorem not_semicolon_of_signature {head : MemberHead} {name : MemberName} {us : List Tree}
    {h : Follows us ts} {hr : Follows [] ts}
    (hs : signature closing decorators head name us h = .done .property [] hr) :
    ∀ t ∈ us.getLast?, t.isKind .semicolon = false := by
  obtain ⟨ns, vs, hv, hg, hp | ⟨opening, children, close, ws, items, rfl, hitems⟩⟩ :=
    exists_generics_of_signature hs
  · rw [signature_property hg hp] at hs
    obtain ⟨-, rfl⟩ := Reading.done.inj hs
    rw [generics] at hg
    by_cases hl : (Tree.frontToken? .lessThan (us.drop (nameMark us).toList.length)).isSome
    · rw [if_pos hl] at hg
      obtain ⟨hr', hg⟩ := Reading.within_eq_done hg
      obtain ⟨l, hlast, hk⟩ := getLast?_of_typeParameters hg
      rw [← getLast?_of_suffix (List.drop_suffix _ us) (by
        intro hnil
        rw [hnil] at hlast
        cases hlast), hlast]
      rintro t ⟨⟩
      simp [Tree.isKind, hk]
    · rw [if_neg hl] at hg
      exact not_semicolon_of_nameMark (Reading.done.inj hg).2
  · rw [signature_callable hg hitems] at hs
    obtain ⟨returnType, xs, hx, -, hs⟩ := Reading.andThen_eq_done.1 hs
    obtain ⟨written, ys, hy, -, hs⟩ := Reading.andThen_eq_done.1 hs
    exact absurd (Reading.done.inj hs).1 (declare_ne_property _ _ _ _ _ _ _ _ _)

theorem not_semicolon_of_named {hr : Follows [] ts}
    (hs : named closing decorators ts = .done .property [] hr) :
    ∀ t ∈ ts.getLast?, t.isKind .semicolon = false := by
  obtain ⟨t, us, name, hdrop, hname⟩ := exists_nameOf_named hs
  rw [named_eq hdrop hname (.of_drop_eq_cons hdrop)] at hs
  cases us with
  | nil =>
    rw [getLast?_of_drop hdrop]
    rintro t' ⟨⟩
    cases t with
    | group d opening children close => rfl
    | token l =>
      by_cases hk : l.kind = .semicolon
      · simp [nameOf?, hk] at hname
      · simp [Tree.isKind, hk]
  | cons u us =>
    have hsuffix : u :: us <:+ ts := by
      have ht : t :: u :: us <:+ ts := hdrop ▸ List.drop_suffix _ ts
      exact (List.suffix_cons t _).trans ht
    rw [← getLast?_of_suffix hsuffix (by simp)]
    exact not_semicolon_of_signature hs

theorem not_semicolon_of_declared {decorators : List Clause} {ts : List Tree} {hr : Follows [] ts}
    (hs : declared closing decorators ts = .done .property [] hr) :
    ∀ t ∈ ts.getLast?, t.isKind .semicolon = false := by
  cases ts with
  | nil => exact absurd rfl (ne_nil_of_declared hs)
  | cons t us =>
    cases t with
    | group d opening children close =>
      rw [declared] at hs
      · exact not_semicolon_of_named hs
      · simp
    | token mark =>
      by_cases hk : mark.kind = .atSign
      · obtain ⟨name, vs, hv, expression, -, -, hr', hs⟩ := exists_decorator hk hs
        have hws : vs.drop (decoratorLength vs) <:+ .token mark :: us :=
          (hv.drop _).suffix.trans (List.suffix_cons _ _)
        rw [← getLast?_of_suffix hws (ne_nil_of_declared hs)]
        exact not_semicolon_of_declared hs
      · rw [declared, if_neg hk] at hs
        exact not_semicolon_of_named hs
  termination_by Tree.weightAll ts
  decreasing_by all_goals grind

end

end Reader

/-- The member `m`, read last and up to `t`, ends there in front of `more`. -/
def Member.endsBefore (more : List Tree) (t : Tree) : Member → Bool
  | .method _ | .getter _ => true
  | .other _ => t.isKind .semicolon ||
      more.head?.all Tree.opensLine && !isIncomplete t && !isHeadWord t

namespace Reader

variable {more ts : List Tree} {closing closing' : Option Nat}

theorem member_declared {m : Member} {us : List Tree} {hu : Follows us ts}
    (hc : Tree.frontToken? .semicolon ts = none)
    (hs : declared closing [] ts = .done (.member m) us hu) :
    member closing ts = .done m us hu := by
  rw [member, hc]
  exact Reading.andThen_done hs

theorem member_verbatim {us : List Tree} {hu : Follows us ts} {ns : List Node}
    (hc : Tree.frontToken? .semicolon ts = none)
    (hs : declared closing [] ts = .done .verbatim us hu)
    (hq : sequence (some .brace) none (Tree.before ts us) = .ok ns) :
    member closing ts = .done (.other ns) us hu := by
  rw [member, hc]
  simp only
  rw [Reading.andThen_done hs, hq]
  rfl

theorem member_property {us vs : List Tree} {hu : Follows us ts} {ns : List Node}
    (hc : Tree.frontToken? .semicolon ts = none)
    (hs : declared closing [] ts = .done .property us hu)
    (hv : us.drop (propertyLength (Tree.before ts us).getLast? us) = vs)
    (hq : sequence (some .brace) none (Tree.before ts vs) = .ok ns) (hf : Follows vs ts) :
    member closing ts = .done (.other ns) vs hf := by
  subst hv
  rw [member, hc]
  simp only
  rw [Reading.andThen_done hs]
  simp only [hq]
  rfl

/-- How a member that is no semicolon is read. -/
theorem member_eq_done {m : Member} {rest : List Tree} {hr : Follows rest ts}
    (hc : Tree.frontToken? .semicolon ts = none) (h : member closing ts = .done m rest hr) :
    ∃ found us hu, declared closing [] ts = .done found us hu ∧
      (found = .member m ∧ rest = us ∨
        ∃ ns, m = .other ns ∧ sequence (some .brace) none (Tree.before ts rest) = .ok ns ∧
          (found = .verbatim ∧ rest = us ∨ found = .property ∧
            rest = us.drop (propertyLength (Tree.before ts us).getLast? us))) := by
  rw [member, hc] at h
  obtain ⟨found, us, hu, hs, h⟩ := Reading.andThen_eq_done.1 h
  refine ⟨found, us, hu, hs, ?_⟩
  cases found with
  | member m' =>
    cases h
    exact Or.inl ⟨rfl, rfl⟩
  | verbatim =>
    cases hq : sequence (some .brace) none (Tree.before ts us) with
    | error fault =>
      simp only [hq] at h
      cases h
    | ok ns =>
      simp only [hq] at h
      cases h
      exact Or.inr ⟨ns, rfl, hq, Or.inl ⟨rfl, rfl⟩⟩
  | property =>
    cases hq : sequence (some .brace) none
        (Tree.before ts (us.drop (propertyLength (Tree.before ts us).getLast? us))) with
    | error fault =>
      simp only [hq] at h
      cases h
    | ok ns =>
      simp only [hq] at h
      cases h
      exact Or.inr ⟨ns, rfl, hq, Or.inr ⟨rfl, rfl⟩⟩

theorem propertyLength_le (previous : Option Tree) (us : List Tree) :
    propertyLength previous us ≤ us.length := by
  induction us generalizing previous with
  | nil => exact Nat.zero_le _
  | cons u us ih =>
    have hle := ih (some u)
    rw [propertyLength, List.length_cons]
    split
    · omega
    · split <;> omega

theorem not_isHeadWord_of_endsBefore {ns : List Node} {t : Tree}
    (h : (Member.other ns).endsBefore more t = true) : isHeadWord t = false := by
  simp only [Member.endsBefore, Bool.or_eq_true, Bool.and_eq_true, Bool.not_eq_true'] at h
  obtain hk | ⟨-, hw⟩ := h
  · cases t with
    | group d opening children close => rfl
    | token l =>
      have hl : l.kind = .semicolon := by simpa [Tree.isKind] using hk
      simp [isHeadWord, hl]
  · exact hw

theorem member_property_append (hm : beginsItem more = true) {us : List Tree}
    {hu : Follows us ts} {ns : List Node} (hc' : Tree.frontToken? .semicolon (ts ++ more) = none)
    (hs : declared closing [] ts = .done .property us hu)
    (hq : sequence (some .brace) none (Tree.before ts
      (us.drop (propertyLength (Tree.before ts us).getLast? us))) = .ok ns)
    (hend : us.drop (propertyLength (Tree.before ts us).getLast? us) = [] →
      ∀ t ∈ ts.getLast?, (Member.other ns).endsBefore more t = true) :
    ∃ hr', member closing' (ts ++ more) = .done (.other ns)
      (us.drop (propertyLength (Tree.before ts us).getLast? us) ++ more) hr' := by
  obtain ⟨hu', hs'⟩ := declared_append hm hs (by simp) (by
    rintro - rfl t ht
    exact not_isHeadWord_of_endsBefore (hend (List.drop_nil ..) t ht))
  have hlength : propertyLength (Tree.before ts us).getLast? (us ++ more) =
      propertyLength (Tree.before ts us).getLast? us := by
    apply propertyLength_append hm
    intro hnil
    have ht := List.getLast?_eq_some_getLast (ne_nil_of_declared hs)
    generalize ts.getLast (ne_nil_of_declared hs) = t at ht
    have hlast : us.getLast?.or (Tree.before ts us).getLast? = some t := by
      rw [← List.getLast?_append, Tree.before_append hu.suffix, ht]
    have hends := hend hnil t ht
    simp only [Member.endsBefore, Bool.or_eq_true, Bool.and_eq_true, Bool.not_eq_true'] at hends
    obtain hk | ⟨⟨hopens, hi⟩, -⟩ := hends
    · refine Or.inl ⟨t, ?_, hk⟩
      cases us with
      | nil =>
        rw [not_semicolon_of_declared hs t ht] at hk
        cases hk
      | cons u us => rw [getLast?_of_suffix hu.suffix (by simp), ht]; rfl
    · exact Or.inr ⟨t, hlast, hi, hopens⟩
  have hv' : (us ++ more).drop
      (propertyLength (Tree.before (ts ++ more) (us ++ more)).getLast? (us ++ more)) =
        us.drop (propertyLength (Tree.before ts us).getLast? us) ++ more := by
    rw [before_append_append hu.suffix, hlength,
      List.drop_append_of_le_length (propertyLength_le _ us)]
  have hf' : Follows (us.drop (propertyLength (Tree.before ts us).getLast? us) ++ more)
      (ts ++ more) := hv' ▸ hu'.drop _
  refine ⟨hf', member_property hc' hs' hv' ?_ hf'⟩
  rwa [before_append_append ((List.drop_suffix _ us).trans hu.suffix)]

theorem member_append (hm : beginsMember more = true) {m : Member} {rest : List Tree}
    {hr : Follows rest ts} (h : member closing ts = .done m rest hr) (hh : Halts more rest)
    (hend : rest = [] → ∀ t ∈ ts.getLast?, m.endsBefore more t = true) :
    ∃ hr', member closing' (ts ++ more) = .done m (rest ++ more) hr' := by
  have hi := beginsItem_of_beginsMember hm
  cases hc : Tree.frontToken? .semicolon ts with
  | some semicolon =>
    obtain ⟨l, us, rfl, hl, rfl⟩ := Tree.frontToken?_eq_some hc
    have hc' : Tree.frontToken? .semicolon (.token l :: us ++ more) = some l.toToken := by
      simp [Tree.frontToken?, hl]
    rw [member, hc] at h
    rw [member, hc']
    cases h
    exact ⟨.tail_of_cons _ _, rfl⟩
  | none =>
    obtain ⟨found, us, hu, hs, h⟩ := member_eq_done hc h
    have hc' : Tree.frontToken? .semicolon (ts ++ more) = none := by
      obtain ⟨t, ts, rfl⟩ := List.exists_cons_of_ne_nil (ne_nil_of_declared hs)
      cases t <;> exact hc
    obtain ⟨rfl, rfl⟩ | ⟨ns, rfl, hq, ⟨rfl, rfl⟩ | ⟨rfl, rfl⟩⟩ := h
    · obtain ⟨hu', hs'⟩ := declared_append hi hs (fun _ => hh) (by simp)
      exact ⟨hu', member_declared hc' hs'⟩
    · obtain ⟨hu', hs'⟩ := declared_append hi hs (fun _ => hh) (by simp)
      exact ⟨hu', member_verbatim hc' hs' (by rwa [before_append_append hu.suffix])⟩
    · exact member_property_append hi hc' hs hq hend

theorem members_cons {t : Tree} {us vs : List Tree} {m : Member} {hv : Follows vs (t :: us)}
    (h : member closing (t :: us) = .done m vs hv) :
    members closing (t :: us) = (members closing vs).map (m :: ·) := by
  rw [members, h]

theorem members_cons_eq_ok {t : Tree} {us : List Tree} {ms : List Member}
    (h : members closing (t :: us) = .ok ms) : ∃ m vs hv ms',
      member closing (t :: us) = .done m vs hv ∧ members closing vs = .ok ms' ∧ ms = m :: ms' := by
  cases hm : member closing (t :: us) with
  | failed fault rest =>
    rw [members, hm] at h
    cases h
  | done m vs hv =>
    rw [members_cons hm] at h
    cases hms : members closing vs with
    | error fault =>
      rw [hms] at h
      cases h
    | ok ms' =>
      rw [hms] at h
      cases h
      exact ⟨m, vs, hv, ms', rfl, hms, rfl⟩

theorem halts_of_members (hm : beginsMember more = true) {us : List Tree} {ms : List Member}
    (h : members closing us = .ok ms) : Halts more us := by
  refine ⟨fun _ => hm, ?_⟩
  rintro l rfl hk
  obtain ⟨m, vs, hv, ms', hq, -, -⟩ := members_cons_eq_ok h
  have hc : Tree.frontToken? .semicolon [.token l] = none := by simp [Tree.frontToken?, hk]
  obtain ⟨found, us, hu, hs, -⟩ := member_eq_done hc hq
  exact declared_dot hk hs

/-- A class body, and trees behind it that are read as members. -/
theorem members_append {ts : List Tree} {ms : List Member} (hm : beginsMember more = true)
    (h : members closing ts = .ok ms)
    (hend : ∀ m ∈ ms.getLast?, ∀ t ∈ ts.getLast?, m.endsBefore more t = true) :
    members closing' (ts ++ more) = (members closing' more).map (ms ++ ·) := by
  cases ts with
  | nil =>
    rw [members] at h
    cases h
    cases hmore : members closing' more <;> simp [hmore, Except.map]
  | cons t us =>
    obtain ⟨m, vs, hv, ms', hq, hms, rfl⟩ := members_cons_eq_ok h
    have hlast : vs = [] → ∀ t' ∈ (t :: us).getLast?, m.endsBefore more t' = true := by
      rintro rfl
      rw [members] at hms
      cases hms
      exact hend m rfl
    obtain ⟨hv', hq'⟩ : ∃ hv', member closing' (t :: us ++ more) = .done m (vs ++ more) hv' :=
      member_append hm hq (halts_of_members hm hms) hlast
    have ih := members_append hm hms (by
      intro m' hm' t' ht'
      refine hend m' ?_ t' ?_
      · rw [List.getLast?_cons, hm']
        rfl
      · have hne : vs ≠ [] := by
          rintro rfl
          cases ht'
        rw [← getLast?_of_suffix hv.suffix hne]
        exact ht')
    have hcons : members closing' (t :: us ++ more) =
        (members closing' (vs ++ more)).map (m :: ·) := members_cons hq'
    rw [hcons, ih]
    cases members closing' more <;> rfl
  termination_by Tree.weightAll ts
  decreasing_by all_goals grind

end Reader

end TwinClasses
