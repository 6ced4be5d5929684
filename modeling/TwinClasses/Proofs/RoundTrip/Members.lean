import TwinClasses.Proofs.RoundTrip.Parameters

set_option autoImplicit false

/-! Members of a class body. A member moves the trivia of its first token in front of itself and
takes it back when its tokens are listed; an accessor drops what stands in its two gaps. -/

namespace TwinClasses

theorem Method.outline_hoistLeading (decorators : List Clause) (modifiers : List Token)
    (asterisk : Option Token) (name : MemberName) (question : Option Token)
    (typeParameters : List Node) (parameters : ParameterList) (returnType : Option Clause)
    (body : Option Group) (terminator : Option Token) :
    (Method.hoistLeading ⟨"", decorators, modifiers, asterisk, name, question, typeParameters,
        parameters, returnType, body, terminator⟩).outline =
      Clause.outlineAll decorators ++ Spot.ofTokens modifiers ++ Spot.ofTokens asterisk.toList
        ++ name.outline ++ Spot.ofTokens question.toList ++ Node.outlineAll typeParameters
        ++ parameters.outline ++ Clause.outlineOption returnType ++ Group.outlineOption body
        ++ Spot.ofTokens terminator.toList := by
  cases decorators with
  | cons d ds =>
    obtain ⟨mark, content⟩ := d
    simp [hoistLeading, mapFirst, first, outline, Clause.outlineAll, Clause.outline,
      Spot.withTrivia, Token.ledBy]
  | nil =>
    cases modifiers with
    | cons t ts =>
      simp [hoistLeading, mapFirst, first, outline, Clause.outlineAll, Spot.withTrivia,
        Token.ledBy]
    | nil =>
      cases asterisk with
      | some t =>
        simp [hoistLeading, mapFirst, first, outline, Clause.outlineAll, Spot.withTrivia,
          Token.ledBy]
      | none =>
        cases name with
        | computed g =>
          obtain ⟨d, opening, children, closing⟩ := g
          simp [hoistLeading, mapFirst, first, outline, Clause.outlineAll, MemberName.first,
            MemberName.mapFirst, MemberName.outline, Group.outline, Spot.withTrivia, Token.ledBy]
        | _ =>
          simp [hoistLeading, mapFirst, first, outline, Clause.outlineAll, MemberName.first,
            MemberName.mapFirst, MemberName.outline, Spot.withTrivia, Token.ledBy]

theorem Getter.outline_hoistLeading (decorators : List Clause) (modifiers : List Token)
    (keyword : Token) (name : MemberName) (parameters : ParameterList)
    (returnType : Option Clause) (body : Option Group) (terminator : Option Token) :
    (Getter.hoistLeading ⟨"", decorators, modifiers, keyword, name, parameters, returnType, body,
        terminator⟩).outline =
      Clause.outlineAll decorators ++ Spot.ofTokens modifiers ++ .token keyword ::
        .gap .beforeName :: name.outline ++ .gap .afterName :: parameters.outline
        ++ Clause.outlineOption returnType ++ Group.outlineOption body
        ++ Spot.ofTokens terminator.toList := by
  cases decorators with
  | cons d ds =>
    obtain ⟨mark, content⟩ := d
    simp [hoistLeading, mapFirst, first, outline, Clause.outlineAll, Clause.outline,
      Spot.withTrivia, Token.ledBy]
  | nil =>
    cases modifiers with
    | cons t ts =>
      simp [hoistLeading, mapFirst, first, outline, Clause.outlineAll, Spot.withTrivia,
        Token.ledBy]
    | nil =>
      simp [hoistLeading, mapFirst, first, outline, Clause.outlineAll, Spot.withTrivia,
        Token.ledBy]

namespace Reader

open Extent Reading

/-- The parts of a callable member, each with the trees it was read from. -/
structure CallableRead (decorators : List Clause) (head : MemberHead) (name : MemberName)
    (question : Option Token) (generics : List Node) (parameters : ParameterList)
    (returnType : Option Clause) (body : Option Group) (terminator : Option Token)
    (ts : List Tree) : Prop where
  trees : ∃ td th tn tq tg tp tr tb tt, ts = td ++ th ++ tn ++ tq ++ tg ++ tp ++ tr ++ tb ++ tt ∧
    Clause.AllReadFrom decorators td ∧ Tree.tokensAll th = head.tokens ∧ name.ReadFrom tn ∧
    Tree.tokensAll tq = question.toList ∧ Node.AllReadFrom generics tg ∧
    IsAngleList (Tree.tokensAll tg) ∧ Stands parameters.outline tp ∧
    parameters.Every Node.IsWritten ∧ Clause.OptionReadFrom returnType tr ∧
    Group.OptionReadFrom body tb ∧ Tree.tokensAll tt = terminator.toList
  asterisk : ∀ t ∈ head.asterisk, t.kind = .asterisk
  question : ∀ t ∈ question, t.kind = .question ∨ t.kind = .bang

section

variable {decorators : List Clause} {head : MemberHead} {name : MemberName}
  {question : Option Token} {generics : List Node} {parameters : ParameterList}
  {returnType : Option Clause} {body : Option Group} {terminator : Option Token} {ts : List Tree}

theorem CallableRead.method (h : CallableRead decorators head name question generics parameters
      returnType body terminator ts) (hacc : head.accessor = none) :
    (Member.method (Method.hoistLeading ⟨"", decorators, head.modifiers, head.asterisk, name,
      question, generics, parameters, returnType, body, terminator⟩)).ReadFrom ts := by
  obtain ⟨td, th, tn, tq, tg, tp, tr, tb, tt, rfl, hd, hh, hn, hq, hg, hl, hp, hpe, hr, hb, ht⟩ :=
    h.trees
  refine ⟨?_, ?_⟩
  · have hhead : Stands (Spot.ofTokens head.modifiers ++ Spot.ofTokens head.asterisk.toList)
        th := by
      have hs := Stands.ofTokens hh
      simpa [MemberHead.tokens, hacc] using hs
    rw [Member.outline, Method.outline_hoistLeading]
    have hall := ((((((((hd.1.append hhead).append hn.1).append (.ofTokens hq)).append
      hg.1).append hp).append hr.1).append hb.1).append (.ofTokens ht))
    simpa [List.append_assoc] using hall
  · rw [Member.Every, Method.every_hoistLeading, Method.Every]
    exact ⟨hd.2, hn.2, hg.2, hpe, hr.2, hb.2⟩

/-- The `*`, the mark after the name and the type parameters fall into the gaps. -/
theorem CallableRead.getter {keyword : Token} (h : CallableRead decorators head name question
      generics parameters returnType body terminator ts) (hacc : head.accessor = some keyword) :
    (Member.getter (Getter.hoistLeading ⟨"", decorators, head.modifiers, keyword, name, parameters,
      returnType, body, terminator⟩)).ReadFrom ts := by
  obtain ⟨td, th, tn, tq, tg, tp, tr, tb, tt, rfl, hd, hh, hn, hq, hg, hl, hp, hpe, hr, hb, ht⟩ :=
    h.trees
  refine ⟨?_, ?_⟩
  · rw [Member.outline, Getter.outline_hoistLeading]
    obtain ⟨ld, fd⟩ := hd.1
    obtain ⟨ln, fn⟩ := hn.1
    obtain ⟨lp, fp⟩ := hp
    obtain ⟨lr, fr⟩ := hr.1
    obtain ⟨lb, fb⟩ := hb.1
    have hbefore : Gap.beforeName.Admits head.asterisk.toList :=
      ⟨head.asterisk, h.asterisk, rfl⟩
    have hafter : Gap.afterName.Admits (question.toList ++ Tree.tokensAll tg) :=
      ⟨question, Tree.tokensAll tg, h.question, hl, rfl⟩
    have ftail := ((fp.append fr).append fb).append (Fills.ofTokens terminator.toList)
    have fname := Fills.gap .beforeName hbefore (fn.append (.gap .afterName hafter ftail))
    have fall := (fd.append (.ofTokens head.modifiers)).append (.token keyword fname)
    refine ⟨ld ++ (head.asterisk.toList ++ (ln ++ (question.toList ++ (Tree.tokensAll tg ++
      (lp ++ (lr ++ lb)))))), ?_⟩
    simpa [hh, hq, ht, MemberHead.tokens, hacc] using fall
  · rw [Member.Every, Getter.every_hoistLeading, Getter.Every]
    exact ⟨hd.2, hn.2, hpe, hr.2, hb.2⟩

theorem declare_readFrom (h : CallableRead decorators head name question generics parameters
      returnType body terminator ts) :
    (declare decorators head name question generics parameters returnType body
      terminator).ReadFrom ts := by
  unfold declare
  split
  · trivial
  · split
    · rename_i hacc
      exact h.method hacc
    · rename_i keyword hacc
      split
      · exact h.getter hacc
      · trivial

end

variable {w : Nat}

theorem beginsWith_question (us : List Tree) : Tree.BeginsWith
    ((Tree.frontToken? .question us).or (Tree.frontToken? .bang us)).toList us := by
  cases h : Tree.frontToken? .question us with
  | none => exact Tree.beginsWith_frontToken? .bang us
  | some t =>
    have hq := Tree.beginsWith_frontToken? .question us
    rwa [h] at hq

theorem question_kind {us : List Tree} {t : Token}
    (h : t ∈ (Tree.frontToken? .question us).or (Tree.frontToken? .bang us)) :
    t.kind = .question ∨ t.kind = .bang := by
  cases hq : Tree.frontToken? .question us with
  | none =>
    rw [hq] at h
    exact Or.inr (Tree.frontToken?_kind h)
  | some u =>
    rw [hq] at h
    obtain rfl : u = t := by simpa using h
    exact Or.inl (Tree.frontToken?_kind hq)

theorem beginsWith_terminator (body : Option Group) (us : List Tree) : Tree.BeginsWith
    (if body.isSome then none else Tree.frontToken? .semicolon us).toList us := by
  split
  · exact Tree.beginsWith_nil us
  · exact Tree.beginsWith_frontToken? .semicolon us

theorem signature_readFrom (ih : ReadersSound w) (closing : Option Nat)
    {decorators : List Clause} {head : MemberHead} {name : MemberName}
    {ts us td th tn : List Tree} (h : Follows us ts) (hts : ts = th ++ tn ++ us)
    (hw : Tree.weightAll us < w) (hd : Clause.AllReadFrom decorators td)
    (hh : Tree.tokensAll th = head.tokens) (ha : ∀ t ∈ head.asterisk, t.kind = .asterisk)
    (hn : name.ReadFrom tn) :
    (signature closing decorators head name us h).Yields fun found read =>
      found.ReadFrom (td ++ read) := by
  unfold signature
  extract_lets question us'
  have hk : ∀ t ∈ question, t.kind = .question ∨ t.kind = .bang := fun t ht => question_kind ht
  obtain ⟨tq, hq, hqt⟩ : Tree.BeginsWith question.toList us := beginsWith_question us
  have hdrop : Tree.weightAll us' ≤ Tree.weightAll us := Tree.weightAll_drop_le _ us
  have hts' : ts = (th ++ tn ++ tq) ++ us' := by
    rw [List.append_assoc, ← hq]
    exact hts
  refine Yields.andThen (P := fun ns read => ∃ tg, read = th ++ tn ++ tq ++ tg ∧
    Node.AllReadFrom ns tg ∧ IsAngleList (Tree.tokensAll tg)) ?_ ?_
  · split
    · refine Yields.within _ hts' ?_
      apply (typeParameters_readFrom ih closing (by omega)).mono
      intro ns tg hg
      exact ⟨tg, rfl, hg⟩
    · exact ⟨_, hts', [], by simp, .nil, Or.inl rfl⟩
  · rintro generics read vs h hts ⟨tg, rfl, hg, hl⟩
    split
    · rename_i opening children close vs h
      have hwv := congrArg Tree.weightAll (hts.symm.trans hts')
      simp only [Tree.weightAll_append, Tree.weightAll_cons, Tree.weight_group] at hwv
      split
      · trivial
      · rename_i items hitems
        obtain ⟨hps, hpe⟩ := (ih.parameters _ _ _ (by omega) hitems).list opening close
        apply (typeClause_readFrom ih closing
          (th ++ tn ++ tq ++ tg ++ [.group .paren opening children close]) h.tail
          (by simp [hts]) (by omega)).andThen
        rintro returnType read xs hx hxs ⟨tr, rfl, hr⟩
        have hwx := congrArg Tree.weightAll (hxs.symm.trans hts')
        simp only [Tree.weightAll_append] at hwx
        apply (body_readFrom ih _ hx hxs (by omega)).andThen
        rintro body read ys hy hts ⟨tb, rfl, hb⟩
        obtain ⟨tt, ht, htt⟩ := beginsWith_terminator body ys
        refine ⟨th ++ tn ++ tq ++ tg ++ [.group .paren opening children close] ++ tr ++ tb ++ tt,
          ?_, ?_⟩
        · rw [List.append_assoc _ tt, ← ht]
          exact hts
        · apply declare_readFrom
          refine ⟨⟨td, th, tn, tq, tg, _, tr, tb, tt, ?_, hd, hh, hn, hqt, hg, hl, hps, hpe, hr,
            hb, htt⟩, ha, hk⟩
          simp [List.append_assoc]
    · exact ⟨_, hts, trivial⟩

theorem named_readFrom (ih : ReadersSound w) (closing : Option Nat) {decorators : List Clause}
    {ts td : List Tree} (hw : Tree.weightAll ts ≤ w) (hd : Clause.AllReadFrom decorators td) :
    (named closing decorators ts).Yields fun found read => found.ReadFrom (td ++ read) := by
  unfold named
  obtain ⟨th, hts, hh⟩ := beginsWith_memberHead ts
  rw [MemberHead.length_tokens] at hts
  have ha : ∀ t ∈ (memberHead ts).asterisk, t.kind = .asterisk := fun t ht =>
    memberHead_asterisk ht
  simp only
  split
  · rename_i l us hdrop
    rw [hdrop] at hts
    have hus := Tree.weight_add_le_of_drop_eq_cons hdrop
    rw [Tree.weight_token] at hus
    have hl : ts = th ++ [.token l] ++ us := by simpa using hts
    split
    · exact signature_readFrom ih closing _ hl (by omega) hd hh ha (.identifier l)
    · split
      · exact signature_readFrom ih closing _ hl (by omega) hd hh ha (.literal l)
      · exact yields_unexpected _ _ _
  · rename_i opening children close us hdrop
    rw [hdrop] at hts
    have hus := Tree.weight_add_le_of_drop_eq_cons hdrop
    rw [Tree.weight_group] at hus
    apply (yields_group ih (.of_drop_eq_cons hdrop) th hts (by omega)).andThen
    rintro g r vs h hts' ⟨rfl, hg⟩
    have hvs := h.weight_lt
    exact signature_readFrom ih closing h hts' (by omega) hd hh ha hg.computed
  · exact yields_unexpected _ _ _

theorem declared_readFrom (ih : ReadersSound w) (closing : Option Nat) {decorators : List Clause}
    {ts td : List Tree} (hw : Tree.weightAll ts ≤ w) (hd : Clause.AllReadFrom decorators td) :
    (declared closing decorators ts).Yields fun found read => found.ReadFrom (td ++ read) := by
  unfold declared
  split
  · rename_i mark us
    split
    · rw [Tree.weightAll_cons, Tree.weight_token] at hw
      apply Yields.after
      apply (yields_expect .identifier _ closing us).andThen
      rintro name read vs hv hus ⟨l, -, rfl, rfl⟩
      have hvs := hv.weight_lt
      have hws : vs.drop (decoratorLength vs) <:+ us := (hv.drop _).suffix
      have hbefore := Tree.before_append hws
      have hwb := Tree.weightAll_before_le us (vs.drop (decoratorLength vs))
      have hy : (Reading.ofExcept (sequence none none
          (Tree.before us (vs.drop (decoratorLength vs)))) (vs.drop (decoratorLength vs))
          (hv.drop _)).Yields Node.AllReadFrom :=
        Yields.ofExcept _ hbefore.symm fun ns hns => ih.sequence _ _ _ _ (by omega) hns
      apply hy.andThen
      intro expression read ws hw' hus hn
      have hwt := hw'.weight_lt
      refine Yields.within read hus ?_
      have hdec := hd.snoc mark hn
      apply (ih.declared closing _ _ ws (by omega) hdec).mono
      intro found rest hf
      simpa using hf
    · exact named_readFrom ih closing hw hd
  · exact named_readFrom ih closing hw hd

theorem member_readFrom (ih : ReadersSound w) (closing : Option Nat) {ts : List Tree}
    (hw : Tree.weightAll ts ≤ w) : (member closing ts).Yields Member.ReadFrom := by
  unfold member
  generalize hc : Tree.frontToken? .semicolon ts = c
  cases c with
  | some semicolon =>
    obtain ⟨l, us, rfl, -, rfl⟩ := Tree.frontToken?_eq_some hc
    have hn := (Node.ReadFrom.token l).single
    exact ⟨[.token l], rfl, hn.other⟩
  | none =>
    apply (declared_readFrom ih closing hw .nil).andThen
    intro found read us h hts hf
    split
    · exact ⟨read, hts, hf⟩
    · apply Yields.map
      have hbefore := Tree.before_append h.suffix
      have hwb := Tree.weightAll_before_le ts us
      refine Yields.ofExcept _ hbefore.symm ?_
      intro ns hns
      have hn := sequence_readFrom ih (by omega) hns
      exact hn.other
    · apply Yields.map
      have hbefore := Tree.before_append
        (h.drop (propertyLength (Tree.before ts us).getLast? us)).suffix
      have hwb := Tree.weightAll_before_le ts
        (us.drop (propertyLength (Tree.before ts us).getLast? us))
      refine Yields.ofExcept _ hbefore.symm ?_
      intro ns hns
      have hn := sequence_readFrom ih (by omega) hns
      exact hn.other

theorem members_readFrom (ih : ReadersSound w) (closing : Option Nat) {ts : List Tree}
    {ms : List Member} (hw : Tree.weightAll ts ≤ w) (h : members closing ts = .ok ms) :
    Member.AllReadFrom ms ts := by
  unfold members at h
  split at h
  · cases h
    exact .nil
  · rename_i t us
    cases hm : member closing (t :: us) with
    | failed fault rest => simp [hm] at h
    | done m vs hf =>
      have hy := member_readFrom ih closing hw
      rw [hm] at hy
      obtain ⟨read, hts, hread⟩ := hy
      have hvs := hf.weight_lt
      cases hq : members closing vs with
      | error fault => simp [hm, hq, Except.map] at h
      | ok qs =>
        simp only [hm, hq, Except.map, Except.ok.injEq] at h
        subst h
        have hqs := ih.members _ _ _ (by omega) hq
        rw [hts]
        exact hread.cons hqs

/-- All readers do what they promise, whatever they read. -/
theorem readersSound (w : Nat) : ReadersSound w := by
  induction w with
  | zero => constructor <;> intros <;> omega
  | succ w ih =>
    constructor
    · intro closing conditional ts hw
      exact type_readFrom ih closing conditional (by omega)
    · intro closing conditional ts hw
      exact operands_readFrom ih closing conditional (by omega)
    · intro closing ts hw
      exact operand_readFrom ih closing (by omega)
    · intro closing ts hw
      exact primary_readFrom ih closing (by omega)
    · intro closing ts hw
      exact typeArgumentsRest_readFrom ih closing (by omega)
    · intro parent last ts ns hw h
      exact sequence_readFrom ih (by omega) h
    · intro closing ts ms hw h
      exact members_readFrom ih closing (by omega) h
    · intro closing decorators before ts hw hd
      exact declared_readFrom ih closing (by omega) hd
    · intro closing ts ps hw h
      exact parameters_readFrom ih closing (by omega) h

end Reader

end TwinClasses
