import TwinClasses.Proofs.Names.Fates
import TwinClasses.Proofs.Names.Types
import TwinClasses.Proofs.RoundTrip.Members

set_option autoImplicit false

/-! Dots in members and parameters. A property may end in a dot, but only at the end of its class,
and a default value only at the end of its parameter. -/

namespace TwinClasses

open Occurrence

/-! Trees that some tokens were read from end as the tokens do. -/

theorem Gap.Admits.ne_dot {g : Gap} {ts : List Token} (h : g.Admits ts) :
    ∀ t ∈ ts.getLast?, t.kind.isDot = false := by
  cases g with
  | beforeName =>
    obtain ⟨asterisk, hk, rfl⟩ := h
    intro t ht
    rw [hk t (by cases asterisk <;> simp_all)]
    rfl
  | afterName =>
    obtain ⟨mark, parameters, hk, hangle, rfl⟩ := h
    intro t ht
    obtain rfl | ⟨opening, inner, closing, -, hclosing, rfl⟩ := hangle
    · obtain hk | hk := hk t (by cases mark <;> simp_all) <;> rw [hk] <;> rfl
    · obtain rfl : closing = t := by
        rw [← List.append_assoc, List.getLast?_concat] at ht
        exact Option.some.inj ht
      rw [hclosing]
      rfl

/-- What is lost does not end in a dot. -/
theorem Fills.mem_getLast? {spots : List Spot} {written lost : List Token}
    (h : Fills spots written lost) {t : Token} (ht : t ∈ written.getLast?)
    (hdot : t.kind.isDot = true) : t ∈ (Spot.tokens spots).getLast? := by
  induction h with
  | nil => cases ht
  | @token u spots written lost h ih =>
    cases written with
    | nil =>
      have hnil : Spot.tokens spots = [] := List.sublist_nil.1 h.sublist
      rwa [Spot.tokens_token, hnil]
    | cons v written =>
      rw [List.getLast?_cons_cons] at ht
      obtain ⟨before, hbefore⟩ := List.getLast?_eq_some_iff.1 (ih ht)
      rw [Spot.tokens_token, hbefore, ← List.cons_append]
      exact List.getLast?_concat
  | @gap g ts spots written lost ha h ih =>
    rw [Spot.tokens_gap]
    cases written with
    | nil =>
      rw [List.append_nil] at ht
      rw [ha.ne_dot t ht] at hdot
      cases hdot
    | cons v written =>
      rw [List.getLast?_append_of_ne_nil _ (by simp)] at ht
      exact ih ht

theorem Stands.closed {spots : List Spot} {trees : List Tree} (h : Stands spots trees)
    (hs : ∀ t ∈ (Spot.tokens spots).getLast?, t.kind.isDot = false) : Tree.Closed trees := by
  intro tree htree
  cases tree with
  | group d opening children closing => rfl
  | token l =>
    obtain ⟨before, rfl⟩ := List.getLast?_eq_some_iff.1 htree
    obtain ⟨lost, hfills⟩ := h
    rw [Tree.tokensAll_append] at hfills
    cases hdot : l.kind.isDot with
    | false => exact hdot
    | true =>
      have hlast : l.toToken ∈ (Spot.tokens spots).getLast? :=
        hfills.mem_getLast? (by simp) hdot
      rw [hs _ hlast] at hdot
      cases hdot

/-- Tokens end as their occurrences do. -/
theorem Occurrence.Closed.tokens {os : List Occurrence} {ts : List Token} (h : Closed os)
    (hk : os.map Occurrence.kind = ts.map Token.kind) :
    ∀ t ∈ ts.getLast?, t.kind.isDot = false := by
  intro t ht
  have hlast : t.kind ∈ (os.map Occurrence.kind).getLast? := by
    rw [hk, List.getLast?_map]
    exact Option.mem_map_of_mem _ ht
  rw [List.getLast?_map] at hlast
  obtain ⟨o, ho, hkind⟩ := Option.map_eq_some_iff.1 hlast
  rw [← hkind]
  exact h o ho

theorem Node.AllReadFrom.closed {ns : List Node} {trees : List Tree} (h : AllReadFrom ns trees)
    (hw : AllWhole ns) : Tree.Closed trees := by
  apply h.1.closed
  rw [Node.tokens_outlineAll]
  apply hw.closed.tokens
  rw [(Node.suit_editsAll {} ns).kinds, Node.tokens_editsAll]

theorem Clause.OptionReadFrom.closed {c : Option Clause} {trees : List Tree}
    (h : OptionReadFrom c trees) (hw : Whole (occurrencesOption c)) : Tree.Closed trees := by
  apply h.1.closed
  rw [Clause.tokens_outlineOption]
  apply hw.closed.tokens
  rw [(Clause.suit_editsOption {} c).kinds, Clause.tokens_editsOption]

theorem Group.OptionReadFrom.closed {g : Option Group} {trees : List Tree}
    (h : OptionReadFrom g trees) (hw : Whole (occurrencesOption g)) : Tree.Closed trees := by
  apply h.1.closed
  rw [Group.tokens_outlineOption]
  apply hw.closed.tokens
  rw [(Group.suit_editsOption {} g).kinds, Group.tokens_editsOption]

theorem Reading.Gives.yields {α : Type} {ts : List Tree} {P : α → Prop} {r : Reading α ts}
    (h : r.Gives P) : r.Yields fun a _ => P a := by
  cases r with
  | done a rest hr =>
    obtain ⟨read, rfl⟩ := hr.suffix
    exact ⟨read, rfl, h⟩
  | failed fault rest => trivial

namespace Reader

open Extent Reading

variable {w : Nat} {ts us : List Tree}

/-! Parts that parameters and members share. -/

theorem clause_whole {l : Lexeme} {k : Kind} (hl : l.kind = k) (hk : k.isDot = false)
    {ns : List Node} (h : Node.AllWhole ns) :
    Whole (Clause.occurrencesOption (some ⟨l.toToken, ns⟩)) := by
  rw [Clause.occurrencesOption, Clause.occurrences]
  exact Whole.cons h (isDot_as hl _ hk)

theorem typeClause_whole (ih : ReadersLinked w) (closing : Option Nat) (h : Follows us ts)
    (hus : Fits (w + 1) us) :
    (typeClause closing us h).Gives fun c => Whole (Clause.occurrencesOption c) := by
  unfold typeClause
  generalize hc : Tree.frontToken? .colon us = c
  cases c with
  | none =>
    rw [Gives, Clause.occurrencesOption]
    exact whole_nil
  | some colon =>
    obtain ⟨l, vs, rfl, hl, rfl⟩ := Tree.frontToken?_eq_some hc
    apply Gives.map
    apply Gives.within
    apply (ih.type closing true vs hus.tail).mono
    intro ns hn
    exact clause_whole hl rfl hn

theorem body_whole (ih : ReadersLinked w) (h : Follows us ts) (hus : Fits (w + 1) us) :
    (body us h).Gives fun g => Whole (Group.occurrencesOption g) := by
  unfold body
  split
  · apply Gives.map
    apply Gives.ofExcept
    intro g hg
    rw [Group.occurrencesOption]
    exact (group_whole ih hus hg).1
  · rw [Gives, Group.occurrencesOption]
    exact whole_nil

/-- A default value is linked, but it may end in a dot. -/
theorem initializer_linked (ih : ReadersLinked w) (h : Follows us ts) (hus : Fits (w + 1) us) :
    (initializer us h).Gives fun c => Linked (Clause.occurrencesOption c) := by
  unfold initializer
  generalize hc : Tree.frontToken? .equals us = c
  cases c with
  | none =>
    rw [Gives, Clause.occurrencesOption]
    exact linked_nil
  | some equals =>
    obtain ⟨l, vs, rfl, hl, rfl⟩ := Tree.frontToken?_eq_some hc
    apply Gives.map
    apply Gives.ofExcept
    intro ns hns
    have hs := ih.sequence _ _ _ _ (hus.tail.take _) hns
    rw [Clause.occurrencesOption, Clause.occurrences]
    apply hs.linked.cons
    intro hdot
    rw [isDot_as hl .other rfl] at hdot
    cases hdot

/-- Tokens of a certain kind, or none. -/
theorem option_whole {t : Option Token} {k : Kind} (h : ∀ u ∈ t, u.kind = k)
    (hk : k.isDot = false) : Whole (t.toList.map (Token.as .other)) := by
  apply whole_map
  intro u hu
  rw [h u (by simpa using hu), hk]

theorem option_starts {t : Option Token} {k : Kind} (h : ∀ u ∈ t, u.kind = k)
    (hk : k ≠ .identifier) : Starts (t.toList.map (Token.as .other)) := by
  cases t with
  | none => simp [Starts]
  | some t =>
    refine starts_as ?_ _ _
    rwa [h t rfl]

/-! Parameters. -/

theorem kinds_of_mem_modifiersOfParameter (ts : List Tree) :
    ∀ t ∈ modifiersOfParameter ts, t.kind = .identifier := by
  fun_induction modifiersOfParameter ts with
  | case1 l ts h ih =>
    simp only [Bool.and_eq_true, decide_eq_true_eq] at h
    exact List.forall_mem_cons.2 ⟨h.1.1, ih⟩
  | case2 l ts h => simp
  | case3 ts h => simp

/-- What is read first is closed, or nothing comes behind it. -/
theorem linked_append_rest {os ps : List Occurrence} {read rest : List Tree} (ho : Linked os)
    (hts : ts = read ++ rest) (hc : read = ts ∨ Closed os) (hp : Linked ps)
    (hnil : rest = [] → ps = []) : Linked (os ++ ps) := by
  obtain rfl | hc := hc
  · obtain rfl := hnil (List.self_eq_append_right.1 hts)
    rwa [List.append_nil]
  · exact ho.append_of_closed hc hp

/-- A parameter with nothing behind it may end in a dot, one with a comma does not. -/
theorem bound_linked (ih : ReadersLinked w) (closing : Option Nat) {modifiers : List Token}
    {rest : Option Token} {binding : Binding} (h : Follows us ts) (hts : Fits (w + 1) ts)
    (hfront : Whole (modifiers.map (Token.as .other) ++ rest.toList.map (Token.as .other) ++
      binding.occurrences)) :
    (bound closing modifiers rest binding us h).Yields fun p read =>
      Linked p.occurrences ∧ (read = ts ∨ Closed p.occurrences) := by
  unfold bound
  simp only
  have hquestion : Whole ((Tree.frontToken? .question us).toList.map (Token.as .other)) :=
    option_whole (fun _ => Tree.frontToken?_kind) rfl
  have hdrop := (hts.of_follows h).succ.drop (Tree.frontToken? .question us).toList.length
  apply (typeClause_whole ih closing (h.drop _) hdrop).yields.andThen
  intro type _ vs hvs _ htype
  apply (initializer_linked ih hvs (hts.of_follows hvs).succ).yields.andThen
  intro value read xs hxs heq hvalue
  have hwhole := (hfront.append hquestion).append htype
  have hlinked := hwhole.linked.append_of_closed hwhole.closed hvalue
  split
  · exact yields_unexpected _ _ _
  · rename_i hrest
    have hkind : ∀ t ∈ Tree.frontToken? .comma xs, t.kind = .comma :=
      fun _ => Tree.frontToken?_kind
    refine ⟨read ++ xs.take (Tree.frontToken? .comma xs).toList.length, ?_, ?_, ?_⟩
    · rw [List.append_assoc, List.take_append_drop]
      exact heq
    · rw [Parameter.occurrences]
      exact hlinked.append_of_starts (option_whole hkind rfl).linked
        (option_starts hkind (by decide))
    · rw [Parameter.occurrences]
      cases hc : Tree.frontToken? .comma xs with
      | none =>
        obtain rfl : xs = [] := by simpa [hc] using hrest
        exact .inl (by simpa using heq.symm)
      | some comma =>
        rw [hc] at hkind
        exact .inr ((option_whole hkind rfl).closed.append_left (by simp) _)

theorem parameter_linked (ih : ReadersLinked w) (closing : Option Nat) (h : Fits (w + 1) ts) :
    (parameter closing ts).Yields fun p read =>
      Linked p.occurrences ∧ (read = ts ∨ Closed p.occurrences) := by
  unfold parameter
  simp only
  have hmodifiers : Whole ((modifiersOfParameter ts).map (Token.as .other)) := by
    apply whole_map
    intro t ht
    rw [kinds_of_mem_modifiersOfParameter ts t ht]
    rfl
  have hfront := hmodifiers.append (option_whole (k := .ellipsis)
    (t := Tree.frontToken? .ellipsis (ts.drop (modifiersOfParameter ts).length))
    (fun _ => Tree.frontToken?_kind) rfl)
  split
  · rename_i l us hdrop
    split
    · rename_i hl
      apply bound_linked ih closing _ h
      rw [Binding.occurrences]
      exact hfront.append (whole_single (isDot_as hl .other rfl))
    · exact yields_unexpected _ _ _
  · rename_i d opening children close us hdrop
    split
    · exact yields_unexpected _ _ _
    · have hgroup := hdrop ▸ h.drop _
      refine (Gives.yields (P := fun g => Whole g.occurrences) ?_).andThen ?_
      · exact Gives.ofExcept fun g hg => (group_whole ih hgroup hg).1
      · intro g read vs hvs _ hg
        apply bound_linked ih closing hvs h
        rw [Binding.occurrences]
        exact hfront.append hg
  · exact yields_unexpected _ _ _

theorem parameters_linked (ih : ReadersLinked w) (closing : Option Nat) (h : Fits (w + 1) ts)
    {ps : List Parameter} (hp : parameters closing ts = .ok ps) :
    Linked (Parameter.occurrencesAll ps) := by
  unfold parameters at hp
  split at hp
  · cases hp
    rw [Parameter.occurrencesAll]
    exact linked_nil
  · rename_i t us
    cases hr : parameter closing (t :: us) with
    | failed fault rest => simp [hr] at hp
    | done p vs hf =>
      have hy := parameter_linked ih closing h
      rw [hr] at hy
      obtain ⟨read, hts, hlinked, hclosed⟩ := hy
      cases hq : parameters closing vs with
      | error fault => simp [hr, hq, Except.map] at hp
      | ok qs =>
        simp only [hr, hq, Except.map, Except.ok.injEq] at hp
        subst hp
        rw [Parameter.occurrencesAll]
        refine linked_append_rest hlinked hts hclosed
          (ih.parameters _ _ _ (h.of_follows hf) hq) ?_
        rintro rfl
        unfold parameters at hq
        cases hq
        rw [Parameter.occurrencesAll]

/-! Members. -/

theorem kinds_of_mem_modifiersOfMember (ts : List Tree) :
    ∀ t ∈ modifiersOfMember ts, t.kind = .identifier := by
  fun_induction modifiersOfMember ts with
  | case1 l ts h ih =>
    simp only [Bool.and_eq_true, decide_eq_true_eq] at h
    exact List.forall_mem_cons.2 ⟨h.1.1, ih⟩
  | case2 l ts h => simp
  | case3 ts h => simp

theorem accessorWord?_kind {t : Token} (h : t ∈ accessorWord? ts) : t.kind = .identifier := by
  unfold accessorWord? at h
  split at h
  · split at h
    · rename_i hword
      cases h
      simp only [Bool.and_eq_true, Bool.or_eq_true, Token.isWord, decide_eq_true_eq] at hword
      obtain ⟨⟨hk, -⟩ | ⟨hk, -⟩, -⟩ := hword <;> exact hk
    · cases h
  · cases h

/-- No dot stands in front of a member's name, but in a decorator. -/
structure HeadWhole (decorators : List Clause) (head : MemberHead) : Prop where
  decorators : Whole (Clause.occurrencesAll decorators)
  modifiers : Whole (head.modifiers.map (Token.as .other))
  accessor : ∀ t ∈ head.accessor, t.kind = .identifier
  asterisk : Whole (head.asterisk.toList.map (Token.as .other))

theorem headWhole_memberHead {decorators : List Clause}
    (hd : Whole (Clause.occurrencesAll decorators)) (ts : List Tree) :
    HeadWhole decorators (memberHead ts) where
  decorators := hd
  modifiers := by
    apply whole_map
    intro t ht
    rw [kinds_of_mem_modifiersOfMember ts t ht]
    rfl
  accessor _ := accessorWord?_kind
  asterisk := option_whole (fun _ => memberHead_asterisk) rfl

section

variable {decorators : List Clause} {head : MemberHead} {name : MemberName}
  {question : Option Token} {generics : List Node} {parameters : ParameterList}
  {returnType : Option Clause} {body : Option Group} {terminator : Option Token}

theorem declare_whole (hh : HeadWhole decorators head) (hn : Whole name.occurrences)
    (hq : Whole (question.toList.map (Token.as .other))) (hg : Node.AllWhole generics)
    (hp : Whole parameters.occurrences) (hr : Whole (Clause.occurrencesOption returnType))
    (hb : Whole (Group.occurrencesOption body))
    (ht : Whole (terminator.toList.map (Token.as .other))) :
    (declare decorators head name question generics parameters returnType body
      terminator).IsWhole := by
  have hfront := hh.decorators.append hh.modifiers
  unfold declare
  split
  · trivial
  · split
    · rw [Declared.IsWhole, Member.occurrences, Method.occurrences_hoistLeading,
        Method.occurrences]
      exact (((((((hfront.append hh.asterisk).append hn).append hq).append hg).append hp).append
        hr).append hb).append ht
    · rename_i keyword hacc
      split
      · have hname := hn.cons (isDot_as (hh.accessor keyword hacc) .other rfl)
        rw [Declared.IsWhole, Member.occurrences, Getter.occurrences_hoistLeading,
          Getter.occurrences]
        exact ((((hfront.append hname).append hp).append hr).append hb).append ht
      · trivial

end

theorem typeParameters_ends (ih : ReadersLinked w) (closing : Option Nat) (h : Fits (w + 1) ts) :
    (typeParameters closing ts).Yields fun ns read => Tree.Closed read ∧ Node.AllWhole ns := by
  apply ((typeParameters_readFrom (readersSound _) closing le_rfl).and
    (typeParameters_whole ih closing h).yields).mono
  rintro ns read ⟨⟨hread, -⟩, hn⟩
  exact ⟨hread.closed hn, hn⟩

theorem typeClause_ends (ih : ReadersLinked w) (closing : Option Nat) (h : Follows us ts)
    (hus : Fits (w + 1) us) {before : List Tree} (hts : ts = before ++ us)
    (hbefore : Tree.Ends before) : (typeClause closing us h).Yields fun c read =>
      Tree.Ends read ∧ Whole (Clause.occurrencesOption c) := by
  apply ((typeClause_readFrom (readersSound _) closing before h hts le_rfl).and
    (typeClause_whole ih closing h hus).yields).mono
  rintro c _ ⟨⟨read, rfl, hread⟩, hc⟩
  exact ⟨hbefore.append (hread.closed hc), hc⟩

theorem body_ends (ih : ReadersLinked w) (h : Follows us ts) (hus : Fits (w + 1) us)
    {before : List Tree} (hts : ts = before ++ us) (hbefore : Tree.Ends before) :
    (body us h).Yields fun g read => Tree.Ends read ∧ Whole (Group.occurrencesOption g) := by
  apply ((body_readFrom (readersSound _) before h hts le_rfl).and
    (body_whole ih h hus).yields).mono
  rintro g _ ⟨⟨read, rfl, hread⟩, hg⟩
  exact ⟨hbefore.append (hread.closed hg), hg⟩

/-- The mark after a name, or none. -/
theorem question_ends (us : List Tree) :
    Tree.Closed (us.take ((Tree.frontToken? .question us).or
      (Tree.frontToken? .bang us)).toList.length) := by
  cases h : Tree.frontToken? .question us with
  | none => exact Tree.closed_take_frontToken? rfl us
  | some t =>
    have hq := Tree.closed_take_frontToken? (k := .question) rfl us
    rwa [h] at hq

theorem terminator_ends (body : Option Group) (us : List Tree) :
    Tree.Closed (us.take (if body.isSome then none
      else Tree.frontToken? .semicolon us).toList.length) := by
  split
  · exact Tree.closed_nil
  · exact Tree.closed_take_frontToken? rfl us

theorem signature_whole (ih : ReadersLinked w) (closing : Option Nat) {decorators : List Clause}
    {head : MemberHead} {name : MemberName} {before : List Tree} (h : Follows us ts)
    (hts : ts = before ++ us) (hfits : Fits (w + 1) ts) (hbefore : Tree.Ends before)
    (hh : HeadWhole decorators head) (hn : Whole name.occurrences) :
    (signature closing decorators head name us h).Yields fun found read =>
      Tree.Ends read ∧ found.IsWhole := by
  unfold signature
  extract_lets question us'
  have hquestion : Whole (question.toList.map (Token.as .other)) := by
    apply whole_map
    intro t ht
    have hkind : t.kind = .question ∨ t.kind = .bang := question_kind (Option.mem_toList.1 ht)
    obtain hk | hk := hkind <;> rw [hk] <;> rfl
  have hmarked : Tree.Ends (before ++ us.take question.toList.length) :=
    hbefore.append (question_ends us)
  have hts' : ts = before ++ us.take question.toList.length ++ us' := by
    rw [List.append_assoc, List.take_append_drop]
    exact hts
  refine Yields.andThen (P := fun ns read => Tree.Ends read ∧ Node.AllWhole ns) ?_ ?_
  · split
    · refine Yields.within _ hts' ?_
      apply (typeParameters_ends ih closing ((hfits.of_follows h).succ.drop _)).mono
      intro ns read hr
      exact ⟨hmarked.append hr.1, hr.2⟩
    · refine ⟨_, hts', hmarked, .nil⟩
  · rintro generics read vs h hts ⟨hread, hg⟩
    split
    · rename_i opening children close vs h
      split
      · trivial
      · rename_i items hitems
        obtain ⟨hopen, hclose, hchildren⟩ :=
          (hfits.of_isInfix (hts ▸ (List.suffix_append _ _).isInfix)).group
        have hlist := enclosed_whole hopen hclose (ih.parameters _ _ _ hchildren hitems)
        have hlisted : Tree.Ends (read ++ [.group .paren opening children close]) :=
          (Tree.ends_single rfl).append_left read
        apply (typeClause_ends ih closing h.tail (hfits.of_follows h.tail).succ
          (by simp [hts]) hlisted).andThen
        rintro returnType read xs hx hts ⟨hread, hr⟩
        apply (body_ends ih hx (hfits.of_follows hx).succ hts hread).andThen
        rintro body read ys hy hts ⟨hread, hb⟩
        refine ⟨read ++ ys.take _, ?_, hread.append (terminator_ends body ys), ?_⟩
        · rw [List.append_assoc, List.take_append_drop]
          exact hts
        · refine declare_whole hh hn hquestion hg ?_ hr hb (whole_map _ ?_)
          · rwa [ParameterList.occurrences]
          · intro t ht
            split at ht
            · simp at ht
            · rw [Tree.frontToken?_kind (by simpa using ht)]
              rfl
    · exact ⟨_, hts, hread, trivial⟩

theorem named_whole (ih : ReadersLinked w) (closing : Option Nat) {decorators : List Clause}
    (h : Fits (w + 1) ts) (hd : Whole (Clause.occurrencesAll decorators)) :
    (named closing decorators ts).Yields fun found read => Tree.Ends read ∧ found.IsWhole := by
  unfold named
  obtain ⟨th, hts, -⟩ := beginsWith_memberHead ts
  rw [MemberHead.length_tokens] at hts
  have hh := headWhole_memberHead hd ts
  simp only
  split
  · rename_i l us hdrop
    rw [hdrop] at hts
    have hl : ts = th ++ [.token l] ++ us := by simpa using hts
    have hname : ∀ {k : Kind}, l.kind = k → k.isDot = false →
        Tree.Ends (th ++ [.token l]) ∧ Whole [l.toToken.as .other] := by
      rintro k rfl hk
      have hends : Tree.Ends [.token l] := Tree.ends_single hk
      exact ⟨hends.append_left th, whole_single hk⟩
    split
    · rename_i hk
      obtain ⟨hends, hwhole⟩ := hname hk rfl
      apply signature_whole ih closing _ hl h hends hh
      rwa [MemberName.occurrences]
    · split
      · rename_i hk
        have hdot : l.kind.isDot = false := by
          simp only [List.mem_cons, List.not_mem_nil, or_false] at hk
          obtain hk | hk | hk := hk <;> rw [hk] <;> rfl
        obtain ⟨hends, hwhole⟩ := hname rfl hdot
        apply signature_whole ih closing _ hl h hends hh
        rwa [MemberName.occurrences]
      · exact yields_unexpected _ _ _
  · rename_i opening children close us hdrop
    have hfits := hdrop ▸ h.drop (memberHead ts).length
    rw [hdrop] at hts
    refine Yields.andThen (P := fun g read => Tree.Ends read ∧ Whole g.occurrences) ?_ ?_
    · refine Yields.ofExcept (th ++ [.group .bracket opening children close])
        (by simpa using hts) ?_
      intro g hg
      exact ⟨(Tree.ends_single rfl).append_left th, (group_whole ih hfits hg).1⟩
    · rintro g read vs hvs hts' ⟨hends, hg⟩
      apply signature_whole ih closing hvs hts' h hends hh
      rwa [MemberName.occurrences]
  · exact yields_unexpected _ _ _

theorem declared_whole (ih : ReadersLinked w) (closing : Option Nat) {decorators : List Clause}
    (h : Fits (w + 1) ts) (hd : Whole (Clause.occurrencesAll decorators)) :
    (declared closing decorators ts).Yields fun found read => Tree.Ends read ∧ found.IsWhole := by
  unfold declared
  split
  · rename_i mark us
    split
    · rename_i hmark
      apply Yields.after
      apply (yields_expect .identifier _ closing us).andThen
      rintro name read vs hv rfl ⟨l, hl, rfl, rfl⟩
      have hbefore := Tree.before_append (hv.drop (decoratorLength vs)).suffix
      -- The expression of the decorator is the name and what is chained to it.
      have htaken : Tree.before ([.token l] ++ vs) (vs.drop (decoratorLength vs)) =
          [.token l] ++ vs.take (decoratorLength vs) :=
        Tree.before_eq (by rw [List.append_assoc, List.take_append_drop])
      have hname : Tree.Ends [.token l] := Tree.ends_single (by simp [Tree.isDot, Kind.isDot, hl])
      have hclosed := (hname.append (closed_take_decoratorLength vs)).closed
      refine Yields.andThen (P := fun ns _ => Node.AllWhole ns)
        (Yields.ofExcept _ hbefore.symm ?_) ?_
      · intro ns hns
        rw [htaken] at hns
        have htake : [.token l] ++ vs.take (decoratorLength vs) <:+: [.token l] ++ vs :=
          ((List.prefix_append_right_inj _).2 (List.take_prefix _ vs)).isInfix
        have hs := ih.sequence _ _ _ _ (h.tail.of_isInfix htake) hns
        exact ⟨hs.linked, hs.closed hclosed⟩
      · intro expression read ws hws hts hn
        refine Yields.within read hts ?_
        have hdecorators : Whole (Clause.occurrencesAll
            (decorators ++ [⟨mark.toToken, expression⟩])) := by
          rw [Clause.occurrencesAll_append]
          refine hd.append ?_
          rw [Clause.occurrencesAll, Clause.occurrencesAll, Clause.occurrences, List.append_nil]
          exact Whole.cons hn (isDot_as hmark .other rfl)
        apply (ih.declared closing _ ws (h.tail.of_isInfix hws.suffix.isInfix) hdecorators).mono
        rintro found rest ⟨hends, hfound⟩
        exact ⟨(hends.append_left read).cons _, hfound⟩
    · exact named_whole ih closing h hd
  · exact named_whole ih closing h hd

/-- A member with nothing behind it may end in a dot. -/
theorem member_linked (ih : ReadersLinked w) (closing : Option Nat) (h : Fits (w + 1) ts) :
    (member closing ts).Yields fun m read =>
      Linked m.occurrences ∧ (read = ts ∨ Closed m.occurrences) := by
  have hnone : Whole (Clause.occurrencesAll []) := by
    rw [Clause.occurrencesAll]
    exact whole_nil
  unfold member
  generalize hc : Tree.frontToken? .semicolon ts = c
  cases c with
  | some semicolon =>
    obtain ⟨l, us, rfl, hl, rfl⟩ := Tree.frontToken?_eq_some hc
    have hsingle : Node.AllWhole [.token l.toToken] := .token hl rfl .nil
    have hmember : Whole (Member.other [.token l.toToken]).occurrences := by
      rwa [Member.occurrences]
    exact ⟨[.token l], rfl, hmember.linked, .inr hmember.closed⟩
  | none =>
    apply (declared_whole ih closing h hnone).andThen
    rintro found read us hus hts ⟨hends, hfound⟩
    split
    · rename_i m
      exact ⟨read, hts, hfound.linked, .inr hfound.closed⟩
    · apply Yields.map
      refine Yields.ofExcept read hts ?_
      intro ns hns
      rw [Tree.before_eq hts] at hns
      have hs := sequence_linked ih (h.of_isInfix (hts ▸ (List.prefix_append _ _).isInfix)) hns
      rw [Member.occurrences]
      exact ⟨hs.linked, .inr (hs.closed hends.closed)⟩
    · apply Yields.map
      simp only [Tree.before_eq hts]
      have hrest : ts = read ++ us.take (propertyLength read.getLast? us) ++
          us.drop (propertyLength read.getLast? us) := by
        rw [List.append_assoc, List.take_append_drop]
        exact hts
      refine Yields.ofExcept _ hrest ?_
      intro ns hns
      rw [Tree.before_eq hrest] at hns
      have hs := sequence_linked ih (h.of_isInfix (hrest ▸ (List.prefix_append _ _).isInfix)) hns
      rw [Member.occurrences]
      refine ⟨hs.linked, ?_⟩
      obtain hend | hclosed := closed_take_propertyLength read.getLast? us
      · rw [hend, List.append_nil] at hrest
        exact .inl hrest.symm
      · exact .inr (hs.closed hclosed.of_getLast?)

theorem members_linked (ih : ReadersLinked w) (closing : Option Nat) (h : Fits (w + 1) ts)
    {ms : List Member} (hm : members closing ts = .ok ms) :
    Linked (Member.occurrencesAll ms) := by
  unfold members at hm
  split at hm
  · cases hm
    rw [Member.occurrencesAll]
    exact linked_nil
  · rename_i t us
    cases hr : member closing (t :: us) with
    | failed fault rest => simp [hr] at hm
    | done m vs hf =>
      have hy := member_linked ih closing h
      rw [hr] at hy
      obtain ⟨read, hts, hlinked, hclosed⟩ := hy
      cases hq : members closing vs with
      | error fault => simp [hr, hq, Except.map] at hm
      | ok qs =>
        simp only [hr, hq, Except.map, Except.ok.injEq] at hm
        subst hm
        rw [Member.occurrencesAll]
        refine linked_append_rest hlinked hts hclosed (ih.members _ _ _ (h.of_follows hf) hq) ?_
        rintro rfl
        unfold members at hq
        cases hq
        rw [Member.occurrencesAll]

theorem readersLinked (w : Nat) : ReadersLinked w := by
  induction w with
  | zero =>
    have hnone : ∀ ts, ¬ Fits 0 ts := fun ts h => Nat.not_lt_zero _ h.weight
    constructor <;> intros <;> exact absurd ‹Fits 0 _› (hnone _)
  | succ w ih =>
    constructor
    · intro closing conditional ts h
      exact type_whole ih closing conditional h
    · intro closing conditional ts h
      exact operands_whole ih closing conditional h
    · intro closing ts h
      exact operand_whole ih closing h
    · intro closing ts h
      exact primary_whole ih closing h
    · intro closing ts h
      exact typeArgumentsRest_whole ih closing h
    · intro parent last ts ns h hs
      exact sequence_linked ih h hs
    · intro closing ts ms h hm
      exact members_linked ih closing h hm
    · intro closing decorators ts h hd
      exact declared_whole ih closing h hd
    · intro closing ts ps h hp
      exact parameters_linked ih closing h hp

end Reader

end TwinClasses
