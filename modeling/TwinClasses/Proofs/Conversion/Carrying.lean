import TwinClasses.Expansion.SyncForm
import TwinClasses.Proofs.Success
import TwinClasses.Proofs.Traversal

set_option autoImplicit false

/-! What conversion carries over. If each way to convert a node turns a property that all nodes of a
tree have into another, all nodes of the converted tree have the other. -/

namespace TwinClasses

/-- Each way to convert a node that has the property `q` gives a node with the property `p`. What is
inside of a type reference counts, too, since the arguments it keeps are converted with it. -/
structure TypeTable.Carries (types : TypeTable) (q p : Node → Prop) : Prop where
  token : ∀ t, q (.token t) → p (.token (types.rename t))
  group : ∀ g g', q (.group g) → p (.group g')
  classDecl : ∀ c c', q (.classDecl c) → c'.keyword = c.keyword → p (.classDecl c')
  forOf : ∀ keyword awaiting head head', q (.forOf keyword awaiting head) →
    p (.forOf keyword none head')
  access : ∀ object dot name, q (.access object dot name) → isAsyncIterator object name = false →
    p (.access (types.rename object) dot name)
  iterator : ∀ object dot name, q (.access object dot name) → isAsyncIterator object name = true →
    p (.access object dot (name.spelled "iterator"))
  qualified : ∀ member name dot path arguments arguments',
    (Node.typeRef ⟨name, dot :: path, arguments⟩).Every q →
      arguments.mapM (TypeArguments.toSync types member) = .ok arguments' →
        p (.typeRef ⟨name, dot :: path, arguments'⟩)
  typeRef : ∀ member name arguments arguments', (Node.typeRef ⟨name, [], arguments⟩).Every q →
    arguments.mapM (TypeArguments.toSync types member) = .ok arguments' →
      types.unwraps name.text = false → p (.typeRef ⟨types.rename name, [], arguments'⟩)
  takeOver : ∀ dropped n, p n → p (n.mapFirst (Token.takeOver dropped))

section

variable {types : TypeTable} {member : String} {q p : Node → Prop}

theorem ClassDecl.keyword_toSync {c c' : ClassDecl} (h : c.toSync types member = .ok c') :
    c'.keyword = c.keyword := by
  obtain ⟨keyword, name, heritage, opening, members, closing, isExpression⟩ := c
  simp only [ClassDecl.toSync, ok_bind, ok_pure] at h
  obtain ⟨ms, -, ns, -, rfl⟩ := h
  rfl

theorem TypeArguments.mapM_toSync_eq_ok {a : TypeArguments} {arguments : Option TypeArguments} :
    (some a).mapM (toSync types member) = .ok arguments ↔
      ∃ a', a.toSync types member = .ok a' ∧ some a' = arguments := by
  rw [Option.mapM_some, map_eq_pure_bind, ok_bind]
  exact exists_congr fun a' => and_congr_right fun _ => (ok_pure _ _).trans eq_comm

mutual

theorem Node.carry_toSync (hp : types.Carries q p) :
    ∀ (n : Node) (ms : List Node), n.Every q →
      n.toSync types member = .ok ms → Node.EveryOf p ms
  | .token t => by
    intro ms hq h
    rw [Node.Every] at hq
    simp only [Node.toSync, Except.ok.injEq] at h
    subst h
    simp only [Node.EveryOf, Node.Every]
    exact ⟨hp.token t hq, trivial⟩
  | .group g => by
    intro ms hq h
    rw [Node.Every] at hq
    simp only [Node.toSync, ok_bind, ok_pure] at h
    obtain ⟨g', hg, rfl⟩ := h
    simp only [Node.EveryOf, Node.Every]
    exact ⟨⟨hp.group g g' hq.1, Group.carry_toSync hp g _ hq.2 hg⟩, trivial⟩
  | .classDecl c => by
    intro ms hq h
    rw [Node.Every] at hq
    simp only [Node.toSync, ok_bind, ok_pure] at h
    obtain ⟨c', hc, rfl⟩ := h
    simp only [Node.EveryOf, Node.Every]
    have hkeyword := ClassDecl.keyword_toSync hc
    exact ⟨⟨hp.classDecl c c' hq.1 hkeyword, ClassDecl.carry_toSync hp c _ hq.2 hc⟩, trivial⟩
  | .forOf keyword none head => by
    intro ms hq h
    rw [Node.Every] at hq
    simp only [Node.toSync, ok_bind, ok_pure] at h
    obtain ⟨head', hh, rfl⟩ := h
    simp only [Node.EveryOf, Node.Every]
    exact ⟨⟨hp.forOf keyword none head head' hq.1, Group.carry_toSync hp head _ hq.2 hh⟩, trivial⟩
  | .forOf keyword (some awaiting) head => by
    intro ms hq h
    rw [Node.Every] at hq
    simp only [Node.toSync, ok_bind, ok_pure] at h
    obtain ⟨head', hh, rfl⟩ := h
    have hg := Group.carry_toSync hp head _ hq.2 hh
    obtain ⟨d, opening, children, closing⟩ := head'
    simp only [Node.EveryOf, Node.Every]
    exact ⟨⟨hp.forOf keyword (some awaiting) head _ hq.1, hg⟩, trivial⟩
  | .await keyword operand => by
    intro ms hq h
    rw [Node.Every] at hq
    simp only [Node.toSync, ok_bind, ok_pure] at h
    obtain ⟨ns, hn, rfl⟩ := h
    exact Node.everyOf_takeOver (hp.takeOver _) (Node.carry_toSyncAll hp operand _ hq.2 hn)
  | .access object dot name => by
    intro ms hq h
    rw [Node.Every] at hq
    rw [Node.toSync] at h
    split at h
    · rename_i hi
      cases h
      simp only [Node.EveryOf, Node.Every]
      exact ⟨hp.iterator object dot name hq hi, trivial⟩
    · rename_i hi
      cases h
      simp only [Node.EveryOf, Node.Every]
      exact ⟨hp.access object dot name hq (by simpa using hi), trivial⟩
  | .typeRef r => by
    intro ms hq h
    rw [Node.toSync] at h
    exact TypeRef.carry_toSync hp r _ hq h

theorem Node.carry_toSyncAll (hp : types.Carries q p) :
    ∀ (ns : List Node) (ms : List Node), Node.EveryOf q ns →
      Node.toSyncAll types member ns = .ok ms → Node.EveryOf p ms
  | [] => by
    intro ms hq h
    simp only [Node.toSyncAll, Except.ok.injEq] at h
    subst h
    rw [Node.EveryOf]
    trivial
  | n :: ns => by
    intro ms hq h
    rw [Node.EveryOf] at hq
    simp only [Node.toSyncAll, ok_bind, ok_pure] at h
    obtain ⟨ks, hk, ls, hl, rfl⟩ := h
    exact (Node.everyOf_append ks ls).2
      ⟨Node.carry_toSync hp n _ hq.1 hk, Node.carry_toSyncAll hp ns _ hq.2 hl⟩

theorem Group.carry_toSync (hp : types.Carries q p) :
    ∀ (g : Group) (g' : Group), g.Every q →
      g.toSync types member = .ok g' → g'.Every p
  | ⟨d, opening, children, closing⟩ => by
    intro g' hq h
    rw [Group.Every] at hq
    simp only [Group.toSync, ok_bind, ok_pure] at h
    obtain ⟨ns, hn, rfl⟩ := h
    rw [Group.Every]
    exact Node.carry_toSyncAll hp children _ hq hn

theorem Group.carry_toSyncOption (hp : types.Carries q p) :
    ∀ (g : Option Group) (g' : Option Group), Group.EveryIn q g →
      Group.toSyncOption types member g = .ok g' → Group.EveryIn p g'
  | none => by
    intro g' hq h
    simp only [Group.toSyncOption, Except.ok.injEq] at h
    subst h
    rw [Group.EveryIn]
    trivial
  | some g => by
    intro g' hq h
    rw [Group.EveryIn] at hq
    simp only [Group.toSyncOption, ok_bind, ok_pure] at h
    obtain ⟨k, hk, rfl⟩ := h
    rw [Group.EveryIn]
    exact Group.carry_toSync hp g _ hq hk

theorem Clause.carry_toSync (hp : types.Carries q p) :
    ∀ (c : Clause) (c' : Clause), c.Every q →
      c.toSync types member = .ok c' → c'.Every p
  | ⟨mark, content⟩ => by
    intro c' hq h
    rw [Clause.Every] at hq
    simp only [Clause.toSync, ok_bind, ok_pure] at h
    obtain ⟨ns, hn, rfl⟩ := h
    rw [Clause.Every]
    exact Node.carry_toSyncAll hp content _ hq hn

theorem Clause.carry_toSyncAll (hp : types.Carries q p) :
    ∀ (cs : List Clause) (cs' : List Clause), Clause.EveryOf q cs →
      Clause.toSyncAll types member cs = .ok cs' → Clause.EveryOf p cs'
  | [] => by
    intro cs' hq h
    simp only [Clause.toSyncAll, Except.ok.injEq] at h
    subst h
    rw [Clause.EveryOf]
    trivial
  | c :: cs => by
    intro cs' hq h
    rw [Clause.EveryOf] at hq
    simp only [Clause.toSyncAll, ok_bind, ok_pure] at h
    obtain ⟨k, hk, ls, hl, rfl⟩ := h
    rw [Clause.EveryOf]
    exact ⟨Clause.carry_toSync hp c _ hq.1 hk, Clause.carry_toSyncAll hp cs _ hq.2 hl⟩

theorem Clause.carry_toSyncOption (hp : types.Carries q p) :
    ∀ (c : Option Clause) (c' : Option Clause), Clause.EveryIn q c →
      Clause.toSyncOption types member c = .ok c' → Clause.EveryIn p c'
  | none => by
    intro c' hq h
    simp only [Clause.toSyncOption, Except.ok.injEq] at h
    subst h
    rw [Clause.EveryIn]
    trivial
  | some c => by
    intro c' hq h
    rw [Clause.EveryIn] at hq
    simp only [Clause.toSyncOption, ok_bind, ok_pure] at h
    obtain ⟨k, hk, rfl⟩ := h
    rw [Clause.EveryIn]
    exact Clause.carry_toSync hp c _ hq hk

theorem TypeRef.carry_toSync (hp : types.Carries q p) :
    ∀ (r : TypeRef) (ms : List Node), (Node.typeRef r).Every q →
      r.toSync types member = .ok ms → Node.EveryOf p ms
  | ⟨name, dot :: path, none⟩ => by
    intro ms hq h
    simp only [TypeRef.toSync, Except.ok.injEq] at h
    subst h
    simp only [Node.EveryOf, Node.Every, TypeRef.Every, TypeArguments.EveryIn]
    exact ⟨⟨hp.qualified member name dot path none none hq rfl, trivial⟩, trivial⟩
  | ⟨name, dot :: path, some arguments⟩ => by
    intro ms hq h
    simp only [TypeRef.toSync, ok_bind, ok_pure] at h
    obtain ⟨as, ha, rfl⟩ := h
    have hconverts := TypeArguments.mapM_toSync_eq_ok.2 ⟨as, ha, rfl⟩
    simp only [Node.EveryOf, Node.Every, TypeRef.Every, TypeArguments.EveryIn]
    exact ⟨⟨hp.qualified member name dot path _ _ hq hconverts,
      TypeArguments.carry_toSync hp arguments _ hq.every_arguments ha⟩, trivial⟩
  | ⟨name, [], none⟩ => by
    intro ms hq h
    rw [TypeRef.toSync] at h
    split at h
    · cases h
    · rename_i hu
      cases h
      simp only [Node.EveryOf, Node.Every, TypeRef.Every, TypeArguments.EveryIn]
      exact ⟨⟨hp.typeRef member name none none hq rfl (by simpa using hu), trivial⟩, trivial⟩
  | ⟨name, [], some arguments⟩ => by
    intro ms hq h
    rw [TypeRef.toSync] at h
    split at h
    · simp only [ok_bind] at h
      obtain ⟨found, hf, h⟩ := h
      cases found with
      | none => cases h
      | some ns =>
        cases h
        exact Node.everyOf_takeOver (hp.takeOver _)
          (TypeArguments.carry_firstToSync hp arguments _ hq.every_arguments hf)
    · rename_i hu
      simp only [ok_bind, ok_pure] at h
      obtain ⟨as, ha, rfl⟩ := h
      have hconverts := TypeArguments.mapM_toSync_eq_ok.2 ⟨as, ha, rfl⟩
      simp only [Node.EveryOf, Node.Every, TypeRef.Every, TypeArguments.EveryIn]
      exact ⟨⟨hp.typeRef member name _ _ hq hconverts (by simpa using hu),
        TypeArguments.carry_toSync hp arguments _ hq.every_arguments ha⟩, trivial⟩

theorem TypeArguments.carry_toSync (hp : types.Carries q p) :
    ∀ (a : TypeArguments) (a' : TypeArguments), a.Every q →
      a.toSync types member = .ok a' → a'.Every p
  | ⟨opening, items, closing⟩ => by
    intro a' hq h
    rw [TypeArguments.Every] at hq
    simp only [TypeArguments.toSync, ok_bind, ok_pure] at h
    obtain ⟨as, ha, rfl⟩ := h
    rw [TypeArguments.Every]
    exact TypeArgument.carry_toSyncAll hp items _ hq ha

theorem TypeArguments.carry_firstToSync (hp : types.Carries q p) :
    ∀ (a : TypeArguments) (ns : List Node), a.Every q →
      a.firstToSync types member = .ok (some ns) → Node.EveryOf p ns
  | ⟨opening, [], closing⟩ => by
    intro ns hq h
    simp [TypeArguments.firstToSync] at h
  | ⟨opening, ⟨type, comma⟩ :: items, closing⟩ => by
    intro ns hq h
    rw [TypeArguments.Every, TypeArgument.EveryOf, TypeArgument.Every] at hq
    simp only [TypeArguments.firstToSync, ok_bind, ok_pure, Option.some.injEq] at h
    obtain ⟨ks, hk, rfl⟩ := h
    exact Node.carry_toSyncAll hp type _ hq.1 hk

theorem TypeArgument.carry_toSync (hp : types.Carries q p) :
    ∀ (a : TypeArgument) (a' : TypeArgument), a.Every q →
      a.toSync types member = .ok a' → a'.Every p
  | ⟨type, comma⟩ => by
    intro a' hq h
    rw [TypeArgument.Every] at hq
    simp only [TypeArgument.toSync, ok_bind, ok_pure] at h
    obtain ⟨ns, hn, rfl⟩ := h
    rw [TypeArgument.Every]
    exact Node.carry_toSyncAll hp type _ hq hn

theorem TypeArgument.carry_toSyncAll (hp : types.Carries q p) :
    ∀ (as : List TypeArgument) (as' : List TypeArgument), TypeArgument.EveryOf q as →
      TypeArgument.toSyncAll types member as = .ok as' → TypeArgument.EveryOf p as'
  | [] => by
    intro as' hq h
    simp only [TypeArgument.toSyncAll, Except.ok.injEq] at h
    subst h
    rw [TypeArgument.EveryOf]
    trivial
  | a :: as => by
    intro as' hq h
    rw [TypeArgument.EveryOf] at hq
    simp only [TypeArgument.toSyncAll, ok_bind, ok_pure] at h
    obtain ⟨k, hk, ls, hl, rfl⟩ := h
    rw [TypeArgument.EveryOf]
    exact ⟨TypeArgument.carry_toSync hp a _ hq.1 hk, TypeArgument.carry_toSyncAll hp as _ hq.2 hl⟩

theorem ClassDecl.carry_toSync (hp : types.Carries q p) :
    ∀ (c : ClassDecl) (c' : ClassDecl), c.Every q →
      c.toSync types member = .ok c' → c'.Every p
  | ⟨keyword, name, heritage, opening, members, closing, isExpression⟩ => by
    intro c' hq h
    rw [ClassDecl.Every] at hq
    simp only [ClassDecl.toSync, ok_bind, ok_pure] at h
    obtain ⟨ms, hm, ns, hn, rfl⟩ := h
    rw [ClassDecl.Every]
    exact ⟨Node.carry_toSyncAll hp heritage _ hq.1 hn, Member.carry_toSyncAll hp members _ hq.2 hm⟩

theorem Member.carry_toSync (hp : types.Carries q p) :
    ∀ (m : Member) (m' : Member), m.Every q →
      m.toSync types member = .ok m' → m'.Every p
  | .method m => by
    intro m' hq h
    rw [Member.Every] at hq
    simp only [Member.toSync, ok_bind, ok_pure] at h
    obtain ⟨k, hk, rfl⟩ := h
    rw [Member.Every]
    exact Method.carry_toSync hp m _ hq hk
  | .getter g => by
    intro m' hq h
    rw [Member.Every] at hq
    simp only [Member.toSync, ok_bind, ok_pure] at h
    obtain ⟨k, hk, rfl⟩ := h
    rw [Member.Every]
    exact Getter.carry_toSync hp g _ hq hk
  | .other ns => by
    intro m' hq h
    rw [Member.Every] at hq
    simp only [Member.toSync, ok_bind, ok_pure] at h
    obtain ⟨ks, hk, rfl⟩ := h
    rw [Member.Every]
    exact Node.carry_toSyncAll hp ns _ hq hk

theorem Member.carry_toSyncAll (hp : types.Carries q p) :
    ∀ (ms : List Member) (ms' : List Member), Member.EveryOf q ms →
      Member.toSyncAll types member ms = .ok ms' → Member.EveryOf p ms'
  | [] => by
    intro ms' hq h
    simp only [Member.toSyncAll, Except.ok.injEq] at h
    subst h
    rw [Member.EveryOf]
    trivial
  | m :: ms => by
    intro ms' hq h
    rw [Member.EveryOf] at hq
    simp only [Member.toSyncAll, ok_bind, ok_pure] at h
    obtain ⟨k, hk, ls, hl, rfl⟩ := h
    rw [Member.EveryOf]
    exact ⟨Member.carry_toSync hp m _ hq.1 hk, Member.carry_toSyncAll hp ms _ hq.2 hl⟩

theorem Method.carry_toSync (hp : types.Carries q p) :
    ∀ (m : Method) (m' : Method), m.Every q →
      m.toSync types member = .ok m' → m'.Every p
  | ⟨leading, decorators, modifiers, asterisk, name, question, typeParameters, parameters,
      returnType, body, terminator⟩ => by
    intro m' hq h
    rw [Method.Every] at hq
    obtain ⟨qd, qn, qt, qp, qr, qb⟩ := hq
    simp only [Method.toSync, ok_bind, ok_pure] at h
    obtain ⟨ds, hd, n, hn, tps, htp, ps, hps, rt, hr, b, hb, rfl⟩ := h
    rw [Method.Every]
    exact ⟨Clause.carry_toSyncAll hp decorators _ qd hd, MemberName.carry_toSync hp name _ qn hn,
      Node.carry_toSyncAll hp typeParameters _ qt htp,
      ParameterList.carry_toSync hp parameters _ qp hps,
      Clause.carry_toSyncOption hp returnType _ qr hr, Group.carry_toSyncOption hp body _ qb hb⟩

theorem Getter.carry_toSync (hp : types.Carries q p) :
    ∀ (g : Getter) (g' : Getter), g.Every q →
      g.toSync types member = .ok g' → g'.Every p
  | ⟨leading, decorators, modifiers, keyword, name, parameters, returnType, body, terminator⟩ => by
    intro g' hq h
    rw [Getter.Every] at hq
    obtain ⟨qd, qn, qp, qr, qb⟩ := hq
    simp only [Getter.toSync, ok_bind, ok_pure] at h
    obtain ⟨ds, hd, n, hn, ps, hps, rt, hr, b, hb, rfl⟩ := h
    rw [Getter.Every]
    exact ⟨Clause.carry_toSyncAll hp decorators _ qd hd, MemberName.carry_toSync hp name _ qn hn,
      ParameterList.carry_toSync hp parameters _ qp hps,
      Clause.carry_toSyncOption hp returnType _ qr hr, Group.carry_toSyncOption hp body _ qb hb⟩

theorem MemberName.carry_toSync (hp : types.Carries q p) :
    ∀ (n : MemberName) (n' : MemberName), n.Every q →
      n.toSync types member = .ok n' → n'.Every p
  | .identifier t => by
    intro n' hq h
    simp only [MemberName.toSync, Except.ok.injEq] at h
    subst h
    rw [MemberName.Every]
    trivial
  | .literal t => by
    intro n' hq h
    simp only [MemberName.toSync, Except.ok.injEq] at h
    subst h
    rw [MemberName.Every]
    trivial
  | .computed g => by
    intro n' hq h
    rw [MemberName.Every] at hq
    simp only [MemberName.toSync, ok_bind, ok_pure] at h
    obtain ⟨k, hk, rfl⟩ := h
    rw [MemberName.Every]
    exact Group.carry_toSync hp g _ hq hk

theorem ParameterList.carry_toSync (hp : types.Carries q p) :
    ∀ (ps : ParameterList) (ps' : ParameterList), ps.Every q →
      ps.toSync types member = .ok ps' → ps'.Every p
  | ⟨opening, items, closing⟩ => by
    intro ps' hq h
    rw [ParameterList.Every] at hq
    simp only [ParameterList.toSync, ok_bind, ok_pure] at h
    obtain ⟨ks, hk, rfl⟩ := h
    rw [ParameterList.Every]
    exact Parameter.carry_toSyncAll hp items _ hq hk

theorem Parameter.carry_toSync (hp : types.Carries q p) :
    ∀ (r : Parameter) (r' : Parameter), r.Every q →
      r.toSync types member = .ok r' → r'.Every p
  | ⟨modifiers, rest, binding, question, type, initializer, comma⟩ => by
    intro r' hq h
    rw [Parameter.Every] at hq
    simp only [Parameter.toSync, ok_bind, ok_pure] at h
    obtain ⟨b, hb, t, ht, i, hi, rfl⟩ := h
    rw [Parameter.Every]
    exact ⟨Binding.carry_toSync hp binding _ hq.1 hb, Clause.carry_toSyncOption hp type _ hq.2.1 ht,
      Clause.carry_toSyncOption hp initializer _ hq.2.2 hi⟩

theorem Parameter.carry_toSyncAll (hp : types.Carries q p) :
    ∀ (rs : List Parameter) (rs' : List Parameter), Parameter.EveryOf q rs →
      Parameter.toSyncAll types member rs = .ok rs' → Parameter.EveryOf p rs'
  | [] => by
    intro rs' hq h
    simp only [Parameter.toSyncAll, Except.ok.injEq] at h
    subst h
    rw [Parameter.EveryOf]
    trivial
  | r :: rs => by
    intro rs' hq h
    rw [Parameter.EveryOf] at hq
    simp only [Parameter.toSyncAll, ok_bind, ok_pure] at h
    obtain ⟨k, hk, ls, hl, rfl⟩ := h
    rw [Parameter.EveryOf]
    exact ⟨Parameter.carry_toSync hp r _ hq.1 hk, Parameter.carry_toSyncAll hp rs _ hq.2 hl⟩

theorem Binding.carry_toSync (hp : types.Carries q p) :
    ∀ (b : Binding) (b' : Binding), b.Every q →
      b.toSync types member = .ok b' → b'.Every p
  | .identifier t => by
    intro b' hq h
    simp only [Binding.toSync, Except.ok.injEq] at h
    subst h
    rw [Binding.Every]
    trivial
  | .pattern g => by
    intro b' hq h
    rw [Binding.Every] at hq
    simp only [Binding.toSync, ok_bind, ok_pure] at h
    obtain ⟨k, hk, rfl⟩ := h
    rw [Binding.Every]
    exact Group.carry_toSync hp g _ hq hk

end

end

end TwinClasses
