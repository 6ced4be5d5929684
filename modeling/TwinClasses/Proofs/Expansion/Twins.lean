import Mathlib.Data.List.Forall2
import TwinClasses.Expansion
import TwinClasses.Proofs.Expansion.Synchronous
import TwinClasses.Proofs.Expansion.Wrapping

set_option autoImplicit false

/-! The two classes of a template, member by member. Each member of the one has its twin in the
other: a member of the same kind with the same name, whose parameters bind the same. Where a stream
is wrapped, wrapper and implementation have twins of their own, and the bodies of the two wrappers
are the same but for the class they make. -/

namespace TwinClasses

/-- The name as the synchronous class has it. -/
def MemberName.synchronous : MemberName → MemberName
  | .computed ⟨d, opening, [.access object dot name], closing⟩ =>
    .computed ⟨d, opening, [.access object dot
      (if isAsyncIterator object name then name.spelled "iterator" else name)], closing⟩
  | n => n

/-- The same identifier is bound, or a pattern and its synchronous form. -/
def Binding.IsTwin (types : TypeTable) : Binding → Binding → Prop
  | .identifier t, .identifier u => t = u
  | .pattern g, .pattern g' => ∃ member, g'.toSync types member = .ok g
  | _, _ => False

structure Parameter.IsTwin (types : TypeTable) (p q : Parameter) : Prop where
  modifiers : p.modifiers = q.modifiers
  rest : p.rest = q.rest
  binding : p.binding.IsTwin types q.binding
  question : p.question = q.question
  comma : p.comma = q.comma

structure ParameterList.IsTwin (types : TypeTable) (ps qs : ParameterList) : Prop where
  opening : ps.opening = qs.opening
  items : List.Forall₂ (Parameter.IsTwin types) ps.items qs.items
  closing : ps.closing = qs.closing

/-- The synchronous method `m` and the asynchronous method `n` have the same name and bind the same
parameters. -/
structure Method.IsTwin (types : TypeTable) (m n : Method) : Prop where
  name : m.name.bare = n.name.synchronous.bare
  parameters : m.parameters.IsTwin types n.parameters

structure Getter.IsTwin (types : TypeTable) (g h : Getter) : Prop where
  name : g.name.bare = h.name.synchronous.bare
  parameters : g.parameters.IsTwin types h.parameters

def Member.IsTwin (types : TypeTable) : Member → Member → Prop
  | .method m, .method n => m.IsTwin types n
  | .getter g, .getter h => g.IsTwin types h
  | _, _ => False

/-- What the members of a template are expanded to for the synchronous class `owner` and for the
asynchronous class `owner'`, member by member. -/
inductive Twins (conventions : Conventions) (owner owner' : String) :
    List Member → List Member → List Member → Prop where
  | nil : Twins conventions owner owner' [] [] []
  | other (nodes : List Node) {template ms ns : List Member} :
    Twins conventions owner owner' template ms ns →
      Twins conventions owner owner' (.other nodes :: template) ms ns
  | getter (g : Getter) {a b : Getter} {template ms ns : List Member} :
    a.IsTwin conventions.types b → Twins conventions owner owner' template ms ns →
      Twins conventions owner owner' (.getter g :: template) (.getter a :: ms) (.getter b :: ns)
  | method (m : Method) {a b : Method} {template ms ns : List Member} :
    ¬ m.IsWrapped conventions.naming → a.IsTwin conventions.types b →
      Twins conventions owner owner' template ms ns →
      Twins conventions owner owner' (.method m :: template) (.method a :: ms) (.method b :: ns)
  | wrapped (m : Method) (name : String) (arguments : List Node) (outer inner : String)
    {w i w' i' : Method} {template ms ns : List Member} :
    m.IsWrapped conventions.naming →
      w.Wraps conventions.naming owner name arguments outer inner i →
      w'.Wraps conventions.naming owner' name arguments outer inner i' →
      w.IsTwin conventions.types w' → i.IsTwin conventions.types i' →
      Twins conventions owner owner' template ms ns →
      Twins conventions owner owner' (.method m :: template) (.method w :: .method i :: ms)
        (.method w' :: .method i' :: ns)

theorem Twins.forall₂ {conventions : Conventions} {owner owner' : String}
    {template ms ns : List Member} (h : Twins conventions owner owner' template ms ns) :
    List.Forall₂ (Member.IsTwin conventions.types) ms ns := by
  induction h with
  | nil => exact .nil
  | other nodes _ ih => exact ih
  | getter g hab _ ih => exact .cons hab ih
  | method m _ hab _ ih => exact .cons hab ih
  | wrapped m name arguments outer inner _ _ _ hw hi _ ih => exact .cons hw (.cons hi ih)

/-! Names. -/

theorem MemberName.synchronous_mapFirst (f : Token → Token) (n : MemberName) :
    (n.mapFirst f).synchronous = n.synchronous.mapFirst f := by
  cases n with
  | identifier t => rfl
  | literal t => rfl
  | computed g =>
    obtain ⟨d, opening, children, closing⟩ := g
    rw [mapFirst]
    unfold synchronous
    split
    · rename_i heq
      cases heq
      rfl
    · rename_i hne
      split
      · rename_i heq
        cases heq
        exact absurd rfl (hne _ _ _ _ _ _)
      · rfl

theorem Token.ledBy_spaced (t : Token) : t.spaced.ledBy "" = t.ledBy "" := by
  unfold spaced
  split <;> rfl

theorem MemberName.synchronous_of_identifier? {n : MemberName} {name : String}
    (h : n.identifier? = some name) : n.synchronous = n := by
  cases n with
  | identifier t => rfl
  | literal t => rfl
  | computed g => cases h

/-- A name that can be printed converts to the name of the synchronous class, if `Symbol` keeps its
name. -/
theorem MemberName.toSync_eq_synchronous {types : TypeTable} {member printed : String}
    {n n' : MemberName} (hs : types.rename? "Symbol" = none) (hn : n.printable = .ok printed)
    (h : n.toSync types member = .ok n') : n' = n.synchronous := by
  cases n with
  | identifier t =>
    cases h
    rfl
  | literal t => cases hn
  | computed g =>
    obtain ⟨d, opening, children, closing⟩ := g
    simp only [printable] at hn
    split at hn
    · rename_i object dot name
      split at hn
      · rename_i hsymbol
        have hobject : types.rename object = object := by
          simp [TypeTable.rename, hsymbol, hs]
        simp only [toSync, Group.toSync, Node.toSyncAll, Node.toSync, ok_bind, ok_pure] at h
        obtain ⟨_, ⟨_, ⟨_, hms, _, hnil, rfl⟩, rfl⟩, rfl⟩ := h
        cases hnil
        split at hms
        · rename_i hi
          cases hms
          simp [synchronous, hi]
        · rename_i hi
          cases hms
          simp [synchronous, hi, hobject]
      · cases hn
    · cases hn

/-! Parameters. -/

theorem Parameter.isTwin_toSync {types : TypeTable} {member : String} {p q : Parameter}
    (h : q.toSync types member = .ok p) : p.IsTwin types q := by
  obtain ⟨modifiers, rest, binding, question, type, initializer, comma⟩ := q
  simp only [toSync, ok_bind, ok_pure] at h
  obtain ⟨b, hb, t, -, i, -, rfl⟩ := h
  refine ⟨rfl, rfl, ?_, rfl, rfl⟩
  cases binding with
  | identifier u =>
    cases hb
    rfl
  | pattern g =>
    simp only [Binding.toSync, ok_bind, ok_pure] at hb
    obtain ⟨g', hg, rfl⟩ := hb
    exact ⟨member, hg⟩

theorem Parameter.forall₂_isTwin_toSyncAll {types : TypeTable} {member : String}
    {ps qs : List Parameter} (h : toSyncAll types member qs = .ok ps) :
    List.Forall₂ (IsTwin types) ps qs := by
  induction qs generalizing ps with
  | nil =>
    cases h
    exact .nil
  | cons q qs ih =>
    simp only [toSyncAll, ok_bind, ok_pure] at h
    obtain ⟨p, hp, ps, hps, rfl⟩ := h
    exact .cons (isTwin_toSync hp) (ih hps)

theorem ParameterList.isTwin_toSync {types : TypeTable} {member : String}
    {ps qs : ParameterList} (h : qs.toSync types member = .ok ps) : ps.IsTwin types qs := by
  obtain ⟨opening, items, closing⟩ := qs
  simp only [toSync, ok_bind, ok_pure] at h
  obtain ⟨ks, hk, rfl⟩ := h
  exact ⟨rfl, Parameter.forall₂_isTwin_toSyncAll hk, rfl⟩

theorem Parameter.IsTwin.identifier? {types : TypeTable} {p q : Parameter}
    (h : p.IsTwin types q) : p.identifier? = q.identifier? := by
  have hb := h.binding
  unfold Parameter.identifier?
  cases hp : p.binding with
  | identifier t =>
    cases hq : q.binding with
    | identifier u =>
      rw [hp, hq] at hb
      exact congrArg some hb
    | pattern g =>
      rw [hp, hq] at hb
      exact hb.elim
  | pattern g =>
    cases hq : q.binding with
    | identifier u =>
      rw [hp, hq] at hb
      exact hb.elim
    | pattern g' => rfl

/-- Twins pass on the same names. -/
theorem passedNames_eq {types : TypeTable} {ps qs : List Parameter}
    (h : List.Forall₂ (Parameter.IsTwin types) ps qs) (method : String) :
    passedNames method ps = passedNames method qs := by
  induction h with
  | nil => rfl
  | cons hpq _ ih => rw [passedNames, passedNames, hpq.identifier?, hpq.rest, ih]

/-! Expansion. -/

theorem TemplateMethod.withWrapper_isTwin {types : TypeTable} {naming : Naming}
    {t : TemplateMethod} {parts parts' : WrapperParts} {ms ns : List Member}
    (hparameters : parts.parameters.IsTwin types parts'.parameters)
    (h : t.withWrapper naming parts = .ok ms) (h' : t.withWrapper naming parts' = .ok ns) :
    ∃ name arguments outer inner w i w' i', ms = [.method w, .method i] ∧
      ns = [.method w', .method i'] ∧
      w.Wraps naming parts.owner name arguments outer inner i ∧
      w'.Wraps naming parts'.owner name arguments outer inner i' ∧
      w.IsTwin types w' ∧ i.IsTwin types i' := by
  obtain ⟨name, names, w, i, hms, hnames, hname, hw, hi, hwp, hip, hwraps⟩ := withWrapper_eq_ok h
  obtain ⟨name', names', w', i', hns, hnames', hname', hw', hi', hwp', hip', hwraps'⟩ :=
    withWrapper_eq_ok h'
  obtain rfl : name = name' := by
    rw [hname] at hname'
    exact Option.some.inj hname'
  obtain rfl : names = names' := by
    rw [passedNames_eq hparameters.items, hnames'] at hnames
    cases hnames
    rfl
  refine ⟨name, _, _, _, w, i, w', i', hms, hns, hwraps, hwraps', ⟨?_, ?_⟩, ⟨?_, ?_⟩⟩
  · rw [hw, MemberName.synchronous_of_identifier? hwraps'.named, hw']
  · rw [hwp, hwp']
    exact hparameters
  · rw [hi, ← hi', MemberName.synchronous_of_identifier? hwraps'.implemented]
  · rw [hip, hip']
    exact hparameters

/-- The name of the synchronous copy and that of the asynchronous one, spaced out either way. -/
theorem MemberName.bare_toSync {types : TypeTable} {member printed : String} {n n' : MemberName}
    {f f' : Token → Token} (hf : ∀ t, (f t).ledBy "" = t.ledBy "")
    (hf' : ∀ t, (f' t).ledBy "" = t.ledBy "") (hs : types.rename? "Symbol" = none)
    (hn : n.printable = .ok printed) (h : n.toSync types member = .ok n') :
    (n'.mapFirst f).bare = (n.mapFirst f').synchronous.bare := by
  rw [bare_mapFirst hf, synchronous_mapFirst, bare_mapFirst hf', toSync_eq_synchronous hs hn h]

theorem TemplateMethod.isTwin_toSync {types : TypeTable} {t : TemplateMethod} {generator : Bool}
    {m : Method} (hs : types.rename? "Symbol" = none)
    (hn : t.method.name.printable = .ok t.name) (h : t.toSync types generator = .ok m)
    (modifiers : List Token) : m.IsTwin types
      (Method.spaceHeader { t.method with decorators := [], modifiers := modifiers }) := by
  unfold toSync at h
  simp only [ok_bind, ok_pure] at h
  obtain ⟨name, hname, typeParameters, -, parameters, hps, returnType, -, body, -, rfl⟩ := h
  exact {
    name := MemberName.bare_toSync (Token.ledBy_placed _) (Token.ledBy_placed _) hs hn hname
    parameters := ParameterList.isTwin_toSync hps }

theorem Getter.isTwin_expandSync {types : TypeTable} {g g' : Getter}
    (hs : types.rename? "Symbol" = none) (h : g.expandSync types = .ok g') :
    g'.IsTwin types (Getter.spaceHeader { g with decorators := [] }) := by
  unfold expandSync at h
  rw [ok_bind] at h
  obtain ⟨name, hname, h⟩ := h
  split at h
  · cases h
  · split at h
    · cases h
    · split at h
      · cases h
      · simp only [ok_bind, ok_pure] at h
        obtain ⟨memberName, hn, parameters, hps, returnType, -, body, -, rfl⟩ := h
        exact {
          name := MemberName.bare_toSync Token.ledBy_spaced Token.ledBy_spaced hs hname hn
          parameters := ParameterList.isTwin_toSync hps }

section

variable {conventions : Conventions} {owner owner' : String} {template ms ns ms' ns' : List Member}

/-- A method in front of the members that have been expanded. -/
theorem Method.twins_expand (hs : conventions.types.rename? "Symbol" = none) {m : Method}
    (h : m.expand conventions .synchronous owner = .ok ms)
    (h' : m.expand conventions .asynchronous owner' = .ok ns)
    (hrest : Twins conventions owner owner' template ms' ns') :
    Twins conventions owner owner' (.method m :: template) (ms ++ ms') (ns ++ ns') := by
  unfold expand at h h'
  rw [ok_bind] at h h'
  obtain ⟨t, ht, h⟩ := h
  obtain ⟨t', ht', h'⟩ := h'
  obtain rfl : t = t' := by
    rw [ht] at ht'
    exact Except.ok.inj ht'
  obtain ⟨hm, hn⟩ := TemplateMethod.ofMethod_eq_ok ht
  rw [← hm] at hn
  simp only at h h'
  unfold TemplateMethod.expandSync at h
  unfold TemplateMethod.expandAsync at h'
  have hplain : t.strategy ≠ .stream true → ¬ m.IsWrapped conventions.naming := by
    rintro hne ⟨t'', ht'', hstrategy⟩
    rw [ht] at ht''
    cases ht''
    exact hne hstrategy
  cases hstrategy : t.strategy with
  | aggregate =>
    rw [hstrategy] at h h'
    simp only [ok_bind, ok_pure] at h
    obtain ⟨a, ha, rfl⟩ := h
    cases h'
    have htwin := TemplateMethod.isTwin_toSync hs hn ha (asPublicAsync t.method.modifiers)
    exact .method m (hplain (by simp [hstrategy])) htwin hrest
  | stream wrapper =>
    cases wrapper with
    | false =>
      rw [hstrategy] at h h'
      simp only [ok_bind, ok_pure] at h
      obtain ⟨a, ha, rfl⟩ := h
      cases h'
      have htwin := TemplateMethod.isTwin_toSync hs hn ha t.method.modifiers
      exact .method m (hplain (by simp [hstrategy])) htwin hrest
    | true =>
      rw [hstrategy] at h h'
      simp only [ok_bind] at h h'
      obtain ⟨typeParameters, -, parameters, hps, body, -, h⟩ := h
      have hparameters := ParameterList.isTwin_toSync hps
      obtain ⟨name, arguments, outer, inner, w, i, w', i', rfl, rfl, hwraps, hwraps', hw, hi⟩ :=
        TemplateMethod.withWrapper_isTwin hparameters h h'
      exact .wrapped m name arguments outer inner ⟨t, ht, hstrategy⟩ hwraps hwraps' hw hi hrest

theorem Member.twins_expand (hs : conventions.types.rename? "Symbol" = none) {m : Member}
    (h : m.expand conventions .synchronous owner = .ok ms)
    (h' : m.expand conventions .asynchronous owner' = .ok ns)
    (hrest : Twins conventions owner owner' template ms' ns') :
    Twins conventions owner owner' (m :: template) (ms ++ ms') (ns ++ ns') := by
  cases m with
  | method m => exact Method.twins_expand hs h h' hrest
  | getter g =>
    simp only [expand, Getter.expand, ok_bind, ok_pure] at h
    obtain ⟨a, ha, rfl⟩ := h
    cases h'
    exact .getter g (Getter.isTwin_expandSync hs ha) hrest
  | other nodes =>
    cases h
    cases h'
    exact .other nodes hrest

/-- The two classes of a template have the same members, in the same order: each pair is of one kind
and has one name, that of `[Symbol.asyncIterator]` converted, and its parameters bind the same.
Wrappers and their implementations come in the same places. -/
theorem Expansion.twins_generated {templates templates' : TemplateClasses}
    (hs : conventions.types.rename? "Symbol" = none)
    (h : (Expansion.mk .synchronous templates conventions).generated owner template = .ok ms)
    (h' : (Expansion.mk .asynchronous templates' conventions).generated owner' template = .ok ns) :
    Twins conventions owner owner' template ms ns ∧ ms.length = ns.length ∧
      List.Forall₂ (Member.IsTwin conventions.types) ms ns := by
  have htwins : Twins conventions owner owner' template ms ns := by
    induction template generalizing ms ns with
    | nil =>
      cases h
      cases h'
      exact .nil
    | cons m template ih =>
      simp only [generated, ok_bind, ok_pure] at h h'
      obtain ⟨as, has, bs, hbs, rfl⟩ := h
      obtain ⟨as', has', bs', hbs', rfl⟩ := h'
      exact Member.twins_expand hs has has' (ih hbs hbs')
  exact ⟨htwins, htwins.forall₂.length_eq, htwins.forall₂⟩

end

/-- The iterator of a class. -/
def iteration : Method where
  leading := " "
  decorators := []
  modifiers := [.identifier "" "async"]
  asterisk := some (.bare .asterisk "*")
  name := .computed (.of .bracket "" [.access (.identifier "" "Symbol") (.bare .dot ".")
    (.identifier "" "asyncIterator")] "")
  question := none
  typeParameters := []
  parameters := ⟨.bare .openParen "(", [], .bare .closeParen ")"⟩
  returnType := some ⟨.bare .colon ":",
    [.typeRef (.named (.identifier " " "AsyncIterator") none)]⟩
  body := some (.of .brace " " [] " ")
  terminator := none

theorem twins_wrappedStream_iteration :
    ∃ ms ns, (Expansion.mk .synchronous ⟨[]⟩ {}).generated "Owner"
        [.method wrappedStream, .method iteration] = .ok ms ∧
      (Expansion.mk .asynchronous ⟨[]⟩ {}).generated "AsyncOwner"
        [.method wrappedStream, .method iteration] = .ok ns ∧
      Twins {} "Owner" "AsyncOwner" [.method wrappedStream, .method iteration] ms ns ∧
      ms.length = 3 := by
  have hs : TypeTable.rename? ({} : Conventions).types "Symbol" = none := by decide
  have h : (Expansion.mk .synchronous ⟨[]⟩ {}).generated "Owner"
      [.method wrappedStream, .method iteration] = .ok _ := rfl
  have h' : (Expansion.mk .asynchronous ⟨[]⟩ {}).generated "AsyncOwner"
      [.method wrappedStream, .method iteration] = .ok _ := rfl
  exact ⟨_, _, h, h', (Expansion.twins_generated hs h h').1, rfl⟩

end TwinClasses
