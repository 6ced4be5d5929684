import TwinClasses.Expansion.Member
import TwinClasses.Proofs.Conversion.Settled

set_option autoImplicit false

/-! Members of the synchronous class. Whichever way a template member is expanded, its parts are
converted. Only the body that a wrapper is given is not: it names the owner and passes parameters on
by the names that bind them, and conversion leaves those alone. -/

namespace TwinClasses

/-- A token that names the owner, or a parameter. -/
def Node.IsPassed (owner : String) (ps : ParameterList) : Node → Prop
  | .token t => t.text = owner ∨ ∃ q ∈ ps.items, ∃ u, q.identifier? = some u ∧ u.text = t.text
  | _ => False

/-- A method without decorators that is not `async`, and one with a `*` only if it may have one; the
nodes of its parts have the property `p`, and those of its body the property `q`. -/
structure Method.IsSynchronous (p q : Node → Prop) (stream : Prop) (m : Method) : Prop where
  decorators : m.decorators = []
  modifiers : ∀ t ∈ m.modifiers, t.isWord "async" = false
  asterisk : m.asterisk.isSome → stream
  name : m.name.Every p
  typeParameters : Node.EveryOf p m.typeParameters
  parameters : m.parameters.Every p
  body : Group.EveryIn q m.body

structure Getter.IsSynchronous (p : Node → Prop) (g : Getter) : Prop where
  decorators : g.decorators = []
  modifiers : ∀ t ∈ g.modifiers, t.isWord "async" = false
  name : g.name.Every p
  parameters : g.parameters.Every p
  body : Group.EveryIn p g.body

def Member.IsSynchronous (p : Node → Prop) (stream : Prop) : Member → Prop
  | .method m => m.IsSynchronous p p stream
  | .getter g => g.IsSynchronous p
  | .other _ => False

/-- A method whose return type is that of a stream. -/
def Member.IsStream (naming : Naming) (m : Member) : Prop :=
  ∃ method t wrapper, m = .method method ∧ TemplateMethod.ofMethod naming method = .ok t ∧
    t.strategy = .stream wrapper

/-! Headers. -/

theorem isWord_spaced (t : Token) (word : String) : t.spaced.isWord word = t.isWord word := by
  unfold Token.spaced
  split <;> rfl

theorem isWord_of_mem_spaceOut {word : String} {ts : List Token}
    (h : ∀ t ∈ ts, t.isWord word = false) : ∀ t ∈ spaceOut ts, t.isWord word = false := by
  cases ts with
  | nil => exact h
  | cons t ts =>
    obtain ⟨ht, hts⟩ := List.forall_mem_cons.1 h
    refine List.forall_mem_cons.2 ⟨ht, ?_⟩
    intro u hu
    obtain ⟨v, hv, rfl⟩ := List.mem_map.1 hu
    rw [isWord_spaced]
    exact hts v hv

theorem isWord_of_mem_dropModifier {word : String} {ts : List Token} :
    ∀ t ∈ dropModifier word ts, t.isWord word = false := by
  intro t ht
  simpa using (List.mem_filter.1 ht).2

theorem isWord_of_mem_asPrivate {ts : List Token} (h : ∀ t ∈ ts, t.isWord "async" = false) :
    ∀ t ∈ asPrivate ts, t.isWord "async" = false := by
  refine List.forall_mem_cons.2 ⟨by decide, ?_⟩
  intro t ht
  exact h t (List.mem_filter.1 ht).1

variable {p q : Node → Prop} {stream : Prop}

theorem Method.IsSynchronous.spaceHeader {m : Method} (h : m.IsSynchronous p q stream) :
    m.spaceHeader.IsSynchronous p q stream where
  decorators := h.decorators
  modifiers := isWord_of_mem_spaceOut h.modifiers
  asterisk := fun ha => h.asterisk (by simpa [Method.spaceHeader] using ha)
  name := (MemberName.every_mapFirst _ _).2 h.name
  typeParameters := h.typeParameters
  parameters := h.parameters
  body := h.body

theorem Getter.IsSynchronous.spaceHeader {g : Getter} (h : g.IsSynchronous p) :
    g.spaceHeader.IsSynchronous p where
  decorators := h.decorators
  modifiers := isWord_of_mem_spaceOut h.modifiers
  name := (MemberName.every_mapFirst _ _).2 h.name
  parameters := h.parameters
  body := h.body

/-! Wrappers. -/

theorem bound_of_mem_passedNames {method : String} {ps : List Parameter}
    {names : List (Bool × String)} (h : passedNames method ps = .ok names) :
    ∀ e ∈ names, ∃ q ∈ ps, ∃ u, q.identifier? = some u ∧ u.text = e.2 := by
  induction ps generalizing names with
  | nil =>
    cases h
    simp
  | cons r ps ih =>
    rw [passedNames] at h
    split at h
    · cases h
    · rename_i u hu
      rw [ok_bind] at h
      obtain ⟨rest, hr, h⟩ := h
      rw [ok_pure] at h
      subst h
      have hrest : ∀ e ∈ rest, ∃ q ∈ r :: ps, ∃ v, q.identifier? = some v ∧ v.text = e.2 := by
        intro e he
        obtain ⟨s, hs, hv⟩ := ih hr e he
        exact ⟨s, List.mem_cons_of_mem _ hs, hv⟩
      split
      · exact hrest
      · exact List.forall_mem_cons.2 ⟨⟨r, List.mem_cons_self, u, hu, rfl⟩, hrest⟩

/-- What the body of a wrapper is made of has the property. -/
structure AdmitsBody (owner : String) (ps : ParameterList) (q : Node → Prop) : Prop where
  token : ∀ t : Token, (t.kind = .identifier → t.text = "return" ∨ t.text = "new" ∨
    t.text = owner ∨ ∃ r ∈ ps.items, ∃ u, r.identifier? = some u ∧ u.text = t.text) → q (.token t)
  access : ∀ impl, q (.access (.identifier "" "this") (.bare .dot ".") (.identifier "" impl))
  group : ∀ g, q (.group g)

theorem everyOf_passedArgument {owner : String} {ps : ParameterList} (hq : AdmitsBody owner ps q)
    (leading : String) {rest : Bool} {name : String}
    (hn : ∃ r ∈ ps.items, ∃ u, r.identifier? = some u ∧ u.text = name) :
    Node.EveryOf q (passedArgument leading rest name) := by
  have hname : ∀ before, q (.token (.identifier before name)) :=
    fun before => hq.token _ fun _ => Or.inr (Or.inr (Or.inr hn))
  cases rest with
  | true =>
    have hdots : q (.token ⟨.ellipsis, leading, "..."⟩) := hq.token _ (by simp)
    simp [passedArgument, Node.EveryOf, Node.Every, hdots, hname]
  | false => simp [passedArgument, Node.EveryOf, Node.Every, hname]

theorem everyOf_passedArguments {owner : String} {ps : ParameterList} (hq : AdmitsBody owner ps q)
    {names : List (Bool × String)}
    (h : ∀ e ∈ names, ∃ r ∈ ps.items, ∃ u, r.identifier? = some u ∧ u.text = e.2) :
    Node.EveryOf q (passedArguments names) := by
  cases names with
  | nil => simp [passedArguments, Node.EveryOf]
  | cons e names =>
    obtain ⟨he, hnames⟩ := List.forall_mem_cons.1 h
    rw [passedArguments, Node.everyOf_append]
    refine ⟨everyOf_passedArgument hq "" he, ?_⟩
    clear h he
    induction names with
    | nil => simp [Node.EveryOf]
    | cons d names ih =>
      obtain ⟨hd, hrest⟩ := List.forall_mem_cons.1 hnames
      have hcomma : q (.token (.bare .comma ",")) := hq.token _ (by simp [Token.bare])
      rw [List.flatMap_cons, Node.everyOf_append, Node.EveryOf, Node.Every]
      exact ⟨⟨hcomma, everyOf_passedArgument hq " " hd⟩, ih hrest⟩

theorem every_returnBody {owner impl : String} {ps : ParameterList} {arguments : List Node}
    (hq : AdmitsBody owner ps q) (ha : Node.EveryOf q arguments) (outer inner : String) :
    (returnBody owner impl arguments outer inner).Every q := by
  have hreturn : q (.token (.identifier ("\n" ++ inner) "return")) :=
    hq.token _ fun _ => Or.inl rfl
  have hnew : q (.token (.identifier " " "new")) := hq.token _ fun _ => Or.inr (Or.inl rfl)
  have howner : q (.token (.identifier " " owner)) :=
    hq.token _ fun _ => Or.inr (Or.inr (Or.inl rfl))
  have hend : q (.token (.bare .semicolon ";")) := hq.token _ (by simp [Token.bare])
  simp [returnBody, Group.of, Group.Every, Node.EveryOf, Node.Every, hq.group, hq.access, *]

theorem MemberName.every_of_identifier? {n : MemberName} {name : String}
    (h : n.identifier? = some name) : n.Every p := by
  cases n with
  | identifier t =>
    rw [Every]
    trivial
  | literal t => cases h
  | computed g => cases h

theorem withWrapper_isSynchronous {naming : Naming} {t : TemplateMethod} {parts : WrapperParts}
    {ms : List Member} (hm : ∀ t ∈ parts.implModifiers, t.isWord "async" = false)
    (ht : Node.EveryOf p parts.typeParameters) (hps : parts.parameters.Every p)
    (hb : parts.body.Every p) (hq : AdmitsBody parts.owner parts.parameters q) (hs : stream)
    (h : t.withWrapper naming parts = .ok ms) :
    ∃ w i, ms = [.method w, .method i] ∧ w.parameters = parts.parameters ∧
      w.IsSynchronous p q stream ∧ i.IsSynchronous p p stream := by
  unfold TemplateMethod.withWrapper at h
  split at h
  · cases h
  · rename_i name hn
    rw [ok_bind] at h
    obtain ⟨names, hnames, h⟩ := h
    simp only [ok_pure] at h
    have hpassed := everyOf_passedArguments hq (bound_of_mem_passedNames hnames)
    refine ⟨_, _, h, rfl, ?_, ?_⟩
    · apply Method.IsSynchronous.spaceHeader
      exact {
        decorators := rfl
        modifiers := isWord_of_mem_dropModifier
        asterisk := fun ha => absurd ha (by simp)
        name := MemberName.every_of_identifier? hn
        typeParameters := ht
        parameters := hps
        body := by
          rw [Group.EveryIn]
          exact every_returnBody hq hpassed _ _ }
    · apply Method.IsSynchronous.spaceHeader
      exact {
        decorators := rfl
        modifiers := hm
        asterisk := fun _ => hs
        name := MemberName.every_of_identifier? rfl
        typeParameters := ht
        parameters := hps
        body := by
          rw [Group.EveryIn]
          exact hb }

/-! Expansion. -/

variable {types : TypeTable}

theorem TemplateMethod.toSync_isSynchronous (hp : types.Ensures p) {t : TemplateMethod}
    {generator : Bool} {m : Method} (hg : generator = true → stream)
    (h : t.toSync types generator = .ok m) : m.IsSynchronous p p stream := by
  unfold TemplateMethod.toSync at h
  simp only [ok_bind, ok_pure] at h
  obtain ⟨name, hn, typeParameters, ht, parameters, hps, returnType, -, body, hb, rfl⟩ := h
  apply Method.IsSynchronous.spaceHeader
  exact {
    decorators := rfl
    modifiers := isWord_of_mem_dropModifier
    asterisk := by
      intro ha
      cases generator with
      | true => exact hg rfl
      | false => simp at ha
    name := MemberName.every_toSync hp _ _ hn
    typeParameters := Node.every_toSyncAll hp _ _ ht
    parameters := ParameterList.every_toSync hp _ _ hps
    body := by
      rw [Group.EveryIn]
      exact Group.every_toSync hp _ _ hb }

theorem Getter.expandSync_isSynchronous (hp : types.Ensures p) {g g' : Getter}
    (h : g.expandSync types = .ok g') : g'.IsSynchronous p := by
  unfold Getter.expandSync at h
  rw [ok_bind] at h
  obtain ⟨name, -, h⟩ := h
  split at h
  · cases h
  · split at h
    · cases h
    · split at h
      · cases h
      · simp only [ok_bind, ok_pure] at h
        obtain ⟨memberName, hn, parameters, hps, returnType, -, body, hb, rfl⟩ := h
        apply Getter.IsSynchronous.spaceHeader
        exact {
          decorators := rfl
          modifiers := isWord_of_mem_dropModifier
          name := MemberName.every_toSync hp _ _ hn
          parameters := ParameterList.every_toSync hp _ _ hps
          body := by
            rw [Group.EveryIn]
            exact Group.every_toSync hp _ _ hb }

/-- Either all members are converted throughout, or they are those of a wrapped stream. -/
theorem TemplateMethod.expandSync_isSynchronous {conventions : Conventions} {owner : String}
    {t : TemplateMethod} {ms : List Member} {q : ParameterList → Node → Prop}
    (hp : conventions.types.Ensures p) (hq : ∀ ps, AdmitsBody owner ps (q ps))
    (hs : ∀ wrapper, t.strategy = .stream wrapper → stream)
    (h : t.expandSync conventions owner = .ok ms) :
    (∀ m' ∈ ms, m'.IsSynchronous p stream) ∨
    ∃ w i, ms = [.method w, .method i] ∧ w.IsSynchronous p (q w.parameters) stream ∧
      i.IsSynchronous p p stream := by
  unfold TemplateMethod.expandSync at h
  split at h
  · rw [ok_bind] at h
    obtain ⟨m, hm, h⟩ := h
    rw [ok_pure] at h
    subst h
    have hsync : m.IsSynchronous p p stream :=
      TemplateMethod.toSync_isSynchronous hp (fun hg => absurd hg (by simp)) hm
    exact Or.inl (List.forall_mem_cons.2 ⟨hsync, by simp⟩)
  · rename_i hstrategy
    rw [ok_bind] at h
    obtain ⟨m, hm, h⟩ := h
    rw [ok_pure] at h
    subst h
    have hsync : m.IsSynchronous p p stream :=
      TemplateMethod.toSync_isSynchronous hp (fun _ => hs false hstrategy) hm
    exact Or.inl (List.forall_mem_cons.2 ⟨hsync, by simp⟩)
  · rename_i hstrategy
    simp only [ok_bind] at h
    obtain ⟨typeParameters, ht, parameters, hps, body, hb, h⟩ := h
    obtain ⟨w, i, hms, hw, hsync, hi⟩ := withWrapper_isSynchronous
      (isWord_of_mem_asPrivate isWord_of_mem_dropModifier) (Node.every_toSyncAll hp _ _ ht)
      (ParameterList.every_toSync hp _ _ hps) (Group.every_toSync hp _ _ hb) (hq parameters)
      (hs true hstrategy) h
    refine Or.inr ⟨w, i, hms, ?_, hi⟩
    rw [hw]
    exact hsync

theorem Member.expand_isSynchronous {conventions : Conventions} {owner : String} {m : Member}
    {ms : List Member} {q : ParameterList → Node → Prop} (hp : conventions.types.Ensures p)
    (hq : ∀ ps, AdmitsBody owner ps (q ps))
    (h : m.expand conventions .synchronous owner = .ok ms) :
    (∀ m' ∈ ms, m'.IsSynchronous p (m.IsStream conventions.naming)) ∨
    ∃ w i, ms = [.method w, .method i] ∧
      w.IsSynchronous p (q w.parameters) (m.IsStream conventions.naming) ∧
      i.IsSynchronous p p (m.IsStream conventions.naming) := by
  cases m with
  | method method =>
    rw [Member.expand, Method.expand, ok_bind] at h
    obtain ⟨t, ht, h⟩ := h
    apply TemplateMethod.expandSync_isSynchronous hp hq ?_ h
    intro wrapper hstrategy
    exact ⟨method, t, wrapper, rfl, ht, hstrategy⟩
  | getter g =>
    rw [Member.expand, Getter.expand, ok_bind] at h
    obtain ⟨g', hg, h⟩ := h
    rw [ok_pure] at h
    subst h
    have hsync : g'.IsSynchronous p := Getter.expandSync_isSynchronous hp hg
    exact Or.inl (List.forall_mem_cons.2 ⟨hsync, by simp⟩)
  | other ns =>
    cases h
    exact Or.inl (by simp)

theorem admitsBody_isImmediate (owner : String) (ps : ParameterList) :
    AdmitsBody owner ps Node.IsImmediate where
  token _ _ := trivial
  access _ := trivial
  group _ := trivial

theorem admitsBody_isSettled (owner : String) (ps : ParameterList) :
    AdmitsBody owner ps fun n => n.IsSettled {} ∨ n.IsPassed owner ps where
  token t h := by
    by_cases hk : t.kind = .identifier
    · obtain ht | ht | ht := h hk
      · refine Or.inl fun _ => ?_
        rw [ht]
        decide
      · refine Or.inl fun _ => ?_
        rw [ht]
        decide
      · exact Or.inr ht
    · exact Or.inl fun h => absurd h hk
  access _ := by
    refine Or.inl ⟨rfl, fun _ => ?_⟩
    decide
  group _ := Or.inl trivial

/-- No member of the synchronous class waits for anything, however deep inside it. With the default
types nothing is left in it to convert either, but for the names that the body of a wrapper passes
on. -/
theorem Member.expand_synchronous_isSettled {conventions : Conventions} {owner : String}
    {m : Member} {ms : List Member} (h : m.expand conventions .synchronous owner = .ok ms) :
    (∀ m' ∈ ms, m'.IsSynchronous Node.IsImmediate (m.IsStream conventions.naming)) ∧
    (conventions.types = {} →
      (∀ m' ∈ ms, m'.IsSynchronous (Node.IsSettled {}) (m.IsStream conventions.naming)) ∨
      ∃ w i, ms = [.method w, .method i] ∧
        w.IsSynchronous (Node.IsSettled {})
          (fun n => n.IsSettled {} ∨ n.IsPassed owner w.parameters)
          (m.IsStream conventions.naming) ∧
        i.IsSynchronous (Node.IsSettled {}) (Node.IsSettled {})
          (m.IsStream conventions.naming)) := by
  constructor
  · obtain hms | ⟨w, i, hms, hw, hi⟩ := Member.expand_isSynchronous
      (q := fun _ => Node.IsImmediate) TypeTable.ensures_isImmediate
      (admitsBody_isImmediate owner) h
    · exact hms
    · rw [hms]
      exact List.forall_mem_cons.2 ⟨hw, List.forall_mem_cons.2 ⟨hi, by simp⟩⟩
  · intro htypes
    have hp : conventions.types.Ensures (Node.IsSettled {}) := by
      rw [htypes]
      exact TypeTable.ensures_isSettled TypeTable.isStable_default
    exact Member.expand_isSynchronous hp (admitsBody_isSettled owner) h

/-- A stream to be wrapped, with a parameter that has the name of a type. -/
def wrappedStream : Method where
  leading := " "
  decorators := [⟨.bare .atSign "@", [.token (.identifier "" "enumerableWrapper")]⟩]
  modifiers := []
  asterisk := none
  name := .identifier (.identifier " " "f")
  question := none
  typeParameters := []
  parameters := ⟨.bare .openParen "(", [⟨[], none, .identifier (.identifier "" "AsyncIterable"),
    none, some ⟨.bare .colon ":", [.typeRef (.named (.identifier " " "X") none)]⟩, none, none⟩],
    .bare .closeParen ")"⟩
  returnType := some ⟨.bare .colon ":",
    [.typeRef (.named (.identifier " " "AsyncIterable") none)]⟩
  body := some (.of .brace " " [.token (.identifier " " "return"),
    .token (.identifier " " "AsyncIterable"), .token (.bare .semicolon ";")] " ")
  terminator := none

theorem wrappedStream_expands_settled :
    ∃ ms, (Member.method wrappedStream).expand {} .synchronous "Owner" = .ok ms ∧
      (∀ m' ∈ ms, m'.IsSynchronous Node.IsImmediate ((Member.method wrappedStream).IsStream {})) ∧
      ∃ w i, ms = [.method w, .method i] ∧
        i.IsSynchronous (Node.IsSettled {}) (Node.IsSettled {})
          ((Member.method wrappedStream).IsStream {}) := by
  have h : (Member.method wrappedStream).expand {} .synchronous "Owner" = .ok _ := rfl
  obtain ⟨himmediate, hsettled⟩ := Member.expand_synchronous_isSettled h
  refine ⟨_, h, himmediate, ?_⟩
  obtain hms | ⟨w, i, hms, -, hi⟩ := hsettled rfl
  · refine ⟨_, _, rfl, ?_⟩
    exact hms _ (List.mem_cons_of_mem _ List.mem_cons_self)
  · exact ⟨w, i, hms, hi⟩

theorem wrapper_passes_unsettled : ¬ ∀ (owner : String) (m : Member) (ms : List Member),
    m.expand {} .synchronous owner = .ok ms →
      ∀ m' ∈ ms, m'.IsSynchronous (Node.IsSettled {}) (m.IsStream {}) := by
  intro hall
  have h := hall "Owner" (.method wrappedStream) _ rfl _ List.mem_cons_self
  have hbody : Group.toSyncOption {} "f" _ = .ok _ := Group.toSyncOption_settled _ h.body
  have htokens := congrArg (fun b => b.toOption.map Group.tokensOption) hbody
  exact absurd htokens (by decide +kernel)

end TwinClasses
