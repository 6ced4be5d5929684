import TwinClasses.Proofs.Conversion.Meeting
import TwinClasses.Proofs.Expansion.Twins

set_option autoImplicit false

/-! Which members either flavour accepts. What the synchronous class can have, the asynchronous
class can have too; the converse fails only where a type has no argument to give way to. -/

namespace TwinClasses

namespace Method

/-- Conversion meets a reference with the property in a part that is converted as code. The return
type is not such a part. -/
def Visits (types : TypeTable) (p : TypeRef → Prop) (m : Method) : Prop :=
  m.name.Meets types p ∨ Node.MeetsIn types p m.typeParameters ∨ m.parameters.Meets types p ∨
    Group.MeetsOption types p m.body

def ReturnsBare (identifier : String) (m : Method) : Prop :=
  ∃ colon r, m.returnType = some ⟨colon, [.typeRef r]⟩ ∧ r.IsBare identifier

/-- The identifiers without which the method cannot be converted by the default mapping. -/
inductive Lacks (m : Method) : String → Prop where
  | returned : ¬ m.IsWrapped {} → m.ReturnsBare valueType → m.Lacks valueType
  | visited : m.Visits {} (TypeRef.IsBare "AsyncOrSync") → m.Lacks "AsyncOrSync"

theorem exists_lacks_iff {m : Method} :
    (∃ identifier, m.Lacks identifier) ↔
      (¬ m.IsWrapped {} ∧ m.ReturnsBare valueType) ∨
        m.Visits {} (TypeRef.IsBare "AsyncOrSync") := by
  constructor
  · rintro ⟨_, ⟨hw, h⟩ | h⟩
    · exact .inl ⟨hw, h⟩
    · exact .inr h
  · rintro (⟨hw, h⟩ | h)
    · exact ⟨_, .returned hw h⟩
    · exact ⟨_, .visited h⟩

end Method

/-! The asynchronous class. -/

section

variable {conventions : Conventions} {owner owner' : String}

/-- Whether a wrapper can be made depends on the bound names alone. -/
theorem TemplateMethod.withWrapper_of_passedNames {naming : Naming} {t : TemplateMethod}
    {parts parts' : WrapperParts} {ms : List Member} (h : t.withWrapper naming parts = .ok ms)
    (hp : passedNames t.name parts'.parameters.items = passedNames t.name parts.parameters.items) :
    ∃ ns, t.withWrapper naming parts' = .ok ns := by
  obtain ⟨name, names, _, _, _, hnames, hname, _⟩ := withWrapper_eq_ok h
  rw [withWrapper, hname]
  exact ⟨_, (ok_bind _ _ _).2 ⟨names, hp.trans hnames, rfl⟩⟩

theorem TemplateMethod.expandAsync_of_expandSync (owner' : String) {t : TemplateMethod}
    {ms : List Member} (h : t.expandSync conventions owner = .ok ms) :
    ∃ ns, t.expandAsync conventions owner' = .ok ns := by
  unfold expandAsync
  cases hs : t.strategy with
  | aggregate => exact ⟨_, rfl⟩
  | stream wrapper =>
    cases wrapper with
    | false => exact ⟨_, rfl⟩
    | true =>
      simp only [expandSync, hs, ok_bind] at h
      obtain ⟨typeParameters, -, parameters, hparameters, body, -, h⟩ := h
      exact withWrapper_of_passedNames h
        (passedNames_eq (ParameterList.isTwin_toSync hparameters).items t.name).symm

/-- The asynchronous class can have what the synchronous class has. -/
theorem Member.expand_asynchronous_of_synchronous {m : Member} {ms : List Member}
    (h : m.expand conventions .synchronous owner = .ok ms) :
    ∃ ns, m.expand conventions .asynchronous owner' = .ok ns := by
  cases m with
  | other nodes => exact ⟨_, rfl⟩
  | getter g => exact ⟨_, rfl⟩
  | method m =>
    simp only [expand, Method.expand, ok_bind] at h ⊢
    obtain ⟨t, ht, h⟩ := h
    obtain ⟨ns, hns⟩ := TemplateMethod.expandAsync_of_expandSync owner' h
    exact ⟨ns, t, ht, hns⟩

end

/-! The synchronous class. -/

theorem TypeTable.unwraps_default {s : String} :
    ({} : TypeTable).unwraps s = true ↔ s = "AsyncOrSync" := by
  simp [unwraps]

/-- The default mapping knows the return types of all methods without a wrapper, and only values
give way to their argument. -/
theorem TypeTable.returnChange?_default {identifier member : String} {marked : Bool}
    {strategy : Strategy} (hs : Strategy.ofReturnType {} member identifier marked = .ok strategy)
    (hw : strategy ≠ .stream true) :
    identifier = valueType ∨
      identifier ≠ valueType ∧ ∃ name, returnChange? {} identifier = some (.rename name) := by
  unfold Strategy.ofReturnType at hs
  split at hs
  · cases hs
    exact absurd rfl hw
  · split at hs
    · rename_i hi
      subst hi
      exact .inr ⟨by decide, _, rfl⟩
    · split at hs
      · rename_i hi
        simp only [bareSequenceTypes, Bool.or_eq_true, decide_eq_true_eq, List.mem_cons,
          List.not_mem_nil, or_false] at hi
        obtain rfl | rfl | rfl := hi
        · exact .inl rfl
        · exact .inr ⟨by decide, _, rfl⟩
        · exact .inr ⟨by decide, _, rfl⟩
      · cases hs

theorem TypeRef.failsBy_returnTypeToSync {r : TypeRef} {identifier : Token} {member : String}
    {marked : Bool} {strategy : Strategy} (hr : r.identifier? = some identifier)
    (hs : Strategy.ofReturnType {} member identifier.text marked = .ok strategy)
    (hw : strategy ≠ .stream true) :
    FailsBy member (fun s => s = valueType ∧ r.IsBare valueType)
      (r.returnTypeToSync {} member) := by
  have hpath : r.path = [] ∧ r.name = identifier := by
    simpa [identifier?, isQualified] using hr
  unfold returnTypeToSync
  simp only [hr]
  obtain hvalue | ⟨hother, name, hname⟩ := TypeTable.returnChange?_default hs hw
  · have hchange : TypeTable.returnChange? {} identifier.text = some .unwrap := by
      rw [hvalue]
      rfl
    simp only [hchange]
    cases hfirst : r.firstArgument? with
    | some nodes => exact fun s h => Option.some_ne_none _ (hfirst.symm.trans h.2.bare)
    | none =>
      have hbare : r.IsBare valueType := ⟨hpath.1, by rw [hpath.2, hvalue], hfirst⟩
      exact ⟨valueType, ⟨rfl, hbare⟩, by rw [hvalue]⟩
  · simp only [hname]
    exact fun s h => hother (by rw [← hpath.2, h.2.named])

namespace TemplateMethod

variable {m : Method} {t : TemplateMethod} {owner' : String}

theorem returnsBare_iff (ht : ofMethod {} m = .ok t) {identifier : String} :
    m.ReturnsBare identifier ↔ t.returnType.IsBare identifier := by
  obtain ⟨-, -, hreturn, -⟩ := ofMethod_parts ht
  constructor
  · rintro ⟨colon, r, hr, hbare⟩
    cases hreturn.symm.trans hr
    exact hbare
  · exact fun h => ⟨_, _, hreturn, h⟩

theorem isWrapped_iff (ht : ofMethod {} m = .ok t) :
    m.IsWrapped {} ↔ t.strategy = .stream true := by
  constructor
  · rintro ⟨t', ht', hs⟩
    cases ht.symm.trans ht'
    exact hs
  · exact fun h => ⟨t, ht, h⟩

theorem lacks_iff (ht : ofMethod {} m = .ok t) (s : String) :
    m.Lacks s ↔
      (t.strategy ≠ .stream true ∧ s = valueType ∧ t.returnType.IsBare valueType) ∨
        ({} : TypeTable).unwraps s = true ∧ m.Visits {} (TypeRef.IsBare s) := by
  constructor
  · rintro (⟨hw, h⟩ | h)
    · exact .inl ⟨hw ∘ (isWrapped_iff ht).2, rfl, (returnsBare_iff ht).1 h⟩
    · exact .inr ⟨rfl, h⟩
  · rintro (⟨hw, rfl, h⟩ | ⟨hs, h⟩)
    · exact .returned (hw ∘ (isWrapped_iff ht).1) ((returnsBare_iff ht).2 h)
    · obtain rfl := TypeTable.unwraps_default.1 hs
      exact .visited h

theorem visits_iff (ht : ofMethod {} m = .ok t) {types : TypeTable} {p : TypeRef → Prop} :
    m.Visits types p ↔
      t.method.name.Meets types p ∨ Node.MeetsIn types p t.method.typeParameters ∨
        t.method.parameters.Meets types p ∨ t.body.Meets types p := by
  obtain ⟨rfl, -, -, hbody, -⟩ := ofMethod_parts ht
  rw [Method.Visits, hbody, Group.MeetsOption]

/-- The conversions of the parts, with what becomes of the return type between them. -/
theorem failsBy_toSync (ht : ofMethod {} m = .ok t) (hw : t.strategy ≠ .stream true)
    (generator : Bool) : FailsBy t.name m.Lacks (t.toSync {} generator) := by
  obtain ⟨-, -, -, -, identifier, hr, hs⟩ := ofMethod_parts ht
  refine FailsBy.congr (FailsBy.bind (MemberName.failsBy_toSync _) fun name _ =>
    FailsBy.bind (Node.failsBy_toSyncAll _) fun typeParameters _ =>
    FailsBy.bind (ParameterList.failsBy_toSync _) fun parameters _ =>
    FailsBy.bind (TypeRef.failsBy_returnTypeToSync hr hs hw) fun returnType _ =>
    FailsBy.map (Group.failsBy_toSync _) _) fun s => ?_
  rw [lacks_iff ht, visits_iff ht]
  tauto

/-- A wrapper that the asynchronous class has can be made from the converted parts. -/
theorem failsBy_expandSync (owner : String) {ns : List Member} (ht : ofMethod {} m = .ok t)
    (h : t.expandAsync {} owner' = .ok ns) : FailsBy t.name m.Lacks (t.expandSync {} owner) := by
  unfold expandSync
  cases hs : t.strategy with
  | aggregate => exact (failsBy_toSync ht (by simp [hs]) false).map _
  | stream wrapper =>
    cases wrapper with
    | false => exact (failsBy_toSync ht (by simp [hs]) true).map _
    | true =>
      simp only [expandAsync, hs] at h
      refine FailsBy.congr (FailsBy.bind (Node.failsBy_toSyncAll _) fun typeParameters _ =>
        FailsBy.bind (ParameterList.failsBy_toSync _) fun parameters hparameters =>
        FailsBy.bind (Q := fun _ => False) (Group.failsBy_toSync _) fun body _ => ?_) fun s => ?_
      · have hnames := passedNames_eq (ParameterList.isTwin_toSync hparameters).items t.name
        exact failsBy_of_ok (withWrapper_of_passedNames h hnames)
      · obtain ⟨name, -, -, -, -, -, hname, -⟩ := withWrapper_eq_ok h
        have hidentifier : ¬ t.method.name.Meets {} (TypeRef.IsBare s) := by
          cases hn : t.method.name with
          | identifier u => exact id
          | _ => simp [hn, MemberName.identifier?] at hname
        rw [lacks_iff ht, visits_iff ht]
        tauto

end TemplateMethod

/-- Either flavour accepts the same members but for missing type arguments: of a value that is
returned, or of a type that may be asynchronous or not, wherever the conversion meets it. -/
theorem Member.expand_accepted (owner owner' : String) (member : Member) :
    (∀ ms, member.expand {} .synchronous owner = .ok ms →
      ∃ ns, member.expand {} .asynchronous owner' = .ok ns) ∧
    ∀ m ns, member = .method m → member.expand {} .asynchronous owner' = .ok ns →
      ((∃ e, member.expand {} .synchronous owner = .error e) ↔
        (¬ m.IsWrapped {} ∧ m.ReturnsBare "Promise") ∨
          m.Visits {} (TypeRef.IsBare "AsyncOrSync")) ∧
      ∀ e, member.expand {} .synchronous owner = .error e →
        ∃ name identifier, m.name.printable = .ok name ∧ m.Lacks identifier ∧
          e = .missingTypeArgument name identifier := by
  refine ⟨fun ms h => expand_asynchronous_of_synchronous h, ?_⟩
  rintro m ns rfl h
  simp only [expand, Method.expand, ok_bind] at h
  obtain ⟨t, ht, h⟩ := h
  have hfails := TemplateMethod.failsBy_expandSync owner ht h
  have hsync : (Member.method m).expand {} .synchronous owner = t.expandSync {} owner := by
    simp only [expand, Method.expand, ht]
    rfl
  rw [hsync]
  refine ⟨hfails.error_iff.trans Method.exists_lacks_iff, fun e he => ?_⟩
  obtain ⟨identifier, hlacks, rfl⟩ := hfails.eq_of_error he
  exact ⟨t.name, identifier, (TemplateMethod.ofMethod_eq_ok ht).2, hlacks, rfl⟩

/-- A value whose method declares a class, and in this a parameter that lacks a type argument. -/
def latestValue : Method where
  leading := "\n  "
  decorators := []
  modifiers := []
  asterisk := none
  name := .identifier (.identifier "" "latest")
  question := none
  typeParameters := []
  parameters := ⟨.bare .openParen "(", [], .bare .closeParen ")"⟩
  returnType := some ⟨.bare .colon ":", [.typeRef (.named (.identifier " " "Promise")
    (some ⟨.bare .lessThan "<", [⟨[.typeRef (.named (.identifier "" "T") none)], none⟩],
      .bare .greaterThan ">"⟩))]⟩
  body := some (.of .brace " " [.classDecl ⟨.identifier " " "class",
    some (.identifier " " "Box"), [], ⟨.openBrace, " ", "\x7b"⟩,
    [.method
      { leading := " ", decorators := [], modifiers := [], asterisk := none,
        name := .identifier (.identifier "" "put"), question := none, typeParameters := [],
        parameters := ⟨.bare .openParen "(", [⟨[], none, .identifier (.identifier "" "value"), none,
          some ⟨.bare .colon ":", [.typeRef (.named (.identifier " " "AsyncOrSync") none)]⟩,
          none, none⟩], .bare .closeParen ")"⟩,
        returnType := none, body := some (.of .brace " " [] ""), terminator := none }],
    ⟨.closeBrace, " ", "\x7d"⟩, false⟩] " ")
  terminator := none

theorem latestValue_rejected :
    (∃ ns, (Member.method latestValue).expand {} .asynchronous "AsyncBox" = .ok ns) ∧
      ∃ e, (Member.method latestValue).expand {} .synchronous "Box" = .error e := by
  have hasync : (Member.method latestValue).expand {} .asynchronous "AsyncBox" = .ok _ := rfl
  have hvisits : latestValue.Visits {} (TypeRef.IsBare "AsyncOrSync") := by
    have hbare : TypeRef.IsBare "AsyncOrSync" ⟨.identifier " " "AsyncOrSync", [], none⟩ :=
      ⟨rfl, rfl, rfl⟩
    simp [Method.Visits, latestValue, Group.of, Group.MeetsOption, Group.Meets, Node.MeetsIn,
      Node.Meets, ClassDecl.Meets, Member.MeetsIn, Member.Meets, Method.Meets, ParameterList.Meets,
      Parameter.MeetsIn, Parameter.Meets, Clause.MeetsOption, Clause.Meets, TypeRef.named,
      TypeRef.Meets, hbare]
  exact ⟨⟨_, hasync⟩,
    ((Member.expand_accepted "Box" "AsyncBox" (.method latestValue)).2 _ _ rfl hasync).1.2
      (.inr hvisits)⟩

end TwinClasses
