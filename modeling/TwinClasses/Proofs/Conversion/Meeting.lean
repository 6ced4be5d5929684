import TwinClasses.Expansion.SyncForm

set_option autoImplicit false

/-! The type references that conversion meets, and the one reason for which it fails. It goes into
all nested nodes; of a reference that gives way to its first argument it goes into that one alone,
and fails where there is none. -/

namespace TwinClasses

mutual

/-- Conversion of the node meets a reference with the property. -/
def Node.Meets (types : TypeTable) (p : TypeRef → Prop) : Node → Prop
  | .token _ => False
  | .group g => g.Meets types p
  | .classDecl c => c.Meets types p
  | .forOf _ _ head => head.Meets types p
  | .await _ operand => Node.MeetsIn types p operand
  | .access _ _ _ => False
  | .typeRef r => r.Meets types p

def Node.MeetsIn (types : TypeTable) (p : TypeRef → Prop) : List Node → Prop
  | [] => False
  | n :: ns => n.Meets types p ∨ Node.MeetsIn types p ns

def Group.Meets (types : TypeTable) (p : TypeRef → Prop) : Group → Prop
  | ⟨_, _, children, _⟩ => Node.MeetsIn types p children

def Group.MeetsOption (types : TypeTable) (p : TypeRef → Prop) : Option Group → Prop
  | none => False
  | some g => g.Meets types p

def Clause.Meets (types : TypeTable) (p : TypeRef → Prop) : Clause → Prop
  | ⟨_, content⟩ => Node.MeetsIn types p content

def Clause.MeetsIn (types : TypeTable) (p : TypeRef → Prop) : List Clause → Prop
  | [] => False
  | c :: cs => c.Meets types p ∨ Clause.MeetsIn types p cs

def Clause.MeetsOption (types : TypeTable) (p : TypeRef → Prop) : Option Clause → Prop
  | none => False
  | some c => c.Meets types p

def TypeRef.Meets (types : TypeTable) (p : TypeRef → Prop) : TypeRef → Prop
  | ⟨name, path, none⟩ => p ⟨name, path, none⟩
  | ⟨name, dot :: path, some arguments⟩ =>
    p ⟨name, dot :: path, some arguments⟩ ∨ arguments.Meets types p
  | ⟨name, [], some arguments⟩ =>
    p ⟨name, [], some arguments⟩ ∨
      if types.unwraps name.text then arguments.MeetsFirst types p else arguments.Meets types p

def TypeArguments.Meets (types : TypeTable) (p : TypeRef → Prop) : TypeArguments → Prop
  | ⟨_, items, _⟩ => TypeArgument.MeetsIn types p items

/-- In the first argument alone. -/
def TypeArguments.MeetsFirst (types : TypeTable) (p : TypeRef → Prop) : TypeArguments → Prop
  | ⟨_, [], _⟩ => False
  | ⟨_, ⟨type, _⟩ :: _, _⟩ => Node.MeetsIn types p type

def TypeArgument.Meets (types : TypeTable) (p : TypeRef → Prop) : TypeArgument → Prop
  | ⟨type, _⟩ => Node.MeetsIn types p type

def TypeArgument.MeetsIn (types : TypeTable) (p : TypeRef → Prop) : List TypeArgument → Prop
  | [] => False
  | a :: as => a.Meets types p ∨ TypeArgument.MeetsIn types p as

def ClassDecl.Meets (types : TypeTable) (p : TypeRef → Prop) : ClassDecl → Prop
  | ⟨_, _, heritage, _, members, _, _⟩ =>
    Member.MeetsIn types p members ∨ Node.MeetsIn types p heritage

def Member.Meets (types : TypeTable) (p : TypeRef → Prop) : Member → Prop
  | .method m => m.Meets types p
  | .getter g => g.Meets types p
  | .other ns => Node.MeetsIn types p ns

def Member.MeetsIn (types : TypeTable) (p : TypeRef → Prop) : List Member → Prop
  | [] => False
  | m :: ms => m.Meets types p ∨ Member.MeetsIn types p ms

def Method.Meets (types : TypeTable) (p : TypeRef → Prop) : Method → Prop
  | ⟨_, decorators, _, _, name, _, typeParameters, parameters, returnType, body, _⟩ =>
    Clause.MeetsIn types p decorators ∨ name.Meets types p ∨ Node.MeetsIn types p typeParameters ∨
      parameters.Meets types p ∨ Clause.MeetsOption types p returnType ∨
        Group.MeetsOption types p body

def Getter.Meets (types : TypeTable) (p : TypeRef → Prop) : Getter → Prop
  | ⟨_, decorators, _, _, name, parameters, returnType, body, _⟩ =>
    Clause.MeetsIn types p decorators ∨ name.Meets types p ∨ parameters.Meets types p ∨
      Clause.MeetsOption types p returnType ∨ Group.MeetsOption types p body

def MemberName.Meets (types : TypeTable) (p : TypeRef → Prop) : MemberName → Prop
  | .identifier _ | .literal _ => False
  | .computed g => g.Meets types p

def ParameterList.Meets (types : TypeTable) (p : TypeRef → Prop) : ParameterList → Prop
  | ⟨_, items, _⟩ => Parameter.MeetsIn types p items

def Parameter.Meets (types : TypeTable) (p : TypeRef → Prop) : Parameter → Prop
  | ⟨_, _, binding, _, type, initializer, _⟩ =>
    binding.Meets types p ∨ Clause.MeetsOption types p type ∨
      Clause.MeetsOption types p initializer

def Parameter.MeetsIn (types : TypeTable) (p : TypeRef → Prop) : List Parameter → Prop
  | [] => False
  | q :: qs => q.Meets types p ∨ Parameter.MeetsIn types p qs

def Binding.Meets (types : TypeTable) (p : TypeRef → Prop) : Binding → Prop
  | .identifier _ => False
  | .pattern g => g.Meets types p

end

/-- The identifier stands alone, without a first type argument. -/
structure TypeRef.IsBare (identifier : String) (r : TypeRef) : Prop where
  unqualified : r.path = []
  named : r.name.text = identifier
  bare : r.firstArgument? = none

theorem TypeRef.IsBare.unwraps {types : TypeTable} {identifier : String} {r : TypeRef}
    (h : r.IsBare identifier) (hs : types.unwraps identifier = true) :
    types.unwraps r.name.text = true := h.named ▸ hs

/-! Outcomes. -/

section

variable {α β : Type} {types : TypeTable} {member : String} {P Q : String → Prop}

/-- The only failures are missing type arguments, of the identifiers for which `P` holds; and where
there is one of these, there is no result. -/
def FailsBy (member : String) (P : String → Prop) : Except ExpansionError α → Prop
  | .ok _ => ∀ s, ¬ P s
  | .error e => ∃ s, P s ∧ e = .missingTypeArgument member s

theorem failsBy_of_ok {r : Except ExpansionError α} (h : ∃ a, r = .ok a) :
    FailsBy member (fun _ => False) r := by
  obtain ⟨a, rfl⟩ := h
  exact fun _ => id

theorem FailsBy.bind {r : Except ExpansionError α} {f : α → Except ExpansionError β}
    (h : FailsBy member P r) (hf : ∀ a, r = .ok a → FailsBy member Q (f a)) :
    FailsBy member (fun s => P s ∨ Q s) (r >>= f) := by
  cases r with
  | error e =>
    obtain ⟨s, hs, rfl⟩ := h
    exact ⟨s, .inl hs, rfl⟩
  | ok a =>
    have hq := hf a rfl
    change FailsBy member _ (f a)
    cases hb : f a with
    | error e =>
      rw [hb] at hq
      obtain ⟨s, hs, rfl⟩ := hq
      exact ⟨s, .inr hs, rfl⟩
    | ok b =>
      rw [hb] at hq
      exact fun s hs => hs.elim (h s) (hq s)

theorem FailsBy.map {r : Except ExpansionError α} (h : FailsBy member P r) (f : α → β) :
    FailsBy member P (r >>= fun a => pure (f a)) := by
  cases r with
  | error e => exact h
  | ok a => exact h

theorem FailsBy.congr {r : Except ExpansionError α} (h : FailsBy member P r)
    (hpq : ∀ s, P s ↔ Q s) : FailsBy member Q r := by
  obtain rfl : P = Q := funext fun s => propext (hpq s)
  exact h

theorem FailsBy.eq_of_error {r : Except ExpansionError α} {e : ExpansionError}
    (h : FailsBy member P r) (he : r = .error e) :
    ∃ s, P s ∧ e = .missingTypeArgument member s := by
  rwa [he] at h

theorem FailsBy.error_iff {r : Except ExpansionError α} (h : FailsBy member P r) :
    (∃ e, r = .error e) ↔ ∃ s, P s := by
  cases r with
  | ok a => exact iff_of_false nofun fun ⟨s, hs⟩ => h s hs
  | error e =>
    obtain ⟨s, hs, -⟩ := h
    exact iff_of_true ⟨e, rfl⟩ ⟨s, hs⟩

namespace TypeTable

/-- Of the identifiers that give way to their first argument, those for which `P` holds make it
fail. -/
def FailsBy (types : TypeTable) (member : String) (P : String → Prop) :
    Except ExpansionError α → Prop :=
  TwinClasses.FailsBy member fun s => types.unwraps s = true ∧ P s

theorem failsBy_ok (a : α) : types.FailsBy member (fun _ => False) (.ok a) := fun _ h => h.2

theorem FailsBy.bind {r : Except ExpansionError α} {f : α → Except ExpansionError β}
    (h : types.FailsBy member P r) (hf : ∀ a, types.FailsBy member Q (f a)) :
    types.FailsBy member (fun s => P s ∨ Q s) (r >>= f) :=
  (TwinClasses.FailsBy.bind h fun a _ => hf a).congr fun _ => and_or_left.symm

theorem FailsBy.map {r : Except ExpansionError α} (h : types.FailsBy member P r) (f : α → β) :
    types.FailsBy member P (r >>= fun a => pure (f a)) :=
  TwinClasses.FailsBy.map h f

theorem FailsBy.congr {r : Except ExpansionError α} (h : types.FailsBy member P r)
    (hpq : ∀ s, types.unwraps s = true → (P s ↔ Q s)) : types.FailsBy member Q r :=
  TwinClasses.FailsBy.congr h fun s => and_congr_right (hpq s)

end TypeTable

end

section

variable {types : TypeTable} {member : String}

mutual

theorem Node.failsBy_toSync : ∀ n : Node,
    types.FailsBy member (fun s => n.Meets types (TypeRef.IsBare s)) (n.toSync types member)
  | .token t => by
    rw [Node.toSync]
    exact TypeTable.failsBy_ok _
  | .group g => by
    rw [Node.toSync]
    exact (Group.failsBy_toSync g).map _
  | .classDecl c => by
    rw [Node.toSync]
    exact (ClassDecl.failsBy_toSync c).map _
  | .forOf keyword none head => by
    rw [Node.toSync]
    exact (Group.failsBy_toSync head).map _
  | .forOf keyword (some awaiting) head => by
    rw [Node.toSync]
    exact (Group.failsBy_toSync head).map _
  | .await keyword operand => by
    rw [Node.toSync]
    exact (Node.failsBy_toSyncAll operand).map _
  | .access object dot name => by
    rw [Node.toSync]
    split
    · exact TypeTable.failsBy_ok _
    · exact TypeTable.failsBy_ok _
  | .typeRef r => by
    rw [Node.toSync]
    exact TypeRef.failsBy_toSync r

theorem Node.failsBy_toSyncAll : ∀ ns : List Node,
    types.FailsBy member (fun s => Node.MeetsIn types (TypeRef.IsBare s) ns)
      (Node.toSyncAll types member ns)
  | [] => by
    rw [Node.toSyncAll]
    exact TypeTable.failsBy_ok _
  | n :: ns => by
    rw [Node.toSyncAll]
    exact (Node.failsBy_toSync n).bind fun _ => (Node.failsBy_toSyncAll ns).map _

theorem Group.failsBy_toSync : ∀ g : Group,
    types.FailsBy member (fun s => g.Meets types (TypeRef.IsBare s)) (g.toSync types member)
  | ⟨delimiter, opening, children, closing⟩ => by
    rw [Group.toSync]
    exact (Node.failsBy_toSyncAll children).map _

theorem Group.failsBy_toSyncOption : ∀ g : Option Group,
    types.FailsBy member (fun s => Group.MeetsOption types (TypeRef.IsBare s) g)
      (Group.toSyncOption types member g)
  | none => by
    rw [Group.toSyncOption]
    exact TypeTable.failsBy_ok _
  | some g => by
    rw [Group.toSyncOption]
    exact (Group.failsBy_toSync g).map _

theorem Clause.failsBy_toSync : ∀ c : Clause,
    types.FailsBy member (fun s => c.Meets types (TypeRef.IsBare s)) (c.toSync types member)
  | ⟨mark, content⟩ => by
    rw [Clause.toSync]
    exact (Node.failsBy_toSyncAll content).map _

theorem Clause.failsBy_toSyncAll : ∀ cs : List Clause,
    types.FailsBy member (fun s => Clause.MeetsIn types (TypeRef.IsBare s) cs)
      (Clause.toSyncAll types member cs)
  | [] => by
    rw [Clause.toSyncAll]
    exact TypeTable.failsBy_ok _
  | c :: cs => by
    rw [Clause.toSyncAll]
    exact (Clause.failsBy_toSync c).bind fun _ => (Clause.failsBy_toSyncAll cs).map _

theorem Clause.failsBy_toSyncOption : ∀ c : Option Clause,
    types.FailsBy member (fun s => Clause.MeetsOption types (TypeRef.IsBare s) c)
      (Clause.toSyncOption types member c)
  | none => by
    rw [Clause.toSyncOption]
    exact TypeTable.failsBy_ok _
  | some c => by
    rw [Clause.toSyncOption]
    exact (Clause.failsBy_toSync c).map _

theorem TypeRef.failsBy_toSync : ∀ r : TypeRef,
    types.FailsBy member (fun s => r.Meets types (TypeRef.IsBare s)) (r.toSync types member)
  | ⟨name, dot :: path, none⟩ => by
    rw [TypeRef.toSync]
    exact fun s h => List.cons_ne_nil _ _ h.2.unqualified
  | ⟨name, dot :: path, some arguments⟩ => by
    rw [TypeRef.toSync]
    apply ((TypeArguments.failsBy_toSync arguments).map _).congr
    intro s _
    rw [TypeRef.Meets]
    exact (or_iff_right fun h => List.cons_ne_nil _ _ h.unqualified).symm
  | ⟨name, [], none⟩ => by
    rw [TypeRef.toSync]
    split
    · rename_i hunwraps
      exact ⟨name.text, ⟨hunwraps, rfl, rfl, rfl⟩, rfl⟩
    · rename_i hunwraps
      rintro s ⟨hs, -, rfl, -⟩
      exact hunwraps hs
  | ⟨name, [], some ⟨opening, [], closing⟩⟩ => by
    rw [TypeRef.toSync]
    split
    · rename_i hunwraps
      rw [TypeArguments.firstToSync]
      refine ⟨name.text, ⟨hunwraps, ?_⟩, rfl⟩
      simp only [TypeRef.Meets]
      exact .inl ⟨rfl, rfl, rfl⟩
    · rename_i hunwraps
      apply ((TypeArguments.failsBy_toSync ⟨opening, [], closing⟩).map _).congr
      intro s hs
      rw [TypeRef.Meets, if_neg hunwraps]
      exact (or_iff_right fun h => hunwraps (TypeRef.IsBare.unwraps h hs)).symm
  | ⟨name, [], some ⟨opening, ⟨type, comma⟩ :: items, closing⟩⟩ => by
    rw [TypeRef.toSync]
    split
    · rename_i hunwraps
      rw [TypeArguments.firstToSync]
      simp only [bind_assoc, pure_bind]
      apply ((Node.failsBy_toSyncAll type).map _).congr
      intro s _
      rw [TypeRef.Meets, if_pos hunwraps, TypeArguments.MeetsFirst]
      exact (or_iff_right fun h => Option.some_ne_none _ h.bare).symm
    · rename_i hunwraps
      apply ((TypeArguments.failsBy_toSync ⟨opening, ⟨type, comma⟩ :: items, closing⟩).map _).congr
      intro s hs
      rw [TypeRef.Meets, if_neg hunwraps]
      exact (or_iff_right fun h => hunwraps (TypeRef.IsBare.unwraps h hs)).symm

theorem TypeArguments.failsBy_toSync : ∀ a : TypeArguments,
    types.FailsBy member (fun s => a.Meets types (TypeRef.IsBare s)) (a.toSync types member)
  | ⟨opening, items, closing⟩ => by
    rw [TypeArguments.toSync]
    exact (TypeArgument.failsBy_toSyncAll items).map _

theorem TypeArgument.failsBy_toSync : ∀ a : TypeArgument,
    types.FailsBy member (fun s => a.Meets types (TypeRef.IsBare s)) (a.toSync types member)
  | ⟨type, comma⟩ => by
    rw [TypeArgument.toSync]
    exact (Node.failsBy_toSyncAll type).map _

theorem TypeArgument.failsBy_toSyncAll : ∀ as : List TypeArgument,
    types.FailsBy member (fun s => TypeArgument.MeetsIn types (TypeRef.IsBare s) as)
      (TypeArgument.toSyncAll types member as)
  | [] => by
    rw [TypeArgument.toSyncAll]
    exact TypeTable.failsBy_ok _
  | a :: as => by
    rw [TypeArgument.toSyncAll]
    exact (TypeArgument.failsBy_toSync a).bind fun _ => (TypeArgument.failsBy_toSyncAll as).map _

theorem ClassDecl.failsBy_toSync : ∀ c : ClassDecl,
    types.FailsBy member (fun s => c.Meets types (TypeRef.IsBare s)) (c.toSync types member)
  | ⟨keyword, name, heritage, opening, members, closing, isExpression⟩ => by
    rw [ClassDecl.toSync]
    exact (Member.failsBy_toSyncAll members).bind fun _ => (Node.failsBy_toSyncAll heritage).map _

theorem Member.failsBy_toSync : ∀ m : Member,
    types.FailsBy member (fun s => m.Meets types (TypeRef.IsBare s)) (m.toSync types member)
  | .method m => by
    rw [Member.toSync]
    exact (Method.failsBy_toSync m).map _
  | .getter g => by
    rw [Member.toSync]
    exact (Getter.failsBy_toSync g).map _
  | .other ns => by
    rw [Member.toSync]
    exact (Node.failsBy_toSyncAll ns).map _

theorem Member.failsBy_toSyncAll : ∀ ms : List Member,
    types.FailsBy member (fun s => Member.MeetsIn types (TypeRef.IsBare s) ms)
      (Member.toSyncAll types member ms)
  | [] => by
    rw [Member.toSyncAll]
    exact TypeTable.failsBy_ok _
  | m :: ms => by
    rw [Member.toSyncAll]
    exact (Member.failsBy_toSync m).bind fun _ => (Member.failsBy_toSyncAll ms).map _

theorem Method.failsBy_toSync : ∀ m : Method,
    types.FailsBy member (fun s => m.Meets types (TypeRef.IsBare s)) (m.toSync types member)
  | ⟨leading, decorators, modifiers, asterisk, name, question, typeParameters, parameters,
      returnType, body, terminator⟩ => by
    rw [Method.toSync]
    exact (Clause.failsBy_toSyncAll decorators).bind fun _ =>
      (MemberName.failsBy_toSync name).bind fun _ =>
      (Node.failsBy_toSyncAll typeParameters).bind fun _ =>
      (ParameterList.failsBy_toSync parameters).bind fun _ =>
      (Clause.failsBy_toSyncOption returnType).bind fun _ =>
      (Group.failsBy_toSyncOption body).map _

theorem Getter.failsBy_toSync : ∀ g : Getter,
    types.FailsBy member (fun s => g.Meets types (TypeRef.IsBare s)) (g.toSync types member)
  | ⟨leading, decorators, modifiers, keyword, name, parameters, returnType, body,
      terminator⟩ => by
    rw [Getter.toSync]
    exact (Clause.failsBy_toSyncAll decorators).bind fun _ =>
      (MemberName.failsBy_toSync name).bind fun _ =>
      (ParameterList.failsBy_toSync parameters).bind fun _ =>
      (Clause.failsBy_toSyncOption returnType).bind fun _ =>
      (Group.failsBy_toSyncOption body).map _

theorem MemberName.failsBy_toSync : ∀ n : MemberName,
    types.FailsBy member (fun s => n.Meets types (TypeRef.IsBare s)) (n.toSync types member)
  | .identifier t => by
    rw [MemberName.toSync]
    exact TypeTable.failsBy_ok _
  | .literal t => by
    rw [MemberName.toSync]
    exact TypeTable.failsBy_ok _
  | .computed g => by
    rw [MemberName.toSync]
    exact (Group.failsBy_toSync g).map _

theorem ParameterList.failsBy_toSync : ∀ ps : ParameterList,
    types.FailsBy member (fun s => ps.Meets types (TypeRef.IsBare s)) (ps.toSync types member)
  | ⟨opening, items, closing⟩ => by
    rw [ParameterList.toSync]
    exact (Parameter.failsBy_toSyncAll items).map _

theorem Parameter.failsBy_toSync : ∀ q : Parameter,
    types.FailsBy member (fun s => q.Meets types (TypeRef.IsBare s)) (q.toSync types member)
  | ⟨modifiers, rest, binding, question, type, initializer, comma⟩ => by
    rw [Parameter.toSync]
    exact (Binding.failsBy_toSync binding).bind fun _ =>
      (Clause.failsBy_toSyncOption type).bind fun _ =>
      (Clause.failsBy_toSyncOption initializer).map _

theorem Parameter.failsBy_toSyncAll : ∀ qs : List Parameter,
    types.FailsBy member (fun s => Parameter.MeetsIn types (TypeRef.IsBare s) qs)
      (Parameter.toSyncAll types member qs)
  | [] => by
    rw [Parameter.toSyncAll]
    exact TypeTable.failsBy_ok _
  | q :: qs => by
    rw [Parameter.toSyncAll]
    exact (Parameter.failsBy_toSync q).bind fun _ => (Parameter.failsBy_toSyncAll qs).map _

theorem Binding.failsBy_toSync : ∀ b : Binding,
    types.FailsBy member (fun s => b.Meets types (TypeRef.IsBare s)) (b.toSync types member)
  | .identifier t => by
    rw [Binding.toSync]
    exact TypeTable.failsBy_ok _
  | .pattern g => by
    rw [Binding.toSync]
    exact (Group.failsBy_toSync g).map _

end

end

end TwinClasses
