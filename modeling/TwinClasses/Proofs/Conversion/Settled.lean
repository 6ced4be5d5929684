import TwinClasses.Proofs.Conversion.Carrying
import TwinClasses.Proofs.Conversion.Renaming

set_option autoImplicit false

/-! What conversion leaves behind. A settled tree has nothing that conversion would change, so it
converts to itself, and where new names need no conversion themselves every converted tree is
settled. -/

namespace TwinClasses

/-- The node itself waits for nothing; the nodes inside it may. -/
def Node.IsImmediate : Node → Prop
  | .await _ _ => False
  | .forOf _ awaiting _ => awaiting = none
  | _ => True

/-- Nothing of the node itself is to be converted; the nodes inside it may be. -/
def Node.IsSettled (types : TypeTable) : Node → Prop
  | .token t => types.Leaves t
  | .group _ => True
  | .classDecl _ => True
  | .forOf _ awaiting _ => awaiting = none
  | .await _ _ => False
  | .access object _ name => isAsyncIterator object name = false ∧ types.Leaves object
  | .typeRef r => r.path = [] → types.unwraps r.name.text = false ∧ types.Leaves r.name

/-- A property that nodes have once they are converted, if the nodes inside them have it. -/
structure TypeTable.Ensures (types : TypeTable) (p : Node → Prop) : Prop where
  token : ∀ t, p (.token (types.rename t))
  group : ∀ g, p (.group g)
  classDecl : ∀ c, p (.classDecl c)
  forOf : ∀ keyword head, p (.forOf keyword none head)
  access : ∀ object dot name, isAsyncIterator object name = false →
    p (.access (types.rename object) dot name)
  iterator : ∀ object dot name, isAsyncIterator object name = true →
    p (.access object dot (name.spelled "iterator"))
  qualified : ∀ name dot path arguments, p (.typeRef ⟨name, dot :: path, arguments⟩)
  typeRef : ∀ name arguments, types.unwraps name.text = false →
    p (.typeRef ⟨types.rename name, [], arguments⟩)
  takeOver : ∀ dropped n, p n → p (n.mapFirst (Token.takeOver dropped))

namespace TypeTable

variable {types : TypeTable}

theorem ensures_isImmediate : types.Ensures Node.IsImmediate where
  token t := trivial
  group g := trivial
  classDecl c := trivial
  forOf keyword head := rfl
  access object dot name h := trivial
  iterator object dot name h := trivial
  qualified name dot path arguments := trivial
  typeRef name arguments h := trivial
  takeOver dropped n h := by
    cases n with
    | forOf keyword awaiting head => exact h
    | await keyword operand => exact h
    | _ => trivial

theorem ensures_isSettled (hs : types.IsStable) : types.Ensures (Node.IsSettled types) where
  token t := leaves_rename hs t
  group g := trivial
  classDecl c := trivial
  forOf keyword head := rfl
  access object dot name h := by
    refine ⟨?_, leaves_rename hs object⟩
    obtain ⟨-, ht⟩ | ⟨new, -, hn, ht⟩ := types.rename_cases object
    · rwa [ht]
    · have hnew := (hs.rename _ _ hn).2.2
      simp [ht, isAsyncIterator, Token.spelled, hnew]
  iterator object dot name h := by
    simp only [isAsyncIterator, Bool.and_eq_true, decide_eq_true_eq] at h
    refine ⟨by simp [isAsyncIterator, Token.spelled], fun _ => ?_⟩
    rw [h.1]
    exact hs.symbol
  qualified name dot path arguments := fun h => absurd h (List.cons_ne_nil _ _)
  typeRef name arguments h := fun _ => ⟨unwraps_rename hs h, leaves_rename hs name⟩
  takeOver dropped n h := by
    cases n with
    | _ => exact h

end TypeTable

theorem TypeTable.Ensures.carries {types : TypeTable} {p : Node → Prop} (hp : types.Ensures p) :
    types.Carries (fun _ => True) p where
  token t _ := hp.token t
  group _ g _ := hp.group g
  classDecl _ c _ _ := hp.classDecl c
  forOf keyword _ _ head _ := hp.forOf keyword head
  access object dot name _ := hp.access object dot name
  iterator object dot name _ := hp.iterator object dot name
  qualified _ name dot path _ arguments _ _ := hp.qualified name dot path arguments
  typeRef _ name _ arguments _ _ := hp.typeRef name arguments
  takeOver := hp.takeOver

section

variable {types : TypeTable} {member : String} {p : Node → Prop}

theorem Node.every_toSyncAll (hp : types.Ensures p) (ns ms : List Node)
    (h : Node.toSyncAll types member ns = .ok ms) : Node.EveryOf p ms :=
  Node.carry_toSyncAll hp.carries ns ms (Node.everyOf_of_forall (fun _ => trivial) ns) h

theorem Group.every_toSync (hp : types.Ensures p) (g g' : Group)
    (h : g.toSync types member = .ok g') : g'.Every p :=
  Group.carry_toSync hp.carries g g' (Group.every_of_forall (fun _ => trivial) g) h

theorem MemberName.every_toSync (hp : types.Ensures p) (n n' : MemberName)
    (h : n.toSync types member = .ok n') : n'.Every p :=
  MemberName.carry_toSync hp.carries n n' (MemberName.every_of_forall (fun _ => trivial) n) h

theorem ParameterList.every_toSync (hp : types.Ensures p) (ps ps' : ParameterList)
    (h : ps.toSync types member = .ok ps') : ps'.Every p :=
  ParameterList.carry_toSync hp.carries ps ps'
    (ParameterList.every_of_forall (fun _ => trivial) ps) h

/-! What is settled converts to itself. -/

mutual

theorem Node.toSync_settled : ∀ n : Node, n.Every (Node.IsSettled types) →
    n.toSync types member = .ok [n]
  | .token t => by
    intro h
    rw [Node.Every] at h
    rw [Node.toSync, TypeTable.rename_eq h]
  | .group g => by
    intro h
    rw [Node.Every] at h
    rw [Node.toSync, Group.toSync_settled g h.2]
    rfl
  | .classDecl c => by
    intro h
    rw [Node.Every] at h
    rw [Node.toSync, ClassDecl.toSync_settled c h.2]
    rfl
  | .forOf keyword none head => by
    intro h
    rw [Node.Every] at h
    rw [Node.toSync, Group.toSync_settled head h.2]
    rfl
  | .forOf keyword (some awaiting) head => by
    intro h
    rw [Node.Every] at h
    exact absurd h.1 (by simp [Node.IsSettled])
  | .await keyword operand => by
    intro h
    rw [Node.Every] at h
    exact absurd h.1 (by simp [Node.IsSettled])
  | .access object dot name => by
    intro h
    rw [Node.Every] at h
    rw [Node.toSync, if_neg (by simp [h.1]), TypeTable.rename_eq h.2]
  | .typeRef r => by
    intro h
    rw [Node.toSync]
    exact TypeRef.toSync_settled r h

theorem Node.toSyncAll_settled : ∀ ns : List Node, Node.EveryOf (Node.IsSettled types) ns →
    Node.toSyncAll types member ns = .ok ns
  | [] => by
    intro h
    rw [Node.toSyncAll]
  | n :: ns => by
    intro h
    rw [Node.EveryOf] at h
    rw [Node.toSyncAll, Node.toSync_settled n h.1, Node.toSyncAll_settled ns h.2]
    rfl

theorem Group.toSync_settled : ∀ g : Group, g.Every (Node.IsSettled types) →
    g.toSync types member = .ok g
  | ⟨d, opening, children, closing⟩ => by
    intro h
    rw [Group.Every] at h
    rw [Group.toSync, Node.toSyncAll_settled children h]
    rfl

theorem Group.toSyncOption_settled : ∀ g : Option Group,
    Group.EveryIn (Node.IsSettled types) g → Group.toSyncOption types member g = .ok g
  | none => by
    intro h
    rw [Group.toSyncOption]
  | some g => by
    intro h
    rw [Group.EveryIn] at h
    rw [Group.toSyncOption, Group.toSync_settled g h]
    rfl

theorem Clause.toSync_settled : ∀ c : Clause, c.Every (Node.IsSettled types) →
    c.toSync types member = .ok c
  | ⟨mark, content⟩ => by
    intro h
    rw [Clause.Every] at h
    rw [Clause.toSync, Node.toSyncAll_settled content h]
    rfl

theorem Clause.toSyncAll_settled : ∀ cs : List Clause,
    Clause.EveryOf (Node.IsSettled types) cs → Clause.toSyncAll types member cs = .ok cs
  | [] => by
    intro h
    rw [Clause.toSyncAll]
  | c :: cs => by
    intro h
    rw [Clause.EveryOf] at h
    rw [Clause.toSyncAll, Clause.toSync_settled c h.1, Clause.toSyncAll_settled cs h.2]
    rfl

theorem Clause.toSyncOption_settled : ∀ c : Option Clause,
    Clause.EveryIn (Node.IsSettled types) c → Clause.toSyncOption types member c = .ok c
  | none => by
    intro h
    rw [Clause.toSyncOption]
  | some c => by
    intro h
    rw [Clause.EveryIn] at h
    rw [Clause.toSyncOption, Clause.toSync_settled c h]
    rfl

theorem TypeRef.toSync_settled : ∀ r : TypeRef, (Node.typeRef r).Every (Node.IsSettled types) →
    r.toSync types member = .ok [.typeRef r]
  | ⟨name, dot :: path, none⟩ => by
    intro h
    rw [TypeRef.toSync]
  | ⟨name, dot :: path, some arguments⟩ => by
    intro h
    rw [Node.Every, TypeRef.Every, TypeArguments.EveryIn] at h
    rw [TypeRef.toSync, TypeArguments.toSync_settled arguments h.2]
    rfl
  | ⟨name, [], none⟩ => by
    intro h
    rw [Node.Every] at h
    obtain ⟨hu, hl⟩ := h.1 rfl
    rw [TypeRef.toSync, if_neg (by simp [hu]), TypeTable.rename_eq hl]
  | ⟨name, [], some arguments⟩ => by
    intro h
    rw [Node.Every, TypeRef.Every, TypeArguments.EveryIn] at h
    obtain ⟨hu, hl⟩ := h.1 rfl
    rw [TypeRef.toSync, if_neg (by simp [hu]), TypeTable.rename_eq hl,
      TypeArguments.toSync_settled arguments h.2]
    rfl

theorem TypeArguments.toSync_settled : ∀ a : TypeArguments, a.Every (Node.IsSettled types) →
    a.toSync types member = .ok a
  | ⟨opening, items, closing⟩ => by
    intro h
    rw [TypeArguments.Every] at h
    rw [TypeArguments.toSync, TypeArgument.toSyncAll_settled items h]
    rfl

theorem TypeArgument.toSync_settled : ∀ a : TypeArgument, a.Every (Node.IsSettled types) →
    a.toSync types member = .ok a
  | ⟨type, comma⟩ => by
    intro h
    rw [TypeArgument.Every] at h
    rw [TypeArgument.toSync, Node.toSyncAll_settled type h]
    rfl

theorem TypeArgument.toSyncAll_settled : ∀ as : List TypeArgument,
    TypeArgument.EveryOf (Node.IsSettled types) as →
      TypeArgument.toSyncAll types member as = .ok as
  | [] => by
    intro h
    rw [TypeArgument.toSyncAll]
  | a :: as => by
    intro h
    rw [TypeArgument.EveryOf] at h
    rw [TypeArgument.toSyncAll, TypeArgument.toSync_settled a h.1,
      TypeArgument.toSyncAll_settled as h.2]
    rfl

theorem ClassDecl.toSync_settled : ∀ c : ClassDecl, c.Every (Node.IsSettled types) →
    c.toSync types member = .ok c
  | ⟨keyword, name, heritage, opening, members, closing, isExpression⟩ => by
    intro h
    rw [ClassDecl.Every] at h
    rw [ClassDecl.toSync, Member.toSyncAll_settled members h.2, Node.toSyncAll_settled heritage h.1]
    rfl

theorem Member.toSync_settled : ∀ m : Member, m.Every (Node.IsSettled types) →
    m.toSync types member = .ok m
  | .method m => by
    intro h
    rw [Member.Every] at h
    rw [Member.toSync, Method.toSync_settled m h]
    rfl
  | .getter g => by
    intro h
    rw [Member.Every] at h
    rw [Member.toSync, Getter.toSync_settled g h]
    rfl
  | .other ns => by
    intro h
    rw [Member.Every] at h
    rw [Member.toSync, Node.toSyncAll_settled ns h]
    rfl

theorem Member.toSyncAll_settled : ∀ ms : List Member,
    Member.EveryOf (Node.IsSettled types) ms → Member.toSyncAll types member ms = .ok ms
  | [] => by
    intro h
    rw [Member.toSyncAll]
  | m :: ms => by
    intro h
    rw [Member.EveryOf] at h
    rw [Member.toSyncAll, Member.toSync_settled m h.1, Member.toSyncAll_settled ms h.2]
    rfl

theorem Method.toSync_settled : ∀ m : Method, m.Every (Node.IsSettled types) →
    m.toSync types member = .ok m
  | ⟨leading, decorators, modifiers, asterisk, name, question, typeParameters, parameters,
      returnType, body, terminator⟩ => by
    intro h
    rw [Method.Every] at h
    obtain ⟨hd, hn, ht, hp, hr, hb⟩ := h
    rw [Method.toSync, Clause.toSyncAll_settled decorators hd, MemberName.toSync_settled name hn,
      Node.toSyncAll_settled typeParameters ht, ParameterList.toSync_settled parameters hp,
      Clause.toSyncOption_settled returnType hr, Group.toSyncOption_settled body hb]
    rfl

theorem Getter.toSync_settled : ∀ g : Getter, g.Every (Node.IsSettled types) →
    g.toSync types member = .ok g
  | ⟨leading, decorators, modifiers, keyword, name, parameters, returnType, body,
      terminator⟩ => by
    intro h
    rw [Getter.Every] at h
    obtain ⟨hd, hn, hp, hr, hb⟩ := h
    rw [Getter.toSync, Clause.toSyncAll_settled decorators hd, MemberName.toSync_settled name hn,
      ParameterList.toSync_settled parameters hp, Clause.toSyncOption_settled returnType hr,
      Group.toSyncOption_settled body hb]
    rfl

theorem MemberName.toSync_settled : ∀ n : MemberName, n.Every (Node.IsSettled types) →
    n.toSync types member = .ok n
  | .identifier t => by
    intro h
    rw [MemberName.toSync]
  | .literal t => by
    intro h
    rw [MemberName.toSync]
  | .computed g => by
    intro h
    rw [MemberName.Every] at h
    rw [MemberName.toSync, Group.toSync_settled g h]
    rfl

theorem ParameterList.toSync_settled : ∀ ps : ParameterList, ps.Every (Node.IsSettled types) →
    ps.toSync types member = .ok ps
  | ⟨opening, items, closing⟩ => by
    intro h
    rw [ParameterList.Every] at h
    rw [ParameterList.toSync, Parameter.toSyncAll_settled items h]
    rfl

theorem Parameter.toSync_settled : ∀ q : Parameter, q.Every (Node.IsSettled types) →
    q.toSync types member = .ok q
  | ⟨modifiers, rest, binding, question, type, initializer, comma⟩ => by
    intro h
    rw [Parameter.Every] at h
    rw [Parameter.toSync, Binding.toSync_settled binding h.1,
      Clause.toSyncOption_settled type h.2.1, Clause.toSyncOption_settled initializer h.2.2]
    rfl

theorem Parameter.toSyncAll_settled : ∀ qs : List Parameter,
    Parameter.EveryOf (Node.IsSettled types) qs → Parameter.toSyncAll types member qs = .ok qs
  | [] => by
    intro h
    rw [Parameter.toSyncAll]
  | q :: qs => by
    intro h
    rw [Parameter.EveryOf] at h
    rw [Parameter.toSyncAll, Parameter.toSync_settled q h.1, Parameter.toSyncAll_settled qs h.2]
    rfl

theorem Binding.toSync_settled : ∀ b : Binding, b.Every (Node.IsSettled types) →
    b.toSync types member = .ok b
  | .identifier t => by
    intro h
    rw [Binding.toSync]
  | .pattern g => by
    intro h
    rw [Binding.Every] at h
    rw [Binding.toSync, Group.toSync_settled g h]
    rfl

end

/-- Where new names need no conversion themselves, what conversion gives converts to itself, to the
last blank, and the nodes that convert to themselves are the settled ones. -/
theorem Node.toSyncAll_fixed (hs : types.IsStable) (member : String) (ns : List Node) :
    (∀ ms, Node.toSyncAll types member ns = .ok ms → Node.toSyncAll types member ms = .ok ms) ∧
      (Node.toSyncAll types member ns = .ok ns ↔ Node.EveryOf (Node.IsSettled types) ns) := by
  have hgiven : ∀ ms, Node.toSyncAll types member ns = .ok ms →
      Node.EveryOf (Node.IsSettled types) ms :=
    fun ms h => Node.every_toSyncAll (TypeTable.ensures_isSettled hs) ns ms h
  refine ⟨fun ms h => Node.toSyncAll_settled ms (hgiven ms h), ?_⟩
  exact ⟨hgiven ns, Node.toSyncAll_settled ns⟩

/-- The type that takes the place of two others is renamed, and a loop over an asynchronous iterator
is one over an iterator; neither changes again. -/
theorem Node.toSyncAll_fixed_default :
    let reference := fun (leading name : String) (type : List Node) =>
      Node.typeRef ⟨.identifier leading name, [], some ⟨.bare .lessThan "<", [⟨type, none⟩],
        .bare .greaterThan ">"⟩⟩
    let head := fun (leading name : String) =>
      Group.of .paren leading [.access (.identifier "" "Symbol") (.bare .dot ".")
        (.identifier "" name)] ""
    let ns : List Node :=
      [.forOf (.identifier "" "for") (some (.identifier " " "await")) (head "" "asyncIterator"),
        .await (.identifier "\n" "await") [reference " " "AsyncOrSync"
          [reference "/* a */" "AsyncOrSync" [.token (.identifier "" "AsyncIterable")]]]]
    let ms : List Node := [.forOf (.identifier "" "for") none (head " " "iterator"),
      .token (.identifier "\n/* a */" "Iterable")]
    TypeTable.IsStable {} ∧ Node.toSyncAll {} "f" ns = .ok ms ∧ Node.toSyncAll {} "f" ms = .ok ms ∧
      Node.EveryOf (Node.IsSettled {}) ms := by
  intro reference head ns ms
  have h : Node.toSyncAll {} "f" ns = .ok ms := by rfl
  have hm := (Node.toSyncAll_fixed TypeTable.isStable_default "f" ns).1 ms h
  exact ⟨TypeTable.isStable_default, h, hm,
    (Node.toSyncAll_fixed TypeTable.isStable_default "f" ms).2.1 hm⟩

end

end TwinClasses
