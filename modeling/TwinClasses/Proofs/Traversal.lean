import TwinClasses.Syntax.Leading

set_option autoImplicit false

/-! Properties of all nodes of a syntax tree, however deeply they are nested: in groups, members,
parameters, type arguments, decorators and operands alike. -/

namespace TwinClasses

mutual

/-- The node and all nodes inside it have the property. -/
def Node.Every (p : Node → Prop) : Node → Prop
  | .token t => p (.token t)
  | .group g => p (.group g) ∧ g.Every p
  | .classDecl c => p (.classDecl c) ∧ c.Every p
  | .forOf keyword awaiting head => p (.forOf keyword awaiting head) ∧ head.Every p
  | .await keyword operand => p (.await keyword operand) ∧ Node.EveryOf p operand
  | .access object dot name => p (.access object dot name)
  | .typeRef r => p (.typeRef r) ∧ r.Every p

def Node.EveryOf (p : Node → Prop) : List Node → Prop
  | [] => True
  | n :: ns => n.Every p ∧ Node.EveryOf p ns

def Group.Every (p : Node → Prop) : Group → Prop
  | ⟨_, _, children, _⟩ => Node.EveryOf p children

def Group.EveryIn (p : Node → Prop) : Option Group → Prop
  | none => True
  | some g => g.Every p

def Clause.Every (p : Node → Prop) : Clause → Prop
  | ⟨_, content⟩ => Node.EveryOf p content

def Clause.EveryOf (p : Node → Prop) : List Clause → Prop
  | [] => True
  | c :: cs => c.Every p ∧ Clause.EveryOf p cs

def Clause.EveryIn (p : Node → Prop) : Option Clause → Prop
  | none => True
  | some c => c.Every p

def TypeRef.Every (p : Node → Prop) : TypeRef → Prop
  | ⟨_, _, arguments⟩ => TypeArguments.EveryIn p arguments

def TypeArguments.Every (p : Node → Prop) : TypeArguments → Prop
  | ⟨_, items, _⟩ => TypeArgument.EveryOf p items

def TypeArguments.EveryIn (p : Node → Prop) : Option TypeArguments → Prop
  | none => True
  | some a => a.Every p

def TypeArgument.Every (p : Node → Prop) : TypeArgument → Prop
  | ⟨type, _⟩ => Node.EveryOf p type

def TypeArgument.EveryOf (p : Node → Prop) : List TypeArgument → Prop
  | [] => True
  | a :: as => a.Every p ∧ TypeArgument.EveryOf p as

def ClassDecl.Every (p : Node → Prop) : ClassDecl → Prop
  | ⟨_, _, heritage, _, members, _, _⟩ => Node.EveryOf p heritage ∧ Member.EveryOf p members

def Member.Every (p : Node → Prop) : Member → Prop
  | .method m => m.Every p
  | .getter g => g.Every p
  | .other ns => Node.EveryOf p ns

def Member.EveryOf (p : Node → Prop) : List Member → Prop
  | [] => True
  | m :: ms => m.Every p ∧ Member.EveryOf p ms

def Method.Every (p : Node → Prop) : Method → Prop
  | ⟨_, decorators, _, _, name, _, typeParameters, parameters, returnType, body, _⟩ =>
    Clause.EveryOf p decorators ∧ name.Every p ∧ Node.EveryOf p typeParameters ∧
      parameters.Every p ∧ Clause.EveryIn p returnType ∧ Group.EveryIn p body

def Getter.Every (p : Node → Prop) : Getter → Prop
  | ⟨_, decorators, _, _, name, parameters, returnType, body, _⟩ =>
    Clause.EveryOf p decorators ∧ name.Every p ∧ parameters.Every p ∧
      Clause.EveryIn p returnType ∧ Group.EveryIn p body

def MemberName.Every (p : Node → Prop) : MemberName → Prop
  | .identifier _ | .literal _ => True
  | .computed g => g.Every p

def ParameterList.Every (p : Node → Prop) : ParameterList → Prop
  | ⟨_, items, _⟩ => Parameter.EveryOf p items

def Parameter.Every (p : Node → Prop) : Parameter → Prop
  | ⟨_, _, binding, _, type, initializer, _⟩ =>
    binding.Every p ∧ Clause.EveryIn p type ∧ Clause.EveryIn p initializer

def Parameter.EveryOf (p : Node → Prop) : List Parameter → Prop
  | [] => True
  | q :: qs => q.Every p ∧ Parameter.EveryOf p qs

def Binding.Every (p : Node → Prop) : Binding → Prop
  | .identifier _ => True
  | .pattern g => g.Every p

end

variable {p : Node → Prop}

theorem Node.everyOf_append (ns ms : List Node) :
    Node.EveryOf p (ns ++ ms) ↔ Node.EveryOf p ns ∧ Node.EveryOf p ms := by
  induction ns with
  | nil => simp [Node.EveryOf]
  | cons n ns ih => simp [Node.EveryOf, ih, and_assoc]

theorem Clause.everyOf_append (cs ds : List Clause) :
    Clause.EveryOf p (cs ++ ds) ↔ Clause.EveryOf p cs ∧ Clause.EveryOf p ds := by
  induction cs with
  | nil => simp [Clause.EveryOf]
  | cons c cs ih => simp [Clause.EveryOf, ih, and_assoc]

theorem Node.everyOf_single {n : Node} (h : n.Every p) : Node.EveryOf p [n] := by
  rw [EveryOf, EveryOf]
  exact ⟨h, trivial⟩

theorem Member.everyOf_single {m : Member} (h : m.Every p) : Member.EveryOf p [m] := by
  rw [EveryOf, EveryOf]
  exact ⟨h, trivial⟩

theorem Clause.everyOf_nil : Clause.EveryOf p [] := by simp [EveryOf]

theorem Member.everyOf_append (ms ms' : List Member) :
    Member.EveryOf p (ms ++ ms') ↔ Member.EveryOf p ms ∧ Member.EveryOf p ms' := by
  induction ms with
  | nil => simp [Member.EveryOf]
  | cons m ms ih => simp [Member.EveryOf, ih, and_assoc]

theorem Member.every_of_mem {m : Member} {ms : List Member} (h : Member.EveryOf p ms)
    (hm : m ∈ ms) : m.Every p := by
  induction ms with
  | nil => cases hm
  | cons m' ms ih =>
    rw [EveryOf] at h
    obtain rfl | hm := List.mem_cons.1 hm
    · exact h.1
    · exact ih h.2 hm

theorem ClassDecl.everyOf_members {c : ClassDecl} (h : c.Every p) :
    Member.EveryOf p c.members := by
  cases c
  rw [Every] at h
  exact h.2

theorem Method.every_iff {m : Method} : m.Every p ↔ Clause.EveryOf p m.decorators ∧
    m.name.Every p ∧ Node.EveryOf p m.typeParameters ∧ m.parameters.Every p ∧
      Clause.EveryIn p m.returnType ∧ Group.EveryIn p m.body := by
  cases m
  rw [Every]

theorem Getter.every_iff {g : Getter} : g.Every p ↔ Clause.EveryOf p g.decorators ∧
    g.name.Every p ∧ g.parameters.Every p ∧ Clause.EveryIn p g.returnType ∧
      Group.EveryIn p g.body := by
  cases g
  rw [Every]

theorem MemberName.every_mapFirst (f : Token → Token) (n : MemberName) :
    (n.mapFirst f).Every p ↔ n.Every p := by
  cases n with
  | computed g =>
    obtain ⟨d, opening, children, closing⟩ := g
    simp [mapFirst, Every, Group.Every]
  | _ => simp [mapFirst, Every]

theorem Method.every_mapFirst (f : Token → Token) (m : Method) :
    (m.mapFirst f).Every p ↔ m.Every p := by
  obtain ⟨leading, decorators, modifiers, asterisk, name, question, typeParameters, parameters,
    returnType, body, terminator⟩ := m
  cases decorators with
  | cons d ds =>
    obtain ⟨mark, content⟩ := d
    simp [mapFirst, Every, Clause.EveryOf, Clause.Every]
  | nil =>
    cases modifiers with
    | cons t ts => simp [mapFirst, Every]
    | nil => cases asterisk <;> simp [mapFirst, Every, MemberName.every_mapFirst]

theorem Getter.every_mapFirst (f : Token → Token) (g : Getter) :
    (g.mapFirst f).Every p ↔ g.Every p := by
  obtain ⟨leading, decorators, modifiers, keyword, name, parameters, returnType, body,
    terminator⟩ := g
  cases decorators with
  | cons d ds =>
    obtain ⟨mark, content⟩ := d
    simp [mapFirst, Every, Clause.EveryOf, Clause.Every]
  | nil => cases modifiers <;> simp [mapFirst, Every]

theorem Method.every_hoistLeading (m : Method) : m.hoistLeading.Every p ↔ m.Every p := by
  rw [← Method.every_mapFirst (·.ledBy "") m, hoistLeading]
  generalize m.mapFirst (·.ledBy "") = m'
  cases m'
  simp [Every]

theorem Getter.every_hoistLeading (g : Getter) : g.hoistLeading.Every p ↔ g.Every p := by
  rw [← Getter.every_mapFirst (·.ledBy "") g, hoistLeading]
  generalize g.mapFirst (·.ledBy "") = g'
  cases g'
  simp [Every]

theorem Node.every_mapFirst {f : Token → Token}
    (hp : ∀ n, p n → p (n.mapFirst f)) {n : Node} (h : n.Every p) : (n.mapFirst f).Every p := by
  cases n with
  | group g =>
    obtain ⟨d, opening, children, closing⟩ := g
    rw [Every] at h
    rw [mapFirst, Every]
    exact ⟨hp _ h.1, h.2⟩
  | classDecl c =>
    obtain ⟨keyword, name, heritage, opening, members, closing, isExpression⟩ := c
    rw [Every] at h
    rw [mapFirst, Every]
    exact ⟨hp _ h.1, h.2⟩
  | typeRef r =>
    obtain ⟨name, path, arguments⟩ := r
    rw [Every] at h
    rw [mapFirst, Every]
    exact ⟨hp _ h.1, h.2⟩
  | forOf keyword awaiting head =>
    rw [Every] at h
    rw [mapFirst, Every]
    exact ⟨hp _ h.1, h.2⟩
  | await keyword operand =>
    rw [Every] at h
    rw [mapFirst, Every]
    exact ⟨hp _ h.1, h.2⟩
  | token t =>
    rw [Every] at h
    rw [mapFirst, Every]
    exact hp _ h
  | access object dot name =>
    rw [Every] at h
    rw [mapFirst, Every]
    exact hp _ h

theorem Node.everyOf_takeOver {dropped : String}
    (hp : ∀ n, p n → p (n.mapFirst (Token.takeOver dropped))) {ns : List Node}
    (h : Node.EveryOf p ns) : Node.EveryOf p (Node.takeOver dropped ns) := by
  cases ns with
  | nil => exact h
  | cons n ns =>
    rw [EveryOf] at h
    rw [takeOver, EveryOf]
    exact ⟨Node.every_mapFirst hp h.1, h.2⟩

theorem Node.Every.every_arguments {name : Token} {path : List (Token × Token)}
    {arguments : TypeArguments} (h : (Node.typeRef ⟨name, path, some arguments⟩).Every p) :
    arguments.Every p := by
  rw [Node.Every, TypeRef.Every, TypeArguments.EveryIn] at h
  exact h.2

/-! Whatever follows from a property of a node and of all nodes inside it holds throughout a tree
that has the property throughout. -/

section

variable {q : Node → Prop}

mutual

theorem Node.Every.imp (h : ∀ n : Node, n.Every p → q n) : ∀ {n : Node}, n.Every p → n.Every q
  | .token _, hn | .access _ _ _, hn => by
    rw [Node.Every]
    exact h _ hn
  | .group _, hn | .classDecl _, hn | .forOf _ _ _, hn | .await _ _, hn | .typeRef _, hn => by
    have hq := h _ hn
    rw [Node.Every] at hn ⊢
    exact ⟨hq, hn.2.imp h⟩

theorem Node.EveryOf.imp (h : ∀ n : Node, n.Every p → q n) :
    ∀ {ns : List Node}, Node.EveryOf p ns → Node.EveryOf q ns
  | [], _ => by simp [Node.EveryOf]
  | _ :: _, hns => by
    rw [Node.EveryOf] at hns ⊢
    exact ⟨hns.1.imp h, hns.2.imp h⟩

theorem Group.Every.imp (h : ∀ n : Node, n.Every p → q n) : ∀ {g : Group}, g.Every p → g.Every q
  | ⟨_, _, _, _⟩, hg => by
    rw [Group.Every] at hg ⊢
    exact hg.imp h

theorem Group.EveryIn.imp (h : ∀ n : Node, n.Every p → q n) :
    ∀ {g : Option Group}, Group.EveryIn p g → Group.EveryIn q g
  | none, _ => by simp [Group.EveryIn]
  | some _, hg => by
    rw [Group.EveryIn] at hg ⊢
    exact hg.imp h

theorem Clause.Every.imp (h : ∀ n : Node, n.Every p → q n) : ∀ {c : Clause}, c.Every p → c.Every q
  | ⟨_, _⟩, hc => by
    rw [Clause.Every] at hc ⊢
    exact hc.imp h

theorem Clause.EveryOf.imp (h : ∀ n : Node, n.Every p → q n) :
    ∀ {cs : List Clause}, Clause.EveryOf p cs → Clause.EveryOf q cs
  | [], _ => by simp [Clause.EveryOf]
  | _ :: _, hcs => by
    rw [Clause.EveryOf] at hcs ⊢
    exact ⟨hcs.1.imp h, hcs.2.imp h⟩

theorem Clause.EveryIn.imp (h : ∀ n : Node, n.Every p → q n) :
    ∀ {c : Option Clause}, Clause.EveryIn p c → Clause.EveryIn q c
  | none, _ => by simp [Clause.EveryIn]
  | some _, hc => by
    rw [Clause.EveryIn] at hc ⊢
    exact hc.imp h

theorem TypeRef.Every.imp (h : ∀ n : Node, n.Every p → q n) : ∀ {r : TypeRef}, r.Every p → r.Every q
  | ⟨_, _, _⟩, hr => by
    rw [TypeRef.Every] at hr ⊢
    exact hr.imp h

theorem TypeArguments.Every.imp (h : ∀ n : Node, n.Every p → q n) :
    ∀ {a : TypeArguments}, a.Every p → a.Every q
  | ⟨_, _, _⟩, ha => by
    rw [TypeArguments.Every] at ha ⊢
    exact ha.imp h

theorem TypeArguments.EveryIn.imp (h : ∀ n : Node, n.Every p → q n) :
    ∀ {a : Option TypeArguments}, TypeArguments.EveryIn p a → TypeArguments.EveryIn q a
  | none, _ => by simp [TypeArguments.EveryIn]
  | some _, ha => by
    rw [TypeArguments.EveryIn] at ha ⊢
    exact ha.imp h

theorem TypeArgument.Every.imp (h : ∀ n : Node, n.Every p → q n) :
    ∀ {a : TypeArgument}, a.Every p → a.Every q
  | ⟨_, _⟩, ha => by
    rw [TypeArgument.Every] at ha ⊢
    exact ha.imp h

theorem TypeArgument.EveryOf.imp (h : ∀ n : Node, n.Every p → q n) :
    ∀ {as : List TypeArgument}, TypeArgument.EveryOf p as → TypeArgument.EveryOf q as
  | [], _ => by simp [TypeArgument.EveryOf]
  | _ :: _, has => by
    rw [TypeArgument.EveryOf] at has ⊢
    exact ⟨has.1.imp h, has.2.imp h⟩

theorem ClassDecl.Every.imp (h : ∀ n : Node, n.Every p → q n) :
    ∀ {c : ClassDecl}, c.Every p → c.Every q
  | ⟨_, _, _, _, _, _, _⟩, hc => by
    rw [ClassDecl.Every] at hc ⊢
    exact ⟨hc.1.imp h, hc.2.imp h⟩

theorem Member.Every.imp (h : ∀ n : Node, n.Every p → q n) : ∀ {m : Member}, m.Every p → m.Every q
  | .method _, hm | .getter _, hm | .other _, hm => by
    rw [Member.Every] at hm ⊢
    exact hm.imp h

theorem Member.EveryOf.imp (h : ∀ n : Node, n.Every p → q n) :
    ∀ {ms : List Member}, Member.EveryOf p ms → Member.EveryOf q ms
  | [], _ => by simp [Member.EveryOf]
  | _ :: _, hms => by
    rw [Member.EveryOf] at hms ⊢
    exact ⟨hms.1.imp h, hms.2.imp h⟩

theorem Method.Every.imp (h : ∀ n : Node, n.Every p → q n) : ∀ {m : Method}, m.Every p → m.Every q
  | ⟨_, _, _, _, _, _, _, _, _, _, _⟩, hm => by
    rw [Method.Every] at hm ⊢
    obtain ⟨hdecorators, hname, hgenerics, hparameters, hreturn, hbody⟩ := hm
    exact ⟨hdecorators.imp h, hname.imp h, hgenerics.imp h, hparameters.imp h,
      hreturn.imp h, hbody.imp h⟩

theorem Getter.Every.imp (h : ∀ n : Node, n.Every p → q n) : ∀ {g : Getter}, g.Every p → g.Every q
  | ⟨_, _, _, _, _, _, _, _, _⟩, hg => by
    rw [Getter.Every] at hg ⊢
    obtain ⟨hdecorators, hname, hparameters, hreturn, hbody⟩ := hg
    exact ⟨hdecorators.imp h, hname.imp h, hparameters.imp h, hreturn.imp h, hbody.imp h⟩

theorem MemberName.Every.imp (h : ∀ n : Node, n.Every p → q n) :
    ∀ {n : MemberName}, n.Every p → n.Every q
  | .identifier _, _ | .literal _, _ => by simp [MemberName.Every]
  | .computed _, hn => by
    rw [MemberName.Every] at hn ⊢
    exact hn.imp h

theorem ParameterList.Every.imp (h : ∀ n : Node, n.Every p → q n) :
    ∀ {ps : ParameterList}, ps.Every p → ps.Every q
  | ⟨_, _, _⟩, hps => by
    rw [ParameterList.Every] at hps ⊢
    exact hps.imp h

theorem Parameter.Every.imp (h : ∀ n : Node, n.Every p → q n) :
    ∀ {r : Parameter}, r.Every p → r.Every q
  | ⟨_, _, _, _, _, _, _⟩, hr => by
    rw [Parameter.Every] at hr ⊢
    obtain ⟨hbinding, htype, hinitializer⟩ := hr
    exact ⟨hbinding.imp h, htype.imp h, hinitializer.imp h⟩

theorem Parameter.EveryOf.imp (h : ∀ n : Node, n.Every p → q n) :
    ∀ {rs : List Parameter}, Parameter.EveryOf p rs → Parameter.EveryOf q rs
  | [], _ => by simp [Parameter.EveryOf]
  | _ :: _, hrs => by
    rw [Parameter.EveryOf] at hrs ⊢
    exact ⟨hrs.1.imp h, hrs.2.imp h⟩

theorem Binding.Every.imp (h : ∀ n : Node, n.Every p → q n) : ∀ {b : Binding}, b.Every p → b.Every q
  | .identifier _, _ => by simp [Binding.Every]
  | .pattern _, hb => by
    rw [Binding.Every] at hb ⊢
    exact hb.imp h

end

theorem Node.Every.self {n : Node} (h : n.Every p) : p n := by
  cases n with
  | token _ | access _ _ _ => rwa [Every] at h
  | group _ | classDecl _ | forOf _ _ _ | await _ _ | typeRef _ =>
    rw [Every] at h
    exact h.1

/-! What has a property everywhere has every weaker one. -/

theorem Node.Every.mono (h : ∀ n, p n → q n) {n : Node} (hn : n.Every p) : n.Every q :=
  hn.imp fun n hn => h n hn.self

theorem Node.EveryOf.mono (h : ∀ n, p n → q n) {ns : List Node} (hns : Node.EveryOf p ns) :
    Node.EveryOf q ns := hns.imp fun n hn => h n hn.self

end

/-! What holds of all nodes holds of those of every tree. -/

section

mutual

theorem Node.every_of_forall (h : ∀ n, p n) : ∀ n : Node, n.Every p
  | .token _ | .access _ _ _ => by
    rw [Node.Every]
    exact h _
  | .group g => by
    rw [Node.Every]
    exact ⟨h _, Group.every_of_forall h g⟩
  | .classDecl c => by
    rw [Node.Every]
    exact ⟨h _, ClassDecl.every_of_forall h c⟩
  | .forOf _ _ head => by
    rw [Node.Every]
    exact ⟨h _, Group.every_of_forall h head⟩
  | .await _ operand => by
    rw [Node.Every]
    exact ⟨h _, Node.everyOf_of_forall h operand⟩
  | .typeRef r => by
    rw [Node.Every]
    exact ⟨h _, TypeRef.every_of_forall h r⟩

theorem Node.everyOf_of_forall (h : ∀ n, p n) : ∀ ns : List Node, Node.EveryOf p ns
  | [] => by simp [Node.EveryOf]
  | n :: ns => by
    rw [Node.EveryOf]
    exact ⟨Node.every_of_forall h n, Node.everyOf_of_forall h ns⟩

theorem Group.every_of_forall (h : ∀ n, p n) : ∀ g : Group, g.Every p
  | ⟨_, _, children, _⟩ => by
    rw [Group.Every]
    exact Node.everyOf_of_forall h children

theorem Group.everyIn_of_forall (h : ∀ n, p n) : ∀ g : Option Group, Group.EveryIn p g
  | none => by simp [Group.EveryIn]
  | some g => by
    rw [Group.EveryIn]
    exact Group.every_of_forall h g

theorem Clause.every_of_forall (h : ∀ n, p n) : ∀ c : Clause, c.Every p
  | ⟨_, content⟩ => by
    rw [Clause.Every]
    exact Node.everyOf_of_forall h content

theorem Clause.everyOf_of_forall (h : ∀ n, p n) : ∀ cs : List Clause, Clause.EveryOf p cs
  | [] => by simp [Clause.EveryOf]
  | c :: cs => by
    rw [Clause.EveryOf]
    exact ⟨Clause.every_of_forall h c, Clause.everyOf_of_forall h cs⟩

theorem Clause.everyIn_of_forall (h : ∀ n, p n) : ∀ c : Option Clause, Clause.EveryIn p c
  | none => by simp [Clause.EveryIn]
  | some c => by
    rw [Clause.EveryIn]
    exact Clause.every_of_forall h c

theorem TypeRef.every_of_forall (h : ∀ n, p n) : ∀ r : TypeRef, r.Every p
  | ⟨_, _, arguments⟩ => by
    rw [TypeRef.Every]
    exact TypeArguments.everyIn_of_forall h arguments

theorem TypeArguments.every_of_forall (h : ∀ n, p n) : ∀ a : TypeArguments, a.Every p
  | ⟨_, items, _⟩ => by
    rw [TypeArguments.Every]
    exact TypeArgument.everyOf_of_forall h items

theorem TypeArguments.everyIn_of_forall (h : ∀ n, p n) :
    ∀ a : Option TypeArguments, TypeArguments.EveryIn p a
  | none => by simp [TypeArguments.EveryIn]
  | some a => by
    rw [TypeArguments.EveryIn]
    exact TypeArguments.every_of_forall h a

theorem TypeArgument.every_of_forall (h : ∀ n, p n) : ∀ a : TypeArgument, a.Every p
  | ⟨type, _⟩ => by
    rw [TypeArgument.Every]
    exact Node.everyOf_of_forall h type

theorem TypeArgument.everyOf_of_forall (h : ∀ n, p n) :
    ∀ as : List TypeArgument, TypeArgument.EveryOf p as
  | [] => by simp [TypeArgument.EveryOf]
  | a :: as => by
    rw [TypeArgument.EveryOf]
    exact ⟨TypeArgument.every_of_forall h a, TypeArgument.everyOf_of_forall h as⟩

theorem ClassDecl.every_of_forall (h : ∀ n, p n) : ∀ c : ClassDecl, c.Every p
  | ⟨_, _, heritage, _, members, _, _⟩ => by
    rw [ClassDecl.Every]
    exact ⟨Node.everyOf_of_forall h heritage, Member.everyOf_of_forall h members⟩

theorem Member.every_of_forall (h : ∀ n, p n) : ∀ m : Member, m.Every p
  | .method m => by
    rw [Member.Every]
    exact Method.every_of_forall h m
  | .getter g => by
    rw [Member.Every]
    exact Getter.every_of_forall h g
  | .other ns => by
    rw [Member.Every]
    exact Node.everyOf_of_forall h ns

theorem Member.everyOf_of_forall (h : ∀ n, p n) : ∀ ms : List Member, Member.EveryOf p ms
  | [] => by simp [Member.EveryOf]
  | m :: ms => by
    rw [Member.EveryOf]
    exact ⟨Member.every_of_forall h m, Member.everyOf_of_forall h ms⟩

theorem Method.every_of_forall (h : ∀ n, p n) : ∀ m : Method, m.Every p
  | ⟨_, decorators, _, _, name, _, typeParameters, parameters, returnType, body, _⟩ => by
    rw [Method.Every]
    exact ⟨Clause.everyOf_of_forall h decorators, MemberName.every_of_forall h name,
      Node.everyOf_of_forall h typeParameters, ParameterList.every_of_forall h parameters,
      Clause.everyIn_of_forall h returnType, Group.everyIn_of_forall h body⟩

theorem Getter.every_of_forall (h : ∀ n, p n) : ∀ g : Getter, g.Every p
  | ⟨_, decorators, _, _, name, parameters, returnType, body, _⟩ => by
    rw [Getter.Every]
    exact ⟨Clause.everyOf_of_forall h decorators, MemberName.every_of_forall h name,
      ParameterList.every_of_forall h parameters, Clause.everyIn_of_forall h returnType,
      Group.everyIn_of_forall h body⟩

theorem MemberName.every_of_forall (h : ∀ n, p n) : ∀ n : MemberName, n.Every p
  | .identifier _ | .literal _ => by simp [MemberName.Every]
  | .computed g => by
    rw [MemberName.Every]
    exact Group.every_of_forall h g

theorem ParameterList.every_of_forall (h : ∀ n, p n) : ∀ ps : ParameterList, ps.Every p
  | ⟨_, items, _⟩ => by
    rw [ParameterList.Every]
    exact Parameter.everyOf_of_forall h items

theorem Parameter.every_of_forall (h : ∀ n, p n) : ∀ r : Parameter, r.Every p
  | ⟨_, _, binding, _, type, initializer, _⟩ => by
    rw [Parameter.Every]
    exact ⟨Binding.every_of_forall h binding, Clause.everyIn_of_forall h type,
      Clause.everyIn_of_forall h initializer⟩

theorem Parameter.everyOf_of_forall (h : ∀ n, p n) : ∀ rs : List Parameter, Parameter.EveryOf p rs
  | [] => by simp [Parameter.EveryOf]
  | r :: rs => by
    rw [Parameter.EveryOf]
    exact ⟨Parameter.every_of_forall h r, Parameter.everyOf_of_forall h rs⟩

theorem Binding.every_of_forall (h : ∀ n, p n) : ∀ b : Binding, b.Every p
  | .identifier _ => by simp [Binding.Every]
  | .pattern g => by
    rw [Binding.Every]
    exact Group.every_of_forall h g

end

end

/-- A node whose operands, where it awaits something, and whose type arguments are not empty. -/
def Node.IsFilled : Node → Prop
  | .await _ operand => operand ≠ []
  | .typeRef r => ∀ list ∈ r.arguments, ∀ a ∈ list.items, a.type ≠ []
  | _ => True

/-- Every name of the reference is an identifier, and there are dots between them. -/
def TypeRef.IsSpelled (r : TypeRef) : Prop :=
  r.name.kind = .identifier ∧ ∀ q ∈ r.path, q.1.kind = .dot ∧ q.2.kind = .identifier

theorem TypeRef.isSpelled_named {name : Token} {arguments : Option TypeArguments}
    (h : name.kind = .identifier) : (named name arguments).IsSpelled :=
  ⟨h, fun _ hq => absurd hq List.not_mem_nil⟩

/-- A node as readers make it: it is filled, the keyword of a class is the word for one, and the
name of a type reference is spelled as one. -/
def Node.IsWritten : Node → Prop
  | .classDecl c => c.keyword.isWord "class" = true
  | .typeRef r => r.IsSpelled ∧ (Node.typeRef r).IsFilled
  | n => n.IsFilled

theorem Node.IsWritten.isFilled : ∀ {n : Node}, n.IsWritten → n.IsFilled
  | .classDecl _, _ => trivial
  | .typeRef _, h => h.2
  | .token _, h | .group _, h | .forOf _ _ _, h | .await _ _, h | .access _ _ _, h => h

end TwinClasses
