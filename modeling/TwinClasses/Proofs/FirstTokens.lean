import TwinClasses.Proofs.Expansion.Written

set_option autoImplicit false

/-! First tokens. Trivia is read off the first token of a node, and handed over to it, so there must
be one in every tree: in those that are read, and in all that conversion and expansion make of them,
one after another. -/

namespace TwinClasses

/-- Identifiers with dots between them, at least one. -/
def Token.IsDotted : List Token → Prop
  | [] => False
  | [t] => t.kind = .identifier
  | t :: dot :: ts => t.kind = .identifier ∧ dot.kind = .dot ∧ IsDotted ts

/-- Every node of `ms`, however deep inside it, is one of `ns`. -/
def Node.AllWithin (ms ns : List Node) : Prop := ∀ p, EveryOf p ns → EveryOf p ms

mutual

/-- The nodes are read, or made from such nodes and members by conversion and expansion, in any
number of steps. -/
inductive Node.AllArise : List Node → Prop where
  | file {name source : String} {f : SourceFile} : SourceFile.ofSource name source = .ok f →
    Node.AllArise f.nodes
  | type {source : String} {ns : List Node} : Node.typeOfSource source = .ok ns → Node.AllArise ns
  | within {ns ms : List Node} : Node.AllArise ns → Node.AllWithin ms ns → Node.AllArise ms
  | ofMember {m : Member} {ns : List Node} : m.Arises → (∀ p, m.Every p → Node.EveryOf p ns) →
    Node.AllArise ns
  | converted {types : TypeTable} {member : String} {ns ms : List Node} : Node.AllArise ns →
    Node.toSyncAll types member ns = .ok ms → Node.AllArise ms
  | returnType {types : TypeTable} {member : String} {r : TypeRef} {ms : List Node} :
    Node.AllArise [.typeRef r] → r.returnTypeToSync types member = .ok ms → Node.AllArise ms
  | expanded {e : Expansion} {template skeleton result : SourceFile} :
    Node.AllArise template.nodes → Node.AllArise skeleton.nodes →
      TemplateClasses.ofFile template = .ok e.templates → e.run skeleton = .ok result →
        Node.AllArise result.nodes

/-- The member is one of a class in such nodes, or one that such a member is expanded to. -/
inductive Member.Arises : Member → Prop where
  | ofClass {c : ClassDecl} {m : Member} : Node.AllArise [.classDecl c] → m ∈ c.members → m.Arises
  | expanded {conventions : Conventions} {flavor : Flavor} {owner : String} {m m' : Member}
    {ms : List Member} : m.Arises → m.expand conventions flavor owner = .ok ms → m' ∈ ms →
      m'.Arises

end

/-- The node has a first token, which its text begins with and which can be replaced; what it takes
for that is a name in type references, an operand where something is awaited, and a first node where
something is converted. -/
structure Node.IsHeaded (n : Node) : Prop where
  spelled : ∀ r, n = .typeRef r → Token.IsDotted r.nameTokens
  awaits : ∀ keyword operand, n = .await keyword operand → operand ≠ []
  converts : ∀ types member ms, n.toSync types member = .ok ms → ms ≠ []
  returns : ∀ r types member ms, n = .typeRef r → r.returnTypeToSync types member = .ok ms → ms ≠ []
  tokens_eq : ∃ rest, n.tokens = n.first :: rest ∧ ∀ f, (n.mapFirst f).tokens = f n.first :: rest
  source_eq : ∃ rest, n.source = n.first.leading ++ n.first.text ++ rest

theorem TypeRef.IsSpelled.isDotted {r : TypeRef} (h : r.IsSpelled) :
    Token.IsDotted r.nameTokens := by
  obtain ⟨name, path, arguments⟩ := r
  obtain ⟨hname, hpath⟩ := h
  rw [nameTokens]
  dsimp only at hname hpath ⊢
  induction path generalizing name with
  | nil => exact hname
  | cons q path ih =>
    obtain ⟨hq, hpath⟩ := List.forall_mem_cons.1 hpath
    exact ⟨hname, hq.1, ih q.2 hq.2 hpath⟩

/-- A tree as readers make it has first tokens throughout. -/
theorem Node.isHeaded_of_isWritten {n : Node} (h : n.Every IsWritten) : n.IsHeaded where
  spelled r hr := by
    subst hr
    exact h.self.1.isDotted
  awaits keyword operand hn := by
    subst hn
    exact h.self
  converts types member ms := toSync_ne_nil (h.mono fun _ => IsWritten.isFilled)
  returns r types member ms hr := by
    subst hr
    exact TypeRef.returnTypeToSync_ne_nil h.self.isFilled
  tokens_eq := by
    obtain ⟨rest, hrest⟩ := n.exists_tokens_eq
    refine ⟨rest, hrest, fun f => ?_⟩
    rw [tokens_mapFirst, hrest]
    rfl
  source_eq := by
    obtain ⟨rest, hrest⟩ := n.exists_tokens_eq
    refine ⟨Token.sourceOf rest, ?_⟩
    rw [source, hrest, Token.sourceOf_cons, Token.source]

theorem Node.everyOf_typeOfSource {source : String} {ns : List Node}
    (h : typeOfSource source = .ok ns) : EveryOf IsWritten ns := by
  unfold typeOfSource at h
  rw [ok_mapError, ok_bind] at h
  obtain ⟨trees, -, h⟩ := h
  have hread := (Reader.readersSound (Tree.weightAll trees + 1)).type none true trees (by omega)
  unfold typeOfTrees at h
  split at h
  · rename_i nodes hfollows hdone
    cases h
    rw [hdone] at hread
    obtain ⟨read, -, -, hwritten⟩ := hread
    exact hwritten
  · cases h
  · cases h

/-! That a node has a first token is not kept by itself: an argument without nodes would be missed
only once its type is unwrapped. What each step keeps is that all nodes are as readers make them. -/

mutual

theorem Node.AllArise.isWritten {ns : List Node} (h : Node.AllArise ns) :
    Node.EveryOf Node.IsWritten ns := by
  match h with
  | .file hf => exact (SourceFile.allReadFrom_ofSource hf).choose_spec.2.2
  | .type htype => exact Node.everyOf_typeOfSource htype
  | .within hns hwithin => exact hwithin _ hns.isWritten
  | .ofMember hm hwithin => exact hwithin _ hm.isWritten
  | .converted hns hconverts =>
    exact Node.carry_toSyncAll (TypeTable.carries_isWritten _) _ _ hns.isWritten hconverts
  | .returnType hr hconverts =>
    have hr := hr.isWritten
    rw [Node.EveryOf] at hr
    exact TypeRef.every_returnTypeToSync hr.1 hconverts
  | .expanded htemplate hskeleton hclasses hrun =>
    exact Expansion.everyOf_run htemplate.isWritten hskeleton.isWritten hclasses hrun

theorem Member.Arises.isWritten {m : Member} (h : m.Arises) : m.Every Node.IsWritten := by
  match h with
  | .ofClass hc hm =>
    have hc := hc.isWritten
    rw [Node.EveryOf, Node.Every] at hc
    exact Member.every_of_mem (ClassDecl.everyOf_members hc.1.2) hm
  | .expanded hm hexpand hmem =>
    exact Member.every_of_mem (Member.every_expand hm.isWritten hexpand) hmem

end

/-- In every tree that is read, and in all that is made of such trees by conversion and expansion,
nodes at any depth have a first token that their text begins with, and convert to something. -/
theorem Node.isHeaded_of_arises : (∀ ns, Node.AllArise ns → Node.EveryOf Node.IsHeaded ns) ∧
    ∀ m : Member, m.Arises → m.Every Node.IsHeaded := by
  refine ⟨fun ns h => ?_, fun m h => ?_⟩
  · exact h.isWritten.imp fun n hn => Node.isHeaded_of_isWritten hn
  · exact h.isWritten.imp fun n hn => Node.isHeaded_of_isWritten hn

theorem Node.AllArise.classDecl {ns : List Node} {c : ClassDecl} (h : Node.AllArise ns)
    (hc : c ∈ Node.classesAll ns) : Node.AllArise [.classDecl c] :=
  .within h fun _ hns => Node.everyOf_single (hns.every_of_mem_classes hc)

/-- A method with types that are unwrapped, a qualified name and an operand that is awaited. -/
def awaitingClass : String :=
  "class A \x7b async f(x: AsyncOrSync<b.C>): Promise<b.D<E>> \x7b return await g<E>(x); \x7d \x7d"

/-- First tokens of the class, and of the member that its method is expanded to. -/
theorem awaitingClass_isHeaded : ∃ f, ∃ m : Member, ∃ ms : List Member,
    SourceFile.ofSource "a.ts" awaitingClass = .ok f ∧ Node.EveryOf Node.IsHeaded f.nodes ∧
    m.expand {} .synchronous "A" = .ok ms ∧
    ms.map Member.source = [" f(x: b.C): b.D<E> \x7b return g<E>(x); \x7d"] ∧
    ∀ m' ∈ ms, m'.Every Node.IsHeaded := by
  let texts := fun m : Member =>
    (m.expand {} .synchronous "A").toOption.map (·.map Member.source)
  have hread : (SourceFile.ofSource "a.ts" awaitingClass).toOption.map
      (·.classes.flatMap (·.members.map texts)) =
        some [some [" f(x: b.C): b.D<E> \x7b return g<E>(x); \x7d"]] := by decide +kernel
  obtain ⟨f, hf, htexts⟩ := Option.map_eq_some_iff.1 hread
  have hfile := toOption_eq_some_iff.1 hf
  have harise := Node.AllArise.file hfile
  have hmem := List.mem_singleton_self (some [" f(x: b.C): b.D<E> \x7b return g<E>(x); \x7d"])
  rw [← htexts] at hmem
  obtain ⟨c, hc, hmem⟩ := List.mem_flatMap.1 hmem
  obtain ⟨m, hm, hms⟩ := List.mem_map.1 hmem
  obtain ⟨ms, hms, hsource⟩ := Option.map_eq_some_iff.1 hms
  have hexpand := toOption_eq_some_iff.1 hms
  have hmember : m.Arises := .ofClass (harise.classDecl hc) hm
  exact ⟨f, m, ms, hfile, Node.isHeaded_of_arises.1 _ harise, hexpand, hsource, fun m' hm' =>
    Node.isHeaded_of_arises.2 m' (.expanded hmember hexpand hm')⟩

end TwinClasses
