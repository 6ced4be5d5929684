import TwinClasses.Proofs.Conversion.Written
import TwinClasses.Proofs.Expansion.Growth
import TwinClasses.Proofs.Expansion.Synchronous
import TwinClasses.Proofs.Expansion.Templates

set_option autoImplicit false

/-! Expansion of trees as readers make them. The parts of a template member are copied or converted,
what is synthesised for it is made of tokens, groups and plain type references, and a skeleton only
gets members; so the expanded tree is one that could have been read, too. -/

namespace TwinClasses

section

variable {p : Node → Prop}

theorem Method.every_spaceHeader {m : Method} : m.spaceHeader.Every p ↔ m.Every p := by
  rw [every_iff, every_iff]
  simp only [spaceHeader, MemberName.every_mapFirst]

theorem Getter.every_spaceHeader {g : Getter} : g.spaceHeader.Every p ↔ g.Every p := by
  rw [every_iff, every_iff]
  simp only [spaceHeader, MemberName.every_mapFirst]

/-- The parts of an accepted method that its twins are made from. -/
structure TemplateMethod.Every (p : Node → Prop) (t : TemplateMethod) : Prop where
  method : t.method.Every p
  returnType : (Node.typeRef t.returnType).Every p
  body : t.body.Every p

theorem TemplateMethod.every_ofMethod {naming : Naming} {m : Method} {t : TemplateMethod}
    (hm : m.Every p) (h : ofMethod naming m = .ok t) : t.Every p := by
  obtain ⟨rfl, -, hreturn, hbody, -⟩ := ofMethod_parts h
  have hparts := Method.every_iff.1 hm
  simp only [hreturn, hbody, Clause.EveryIn, Clause.Every, Node.EveryOf, Group.EveryIn] at hparts
  obtain ⟨-, -, -, -, hr, hb⟩ := hparts
  exact ⟨hm, hr.1, hb⟩

end

theorem admitsBody_isWritten (owner : String) (ps : ParameterList) :
    AdmitsBody owner ps Node.IsWritten where
  token _ _ := trivial
  access _ := trivial
  group _ := trivial

variable {types : TypeTable} {conventions : Conventions} {owner : String}

/-- The type arguments of the method's return type behind another name. -/
theorem TemplateMethod.Every.every_named {t : TemplateMethod} (ht : t.Every Node.IsWritten)
    (name : Token) (hname : name.kind = .identifier) :
    (Node.typeRef (.named name t.returnType.arguments)).Every Node.IsWritten := by
  have hreturn := ht.returnType
  generalize t.returnType = r at hreturn ⊢
  obtain ⟨name', path, arguments⟩ := r
  rw [Node.Every, TypeRef.Every] at hreturn
  rw [Node.Every, TypeRef.named, TypeRef.Every]
  exact ⟨⟨TypeRef.isSpelled_named hname, hreturn.1.2⟩, hreturn.2⟩

theorem TemplateMethod.Every.withWrapper {naming : Naming} {t : TemplateMethod}
    {parts : WrapperParts} {ms : List Member} (ht : t.Every Node.IsWritten)
    (htypes : Node.EveryOf Node.IsWritten parts.typeParameters)
    (hparameters : parts.parameters.Every Node.IsWritten)
    (hbody : parts.body.Every Node.IsWritten) (h : t.withWrapper naming parts = .ok ms) :
    Member.EveryOf Node.IsWritten ms := by
  unfold TemplateMethod.withWrapper at h
  split at h
  · cases h
  · rename_i name hn
    rw [ok_bind] at h
    obtain ⟨names, hnames, h⟩ := h
    simp only [ok_pure] at h
    subst h
    have hpassed := everyOf_passedArguments (admitsBody_isWritten parts.owner parts.parameters)
      (bound_of_mem_passedNames hnames)
    have hreturn : ∀ type, Clause.EveryIn Node.IsWritten (some ⟨t.colon,
        [.typeRef (.named (.identifier " " type) t.returnType.arguments)]⟩) := by
      intro type
      rw [Clause.EveryIn, Clause.Every]
      exact Node.everyOf_single (ht.every_named _ rfl)
    have hname := (Method.every_iff.1 ht.method).2.1
    rw [Member.EveryOf, Member.EveryOf, Member.EveryOf, Member.Every, Member.Every]
    refine ⟨Method.every_spaceHeader.2 (Method.every_iff.2 ?_),
      Method.every_spaceHeader.2 (Method.every_iff.2 ?_), trivial⟩
    · refine ⟨Clause.everyOf_nil, hname, htypes, hparameters, hreturn _, ?_⟩
      rw [Group.EveryIn]
      exact every_returnBody (admitsBody_isWritten parts.owner parts.parameters) hpassed _ _
    · refine ⟨Clause.everyOf_nil, MemberName.every_of_identifier? rfl, htypes, hparameters,
        hreturn _, ?_⟩
      rw [Group.EveryIn]
      exact hbody

theorem TemplateMethod.Every.toSync {t : TemplateMethod} {generator : Bool} {m : Method}
    (ht : t.Every Node.IsWritten) (h : t.toSync types generator = .ok m) :
    m.Every Node.IsWritten := by
  have hcarries := types.carries_isWritten
  obtain ⟨-, hname, htypes, hparameters, -, -⟩ := Method.every_iff.1 ht.method
  unfold TemplateMethod.toSync at h
  simp only [ok_bind, ok_pure] at h
  obtain ⟨name, hn, typeParameters, htp, parameters, hps, returnType, hr, body, hb, rfl⟩ := h
  refine Method.every_spaceHeader.2 (Method.every_iff.2 ⟨Clause.everyOf_nil, ?_, ?_, ?_, ?_, ?_⟩)
  · exact MemberName.carry_toSync hcarries _ _ hname hn
  · exact Node.carry_toSyncAll hcarries _ _ htypes htp
  · exact ParameterList.carry_toSync hcarries _ _ hparameters hps
  · rw [Clause.EveryIn, Clause.Every]
    exact TypeRef.every_returnTypeToSync ht.returnType hr
  · rw [Group.EveryIn]
    exact Group.carry_toSync hcarries _ _ ht.body hb

theorem TemplateMethod.Every.expandSync {t : TemplateMethod} {ms : List Member}
    (ht : t.Every Node.IsWritten) (h : t.expandSync conventions owner = .ok ms) :
    Member.EveryOf Node.IsWritten ms := by
  have hcarries := conventions.types.carries_isWritten
  have hone : ∀ generator, (do return [Member.method (← t.toSync conventions.types generator)]) =
      .ok ms → Member.EveryOf Node.IsWritten ms := by
    intro generator h
    simp only [ok_bind, ok_pure] at h
    obtain ⟨m, hm, rfl⟩ := h
    refine Member.everyOf_single ?_
    rw [Member.Every]
    exact ht.toSync hm
  unfold TemplateMethod.expandSync at h
  split at h
  · exact hone false h
  · exact hone true h
  · simp only [ok_bind] at h
    obtain ⟨typeParameters, htp, parameters, hps, body, hb, h⟩ := h
    obtain ⟨-, -, htypes, hparameters, -, -⟩ := Method.every_iff.1 ht.method
    exact ht.withWrapper (Node.carry_toSyncAll hcarries _ _ htypes htp)
      (ParameterList.carry_toSync hcarries _ _ hparameters hps)
      (Group.carry_toSync hcarries _ _ ht.body hb) h

theorem TemplateMethod.Every.expandAsync {t : TemplateMethod} {ms : List Member}
    (ht : t.Every Node.IsWritten) (h : t.expandAsync conventions owner = .ok ms) :
    Member.EveryOf Node.IsWritten ms := by
  obtain ⟨-, hname, htypes, hparameters, hreturn, hbody⟩ := Method.every_iff.1 ht.method
  have hcopy : ∀ modifiers, Member.EveryOf Node.IsWritten
      [.method (Method.spaceHeader { t.method with decorators := [], modifiers })] := by
    intro modifiers
    refine Member.everyOf_single ?_
    rw [Member.Every]
    exact Method.every_spaceHeader.2 (Method.every_iff.2
      ⟨Clause.everyOf_nil, hname, htypes, hparameters, hreturn, hbody⟩)
  unfold TemplateMethod.expandAsync at h
  split at h
  · cases h
    exact hcopy _
  · cases h
    exact hcopy _
  · exact ht.withWrapper htypes hparameters ht.body h

theorem Getter.every_expandSync {g g' : Getter} (hg : g.Every Node.IsWritten)
    (h : g.expandSync types = .ok g') : g'.Every Node.IsWritten := by
  have hcarries := types.carries_isWritten
  obtain ⟨-, hname, hparameters, hreturn, hbody⟩ := Getter.every_iff.1 hg
  unfold expandSync at h
  rw [ok_bind] at h
  obtain ⟨name, -, h⟩ := h
  split at h
  · cases h
  · rename_i body hsome
    rw [hsome, Group.EveryIn] at hbody
    split at h
    · cases h
    · rename_i colon returnType htype
      obtain ⟨⟨mark, type⟩, hclause, htype⟩ := Option.bind_eq_some_iff.1 htype
      obtain ⟨r, href, hr⟩ := Option.map_eq_some_iff.1 htype
      obtain ⟨rfl, rfl⟩ := Prod.mk.inj hr
      obtain rfl := typeReference?_eq_some href
      rw [hclause, Clause.EveryIn, Clause.Every, Node.EveryOf] at hreturn
      split at h
      · cases h
      · simp only [ok_bind, ok_pure] at h
        obtain ⟨memberName, hn, parameters, hps, type, hr, body', hb, rfl⟩ := h
        refine Getter.every_spaceHeader.2 (Getter.every_iff.2
          ⟨Clause.everyOf_nil, ?_, ?_, ?_, ?_⟩)
        · exact MemberName.carry_toSync hcarries _ _ hname hn
        · exact ParameterList.carry_toSync hcarries _ _ hparameters hps
        · rw [Clause.EveryIn, Clause.Every]
          exact TypeRef.every_returnTypeToSync hreturn.1 hr
        · rw [Group.EveryIn]
          exact Group.carry_toSync hcarries _ _ hbody hb

theorem Member.every_expand {flavor : Flavor} {m : Member} {ms : List Member}
    (hm : m.Every Node.IsWritten) (h : m.expand conventions flavor owner = .ok ms) :
    Member.EveryOf Node.IsWritten ms := by
  cases m with
  | method m =>
    rw [Member.Every] at hm
    rw [Member.expand, Method.expand, ok_bind] at h
    obtain ⟨t, ht, h⟩ := h
    have hparts := TemplateMethod.every_ofMethod hm ht
    cases flavor with
    | synchronous => exact hparts.expandSync h
    | asynchronous => exact hparts.expandAsync h
  | getter g =>
    rw [Member.Every] at hm
    cases flavor with
    | synchronous =>
      simp only [expand, Getter.expand, ok_bind, ok_pure] at h
      obtain ⟨g', hg, rfl⟩ := h
      refine everyOf_single ?_
      rw [Every]
      exact Getter.every_expandSync hm hg
    | asynchronous =>
      cases h
      obtain ⟨-, hparts⟩ := Getter.every_iff.1 hm
      refine everyOf_single ?_
      rw [Every]
      exact Getter.every_spaceHeader.2 (Getter.every_iff.2 ⟨Clause.everyOf_nil, hparts⟩)
  | other ns =>
    cases h
    rw [EveryOf]
    trivial

/-! Files. -/

section

variable {p : Node → Prop}

mutual

theorem Node.Every.every_of_mem_classes {c : ClassDecl} :
    ∀ {n : Node}, n.Every p → c ∈ n.classes → (Node.classDecl c).Every p
  | .classDecl d, h, hc => by
    by_cases hd : d.isExpression
    · simp [Node.classes, hd] at hc
    · obtain rfl : c = d := by simpa [Node.classes, hd] using hc
      exact h
  | .group g, h, hc => by
    rw [Node.Every] at h
    rw [Node.classes] at hc
    exact h.2.every_of_mem_classes hc
  | .forOf _ _ head, h, hc => by
    rw [Node.Every] at h
    rw [Node.classes] at hc
    exact h.2.every_of_mem_classes hc
  | .await _ operand, h, hc => by
    rw [Node.Every] at h
    rw [Node.classes] at hc
    exact h.2.every_of_mem_classes hc
  | .token _, _, hc | .access _ _ _, _, hc | .typeRef _, _, hc => by simp [Node.classes] at hc

theorem Node.EveryOf.every_of_mem_classes {c : ClassDecl} : ∀ {ns : List Node},
    Node.EveryOf p ns → c ∈ Node.classesAll ns → (Node.classDecl c).Every p
  | [], _, hc => by simp [Node.classesAll] at hc
  | n :: ns, h, hc => by
    rw [Node.EveryOf] at h
    rw [Node.classesAll, List.mem_append] at hc
    obtain hc | hc := hc
    · exact h.1.every_of_mem_classes hc
    · exact h.2.every_of_mem_classes hc

theorem Group.Every.every_of_mem_classes {c : ClassDecl} :
    ∀ {g : Group}, g.Every p → c ∈ g.classes → (Node.classDecl c).Every p
  | ⟨_, _, children, _⟩, h, hc => by
    rw [Group.Every] at h
    rw [Group.classes] at hc
    exact h.every_of_mem_classes hc

end

end

namespace Expansion

variable {e : Expansion}

theorem Rewrites.everyOf_flatten {owner : String} {ms : List Member} {parts : List (List Member)}
    (hms : Member.EveryOf Node.IsWritten ms) (h : List.Forall₂ (e.Rewrites owner) ms parts) :
    Member.EveryOf Node.IsWritten parts.flatten := by
  induction h with
  | nil => exact hms
  | cons hm _ ih =>
    rw [Member.EveryOf] at hms
    rw [List.flatten_cons, Member.everyOf_append]
    exact ⟨Member.every_expand hms.1 hm.expanded, ih hms.2⟩

/-- The template classes are as readers make them. -/
def HasWritten (e : Expansion) : Prop :=
  ∀ name t, e.templates.find? name = some t → t.Every Node.IsWritten

theorem Adds.everyOf {c : ClassDecl} {added : List Member} (ht : e.HasWritten)
    (h : e.Adds c added) : Member.EveryOf Node.IsWritten added := by
  obtain ⟨name, expected, template, parts, -, -, hfind, hparts, rfl⟩ := h
  exact Rewrites.everyOf_flatten (ClassDecl.everyOf_members (ht _ _ hfind)) hparts

mutual

theorem Grows.every {n n' : Node} (ht : e.HasWritten) (h : e.Grows n n')
    (hn : n.Every Node.IsWritten) : n'.Every Node.IsWritten := by
  match h with
  | .token _ | .forOf _ _ _ | .await _ _ | .access _ _ _ | .typeRef _ | .ordinary _ _ => exact hn
  | .target ⟨_, _, _, _, _, _, _⟩ _ hadds =>
    rw [Node.Every, ClassDecl.Every] at hn ⊢
    exact ⟨hn.1, hn.2.1, (Member.everyOf_append _ _).2 ⟨hn.2.2, hadds.everyOf ht⟩⟩
  | .group ⟨_, _, _, _⟩ hchildren =>
    rw [Node.Every, Group.Every] at hn ⊢
    exact ⟨trivial, hchildren.every ht hn.2⟩

theorem AllGrow.every {ns ns' : List Node} (ht : e.HasWritten) (h : e.AllGrow ns ns')
    (hns : Node.EveryOf Node.IsWritten ns) : Node.EveryOf Node.IsWritten ns' := by
  match h with
  | .nil => exact hns
  | .cons hn hrest =>
    rw [Node.EveryOf] at hns ⊢
    exact ⟨hn.every ht hns.1, hrest.every ht hns.2⟩

end

/-- With the classes of a template file as readers make it, a skeleton is expanded to a file as they
make it. -/
theorem everyOf_run {template skeleton result : SourceFile}
    (htemplate : Node.EveryOf Node.IsWritten template.nodes)
    (hskeleton : Node.EveryOf Node.IsWritten skeleton.nodes)
    (hclasses : TemplateClasses.ofFile template = .ok e.templates)
    (h : e.run skeleton = .ok result) : Node.EveryOf Node.IsWritten result.nodes := by
  simp only [run, ok_bind, ok_pure] at h
  obtain ⟨nodes, hnodes, rfl⟩ := h
  refine (allGrow_visitAll hnodes).every (fun name t hfind => ?_) hskeleton
  have hmem := ((TemplateClasses.lists_ofFile hclasses).find?_eq_some name t).1 hfind
  have hclass := htemplate.every_of_mem_classes hmem.1
  rw [Node.Every] at hclass
  exact hclass.2

end Expansion

end TwinClasses
