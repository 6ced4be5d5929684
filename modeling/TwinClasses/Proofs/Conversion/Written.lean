import TwinClasses.Proofs.Conversion.Carrying
import TwinClasses.Proofs.Conversion.Erasure

set_option autoImplicit false

/-! Conversion of trees as readers make them. Where every operand and every type argument has nodes,
no node converts to nothing: what takes the place of a dropped keyword, or of a type that is
unwrapped, has nodes again. So a converted tree is one that could have been read, too. -/

namespace TwinClasses

variable {types : TypeTable} {member : String}

namespace Node

theorem toSyncAll_ne_nil {ns ms : List Node} (hne : ns ≠ []) (hf : EveryOf IsFilled ns)
    (h : toSyncAll types member ns = .ok ms) : ms ≠ [] := by
  rintro rfl
  have htokens := tokens_toSyncAll ns [] h
  rw [tokensAll] at htokens
  exact outcomes_editsAll_ne_nil types ns hne hf htokens.symm

theorem toSync_ne_nil {n : Node} {ms : List Node} (hf : n.Every IsFilled)
    (h : n.toSync types member = .ok ms) : ms ≠ [] := by
  rintro rfl
  have htokens := tokens_toSync n [] h
  rw [tokensAll] at htokens
  exact outcomes_edits_ne_nil types n hf htokens.symm

end Node

theorem TypeArgument.type_ne_nil_of_toSyncAll {as as' : List TypeArgument}
    (hne : ∀ a ∈ as, a.type ≠ []) (hf : EveryOf Node.IsFilled as)
    (h : toSyncAll types member as = .ok as') : ∀ a ∈ as', a.type ≠ [] := by
  induction as generalizing as' with
  | nil =>
    cases h
    simp
  | cons a as ih =>
    obtain ⟨type, comma⟩ := a
    obtain ⟨htype, hne⟩ := List.forall_mem_cons.1 hne
    rw [EveryOf, Every] at hf
    simp only [toSyncAll, toSync, ok_bind, ok_pure] at h
    obtain ⟨b, ⟨ns, hns, rfl⟩, bs, hbs, rfl⟩ := h
    exact List.forall_mem_cons.2 ⟨Node.toSyncAll_ne_nil htype hf.1 hns, ih hne hf.2 hbs⟩

/-- Type arguments stay filled when they are converted. -/
theorem TypeRef.isFilled_mapM_toSync {r : TypeRef} {arguments : Option TypeArguments}
    (hf : (Node.typeRef r).Every Node.IsFilled)
    (h : r.arguments.mapM (TypeArguments.toSync types member) = .ok arguments) :
    ∀ list ∈ arguments, ∀ a ∈ list.items, a.type ≠ [] := by
  obtain ⟨name, path, given⟩ := r
  cases given with
  | none =>
    cases h
    exact nofun
  | some list =>
    obtain ⟨list', hlist, rfl⟩ := TypeArguments.mapM_toSync_eq_ok.1 h
    obtain ⟨opening, items, closing⟩ := list
    simp only [TypeArguments.toSync, ok_bind, ok_pure] at hlist
    obtain ⟨items', hitems, rfl⟩ := hlist
    rw [Node.Every, TypeRef.Every, TypeArguments.EveryIn, TypeArguments.Every] at hf
    rintro list ⟨⟩
    exact TypeArgument.type_ne_nil_of_toSyncAll (hf.1 _ rfl) hf.2 hitems

theorem TypeTable.kind_rename (types : TypeTable) (t : Token) :
    (types.rename t).kind = t.kind := by
  rw [rename_eq_spelled]
  rfl

theorem TypeTable.carries_isWritten (types : TypeTable) :
    types.Carries Node.IsWritten Node.IsWritten where
  token _ _ := trivial
  group _ _ _ := trivial
  -- Only classes and type references have something to keep.
  classDecl c c' h hkeyword := by
    rw [Node.IsWritten, hkeyword]
    exact h
  forOf _ _ _ _ _ := trivial
  access _ _ _ _ _ := trivial
  iterator _ _ _ _ _ := trivial
  qualified _ _ _ _ _ _ h hconverts := by
    have hfilled := TypeRef.isFilled_mapM_toSync (h.mono fun _ => Node.IsWritten.isFilled) hconverts
    rw [Node.Every] at h
    exact ⟨h.1.1, hfilled⟩
  typeRef _ name _ _ h hconverts _ := by
    have hfilled := TypeRef.isFilled_mapM_toSync (h.mono fun _ => Node.IsWritten.isFilled) hconverts
    rw [Node.Every] at h
    exact ⟨TypeRef.isSpelled_named ((types.kind_rename name).trans h.1.1.1), hfilled⟩
  takeOver dropped n h := by
    cases n <;> exact h

/-! Return types. -/

namespace TypeRef

variable {r : TypeRef} {ms : List Node}

/-- A return type is unwrapped, or it gets another name. -/
theorem returnTypeToSync_eq_ok (h : r.returnTypeToSync types member = .ok ms) :
    (∃ ns, r.firstArgument? = some ns ∧ ms = Node.takeOver r.name.leading ns) ∨
    ∃ new, ms = [.typeRef (.named (r.name.spelled new) r.arguments)] := by
  unfold returnTypeToSync at h
  split at h
  · cases h
  · rename_i name hname
    obtain rfl : r.name = name := by
      unfold identifier? at hname
      split at hname
      · cases hname
      · exact Option.some.inj hname
    split at h
    · cases h
    · split at h
      · rename_i ns hns
        cases h
        exact Or.inl ⟨ns, hns, rfl⟩
      · cases h
    · rename_i new _
      cases h
      exact Or.inr ⟨new, rfl⟩

theorem firstArgument?_eq_some {ns : List Node} (h : r.firstArgument? = some ns) :
    ∃ opening comma items closing, r.arguments = some ⟨opening, ⟨ns, comma⟩ :: items, closing⟩ := by
  unfold firstArgument? at h
  split at h
  · rename_i opening argument items closing heq
    cases h
    obtain ⟨type, comma⟩ := argument
    exact ⟨opening, comma, items, closing, heq⟩
  · cases h

theorem every_returnTypeToSync (hr : (Node.typeRef r).Every Node.IsWritten)
    (h : r.returnTypeToSync types member = .ok ms) : Node.EveryOf Node.IsWritten ms := by
  obtain ⟨name, path, arguments⟩ := r
  rw [Node.Every, TypeRef.Every] at hr
  obtain ⟨⟨⟨hkind, -⟩, hfilled⟩, hinside⟩ := hr
  obtain ⟨ns, hns, rfl⟩ | ⟨new, rfl⟩ := returnTypeToSync_eq_ok h
  · obtain ⟨opening, comma, items, closing, rfl⟩ := firstArgument?_eq_some hns
    rw [TypeArguments.EveryIn, TypeArguments.Every, TypeArgument.EveryOf,
      TypeArgument.Every] at hinside
    exact Node.everyOf_takeOver (types.carries_isWritten.takeOver _) hinside.1
  · rw [Node.EveryOf, Node.Every, named, TypeRef.Every]
    exact ⟨⟨⟨isSpelled_named hkind, hfilled⟩, hinside⟩, trivial⟩

theorem returnTypeToSync_ne_nil (hr : (Node.typeRef r).IsFilled)
    (h : r.returnTypeToSync types member = .ok ms) : ms ≠ [] := by
  obtain ⟨ns, hns, rfl⟩ | ⟨new, rfl⟩ := returnTypeToSync_eq_ok h
  · obtain ⟨opening, comma, items, closing, heq⟩ := firstArgument?_eq_some hns
    have hne : ns ≠ [] := hr _ heq _ List.mem_cons_self
    cases ns with
    | nil => exact absurd rfl hne
    | cons n ns => exact List.cons_ne_nil _ _
  · exact List.cons_ne_nil _ _

end TypeRef

end TwinClasses
