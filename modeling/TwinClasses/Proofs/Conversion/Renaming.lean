import TwinClasses.Expansion.TypeTable

set_option autoImplicit false

/-! Renamed identifiers. A table is stable if the names it gives are not changed by it again; the
default table is. -/

namespace TwinClasses.TypeTable

/-- The token is no identifier that is to be renamed. -/
def Leaves (types : TypeTable) (t : Token) : Prop :=
  t.kind = .identifier → types.rename? t.text = none

variable {types : TypeTable} {t : Token}

theorem rename_cases (types : TypeTable) (t : Token) : (types.Leaves t ∧ types.rename t = t) ∨
    ∃ new, t.kind = .identifier ∧ types.rename? t.text = some new ∧
      types.rename t = t.spelled new := by
  by_cases hk : t.kind = .identifier
  · cases hr : types.rename? t.text with
    | none =>
      refine Or.inl ⟨fun _ => hr, ?_⟩
      simp [rename, hk, hr]
    | some new =>
      refine Or.inr ⟨new, hk, rfl, ?_⟩
      simp [rename, hk, hr]
  · refine Or.inl ⟨fun h => absurd h hk, ?_⟩
    simp [rename, hk]

theorem rename_eq (h : types.Leaves t) : types.rename t = t := by
  obtain ⟨-, ht⟩ | ⟨new, hk, hn, -⟩ := types.rename_cases t
  · exact ht
  · rw [h hk] at hn
    cases hn

theorem rename_eq_spelled (types : TypeTable) (t : Token) :
    types.rename t = t.spelled (types.rename t).text := by
  obtain ⟨-, ht⟩ | ⟨new, -, -, ht⟩ := types.rename_cases t
  · rw [ht]
    rfl
  · rw [ht]
    rfl

/-- New names are not to be converted themselves, and none of them makes an access to the
asynchronous iterator. -/
structure IsStable (types : TypeTable) : Prop where
  rename : ∀ name new, types.rename? name = some new →
    types.rename? new = none ∧ types.unwraps new = false ∧ new ≠ "Symbol"
  symbol : types.rename? "Symbol" = none

theorem leaves_rename (hs : types.IsStable) (t : Token) : types.Leaves (types.rename t) := by
  obtain ⟨hl, ht⟩ | ⟨new, -, hn, ht⟩ := types.rename_cases t
  · rwa [ht]
  · rw [ht]
    exact fun _ => (hs.rename _ _ hn).1

theorem unwraps_rename (hs : types.IsStable) (h : types.unwraps t.text = false) :
    types.unwraps (types.rename t).text = false := by
  obtain ⟨-, ht⟩ | ⟨new, -, hn, ht⟩ := types.rename_cases t
  · rwa [ht]
  · rw [ht]
    exact (hs.rename _ _ hn).2.1

theorem mem_renames {name new : String} (h : types.rename? name = some new) :
    (name, new) ∈ types.renames := by
  obtain ⟨before, rest, hr, -⟩ := List.lookup_eq_some_iff.1 h
  rw [hr]
  exact List.mem_append_right _ List.mem_cons_self

theorem isStable_default : IsStable {} := by
  have hall : ∀ e ∈ ({} : TypeTable).renames, ({} : TypeTable).rename? e.2 = none ∧
      ({} : TypeTable).unwraps e.2 = false ∧ e.2 ≠ "Symbol" := by decide
  exact ⟨fun name new h => hall _ (mem_renames h), by decide⟩

/-- The default names are shorter than those they replace. -/
theorem length_lt_of_rename? {name new : String} (h : ({} : TypeTable).rename? name = some new) :
    new.length < name.length := by
  have hall : ∀ e ∈ ({} : TypeTable).renames, e.2.length < e.1.length := by decide
  exact hall _ (mem_renames h)

end TwinClasses.TypeTable
