import TwinClasses.Proofs.RoundTrip.Filling
import TwinClasses.Syntax.Extent

set_option autoImplicit false

/-! Tokens in front of some trees. Modifiers, accessor words, marks and qualifiers are read by
asking which tokens the trees begin with and dropping as many trees. -/

namespace TwinClasses

namespace Tree

/-- The trees begin with the tokens, each of them a tree. -/
def BeginsWith (xs : List Token) (ts : List Tree) : Prop :=
  ∃ read, ts = read ++ ts.drop xs.length ∧ tokensAll read = xs

theorem beginsWith_nil (ts : List Tree) : BeginsWith [] ts := ⟨[], rfl, rfl⟩

theorem BeginsWith.cons {xs : List Token} {ts : List Tree} (l : Lexeme) (h : BeginsWith xs ts) :
    BeginsWith (l.toToken :: xs) (.token l :: ts) := by
  obtain ⟨read, hts, hx⟩ := h
  refine ⟨.token l :: read, ?_, ?_⟩
  · simpa using hts
  · rw [tokensAll_token, hx]

theorem BeginsWith.append {xs ys : List Token} {ts : List Tree} (h : BeginsWith xs ts)
    (h' : BeginsWith ys (ts.drop xs.length)) : BeginsWith (xs ++ ys) ts := by
  obtain ⟨read, hts, hx⟩ := h
  obtain ⟨read', hts', hy⟩ := h'
  refine ⟨read ++ read', ?_, ?_⟩
  · rw [List.length_append, ← List.drop_drop, List.append_assoc, ← hts']
    exact hts
  · rw [tokensAll_append, hx, hy]

theorem frontToken?_eq_some {kind : Kind} {ts : List Tree} {t : Token}
    (h : frontToken? kind ts = some t) :
    ∃ l us, ts = .token l :: us ∧ l.kind = kind ∧ t = l.toToken := by
  cases ts with
  | nil => cases h
  | cons u us =>
    cases u with
    | group d opening children close => cases h
    | token l =>
      by_cases hk : l.kind = kind
      · simp only [frontToken?, hk, if_true, Option.some.injEq] at h
        exact ⟨l, us, rfl, hk, h.symm⟩
      · simp [frontToken?, hk] at h

theorem frontToken?_kind {kind : Kind} {ts : List Tree} {t : Token}
    (h : frontToken? kind ts = some t) : t.kind = kind := by
  obtain ⟨l, us, -, hk, rfl⟩ := frontToken?_eq_some h
  exact hk

theorem beginsWith_frontToken? (kind : Kind) (ts : List Tree) :
    BeginsWith (frontToken? kind ts).toList ts := by
  cases h : frontToken? kind ts with
  | none => exact beginsWith_nil ts
  | some t =>
    obtain ⟨l, us, rfl, -, rfl⟩ := frontToken?_eq_some h
    exact (beginsWith_nil us).cons l

end Tree

namespace Extent

open TwinClasses.Tree

theorem beginsWith_modifiersOfMember (ts : List Tree) :
    BeginsWith (modifiersOfMember ts) ts := by
  fun_induction modifiersOfMember ts with
  | case1 l ts h ih => exact ih.cons l
  | case2 l ts h => exact beginsWith_nil _
  | case3 ts h => exact beginsWith_nil _

theorem beginsWith_modifiersOfParameter (ts : List Tree) :
    BeginsWith (modifiersOfParameter ts) ts := by
  fun_induction modifiersOfParameter ts with
  | case1 l ts h ih => exact ih.cons l
  | case2 l ts h => exact beginsWith_nil _
  | case3 ts h => exact beginsWith_nil _

theorem beginsWith_accessorWord? (ts : List Tree) :
    BeginsWith (accessorWord? ts).toList ts := by
  unfold accessorWord?
  split
  · rename_i l us
    split
    · exact (beginsWith_nil us).cons l
    · exact beginsWith_nil _
  · exact beginsWith_nil _

/-- The tokens in front of a member's name. -/
def MemberHead.tokens (h : MemberHead) : List Token :=
  h.modifiers ++ h.accessor.toList ++ h.asterisk.toList

theorem MemberHead.length_tokens (h : MemberHead) : h.tokens.length = h.length := by
  simp only [MemberHead.tokens, MemberHead.length, List.length_append]

theorem beginsWith_memberHead (ts : List Tree) : BeginsWith (memberHead ts).tokens ts := by
  have hm := beginsWith_modifiersOfMember ts
  have ha := beginsWith_accessorWord? (ts.drop (modifiersOfMember ts).length)
  have hf := beginsWith_frontToken? .asterisk ((ts.drop (modifiersOfMember ts).length).drop
    (accessorWord? (ts.drop (modifiersOfMember ts).length)).toList.length)
  have h := hm.append ha
  refine h.append ?_
  rw [List.length_append, ← List.drop_drop]
  exact hf

theorem memberHead_asterisk {ts : List Tree} {t : Token} (h : t ∈ (memberHead ts).asterisk) :
    t.kind = .asterisk := frontToken?_kind h

theorem beginsWith_qualifiers (ts : List Tree) : BeginsWith
    ((qualifiers ts).flatMap fun (dot, name) => [dot, name]) ts := by
  fun_induction qualifiers ts with
  | case1 dot name ts h ih =>
    exact (ih.cons name).cons dot
  | case2 dot name ts h => exact beginsWith_nil _
  | case3 ts h => exact beginsWith_nil _

theorem length_qualifiers_tokens (path : List (Token × Token)) :
    (path.flatMap fun (dot, name) => [dot, name]).length = 2 * path.length := by
  induction path with
  | nil => rfl
  | cons step path ih =>
    rw [List.flatMap_cons, List.length_append, ih, List.length_cons]
    simp
    omega

/-- The trees up to the angle bracket that closes the outermost list end with that bracket. -/
theorem take_angleLength? {depth n : Nat} {ts : List Tree}
    (h : angleLength? (depth + 1) ts = some n) :
    ∃ inner l, ts.take n = inner ++ [.token l] ∧ l.kind = .greaterThan := by
  induction ts generalizing depth n with
  | nil => cases h
  | cons t ts ih =>
    obtain ⟨m, hm, rfl⟩ : ∃ m, angleLength? (if t.isKind .lessThan then depth + 2
        else if t.isKind .greaterThan then depth else depth + 1) ts = some m ∧ m + 1 = n := by
      simpa [angleLength?] using h
    have hcons : ∀ k, angleLength? (k + 1) ts = some m →
        ∃ inner l, (t :: ts).take (m + 1) = inner ++ [.token l] ∧ l.kind = .greaterThan := by
      intro k hk
      obtain ⟨inner, l, hi, hl⟩ := ih hk
      exact ⟨t :: inner, l, by rw [List.take_succ_cons, hi, List.cons_append], hl⟩
    split at hm
    · exact hcons _ hm
    · split at hm
      · rename_i hg
        cases depth with
        | succ depth => exact hcons _ hm
        | zero =>
          cases t with
          | group d opening children close => cases hg
          | token l =>
            obtain rfl : m = 0 := by simpa [angleLength?] using hm.symm
            exact ⟨[], l, rfl, by simpa [isKind] using hg⟩
      · exact hcons _ hm

end Extent

end TwinClasses
