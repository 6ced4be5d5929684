import TwinClasses.Proofs.Conversion.Erasure
import TwinClasses.Proofs.Conversion.Settled

set_option autoImplicit false

/-! Converting a text twice. Conversion makes a text shorter wherever it changes it, so the second
conversion gives back its text exactly where reading that text loses nothing and gives a settled
tree. -/

namespace TwinClasses

theorem length_mergeTrivia_le (dropped replacement : String) :
    (mergeTrivia dropped replacement).length ≤ dropped.length + replacement.length := by
  have hle := (List.dropWhile_sublist Text.isBlank (l := replacement.toList)).length_le
  rw [mergeTrivia_eq, String.length_append]
  simp only [Text.trimStart, String.length_ofList]
  have hlen : replacement.toList.length = replacement.length := String.length_toList
  omega

theorem length_foldr_mergeTrivia_le (taken : List String) (leading : String) :
    (taken.foldr mergeTrivia leading).length ≤ (String.join taken).length + leading.length := by
  induction taken with
  | nil => simp
  | cons s taken ih =>
    have hm := length_mergeTrivia_le s (taken.foldr mergeTrivia leading)
    simp only [List.foldr_cons, String.join_cons, String.length_append]
    omega

namespace Edit

def IsKept (e : Edit) : Prop := e.fate = .kept [] e.token.text

def AllKept (es : List Edit) : Prop := ∀ e ∈ es, e.IsKept

theorem allKept_append (es fs : List Edit) : AllKept (es ++ fs) ↔ AllKept es ∧ AllKept fs :=
  List.forall_mem_append

theorem allKept_cons (e : Edit) (es : List Edit) : AllKept (e :: es) ↔ e.IsKept ∧ AllKept es :=
  List.forall_mem_cons

theorem isKept_respell (t : Token) (text : String) : (respell t text).IsKept ↔ text = t.text := by
  simp [IsKept, respell]

theorem not_isKept_replace (t : Token) : ¬ (replace t).IsKept := by
  simp [IsKept, replace]

theorem allKept_of_withTrivia {leading : String} {es : List Edit}
    (h : AllKept (withTrivia leading es)) : AllKept es := by
  cases es with
  | nil => exact h
  | cons e es =>
    rw [withTrivia, allKept_cons] at h
    exact (allKept_cons e es).2 h

/-- Another text of the token is a shorter one. -/
def Shortens (e : Edit) : Prop :=
  ∀ taken text, e.fate = .kept taken text →
    text = e.token.text ∨ text.length < e.token.text.length

theorem Spells.shortens {e : Edit} (h : e.Spells {}) : e.Shortens := by
  intro taken text hfate
  obtain ht | ⟨-, ht⟩ | ⟨ha, ht⟩ := h taken text hfate
  · exact Or.inl ht
  · exact Or.inr (TypeTable.length_lt_of_rename? ht)
  · rw [ha, ht]
    exact Or.inr (by decide)

theorem length_tokens_cons (t : Token) (fate : Fate) (es : List Edit) :
    (Token.sourceOf (tokens (⟨t, fate⟩ :: es))).length =
      t.leading.length + t.text.length + (Token.sourceOf (tokens es)).length := by
  simp [tokens, Token.source, String.length_append]

theorem length_outcomes_kept (t : Token) (taken : List String) (text : String) (es : List Edit) :
    (Token.sourceOf (outcomes (⟨t, .kept taken text⟩ :: es))).length =
      (taken.foldr mergeTrivia t.leading).length + text.length +
        (Token.sourceOf (outcomes es)).length := by
  simp [outcomes, outcome, Token.source, String.length_append]

namespace Accounts

variable {pending : List String} {es : List Edit}

theorem length_le (h : Accounts True pending es) (hs : ∀ e ∈ es, e.Shortens) :
    (Token.sourceOf (outcomes es)).length ≤
      (String.join pending).length + (Token.sourceOf (tokens es)).length := by
  induction es generalizing pending with
  | nil => simp
  | cons e es ih =>
    obtain ⟨t, fate⟩ := e
    obtain ⟨he, hes⟩ := List.forall_mem_cons.1 hs
    rw [length_tokens_cons]
    cases fate with
    | kept taken text =>
      obtain rfl := h.2.1 trivial
      have htail := ih h.2.2 hes
      have hleading := length_foldr_mergeTrivia_le taken t.leading
      have htext : text.length ≤ t.text.length := by
        obtain heq | hlt := he taken text rfl
        · exact Nat.le_of_eq (congrArg String.length heq)
        · exact Nat.le_of_lt hlt
      rw [length_outcomes_kept]
      simp only [String.join_nil, String.length_empty] at htail
      omega
    | replaced =>
      have hr : Accounts True (pending ++ [t.leading]) es := h
      have htail := ih hr hes
      simp only [String.join_append, String.join_cons, String.join_nil, String.length_append,
        String.length_empty] at htail
      have hout : outcomes (⟨t, .replaced⟩ :: es) = outcomes es := rfl
      rw [hout]
      omega
    | dropped =>
      have hr : Accounts True pending es := h
      have htail := ih hr hes
      have hout : outcomes (⟨t, .dropped⟩ :: es) = outcomes es := rfl
      rw [hout]
      omega

/-- Where no length is lost, every token is kept as it is. -/
theorem isKept_of_length (h : Accounts True [] es) (hs : ∀ e ∈ es, e.Shortens)
    (hne : ∀ t ∈ tokens es, t.text ≠ "")
    (hlen : (Token.sourceOf (tokens es)).length ≤ (Token.sourceOf (outcomes es)).length) :
    AllKept es := by
  induction es with
  | nil => simp [AllKept]
  | cons e es ih =>
    obtain ⟨t, fate⟩ := e
    obtain ⟨he, hes⟩ := List.forall_mem_cons.1 hs
    obtain ⟨ht, htokens⟩ := List.forall_mem_cons.1 hne
    have hpos : 0 < t.text.length := by
      have hzero : t.text.length ≠ 0 := fun h => ht (String.length_eq_zero_iff.1 h)
      omega
    rw [length_tokens_cons] at hlen
    cases fate with
    | kept taken text =>
      have htaken : taken = [] := h.2.1 trivial
      have htail := h.2.2.length_le hes
      rw [length_outcomes_kept, htaken, List.foldr_nil] at hlen
      simp only [String.join_nil, String.length_empty, Nat.zero_add] at htail
      have htext : text = t.text := by
        obtain heq | hlt := he taken text rfl
        · exact heq
        · simp only at hlt
          omega
      have hrest : (Token.sourceOf (tokens es)).length ≤ (Token.sourceOf (outcomes es)).length := by
        rw [htext] at hlen
        omega
      refine (allKept_cons _ _).2 ⟨?_, ih h.2.2 hes htokens hrest⟩
      rw [IsKept, htaken, htext]
    | replaced =>
      have hr : Accounts True ([] ++ [t.leading]) es := h
      have htail := hr.length_le hes
      simp only [List.nil_append, String.join_cons, String.join_nil, String.length_append,
        String.length_empty] at htail
      have hout : outcomes (⟨t, .replaced⟩ :: es) = outcomes es := rfl
      rw [hout] at hlen
      omega
    | dropped =>
      have hr : Accounts True [] es := h
      have htail := hr.length_le hes
      simp only [String.join_nil, String.length_empty] at htail
      have hout : outcomes (⟨t, .dropped⟩ :: es) = outcomes es := rfl
      rw [hout] at hlen
      omega

end Accounts

end Edit

open Edit

theorem TypeTable.leaves_of_text_rename {types : TypeTable} (hs : types.IsStable) {t : Token}
    (h : (types.rename t).text = t.text) : types.Leaves t := by
  obtain ⟨hl, -⟩ | ⟨new, -, hn, ht⟩ := types.rename_cases t
  · exact hl
  · rw [ht] at h
    obtain rfl : new = t.text := h
    have hnone := (hs.rename _ _ hn).1
    rw [hn] at hnone
    cases hnone

/-! A tree that converts, with every token kept as it is, is settled. -/

section

variable {types : TypeTable} {member : String}

mutual

theorem Node.settled_of_allKept (hs : types.IsStable) : ∀ (n : Node) (ms : List Node),
    n.toSync types member = .ok ms → AllKept (n.edits types) → n.Every (Node.IsSettled types)
  | .token t => by
    intro ms hc h
    rw [Node.edits, allKept_cons, isKept_respell] at h
    rw [Node.Every]
    exact TypeTable.leaves_of_text_rename hs h.1
  | .group g => by
    intro ms hc h
    simp only [Node.toSync, ok_bind] at hc
    obtain ⟨g', hg, -⟩ := hc
    rw [Node.edits] at h
    rw [Node.Every]
    exact ⟨trivial, Group.settled_of_allKept hs g g' hg h⟩
  | .classDecl c => by
    intro ms hc h
    simp only [Node.toSync, ok_bind] at hc
    obtain ⟨c', hc', -⟩ := hc
    rw [Node.edits] at h
    rw [Node.Every]
    exact ⟨trivial, ClassDecl.settled_of_allKept hs c c' hc' h⟩
  | .forOf keyword none head => by
    intro ms hc h
    simp only [Node.toSync, ok_bind] at hc
    obtain ⟨head', hh, -⟩ := hc
    rw [Node.edits, allKept_cons] at h
    rw [Node.Every]
    exact ⟨rfl, Group.settled_of_allKept hs head head' hh h.2⟩
  | .forOf keyword (some awaiting) head => by
    intro ms hc h
    rw [Node.edits, allKept_cons, allKept_cons] at h
    exact absurd h.2.1 (not_isKept_replace awaiting)
  | .await keyword operand => by
    intro ms hc h
    rw [Node.edits, allKept_cons] at h
    exact absurd h.1 (not_isKept_replace keyword)
  | .access object dot name => by
    intro ms hc h
    rw [Node.edits] at h
    rw [Node.Every]
    split at h
    · rename_i hi
      simp only [allKept_cons, isKept_respell] at h
      simp only [isAsyncIterator, Bool.and_eq_true, decide_eq_true_eq] at hi
      have hname := h.2.2.1.trans hi.2
      exact absurd hname (by decide)
    · rename_i hi
      rw [allKept_cons, isKept_respell] at h
      exact ⟨by simpa using hi, TypeTable.leaves_of_text_rename hs h.1⟩
  | .typeRef r => by
    intro ms hc h
    rw [Node.toSync] at hc
    rw [Node.edits] at h
    exact TypeRef.settled_of_allKept hs r ms hc h

theorem Node.settledOf_of_allKept (hs : types.IsStable) : ∀ ns ms : List Node,
    Node.toSyncAll types member ns = .ok ms → AllKept (Node.editsAll types ns) →
      Node.EveryOf (Node.IsSettled types) ns
  | [] => by
    intro ms hc h
    rw [Node.EveryOf]
    trivial
  | n :: ns => by
    intro ms hc h
    simp only [Node.toSyncAll, ok_bind] at hc
    obtain ⟨ks, hk, ls, hl, -⟩ := hc
    rw [Node.editsAll, allKept_append] at h
    rw [Node.EveryOf]
    exact ⟨Node.settled_of_allKept hs n ks hk h.1, Node.settledOf_of_allKept hs ns ls hl h.2⟩

theorem Group.settled_of_allKept (hs : types.IsStable) : ∀ g g' : Group,
    g.toSync types member = .ok g' → AllKept (g.edits types) → g.Every (Node.IsSettled types)
  | ⟨d, opening, children, closing⟩ => by
    intro g' hc h
    simp only [Group.toSync, ok_bind] at hc
    obtain ⟨ns, hn, -⟩ := hc
    rw [Group.edits, allKept_append, allKept_cons] at h
    rw [Group.Every]
    exact Node.settledOf_of_allKept hs children ns hn h.1.2

theorem Group.settledIn_of_allKept (hs : types.IsStable) : ∀ g g' : Option Group,
    Group.toSyncOption types member g = .ok g' → AllKept (Group.editsOption types g) →
      Group.EveryIn (Node.IsSettled types) g
  | none => by
    intro g' hc h
    rw [Group.EveryIn]
    trivial
  | some g => by
    intro g' hc h
    simp only [Group.toSyncOption, ok_bind] at hc
    obtain ⟨k, hk, -⟩ := hc
    rw [Group.editsOption] at h
    rw [Group.EveryIn]
    exact Group.settled_of_allKept hs g k hk h

theorem Clause.settled_of_allKept (hs : types.IsStable) : ∀ c c' : Clause,
    c.toSync types member = .ok c' → AllKept (c.edits types) → c.Every (Node.IsSettled types)
  | ⟨mark, content⟩ => by
    intro c' hc h
    simp only [Clause.toSync, ok_bind] at hc
    obtain ⟨ns, hn, -⟩ := hc
    rw [Clause.edits, allKept_cons] at h
    rw [Clause.Every]
    exact Node.settledOf_of_allKept hs content ns hn h.2

theorem Clause.settledOf_of_allKept (hs : types.IsStable) : ∀ cs cs' : List Clause,
    Clause.toSyncAll types member cs = .ok cs' → AllKept (Clause.editsAll types cs) →
      Clause.EveryOf (Node.IsSettled types) cs
  | [] => by
    intro cs' hc h
    rw [Clause.EveryOf]
    trivial
  | c :: cs => by
    intro cs' hc h
    simp only [Clause.toSyncAll, ok_bind] at hc
    obtain ⟨k, hk, ls, hl, -⟩ := hc
    rw [Clause.editsAll, allKept_append] at h
    rw [Clause.EveryOf]
    exact ⟨Clause.settled_of_allKept hs c k hk h.1, Clause.settledOf_of_allKept hs cs ls hl h.2⟩

theorem Clause.settledIn_of_allKept (hs : types.IsStable) : ∀ c c' : Option Clause,
    Clause.toSyncOption types member c = .ok c' → AllKept (Clause.editsOption types c) →
      Clause.EveryIn (Node.IsSettled types) c
  | none => by
    intro c' hc h
    rw [Clause.EveryIn]
    trivial
  | some c => by
    intro c' hc h
    simp only [Clause.toSyncOption, ok_bind] at hc
    obtain ⟨k, hk, -⟩ := hc
    rw [Clause.editsOption] at h
    rw [Clause.EveryIn]
    exact Clause.settled_of_allKept hs c k hk h

theorem TypeRef.settled_of_allKept (hs : types.IsStable) : ∀ (r : TypeRef) (ms : List Node),
    r.toSync types member = .ok ms → AllKept (r.edits types) →
      (Node.typeRef r).Every (Node.IsSettled types)
  | ⟨name, dot :: path, none⟩ => by
    intro ms hc h
    rw [Node.Every, TypeRef.Every, TypeArguments.EveryIn]
    exact ⟨fun hp => absurd hp (List.cons_ne_nil _ _), trivial⟩
  | ⟨name, dot :: path, some arguments⟩ => by
    intro ms hc h
    simp only [TypeRef.toSync, ok_bind] at hc
    obtain ⟨as, ha, -⟩ := hc
    rw [TypeRef.edits, allKept_append, TypeArguments.editsOption] at h
    rw [Node.Every, TypeRef.Every, TypeArguments.EveryIn]
    exact ⟨fun hp => absurd hp (List.cons_ne_nil _ _),
      TypeArguments.settled_of_allKept hs arguments as ha h.2⟩
  | ⟨name, [], none⟩ => by
    intro ms hc h
    rw [TypeRef.toSync] at hc
    rw [TypeRef.edits, allKept_cons, isKept_respell] at h
    rw [Node.Every, TypeRef.Every, TypeArguments.EveryIn]
    split at hc
    · cases hc
    · rename_i hu
      exact ⟨fun _ => ⟨by simpa using hu, TypeTable.leaves_of_text_rename hs h.1⟩, trivial⟩
  | ⟨name, [], some arguments⟩ => by
    intro ms hc h
    rw [TypeRef.edits] at h
    rw [Node.Every, TypeRef.Every, TypeArguments.EveryIn]
    split at h
    · rw [allKept_cons] at h
      exact absurd h.1 (not_isKept_replace name)
    · rename_i hu
      rw [TypeRef.toSync, if_neg hu, ok_bind] at hc
      obtain ⟨as, ha, -⟩ := hc
      rw [allKept_cons, isKept_respell] at h
      exact ⟨fun _ => ⟨by simpa using hu, TypeTable.leaves_of_text_rename hs h.1⟩,
        TypeArguments.settled_of_allKept hs arguments as ha h.2⟩

theorem TypeArguments.settled_of_allKept (hs : types.IsStable) : ∀ a a' : TypeArguments,
    a.toSync types member = .ok a' → AllKept (a.edits types) → a.Every (Node.IsSettled types)
  | ⟨opening, items, closing⟩ => by
    intro a' hc h
    simp only [TypeArguments.toSync, ok_bind] at hc
    obtain ⟨as, ha, -⟩ := hc
    rw [TypeArguments.edits, allKept_append, allKept_cons] at h
    rw [TypeArguments.Every]
    exact TypeArgument.settledOf_of_allKept hs items as ha h.1.2

theorem TypeArgument.settled_of_allKept (hs : types.IsStable) : ∀ a a' : TypeArgument,
    a.toSync types member = .ok a' → AllKept (a.edits types) → a.Every (Node.IsSettled types)
  | ⟨type, comma⟩ => by
    intro a' hc h
    simp only [TypeArgument.toSync, ok_bind] at hc
    obtain ⟨ns, hn, -⟩ := hc
    rw [TypeArgument.edits, allKept_append] at h
    rw [TypeArgument.Every]
    exact Node.settledOf_of_allKept hs type ns hn h.1

theorem TypeArgument.settledOf_of_allKept (hs : types.IsStable) : ∀ as as' : List TypeArgument,
    TypeArgument.toSyncAll types member as = .ok as' → AllKept (TypeArgument.editsAll types as) →
      TypeArgument.EveryOf (Node.IsSettled types) as
  | [] => by
    intro as' hc h
    rw [TypeArgument.EveryOf]
    trivial
  | a :: as => by
    intro as' hc h
    simp only [TypeArgument.toSyncAll, ok_bind] at hc
    obtain ⟨k, hk, ls, hl, -⟩ := hc
    rw [TypeArgument.editsAll, allKept_append] at h
    rw [TypeArgument.EveryOf]
    exact ⟨TypeArgument.settled_of_allKept hs a k hk h.1,
      TypeArgument.settledOf_of_allKept hs as ls hl h.2⟩

theorem ClassDecl.settled_of_allKept (hs : types.IsStable) : ∀ c c' : ClassDecl,
    c.toSync types member = .ok c' → AllKept (c.edits types) → c.Every (Node.IsSettled types)
  | ⟨keyword, name, heritage, opening, members, closing, isExpression⟩ => by
    intro c' hc h
    simp only [ClassDecl.toSync, ok_bind] at hc
    obtain ⟨ms, hm, ns, hn, -⟩ := hc
    simp only [ClassDecl.edits, allKept_append, allKept_cons] at h
    rw [ClassDecl.Every]
    exact ⟨Node.settledOf_of_allKept hs heritage ns hn h.1.1.2,
      Member.settledOf_of_allKept hs members ms hm h.1.2.2⟩

theorem Member.settled_of_allKept (hs : types.IsStable) : ∀ m m' : Member,
    m.toSync types member = .ok m' → AllKept (m.edits types) → m.Every (Node.IsSettled types)
  | .method m => by
    intro m' hc h
    simp only [Member.toSync, ok_bind] at hc
    obtain ⟨k, hk, -⟩ := hc
    rw [Member.edits] at h
    rw [Member.Every]
    exact Method.settled_of_allKept hs m k hk h
  | .getter g => by
    intro m' hc h
    simp only [Member.toSync, ok_bind] at hc
    obtain ⟨k, hk, -⟩ := hc
    rw [Member.edits] at h
    rw [Member.Every]
    exact Getter.settled_of_allKept hs g k hk h
  | .other ns => by
    intro m' hc h
    simp only [Member.toSync, ok_bind] at hc
    obtain ⟨ks, hk, -⟩ := hc
    rw [Member.edits] at h
    rw [Member.Every]
    exact Node.settledOf_of_allKept hs ns ks hk h

theorem Member.settledOf_of_allKept (hs : types.IsStable) : ∀ ms ms' : List Member,
    Member.toSyncAll types member ms = .ok ms' → AllKept (Member.editsAll types ms) →
      Member.EveryOf (Node.IsSettled types) ms
  | [] => by
    intro ms' hc h
    rw [Member.EveryOf]
    trivial
  | m :: ms => by
    intro ms' hc h
    simp only [Member.toSyncAll, ok_bind] at hc
    obtain ⟨k, hk, ls, hl, -⟩ := hc
    rw [Member.editsAll, allKept_append] at h
    rw [Member.EveryOf]
    exact ⟨Member.settled_of_allKept hs m k hk h.1, Member.settledOf_of_allKept hs ms ls hl h.2⟩

theorem Method.settled_of_allKept (hs : types.IsStable) : ∀ m m' : Method,
    m.toSync types member = .ok m' → AllKept (m.edits types) → m.Every (Node.IsSettled types)
  | ⟨leading, decorators, modifiers, asterisk, name, question, typeParameters, parameters,
      returnType, body, terminator⟩ => by
    intro m' hc h
    simp only [Method.toSync, ok_bind] at hc
    obtain ⟨ds', hds, n', hn', ts', hts, ps', hps, r', hr', b', hb', -⟩ := hc
    rw [Method.edits] at h
    have hk := allKept_of_withTrivia h
    simp only [allKept_append] at hk
    obtain ⟨⟨⟨⟨⟨⟨⟨⟨⟨hd, -⟩, -⟩, hn⟩, -⟩, ht⟩, hp⟩, hr⟩, hb⟩, -⟩ := hk
    rw [Method.Every]
    exact ⟨Clause.settledOf_of_allKept hs decorators ds' hds hd,
      MemberName.settled_of_allKept hs name n' hn' hn,
      Node.settledOf_of_allKept hs typeParameters ts' hts ht,
      ParameterList.settled_of_allKept hs parameters ps' hps hp,
      Clause.settledIn_of_allKept hs returnType r' hr' hr,
      Group.settledIn_of_allKept hs body b' hb' hb⟩

theorem Getter.settled_of_allKept (hs : types.IsStable) : ∀ g g' : Getter,
    g.toSync types member = .ok g' → AllKept (g.edits types) → g.Every (Node.IsSettled types)
  | ⟨leading, decorators, modifiers, keyword, name, parameters, returnType, body,
      terminator⟩ => by
    intro g' hc h
    simp only [Getter.toSync, ok_bind] at hc
    obtain ⟨ds', hds, n', hn', ps', hps, r', hr', b', hb', -⟩ := hc
    rw [Getter.edits] at h
    have hk := allKept_of_withTrivia h
    simp only [allKept_append, allKept_cons] at hk
    obtain ⟨⟨⟨⟨⟨⟨hd, -⟩, -, hn⟩, hp⟩, hr⟩, hb⟩, -⟩ := hk
    rw [Getter.Every]
    exact ⟨Clause.settledOf_of_allKept hs decorators ds' hds hd,
      MemberName.settled_of_allKept hs name n' hn' hn,
      ParameterList.settled_of_allKept hs parameters ps' hps hp,
      Clause.settledIn_of_allKept hs returnType r' hr' hr,
      Group.settledIn_of_allKept hs body b' hb' hb⟩

theorem MemberName.settled_of_allKept (hs : types.IsStable) : ∀ n n' : MemberName,
    n.toSync types member = .ok n' → AllKept (n.edits types) → n.Every (Node.IsSettled types)
  | .identifier t => by
    intro n' hc h
    rw [MemberName.Every]
    trivial
  | .literal t => by
    intro n' hc h
    rw [MemberName.Every]
    trivial
  | .computed g => by
    intro n' hc h
    simp only [MemberName.toSync, ok_bind] at hc
    obtain ⟨k, hk, -⟩ := hc
    rw [MemberName.edits] at h
    rw [MemberName.Every]
    exact Group.settled_of_allKept hs g k hk h

theorem ParameterList.settled_of_allKept (hs : types.IsStable) : ∀ ps ps' : ParameterList,
    ps.toSync types member = .ok ps' → AllKept (ps.edits types) → ps.Every (Node.IsSettled types)
  | ⟨opening, items, closing⟩ => by
    intro ps' hc h
    simp only [ParameterList.toSync, ok_bind] at hc
    obtain ⟨ks, hk, -⟩ := hc
    rw [ParameterList.edits, allKept_append, allKept_cons] at h
    rw [ParameterList.Every]
    exact Parameter.settledOf_of_allKept hs items ks hk h.1.2

theorem Parameter.settled_of_allKept (hs : types.IsStable) : ∀ q q' : Parameter,
    q.toSync types member = .ok q' → AllKept (q.edits types) → q.Every (Node.IsSettled types)
  | ⟨modifiers, rest, binding, question, type, initializer, comma⟩ => by
    intro q' hc h
    simp only [Parameter.toSync, ok_bind] at hc
    obtain ⟨b', hb', t', ht', i', hi', -⟩ := hc
    simp only [Parameter.edits, allKept_append] at h
    obtain ⟨⟨⟨⟨-, hb⟩, -⟩, ht⟩, hi⟩ := h.1
    rw [Parameter.Every]
    exact ⟨Binding.settled_of_allKept hs binding b' hb' hb,
      Clause.settledIn_of_allKept hs type t' ht' ht,
      Clause.settledIn_of_allKept hs initializer i' hi' hi⟩

theorem Parameter.settledOf_of_allKept (hs : types.IsStable) : ∀ qs qs' : List Parameter,
    Parameter.toSyncAll types member qs = .ok qs' → AllKept (Parameter.editsAll types qs) →
      Parameter.EveryOf (Node.IsSettled types) qs
  | [] => by
    intro qs' hc h
    rw [Parameter.EveryOf]
    trivial
  | q :: qs => by
    intro qs' hc h
    simp only [Parameter.toSyncAll, ok_bind] at hc
    obtain ⟨k, hk, ls, hl, -⟩ := hc
    rw [Parameter.editsAll, allKept_append] at h
    rw [Parameter.EveryOf]
    exact ⟨Parameter.settled_of_allKept hs q k hk h.1,
      Parameter.settledOf_of_allKept hs qs ls hl h.2⟩

theorem Binding.settled_of_allKept (hs : types.IsStable) : ∀ b b' : Binding,
    b.toSync types member = .ok b' → AllKept (b.edits types) → b.Every (Node.IsSettled types)
  | .identifier t => by
    intro b' hc h
    rw [Binding.Every]
    trivial
  | .pattern g => by
    intro b' hc h
    simp only [Binding.toSync, ok_bind] at hc
    obtain ⟨k, hk, -⟩ := hc
    rw [Binding.edits] at h
    rw [Binding.Every]
    exact Group.settled_of_allKept hs g k hk h

end

end

namespace SourceFile

/-- The synchronous form of a file, by the default types. -/
def toSync (member : String) (f : SourceFile) : Except ExpansionError SourceFile :=
  return { f with nodes := ← Node.toSyncAll {} member f.nodes }

variable {name source member : String} {f g : SourceFile}

theorem toSync_eq_ok (h : f.toSync member = .ok g) :
    ∃ ns, Node.toSyncAll {} member f.nodes = .ok ns ∧ g = { f with nodes := ns } := by
  rw [toSync, ok_bind] at h
  obtain ⟨ns, hn, hg⟩ := h
  exact ⟨ns, hn, (ok_pure _ _).1 hg⟩

theorem everyOf_isSettled_toSync (h : f.toSync member = .ok g) :
    Node.EveryOf (Node.IsSettled {}) g.nodes := by
  obtain ⟨ns, hn, rfl⟩ := toSync_eq_ok h
  exact Node.every_toSyncAll (TypeTable.ensures_isSettled TypeTable.isStable_default) f.nodes ns hn

theorem toSync_of_settled (h : Node.EveryOf (Node.IsSettled {}) f.nodes) :
    f.toSync member = .ok f := by
  rw [toSync, Node.toSyncAll_settled f.nodes h]
  rfl

theorem length_source_eq (f : SourceFile) :
    f.source.length = (Token.sourceOf (Node.tokensAll f.nodes)).length + f.trailing.length := by
  rw [SourceFile.source, String.length_append, Node.sourceAll]

theorem shortens_editsAll (ns : List Node) : ∀ e ∈ Node.editsAll {} ns, e.Shortens := by
  have hs : Script {} False (Node.editsAll {} ns) := Node.script_editsAll {} ns False.elim
  exact fun e he => (hs.spells e he).shortens

theorem accounts_editsAll (hf : ofSource name source = .ok f) :
    Accounts True [] (Node.editsAll {} f.nodes) := by
  have hs : Script {} True (Node.editsAll {} f.nodes) :=
    Node.script_editsAll {} f.nodes fun _ => isFilled_ofSource hf
  exact hs.accounts

/-- Conversion makes no text longer. -/
theorem length_toSync_le (hf : ofSource name source = .ok f) (h : f.toSync member = .ok g) :
    g.source.length ≤ f.source.length := by
  obtain ⟨ns, hn, rfl⟩ := toSync_eq_ok h
  have hle := (accounts_editsAll hf).length_le (shortens_editsAll f.nodes)
  rw [← Node.tokens_toSyncAll f.nodes ns hn, Node.tokens_editsAll] at hle
  simp only [String.join_nil, String.length_empty, Nat.zero_add] at hle
  rw [length_source_eq, length_source_eq]
  simp only
  omega

/-- A file that conversion makes no shorter is settled. -/
theorem settled_of_length_toSync (hf : ofSource name source = .ok f) (h : f.toSync member = .ok g)
    (hlen : f.source.length ≤ g.source.length) : Node.EveryOf (Node.IsSettled {}) f.nodes := by
  obtain ⟨ns, hn, rfl⟩ := toSync_eq_ok h
  have hkept : AllKept (Node.editsAll {} f.nodes) := by
    apply (accounts_editsAll hf).isKept_of_length (shortens_editsAll f.nodes)
    · intro t ht
      rw [Node.tokens_editsAll] at ht
      exact Lexer.text_ne_empty_of_mem_lexemes source t (mem_lexemes_of_mem_tokens hf ht)
    · rw [← Node.tokens_toSyncAll f.nodes ns hn, Node.tokens_editsAll]
      rw [length_source_eq, length_source_eq] at hlen
      simp only at hlen
      omega
  exact Node.settledOf_of_allKept TypeTable.isStable_default f.nodes ns hn hkept

/-- The text that a text converts to, if it can be read and converts. -/
def convert (name member source : String) : Option String :=
  ((ofSource name source).toOption.bind fun f => (f.toSync member).toOption).map SourceFile.source

theorem convert_eq_some {text : String} (h : convert name member source = some text) :
    ∃ f g, ofSource name source = .ok f ∧ f.toSync member = .ok g ∧ g.source = text := by
  unfold convert at h
  cases hf : ofSource name source with
  | error d => simp [hf, Except.toOption] at h
  | ok f =>
    cases hg : f.toSync member with
    | error e => simp [hf, hg, Except.toOption] at h
    | ok g => exact ⟨f, g, rfl, hg, by simpa [hf, hg, Except.toOption] using h⟩

theorem convert_of_settled (hf : ofSource name source = .ok f)
    (hs : Node.EveryOf (Node.IsSettled {}) f.nodes) :
    convert name member source = some f.source := by
  simp [convert, hf, toSync_of_settled hs, Except.toOption]

theorem convert_eq_self_iff : convert name member source = some source ↔
    ∃ f, ofSource name source = .ok f ∧ f.source = source ∧
      Node.EveryOf (Node.IsSettled {}) f.nodes := by
  constructor
  · intro h
    obtain ⟨f, g, hf, hg, heq⟩ := convert_eq_some h
    have hle := length_toSync_le hf hg
    rw [heq] at hle
    have hsource := source_eq_of_length_le hf hle
    refine ⟨f, hf, hsource, settled_of_length_toSync hf hg ?_⟩
    rw [hsource, heq]
  · rintro ⟨f, hf, hsource, hs⟩
    rw [convert_of_settled hf hs, hsource]

/-- What a text converts to is settled, and if it is read back as it was printed it converts to
itself. In general the second conversion prints the text of the first if and only if reading that
text loses nothing and finds nothing to convert. -/
theorem convert_convert_iff {text : String} (h : convert name member source = some text) :
    (∃ f g, ofSource name source = .ok f ∧ f.toSync member = .ok g ∧ g.source = text ∧
      Node.EveryOf (Node.IsSettled {}) g.nodes ∧
      (ofSource name text = .ok g → convert name member text = some text)) ∧
    (convert name member text = some text ↔ ∃ f, ofSource name text = .ok f ∧ f.source = text ∧
      Node.EveryOf (Node.IsSettled {}) f.nodes) := by
  obtain ⟨f, g, hf, hg, rfl⟩ := convert_eq_some h
  have hs := everyOf_isSettled_toSync hg
  exact ⟨⟨f, g, hf, hg, rfl, hs, fun hr => convert_of_settled hr hs⟩, convert_eq_self_iff⟩

theorem convert_await_unwrapped :
    convert "a.ts" "f" "await AsyncOrSync<X>;" = some "AsyncOrSync<X>;" := by
  decide +kernel

theorem convert_unwrapped : convert "a.ts" "f" "AsyncOrSync<X>;" = some "X;" := by
  decide +kernel

/-- What is awaited is read as an operand, and as a type once the keyword is gone. -/
theorem await_unwrapped_finds_unsettled :
    ¬ ∃ f, ofSource "a.ts" "AsyncOrSync<X>;" = .ok f ∧ f.source = "AsyncOrSync<X>;" ∧
      Node.EveryOf (Node.IsSettled {}) f.nodes := by
  intro hs
  have h := (convert_convert_iff convert_await_unwrapped).2.2 hs
  rw [convert_unwrapped] at h
  exact absurd h (by decide)

theorem not_convert_convert : ¬ ∀ name member source text : String,
    convert name member source = some text → convert name member text = some text := by
  intro hall
  have h := hall _ _ _ _ convert_await_unwrapped
  rw [convert_unwrapped] at h
  exact absurd h (by decide)

end SourceFile

end TwinClasses
