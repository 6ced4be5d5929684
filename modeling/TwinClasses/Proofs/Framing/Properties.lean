import TwinClasses.Proofs.Framing.Members
import TwinClasses.Proofs.Success
import TwinClasses.Token.Lexer

set_option autoImplicit false

/-! Properties in front of other members. A property without a semicolon ends at the line break
behind it if its last tree is complete. Operators and question marks are taken to be incomplete,
whatever stands in front of them; so a property that ends with `++`, with `--` or with the `?` after
its name goes on over the line break and takes the next member in. -/

namespace TwinClasses

namespace Extent

/-- A tree that a declaration may end with: a closing bracket, a name that is no word for what comes
after it, a literal, the end of a type argument list, a postfix operator, or the mark after a
name. -/
def endsDeclaration : Tree → Bool
  | .group .. => true
  | .token l =>
    match l.kind with
    | .identifier => !isHeadWord (.token l)
    | .privateName | .greaterThan | .question | .bang => true
    | .operator => l.text ∈ ["++", "--"]
    | kind => kind.isLiteral

/-- The trees begin with a name or a decorator, on a new line. -/
def opensItem : List Tree → Bool
  | .token l :: _ => (l.kind = .identifier || l.kind = .atSign) && l.toToken.opensLine
  | _ => false

variable {t : Tree} {more : List Tree}

theorem not_isHeadWord_of_endsDeclaration (h : endsDeclaration t = true) :
    isHeadWord t = false := by
  cases t with
  | group d opening children close => rfl
  | token l =>
    by_cases hk : l.kind = .identifier
    · simpa [endsDeclaration, hk] using h
    · simp [isHeadWord, hk]

theorem not_semicolon_of_endsDeclaration (h : endsDeclaration t = true) :
    t.isKind .semicolon = false := by
  cases t with
  | group d opening children close => rfl
  | token l =>
    by_cases hk : l.kind = .semicolon
    · simp [endsDeclaration, hk, Kind.isLiteral] at h
    · simp [Tree.isKind, hk]

/-- Of all trees that may end a declaration, these do not end a property. -/
theorem isIncomplete_of_endsDeclaration (h : endsDeclaration t = true) :
    isIncomplete t = (t.isKind .operator || t.isKind .question) := by
  cases t with
  | group d opening children close => rfl
  | token l =>
    obtain ⟨⟨kind, leading, text⟩, offset⟩ := l
    cases kind <;> simp_all [endsDeclaration, isIncomplete, Tree.isKind, Kind.isLiteral]

theorem opensItem_eq_true (h : opensItem more = true) :
    ∃ u us, more = u :: us ∧ beginsItem more = true ∧ more.head?.all Tree.opensLine = true := by
  cases more using Tree.frontCases with
  | nil => cases h
  | group d opening children close us => cases h
  | token l us =>
    simp only [opensItem, Bool.and_eq_true, Bool.or_eq_true, decide_eq_true_eq] at h
    refine ⟨.token l, us, rfl, ?_, by simpa [Tree.opensLine, Tree.first] using h.2⟩
    obtain ⟨hk | hk, -⟩ := h <;> simp [beginsItem, hk]

/-- Behind an incomplete tree a property takes what comes next, wherever that stands. -/
theorem length_lt_propertyLength {previous : Option Tree} {us : List Tree} {u : Tree}
    (hend : us.drop (propertyLength previous us) = []) (ht : t ∈ us.getLast?.or previous)
    (hi : isIncomplete t = true) : us.length < propertyLength previous (us ++ u :: more) := by
  induction us generalizing previous with
  | nil =>
    obtain rfl : previous = some t := ht
    rw [List.nil_append, propertyLength, List.length_nil]
    split
    · exact Nat.one_pos
    · simp only [hi, Option.any_some, Bool.true_or, Bool.not_true, Bool.and_false,
        Bool.false_eq_true, if_false]
      omega
  | cons v us ih =>
    have hlast : (v :: us).getLast?.or previous = us.getLast?.or (some v) := by
      rw [List.getLast?_cons]
      cases us.getLast? <;> rfl
    rw [hlast] at ht
    rw [List.cons_append, propertyLength, List.length_cons]
    rw [propertyLength] at hend
    by_cases hk : v.isKind .semicolon = true
    · -- The property ends with the semicolon, which nothing goes on after.
      rw [if_pos hk] at hend
      obtain rfl : us = [] := hend
      obtain rfl : v = t := by simpa using ht
      cases v with
      | group d opening children close => cases hk
      | token l =>
        have hl : l.kind = .semicolon := by simpa [Tree.isKind] using hk
        simp [isIncomplete, hl] at hi
    · rw [if_neg hk] at hend ⊢
      split at hend
      · cases hend
      · rename_i hgo
        rw [if_neg hgo]
        rw [Nat.add_comm, List.drop_succ_cons] at hend
        have hlt := ih hend ht
        omega

end Extent

open Extent

namespace Reader

/-- The trees begin with a property, as far as its name and its type parameters tell. -/
def readsProperty (closing : Option Nat) (ts : List Tree) : Bool :=
  match declared closing [] ts with
  | .done .property _ _ => true
  | _ => false

/-- The trees are read as the property `m` and nothing else. -/
structure IsProperty (closing : Option Nat) (ts : List Tree) (m : Member) : Prop where
  members_eq : members closing ts = .ok [m]
  reads : readsProperty closing ts = true

variable {closing closing' : Option Nat} {ts more : List Tree} {m : Member} {t : Tree}

theorem declared_of_readsProperty (h : readsProperty closing ts = true) :
    ∃ us hu, declared closing [] ts = .done .property us hu := by
  unfold readsProperty at h
  split at h
  · rename_i us hu hd
    exact ⟨us, hu, hd⟩
  · cases h

/-- A member that is all of a body is read to its end. -/
theorem member_of_members_eq (h : members closing ts = .ok [m]) :
    ∃ hr, member closing ts = .done m [] hr := by
  cases ts with
  | nil =>
    rw [members] at h
    cases h
  | cons v vs =>
    obtain ⟨m', rest, hr, ms, hm, hms, heq⟩ := members_cons_eq_ok h
    obtain ⟨rfl, rfl⟩ := List.cons.inj heq
    cases rest with
    | nil => exact ⟨hr, hm⟩
    | cons v rest =>
      obtain ⟨m', rest', hr', ms, -, -, hcons⟩ := members_cons_eq_ok hms
      cases hcons

/-- What a property that is all of a body is read from. -/
theorem IsProperty.exists_declared (h : IsProperty closing ts m)
    (hc : Tree.frontToken? .semicolon ts = none) : ∃ us hu ns,
      declared closing [] ts = .done .property us hu ∧
      us.drop (propertyLength (Tree.before ts us).getLast? us) = [] ∧
      sequence (some .brace) none (Tree.before ts
        (us.drop (propertyLength (Tree.before ts us).getLast? us))) = .ok ns ∧ m = .other ns := by
  obtain ⟨us, hu, hd⟩ := declared_of_readsProperty h.reads
  obtain ⟨hr, hm⟩ := member_of_members_eq h.members_eq
  obtain ⟨found, us', hu', hd', hcase⟩ := member_eq_done hc hm
  rw [hd] at hd'
  obtain ⟨rfl, rfl⟩ := Reading.done.inj hd'
  obtain ⟨hfound, -⟩ | ⟨ns, rfl, hq, ⟨hfound, -⟩ | ⟨-, hv⟩⟩ := hcase
  · cases hfound
  · cases hfound
  · exact ⟨us, hu, ns, hd, hv.symm, hv ▸ hq, rfl⟩

theorem IsProperty.frontToken?_eq_none (h : IsProperty closing ts m) (ht : t ∈ ts.getLast?)
    (hk : t.isKind .semicolon = false) : Tree.frontToken? .semicolon ts = none := by
  cases hc : Tree.frontToken? .semicolon ts with
  | none => rfl
  | some semicolon =>
    -- A lone semicolon is a member by itself, so it would be the last tree.
    obtain ⟨l, us, rfl, hl, rfl⟩ := Tree.frontToken?_eq_some hc
    obtain ⟨hr, hm⟩ := member_of_members_eq h.members_eq
    rw [member, hc] at hm
    obtain ⟨-, rfl⟩ := Reading.done.inj hm
    cases ht
    simp [Tree.isKind, hl] at hk

/-- A property that ends with a complete tree, and members from a new line on. -/
theorem IsProperty.members_append (h : IsProperty closing ts m) (ht : t ∈ ts.getLast?)
    (hk : t.isKind .semicolon = false) (hw : isHeadWord t = false) (hi : isIncomplete t = false)
    (hm : beginsItem more = true) (ho : more.head?.all Tree.opensLine = true) :
    members closing' (ts ++ more) = (members closing' more).map (m :: ·) := by
  have hc := h.frontToken?_eq_none ht hk
  obtain ⟨us, hu, ns, hd, hend, hq, rfl⟩ := h.exists_declared hc
  obtain ⟨v, vs, rfl⟩ := List.exists_cons_of_ne_nil (ne_nil_of_declared hd)
  have hc' : Tree.frontToken? .semicolon (v :: vs ++ more) = none := by
    cases v <;> exact hc
  have hmember : ∃ hr, member closing' (v :: vs ++ more) = .done (.other ns)
      (us.drop (propertyLength (Tree.before (v :: vs) us).getLast? us) ++ more) hr := by
    refine member_property_append hm hc' hd hq ?_
    intro _ t' ht'
    obtain rfl : t = t' := Option.some.inj (ht.symm.trans ht')
    simp [Member.endsBefore, hi, hw, ho]
  rw [hend] at hmember
  obtain ⟨hr, hmember⟩ := hmember
  exact members_cons hmember

/-- A property that ends with an incomplete tree takes in what comes behind it. -/
theorem IsProperty.length_lt (h : IsProperty closing ts m) (ht : t ∈ ts.getLast?)
    (hk : t.isKind .semicolon = false) (hw : isHeadWord t = false) (hi : isIncomplete t = true)
    {u : Tree} (hm : beginsItem (u :: more) = true) {m' : Member} {rest : List Tree}
    {hr : Follows rest (ts ++ u :: more)}
    (hd : member closing' (ts ++ u :: more) = .done m' rest hr) :
    rest.length < (u :: more).length ∧ ∃ ns, m' = .other ns := by
  have hc := h.frontToken?_eq_none ht hk
  obtain ⟨us, hu, ns, hdeclared, hend, -, rfl⟩ := h.exists_declared hc
  have hne := ne_nil_of_declared hdeclared
  have hc' : Tree.frontToken? .semicolon (ts ++ u :: more) = none := by
    obtain ⟨v, vs, rfl⟩ := List.exists_cons_of_ne_nil hne
    cases v <;> exact hc
  obtain ⟨hu', hdeclared'⟩ : ∃ hr, declared closing' [] (ts ++ u :: more) =
      .done .property (us ++ u :: more) hr := by
    refine declared_append hm hdeclared (by simp) ?_
    rintro - - t' ht'
    obtain rfl : t = t' := Option.some.inj (ht.symm.trans ht')
    exact hw
  have hlast : t ∈ us.getLast?.or (Tree.before ts us).getLast? := by
    rw [← List.getLast?_append, Tree.before_append hu.suffix]
    exact ht
  have hlt : us.length < propertyLength (Tree.before ts us).getLast? (us ++ u :: more) :=
    length_lt_propertyLength hend hlast hi
  obtain ⟨found, us', hu'', hd', hcase⟩ := member_eq_done hc' hd
  rw [hdeclared'] at hd'
  obtain ⟨rfl, rfl⟩ := Reading.done.inj hd'
  obtain ⟨hfound, -⟩ | ⟨ns', rfl, -, ⟨hfound, -⟩ | ⟨-, rfl⟩⟩ := hcase
  · cases hfound
  · cases hfound
  · refine ⟨?_, ns', rfl⟩
    rw [before_append_append hu.suffix, List.length_drop, List.length_append]
    rw [List.length_cons]
    omega

/-- A property without a semicolon, and members that begin on a new line with a name or a decorator.
The property is a member by itself and the other members stay what they are, unless it ends with an
operator or a question mark: then it takes in at least the tree they begin with, and what is read
first is a member kept as it was written. -/
theorem property_before_item {ms : List Member} (h : IsProperty closing ts m)
    (ht : t ∈ ts.getLast?) (hend : endsDeclaration t = true) (hmore : opensItem more = true)
    (hms : members closing' more = .ok ms) :
    (t.isKind .operator = false → t.isKind .question = false →
      members closing' (ts ++ more) = .ok (m :: ms)) ∧
    (t.isKind .operator = true ∨ t.isKind .question = true →
      ∀ m' rest hr, member closing' (ts ++ more) = .done m' rest hr →
        rest.length < more.length ∧ ∃ ns, m' = .other ns) := by
  have hk := not_semicolon_of_endsDeclaration hend
  have hw := not_isHeadWord_of_endsDeclaration hend
  have hi := isIncomplete_of_endsDeclaration hend
  obtain ⟨u, us, rfl, hm, ho⟩ := opensItem_eq_true hmore
  refine ⟨fun hoperator hquestion => ?_, fun hkind m' rest hr hd => ?_⟩
  · rw [hoperator, hquestion] at hi
    rw [h.members_append ht hk hw hi hm ho, hms]
    rfl
  · have hi : isIncomplete t = true := by
      rw [hi, Bool.or_eq_true]
      exact hkind
    exact h.length_lt ht hk hw hi hm hd

/-- What a text in the body of a class is read from. -/
def bodyTrees (body : String) : List Tree :=
  (Tree.ofLexemes (Lexer.lexemes body).lexemes).toOption.getD []

def isPropertyText (body : String) : Bool :=
  ((members none (bodyTrees body)).toOption.map List.length = some 1) &&
    readsProperty none (bodyTrees body)

theorem exists_isProperty (body : String) (h : isPropertyText body = true) :
    ∃ m, IsProperty none (bodyTrees body) m := by
  simp only [isPropertyText, Bool.and_eq_true, decide_eq_true_eq] at h
  obtain ⟨ms, hms, hlength⟩ := Option.map_eq_some_iff.1 h.1
  obtain ⟨m, rfl⟩ := List.length_eq_one_iff.1 hlength
  exact ⟨m, toOption_eq_some_iff.1 hms, h.2⟩

/-- A call ends in front of the method on the next line, an increment takes it in. -/
theorem call_before_method : ∃ m m' ms,
    IsProperty none (bodyTrees "a = b()") m ∧ IsProperty none (bodyTrees "a = b++") m' ∧
    members none (bodyTrees "\n c() { }") = .ok ms ∧
    members none (bodyTrees "a = b()" ++ bodyTrees "\n c() { }") = .ok (m :: ms) ∧
    ∀ first rest hr,
      member none (bodyTrees "a = b++" ++ bodyTrees "\n c() { }") = .done first rest hr →
        rest.length < (bodyTrees "\n c() { }").length ∧ ∃ ns, first = .other ns := by
  obtain ⟨m, hm⟩ := exists_isProperty "a = b()" (by decide +kernel)
  obtain ⟨m', hm'⟩ := exists_isProperty "a = b++" (by decide +kernel)
  have hnext : (members none (bodyTrees "\n c() { }")).toOption.isSome = true := by
    decide +kernel
  obtain ⟨ms, hms⟩ := Option.isSome_iff_exists.1 hnext
  have hms := toOption_eq_some_iff.1 hms
  have hopens : opensItem (bodyTrees "\n c() { }") = true := by decide +kernel
  have hcall : (bodyTrees "a = b()").getLast?.any
      (fun t => endsDeclaration t && !t.isKind .operator && !t.isKind .question) = true := by
    decide +kernel
  have hincrement : (bodyTrees "a = b++").getLast?.any
      (fun t => endsDeclaration t && t.isKind .operator) = true := by
    decide +kernel
  obtain ⟨t, ht, hcall⟩ := (Option.any_eq_true _ _).1 hcall
  obtain ⟨t', ht', hincrement⟩ := (Option.any_eq_true _ _).1 hincrement
  simp only [Bool.and_eq_true, Bool.not_eq_true'] at hcall hincrement
  refine ⟨m, m', ms, hm, hm', hms, ?_, ?_⟩
  · exact (property_before_item hm ht hcall.1.1 hopens hms).1 hcall.1.2 hcall.2
  · exact (property_before_item hm' ht' hincrement.1 hopens hms).2 (Or.inl hincrement.2)

/-- So a property may take in the member after it. -/
theorem not_property_before_item : ¬ ∀ (closing closing' : Option Nat) (ts more : List Tree)
    (m : Member) (ms : List Member) (t : Tree), IsProperty closing ts m → t ∈ ts.getLast? →
      endsDeclaration t = true → opensItem more = true → members closing' more = .ok ms →
      members closing' (ts ++ more) = .ok (m :: ms) := by
  intro hall
  obtain ⟨m, hm⟩ := exists_isProperty "a = b++" (by decide +kernel)
  have hend : (bodyTrees "a = b++").getLast?.any endsDeclaration = true := by decide +kernel
  obtain ⟨t, ht, hend⟩ := (Option.any_eq_true _ _).1 hend
  have hnext : (members none (bodyTrees "\n c() { }")).toOption.map List.length = some 1 := by
    decide +kernel
  obtain ⟨ms, hms, hlength⟩ := Option.map_eq_some_iff.1 hnext
  have hboth := hall none none _ _ m ms t hm ht hend (by decide +kernel)
    (toOption_eq_some_iff.1 hms)
  have hone : (members none (bodyTrees "a = b++" ++ bodyTrees "\n c() { }")).toOption.map
      List.length = some 1 := by
    decide +kernel
  rw [hboth] at hone
  simp [Except.toOption, hlength] at hone

end Reader

end TwinClasses
