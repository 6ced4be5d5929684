import Mathlib.Data.List.Forall2
import TwinClasses.Proofs.Classless.Sources

set_option autoImplicit false

/-! Class bodies as the members in them. A body that is read falls into runs of trees, one for each
member and all of them in order; a run is never empty, so as many members are read as there are
trees at most. Only a nested class can hide an accessor in a method or in a member kept as it was
written, and the tokens of the class show it. -/

namespace TwinClasses

/-- None of the tokens is the word `class`. -/
def Token.ClassFree (ts : List Token) : Prop := ∀ t ∈ ts, t.isWord "class" = false

@[simp] theorem Token.classFree_cons (t : Token) (ts : List Token) :
    ClassFree (t :: ts) ↔ t.isWord "class" = false ∧ ClassFree ts := by
  simp [ClassFree]

@[simp] theorem Token.classFree_append (ts us : List Token) :
    ClassFree (ts ++ us) ↔ ClassFree ts ∧ ClassFree us := by
  simp [ClassFree, or_imp, forall_and]

/-- Trivia does not make a word. -/
@[simp] theorem Token.classFree_withTrivia (leading : String) (ts : List Token) :
    ClassFree (withTrivia leading ts) ↔ ClassFree ts := by
  cases ts with
  | nil => simp [withTrivia]
  | cons t ts => simp [withTrivia, isWord, ledBy]

@[simp] theorem Spot.gapless_withTrivia (leading : String) (spots : List Spot) :
    Gapless (withTrivia leading spots) ↔ Gapless spots := by
  induction spots with
  | nil => simp [withTrivia]
  | cons spot spots ih =>
    cases spot with
    | token t => simp [withTrivia]
    | gap g => simp only [withTrivia, Gapless, List.mem_cons, not_or, forall_and] at ih ⊢; rw [ih]

theorem Tree.ClassFree.tokensAll {ts : List Tree} (h : ClassFree ts) :
    Token.ClassFree (Tree.tokensAll ts) := by
  intro t ht
  obtain ⟨l, hl, rfl⟩ := List.mem_map.1 ht
  exact h l hl

/-! Gaps are in classes only, and a class that was read has its keyword among its tokens. -/

mutual

theorem Node.gapless_of_classFree : ∀ n : Node, n.Every Node.IsWritten →
    Token.ClassFree n.tokens → Spot.Gapless n.outline
  | .token t, _, _ => by simp
  | .group g, he, hc => by
    rw [Node.Every] at he
    rw [Node.tokens] at hc
    rw [Node.outline]
    exact Group.gapless_of_classFree g he.2 hc
  | .classDecl ⟨keyword, name, heritage, opening, members, closing, expression⟩, he, hc => by
    rw [Node.Every] at he
    have hword : keyword.isWord "class" = true := he.1
    simp [Node.tokens, ClassDecl.tokens, hword] at hc
  | .forOf keyword awaiting head, he, hc => by
    rw [Node.Every] at he
    simp only [Node.tokens, List.cons_append, Token.classFree_cons, Token.classFree_append] at hc
    rw [Node.outline]
    simpa using Group.gapless_of_classFree head he.2 hc.2.2
  | .await keyword operand, he, hc => by
    rw [Node.Every] at he
    simp only [Node.tokens, Token.classFree_cons] at hc
    rw [Node.outline, Spot.gapless_token]
    exact Node.gapless_all_of_classFree operand he.2 hc.2
  | .access object dot name, _, _ => by simp [Node.outline]
  | .typeRef r, he, hc => by
    rw [Node.Every] at he
    rw [Node.tokens] at hc
    rw [Node.outline]
    exact TypeRef.gapless_of_classFree r he.2 hc

theorem Node.gapless_all_of_classFree : ∀ ns : List Node, Node.EveryOf Node.IsWritten ns →
    Token.ClassFree (Node.tokensAll ns) → Node.Gapless ns
  | [], _, _ => by simp
  | n :: ns, he, hc => by
    rw [Node.EveryOf] at he
    rw [Node.tokensAll, Token.classFree_append] at hc
    rw [Node.gapless_cons]
    exact ⟨Node.gapless_of_classFree n he.1 hc.1, Node.gapless_all_of_classFree ns he.2 hc.2⟩

theorem Group.gapless_of_classFree : ∀ g : Group, g.Every Node.IsWritten →
    Token.ClassFree g.tokens → Spot.Gapless g.outline
  | ⟨d, opening, children, closing⟩, he, hc => by
    rw [Group.Every] at he
    simp only [Group.tokens, List.cons_append, Token.classFree_cons, Token.classFree_append] at hc
    rw [Group.gapless_outline]
    exact Node.gapless_all_of_classFree children he hc.2.1

theorem TypeRef.gapless_of_classFree : ∀ r : TypeRef, r.Every Node.IsWritten →
    Token.ClassFree r.tokens → Spot.Gapless r.outline
  | ⟨name, path, none⟩, _, _ => by simp [TypeRef.outline, TypeArguments.outlineOption]
  | ⟨name, path, some a⟩, he, hc => by
    rw [TypeRef.Every, TypeArguments.EveryIn] at he
    simp only [TypeRef.tokens, TypeArguments.tokensOption, List.cons_append,
      Token.classFree_cons, Token.classFree_append] at hc
    rw [TypeRef.outline, TypeArguments.outlineOption]
    simpa using TypeArguments.gapless_of_classFree a he hc.2.2

theorem TypeArguments.gapless_of_classFree : ∀ a : TypeArguments, a.Every Node.IsWritten →
    Token.ClassFree a.tokens → Spot.Gapless a.outline
  | ⟨opening, items, closing⟩, he, hc => by
    rw [TypeArguments.Every] at he
    simp only [TypeArguments.tokens, List.cons_append, Token.classFree_cons,
      Token.classFree_append] at hc
    rw [TypeArguments.outline]
    simpa using TypeArgument.gapless_all_of_classFree items he hc.2.1

theorem TypeArgument.gapless_of_classFree : ∀ a : TypeArgument, a.Every Node.IsWritten →
    Token.ClassFree a.tokens → Spot.Gapless a.outline
  | ⟨type, comma⟩, he, hc => by
    rw [TypeArgument.Every] at he
    rw [TypeArgument.tokens, Token.classFree_append] at hc
    rw [TypeArgument.outline]
    simpa using Node.gapless_all_of_classFree type he hc.1

theorem TypeArgument.gapless_all_of_classFree : ∀ as : List TypeArgument,
    TypeArgument.EveryOf Node.IsWritten as → Token.ClassFree (TypeArgument.tokensAll as) →
    Spot.Gapless (TypeArgument.outlineAll as)
  | [], _, _ => by simp [TypeArgument.outlineAll]
  | a :: as, he, hc => by
    rw [TypeArgument.EveryOf] at he
    rw [TypeArgument.tokensAll, Token.classFree_append] at hc
    rw [TypeArgument.outlineAll, Spot.gapless_append]
    exact ⟨TypeArgument.gapless_of_classFree a he.1 hc.1,
      TypeArgument.gapless_all_of_classFree as he.2 hc.2⟩

end

theorem Group.gapless_option_of_classFree {g : Option Group} (he : EveryIn Node.IsWritten g)
    (hc : Token.ClassFree (tokensOption g)) : Spot.Gapless (outlineOption g) := by
  cases g with
  | none => simp [outlineOption]
  | some g =>
    rw [EveryIn] at he
    rw [tokensOption] at hc
    rw [outlineOption]
    exact g.gapless_of_classFree he hc

theorem Clause.gapless_of_classFree {c : Clause} (he : c.Every Node.IsWritten)
    (hc : Token.ClassFree c.tokens) : Spot.Gapless c.outline := by
  obtain ⟨mark, content⟩ := c
  rw [Every] at he
  rw [tokens, Token.classFree_cons] at hc
  rw [outline, Spot.gapless_token]
  exact Node.gapless_all_of_classFree content he hc.2

theorem Clause.gapless_all_of_classFree {cs : List Clause} (he : EveryOf Node.IsWritten cs)
    (hc : Token.ClassFree (tokensAll cs)) : Spot.Gapless (outlineAll cs) := by
  induction cs with
  | nil => simp [outlineAll]
  | cons c cs ih =>
    rw [EveryOf] at he
    rw [tokensAll, Token.classFree_append] at hc
    rw [outlineAll, Spot.gapless_append]
    exact ⟨gapless_of_classFree he.1 hc.1, ih he.2 hc.2⟩

theorem Clause.gapless_option_of_classFree {c : Option Clause} (he : EveryIn Node.IsWritten c)
    (hc : Token.ClassFree (tokensOption c)) : Spot.Gapless (outlineOption c) := by
  cases c with
  | none => simp [outlineOption]
  | some c =>
    rw [EveryIn] at he
    rw [tokensOption] at hc
    rw [outlineOption]
    exact gapless_of_classFree he hc

theorem MemberName.gapless_of_classFree {n : MemberName} (he : n.Every Node.IsWritten)
    (hc : Token.ClassFree n.tokens) : Spot.Gapless n.outline := by
  cases n with
  | computed g =>
    rw [Every] at he
    rw [tokens] at hc
    rw [outline]
    exact g.gapless_of_classFree he hc
  | _ => simp [outline]

theorem Binding.gapless_of_classFree {b : Binding} (he : b.Every Node.IsWritten)
    (hc : Token.ClassFree b.tokens) : Spot.Gapless b.outline := by
  cases b with
  | identifier t => simp [outline]
  | pattern g =>
    rw [Every] at he
    rw [tokens] at hc
    rw [outline]
    exact g.gapless_of_classFree he hc

theorem Parameter.gapless_of_classFree {p : Parameter} (he : p.Every Node.IsWritten)
    (hc : Token.ClassFree p.tokens) : Spot.Gapless p.outline := by
  obtain ⟨modifiers, rest, binding, question, type, initializer, comma⟩ := p
  rw [Every] at he
  obtain ⟨hbinding, htype, hinitializer⟩ := he
  simp only [tokens, Token.classFree_append, and_assoc] at hc
  obtain ⟨-, -, cbinding, -, ctype, cinitializer, -⟩ := hc
  simpa [outline] using ⟨Binding.gapless_of_classFree hbinding cbinding,
    Clause.gapless_option_of_classFree htype ctype,
    Clause.gapless_option_of_classFree hinitializer cinitializer⟩

theorem ParameterList.gapless_of_classFree {ps : ParameterList} (he : ps.Every Node.IsWritten)
    (hc : Token.ClassFree ps.tokens) : Spot.Gapless ps.outline := by
  obtain ⟨opening, items, closing⟩ := ps
  rw [Every] at he
  simp only [tokens, List.cons_append, Token.classFree_cons, Token.classFree_append] at hc
  suffices h : Spot.Gapless (Parameter.outlineAll items) by simpa [outline] using h
  replace hc := hc.2.1
  induction items with
  | nil => simp [Parameter.outlineAll]
  | cons p items ih =>
    rw [Parameter.EveryOf] at he
    rw [Parameter.tokensAll, Token.classFree_append] at hc
    rw [Parameter.outlineAll, Spot.gapless_append]
    exact ⟨Parameter.gapless_of_classFree he.1 hc.1, ih he.2 hc.2⟩

theorem Method.gapless_of_classFree {m : Method} (he : m.Every Node.IsWritten)
    (hc : Token.ClassFree m.tokens) : Spot.Gapless m.outline := by
  obtain ⟨leading, decorators, modifiers, asterisk, name, question, typeParameters, parameters,
    returnType, body, terminator⟩ := m
  rw [Every] at he
  obtain ⟨hdecorators, hname, hgenerics, hparameters, hreturn, hbody⟩ := he
  simp only [tokens, Token.classFree_withTrivia, Token.classFree_append, and_assoc] at hc
  obtain ⟨cdecorators, -, -, cname, -, cgenerics, cparameters, creturn, cbody, -⟩ := hc
  simpa [outline, and_assoc] using ⟨Clause.gapless_all_of_classFree hdecorators cdecorators,
    MemberName.gapless_of_classFree hname cname,
    Node.gapless_all_of_classFree typeParameters hgenerics cgenerics,
    ParameterList.gapless_of_classFree hparameters cparameters,
    Clause.gapless_option_of_classFree hreturn creturn,
    Group.gapless_option_of_classFree hbody cbody⟩

/-- A member that has a place for every token: it is no accessor. -/
def Member.IsWhole : Member → Prop
  | .getter _ => False
  | .method _ | .other _ => True

theorem Member.IsWhole.gapless_of_classFree {m : Member} (hm : m.IsWhole)
    (he : m.Every Node.IsWritten) (hc : Token.ClassFree m.tokens) : Spot.Gapless m.outline := by
  cases m with
  | getter g => exact absurd hm (by simp [IsWhole])
  | method m =>
    rw [Every] at he
    rw [tokens] at hc
    rw [outline]
    exact m.gapless_of_classFree he hc
  | other ns =>
    rw [Every] at he
    rw [tokens] at hc
    rw [outline]
    exact Node.gapless_all_of_classFree ns he hc

theorem Member.ReadFrom.tokens_eq {m : Member} {run : List Tree} (h : m.ReadFrom run)
    (hm : m.IsWhole) (hc : Tree.ClassFree run) : m.tokens = Tree.tokensAll run := by
  obtain ⟨hs, he⟩ := h
  rw [← Member.tokens_outline]
  apply hs.tokens_eq
  apply hm.gapless_of_classFree he
  obtain ⟨lost, hl⟩ := hs
  intro t ht
  rw [← Member.tokens_outline] at ht
  exact hc.tokensAll t (hl.sublist.subset ht)

/-- The trees that a member was read from. They are not none; the member stands for their tokens,
up to what an accessor drops, and where it is no accessor and no class is nested in it, it prints
exactly their text. -/
structure Member.IsRun (m : Member) (run : List Tree) : Prop where
  ne_nil : run ≠ []
  stands : Stands m.outline run
  source_eq : m.IsWhole → Tree.ClassFree run → m.source = Token.sourceOf (Tree.tokensAll run)

namespace Reader

/-- The members of a body, each with the run of trees that reading it consumes. -/
inductive Runs (closing : Option Nat) : List Tree → List Member → List (List Tree) → Prop where
  | nil : Runs closing [] [] []
  | cons {m : Member} {ts run rest : List Tree} {ms : List Member} {runs : List (List Tree)}
    {h : Follows rest ts} : ts = run ++ rest → member closing ts = .done m rest h →
    Runs closing rest ms runs → Runs closing ts (m :: ms) (run :: runs)

variable {closing : Option Nat} {ts rest : List Tree} {m : Member} {ms : List Member}
  {runs : List (List Tree)}

/-- A step of the reader of bodies. -/
theorem member_isRun {h : Follows rest ts} (hm : member closing ts = .done m rest h) :
    ∃ run, ts = run ++ rest ∧ m.IsRun run := by
  have hy := member_readFrom (readersSound (Tree.weightAll ts)) closing (Nat.le_refl _)
  rw [hm] at hy
  obtain ⟨run, rfl, hread⟩ := hy
  refine ⟨run, rfl, ?_, hread.1, ?_⟩
  · rintro rfl
    exact absurd h.weight_lt (Nat.lt_irrefl _)
  · intro hwhole hc
    rw [Member.source, hread.tokens_eq hwhole hc]

theorem member_length_lt {h : Follows rest ts} (hm : member closing ts = .done m rest h) :
    rest.length < ts.length := by
  obtain ⟨run, rfl, hrun⟩ := member_isRun hm
  have hpos := List.length_pos_iff.2 hrun.ne_nil
  rw [List.length_append]
  omega

theorem Runs.flatten_eq (h : Runs closing ts ms runs) : runs.flatten = ts := by
  induction h with
  | nil => rfl
  | cons hts _ _ ih => rw [List.flatten_cons, ih, hts]

theorem Runs.isRun (h : Runs closing ts ms runs) : List.Forall₂ Member.IsRun ms runs := by
  induction h with
  | nil => exact .nil
  | cons hts hm _ ih =>
    obtain ⟨run, hts', hrun⟩ := member_isRun hm
    obtain rfl := List.append_cancel_right (hts.symm.trans hts')
    exact .cons hrun ih

theorem Runs.length_le (h : Runs closing ts ms runs) : ms.length ≤ ts.length := by
  induction h with
  | nil => exact Nat.le_refl _
  | cons _ hm _ ih =>
    have hlt := member_length_lt hm
    rw [List.length_cons]
    omega

theorem exists_runs (h : members closing ts = .ok ms) : ∃ runs, Runs closing ts ms runs := by
  induction hn : ts.length using Nat.strongRecOn generalizing ts ms with
  | ind n ih =>
    unfold members at h
    split at h
    · cases h
      exact ⟨[], .nil⟩
    · rename_i t us
      cases hm : member closing (t :: us) with
      | failed fault left => simp [hm] at h
      | done m rest hf =>
        cases hq : members closing rest with
        | error fault => simp [hm, hq, Except.map] at h
        | ok qs =>
          simp only [hm, hq, Except.map, Except.ok.injEq] at h
          subst h
          have hlt := member_length_lt hm
          obtain ⟨runs, hr⟩ := ih rest.length (by omega) hq rfl
          obtain ⟨run, hts, -⟩ := member_isRun hm
          exact ⟨run :: runs, .cons hts hm hr⟩

/-- Reading a member consumes the trees it stands for, and at least one. So the reader of bodies
comes to an end, and what it reads covers the body: the runs of its members, one after another, are
all the trees of the body. -/
theorem members_partition (closing : Option Nat) (ts : List Tree) :
    (∀ m rest h, member closing ts = .done m rest h →
      rest.length < ts.length ∧ ∃ run, ts = run ++ rest ∧ m.IsRun run) ∧
    ∀ ms, members closing ts = .ok ms → ∃ runs, Runs closing ts ms runs ∧ runs.flatten = ts ∧
      List.Forall₂ Member.IsRun ms runs ∧ ms.length ≤ ts.length := by
  refine ⟨fun m rest h hm => ⟨member_length_lt hm, member_isRun hm⟩, fun ms h => ?_⟩
  obtain ⟨runs, hr⟩ := exists_runs h
  exact ⟨runs, hr, hr.flatten_eq, hr.isRun, hr.length_le⟩

/-- A property, an accessor with a generator mark, a decorated method and a lone semicolon. -/
def bodyTarget : String := "a: B = c\n get *d() { }\n /* e */ @f() static g() { h; };"

theorem bodyTarget_partition : ∃ trees ms runs,
    Tree.ofLexemes (Lexer.lexemes bodyTarget).lexemes = .ok trees ∧
    members none trees = .ok ms ∧ ms.length = 4 ∧ runs.flatten = trees ∧
    List.Forall₂ Member.IsRun ms runs := by
  have hread : (Tree.ofLexemes (Lexer.lexemes bodyTarget).lexemes).toOption.map
      (fun trees => (members none trees).toOption.map List.length) = some (some 4) := by
    decide +kernel
  obtain ⟨trees, htrees, hmap⟩ := Option.map_eq_some_iff.1 hread
  obtain ⟨ms, hms, hlen⟩ := Option.map_eq_some_iff.1 hmap
  have hms := toOption_eq_some_iff.1 hms
  obtain ⟨runs, -, hflat, hruns, -⟩ := (members_partition none trees).2 ms hms
  exact ⟨trees, ms, runs, toOption_eq_some_iff.1 htrees, hms, hlen, hflat, hruns⟩

end Reader

end TwinClasses
