import TwinClasses.Proofs.RoundTrip.Types

set_option autoImplicit false

/-! Angle brackets among bracket trees. They make no groups, so whether they match has to be
counted. In a type that has been read they match, and a list of type arguments ends with the bracket
that closes its first one, not before. -/

namespace TwinClasses

theorem Token.kind_of_isWord {t : Token} {word : String} (h : t.isWord word = true) :
    t.kind = .identifier := by
  simp only [isWord, Bool.and_eq_true, decide_eq_true_eq] at h
  exact h.1

namespace Tree

/-- Number of angle brackets that open, those in groups aside. -/
def openAngles (ts : List Tree) : Nat := ts.countP (isKind .lessThan)

/-- Number of angle brackets that close, those in groups aside. -/
def closeAngles (ts : List Tree) : Nat := ts.countP (isKind .greaterThan)

@[simp] theorem openAngles_nil : openAngles [] = 0 := rfl

@[simp] theorem closeAngles_nil : closeAngles [] = 0 := rfl

@[simp] theorem openAngles_cons (t : Tree) (ts : List Tree) :
    openAngles (t :: ts) = openAngles ts + if t.isKind .lessThan then 1 else 0 :=
  List.countP_cons

@[simp] theorem closeAngles_cons (t : Tree) (ts : List Tree) :
    closeAngles (t :: ts) = closeAngles ts + if t.isKind .greaterThan then 1 else 0 :=
  List.countP_cons

@[simp] theorem openAngles_append (ts us : List Tree) :
    openAngles (ts ++ us) = openAngles ts + openAngles us := List.countP_append

@[simp] theorem closeAngles_append (ts us : List Tree) :
    closeAngles (ts ++ us) = closeAngles ts + closeAngles us := List.countP_append

theorem not_isKind_of_isKind {t : Tree} {kind kind' : Kind} (h : t.isKind kind = true)
    (hne : kind ≠ kind') : t.isKind kind' = false := by
  cases t with
  | group d opening children closing => rfl
  | token l =>
    have hk : l.kind = kind := by simpa [isKind] using h
    simpa [isKind, hk] using hne

/-- The angle brackets match: none closes before it is opened, and none is left open. -/
structure AngleBalanced (ts : List Tree) : Prop where
  close_le : ∀ us, us <+: ts → closeAngles us ≤ openAngles us
  close_eq : closeAngles ts = openAngles ts

/-- The trees between two angle brackets that match, with these brackets. -/
def AngleList (ts : List Tree) : Prop :=
  ∃ opening inner closing, ts = .token opening :: (inner ++ [.token closing]) ∧
    opening.kind = .lessThan ∧ closing.kind = .greaterThan ∧ AngleBalanced inner

namespace AngleBalanced

variable {ts us : List Tree}

theorem nil : AngleBalanced [] where
  close_le us hus := by rw [List.prefix_nil.1 hus]; exact Nat.le_refl _
  close_eq := rfl

theorem append (h : AngleBalanced ts) (h' : AngleBalanced us) : AngleBalanced (ts ++ us) where
  close_le vs hvs := by
    obtain hts | ⟨ws, rfl⟩ := List.prefix_or_prefix_of_prefix hvs (List.prefix_append ts us)
    · exact h.close_le vs hts
    · have hws := h'.close_le ws ((List.prefix_append_right_inj ts).1 hvs)
      have hts := h.close_eq
      simp only [openAngles_append, closeAngles_append]
      omega
  close_eq := by rw [openAngles_append, closeAngles_append, h.close_eq, h'.close_eq]

theorem single {t : Tree} (hl : t.isKind .lessThan = false) (hg : t.isKind .greaterThan = false) :
    AngleBalanced [t] where
  close_le us hus := by
    obtain rfl | ⟨vs, rfl, hvs⟩ := List.prefix_cons_iff.1 hus
    · exact Nat.le_refl _
    · rw [List.prefix_nil.1 hvs]
      simp [hl, hg]
  close_eq := by simp [hl, hg]

theorem group (d : Delimiter) (opening closing : Lexeme) (children : List Tree)
    (h : AngleBalanced ts) : AngleBalanced (.group d opening children closing :: ts) :=
  (single rfl rfl).append h

theorem token {l : Lexeme} (hl : l.kind ∉ [.lessThan, .greaterThan]) (h : AngleBalanced ts) :
    AngleBalanced (.token l :: ts) := by
  have hk : l.kind ≠ .lessThan ∧ l.kind ≠ .greaterThan := by simpa using hl
  exact (single (by simp [isKind, hk.1]) (by simp [isKind, hk.2])).append h

theorem snoc {l : Lexeme} (h : AngleBalanced ts) (hl : l.kind ∉ [.lessThan, .greaterThan]) :
    AngleBalanced (ts ++ [.token l]) := h.append (nil.token hl)

end AngleBalanced

namespace AngleList

variable {ts us : List Tree}

theorem opening_kind {opening : Lexeme} (h : AngleList (.token opening :: ts)) :
    opening.kind = .lessThan := by
  obtain ⟨_, _, _, heq, ho, -⟩ := h
  cases heq
  exact ho

/-- Before its end a list is open. -/
theorem close_lt (h : AngleList ts) (hp : us <+: ts) (hne : us ≠ []) (hlt : us.length < ts.length) :
    closeAngles us < openAngles us := by
  obtain ⟨opening, inner, closing, rfl, ho, -, hi⟩ := h
  obtain rfl | ⟨vs, rfl, hvs⟩ := List.prefix_cons_iff.1 hp
  · exact absurd rfl hne
  · have hle : vs.length ≤ inner.length := Nat.le_of_lt_succ (by simpa using hlt)
    have hvi : vs <+: inner := List.prefix_of_prefix_length_le hvs (List.prefix_append _ _) hle
    have := hi.close_le vs hvi
    simp [isKind, ho]
    omega

theorem balanced (h : AngleList ts) : AngleBalanced ts where
  close_le us hus := by
    by_cases hlt : us.length < ts.length
    · by_cases hne : us = []
      · subst hne
        exact Nat.le_refl _
      · exact Nat.le_of_lt (h.close_lt hus hne hlt)
    · obtain rfl := hus.eq_of_length_le (Nat.le_of_not_lt hlt)
      obtain ⟨opening, inner, closing, rfl, ho, hc, hi⟩ := h
      simp [isKind, ho, hc, hi.close_eq]
  close_eq := by
    obtain ⟨opening, inner, closing, rfl, ho, hc, hi⟩ := h
    simp [isKind, ho, hc, hi.close_eq]

end AngleList

end Tree

namespace Extent

open TwinClasses.Tree

/-- What the scan adds to its depth at a tree is what the tree adds to the counts. -/
theorem angleDepth_add_closeAngles (t : Tree) (depth : Nat) :
    (if t.isKind .lessThan then depth + 2 else if t.isKind .greaterThan then depth else depth + 1) +
      closeAngles [t] = openAngles [t] + (depth + 1) := by
  by_cases hl : t.isKind .lessThan
  · have hg : t.isKind .greaterThan = false := not_isKind_of_isKind hl (by decide)
    simp [hl, hg]
    omega
  · by_cases hg : t.isKind .greaterThan <;> simp [hl, hg]

/-- The scan for the bracket that closes `depth` lists ends where that many more angle brackets have
closed than opened, and not before. -/
theorem closeAngles_of_angleLength? {depth n : Nat} {ts : List Tree}
    (h : angleLength? depth ts = some n) :
    closeAngles (ts.take n) = openAngles (ts.take n) + depth ∧
      ∀ us, us <+: ts.take n → us.length < n → closeAngles us < openAngles us + depth := by
  induction ts generalizing depth n with
  | nil =>
    cases depth with
    | zero =>
      cases h
      exact ⟨rfl, fun us _ hlt => absurd hlt (Nat.not_lt_zero _)⟩
    | succ depth => cases h
  | cons t ts ih =>
    cases depth with
    | zero =>
      cases h
      exact ⟨rfl, fun us _ hlt => absurd hlt (Nat.not_lt_zero _)⟩
    | succ depth =>
      obtain ⟨m, hm, rfl⟩ := Option.map_eq_some_iff.1 h
      obtain ⟨heq, hlt⟩ := ih hm
      have hstep := angleDepth_add_closeAngles t depth
      rw [List.take_succ_cons]
      simp only [openAngles_cons, closeAngles_cons, openAngles_nil, closeAngles_nil] at hstep ⊢
      refine ⟨by omega, ?_⟩
      intro us hus hlength
      obtain rfl | ⟨vs, rfl, hvs⟩ := List.prefix_cons_iff.1 hus
      · simp
      · have := hlt vs hvs (by simpa using hlength)
        simp only [openAngles_cons, closeAngles_cons]
        omega

/-- A list that the scan has found to its end. -/
theorem angleList_of_angleLength? {opening : Lexeme} {n : Nat} {ts : List Tree}
    (hk : opening.kind = .lessThan) (h : angleLength? 1 ts = some n) :
    AngleList (.token opening :: ts.take n) := by
  obtain ⟨inner, closing, htake, hc⟩ := take_angleLength? h
  obtain ⟨heq, hlt⟩ := closeAngles_of_angleLength? h
  have hn : inner.length < n := by
    have hlength := congrArg List.length htake
    simp only [List.length_take, List.length_append, List.length_singleton] at hlength
    omega
  rw [htake] at heq hlt
  refine ⟨opening, inner, closing, by rw [htake], hk, hc, ?_, ?_⟩
  · intro us hus
    have := hlt us (hus.trans (List.prefix_append _ _)) (Nat.lt_of_le_of_lt hus.length_le hn)
    omega
  · simpa [isKind, hc] using heq

theorem qualifiers_balanced (ts : List Tree) :
    AngleBalanced (ts.take (2 * (qualifiers ts).length)) := by
  fun_induction qualifiers ts with
  | case1 dot name ts h ih =>
    obtain ⟨hd, hn⟩ : dot.kind = .dot ∧ name.kind = .identifier := by simpa using h
    rw [List.length_cons, Nat.mul_succ, List.take_succ_cons, List.take_succ_cons]
    exact (ih.token (by simp [hn])).token (by simp [hd])
  | case2 dot name ts h => exact .nil
  | case3 ts h => simpa using AngleBalanced.nil

end Extent

namespace Reader

open Extent TwinClasses.Tree

variable {ts us read : List Tree}

theorem not_angle_of_joinsTypes {kind : Kind} (h : kind.joinsTypes = true) :
    kind ∉ [.lessThan, .greaterThan] := by
  cases kind <;> simp_all [Kind.joinsTypes]

theorem dottedRest_balanced (closing : Option Nat) (nodes : List Node) (us : List Tree)
    (h : Follows us ts) (hts : ts = read ++ us) (hr : AngleBalanced read) :
    (dottedRest closing nodes us h).Yields fun _ read => AngleBalanced read := by
  fun_induction dottedRest closing nodes us h generalizing read with
  | case1 nodes dot name us h hd => exact ⟨read, hts, hr⟩
  | case2 nodes dot name us h hd hk ih =>
    have hts' : ts = (read ++ [.token dot, .token name]) ++ us := by simp [hts]
    refine ih hts' (hr.append ?_)
    exact (AngleBalanced.nil.token (by simp [hk])).token (by simp [Decidable.not_not.1 hd])
  | case3 nodes dot name us h hd hk => exact Reading.yields_unexpected _ _ _
  | case4 nodes dot us h hu hd => exact Reading.yields_unexpected _ _ _
  | case5 nodes dot us h hu hd => exact ⟨read, hts, hr⟩
  | case6 nodes us h hu hd => exact ⟨read, hts, hr⟩

theorem indexed_balanced (nodes : List Node) (us : List Tree) (h : Follows us ts)
    (hts : ts = read ++ us) (hr : AngleBalanced read) :
    (indexed nodes us h).Yields fun _ read => AngleBalanced read := by
  induction us generalizing nodes read with
  | nil =>
    unfold indexed
    exact ⟨read, hts, hr⟩
  | cons u us ih =>
    unfold indexed
    split
    · rename_i opening children closing vs h heq _
      obtain ⟨rfl, rfl⟩ := List.cons.inj heq
      split
      · exact ⟨read, hts, hr⟩
      · split
        · have hts' : ts = (read ++ [.group .bracket opening children closing]) ++ us := by
            simp [hts]
          refine ih _ _ hts' (hr.append ?_)
          exact AngleBalanced.nil.group .bracket opening closing children
        · trivial
    · exact ⟨read, hts, hr⟩

theorem typeParameters_angleList (closing : Option Nat) (ts : List Tree) :
    (typeParameters closing ts).Yields fun _ read => AngleList read := by
  unfold typeParameters
  split
  · rename_i opening us
    split
    · rename_i hk
      split
      · rename_i n hn
        refine Reading.Yields.ofExcept (.token opening :: us.take n) (by simp) ?_
        intro ns hns
        exact angleList_of_angleLength? hk hn
      · trivial
    · exact Reading.yields_unexpected _ _ _
  · exact Reading.yields_unexpected _ _ _

/-- What is read where other trees have ended, in which the brackets match. -/
theorem within_balanced {α : Type} {r : Reading α us} (h : Follows us ts) (hts : ts = read ++ us)
    (hr : AngleBalanced read) (hy : r.Yields fun _ read => AngleBalanced read) :
    (r.within h).Yields fun _ read => AngleBalanced read := by
  refine Reading.Yields.within read hts ?_
  apply hy.mono
  intro _ rest hrest
  exact hr.append hrest

/-- A token that is no angle bracket, and what is read after it. -/
theorem prefixed_balanced {α : Type} {l : Lexeme} (hl : l.kind ∉ [.lessThan, .greaterThan])
    {r : Reading α us} (hy : r.Yields fun _ read => AngleBalanced read) :
    (r.after (t := .token l)).Yields fun _ read => AngleBalanced read :=
  within_balanced (.tail_of_cons _ us) rfl (AngleBalanced.nil.token hl) hy

theorem expect_balanced {kind : Kind} (hk : kind ∉ [.lessThan, .greaterThan])
    (construct : String) (closing : Option Nat) (ts : List Tree) :
    (Reading.expect kind construct closing ts).Yields fun _ read => AngleBalanced read := by
  apply (Reading.yields_expect kind construct closing ts).mono
  rintro t read ⟨l, rfl, -, rfl⟩
  exact AngleBalanced.nil.token hk

mutual

theorem type_balanced (closing : Option Nat) (conditional : Bool) (ts : List Tree) :
    (type closing conditional ts).Yields fun _ read => AngleBalanced read := by
  unfold type
  split
  · rename_i l us
    split
    · rename_i hj
      refine prefixed_balanced (not_angle_of_joinsTypes hj) ?_
      exact (operands_balanced closing conditional us).map
    · exact operands_balanced closing conditional (.token l :: us)
  · exact operands_balanced closing conditional _
  termination_by 16 * Tree.weightAll ts + 9
  decreasing_by all_goals grind

theorem operands_balanced (closing : Option Nat) (conditional : Bool) (ts : List Tree) :
    (operands closing conditional ts).Yields fun _ read => AngleBalanced read := by
  unfold operands
  apply (operand_balanced closing ts).andThen
  intro nodes read us h hts hr
  split
  · rename_i l vs h
    have hts' : ts = (read ++ [.token l]) ++ vs := by simp [hts]
    split
    · rename_i hx
      have hk : l.kind = .identifier := Token.kind_of_isWord (Bool.and_eq_true_iff.1 hx).2
      refine Reading.Yields.map (within_balanced h.tail hts' (hr.snoc (by simp [hk])) ?_)
      exact conditionalRest_balanced closing vs
    · split
      · rename_i hj
        have hread := hr.snoc (not_angle_of_joinsTypes hj)
        refine Reading.Yields.map (within_balanced h.tail hts' hread ?_)
        exact operands_balanced closing conditional vs
      · exact ⟨read, hts, hr⟩
  · exact ⟨read, hts, hr⟩
  termination_by 16 * Tree.weightAll ts + 8
  decreasing_by all_goals grind

theorem conditionalRest_balanced (closing : Option Nat) (ts : List Tree) :
    (conditionalRest closing ts).Yields fun _ read => AngleBalanced read := by
  unfold conditionalRest
  apply (type_balanced closing false ts).andThen
  intro bound read us h hts hb
  apply Reading.Yields.within_andThen read hts (expect_balanced (by decide) _ closing us)
  intro question rquestion vs h hts hq
  apply Reading.Yields.within_andThen _ hts (type_balanced closing true vs)
  intro yes ryes ws h hts hyes
  apply Reading.Yields.within_andThen _ hts (expect_balanced (by decide) _ closing ws)
  intro colon rcolon xs h hts hc
  have hread := ((hb.append hq).append hyes).append hc
  exact (within_balanced h hts hread (type_balanced closing true xs)).map
  termination_by 16 * Tree.weightAll ts + 10
  decreasing_by all_goals grind

theorem operand_balanced (closing : Option Nat) (ts : List Tree) :
    (operand closing ts).Yields fun _ read => AngleBalanced read := by
  unfold operand
  apply (primary_balanced closing ts).andThen
  intro nodes read us h hts hr
  exact indexed_balanced nodes us h hts hr
  termination_by 16 * Tree.weightAll ts + 7
  decreasing_by all_goals grind

theorem primary_balanced (closing : Option Nat) (ts : List Tree) :
    (primary closing ts).Yields fun _ read => AngleBalanced read := by
  cases ts with
  | nil =>
    unfold primary
    exact Reading.yields_unexpected _ _ _
  | cons t us =>
    cases t with
    | token l => exact primary_token_balanced closing l us
    | group d opening children close =>
      exact primary_group_balanced closing d opening close children us
  termination_by 16 * Tree.weightAll ts + 6
  decreasing_by all_goals grind

theorem primary_token_balanced (closing : Option Nat) (l : Lexeme) (us : List Tree) :
    (primary closing (.token l :: us)).Yields fun _ read => AngleBalanced read := by
  have hsingle : l.kind ∉ [.lessThan, .greaterThan] → AngleBalanced [.token l] := fun hl =>
    AngleBalanced.nil.token hl
  unfold primary
  split
  · rename_i hk
    have hl : l.kind ∉ [.lessThan, .greaterThan] := by simp [hk]
    split
    · exact prefixed_balanced hl (operand_balanced closing us).map
    · split
      · exact prefixed_balanced hl (primary_balanced closing us).map
      · split
        · exact prefixed_balanced hl (expect_balanced (by decide) _ closing us).map
        · split
          · refine prefixed_balanced hl ((expect_balanced (by decide) _ closing us).andThen ?_)
            intro name read vs h hts hr
            exact dottedRest_balanced closing _ vs h hts hr
          · split
            · exact ⟨[.token l], rfl, hsingle hl⟩
            · apply (typeReference_balanced closing (.token l :: us)).andThen
              intro reference read vs h hts hr
              split
              · rename_i word ws h
                split
                · rename_i hw
                  have hts' : .token l :: us = (read ++ [.token word]) ++ ws := by simp [hts]
                  have hread := hr.snoc (l := word) (by simp [Token.kind_of_isWord hw])
                  exact (within_balanced h.tail hts' hread (type_balanced closing true ws)).map
                · exact ⟨read, hts, hr⟩
              · exact ⟨read, hts, hr⟩
  · exact ⟨[.token l], rfl, hsingle (by simp [*])⟩
  · exact ⟨[.token l], rfl, hsingle (by simp [*])⟩
  · exact ⟨[.token l], rfl, hsingle (by simp [*])⟩
  · rename_i hk
    split
    · exact prefixed_balanced (by simp [hk]) (expect_balanced (by decide) _ closing us).map
    · exact Reading.yields_unexpected _ _ _
  · apply (typeParameters_angleList closing (.token l :: us)).andThen
    intro parameters read vs h hts hr
    exact (within_balanced h hts hr.balanced (primary_balanced closing vs)).map
  · exact Reading.yields_unexpected _ _ _
  termination_by 16 * (Tree.weightAll us + 1) + 5
  decreasing_by all_goals grind

theorem primary_group_balanced (closing : Option Nat) (d : Delimiter) (opening close : Lexeme)
    (children us : List Tree) : (primary closing (.group d opening children close :: us)).Yields
      fun _ read => AngleBalanced read := by
  have hsingle : AngleBalanced [.group d opening children close] :=
    AngleBalanced.nil.group d opening close children
  unfold primary
  cases d with
  | paren =>
    cases ha : Tree.frontToken? .arrow us with
    | some arrow =>
      obtain ⟨l, ws, rfl, hl, rfl⟩ := Tree.frontToken?_eq_some ha
      have hgroup : (Reading.ofExcept (group .paren opening children close) (.token l :: ws)
          (.tail_of_cons _ _)).Yields fun _ read => read = [.group .paren opening children close] :=
        Reading.Yields.ofExcept _ rfl fun _ _ => rfl
      apply hgroup.andThen
      rintro g read vs h hts rfl
      obtain ⟨-, rfl⟩ := List.cons.inj hts
      have hread := hsingle.snoc (l := l) (by simp [hl])
      exact (within_balanced (h.drop 1) rfl hread (type_balanced closing true ws)).map
    | none =>
      apply Reading.Yields.map
      exact Reading.Yields.ofExcept _ rfl fun _ _ => hsingle
  | _ =>
    apply Reading.Yields.map
    exact Reading.Yields.ofExcept _ rfl fun _ _ => hsingle
  termination_by 16 * (Tree.weightAll us + 1) + 5
  decreasing_by all_goals grind

theorem typeReference_balanced (closing : Option Nat) (ts : List Tree) :
    (typeReference closing ts).Yields fun _ read => AngleBalanced read := by
  unfold typeReference
  split
  · rename_i name us
    split
    · rename_i hk
      have hname : AngleBalanced (.token name :: us.take (2 * (qualifiers us).length)) :=
        (qualifiers_balanced us).token (by simp [hk])
      have hts : .token name :: us = .token name :: us.take (2 * (qualifiers us).length) ++
          us.drop (2 * (qualifiers us).length) := by simp
      simp only
      split
      · apply Reading.Yields.map
        refine Reading.Yields.within _ hts ?_
        apply (typeArguments_angleList closing _).mono
        intro _ read hr
        exact hname.append hr.balanced
      · exact ⟨_, hts, hname⟩
    · exact Reading.yields_unexpected _ _ _
  · exact Reading.yields_unexpected _ _ _
  termination_by 16 * Tree.weightAll ts
  decreasing_by all_goals grind

/-- The first angle bracket of a list of type arguments is closed by the last. -/
theorem typeArguments_angleList (closing : Option Nat) (ts : List Tree) :
    (typeArguments closing ts).Yields fun _ read => AngleList read := by
  unfold typeArguments
  split
  · rename_i opening us
    split
    · rename_i hk
      apply Reading.Yields.after
      apply Reading.Yields.map
      apply (typeArgumentsRest_balanced closing us).mono
      rintro _ read ⟨inner, close, rfl, hc, hi⟩
      exact ⟨opening, inner, close, rfl, hk, hc, hi⟩
    · exact Reading.yields_unexpected _ _ _
  · exact Reading.yields_unexpected _ _ _
  termination_by 16 * Tree.weightAll ts
  decreasing_by all_goals grind

theorem typeArgumentsRest_balanced (closing : Option Nat) (ts : List Tree) :
    (typeArgumentsRest closing ts).Yields fun _ read => ∃ inner close,
      read = inner ++ [.token close] ∧ close.kind = .greaterThan ∧ AngleBalanced inner := by
  unfold typeArgumentsRest
  generalize hc : Tree.frontToken? .greaterThan ts = c
  cases c with
  | some close =>
    obtain ⟨l, us, rfl, hl, rfl⟩ := Tree.frontToken?_eq_some hc
    exact ⟨[.token l], rfl, [], l, rfl, hl, .nil⟩
  | none =>
    apply (type_balanced closing true ts).andThen
    intro nodes read us h hts hr
    split
    · rename_i l vs h
      split
      · rename_i hk
        apply Reading.Yields.map
        refine Reading.Yields.within (read ++ [.token l]) (by simp [hts]) ?_
        apply (typeArgumentsRest_balanced closing vs).mono
        rintro _ rest ⟨inner, close, rfl, hclose, hi⟩
        refine ⟨read ++ .token l :: inner, close, by simp, hclose, ?_⟩
        exact hr.append (hi.token (by simp [hk]))
      · split
        · rename_i hk
          exact ⟨read ++ [.token l], by simp [hts], read, l, rfl, hk, hr⟩
        · exact Reading.yields_unexpected _ _ _
    · exact Reading.yields_unexpected _ _ _
  termination_by 16 * Tree.weightAll ts + 10
  decreasing_by all_goals grind

end

end Reader

end TwinClasses
