import TwinClasses.Proofs.Framing.Angles

set_option autoImplicit false

/-! How far an argument reaches. That is found by counting: an angle bracket written directly after
an identifier opens a list of type arguments, and any other that closes ends one. A list that can be
read there is something else. Both lead to the same comma where every bracket that is counted begins
a list, and every bracket that opens in a list is counted. -/

namespace TwinClasses

namespace Extent

open TwinClasses.Tree

/-- The tree is an angle bracket written directly after an identifier, the tree `previous`. -/
def opensList (previous : Option Tree) : Tree → Bool
  | .token l =>
    l.kind = .lessThan && previous.any (isKind .identifier) && l.toToken.isAttached
  | .group .. => false

/-- Number of angle brackets written directly after an identifier; `previous` is in front. -/
def openLists (previous : Option Tree) : List Tree → Nat
  | [] => 0
  | t :: ts => openLists (some t) ts + if opensList previous t then 1 else 0

theorem isKind_of_opensList {previous : Option Tree} {t : Tree}
    (h : opensList previous t = true) : t.isKind .lessThan = true := by
  cases t with
  | group d opening children closing => cases h
  | token l =>
    simp only [opensList, Bool.and_eq_true] at h
    exact h.1.1

theorem getLast?_cons_or (t : Tree) (ts : List Tree) (previous : Option Tree) :
    (t :: ts).getLast?.or previous = ts.getLast?.or (some t) := by
  cases ts <;> simp [List.getLast?_cons]

theorem openLists_append (previous : Option Tree) (ts us : List Tree) :
    openLists previous (ts ++ us) =
      openLists previous ts + openLists (ts.getLast?.or previous) us := by
  induction ts generalizing previous with
  | nil => simp [openLists]
  | cons t ts ih =>
    rw [List.cons_append, openLists, openLists, ih, getLast?_cons_or]
    omega

theorem openLists_le_openAngles (previous : Option Tree) (ts : List Tree) :
    openLists previous ts ≤ openAngles ts := by
  induction ts generalizing previous with
  | nil => exact Nat.le_refl _
  | cons t ts ih =>
    have := ih (some t)
    rw [openLists, openAngles_cons]
    by_cases h : opensList previous t
    · simp only [h, isKind_of_opensList h, if_true]
      omega
    · simp only [h, Bool.false_eq_true, if_false]
      omega

/-- Every angle bracket that opens is counted just if each is written directly after an
identifier. -/
theorem openLists_eq_openAngles_iff {previous : Option Tree} {ts : List Tree} :
    openLists previous ts = openAngles ts ↔ ∀ us t vs, ts = us ++ t :: vs →
      t.isKind .lessThan = true → opensList (us.getLast?.or previous) t = true := by
  induction ts generalizing previous with
  | nil => simp [openLists]
  | cons t ts ih =>
    have hcount : openLists previous (t :: ts) = openAngles (t :: ts) ↔
        openLists (some t) ts = openAngles ts ∧
          (t.isKind .lessThan = true → opensList previous t = true) := by
      have hle := openLists_le_openAngles (some t) ts
      rw [openLists, openAngles_cons]
      by_cases ho : opensList previous t
      · simp [ho, isKind_of_opensList ho]
      · by_cases hl : t.isKind .lessThan <;> simp [ho, hl]
        omega
    rw [hcount, ih]
    constructor
    · rintro ⟨hrest, hfirst⟩ us u vs hsplit hl
      cases us with
      | nil =>
        obtain ⟨rfl, -⟩ := List.cons.inj hsplit
        simpa using hfirst hl
      | cons v us =>
        obtain ⟨rfl, rfl⟩ := List.cons.inj hsplit
        rw [getLast?_cons_or]
        exact hrest us u vs rfl hl
    · intro h
      refine ⟨?_, fun hl => by simpa using h [] t ts rfl hl⟩
      rintro us u vs rfl hl
      rw [← getLast?_cons_or t us previous]
      exact h (t :: us) u vs rfl hl

/-- In some stretch at the end of the trees more lists are opened than angle brackets close. -/
def Pending (ts : List Tree) : Prop :=
  ∃ us vs, ts = us ++ vs ∧ closeAngles vs < openLists us.getLast? vs

/-- The most lists that a stretch at the end of the trees opens beyond those it closes. -/
def IsSurplus (ts : List Tree) (depth : Nat) : Prop :=
  ∀ k, depth ≤ k ↔ ∀ us vs, ts = us ++ vs → openLists us.getLast? vs ≤ closeAngles vs + k

theorem isSurplus_nil : IsSurplus [] 0 := by
  intro k
  refine ⟨fun _ us vs h => ?_, fun _ => Nat.zero_le _⟩
  obtain ⟨rfl, rfl⟩ := List.append_eq_nil_iff.1 h.symm
  exact Nat.zero_le _

theorem IsSurplus.pending_iff {ts : List Tree} {depth : Nat} (h : IsSurplus ts depth) :
    Pending ts ↔ 0 < depth := by
  constructor
  · rintro ⟨us, vs, hts, hlt⟩
    refine Nat.pos_of_ne_zero fun hzero => ?_
    have hle := (h 0).1 (Nat.le_of_eq hzero) us vs hts
    omega
  · intro hpos
    refine Classical.byContradiction fun hnot => ?_
    have hle := (h 0).2 fun us vs hts => Nat.le_of_not_lt fun hlt => hnot ⟨us, vs, hts, hlt⟩
    omega

theorem openLists_snoc {us ws ts : List Tree} (hts : ts = us ++ ws) (t : Tree) :
    openLists us.getLast? (ws ++ [t]) =
      openLists us.getLast? ws + if opensList ts.getLast? t then 1 else 0 := by
  rw [openLists_append, hts, List.getLast?_append]
  simp [openLists]

/-- A stretch at the end of the trees and one more is empty, or a stretch at their end and that
tree. -/
theorem forall_stretch_snoc (p : List Tree → List Tree → Prop) (ts : List Tree) (t : Tree)
    (hnil : p (ts ++ [t]) []) :
    (∀ us vs, ts ++ [t] = us ++ vs → p us vs) ↔ ∀ us ws, ts = us ++ ws → p us (ws ++ [t]) := by
  constructor
  · rintro h us ws rfl
    exact h us (ws ++ [t]) (List.append_assoc _ _ _)
  · intro h us vs heq
    obtain rfl | ⟨ws, u, rfl⟩ := List.eq_nil_or_concat vs
    · rw [List.append_nil] at heq
      rwa [← heq]
    · rw [List.concat_eq_append] at heq ⊢
      rw [← List.append_assoc] at heq
      obtain ⟨hts, hu⟩ := List.append_inj' heq rfl
      obtain rfl := (List.cons.inj hu).1
      exact h us ws hts

/-- What one more tree makes of the depth. -/
def nextDepth (previous : Option Tree) (t : Tree) (depth : Nat) : Nat :=
  if opensList previous t then depth + 1
  else if t.isKind .greaterThan then depth - 1
  else depth

theorem IsSurplus.snoc {ts : List Tree} {depth : Nat} (h : IsSurplus ts depth) (t : Tree) :
    IsSurplus (ts ++ [t]) (nextDepth ts.getLast? t depth) := by
  intro k
  rw [forall_stretch_snoc (fun us vs => openLists us.getLast? vs ≤ closeAngles vs + k) ts t
    (Nat.zero_le _)]
  have hcount : (∀ us ws, ts = us ++ ws →
      openLists us.getLast? (ws ++ [t]) ≤ closeAngles (ws ++ [t]) + k) ↔
      ∀ us ws, ts = us ++ ws →
        openLists us.getLast? ws + (if opensList ts.getLast? t then 1 else 0) ≤
          closeAngles ws + (if t.isKind .greaterThan then 1 else 0) + k := by
    refine forall_congr' fun us => forall_congr' fun ws => forall_congr' fun hts => ?_
    rw [openLists_snoc hts, closeAngles_append, closeAngles_cons, closeAngles_nil, Nat.zero_add]
  rw [hcount, nextDepth]
  by_cases ho : opensList ts.getLast? t
  · have hg : t.isKind .greaterThan = false :=
      not_isKind_of_isKind (isKind_of_opensList ho) (by decide)
    simp only [ho, hg, Bool.false_eq_true, if_true, if_false, Nat.add_zero]
    cases k with
    | zero =>
      refine ⟨fun hle => absurd hle (Nat.not_succ_le_zero _), fun hall => ?_⟩
      exact absurd (hall ts [] (List.append_nil ts).symm) (Nat.not_succ_le_zero _)
    | succ k =>
      rw [Nat.succ_le_succ_iff, h k]
      refine forall_congr' fun us => forall_congr' fun ws => forall_congr' fun hts => ?_
      omega
  · by_cases hg : t.isKind .greaterThan
    · simp only [ho, hg, Bool.false_eq_true, if_true, if_false, Nat.add_zero]
      rw [Nat.sub_le_iff_le_add, h (k + 1)]
      refine forall_congr' fun us => forall_congr' fun ws => forall_congr' fun hts => ?_
      omega
    · simp only [ho, hg, Bool.false_eq_true, if_false, Nat.add_zero]
      exact h k

/-- `value` ends at the first comma that is not `inside` a list, or at the end of all trees; a comma
is given by the trees in front of it and those from it on. -/
def EndsAtComma (inside : List Tree → List Tree → Prop) (value rest : List Tree) : Prop :=
  (∀ front comma back, value = front ++ comma :: back → comma.isKind .comma = true →
    inside front (comma :: back ++ rest)) ∧
  ∀ comma back, rest = comma :: back → comma.isKind .comma = true ∧ ¬ inside value rest

theorem argumentLength_comma (after : Bool) {u : Tree} (hu : u.isKind .comma = true)
    (us : List Tree) : argumentLength 0 after (u :: us) = 0 := by
  cases u with
  | group d opening children closing => cases hu
  | token l =>
    have hk : l.kind = .comma := by simpa [isKind] using hu
    simp [argumentLength, hk]

theorem argumentLength_cons (previous : Option Tree) {u : Tree} {depth : Nat}
    (h : u.isKind .comma = true → 0 < depth) (us : List Tree) :
    argumentLength depth (previous.any (isKind .identifier)) (u :: us) =
      1 + argumentLength (nextDepth previous u depth) (u.isKind .identifier) us := by
  cases u with
  | group d opening children closing =>
    rw [argumentLength]
    rfl
  | token l =>
    have hc : (l.kind = .comma && depth = 0) = false := by
      rw [Bool.and_eq_false_imp, decide_eq_true_eq, decide_eq_false_iff_not]
      intro hk
      exact Nat.ne_of_gt (h (by simp [isKind, hk]))
    rw [argumentLength, hc]
    simp only [Bool.false_eq_true, if_false, nextDepth, opensList, isKind, decide_eq_true_eq]

theorem EndsAtComma.cons {inside : List Tree → List Tree → Prop} {u : Tree} {value rest : List Tree}
    (h : EndsAtComma (fun front back => inside (u :: front) back) value rest)
    (hu : u.isKind .comma = true → inside [] (u :: value ++ rest)) :
    EndsAtComma inside (u :: value) rest := by
  refine ⟨?_, h.2⟩
  intro front comma back heq hc
  cases front with
  | nil =>
    obtain ⟨rfl, rfl⟩ := List.cons.inj heq
    exact hu hc
  | cons v front =>
    obtain ⟨rfl, rfl⟩ := List.cons.inj heq
    exact h.1 front comma back rfl hc

/-- An argument ends at the first comma that no list is open in front of. -/
theorem argumentLength_endsAtComma {front : List Tree} {depth : Nat} (h : IsSurplus front depth)
    (us : List Tree) :
    ∃ value rest, us = value ++ rest ∧
      argumentLength depth (front.getLast?.any (isKind .identifier)) us = value.length ∧
      EndsAtComma (fun before _ => Pending (front ++ before)) value rest := by
  induction us generalizing front depth with
  | nil => exact ⟨[], [], rfl, by rw [argumentLength]; rfl, by simp [EndsAtComma]⟩
  | cons u us ih =>
    by_cases hend : u.isKind .comma = true ∧ depth = 0
    · obtain ⟨hu, rfl⟩ := hend
      refine ⟨[], u :: us, rfl, argumentLength_comma _ hu us, ?_, ?_⟩
      · intro before comma back heq
        simp at heq
      · rintro comma back ⟨⟩
        refine ⟨hu, fun hp => ?_⟩
        have hpos := h.pending_iff.1 (List.append_nil front ▸ hp)
        exact Nat.lt_irrefl 0 hpos
    · have hpos : u.isKind .comma = true → 0 < depth := fun hu =>
        Nat.pos_of_ne_zero fun hzero => hend ⟨hu, hzero⟩
      obtain ⟨value, rest, rfl, hlength, hends⟩ := ih (h.snoc u)
      refine ⟨u :: value, rest, rfl, ?_, ?_⟩
      · rw [argumentLength_cons _ hpos, List.length_cons, ← hlength, Nat.add_comm]
        simp
      · refine EndsAtComma.cons ?_ ?_
        · simpa only [List.append_assoc, List.singleton_append] using hends
        · intro hu
          rw [List.append_nil, h.pending_iff]
          exact hpos hu

/-- A stretch that opens more lists than it closes begins, if it is cut short enough, with a bracket
that is open in front of every tree of it. -/
theorem Pending.exists_open {ts : List Tree} (h : Pending ts) :
    ∃ before t inner, ts = before ++ t :: inner ∧ opensList before.getLast? t = true ∧
      ∀ us, us <+: inner → closeAngles (t :: us) < openLists before.getLast? (t :: us) := by
  obtain ⟨before, vs, hts, hlt⟩ := h
  induction hn : vs.length using Nat.strongRecOn generalizing before vs with
  | ind n ih =>
    by_cases hshort : ∃ us ws, vs = us ++ ws ∧ us ≠ [] ∧
        closeAngles ws < openLists (before ++ us).getLast? ws
    · obtain ⟨us, ws, rfl, hne, hws⟩ := hshort
      refine ih ws.length ?_ (before ++ us) ws (by simp [hts]) hws rfl
      have := List.length_pos_iff.2 hne
      rw [List.length_append] at hn
      omega
    · -- No stretch within this one is pending, so what comes behind its first tree is balanced.
      cases vs with
      | nil => exact absurd hlt (Nat.not_lt_zero _)
      | cons t inner =>
        have hlt' : ∀ us, us <+: inner →
            closeAngles (t :: us) < openLists before.getLast? (t :: us) := by
          rintro us ⟨ws, rfl⟩
          have hws : openLists (before ++ t :: us).getLast? ws ≤ closeAngles ws :=
            Nat.le_of_not_lt fun hws => hshort ⟨t :: us, ws, rfl, by simp, hws⟩
          rw [← List.cons_append, openLists_append, closeAngles_append,
            ← List.getLast?_append] at hlt
          omega
        have hfirst := hlt' [] List.nil_prefix
        refine ⟨before, t, inner, hts, ?_, hlt'⟩
        by_cases ho : opensList before.getLast? t
        · exact ho
        · simp [openLists, ho] at hfirst

/-- The place between `front` and `back` is in a list of type arguments: one can be read at an angle
bracket of `front` that is written directly after an identifier, and it ends in `back`. -/
def InTypeList (closing : Option Nat) (front back : List Tree) : Prop :=
  ∃ before t inner arguments rest h, front = before ++ t :: inner ∧
    opensList before.getLast? t = true ∧
    Reader.typeArguments closing (t :: inner ++ back) = .done arguments rest h ∧
    rest.length < back.length

/-- A list of type arguments can be read at each bracket of `front` that is counted. -/
def OpensRead (closing : Option Nat) (front back : List Tree) : Prop :=
  ∀ before t inner, front = before ++ t :: inner → opensList before.getLast? t = true →
    ∃ arguments rest h, Reader.typeArguments closing (t :: inner ++ back) = .done arguments rest h

/-- Each bracket of `front` that opens in a list of type arguments is counted. -/
def ListsCounted (closing : Option Nat) (front back : List Tree) : Prop :=
  ∀ before t inner, front = before ++ t :: inner → t.isKind .lessThan = true →
    InTypeList closing before (t :: inner ++ back) → opensList before.getLast? t = true

theorem OpensRead.of_append {closing : Option Nat} {front back : List Tree}
    (h : OpensRead closing (front ++ back) []) : OpensRead closing front back := by
  rintro before t inner rfl ho
  obtain ⟨arguments, rest, hr⟩ := h before t (inner ++ back) (by simp) ho
  have hts : t :: (inner ++ back) ++ [] = t :: inner ++ back := by simp
  exact ⟨arguments, rest, hts ▸ hr⟩

/-- `OpensRead`, as a test; `previous` is in front. -/
def readsOpens (closing : Option Nat) (previous : Option Tree) : List Tree → Bool
  | [] => true
  | t :: ts =>
    (!opensList previous t ||
      match Reader.typeArguments closing (t :: ts) with
      | .done _ _ _ => true
      | .failed _ _ => false) && readsOpens closing (some t) ts

theorem readsOpens_sound {closing : Option Nat} {previous : Option Tree} {ts : List Tree}
    (h : readsOpens closing previous ts = true) {before inner : List Tree} {t : Tree}
    (hts : ts = before ++ t :: inner) (ho : opensList (before.getLast?.or previous) t = true) :
    ∃ arguments rest h, Reader.typeArguments closing (t :: inner) = .done arguments rest h := by
  induction ts generalizing previous before with
  | nil => simp at hts
  | cons u us ih =>
    simp only [readsOpens, Bool.and_eq_true, Bool.or_eq_true, Bool.not_eq_true'] at h
    cases before with
    | nil =>
      obtain ⟨rfl, rfl⟩ := List.cons.inj hts
      simp only [List.getLast?_nil, Option.none_or] at ho
      obtain hn | hm := h.1
      · rw [ho] at hn
        cases hn
      · split at hm
        · rename_i arguments rest hr heq
          exact ⟨arguments, rest, hr, heq⟩
        · cases hm
    | cons v before =>
      obtain ⟨rfl, rfl⟩ := List.cons.inj hts
      rw [getLast?_cons_or] at ho
      exact ih h.2 rfl ho

theorem listsCounted_of_count {closing : Option Nat} {front back : List Tree}
    (h : openLists none (front ++ back) = openAngles (front ++ back)) :
    ListsCounted closing front back := by
  rintro before t inner rfl hl -
  have ho := openLists_eq_openAngles_iff.1 h before t (inner ++ back) (by simp) hl
  simpa using ho

theorem exists_angleList {closing : Option Nat} {ts : List Tree} {arguments : TypeArguments}
    {rest : List Tree} {h : Follows rest ts}
    (hread : Reader.typeArguments closing ts = .done arguments rest h) :
    ∃ list, ts = list ++ rest ∧ AngleList list := by
  have hy := Reader.typeArguments_angleList closing ts
  rwa [hread] at hy

theorem Pending.inTypeList {closing : Option Nat} {front back : List Tree} (h : Pending front)
    (hread : OpensRead closing front back) : InTypeList closing front back := by
  obtain ⟨before, t, inner, hfront, ho, hlt⟩ := h.exists_open
  obtain ⟨arguments, rest, hr, heq⟩ := hread before t inner hfront ho
  refine ⟨before, t, inner, arguments, rest, hr, hfront, ho, heq, ?_⟩
  -- A list that ended before this place would have closed what is still open here.
  refine Nat.lt_of_not_le fun hle => ?_
  obtain ⟨list, hts, hlist⟩ := exists_angleList heq
  have hp : list <+: t :: inner := by
    refine List.prefix_of_prefix_length_le ⟨rest, hts.symm⟩ (List.prefix_append _ back) ?_
    have hlength := congrArg List.length hts
    rw [List.length_append, List.length_append] at hlength
    omega
  obtain rfl | ⟨us, rfl, hus⟩ := List.prefix_cons_iff.1 hp
  · obtain ⟨opening, inner', close, hnil, -⟩ := hlist
    cases hnil
  · have hopen := hlt us hus
    have hle := openLists_le_openAngles before.getLast? (t :: us)
    have heq := hlist.balanced.close_eq
    omega

/-- No list goes on to where no angle bracket closes it. -/
theorem InTypeList.closeAngles_pos {closing : Option Nat} {front back : List Tree}
    (h : InTypeList closing front back) : 0 < closeAngles (front ++ back) := by
  obtain ⟨before, t, inner, arguments, rest, hr, rfl, -, heq, -⟩ := h
  obtain ⟨list, hts, opening, within, close, rfl, -, hc, -⟩ := exists_angleList heq
  rw [List.append_assoc, hts]
  exact List.countP_pos_iff.2 ⟨.token close, by simp, by simp [isKind, hc]⟩

theorem InTypeList.pending {closing : Option Nat} {front back : List Tree}
    (h : InTypeList closing front back) (hcounted : ListsCounted closing front back) :
    Pending front := by
  obtain ⟨before, t, inner, arguments, rest, hr, hfront, ho, heq, hlt⟩ := h
  obtain ⟨list, hts, hlist⟩ := exists_angleList heq
  refine ⟨before, t :: inner, hfront, ?_⟩
  have hall : openLists before.getLast? (t :: inner) = openAngles (t :: inner) := by
    refine openLists_eq_openAngles_iff.2 ?_
    rintro us u vs hsplit hl
    cases us with
    | nil =>
      obtain ⟨rfl, -⟩ := List.cons.inj hsplit
      simpa using ho
    | cons v us =>
      obtain ⟨rfl, rfl⟩ := List.cons.inj hsplit
      have hu := hcounted (before ++ t :: us) u vs (by simp [hfront]) hl
      rw [List.getLast?_append] at hu
      -- The list is the one at `t`; the bracket `u` is in it, too.
      have hts : t :: (us ++ u :: vs) ++ back = t :: us ++ (u :: vs ++ back) := by simp
      obtain ⟨hr, heq⟩ : ∃ h, Reader.typeArguments closing (t :: us ++ (u :: vs ++ back)) =
          .done arguments rest h := hts ▸ ⟨hr, heq⟩
      refine hu ⟨before, t, us, arguments, rest, hr, rfl, ho, heq, ?_⟩
      rw [List.length_append]
      omega
  have hlength := congrArg List.length hts
  rw [List.length_append, List.length_append] at hlength
  rw [hall]
  refine hlist.close_lt ?_ (by simp) (by omega)
  exact List.prefix_of_prefix_length_le (List.prefix_append _ back) ⟨rest, hts.symm⟩ (by omega)

namespace EndsAtComma

variable {inside inside' : List Tree → List Tree → Prop} {value rest : List Tree}

/-- Two notions of being inside a list lead to the same comma just if they agree on all commas up to
there. -/
theorem iff_agree (h : EndsAtComma inside value rest) :
    EndsAtComma inside' value rest ↔ ∀ front comma back, value ++ rest = front ++ comma :: back →
      comma.isKind .comma = true → front.length ≤ value.length →
        (inside front (comma :: back) ↔ inside' front (comma :: back)) := by
  constructor
  · intro h' front comma back heq hc hle
    obtain ⟨us, rfl, hrest⟩ | ⟨us, rfl, hback⟩ := List.append_eq_append_iff.1 heq
    · -- The comma stands behind the value.
      rw [List.length_append] at hle
      obtain rfl : us = [] := List.eq_nil_of_length_eq_zero (by omega)
      rw [List.nil_append] at hrest
      rw [List.append_nil, ← hrest]
      exact ⟨fun hi => absurd hi (h.2 comma back hrest).2,
        fun hi => absurd hi (h'.2 comma back hrest).2⟩
    · cases us with
      | nil =>
        rw [List.nil_append] at hback
        rw [List.append_nil] at h h'
        rw [hback]
        exact ⟨fun hi => absurd hi (h.2 comma back hback.symm).2,
          fun hi => absurd hi (h'.2 comma back hback.symm).2⟩
      | cons u us =>
        obtain ⟨rfl, rfl⟩ := List.cons.inj hback
        exact ⟨fun _ => h'.1 front comma us rfl hc, fun _ => h.1 front comma us rfl hc⟩
  · intro hagree
    refine ⟨fun front comma back heq hc => ?_, fun comma back heq => ?_⟩
    · have hle : front.length ≤ value.length := by simp [heq]
      have hi := h.1 front comma back heq hc
      exact (hagree front comma (back ++ rest) (by simp [heq]) hc hle).1 hi
    · obtain ⟨hc, hnot⟩ := h.2 comma back heq
      refine ⟨hc, fun hi => hnot ?_⟩
      rw [heq] at hi ⊢
      exact (hagree value comma back (by rw [heq]) hc (Nat.le_refl _)).2 hi

/-- Counting finds the right comma where each bracket that is counted begins a list, and each that
opens in a list is counted. -/
theorem of_pending {closing : Option Nat}
    (h : EndsAtComma (fun front _ => Pending front) value rest)
    (hread : OpensRead closing value rest) (hcounted : ListsCounted closing value rest) :
    EndsAtComma (InTypeList closing) value rest := by
  constructor
  · intro front comma back heq hc
    refine (h.1 front comma back heq hc).inTypeList ?_
    rintro before t inner rfl ho
    obtain ⟨arguments, rest', hr⟩ := hread before t (inner ++ comma :: back) (by simp [heq]) ho
    have hts : t :: (inner ++ comma :: back) ++ rest = t :: inner ++ (comma :: back ++ rest) := by
      simp
    exact ⟨arguments, rest', hts ▸ hr⟩
  · intro comma back heq
    obtain ⟨hc, hnot⟩ := h.2 comma back heq
    exact ⟨hc, fun hi => hnot (hi.pending hcounted)⟩

end EndsAtComma

end Extent

end TwinClasses
