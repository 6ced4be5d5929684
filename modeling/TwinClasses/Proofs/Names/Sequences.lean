import TwinClasses.Proofs.Brackets
import TwinClasses.Proofs.Classless.Readers
import TwinClasses.Proofs.Names.Ends

set_option autoImplicit false

/-! Dots in node sequences and in the constructs that stand out in them. Behind a dot a sequence
begins no construct, and no construct ends in one; in a type a dot is always followed by the name
that belongs to it. -/

namespace TwinClasses

/-- The trees match inside some delimiter, or outside of all. -/
def Tree.Matched (ts : List Tree) : Prop := ∃ around, Tree.AllMatch around ts

theorem Tree.Matched.of_isInfix {ts us : List Tree} (h : Matched ts) (hu : us <:+: ts) :
    Matched us := by
  obtain ⟨around, h⟩ := h
  exact ⟨around, allMatch_iff.2 fun t ht => allMatch_iff.1 h t (hu.subset ht)⟩

theorem Delimiter.openKind_plain (d : Delimiter) :
    d.openKind.isDot = false ∧ d.openKind ≠ .identifier := by
  cases d <;> decide

theorem Delimiter.closeKind_plain (d : Delimiter) :
    d.closeKind.isDot = false ∧ d.closeKind ≠ .identifier := by
  cases d <;> decide

open Occurrence

namespace Node

def AllWhole (ns : List Node) : Prop := Whole (occurrencesAll ns)

variable {n : Node} {ns ms : List Node}

theorem AllWhole.nil : AllWhole [] := by
  rw [AllWhole, occurrencesAll]
  exact whole_nil

theorem AllWhole.cons (hn : Whole n.occurrences) (h : AllWhole ns) : AllWhole (n :: ns) := by
  rw [AllWhole, occurrencesAll]
  exact hn.append h

theorem AllWhole.single (hn : Whole n.occurrences) : AllWhole [n] := .cons hn .nil

theorem AllWhole.append (h : AllWhole ns) (h' : AllWhole ms) : AllWhole (ns ++ ms) := by
  rw [AllWhole, occurrencesAll_append]
  exact Whole.append h h'

theorem AllWhole.token {l : Lexeme} {k : Kind} (hl : l.kind = k) (hk : k.isDot = false)
    (h : AllWhole ns) : AllWhole (.token l.toToken :: ns) := by
  refine .cons ?_ h
  rw [occurrences]
  exact whole_single (isDot_as hl _ hk)

end Node

namespace Reader

open Extent Reading

/-- Trees for readers of less than the weight `w`. -/
structure Fits (w : Nat) (ts : List Tree) : Prop where
  weight : Tree.weightAll ts < w
  matched : Tree.Matched ts

section

variable {w : Nat} {t : Tree} {ts us : List Tree} {d : Delimiter} {opening closing : Lexeme}
  {children : List Tree}

theorem Fits.of_follows (h : Fits (w + 1) ts) (hu : Follows us ts) : Fits w us :=
  ⟨Nat.lt_of_lt_of_le hu.weight_lt (Nat.le_of_lt_succ h.weight),
    h.matched.of_isInfix hu.suffix.isInfix⟩

theorem Fits.of_isInfix (h : Fits w ts) (hu : us <:+: ts) : Fits w us := by
  refine ⟨?_, h.matched.of_isInfix hu⟩
  have hw := h.weight
  obtain ⟨before, after, rfl⟩ := hu
  rw [Tree.weightAll_append, Tree.weightAll_append] at hw
  omega

theorem Fits.drop (h : Fits w ts) (n : Nat) : Fits w (ts.drop n) :=
  h.of_isInfix (List.drop_suffix n ts).isInfix

theorem Fits.take (h : Fits w ts) (n : Nat) : Fits w (ts.take n) :=
  h.of_isInfix (List.take_prefix n ts).isInfix

theorem Fits.tail (h : Fits (w + 1) (t :: ts)) : Fits w ts := h.of_follows (.tail_of_cons t ts)

theorem Fits.succ (h : Fits w ts) : Fits (w + 1) ts := ⟨Nat.lt_succ_of_lt h.weight, h.matched⟩

theorem Fits.group (h : Fits (w + 1) (.group d opening children closing :: ts)) :
    opening.kind = d.openKind ∧ closing.kind = d.closeKind ∧ Fits w children := by
  obtain ⟨around, hall⟩ := h.matched
  have hm := Tree.allMatch_iff.1 hall _ List.mem_cons_self
  rw [Tree.Matches] at hm
  have hw := h.weight
  rw [Tree.weightAll_cons, Tree.weight_group] at hw
  exact ⟨hm.1, hm.2.1, by omega, _, hm.2.2⟩

end

/-- What is promised of the nodes of a sequence. -/
structure SequenceLinked (last : Option Node) (ns : List Node) (ts : List Tree) : Prop where
  nil : Node.occurrencesAll ns = [] → ts = []
  linked : Linked (Node.occurrencesAll ns)
  starts : last.any opensMemberAccess = true → Starts (Node.occurrencesAll ns)
  closed : Tree.Closed ts → Closed (Node.occurrencesAll ns)

def Declared.IsWhole : Declared → Prop
  | .member m => Whole m.occurrences
  | .verbatim => True
  | .property => True

/-- What the readers find in matching trees that weigh less than `w`. -/
structure ReadersLinked (w : Nat) : Prop where
  type : ∀ closing conditional ts, Fits w ts →
    (type closing conditional ts).Gives Node.AllWhole
  operands : ∀ closing conditional ts, Fits w ts →
    (operands closing conditional ts).Gives Node.AllWhole
  operand : ∀ closing ts, Fits w ts →
    (operand closing ts).Gives Node.AllWhole
  primary : ∀ closing ts, Fits w ts →
    (primary closing ts).Gives Node.AllWhole
  typeArgumentsRest : ∀ closing ts, Fits w ts →
    (typeArgumentsRest closing ts).Gives fun found =>
      found.2.kind = .greaterThan ∧ Whole (TypeArgument.occurrencesAll found.1)
  sequence : ∀ parent last ts ns, Fits w ts → sequence parent last ts = .ok ns →
    SequenceLinked last ns ts
  members : ∀ closing ts ms, Fits w ts → members closing ts = .ok ms →
    Linked (Member.occurrencesAll ms)
  declared : ∀ closing decorators ts, Fits w ts → Whole (Clause.occurrencesAll decorators) →
    (declared closing decorators ts).Yields fun found read => Tree.Ends read ∧ found.IsWhole
  parameters : ∀ closing ts ps, Fits w ts → parameters closing ts = .ok ps →
    Linked (Parameter.occurrencesAll ps)

variable {w : Nat} {us : List Tree} {d : Delimiter} {opening closing : Lexeme}
  {children : List Tree}

/-! Groups. -/

theorem enclosed_whole {os : List Occurrence} (hopen : opening.kind = d.openKind)
    (hclose : closing.kind = d.closeKind) (h : Linked os) :
    Whole (opening.toToken.as .other :: os ++ [closing.toToken.as .other]) := by
  apply h.enclose
  · rw [hopen]
    exact d.openKind_plain.1
  · rw [hclose]
    exact d.closeKind_plain.1
  · rw [hclose]
    exact d.closeKind_plain.2

theorem group_whole (ih : ReadersLinked w)
    (h : Fits (w + 1) (.group d opening children closing :: us)) {g : Group}
    (hg : group d opening children closing = .ok g) :
    Whole g.occurrences ∧ g.opening = opening.toToken := by
  obtain ⟨hopen, hclose, hchildren⟩ := h.group
  unfold group at hg
  cases hs : sequence (some d) none children with
  | error fault => simp [hs, Except.map] at hg
  | ok ns =>
    simp only [hs, Except.map, Except.ok.injEq] at hg
    subst hg
    rw [Group.occurrences]
    exact ⟨enclosed_whole hopen hclose (ih.sequence _ _ _ _ hchildren hs).linked, rfl⟩

/-! Type references. -/

theorem kinds_of_mem_qualifiers (ts : List Tree) :
    ∀ step ∈ qualifiers ts, step.2.kind = .identifier := by
  fun_induction qualifiers ts with
  | case1 dot name ts h ih =>
    rw [Bool.and_eq_true, decide_eq_true_eq, decide_eq_true_eq] at h
    exact List.forall_mem_cons.2 ⟨h.2, ih⟩
  | case2 dot name ts h => simp
  | case3 ts h => simp

/-- A dot, and a name that may stand behind it. -/
theorem dotted_whole {dot name : Token} {role role' : Role} (hname : name.kind.isDot = false)
    (hrole : role' ≠ .other) : Whole [dot.as role, name.as role'] := by
  have hn : Whole [name.as role'] := whole_single hname
  have hclosed : Closed ([dot.as role] ++ [name.as role']) := hn.closed.append_left (by simp) _
  refine ⟨hn.linked.cons ?_, hclosed⟩
  intro _ o ho _
  obtain rfl : name.as role' = o := by simpa using ho
  exact hrole

theorem path_whole {path : List (Token × Token)} (h : ∀ step ∈ path, step.2.kind = .identifier) :
    Whole (path.flatMap fun (dot, name) => [dot.as .other, name.as .qualified]) := by
  induction path with
  | nil => exact whole_nil
  | cons step path ih =>
    obtain ⟨dot, name⟩ := step
    obtain ⟨hname, hpath⟩ := List.forall_mem_cons.1 h
    have hdot : name.kind.isDot = false := by
      rw [show name.kind = .identifier from hname]
      rfl
    exact (dotted_whole hdot (by decide)).append (ih hpath)

theorem typeArguments_whole (ih : ReadersLinked w) (closing : Option Nat) {ts : List Tree}
    (h : Fits (w + 1) ts) : (typeArguments closing ts).Gives fun a => Whole a.occurrences := by
  unfold typeArguments
  split
  · rename_i opening us
    split
    · rename_i hk
      apply Gives.after
      apply Gives.map
      apply (ih.typeArgumentsRest closing us h.tail).mono
      rintro ⟨items, close⟩ ⟨hclose, hi⟩
      rw [TypeArguments.occurrences]
      apply hi.linked.enclose
      · rw [hk]
        rfl
      · rw [hclose]
        rfl
      · rw [hclose]
        decide
    · exact gives_unexpected _ _ _
  · exact gives_unexpected _ _ _

theorem typeReference_whole (ih : ReadersLinked w) (closing : Option Nat) {ts : List Tree}
    (h : Fits (w + 1) ts) : (typeReference closing ts).Gives fun r => Whole r.occurrences := by
  unfold typeReference
  split
  · rename_i name us
    split
    · rename_i hk
      have hpath := (path_whole (kinds_of_mem_qualifiers us)).cons (o := name.toToken.as .other)
        (isDot_as hk _ rfl)
      simp only
      split
      · apply Gives.map
        apply Gives.within
        apply (typeArguments_whole ih closing (h.tail.succ.drop _)).mono
        intro a ha
        rw [TypeRef.occurrences, TypeArguments.occurrencesOption]
        exact hpath.append ha
      · rw [Gives, TypeRef.occurrences, TypeArguments.occurrencesOption, List.append_nil]
        exact hpath
    · exact gives_unexpected _ _ _
  · exact gives_unexpected _ _ _

/-! Constructs in sequences. -/

theorem attachedReference_whole (ih : ReadersLinked w) {l : Lexeme}
    (h : Fits (w + 1) (.token l :: us)) {r : Reading Node (.token l :: us)}
    (hr : attachedReference l us = some r) : r.Gives fun n => Whole n.occurrences := by
  unfold attachedReference at hr
  split at hr
  · split at hr
    · split at hr
      · rename_i reference vs hf hreading
        split at hr
        · have hw := typeReference_whole ih none h
          rw [hreading] at hw
          cases hr
          rw [Gives, Node.occurrences]
          exact hw
        · cases hr
      · cases hr
    · cases hr
  · cases hr

theorem access_whole {l : Lexeme} (hl : l.kind = .identifier) {r : Reading Node (.token l :: us)}
    (hr : access l us = some r) : r.Gives fun n => Whole n.occurrences := by
  unfold access at hr
  split at hr
  · rename_i dot name vs
    split at hr
    · rename_i h
      rw [Bool.and_eq_true] at h
      cases hr
      have hdotted : Whole [dot.toToken.as .other, name.toToken.as (.property l.text)] :=
        dotted_whole (isDot_of_isMemberName h.2) (by simp)
      rw [Gives, Node.occurrences]
      exact hdotted.cons (isDot_as hl _ rfl)
    · cases hr
  · cases hr

theorem forOf_whole (ih : ReadersLinked w) {l : Lexeme} (hl : l.kind = .identifier)
    (h : Fits (w + 1) (.token l :: us)) {r : Reading Node (.token l :: us)}
    (hr : forOf l us = some r) : r.Gives fun n => Whole n.occurrences := by
  have hkeyword : (l.toToken.as .other).isDot = false := isDot_as hl _ rfl
  unfold forOf at hr
  split at hr
  · split at hr
    · cases hr
      apply Gives.map
      apply Gives.ofExcept
      intro g hg
      rw [Node.occurrences]
      exact (group_whole ih h.tail.succ hg).1.cons hkeyword
    · cases hr
  · rename_i word opening children closing vs
    split at hr
    · rename_i hword
      rw [Token.isWord, Bool.and_eq_true, decide_eq_true_eq] at hword
      cases hr
      apply Gives.map
      apply Gives.ofExcept
      intro g hg
      rw [Node.occurrences]
      exact ((group_whole ih (h.of_isInfix (List.suffix_append [_, _] _).isInfix) hg).1.cons
        (isDot_as hword.1 _ rfl)).cons hkeyword
    · cases hr
  · cases hr

theorem await_whole (ih : ReadersLinked w) {l : Lexeme} (hl : l.kind = .identifier)
    (h : Fits (w + 1) (.token l :: us)) {r : Reading Node (.token l :: us)}
    (hr : await l us = some r) : r.Gives fun n => Whole n.occurrences := by
  unfold await at hr
  simp only at hr
  split at hr
  · cases hr
  · cases hr
    apply Gives.map
    apply Gives.ofExcept
    intro operand ho
    have hs := ih.sequence _ _ _ _ (h.tail.take _) ho
    rw [Node.occurrences]
    exact Whole.cons ⟨hs.linked, hs.closed (closed_take_operandLength us)⟩ (isDot_as hl _ rfl)

theorem kind_of_className? {name : Option Token} (h : className? us = some name) :
    ∀ t ∈ name, t.kind = .identifier := by
  unfold className? at h
  split at h
  · cases h
  · cases h
    simp
  · split at h
    · rename_i hk
      cases h
      split
      · simp
      · simpa using hk
    · split at h
      · cases h
        simp
      · cases h

theorem classDecl_whole (ih : ReadersLinked w) {parent : Option Delimiter} {last : Option Node}
    {l : Lexeme} (hl : l.kind = .identifier) (h : Fits (w + 1) (.token l :: us))
    {r : Reading Node (.token l :: us)} (hr : classDecl parent last l us = some r) :
    r.Gives fun n => Whole n.occurrences := by
  unfold classDecl at hr
  split at hr
  · cases hr
  · rename_i name hname
    split at hr
    · cases hr
    · rename_i split hsplit
      have hfits : Fits w (split.heritage ++ .group .brace split.opening split.children
          split.closing :: split.rest) := split.eq ▸ h.tail.drop _
      obtain ⟨hopen, hclose, hchildren⟩ :=
        (hfits.succ.of_isInfix (List.suffix_append _ _).isInfix).group
      split at hr
      · cases hr
        trivial
      · rename_i heritage hh
        have hheritage := ih.sequence _ _ _ _ (hfits.of_isInfix (List.prefix_append _ _).isInfix) hh
        cases hr
        apply Gives.map
        apply Gives.ofExcept
        intro ms hms
        have hmembers := ih.members _ _ _ hchildren hms
        have hbody := enclosed_whole hopen hclose hmembers
        have hwords : Whole (l.toToken.as .other :: name.toList.map (Token.as .other)) := by
          refine (whole_map .other ?_).cons (isDot_as hl .other rfl)
          intro t ht
          exact isDot_as (kind_of_className? hname t (by simpa using ht)) .other rfl
        have hopening : split.opening.kind ≠ .identifier := by
          rw [hopen]
          decide
        rw [Node.occurrences, ClassDecl.occurrences, List.append_assoc]
        exact ⟨(hwords.linked.append_of_closed hwords.closed hheritage.linked).append_of_starts
          hbody.linked (starts_as hopening _ _), hbody.closed.append_left (by simp) _⟩

theorem construct_whole (ih : ReadersLinked w) {parent : Option Delimiter} {last : Option Node}
    {l : Lexeme} (hl : l.kind = .identifier) (h : Fits (w + 1) (.token l :: us))
    {r : Reading Node (.token l :: us)} (hr : construct parent last l us = some r) :
    r.Gives fun n => Whole n.occurrences := by
  unfold construct at hr
  split at hr
  · exact classDecl_whole ih hl h hr
  · split at hr
    · exact forOf_whole ih hl h hr
    · split at hr
      · exact await_whole ih hl h hr
      · split at hr
        · rename_i hattached
          cases hr
          exact attachedReference_whole ih h hattached
        · exact access_whole hl hr

theorem SequenceLinked.empty (last : Option Node) : SequenceLinked last [] [] := by
  have hnil : Whole (Node.occurrencesAll []) := by
    rw [Node.occurrencesAll]
    exact whole_nil
  refine ⟨fun _ => rfl, hnil.linked, ?_, fun _ => hnil.closed⟩
  simp [Node.occurrencesAll, Starts]

/-- A group or a construct, and what comes behind it. -/
theorem SequenceLinked.cons {last : Option Node} {n : Node} {ns : List Node} {ts : List Tree}
    (read : List Tree) (h : SequenceLinked (some n) ns ts) (hn : Whole n.occurrences)
    (hs : last.any opensMemberAccess = true → Starts (Node.occurrencesAll (n :: ns))) :
    SequenceLinked last (n :: ns) (read ++ ts) := by
  refine ⟨?_, ?_, hs, ?_⟩
  · simp [Node.occurrencesAll, n.occurrences_ne_nil]
  · rw [Node.occurrencesAll]
    exact hn.linked.append_of_closed hn.closed h.linked
  · intro hclosed
    rw [Node.occurrencesAll]
    exact closed_append (h.closed hclosed.of_append) fun _ => hn.closed

/-- A token, that may be a dot, or stand behind one. -/
theorem SequenceLinked.token (last : Option Node) {l : Lexeme} {ns : List Node} {ts : List Tree}
    (h : SequenceLinked (some (.token l.toToken)) ns ts) :
    SequenceLinked last (.token l.toToken :: ns) (.token l :: ts) := by
  refine ⟨?_, ?_, ?_, ?_⟩
  · simp [Node.occurrencesAll, Node.occurrences]
  · rw [Node.occurrencesAll, Node.occurrences]
    exact h.linked.cons fun hdot => h.starts hdot
  · intro _ o ho _
    obtain rfl : l.toToken.as .plain = o := by
      simpa [Node.occurrencesAll, Node.occurrences] using ho
    simp [Token.as]
  · intro hclosed
    rw [Node.occurrencesAll, Node.occurrences]
    have hrest : Tree.Closed ([.token l] ++ ts) := hclosed
    refine closed_append (h.closed hrest.of_append) ?_
    intro hnil o ho
    obtain rfl := h.nil hnil
    obtain rfl : l.toToken.as .plain = o := by simpa using ho
    exact hclosed (.token l) rfl

theorem sequence_linked (ih : ReadersLinked w) {parent : Option Delimiter} {last : Option Node}
    {ts : List Tree} {ns : List Node} (h : Fits (w + 1) ts)
    (hs : sequence parent last ts = .ok ns) : SequenceLinked last ns ts := by
  unfold sequence at hs
  split at hs
  · cases hs
    exact .empty last
  · rename_i d opening children closing us
    cases hg : group d opening children closing with
    | error fault => simp [hg] at hs
    | ok g =>
      cases hrest : sequence parent (some (.group g)) us with
      | error fault => simp [hg, hrest, Except.map] at hs
      | ok ms =>
        simp only [hg, hrest, Except.map, Except.ok.injEq] at hs
        subst hs
        obtain ⟨hwhole, hopening⟩ := group_whole ih h hg
        refine (ih.sequence _ _ _ _ h.tail hrest).cons [_] (by rwa [Node.occurrences]) fun _ => ?_
        obtain ⟨d', _, ns, close⟩ := g
        obtain rfl := hopening
        rw [Node.occurrencesAll, Node.occurrences, Group.occurrences]
        refine starts_as ?_ _ _
        rw [h.group.1]
        exact d.openKind_plain.2
  · rename_i l us
    split at hs
    · rename_i node vs hf hc
      cases hrest : sequence parent (some node) vs with
      | error fault => simp [hrest, Except.map] at hs
      | ok ms =>
        simp only [hrest, Except.map, Except.ok.injEq] at hs
        subst hs
        have hms := ih.sequence _ _ _ _ (h.of_follows hf) hrest
        obtain ⟨read, hread⟩ := hf.suffix
        split at hc
        · rename_i hk
          rw [Bool.and_eq_true, decide_eq_true_eq, Bool.not_eq_true'] at hk
          rw [← hread]
          refine hms.cons read (construct_whole ih hk.1 h hc) ?_
          intro hlast
          rw [hlast] at hk
          cases hk.2
        · cases hc
    · cases hs
    · cases hrest : sequence parent (some (.token l.toToken)) us with
      | error fault => simp [hrest, Except.map] at hs
      | ok ms =>
        simp only [hrest, Except.map, Except.ok.injEq] at hs
        subst hs
        exact (ih.sequence _ _ _ _ h.tail hrest).token last

end Reader

end TwinClasses
