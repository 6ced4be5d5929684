import TwinClasses.Proofs.Success
import TwinClasses.Syntax.SourceFile

set_option autoImplicit false

/-! Brackets that match. A list of lexemes is balanced if it falls into single tokens and groups,
and the middle pieces of a template stand directly inside its group. The builder accepts these lists
and no others, and of each it makes the one list of trees that has its lexemes. Where it fails, it
blames the first lexeme up to which the list is the beginning of no balanced one, or, at the end,
the innermost bracket that is still open. -/

namespace TwinClasses

/-- Neither a bracket nor a piece that goes on with a template. -/
def Kind.isPlain (k : Kind) : Bool :=
  (Delimiter.ofOpenKind? k).isNone && k ≠ .templateMiddle && !k.isCloseBracket

/-- A token that needs no partner in the group right around it: all but the middle pieces of a
template may stand anywhere. -/
def Lexeme.IsLeaf (around : Option Delimiter) (l : Lexeme) : Prop :=
  l.kind.isPlain = true ∨ l.kind = .templateMiddle ∧ around = some .template

/-- The lexemes nest into groups, with `around` as the delimiter right around them. -/
inductive Balanced : Option Delimiter → List Lexeme → Prop where
  | nil {around : Option Delimiter} : Balanced around []
  | leaf {around : Option Delimiter} {l : Lexeme} {ls : List Lexeme} :
    l.IsLeaf around → Balanced around ls → Balanced around (l :: ls)
  | group {around : Option Delimiter} {d : Delimiter} {opening closing : Lexeme}
    {inner ls : List Lexeme} : opening.kind = d.openKind → closing.kind = d.closeKind →
    Balanced (some d) inner → Balanced around ls →
    Balanced around (opening :: inner ++ closing :: ls)

/-- Some balanced list begins with the lexemes. -/
def BeginsBalanced (ls : List Lexeme) : Prop := ∃ more, Balanced none (ls ++ more)

/-- The bracket opens a group that is the innermost of those left open. -/
def IsInnermostOpen (d : Delimiter) (opening : Lexeme) (ls : List Lexeme) : Prop :=
  ∃ before inner, ls = before ++ opening :: inner ∧ opening.kind = d.openKind ∧
    Balanced (some d) inner

/-- What is wrong with a list that is not balanced: the first lexeme up to which no balanced list
begins with it, where a group is open or none is, or the innermost bracket left open at the end. -/
inductive Unbalanced (ls : List Lexeme) : Fault → Prop where
  | unexpected {before after : List Lexeme} {l : Lexeme} : ls = before ++ l :: after →
    Balanced none before → ¬ BeginsBalanced (before ++ [l]) →
    Unbalanced ls (Tree.Builder.unexpected l)
  | mismatched {before after : List Lexeme} {l opening : Lexeme} {d : Delimiter} :
    ls = before ++ l :: after → BeginsBalanced before → IsInnermostOpen d opening before →
    ¬ BeginsBalanced (before ++ [l]) → Unbalanced ls (Tree.Builder.mismatched l d)
  | unclosed {opening : Lexeme} {d : Delimiter} : BeginsBalanced ls →
    IsInnermostOpen d opening ls → Unbalanced ls ⟨.unclosed opening.text, some opening.offset⟩

namespace Tree

mutual

/-- All groups of the tree have the brackets of their delimiters, and its middle pieces stand in
templates; `around` is the delimiter right around the tree. -/
def Matches (around : Option Delimiter) : Tree → Prop
  | token l => l.IsLeaf around
  | group d opening children closing =>
    opening.kind = d.openKind ∧ closing.kind = d.closeKind ∧ AllMatch (some d) children

def AllMatch (around : Option Delimiter) : List Tree → Prop
  | [] => True
  | t :: ts => t.Matches around ∧ AllMatch around ts

end

theorem allMatch_iff {around : Option Delimiter} {ts : List Tree} :
    AllMatch around ts ↔ ∀ t ∈ ts, t.Matches around := by
  induction ts with
  | nil => simp [AllMatch]
  | cons t ts ih => simp [AllMatch, ih]

theorem allMatch_reverse {around : Option Delimiter} {ts : List Tree} :
    AllMatch around ts.reverse ↔ AllMatch around ts := by
  simp [allMatch_iff]

/-! The lexemes of matching trees, and matching trees for balanced lexemes. -/

mutual

theorem Matches.balanced_append {around : Option Delimiter} {ls : List Lexeme} :
    ∀ {t : Tree}, t.Matches around → Balanced around ls → Balanced around (t.lexemes ++ ls)
  | token l, h, hls => by
    rw [Matches] at h
    exact .leaf h hls
  | group d opening children closing, h, hls => by
    rw [Matches] at h
    obtain ⟨hopen, hclose, hchildren⟩ := h
    have hgroup := Balanced.group hopen hclose hchildren.balanced hls
    simpa [lexemes] using hgroup

theorem AllMatch.balanced {around : Option Delimiter} :
    ∀ {ts : List Tree}, AllMatch around ts → Balanced around (lexemesAll ts)
  | [], _ => .nil
  | t :: ts, h => by
    rw [AllMatch] at h
    exact h.1.balanced_append h.2.balanced

end

theorem exists_allMatch {around : Option Delimiter} {ls : List Lexeme} (h : Balanced around ls) :
    ∃ ts, AllMatch around ts ∧ lexemesAll ts = ls := by
  induction h with
  | nil => exact ⟨[], trivial, rfl⟩
  | @leaf around l ls hl _ ih =>
    obtain ⟨ts, hts, rfl⟩ := ih
    exact ⟨token l :: ts, ⟨hl, hts⟩, rfl⟩
  | @group around d opening closing inner ls hopen hclose _ _ ihinner ihls =>
    obtain ⟨children, hchildren, rfl⟩ := ihinner
    obtain ⟨ts, hts, rfl⟩ := ihls
    refine ⟨group d opening children closing :: ts, ⟨⟨hopen, hclose, hchildren⟩, hts⟩, ?_⟩
    simp [lexemesAll, lexemes]

namespace Builder

/-- The delimiter of the innermost open group. -/
def enclosing (b : Builder) : Option Delimiter := b.frames.head?.map Frame.delimiter

/-! What a step does. -/

variable {b b' : Builder} {l : Lexeme} {d : Delimiter} {fault : Fault}

theorem step_leaf (h : l.IsLeaf b.enclosing) : b.step l = .ok (b.push l) := by
  obtain hplain | ⟨hmiddle, haround⟩ := h
  · simp only [Kind.isPlain, Bool.and_eq_true, Option.isNone_iff_eq_none, decide_eq_true_eq,
      Bool.not_eq_true'] at hplain
    obtain ⟨⟨hopen, hmiddle⟩, hclose⟩ := hplain
    simp [step, hopen, hmiddle, hclose]
  · obtain ⟨frame, hframe, hd⟩ := Option.map_eq_some_iff.1 haround
    obtain ⟨frames, hframes⟩ := List.head?_eq_some_iff.1 hframe
    simp [step, hmiddle, Delimiter.ofOpenKind?, resume, hframes, hd]

theorem step_open (h : l.kind = d.openKind) : b.step l = .ok (b.enter d l) := by
  rw [step, Delimiter.ofOpenKind?_eq_some_iff.2 h]

theorem step_close {opening : Lexeme} {before ts : List Tree} {frames : List Frame}
    (h : l.kind = d.closeKind) : (Builder.mk (⟨d, opening, before⟩ :: frames) ts).step l =
      .ok ⟨frames, group d opening ts.reverse l :: before⟩ := by
  have hopen : Delimiter.ofOpenKind? d.closeKind = none := by cases d <;> rfl
  have hmiddle : d.closeKind ≠ .templateMiddle := by cases d <;> decide
  simp [step, h, hopen, hmiddle, Delimiter.closeKind_isCloseBracket, leave]

/-- A step takes in a token, opens a group or closes the innermost one. -/
theorem step_eq_ok (h : b.step l = .ok b') :
    (l.IsLeaf b.enclosing ∧ b' = b.push l) ∨ (∃ d, l.kind = d.openKind ∧ b' = b.enter d l) ∨
      ∃ d opening before frames, b.frames = ⟨d, opening, before⟩ :: frames ∧
        l.kind = d.closeKind ∧ b' = ⟨frames, group d opening b.trees.reverse l :: before⟩ := by
  unfold step at h
  split at h
  · rename_i d hd
    cases h
    exact Or.inr (Or.inl ⟨d, Delimiter.ofOpenKind?_eq_some_iff.1 hd, rfl⟩)
  · rename_i hopen
    split at h
    · rename_i hmiddle
      unfold resume at h
      split at h
      · cases h
      · rename_i frame frames hframes
        split at h
        · rename_i hd
          cases h
          exact Or.inl ⟨Or.inr ⟨hmiddle, by simp [enclosing, hframes, hd]⟩, rfl⟩
        · cases h
    · rename_i hmiddle
      split at h
      · unfold leave at h
        split at h
        · cases h
        · rename_i d opening before frames hframes
          split at h
          · rename_i hclose
            cases h
            exact Or.inr (Or.inr ⟨d, opening, before, frames, hframes, hclose.symm, rfl⟩)
          · cases h
      · rename_i hclose
        cases h
        exact Or.inl ⟨Or.inl (by simp [Kind.isPlain, hopen, hmiddle, hclose]), rfl⟩

/-- A step that fails has no group open, or blames the lexeme for not closing the innermost one. -/
theorem step_eq_error (h : b.step l = .error fault) :
    (b.frames = [] ∧ fault = unexpected l) ∨
      ∃ frame frames, b.frames = frame :: frames ∧ fault = mismatched l frame.delimiter := by
  unfold step at h
  split at h
  · cases h
  · split at h
    · unfold resume at h
      split at h
      · rename_i hframes
        cases h
        exact Or.inl ⟨hframes, rfl⟩
      · rename_i frame frames hframes
        split at h
        · cases h
        · cases h
          exact Or.inr ⟨frame, frames, hframes, rfl⟩
    · split at h
      · unfold leave at h
        split at h
        · rename_i hframes
          cases h
          exact Or.inl ⟨hframes, rfl⟩
        · rename_i d opening before frames hframes
          split at h
          · cases h
          · cases h
            exact Or.inr ⟨_, frames, hframes, rfl⟩
      · cases h

/-! What a run keeps: the open groups and the trees in them match. -/

/-- The open groups, innermost first, have the brackets of their delimiters, and the trees before
each match inside the next. -/
def FramesMatch : List Frame → Prop
  | [] => True
  | f :: fs => f.opening.kind = f.delimiter.openKind ∧
    AllMatch (fs.head?.map Frame.delimiter) f.before ∧ FramesMatch fs

structure Matches (b : Builder) : Prop where
  frames : FramesMatch b.frames
  trees : AllMatch b.enclosing b.trees

theorem matches_start : start.Matches := ⟨trivial, trivial⟩

theorem Matches.step (hb : b.Matches) (h : b.step l = .ok b') : b'.Matches := by
  obtain ⟨hl, rfl⟩ | ⟨d, hd, rfl⟩ | ⟨d, opening, before, frames, hframes, hclose, rfl⟩ :=
    step_eq_ok h
  · exact ⟨hb.frames, hl, hb.trees⟩
  · exact ⟨⟨hd, hb.trees, hb.frames⟩, trivial⟩
  · have htrees := hb.trees
    have hall := hb.frames
    rw [enclosing, hframes] at htrees
    rw [hframes] at hall
    obtain ⟨hopen, hbefore, hframes⟩ := hall
    exact ⟨hframes, ⟨hopen, hclose, allMatch_reverse.2 htrees⟩, hbefore⟩

theorem Matches.foldlM {ls : List Lexeme} (hb : b.Matches) (h : ls.foldlM Builder.step b = .ok b') :
    b'.Matches := by
  induction ls generalizing b with
  | nil =>
    cases h
    exact hb
  | cons l ls ih =>
    rw [List.foldlM_cons, ok_bind] at h
    obtain ⟨b₁, hstep, h⟩ := h
    exact ih (hb.step hstep) h

/-- The innermost open group encloses the trees that come after its bracket. -/
theorem Matches.isInnermostOpen {frame : Frame} {frames : List Frame} (hb : b.Matches)
    (hframes : b.frames = frame :: frames) :
    IsInnermostOpen frame.delimiter frame.opening b.lexemes := by
  have htrees := hb.trees
  have hall := hb.frames
  rw [enclosing, hframes] at htrees
  rw [hframes] at hall
  refine ⟨frames.reverse.flatMap Frame.lexemes ++ lexemesAll frame.before.reverse,
    lexemesAll b.trees.reverse, ?_, hall.1, (allMatch_reverse.2 htrees).balanced⟩
  simp [lexemes, hframes, Frame.lexemes]

theorem Matches.balanced (hb : b.Matches) (hframes : b.frames = []) :
    Balanced none b.lexemes := by
  have htrees := hb.trees
  rw [enclosing, hframes] at htrees
  have hlexemes : b.lexemes = lexemesAll b.trees.reverse := by simp [lexemes, hframes]
  rw [hlexemes]
  exact (allMatch_reverse.2 htrees).balanced

end Builder

/-! Matching trees are built from their lexemes. -/

mutual

theorem Matches.foldlM_lexemes {b : Builder} : ∀ {t : Tree}, t.Matches b.enclosing →
    t.lexemes.foldlM Builder.step b = .ok { b with trees := t :: b.trees }
  | token l, h => by
    rw [Matches] at h
    rw [lexemes, List.foldlM_cons, Builder.step_leaf h]
    rfl
  | group d opening children closing, h => by
    rw [Matches] at h
    obtain ⟨hopen, hclose, hchildren⟩ := h
    have hinner := hchildren.foldlM_lexemesAll (b := b.enter d opening)
    rw [lexemes, List.cons_append, List.foldlM_cons, Builder.step_open hopen]
    show (lexemesAll children ++ [closing]).foldlM Builder.step (b.enter d opening) = _
    rw [List.foldlM_append, hinner]
    show [closing].foldlM Builder.step _ = _
    rw [List.foldlM_cons, Builder.enter, Builder.step_close hclose]
    simp [bind, Except.bind, pure, Except.pure]

theorem AllMatch.foldlM_lexemesAll {b : Builder} : ∀ {ts : List Tree}, AllMatch b.enclosing ts →
    (lexemesAll ts).foldlM Builder.step b = .ok { b with trees := ts.reverse ++ b.trees }
  | [], _ => rfl
  | t :: ts, h => by
    rw [AllMatch] at h
    have hrest := AllMatch.foldlM_lexemesAll (b := { b with trees := t :: b.trees }) h.2
    rw [lexemesAll, List.foldlM_append, h.1.foldlM_lexemes]
    show (lexemesAll ts).foldlM Builder.step _ = _
    rw [hrest]
    simp

end

theorem ofLexemes_eq_ok_iff {ls : List Lexeme} {ts : List Tree} :
    ofLexemes ls = .ok ts ↔ lexemesAll ts = ls ∧ AllMatch none ts := by
  constructor
  · intro h
    refine ⟨lexemesAll_of_ofLexemes h, ?_⟩
    rw [ofLexemes, ok_bind] at h
    obtain ⟨b, hfold, hfinish⟩ := h
    have htrees := (Builder.matches_start.foldlM hfold).trees
    unfold Builder.finish at hfinish
    split at hfinish
    · rename_i hframes
      cases hfinish
      rw [Builder.enclosing, hframes] at htrees
      exact allMatch_reverse.2 htrees
    · cases hfinish
  · rintro ⟨rfl, h⟩
    rw [ofLexemes, h.foldlM_lexemesAll (b := Builder.start)]
    simp [bind, Except.bind, Builder.finish, Builder.start]

theorem exists_ofLexemes_iff (ls : List Lexeme) :
    (∃ ts, ofLexemes ls = .ok ts) ↔ Balanced none ls := by
  constructor
  · rintro ⟨ts, h⟩
    obtain ⟨rfl, hts⟩ := ofLexemes_eq_ok_iff.1 h
    exact hts.balanced
  · intro h
    obtain ⟨ts, hts, rfl⟩ := exists_allMatch h
    exact ⟨ts, ofLexemes_eq_ok_iff.2 ⟨rfl, hts⟩⟩

/-! How far a list can be read. -/

namespace Builder

variable {b b' : Builder} {l : Lexeme} {ls : List Lexeme} {fault : Fault}

/-- Closing brackets for the open groups. -/
def closings (b : Builder) : List Lexeme :=
  b.frames.map fun f => ⟨⟨f.delimiter.closeKind, "", f.delimiter.closeText⟩, 0⟩

/-- However many groups are open, they can be closed. -/
theorem foldlM_closings (b : Builder) :
    ∃ b', b.closings.foldlM step b = .ok b' ∧ b'.frames = [] := by
  obtain ⟨frames, trees⟩ := b
  induction frames generalizing trees with
  | nil => exact ⟨_, rfl, rfl⟩
  | cons f fs ih =>
    obtain ⟨d, opening, before⟩ := f
    obtain ⟨b', hb', hframes⟩ := ih (group d opening trees.reverse
      ⟨⟨d.closeKind, "", d.closeText⟩, 0⟩ :: before)
    refine ⟨b', ?_, hframes⟩
    rw [closings, List.map_cons, List.foldlM_cons, step_close rfl]
    exact hb'

/-- What the builder has read without a fault begins a balanced list. -/
theorem beginsBalanced_of_foldlM (h : ls.foldlM step start = .ok b) : BeginsBalanced ls := by
  obtain ⟨b', hb', hframes⟩ := b.foldlM_closings
  refine ⟨b.closings, (exists_ofLexemes_iff _).1 ⟨b'.trees.reverse, ?_⟩⟩
  rw [ofLexemes, List.foldlM_append, h]
  show b.closings.foldlM step b >>= finish = _
  rw [hb']
  simp [bind, Except.bind, finish, hframes]

/-- A lexeme that the builder fails at can come next in no balanced list. -/
theorem not_beginsBalanced_of_step (hls : ls.foldlM step start = .ok b)
    (h : b.step l = .error fault) : ¬ BeginsBalanced (ls ++ [l]) := by
  rintro ⟨more, hmore⟩
  obtain ⟨ts, hts⟩ := (exists_ofLexemes_iff _).2 hmore
  rw [ofLexemes, List.append_assoc, List.foldlM_append, hls] at hts
  change (l :: more).foldlM step b >>= finish = _ at hts
  rw [List.foldlM_cons, h] at hts
  cases hts

theorem foldlM_eq_error (h : ls.foldlM step b = .error fault) : ∃ before l after b',
    ls = before ++ l :: after ∧ before.foldlM step b = .ok b' ∧ b'.step l = .error fault := by
  induction ls generalizing b with
  | nil => cases h
  | cons l ls ih =>
    rw [List.foldlM_cons] at h
    cases hstep : b.step l with
    | error f =>
      rw [hstep] at h
      cases h
      exact ⟨[], l, ls, b, rfl, rfl, hstep⟩
    | ok b₁ =>
      rw [hstep] at h
      obtain ⟨before, l', after, b', rfl, hbefore, hfail⟩ := ih h
      refine ⟨l :: before, l', after, b', rfl, ?_, hfail⟩
      rw [List.foldlM_cons, hstep]
      exact hbefore

end Builder

open Builder in
theorem unbalanced_of_ofLexemes {ls : List Lexeme} {fault : Fault}
    (h : ofLexemes ls = .error fault) : Unbalanced ls fault := by
  rw [ofLexemes] at h
  cases hfold : ls.foldlM step start with
  | error f =>
    rw [hfold] at h
    cases h
    obtain ⟨before, l, after, b, rfl, hbefore, hstep⟩ := foldlM_eq_error hfold
    have hmatches := matches_start.foldlM hbefore
    have hlexemes : b.lexemes = before := lexemes_foldlM hbefore
    have hfirst := not_beginsBalanced_of_step hbefore hstep
    obtain ⟨hframes, rfl⟩ | ⟨frame, frames, hframes, rfl⟩ := step_eq_error hstep
    · exact .unexpected rfl (hlexemes ▸ hmatches.balanced hframes) hfirst
    · exact .mismatched rfl (beginsBalanced_of_foldlM hbefore)
        (hlexemes ▸ hmatches.isInnermostOpen hframes) hfirst
  | ok b =>
    rw [hfold] at h
    have hmatches := matches_start.foldlM hfold
    have hlexemes : b.lexemes = ls := lexemes_foldlM hfold
    change b.finish = _ at h
    unfold finish at h
    split at h
    · cases h
    · rename_i frame frames hframes
      cases h
      exact .unclosed (beginsBalanced_of_foldlM hfold)
        (hlexemes ▸ hmatches.isInnermostOpen hframes)

/-- The builder accepts the balanced lists and no others. The trees it makes are those, and the only
ones, that have these lexemes and whose brackets match; and where it fails, it says what keeps the
list from being balanced. -/
theorem ofLexemes_iff_balanced (ls : List Lexeme) :
    ((∃ ts, ofLexemes ls = .ok ts) ↔ Balanced none ls) ∧
      (∀ ts, ofLexemes ls = .ok ts ↔ lexemesAll ts = ls ∧ AllMatch none ts) ∧
      ∀ fault, ofLexemes ls = .error fault → Unbalanced ls fault :=
  ⟨exists_ofLexemes_iff ls, fun _ => ofLexemes_eq_ok_iff, fun _ => unbalanced_of_ofLexemes⟩

/-- A call with a template of two substitutions, and a substitution in which a parenthesis is left
open. -/
def bracketTargets : List Lexeme × List Lexeme :=
  ((Lexer.lexemes "f(\x60a$\x7b[b]\x7dc$\x7bd\x7d\x60)").lexemes,
    (Lexer.lexemes "\x60a$\x7b(b\x7dc$\x7bd\x7d\x60").lexemes)

theorem bracketTargets_balanced :
    Balanced none bracketTargets.1 ∧
      (∃ ts, ofLexemes bracketTargets.1 = .ok ts ∧ AllMatch none ts ∧
        lexemesAll ts = bracketTargets.1) ∧
      ofLexemes bracketTargets.2 = .error ⟨.mismatched "\x7dc$\x7b" ")", some 6⟩ ∧
      Unbalanced bracketTargets.2 ⟨.mismatched "\x7dc$\x7b" ")", some 6⟩ := by
  obtain ⟨haccepts, htrees, -⟩ := ofLexemes_iff_balanced bracketTargets.1
  obtain ⟨-, -, hfaults⟩ := ofLexemes_iff_balanced bracketTargets.2
  have hok : (ofLexemes bracketTargets.1).isOk = true := by decide +kernel
  have herror : error? (ofLexemes bracketTargets.2) =
      some ⟨.mismatched "\x7dc$\x7b" ")", some 6⟩ := by decide +kernel
  have hfault := error?_eq_some_iff.1 herror
  cases hts : ofLexemes bracketTargets.1 with
  | error fault => simp [hts, Except.isOk, Except.toBool] at hok
  | ok ts =>
    obtain ⟨hlexemes, hall⟩ := (htrees ts).1 hts
    exact ⟨haccepts.1 ⟨ts, hts⟩, ⟨ts, rfl, hall, hlexemes⟩, hfault, hfaults _ hfault⟩

end Tree

end TwinClasses
