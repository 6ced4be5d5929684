import Mathlib.Data.List.TakeWhile
import TwinClasses.Proofs.Lexemes

set_option autoImplicit false

/-! Trivia that the lexer passes over. What stands in front of a token is read as trivia wherever it
is written, so it stays with the token that follows it. -/

namespace TwinClasses

namespace Scan

theorem commentLength?_append {cs : List Char} {n : Nat} (h : commentLength? cs = some n)
    (ds : List Char) : commentLength? (cs ++ ds) = some n ∧ n ≤ cs.length := by
  fun_induction commentLength? cs generalizing n with
  | case1 => cases h
  | case2 cs =>
    cases h
    simp [commentLength?]
  | case3 c cs hc ih =>
    cases hn : commentLength? cs with
    | none => simp [hn] at h
    | some m =>
      obtain rfl : m + 1 = n := by simpa [hn] using h
      obtain ⟨hm, hle⟩ := ih hn
      refine ⟨?_, ?_⟩
      · have hne : ∀ es, c = '*' → cs ++ ds = '/' :: es → False := by
          intro es hstar hes
          cases cs with
          | nil => simp [commentLength?] at hn
          | cons e cs =>
            obtain ⟨rfl, rfl⟩ := List.cons.inj hes
            exact hc cs hstar rfl
        rw [List.cons_append, commentLength?.eq_3 _ _ hne, hm]
        rfl
      · simpa using hle

theorem commentLength?_take {cs : List Char} {n : Nat} (h : commentLength? cs = some n) :
    commentLength? (cs.take n) = some n := by
  fun_induction commentLength? cs generalizing n with
  | case1 => cases h
  | case2 cs =>
    cases h
    simp [commentLength?]
  | case3 c cs hc ih =>
    cases hn : commentLength? cs with
    | none => simp [hn] at h
    | some m =>
      obtain rfl : m + 1 = n := by simpa [hn] using h
      have hne : ∀ es, c = '*' → cs.take m = '/' :: es → False := by
        intro es hstar hes
        cases cs with
        | nil => simp at hes
        | cons e cs =>
          cases m with
          | zero => simp at hes
          | succ m =>
            obtain ⟨rfl, -⟩ := List.cons.inj hes
            exact hc cs hstar rfl
      rw [List.take_succ_cons, commentLength?.eq_3 _ _ hne, ih hn]
      rfl

theorem run_le (p : Char → Bool) (cs : List Char) : run p cs ≤ cs.length :=
  (List.takeWhile_sublist p).length_le

theorem take_run (p : Char → Bool) (cs : List Char) : cs.take (run p cs) = cs.takeWhile p :=
  (List.prefix_iff_eq_take.1 (List.takeWhile_prefix p)).symm

theorem run_cons {p : Char → Bool} {c : Char} (h : p c = true) (cs : List Char) :
    run p (c :: cs) = run p cs + 1 := by
  simp [run, h]

theorem run_cons_of_not {p : Char → Bool} {c : Char} (h : p c = false) (cs : List Char) :
    run p (c :: cs) = 0 := by
  simp [run, h]

theorem not_of_drop_run {p : Char → Bool} {c : Char} {cs ds : List Char}
    (h : cs.drop (run p cs) = c :: ds) : p c = false := by
  induction cs with
  | nil => simp at h
  | cons d cs ih =>
    cases hd : p d with
    | true =>
      rw [run_cons hd, List.drop_succ_cons] at h
      exact ih h
    | false =>
      rw [run_cons_of_not hd, List.drop_zero] at h
      obtain ⟨rfl, -⟩ := List.cons.inj h
      exact hd

theorem run_append {p : Char → Bool} {cs : List Char} (h : cs.drop (run p cs) ≠ [])
    (ds : List Char) : run p (cs ++ ds) = run p cs := by
  induction cs with
  | nil => simp at h
  | cons c cs ih =>
    by_cases hc : p c
    · rw [run_cons hc, List.drop_succ_cons] at h
      rw [List.cons_append, run_cons hc, run_cons hc, ih h]
    · simp [run, hc]

/-- A run goes on to the first character that is none of its own. -/
theorem run_append_cons {p : Char → Bool} {cs : List Char} {d : Char}
    (h : ∀ c ∈ cs, p c = true) (hd : p d = false) (ds : List Char) :
    run p (cs ++ d :: ds) = cs.length := by
  rw [run, List.takeWhile_append_of_pos h]
  simp [hd]

/-- A line goes on to its line feed. -/
theorem run_line {cs : List Char} (h : '\n' ∉ cs) (ds : List Char) :
    run (· ≠ '\n') (cs ++ '\n' :: ds) = cs.length := by
  apply run_append_cons
  · intro c hc
    have hne : c ≠ '\n' := fun heq => h (heq ▸ hc)
    simpa using hne
  · rfl

/-! Symbols. -/

theorem symbols_ne_nil : ∀ e ∈ symbols, e.1 ≠ [] := by decide

/-- The first symbol of the table that the text starts with is found, if it starts with one. -/
theorem symbol_cases (cs : List Char) :
    (∃ before text kind after, symbols = before ++ (text, kind) :: after ∧ text <+: cs ∧
      (∀ e ∈ before, ¬ e.1 <+: cs) ∧ symbol cs = (kind, text.length - 1)) ∨
    (∀ e ∈ symbols, ¬ e.1 <+: cs) ∧ symbol cs = (.unknown, 0) := by
  unfold symbol
  generalize hf : symbols.find? _ = found
  cases found with
  | none =>
    refine Or.inr ⟨fun e he hp => ?_, rfl⟩
    exact List.find?_eq_none.1 hf e he (List.isPrefixOf_iff_prefix.2 hp)
  | some entry =>
    obtain ⟨text, kind⟩ := entry
    obtain ⟨hp, before, after, hsplit, hbefore⟩ := List.find?_eq_some_iff_append.1 hf
    refine Or.inl ⟨before, text, kind, after, hsplit, List.isPrefixOf_iff_prefix.1 hp, ?_, rfl⟩
    rintro ⟨other, k⟩ he hprefix
    have hnot := hbefore (other, k) he
    simp only at hnot
    rw [List.isPrefixOf_iff_prefix.2 hprefix] at hnot
    cases hnot

theorem symbol_of_first {before after : List (List Char × Kind)} {text cs : List Char} {kind : Kind}
    (hsplit : symbols = before ++ (text, kind) :: after) (hp : text <+: cs)
    (hbefore : ∀ e ∈ before, ¬ e.1 <+: cs) : symbol cs = (kind, text.length - 1) := by
  have hf : symbols.find? (fun e => e.1.isPrefixOf cs) = some (text, kind) := by
    refine List.find?_eq_some_iff_append.2
      ⟨List.isPrefixOf_iff_prefix.2 hp, before, after, hsplit, fun e he => ?_⟩
    simpa [← List.isPrefixOf_iff_prefix] using hbefore e he
  rw [symbol, hf]

theorem isTrivia_symbol (cs : List Char) : (symbol cs).1.isTrivia = false := by
  have hall : ∀ e ∈ symbols, e.2.isTrivia = false := by decide
  obtain ⟨before, text, kind, after, hsplit, -, -, hs⟩ | ⟨-, hs⟩ := symbol_cases cs
  · rw [hs]
    exact hall (text, kind) (by simp [hsplit])
  · rw [hs]
    rfl

/-- How trivia is told from tokens. -/
theorem token_isTrivia {c : Char} {cs : List Char} (h : (token c cs).1.isTrivia = true) :
    isSpace c = true ∧ (token c cs).2 = run isSpace cs ∨
    (∃ ds, c = '/' ∧ cs = '/' :: ds ∧ (token c cs).2 = 1 + run (· ≠ '\n') ds) ∨
    ∃ ds n, c = '/' ∧ cs = '*' :: ds ∧ commentLength? ds = some n ∧ (token c cs).2 = 1 + n := by
  revert h
  fun_cases token c cs with
  | case1 c cs hc => exact fun _ => Or.inl ⟨hc, rfl⟩
  | case4 c cs hs hi hd hq closed =>
    intro h
    cases closed <;> simp [Kind.isTrivia] at h
  | case5 ds => exact fun _ => Or.inr (Or.inl ⟨ds, rfl, rfl, rfl⟩)
  | case6 ds n hn => exact fun _ => Or.inr (Or.inr ⟨ds, n, rfl, rfl, hn, rfl⟩)
  | case11 => simp [isTrivia_symbol]
  | case12 => simp [isTrivia_symbol]
  | _ => simp [Kind.isTrivia]

end Scan

namespace Lexer

theorem isTrivia_templateSegment (resumed : Bool) (braces : List BraceUse) (cs : List Char) :
    (templateSegment resumed braces cs).1.isTrivia = false := by
  unfold templateSegment
  split
  · cases resumed <;> rfl
  · cases resumed <;> rfl
  · rfl

/-- Trivia looks the same in every context. -/
theorem next_of_isTrivia {ctx : Context} {c : Char} {cs : List Char}
    (h : (ctx.next c cs).1.isTrivia = true) : (Scan.token c cs).1.isTrivia = true ∧
      ctx.next c cs = ((Scan.token c cs).1, (Scan.token c cs).2, ctx.braces) := by
  revert h
  fun_cases Context.next ctx c cs with
  | case1 => simp [isTrivia_templateSegment]
  | case3 => simp [isTrivia_templateSegment]
  | case8 => simp [*]
  | _ => simp [Kind.isTrivia]

theorem next_of_token_isTrivia (ctx : Context) {c : Char} {cs : List Char}
    (h : (Scan.token c cs).1.isTrivia = true) :
    ctx.next c cs = ((Scan.token c cs).1, (Scan.token c cs).2, ctx.braces) := by
  revert h
  fun_cases Context.next ctx c cs with
  | case8 => simp [*]
  | _ => simp [*, Kind.isTrivia]

/-- Blanks and finished comments, which are trivia whatever comes after them. -/
inductive Skipped : List Char → Prop where
  | nil : Skipped []
  | space {c : Char} {cs : List Char} : Scan.isSpace c = true → Skipped cs → Skipped (c :: cs)
  | line (cs : List Char) {ds : List Char} : '\n' ∉ cs → Skipped ds →
    Skipped ('/' :: '/' :: (cs ++ '\n' :: ds))
  | block {cs ds : List Char} : Scan.commentLength? cs = some cs.length → Skipped ds →
    Skipped ('/' :: '*' :: (cs ++ ds))

/-- Trivia that ends inside a line comment. -/
def Unfinished (s : List Char) : Prop :=
  ∃ a line, Skipped a ∧ '\n' ∉ line ∧ s = a ++ '/' :: '/' :: line

namespace Skipped

variable {s t cs : List Char}

theorem append (hs : Skipped s) (ht : Skipped t) : Skipped (s ++ t) := by
  induction hs with
  | nil => exact ht
  | space hc _ ih => exact .space hc ih
  | line cs hcs _ ih =>
    have h := Skipped.line cs hcs ih
    simpa using h
  | block hn _ ih =>
    have h := Skipped.block hn ih
    simpa using h

theorem spaces (h : ∀ c ∈ cs, Scan.isSpace c = true) : Skipped cs := by
  induction cs with
  | nil => exact .nil
  | cons c cs ih =>
    obtain ⟨hc, hcs⟩ := List.forall_mem_cons.1 h
    exact .space hc (ih hcs)

end Skipped

theorem Unfinished.newline {s t : List Char} (hs : Unfinished s) (ht : Skipped t) :
    Skipped (s ++ '\n' :: t) := by
  obtain ⟨a, line, ha, hline, rfl⟩ := hs
  have h := ha.append (.line line hline ht)
  simpa using h

/-- Trivia that waits for a token in front of `cs`; a line comment at its end goes on to the end of
the line. -/
def Waits (pending : String) (cs : List Char) : Prop :=
  Skipped pending.toList ∨
    Unfinished pending.toList ∧ (cs = [] ∨ ∃ ds, cs = '\n' :: ds)

theorem waits_empty (cs : List Char) : Waits "" cs := Or.inl .nil

theorem Waits.skipped {pending : String} {c : Char} {cs : List Char} (hw : Waits pending (c :: cs))
    (hc : c ≠ '\n') : Skipped pending.toList := by
  obtain hs | ⟨-, hcs | ⟨ds, hcs⟩⟩ := hw
  · exact hs
  · cases hcs
  · exact absurd (List.cons.inj hcs).1 hc

theorem waits_next {ctx : Context} {pending : String} {c : Char} {cs : List Char}
    (hw : Waits pending (c :: cs)) (h : (ctx.next c cs).1.isTrivia = true) :
    Waits (pending ++ String.ofList (c :: cs.take (ctx.next c cs).2.1))
      (cs.drop (ctx.next c cs).2.1) := by
  obtain ⟨hk, hn⟩ := next_of_isTrivia h
  rw [hn]
  simp only
  unfold Waits
  rw [String.toList_append, String.toList_ofList]
  obtain ⟨hc, hn⟩ | ⟨ds, rfl, rfl, hn⟩ | ⟨ds, m, rfl, rfl, hm, hn⟩ := Scan.token_isTrivia hk
  · have hcs : Skipped (cs.take (Scan.token c cs).2) := by
      rw [hn, Scan.take_run]
      exact .spaces fun d hd => List.mem_takeWhile_imp hd
    refine Or.inl ?_
    obtain hs | ⟨hs, hcons | ⟨ds, hcons⟩⟩ := hw
    · exact hs.append (.space hc hcs)
    · cases hcons
    · obtain ⟨rfl, rfl⟩ := List.cons.inj hcons
      exact hs.newline hcs
  · have hp := hw.skipped (by decide)
    rw [hn, Nat.add_comm, List.take_succ_cons, List.drop_succ_cons, Scan.take_run]
    refine Or.inr ⟨⟨_, _, hp, ?_, rfl⟩, ?_⟩
    · intro hmem
      have hne := List.mem_takeWhile_imp hmem
      simp at hne
    · cases hrest : ds.drop (Scan.run (· ≠ '\n') ds) with
      | nil => exact Or.inl rfl
      | cons e es =>
        obtain rfl : e = '\n' := by simpa using Scan.not_of_drop_run hrest
        exact Or.inr ⟨es, rfl⟩
  · have hp := hw.skipped (by decide)
    have hle : m ≤ ds.length := (Scan.commentLength?_append hm []).2
    have hblock : Scan.commentLength? (ds.take m) = some (ds.take m).length := by
      rw [Scan.commentLength?_take hm, List.length_take_of_le hle]
    rw [hn, Nat.add_comm, List.take_succ_cons]
    have hs := hp.append (.block hblock .nil)
    rw [List.append_nil] at hs
    exact Or.inl hs

theorem Waits.skipped_of_token {ctx : Context} {pending : String} {c : Char} {cs : List Char}
    (hw : Waits pending (c :: cs)) (h : (ctx.next c cs).1.isTrivia = false) :
    Skipped pending.toList := by
  apply hw.skipped
  rintro rfl
  simp [Context.next, Scan.token, Scan.isSpace, Kind.isTrivia] at h

theorem skipped_of_waits (ctx : Context) (cs : List Char) (offset : Nat) (pending : String)
    (hw : Waits pending cs) :
    (∀ t ∈ (foldTrivia offset pending (piecesFrom ctx cs)).tokens, Skipped t.leading.toList) ∧
      Waits (foldTrivia offset pending (piecesFrom ctx cs)).trailing [] := by
  fun_induction piecesFrom ctx cs generalizing offset pending with
  | case1 => simpa [foldTrivia, Lexemes.tokens] using hw
  | case2 ctx c cs kind n braces h piece ih =>
    have hkind : (ctx.next c cs).1 = kind := by rw [h]
    have hn : (ctx.next c cs).2.1 = n := by rw [h]
    cases hk : kind.isTrivia with
    | true =>
      have hnext := waits_next hw (by rw [hkind, hk])
      rw [hn] at hnext
      rw [foldTrivia_of_isTrivia hk]
      exact ih _ _ hnext
    | false =>
      have hp := hw.skipped_of_token (by rw [hkind, hk])
      obtain ⟨hrest, hlast⟩ := ih (offset + Text.byteLength piece.text) "" (waits_empty _)
      rw [tokens_foldTrivia hk, trailing_foldTrivia hk]
      exact ⟨List.forall_mem_cons.2 ⟨hp, hrest⟩, hlast⟩

/-- What stands in front of a token of a text is passed over by the lexer. -/
theorem skipped_leading_lexemes (source : String) :
    ∀ t ∈ (lexemes source).tokens, Skipped t.leading.toList :=
  (skipped_of_waits _ _ _ _ (waits_empty _)).1

theorem waits_trailing_lexemes (source : String) : Waits (lexemes source).trailing [] :=
  (skipped_of_waits _ _ _ _ (waits_empty _)).2

end Lexer

end TwinClasses
