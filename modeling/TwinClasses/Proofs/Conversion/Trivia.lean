import TwinClasses.Proofs.Lexing.Skipping

set_option autoImplicit false

/-! Comments in trivia. `comments` lists them in order; where a token takes over the trivia of a
dropped one, it keeps the comments of both. -/

namespace TwinClasses

namespace Text

/-- Length of the line, without the line feed that ends it. -/
def lineLength (cs : List Char) : Nat := Scan.run (· ≠ '\n') cs

/-- The comments that some trivia holds besides blanks; a line comment has to be ended by its line
feed. -/
def comments? : List Char → Option (List (List Char))
  | [] => some []
  | '/' :: '/' :: cs =>
    if cs.drop (lineLength cs) = [] then none
    else (comments? (cs.drop (lineLength cs))).map
      (('/' :: '/' :: cs.take (lineLength cs)) :: ·)
  | '/' :: '*' :: cs =>
    match Scan.commentLength? cs with
    | none => none
    | some n => (comments? (cs.drop n)).map (('/' :: '*' :: cs.take n) :: ·)
  | c :: cs => if isBlank c then comments? cs else none
  termination_by cs => cs.length
  decreasing_by all_goals grind

theorem comments?_blank {c : Char} (h : isBlank c = true) (cs : List Char) :
    comments? (c :: cs) = comments? cs := by
  have hc : c ≠ '/' := by
    rintro rfl
    exact absurd h (by decide)
  rw [comments?.eq_4, if_pos h]
  · intro ds hcs
    exact absurd hcs hc
  · intro ds hcs
    exact absurd hcs hc

theorem comments?_append {cs : List Char} {xs : List (List Char)} (h : comments? cs = some xs)
    (ds : List Char) : comments? (cs ++ ds) = (comments? ds).map (xs ++ ·) := by
  fun_induction comments? cs generalizing xs with
  | case1 =>
    cases h
    simp
  | case2 cs hn => cases h
  | case3 cs hn ih =>
    obtain ⟨ys, hys, rfl⟩ := Option.map_eq_some_iff.1 h
    have hle : lineLength cs ≤ cs.length := Scan.run_le _ cs
    have hline : lineLength (cs ++ ds) = lineLength cs := Scan.run_append hn ds
    rw [List.cons_append, List.cons_append, comments?, hline,
      List.drop_append_of_le_length hle, List.take_append_of_le_length hle, if_neg, ih hys,
      Option.map_map]
    · rfl
    · intro he
      exact hn (List.append_eq_nil_iff.1 he).1
  | case4 cs hn => cases h
  | case5 cs n hn ih =>
    obtain ⟨ys, hys, rfl⟩ := Option.map_eq_some_iff.1 h
    obtain ⟨hn', hle⟩ := Scan.commentLength?_append hn ds
    rw [List.cons_append, List.cons_append, comments?, hn']
    simp only [List.drop_append_of_le_length hle, List.take_append_of_le_length hle, ih hys,
      Option.map_map]
    rfl
  | case6 c cs hl hb hc ih => rw [List.cons_append, comments?_blank hc, ih h]
  | case7 c cs hl hb hc => cases h

/-- Blanks and comments, nothing else. -/
def IsTrivia (s : String) : Prop := (comments? s.toList).isSome

/-- The comments of some trivia, in order. -/
def comments (s : String) : List (List Char) := (comments? s.toList).getD []

theorem IsTrivia.append {s t : String} (hs : IsTrivia s) (ht : IsTrivia t) : IsTrivia (s ++ t) := by
  obtain ⟨xs, hx⟩ := Option.isSome_iff_exists.1 hs
  obtain ⟨ys, hy⟩ := Option.isSome_iff_exists.1 ht
  rw [IsTrivia, String.toList_append, comments?_append hx, hy]
  rfl

theorem comments_append {s t : String} (hs : IsTrivia s) (ht : IsTrivia t) :
    comments (s ++ t) = comments s ++ comments t := by
  obtain ⟨xs, hx⟩ := Option.isSome_iff_exists.1 hs
  obtain ⟨ys, hy⟩ := Option.isSome_iff_exists.1 ht
  simp [comments, comments?_append hx, hx, hy]

theorem comments?_trimStart (s : String) : comments? (trimStart s).toList = comments? s.toList := by
  rw [trimStart, String.toList_ofList]
  induction s.toList with
  | nil => rfl
  | cons c cs ih =>
    cases hc : isBlank c with
    | true => rw [List.dropWhile_cons_of_pos hc, ih, comments?_blank hc]
    | false => rw [List.dropWhile_cons_of_neg (by simp [hc])]

end Text

theorem mergeTrivia_eq (dropped replacement : String) :
    mergeTrivia dropped replacement = dropped ++ Text.trimStart replacement := by
  unfold mergeTrivia
  split
  · rename_i h
    have ht : replacement.toList.dropWhile Text.isBlank = [] :=
      List.dropWhile_eq_nil_iff.2 (List.all_eq_true.1 h)
    simp [Text.trimStart, ht]
  · rfl

theorem isTrivia_mergeTrivia {s t : String} (hs : Text.IsTrivia s) (ht : Text.IsTrivia t) :
    Text.IsTrivia (mergeTrivia s t) := by
  rw [mergeTrivia_eq]
  apply hs.append
  rwa [Text.IsTrivia, Text.comments?_trimStart]

/-- No comment is lost where trivia is taken over. -/
theorem comments_mergeTrivia {s t : String} (hs : Text.IsTrivia s) (ht : Text.IsTrivia t) :
    Text.comments (mergeTrivia s t) = Text.comments s ++ Text.comments t := by
  have ht' : Text.IsTrivia (Text.trimStart t) := by
    rwa [Text.IsTrivia, Text.comments?_trimStart]
  rw [mergeTrivia_eq, Text.comments_append hs ht']
  simp [Text.comments, Text.comments?_trimStart]

namespace Lexer

theorem isBlank_of_isSpace {c : Char} (h : Scan.isSpace c = true) : Text.isBlank c = true := by
  have hc : c ∈ [' ', '\t', '\r', '\n', '\x0c'] := of_decide_eq_true h
  simp only [List.mem_cons, List.not_mem_nil, or_false] at hc
  obtain rfl | rfl | rfl | rfl | rfl := hc <;> decide

theorem Skipped.isSome_comments? {s : List Char} (h : Skipped s) : (Text.comments? s).isSome := by
  induction h with
  | nil => simp [Text.comments?]
  | space hc _ ih => rwa [Text.comments?_blank (isBlank_of_isSpace hc)]
  | @line cs ds hcs _ ih =>
    have hline : Text.lineLength (cs ++ '\n' :: ds) = cs.length := Scan.run_line hcs ds
    rw [Text.comments?, hline, List.drop_left, if_neg (by simp), Text.comments?_blank (by decide)]
    simpa using ih
  | block hn _ ih =>
    rw [Text.comments?, (Scan.commentLength?_append hn _).1]
    simpa using ih

/-- What stands in front of the tokens of a text is trivia. -/
theorem isTrivia_leading_lexemes (source : String) :
    ∀ t ∈ (lexemes source).tokens, Text.IsTrivia t.leading :=
  fun t ht => (skipped_leading_lexemes source t ht).isSome_comments?

end Lexer

end TwinClasses
