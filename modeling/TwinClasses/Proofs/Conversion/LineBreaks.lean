import Mathlib.Data.List.DropRight
import TwinClasses.Proofs.Conversion.Erasure

set_option autoImplicit false

/-! Line breaks in front of tokens that take the place of dropped ones. The trivia of the first
dropped token stays as it is; the trivia after it is trimmed up to its first comment. So a line
break behind a keyword goes with the keyword, unless a comment stands in front of the break. -/

namespace TwinClasses

namespace Text

def breaksLine (s : String) : Bool := s.toList.contains '\n'

/-- A line break stands in a comment of the trivia, or behind one. -/
def breaksAtComment (s : String) : Bool := breaksLine (trimStart s)

theorem breaksLine_append (s t : String) :
    breaksLine (s ++ t) = (breaksLine s || breaksLine t) := by
  simp [breaksLine, String.toList_append]

theorem breaksLine_of_breaksAtComment {s : String} (h : breaksAtComment s = true) :
    breaksLine s = true := by
  simp only [breaksAtComment, breaksLine, trimStart, String.toList_ofList, List.contains_iff_mem]
    at h ⊢
  exact (List.dropWhile_sublist _).subset h

/-- Trivia without comments is blank. -/
theorem trimStart_of_comments?_eq_nil {cs : List Char} (h : comments? cs = some []) :
    cs.dropWhile isBlank = [] := by
  fun_induction comments? cs with
  | case1 => rfl
  | case2 cs hn => cases h
  | case3 cs hn ih =>
    obtain ⟨xs, -, hxs⟩ := Option.map_eq_some_iff.1 h
    cases hxs
  | case4 cs hn => cases h
  | case5 cs n hn ih =>
    obtain ⟨xs, -, hxs⟩ := Option.map_eq_some_iff.1 h
    cases hxs
  | case6 c cs hl hb hc ih => rw [List.dropWhile_cons_of_pos hc, ih h]
  | case7 c cs hl hb hc => cases h

theorem breaksAtComment_of_comments_eq_nil {s : String} (ht : IsTrivia s) (h : comments s = []) :
    breaksAtComment s = false := by
  obtain ⟨xs, hxs⟩ := Option.isSome_iff_exists.1 ht
  obtain rfl : xs = [] := by simpa [comments, hxs] using h
  simp [breaksAtComment, trimStart, trimStart_of_comments?_eq_nil hxs, breaksLine]

end Text

open Text

theorem breaksLine_mergeTrivia (dropped replacement : String) :
    breaksLine (mergeTrivia dropped replacement) =
      (breaksLine dropped || breaksAtComment replacement) := by
  rw [mergeTrivia_eq, breaksLine_append]
  rfl

theorem breaksAtComment_mergeTrivia (dropped replacement : String) :
    breaksAtComment (mergeTrivia dropped replacement) =
      (breaksAtComment dropped || breaksAtComment replacement) := by
  simp only [mergeTrivia_eq, breaksAtComment, breaksLine, trimStart, String.toList_append,
    String.toList_ofList, List.dropWhile_append]
  split
  · rename_i h
    simp [List.isEmpty_iff.1 h, List.dropWhile_idempotent]
  · simp

theorem breaksAtComment_foldr_mergeTrivia (taken : List String) (leading : String) :
    breaksAtComment (taken.foldr mergeTrivia leading) =
      (taken ++ [leading]).any breaksAtComment := by
  induction taken with
  | nil => simp
  | cons s taken ih =>
    rw [List.foldr_cons, breaksAtComment_mergeTrivia, ih, List.cons_append, List.any_cons]

/-- Of the trivia that is taken over, only what comes first keeps the line breaks in front of its
comments. -/
theorem breaksLine_foldr_mergeTrivia (dropped : String) (later : List String) (leading : String) :
    breaksLine ((dropped :: later).foldr mergeTrivia leading) =
      (breaksLine dropped || (later ++ [leading]).any breaksAtComment) := by
  rw [List.foldr_cons, breaksLine_mergeTrivia, breaksAtComment_foldr_mergeTrivia]

/-! Tokens that are kept, with the tokens whose place they take. -/

structure Place where
  /-- The tokens replaced since the one that was kept before, in order. -/
  replaced : List Token
  edit : Edit

/-- The token `u` is what has become of the one in this place. It has taken over the trivia `taken`
of tokens that were replaced, strictly of all of them. -/
structure Place.TakenBy (strict : Prop) (p : Place) (taken : List String) (u : Token) : Prop where
  outcome : p.edit.outcome = some u
  sublist : taken.Sublist (p.replaced.map Token.leading)
  all : strict → taken = p.replaced.map Token.leading
  untouched : taken = [] → u.leading = p.edit.token.leading
  opensLine : ∀ dropped later, taken = dropped :: later → u.opensLine =
    (breaksLine dropped || (later ++ [p.edit.token.leading]).any breaksAtComment)

/-- A line break was there in front of a dropped token, unless a comment in front of the token that
takes its place brings it. -/
theorem Place.TakenBy.exists_opensLine {strict : Prop} {p : Place} {taken : List String} {u : Token}
    (h : p.TakenBy strict taken u) (hne : taken ≠ []) (hu : u.opensLine = true) :
    (∃ d ∈ p.replaced, d.opensLine = true) ∨
      (breaksAtComment p.edit.token.leading = true ∧
        (IsTrivia p.edit.token.leading → comments p.edit.token.leading ≠ [])) := by
  have hreplaced : ∀ s ∈ taken, breaksLine s = true → ∃ d ∈ p.replaced, d.opensLine = true := by
    intro s hs hbreaks
    obtain ⟨d, hd, rfl⟩ := List.mem_map.1 (h.sublist.subset hs)
    exact ⟨d, hd, hbreaks⟩
  obtain ⟨dropped, later, rfl⟩ := List.exists_cons_of_ne_nil hne
  rw [h.opensLine dropped later rfl, Bool.or_eq_true, List.any_append, Bool.or_eq_true] at hu
  obtain hfirst | hlater | hown := hu
  · exact .inl (hreplaced dropped List.mem_cons_self hfirst)
  · obtain ⟨s, hs, hbreaks⟩ := List.any_eq_true.1 hlater
    exact .inl (hreplaced s (List.mem_cons_of_mem _ hs) (breaksLine_of_breaksAtComment hbreaks))
  · have hown : breaksAtComment p.edit.token.leading = true := by simpa using hown
    refine .inr ⟨hown, ?_⟩
    intro htrivia hnone
    rw [breaksAtComment_of_comments_eq_nil htrivia hnone] at hown
    cases hown

namespace Edit

/-- The places of the tokens that are kept; `pending` are the tokens replaced before the list. -/
def places (pending : List Token) : List Edit → List Place
  | [] => []
  | ⟨t, .kept taken text⟩ :: es => ⟨pending, ⟨t, .kept taken text⟩⟩ :: places [] es
  | ⟨t, .replaced⟩ :: es => places (pending ++ [t]) es
  | ⟨_, .dropped⟩ :: es => places pending es

theorem outcomes_places (pending : List Token) (es : List Edit) :
    (places pending es).filterMap (·.edit.outcome) = outcomes es := by
  induction es generalizing pending with
  | nil => rfl
  | cons e es ih =>
    obtain ⟨t, fate⟩ := e
    cases fate with
    | kept taken text =>
      simp only [places, outcomes, List.filterMap_cons] at ih ⊢
      rw [ih]
    | replaced => exact ih _
    | dropped => exact ih _

/-- Where every replaced token has one in its place, each is found in front of the one it has. -/
theorem Accounts.replaced_places (pending : List Token) {es : List Edit}
    (h : Accounts True (pending.map Token.leading) es) :
    (places pending es).flatMap Place.replaced =
      pending ++ tokens (es.filter (·.fate = .replaced)) := by
  induction es generalizing pending with
  | nil =>
    have hp : pending = [] := List.map_eq_nil_iff.1 (h trivial)
    simp [places, hp]
  | cons e es ih =>
    obtain ⟨t, fate⟩ := e
    cases fate with
    | kept taken text =>
      have hes := ih [] h.2.2
      rw [places, List.flatMap_cons, hes]
      rfl
    | replaced =>
      have hes := ih (pending ++ [t]) (by simpa [Accounts] using h)
      rw [places, hes, List.append_assoc]
      rfl
    | dropped => exact ih pending h

/-- A token that is kept takes over trivia of the tokens whose place it takes, and nothing else. -/
theorem Accounts.places {strict : Prop} (pending : List Token) {es : List Edit}
    (h : Accounts strict (pending.map Token.leading) es) :
    ∀ p ∈ Edit.places pending es, ∃ taken text, p.edit.fate = .kept taken text ∧
      taken.Sublist (p.replaced.map Token.leading) ∧
      (strict → taken = p.replaced.map Token.leading) := by
  induction es generalizing pending with
  | nil => exact nofun
  | cons e es ih =>
    obtain ⟨t, fate⟩ := e
    cases fate with
    | kept taken text => exact List.forall_mem_cons.2 ⟨⟨taken, text, rfl, h.1, h.2.1⟩, ih [] h.2.2⟩
    | replaced => exact ih (pending ++ [t]) (by simpa [Accounts] using h)
    | dropped => exact ih pending h

end Edit

section

variable {types : TypeTable} {member : String}

/-- The first token of an awaited operand takes the place of the keyword. -/
theorem Node.opensLine_toSync_await {keyword : Token} {operand ms : List Node}
    (h : Node.toSync types member (.await keyword operand) = .ok ms) : ∃ ns,
    Node.toSyncAll types member operand = .ok ns ∧
      ∀ t ∈ (Node.tokensAll ns).head?, ∀ u ∈ (Node.tokensAll ms).head?,
        u.opensLine = (keyword.opensLine || breaksAtComment t.leading) := by
  simp only [Node.toSync, ok_bind, ok_pure] at h
  obtain ⟨ns, hns, rfl⟩ := h
  refine ⟨ns, hns, ?_⟩
  intro t ht u hu
  rw [Node.tokensAll_takeOver, List.head?_modifyHead, Option.mem_def.1 ht] at hu
  obtain rfl := Option.some.inj hu
  exact breaksLine_mergeTrivia keyword.leading t.leading

/-- Each token of what conversion gives stands in its place, with the tokens it replaces: keywords
that are dropped, and names of types that give way. In front of it stands a line break if and only
if there is one in front of the first of these, or in or behind a comment in front of a later one
or of the token itself. -/
theorem Node.opensLine_toSyncAll {ns ms : List Node} (h : Node.toSyncAll types member ns = .ok ms) :
    let places := Edit.places [] (Node.editsAll types ns)
    Node.tokensAll ms = places.filterMap (·.edit.outcome) ∧
    (Node.EveryOf Node.IsFilled ns → places.flatMap Place.replaced =
      Edit.tokens ((Node.editsAll types ns).filter (·.fate = .replaced))) ∧
    ∀ p ∈ places, ∃ taken u, p.TakenBy (Node.EveryOf Node.IsFilled ns) taken u ∧
      (taken ≠ [] → u.opensLine = true → (∃ d ∈ p.replaced, d.opensLine = true) ∨
        (breaksAtComment p.edit.token.leading = true ∧
          (IsTrivia p.edit.token.leading → comments p.edit.token.leading ≠ []))) := by
  have hs : Script types (Node.EveryOf Node.IsFilled ns) (Node.editsAll types ns) :=
    Node.script_editsAll types ns id
  refine ⟨?_, ?_, ?_⟩
  · rw [Edit.outcomes_places]
    exact Node.tokens_toSyncAll ns ms h
  · intro hf
    have hstrict : Script types True (Node.editsAll types ns) :=
      Node.script_editsAll types ns fun _ => hf
    exact Edit.Accounts.replaced_places [] hstrict.accounts
  · intro p hp
    obtain ⟨taken, text, hfate, hsub, hall⟩ := Edit.Accounts.places [] hs.accounts p hp
    let u : Token := ⟨p.edit.token.kind, taken.foldr mergeTrivia p.edit.token.leading, text⟩
    have hu : p.TakenBy (Node.EveryOf Node.IsFilled ns) taken u :=
      { outcome := by simp [Edit.outcome, hfate, u]
        sublist := hsub
        all := hall
        untouched := by
          rintro rfl
          rfl
        opensLine := by
          rintro dropped later rfl
          exact breaksLine_foldr_mergeTrivia dropped later p.edit.token.leading }
    exact ⟨taken, u, hu, hu.exists_opensLine⟩

/-- Two keywords go, each with a line break behind it, and the one in front of the first stays. -/
theorem Node.nested_awaits_opensLine :
    let ns : List Node := [.await (.identifier "\n" "await")
      [.await (.identifier " /* a */ " "await") [.token (.identifier "\n" "x")]]]
    let ms : List Node := [.token (.identifier "\n/* a */ " "x")]
    let places := Edit.places [] (Node.editsAll {} ns)
    Node.toSyncAll {} "f" ns = .ok ms ∧
      Node.tokensAll ms = places.filterMap (·.edit.outcome) ∧
      places.flatMap Place.replaced =
        [.identifier "\n" "await", .identifier " /* a */ " "await"] ∧
      ∀ p ∈ places, ∃ taken u, p.TakenBy True taken u := by
  intro ns ms places
  have h : Node.toSyncAll {} "f" ns = .ok ms := by rfl
  have hfilled : Node.EveryOf Node.IsFilled ns := by
    simp [ns, Node.EveryOf, Node.Every, Node.IsFilled]
  obtain ⟨houtcomes, hreplaced, htaken⟩ := Node.opensLine_toSyncAll h
  refine ⟨h, houtcomes, hreplaced hfilled, ?_⟩
  intro p hp
  obtain ⟨taken, u, hu, -⟩ := htaken p hp
  rw [eq_true hfilled] at hu
  exact ⟨taken, u, hu⟩

/-- A line break behind a comment behind the keyword ends up behind `return`. -/
theorem SourceFile.not_opensLine_of_replaced : ¬ ∀ (name source : String) (f : SourceFile)
    (ms : List Node), SourceFile.ofSource name source = .ok f →
    Node.toSyncAll {} "f" f.nodes = .ok ms →
      ∀ p ∈ Edit.places [] (Node.editsAll {} f.nodes), ∀ u, p.edit.outcome = some u →
        p.replaced ≠ [] → u.opensLine = true → ∃ d ∈ p.replaced, d.opensLine = true := by
  intro hall
  have hbreak : ((SourceFile.ofSource "a.ts" "return await /* c */\n x;").toOption.map fun f =>
      ((Node.toSyncAll {} "f" f.nodes).toOption.map Node.sourceAll,
        (Edit.places [] (Node.editsAll {} f.nodes)).any fun p => !p.replaced.isEmpty &&
          p.edit.outcome.any Token.opensLine && !p.replaced.any Token.opensLine)) =
            some (some "return /* c */\n x;", true) := by
    decide +kernel
  cases hf : SourceFile.ofSource "a.ts" "return await /* c */\n x;" with
  | error fault => simp [hf, Except.toOption] at hbreak
  | ok f =>
    rw [hf] at hbreak
    obtain ⟨hconverts, hplace⟩ := Prod.mk.inj (Option.some.inj hbreak)
    obtain ⟨ms, hms, -⟩ := Option.map_eq_some_iff.1 hconverts
    obtain ⟨p, hp, hp'⟩ := List.any_eq_true.1 hplace
    simp only [Bool.and_eq_true, Bool.not_eq_true', Option.any_eq_true] at hp'
    obtain ⟨⟨hne, u, hu, hopens⟩, hnone⟩ := hp'
    obtain ⟨d, hd, hbreaks⟩ := hall _ _ f ms hf (toOption_eq_some_iff.1 hms) p hp u hu
      (by simpa using hne) hopens
    have hsome := List.any_eq_true.2 ⟨d, hd, hbreaks⟩
    rw [hnone] at hsome
    cases hsome

end

end TwinClasses
