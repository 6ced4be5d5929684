import TwinClasses.Proofs.Lexing.Skipping
import TwinClasses.Proofs.Noise.Words

set_option autoImplicit false

/-! Words with whitespace, comments and trailing commas between them. What is taken out of such a
text are the comments and the trailing commas; the words stay as they are. -/

namespace TwinClasses.Json

def isClosing (c : Char) : Bool := c = ']' || c = '\x7d'

theorem not_isBlank_of_isClosing {c : Char} (h : isClosing c) : Text.isBlank c = false := by
  simp only [isClosing, Bool.or_eq_true, decide_eq_true_eq] at h
  obtain rfl | rfl := h <;> decide

/-- The text does not start with a closing bracket, blanks aside, so a comma before it stays. -/
def StaysOpen (cs : List Char) : Prop :=
  ∀ c ∈ (cs.dropWhile Text.isBlank).head?, isClosing c = false

/-! What becomes of a text that starts with a blank, a comment, a string or a comma. -/

theorem commentLength?_body {body : List Char} (h : ¬['*', '/'] <:+: body) (cs : List Char) :
    Scan.commentLength? (body ++ '*' :: '/' :: cs) = some (body.length + 2) := by
  induction body with
  | nil => rfl
  | cons c body ih =>
    have hbody : ¬['*', '/'] <:+: body := fun hb => h (List.infix_cons hb)
    rw [List.cons_append, Scan.commentLength?.eq_3, ih hbody]
    · rfl
    · rintro ds rfl hds
      cases body with
      | nil => cases hds
      | cons d body =>
        obtain ⟨rfl, -⟩ := List.cons.inj hds
        exact h ⟨[], body, rfl⟩

section

variable {c : Char} {g cs : List Char}

theorem withoutNoise_cons (hq : c ≠ '"') (hs : c ≠ '/') (hc : c ≠ ',') (cs : List Char) :
    withoutNoise (c :: cs) = c :: withoutNoise cs := by
  rw [withoutNoise.eq_6]
  · exact hq
  · exact fun _ h _ => hs h
  · exact fun _ h _ => hs h
  · exact hc

theorem withoutNoise_blank (h : Text.isBlank c) (cs : List Char) :
    withoutNoise (c :: cs) = c :: withoutNoise cs := by
  apply withoutNoise_cons <;>
  · rintro rfl
    exact absurd h (by decide)

theorem withoutNoise_blanks (h : ∀ c ∈ g, Text.isBlank c) (cs : List Char) :
    withoutNoise (g ++ cs) = g ++ withoutNoise cs := by
  induction g with
  | nil => rfl
  | cons c g ih =>
    obtain ⟨hc, hg⟩ := List.forall_mem_cons.1 h
    rw [List.cons_append, withoutNoise_blank hc, ih hg, List.cons_append]

theorem withoutNoise_of_blanks (h : ∀ c ∈ g, Text.isBlank c) : withoutNoise g = g := by
  have hg := withoutNoise_blanks h []
  rwa [List.append_nil, withoutNoise, List.append_nil] at hg

theorem withoutNoise_plain (h : isPlain c) (cs : List Char) :
    withoutNoise (c :: cs) = c :: withoutNoise cs := by
  simp only [isPlain, Bool.and_eq_true, decide_eq_true_eq] at h
  exact withoutNoise_cons h.1.1.2 h.1.2 h.2 cs

theorem withoutNoise_comma (h : StaysOpen cs) :
    withoutNoise (',' :: cs) = ',' :: withoutNoise cs := by
  rw [withoutNoise]
  split
  · rfl
  · rename_i c rest hcs
    have hc := h c (by rw [hcs]; rfl)
    rw [if_neg (by simpa [isClosing] using hc)]

theorem withoutNoise_trailing (hg : ∀ c ∈ g, Text.isBlank c) (hc : isClosing c) (cs : List Char) :
    withoutNoise (',' :: (g ++ c :: cs)) = g ++ c :: withoutNoise cs := by
  have hdrop : (g ++ c :: cs).dropWhile Text.isBlank = c :: cs := by
    rw [List.dropWhile_append_of_pos hg,
      List.dropWhile_cons_of_neg (by simp [not_isBlank_of_isClosing hc])]
  have htake : (g ++ c :: cs).takeWhile Text.isBlank = g := by
    rw [List.takeWhile_append_of_pos hg,
      List.takeWhile_cons_of_neg (by simp [not_isBlank_of_isClosing hc]), List.append_nil]
  rw [withoutNoise]
  split
  · rename_i hnil
    rw [hdrop] at hnil
    cases hnil
  · rename_i d rest hcs
    obtain ⟨rfl, rfl⟩ := List.cons.inj (hdrop.symm.trans hcs)
    rw [if_pos (by simpa [isClosing] using hc), htake]

theorem withoutNoise_line {body : List Char} (h : '\n' ∉ body) (cs : List Char) :
    withoutNoise ('/' :: '/' :: (body ++ '\n' :: cs)) = withoutNoise ('\n' :: cs) := by
  rw [withoutNoise, List.dropWhile_append_of_pos, List.dropWhile_cons_of_neg (by simp)]
  intro c hc
  have hne : c ≠ '\n' := fun heq => h (heq ▸ hc)
  simpa using hne

theorem withoutNoise_lastLine {body : List Char} (h : '\n' ∉ body) :
    withoutNoise ('/' :: '/' :: body) = [] := by
  have hnil : body.dropWhile (· ≠ '\n') = [] := by
    rw [List.dropWhile_eq_nil_iff]
    intro c hc
    have hne : c ≠ '\n' := fun heq => h (heq ▸ hc)
    simpa using hne
  rw [withoutNoise, hnil, withoutNoise]

theorem withoutNoise_block {body : List Char} (h : ¬['*', '/'] <:+: body) (cs : List Char) :
    withoutNoise ('/' :: '*' :: (body ++ '*' :: '/' :: cs)) = withoutNoise cs := by
  rw [withoutNoise, commentLength?_body h]
  simp

theorem stringLength?_append {body : List Char} {n : Nat} (h : stringLength? body = some n)
    (cs : List Char) : stringLength? (body ++ cs) = some n := by
  fun_induction stringLength? body generalizing n with
  | case1 | case3 => cases h
  | case2 body => simpa [stringLength?] using h
  | case4 => cases h
  | case5 c body hc ih =>
    obtain ⟨m, hm, rfl⟩ := Option.map_eq_some_iff.1 h
    rw [List.cons_append, List.cons_append, stringLength?, if_neg hc, ih hm]
    rfl
  | case6 c body hq hlast hback ih =>
    have hb : c ≠ '\\' := fun hb => by
      cases body with
      | nil => exact hlast hb rfl
      | cons d body => exact hback d body hb rfl
    obtain ⟨m, hm, rfl⟩ := Option.map_eq_some_iff.1 h
    rw [List.cons_append, stringLength?_cons hq hb, ih hm]
    rfl

theorem withoutNoise_string {body : List Char} (h : stringLength? body = some body.length)
    (cs : List Char) :
    withoutNoise ('"' :: (body ++ cs)) = '"' :: (body ++ withoutNoise cs) := by
  rw [withoutNoise, stringLength?_append h]
  simp

/-- A word stays as it is, if it is no comma with a closing bracket after it. -/
theorem withoutNoise_word {w : List Char} (hw : IsWord w) (h : w = [','] → StaysOpen cs) :
    withoutNoise (w ++ cs) = w ++ withoutNoise cs := by
  cases hw with
  | comma => exact withoutNoise_comma (h rfl)
  | string hlen => exact withoutNoise_string hlen cs
  | @plain c ds hplain =>
    clear h
    generalize c :: ds = w at hplain
    induction w with
    | nil => rfl
    | cons c w ih =>
      obtain ⟨hc, hw⟩ := List.forall_mem_cons.1 hplain
      rw [List.cons_append, withoutNoise_plain hc, ih hw, List.cons_append]

end

/-- Characters that count as whitespace: a line feed is one of them, and all of them are blank. -/
structure IsWhitespace (blank : Char → Bool) : Prop where
  lineFeed : blank '\n'
  isBlank : ∀ c, blank c → Text.isBlank c

theorem IsWhitespace.isBlank_of_mem {blank : Char → Bool} (h : IsWhitespace blank) {g : List Char}
    (hg : ∀ c ∈ g, blank c) : ∀ c ∈ g, Text.isBlank c := fun c hc => h.isBlank c (hg c hc)

/-- Whitespace and comments. A line comment goes on to its line feed, which it only lacks at the end
of the text; a block comment goes on to the first mark that closes it. -/
inductive Gap (blank : Char → Bool) (final : Bool) : List Char → Prop where
  | nil : Gap blank final []
  | blank {c : Char} {cs : List Char} : blank c → Gap blank final cs → Gap blank final (c :: cs)
  | line (body : List Char) {cs : List Char} : '\n' ∉ body → Gap blank final cs →
    Gap blank final ('/' :: '/' :: (body ++ '\n' :: cs))
  | block (body : List Char) {cs : List Char} : ¬['*', '/'] <:+: body → Gap blank final cs →
    Gap blank final ('/' :: '*' :: (body ++ '*' :: '/' :: cs))
  | lastLine {body : List Char} : final → '\n' ∉ body → Gap blank final ('/' :: '/' :: body)

def Blanks (blank : Char → Bool) (_ : Bool) (g : List Char) : Prop := ∀ c ∈ g, blank c

/-- The text of the words, in order, with gaps around them, and, if `extra`, with commas before
closing brackets that are no words. -/
inductive Laid (gap : Bool → List Char → Prop) (extra : Bool) : List (List Char) → List Char → Prop
  where
  | last {g : List Char} : gap true g → Laid gap extra [] g
  | word {g w cs : List Char} {ws : List (List Char)} : gap false g → Laid gap extra ws cs →
    Laid gap extra (w :: ws) (g ++ (w ++ cs))
  | comma {g h cs : List Char} {c : Char} {ws : List (List Char)} : extra → gap false g →
    gap false h → isClosing c → Laid gap extra ws cs →
    Laid gap extra ([c] :: ws) (g ++ ',' :: (h ++ c :: cs))

section

variable {blank : Char → Bool} {final extra : Bool} {g cs : List Char} {ws : List (List Char)}

theorem StaysOpen.blanks (hg : ∀ c ∈ g, Text.isBlank c) (h : StaysOpen cs) :
    StaysOpen (g ++ cs) := by
  rwa [StaysOpen, List.dropWhile_append_of_pos hg]

theorem staysOpen_of_head {c : Char} (hb : Text.isBlank c = false) (hc : isClosing c = false)
    (cs : List Char) : StaysOpen (c :: cs) := by
  rw [StaysOpen, List.dropWhile_cons_of_neg (by simp [hb])]
  simpa using hc

/-- A comment keeps a comma before it from being a trailing one. -/
theorem Gap.blanks_or_staysOpen (hblank : IsWhitespace blank) (h : Gap blank final g) :
    (∀ c ∈ g, blank c) ∨ ∀ cs, StaysOpen (g ++ cs) := by
  induction h with
  | nil => exact Or.inl (by simp)
  | @blank c g hc _ ih =>
    refine ih.imp (fun hg => List.forall_mem_cons.2 ⟨hc, hg⟩) fun hg cs => ?_
    exact StaysOpen.blanks (g := [c]) (by simpa using hblank.isBlank c hc) (hg cs)
  | line | block | lastLine =>
    exact Or.inr fun cs => staysOpen_of_head (by decide) (by decide) _

theorem Gap.staysOpen (hblank : IsWhitespace blank) (h : Gap blank final g) (hcs : StaysOpen cs) :
    StaysOpen (g ++ cs) := by
  obtain hg | hg := h.blanks_or_staysOpen hblank
  · exact hcs.blanks (hblank.isBlank_of_mem hg)
  · exact hg cs

theorem Gap.withoutNoise_eq (hblank : IsWhitespace blank) (h : Gap blank final g) :
    ∃ b, (∀ c ∈ b, blank c) ∧
      ∀ cs, (final → cs = []) → withoutNoise (g ++ cs) = b ++ withoutNoise cs := by
  induction h with
  | nil => exact ⟨[], by simp, fun _ _ => rfl⟩
  | @blank c g hc _ ih =>
    obtain ⟨b, hb, heq⟩ := ih
    refine ⟨c :: b, List.forall_mem_cons.2 ⟨hc, hb⟩, fun cs hcs => ?_⟩
    rw [List.cons_append, withoutNoise_blank (hblank.isBlank c hc), heq cs hcs, List.cons_append]
  | @line body g hbody _ ih =>
    obtain ⟨b, hb, heq⟩ := ih
    refine ⟨'\n' :: b, List.forall_mem_cons.2 ⟨hblank.lineFeed, hb⟩, fun cs hcs => ?_⟩
    have hlf := withoutNoise_blank (hblank.isBlank '\n' hblank.lineFeed) (g ++ cs)
    have hline := withoutNoise_line hbody (g ++ cs)
    simpa [hlf, heq cs hcs] using hline
  | @block body g hbody _ ih =>
    obtain ⟨b, hb, heq⟩ := ih
    refine ⟨b, hb, fun cs hcs => ?_⟩
    have hblock := withoutNoise_block hbody (g ++ cs)
    simpa [heq cs hcs] using hblock
  | @lastLine body hfinal hbody =>
    refine ⟨[], by simp, fun cs hcs => ?_⟩
    obtain rfl := hcs hfinal
    rw [List.append_nil, withoutNoise_lastLine hbody, withoutNoise]
    rfl

theorem Gap.of_blanks (h : ∀ c ∈ g, blank c) : Gap blank final g := by
  induction g with
  | nil => exact .nil
  | cons c g ih =>
    obtain ⟨hc, hg⟩ := List.forall_mem_cons.1 h
    exact .blank hc (ih hg)

theorem Laid.of_blanks (h : Laid (Blanks blank) extra ws cs) : Laid (Gap blank) extra ws cs := by
  induction h with
  | last hg => exact .last (.of_blanks hg)
  | word hg _ ih => exact .word (.of_blanks hg) ih
  | comma hextra hg hh hc _ ih => exact .comma hextra (.of_blanks hg) (.of_blanks hh) hc ih

/-- Words of which no comma has a closing bracket right after it. -/
structure WellPlaced (ws : List (List Char)) : Prop where
  isWord : ∀ w ∈ ws, IsWord w
  chain : ws.IsChain fun w v => w = [','] → ∀ c cs, v = c :: cs → isClosing c = false

theorem WellPlaced.tail {w : List Char} (h : WellPlaced (w :: ws)) : WellPlaced ws :=
  ⟨(List.forall_mem_cons.1 h.isWord).2, (List.isChain_cons.1 h.chain).2⟩

theorem IsWord.head {w : List Char} (h : IsWord w) :
    ∃ c cs, w = c :: cs ∧ Text.isBlank c = false := by
  cases h with
  | comma => exact ⟨_, _, rfl, by decide⟩
  | string => exact ⟨_, _, rfl, by decide⟩
  | @plain c cs h =>
    have hc := (List.forall_mem_cons.1 h).1
    simp only [isPlain, Bool.and_eq_true, Bool.not_eq_true'] at hc
    exact ⟨c, cs, rfl, hc.1.1.1⟩

/-- A comma among the words is followed by a word that is no closing bracket. -/
theorem Laid.staysOpen (hblank : IsWhitespace blank) (h : Laid (Gap blank) extra ws cs)
    (hws : WellPlaced ([','] :: ws)) : StaysOpen cs := by
  cases h with
  | last hg =>
    have hend : StaysOpen [] := by simp [StaysOpen]
    simpa using hg.staysOpen hblank hend
  | @word g w cs ws hg _ =>
    obtain ⟨c, ds, rfl, hc⟩ := (hws.tail.isWord w (by simp)).head
    have hopen := (List.isChain_cons.1 hws.chain).1 (c :: ds) rfl rfl c ds rfl
    exact hg.staysOpen hblank (staysOpen_of_head hc hopen _)
  | @comma g h cs c ws _ hg hh hc _ =>
    have hopen := (List.isChain_cons.1 hws.chain).1 [c] rfl rfl c [] rfl
    rw [hc] at hopen
    cases hopen

theorem Laid.withoutNoise_append {w : List Char} (hblank : IsWhitespace blank)
    (h : Laid (Gap blank) extra ws cs) (hws : WellPlaced (w :: ws)) :
    withoutNoise (w ++ cs) = w ++ withoutNoise cs :=
  withoutNoise_word (hws.isWord w (by simp)) fun hw => by
    subst hw
    exact h.staysOpen hblank hws

/-- Once over the text, the comments are gone, and the trailing commas that have none behind them. -/
theorem Laid.withoutComments (hblank : IsWhitespace blank) (h : Laid (Gap blank) extra ws cs)
    (hws : WellPlaced ws) : Laid (Blanks blank) extra ws (withoutNoise cs) := by
  induction h with
  | last hg =>
    obtain ⟨b, hb, heq⟩ := hg.withoutNoise_eq hblank
    have hlast := heq [] fun _ => rfl
    rw [List.append_nil] at hlast
    rw [hlast, withoutNoise, List.append_nil]
    exact .last hb
  | word hg hcs ih =>
    obtain ⟨b, hb, heq⟩ := hg.withoutNoise_eq hblank
    rw [heq _ (by simp), hcs.withoutNoise_append hblank hws]
    exact .word hb (ih hws.tail)
  | @comma g h cs c ws hextra hg hh hc hcs ih =>
    obtain ⟨b, hb, heq⟩ := hg.withoutNoise_eq hblank
    rw [heq _ (by simp)]
    -- Behind a comment the bracket is not seen yet, so the comma stays for the next time.
    obtain hblanks | hopen := hh.blanks_or_staysOpen hblank
    · rw [withoutNoise_trailing (hblank.isBlank_of_mem hblanks) hc,
        ← List.append_assoc]
      exact .word (List.forall_mem_append.2 ⟨hb, hblanks⟩) (ih hws.tail)
    · obtain ⟨b', hb', heq'⟩ := hh.withoutNoise_eq hblank
      have hclosing : withoutNoise (c :: cs) = c :: withoutNoise cs :=
        hcs.withoutNoise_append hblank hws
      rw [withoutNoise_comma (hopen _), heq' _ (by simp), hclosing]
      exact .comma hextra hb hb' hc (ih hws.tail)

/-- Once over a text without comments, the trailing commas are gone. -/
theorem Laid.withoutCommas (hblank : IsWhitespace blank) (h : Laid (Blanks blank) extra ws cs)
    (hws : WellPlaced ws) : Laid (Blanks blank) false ws (withoutNoise cs) := by
  induction h with
  | last hg =>
    rw [withoutNoise_of_blanks (hblank.isBlank_of_mem hg)]
    exact .last hg
  | word hg hcs ih =>
    rw [withoutNoise_blanks (hblank.isBlank_of_mem hg),
      hcs.of_blanks.withoutNoise_append hblank hws]
    exact .word hg (ih hws.tail)
  | comma _ hg hh hc _ ih =>
    rw [withoutNoise_blanks (hblank.isBlank_of_mem hg),
      withoutNoise_trailing (hblank.isBlank_of_mem hh) hc, ← List.append_assoc]
    exact .word (List.forall_mem_append.2 ⟨hg, hh⟩) (ih hws.tail)

/-- There is nothing to take out of words with whitespace between them. -/
theorem Laid.withoutNoise_eq_self (hblank : IsWhitespace blank)
    (h : Laid (Blanks blank) false ws cs) (hws : WellPlaced ws) : withoutNoise cs = cs := by
  induction h with
  | last hg => exact withoutNoise_of_blanks (hblank.isBlank_of_mem hg)
  | word hg hcs ih =>
    rw [withoutNoise_blanks (hblank.isBlank_of_mem hg),
      hcs.of_blanks.withoutNoise_append hblank hws, ih hws.tail]
  | comma hextra => cases hextra

end

end TwinClasses.Json
