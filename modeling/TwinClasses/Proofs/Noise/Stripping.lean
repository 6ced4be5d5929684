import TwinClasses.Project.Configuration
import TwinClasses.Proofs.Noise.Layouts

set_option autoImplicit false

/-! Comments and trailing commas have no effect: a text that is decorated with them is stripped to
the words it had without them, so it configures the same project. -/

namespace TwinClasses.Json

/-- The text is one JSON value. -/
def IsValid (text : String) : Prop := skip [] (.value false) (tokens text.toList) = .ok []

theorem sound_tokens {text : String} (h : IsValid text) : Sound (tokens text.toList) :=
  (fits_of_skip h).sound

section

variable {blank : Char → Bool} {extra : Bool} {w cs : List Char} {ws : List (List Char)}
  {t : Token} {ts : List Token}

theorem Spells.readToken_eq {c : Char} (h : Spells (c :: w) t) : readToken c w = (t, []) := by
  obtain ⟨_, _, heq, -, hread⟩ := h.read
  obtain ⟨rfl, rfl⟩ := List.cons.inj heq
  simpa using hread [] fun _ => by simp [EndsNumber]

theorem Spells.eq_comma (h : Spells [','] t) : t = .comma :=
  (Prod.mk.inj h.readToken_eq).1.symm

theorem Spells.isClosing {c : Char} (h : Spells (c :: w) t) (hc : Json.isClosing c) :
    t.isClosing := by
  have ht := h.readToken_eq
  simp only [Json.isClosing, Bool.or_eq_true, decide_eq_true_eq] at hc
  obtain rfl | rfl := hc
  · obtain ⟨rfl, -⟩ := Prod.mk.inj ht
    rfl
  · obtain ⟨rfl, -⟩ := Prod.mk.inj ht
    rfl

theorem wellPlaced_of_spells (h : List.Forall₂ Spells ws ts) (hts : Sound ts) : WellPlaced ws := by
  induction h with
  | nil => exact ⟨by simp, .nil⟩
  | @cons w t ws ts hw hws ih =>
    obtain ⟨hword, hchain⟩ := ih hts.tail
    refine ⟨List.forall_mem_cons.2 ⟨hw.isWord, hword⟩, List.isChain_cons.2 ⟨?_, hchain⟩⟩
    rintro v hv rfl c cs rfl
    cases hws with
    | nil => cases hv
    | @cons v u ws ts hu _ =>
      obtain rfl : v = c :: cs := by simpa using hv
      have hopen : u.isClosing = false := (hts.head u rfl).comma hw.eq_comma
      rw [← Bool.not_eq_true]
      intro hc
      rw [hu.isClosing hc] at hopen
      cases hopen

theorem Laid.cons_blank {c : Char} (h : Laid (Blanks blank) extra ws cs) (hc : blank c) :
    Laid (Blanks blank) extra ws (c :: cs) := by
  have cons {g : List Char} (hg : ∀ d ∈ g, blank d) : ∀ d ∈ c :: g, blank d :=
    List.forall_mem_cons.2 ⟨hc, hg⟩
  cases h with
  | last hg => exact .last (cons hg)
  | word hg hcs => exact .word (g := c :: _) (cons hg) hcs
  | comma hextra hg hh hclosing hcs => exact .comma (g := c :: _) hextra (cons hg) hh hclosing hcs

/-- Between the words of a text there is nothing but whitespace. -/
theorem laid_words (h : ∀ t ∈ tokens cs, t.isSound) :
    Laid (Blanks isBlank) false (words cs) cs := by
  induction cs using tokens.induct with
  | case1 =>
    rw [words]
    exact .last (by simp [Blanks])
  | case2 c cs hc ih =>
    rw [tokens, if_pos hc] at h
    rw [words, if_pos hc]
    exact (ih h).cons_blank hc
  | case3 c cs hc hlen ih =>
    rw [tokens, if_neg hc] at h
    obtain ⟨ht, hts⟩ := List.forall_mem_cons.1 h
    obtain ⟨w, hw, -⟩ :=
      spells_of_readToken (by simpa using hc) (Prod.eta (readToken c cs)).symm ht
    rw [words, if_neg hc, take_of_eq_append hw]
    have hlaid := Laid.word (g := []) (w := c :: w) (by simp [Blanks]) (ih hts)
    rwa [List.nil_append, List.cons_append, ← hw] at hlaid

theorem tokens_blanks {g : List Char} (hg : ∀ c ∈ g, isBlank c) (cs : List Char) :
    tokens (g ++ cs) = tokens cs := by
  induction g with
  | nil => rfl
  | cons c g ih =>
    obtain ⟨hc, hg⟩ := List.forall_mem_cons.1 hg
    rw [List.cons_append, tokens, if_pos hc, ih hg]

theorem isNumberPart_of_isBlank {c : Char} (h : isBlank c) : isNumberPart c = false := by
  simp only [isBlank, Bool.or_eq_true, decide_eq_true_eq] at h
  obtain ((rfl | rfl) | rfl) | rfl := h <;> decide

theorem EndsNumber.blanks {g : List Char} (hg : ∀ c ∈ g, isBlank c) (h : EndsNumber cs) :
    EndsNumber (g ++ cs) :=
  forall_head?_append (fun c hc => isNumberPart_of_isBlank (hg c (List.mem_of_mem_head? hc))) h

theorem Token.isSound_of_isSeparator (h : t.isSeparator) : t.isSound ∧ t.isOpenEnded = false := by
  cases t <;> simp_all [isSeparator, isClosing, isSound, isOpenEnded]

theorem isNumberPart_of_isSeparator {c : Char} {rest : List Char} (h : readToken c cs = (t, rest))
    (ht : t.isSeparator) : isNumberPart c = false := by
  unfold readToken at h
  split at h
  case h_12 =>
    split at h
    · obtain ⟨hsound, hclosed⟩ := Token.isSound_of_isSeparator ht
      obtain ⟨w, -, -, htakes⟩ := readNumber_takes h hsound
      rw [htakes.openEnded] at hclosed
      cases hclosed
    · obtain ⟨rfl, -⟩ := Prod.mk.inj h
      cases ht
  all_goals decide

theorem Spells.endsNumber (h : Spells w t) (ht : t.isSeparator) (rest : List Char) :
    EndsNumber (w ++ rest) := by
  obtain ⟨c, ds, rfl, -, hread⟩ := h.read
  intro d hd
  obtain rfl : c = d := by simpa using hd
  exact isNumberPart_of_isSeparator h.readToken_eq ht

/-- A number ends where the next word starts, or the whitespace before it. -/
theorem endsNumber_of_laid (h : Laid (Blanks isBlank) false ws cs) (hws : List.Forall₂ Spells ws ts)
    (hts : ∀ u ∈ ts.head?, u.isSeparator) : EndsNumber cs := by
  cases h with
  | last hg =>
    have hend : EndsNumber [] := by simp [EndsNumber]
    simpa using hend.blanks hg
  | word hg _ =>
    obtain _ | ⟨hw, -⟩ := hws
    exact .blanks hg (hw.endsNumber (hts _ rfl) _)
  | comma hextra => cases hextra

/-- Whatever whitespace stands between words, they are read as the same tokens. -/
theorem tokens_of_laid (h : Laid (Blanks isBlank) false ws cs) (hws : List.Forall₂ Spells ws ts)
    (hts : Sound ts) : tokens cs = ts := by
  induction h generalizing ts with
  | @last g hg =>
    cases hws
    simpa [tokens] using tokens_blanks hg []
  | @word g w cs ws hg hcs ih =>
    obtain _ | ⟨hw, hws⟩ := hws
    rename_i t ts
    obtain ⟨c, ds, rfl, hc, hread⟩ := hw.read
    have hends (ht : t.isOpenEnded) : EndsNumber cs :=
      endsNumber_of_laid hcs hws fun u hu => (hts.head u hu).openEnded ht
    rw [tokens_blanks hg, List.cons_append, tokens, if_neg (by simp [hc]), hread cs hends,
      ih hws hts.tail]
  | comma hextra => cases hextra

end

/-- Text with the words of `text` in order, and whitespace and comments before, between and after
them; before a closing bracket there may be a comma more, with whitespace and comments around it. -/
def IsDecorated (blank : Char → Bool) (text decorated : String) : Prop :=
  Laid (Gap blank) true (words text.toList) decorated.toList

/-- Text with the words of `text` in order and nothing else but whitespace. -/
def IsRespaced (blank : Char → Bool) (text respaced : String) : Prop :=
  Laid (Blanks blank) false (words text.toList) respaced.toList

theorem isWhitespace_isBlank : IsWhitespace isBlank where
  lineFeed := by decide
  isBlank c h := by
    simp only [isBlank, Bool.or_eq_true, decide_eq_true_eq] at h
    obtain ((rfl | rfl) | rfl) | rfl := h <;> decide

theorem isWhitespace_textIsBlank : IsWhitespace Text.isBlank :=
  ⟨by decide, fun _ h => h⟩

section

variable {blank : Char → Bool} {d text : String}

theorem IsValid.spells (h : IsValid d) :
    List.Forall₂ Spells (words d.toList) (tokens d.toList) :=
  words_spell (sound_tokens h).sound

theorem IsValid.wellPlaced (h : IsValid d) : WellPlaced (words d.toList) :=
  wellPlaced_of_spells h.spells (sound_tokens h)

theorem IsValid.isRespaced (h : IsValid d) : IsRespaced isBlank d d :=
  laid_words (sound_tokens h).sound

theorem stripNoise_of_isRespaced (hblank : IsWhitespace blank) (h : IsValid d)
    (ht : IsRespaced blank d text) : stripNoise text = text := by
  have heq := Laid.withoutNoise_eq_self hblank ht h.wellPlaced
  rw [stripNoise, heq, heq, String.ofList_toList]

/-- The comments go first; then all the commas are gone that are no words. -/
theorem isRespaced_stripNoise (hblank : IsWhitespace blank) (h : IsValid d)
    (ht : IsDecorated blank d text) : IsRespaced blank d (stripNoise text) := by
  have hcommas := Laid.withoutComments hblank ht h.wellPlaced
  rw [IsRespaced, stripNoise, String.toList_ofList]
  exact hcommas.withoutCommas hblank h.wellPlaced

theorem tokens_of_isRespaced (h : IsValid d) (ht : IsRespaced isBlank d text) :
    tokens text.toList = tokens d.toList :=
  tokens_of_laid ht h.spells (sound_tokens h)

/-- Valid JSON is stripped of nothing. Decorated with comments and trailing commas, it is stripped
to text with the same words and only whitespace between them; where that whitespace is JSON's own,
it configures the same project. -/
theorem stripNoise_decorated (d : String) (h : IsValid d) :
    stripNoise d = d ∧ IsRespaced isBlank d d ∧
      (∀ text, IsDecorated Text.isBlank d text → IsRespaced Text.isBlank d (stripNoise text)) ∧
      ∀ text, IsDecorated isBlank d text →
        Configuration.ofText text = Configuration.ofText d := by
  have hself := stripNoise_of_isRespaced isWhitespace_isBlank h h.isRespaced
  refine ⟨hself, h.isRespaced, fun text ht => isRespaced_stripNoise isWhitespace_textIsBlank h ht,
    fun text ht => ?_⟩
  have hrespaced := isRespaced_stripNoise isWhitespace_isBlank h ht
  rw [Configuration.ofText, Configuration.ofText, tokens_of_isRespaced h hrespaced, hself]

end

def fileList : String := "\x7b\"files\": [\"//,]\"]\x7d"

def decoratedFileList : String := "\x7b\"files\": /*\"*/ [\"//,]\" /*,*/ , // ]\n]\x7d"

theorem isDecorated_fileList {blank : Char → Bool} (hs : blank ' ') :
    IsDecorated blank fileList decoratedFileList := by
  have hwords : words fileList.toList = [['\x7b'], "\"files\"".toList, [':'], ['['],
      "\"//,]\"".toList, [']'], ['\x7d']] := by decide +kernel
  have htext : decoratedFileList.toList = [] ++ (['\x7b'] ++ ([] ++ ("\"files\"".toList ++ ([] ++
      ([':'] ++ (" /*\"*/ ".toList ++ (['['] ++ ([] ++ ("\"//,]\"".toList ++ (" /*,*/ ".toList ++
        ',' :: (" // ]\n".toList ++ ']' :: ([] ++ (['\x7d'] ++ []))))))))))))) := by decide
  have hquote : Gap blank false " /*\"*/ ".toList :=
    .blank hs (.block ['"'] (by decide) (.blank hs .nil))
  have hcomma : Gap blank false " /*,*/ ".toList :=
    .blank hs (.block [','] (by decide) (.blank hs .nil))
  have hline : Gap blank false " // ]\n".toList :=
    .blank hs (.line " ]".toList (by decide) .nil)
  rw [IsDecorated, hwords, htext]
  exact .word .nil (.word .nil (.word .nil (.word hquote (.word .nil
    (.comma rfl hcomma hline rfl (.word .nil (.last .nil)))))))

theorem decoratedFileList_stripped :
    IsValid fileList ∧ stripNoise fileList = fileList ∧
      IsRespaced Text.isBlank fileList (stripNoise decoratedFileList) ∧
      Configuration.ofText decoratedFileList = Configuration.ofText fileList := by
  have hvalid : IsValid fileList := by
    unfold IsValid
    decide +kernel
  obtain ⟨hself, -, hrespaced, hconfig⟩ := stripNoise_decorated fileList hvalid
  exact ⟨hvalid, hself, hrespaced _ (isDecorated_fileList rfl),
    hconfig _ (isDecorated_fileList rfl)⟩

end TwinClasses.Json
