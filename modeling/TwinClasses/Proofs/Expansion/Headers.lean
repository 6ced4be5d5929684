import Mathlib.Data.List.Infix
import TwinClasses.Syntax.Query
import TwinClasses.Proofs.Conversion.Erasure
import TwinClasses.Proofs.Expansion.Wrapping

set_option autoImplicit false

/-! Comments in the headers of template members. A generated member has the trivia in front of its
template, but what stood in front of its own first token is cleared, whatever came before that token
in the template; so do the names behind a `*`. Comments there are lost, and with them those in front
of tokens that are taken out. -/

namespace TwinClasses

/-! Comments are parts of the text they stand in. -/

theorem Text.isInfix_of_comment (mark : List Char) {cs : List Char} (n : Nat)
    {xs : List (List Char)} (h : ∀ x ∈ xs, x <:+: cs.drop n) :
    ∀ x ∈ (mark ++ cs.take n) :: xs, x <:+: mark ++ cs := by
  refine List.forall_mem_cons.2 ⟨?_, ?_⟩
  · exact ((List.prefix_append_right_inj mark).2 (List.take_prefix n cs)).isInfix
  · intro x hx
    have hdrop : cs.drop n <:+ mark ++ cs := (List.drop_suffix n cs).trans (List.suffix_append _ _)
    exact (h x hx).trans hdrop.isInfix

theorem Text.isInfix_of_mem_comments? {cs : List Char} {xs : List (List Char)}
    (h : comments? cs = some xs) : ∀ x ∈ xs, x <:+: cs := by
  fun_induction comments? cs generalizing xs with
  | case1 =>
    cases h
    simp
  | case2 cs hn => cases h
  | case3 cs hn ih =>
    obtain ⟨ys, hys, rfl⟩ := Option.map_eq_some_iff.1 h
    exact isInfix_of_comment ['/', '/'] (lineLength cs) (ih hys)
  | case4 cs hn => cases h
  | case5 cs n hn ih =>
    obtain ⟨ys, hys, rfl⟩ := Option.map_eq_some_iff.1 h
    exact isInfix_of_comment ['/', '*'] n (ih hys)
  | case6 c cs hl hb hc ih => exact fun x hx => (ih h x hx).trans (List.suffix_cons c cs).isInfix
  | case7 c cs hl hb hc => cases h

theorem Text.isInfix_of_mem_comments {c : List Char} {s : String} (h : c ∈ comments s) :
    c <:+: s.toList := by
  unfold comments at h
  cases hs : comments? s.toList with
  | none => simp [hs] at h
  | some xs => exact isInfix_of_mem_comments? hs c (by simpa [hs] using h)

namespace Token

theorem isInfix_sourceOf {t : Token} {ts : List Token} (h : t ∈ ts) :
    t.leading.toList <:+: (sourceOf ts).toList := by
  obtain ⟨before, after, rfl⟩ := List.append_of_mem h
  rw [sourceOf_append, sourceOf_cons, source]
  simp only [String.toList_append]
  exact ⟨(sourceOf before).toList, t.text.toList ++ (sourceOf after).toList, by simp⟩

/-- Trivia put in front of some tokens is printed, and so is their own. -/
theorem isInfix_sourceOf_withTrivia (leading : String) {ts : List Token} {t : Token} (h : t ∈ ts) :
    leading.toList <:+: (sourceOf (withTrivia leading ts)).toList ∧
      t.leading.toList <:+: (sourceOf (withTrivia leading ts)).toList := by
  cases ts with
  | nil => cases h
  | cons u us =>
    have hfirst : (leading ++ u.leading).toList <:+:
        (sourceOf (withTrivia leading (u :: us))).toList :=
      isInfix_sourceOf (t := u.ledBy (leading ++ u.leading)) List.mem_cons_self
    rw [String.toList_append] at hfirst
    refine ⟨(List.prefix_append _ _).isInfix.trans hfirst, ?_⟩
    cases List.mem_cons.1 h with
    | inl h =>
      rw [h]
      exact (List.suffix_append _ _).isInfix.trans hfirst
    | inr h => exact isInfix_sourceOf (List.mem_cons_of_mem _ h)

end Token

/-! Headers. -/

/-- The trivia in front of a member, and the tokens up to its name with trivia of their own. -/
structure Header where
  leading : String
  tokens : List Token

def Header.comments (h : Header) : List (List Char) :=
  Text.comments h.leading ++ Token.commentsOf h.tokens

def Method.header (m : Method) : Header :=
  ⟨m.leading, m.decorators.map Clause.mark ++ m.modifiers ++ m.asterisk.toList ++ [m.name.first]⟩

def Getter.header (g : Getter) : Header :=
  ⟨g.leading, g.decorators.map Clause.mark ++ g.modifiers ++ [g.keyword, g.name.first]⟩

def Member.header? : Member → Option Header
  | .method m => some m.header
  | .getter g => some g.header
  | .other _ => none

/-- The comments of a member's header, if it has one. -/
def Member.headerComments (m : Member) : List (List Char) :=
  match m.header? with
  | some h => h.comments
  | none => []

theorem MemberName.first_mem_tokens (n : MemberName) : n.first ∈ n.tokens := by
  cases n with
  | computed g =>
    obtain ⟨d, opening, children, closing⟩ := g
    simp [first, tokens, Group.tokens]
  | identifier t => simp [first, tokens]
  | literal t => simp [first, tokens]

theorem Clause.marks_subset (cs : List Clause) : cs.map mark ⊆ Clause.tokensAll cs := by
  induction cs with
  | nil => simp
  | cons c cs ih =>
    obtain ⟨mark, content⟩ := c
    rw [List.map_cons, Clause.tokensAll, Clause.tokens]
    exact List.cons_subset.2 ⟨by simp, fun t ht => List.mem_append_right _ (ih ht)⟩

theorem Header.isInfix_of_mem_comments (leading : String) {header printed : List Token}
    (hs : header ⊆ printed) (hne : header ≠ []) {c : List Char}
    (hc : c ∈ Header.comments ⟨leading, header⟩) :
    c <:+: (Token.sourceOf (Token.withTrivia leading printed)).toList := by
  cases List.mem_append.1 hc with
  | inl hc =>
    obtain ⟨t, ht⟩ := List.exists_mem_of_ne_nil _ hne
    exact (Text.isInfix_of_mem_comments hc).trans
      (Token.isInfix_sourceOf_withTrivia leading (hs ht)).1
  | inr hc =>
    obtain ⟨t, ht, hc⟩ := List.mem_flatMap.1 hc
    exact (Text.isInfix_of_mem_comments hc).trans
      (Token.isInfix_sourceOf_withTrivia leading (hs ht)).2

theorem Method.isInfix_of_mem_header {m : Method} {c : List Char} (h : c ∈ m.header.comments) :
    c <:+: m.source.toList := by
  obtain ⟨leading, decorators, modifiers, asterisk, name, question, typeParameters, parameters,
    returnType, body, terminator⟩ := m
  rw [source, tokens]
  refine Header.isInfix_of_mem_comments leading ?_ ?_ h
  · intro t ht
    simp only [List.mem_append, List.mem_singleton] at ht ⊢
    obtain ((ht | ht) | ht) | rfl := ht
    · simp [Clause.marks_subset _ ht]
    · simp [ht]
    · simp [ht]
    · simp [name.first_mem_tokens]
  · simp

theorem Getter.isInfix_of_mem_header {g : Getter} {c : List Char} (h : c ∈ g.header.comments) :
    c <:+: (Token.sourceOf g.tokens).toList := by
  obtain ⟨leading, decorators, modifiers, keyword, name, parameters, returnType, body,
    terminator⟩ := g
  rw [tokens]
  refine Header.isInfix_of_mem_comments leading ?_ ?_ h
  · intro t ht
    simp only [List.mem_append, List.mem_cons, List.not_mem_nil, or_false] at ht ⊢
    obtain (ht | ht) | rfl | rfl := ht
    · simp [Clause.marks_subset _ ht]
    · simp [ht]
    · simp
    · simp [name.first_mem_tokens]
  · simp

/-- What stands in a header is printed. -/
theorem Member.isInfix_of_mem_headerComments {m : Member} {c : List Char}
    (hc : c ∈ m.headerComments) : c <:+: m.source.toList := by
  cases m with
  | method m => exact Method.isInfix_of_mem_header hc
  | getter g => exact Getter.isInfix_of_mem_header hc
  | other ns => cases hc

/-! Spacing of headers. -/

theorem Text.comments_of_allBlank {s : String} (h : allBlank s = true) : comments s = [] := by
  suffices hs : ∀ cs : List Char, cs.all isBlank = true → comments? cs = some [] by
    rw [comments, hs _ h]
    rfl
  intro cs hcs
  induction cs with
  | nil => simp [comments?]
  | cons c cs ih =>
    rw [List.all_cons, Bool.and_eq_true] at hcs
    rw [comments?_blank hcs.1, ih hcs.2]

@[simp] theorem Text.comments_empty : comments "" = [] := by simp [comments, comments?]

namespace Token

@[simp] theorem commentsOf_nil : commentsOf [] = [] := rfl

@[simp] theorem commentsOf_cons (t : Token) (ts : List Token) :
    commentsOf (t :: ts) = Text.comments t.leading ++ commentsOf ts := by
  simp [commentsOf]

@[simp] theorem commentsOf_append (ts us : List Token) :
    commentsOf (ts ++ us) = commentsOf ts ++ commentsOf us := by
  simp [commentsOf]

theorem comments_ledBy (leading : String) (t : Token) :
    Text.comments (t.ledBy leading).leading = Text.comments leading := rfl

theorem comments_spaced (t : Token) : Text.comments t.spaced.leading = Text.comments t.leading := by
  unfold spaced isAttached
  split
  · rename_i h
    have hblank : Text.comments " " = [] := Text.comments_of_allBlank (by decide)
    rw [String.isEmpty_iff.1 h, comments_ledBy, hblank, Text.comments_empty]
  · rfl

theorem commentsOf_map_spaced (ts : List Token) : commentsOf (ts.map spaced) = commentsOf ts := by
  induction ts with
  | nil => rfl
  | cons t ts ih => rw [List.map_cons, commentsOf_cons, commentsOf_cons, comments_spaced, ih]

/-- The tokens of a header that keep their comments when it is spaced: not the first of them, and no
name behind a `*`. -/
def keepers (modifiers : List Token) (asterisk : Option Token) (name : Token) : List Token :=
  match modifiers with
  | [] => []
  | _ :: later => later ++ [asterisk.getD name]

end Token

theorem MemberName.first_mapFirst (f : Token → Token) (n : MemberName) :
    (n.mapFirst f).first = f n.first := by
  cases n <;> rfl

open Token in
theorem Method.comments_spaceHeader {m : Method} (hm : m.decorators = []) :
    m.spaceHeader.header.comments =
      Text.comments m.leading ++ commentsOf (keepers m.modifiers m.asterisk m.name.first) := by
  simp only [spaceHeader, header, Header.comments, hm, MemberName.first_mapFirst]
  cases m.modifiers with
  | nil => cases m.asterisk <;> simp [spaceOut, keepers, placed, comments_ledBy]
  | cons modifier later =>
    cases m.asterisk <;>
      simp [spaceOut, keepers, placed, comments_ledBy, comments_spaced, commentsOf_map_spaced]

open Token in
theorem Getter.comments_spaceHeader {g : Getter} (hg : g.decorators = []) :
    g.spaceHeader.header.comments = Text.comments g.leading ++
      commentsOf (keepers g.modifiers none g.keyword ++ [g.name.first]) := by
  simp only [spaceHeader, header, Header.comments, hg, MemberName.first_mapFirst]
  cases g.modifiers <;>
    simp [spaceOut, keepers, placed, comments_ledBy, comments_spaced, commentsOf_map_spaced]

/-! Templates. -/

theorem allBlank_indentation (leading : String) : Text.allBlank (indentation leading) = true := by
  simp only [indentation]
  split
  · rename_i h
    rw [Bool.and_eq_true] at h
    rw [Text.allBlank, String.toList_ofList]
    refine List.all_eq_true.2 fun c hc => ?_
    have hspace := List.all_eq_true.1 h.2 c hc
    simp only [Bool.or_eq_true, decide_eq_true_eq] at hspace
    obtain rfl | rfl := hspace <;> decide
  · decide

theorem comments_newLine (leading : String) :
    Text.comments ("\n" ++ indentation leading) = [] := by
  apply Text.comments_of_allBlank
  have h := allBlank_indentation leading
  rw [Text.allBlank] at h ⊢
  rw [String.toList_append, List.all_append, h]
  decide

theorem MemberName.first_toSync {types : TypeTable} {member : String} {n name : MemberName}
    (h : n.toSync types member = .ok name) : name.first = n.first := by
  cases n with
  | identifier t =>
    cases h
    rfl
  | literal t =>
    cases h
    rfl
  | computed g =>
    obtain ⟨d, opening, children, closing⟩ := g
    simp only [toSync, Group.toSync, ok_bind, ok_pure] at h
    obtain ⟨g, ⟨ns, -, rfl⟩, rfl⟩ := h
    rfl

/-- The modifiers that are left in a flavor. -/
def Flavor.modifiers (flavor : Flavor) (modifiers : List Token) : List Token :=
  match flavor with
  | .synchronous => dropModifier "async" modifiers
  | .asynchronous => modifiers

/-- The modifiers that are left behind a new visibility. -/
def Token.invisible (modifiers : List Token) : List Token :=
  modifiers.filter (·.text ∉ visibilityWords)

theorem Token.commentsOf_keepers_asPublicAsync (modifiers : List Token) (asterisk : Option Token)
    (name : Token) : commentsOf (keepers (asPublicAsync modifiers) asterisk name) =
      commentsOf (invisible modifiers ++ [asterisk.getD name]) := by
  have hblank : Text.comments " " = [] := Text.comments_of_allBlank (by decide)
  rw [asPublicAsync]
  split
  · rfl
  · simp [setVisibility, keepers, invisible, identifier, hblank]

/-- The tokens of a template's header that keep their comments. Only a visibility put in front makes
the first modifier one of them. -/
def TemplateMethod.keepers (flavor : Flavor) (t : TemplateMethod) : List Token :=
  let m := t.method
  let silent := dropModifier "async" m.modifiers
  match t.strategy, flavor with
  | .aggregate, .synchronous => Token.keepers silent none m.name.first
  | .aggregate, .asynchronous =>
    Token.invisible m.modifiers ++ [m.asterisk.getD m.name.first]
  | .stream false, _ => Token.keepers (flavor.modifiers m.modifiers) m.asterisk m.name.first
  | .stream true, _ =>
    Token.keepers silent none m.name.first ++
      (Token.invisible (flavor.modifiers m.modifiers) ++ m.asterisk.toList)

def Member.keepers (naming : Naming) (flavor : Flavor) : Member → List Token
  | .method m =>
    match TemplateMethod.ofMethod naming m with
    | .ok t => t.keepers flavor
    | .error _ => []
  | .getter g =>
    Token.keepers (flavor.modifiers g.modifiers) none g.keyword ++ [g.name.first]
  | .other _ => []

theorem TemplateMethod.comments_toSync {types : TypeTable} {t : TemplateMethod} {generator : Bool}
    {m : Method} (h : t.toSync types generator = .ok m) :
    m.header.comments = Text.comments t.method.leading ++ Token.commentsOf (Token.keepers
      (dropModifier "async" t.method.modifiers) (if generator then t.method.asterisk else none)
      t.method.name.first) := by
  simp only [toSync, ok_bind, ok_pure] at h
  obtain ⟨name, hname, _, -, _, -, _, -, _, -, rfl⟩ := h
  rw [Method.comments_spaceHeader rfl]
  simp only [MemberName.first_toSync hname]

theorem Getter.comments_expandSync {types : TypeTable} {g g' : Getter}
    (h : g.expandSync types = .ok g') : g'.header.comments = Text.comments g.leading ++
      Token.commentsOf (Token.keepers (dropModifier "async" g.modifiers) none g.keyword ++
        [g.name.first]) := by
  rw [expandSync, ok_bind] at h
  obtain ⟨name, -, h⟩ := h
  split at h
  · cases h
  · split at h
    · cases h
    · split at h
      · cases h
      · simp only [ok_bind, ok_pure] at h
        obtain ⟨memberName, hname, _, -, _, -, _, -, rfl⟩ := h
        rw [Getter.comments_spaceHeader rfl]
        simp only [MemberName.first_toSync hname]

theorem TemplateMethod.comments_withWrapper {naming : Naming} {t : TemplateMethod}
    {parts : WrapperParts} {modifiers : List Token} (hp : parts.implModifiers = asPrivate modifiers)
    {ms : List Member} (h : t.withWrapper naming parts = .ok ms) :
    ms.flatMap Member.headerComments = Text.comments t.method.leading ++ Token.commentsOf
      (Token.keepers (dropModifier "async" t.method.modifiers) none t.method.name.first ++
        (Token.invisible modifiers ++ t.method.asterisk.toList)) := by
  unfold withWrapper at h
  split at h
  · cases h
  · simp only [ok_bind, ok_pure] at h
    obtain ⟨names, -, rfl⟩ := h
    simp only [List.flatMap_cons, List.flatMap_nil, Member.headerComments, Member.header?]
    rw [Method.comments_spaceHeader rfl, Method.comments_spaceHeader rfl]
    simp only [hp, asPrivate, setVisibility, Token.keepers, comments_newLine]
    cases t.method.asterisk <;> simp [Token.invisible, MemberName.first, Token.identifier]

section

variable {conventions : Conventions} {flavor : Flavor} {owner : String}

theorem TemplateMethod.comments_expandSync {t : TemplateMethod} {ms : List Member}
    (h : t.expandSync conventions owner = .ok ms) :
    ms.flatMap Member.headerComments =
      Text.comments t.method.leading ++ Token.commentsOf (t.keepers .synchronous) := by
  unfold expandSync at h
  cases hs : t.strategy with
  | aggregate =>
    simp only [hs, ok_bind, ok_pure] at h
    obtain ⟨m, hm, rfl⟩ := h
    simpa [keepers, hs, Member.headerComments, Member.header?] using comments_toSync hm
  | stream wrapper =>
    cases wrapper with
    | false =>
      simp only [hs, ok_bind, ok_pure] at h
      obtain ⟨m, hm, rfl⟩ := h
      simpa [keepers, hs, Member.headerComments, Member.header?, Flavor.modifiers]
        using comments_toSync hm
    | true =>
      simp only [hs, ok_bind] at h
      obtain ⟨_, -, _, -, _, -, h⟩ := h
      simpa only [keepers, hs, Flavor.modifiers] using comments_withWrapper rfl h

theorem TemplateMethod.comments_expandAsync {t : TemplateMethod} {ms : List Member}
    (h : t.expandAsync conventions owner = .ok ms) :
    ms.flatMap Member.headerComments =
      Text.comments t.method.leading ++ Token.commentsOf (t.keepers .asynchronous) := by
  unfold expandAsync at h
  cases hs : t.strategy with
  | aggregate =>
    simp only [hs, Except.ok.injEq] at h
    rw [← h]
    simp only [List.flatMap_cons, List.flatMap_nil, Member.headerComments, Member.header?]
    rw [Method.comments_spaceHeader rfl, Token.commentsOf_keepers_asPublicAsync]
    simp [keepers, hs]
  | stream wrapper =>
    cases wrapper with
    | false =>
      simp only [hs, Except.ok.injEq] at h
      rw [← h]
      simp only [List.flatMap_cons, List.flatMap_nil, Member.headerComments, Member.header?]
      rw [Method.comments_spaceHeader rfl]
      simp [keepers, hs, Flavor.modifiers]
    | true =>
      simp only [hs] at h
      simpa only [keepers, hs, Flavor.modifiers] using comments_withWrapper rfl h

theorem Member.comments_expand {m : Member} {h : Header} (hm : m.header? = some h)
    {ms : List Member} (hms : m.expand conventions flavor owner = .ok ms) :
    ms.flatMap Member.headerComments =
      Text.comments h.leading ++ Token.commentsOf (m.keepers conventions.naming flavor) := by
  cases m with
  | method m =>
    obtain rfl := Option.some.inj hm
    simp only [expand, Method.expand, ok_bind] at hms
    obtain ⟨t, ht, hms⟩ := hms
    rw [keepers, ht, Method.header, ← (TemplateMethod.ofMethod_eq_ok ht).1]
    cases flavor with
    | synchronous => exact TemplateMethod.comments_expandSync hms
    | asynchronous => exact TemplateMethod.comments_expandAsync hms
  | getter g =>
    obtain rfl := Option.some.inj hm
    cases flavor with
    | synchronous =>
      simp only [expand, Getter.expand, ok_bind, ok_pure] at hms
      obtain ⟨g', hg, rfl⟩ := hms
      rw [List.flatMap_singleton]
      exact Getter.comments_expandSync hg
    | asynchronous =>
      simp only [expand, Getter.expand, Except.ok.injEq] at hms
      rw [← hms]
      simp only [List.flatMap_cons, List.flatMap_nil, Member.headerComments, Member.header?]
      rw [Getter.comments_spaceHeader rfl, List.append_nil]
      rfl
  | other ns => cases hm

end

theorem Token.mem_of_mem_keepers {modifiers : List Token} {asterisk : Option Token}
    {name t : Token} (h : t ∈ keepers modifiers asterisk name) :
    t ∈ modifiers ∨ asterisk = some t ∨ t = name := by
  cases modifiers with
  | nil => cases h
  | cons modifier later =>
    cases List.mem_append.1 h with
    | inl h => exact .inl (List.mem_cons_of_mem _ h)
    | inr h => cases asterisk <;> simp_all

theorem mem_of_mem_dropModifier {word : String} {modifiers : List Token} {t : Token}
    (h : t ∈ dropModifier word modifiers) : t ∈ modifiers := (List.mem_filter.1 h).1

theorem Token.mem_of_mem_invisible {modifiers : List Token} {t : Token}
    (h : t ∈ invisible modifiers) : t ∈ modifiers := (List.mem_filter.1 h).1

theorem Flavor.mem_of_mem_modifiers {flavor : Flavor} {modifiers : List Token} {t : Token}
    (h : t ∈ flavor.modifiers modifiers) : t ∈ modifiers := by
  cases flavor with
  | synchronous => exact mem_of_mem_dropModifier h
  | asynchronous => exact h

theorem Method.mem_header_tokens {m : Method} {t : Token}
    (h : t ∈ m.modifiers ∨ m.asterisk = some t ∨ t = m.name.first) : t ∈ m.header.tokens := by
  obtain h | h | h := h <;> simp [header, h]

theorem TemplateMethod.keepers_subset (t : TemplateMethod) (flavor : Flavor) :
    t.keepers flavor ⊆ t.method.header.tokens := by
  intro u hu
  apply Method.mem_header_tokens
  dsimp only [keepers] at hu
  split at hu
  · exact (Token.mem_of_mem_keepers hu).imp mem_of_mem_dropModifier (Or.imp_left nofun)
  · rw [List.mem_append, List.mem_singleton] at hu
    refine hu.imp Token.mem_of_mem_invisible ?_
    rintro rfl
    cases t.method.asterisk <;> simp
  · exact (Token.mem_of_mem_keepers hu).imp_left Flavor.mem_of_mem_modifiers
  · rw [List.mem_append, List.mem_append, Option.mem_toList] at hu
    obtain hu | hu | hu := hu
    · exact (Token.mem_of_mem_keepers hu).imp mem_of_mem_dropModifier (Or.imp_left nofun)
    · exact .inl (Flavor.mem_of_mem_modifiers (Token.mem_of_mem_invisible hu))
    · exact .inr (.inl hu)

theorem Member.keepers_subset {m : Member} {h : Header} (hm : m.header? = some h) (naming : Naming)
    (flavor : Flavor) : m.keepers naming flavor ⊆ h.tokens := by
  cases m with
  | method m =>
    obtain rfl := Option.some.inj hm
    rw [keepers]
    split
    · rename_i t ht
      rw [← (TemplateMethod.ofMethod_eq_ok ht).1]
      exact t.keepers_subset flavor
    · exact List.nil_subset _
  | getter g =>
    obtain rfl := Option.some.inj hm
    intro u hu
    simp only [keepers, List.mem_append, List.mem_singleton] at hu
    simp only [Getter.header, List.mem_append, List.mem_cons]
    grind [Token.mem_of_mem_keepers, Flavor.mem_of_mem_modifiers]
  | other ns => cases hm

section

variable {conventions : Conventions} {flavor : Flavor} {owner : String}

/-- The headers of the members that a template expands to have, all in all, the comments in front of
it and those of the tokens that keep theirs, and they are printed. So no comment of the template's
header is lost where there are none in front of its other tokens: decorators, modifiers that are
taken out or that come first, and names behind a `*`. -/
theorem Member.headerComments_expand {m : Member} {h : Header} (hm : m.header? = some h)
    {ms : List Member} (hms : m.expand conventions flavor owner = .ok ms) :
    let kept := m.keepers conventions.naming flavor
    kept ⊆ h.tokens ∧
    ms.flatMap Member.headerComments = Text.comments h.leading ++ Token.commentsOf kept ∧
    (∀ c ∈ Text.comments h.leading ++ Token.commentsOf kept,
      ∃ n ∈ ms, c ∈ n.headerComments ∧ c <:+: n.source.toList) ∧
    ((∀ t ∈ h.tokens, t ∉ kept → Text.comments t.leading = []) →
      ∀ c ∈ h.comments, ∃ n ∈ ms, c <:+: n.source.toList) := by
  intro kept
  have hcomments : ms.flatMap Member.headerComments =
      Text.comments h.leading ++ Token.commentsOf kept := comments_expand hm hms
  have hprinted : ∀ c ∈ Text.comments h.leading ++ Token.commentsOf kept,
      ∃ n ∈ ms, c ∈ n.headerComments ∧ c <:+: n.source.toList := by
    intro c hc
    rw [← hcomments] at hc
    obtain ⟨n, hn, hc⟩ := List.mem_flatMap.1 hc
    exact ⟨n, hn, hc, isInfix_of_mem_headerComments hc⟩
  refine ⟨keepers_subset hm _ _, hcomments, hprinted, ?_⟩
  intro hnone c hc
  suffices hkept : c ∈ Text.comments h.leading ++ Token.commentsOf kept by
    obtain ⟨n, hn, -, hinfix⟩ := hprinted c hkept
    exact ⟨n, hn, hinfix⟩
  cases List.mem_append.1 hc with
  | inl hc => exact List.mem_append_left _ hc
  | inr hc =>
    obtain ⟨t, ht, hc⟩ := List.mem_flatMap.1 hc
    by_cases hk : t ∈ kept
    · exact List.mem_append_right _ (List.mem_flatMap.2 ⟨t, hk, hc⟩)
    · rw [hnone t ht hk] at hc
      cases hc

/-- A comment behind the first modifier stays, as the visibility stands in front of it. -/
theorem Member.headerComments_expand_documented :
    let leading := "\n  // counts\n  "
    let promise : TypeRef := .named (.identifier " " "Promise") none
    let m : Member := .method {
      leading, decorators := []
      modifiers := [.identifier "" "public", .identifier " /* never waits */ " "async"]
      asterisk := none, name := .identifier (.identifier " " "count"), question := none
      typeParameters := [], parameters := ⟨.bare .openParen "(", [], .bare .closeParen ")"⟩
      returnType := some ⟨.bare .colon ":", [.typeRef promise]⟩
      body := some (.of .brace " " [] ""), terminator := none }
    ∃ ms, m.expand {} .asynchronous "Enumerable" = .ok ms ∧
      ms.map Member.source =
        ["\n  // counts\n  public /* never waits */ async count(): Promise \x7b\x7d"] ∧
      ms.flatMap Member.headerComments = ["// counts".toList, "/* never waits */".toList] := by
  intro leading promise m
  let ms : List Member := [.method (Method.spaceHeader {
    leading, decorators := []
    modifiers := asPublicAsync
      [.identifier "" "public", .identifier " /* never waits */ " "async"]
    asterisk := none, name := .identifier (.identifier " " "count"), question := none
    typeParameters := [], parameters := ⟨.bare .openParen "(", [], .bare .closeParen ")"⟩
    returnType := some ⟨.bare .colon ":", [.typeRef promise]⟩
    body := some (.of .brace " " [] ""), terminator := none })]
  have hms : m.expand {} .asynchronous "Enumerable" = .ok ms := by rfl
  refine ⟨ms, hms, by decide +kernel, ?_⟩
  exact (headerComments_expand (h := ⟨leading, _⟩) rfl hms).2.1.trans (by decide +kernel)

/-- A comment behind a decorator is lost with it. -/
theorem Member.not_isInfix_of_mem_header : ¬ ∀ (name source : String) (f : SourceFile)
    (c : ClassDecl) (m : Member) (h : Header) (owner : String) (ms : List Member),
    SourceFile.ofSource name source = .ok f → c ∈ f.classes → m ∈ c.members →
    m.header? = some h → m.expand {} .synchronous owner = .ok ms →
      ∀ x ∈ h.comments, ∃ n ∈ ms, x <:+: n.source.toList := by
  intro hall
  let source := "class T \x7b\n  @logged\n  /** doc */\n  count(): Promise<X> \x7b \x7d\n\x7d"
  let lost := fun m : Member => m.header?.any fun h =>
    (m.expand {} .synchronous "T").toOption.any fun ms =>
      h.comments.any fun x => ms.all fun n => !decide (x <:+: n.source.toList)
  have hlost : ((SourceFile.ofSource "a.ts" source).toOption.any fun f =>
      f.classes.any fun c => c.members.any lost) = true := by
    decide +kernel
  simp only [Option.any_eq_true, List.any_eq_true, toOption_eq_some_iff] at hlost
  obtain ⟨f, hf, c, hc, m, hm, hlost⟩ := hlost
  simp only [lost, Option.any_eq_true, List.any_eq_true, toOption_eq_some_iff] at hlost
  obtain ⟨h, hh, ms, hms, x, hx, hnone⟩ := hlost
  obtain ⟨n, hn, hinfix⟩ := hall _ _ f c m h "T" ms hf hc hm hh hms x hx
  have hnot := List.all_eq_true.1 hnone n hn
  rw [decide_eq_true hinfix] at hnot
  cases hnot

end

end TwinClasses
