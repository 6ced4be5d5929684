import TwinClasses.Proofs.Conversion.Idempotence
import TwinClasses.Proofs.Lexing.Spacing

set_option autoImplicit false

/-! Printing what was converted. A token that takes the place of a keyword or of a name may end up
right next to the token in front of it, and the two may be read as one. The converted file is read
back as its tokens if and only if each of them is found where it stands, and this is so if they
stand apart. -/

namespace TwinClasses

namespace Lexer

theorem Skipped.trimStart {s : List Char} (h : Skipped s) : Skipped (s.dropWhile Text.isBlank) := by
  induction h with
  | nil => exact .nil
  | space hc _ ih => rwa [List.dropWhile_cons_of_pos (isBlank_of_isSpace hc)]
  | line cs hcs hds _ =>
    rw [List.dropWhile_cons_of_neg (by decide)]
    exact .line cs hcs hds
  | block hn hds _ =>
    rw [List.dropWhile_cons_of_neg (by decide)]
    exact .block hn hds

theorem skipped_mergeTrivia {s t : String} (hs : Skipped s.toList) (ht : Skipped t.toList) :
    Skipped (mergeTrivia s t).toList := by
  rw [mergeTrivia_eq, String.toList_append, Text.trimStart, String.toList_ofList]
  exact hs.append ht.trimStart

theorem skipped_foldr_mergeTrivia {taken : List String} {leading : String}
    (ht : ∀ s ∈ taken, Skipped s.toList) (hl : Skipped leading.toList) :
    Skipped (taken.foldr mergeTrivia leading).toList := by
  induction taken with
  | nil => exact hl
  | cons s taken ih =>
    obtain ⟨hs, htaken⟩ := List.forall_mem_cons.1 ht
    exact skipped_mergeTrivia hs (ih htaken)

/-! Whole tokens. -/

theorem IsWhole.of_eq {t u : Token} (h : IsWhole t) (hk : u.kind = t.kind) (ht : u.text = t.text) :
    IsWhole u := by
  obtain ⟨kind, leading, text⟩ := t
  obtain ⟨kind', leading', text'⟩ := u
  simp only at hk ht
  subst hk ht
  exact h

/-- A text that is a name from its first character to its last. -/
def isName (text : String) : Bool :=
  match text.toList with
  | [] => false
  | c :: cs => !Scan.isSpace c && Scan.isIdentifierStart c && cs.all Scan.isIdentifierPart

theorem isWhole_of_isName {text : String} (leading : String) (h : isName text = true) :
    IsWhole (.identifier leading text) := by
  unfold isName at h
  cases hcs : text.toList with
  | nil =>
    rw [hcs] at h
    cases h
  | cons c cs =>
    rw [hcs] at h
    simp only [Bool.and_eq_true, Bool.not_eq_true', List.all_eq_true] at h
    obtain ⟨⟨hspace, hstart⟩, hpart⟩ := h
    have hrun : Scan.run Scan.isIdentifierPart cs = cs.length := by
      rw [Scan.run, List.takeWhile_eq_self_iff.2 hpart]
    refine ⟨.start, [], _, c, cs, [], hcs, rfl, ?_, rfl⟩
    rw [List.append_nil, Context.next, Scan.token_identifier hspace hstart, hrun]
    rfl

theorem kind_of_isName {t : Token} (h : IsWhole t) (hn : isName t.text = true) :
    t.kind = .identifier := by
  obtain ⟨ctx, rest, ctx', c, cs, braces, htext, -, hnext, -⟩ := h
  rw [isName, htext] at hn
  simp only [Bool.and_eq_true, Bool.not_eq_true'] at hn
  rw [Context.next, Scan.token_identifier hn.1.1 hn.1.2] at hnext
  exact (Prod.mk.inj hnext).1.symm

/-- A token of the kind leaves the open braces as they are. -/
def isFlat (kind : Kind) : Bool :=
  kind ∉ [.openBrace, .closeBrace, .templateHead, .templateMiddle, .templateTail, .unknown]

theorem nest_of_isFlat {kind : Kind} (h : isFlat kind = true) (braces : List BraceUse) :
    nest braces kind = some braces := by
  cases kind <;> first | rfl | cases h

end Lexer

namespace Edit

open Lexer

variable {es : List Edit}

theorem Accounts.skipped {strict : Prop} {pending : List String} (h : Accounts strict pending es)
    (hp : ∀ s ∈ pending, Skipped s.toList) (ht : ∀ t ∈ tokens es, Skipped t.leading.toList) :
    ∀ u ∈ outcomes es, Skipped u.leading.toList := by
  induction es generalizing pending with
  | nil => simp [outcomes]
  | cons e es ih =>
    obtain ⟨t, fate⟩ := e
    obtain ⟨hl, hrest⟩ := List.forall_mem_cons.1 ht
    cases fate with
    | kept taken text =>
      refine List.forall_mem_cons.2 ⟨?_, ih h.2.2 (by simp) hrest⟩
      exact skipped_foldr_mergeTrivia (fun s hs => hp s (h.1.subset hs)) hl
    | replaced =>
      have hr : Accounts strict (pending ++ [t.leading]) es := h
      refine ih hr ?_ hrest
      exact List.forall_mem_append.2 ⟨hp, List.forall_mem_singleton.2 hl⟩
    | dropped =>
      have hr : Accounts strict pending es := h
      exact ih hr hp hrest

theorem isName_of_rename? {name new : String} (h : ({} : TypeTable).rename? name = some new) :
    isName new = true := by
  have hall : ∀ e ∈ ({} : TypeTable).renames, isName e.2 = true := by decide
  exact hall _ (TypeTable.mem_renames h)

theorem Spells.isWhole {e : Edit} {u : Token} (h : e.Spells {}) (hw : IsWhole e.token)
    (hu : e.outcome = some u) : IsWhole u := by
  obtain ⟨t, fate⟩ := e
  cases fate with
  | kept taken text =>
    cases hu
    obtain ht | ⟨hk, hn⟩ | ⟨hname, rfl⟩ := h taken text rfl
    · exact hw.of_eq rfl ht
    · simp only at hk hn
      rw [hk]
      exact isWhole_of_isName _ (isName_of_rename? hn)
    · have hk : t.kind = .identifier := kind_of_isName hw (by rw [hname]; decide)
      simp only
      rw [hk]
      exact isWhole_of_isName _ (by decide)
  | replaced => cases hu
  | dropped => cases hu

/-- Tokens are only dropped that leave the open braces as they are. -/
def DropsFlat (es : List Edit) : Prop := ∀ e ∈ es, e.outcome = none → isFlat e.token.kind = true

instance (es : List Edit) : Decidable (DropsFlat es) :=
  inferInstanceAs (Decidable (∀ e ∈ es, _))

/-- What nested still does. -/
theorem nest_outcomes {ctx : Context} {trailing : String} (h : ctx.Reads trailing (tokens es))
    (hd : DropsFlat es) (hu : ∀ u ∈ outcomes es, u.kind ≠ .unknown) :
    ∃ braces, ((outcomes es).map Token.kind).foldlM nest ctx.braces = some braces := by
  induction es generalizing ctx with
  | nil => exact ⟨_, rfl⟩
  | cons e es ih =>
    obtain ⟨ctx', htakes, hrest⟩ := h
    obtain ⟨he, hes⟩ := List.forall_mem_cons.1 hd
    cases hout : e.outcome with
    | none =>
      have houtcomes : outcomes (e :: es) = outcomes es := by simp [outcomes, hout]
      have hflat := he hout
      have hunknown : e.token.kind ≠ .unknown := by
        intro hk
        rw [hk] at hflat
        cases hflat
      have hnest := htakes.nest hunknown
      rw [nest_of_isFlat hflat] at hnest
      rw [houtcomes] at hu ⊢
      rw [Option.some.inj hnest]
      exact ih hrest hes hu
    | some u =>
      have houtcomes : outcomes (e :: es) = u :: outcomes es := by simp [outcomes, hout]
      have hkind : u.kind = e.token.kind := by
        obtain ⟨t, fate⟩ := e
        cases fate <;> cases hout
        rfl
      rw [houtcomes] at hu ⊢
      obtain ⟨hku, hus⟩ := List.forall_mem_cons.1 hu
      obtain ⟨braces, hbraces⟩ := ih hrest hes hus
      have hnest := htakes.nest (hkind ▸ hku)
      refine ⟨braces, ?_⟩
      rw [List.map_cons, List.foldlM_cons, hkind, hnest]
      exact hbraces

end Edit

namespace Lexer

theorem Apart.kind_ne_unknown {trailing : String} {previous : Option Piece} {ts : List Token}
    (h : Apart trailing previous ts) : ∀ t ∈ ts, t.kind ≠ .unknown := by
  induction ts generalizing previous with
  | nil => simp
  | cons t ts ih => exact List.forall_mem_cons.2 ⟨h.1, ih h.2.2.2⟩

end Lexer

namespace SourceFile

variable {name source member : String} {f g : SourceFile}

/-- The file is read, as it prints, as the tokens that it consists of and the trivia after them. -/
def IsReadBack (f : SourceFile) : Prop :=
  (Lexer.lexemes f.source).content = (Node.tokensAll f.nodes, f.trailing)

theorem tokens_lexemes (hf : ofSource name source = .ok f) (hs : f.source = source) :
    (Lexer.lexemes source).tokens = Node.tokensAll f.nodes := by
  obtain ⟨lost, hl⟩ := fills_ofSource hf
  rw [hl.written_eq ((source_eq_source hf hl).1 hs), Node.tokens_outlineAll]

/-- A converted file is read back if and only if each of its tokens is found where it stands. It is
if nothing was lost when it was read and no brace when it was converted, and if its tokens stand
apart. -/
theorem isReadBack_toSync_iff (hf : ofSource name source = .ok f) (h : f.toSync member = .ok g) :
    (g.IsReadBack ↔ Lexer.Context.start.Reads g.trailing (Node.tokensAll g.nodes)) ∧
    (f.source = source → Edit.DropsFlat (Node.editsAll {} f.nodes) →
      Lexer.Apart g.trailing none (Node.tokensAll g.nodes) → g.IsReadBack) := by
  obtain ⟨ns, hns, rfl⟩ := toSync_eq_ok h
  have hedits := Node.tokens_editsAll {} f.nodes
  have hout := Node.tokens_toSyncAll f.nodes ns hns
  obtain ⟨-, -, -, htrailing⟩ := ofSource_eq_ok hf
  have hwaits : Lexer.Waits f.trailing [] := by
    rw [htrailing]
    exact Lexer.waits_trailing_lexemes source
  have hmem : ∀ t ∈ Node.tokensAll f.nodes, t ∈ (Lexer.lexemes source).tokens :=
    fun t ht => mem_lexemes_of_mem_tokens hf ht
  have hscript : Script {} False (Node.editsAll {} f.nodes) :=
    Node.script_editsAll {} f.nodes False.elim
  have hskipped : ∀ u ∈ Node.tokensAll ns, Lexer.Skipped u.leading.toList := by
    rw [hout]
    refine hscript.accounts.skipped (by simp) ?_
    rw [hedits]
    exact fun t ht => Lexer.skipped_leading_lexemes source t (hmem t ht)
  have hwhole : ∀ u ∈ Node.tokensAll ns, Lexer.IsWhole u := by
    rw [hout]
    intro u hu
    obtain ⟨e, he, houtcome⟩ := List.mem_filterMap.1 hu
    refine (hscript.spells e he).isWhole ?_ houtcome
    have ht : e.token ∈ Node.tokensAll f.nodes := by
      rw [← hedits]
      exact List.mem_map_of_mem he
    exact (Lexer.reads_lexemes source).isWhole _ (hmem _ ht)
  refine ⟨?_, ?_⟩
  · exact Lexer.Context.content_eq_iff hskipped (fun u hu => (hwhole u hu).text_ne_empty) hwaits
  · intro hs hflat ha
    have hreads := Lexer.reads_lexemes source
    rw [tokens_lexemes hf hs, ← hedits] at hreads
    obtain ⟨braces, hn⟩ := Edit.nest_outcomes hreads hflat (by
      rw [← hout]
      exact ha.kind_ne_unknown)
    rw [← hout] at hn
    exact Lexer.content_lexemes_of_apart hskipped hwhole hwaits hn ha

/-- A text can be read and converts, and what it is read as and what it converts to pass a test. -/
def convertsTo (test : SourceFile → SourceFile → Bool) (name member source : String) : Bool :=
  ((ofSource name source).toOption.bind fun f =>
    (f.toSync member).toOption.map (test f)) = some true

theorem exists_of_convertsTo {test : SourceFile → SourceFile → Bool}
    (h : convertsTo test name member source = true) :
    ∃ f g, ofSource name source = .ok f ∧ f.toSync member = .ok g ∧ test f g = true := by
  simp only [convertsTo, decide_eq_true_eq, Option.bind_eq_some_iff, Option.map_eq_some_iff,
    toOption_eq_some_iff] at h
  obtain ⟨f, hf, g, hg, htest⟩ := h
  exact ⟨f, g, hf, hg, htest⟩

/-- Dropped keywords in front of a name and of a parenthesis leave a text that is read back. -/
theorem isReadBack_awaited_loop : ∃ f g,
    ofSource "a.ts" "for await (const x of await y) { (await z) / 2; }" = .ok f ∧
      f.toSync "f" = .ok g ∧
      g.source = "for (const x of y) { (z) / 2; }" ∧ g.IsReadBack := by
  have hread : convertsTo (fun f g =>
      f.source = "for await (const x of await y) { (await z) / 2; }" ∧
      g.source = "for (const x of y) { (z) / 2; }" ∧
      Edit.DropsFlat (Node.editsAll {} f.nodes) ∧
      Lexer.Apart g.trailing none (Node.tokensAll g.nodes))
      "a.ts" "f" "for await (const x of await y) { (await z) / 2; }" = true := by
    decide +kernel
  obtain ⟨f, g, hf, hg, htest⟩ := exists_of_convertsTo hread
  obtain ⟨hsource, htext, hflat, ha⟩ := of_decide_eq_true htest
  exact ⟨f, g, hf, hg, htext, (isReadBack_toSync_iff hf hg).2 hsource hflat ha⟩

/-- A plus sign in front of a dropped keyword meets the one after it. -/
theorem not_tokens_toSync_eq : ¬ ∀ (name source member : String) (f g : SourceFile),
    ofSource name source = .ok f → f.toSync member = .ok g →
      (Lexer.lexemes g.source).tokens.map (fun t => (t.kind, t.text)) =
        (Node.tokensAll g.nodes).map fun t => (t.kind, t.text) := by
  intro hall
  have hfused : convertsTo (fun _ g =>
      (Lexer.lexemes g.source).tokens.map (fun t => (t.kind, t.text)) ≠
        (Node.tokensAll g.nodes).map fun t => (t.kind, t.text))
      "a.ts" "f" "a+await +b;" = true := by
    decide +kernel
  obtain ⟨f, g, hf, hg, htest⟩ := exists_of_convertsTo hfused
  exact of_decide_eq_true htest (hall _ _ _ f g hf hg)

end SourceFile

end TwinClasses
