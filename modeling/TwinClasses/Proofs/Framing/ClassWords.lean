import TwinClasses.Proofs.Framing.Classes
import TwinClasses.Syntax.SourceFile

set_option autoImplicit false

/-! Where the word `class` begins a class. The word stays a token after a dot, in front of a token
that neither names a class nor opens a type list, and where no body comes before a semicolon, an
equals sign or a comma outside of type lists; what comes after it is then read as any other code.
Everywhere else it begins a class, and what stands between the word and the body is not looked at
further: a parameter list in front of the body of a method named `class` makes a class too. -/

namespace TwinClasses

namespace Extent

/-- How many type lists are open behind a tree. -/
def depthAfter (depth : Nat) (t : Tree) : Nat :=
  if t.isKind .lessThan then depth + 1 else if t.isKind .greaterThan then depth - 1 else depth

/-- How many type lists are open behind some trees. -/
def typeDepth (depth : Nat) (ts : List Tree) : Nat := ts.foldl depthAfter depth

/-- A tree that outside of type lists is a body or shows that none comes. -/
def endsFront : Tree → Bool
  | .group d _ _ _ => d = .brace
  | .token l => l.kind ∈ [.semicolon, .equals, .comma]

/-- Outside of type lists, `depth` of them open before, no tree ends the front, and all lists are
closed at its end. -/
structure IsBare (depth : Nat) (front : List Tree) : Prop where
  inside : ∀ before t after, front = before ++ t :: after → typeDepth depth before = 0 →
    endsFront t = false
  closed : typeDepth depth front = 0

variable {depth : Nat} {t : Tree} {ts us : List Tree}

theorem isBare_nil : IsBare 0 [] := by
  refine ⟨?_, rfl⟩
  intro before t after h
  simp at h

theorem isBare_cons : IsBare depth (t :: us) ↔
    (depth = 0 → endsFront t = false) ∧ IsBare (depthAfter depth t) us := by
  constructor
  · intro h
    refine ⟨fun hd => h.inside [] t us rfl hd, ?_, h.closed⟩
    rintro before u after rfl
    exact h.inside (t :: before) u after rfl
  · rintro ⟨ht, h⟩
    refine ⟨fun before u after hus => ?_, h.closed⟩
    cases before with
    | nil =>
      obtain ⟨rfl, -⟩ := List.cons.inj hus
      exact ht
    | cons v before =>
      obtain ⟨rfl, rfl⟩ := List.cons.inj hus
      exact h.inside before u after rfl

/-- A name is no end of the front, and no list opens or closes with it. -/
theorem isBare_identifier {l : Lexeme} (hk : l.kind = .identifier) :
    IsBare 0 (.token l :: us) ↔ IsBare 0 us := by
  rw [isBare_cons]
  simp [endsFront, depthAfter, Tree.isKind, hk]

/-- The search for a body passes a tree that does not end it. -/
theorem splitAtBody?_cons (h : depth = 0 → endsFront t = false) (us : List Tree) :
    splitAtBody? depth (t :: us) = (splitAtBody? (depthAfter depth t) us).map (.cons t) := by
  cases t with
  | group d opening children closing =>
    rw [splitAtBody?, dif_neg]
    · rfl
    · rintro ⟨rfl, hd⟩
      simpa [endsFront] using h hd
  | token l =>
    obtain ⟨⟨kind, leading, text⟩, offset⟩ := l
    by_cases hd : depth = 0
    · cases kind <;> simp_all [splitAtBody?, depthAfter, Tree.isKind, endsFront]
    · cases kind <;> simp [splitAtBody?, depthAfter, Tree.isKind, hd]

/-- The search finds the first braces behind bare trees. -/
theorem splitAtBody?_of_isBare (h : IsBare depth us) (ts : List Tree) (opening : Lexeme)
    (children : List Tree) (closing : Lexeme) (rest : List Tree)
    (hts : ts = us ++ .group .brace opening children closing :: rest) :
    splitAtBody? depth ts = some ⟨us, opening, children, closing, rest, hts⟩ := by
  induction us generalizing depth ts with
  | nil =>
    obtain rfl : depth = 0 := h.closed
    subst hts
    exact dif_pos ⟨rfl, rfl⟩
  | cons t us ih =>
    obtain ⟨ht, h⟩ := isBare_cons.1 h
    subst hts
    simp only [List.cons_append]
    rw [splitAtBody?_cons ht, ih h _ rfl]
    rfl

theorem isBare_of_splitAtBody? {s : BodySplit ts} (h : splitAtBody? depth ts = some s) :
    IsBare depth s.heritage := by
  induction ts generalizing depth with
  | nil => cases h
  | cons t ts ih =>
    by_cases ht : depth = 0 → endsFront t = false
    · rw [splitAtBody?_cons ht] at h
      obtain ⟨s', hs', rfl⟩ := Option.map_eq_some_iff.1 h
      exact isBare_cons.2 ⟨ht, ih hs'⟩
    · -- The tree is the body, or it shows that there is none.
      obtain ⟨rfl, hends⟩ := Classical.not_imp.1 ht
      rw [Bool.not_eq_false] at hends
      cases t with
      | group d opening children closing =>
        obtain rfl : d = .brace := of_decide_eq_true hends
        rw [splitAtBody?, dif_pos ⟨rfl, rfl⟩] at h
        cases h
        exact isBare_nil
      | token l =>
        have hk : l.kind ∈ [Kind.semicolon, .equals, .comma] := of_decide_eq_true hends
        rw [splitAtBody?] at h
        revert hk h
        cases l.kind <;> simp

/-- A tree that may come after the word in a class: a bracket, a name or a type list. -/
def mayFollowClass : Tree → Bool
  | .group .. => true
  | .token l => l.kind = .identifier || l.kind = .lessThan

/-- The name of a class with these trees in front of its body. -/
def frontName : List Tree → Option Token
  | .token l :: _ =>
    if l.kind = .identifier && l.text ≠ "extends" && l.text ≠ "implements" then some l.toToken
    else none
  | _ => none

/-- The trees between the word and the body that it needs to begin a class. -/
structure IsClassFront (front : List Tree) : Prop where
  begins : front.head?.all mayFollowClass = true
  bare : IsBare 0 front

section

variable {front children rest : List Tree} {opening closing : Lexeme}

theorem className?_of_begins (h : front.head?.all mayFollowClass = true) :
    className? (front ++ .group .brace opening children closing :: rest) =
      some (frontName front) := by
  cases front using Tree.frontCases with
  | nil => rfl
  | group d opening children closing us => rfl
  | token l us =>
    simp only [List.head?_cons, Option.all_some, mayFollowClass, Bool.or_eq_true,
      decide_eq_true_eq] at h
    obtain hk | hk := h
    · by_cases he : l.text = "extends" <;> by_cases hi : l.text = "implements" <;>
        simp [className?, frontName, hk, he, hi]
    · simp [className?, frontName, hk]

theorem begins_of_className? {name : Option Token}
    (h : className? (front ++ .group .brace opening children closing :: rest) = some name) :
    front.head?.all mayFollowClass = true := by
  cases front using Tree.frontCases with
  | nil => rfl
  | group d opening children closing us => rfl
  | token l us =>
    simp only [List.head?_cons, Option.all_some, mayFollowClass, Bool.or_eq_true,
      decide_eq_true_eq]
    by_cases hk : l.kind = .identifier
    · exact Or.inl hk
    · by_cases hl : l.kind = .lessThan
      · exact Or.inr hl
      · simp [className?, hk, hl] at h

/-- A name in front of bare trees leaves them bare. -/
theorem isBare_drop_name (front : List Tree) :
    IsBare 0 (front.drop (frontName front).toList.length) ↔ IsBare 0 front := by
  cases front using Tree.frontCases with
  | nil => rfl
  | group d opening children closing us => rfl
  | token l us =>
    rw [frontName]
    split
    · rename_i hk
      simp only [Bool.and_eq_true, decide_eq_true_eq] at hk
      exact (isBare_identifier hk.1.1).symm
    · rfl

theorem length_frontName_le (front : List Tree) :
    (frontName front).toList.length ≤ front.length :=
  Tree.length_toList_le fun h => by rw [h]; rfl

end

end Extent

open Extent

namespace Reader

/-- The word stays a token, and what comes after it is read as other code. -/
def IsPlain (parent : Option Delimiter) (last : Option Node) (l : Lexeme) (us : List Tree) : Prop :=
  sequence parent last (.token l :: us) =
    (sequence parent (some (.token l.toToken)) us).map (.token l.toToken :: ·)

/-- The trees after the word read as a class and what comes after it. -/
def classReading (parent : Option Delimiter) (last : Option Node) (l : Lexeme) (front : List Tree)
    (opening : Lexeme) (children : List Tree) (closing : Lexeme) (rest : List Tree) :
    Except Fault (List Node) := do
  let heritage ← sequence parent none (front.drop (frontName front).toList.length)
  let ms ← members (some closing.offset) children
  let node := Node.classDecl ⟨l.toToken, frontName front, heritage, opening.toToken, ms,
    closing.toToken, isValuePosition parent last⟩
  (sequence parent (some node) rest).map (node :: ·)

variable {parent : Option Delimiter} {last : Option Node} {l : Lexeme}
  {us front children rest : List Tree} {opening closing : Lexeme}

theorem isPlain_of_apart (h : last.any opensMemberAccess = true) : IsPlain parent last l us := by
  rw [IsPlain, sequence, h, Bool.not_true, Bool.and_false, if_neg Bool.false_ne_true]

theorem isPlain_of_classDecl (hl : l.toToken.isWord "class" = true)
    (h : classDecl parent last l us = none) : IsPlain parent last l us := by
  by_cases hlast : last.any opensMemberAccess = true
  · exact isPlain_of_apart hlast
  · simp only [Token.isWord, Bool.and_eq_true, decide_eq_true_eq] at hl
    have hk : (l.kind = .identifier && !last.any opensMemberAccess) = true := by
      simp [hl.1, hlast]
    rw [IsPlain, sequence, if_pos hk, construct, if_pos hl.2, h]

/-- Without a front of a class and a body behind it, the word begins none. -/
theorem classDecl_eq_none (h : ∀ front opening children closing rest,
    us = front ++ .group .brace opening children closing :: rest → ¬ IsClassFront front) :
    classDecl parent last l us = none := by
  unfold classDecl
  split
  · rfl
  · rename_i name hname
    split
    · rfl
    · rename_i split hsplit
      have hus : us = us.take name.toList.length ++ split.heritage ++
          .group .brace split.opening split.children split.closing :: split.rest := by
        rw [List.append_assoc, ← split.eq, List.take_append_drop]
      have hbegins := begins_of_className? (hus ▸ hname)
      have hfront : frontName (us.take name.toList.length ++ split.heritage) = name := by
        have hname' : className? us =
            some (frontName (us.take name.toList.length ++ split.heritage)) :=
          (congrArg className? hus).trans (className?_of_begins hbegins)
        exact Option.some.inj (hname'.symm.trans hname)
      refine absurd ⟨hbegins, ?_⟩ (h _ _ _ _ _ hus)
      rw [← isBare_drop_name, hfront,
        List.drop_left' (List.length_take_of_le (length_className?_le hname))]
      exact isBare_of_splitAtBody? hsplit

/-- A front and a body behind it make a class, or fail as its parts do. -/
theorem sequence_class (hl : l.toToken.isWord "class" = true)
    (hlast : last.any opensMemberAccess = false) (h : IsClassFront front) :
    sequence parent last
        (.token l :: (front ++ .group .brace opening children closing :: rest)) =
      classReading parent last l front opening children closing rest := by
  simp only [Token.isWord, Bool.and_eq_true, decide_eq_true_eq] at hl
  have hk : (l.kind = .identifier && !last.any opensMemberAccess) = true := by
    simp [hl.1, hlast]
  have hdrop : (front ++ .group .brace opening children closing :: rest).drop
      (frontName front).toList.length = front.drop (frontName front).toList.length ++
        .group .brace opening children closing :: rest :=
    List.drop_append_of_le_length (length_frontName_le front)
  rw [sequence, if_pos hk, construct, if_pos hl.2, classDecl, className?_of_begins h.begins]
  simp only
  rw [splitAtBody?_of_isBare ((isBare_drop_name front).2 h.bare) _ _ _ _ _ hdrop, classReading]
  simp only
  cases sequence parent none (front.drop (frontName front).toList.length) with
  | error fault => rfl
  | ok heritage => cases members (some closing.offset) children <;> rfl

/-- What becomes of the word `class`, wherever it stands. It stays a token after a dot, in front of
a token that is neither a name nor an opening angle bracket, such as a colon, a comma or a question
mark, and wherever no body comes behind trees that a class may have in front of one; then only what
comes after it can fail. Anywhere else it begins a class. -/
theorem class_word_read (parent : Option Delimiter) (last : Option Node) {l : Lexeme}
    (hl : l.toToken.isWord "class" = true) (us : List Tree) :
    (last.any opensMemberAccess = true → IsPlain parent last l us) ∧
    (∀ mark vs, us = .token mark :: vs → mark.kind ≠ .identifier → mark.kind ≠ .lessThan →
      IsPlain parent last l us) ∧
    ((∀ front opening children closing rest,
      us = front ++ .group .brace opening children closing :: rest → ¬ IsClassFront front) →
      IsPlain parent last l us) ∧
    ∀ front opening children closing rest,
      us = front ++ .group .brace opening children closing :: rest → IsClassFront front →
      last.any opensMemberAccess = false →
        sequence parent last (.token l :: us) =
          classReading parent last l front opening children closing rest := by
  have hnone : (∀ front opening children closing rest,
      us = front ++ .group .brace opening children closing :: rest → ¬ IsClassFront front) →
      IsPlain parent last l us := fun h => isPlain_of_classDecl hl (classDecl_eq_none h)
  refine ⟨isPlain_of_apart, ?_, hnone, ?_⟩
  · rintro mark vs rfl hname hlist
    apply hnone
    intro front opening children closing rest hus h
    cases front with
    | nil => simp at hus
    | cons t front =>
      obtain ⟨rfl, -⟩ := List.cons.inj hus
      simpa [mayFollowClass, hname, hlist] using h.begins
  · rintro front opening children closing rest rfl h hlast
    exact sequence_class hl hlast h

def classWord : Lexeme := ⟨⟨.identifier, "", "class"⟩, 0⟩

def braceAfter (front children : List Tree) : List Tree :=
  front ++ [.group .brace ⟨⟨.openBrace, " ", "\x7b"⟩, 9⟩ children ⟨⟨.closeBrace, " ", "\x7d"⟩, 19⟩]

/-- The word names a property in front of a colon, and begins a class in front of a name. -/
theorem classWord_read :
    IsPlain (some .brace) none classWord
      [.token ⟨⟨.colon, "", ":"⟩, 5⟩, .token ⟨⟨.number, " ", "1"⟩, 7⟩] ∧
    sequence none none (.token classWord :: braceAfter [.token ⟨⟨.identifier, " ", "A"⟩, 6⟩] []) =
      classReading none none classWord [.token ⟨⟨.identifier, " ", "A"⟩, 6⟩]
        ⟨⟨.openBrace, " ", "\x7b"⟩, 9⟩ [] ⟨⟨.closeBrace, " ", "\x7d"⟩, 19⟩ [] := by
  refine ⟨?_, ?_⟩
  · exact (class_word_read (some .brace) none (by decide) _).2.1 _ _ rfl (by decide) (by decide)
  · refine (class_word_read none none (by decide) _).2.2.2 _ _ _ _ _ rfl ⟨rfl, ?_⟩ rfl
    exact (isBare_identifier rfl).2 isBare_nil

/-- So a method named `class` is read as a class, and a call in its body is no member of one. -/
theorem not_isPlain_before_parameters :
    (¬ ∀ (parent : Option Delimiter) (last : Option Node) (l opening closing : Lexeme)
      (children us : List Tree), l.toToken.isWord "class" = true →
        IsPlain parent last l (.group .paren opening children closing :: us)) ∧
    (SourceFile.ofSource "a.ts" "x = { class() { (a); } };").isOk = false ∧
    (SourceFile.ofSource "a.ts" "x = { klass() { (a); } };").isOk = true := by
  refine ⟨?_, by decide +kernel, by decide +kernel⟩
  intro hall
  have hplain := hall (some .brace) none classWord ⟨⟨.openParen, "", "("⟩, 5⟩
    ⟨⟨.closeParen, "", ")"⟩, 6⟩ [] (braceAfter []
      [.group .paren ⟨⟨.openParen, " ", "("⟩, 11⟩ [] ⟨⟨.closeParen, "", ")"⟩, 12⟩]) (by decide)
  have hok := congrArg Except.isOk hplain
  revert hok
  decide +kernel

end Reader

end TwinClasses
