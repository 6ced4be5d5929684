import TwinClasses.Token
import TwinClasses.Syntax.Delimiter
import TwinClasses.Syntax.Fault

set_option autoImplicit false

/-! Bracket trees: the lexemes of a source, nested by its brackets. `ofLexemes` accepts the lists
whose brackets match and reports the first lexeme that does not fit; the trees hold the lexemes they
were made from, in order. Angle brackets make no groups here, because only the context tells whether
`<` opens a list. -/

namespace TwinClasses

inductive Tree where
  | token (lexeme : Lexeme)
  | group (delimiter : Delimiter) (opening : Lexeme) (children : List Tree) (closing : Lexeme)

namespace Tree

def first : Tree → Lexeme
  | token l => l
  | group _ opening _ _ => opening

def opensLine (t : Tree) : Bool := t.first.toToken.opensLine

def isKind (kind : Kind) : Tree → Bool
  | token l => l.kind = kind
  | group .. => false

def isWord (word : String) : Tree → Bool
  | token l => l.toToken.isWord word
  | group .. => false

def isGroup (delimiter : Delimiter) : Tree → Bool
  | token _ => false
  | group d _ _ _ => d = delimiter

mutual

/-- The lexemes of the tree, in the order of the source. -/
def lexemes : Tree → List Lexeme
  | token l => [l]
  | group _ opening children closing => opening :: lexemesAll children ++ [closing]

def lexemesAll : List Tree → List Lexeme
  | [] => []
  | t :: ts => t.lexemes ++ lexemesAll ts

end

theorem lexemesAll_append (ts us : List Tree) :
    lexemesAll (ts ++ us) = lexemesAll ts ++ lexemesAll us := by
  induction ts with
  | nil => rfl
  | cons t ts ih => simp [lexemesAll, ih]

/-- A group that is still open: what opened it, and the trees before it, last first. -/
structure Frame where
  delimiter : Delimiter
  opening : Lexeme
  before : List Tree

/-- The lexemes up to the end of what opened the group. -/
def Frame.lexemes (f : Frame) : List Lexeme := lexemesAll f.before.reverse ++ [f.opening]

/-- The open groups, innermost first, and the trees read in the innermost, last first. -/
structure Builder where
  frames : List Frame
  trees : List Tree

namespace Builder

def start : Builder := ⟨[], []⟩

def unexpected (l : Lexeme) : Fault := ⟨.unexpected l.text "the source", some l.offset⟩

def mismatched (l : Lexeme) (d : Delimiter) : Fault :=
  ⟨.mismatched l.text d.closeText, some l.offset⟩

def push (b : Builder) (l : Lexeme) : Builder := { b with trees := token l :: b.trees }

def enter (b : Builder) (d : Delimiter) (l : Lexeme) : Builder := ⟨⟨d, l, b.trees⟩ :: b.frames, []⟩

/-- A template literal goes on only directly inside its group. -/
def resume (b : Builder) (l : Lexeme) : Except Fault Builder :=
  match b.frames with
  | [] => .error (unexpected l)
  | frame :: _ =>
    if frame.delimiter = .template then .ok (b.push l) else .error (mismatched l frame.delimiter)

def leave (b : Builder) (l : Lexeme) : Except Fault Builder :=
  match b.frames with
  | [] => .error (unexpected l)
  | ⟨d, opening, before⟩ :: frames =>
    if d.closeKind = l.kind then .ok ⟨frames, group d opening b.trees.reverse l :: before⟩
    else .error (mismatched l d)

def step (b : Builder) (l : Lexeme) : Except Fault Builder :=
  match Delimiter.ofOpenKind? l.kind with
  | some d => .ok (b.enter d l)
  | none =>
    if l.kind = .templateMiddle then b.resume l
    else if l.kind.isCloseBracket then b.leave l
    else .ok (b.push l)

def finish (b : Builder) : Except Fault (List Tree) :=
  match b.frames with
  | [] => .ok b.trees.reverse
  | frame :: _ => .error ⟨.unclosed frame.opening.text, some frame.opening.offset⟩

def lexemes (b : Builder) : List Lexeme :=
  b.frames.reverse.flatMap Frame.lexemes ++ lexemesAll b.trees.reverse

@[simp] theorem lexemes_start : start.lexemes = [] := rfl

@[simp] theorem lexemes_push (b : Builder) (l : Lexeme) :
    (b.push l).lexemes = b.lexemes ++ [l] := by
  simp [lexemes, push, lexemesAll_append, lexemesAll, Tree.lexemes]

@[simp] theorem lexemes_enter (b : Builder) (d : Delimiter) (l : Lexeme) :
    (b.enter d l).lexemes = b.lexemes ++ [l] := by
  simp [lexemes, enter, lexemesAll, Frame.lexemes]

theorem lexemes_resume {b b' : Builder} {l : Lexeme} (h : b.resume l = .ok b') :
    b'.lexemes = b.lexemes ++ [l] := by
  unfold resume at h
  split at h
  · cases h
  · split at h
    · cases h
      exact lexemes_push b l
    · cases h

theorem lexemes_leave {b b' : Builder} {l : Lexeme} (h : b.leave l = .ok b') :
    b'.lexemes = b.lexemes ++ [l] := by
  unfold leave at h
  split at h
  · cases h
  · rename_i hf
    split at h
    · cases h
      simp [lexemes, hf, lexemesAll_append, lexemesAll, Tree.lexemes, Frame.lexemes]
    · cases h

/-- A step takes in one lexeme, which comes after all others. -/
theorem lexemes_step {b b' : Builder} {l : Lexeme} (h : b.step l = .ok b') :
    b'.lexemes = b.lexemes ++ [l] := by
  unfold step at h
  split at h
  · cases h
    exact lexemes_enter b _ l
  · split at h
    · exact lexemes_resume h
    · split at h
      · exact lexemes_leave h
      · cases h
        exact lexemes_push b l

theorem lexemes_foldlM {ls : List Lexeme} {b b' : Builder} (h : ls.foldlM step b = .ok b') :
    b'.lexemes = b.lexemes ++ ls := by
  induction ls generalizing b with
  | nil =>
    cases h
    simp
  | cons l ls ih =>
    simp only [List.foldlM_cons] at h
    cases hs : b.step l with
    | error e => simp [hs, bind, Except.bind] at h
    | ok b₁ =>
      simp only [hs, bind, Except.bind] at h
      rw [ih h, lexemes_step hs, List.append_assoc, List.singleton_append]

theorem lexemesAll_of_finish {b : Builder} {ts : List Tree} (h : b.finish = .ok ts) :
    lexemesAll ts = b.lexemes := by
  unfold finish at h
  split at h
  · cases h
    simp [lexemes, *]
  · cases h

end Builder

def ofLexemes (ls : List Lexeme) : Except Fault (List Tree) := do
  (← ls.foldlM Builder.step Builder.start).finish

/-- No lexeme is lost, and none is moved. -/
theorem lexemesAll_of_ofLexemes {ls : List Lexeme} {ts : List Tree} (h : ofLexemes ls = .ok ts) :
    lexemesAll ts = ls := by
  unfold ofLexemes at h
  cases hb : ls.foldlM Builder.step Builder.start with
  | error e => simp [hb, bind, Except.bind] at h
  | ok b =>
    simp only [hb, bind, Except.bind] at h
    rw [Builder.lexemesAll_of_finish h, Builder.lexemes_foldlM hb, Builder.lexemes_start,
      List.nil_append]

end Tree

end TwinClasses
