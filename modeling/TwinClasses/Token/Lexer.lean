import TwinClasses.Token
import TwinClasses.Token.Scan
import TwinClasses.Token.Literal
import TwinClasses.Text.Bytes

set_option autoImplicit false

/-! From a text to its tokens. `pieces` cuts the text into pieces without losing a character,
`lexemes` folds the trivia among them into the tokens that follow. -/

namespace TwinClasses.Lexer

/-- What an open brace belongs to: `}` closes a block, or resumes the template literal whose
substitution it ends. -/
inductive BraceUse where
  | block
  | substitution
  deriving DecidableEq, Repr

structure Piece where
  kind : Kind
  text : List Char
  deriving DecidableEq, Repr

/-- What is known of the text read so far: its open braces, innermost first, and its last piece that
is no trivia. -/
structure Context where
  braces : List BraceUse
  previous : Option Piece
  deriving DecidableEq, Repr

def Context.start : Context := ⟨[], none⟩

/-- Keywords after which an operand follows. -/
def operandKeywords : List String :=
  ["return", "typeof", "instanceof", "in", "of", "new", "delete", "void", "throw", "case", "do",
    "else", "yield", "await"]

/-- A slash starts a regular expression, because no operand has just ended. -/
def Context.expectsOperand (ctx : Context) : Bool :=
  match ctx.previous with
  | none => true
  | some piece =>
    match piece.kind with
    | .identifier => String.ofList piece.text ∈ operandKeywords
    | .operator => piece.text ∉ [['+', '+'], ['-', '-']]
    | .closeParen | .closeBracket | .number | .string | .template | .templateTail | .regex
    | .privateName | .unknown => false
    | _ => true

/-- The template piece that goes on with `cs`: its kind, its length after the first character and
the braces that are open after it. An unterminated piece is unknown and takes the rest of the input.
-/
def templateSegment (resumed : Bool) (braces : List BraceUse) (cs : List Char) :
    Kind × Nat × List BraceUse :=
  match Literal.pieceEnd? cs with
  | some (.backtick, n) => (if resumed then .templateTail else .template, n, braces)
  | some (.substitution, n) =>
    (if resumed then .templateMiddle else .templateHead, n, .substitution :: braces)
  | none => (.unknown, cs.length, braces)

/-- The kind of the next piece, its length after the first character and the braces open after it.
-/
def Context.next (ctx : Context) (c : Char) (cs : List Char) : Kind × Nat × List BraceUse :=
  match Scan.token c cs with
  | (.template, _) => templateSegment false ctx.braces cs
  | (.openBrace, n) => (.openBrace, n, .block :: ctx.braces)
  | (.closeBrace, n) =>
    match ctx.braces with
    | .substitution :: braces => templateSegment true braces cs
    | .block :: braces => (.closeBrace, n, braces)
    | [] => (.closeBrace, n, [])
  | (.operator, n) =>
    match if c = '/' && ctx.expectsOperand then Literal.regexLength? false cs else none with
    | some m => (.regex, m, ctx.braces)
    | none => (.operator, n, ctx.braces)
  | (kind, n) => (kind, n, ctx.braces)

def Context.after (ctx : Context) (piece : Piece) (braces : List BraceUse) : Context :=
  ⟨braces, if piece.kind.isTrivia then ctx.previous else some piece⟩

def piecesFrom (ctx : Context) : List Char → List Piece
  | [] => []
  | c :: cs =>
    let (kind, n, braces) := ctx.next c cs
    let piece := ⟨kind, c :: cs.take n⟩
    piece :: piecesFrom (ctx.after piece braces) (cs.drop n)
  termination_by cs => cs.length
  decreasing_by simp only [List.length_drop, List.length_cons]; omega

def pieces (source : String) : List Piece := piecesFrom .start source.toList

/-- The pieces are the text, cut up. -/
theorem flatMap_piecesFrom (ctx : Context) (cs : List Char) :
    (piecesFrom ctx cs).flatMap Piece.text = cs := by
  fun_induction piecesFrom ctx cs with
  | case1 => rfl
  | case2 ctx c cs kind n braces h piece ih => simp [ih, piece]

structure Span where
  kind : Kind
  start : Nat
  stop : Nat
  deriving DecidableEq, Repr

def spansFrom (offset : Nat) : List Piece → List Span
  | [] => []
  | piece :: rest =>
    let stop := offset + Text.byteLength piece.text
    ⟨piece.kind, offset, stop⟩ :: spansFrom stop rest

def spans (source : String) : List Span := spansFrom 0 (pieces source)

structure Lexemes where
  lexemes : List Lexeme
  trailing : String
  deriving DecidableEq, Repr

/-- Trivia waits in `pending` for the token it precedes. -/
def foldTrivia (offset : Nat) (pending : String) : List Piece → Lexemes
  | [] => ⟨[], pending⟩
  | piece :: rest =>
    let stop := offset + Text.byteLength piece.text
    let text := String.ofList piece.text
    if piece.kind.isTrivia then foldTrivia stop (pending ++ text) rest
    else
      let ⟨lexemes, trailing⟩ := foldTrivia stop "" rest
      ⟨⟨⟨piece.kind, pending, text⟩, offset⟩ :: lexemes, trailing⟩

def lexemes (source : String) : Lexemes := foldTrivia 0 "" (pieces source)

end TwinClasses.Lexer
