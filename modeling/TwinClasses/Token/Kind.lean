set_option autoImplicit false

/-! Kinds of tokens. The set is coarse on purpose: keywords are identifiers whose text says what
they mean, and all operators without a structural role share one kind. -/

namespace TwinClasses

inductive Kind where
  | whitespace
  | lineComment
  | blockComment
  | identifier
  | privateName
  | number
  | string
  | template
  | templateHead
  | templateMiddle
  | templateTail
  | regex
  | openParen
  | closeParen
  | openBracket
  | closeBracket
  | openBrace
  | closeBrace
  | lessThan
  | greaterThan
  | dot
  | questionDot
  | ellipsis
  | comma
  | semicolon
  | colon
  | question
  | bang
  | atSign
  | asterisk
  | equals
  | arrow
  | pipe
  | ampersand
  | operator
  /-- Input that is no token; it is kept as it stands. -/
  | unknown
  deriving DecidableEq, Repr

namespace Kind

def all : List Kind :=
  [whitespace, lineComment, blockComment, identifier, privateName, number, string, template,
    templateHead, templateMiddle, templateTail, regex, openParen, closeParen, openBracket,
    closeBracket, openBrace, closeBrace, lessThan, greaterThan, dot, questionDot, ellipsis, comma,
    semicolon, colon, question, bang, atSign, asterisk, equals, arrow, pipe, ampersand, operator,
    unknown]

theorem mem_all (k : Kind) : k ∈ all := by cases k <;> decide

def name : Kind → String
  | whitespace => "whitespace"
  | lineComment => "line-comment"
  | blockComment => "block-comment"
  | identifier => "identifier"
  | privateName => "private-name"
  | number => "number"
  | string => "string"
  | template => "template"
  | templateHead => "template-head"
  | templateMiddle => "template-middle"
  | templateTail => "template-tail"
  | regex => "regex"
  | openParen => "open-paren"
  | closeParen => "close-paren"
  | openBracket => "open-bracket"
  | closeBracket => "close-bracket"
  | openBrace => "open-brace"
  | closeBrace => "close-brace"
  | lessThan => "less-than"
  | greaterThan => "greater-than"
  | dot => "dot"
  | questionDot => "question-dot"
  | ellipsis => "ellipsis"
  | comma => "comma"
  | semicolon => "semicolon"
  | colon => "colon"
  | question => "question"
  | bang => "bang"
  | atSign => "at"
  | asterisk => "asterisk"
  | equals => "equals"
  | arrow => "arrow"
  | pipe => "pipe"
  | ampersand => "ampersand"
  | operator => "operator"
  | unknown => "unknown"

def ofName? (s : String) : Option Kind := all.find? (·.name = s)

def display (k : Kind) : String := "<" ++ k.name ++ ">"

/-- Whitespace and comments, which become the leading trivia of the next token. -/
def isTrivia : Kind → Bool
  | whitespace | lineComment | blockComment => true
  | _ => false

def isOpenBracket : Kind → Bool
  | openParen | openBracket | openBrace => true
  | _ => false

def isCloseBracket : Kind → Bool
  | closeParen | closeBracket | closeBrace | templateTail => true
  | _ => false

def isLiteral : Kind → Bool
  | number | string | template | regex => true
  | _ => false

/-- The operators that join the members of a union or intersection type. -/
def joinsTypes : Kind → Bool
  | pipe | ampersand => true
  | _ => false

end Kind

end TwinClasses
