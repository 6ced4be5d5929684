import TwinClasses.Syntax.Node
import TwinClasses.Syntax.Tree

set_option autoImplicit false

/-! The token view of syntax trees and their text. A tree prints as the sources of its tokens, in
order; the trivia in front of a member belongs to the member's first token again. -/

namespace TwinClasses

def Token.sourceOf (ts : List Token) : String := String.join (ts.map Token.source)

/-- Trivia in front of the first of some tokens. -/
def Token.withTrivia (leading : String) : List Token → List Token
  | [] => []
  | t :: ts => t.ledBy (leading ++ t.leading) :: ts

mutual

def Node.tokens : Node → List Token
  | .token t => [t]
  | .group g => g.tokens
  | .classDecl c => c.tokens
  | .forOf keyword awaiting head => keyword :: awaiting.toList ++ head.tokens
  | .await keyword operand => keyword :: Node.tokensAll operand
  | .access object dot name => [object, dot, name]
  | .typeRef r => r.tokens

def Node.tokensAll : List Node → List Token
  | [] => []
  | n :: ns => n.tokens ++ Node.tokensAll ns

def Group.tokens : Group → List Token
  | ⟨_, opening, children, closing⟩ => opening :: Node.tokensAll children ++ [closing]

def Group.tokensOption : Option Group → List Token
  | none => []
  | some g => g.tokens

def Clause.tokens : Clause → List Token
  | ⟨mark, content⟩ => mark :: Node.tokensAll content

def Clause.tokensAll : List Clause → List Token
  | [] => []
  | c :: cs => c.tokens ++ Clause.tokensAll cs

def Clause.tokensOption : Option Clause → List Token
  | none => []
  | some c => c.tokens

def TypeRef.tokens : TypeRef → List Token
  | ⟨name, path, arguments⟩ =>
    name :: path.flatMap (fun (dot, name) => [dot, name]) ++ TypeArguments.tokensOption arguments

def TypeArguments.tokens : TypeArguments → List Token
  | ⟨opening, items, closing⟩ => opening :: TypeArgument.tokensAll items ++ [closing]

def TypeArguments.tokensOption : Option TypeArguments → List Token
  | none => []
  | some a => a.tokens

def TypeArgument.tokens : TypeArgument → List Token
  | ⟨type, comma⟩ => Node.tokensAll type ++ comma.toList

def TypeArgument.tokensAll : List TypeArgument → List Token
  | [] => []
  | a :: as => a.tokens ++ TypeArgument.tokensAll as

def ClassDecl.tokens : ClassDecl → List Token
  | ⟨keyword, name, heritage, opening, members, closing, _⟩ =>
    keyword :: name.toList ++ Node.tokensAll heritage
      ++ opening :: Member.tokensAll members ++ [closing]

def Member.tokens : Member → List Token
  | .method m => m.tokens
  | .getter g => g.tokens
  | .other ns => Node.tokensAll ns

def Member.tokensAll : List Member → List Token
  | [] => []
  | m :: ms => m.tokens ++ Member.tokensAll ms

def Method.tokens : Method → List Token
  | ⟨leading, decorators, modifiers, asterisk, name, question, typeParameters, parameters,
      returnType, body, terminator⟩ =>
    Token.withTrivia leading (Clause.tokensAll decorators ++ modifiers ++ asterisk.toList
      ++ name.tokens ++ question.toList ++ Node.tokensAll typeParameters ++ parameters.tokens
      ++ Clause.tokensOption returnType ++ Group.tokensOption body ++ terminator.toList)

def Getter.tokens : Getter → List Token
  | ⟨leading, decorators, modifiers, keyword, name, parameters, returnType, body, terminator⟩ =>
    Token.withTrivia leading (Clause.tokensAll decorators ++ modifiers ++ keyword :: name.tokens
      ++ parameters.tokens ++ Clause.tokensOption returnType ++ Group.tokensOption body
      ++ terminator.toList)

def MemberName.tokens : MemberName → List Token
  | .identifier t | .literal t => [t]
  | .computed g => g.tokens

def ParameterList.tokens : ParameterList → List Token
  | ⟨opening, items, closing⟩ => opening :: Parameter.tokensAll items ++ [closing]

def Parameter.tokens : Parameter → List Token
  | ⟨modifiers, rest, binding, question, type, initializer, comma⟩ =>
    modifiers ++ rest.toList ++ binding.tokens ++ question.toList
      ++ Clause.tokensOption type ++ Clause.tokensOption initializer ++ comma.toList

def Parameter.tokensAll : List Parameter → List Token
  | [] => []
  | p :: ps => p.tokens ++ Parameter.tokensAll ps

def Binding.tokens : Binding → List Token
  | .identifier t => [t]
  | .pattern g => g.tokens

end

theorem Node.tokensAll_append (ns ms : List Node) :
    Node.tokensAll (ns ++ ms) = Node.tokensAll ns ++ Node.tokensAll ms := by
  induction ns with
  | nil => simp [Node.tokensAll]
  | cons n ns ih => simp [Node.tokensAll, ih]

def Node.source (n : Node) : String := Token.sourceOf n.tokens

def Node.sourceAll (ns : List Node) : String := Token.sourceOf (Node.tokensAll ns)

def Group.source (g : Group) : String := Token.sourceOf g.tokens

def TypeRef.source (r : TypeRef) : String := Token.sourceOf r.tokens

def ClassDecl.source (c : ClassDecl) : String := Token.sourceOf c.tokens

def Member.source (m : Member) : String := Token.sourceOf m.tokens

def Method.source (m : Method) : String := Token.sourceOf m.tokens

def ParameterList.source (ps : ParameterList) : String := Token.sourceOf ps.tokens

def Tree.tokensAll (ts : List Tree) : List Token := (Tree.lexemesAll ts).map Lexeme.toToken

def Tree.source (t : Tree) : String := Token.sourceOf (t.lexemes.map Lexeme.toToken)

end TwinClasses
