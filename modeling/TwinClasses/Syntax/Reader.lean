import TwinClasses.Syntax.Extent
import TwinClasses.Syntax.Leading

set_option autoImplicit false

/-! Readers for the constructs of a syntax tree. `sequence` turns bracket trees into nodes; the
other readers are what it needs, and they need it. Groups are single trees, so a reader never looks
for a closing bracket; `closing` is the offset of the bracket that ends the trees, where there is
one. -/

namespace TwinClasses.Reader

open Extent

/-- The dots and names after the first name of `typeof`; each dot must be followed by a name. -/
def dottedRest (closing : Option Nat) {ts : List Tree} (nodes : List Node) :
    (us : List Tree) → Follows us ts → Reading (List Node) ts
  | .token dot :: .token name :: us, h =>
    if dot.kind ≠ .dot then .done nodes (.token dot :: .token name :: us) h
    else if name.kind = .identifier then
      dottedRest closing (nodes ++ [.token dot.toToken, .token name.toToken]) us h.tail.tail
    else .unexpected "a type" closing (.token name :: us)
  | .token dot :: us, h =>
    if dot.kind = .dot then .unexpected "a type" closing us else .done nodes (.token dot :: us) h
  | us, h => .done nodes us h

def access (l : Lexeme) (us : List Tree) : Option (Reading Node (.token l :: us)) :=
  match us with
  | .token dot :: .token name :: vs =>
    if dot.kind = .dot && isMemberName (.token name) then
      some (.done (.access l.toToken dot.toToken name.toToken) vs
        (Follows.tail_of_cons _ _).tail.tail)
    else none
  | _ => none

inductive Declared where
  | member (member : Member)
  /-- A constructor or a `set` accessor, to be kept as it was written. -/
  | verbatim
  /-- A property, read as far as its name. -/
  | property

/-- The member that the parts of a callable make up. -/
def declare (decorators : List Clause) (head : MemberHead) (name : MemberName)
    (question : Option Token) (typeParameters : List Node) (parameters : ParameterList)
    (returnType : Option Clause) (body : Option Group) (terminator : Option Token) : Declared :=
  if name.identifier? = some "constructor" then .verbatim
  else
    match head.accessor with
    | none =>
      .member (.method (Method.hoistLeading ⟨"", decorators, head.modifiers, head.asterisk, name,
        question, typeParameters, parameters, returnType, body, terminator⟩))
    | some keyword =>
      if keyword.text = "get" then
        .member (.getter (Getter.hoistLeading ⟨"", decorators, head.modifiers, keyword, name,
          parameters, returnType, body, terminator⟩))
      else .verbatim

mutual

/-- A type: operands joined by `|` or `&`, and one of these may come first. With `conditional` an
operand may be the start of a conditional type. -/
def type (closing : Option Nat) (conditional : Bool) (ts : List Tree) : Reading (List Node) ts :=
  match ts with
  | .token l :: us =>
    if l.kind.joinsTypes then
      ((operands closing conditional us).map (.token l.toToken :: ·)).after
    else operands closing conditional (.token l :: us)
  | us => operands closing conditional us
  termination_by 16 * Tree.weightAll ts + 9
  decreasing_by all_goals grind

/-- Operands of a type with the operators between them. -/
def operands (closing : Option Nat) (conditional : Bool) (ts : List Tree) :
    Reading (List Node) ts :=
  (operand closing ts).andThen fun nodes us h =>
    match us, h with
    | .token l :: vs, h =>
      if conditional && l.toToken.isWord "extends" then
        ((conditionalRest closing vs).within h.tail).map (nodes ++ .token l.toToken :: ·)
      else if l.kind.joinsTypes then
        ((operands closing conditional vs).within h.tail).map (nodes ++ .token l.toToken :: ·)
      else .done nodes (.token l :: vs) h
    | us, h => .done nodes us h
  termination_by 16 * Tree.weightAll ts + 8
  decreasing_by all_goals grind

def conditionalRest (closing : Option Nat) (ts : List Tree) : Reading (List Node) ts :=
  (type closing false ts).andThen fun bound us h =>
    ((Reading.expect .question "a conditional type" closing us).within h).andThen
      fun question us h =>
      ((type closing true us).within h).andThen fun yes us h =>
        ((Reading.expect .colon "a conditional type" closing us).within h).andThen fun colon us h =>
          ((type closing true us).within h).map fun no =>
            bound ++ .token question :: yes ++ .token colon :: no
  termination_by 16 * Tree.weightAll ts + 10
  decreasing_by all_goals grind

/-- An operand of a type: a primary type and index brackets, none of which starts a line. -/
def operand (closing : Option Nat) (ts : List Tree) : Reading (List Node) ts :=
  (primary closing ts).andThen fun nodes us h => indexed nodes us h
  termination_by 16 * Tree.weightAll ts + 7
  decreasing_by all_goals grind

def indexed {ts : List Tree} (nodes : List Node) (us : List Tree) (h : Follows us ts) :
    Reading (List Node) ts :=
  match us, h with
  | .group .bracket opening children closing :: vs, h =>
    if opening.toToken.opensLine then
      .done nodes (.group .bracket opening children closing :: vs) h
    else
      match group .bracket opening children closing with
      | .ok g => indexed (nodes ++ [.group g]) vs h.tail
      | .error fault => .failed fault vs
  | us, h => .done nodes us h
  termination_by 16 * Tree.weightAll us
  decreasing_by all_goals grind

/-- A type without operators and index brackets. -/
def primary (closing : Option Nat) (ts : List Tree) : Reading (List Node) ts :=
  match ts with
  | [] => .unexpected "a type" closing []
  | .token l :: us =>
    match l.kind with
    | .identifier =>
      if l.text ∈ operandPrefixes then ((operand closing us).map (.token l.toToken :: ·)).after
      else if l.text ∈ primaryPrefixes then
        ((primary closing us).map (.token l.toToken :: ·)).after
      else if l.text = "infer" then
        ((Reading.expect .identifier "a type" closing us).map fun name =>
          [.token l.toToken, .token name]).after
      else if l.text = "typeof" then
        ((Reading.expect .identifier "a type" closing us).andThen fun name vs h =>
          dottedRest closing [.token l.toToken, .token name] vs h).after
      else if l.text ∈ builtinTypes then .done [.token l.toToken] us (.tail_of_cons _ _)
      else
        (typeReference closing (.token l :: us)).andThen fun reference vs h =>
          match vs, h with
          | .token word :: ws, h =>
            if word.toToken.isWord "is" then
              ((type closing true ws).within h.tail).map fun nodes =>
                .typeRef reference :: .token word.toToken :: nodes
            else .done [.typeRef reference] (.token word :: ws) h
          | vs, h => .done [.typeRef reference] vs h
    | .string | .number | .template => .done [.token l.toToken] us (.tail_of_cons _ _)
    | .operator =>
      if l.text = "-" then
        ((Reading.expect .number "a type" closing us).map fun number =>
          [.token l.toToken, .token number]).after
      else .unexpected "a type" closing (.token l :: us)
    | .lessThan =>
      (typeParameters closing (.token l :: us)).andThen fun parameters vs h =>
        ((primary closing vs).within h).map (parameters ++ ·)
    | _ => .unexpected "a type" closing (.token l :: us)
  | .group delimiter opening children close :: us =>
    match delimiter, Tree.frontToken? .arrow us with
    | .paren, some arrow =>
      (Reading.ofExcept (group .paren opening children close) us (.tail_of_cons _ _)).andThen
        fun g us h =>
          ((type closing true (us.drop 1)).within (h.drop 1)).map fun nodes =>
            .group g :: .token arrow :: nodes
    | .paren, none =>
      (Reading.ofExcept (parenthesized opening children close) us (.tail_of_cons _ _)).map
        fun g => [.group g]
    | delimiter, _ =>
      (Reading.ofExcept (group delimiter opening children close) us (.tail_of_cons _ _)).map
        fun g => [.group g]
  termination_by 16 * Tree.weightAll ts + 6
  decreasing_by all_goals grind

def parenthesized (opening : Lexeme) (children : List Tree) (close : Lexeme) :
    Except Fault Group :=
  match type (some close.offset) true children with
  | .done nodes [] _ => .ok ⟨.paren, opening.toToken, nodes, close.toToken⟩
  | .done _ (t :: ts) _ =>
    .error (.unexpectedFront "a parenthesized type" (some close.offset) (t :: ts))
  | .failed fault _ => .error fault
  termination_by 16 * Tree.weightAll children + 10
  decreasing_by all_goals grind

/-- A named type with its type arguments, if a list of them follows. -/
def typeReference (closing : Option Nat) (ts : List Tree) : Reading TypeRef ts :=
  match ts with
  | .token name :: us =>
    if name.kind = .identifier then
      let path := qualifiers us
      let vs := us.drop (2 * path.length)
      let h := (Follows.tail_of_cons (.token name) us).drop (2 * path.length)
      if (Tree.frontToken? .lessThan vs).isSome then
        ((typeArguments closing vs).within h).map fun arguments =>
          ⟨name.toToken, path, some arguments⟩
      else .done ⟨name.toToken, path, none⟩ vs h
    else .unexpected "a type" closing (.token name :: us)
  | ts => .unexpected "a type" closing ts
  termination_by 16 * Tree.weightAll ts
  decreasing_by all_goals grind

def typeArguments (closing : Option Nat) (ts : List Tree) : Reading TypeArguments ts :=
  match ts with
  | .token opening :: us =>
    if opening.kind = .lessThan then
      ((typeArgumentsRest closing us).map fun (items, close) =>
        ⟨opening.toToken, items, close⟩).after
    else .unexpected "a type argument list" closing (.token opening :: us)
  | ts => .unexpected "a type argument list" closing ts
  termination_by 16 * Tree.weightAll ts
  decreasing_by all_goals grind

/-- The type arguments up to the closing angle bracket, and that bracket. -/
def typeArgumentsRest (closing : Option Nat) (ts : List Tree) :
    Reading (List TypeArgument × Token) ts :=
  match Tree.frontToken? .greaterThan ts, ts with
  | some close, _ :: us => .done ([], close) us (.tail_of_cons _ _)
  | _, ts =>
    (type closing true ts).andThen fun nodes us h =>
      match us, h with
      | .token l :: vs, h =>
        if l.kind = .comma then
          ((typeArgumentsRest closing vs).within h.tail).map fun (items, close) =>
            (⟨nodes, some l.toToken⟩ :: items, close)
        else if l.kind = .greaterThan then .done ([⟨nodes, none⟩], l.toToken) vs h.tail
        else .unexpected "a type argument list" closing (.token l :: vs)
      | us, _ => .unexpected "a type argument list" closing us
  termination_by 16 * Tree.weightAll ts + 10
  decreasing_by all_goals grind

/-- A list of type parameters: trees up to the angle bracket that matches the first, as nodes. -/
def typeParameters (closing : Option Nat) (ts : List Tree) : Reading (List Node) ts :=
  match ts with
  | .token opening :: us =>
    if opening.kind = .lessThan then
      match angleLength? 1 us with
      | some n =>
        .ofExcept (sequence none none ((.token opening :: us).take (n + 1))) (us.drop n)
          ((Follows.tail_of_cons _ _).drop n)
      | none => .failed ⟨.unclosed "<", some opening.offset⟩ []
    else .unexpected "a type parameter list" closing (.token opening :: us)
  | ts => .unexpected "a type parameter list" closing ts
  termination_by 16 * Tree.weightAll ts + 5
  decreasing_by all_goals grind

/-- Length of the unary expression at the front: prefix operators, a group or a primary token, and
what is chained to it. Zero when there is none. -/
def operandLength (ts : List Tree) : Nat :=
  let n := (ts.takeWhile isUnaryOperator).length
  match _h : ts.drop n with
  | t :: us => if isOperandCore t then n + 1 + chainLength us else 0
  | [] => 0
  termination_by 16 * Tree.weightAll ts
  decreasing_by all_goals grind

/-- Length of the member accesses, calls, templates and assertions chained to an operand. -/
def chainLength (ts : List Tree) : Nat :=
  match ts with
  | .token l :: us =>
    match l.kind with
    | .dot => if us.head?.any isMemberName then 2 + chainLength (us.drop 1) else 0
    | .questionDot => if us.head?.any isOptionalLink then 2 + chainLength (us.drop 1) else 0
    | .template | .bang => if l.toToken.isAttached then 1 + chainLength us else 0
    | .lessThan =>
      if l.toToken.isAttached then
        match typeArguments none (.token l :: us) with
        | .done _ vs _ =>
          if vs.head?.any (·.isGroup .paren) then us.length + 1 - vs.length + chainLength vs else 0
        | .failed _ _ => 0
      else 0
    | _ => 0
  | .group d opening _ _ :: us =>
    if d = .brace || opening.toToken.opensLine then 0 else 1 + chainLength us
  | [] => 0
  termination_by 16 * Tree.weightAll ts + 1
  decreasing_by all_goals grind

/-- The nodes that some trees stand for; `parent` is the delimiter around them and `last` the node
in front of them. -/
def sequence (parent : Option Delimiter) (last : Option Node) (ts : List Tree) :
    Except Fault (List Node) :=
  match ts with
  | [] => .ok []
  | .group d opening children closing :: us =>
    match group d opening children closing with
    | .ok g => (sequence parent (some (.group g)) us).map (.group g :: ·)
    | .error fault => .error fault
  | .token l :: us =>
    match
      if l.kind = .identifier && !last.any opensMemberAccess then construct parent last l us
      else none with
    | some (.done node vs _) => (sequence parent (some node) vs).map (node :: ·)
    | some (.failed fault _) => .error fault
    | none => (sequence parent (some (.token l.toToken)) us).map (.token l.toToken :: ·)
  termination_by 16 * Tree.weightAll ts + 4
  decreasing_by all_goals grind

def group (d : Delimiter) (opening : Lexeme) (children : List Tree) (closing : Lexeme) :
    Except Fault Group :=
  (sequence (some d) none children).map fun nodes =>
    ⟨d, opening.toToken, nodes, closing.toToken⟩
  termination_by 16 * Tree.weightAll children + 5
  decreasing_by all_goals grind

/-- The construct that an identifier begins, if it begins one. -/
def construct (parent : Option Delimiter) (last : Option Node) (l : Lexeme) (us : List Tree) :
    Option (Reading Node (.token l :: us)) :=
  if l.text = "class" then classDecl parent last l us
  else if l.text = "for" then forOf l us
  else if l.text = "await" then await l us
  else
    match attachedReference l us with
    | some reading => some reading
    | none => access l us
  termination_by 16 * (Tree.weightAll us + 1) + 3
  decreasing_by all_goals grind

/-- A class, when a body comes after what may stand in front of one. -/
def classDecl (parent : Option Delimiter) (last : Option Node) (l : Lexeme) (us : List Tree) :
    Option (Reading Node (.token l :: us)) :=
  match className? us with
  | none => none
  | some name =>
    match splitAtBody? 0 (us.drop name.toList.length) with
    | none => none
    | some split =>
      match sequence parent none split.heritage with
      | .error fault => some (.failed fault us)
      | .ok heritage =>
        some ((Reading.ofExcept (members (some split.closing.offset) split.children) split.rest
          (split.follows.trans ((Follows.tail_of_cons _ us).drop _))).map fun members =>
            .classDecl ⟨l.toToken, name, heritage, split.opening.toToken, members,
              split.closing.toToken, isValuePosition parent last⟩)
  termination_by 16 * Tree.weightAll us + 5
  decreasing_by all_goals grind

def forOf (l : Lexeme) (us : List Tree) : Option (Reading Node (.token l :: us)) :=
  match us with
  | .group .paren opening children closing :: vs =>
    if children.any (·.isWord "of") then
      some ((Reading.ofExcept (group .paren opening children closing) vs
        ((Follows.tail_of_cons _ _).tail)).map fun head => .forOf l.toToken none head)
    else none
  | .token word :: .group .paren opening children closing :: vs =>
    if word.toToken.isWord "await" then
      some ((Reading.ofExcept (group .paren opening children closing) vs
        ((Follows.tail_of_cons _ _).tail.tail)).map fun head =>
          .forOf l.toToken (some word.toToken) head)
    else none
  | _ => none
  termination_by 16 * Tree.weightAll us + 5
  decreasing_by all_goals grind

def await (l : Lexeme) (us : List Tree) : Option (Reading Node (.token l :: us)) :=
  let n := operandLength us
  if n = 0 then none
  else
    some ((Reading.ofExcept (sequence none none (us.take n)) (us.drop n)
      ((Follows.tail_of_cons _ _).drop n)).map fun operand => .await l.toToken operand)
  termination_by 16 * Tree.weightAll us + 5
  decreasing_by all_goals grind

/-- A type reference in an expression or a heritage clause: its type arguments are attached to the
name, and what comes after them may follow a type. -/
def attachedReference (l : Lexeme) (us : List Tree) : Option (Reading Node (.token l :: us)) :=
  match us with
  | .token opening :: us =>
    if opening.kind = .lessThan && opening.toToken.isAttached then
      match typeReference none (.token l :: .token opening :: us) with
      | .done reference vs h =>
        if reference.arguments.isSome && mayFollowType vs then
          some (.done (.typeRef reference) vs h)
        else none
      | .failed _ _ => none
    else none
  | _ => none
  termination_by 16 * (Tree.weightAll us + 1) + 1
  decreasing_by all_goals grind

def members (closing : Option Nat) (ts : List Tree) : Except Fault (List Member) :=
  match ts with
  | [] => .ok []
  | t :: us =>
    match member closing (t :: us) with
    | .done m vs _ => (members closing vs).map (m :: ·)
    | .failed fault _ => .error fault
  termination_by 16 * Tree.weightAll ts + 15
  decreasing_by all_goals grind

/-- A member; what is neither a method nor a `get` accessor keeps its trees. -/
def member (closing : Option Nat) (ts : List Tree) : Reading Member ts :=
  match Tree.frontToken? .semicolon ts, ts with
  | some semicolon, _ :: us => .done (.other [.token semicolon]) us (.tail_of_cons _ _)
  | _, ts =>
    (declared closing [] ts).andThen fun found us h =>
      match found with
      | .member m => .done m us h
      | .verbatim =>
        (Reading.ofExcept (sequence (some .brace) none (Tree.before ts us)) us h).map .other
      | .property =>
        let vs := us.drop (propertyLength (Tree.before ts us).getLast? us)
        (Reading.ofExcept (sequence (some .brace) none (Tree.before ts vs)) vs
          (h.drop _)).map .other
  termination_by 16 * Tree.weightAll ts + 13
  decreasing_by all_goals grind

/-- A member after the decorators that have been read. -/
def declared (closing : Option Nat) (decorators : List Clause) (ts : List Tree) :
    Reading Declared ts :=
  match ts with
  | .token mark :: us =>
    if mark.kind = .atSign then
      ((Reading.expect .identifier "a decorator" closing us).andThen fun _ vs h =>
        let ws := vs.drop (decoratorLength vs)
        (Reading.ofExcept (sequence none none (Tree.before us ws)) ws (h.drop _)).andThen
          fun expression ws h =>
            (declared closing (decorators ++ [⟨mark.toToken, expression⟩]) ws).within h).after
    else named closing decorators (.token mark :: us)
  | ts => named closing decorators ts
  termination_by 16 * Tree.weightAll ts + 12
  decreasing_by all_goals grind

/-- A member after its decorators. -/
def named (closing : Option Nat) (decorators : List Clause) (ts : List Tree) :
    Reading Declared ts :=
  let head := memberHead ts
  match _h : ts.drop head.length with
  | .token l :: us =>
    if l.kind = .identifier then
      signature closing decorators head (.identifier l.toToken) us (.of_drop_eq_cons _h)
    else if l.kind ∈ [.string, .number, .privateName] then
      signature closing decorators head (.literal l.toToken) us (.of_drop_eq_cons _h)
    else .unexpected "a class body" closing (.token l :: us)
  | .group .bracket opening children close :: us =>
    (Reading.ofExcept (group .bracket opening children close) us (.of_drop_eq_cons _h)).andThen
      fun name us h => signature closing decorators head (.computed name) us h
  | us => .unexpected "a class body" closing us
  termination_by 16 * Tree.weightAll ts + 11
  decreasing_by all_goals grind

/-- A member after its name. Without parameters it is a property. -/
def signature {ts : List Tree} (closing : Option Nat) (decorators : List Clause)
    (head : MemberHead) (name : MemberName) (us : List Tree) (h : Follows us ts) :
    Reading Declared ts :=
  let question := (Tree.frontToken? .question us).or (Tree.frontToken? .bang us)
  let us' := us.drop question.toList.length
  (if (Tree.frontToken? .lessThan us').isSome then
      (typeParameters closing us').within (h.drop question.toList.length)
    else .done [] us' (h.drop question.toList.length)).andThen fun generics vs h =>
      match vs, h with
      | .group .paren opening children close :: vs, h =>
        match parameters (some close.offset) children with
        | .error fault => .failed fault vs
        | .ok items =>
          (typeClause closing vs h.tail).andThen fun returnType vs h =>
            (body vs h).andThen fun body vs h =>
              let terminator := if body.isSome then none else Tree.frontToken? .semicolon vs
              .done (declare decorators head name question generics
                ⟨opening.toToken, items, close.toToken⟩ returnType body terminator)
                (vs.drop terminator.toList.length) (h.drop _)
      | vs, h => .done .property vs h
  termination_by 16 * Tree.weightAll ts + 10
  decreasing_by all_goals grind

/-- A type after a colon, if one comes. -/
def typeClause {ts : List Tree} (closing : Option Nat) (us : List Tree) (h : Follows us ts) :
    Reading (Option Clause) ts :=
  match Tree.frontToken? .colon us with
  | none => .done none us h
  | some colon =>
    ((type closing true (us.drop 1)).within (h.drop 1)).map fun nodes => some ⟨colon, nodes⟩
  termination_by 16 * Tree.weightAll us + 10
  decreasing_by all_goals grind

def body {ts : List Tree} (us : List Tree) (h : Follows us ts) : Reading (Option Group) ts :=
  match us, h with
  | .group .brace opening children closing :: vs, h =>
    (Reading.ofExcept (group .brace opening children closing) vs h.tail).map some
  | us, h => .done none us h
  termination_by 16 * Tree.weightAll us + 10
  decreasing_by all_goals grind

def parameters (closing : Option Nat) (ts : List Tree) : Except Fault (List Parameter) :=
  match ts with
  | [] => .ok []
  | t :: us =>
    match parameter closing (t :: us) with
    | .done p vs _ => (parameters closing vs).map (p :: ·)
    | .failed fault _ => .error fault
  termination_by 16 * Tree.weightAll ts + 12
  decreasing_by all_goals grind

def parameter (closing : Option Nat) (ts : List Tree) : Reading Parameter ts :=
  let modifiers := modifiersOfParameter ts
  let rest := Tree.frontToken? .ellipsis (ts.drop modifiers.length)
  match _h : ts.drop (modifiers.length + rest.toList.length) with
  | .token l :: us =>
    if l.kind = .identifier then
      bound closing modifiers rest (.identifier l.toToken) us (.of_drop_eq_cons _h)
    else .unexpected "a parameter list" closing (.token l :: us)
  | .group d opening children close :: us =>
    if d = .paren then
      .unexpected "a parameter list" closing (.group d opening children close :: us)
    else
      (Reading.ofExcept (group d opening children close) us (.of_drop_eq_cons _h)).andThen
        fun g us h => bound closing modifiers rest (.pattern g) us h
  | [] => .unexpected "a parameter list" closing []
  termination_by 16 * Tree.weightAll ts + 11
  decreasing_by all_goals grind

/-- A parameter after what it binds. -/
def bound {ts : List Tree} (closing : Option Nat) (modifiers : List Token) (rest : Option Token)
    (binding : Binding) (us : List Tree) (h : Follows us ts) : Reading Parameter ts :=
  let question := Tree.frontToken? .question us
  (typeClause closing (us.drop question.toList.length) (h.drop _)).andThen fun type vs h =>
    (initializer vs h).andThen fun value vs h =>
      let comma := Tree.frontToken? .comma vs
      if comma.isNone && !vs.isEmpty then .unexpected "a parameter list" closing vs
      else
        .done ⟨modifiers, rest, binding, question, type, value, comma⟩
          (vs.drop comma.toList.length) (h.drop _)
  termination_by 16 * Tree.weightAll ts + 10
  decreasing_by all_goals grind

/-- A default value after an equals sign, if one comes. -/
def initializer {ts : List Tree} (us : List Tree) (h : Follows us ts) :
    Reading (Option Clause) ts :=
  match Tree.frontToken? .equals us with
  | none => .done none us h
  | some equals =>
    let n := argumentLength 0 false (us.drop 1)
    (Reading.ofExcept (sequence (some .paren) none ((us.drop 1).take n)) ((us.drop 1).drop n)
      ((h.drop 1).drop n)).map fun value => some ⟨equals, value⟩
  termination_by 16 * Tree.weightAll us + 10
  decreasing_by all_goals grind

end

end TwinClasses.Reader
