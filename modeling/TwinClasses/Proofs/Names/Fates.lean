import Mathlib.Data.List.Forall2
import TwinClasses.Proofs.Conversion.Edits
import TwinClasses.Proofs.Names.Roles

set_option autoImplicit false

/-! What becomes of tokens, by what they are in their tree. A node of its own gets the name that the
table has for it; behind the dot of a property access or of a qualified type, names stay, but for
`Symbol.asyncIterator`. -/

namespace TwinClasses

open Edit

/-- What conversion may do to a token at this place. -/
def Occurrence.Admits (types : TypeTable) (o : Occurrence) (t : Token) : Fate → Prop
  | .dropped => True
  | .replaced => o.role = .other
  | .kept _ text =>
    match o.role with
    | .plain => text = (types.rename t).text
    | .property object =>
      text = if object = "Symbol" && o.text = "asyncIterator" then "iterator" else o.text
    | .qualified => text = o.text
    | .other => True

structure Edit.Suits (types : TypeTable) (e : Edit) (o : Occurrence) : Prop where
  kind : e.token.kind = o.kind
  text : e.token.text = o.text
  fate : o.Admits types e.token e.fate

/-- The edits suit the occurrences, one by one. -/
def Edit.AllSuit (types : TypeTable) (es : List Edit) (os : List Occurrence) : Prop :=
  List.Forall₂ (Edit.Suits types) es os

namespace Edit.AllSuit

variable {types : TypeTable} {es fs : List Edit} {os ps : List Occurrence}

theorem nil : AllSuit types [] [] := List.Forall₂.nil

theorem append (h : AllSuit types es os) (h' : AllSuit types fs ps) :
    AllSuit types (es ++ fs) (os ++ ps) := List.rel_append h h'

theorem keep_other (t : Token) (h : AllSuit types es os) :
    AllSuit types (keep t :: es) (t.as .other :: os) := .cons ⟨rfl, rfl, trivial⟩ h

theorem rename_other (t : Token) (h : AllSuit types es os) :
    AllSuit types (respell t (types.rename t).text :: es) (t.as .other :: os) :=
  .cons ⟨rfl, rfl, trivial⟩ h

theorem replace (t : Token) (h : AllSuit types es os) :
    AllSuit types (Edit.replace t :: es) (t.as .other :: os) := .cons ⟨rfl, rfl, rfl⟩ h

theorem drop_other (t : Token) (h : AllSuit types es os) :
    AllSuit types (drop t :: es) (t.as .other :: os) := .cons ⟨rfl, rfl, trivial⟩ h

theorem keepAll (ts : List Token) :
    AllSuit types (Edit.keepAll ts) (ts.map (Token.as .other)) := by
  induction ts with
  | nil => exact .nil
  | cons t ts ih => exact ih.keep_other t

/-- Trivia that is taken over makes no difference. -/
theorem handOver (leading : String) (h : AllSuit types es os) :
    AllSuit types (Edit.handOver leading es) os := by
  induction h with
  | nil => exact .nil
  | @cons e o es os he hes ih =>
    obtain ⟨t, fate⟩ := e
    cases fate with
    | kept taken text => exact .cons ⟨he.kind, he.text, he.fate⟩ hes
    | replaced => exact .cons he ih
    | dropped => exact .cons he ih

theorem rename_ledBy (types : TypeTable) (t : Token) (leading : String) :
    (types.rename (t.ledBy leading)).text = (types.rename t).text := by
  by_cases hk : t.kind = .identifier
  · cases hr : types.rename? t.text <;> simp [TypeTable.rename, Token.ledBy, Token.spelled, hk, hr]
  · simp [TypeTable.rename, Token.ledBy, hk]

theorem withTrivia (leading : String) (h : AllSuit types es os) :
    AllSuit types (Edit.withTrivia leading es) os := by
  cases h with
  | nil => exact .nil
  | @cons e o es os he hes =>
    refine .cons ⟨he.kind, he.text, ?_⟩ hes
    have hfate := he.fate
    unfold Occurrence.Admits at hfate ⊢
    rw [rename_ledBy]
    exact hfate

/-- Whatever is kept may be dropped as well. -/
theorem dropAll (h : AllSuit types es os) : AllSuit types (Edit.dropAll (tokens es)) os := by
  induction h with
  | nil => exact .nil
  | cons he _ ih => exact .cons ⟨he.kind, he.text, trivial⟩ ih

theorem kinds (h : AllSuit types es os) :
    os.map Occurrence.kind = (tokens es).map Token.kind := by
  induction h with
  | nil => rfl
  | cons he _ ih => exact congrArg₂ List.cons he.kind.symm ih

/-- The dots and names of a path, all kept. -/
theorem path (steps : List (Token × Token)) :
    AllSuit types (Edit.keepAll (steps.flatMap fun (dot, name) => [dot, name]))
      (steps.flatMap fun (dot, name) => [dot.as .other, name.as .qualified]) := by
  induction steps with
  | nil => exact .nil
  | cons step steps ih =>
    obtain ⟨dot, name⟩ := step
    exact .cons ⟨rfl, rfl, trivial⟩ (.cons ⟨rfl, rfl, rfl⟩ ih)

end Edit.AllSuit

section

variable (types : TypeTable)

mutual

theorem Node.suit_edits : ∀ n : Node, AllSuit types (n.edits types) n.occurrences
  | .token t => by
    rw [Node.edits, Node.occurrences]
    exact .cons ⟨rfl, rfl, rfl⟩ .nil
  | .group g => by
    rw [Node.edits, Node.occurrences]
    exact Group.suit_edits g
  | .classDecl c => by
    rw [Node.edits, Node.occurrences]
    exact ClassDecl.suit_edits c
  | .forOf keyword none head => by
    rw [Node.edits, Node.occurrences]
    exact (Group.suit_edits head).keep_other keyword
  | .forOf keyword (some awaiting) head => by
    rw [Node.edits, Node.occurrences]
    exact (((Group.suit_edits head).handOver awaiting.leading).replace awaiting).keep_other keyword
  | .await keyword operand => by
    rw [Node.edits, Node.occurrences]
    exact ((Node.suit_editsAll operand).handOver keyword.leading).replace keyword
  | .access object dot name => by
    rw [Node.edits, Node.occurrences]
    unfold isAsyncIterator
    split
    · rename_i h
      refine .keep_other object (.keep_other dot (.cons ⟨rfl, rfl, ?_⟩ .nil))
      exact (if_pos h).symm
    · rename_i h
      refine .rename_other object (.keep_other dot (.cons ⟨rfl, rfl, ?_⟩ .nil))
      exact (if_neg h).symm
  | .typeRef r => by
    rw [Node.edits, Node.occurrences]
    exact TypeRef.suit_edits r

theorem Node.suit_editsAll :
    ∀ ns : List Node, AllSuit types (Node.editsAll types ns) (Node.occurrencesAll ns)
  | [] => by
    rw [Node.editsAll, Node.occurrencesAll]
    exact .nil
  | n :: ns => by
    rw [Node.editsAll, Node.occurrencesAll]
    exact (Node.suit_edits n).append (Node.suit_editsAll ns)

theorem Group.suit_edits : ∀ g : Group, AllSuit types (g.edits types) g.occurrences
  | ⟨_, opening, children, closing⟩ => by
    rw [Group.edits, Group.occurrences]
    exact ((Node.suit_editsAll children).keep_other opening).append (.keep_other closing .nil)

theorem Group.suit_editsOption : ∀ g : Option Group,
    AllSuit types (Group.editsOption types g) (Group.occurrencesOption g)
  | none => by
    rw [Group.editsOption, Group.occurrencesOption]
    exact .nil
  | some g => by
    rw [Group.editsOption, Group.occurrencesOption]
    exact Group.suit_edits g

theorem Clause.suit_edits : ∀ c : Clause, AllSuit types (c.edits types) c.occurrences
  | ⟨mark, content⟩ => by
    rw [Clause.edits, Clause.occurrences]
    exact (Node.suit_editsAll content).keep_other mark

theorem Clause.suit_editsAll : ∀ cs : List Clause,
    AllSuit types (Clause.editsAll types cs) (Clause.occurrencesAll cs)
  | [] => by
    rw [Clause.editsAll, Clause.occurrencesAll]
    exact .nil
  | c :: cs => by
    rw [Clause.editsAll, Clause.occurrencesAll]
    exact (Clause.suit_edits c).append (Clause.suit_editsAll cs)

theorem Clause.suit_editsOption : ∀ c : Option Clause,
    AllSuit types (Clause.editsOption types c) (Clause.occurrencesOption c)
  | none => by
    rw [Clause.editsOption, Clause.occurrencesOption]
    exact .nil
  | some c => by
    rw [Clause.editsOption, Clause.occurrencesOption]
    exact Clause.suit_edits c

theorem TypeRef.suit_edits : ∀ r : TypeRef, AllSuit types (r.edits types) r.occurrences
  | ⟨name, dot :: path, arguments⟩ => by
    rw [TypeRef.edits, TypeRef.occurrences]
    exact ((AllSuit.path (dot :: path)).keep_other name).append
      (TypeArguments.suit_editsOption arguments)
  | ⟨name, [], none⟩ => by
    rw [TypeRef.edits, TypeRef.occurrences, TypeArguments.occurrencesOption]
    exact .rename_other name .nil
  | ⟨name, [], some arguments⟩ => by
    rw [TypeRef.edits, TypeRef.occurrences, TypeArguments.occurrencesOption]
    split
    · exact ((TypeArguments.suit_editsOfFirst arguments).handOver name.leading).replace name
    · exact (TypeArguments.suit_edits arguments).rename_other name

theorem TypeArguments.suit_edits :
    ∀ a : TypeArguments, AllSuit types (a.edits types) a.occurrences
  | ⟨opening, items, closing⟩ => by
    rw [TypeArguments.edits, TypeArguments.occurrences]
    exact ((TypeArgument.suit_editsAll items).keep_other opening).append (.keep_other closing .nil)

theorem TypeArguments.suit_editsOption : ∀ a : Option TypeArguments,
    AllSuit types (TypeArguments.editsOption types a) (TypeArguments.occurrencesOption a)
  | none => by
    rw [TypeArguments.editsOption, TypeArguments.occurrencesOption]
    exact .nil
  | some a => by
    rw [TypeArguments.editsOption, TypeArguments.occurrencesOption]
    exact TypeArguments.suit_edits a

theorem TypeArguments.suit_editsOfFirst :
    ∀ a : TypeArguments, AllSuit types (a.editsOfFirst types) a.occurrences
  | ⟨opening, [], closing⟩ => by
    rw [TypeArguments.editsOfFirst, TypeArguments.occurrences, TypeArgument.occurrencesAll]
    exact .keep_other opening (.keep_other closing .nil)
  | ⟨opening, ⟨type, comma⟩ :: items, closing⟩ => by
    have hcomma : AllSuit types (dropAll comma.toList) (comma.toList.map (Token.as .other)) := by
      have h : AllSuit types _ _ := (AllSuit.keepAll comma.toList).dropAll
      rwa [tokens_keepAll] at h
    have hitems : AllSuit types (dropAll (TypeArgument.tokensAll items))
        (TypeArgument.occurrencesAll items) := by
      have h := (TypeArgument.suit_editsAll items).dropAll
      rwa [TypeArgument.tokens_editsAll] at h
    rw [TypeArguments.editsOfFirst, TypeArguments.occurrences, TypeArgument.occurrencesAll,
      TypeArgument.occurrences]
    have hall := (((Node.suit_editsAll type).append hcomma).append hitems).append
      (.drop_other closing .nil)
    simpa [List.append_assoc] using hall.drop_other opening

theorem TypeArgument.suit_edits :
    ∀ a : TypeArgument, AllSuit types (a.edits types) a.occurrences
  | ⟨type, comma⟩ => by
    rw [TypeArgument.edits, TypeArgument.occurrences]
    exact (Node.suit_editsAll type).append (.keepAll comma.toList)

theorem TypeArgument.suit_editsAll : ∀ as : List TypeArgument,
    AllSuit types (TypeArgument.editsAll types as) (TypeArgument.occurrencesAll as)
  | [] => by
    rw [TypeArgument.editsAll, TypeArgument.occurrencesAll]
    exact .nil
  | a :: as => by
    rw [TypeArgument.editsAll, TypeArgument.occurrencesAll]
    exact (TypeArgument.suit_edits a).append (TypeArgument.suit_editsAll as)

theorem ClassDecl.suit_edits : ∀ c : ClassDecl, AllSuit types (c.edits types) c.occurrences
  | ⟨keyword, name, heritage, opening, members, closing, _⟩ => by
    rw [ClassDecl.edits, ClassDecl.occurrences]
    have hfront := (AllSuit.keepAll name.toList).append (Node.suit_editsAll heritage)
    exact ((hfront.keep_other keyword).append
      ((Member.suit_editsAll members).keep_other opening)).append (.keep_other closing .nil)

theorem Member.suit_edits : ∀ m : Member, AllSuit types (m.edits types) m.occurrences
  | .method m => by
    rw [Member.edits, Member.occurrences]
    exact Method.suit_edits m
  | .getter g => by
    rw [Member.edits, Member.occurrences]
    exact Getter.suit_edits g
  | .other ns => by
    rw [Member.edits, Member.occurrences]
    exact Node.suit_editsAll ns

theorem Member.suit_editsAll : ∀ ms : List Member,
    AllSuit types (Member.editsAll types ms) (Member.occurrencesAll ms)
  | [] => by
    rw [Member.editsAll, Member.occurrencesAll]
    exact .nil
  | m :: ms => by
    rw [Member.editsAll, Member.occurrencesAll]
    exact (Member.suit_edits m).append (Member.suit_editsAll ms)

theorem Method.suit_edits : ∀ m : Method, AllSuit types (m.edits types) m.occurrences
  | ⟨leading, decorators, modifiers, asterisk, name, question, typeParameters, parameters,
      returnType, body, terminator⟩ => by
    rw [Method.edits, Method.occurrences]
    exact (((((((((Clause.suit_editsAll decorators).append (.keepAll modifiers)).append
      (.keepAll asterisk.toList)).append (MemberName.suit_edits name)).append
      (.keepAll question.toList)).append (Node.suit_editsAll typeParameters)).append
      (ParameterList.suit_edits parameters)).append (Clause.suit_editsOption returnType)).append
      (Group.suit_editsOption body)).append (.keepAll terminator.toList) |>.withTrivia leading

theorem Getter.suit_edits : ∀ g : Getter, AllSuit types (g.edits types) g.occurrences
  | ⟨leading, decorators, modifiers, keyword, name, parameters, returnType, body,
      terminator⟩ => by
    rw [Getter.edits, Getter.occurrences]
    have hname := (MemberName.suit_edits name).keep_other keyword
    have hfront := ((Clause.suit_editsAll decorators).append (.keepAll modifiers)).append hname
    exact ((((hfront.append (ParameterList.suit_edits parameters)).append
      (Clause.suit_editsOption returnType)).append (Group.suit_editsOption body)).append
      (.keepAll terminator.toList)).withTrivia leading

theorem MemberName.suit_edits : ∀ n : MemberName, AllSuit types (n.edits types) n.occurrences
  | .identifier t | .literal t => by
    rw [MemberName.edits, MemberName.occurrences]
    exact .keep_other t .nil
  | .computed g => by
    rw [MemberName.edits, MemberName.occurrences]
    exact Group.suit_edits g

theorem ParameterList.suit_edits :
    ∀ ps : ParameterList, AllSuit types (ps.edits types) ps.occurrences
  | ⟨opening, items, closing⟩ => by
    rw [ParameterList.edits, ParameterList.occurrences]
    exact ((Parameter.suit_editsAll items).keep_other opening).append (.keep_other closing .nil)

theorem Parameter.suit_edits : ∀ p : Parameter, AllSuit types (p.edits types) p.occurrences
  | ⟨modifiers, rest, binding, question, type, initializer, comma⟩ => by
    rw [Parameter.edits, Parameter.occurrences]
    have hfront : AllSuit types _ _ := (AllSuit.keepAll modifiers).append (.keepAll rest.toList)
    exact ((((hfront.append (Binding.suit_edits binding)).append
      (.keepAll question.toList)).append (Clause.suit_editsOption type)).append
      (Clause.suit_editsOption initializer)).append (.keepAll comma.toList)

theorem Parameter.suit_editsAll : ∀ ps : List Parameter,
    AllSuit types (Parameter.editsAll types ps) (Parameter.occurrencesAll ps)
  | [] => by
    rw [Parameter.editsAll, Parameter.occurrencesAll]
    exact .nil
  | p :: ps => by
    rw [Parameter.editsAll, Parameter.occurrencesAll]
    exact (Parameter.suit_edits p).append (Parameter.suit_editsAll ps)

theorem Binding.suit_edits : ∀ b : Binding, AllSuit types (b.edits types) b.occurrences
  | .identifier t => by
    rw [Binding.edits, Binding.occurrences]
    exact .keep_other t .nil
  | .pattern g => by
    rw [Binding.edits, Binding.occurrences]
    exact Group.suit_edits g

end

end

end TwinClasses
