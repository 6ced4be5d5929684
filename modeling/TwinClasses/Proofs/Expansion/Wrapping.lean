import TwinClasses.Expansion.Member
import TwinClasses.Proofs.Success

set_option autoImplicit false

/-! Wrappers and the implementations they call. Whatever its flavour, a wrapped stream is expanded
to a method with the stream's name and a private one that has its body. -/

namespace TwinClasses

/-- A method that is expanded to a wrapper and an implementation. -/
def Method.IsWrapped (naming : Naming) (m : Method) : Prop :=
  ∃ t, TemplateMethod.ofMethod naming m = .ok t ∧ t.strategy = .stream true

/-- The method `w` is called `name` and returns a new `owner`, made from what its implementation `i`
returns for the arguments. -/
structure Method.Wraps (naming : Naming) (owner name : String) (arguments : List Node)
    (outer inner : String) (w i : Method) : Prop where
  named : w.name.identifier? = some name
  implemented : i.name.identifier? = some (naming.implementationName name)
  returns : w.body =
    some (returnBody owner (naming.implementationName name) arguments outer inner)

/-- The name without the trivia in front of it. -/
def MemberName.bare (n : MemberName) : MemberName := n.mapFirst (·.ledBy "")

theorem MemberName.bare_mapFirst {f : Token → Token} (hf : ∀ t, (f t).ledBy "" = t.ledBy "")
    (n : MemberName) : (n.mapFirst f).bare = n.bare := by
  cases n <;> simp [bare, mapFirst, hf]

theorem Token.ledBy_placed (first : Bool) (t : Token) :
    (t.placed first).ledBy "" = t.ledBy "" := by
  unfold placed spaced
  split
  · rfl
  · split <;> rfl

theorem MemberName.identifier?_placed (first : Bool) (n : MemberName) :
    (n.mapFirst (Token.placed first)).identifier? = n.identifier? := by
  cases n with
  | identifier t => exact congrArg (fun t => some t.text) (Token.ledBy_placed first t)
  | literal t => rfl
  | computed g => rfl

theorem typeReference?_eq_some {ns : List Node} {r : TypeRef} (h : typeReference? ns = some r) :
    ns = [.typeRef r] := by
  unfold typeReference? at h
  split at h
  · cases h
    rfl
  · cases h

/-- The parts of a method that has been accepted. -/
theorem TemplateMethod.ofMethod_parts {naming : Naming} {m : Method} {t : TemplateMethod}
    (h : ofMethod naming m = .ok t) :
    t.method = m ∧ m.name.printable = .ok t.name ∧
      m.returnType = some ⟨t.colon, [.typeRef t.returnType]⟩ ∧ m.body = some t.body ∧
      ∃ identifier, t.returnType.identifier? = some identifier ∧
        Strategy.ofReturnType naming t.name identifier.text (m.isDecorated naming.wrapperMarker) =
          .ok t.strategy := by
  unfold ofMethod at h
  rw [ok_bind] at h
  obtain ⟨name, hname, h⟩ := h
  split at h
  · cases h
  · rename_i colon type hreturn
    split at h
    · cases h
    · rename_i returnType htype
      obtain rfl := typeReference?_eq_some htype
      split at h
      · cases h
      · rename_i identifier hidentifier
        split at h
        · cases h
        · rename_i body hbody
          rw [ok_bind] at h
          obtain ⟨strategy, hstrategy, h⟩ := h
          cases h
          exact ⟨rfl, hname, hreturn, hbody, identifier, hidentifier, hstrategy⟩

theorem TemplateMethod.ofMethod_eq_ok {naming : Naming} {m : Method} {t : TemplateMethod}
    (h : ofMethod naming m = .ok t) : t.method = m ∧ m.name.printable = .ok t.name :=
  ⟨(ofMethod_parts h).1, (ofMethod_parts h).2.1⟩

/-- Wrapper and implementation, and that they are made from the parts given. -/
theorem TemplateMethod.withWrapper_eq_ok {naming : Naming} {t : TemplateMethod}
    {parts : WrapperParts} {ms : List Member} (h : t.withWrapper naming parts = .ok ms) :
    ∃ name names w i, ms = [.method w, .method i] ∧
      passedNames t.name parts.parameters.items = .ok names ∧
      t.method.name.identifier? = some name ∧ w.name.bare = t.method.name.bare ∧
      i.name.bare = .identifier (.identifier "" (naming.implementationName name)) ∧
      w.parameters = parts.parameters ∧ i.parameters = parts.parameters ∧
      w.Wraps naming parts.owner name (passedArguments names) (indentation t.method.leading)
        (bodyIndentation (indentation t.method.leading) t.body) i := by
  unfold withWrapper at h
  split at h
  · cases h
  · rename_i name hn
    rw [ok_bind] at h
    obtain ⟨names, hnames, h⟩ := h
    simp only [ok_pure] at h
    refine ⟨name, names, _, _, h, hnames, hn, ?_, ?_, rfl, rfl, ?_⟩
    · exact MemberName.bare_mapFirst (Token.ledBy_placed _) _
    · exact MemberName.bare_mapFirst (Token.ledBy_placed _) (.identifier (.identifier "" _))
    · refine ⟨?_, ?_, rfl⟩
      · exact (MemberName.identifier?_placed _ _).trans hn
      · exact MemberName.identifier?_placed _ (.identifier (.identifier "" _))

end TwinClasses
