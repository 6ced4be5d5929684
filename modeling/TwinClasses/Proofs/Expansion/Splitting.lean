import TwinClasses.Proofs.Expansion.Twins
import TwinClasses.Proofs.Lexemes

set_option autoImplicit false

/-! The two methods that a wrapped stream is split into, field by field. The wrapper has the
stream's name and modifiers, and returns its owner, made from what the implementation returns for
the parameters; the implementation is private and has the body. -/

namespace TwinClasses

/-- The argument that passes a parameter on: its name, after dots if it is a rest parameter. There
is none for `this`. -/
def Parameter.argument? (p : Parameter) : Option String :=
  match p.identifier? with
  | none => none
  | some t =>
    if t.text = "this" then none else some ((if p.rest.isSome then "..." else "") ++ t.text)

/-- What stands between the brackets of a call that passes all parameters on. -/
def ParameterList.arguments (ps : ParameterList) : String :=
  ", ".intercalate (ps.items.filterMap Parameter.argument?)

/-- What an implementation returns. -/
def TypeTable.sequence (types : TypeTable) : Flavor → String
  | .synchronous => types.syncSequence
  | .asynchronous => types.asyncSequence

/-- A modifier that an implementation keeps: `private` takes the place of its visibility, and only
the asynchronous one stays `async`. -/
def isKeptModifier (flavor : Flavor) (t : Token) : Bool :=
  t.text ∉ visibilityWords && (flavor = .asynchronous || !t.isWord "async")

namespace TemplateMethod

/-- The parts that a flavor has from the template: converted ones, or those that there are. -/
def PartsAre (types : TypeTable) (t : TemplateMethod) (typeParameters : List Node)
    (parameters : ParameterList) (body : Group) : Flavor → Prop
  | .synchronous => Node.toSyncAll types t.name t.method.typeParameters = .ok typeParameters ∧
    t.method.parameters.toSync types t.name = .ok parameters ∧
    t.body.toSync types t.name = .ok body
  | .asynchronous => typeParameters = t.method.typeParameters ∧
    parameters = t.method.parameters ∧ body = t.body

/-- The wrapper `w` for a method called `name` returns a new `owner`, made from what `impl` returns
for its parameters. -/
structure IsWrapper (t : TemplateMethod) (owner name impl : String) (typeParameters : List Node)
    (parameters : ParameterList) (w : Method) : Prop where
  decorators : w.decorators = []
  modifiers : w.modifiers.map (·.ledBy "") =
    (t.method.modifiers.filter (!·.isWord "async")).map (·.ledBy "")
  asterisk : w.asterisk = none
  name : w.name.identifier? = some name
  typeParameters : w.typeParameters = typeParameters
  parameters : w.parameters = parameters
  returnType : w.returnType =
    some ⟨t.colon, [.typeRef (.named (.identifier " " owner) t.returnType.arguments)]⟩
  body : ∃ g, w.body = some g ∧ g.source =
    " \x7b\n" ++ bodyIndentation (indentation t.method.leading) t.body ++
      "return new " ++ owner ++ "(this." ++ impl ++ "(" ++ w.parameters.arguments ++ "));\n" ++
      indentation t.method.leading ++ "\x7d"

/-- The implementation `i` is private, returns a `sequence`, and has the body. -/
structure IsImplementation (t : TemplateMethod) (flavor : Flavor) (sequence impl : String)
    (typeParameters : List Node) (parameters : ParameterList) (body : Group) (i : Method) :
    Prop where
  decorators : i.decorators = []
  visibility : ∃ v vs, i.modifiers = v :: vs ∧ v.isWord "private" ∧
    (∀ u ∈ vs, u.text ∉ visibilityWords) ∧
    vs.map (·.ledBy "") = (t.method.modifiers.filter (isKeptModifier flavor)).map (·.ledBy "")
  asterisk : i.asterisk.map (·.ledBy "") = t.method.asterisk.map (·.ledBy "")
  name : i.name.identifier? = some impl
  typeParameters : i.typeParameters = typeParameters
  parameters : i.parameters = parameters
  returnType : i.returnType =
    some ⟨t.colon, [.typeRef (.named (.identifier " " sequence) t.returnType.arguments)]⟩
  body : i.body = some body

end TemplateMethod

/-! Arguments. -/

/-- The text of an argument that passes a parameter on. -/
def passedText (rest : Bool) (name : String) : String := (if rest then "..." else "") ++ name

theorem sourceOf_passedArgument (leading : String) (rest : Bool) (name : String) :
    Token.sourceOf (Node.tokensAll (passedArgument leading rest name)) =
      leading ++ passedText rest name := by
  cases rest <;>
    simp [passedArgument, passedText, Node.tokensAll, Node.tokens, Token.source, Token.identifier,
      String.append_assoc]

theorem sourceOf_passedArguments (names : List (Bool × String)) :
    Token.sourceOf (Node.tokensAll (passedArguments names)) =
      ", ".intercalate (names.map fun (rest, name) => passedText rest name) := by
  cases names with
  | nil => rfl
  | cons e names =>
    obtain ⟨rest, name⟩ := e
    rw [passedArguments, Node.tokensAll_append, Token.sourceOf_append, sourceOf_passedArgument,
      String.empty_append]
    induction names generalizing rest name with
    | nil => simp [Node.tokensAll]
    | cons d names ih =>
      obtain ⟨rest', name'⟩ := d
      have hcomma : Token.sourceOf (Node.tokens (.token (.bare .comma ","))) = "," := by
        simp [Node.tokens, Token.source, Token.bare]
      rw [List.flatMap_cons, List.cons_append, Node.tokensAll, Token.sourceOf_append, hcomma,
        Node.tokensAll_append, Token.sourceOf_append, sourceOf_passedArgument, String.append_assoc,
        ih, List.map_cons, List.map_cons, List.map_cons, String.intercalate_cons_cons,
        show ", " = "," ++ " " by decide]
      simp only [String.append_assoc]

theorem source_returnBody (owner impl : String) (names : List (Bool × String))
    (outer inner : String) :
    (returnBody owner impl (passedArguments names) outer inner).source =
      " \x7b\n" ++ inner ++ "return new " ++ owner ++ "(this." ++ impl ++ "(" ++
        ", ".intercalate (names.map fun (rest, name) => passedText rest name) ++ "));\n" ++
        outer ++ "\x7d" := by
  rw [← sourceOf_passedArguments]
  simp only [Group.source, returnBody, Group.of, Delimiter.openText, Delimiter.closeText,
    Token.identifier, Token.bare, Group.tokens, Node.tokensAll, Node.tokens, List.cons_append,
    List.append_nil, List.nil_append, List.append_assoc, Token.sourceOf_cons, Token.source,
    Token.sourceOf_append, Token.sourceOf_nil, String.reduceAppend, String.append_assoc,
    String.empty_append, String.append_empty]
  -- the text of the tokens comes in one piece each, the text of the call in longer ones
  rw [show " \x7b\n" = " \x7b" ++ "\n" by decide,
    show "return new " = "return" ++ (" new" ++ " ") by decide,
    show "(this." = "(" ++ ("this" ++ ".") by decide,
    show "));\n" = ")" ++ (")" ++ (";" ++ "\n")) by decide]
  simp only [String.append_assoc]

/-- Parameters that bind identifiers are passed on. -/
theorem passedNames_of_identifiers (method : String) {ps : List Parameter}
    (h : ∀ p ∈ ps, p.identifier? ≠ none) : ∃ names, passedNames method ps = .ok names ∧
      names.map (fun (rest, name) => passedText rest name) = ps.filterMap Parameter.argument? := by
  induction ps with
  | nil => exact ⟨[], rfl, rfl⟩
  | cons p ps ih =>
    obtain ⟨hp, hps⟩ := List.forall_mem_cons.1 h
    obtain ⟨names, hnames, htexts⟩ := ih hps
    obtain ⟨t, ht⟩ := Option.ne_none_iff_exists'.1 hp
    by_cases hthis : t.text = "this"
    · have hargument : p.argument? = none := by simp [Parameter.argument?, ht, hthis]
      refine ⟨names, ?_, ?_⟩
      · simp [passedNames, ht, hthis, hnames]
      · rw [List.filterMap_cons_none hargument, htexts]
    · have hargument : p.argument? = some (passedText p.rest.isSome t.text) := by
        simp [Parameter.argument?, ht, hthis, passedText]
      refine ⟨(p.rest.isSome, t.text) :: names, ?_, ?_⟩
      · simp [passedNames, ht, hthis, hnames]
      · rw [List.filterMap_cons_some hargument, List.map_cons, htexts]

theorem passedNames_of_pattern {method : String} {ps : List Parameter}
    (h : ∃ p ∈ ps, p.identifier? = none) :
    passedNames method ps = .error (.nonIdentifierParameter method) := by
  induction ps with
  | nil => simp at h
  | cons p ps ih =>
    rw [passedNames]
    cases hp : p.identifier? with
    | none => rfl
    | some t =>
      have hps : ∃ q ∈ ps, q.identifier? = none := by
        obtain ⟨q, hq, hnone⟩ := h
        obtain rfl | hq := List.mem_cons.1 hq
        · rw [hp] at hnone
          cases hnone
        · exact ⟨q, hq, hnone⟩
      rw [ih hps]
      rfl

theorem Parameter.identifier?_eq_none_iff {p : Parameter} :
    p.identifier? = none ↔ ∃ g, p.binding = .pattern g := by
  rw [identifier?]
  cases p.binding <;> simp

theorem Parameter.map_identifier?_of_isTwin {types : TypeTable} {ps qs : List Parameter}
    (h : List.Forall₂ (IsTwin types) ps qs) : ps.map identifier? = qs.map identifier? := by
  induction h with
  | nil => rfl
  | cons hpq _ ih => rw [List.map_cons, List.map_cons, hpq.identifier?, ih]

/-! Headers. -/

theorem map_ledBy_spaceOut (ts : List Token) :
    (spaceOut ts).map (·.ledBy "") = ts.map (·.ledBy "") := by
  cases ts with
  | nil => rfl
  | cons t ts =>
    rw [spaceOut, List.map_cons, List.map_cons, List.map_map]
    exact congrArg (List.cons _) (List.map_congr_left fun t _ => Token.ledBy_spaced t)

theorem text_spaced (t : Token) : t.spaced.text = t.text := by
  unfold Token.spaced
  split <;> rfl

/-- The modifiers of a method before `private` takes the place of the visibility. -/
def keptModifiers (ts : List Token) : Flavor → List Token
  | .synchronous => dropModifier "async" ts
  | .asynchronous => ts

theorem filter_keptModifiers (ts : List Token) (flavor : Flavor) :
    (keptModifiers ts flavor).filter (·.text ∉ visibilityWords) =
      ts.filter (isKeptModifier flavor) := by
  cases flavor with
  | synchronous =>
    rw [keptModifiers, dropModifier, List.filter_filter]
    exact List.filter_congr fun t _ => by simp [isKeptModifier]
  | asynchronous => exact List.filter_congr fun t _ => by simp [isKeptModifier]

theorem spaceOut_asPrivate (ts : List Token) (flavor : Flavor) :
    ∃ v vs, spaceOut (asPrivate (keptModifiers ts flavor)) = v :: vs ∧ v.isWord "private" ∧
      (∀ u ∈ vs, u.text ∉ visibilityWords) ∧
      vs.map (·.ledBy "") = (ts.filter (isKeptModifier flavor)).map (·.ledBy "") := by
  rw [asPrivate, setVisibility, filter_keptModifiers]
  refine ⟨_, _, rfl, rfl, ?_, ?_⟩
  · intro u hu
    obtain ⟨t, ht, rfl⟩ := List.mem_map.1 hu
    have hkept := (List.mem_filter.1 ht).2
    rw [isKeptModifier, Bool.and_eq_true, decide_eq_true_eq] at hkept
    rw [text_spaced]
    exact hkept.1
  · rw [List.map_map]
    exact List.map_congr_left fun t _ => Token.ledBy_spaced t

namespace TemplateMethod

variable {conventions : Conventions} {flavor : Flavor} {owner : String} {m : Method}
  {t : TemplateMethod} {typeParameters : List Node} {parameters : ParameterList} {body : Group}

/-- What a flavor makes a wrapper and an implementation from. -/
def partsFor (types : TypeTable) (t : TemplateMethod) (flavor : Flavor) (owner : String)
    (typeParameters : List Node) (parameters : ParameterList) (body : Group) : WrapperParts where
  owner := owner
  sequence := types.sequence flavor
  implModifiers := asPrivate (keptModifiers t.method.modifiers flavor)
  typeParameters := typeParameters
  parameters := parameters
  body := body

theorem expand_eq_withWrapper (ht : ofMethod conventions.naming m = .ok t)
    (hs : t.strategy = .stream true)
    (hp : t.PartsAre conventions.types typeParameters parameters body flavor) :
    m.expand conventions flavor owner = t.withWrapper conventions.naming
      (t.partsFor conventions.types flavor owner typeParameters parameters body) := by
  rw [Method.expand, ht]
  cases flavor with
  | synchronous =>
    obtain ⟨htypes, hparameters, hbody⟩ := hp
    change t.expandSync conventions owner = _
    rw [expandSync, hs]
    simp only [htypes, hparameters, hbody]
    rfl
  | asynchronous =>
    obtain ⟨rfl, rfl, rfl⟩ := hp
    change t.expandAsync conventions owner = _
    rw [expandAsync, hs]
    rfl

variable (conventions flavor owner typeParameters body) in
theorem withWrapper_splits {name : String} (hn : t.method.name.identifier? = some name)
    (hps : ∀ p ∈ parameters.items, p.identifier? ≠ none) :
    ∃ w i, t.withWrapper conventions.naming
        (t.partsFor conventions.types flavor owner typeParameters parameters body) =
          .ok [.method w, .method i] ∧
      t.IsWrapper owner name (name ++ conventions.naming.implSuffix) typeParameters parameters w ∧
      t.IsImplementation flavor (conventions.types.sequence flavor)
        (name ++ conventions.naming.implSuffix) typeParameters parameters body i := by
  obtain ⟨names, hnames, htexts⟩ := passedNames_of_identifiers t.name hps
  rw [withWrapper, hn]
  refine ⟨_, _, (ok_bind _ _ _).2 ⟨names, hnames, rfl⟩, ?_, ?_⟩
  · exact {
      decorators := rfl
      modifiers := map_ledBy_spaceOut _
      asterisk := rfl
      name := (MemberName.identifier?_placed _ _).trans hn
      typeParameters := rfl
      parameters := rfl
      returnType := rfl
      body := by
        refine ⟨_, rfl, ?_⟩
        rw [source_returnBody, htexts]
        rfl }
  · exact {
      decorators := rfl
      visibility := spaceOut_asPrivate _ _
      asterisk := by
        change Option.map _ (Option.map _ _) = _
        rw [Option.map_map]
        exact congrArg (Option.map · _) (funext fun t => Token.ledBy_placed _ t)
      name := MemberName.identifier?_placed _ (.identifier (.identifier "" _))
      typeParameters := rfl
      parameters := rfl
      returnType := rfl
      body := rfl }

theorem withWrapper_of_computed (naming : Naming) (parts : WrapperParts) {g : Group}
    (hn : t.method.name = .computed g) :
    t.withWrapper naming parts = .error (.nonIdentifierMethodName t.name) := by
  rw [withWrapper, hn]
  rfl

theorem withWrapper_of_pattern (naming : Naming) (parts : WrapperParts) {u : Token}
    (hn : t.method.name = .identifier u)
    (hps : ∃ p ∈ parts.parameters.items, p.identifier? = none) :
    t.withWrapper naming parts = .error (.nonIdentifierParameter t.name) := by
  rw [withWrapper, hn]
  simp only [MemberName.identifier?, passedNames_of_pattern hps]
  rfl

/-- Conversion changes neither identifiers that are bound nor that a pattern is. -/
theorem PartsAre.map_identifier? {types : TypeTable}
    (h : t.PartsAre types typeParameters parameters body flavor) :
    parameters.items.map Parameter.identifier? =
      t.method.parameters.items.map Parameter.identifier? := by
  cases flavor with
  | synchronous =>
    exact Parameter.map_identifier?_of_isTwin (ParameterList.isTwin_toSync h.2.1).items
  | asynchronous => rw [h.2.1]

end TemplateMethod

section

open TemplateMethod

variable {conventions : Conventions} {flavor : Flavor} {owner : String} {m : Method}
  {t : TemplateMethod} {typeParameters : List Node} {parameters : ParameterList} {body : Group}

/-- A wrapped stream whose parts a flavor has is split into its wrapper and its implementation. It
fails if its name is computed or, with an identifier for its name, if a parameter is a pattern. -/
theorem Method.expand_wrapped (ht : TemplateMethod.ofMethod conventions.naming m = .ok t)
    (hs : t.strategy = .stream true)
    (hp : t.PartsAre conventions.types typeParameters parameters body flavor) :
    (∀ u, m.name = .identifier u → (∀ p ∈ m.parameters.items, ∃ v, p.binding = .identifier v) →
      ∃ w i, m.expand conventions flavor owner = .ok [.method w, .method i] ∧
        t.IsWrapper owner u.text (u.text ++ conventions.naming.implSuffix) typeParameters
          parameters w ∧
        t.IsImplementation flavor (conventions.types.sequence flavor)
          (u.text ++ conventions.naming.implSuffix) typeParameters parameters body i) ∧
    (m.expand conventions flavor owner = .error (.nonIdentifierMethodName t.name) ↔
      ∃ g, m.name = .computed g) ∧
    (m.expand conventions flavor owner = .error (.nonIdentifierParameter t.name) ↔
      (∃ u, m.name = .identifier u) ∧ ∃ p ∈ m.parameters.items, ∃ g, p.binding = .pattern g) := by
  obtain ⟨hm, hprintable⟩ := TemplateMethod.ofMethod_eq_ok ht
  rw [expand_eq_withWrapper ht hs hp]
  have hnone : (∃ p ∈ parameters.items, p.identifier? = none) ↔
      ∃ p ∈ m.parameters.items, p.identifier? = none := by
    rw [← hm, ← List.mem_map (f := Parameter.identifier?),
      ← List.mem_map (f := Parameter.identifier?), hp.map_identifier?]
  simp only [← Parameter.identifier?_eq_none_iff]
  cases hname : m.name with
  | literal u =>
    rw [hname] at hprintable
    cases hprintable
  | computed g =>
    have herror := withWrapper_of_computed conventions.naming
      (t.partsFor conventions.types flavor owner typeParameters parameters body) (hm ▸ hname)
    simp [herror]
  | identifier u =>
    have hu : t.method.name = .identifier u := by rw [hm, hname]
    by_cases hpattern : ∃ p ∈ parameters.items, p.identifier? = none
    · have herror := withWrapper_of_pattern conventions.naming
        (t.partsFor conventions.types flavor owner typeParameters parameters body) hu hpattern
      obtain ⟨p, hmem, hp⟩ := hnone.1 hpattern
      have hfails : (∃ v, MemberName.identifier u = .identifier v) ∧
          ∃ p ∈ m.parameters.items, p.identifier? = none := ⟨⟨u, rfl⟩, p, hmem, hp⟩
      refine ⟨?_, by simp [herror], iff_of_true herror hfails⟩
      intro _ _ hbound
      obtain ⟨v, hv⟩ := hbound p hmem
      simp [Parameter.identifier?, hv] at hp
    · have hidentifiers : ∀ p ∈ parameters.items, p.identifier? ≠ none :=
        fun p hp hnone => hpattern ⟨p, hp, hnone⟩
      obtain ⟨w, i, hok, hw, hi⟩ := withWrapper_splits conventions flavor owner typeParameters body
        (congrArg MemberName.identifier? hu) hidentifiers
      have hbound : ¬ ∃ p ∈ m.parameters.items, p.identifier? = none := fun h =>
        hpattern (hnone.2 h)
      refine ⟨?_, by simp [hok], iff_of_false (by simp [hok]) fun h => hbound h.2⟩
      rintro _ ⟨⟩ -
      exact ⟨w, i, hok, hw, hi⟩

end

/-- A stream to be wrapped, with a parameter for its receiver and one that takes the rest. -/
def mergedStream : Method where
  leading := "\n  "
  decorators := [⟨.bare .atSign "@", [.token (.identifier "" "enumerableWrapper")]⟩]
  modifiers := [.identifier "\n  " "protected", .identifier " " "static", .identifier " " "async"]
  asterisk := some ⟨.asterisk, " ", "*"⟩
  name := .identifier (.identifier "" "merge")
  question := none
  typeParameters := []
  parameters := ⟨.bare .openParen "(",
    [⟨[], none, .identifier (.identifier "" "this"), none, none, none, some (.bare .comma ",")⟩,
      ⟨[], none, .identifier (.identifier " " "first"), none, some ⟨.bare .colon ":",
        [.typeRef (.named (.identifier " " "AsyncIterable") none)]⟩, none,
        some (.bare .comma ",")⟩,
      ⟨[], some ⟨.ellipsis, " ", "..."⟩, .identifier (.identifier "" "others"), none, none, none,
        none⟩],
    .bare .closeParen ")"⟩
  returnType := some ⟨.bare .colon ":",
    [.typeRef (.named (.identifier " " "AsyncIterable") none)]⟩
  body := some (.of .brace " " [.await (.identifier " " "await")
    [.token (.identifier " " "first")], .token (.bare .semicolon ";")] " ")
  terminator := none

theorem mergedStream_splits : ∃ t typeParameters parameters body,
    TemplateMethod.ofMethod {} mergedStream = .ok t ∧ t.strategy = .stream true ∧
    t.PartsAre {} typeParameters parameters body .synchronous ∧
    parameters.arguments = "first, ...others" ∧
    ∃ w i, mergedStream.expand {} .synchronous "Owner" = .ok [.method w, .method i] ∧
      t.IsWrapper "Owner" "merge" "mergeImpl" typeParameters parameters w ∧
      t.IsImplementation .synchronous "Iterable" "mergeImpl" typeParameters parameters body i := by
  have ht : TemplateMethod.ofMethod ({} : Conventions).naming mergedStream = .ok _ := rfl
  have hbound : ∀ p ∈ mergedStream.parameters.items, ∃ v, p.binding = .identifier v := by
    simp [mergedStream]
  refine ⟨_, _, _, _, ht, rfl, ⟨rfl, rfl, rfl⟩, by decide +kernel, ?_⟩
  exact (@Method.expand_wrapped {} .synchronous "Owner" mergedStream _ _ _ _ ht rfl
    ⟨rfl, rfl, rfl⟩).1 _ rfl hbound

end TwinClasses
