import TwinClasses.Proofs.Conversion.Edits
import TwinClasses.Proofs.Conversion.Trivia
import TwinClasses.Proofs.Traversal

set_option autoImplicit false

/-! How edits follow each other. Wherever a token is replaced, one is kept that takes over its
trivia, so what is said of all scripts is said of the edits of every tree. -/

namespace TwinClasses

open Edit

/-- The edits a tree may have. In a strict script each replaced token has one in its place. -/
inductive Script (types : TypeTable) (strict : Prop) : List Edit → Prop where
  | nil : Script types strict []
  | keep (t : Token) {es : List Edit} : Script types strict es → Script types strict (keep t :: es)
  | rename (t : Token) {es : List Edit} : Script types strict es →
    Script types strict (respell t (types.rename t).text :: es)
  | iterator (t : Token) {es : List Edit} : t.text = "asyncIterator" → Script types strict es →
    Script types strict (respell t "iterator" :: es)
  | drop (t : Token) {es : List Edit} : Script types strict es → Script types strict (drop t :: es)
  | replace (t : Token) {es fs : List Edit} : (strict → outcomes es ≠ []) →
    Script types strict es → Script types strict fs →
    Script types strict (replace t :: handOver t.leading es ++ fs)

namespace Script

variable {types : TypeTable} {strict : Prop} {es fs : List Edit}

theorem append (h : Script types strict es) (h' : Script types strict fs) :
    Script types strict (es ++ fs) := by
  induction h with
  | nil => exact h'
  | keep t _ ih => exact ih.keep t
  | rename t _ ih => exact ih.rename t
  | iterator t ht _ ih => exact ih.iterator t ht
  | drop t _ ih => exact ih.drop t
  | replace t hk hes _ _ ih =>
    rw [List.append_assoc]
    exact .replace t hk hes ih

theorem keepAll (ts : List Token) : Script types strict (keepAll ts) := by
  induction ts with
  | nil => exact .nil
  | cons t ts ih => exact ih.keep t

theorem dropAll (ts : List Token) : Script types strict (dropAll ts) := by
  induction ts with
  | nil => exact .nil
  | cons t ts ih => exact ih.drop t

theorem single (t : Token) : Script types strict [Edit.keep t] := Script.nil.keep t

theorem withTrivia (leading : String) (hb : Begins es) (h : Script types strict es) :
    Script types strict (withTrivia leading es) := by
  obtain ⟨t, rest, rfl⟩ := hb
  have hrest : Script types strict rest := by
    generalize hf : Edit.keep t :: rest = fs at h
    cases h with
    | nil => cases hf
    | keep u hr =>
      cases hf
      exact hr
    | rename u hr =>
      obtain ⟨-, rfl⟩ := List.cons.inj hf
      exact hr
    | iterator u hu hr =>
      obtain ⟨-, rfl⟩ := List.cons.inj hf
      exact hr
    | drop u hr => cases hf
    | replace u hk hes hr => cases hf
  exact hrest.keep (t.ledBy (leading ++ t.leading))

end Script

/-! The edits of every tree are a script, which is strict where the tree is filled. -/

mutual

theorem Node.outcomes_edits_ne_nil (types : TypeTable) :
    ∀ n : Node, n.Every Node.IsFilled → outcomes (n.edits types) ≠ []
  | .token t, _ => by simp [Node.edits]
  | .group ⟨_, _, _, _⟩, _ => by simp [Node.edits, Group.edits]
  | .classDecl ⟨_, _, _, _, _, _, _⟩, _ => by simp [Node.edits, ClassDecl.edits]
  | .forOf _ none _, _ => by simp [Node.edits]
  | .forOf _ (some _) _, _ => by simp [Node.edits]
  | .await keyword operand, h => by
    rw [Node.Every] at h
    have ho := Node.outcomes_editsAll_ne_nil types operand h.1 h.2
    rw [Node.edits, outcomes_replace, outcomes_handOver]
    simpa using ho
  | .access object dot name, _ => by
    rw [Node.edits]
    split <;> simp
  | .typeRef ⟨name, dot :: path, arguments⟩, _ => by simp [Node.edits, TypeRef.edits]
  | .typeRef ⟨name, [], none⟩, _ => by simp [Node.edits, TypeRef.edits]
  | .typeRef ⟨name, [], some ⟨opening, [], closing⟩⟩, _ => by
    rw [Node.edits, TypeRef.edits]
    split
    · simp [TypeArguments.editsOfFirst, outcomes_handOver]
    · simp
  | .typeRef ⟨name, [], some ⟨opening, ⟨type, comma⟩ :: items, closing⟩⟩, h => by
    simp only [Node.Every, TypeRef.Every, TypeArguments.EveryIn, TypeArguments.Every,
      TypeArgument.EveryOf, TypeArgument.Every] at h
    have htype : type ≠ [] := h.1 _ rfl _ List.mem_cons_self
    have ho := Node.outcomes_editsAll_ne_nil types type htype h.2.1
    rw [Node.edits, TypeRef.edits]
    split
    · simp [TypeArguments.editsOfFirst, outcomes_handOver, ho]
    · simp

theorem Node.outcomes_editsAll_ne_nil (types : TypeTable) :
    ∀ ns : List Node, ns ≠ [] → Node.EveryOf Node.IsFilled ns →
      outcomes (Node.editsAll types ns) ≠ []
  | [], hne, _ => absurd rfl hne
  | n :: ns, _, h => by
    rw [Node.EveryOf] at h
    have hn := Node.outcomes_edits_ne_nil types n h.1
    simp [Node.editsAll, hn]

end

section

variable (types : TypeTable) {strict : Prop}

mutual

theorem Node.script_edits :
    ∀ n : Node, (strict → n.Every Node.IsFilled) → Script types strict (n.edits types)
  | .token t, _ => by
    rw [Node.edits]
    exact Script.nil.rename t
  | .group g, hf => by
    simp only [Node.Every] at hf
    rw [Node.edits]
    exact Group.script_edits g fun h => (hf h).2
  | .classDecl c, hf => by
    simp only [Node.Every] at hf
    rw [Node.edits]
    exact ClassDecl.script_edits c fun h => (hf h).2
  | .forOf keyword none head, hf => by
    simp only [Node.Every] at hf
    rw [Node.edits]
    exact (Group.script_edits head fun h => (hf h).2).keep keyword
  | .forOf keyword (some awaiting) ⟨d, opening, children, closing⟩, hf => by
    simp only [Node.Every] at hf
    have hs := Group.script_edits ⟨d, opening, children, closing⟩ fun h => (hf h).2
    have hk : outcomes (Group.edits types ⟨d, opening, children, closing⟩) ≠ [] := by
      simp [Group.edits]
    have hr := Script.replace awaiting (fun _ => hk) hs .nil
    rw [List.append_nil] at hr
    rw [Node.edits]
    exact hr.keep keyword
  | .await keyword operand, hf => by
    simp only [Node.Every] at hf
    have hs := Node.script_editsAll operand fun h => (hf h).2
    have hr := Script.replace keyword
      (fun h => Node.outcomes_editsAll_ne_nil types operand (hf h).1 (hf h).2) hs .nil
    rw [List.append_nil] at hr
    rw [Node.edits]
    exact hr
  | .access object dot name, _ => by
    rw [Node.edits]
    split
    · rename_i hi
      have hname : name.text = "asyncIterator" := by
        simp only [isAsyncIterator, Bool.and_eq_true, decide_eq_true_eq] at hi
        exact hi.2
      exact ((Script.nil.iterator name hname).keep dot).keep object
    · exact ((Script.single name).keep dot).rename object
  | .typeRef r, hf => by
    rw [Node.edits]
    exact TypeRef.script_edits r hf

theorem Node.script_editsAll : ∀ ns : List Node, (strict → Node.EveryOf Node.IsFilled ns) →
    Script types strict (Node.editsAll types ns)
  | [], _ => by
    rw [Node.editsAll]
    exact .nil
  | n :: ns, hf => by
    simp only [Node.EveryOf] at hf
    rw [Node.editsAll]
    exact (Node.script_edits n fun h => (hf h).1).append (Node.script_editsAll ns fun h => (hf h).2)

theorem Group.script_edits : ∀ g : Group, (strict → g.Every Node.IsFilled) →
    Script types strict (g.edits types)
  | ⟨_, opening, children, closing⟩, hf => by
    simp only [Group.Every] at hf
    rw [Group.edits]
    exact ((Node.script_editsAll children hf).keep opening).append (.single closing)

theorem Group.script_editsOption : ∀ g : Option Group, (strict → Group.EveryIn Node.IsFilled g) →
    Script types strict (Group.editsOption types g)
  | none, _ => by
    rw [Group.editsOption]
    exact .nil
  | some g, hf => by
    simp only [Group.EveryIn] at hf
    rw [Group.editsOption]
    exact Group.script_edits g hf

theorem Clause.script_edits : ∀ c : Clause, (strict → c.Every Node.IsFilled) →
    Script types strict (c.edits types)
  | ⟨mark, content⟩, hf => by
    simp only [Clause.Every] at hf
    rw [Clause.edits]
    exact (Node.script_editsAll content hf).keep mark

theorem Clause.script_editsAll : ∀ cs : List Clause, (strict → Clause.EveryOf Node.IsFilled cs) →
    Script types strict (Clause.editsAll types cs)
  | [], _ => by
    rw [Clause.editsAll]
    exact .nil
  | c :: cs, hf => by
    simp only [Clause.EveryOf] at hf
    rw [Clause.editsAll]
    exact (Clause.script_edits c fun h => (hf h).1).append
      (Clause.script_editsAll cs fun h => (hf h).2)

theorem Clause.script_editsOption : ∀ c : Option Clause,
    (strict → Clause.EveryIn Node.IsFilled c) → Script types strict (Clause.editsOption types c)
  | none, _ => by
    rw [Clause.editsOption]
    exact .nil
  | some c, hf => by
    simp only [Clause.EveryIn] at hf
    rw [Clause.editsOption]
    exact Clause.script_edits c hf

theorem TypeRef.script_edits : ∀ r : TypeRef, (strict → (Node.typeRef r).Every Node.IsFilled) →
    Script types strict (r.edits types)
  | ⟨name, dot :: path, arguments⟩, hf => by
    simp only [Node.Every, TypeRef.Every] at hf
    rw [TypeRef.edits]
    exact ((Script.keepAll _).keep name).append
      (TypeArguments.script_editsOption arguments fun h => (hf h).2)
  | ⟨name, [], none⟩, _ => by
    rw [TypeRef.edits]
    exact Script.nil.rename name
  | ⟨name, [], some arguments⟩, hf => by
    have hk : strict → outcomes (arguments.editsOfFirst types) ≠ [] := by
      intro h
      obtain ⟨opening, items, closing⟩ := arguments
      cases items with
      | nil => simp [TypeArguments.editsOfFirst]
      | cons a items =>
        obtain ⟨type, comma⟩ := a
        have hr := hf h
        simp only [Node.Every, TypeRef.Every, TypeArguments.EveryIn, TypeArguments.Every,
          TypeArgument.EveryOf, TypeArgument.Every] at hr
        have htype : type ≠ [] := hr.1 _ rfl _ List.mem_cons_self
        have ho := Node.outcomes_editsAll_ne_nil types type htype hr.2.1
        simp [TypeArguments.editsOfFirst, ho]
    simp only [Node.Every, TypeRef.Every, TypeArguments.EveryIn] at hf
    rw [TypeRef.edits]
    split
    · have hs := TypeArguments.script_editsOfFirst arguments fun h => (hf h).2
      have hr := Script.replace name hk hs .nil
      rwa [List.append_nil] at hr
    · exact (TypeArguments.script_edits arguments fun h => (hf h).2).rename name

theorem TypeArguments.script_edits : ∀ a : TypeArguments, (strict → a.Every Node.IsFilled) →
    Script types strict (a.edits types)
  | ⟨opening, items, closing⟩, hf => by
    simp only [TypeArguments.Every] at hf
    rw [TypeArguments.edits]
    exact ((TypeArgument.script_editsAll items hf).keep opening).append (.single closing)

theorem TypeArguments.script_editsOption : ∀ a : Option TypeArguments,
    (strict → TypeArguments.EveryIn Node.IsFilled a) →
      Script types strict (TypeArguments.editsOption types a)
  | none, _ => by
    rw [TypeArguments.editsOption]
    exact .nil
  | some a, hf => by
    simp only [TypeArguments.EveryIn] at hf
    rw [TypeArguments.editsOption]
    exact TypeArguments.script_edits a hf

theorem TypeArguments.script_editsOfFirst : ∀ a : TypeArguments,
    (strict → a.Every Node.IsFilled) → Script types strict (a.editsOfFirst types)
  | ⟨opening, [], closing⟩, _ => by
    rw [TypeArguments.editsOfFirst]
    exact (Script.single closing).keep opening
  | ⟨opening, ⟨type, comma⟩ :: items, closing⟩, hf => by
    simp only [TypeArguments.Every, TypeArgument.EveryOf, TypeArgument.Every] at hf
    rw [TypeArguments.editsOfFirst]
    have htype := Node.script_editsAll type fun h => (hf h).1
    exact (((htype.drop opening).append (.dropAll _)).append (.dropAll _)).append
      (Script.nil.drop closing)

theorem TypeArgument.script_edits : ∀ a : TypeArgument, (strict → a.Every Node.IsFilled) →
    Script types strict (a.edits types)
  | ⟨type, comma⟩, hf => by
    simp only [TypeArgument.Every] at hf
    rw [TypeArgument.edits]
    exact (Node.script_editsAll type hf).append (.keepAll _)

theorem TypeArgument.script_editsAll : ∀ as : List TypeArgument,
    (strict → TypeArgument.EveryOf Node.IsFilled as) →
      Script types strict (TypeArgument.editsAll types as)
  | [], _ => by
    rw [TypeArgument.editsAll]
    exact .nil
  | a :: as, hf => by
    simp only [TypeArgument.EveryOf] at hf
    rw [TypeArgument.editsAll]
    exact (TypeArgument.script_edits a fun h => (hf h).1).append
      (TypeArgument.script_editsAll as fun h => (hf h).2)

theorem ClassDecl.script_edits : ∀ c : ClassDecl, (strict → c.Every Node.IsFilled) →
    Script types strict (c.edits types)
  | ⟨keyword, name, heritage, opening, members, closing, _⟩, hf => by
    simp only [ClassDecl.Every] at hf
    rw [ClassDecl.edits]
    have hh := Node.script_editsAll heritage fun h => (hf h).1
    have hm := Member.script_editsAll members fun h => (hf h).2
    exact ((((Script.keepAll _).keep keyword).append hh).append (hm.keep opening)).append
      (.single closing)

theorem Member.script_edits : ∀ m : Member, (strict → m.Every Node.IsFilled) →
    Script types strict (m.edits types)
  | .method m, hf => by
    simp only [Member.Every] at hf
    rw [Member.edits]
    exact Method.script_edits m hf
  | .getter g, hf => by
    simp only [Member.Every] at hf
    rw [Member.edits]
    exact Getter.script_edits g hf
  | .other ns, hf => by
    simp only [Member.Every] at hf
    rw [Member.edits]
    exact Node.script_editsAll ns hf

theorem Member.script_editsAll : ∀ ms : List Member, (strict → Member.EveryOf Node.IsFilled ms) →
    Script types strict (Member.editsAll types ms)
  | [], _ => by
    rw [Member.editsAll]
    exact .nil
  | m :: ms, hf => by
    simp only [Member.EveryOf] at hf
    rw [Member.editsAll]
    exact (Member.script_edits m fun h => (hf h).1).append
      (Member.script_editsAll ms fun h => (hf h).2)

theorem Method.script_edits : ∀ m : Method, (strict → m.Every Node.IsFilled) →
    Script types strict (m.edits types)
  | ⟨leading, decorators, modifiers, asterisk, name, question, typeParameters, parameters,
      returnType, body, terminator⟩, hf => by
    simp only [Method.Every] at hf
    have hd := Clause.script_editsAll decorators fun h => (hf h).1
    have hn := MemberName.script_edits name fun h => (hf h).2.1
    have ht := Node.script_editsAll typeParameters fun h => (hf h).2.2.1
    have hp := ParameterList.script_edits parameters fun h => (hf h).2.2.2.1
    have hr := Clause.script_editsOption returnType fun h => (hf h).2.2.2.2.1
    have hb := Group.script_editsOption body fun h => (hf h).2.2.2.2.2
    rw [Method.edits]
    apply Script.withTrivia
    · simp only [List.append_assoc]
      exact Clause.begins_editsAll_append _ _ (begins_keepAll_append _ (begins_keepAll_append _
        ((MemberName.begins_edits types name).append _)))
    · exact ((((((((hd.append (.keepAll _)).append (.keepAll _)).append hn).append
        (.keepAll _)).append ht).append hp).append hr).append hb).append (.keepAll _)

theorem Getter.script_edits : ∀ g : Getter, (strict → g.Every Node.IsFilled) →
    Script types strict (g.edits types)
  | ⟨leading, decorators, modifiers, keyword, name, parameters, returnType, body, terminator⟩,
      hf => by
    simp only [Getter.Every] at hf
    have hd := Clause.script_editsAll decorators fun h => (hf h).1
    have hn := MemberName.script_edits name fun h => (hf h).2.1
    have hp := ParameterList.script_edits parameters fun h => (hf h).2.2.1
    have hr := Clause.script_editsOption returnType fun h => (hf h).2.2.2.1
    have hb := Group.script_editsOption body fun h => (hf h).2.2.2.2
    rw [Getter.edits]
    apply Script.withTrivia
    · simp only [List.append_assoc]
      exact Clause.begins_editsAll_append _ _ (begins_keepAll_append _ ⟨keyword, _, rfl⟩)
    · exact (((((hd.append (.keepAll _)).append (hn.keep keyword)).append hp).append hr).append
        hb).append (.keepAll _)

theorem MemberName.script_edits : ∀ n : MemberName, (strict → n.Every Node.IsFilled) →
    Script types strict (n.edits types)
  | .identifier t, _ => by
    rw [MemberName.edits]
    exact .single t
  | .literal t, _ => by
    rw [MemberName.edits]
    exact .single t
  | .computed g, hf => by
    simp only [MemberName.Every] at hf
    rw [MemberName.edits]
    exact Group.script_edits g hf

theorem ParameterList.script_edits : ∀ ps : ParameterList, (strict → ps.Every Node.IsFilled) →
    Script types strict (ps.edits types)
  | ⟨opening, items, closing⟩, hf => by
    simp only [ParameterList.Every] at hf
    rw [ParameterList.edits]
    exact ((Parameter.script_editsAll items hf).keep opening).append (.single closing)

theorem Parameter.script_edits : ∀ p : Parameter, (strict → p.Every Node.IsFilled) →
    Script types strict (p.edits types)
  | ⟨modifiers, rest, binding, question, type, initializer, comma⟩, hf => by
    simp only [Parameter.Every] at hf
    have hb := Binding.script_edits binding fun h => (hf h).1
    have ht := Clause.script_editsOption type fun h => (hf h).2.1
    have hi := Clause.script_editsOption initializer fun h => (hf h).2.2
    rw [Parameter.edits]
    exact ((((((Script.keepAll _).append (.keepAll _)).append hb).append (.keepAll _)).append
      ht).append hi).append (.keepAll _)

theorem Parameter.script_editsAll : ∀ ps : List Parameter,
    (strict → Parameter.EveryOf Node.IsFilled ps) →
      Script types strict (Parameter.editsAll types ps)
  | [], _ => by
    rw [Parameter.editsAll]
    exact .nil
  | p :: ps, hf => by
    simp only [Parameter.EveryOf] at hf
    rw [Parameter.editsAll]
    exact (Parameter.script_edits p fun h => (hf h).1).append
      (Parameter.script_editsAll ps fun h => (hf h).2)

theorem Binding.script_edits : ∀ b : Binding, (strict → b.Every Node.IsFilled) →
    Script types strict (b.edits types)
  | .identifier t, _ => by
    rw [Binding.edits]
    exact .single t
  | .pattern g, hf => by
    simp only [Binding.Every] at hf
    rw [Binding.edits]
    exact Group.script_edits g hf

end

end

end TwinClasses
