import TwinClasses.Proofs.Conversion.Renaming
import TwinClasses.Proofs.Conversion.Script
import TwinClasses.Proofs.RoundTrip.Lossless
import TwinClasses.Proofs.Success

set_option autoImplicit false

/-! Conversion erases tokens and renames others. The tokens of a converted tree are those that its
edits keep, and the trivia that a kept token takes over is that of the tokens replaced by it. -/

namespace TwinClasses

open Edit

theorem Node.tokens_mapFirst (f : Token → Token) (n : Node) :
    (n.mapFirst f).tokens = n.tokens.modifyHead f := by
  cases n with
  | group g =>
    obtain ⟨d, opening, children, closing⟩ := g
    simp [mapFirst, tokens, Group.tokens]
  | classDecl c =>
    obtain ⟨keyword, name, heritage, opening, members, closing, isExpression⟩ := c
    simp [mapFirst, tokens, ClassDecl.tokens]
  | typeRef r =>
    obtain ⟨name, path, arguments⟩ := r
    simp [mapFirst, tokens, TypeRef.tokens]
  | _ => simp [mapFirst, tokens]

theorem Node.exists_tokens_eq (n : Node) : ∃ rest, n.tokens = n.first :: rest := by
  match n with
  | .token t => exact ⟨[], by rw [tokens, first]⟩
  | .group ⟨d, opening, children, closing⟩ => exact ⟨_, by rw [tokens, Group.tokens]; rfl⟩
  | .classDecl ⟨keyword, name, heritage, opening, members, closing, isExpression⟩ =>
    exact ⟨_, by rw [tokens, ClassDecl.tokens]; rfl⟩
  | .forOf keyword awaiting head => exact ⟨_, by rw [tokens]; rfl⟩
  | .await keyword operand => exact ⟨_, by rw [tokens]; rfl⟩
  | .access object dot name => exact ⟨_, by rw [tokens]; rfl⟩
  | .typeRef ⟨name, path, arguments⟩ => exact ⟨_, by rw [tokens, TypeRef.tokens]; rfl⟩

theorem Node.tokensAll_takeOver (dropped : String) (ns : List Node) :
    Node.tokensAll (Node.takeOver dropped ns) =
      (Node.tokensAll ns).modifyHead (Token.takeOver dropped) := by
  cases ns with
  | nil => simp [takeOver, tokensAll]
  | cons n ns =>
    obtain ⟨rest, hrest⟩ := n.exists_tokens_eq
    simp [takeOver, tokensAll, tokens_mapFirst, hrest]

variable {types : TypeTable} {member : String}

mutual

theorem Node.tokens_toSync : ∀ (n : Node) (ms : List Node), n.toSync types member = .ok ms →
    Node.tokensAll ms = outcomes (n.edits types)
  | .token t => by
    intro ms h
    simp only [Node.toSync, Except.ok.injEq] at h
    subst h
    simp [Node.edits, Node.tokensAll, Node.tokens, ← TypeTable.rename_eq_spelled]
  | .group g => by
    intro ms h
    simp only [Node.toSync, ok_bind, ok_pure] at h
    obtain ⟨g', hg, rfl⟩ := h
    simp [Node.edits, Node.tokensAll, Node.tokens, Group.tokens_toSync g _ hg]
  | .classDecl c => by
    intro ms h
    simp only [Node.toSync, ok_bind, ok_pure] at h
    obtain ⟨c', hc, rfl⟩ := h
    simp [Node.edits, Node.tokensAll, Node.tokens, ClassDecl.tokens_toSync c _ hc]
  | .forOf keyword none head => by
    intro ms h
    simp only [Node.toSync, ok_bind, ok_pure] at h
    obtain ⟨head', hh, rfl⟩ := h
    simp [Node.edits, Node.tokensAll, Node.tokens, Group.tokens_toSync head _ hh]
  | .forOf keyword (some awaiting) head => by
    intro ms h
    simp only [Node.toSync, ok_bind, ok_pure] at h
    obtain ⟨head', hh, rfl⟩ := h
    have ht := Group.tokens_toSync head _ hh
    obtain ⟨d, opening, children, closing⟩ := head'
    rw [Group.tokens] at ht
    simp [Node.edits, Node.tokensAll, Node.tokens, Group.tokens, outcomes_handOver, ← ht]
  | .await keyword operand => by
    intro ms h
    simp only [Node.toSync, ok_bind, ok_pure] at h
    obtain ⟨ns, hn, rfl⟩ := h
    have ho := Node.tokens_toSyncAll operand _ hn
    simp [Node.edits, Node.tokensAll_takeOver, outcomes_handOver, ho]
  | .access object dot name => by
    intro ms h
    rw [Node.toSync] at h
    rw [Node.edits]
    split at h
    · rename_i hi
      cases h
      simp [hi, Node.tokensAll, Node.tokens]
    · rename_i hi
      cases h
      simp [hi, Node.tokensAll, Node.tokens, ← TypeTable.rename_eq_spelled]
  | .typeRef r => by
    intro ms h
    rw [Node.toSync] at h
    rw [Node.edits]
    exact TypeRef.tokens_toSync r _ h

theorem Node.tokens_toSyncAll : ∀ (ns : List Node) (ms : List Node),
    Node.toSyncAll types member ns = .ok ms →
      Node.tokensAll ms = outcomes (Node.editsAll types ns)
  | [] => by
    intro ms h
    simp only [Node.toSyncAll, Except.ok.injEq] at h
    subst h
    simp [Node.editsAll, Node.tokensAll]
  | n :: ns => by
    intro ms h
    simp only [Node.toSyncAll, ok_bind, ok_pure] at h
    obtain ⟨ks, hk, ls, hl, rfl⟩ := h
    simp [Node.editsAll, Node.tokensAll_append, Node.tokens_toSync n _ hk,
      Node.tokens_toSyncAll ns _ hl]

theorem Group.tokens_toSync : ∀ (g : Group) (g' : Group), g.toSync types member = .ok g' →
    g'.tokens = outcomes (g.edits types)
  | ⟨d, opening, children, closing⟩ => by
    intro g' h
    simp only [Group.toSync, ok_bind, ok_pure] at h
    obtain ⟨ns, hn, rfl⟩ := h
    simp [Group.edits, Group.tokens, Node.tokens_toSyncAll children _ hn]

theorem Group.tokens_toSyncOption : ∀ (g : Option Group) (g' : Option Group),
    Group.toSyncOption types member g = .ok g' →
      Group.tokensOption g' = outcomes (Group.editsOption types g)
  | none => by
    intro g' h
    simp only [Group.toSyncOption, Except.ok.injEq] at h
    subst h
    simp [Group.editsOption, Group.tokensOption]
  | some g => by
    intro g' h
    simp only [Group.toSyncOption, ok_bind, ok_pure] at h
    obtain ⟨k, hk, rfl⟩ := h
    simp [Group.editsOption, Group.tokensOption, Group.tokens_toSync g _ hk]

theorem Clause.tokens_toSync : ∀ (c : Clause) (c' : Clause), c.toSync types member = .ok c' →
    c'.tokens = outcomes (c.edits types)
  | ⟨mark, content⟩ => by
    intro c' h
    simp only [Clause.toSync, ok_bind, ok_pure] at h
    obtain ⟨ns, hn, rfl⟩ := h
    simp [Clause.edits, Clause.tokens, Node.tokens_toSyncAll content _ hn]

theorem Clause.tokens_toSyncAll : ∀ (cs : List Clause) (cs' : List Clause),
    Clause.toSyncAll types member cs = .ok cs' →
      Clause.tokensAll cs' = outcomes (Clause.editsAll types cs)
  | [] => by
    intro cs' h
    simp only [Clause.toSyncAll, Except.ok.injEq] at h
    subst h
    simp [Clause.editsAll, Clause.tokensAll]
  | c :: cs => by
    intro cs' h
    simp only [Clause.toSyncAll, ok_bind, ok_pure] at h
    obtain ⟨k, hk, ls, hl, rfl⟩ := h
    simp [Clause.editsAll, Clause.tokensAll, Clause.tokens_toSync c _ hk,
      Clause.tokens_toSyncAll cs _ hl]

theorem Clause.tokens_toSyncOption : ∀ (c : Option Clause) (c' : Option Clause),
    Clause.toSyncOption types member c = .ok c' →
      Clause.tokensOption c' = outcomes (Clause.editsOption types c)
  | none => by
    intro c' h
    simp only [Clause.toSyncOption, Except.ok.injEq] at h
    subst h
    simp [Clause.editsOption, Clause.tokensOption]
  | some c => by
    intro c' h
    simp only [Clause.toSyncOption, ok_bind, ok_pure] at h
    obtain ⟨k, hk, rfl⟩ := h
    simp [Clause.editsOption, Clause.tokensOption, Clause.tokens_toSync c _ hk]

theorem TypeRef.tokens_toSync : ∀ (r : TypeRef) (ms : List Node), r.toSync types member = .ok ms →
    Node.tokensAll ms = outcomes (r.edits types)
  | ⟨name, dot :: path, none⟩ => by
    intro ms h
    simp only [TypeRef.toSync, Except.ok.injEq] at h
    subst h
    simp [TypeRef.edits, Node.tokensAll, Node.tokens, TypeRef.tokens, TypeArguments.editsOption,
      TypeArguments.tokensOption]
  | ⟨name, dot :: path, some arguments⟩ => by
    intro ms h
    simp only [TypeRef.toSync, ok_bind, ok_pure] at h
    obtain ⟨as, ha, rfl⟩ := h
    simp [TypeRef.edits, Node.tokensAll, Node.tokens, TypeRef.tokens, TypeArguments.editsOption,
      TypeArguments.tokensOption, TypeArguments.tokens_toSync arguments _ ha]
  | ⟨name, [], none⟩ => by
    intro ms h
    rw [TypeRef.toSync] at h
    split at h
    · cases h
    · cases h
      simp [TypeRef.edits, Node.tokensAll, Node.tokens, TypeRef.tokens,
        TypeArguments.tokensOption, ← TypeTable.rename_eq_spelled]
  | ⟨name, [], some arguments⟩ => by
    intro ms h
    rw [TypeRef.toSync] at h
    rw [TypeRef.edits]
    split at h
    · rename_i hu
      simp only [ok_bind] at h
      obtain ⟨found, hf, h⟩ := h
      cases found with
      | none => cases h
      | some ns =>
        cases h
        simp [hu, Node.tokensAll_takeOver, outcomes_handOver,
          TypeArguments.tokens_firstToSync arguments _ hf]
    · rename_i hu
      simp only [ok_bind, ok_pure] at h
      obtain ⟨as, ha, rfl⟩ := h
      simp [hu, Node.tokensAll, Node.tokens, TypeRef.tokens, TypeArguments.tokensOption,
        TypeArguments.tokens_toSync arguments _ ha, ← TypeTable.rename_eq_spelled]

theorem TypeArguments.tokens_toSync : ∀ (a : TypeArguments) (a' : TypeArguments),
    a.toSync types member = .ok a' → a'.tokens = outcomes (a.edits types)
  | ⟨opening, items, closing⟩ => by
    intro a' h
    simp only [TypeArguments.toSync, ok_bind, ok_pure] at h
    obtain ⟨as, ha, rfl⟩ := h
    simp [TypeArguments.edits, TypeArguments.tokens, TypeArgument.tokens_toSyncAll items _ ha]

theorem TypeArguments.tokens_firstToSync : ∀ (a : TypeArguments) (ns : List Node),
    a.firstToSync types member = .ok (some ns) →
      Node.tokensAll ns = outcomes (a.editsOfFirst types)
  | ⟨opening, [], closing⟩ => by
    intro ns h
    simp [TypeArguments.firstToSync] at h
  | ⟨opening, ⟨type, comma⟩ :: items, closing⟩ => by
    intro ns h
    simp only [TypeArguments.firstToSync, ok_bind, ok_pure, Option.some.injEq] at h
    obtain ⟨ks, hk, rfl⟩ := h
    simp [TypeArguments.editsOfFirst, Node.tokens_toSyncAll type _ hk]

theorem TypeArgument.tokens_toSync : ∀ (a : TypeArgument) (a' : TypeArgument),
    a.toSync types member = .ok a' → a'.tokens = outcomes (a.edits types)
  | ⟨type, comma⟩ => by
    intro a' h
    simp only [TypeArgument.toSync, ok_bind, ok_pure] at h
    obtain ⟨ns, hn, rfl⟩ := h
    simp [TypeArgument.edits, TypeArgument.tokens, Node.tokens_toSyncAll type _ hn]

theorem TypeArgument.tokens_toSyncAll : ∀ (as : List TypeArgument) (as' : List TypeArgument),
    TypeArgument.toSyncAll types member as = .ok as' →
      TypeArgument.tokensAll as' = outcomes (TypeArgument.editsAll types as)
  | [] => by
    intro as' h
    simp only [TypeArgument.toSyncAll, Except.ok.injEq] at h
    subst h
    simp [TypeArgument.editsAll, TypeArgument.tokensAll]
  | a :: as => by
    intro as' h
    simp only [TypeArgument.toSyncAll, ok_bind, ok_pure] at h
    obtain ⟨k, hk, ls, hl, rfl⟩ := h
    simp [TypeArgument.editsAll, TypeArgument.tokensAll, TypeArgument.tokens_toSync a _ hk,
      TypeArgument.tokens_toSyncAll as _ hl]

theorem ClassDecl.tokens_toSync : ∀ (c : ClassDecl) (c' : ClassDecl),
    c.toSync types member = .ok c' → c'.tokens = outcomes (c.edits types)
  | ⟨keyword, name, heritage, opening, members, closing, isExpression⟩ => by
    intro c' h
    simp only [ClassDecl.toSync, ok_bind, ok_pure] at h
    obtain ⟨ms, hm, ns, hn, rfl⟩ := h
    simp [ClassDecl.edits, ClassDecl.tokens, Node.tokens_toSyncAll heritage _ hn,
      Member.tokens_toSyncAll members _ hm]

theorem Member.tokens_toSync : ∀ (m : Member) (m' : Member), m.toSync types member = .ok m' →
    m'.tokens = outcomes (m.edits types)
  | .method m => by
    intro m' h
    simp only [Member.toSync, ok_bind, ok_pure] at h
    obtain ⟨k, hk, rfl⟩ := h
    simp [Member.edits, Member.tokens, Method.tokens_toSync m _ hk]
  | .getter g => by
    intro m' h
    simp only [Member.toSync, ok_bind, ok_pure] at h
    obtain ⟨k, hk, rfl⟩ := h
    simp [Member.edits, Member.tokens, Getter.tokens_toSync g _ hk]
  | .other ns => by
    intro m' h
    simp only [Member.toSync, ok_bind, ok_pure] at h
    obtain ⟨ks, hk, rfl⟩ := h
    simp [Member.edits, Member.tokens, Node.tokens_toSyncAll ns _ hk]

theorem Member.tokens_toSyncAll : ∀ (ms : List Member) (ms' : List Member),
    Member.toSyncAll types member ms = .ok ms' →
      Member.tokensAll ms' = outcomes (Member.editsAll types ms)
  | [] => by
    intro ms' h
    simp only [Member.toSyncAll, Except.ok.injEq] at h
    subst h
    simp [Member.editsAll, Member.tokensAll]
  | m :: ms => by
    intro ms' h
    simp only [Member.toSyncAll, ok_bind, ok_pure] at h
    obtain ⟨k, hk, ls, hl, rfl⟩ := h
    simp [Member.editsAll, Member.tokensAll, Member.tokens_toSync m _ hk,
      Member.tokens_toSyncAll ms _ hl]

theorem Method.tokens_toSync : ∀ (m : Method) (m' : Method), m.toSync types member = .ok m' →
    m'.tokens = outcomes (m.edits types)
  | ⟨leading, decorators, modifiers, asterisk, name, question, typeParameters, parameters,
      returnType, body, terminator⟩ => by
    intro m' h
    simp only [Method.toSync, ok_bind, ok_pure] at h
    obtain ⟨ds, hd, n, hn, tps, htp, ps, hp, rt, hr, b, hb, rfl⟩ := h
    rw [Method.edits, outcomes_withTrivia, Method.tokens]
    · simp [Clause.tokens_toSyncAll decorators _ hd, MemberName.tokens_toSync name _ hn,
        Node.tokens_toSyncAll typeParameters _ htp, ParameterList.tokens_toSync parameters _ hp,
        Clause.tokens_toSyncOption returnType _ hr, Group.tokens_toSyncOption body _ hb]
    · simp only [List.append_assoc]
      exact Clause.begins_editsAll_append _ _ (begins_keepAll_append _ (begins_keepAll_append _
        ((MemberName.begins_edits types name).append _)))

theorem Getter.tokens_toSync : ∀ (g : Getter) (g' : Getter), g.toSync types member = .ok g' →
    g'.tokens = outcomes (g.edits types)
  | ⟨leading, decorators, modifiers, keyword, name, parameters, returnType, body, terminator⟩ => by
    intro g' h
    simp only [Getter.toSync, ok_bind, ok_pure] at h
    obtain ⟨ds, hd, n, hn, ps, hp, rt, hr, b, hb, rfl⟩ := h
    rw [Getter.edits, outcomes_withTrivia, Getter.tokens]
    · simp [Clause.tokens_toSyncAll decorators _ hd, MemberName.tokens_toSync name _ hn,
        ParameterList.tokens_toSync parameters _ hp, Clause.tokens_toSyncOption returnType _ hr,
        Group.tokens_toSyncOption body _ hb]
    · simp only [List.append_assoc]
      exact Clause.begins_editsAll_append _ _ (begins_keepAll_append _ ⟨keyword, _, rfl⟩)

theorem MemberName.tokens_toSync : ∀ (n : MemberName) (n' : MemberName),
    n.toSync types member = .ok n' → n'.tokens = outcomes (n.edits types)
  | .identifier t => by
    intro n' h
    simp only [MemberName.toSync, Except.ok.injEq] at h
    subst h
    simp [MemberName.edits, MemberName.tokens]
  | .literal t => by
    intro n' h
    simp only [MemberName.toSync, Except.ok.injEq] at h
    subst h
    simp [MemberName.edits, MemberName.tokens]
  | .computed g => by
    intro n' h
    simp only [MemberName.toSync, ok_bind, ok_pure] at h
    obtain ⟨k, hk, rfl⟩ := h
    simp [MemberName.edits, MemberName.tokens, Group.tokens_toSync g _ hk]

theorem ParameterList.tokens_toSync : ∀ (ps : ParameterList) (ps' : ParameterList),
    ps.toSync types member = .ok ps' → ps'.tokens = outcomes (ps.edits types)
  | ⟨opening, items, closing⟩ => by
    intro ps' h
    simp only [ParameterList.toSync, ok_bind, ok_pure] at h
    obtain ⟨ks, hk, rfl⟩ := h
    simp [ParameterList.edits, ParameterList.tokens, Parameter.tokens_toSyncAll items _ hk]

theorem Parameter.tokens_toSync : ∀ (p : Parameter) (p' : Parameter),
    p.toSync types member = .ok p' → p'.tokens = outcomes (p.edits types)
  | ⟨modifiers, rest, binding, question, type, initializer, comma⟩ => by
    intro p' h
    simp only [Parameter.toSync, ok_bind, ok_pure] at h
    obtain ⟨b, hb, t, ht, i, hi, rfl⟩ := h
    simp [Parameter.edits, Parameter.tokens, Binding.tokens_toSync binding _ hb,
      Clause.tokens_toSyncOption type _ ht, Clause.tokens_toSyncOption initializer _ hi]

theorem Parameter.tokens_toSyncAll : ∀ (ps : List Parameter) (ps' : List Parameter),
    Parameter.toSyncAll types member ps = .ok ps' →
      Parameter.tokensAll ps' = outcomes (Parameter.editsAll types ps)
  | [] => by
    intro ps' h
    simp only [Parameter.toSyncAll, Except.ok.injEq] at h
    subst h
    simp [Parameter.editsAll, Parameter.tokensAll]
  | p :: ps => by
    intro ps' h
    simp only [Parameter.toSyncAll, ok_bind, ok_pure] at h
    obtain ⟨k, hk, ls, hl, rfl⟩ := h
    simp [Parameter.editsAll, Parameter.tokensAll, Parameter.tokens_toSync p _ hk,
      Parameter.tokens_toSyncAll ps _ hl]

theorem Binding.tokens_toSync : ∀ (b : Binding) (b' : Binding), b.toSync types member = .ok b' →
    b'.tokens = outcomes (b.edits types)
  | .identifier t => by
    intro b' h
    simp only [Binding.toSync, Except.ok.injEq] at h
    subst h
    simp [Binding.edits, Binding.tokens]
  | .pattern g => by
    intro b' h
    simp only [Binding.toSync, ok_bind, ok_pure] at h
    obtain ⟨k, hk, rfl⟩ := h
    simp [Binding.edits, Binding.tokens, Group.tokens_toSync g _ hk]

end

namespace Edit

/-- The text of the token, if it is kept, is its own, its new name, or that of the iterator. -/
def Spells (types : TypeTable) (e : Edit) : Prop :=
  ∀ taken text, e.fate = .kept taken text → text = e.token.text ∨
    (e.token.kind = .identifier ∧ types.rename? e.token.text = some text) ∨
    (e.token.text = "asyncIterator" ∧ text = "iterator")

theorem spells_respell {types : TypeTable} {t : Token} {text : String} (h : text = t.text ∨
    (t.kind = .identifier ∧ types.rename? t.text = some text) ∨
    (t.text = "asyncIterator" ∧ text = "iterator")) : (respell t text).Spells types := by
  intro taken text' hfate
  cases hfate
  exact h

theorem spells_handOver {types : TypeTable} {es : List Edit} (leading : String)
    (h : ∀ e ∈ es, e.Spells types) : ∀ e ∈ handOver leading es, e.Spells types := by
  induction es with
  | nil => exact h
  | cons e es ih =>
    obtain ⟨t, fate⟩ := e
    obtain ⟨he, hes⟩ := List.forall_mem_cons.1 h
    cases fate with
    | kept taken text =>
      refine List.forall_mem_cons.2 ⟨?_, hes⟩
      intro taken' text' hfate
      cases hfate
      exact he taken text rfl
    | replaced => exact List.forall_mem_cons.2 ⟨he, ih hes⟩
    | dropped => exact List.forall_mem_cons.2 ⟨he, ih hes⟩

/-- A token that is kept takes over trivia of tokens replaced in front of it, since the one kept
before; strictly all of it. `pending` is the trivia of those replaced before the list. -/
def Accounts (strict : Prop) : List String → List Edit → Prop
  | pending, [] => strict → pending = []
  | pending, ⟨_, .kept taken _⟩ :: es =>
    taken.Sublist pending ∧ (strict → taken = pending) ∧ Accounts strict [] es
  | pending, ⟨t, .replaced⟩ :: es => Accounts strict (pending ++ [t.leading]) es
  | pending, ⟨_, .dropped⟩ :: es => Accounts strict pending es

namespace Accounts

variable {strict : Prop} {pending : List String} {es fs : List Edit}

theorem after (before : List String) (hb : strict → before = []) (h : Accounts strict pending es) :
    Accounts strict (before ++ pending) es := by
  induction es generalizing pending with
  | nil =>
    intro hs
    rw [hb hs, h hs, List.append_nil]
  | cons e es ih =>
    obtain ⟨t, fate⟩ := e
    cases fate with
    | kept taken text =>
      refine ⟨h.1.trans (List.sublist_append_right _ _), ?_, h.2.2⟩
      intro hs
      rw [hb hs, h.2.1 hs, List.nil_append]
    | replaced =>
      have ht : Accounts strict (pending ++ [t.leading]) es := h
      have hr := ih ht
      rwa [← List.append_assoc] at hr
    | dropped =>
      have ht : Accounts strict pending es := h
      exact ih ht

theorem append (h : Accounts strict pending es) (h' : Accounts strict [] fs) :
    Accounts strict pending (es ++ fs) := by
  induction es generalizing pending with
  | nil =>
    have hp := h'.after pending h
    rwa [List.append_nil] at hp
  | cons e es ih =>
    obtain ⟨t, fate⟩ := e
    cases fate with
    | kept taken text => exact ⟨h.1, h.2.1, ih h.2.2⟩
    | replaced =>
      have ht : Accounts strict (pending ++ [t.leading]) es := h
      exact ih ht
    | dropped =>
      have ht : Accounts strict pending es := h
      exact ih ht

theorem handOver (leading : String) (h : Accounts strict pending es)
    (hk : strict → outcomes es ≠ []) :
    Accounts strict (leading :: pending) (handOver leading es) := by
  induction es generalizing pending with
  | nil => exact fun hs => absurd rfl (hk hs)
  | cons e es ih =>
    obtain ⟨t, fate⟩ := e
    cases fate with
    | kept taken text =>
      refine ⟨h.1.cons_cons leading, ?_, h.2.2⟩
      intro hs
      rw [h.2.1 hs]
    | replaced =>
      have ht : Accounts strict (pending ++ [t.leading]) es := h
      exact ih ht hk
    | dropped =>
      have ht : Accounts strict pending es := h
      exact ih ht hk

end Accounts

/-- The tokens whose trivia stays. -/
def undropped (es : List Edit) : List Token := tokens (es.filter (·.fate ≠ .dropped))

end Edit

/-- The comments in front of some tokens, in order. -/
def Token.commentsOf (ts : List Token) : List (List Char) :=
  ts.flatMap fun t => Text.comments t.leading

theorem comments_foldr_mergeTrivia {taken : List String} {leading : String}
    (ht : ∀ s ∈ taken, Text.IsTrivia s) (hl : Text.IsTrivia leading) :
    Text.IsTrivia (taken.foldr mergeTrivia leading) ∧
      Text.comments (taken.foldr mergeTrivia leading) =
        taken.flatMap Text.comments ++ Text.comments leading := by
  induction taken with
  | nil => exact ⟨hl, rfl⟩
  | cons s taken ih =>
    have hs := ht s List.mem_cons_self
    obtain ⟨hi, hc⟩ := ih fun u hu => ht u (List.mem_cons_of_mem _ hu)
    refine ⟨isTrivia_mergeTrivia hs hi, ?_⟩
    rw [List.foldr_cons, comments_mergeTrivia hs hi, hc, List.flatMap_cons, List.append_assoc]

theorem Edit.Accounts.comments {pending : List String} {es : List Edit}
    (h : Accounts True pending es) (hp : ∀ s ∈ pending, Text.IsTrivia s)
    (ht : ∀ t ∈ tokens es, Text.IsTrivia t.leading) :
    Token.commentsOf (outcomes es) =
      pending.flatMap Text.comments ++ Token.commentsOf (undropped es) := by
  induction es generalizing pending with
  | nil =>
    obtain rfl : pending = [] := h trivial
    rfl
  | cons e es ih =>
    obtain ⟨t, fate⟩ := e
    have hl : Text.IsTrivia t.leading := ht t List.mem_cons_self
    have hrest : ∀ u ∈ tokens es, Text.IsTrivia u.leading :=
      fun u hu => ht u (List.mem_cons_of_mem _ hu)
    cases fate with
    | kept taken text =>
      obtain rfl := h.2.1 trivial
      have hc := (comments_foldr_mergeTrivia hp hl).2
      have hes := ih h.2.2 (by simp) hrest
      rw [List.flatMap_nil, List.nil_append] at hes
      change Text.comments (taken.foldr mergeTrivia t.leading) ++ Token.commentsOf (outcomes es) =
        taken.flatMap Text.comments ++
          (Text.comments t.leading ++ Token.commentsOf (undropped es))
      rw [hc, hes, List.append_assoc]
    | replaced =>
      have hr : Accounts True (pending ++ [t.leading]) es := h
      have hpending : ∀ s ∈ pending ++ [t.leading], Text.IsTrivia s := by
        intro s hs
        cases List.mem_append.1 hs with
        | inl hs => exact hp s hs
        | inr hs =>
          obtain rfl := List.mem_singleton.1 hs
          exact hl
      have hes := ih hr hpending hrest
      rw [List.flatMap_append, List.flatMap_singleton, List.append_assoc] at hes
      exact hes
    | dropped =>
      have hr : Accounts True pending es := h
      exact ih hr hp hrest

theorem Script.spells {strict : Prop} {es : List Edit} (h : Script types strict es) :
    ∀ e ∈ es, e.Spells types := by
  have hgone : ∀ e : Edit, (∀ taken text, e.fate ≠ .kept taken text) → e.Spells types :=
    fun e he taken text hfate => absurd hfate (he taken text)
  induction h with
  | nil => simp
  | keep t _ ih => exact List.forall_mem_cons.2 ⟨spells_respell (Or.inl rfl), ih⟩
  | rename t _ ih =>
    refine List.forall_mem_cons.2 ⟨spells_respell ?_, ih⟩
    obtain ⟨-, ht⟩ | ⟨new, hk, hn, ht⟩ := types.rename_cases t
    · exact Or.inl (congrArg Token.text ht)
    · rw [ht]
      exact Or.inr (Or.inl ⟨hk, hn⟩)
  | iterator t ht _ ih =>
    exact List.forall_mem_cons.2 ⟨spells_respell (Or.inr (Or.inr ⟨ht, rfl⟩)), ih⟩
  | drop t _ ih => exact List.forall_mem_cons.2 ⟨hgone _ (by simp [Edit.drop]), ih⟩
  | replace t _ _ _ ihe ihf =>
    refine List.forall_mem_cons.2 ⟨hgone _ (by simp [Edit.replace]), ?_⟩
    exact List.forall_mem_append.2 ⟨spells_handOver t.leading ihe, ihf⟩

theorem Script.accounts {strict : Prop} {es : List Edit} (h : Script types strict es) :
    Accounts strict [] es := by
  have hkept : ∀ (t : Token) (text : String) {fs : List Edit}, Accounts strict [] fs →
      Accounts strict [] (respell t text :: fs) :=
    fun t text fs hfs => ⟨List.Sublist.slnil, fun _ => rfl, hfs⟩
  induction h with
  | nil => exact fun _ => rfl
  | keep t _ ih => exact hkept t _ ih
  | rename t _ ih => exact hkept t _ ih
  | iterator t ht _ ih => exact hkept t _ ih
  | drop t _ ih => exact ih
  | replace t hk _ _ ihe ihf => exact (ihe.handOver t.leading hk).append ihf

theorem Node.commentsOf_toSyncAll {ns ms : List Node}
    (h : Node.toSyncAll types member ns = .ok ms) (hf : Node.EveryOf Node.IsFilled ns)
    (ht : ∀ t ∈ Node.tokensAll ns, Text.IsTrivia t.leading) :
    Token.commentsOf (Node.tokensAll ms) =
      Token.commentsOf (Edit.undropped (Node.editsAll types ns)) := by
  have hs : Script types True (Node.editsAll types ns) := Node.script_editsAll types ns fun _ => hf
  have hc := hs.accounts.comments (by simp) (by rwa [Node.tokens_editsAll])
  rw [Node.tokens_toSyncAll ns ms h, hc, List.flatMap_nil, List.nil_append]

/-- Of a file that was read, no comment is lost but those dropped with the arguments of a type that
gives way to its first. -/
theorem SourceFile.commentsOf_toSyncAll {name source : String} {f : SourceFile} {ms : List Node}
    (hf : SourceFile.ofSource name source = .ok f)
    (h : Node.toSyncAll types member f.nodes = .ok ms) :
    Token.commentsOf (Node.tokensAll ms) =
      Token.commentsOf (Edit.undropped (Node.editsAll types f.nodes)) := by
  apply Node.commentsOf_toSyncAll h (SourceFile.isFilled_ofSource hf)
  intro t ht
  exact Lexer.isTrivia_leading_lexemes source t (SourceFile.mem_lexemes_of_mem_tokens hf ht)

end TwinClasses
