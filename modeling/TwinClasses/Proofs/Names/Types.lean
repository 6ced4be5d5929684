import TwinClasses.Proofs.Names.Sequences

set_option autoImplicit false

/-! Dots in types. Behind `typeof` they are nodes of their own, with the names behind them; in a
qualified name they are part of the reference. -/

namespace TwinClasses.Reader

open Extent Reading Occurrence

variable {w : Nat}

theorem typeParameters_whole (ih : ReadersLinked w) (closing : Option Nat) {ts : List Tree}
    (h : Fits (w + 1) ts) :
    (typeParameters closing ts).Gives Node.AllWhole := by
  unfold typeParameters
  split
  · rename_i opening us
    split
    · split
      · rename_i n hn
        apply Gives.ofExcept
        intro ns hns
        have hs := sequence_linked ih (h.take _) hns
        refine ⟨hs.linked, hs.closed ?_⟩
        obtain ⟨inner, l, hi, hl⟩ := take_angleLength? hn
        have hangle : Tree.isDot (.token l) = false := by simp [Tree.isDot, Kind.isDot, hl]
        rw [List.take_succ_cons, hi]
        exact (((Tree.ends_single hangle).append_left inner).cons _).closed
      · trivial
    · exact gives_unexpected _ _ _
  · exact gives_unexpected _ _ _

theorem dottedRest_whole (closing : Option Nat) {ts : List Tree} (nodes : List Node)
    (us : List Tree) (h : Follows us ts) (hn : Node.AllWhole nodes) :
    (dottedRest closing nodes us h).Gives Node.AllWhole := by
  fun_induction dottedRest closing nodes us h with
  | case1 nodes dot name us h hd => exact hn
  | case2 nodes dot name us h hd hk ih =>
    apply ih
    have hdotted : Node.AllWhole [.token dot.toToken, .token name.toToken] := by
      have hname : name.toToken.kind.isDot = false := by rw [hk]; rfl
      have h : Whole [dot.toToken.as .plain, name.toToken.as .plain] :=
        dotted_whole hname (by decide)
      simpa [Node.AllWhole, Node.occurrencesAll, Node.occurrences] using h
    exact hn.append hdotted
  | case3 nodes dot name us h hd hk => exact gives_unexpected _ _ _
  | case4 nodes dot us h hu hd => exact gives_unexpected _ _ _
  | case5 nodes dot us h hu hd => exact hn
  | case6 nodes us h hu hd => exact hn

theorem indexed_whole (ih : ReadersLinked w) {ts : List Tree} (nodes : List Node) (us : List Tree)
    (h : Follows us ts) (hus : Fits (w + 1) us) (hn : Node.AllWhole nodes) :
    (indexed nodes us h).Gives Node.AllWhole := by
  induction us generalizing nodes with
  | nil =>
    unfold indexed
    exact hn
  | cons u us ihu =>
    unfold indexed
    split
    · rename_i opening children closing vs h heq _
      obtain ⟨rfl, rfl⟩ := List.cons.inj heq
      split
      · exact hn
      · split
        · rename_i g hg
          have hg := (group_whole ih hus hg).1
          refine ihu _ _ hus.tail.succ (hn.append (.single ?_))
          rwa [Node.occurrences]
        · trivial
    · exact hn

theorem parenthesized_whole (ih : ReadersLinked w) {opening close : Lexeme}
    {children us : List Tree} (h : Fits (w + 1) (.group .paren opening children close :: us)) {g : Group}
    (hg : parenthesized opening children close = .ok g) : Whole g.occurrences := by
  obtain ⟨hopen, hclose, hchildren⟩ := h.group
  unfold parenthesized at hg
  split at hg
  · rename_i nodes hf hr
    have hn := ih.type (some close.offset) true children hchildren
    rw [hr] at hn
    cases hg
    rw [Group.occurrences]
    exact enclosed_whole hopen hclose hn.linked
  · cases hg
  · cases hg

/-- A token, and what is read after it. -/
theorem prefixed_whole {l : Lexeme} {k : Kind} (hl : l.kind = k) (hk : k.isDot = false)
    {us : List Tree} {r : Reading (List Node) us}
    (h : r.Gives Node.AllWhole) :
    ((r.map (.token l.toToken :: ·)).after (t := .token l)).Gives
      Node.AllWhole := by
  apply Gives.after
  apply Gives.map
  apply h.mono
  intro ns hn
  exact hn.token hl hk

theorem gives_expect (kind : Kind) (construct : String) (closing : Option Nat) (ts : List Tree) :
    (Reading.expect kind construct closing ts).Gives fun t =>
      ∃ l : Lexeme, l.kind = kind ∧ t = l.toToken := by
  have h := yields_expect kind construct closing ts
  cases hr : Reading.expect kind construct closing ts with
  | done t rest hf =>
    rw [hr] at h
    obtain ⟨read, -, l, hl, ht, -⟩ := h
    exact ⟨l, hl, ht⟩
  | failed fault rest => trivial

/-- A token, and one of a certain kind after it. -/
theorem paired_whole {l : Lexeme} {k kind : Kind} (hl : l.kind = k) (hk : k.isDot = false)
    (hkind : kind.isDot = false) (closing : Option Nat) (us : List Tree) :
    (((Reading.expect kind "a type" closing us).map fun name =>
      [.token l.toToken, .token name]).after (t := .token l)).Gives Node.AllWhole := by
  apply Gives.after
  apply Gives.map
  apply (gives_expect _ _ _ us).mono
  rintro t ⟨name, hname, rfl⟩
  exact .token hl hk (.token hname hkind .nil)

theorem primary_token_whole (ih : ReadersLinked w) (closing : Option Nat) {l : Lexeme}
    {us : List Tree} (h : Fits (w + 1) (.token l :: us)) :
    (primary closing (.token l :: us)).Gives Node.AllWhole := by
  have hsingle : ∀ {k : Kind}, l.kind = k → k.isDot = false →
      Node.AllWhole [.token l.toToken] :=
    fun hl hk => .token hl hk .nil
  unfold primary
  split
  · rename_i hl
    split
    · exact prefixed_whole hl rfl (ih.operand closing us h.tail)
    · split
      · exact prefixed_whole hl rfl (ih.primary closing us h.tail)
      · split
        · exact paired_whole hl rfl rfl closing us
        · split
          · apply Gives.after
            apply (gives_expect _ _ _ us).andThen
            rintro t vs h ⟨name, hname, rfl⟩
            exact dottedRest_whole closing _ vs h (.token hl rfl (.token hname rfl .nil))
          · split
            · exact hsingle hl rfl
            · apply (typeReference_whole ih closing h).andThen
              intro r vs hvs hr
              have hnode : Whole (Node.typeRef r).occurrences := by rwa [Node.occurrences]
              split
              · rename_i word ws hws
                split
                · rename_i hword
                  apply Gives.map
                  apply Gives.within
                  apply (ih.type closing true ws (h.of_follows hws.tail)).mono
                  intro ns hn
                  rw [Token.isWord, Bool.and_eq_true, decide_eq_true_eq] at hword
                  exact .cons hnode (.token hword.1 rfl hn)
                · exact .single hnode
              · exact .single hnode
  · rename_i hl
    exact hsingle hl rfl
  · rename_i hl
    exact hsingle hl rfl
  · rename_i hl
    exact hsingle hl rfl
  · rename_i hl
    split
    · exact paired_whole hl rfl rfl closing us
    · exact gives_unexpected _ _ _
  · apply (typeParameters_whole ih closing h).andThen
    intro parameters vs hvs hp
    apply Gives.map
    apply Gives.within
    apply (ih.primary closing vs (h.of_follows hvs)).mono
    intro ns hn
    exact hp.append hn
  · exact gives_unexpected _ _ _

theorem primary_group_whole (ih : ReadersLinked w) (closing : Option Nat) {d : Delimiter}
    {opening close : Lexeme} {children us : List Tree}
    (h : Fits (w + 1) (.group d opening children close :: us)) :
    (primary closing (.group d opening children close :: us)).Gives Node.AllWhole := by
  unfold primary
  cases d with
  | paren =>
    cases ha : Tree.frontToken? .arrow us with
    | some arrow =>
      obtain ⟨l, ws, rfl, hl, rfl⟩ := Tree.frontToken?_eq_some ha
      refine Gives.andThen (P := fun g => Whole g.occurrences) ?_ ?_
      · apply Gives.ofExcept
        intro g hg
        exact (group_whole ih h hg).1
      · intro g rest hrest hg
        apply Gives.map
        apply Gives.within
        apply (ih.type closing true (rest.drop 1) ((h.of_follows hrest).drop 1)).mono
        intro ns hn
        refine .cons ?_ (.token hl rfl hn)
        rwa [Node.occurrences]
    | none =>
      apply Gives.map
      apply Gives.ofExcept
      intro g hg
      refine .single ?_
      rw [Node.occurrences]
      exact parenthesized_whole ih h hg
  | _ =>
    apply Gives.map
    apply Gives.ofExcept
    intro g hg
    refine .single ?_
    rw [Node.occurrences]
    exact (group_whole ih h hg).1

theorem primary_whole (ih : ReadersLinked w) (closing : Option Nat) {ts : List Tree}
    (h : Fits (w + 1) ts) : (primary closing ts).Gives Node.AllWhole := by
  cases ts with
  | nil =>
    unfold primary
    exact gives_unexpected _ _ _
  | cons t us =>
    cases t with
    | token l => exact primary_token_whole ih closing h
    | group d opening children close => exact primary_group_whole ih closing h

theorem operand_whole (ih : ReadersLinked w) (closing : Option Nat) {ts : List Tree}
    (h : Fits (w + 1) ts) : (operand closing ts).Gives Node.AllWhole := by
  unfold operand
  apply (primary_whole ih closing h).andThen
  intro nodes us hus hn
  exact indexed_whole ih nodes us hus (h.of_follows hus).succ hn

theorem conditionalRest_whole (ih : ReadersLinked w) (closing : Option Nat) {ts : List Tree}
    (h : Fits w ts) : (conditionalRest closing ts).Gives Node.AllWhole := by
  unfold conditionalRest
  apply (ih.type closing false ts h).andThen
  intro bound us hus hb
  apply ((gives_expect .question _ closing us).within _).andThen
  rintro question vs hvs ⟨l, hl, rfl⟩
  apply ((ih.type closing true vs (h.of_isInfix hvs.suffix.isInfix)).within _).andThen
  intro yes ws hws hyes
  apply ((gives_expect .colon _ closing ws).within _).andThen
  rintro colon xs hxs ⟨l', hl', rfl⟩
  apply Gives.map
  apply Gives.within
  apply (ih.type closing true xs (h.of_isInfix hxs.suffix.isInfix)).mono
  intro no hno
  have hall : Node.AllWhole (bound ++ .token l.toToken :: (yes ++ .token l'.toToken :: no)) :=
    hb.append (.token hl rfl (hyes.append (.token hl' rfl hno)))
  simpa using hall

theorem isDot_of_joinsTypes {k : Kind} (h : k.joinsTypes = true) : k.isDot = false := by
  cases k <;> simp [Kind.joinsTypes, Kind.isDot] at h ⊢

theorem operands_whole (ih : ReadersLinked w) (closing : Option Nat) (conditional : Bool)
    {ts : List Tree} (h : Fits (w + 1) ts) :
    (operands closing conditional ts).Gives Node.AllWhole := by
  unfold operands
  apply (operand_whole ih closing h).andThen
  intro nodes us hus hn
  split
  · rename_i l vs hvs
    have hfits : Fits w vs := h.of_follows hvs.tail
    split
    · rename_i hword
      simp only [Bool.and_eq_true, Token.isWord, decide_eq_true_eq] at hword
      apply Gives.map
      apply Gives.within
      apply (conditionalRest_whole ih closing hfits).mono
      intro ns hr
      exact hn.append (.token hword.2.1 rfl hr)
    · split
      · rename_i hjoins
        apply Gives.map
        apply Gives.within
        apply (ih.operands closing conditional vs hfits).mono
        intro ns hr
        exact hn.append (.token rfl (isDot_of_joinsTypes hjoins) hr)
      · exact hn
  · exact hn

theorem type_whole (ih : ReadersLinked w) (closing : Option Nat) (conditional : Bool)
    {ts : List Tree} (h : Fits (w + 1) ts) :
    (type closing conditional ts).Gives Node.AllWhole := by
  unfold type
  split
  · rename_i l us
    split
    · rename_i hjoins
      exact prefixed_whole rfl (isDot_of_joinsTypes hjoins)
        (operands_whole ih closing conditional h.tail.succ)
    · exact operands_whole ih closing conditional h
  · exact operands_whole ih closing conditional h

theorem typeArgumentsRest_whole (ih : ReadersLinked w) (closing : Option Nat) {ts : List Tree}
    (h : Fits (w + 1) ts) : (typeArgumentsRest closing ts).Gives fun found =>
      found.2.kind = .greaterThan ∧ Whole (TypeArgument.occurrencesAll found.1) := by
  unfold typeArgumentsRest
  generalize hc : Tree.frontToken? .greaterThan ts = c
  cases c with
  | some close =>
    obtain ⟨l, us, rfl, hl, rfl⟩ := Tree.frontToken?_eq_some hc
    refine ⟨hl, ?_⟩
    rw [TypeArgument.occurrencesAll]
    exact whole_nil
  | none =>
    apply (type_whole ih closing true h).andThen
    intro nodes us hus hn
    split
    · rename_i l vs hvs
      split
      · rename_i hcomma
        apply Gives.map
        apply Gives.within
        apply (ih.typeArgumentsRest closing vs (h.of_follows hvs.tail)).mono
        rintro ⟨items, close⟩ ⟨hclose, hi⟩
        refine ⟨hclose, ?_⟩
        rw [TypeArgument.occurrencesAll, TypeArgument.occurrences]
        exact (Whole.append hn (whole_single (isDot_as hcomma _ rfl))).append hi
      · split
        · rename_i hangle
          refine ⟨hangle, ?_⟩
          simpa [TypeArgument.occurrencesAll, TypeArgument.occurrences, Node.AllWhole] using hn
        · exact gives_unexpected _ _ _
    · exact gives_unexpected _ _ _

end TwinClasses.Reader
