import TwinClasses.Proofs.Framing.Extends
import TwinClasses.Proofs.RoundTrip.Members

set_option autoImplicit false

/-! Types with more trees behind. A type that has ended is not gone on with by what begins a member,
unless that is the word `is` or `extends`. -/

namespace TwinClasses

open Extent

namespace Halts

variable {more : List Tree}

theorem frontToken? (h : Extent.beginsItem more = true) {kind : Kind}
    (hk : kind ∉ [.identifier, .string, .number, .privateName, .asterisk, .atSign]) :
    Tree.frontToken? kind more = none := by
  cases more with
  | nil => rfl
  | cons t more =>
    cases t with
    | group d opening children closing => rfl
    | token l =>
      have hne : l.kind ≠ kind := fun heq => hk (heq ▸ kind_of_beginsItem h)
      simp [Tree.frontToken?, hne]

theorem token_of_beginsMember {l : Lexeme} {us : List Tree}
    (h : beginsMember (.token l :: us) = true) :
    l.kind ∈ [.identifier, .string, .number, .privateName, .asterisk, .atSign] ∧
      l.toToken.isWord "is" = false ∧ l.toToken.isWord "extends" = false := by
  simpa only [beginsMember, Bool.and_eq_true, decide_eq_true_eq, Bool.not_eq_true', and_assoc]
    using h

theorem frontToken?_append {us : List Tree} (h : us = [] → Extent.beginsItem more = true)
    {kind : Kind} (hk : kind ∉ [.identifier, .string, .number, .privateName, .asterisk, .atSign]) :
    Tree.frontToken? kind (us ++ more) = Tree.frontToken? kind us := by
  cases us with
  | nil => exact Halts.frontToken? (h rfl) hk
  | cons u us => cases u <;> rfl

end Halts

namespace Reader

variable {more ts ts' : List Tree}

theorem dottedRest_of_front (closing : Option Nat) (nodes : List Node) {us : List Tree}
    (hd : Tree.frontToken? .dot us = none) (h : Follows us ts) :
    dottedRest closing nodes us h = .done nodes us h := by
  fun_cases dottedRest closing nodes us h with
  | case1 dot name us h hk => rfl
  | case2 dot name us h hk => simp_all [Tree.frontToken?]
  | case3 dot name us h hk => simp_all [Tree.frontToken?]
  | case4 dot us h hu hk => simp_all [Tree.frontToken?]
  | case5 dot us h hu hk => rfl
  | case6 us h hu hk => rfl

theorem dottedRest_extends (closing closing' : Option Nat) (nodes : List Node) (us : List Tree)
    (h : Follows us ts) (h' : Follows (us ++ more) ts') :
    (dottedRest closing nodes us h).Extends (Halts more) more
      (dottedRest closing' nodes (us ++ more) h') := by
  fun_induction dottedRest closing nodes us h with
  | case1 nodes dot name us h hk =>
    have hd : Tree.frontToken? .dot (.token dot :: .token name :: us ++ more) = none := by
      simpa [Tree.frontToken?] using hk
    rw [dottedRest_of_front closing' nodes hd h']
    exact Reading.extends_done _ _ _ _
  | case2 nodes dot name us h hk hn ih =>
    have heq : dottedRest closing' nodes (.token dot :: .token name :: us ++ more) h' =
        dottedRest closing' (nodes ++ [.token dot.toToken, .token name.toToken]) (us ++ more)
          h'.tail.tail := by
      simp only [List.cons_append]
      rw [dottedRest, if_neg hk, if_pos hn]
    rw [heq]
    exact ih h'.tail.tail
  | case3 nodes dot name us h hk hn => exact Reading.extends_unexpected _ _ _ _
  | case4 nodes dot us h hu hk => exact Reading.extends_unexpected _ _ _ _
  | case5 nodes dot us h hu hk =>
    have hd : Tree.frontToken? .dot (.token dot :: us ++ more) = none := by
      simpa [Tree.frontToken?] using hk
    rw [dottedRest_of_front closing' nodes hd h']
    exact Reading.extends_done _ _ _ _
  | case6 nodes us h hu hk =>
    intro a rest hr heq hrest
    cases heq
    have hd : Tree.frontToken? .dot us = none := by
      cases us with
      | nil => rfl
      | cons u us =>
        cases u with
        | group d opening children close => rfl
        | token l => exact (hk l us h rfl HEq.rfl).elim
    rw [← Halts.frontToken?_append hrest.beginsItem (by decide)] at hd
    exact ⟨h', dottedRest_of_front closing' nodes hd h'⟩

theorem qualifiers_of_front {us : List Tree} (hd : Tree.frontToken? .dot us = none) :
    qualifiers us = [] := by
  fun_cases qualifiers us with
  | case1 dot name us h => simp_all [Tree.frontToken?]
  | case2 dot name us h => rfl
  | case3 us h => rfl

theorem qualifiers_append {us : List Tree}
    (h : Halts more (us.drop (2 * (qualifiers us).length))) :
    qualifiers (us ++ more) = qualifiers us := by
  fun_induction qualifiers us with
  | case1 dot name us hk ih =>
    rw [List.length_cons, Nat.mul_succ] at h
    simp only [List.cons_append]
    rw [qualifiers, if_pos hk, ih h]
  | case2 dot name us hk =>
    simp only [List.cons_append]
    rw [qualifiers, if_neg hk]
  | case3 us hk =>
    simp only [List.length_nil, Nat.mul_zero, List.drop_zero] at h
    cases us using Tree.frontCases with
    | nil => exact qualifiers_of_front (Halts.frontToken? (h.beginsItem rfl) (by decide))
    | group d opening children close us => exact qualifiers_of_front rfl
    | token l us =>
      cases us using Tree.frontCases with
      | nil => exact qualifiers_of_front (by simpa [Tree.frontToken?] using h.ne_dot l rfl)
      | group d opening children close us => simp [qualifiers]
      | token name us => exact (hk l name us rfl).elim

theorem length_qualifiers_le (us : List Tree) : 2 * (qualifiers us).length ≤ us.length := by
  fun_induction qualifiers us with
  | case1 dot name us hk ih =>
    simp only [List.length_cons]
    omega
  | case2 dot name us hk => exact Nat.zero_le _
  | case3 us hk => exact Nat.zero_le _

/-- A type name, its qualifiers and what is left after them. -/
theorem typeReference_eq (closing : Option Nat) {name : Lexeme} {us vs : List Tree}
    (hk : name.kind = .identifier) (hv : us.drop (2 * (qualifiers us).length) = vs)
    (h : Follows vs (.token name :: us)) :
    typeReference closing (.token name :: us) =
      if (Tree.frontToken? .lessThan vs).isSome then
        ((typeArguments closing vs).within h).map fun arguments =>
          ⟨name.toToken, qualifiers us, some arguments⟩
      else .done ⟨name.toToken, qualifiers us, none⟩ vs h := by
  subst hv
  rw [typeReference, if_pos hk]

theorem angleLength?_append {depth n : Nat} {us : List Tree} (h : angleLength? depth us = some n)
    (more : List Tree) : angleLength? depth (us ++ more) = some n ∧ n ≤ us.length := by
  induction us generalizing depth n with
  | nil =>
    cases depth with
    | zero =>
      cases h
      exact ⟨by rw [angleLength?], Nat.zero_le _⟩
    | succ depth => cases h
  | cons t us ih =>
    cases depth with
    | zero =>
      cases h
      exact ⟨rfl, Nat.zero_le _⟩
    | succ depth =>
      obtain ⟨m, hm, rfl⟩ := Option.map_eq_some_iff.1 h
      obtain ⟨ha, hle⟩ := ih hm
      exact ⟨Option.map_eq_some_iff.2 ⟨m, ha, rfl⟩, Nat.succ_le_succ hle⟩

theorem typeParameters_extends (closing closing' : Option Nat) (ts more : List Tree) :
    (typeParameters closing ts).Extends (fun _ => True) more
      (typeParameters closing' (ts ++ more)) := by
  cases ts with
  | nil =>
    rw [typeParameters]
    · exact Reading.extends_unexpected _ _ _ _
    · simp
  | cons t us =>
    cases t with
    | group d opening children close =>
      rw [typeParameters]
      · exact Reading.extends_unexpected _ _ _ _
      · simp
    | token opening =>
      simp only [List.cons_append]
      rw [typeParameters, typeParameters]
      by_cases hk : opening.kind = .lessThan
      · rw [if_pos hk, if_pos hk]
        cases hn : angleLength? 1 us with
        | none => exact Reading.extends_failed _ _ _
        | some n =>
          obtain ⟨ha, hle⟩ := angleLength?_append hn more
          rw [ha]
          simp only [List.take_succ_cons, List.take_append_of_le_length hle,
            List.drop_append_of_le_length hle]
          exact Reading.extends_ofExcept _ _ _ _
      · rw [if_neg hk]
        exact Reading.extends_unexpected _ _ _ _

theorem operand_nil (closing : Option Nat) :
    operand closing [] = .unexpected "a type" closing [] := by
  rw [operand, primary]
  rfl

theorem operands_nil (closing : Option Nat) (conditional : Bool) :
    operands closing conditional [] = .unexpected "a type" closing [] := by
  rw [operands, operand_nil]
  rfl

theorem indexed_extends (nodes : List Node) (us : List Tree) (h : Follows us ts)
    (h' : Follows (us ++ more) ts') :
    (indexed nodes us h).Extends (Halts more) more (indexed nodes (us ++ more) h') := by
  induction us generalizing nodes with
  | nil =>
    rw [indexed]
    · intro a rest hr heq hrest
      cases heq
      have hmore := hrest.apart rfl
      cases more using Tree.frontCases with
      | nil =>
        rw [indexed]
        · exact ⟨h', rfl⟩
        · simp
      | token l more =>
        rw [indexed]
        · exact ⟨h', rfl⟩
        · simp
      | group d opening children close more =>
        simp only [beginsMember, Bool.and_eq_true, decide_eq_true_eq] at hmore
        obtain ⟨rfl, hl⟩ := hmore
        simp only [List.nil_append] at h' ⊢
        rw [indexed, if_pos hl]
        exact ⟨h', rfl⟩
    · simp
  | cons u us ih =>
    cases u with
    | token l =>
      simp only [List.cons_append]
      rw [indexed, indexed]
      · exact Reading.extends_done _ _ _ _
      · simp
      · simp
    | group d opening children close =>
      simp only [List.cons_append] at h' ⊢
      by_cases hd : d = .bracket
      · subst hd
        rw [indexed, indexed]
        by_cases hl : opening.toToken.opensLine
        · rw [if_pos hl, if_pos hl]
          exact Reading.extends_done _ _ _ _
        · rw [if_neg hl, if_neg hl]
          cases group .bracket opening children close with
          | ok g => exact ih _ h.tail h'.tail
          | error fault => exact Reading.extends_failed _ _ _
      · rw [indexed, indexed]
        · exact Reading.extends_done _ _ _ _
        · simp [hd]
        · simp [hd]

theorem type_nil (closing : Option Nat) (conditional : Bool) :
    type closing conditional [] = .unexpected "a type" closing [] := by
  rw [type, operands_nil]
  simp

mutual

theorem type_extends (closing closing' : Option Nat) (conditional : Bool) (ts more : List Tree) :
    (type closing conditional ts).Extends (Halts more) more
      (type closing' conditional (ts ++ more)) := by
  cases ts with
  | nil =>
    rw [type_nil]
    exact Reading.extends_unexpected _ _ _ _
  | cons t us =>
    simp only [List.cons_append]
    cases t with
    | group d opening children close =>
      rw [type, type]
      · exact operands_extends closing closing' conditional
          (.group d opening children close :: us) more
      · simp
      · simp
    | token l =>
      rw [type, type]
      by_cases hj : l.kind.joinsTypes
      · rw [if_pos hj, if_pos hj]
        exact ((operands_extends closing closing' conditional us more).map _).after
      · rw [if_neg hj, if_neg hj]
        exact operands_extends closing closing' conditional (.token l :: us) more
  termination_by 16 * Tree.weightAll ts + 9
  decreasing_by all_goals grind

theorem operands_extends (closing closing' : Option Nat) (conditional : Bool)
    (ts more : List Tree) :
    (operands closing conditional ts).Extends (Halts more) more
      (operands closing' conditional (ts ++ more)) := by
  rw [operands, operands]
  refine (operand_extends closing closing' ts more).andThen ?_ ?_
  · intro nodes us h h'
    cases us using Tree.frontCases with
    | nil =>
      intro a rest hr heq hrest
      cases heq
      have hmore := hrest.apart rfl
      cases more using Tree.frontCases with
      | nil => exact ⟨h', rfl⟩
      | group d opening children close more => exact ⟨h', rfl⟩
      | token l more =>
        obtain ⟨hk, -, hx⟩ := Halts.token_of_beginsMember hmore
        have hj : l.kind.joinsTypes = false := by
          revert hk
          cases l.kind <;> decide
        simp only [List.nil_append, hx, hj, Bool.and_false, Bool.false_eq_true, if_false]
        exact ⟨h', trivial⟩
    | group d opening children close us => exact Reading.extends_done _ _ _ _
    | token l us =>
      simp only [List.cons_append]
      by_cases hx : (conditional && l.toToken.isWord "extends") = true
      · rw [if_pos hx, if_pos hx]
        exact ((conditionalRest_extends closing closing' us more).within _ _).map _
      · rw [if_neg hx, if_neg hx]
        by_cases hj : l.kind.joinsTypes
        · rw [if_pos hj, if_pos hj]
          exact ((operands_extends closing closing' conditional us more).within _ _).map _
        · rw [if_neg hj, if_neg hj]
          exact Reading.extends_done _ _ _ _
  · intro nodes us h b rest hr heq hrest
    refine .of_front ?_ ?_
    · rintro rfl
      cases heq
      exact hrest
    · rintro l vs rfl hd
      have hx : l.toToken.isWord "extends" = false := by simp [Token.isWord, hd]
      have hj : l.kind.joinsTypes = false := by rw [hd]; rfl
      simp only [hx, hj, Bool.and_false, Bool.false_eq_true, if_false] at heq
      cases heq
      exact hrest
  termination_by 16 * Tree.weightAll ts + 8
  decreasing_by all_goals grind

theorem conditionalRest_extends (closing closing' : Option Nat) (ts more : List Tree) :
    (conditionalRest closing ts).Extends (Halts more) more
      (conditionalRest closing' (ts ++ more)) := by
  rw [conditionalRest, conditionalRest]
  refine (type_extends closing closing' false ts more).andThen ?_ ?_
  · intro bound us h h'
    refine ((Reading.extends_expect .question _ closing closing' us more).within h
      h').andThen_of_true ?_
    intro question us h h'
    refine ((type_extends closing closing' true us more).within h h').andThen ?_ ?_
    · intro yes us h h'
      refine ((Reading.extends_expect .colon _ closing closing' us more).within h
        h').andThen_of_true ?_
      intro colon us h h'
      exact ((type_extends closing closing' true us more).within h h').map _
    · intro yes us h b rest hr heq _
      exact Reading.halts_of_expect (by decide) heq
  · intro bound us h b rest hr heq _
    exact Reading.halts_of_expect (by decide) heq
  termination_by 16 * Tree.weightAll ts + 10
  decreasing_by all_goals grind

theorem operand_extends (closing closing' : Option Nat) (ts more : List Tree) :
    (operand closing ts).Extends (Halts more) more (operand closing' (ts ++ more)) := by
  rw [operand, operand]
  refine (primary_extends closing closing' ts more).andThen ?_ ?_
  · intro nodes us h h'
    exact indexed_extends nodes us h h'
  · intro nodes us h b rest hr heq hrest
    refine .of_front ?_ ?_
    · rintro rfl
      rw [indexed] at heq
      · cases heq
        exact hrest
      · simp
    · rintro l vs rfl -
      rw [indexed] at heq
      · cases heq
        exact hrest
      · simp
  termination_by 16 * Tree.weightAll ts + 7
  decreasing_by all_goals grind

theorem primary_extends (closing closing' : Option Nat) (ts more : List Tree) :
    (primary closing ts).Extends (Halts more) more (primary closing' (ts ++ more)) := by
  cases ts with
  | nil =>
    rw [primary]
    exact Reading.extends_unexpected _ _ _ _
  | cons t us =>
    cases t with
    | token l => exact primary_token_extends closing closing' l us more
    | group d opening children close =>
      exact primary_group_extends closing closing' d opening close children us more
  termination_by 16 * Tree.weightAll ts + 6
  decreasing_by all_goals grind

theorem primary_group_extends (closing closing' : Option Nat) (d : Delimiter)
    (opening close : Lexeme) (children us more : List Tree) :
    (primary closing (.group d opening children close :: us)).Extends (Halts more) more
      (primary closing' (.group d opening children close :: (us ++ more))) := by
  rw [primary, primary]
  cases d with
  | paren =>
    cases ha : Tree.frontToken? .arrow us with
    | some arrow =>
      obtain ⟨l, ws, rfl, hl, rfl⟩ := Tree.frontToken?_eq_some ha
      have ha' : Tree.frontToken? .arrow (.token l :: ws ++ more) = some l.toToken := by
        simp [Tree.frontToken?, hl]
      rw [ha']
      refine (Reading.extends_ofExcept _ _ _ _).andThen_of_true ?_
      intro g vs h h'
      cases vs with
      | nil =>
        have hnil : type closing true (([] : List Tree).drop 1) = .unexpected "a type" closing [] :=
          type_nil closing true
        rw [hnil]
        exact Reading.extends_unexpected _ _ _ _
      | cons v vs => exact ((type_extends closing closing' true vs more).within _ _).map _
    | none =>
      cases parenthesized opening children close with
      | error fault => exact Reading.extends_failed _ _ _
      | ok g =>
        intro a rest hr heq hrest
        cases heq
        rw [Halts.frontToken?_append hrest.beginsItem (by decide), ha]
        exact ⟨.tail_of_cons _ _, rfl⟩
  | bracket => exact (Reading.extends_ofExcept _ _ _ _).map _
  | brace => exact (Reading.extends_ofExcept _ _ _ _).map _
  | template => exact (Reading.extends_ofExcept _ _ _ _).map _
  termination_by 16 * Tree.weightAll (.group d opening children close :: us) + 5
  decreasing_by all_goals grind

theorem primary_token_extends (closing closing' : Option Nat) (l : Lexeme) (us more : List Tree) :
    (primary closing (.token l :: us)).Extends (Halts more) more
      (primary closing' (.token l :: (us ++ more))) := by
  rw [primary, primary]
  cases hk : l.kind with
  | identifier =>
    simp only
    by_cases h1 : l.text ∈ operandPrefixes
    · rw [if_pos h1, if_pos h1]
      exact ((operand_extends closing closing' us more).map _).after
    rw [if_neg h1, if_neg h1]
    by_cases h2 : l.text ∈ primaryPrefixes
    · rw [if_pos h2, if_pos h2]
      exact ((primary_extends closing closing' us more).map _).after
    rw [if_neg h2, if_neg h2]
    by_cases h3 : l.text = "infer"
    · rw [if_pos h3, if_pos h3]
      exact ((Reading.extends_expect .identifier _ closing closing' us more).map _).after
    rw [if_neg h3, if_neg h3]
    by_cases h4 : l.text = "typeof"
    · rw [if_pos h4, if_pos h4]
      refine ((Reading.extends_expect .identifier _ closing closing' us
        more).andThen_of_true ?_).after
      intro name vs h h'
      exact dottedRest_extends closing closing' _ vs h h'
    rw [if_neg h4, if_neg h4]
    by_cases h5 : l.text ∈ builtinTypes
    · rw [if_pos h5, if_pos h5]
      exact Reading.extends_done _ _ _ _
    rw [if_neg h5, if_neg h5]
    refine (typeReference_extends closing closing' (.token l :: us) more).andThen ?_ ?_
    · intro reference vs h h'
      cases vs using Tree.frontCases with
      | nil =>
        intro a rest hr heq hrest
        cases heq
        have hmore := hrest.apart rfl
        cases more using Tree.frontCases with
        | nil => exact ⟨h', rfl⟩
        | group d opening children close more => exact ⟨h', rfl⟩
        | token word more =>
          obtain ⟨-, his, -⟩ := Halts.token_of_beginsMember hmore
          simp only [List.nil_append, his, Bool.false_eq_true, if_false]
          exact ⟨h', trivial⟩
      | group d opening children close vs => exact Reading.extends_done _ _ _ _
      | token word vs =>
        simp only [List.cons_append]
        by_cases his : word.toToken.isWord "is"
        · rw [if_pos his, if_pos his]
          exact ((type_extends closing closing' true vs more).within _ _).map _
        · rw [if_neg his, if_neg his]
          exact Reading.extends_done _ _ _ _
    · intro reference vs h b rest hr heq hrest
      refine .of_front ?_ ?_
      · rintro rfl
        cases heq
        exact hrest
      · rintro word ws rfl hd
        have his : word.toToken.isWord "is" = false := by simp [Token.isWord, hd]
        simp only [his, Bool.false_eq_true, if_false] at heq
        cases heq
        exact hrest
  | string => exact Reading.extends_done _ _ _ _
  | number => exact Reading.extends_done _ _ _ _
  | template => exact Reading.extends_done _ _ _ _
  | operator =>
    simp only
    by_cases hm : l.text = "-"
    · rw [if_pos hm, if_pos hm]
      exact ((Reading.extends_expect .number _ closing closing' us more).map _).after
    · rw [if_neg hm, if_neg hm]
      exact Reading.extends_unexpected _ _ _ _
  | lessThan =>
    simp only
    refine (typeParameters_extends closing closing' (.token l :: us) more).andThen_of_true ?_
    intro parameters vs h h'
    exact ((primary_extends closing closing' vs more).within h h').map _
  | _ => exact Reading.extends_unexpected _ _ _ _
  termination_by 16 * Tree.weightAll (.token l :: us) + 5
  decreasing_by all_goals grind

theorem typeReference_extends (closing closing' : Option Nat) (ts more : List Tree) :
    (typeReference closing ts).Extends (Halts more) more
      (typeReference closing' (ts ++ more)) := by
  cases ts with
  | nil =>
    rw [typeReference]
    · exact Reading.extends_unexpected _ _ _ _
    · simp
  | cons t us =>
    cases t with
    | group d opening children close =>
      rw [typeReference]
      · exact Reading.extends_unexpected _ _ _ _
      · simp
    | token name =>
      simp only [List.cons_append]
      by_cases hk : name.kind = .identifier
      · generalize hv : us.drop (2 * (qualifiers us).length) = vs
        have hvs : Follows vs (.token name :: us) := hv ▸ (Follows.tail_of_cons _ us).drop _
        rw [typeReference_eq closing hk hv hvs]
        intro a rest hr heq hrest
        have hhalts : Halts more vs := by
          cases hl : Tree.frontToken? .lessThan vs with
          | some l =>
            obtain ⟨l, ws, rfl, hlk, -⟩ := Tree.frontToken?_eq_some hl
            exact .token (by rw [hlk]; decide) ws
          | none =>
            rw [hl] at heq
            cases heq
            exact hrest
        have hq : qualifiers (us ++ more) = qualifiers us := qualifiers_append (hv ▸ hhalts)
        have hv' : (us ++ more).drop (2 * (qualifiers (us ++ more)).length) = vs ++ more := by
          rw [hq, List.drop_append_of_le_length (length_qualifiers_le us), hv]
        have hvs' : Follows (vs ++ more) (.token name :: (us ++ more)) :=
          hv' ▸ (Follows.tail_of_cons _ (us ++ more)).drop _
        rw [typeReference_eq closing' hk hv' hvs', hq,
          Halts.frontToken?_append hhalts.beginsItem (by decide)]
        by_cases hl : (Tree.frontToken? .lessThan vs).isSome
        · rw [if_pos hl] at heq ⊢
          exact (((typeArguments_extends closing closing' vs more).within hvs hvs').map _)
            a rest hr heq trivial
        · rw [if_neg hl] at heq ⊢
          cases heq
          exact ⟨hvs', rfl⟩
      · rw [typeReference, if_neg hk]
        exact Reading.extends_unexpected _ _ _ _
  termination_by 16 * Tree.weightAll ts
  decreasing_by all_goals grind

theorem typeArguments_extends (closing closing' : Option Nat) (ts more : List Tree) :
    (typeArguments closing ts).Extends (fun _ => True) more
      (typeArguments closing' (ts ++ more)) := by
  cases ts with
  | nil =>
    rw [typeArguments]
    · exact Reading.extends_unexpected _ _ _ _
    · simp
  | cons t us =>
    cases t with
    | group d opening children close =>
      rw [typeArguments]
      · exact Reading.extends_unexpected _ _ _ _
      · simp
    | token opening =>
      simp only [List.cons_append]
      rw [typeArguments, typeArguments]
      by_cases hk : opening.kind = .lessThan
      · rw [if_pos hk, if_pos hk]
        exact ((typeArgumentsRest_extends closing closing' us more).map _).after
      · rw [if_neg hk, if_neg hk]
        exact Reading.extends_unexpected _ _ _ _
  termination_by 16 * Tree.weightAll ts
  decreasing_by all_goals grind

theorem typeArgumentsRest_extends (closing closing' : Option Nat) (ts more : List Tree) :
    (typeArgumentsRest closing ts).Extends (fun _ => True) more
      (typeArgumentsRest closing' (ts ++ more)) := by
  rw [typeArgumentsRest, typeArgumentsRest]
  cases ts with
  | nil =>
    simp only [Tree.frontToken?]
    rw [type_nil]
    exact Reading.extends_unexpected _ _ _ _
  | cons t us =>
    have hfront : Tree.frontToken? .greaterThan (t :: us ++ more) =
        Tree.frontToken? .greaterThan (t :: us) := by
      cases t <;> rfl
    rw [hfront]
    cases Tree.frontToken? .greaterThan (t :: us) with
    | some close => exact Reading.extends_done _ _ _ _
    | none =>
      refine (type_extends closing closing' true (t :: us) more).andThen ?_ ?_
      · intro nodes vs h h'
        cases vs using Tree.frontCases with
        | nil => exact Reading.extends_unexpected _ _ _ _
        | group d opening children close vs => exact Reading.extends_unexpected _ _ _ _
        | token l vs =>
          simp only [List.cons_append]
          by_cases hc : l.kind = .comma
          · rw [if_pos hc, if_pos hc]
            exact ((typeArgumentsRest_extends closing closing' vs more).within _ _).map _
          · rw [if_neg hc, if_neg hc]
            by_cases hg : l.kind = .greaterThan
            · rw [if_pos hg, if_pos hg]
              exact Reading.extends_done _ _ _ _
            · rw [if_neg hg]
              exact Reading.extends_unexpected _ _ _ _
      · intro nodes vs h b rest hr heq _
        refine .of_front ?_ ?_
        · rintro rfl
          cases heq
        · rintro l ws rfl hd
          simp [hd, Reading.unexpected] at heq
  termination_by 16 * Tree.weightAll ts + 10
  decreasing_by all_goals grind

end

end Reader

end TwinClasses
