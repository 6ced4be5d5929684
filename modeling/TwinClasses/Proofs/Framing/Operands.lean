import TwinClasses.Proofs.Framing.Classes
import TwinClasses.Proofs.Framing.Properties

set_option autoImplicit false

/-! How far an operand reaches. What may be chained to it comes in links; the chain that is read is
the longest one, and the operand is the prefix operators, a group or a primary token, and that
chain. -/

namespace TwinClasses.Reader

open Extent

/-- The trees of the first list continue an operand when those of the second come after them. -/
inductive Link : List Tree → List Tree → Prop where
  | member {dot name : Lexeme} {rest : List Tree} (hdot : dot.kind = .dot)
      (hname : isMemberName (.token name)) : Link [.token dot, .token name] rest
  | optionalMember {dot name : Lexeme} {rest : List Tree} (hdot : dot.kind = .questionDot)
      (hname : isMemberName (.token name)) : Link [.token dot, .token name] rest
  | optionalBrackets {dot opening closing : Lexeme} {d : Delimiter} {children rest : List Tree}
      (hdot : dot.kind = .questionDot) (hd : d ≠ .brace) :
      Link [.token dot, .group d opening children closing] rest
  | brackets {opening closing : Lexeme} {d : Delimiter} {children rest : List Tree}
      (hd : d ≠ .brace) (hline : opening.toToken.opensLine = false) :
      Link [.group d opening children closing] rest
  | template {l : Lexeme} {rest : List Tree} (hl : l.kind = .template)
      (hattached : l.toToken.isAttached) : Link [.token l] rest
  | assertion {l : Lexeme} {rest : List Tree} (hl : l.kind = .bang)
      (hattached : l.toToken.isAttached) : Link [.token l] rest
  /-- Type arguments, but only those of a call. -/
  | arguments {l : Lexeme} {ts rest : List Tree} {found : TypeArguments}
      {h : Follows rest (.token l :: (ts ++ rest))} (hl : l.kind = .lessThan)
      (hattached : l.toToken.isAttached)
      (hread : typeArguments none (.token l :: (ts ++ rest)) = .done found rest h)
      (hcall : rest.head?.any (·.isGroup .paren)) : Link (.token l :: ts) rest

/-- Links one after the other, with the trees of the second list after them. -/
inductive Chain : List Tree → List Tree → Prop where
  | nil {rest : List Tree} : Chain [] rest
  | cons {link chain rest : List Tree} (hlink : Link link (chain ++ rest))
      (hchain : Chain chain rest) : Chain (link ++ chain) rest

variable {ts link chain rest : List Tree} {name : Lexeme}

theorem Link.length_pos (h : Link link rest) : 0 < link.length := by
  cases h <;> simp

theorem isOptionalLink_of_isMemberName (h : isMemberName (.token name)) :
    isOptionalLink (.token name) := h

theorem chainLength_of_link (h : Link link rest) :
    chainLength (link ++ rest) = link.length + chainLength rest := by
  cases h with
  | member hdot hname => simp [chainLength, hdot, hname]
  | optionalMember hdot hname =>
    simp [chainLength, hdot, isOptionalLink_of_isMemberName hname]
  | optionalBrackets hdot hd => simp [chainLength, hdot, isOptionalLink, hd]
  | brackets hd hline => simp [chainLength, hd, hline]
  | template hl hattached => simp [chainLength, hl, hattached]
  | assertion hl hattached => simp [chainLength, hl, hattached]
  | arguments hl hattached hread hcall =>
    rw [List.cons_append]
    simp only [chainLength, hl, hattached, if_true, hread, hcall, List.length_append,
      List.length_cons]
    omega

/-- Where anything is chained to an operand, a link is. -/
theorem exists_link_of_chainLength (h : chainLength ts ≠ 0) :
    ∃ link rest, ts = link ++ rest ∧ Link link rest := by
  cases ts with
  | nil => simp [chainLength] at h
  | cons t us =>
    cases t with
    | group d opening children closing =>
      rw [chainLength] at h
      split at h
      · exact absurd rfl h
      · rename_i hnot
        simp only [Bool.or_eq_true, decide_eq_true_eq, not_or, Bool.not_eq_true] at hnot
        exact ⟨[.group d opening children closing], us, rfl, .brackets hnot.1 hnot.2⟩
    | token l =>
      rw [chainLength] at h
      split at h
      · rename_i hl
        cases us with
        | nil => simp at h
        | cons u vs =>
          cases u with
          | group d opening children closing => simp [isMemberName] at h
          | token name =>
            by_cases hname : isMemberName (.token name)
            · exact ⟨[.token l, .token name], vs, rfl, .member hl hname⟩
            · simp [hname] at h
      · rename_i hl
        cases us with
        | nil => simp at h
        | cons u vs =>
          cases u with
          | group d opening children closing =>
            by_cases hd : d = .brace
            · simp [isOptionalLink, hd] at h
            · exact ⟨_, vs, rfl, .optionalBrackets hl hd⟩
          | token name =>
            by_cases hname : isMemberName (.token name)
            · exact ⟨[.token l, .token name], vs, rfl, .optionalMember hl hname⟩
            · simp [isOptionalLink, hname] at h
      · rename_i hl
        split at h
        · rename_i hattached
          exact ⟨[.token l], us, rfl, .template hl hattached⟩
        · exact absurd rfl h
      · rename_i hl
        split at h
        · rename_i hattached
          exact ⟨[.token l], us, rfl, .assertion hl hattached⟩
        · exact absurd rfl h
      · rename_i hl
        split at h
        · rename_i hattached
          split at h
          · rename_i arguments vs hvs hread
            split at h
            · rename_i hcall
              obtain ⟨_, _, heq, read, rfl⟩ := hvs
              cases heq
              exact ⟨.token l :: read, vs, rfl, .arguments hl hattached hread hcall⟩
            · exact absurd rfl h
          · exact absurd rfl h
        · exact absurd rfl h
      · exact absurd rfl h

/-- What is chained to an operand is a chain, and it is all there. -/
theorem chain_chainLength (ts : List Tree) :
    ∃ chain rest, ts = chain ++ rest ∧ Chain chain rest ∧ chain.length = chainLength ts := by
  by_cases h : chainLength ts = 0
  · exact ⟨[], ts, rfl, .nil, h.symm⟩
  · obtain ⟨link, us, rfl, hlink⟩ := exists_link_of_chainLength h
    have hpos := hlink.length_pos
    obtain ⟨chain, rest, rfl, hchain, hlength⟩ := chain_chainLength us
    refine ⟨link ++ chain, rest, (List.append_assoc ..).symm, .cons hlink hchain, ?_⟩
    rw [chainLength_of_link hlink, List.length_append, hlength]
  termination_by ts.length
  decreasing_by
    rename_i hts _
    rw [hts.1, List.length_append]
    omega

/-- No chain at the front of some trees is longer than the one that is read. -/
theorem Chain.length_le (h : Chain chain rest) : chain.length ≤ chainLength (chain ++ rest) := by
  induction h with
  | nil => exact Nat.zero_le _
  | cons hlink hchain ih =>
    rw [List.append_assoc, chainLength_of_link hlink, List.length_append]
    omega

/-- The trees `chain` in front of the trees `rest` are a chain, and they begin with all others. -/
structure LongestChain (chain rest : List Tree) : Prop where
  isChain : Chain chain rest
  longest : ∀ other rest', chain ++ rest = other ++ rest' → Chain other rest' → other <+: chain

theorem exists_longestChain (ts : List Tree) :
    ∃ chain rest, ts = chain ++ rest ∧ LongestChain chain rest ∧ chain.length = chainLength ts := by
  obtain ⟨chain, rest, rfl, hchain, hlength⟩ := chain_chainLength ts
  refine ⟨chain, rest, rfl, ⟨hchain, fun other rest' heq hother => ?_⟩, hlength⟩
  have hle := hother.length_le
  rw [← heq, ← hlength] at hle
  exact List.prefix_of_prefix_length_le (heq ▸ List.prefix_append other rest')
    (List.prefix_append chain rest) hle

/-- The trees `operators ++ core :: chain` in front of the trees `rest` are an operand. -/
inductive IsOperand : List Tree → List Tree → Prop where
  | intro {operators chain rest : List Tree} {core : Tree}
      (hoperators : ∀ t ∈ operators, isUnaryOperator t = true)
      (hfirst : isUnaryOperator core = false) (hcore : isOperandCore core = true)
      (hchain : LongestChain chain rest) : IsOperand (operators ++ core :: chain) rest

/-- A group or a primary token comes after the prefix operators. -/
def BeginsOperand (ts : List Tree) : Prop :=
  ∃ core rest, ts.dropWhile isUnaryOperator = core :: rest ∧ isOperandCore core = true

theorem drop_length_takeWhile (p : Tree → Bool) (ts : List Tree) :
    ts.drop (ts.takeWhile p).length = ts.dropWhile p := by
  have h : (ts.takeWhile p ++ ts.dropWhile p).drop (ts.takeWhile p).length = ts.dropWhile p :=
    List.drop_left
  rwa [List.takeWhile_append_dropWhile] at h

theorem operandLength_of_not_begins (h : ¬ BeginsOperand ts) : operandLength ts = 0 := by
  rw [operandLength]
  split
  · rename_i t us hd
    rw [drop_length_takeWhile] at hd
    exact if_neg fun ht => h ⟨t, us, hd, ht⟩
  · rfl

theorem exists_isOperand (h : BeginsOperand ts) :
    ∃ read rest, ts = read ++ rest ∧ IsOperand read rest ∧ operandLength ts = read.length := by
  obtain ⟨core, us, hd, hcore⟩ := h
  obtain ⟨chain, rest, rfl, hchain, hlength⟩ := exists_longestChain us
  have hfirst := List.head?_dropWhile_not isUnaryOperator ts
  rw [hd] at hfirst
  refine ⟨ts.takeWhile isUnaryOperator ++ core :: chain, rest, ?_,
    .intro (List.all_eq_true.1 List.all_takeWhile) (by simpa using hfirst) hcore hchain, ?_⟩
  · rw [List.append_assoc, List.cons_append, ← hd, List.takeWhile_append_dropWhile]
  · rw [operandLength]
    split
    · rename_i t vs hvs
      rw [drop_length_takeWhile, hd] at hvs
      cases hvs
      rw [if_pos hcore, List.length_append, List.length_cons, hlength]
      omega
    · rename_i hnil
      rw [drop_length_takeWhile, hd] at hnil
      cases hnil

theorem IsOperand.length_pos {read : List Tree} (h : IsOperand read rest) : 0 < read.length := by
  cases h
  rw [List.length_append, List.length_cons]
  omega

/-- Where the operand that begins at a place among some trees ends; there, if none does. -/
def operandEnd (ts : List Tree) (start : Nat) : Nat := start + operandLength (ts.drop start)

theorem operandEnd_eq_iff (ts : List Tree) (start : Nat) :
    operandEnd ts start = start ↔ ¬ BeginsOperand (ts.drop start) := by
  rw [operandEnd, Nat.add_eq_left]
  constructor
  · intro h hbegins
    obtain ⟨read, rest, -, hread, hlength⟩ := exists_isOperand hbegins
    have := hread.length_pos
    omega
  · exact operandLength_of_not_begins

/-- An operand is within the trees, and it is there if and only if a group or a primary token comes
after the prefix operators at its start. What stands before it does not matter. An `await` takes
just its trees. -/
theorem operand_reaches {ts : List Tree} {start : Nat} (hstart : start ≤ ts.length) :
    start ≤ operandEnd ts start ∧ operandEnd ts start ≤ ts.length ∧
    (∀ before, operandEnd (before ++ ts.drop start) before.length =
      before.length + (operandEnd ts start - start)) ∧
    (operandEnd ts start = start ↔ ¬ BeginsOperand (ts.drop start)) ∧
    (operandEnd ts start ≠ start →
      IsOperand (ts.extract start (operandEnd ts start)) (ts.drop (operandEnd ts start))) ∧
    ∀ l, (await l (ts.drop start) = none ↔ operandEnd ts start = start) ∧
      ∀ node rest hr, await l (ts.drop start) = some (.done node rest hr) →
        rest = ts.drop (operandEnd ts start) ∧ ∃ operand, node = .await l.toToken operand ∧
          sequence none none (ts.extract start (operandEnd ts start)) = .ok operand := by
  have hextract : ts.extract start (operandEnd ts start) =
      (ts.drop start).take (operandLength (ts.drop start)) := by
    rw [List.extract_eq_take_drop, operandEnd, Nat.add_sub_cancel_left]
  have hdrop : ts.drop (operandEnd ts start) =
      (ts.drop start).drop (operandLength (ts.drop start)) := by
    rw [List.drop_drop, operandEnd]
  have hread : operandEnd ts start ≠ start →
      ∃ read rest, ts.drop start = read ++ rest ∧ IsOperand read rest ∧
        operandLength (ts.drop start) = read.length := fun hne =>
    exists_isOperand (Classical.not_not.1 fun h => hne ((operandEnd_eq_iff ts start).2 h))
  refine ⟨Nat.le_add_right _ _, ?_, fun before => ?_, operandEnd_eq_iff ts start, fun hne => ?_,
    fun l => ⟨?_, fun node rest hr h => ?_⟩⟩
  · by_cases hne : operandEnd ts start = start
    · rwa [hne]
    · obtain ⟨read, rest, heq, -, hlength⟩ := hread hne
      have := congrArg List.length heq
      rw [List.length_drop, List.length_append] at this
      rw [operandEnd]
      omega
  · rw [operandEnd, operandEnd, List.drop_left, Nat.add_sub_cancel_left]
  · obtain ⟨read, rest, heq, hoperand, hlength⟩ := hread hne
    rwa [hextract, hdrop, hlength, heq, List.take_left, List.drop_left]
  · rw [await, operandEnd, Nat.add_eq_left]
    simp
  · rw [await] at h
    split at h
    · cases h
    · obtain ⟨operand, hoperand, rfl, rfl⟩ := map_ofExcept_eq_done (Option.some.inj h)
      exact ⟨hdrop.symm, operand, rfl, hextract ▸ hoperand⟩

/-- A prefix operator, a member, a call with type arguments, an index, and a sum around them. -/
def operandTarget : String := "await !a.b<T>(c)?.[0] + d"

/-- The operand of `await` ends in front of the plus sign. -/
theorem operandTarget_reaches : 1 ≤ (bodyTrees operandTarget).length ∧
    operandEnd (bodyTrees operandTarget) 1 = 11 ∧
    IsOperand ((bodyTrees operandTarget).extract 1 11) ((bodyTrees operandTarget).drop 11) := by
  have hstart : 1 ≤ (bodyTrees operandTarget).length := by decide +kernel
  have hend : operandEnd (bodyTrees operandTarget) 1 = 11 := by decide +kernel
  obtain ⟨-, -, -, -, hoperand, -⟩ := operand_reaches hstart
  rw [hend] at hoperand
  exact ⟨hstart, hend, hoperand (by decide)⟩

end TwinClasses.Reader
