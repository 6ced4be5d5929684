import TwinClasses.Syntax.Query
import TwinClasses.Proofs.Framing.Members

set_option autoImplicit false

/-! Classes with more trees at the end of their bodies. A class is read from its keyword, what
stands in front of its body and the body; the trees after it have no part in that, and trees that
are read as members become its last ones. -/

namespace TwinClasses

open Extent

/-- The trees lie side by side among `ts`, or inside of a bracket of theirs. -/
inductive Tree.Contains (us : List Tree) : List Tree → Prop where
  | beside {ts : List Tree} : us <:+: ts → Contains us ts
  | inside {d : Delimiter} {opening closing : Lexeme} {children ts : List Tree} :
    .group d opening children closing ∈ ts → Contains us children → Contains us ts

theorem Tree.Contains.of_isInfix {us ts ts' : List Tree} (h : Tree.Contains us ts)
    (hi : ts <:+: ts') : Tree.Contains us ts' := by
  cases h with
  | beside hu => exact .beside (hu.trans hi)
  | inside hmem hu => exact .inside (hi.subset hmem) hu

theorem Tree.weight_le_weightAll {t : Tree} {ts : List Tree} (h : t ∈ ts) :
    t.weight ≤ Tree.weightAll ts := by
  induction h with
  | head ts =>
    rw [Tree.weightAll_cons]
    omega
  | tail u hmem ih =>
    rw [Tree.weightAll_cons]
    omega

/-! What stands in front of a body. -/

/-- Trees in which no body begins and that show no end of a class. -/
def IsHeritage (us : List Tree) : Prop :=
  ∀ ts opening children closing rest
    (h : ts = us ++ .group .brace opening children closing :: rest),
    splitAtBody? 0 ts = some ⟨us, opening, children, closing, rest, h⟩

/-- A token ends the search for a body, or the search goes on after it. -/
theorem splitAtBody?_token (depth : Nat) (l : Lexeme) :
    (∀ ts, splitAtBody? depth (.token l :: ts) = none) ∨
      ∃ depth', ∀ ts, splitAtBody? depth (.token l :: ts) =
        (splitAtBody? depth' ts).map (.cons (.token l)) := by
  by_cases hk : l.kind ∈ [.semicolon, .equals, .comma]
  · have hts : ∀ ts, splitAtBody? depth (.token l :: ts) =
        if depth = 0 then none else (splitAtBody? depth ts).map (.cons (.token l)) := by
      intro ts
      rw [splitAtBody?]
      revert hk
      cases l.kind <;> simp
    by_cases hd : depth = 0
    · exact Or.inl fun ts => by rw [hts, if_pos hd]
    · exact Or.inr ⟨depth, fun ts => by rw [hts, if_neg hd]⟩
  · refine Or.inr ?_
    simp only [splitAtBody?]
    revert hk
    cases l.kind <;> simp <;> exact ⟨_, fun _ => rfl⟩

/-- What was found in front of a body is found in front of any other. -/
theorem splitAtBody?_eq_some {depth : Nat} {us : List Tree} {s : BodySplit us}
    (hs : splitAtBody? depth us = some s) (ts : List Tree) (opening : Lexeme)
    (children : List Tree) (closing : Lexeme) (rest : List Tree)
    (h : ts = s.heritage ++ .group .brace opening children closing :: rest) :
    splitAtBody? depth ts = some ⟨s.heritage, opening, children, closing, rest, h⟩ := by
  induction us generalizing depth ts with
  | nil => cases hs
  | cons u us ih =>
    cases u with
    | group d opening' children' closing' =>
      rw [splitAtBody?] at hs
      by_cases hd : d = .brace ∧ depth = 0
      · rw [dif_pos hd] at hs
        cases hs
        subst h
        exact dif_pos ⟨rfl, hd.2⟩
      · rw [dif_neg hd] at hs
        obtain ⟨s', hs', rfl⟩ := Option.map_eq_some_iff.1 hs
        subst h
        simp only [BodySplit.cons, List.cons_append]
        rw [splitAtBody?, dif_neg hd, ih hs' _ rfl]
        rfl
    | token l =>
      obtain hnone | ⟨depth', hsome⟩ := splitAtBody?_token depth l
      · rw [hnone] at hs
        cases hs
      · rw [hsome] at hs
        obtain ⟨s', hs', rfl⟩ := Option.map_eq_some_iff.1 hs
        subst h
        simp only [BodySplit.cons, List.cons_append]
        rw [hsome, ih hs' _ rfl]
        rfl

theorem isHeritage_of_splitAtBody? {us : List Tree} {s : BodySplit us}
    (h : splitAtBody? 0 us = some s) : IsHeritage s.heritage :=
  splitAtBody?_eq_some h

/-- The name of a class does not depend on its body. -/
theorem className?_body (front : List Tree) (opening opening' : Lexeme) (body body' : List Tree)
    (closing closing' : Lexeme) (rest rest' : List Tree) :
    className? (front ++ .group .brace opening body closing :: rest) =
      className? (front ++ .group .brace opening' body' closing' :: rest') := by
  cases front using Tree.frontCases <;> rfl

theorem length_className?_le {us : List Tree} {name : Option Token}
    (h : className? us = some name) : name.toList.length ≤ us.length := by
  refine Tree.length_toList_le ?_
  rintro rfl
  cases h

/-! Classes. -/

/-- The trees of a class; its name, if it has one, is the first in front of the body. -/
structure ClassTrees where
  keyword : Lexeme
  front : List Tree
  opening : Lexeme
  body : List Tree
  closing : Lexeme

namespace ClassTrees

/-- What comes after the keyword, with `rest` behind the body. -/
def afterKeyword (k : ClassTrees) (rest : List Tree) : List Tree :=
  k.front ++ .group .brace k.opening k.body k.closing :: rest

def trees (k : ClassTrees) : List Tree := .token k.keyword :: k.afterKeyword []

/-- The trees with `more` at the end of the body. -/
def grow (k : ClassTrees) (more : List Tree) : ClassTrees := { k with body := k.body ++ more }

/-- With `parent` around and `last` in front, the trees are read as the class `c`, whatever comes
after them. -/
def IsRead (parent : Option Delimiter) (last : Option Node) (c : ClassDecl) (k : ClassTrees) :
    Prop :=
  ∀ rest, Reader.sequence parent last (k.trees ++ rest) =
    (Reader.sequence parent (some (.classDecl c)) rest).map (.classDecl c :: ·)

/-- The parts of the trees are read as the parts of the class `c`. -/
structure Makes (parent : Option Delimiter) (last : Option Node) (c : ClassDecl) (k : ClassTrees) :
    Prop where
  isKeyword : k.keyword.toToken.isWord "class" = true
  apart : last.any opensMemberAccess = false
  named : className? (k.afterKeyword []) = some c.name
  isHeritage : IsHeritage (k.front.drop c.name.toList.length)
  heritage : Reader.sequence parent none (k.front.drop c.name.toList.length) = .ok c.heritage
  members : Reader.members (some k.closing.offset) k.body = .ok c.members
  keyword : c.keyword = k.keyword.toToken
  opening : c.opening = k.opening.toToken
  closing : c.closing = k.closing.toToken
  isExpression : c.isExpression = isValuePosition parent last

variable {parent : Option Delimiter} {last : Option Node} {c : ClassDecl} {k : ClassTrees}

theorem length_name_le {name : Option Token} (h : className? (k.afterKeyword []) = some name) :
    name.toList.length ≤ k.front.length := by
  refine Tree.length_toList_le fun hf => ?_
  rw [afterKeyword, hf] at h
  cases h
  rfl

theorem follows_afterKeyword (k : ClassTrees) (rest : List Tree) :
    Follows rest (.token k.keyword :: k.afterKeyword rest) :=
  (Follows.tail_of_cons _ rest).of_suffix_right
    ((List.suffix_append k.front _).trans (List.suffix_cons _ _))

/-- A class is read from its trees. -/
theorem Makes.classDecl_eq (h : k.Makes parent last c) (rest : List Tree) : ∃ hr,
    Reader.classDecl parent last k.keyword (k.afterKeyword rest) =
      some (.done (.classDecl c) rest hr) := by
  have hname : className? (k.afterKeyword rest) = some c.name :=
    (className?_body _ _ _ _ _ _ _ _ _).trans h.named
  have hdrop : (k.afterKeyword rest).drop c.name.toList.length =
      k.front.drop c.name.toList.length ++ .group .brace k.opening k.body k.closing :: rest :=
    List.drop_append_of_le_length (length_name_le h.named)
  have hc : c = ⟨k.keyword.toToken, c.name, c.heritage, k.opening.toToken, c.members,
      k.closing.toToken, isValuePosition parent last⟩ := by
    rw [← h.keyword, ← h.opening, ← h.closing, ← h.isExpression]
    cases c
    rfl
  rw [Reader.classDecl, hname]
  simp only
  rw [h.isHeritage _ _ _ _ _ hdrop]
  simp only
  rw [h.heritage]
  simp only
  rw [h.members, Reading.ofExcept, Reading.map, ← hc]
  exact ⟨k.follows_afterKeyword rest, rfl⟩

theorem Makes.isRead (h : k.Makes parent last c) : k.IsRead parent last c := by
  intro rest
  obtain ⟨hr, hc⟩ := h.classDecl_eq rest
  have hword := h.isKeyword
  simp only [Token.isWord, Bool.and_eq_true, decide_eq_true_eq] at hword
  have hk : (k.keyword.kind = .identifier && !last.any opensMemberAccess) = true := by
    simp [hword.1, h.apart]
  have htrees : k.trees ++ rest = .token k.keyword :: k.afterKeyword rest := by
    simp [trees, afterKeyword]
  rw [htrees, Reader.sequence, if_pos hk, Reader.construct, if_pos hword.2, hc]

/-- Trees that are read as members become the last members of the class, unless its own last member
goes on with them. -/
theorem Makes.grow {more : List Tree} {added : List Member} (h : k.Makes parent last c)
    (hm : beginsMember more = true)
    (hmore : Reader.members (some k.closing.offset) more = .ok added)
    (hend : ∀ m ∈ c.members.getLast?, ∀ t ∈ k.body.getLast?, m.endsBefore more t = true) :
    (k.grow more).Makes parent last { c with members := c.members ++ added } where
  isKeyword := h.isKeyword
  apart := h.apart
  named := (className?_body _ _ _ _ _ _ _ _ _).trans h.named
  isHeritage := h.isHeritage
  heritage := h.heritage
  members := by
    have happend : Reader.members (some k.closing.offset) (k.body ++ more) = _ :=
      Reader.members_append hm h.members hend
    rwa [hmore] at happend
  keyword := h.keyword
  opening := h.opening
  closing := h.closing
  isExpression := h.isExpression

end ClassTrees

namespace Reader

variable {parent : Option Delimiter} {last : Option Node} {l : Lexeme} {us vs : List Tree}
  {node : Node}

theorem exists_map_eq_ok {α β : Type} {f : α → β} {e : Except Fault α} {b : β}
    (h : e.map f = .ok b) : ∃ a, e = .ok a ∧ b = f a := by
  cases e with
  | error fault => cases h
  | ok a => exact ⟨a, rfl, (Except.ok.inj h).symm⟩

theorem sequence_group_eq_ok {d : Delimiter} {opening closing : Lexeme} {children : List Tree}
    {ns : List Node} (h : sequence parent last (.group d opening children closing :: us) = .ok ns) :
    ∃ g ms, group d opening children closing = .ok g ∧
      sequence parent (some (.group g)) us = .ok ms ∧ ns = .group g :: ms := by
  rw [sequence] at h
  cases hg : group d opening children closing with
  | error fault =>
    rw [hg] at h
    cases h
  | ok g =>
    rw [hg] at h
    obtain ⟨ms, hms, rfl⟩ := exists_map_eq_ok h
    exact ⟨g, ms, rfl, hms, rfl⟩

/-- A token begins a construct or is a node of its own. -/
theorem sequence_token_eq_ok {ns : List Node} (h : sequence parent last (.token l :: us) = .ok ns) :
    (l.kind = .identifier ∧ last.any opensMemberAccess = false ∧ ∃ node vs hv ms,
      construct parent last l us = some (.done node vs hv) ∧
        sequence parent (some node) vs = .ok ms ∧ ns = node :: ms) ∨
      ∃ ms, sequence parent (some (.token l.toToken)) us = .ok ms ∧
        ns = .token l.toToken :: ms := by
  rw [sequence] at h
  split at h
  · rename_i node vs hv hconstruct
    obtain ⟨ms, hms, rfl⟩ := exists_map_eq_ok h
    split at hconstruct
    · rename_i hk
      simp only [Bool.and_eq_true, decide_eq_true_eq, Bool.not_eq_true'] at hk
      exact Or.inl ⟨hk.1, hk.2, node, vs, hv, ms, hconstruct, hms, rfl⟩
    · cases hconstruct
  · cases h
  · obtain ⟨ms, hms, rfl⟩ := exists_map_eq_ok h
    exact Or.inr ⟨ms, hms, rfl⟩

theorem map_ofExcept_eq_done {α : Type} {ts : List Tree} {f : α → Node} {e : Except Fault α}
    {hr : Follows us ts} {hv : Follows vs ts}
    (h : (Reading.ofExcept e us hr).map f = .done node vs hv) :
    ∃ a, e = .ok a ∧ node = f a ∧ vs = us := by
  cases e with
  | error fault => cases h
  | ok a =>
    cases h
    exact ⟨a, rfl, rfl, rfl⟩

/-- Where a class is read, its trees are. -/
theorem exists_makes_of_classDecl {hv : Follows vs (.token l :: us)}
    (hword : l.toToken.isWord "class" = true) (hl : last.any opensMemberAccess = false)
    (h : classDecl parent last l us = some (.done node vs hv)) :
    ∃ c k, node = .classDecl c ∧ ClassTrees.Makes parent last c k ∧
      .token l :: us = k.trees ++ vs := by
  rw [classDecl] at h
  split at h
  · cases h
  · rename_i name hname
    split at h
    · cases h
    · rename_i split hsplit
      split at h
      · cases h
      · rename_i heritage hheritage
        obtain ⟨ms, hms, rfl, rfl⟩ := map_ofExcept_eq_done (Option.some.inj h)
        have hlength := length_className?_le hname
        have hus : us = us.take name.toList.length ++ split.heritage ++
            .group .brace split.opening split.children split.closing :: split.rest := by
          rw [List.append_assoc, ← split.eq, List.take_append_drop]
        have hfront : (us.take name.toList.length ++ split.heritage).drop name.toList.length =
            split.heritage := List.drop_left' (List.length_take_of_le hlength)
        refine ⟨_, ⟨l, us.take name.toList.length ++ split.heritage, split.opening, split.children,
          split.closing⟩, rfl, ?_, ?_⟩
        · exact {
            isKeyword := hword
            apart := hl
            named := (className?_body _ _ _ _ _ _ _ _ _).trans (hus ▸ hname)
            isHeritage := by simpa only [hfront] using isHeritage_of_splitAtBody? hsplit
            heritage := by simpa only [hfront] using hheritage
            members := hms
            keyword := rfl
            opening := rfl
            closing := rfl
            isExpression := rfl }
        · simpa [ClassTrees.trees, ClassTrees.afterKeyword] using hus

theorem exists_of_forOf {hv : Follows vs (.token l :: us)}
    (h : forOf l us = some (.done node vs hv)) : ∃ awaiting head opening children closing,
      node = .forOf l.toToken awaiting head ∧ .group .paren opening children closing ∈ us ∧
        group .paren opening children closing = .ok head := by
  unfold forOf at h
  split at h
  · rename_i opening children closing ws
    split at h
    · obtain ⟨head, hhead, rfl, -⟩ := map_ofExcept_eq_done (Option.some.inj h)
      exact ⟨none, head, opening, children, closing, rfl, List.mem_cons_self, hhead⟩
    · cases h
  · rename_i word opening children closing ws
    split at h
    · obtain ⟨head, hhead, rfl, -⟩ := map_ofExcept_eq_done (Option.some.inj h)
      exact ⟨some word.toToken, head, opening, children, closing, rfl,
        List.mem_cons_of_mem _ List.mem_cons_self, hhead⟩
    · cases h
  · cases h

theorem exists_of_await {hv : Follows vs (.token l :: us)}
    (h : await l us = some (.done node vs hv)) : ∃ operand,
      node = .await l.toToken operand ∧
        sequence none none (us.take (operandLength us)) = .ok operand := by
  unfold await at h
  simp only at h
  split at h
  · cases h
  · obtain ⟨operand, hoperand, rfl, -⟩ := map_ofExcept_eq_done (Option.some.inj h)
    exact ⟨operand, rfl, hoperand⟩

theorem classes_of_attachedReference {hv : Follows vs (.token l :: us)}
    (h : attachedReference l us = some (.done node vs hv)) : node.classes = [] := by
  unfold attachedReference at h
  split at h
  · split at h
    · split at h
      · split at h
        · cases h
          rfl
        · cases h
      · cases h
    · cases h
  · cases h

theorem classes_of_access {hv : Follows vs (.token l :: us)}
    (h : access l us = some (.done node vs hv)) : node.classes = [] := by
  unfold access at h
  split at h
  · split at h
    · cases h
      rfl
    · cases h
  · cases h

theorem exists_of_group {d : Delimiter} {opening closing : Lexeme} {children : List Tree}
    {g : Group} (h : group d opening children closing = .ok g) : ∃ nodes,
      sequence (some d) none children = .ok nodes ∧ g.classes = Node.classesAll nodes := by
  rw [group] at h
  obtain ⟨nodes, hnodes, rfl⟩ := exists_map_eq_ok h
  exact ⟨nodes, hnodes, rfl⟩

/-- Every class of what the trees are read as is read from its own trees, which lie among these. -/
def Locates (ts : List Tree) : Prop :=
  ∀ (parent : Option Delimiter) (last : Option Node) (ns : List Node) (c : ClassDecl),
    sequence parent last ts = .ok ns → c ∈ Node.classesAll ns →
      ∃ k parent' last', ClassTrees.Makes parent' last' c k ∧ Tree.Contains k.trees ts

theorem locates_of_construct {c : ClassDecl} {hv : Follows vs (.token l :: us)}
    (ih : ∀ ws, Tree.weightAll ws < Tree.weightAll (.token l :: us) → Locates ws)
    (hkind : l.kind = .identifier) (hl : last.any opensMemberAccess = false)
    (h : construct parent last l us = some (.done node vs hv)) (hc : c ∈ node.classes) :
    ∃ k parent' last', ClassTrees.Makes parent' last' c k ∧
      Tree.Contains k.trees (.token l :: us) := by
  rw [construct] at h
  split at h
  · rename_i hclass
    obtain ⟨c', k, rfl, hk, heq⟩ :=
      exists_makes_of_classDecl (by simp [Token.isWord, hkind, hclass]) hl h
    rw [Node.classes] at hc
    split at hc
    · cases hc
    · obtain rfl := List.mem_singleton.1 hc
      exact ⟨k, parent, last, hk, .beside ⟨[], vs, heq.symm⟩⟩
  · split at h
    · obtain ⟨awaiting, head, opening, children, closing, rfl, hmem, hhead⟩ := exists_of_forOf h
      obtain ⟨nodes, hnodes, hclasses⟩ := exists_of_group hhead
      rw [Node.classes, hclasses] at hc
      have hlt : Tree.weightAll children < Tree.weightAll (.token l :: us) := by
        have hle := Tree.weight_le_weightAll hmem
        rw [Tree.weight_group] at hle
        rw [Tree.weightAll_cons]
        omega
      obtain ⟨k, p, q, hk, hin⟩ := ih children hlt _ _ _ _ hnodes hc
      exact ⟨k, p, q, hk, .inside (List.mem_cons_of_mem _ hmem) hin⟩
    · split at h
      · obtain ⟨operand, rfl, hoperand⟩ := exists_of_await h
        rw [Node.classes] at hc
        obtain ⟨k, p, q, hk, hin⟩ := ih _ (by grind) _ _ _ _ hoperand hc
        exact ⟨k, p, q, hk, hin.of_isInfix
          ((List.take_prefix _ us).isInfix.trans (List.suffix_cons _ _).isInfix)⟩
      · split at h
        · rename_i hr
          rw [Option.some.inj h] at hr
          rw [classes_of_attachedReference hr] at hc
          cases hc
        · rw [classes_of_access h] at hc
          cases hc

theorem locates (ts : List Tree) : Locates ts := by
  intro parent last ns c h hc
  cases ts using Tree.frontCases with
  | nil =>
    rw [sequence] at h
    cases h
    cases hc
  | group d opening children closing us =>
    obtain ⟨g, ms, hg, hms, rfl⟩ := sequence_group_eq_ok h
    obtain ⟨nodes, hnodes, hclasses⟩ := exists_of_group hg
    rw [Node.classesAll, Node.classes, hclasses, List.mem_append] at hc
    obtain hc | hc := hc
    · obtain ⟨k, p, q, hk, hin⟩ := locates children _ _ _ _ hnodes hc
      exact ⟨k, p, q, hk, .inside List.mem_cons_self hin⟩
    · obtain ⟨k, p, q, hk, hin⟩ := locates us _ _ _ _ hms hc
      exact ⟨k, p, q, hk, hin.of_isInfix (List.suffix_cons _ _).isInfix⟩
  | token l us =>
    obtain ⟨hkind, hl, node, vs, hv, ms, hnode, hms, rfl⟩ | ⟨ms, hms, rfl⟩ :=
      sequence_token_eq_ok h
    · rw [Node.classesAll, List.mem_append] at hc
      obtain hc | hc := hc
      · exact locates_of_construct (fun ws hlt => locates ws) hkind hl hnode hc
      · obtain ⟨k, p, q, hk, hin⟩ := locates vs _ _ _ _ hms hc
        exact ⟨k, p, q, hk, hin.of_isInfix hv.suffix.isInfix⟩
    · obtain ⟨k, p, q, hk, hin⟩ := locates us _ _ _ _ hms hc
      exact ⟨k, p, q, hk, hin.of_isInfix (List.suffix_cons _ _).isInfix⟩
  termination_by Tree.weightAll ts
  decreasing_by all_goals grind

end Reader

end TwinClasses
