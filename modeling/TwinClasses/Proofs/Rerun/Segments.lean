import TwinClasses.Disk.Path

set_option autoImplicit false

/-! Paths by their segments. What a path ends with is up to its last segment, joining puts segments
behind those of the base, and the parent of a path consists of segments of the path. -/

namespace TwinClasses

variable {cs : List Char}

theorem splitSlash_of_notMem (h : '/' ∉ cs) : splitSlash cs = [cs] := by
  induction cs with
  | nil => rfl
  | cons c cs ih =>
    simp only [List.mem_cons, not_or] at h
    simp [splitSlash, ih h.2, Ne.symm h.1]

theorem notMem_of_mem_splitSlash : ∀ s ∈ splitSlash cs, '/' ∉ s := by
  induction cs with
  | nil => simp [splitSlash]
  | cons c cs ih =>
    unfold splitSlash
    split
    · rw [List.forall_mem_cons]
      exact ⟨List.not_mem_nil, ih⟩
    · rename_i hc
      split
      · simpa using Ne.symm hc
      · rename_i s ss hs
        rw [hs, List.forall_mem_cons] at ih
        rw [List.forall_mem_cons]
        exact ⟨by simpa using ⟨Ne.symm hc, ih.1⟩, ih.2⟩

theorem splitSlash_append (cs ds : List Char) :
    splitSlash (cs ++ '/' :: ds) = splitSlash cs ++ splitSlash ds := by
  induction cs with
  | nil => simp [splitSlash]
  | cons c cs ih =>
    rw [List.cons_append, splitSlash, splitSlash, ih]
    split
    · rfl
    · cases hs : splitSlash cs with
      | nil => exact absurd hs (splitSlash_ne_nil cs)
      | cons s ss => rfl

theorem splitSlash_intercalate {segments : List (List Char)} (hne : segments ≠ [])
    (h : ∀ s ∈ segments, '/' ∉ s) : splitSlash (['/'].intercalate segments) = segments := by
  induction segments with
  | nil => exact absurd rfl hne
  | cons s ss ih =>
    obtain ⟨hs, hss⟩ := List.forall_mem_cons.1 h
    cases ss with
    | nil => simpa using splitSlash_of_notMem hs
    | cons t ts =>
      rw [List.intercalate_cons_cons, List.append_assoc, List.singleton_append, splitSlash_append,
        splitSlash_of_notMem hs, ih (by simp) hss]
      rfl

/-- The last segment is what stands behind the last slash. -/
theorem exists_last_segment (cs : List Char) : ∃ s, '/' ∉ s ∧
    (cs = s ∧ splitSlash cs = [s] ∨
      ∃ before, cs = before ++ '/' :: s ∧ splitSlash cs = splitSlash before ++ [s]) := by
  induction cs with
  | nil => exact ⟨[], List.not_mem_nil, .inl ⟨rfl, rfl⟩⟩
  | cons c cs ih =>
    obtain ⟨s, hs, ⟨rfl, hsplit⟩ | ⟨before, rfl, hsplit⟩⟩ := ih
    · by_cases hc : c = '/'
      · refine ⟨cs, hs, .inr ⟨[], by simp [hc], ?_⟩⟩
        simp [hc, splitSlash, hsplit]
      · have hnot : '/' ∉ c :: cs := by simpa using ⟨Ne.symm hc, hs⟩
        exact ⟨c :: cs, hnot, .inl ⟨rfl, splitSlash_of_notMem hnot⟩⟩
    · exact ⟨s, hs, .inr ⟨c :: before, rfl, by
        rw [← List.cons_append, splitSlash_append, splitSlash_of_notMem hs]⟩⟩

namespace Path

variable {p q base : Path} {s t name : String}

/-- The characters after the slash at the start of an absolute path. -/
def relative (p : Path) : List Char := if p.isAbsolute then p.text.toList.tail else p.text.toList

theorem toList_text (p : Path) :
    p.text.toList = (if p.isAbsolute then ['/'] else []) ++ p.relative := by
  rw [relative]
  cases h : p.isAbsolute with
  | false => rfl
  | true =>
    rw [isAbsolute, decide_eq_true_iff] at h
    cases hcs : p.text.toList with
    | nil => rw [hcs] at h; cases h
    | cons c cs =>
      rw [hcs, List.head?_cons] at h
      cases h
      rfl

theorem segments_eq (p : Path) : p.segments = (splitSlash p.relative).map String.ofList := by
  rw [segments]
  have htext := p.toList_text
  cases h : p.isAbsolute with
  | false => rw [relative, h]; rfl
  | true =>
    rw [h] at htext
    simp [htext, splitSlash]

theorem segments_ne_nil (p : Path) : p.segments ≠ [] := by
  rw [segments_eq, ne_eq, List.map_eq_nil_iff]
  exact splitSlash_ne_nil _

theorem notMem_of_mem_segments (h : s ∈ p.segments) : '/' ∉ s.toList := by
  rw [segments_eq] at h
  obtain ⟨cs, hcs, rfl⟩ := List.mem_map.1 h
  rw [String.toList_ofList]
  exact notMem_of_mem_splitSlash cs hcs

/-- The text of a path is its last segment, or ends with it after a slash. -/
theorem text_of_last (h : p.segments.getLast? = some s) :
    p.text.toList = s.toList ∨ ∃ before, p.text.toList = before ++ '/' :: s.toList := by
  obtain ⟨t, -, ht⟩ := exists_last_segment p.relative
  have hst : s.toList = t := by
    rw [segments_eq] at h
    obtain ⟨-, hsplit⟩ | ⟨before, -, hsplit⟩ := ht
    · rw [hsplit] at h
      simp only [List.map_cons, List.map_nil, List.getLast?_singleton, Option.some.injEq] at h
      rw [← h, String.toList_ofList]
    · rw [hsplit] at h
      simp only [List.map_append, List.map_cons, List.map_nil, List.getLast?_concat,
        Option.some.injEq] at h
      rw [← h, String.toList_ofList]
  rw [toList_text, hst]
  obtain ⟨hp, -⟩ | ⟨before, hp, -⟩ := ht
  · cases p.isAbsolute with
    | false => exact .inl hp
    | true => exact .inr ⟨[], by simp [hp]⟩
  · exact .inr ⟨(if p.isAbsolute then ['/'] else []) ++ before, by rw [hp, List.append_assoc]⟩

/-- Where a path ends like a name, its last segment does. -/
theorem isSuffix_text_iff {ending : List Char} (hending : '/' ∉ ending)
    (h : p.segments.getLast? = some s) :
    ending <:+ p.text.toList ↔ ending <:+ s.toList := by
  obtain hp | ⟨before, hp⟩ := text_of_last h
  · rw [hp]
  · rw [hp]
    have hslash : '/' :: s.toList <:+ before ++ '/' :: s.toList := List.suffix_append _ _
    have hs : s.toList <:+ before ++ '/' :: s.toList := (List.suffix_cons _ _).trans hslash
    refine ⟨fun hsuffix => ?_, fun hsuffix => hsuffix.trans hs⟩
    rcases Nat.lt_or_ge s.toList.length ending.length with hlt | hle
    · have hmem := List.suffix_of_suffix_length_le hslash hsuffix hlt
      exact absurd (hmem.subset List.mem_cons_self) hending
    · exact List.suffix_of_suffix_length_le hsuffix hs hle

theorem relative_of_text {cs : List Char} (hbase : base.text ≠ "")
    (htext : p.text.toList = base.text.toList ++ cs) :
    p.isAbsolute = base.isAbsolute ∧ p.relative = base.relative ++ cs := by
  cases hcs : base.text.toList with
  | nil => exact absurd (String.toList_eq_nil_iff.1 hcs) hbase
  | cons d ds =>
    have habs : p.isAbsolute = base.isAbsolute := by rw [isAbsolute, isAbsolute, htext, hcs]; rfl
    refine ⟨habs, ?_⟩
    rw [relative, relative, habs, htext, hcs]
    split <;> rfl

theorem relative_of_endsWithSlash (h : base.endsWithSlash = true) :
    base.relative = [] ∨ ∃ before, base.relative = before ++ ['/'] := by
  rw [endsWithSlash, decide_eq_true_iff] at h
  rcases List.eq_nil_or_concat base.relative with hnil | ⟨before, c, hc⟩
  · exact .inl hnil
  · rw [List.concat_eq_append] at hc
    rw [toList_text, hc, ← List.append_assoc, List.getLast?_concat] at h
    cases h
    exact .inr ⟨before, hc⟩

/-- Joining a name that is not absolute puts its segments behind those of the base, of which an
empty one at the end goes. -/
theorem join_eq (base : Path) (hname : isAbsolute ⟨name⟩ = false) :
    (base.join name).isAbsolute = base.isAbsolute ∧
      ∃ lead, (base.join name).segments = lead ++ segments ⟨name⟩ ∧
        (base.segments = lead ∨ base.segments = lead ++ [""]) := by
  have hsegments : segments ⟨name⟩ = (splitSlash name.toList).map String.ofList := by
    rw [segments_eq, relative, hname]
    rfl
  by_cases hempty : base.text = ""
  · have hbase : base = ⟨""⟩ := by rw [← hempty]
    rw [hbase, join, hname]
    exact ⟨hname, [], rfl, .inr rfl⟩
  · by_cases hslash : base.endsWithSlash = true
    · have hjoin : base.join name = ⟨base.text ++ name⟩ := by simp [join, hname, hempty, hslash]
      have htext : (base.join name).text.toList = base.text.toList ++ name.toList := by
        rw [hjoin, String.toList_append]
      obtain ⟨habs, hrel⟩ := relative_of_text hempty htext
      refine ⟨habs, ?_⟩
      rw [segments_eq, hrel, hsegments, segments_eq]
      obtain hb | ⟨before, hb⟩ := relative_of_endsWithSlash hslash
      · exact ⟨[], by rw [hb]; rfl, .inr (by rw [hb]; rfl)⟩
      · refine ⟨(splitSlash before).map String.ofList, ?_, .inr ?_⟩
        · rw [hb, List.append_assoc, List.singleton_append, splitSlash_append, List.map_append]
        · rw [hb, splitSlash_append, List.map_append]
          rfl
    · have hjoin : base.join name = ⟨base.text ++ "/" ++ name⟩ := by
        simp [join, hname, hempty, hslash]
      have htext : (base.join name).text.toList = base.text.toList ++ '/' :: name.toList := by
        simp [hjoin]
      obtain ⟨habs, hrel⟩ := relative_of_text hempty htext
      refine ⟨habs, base.segments, ?_, .inl rfl⟩
      rw [segments_eq, hrel, splitSlash_append, List.map_append, hsegments, segments_eq]

/-- A segment that leads to an entry of this name. -/
def IsName (s : String) : Prop := component? s = some (.name s) ∧ '/' ∉ s.toList

theorem isName_iff : IsName s ↔ (s ≠ "" ∧ s ≠ "." ∧ s ≠ "..") ∧ '/' ∉ s.toList := by
  rw [IsName, component?]
  refine and_congr_left fun _ => ?_
  by_cases h : s = "" <;> by_cases h' : s = "." <;> by_cases h'' : s = ".." <;> simp [h, h', h'']

/-- How a component is spelled as a segment. -/
def Component.spelled? : Component → Option String
  | .root | .here => none
  | .up => some ".."
  | .name s => some s

/-- The segments that stand for components. -/
def counted (p : Path) : List String := p.segments.filter fun s => (component? s).isSome

theorem spelled?_component? (s : String) :
    (component? s).bind Component.spelled? = if (component? s).isSome then some s else none := by
  rw [component?]
  split
  · rfl
  · split
    · rename_i h
      rw [h]
      rfl
    · rfl

theorem filterMap_spelled? (ss : List String) :
    (ss.filterMap component?).filterMap Component.spelled? =
      ss.filter fun s => (component? s).isSome := by
  rw [List.filterMap_filterMap, ← List.filterMap_eq_filter]
  congr 1
  funext s
  rw [spelled?_component?, Option.guard]

theorem counted_eq (p : Path) : p.counted = p.components.filterMap Component.spelled? := by
  rw [counted, components]
  split
  · rw [List.filterMap_cons_none rfl, filterMap_spelled?]
  · split
    · rename_i h
      obtain ⟨ss, hss⟩ := List.head?_eq_some_iff.1 h
      rw [List.filterMap_cons_none rfl, filterMap_spelled?, hss]
      rfl
    · rw [filterMap_spelled?]

theorem component?_ne_root (s : String) : component? s ≠ some .root := by
  rw [component?]
  split
  · simp
  · split <;> simp

theorem root_mem_components : .root ∈ p.components ↔ p.isAbsolute = true := by
  have hnot (ss : List String) : .root ∉ ss.filterMap component? := fun h => by
    obtain ⟨s, -, hs⟩ := List.mem_filterMap.1 h
    exact component?_ne_root s hs
  rw [components]
  split
  · rename_i h
    simp [h]
  · rename_i h
    split
    · simp [h, hnot]
    · simp [h, hnot]

theorem eq_of_components (h : p.components = q.components) :
    p.isAbsolute = q.isAbsolute ∧ p.counted = q.counted := by
  refine ⟨?_, by rw [counted_eq, counted_eq, h]⟩
  rw [Bool.eq_iff_iff, ← root_mem_components, ← root_mem_components, h]

theorem map_splitSlash_intercalate {names : List String} (hne : names ≠ [])
    (h : ∀ s ∈ names, '/' ∉ s.toList) :
    (splitSlash ("/".intercalate names).toList).map String.ofList = names := by
  have hsplit : splitSlash (['/'].intercalate (names.map String.toList)) =
      names.map String.toList := by
    refine splitSlash_intercalate (by simpa using hne) fun cs hcs => ?_
    obtain ⟨s, hs, rfl⟩ := List.mem_map.1 hcs
    exact h s hs
  rw [String.toList_intercalate, show "/".toList = ['/'] from rfl, hsplit, List.map_map]
  simp [Function.comp_def]

theorem segments_intercalate {names : List String} (hs : s ≠ "")
    (h : ∀ t ∈ s :: names, '/' ∉ t.toList) :
    isAbsolute ⟨"/".intercalate (s :: names)⟩ = false ∧
      segments ⟨"/".intercalate (s :: names)⟩ = s :: names := by
  have habs : isAbsolute ⟨"/".intercalate (s :: names)⟩ = false := by
    have htext : ∃ rest, ("/".intercalate (s :: names)).toList = s.toList ++ rest := by
      cases names with
      | nil => exact ⟨[], by simp⟩
      | cons t ts => exact ⟨_, by rw [String.intercalate_cons_cons, String.append_assoc,
          String.toList_append]⟩
    obtain ⟨rest, hrest⟩ := htext
    have hslash := h s List.mem_cons_self
    cases hcs : s.toList with
    | nil => exact absurd (String.toList_eq_nil_iff.1 hcs) hs
    | cons c cs =>
      rw [hcs] at hslash hrest
      simp only [List.mem_cons, not_or] at hslash
      simpa [isAbsolute, hrest] using Ne.symm hslash.1
  refine ⟨habs, ?_⟩
  rw [segments_eq, relative, habs]
  exact map_splitSlash_intercalate (by simp) h

/-- Only an absolute path starts with a slash. -/
theorem first_ne_empty {ss : List String} (hp : p.isAbsolute = false)
    (h : p.segments = s :: ss) (hss : ss ≠ []) : s ≠ "" := by
  rintro rfl
  rw [segments_eq, relative, hp] at h
  rw [isAbsolute] at hp
  cases hcs : p.text.toList with
  | nil => simp [hcs, splitSlash, hss.symm] at h
  | cons c cs =>
    have hc : c ≠ '/' := by simpa [hcs] using hp
    rw [hcs] at h
    simp only [splitSlash, hc, if_false, Bool.false_eq_true] at h
    split at h
    · simp at h
    · simp [String.ofList_eq_empty_iff] at h

theorem trim_suffix (absolute : Bool) (ss : List String) : trim absolute ss <:+ ss := by
  induction ss with
  | nil => exact List.suffix_rfl
  | cons s ss ih =>
    rw [trim]
    split
    · exact ih.trans (List.suffix_cons s ss)
    · exact List.suffix_rfl

theorem suffix_of_mem_enclosing {absolute : Bool} {ss ts : List String}
    (h : ts ∈ enclosing absolute ss) : ts <:+ ss ∧ ts.length < ss.length := by
  induction ss with
  | nil => cases h
  | cons s ss ih =>
    have hlater : ts ∈ enclosing absolute ss → ts <:+ s :: ss ∧ ts.length < (s :: ss).length := by
      intro h
      obtain ⟨hsuffix, hlt⟩ := ih h
      exact ⟨hsuffix.trans (List.suffix_cons s ss), Nat.lt_succ_of_lt hlt⟩
    rw [enclosing] at h
    split at h
    · exact hlater h
    · rcases List.mem_cons.1 h with rfl | h
      · have htrim := trim_suffix absolute ss
        exact ⟨htrim.trans (List.suffix_cons s ss), Nat.lt_succ_of_le htrim.length_le⟩
      · exact hlater h

/-- A directory above a path has segments that the path starts with. -/
theorem exists_kept_of_mem_parents {parent : Path} (h : parent ∈ p.parents) :
    parent.isAbsolute = p.isAbsolute ∧ ∃ kept, kept <+: p.segments ∧
      (parent.segments = kept ∨ kept = [] ∧ parent.segments = [""]) := by
  obtain ⟨ss, hss, rfl⟩ := List.mem_map.1 h
  obtain ⟨hsuffix, hlt⟩ := suffix_of_mem_enclosing hss
  rw [← List.reverse_prefix, List.reverse_reverse] at hsuffix
  have hlt : ss.reverse.length < p.segments.length := by simpa using hlt
  generalize ss.reverse = kept at hsuffix hlt
  cases kept with
  | nil =>
    cases p.isAbsolute with
    | true => exact ⟨rfl, [], hsuffix, .inr ⟨rfl, rfl⟩⟩
    | false => exact ⟨rfl, [], hsuffix, .inr ⟨rfl, rfl⟩⟩
  | cons k ks =>
    have hslash : ∀ t ∈ k :: ks, '/' ∉ t.toList := fun t ht =>
      notMem_of_mem_segments (hsuffix.subset ht)
    cases habs : p.isAbsolute with
    | true =>
      have habs' : isAbsolute ⟨"/" ++ "/".intercalate (k :: ks)⟩ = true := by simp [isAbsolute]
      refine ⟨habs', k :: ks, hsuffix, .inl ?_⟩
      rw [segments_eq, relative, if_pos rfl, habs']
      simpa using map_splitSlash_intercalate (by simp) hslash
    | false =>
      have hk : k ≠ "" := by
        obtain ⟨rest, hrest⟩ := hsuffix
        have hsegments : p.segments = k :: (ks ++ rest) := hrest.symm
        refine first_ne_empty habs hsegments fun hnil => ?_
        simp [hsegments, hnil] at hlt
      rw [if_neg Bool.false_ne_true, String.empty_append]
      obtain ⟨habs', hsegments⟩ := segments_intercalate hk hslash
      exact ⟨habs', k :: ks, hsuffix, .inl hsegments⟩

end Path

end TwinClasses
