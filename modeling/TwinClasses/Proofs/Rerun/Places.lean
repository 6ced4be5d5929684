import TwinClasses.Disk.FileSystem
import TwinClasses.Proofs.Rerun.Segments
import TwinClasses.Proofs.Success

set_option autoImplicit false

/-! Where paths lead. Only the segments that count matter, and all above a place that a path leads
to are directories. -/

namespace TwinClasses.FileSystem

open TwinClasses.Path (IsName)

variable {disk : FileSystem} {p q base : Path} {l d m : Location} {s : String}
  {ss lead names : List String}

/-- Where the segments of a path lead; those of the empty path lead to the working directory. -/
def walk (disk : FileSystem) (p : Path) : Except FileFault Location :=
  p.segments.foldlM disk.step (.start p)

theorem step_eq_ok_iff : disk.step l s = .ok m ↔ disk.get? l = some .directory ∧ m = l.next s := by
  rw [step]
  split
  · rename_i h
    simp [h]
  · rename_i h
    simp [h, eq_comm]
  · rename_i e he h
    simp only [reduceCtorEq, h, Option.some.injEq, false_iff, not_and]
    exact fun h => absurd h he

theorem locate_eq_walk (h : p.text ≠ "") : disk.locate p = disk.walk p := by
  rw [locate, if_neg h, walk]

theorem walk_of_locate (h : disk.locate p = .ok l) : disk.walk p = .ok l := by
  rw [locate] at h
  split at h
  · cases h
  · exact h

theorem text_ne_empty (hp : s ∈ p.segments) (hs : IsName s) : p.text ≠ "" := by
  intro h
  have hsegments : p.segments = [""] := by
    rw [Path.segments_eq, Path.relative, Path.isAbsolute, h]
    rfl
  rw [hsegments, List.mem_singleton] at hp
  exact (Path.isName_iff.1 hs).1.1 hp

theorem next_of_isName (hs : IsName s) : l.next s = l ++ [s] := by
  obtain ⟨⟨hempty, hdot, hup⟩, -⟩ := Path.isName_iff.1 hs
  simp [Location.next, hempty, hdot, hup]

theorem locate_eq_ok_iff (hp : p.segments = lead ++ [s]) (hs : IsName s) :
    disk.locate p = .ok l ↔
      ∃ d, lead.foldlM disk.step (.start p) = .ok d ∧ disk.get? d = some .directory ∧
        l = d ++ [s] := by
  have hmem : s ∈ p.segments := by simp [hp]
  rw [locate_eq_walk (text_ne_empty hmem hs), walk, hp, List.foldlM_append, ok_bind]
  simp only [List.foldlM_cons, List.foldlM_nil, ok_bind, ok_pure, step_eq_ok_iff,
    next_of_isName hs]
  constructor
  · rintro ⟨d, hd, _, ⟨hdir, rfl⟩, rfl⟩
    exact ⟨d, hd, hdir, rfl⟩
  · rintro ⟨d, hd, hdir, rfl⟩
    exact ⟨d, hd, _, ⟨hdir, rfl⟩, rfl⟩

theorem next_of_mute (hs : Path.component? s = none) : l.next s = l := by
  rw [Path.component?] at hs
  split at hs
  · rename_i h
    rw [Location.next, if_pos h]
  · split at hs <;> cases hs

/-- Before another segment, one that does not count makes no difference. -/
theorem step_of_mute (hs : Path.component? s = none) (t : String)
    (rest : Location → Except FileFault Location) :
    (disk.step l s >>= fun m => disk.step m t >>= rest) = (disk.step l t >>= rest) := by
  simp only [step]
  cases hl : disk.get? l with
  | none => rfl
  | some e =>
    cases e with
    | directory =>
      rw [next_of_mute hs]
      simp only [bind, Except.bind]
      rw [hl]
    | text contents => rfl
    | binary => rfl

theorem foldlM_counted (hss : ss.getLast? = some s) (hs : IsName s) (l : Location) :
    ss.foldlM disk.step l =
      (ss.filter fun t => (Path.component? t).isSome).foldlM disk.step l := by
  induction ss generalizing l with
  | nil => rfl
  | cons t ts ih =>
    cases ts with
    | nil =>
      have ht : t = s := by simpa using hss
      rw [List.filter_cons_of_pos (by rw [ht, hs.1]; rfl)]
      rfl
    | cons u us =>
      rw [List.getLast?_cons_cons] at hss
      cases ht : Path.component? t with
      | none =>
        rw [List.filter_cons_of_neg (by simp [ht]), ← ih hss, List.foldlM_cons, List.foldlM_cons]
        exact step_of_mute ht u _
      | some c =>
        rw [List.filter_cons_of_pos (by simp [ht]), List.foldlM_cons, List.foldlM_cons]
        congr 1
        funext m
        exact ih hss m

/-- Paths with the same components that end with names lead to the same place. -/
theorem locate_congr {t : String} (h : p.components = q.components)
    (hp : p.segments.getLast? = some s) (hs : IsName s)
    (hq : q.segments.getLast? = some t) (ht : IsName t) : disk.locate p = disk.locate q := by
  obtain ⟨habs, hcounted⟩ := Path.eq_of_components h
  rw [locate_eq_walk (text_ne_empty (List.mem_of_getLast? hp) hs),
    locate_eq_walk (text_ne_empty (List.mem_of_getLast? hq) ht), walk, walk,
    foldlM_counted hp hs, foldlM_counted hq ht]
  rw [Path.counted, Path.counted] at hcounted
  rw [hcounted, Location.start, Location.start, habs]

/-- A location below the working directory, one above it or the root, with nothing but directories
above it. -/
structure Reached (disk : FileSystem) (l : Location) : Prop where
  shape : ∃ top names, l = top ++ names ∧ top.isFixed = true ∧ ∀ s ∈ names, IsName s
  directories : ∀ q, q <+: l → q ≠ l → disk.get? q = some .directory

theorem get?_of_isFixed (h : l.isFixed = true) : disk.get? l = some .directory := by
  rw [get?, if_pos h]

theorem isFixed_of_all (h : l.all (· = "..") = true) : l.isFixed = true := by
  rw [Location.isFixed, h, Bool.or_true]

theorem reached_start (p : Path) : disk.Reached (.start p) := by
  rw [Location.start]
  split
  · refine ⟨⟨["/"], [], rfl, rfl, by simp⟩, fun q hq hne => ?_⟩
    rcases List.prefix_cons_iff.1 hq with rfl | ⟨t, rfl, ht⟩
    · exact get?_of_isFixed rfl
    · rw [List.prefix_nil.1 ht] at hne
      exact absurd rfl hne
  · exact ⟨⟨[], [], rfl, rfl, by simp⟩, fun q hq hne => absurd (List.prefix_nil.1 hq) hne⟩

theorem Reached.concat (h : disk.Reached l) (hl : disk.get? l = some .directory)
    (hs : IsName s) : disk.Reached (l ++ [s]) := by
  obtain ⟨top, names, hnames, htop, hall⟩ := h.shape
  refine ⟨⟨top, names ++ [s], by rw [hnames, List.append_assoc], htop, ?_⟩, fun q hq hne => ?_⟩
  · simpa [or_imp, forall_and] using ⟨hall, hs⟩
  · rcases List.prefix_concat_iff.1 hq with rfl | hq
    · exact absurd rfl hne
    · by_cases hql : q = l
      · rwa [hql]
      · exact h.directories q hq hql

theorem Reached.dropLast (h : disk.Reached l) (hl : l.isFixed = false) :
    disk.Reached l.dropLast := by
  obtain ⟨top, names, hnames, htop, hplain⟩ := h.shape
  rcases List.eq_nil_or_concat names with rfl | ⟨ns, n, rfl⟩
  · rw [List.append_nil] at hnames
    rw [hnames, htop] at hl
    cases hl
  · rw [List.concat_eq_append, ← List.append_assoc] at hnames
    rw [hnames, List.dropLast_concat]
    refine ⟨⟨top, ns, rfl, htop, fun s hs => hplain s (by simp [hs])⟩, fun q hq hne => ?_⟩
    refine h.directories q (hnames ▸ hq.trans (List.prefix_append _ _)) ?_
    rintro rfl
    have hle := hq.length_le
    simp only [hnames, List.length_append, List.length_singleton] at hle
    omega

theorem Reached.above (h : disk.Reached l) : disk.Reached l.above := by
  rw [Location.above]
  split
  · exact h
  · rename_i hroot
    split
    · rename_i hall
      refine ⟨⟨l ++ [".."], [], by simp, isFixed_of_all (by simpa using hall), by simp⟩,
        fun q hq hne => ?_⟩
      rcases List.prefix_concat_iff.1 hq with rfl | hq
      · exact absurd rfl hne
      · refine get?_of_isFixed (isFixed_of_all ?_)
        rw [List.all_eq_true] at hall ⊢
        exact fun t ht => hall t (hq.subset ht)
    · rename_i hall
      refine h.dropLast ?_
      rw [Location.isFixed, Bool.eq_false_iff.2 hall, decide_eq_false hroot]
      rfl

theorem Reached.next (h : disk.Reached l) (hl : disk.get? l = some .directory)
    (hs : '/' ∉ s.toList) : disk.Reached (l.next s) := by
  by_cases hname : IsName s
  · rw [next_of_isName hname]
    exact h.concat hl hname
  · rw [Location.next]
    split
    · exact h
    · rename_i hmute
      split
      · exact h.above
      · rename_i hup
        refine absurd (Path.isName_iff.2 ⟨?_, hs⟩) hname
        simpa [not_or, and_assoc] using And.intro hmute hup

theorem Reached.foldlM (h : disk.Reached l) (hss : ∀ s ∈ ss, '/' ∉ s.toList)
    (hm : ss.foldlM disk.step l = .ok m) : disk.Reached m := by
  induction ss generalizing l with
  | nil =>
    cases hm
    exact h
  | cons s ss ih =>
    obtain ⟨hs, hss⟩ := List.forall_mem_cons.1 hss
    rw [List.foldlM_cons, ok_bind] at hm
    obtain ⟨l', hl', hm⟩ := hm
    obtain ⟨hdir, rfl⟩ := step_eq_ok_iff.1 hl'
    exact ih (h.next hdir hs) hss hm

theorem reached_of_locate (h : disk.locate p = .ok l) : disk.Reached l :=
  (reached_start p).foldlM (fun _ hs => Path.notMem_of_mem_segments hs) (walk_of_locate h)

theorem below?_eq_some (h : l.below? d = some names) :
    l = d ++ names ∧ names ≠ [] ∧ names.head? ≠ some "/" ∧ names.head? ≠ some ".." := by
  rw [Location.below?] at h
  split at h
  · cases h
  · cases h
  · cases h
  · rename_i hnil hroot hup
    split at h
    · rename_i hprefix
      cases h
      obtain ⟨rest, hrest⟩ := List.isPrefixOf_iff_prefix.1 hprefix
      have hdrop : l.drop d.length = rest := by rw [← hrest, List.drop_left]
      rw [hdrop] at hnil hroot hup ⊢
      refine ⟨hrest.symm, hnil, fun hhead => ?_, fun hhead => ?_⟩
      · obtain ⟨tail, htail⟩ := List.head?_eq_some_iff.1 hhead
        exact hroot tail htail
      · obtain ⟨tail, htail⟩ := List.head?_eq_some_iff.1 hhead
        exact hup tail htail
    · cases h

/-- What leads from a directory down to a location below it are names. -/
theorem Reached.isName_of_below? (h : disk.Reached l) (hbelow : l.below? d = some names) :
    ∀ s ∈ names, IsName s := by
  obtain ⟨hl, -, hroot, hup⟩ := below?_eq_some hbelow
  obtain ⟨top, ns, hns, htop, hall⟩ := h.shape
  rcases List.append_eq_append_iff.1 (hl.symm.trans hns) with ⟨rest, htop', hnames⟩ | ⟨_, -, hnames⟩
  · cases rest with
    | nil =>
      rw [hnames]
      exact hall
    | cons x rest =>
      have hx : x ∈ top := by simp [htop']
      rw [hnames] at hroot hup
      rw [Location.isFixed, Bool.or_eq_true, decide_eq_true_iff, List.all_eq_true] at htop
      obtain rfl | hdots := htop
      · rw [List.mem_singleton.1 hx] at hroot
        exact absurd rfl hroot
      · rw [of_decide_eq_true (hdots x hx)] at hup
        exact absurd rfl hup
  · exact fun s hs => hall s (hnames ▸ List.mem_append_right _ hs)

theorem foldlM_names (hnames : ∀ s ∈ names, IsName s)
    (hdirs : ∀ ns, ns <+: names → ns ≠ names → disk.get? (d ++ ns) = some .directory) :
    names.foldlM disk.step d = .ok (d ++ names) := by
  induction names generalizing d with
  | nil => rw [List.append_nil]; rfl
  | cons s names ih =>
    obtain ⟨hs, hnames⟩ := List.forall_mem_cons.1 hnames
    have hdir := hdirs [] List.nil_prefix (by simp)
    rw [List.append_nil] at hdir
    rw [List.foldlM_cons, ok_bind]
    refine ⟨d ++ [s], step_eq_ok_iff.2 ⟨hdir, (next_of_isName hs).symm⟩, ?_⟩
    rw [ih hnames, List.append_assoc, List.singleton_append]
    intro ns hns hne
    rw [List.append_assoc, List.singleton_append]
    exact hdirs (s :: ns) ((List.prefix_cons_inj s).2 hns) (by simpa using hne)

theorem foldlM_of_walk (hlead : base.segments = lead ∨ base.segments = lead ++ [""])
    (h : disk.walk base = .ok d) : lead.foldlM disk.step (.start base) = .ok d := by
  rw [walk] at h
  obtain hlead | hlead := hlead
  · rwa [hlead] at h
  · rw [hlead, List.foldlM_append, ok_bind] at h
    obtain ⟨d', hd', h⟩ := h
    rw [List.foldlM_cons, ok_bind] at h
    obtain ⟨m, hm, h⟩ := h
    cases h
    rw [hd', (step_eq_ok_iff.1 hm).2]
    rfl

theorem segments_of_isName (hs : IsName s) :
    Path.isAbsolute ⟨s⟩ = false ∧ Path.segments ⟨s⟩ = [s] := by
  have hslash : ∀ t ∈ [s], '/' ∉ t.toList := by simpa using hs.2
  simpa using Path.segments_intercalate (Path.isName_iff.1 hs).1.1 hslash

/-- Joining a name to a path leads into the directory that the path leads to. -/
theorem locate_join (hs : IsName s) (h : disk.locate (base.join s) = .ok l) :
    ∃ d, l = d ++ [s] ∧ disk.get? d = some .directory := by
  obtain ⟨habs, hsegments⟩ := segments_of_isName hs
  obtain ⟨-, lead, hjoin, -⟩ := Path.join_eq base habs
  rw [hsegments] at hjoin
  obtain ⟨d, -, hdir, hl⟩ := (locate_eq_ok_iff hjoin hs).1 h
  exact ⟨d, hl, hdir⟩

theorem locate_joinAll (hbase : disk.walk base = .ok d) (hne : names ≠ [])
    (hnames : ∀ s ∈ names, IsName s)
    (hdirs : ∀ ns, ns <+: names → ns ≠ names → disk.get? (d ++ ns) = some .directory) :
    disk.locate (base.joinAll names) = .ok (d ++ names) := by
  cases names with
  | nil => exact absurd rfl hne
  | cons s names =>
    have hs := hnames s List.mem_cons_self
    obtain ⟨habs, hsegments⟩ := Path.segments_intercalate (Path.isName_iff.1 hs).1.1
      fun t ht => (hnames t ht).2
    obtain ⟨habs', lead, hjoin, hlead⟩ := Path.join_eq base habs
    rw [hsegments] at hjoin
    have hmem : s ∈ (base.join ("/".intercalate (s :: names))).segments := by simp [hjoin]
    rw [Path.joinAll, locate_eq_walk (text_ne_empty hmem hs), walk, hjoin, List.foldlM_append,
      Location.start, habs', ok_bind]
    exact ⟨d, foldlM_of_walk hlead hbase, foldlM_names hnames hdirs⟩

theorem locate_join_of_walk (hbase : disk.walk base = .ok d) (hd : disk.get? d = some .directory)
    (hs : IsName s) : disk.locate (base.join s) = .ok (d ++ [s]) := by
  have hjoin : base.joinAll [s] = base.join s := by rw [Path.joinAll, String.intercalate_singleton]
  rw [← hjoin]
  refine locate_joinAll hbase (by simp) (by simpa using hs) fun ns hns hne => ?_
  rcases List.prefix_concat_iff.1 (show ns <+: [] ++ [s] from hns) with rfl | hns
  · exact absurd rfl hne
  · rwa [List.prefix_nil.1 hns, List.append_nil]

end TwinClasses.FileSystem
