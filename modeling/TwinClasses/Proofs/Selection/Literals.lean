import TwinClasses.Glob.Matching
import TwinClasses.Proofs.Lexing.Bytes

set_option autoImplicit false

/-! Patterns that begin with a text without special characters. Such a text stands for itself, and
with `/**/*` after it the pattern stands for all that is below it. -/

namespace TwinClasses

namespace Text

variable {cs ds : List Char} {bs : List UInt8}

/-- No character's bytes begin those of another. -/
theorem eq_of_utf8EncodeChar_append {c d : Char} {bs bs' : List UInt8}
    (h : String.utf8EncodeChar c ++ bs = String.utf8EncodeChar d ++ bs') : c = d := by
  have hc := ByteArray.utf8DecodeChar?_utf8EncodeChar_append (b := bs.toByteArray) (c := c)
  have hd := ByteArray.utf8DecodeChar?_utf8EncodeChar_append (b := bs'.toByteArray) (c := d)
  rw [← List.toByteArray_append, h, List.toByteArray_append, hd] at hc
  exact (Option.some.inj hc).symm

theorem exists_of_bytes_eq_append (h : bytes ds = bytes cs ++ bs) :
    ∃ rest, ds = cs ++ rest ∧ bs = bytes rest := by
  induction cs generalizing ds with
  | nil => exact ⟨ds, rfl, h.symm⟩
  | cons c cs ih =>
    cases ds with
    | nil =>
      obtain ⟨b, bs', hb, -⟩ := utf8EncodeChar_eq_cons c
      simp [hb] at h
    | cons d ds =>
      rw [bytes_cons, bytes_cons, List.append_assoc] at h
      obtain rfl := eq_of_utf8EncodeChar_append h
      obtain ⟨rest, rfl, hrest⟩ := ih (List.append_cancel_left h)
      exact ⟨rest, rfl, hrest⟩

end Text

namespace Glob

open Text (bytes)

variable {cs rest path : List Char} {bs : List UInt8} {p : Piece} {ps : List Piece}

/-- Characters that mean something in a pattern wherever they stand. -/
def specials : List Char := ['?', '*', '[', '\x7b', '\x7d', '\\']

theorem readPieces_literal {d : Draft} {c : Char} (previous : Option Char)
    (hd : d.choices = []) (hc : c ∉ specials) :
    readPieces d previous (c :: cs) = readPieces (d.push (.literal c)) (some c) cs := by
  simp only [specials, List.mem_cons, List.not_mem_nil, or_false, not_or] at hc
  obtain ⟨h1, h2, h3, h4, h5, h6⟩ := hc
  by_cases hcomma : c = ','
  · subst hcomma
    rw [readPieces.eq_def]
    simp [Draft.nextBranch, hd]
  · rw [readPieces.eq_def]
    split <;> simp_all

/-- Reading a text without special characters puts its characters behind what was read before. -/
theorem readPieces_literals {d : Draft} (previous : Option Char) (hd : d.choices = [])
    (hcs : ∀ c ∈ cs, c ∉ specials) (rest : List Char) :
    ∃ previous', readPieces d previous (cs ++ rest) =
      readPieces ⟨(cs.map .literal).reverse ++ d.pieces, []⟩ previous' rest := by
  induction cs generalizing d previous with
  | nil =>
    obtain ⟨pieces, choices⟩ := d
    cases hd
    exact ⟨previous, rfl⟩
  | cons c cs ih =>
    obtain ⟨hc, hcs⟩ := List.forall_mem_cons.1 hcs
    obtain ⟨previous', hread⟩ := ih (d := d.push (.literal c)) (some c) hd hcs
    refine ⟨previous', ?_⟩
    rw [List.cons_append, readPieces_literal previous hd hc, hread]
    simp [Draft.push]

theorem ofText_literals (hcs : ∀ c ∈ cs, c ∉ specials) :
    Glob.ofText (String.ofList cs) = .ok ⟨cs.map .literal⟩ := by
  obtain ⟨previous, hread⟩ := readPieces_literals (d := {}) none rfl hcs []
  rw [Glob.ofText, String.toList_ofList, ← List.append_nil cs, hread, readPieces]
  simp [Except.map]

/-- Between two slashes, `**` takes the place of the first one. -/
theorem doubleStar_between (pieces : List Piece) :
    Draft.doubleStar ⟨.literal '/' :: pieces, []⟩ (some '/') ('/' :: cs) =
      (⟨.between :: pieces, []⟩, cs) := rfl

theorem ofText_below (hcs : ∀ c ∈ cs, c ∉ specials) :
    Glob.ofText (String.ofList cs ++ "/**/*") =
      .ok ⟨cs.map .literal ++ [.between, .anyRunInName]⟩ := by
  obtain ⟨previous, hread⟩ := readPieces_literals (d := {}) none rfl hcs ['/', '*', '*', '/', '*']
  have hslash : '/' ∉ specials := by decide
  rw [Glob.ofText, String.toList_append, String.toList_ofList,
    show "/**/*".toList = ['/', '*', '*', '/', '*'] from rfl, hread,
    readPieces_literal previous rfl hslash, readPieces, Draft.push, doubleStar_between]
  simp [readPieces, Draft.push, Except.map]

theorem afterBytes?_eq_some_iff {xs r : List UInt8} :
    afterBytes? xs bs = some r ↔ bs = xs ++ r := by
  induction xs generalizing bs with
  | nil => simp [afterBytes?]
  | cons x xs ih =>
    cases bs with
    | nil => simp [afterBytes?]
    | cons b bs =>
      rw [afterBytes?]
      split
      · rename_i h
        simp [h, ih]
      · rename_i h
        simp [Ne.symm h]

theorem mem_restsOfAll_cons {x : List UInt8} :
    x ∈ restsOfAll (p :: ps) bs ↔ ∃ r ∈ p.rests bs, x ∈ restsOfAll ps r := by
  rw [restsOfAll, List.mem_eraseDups, List.mem_flatMap]

theorem mem_restsOfAll_singleton {x : List UInt8} : x ∈ restsOfAll [p] bs ↔ x ∈ p.rests bs := by
  rw [mem_restsOfAll_cons]
  simp [restsOfAll]

theorem mem_restsOfAll_literals {x : List UInt8} :
    x ∈ restsOfAll (cs.map .literal ++ ps) bs ↔
      ∃ r, bs = bytes cs ++ r ∧ x ∈ restsOfAll ps r := by
  induction cs generalizing bs with
  | nil => simp
  | cons c cs ih =>
    rw [List.map_cons, List.cons_append, mem_restsOfAll_cons]
    simp only [Piece.rests, Option.mem_toList, afterBytes?_eq_some_iff, ih, Text.bytes_cons]
    constructor
    · rintro ⟨_, rfl, r, rfl, hx⟩
      exact ⟨r, by rw [List.append_assoc], hx⟩
    · rintro ⟨r, rfl, hx⟩
      exact ⟨bytes cs ++ r, by rw [List.append_assoc], r, rfl, hx⟩

theorem nil_mem_afterName : [] ∈ afterName bs ↔ slash ∉ bs := by
  induction bs with
  | nil => simp [afterName]
  | cons b bs ih =>
    by_cases hb : b = slash
    · simp [afterName, hb]
    · simp [afterName, hb, ih, Ne.symm hb]

/-- What comes after the last slash has none. -/
theorem exists_mem_afterSlashes (bs : List UInt8) : ∃ r ∈ bs :: afterSlashes bs, slash ∉ r := by
  induction bs with
  | nil => exact ⟨[], List.mem_cons_self, List.not_mem_nil⟩
  | cons b bs ih =>
    obtain ⟨r, hr, hslash⟩ := ih
    by_cases hb : b = slash
    · exact ⟨r, List.mem_cons_of_mem _ (by simpa [afterSlashes, hb] using hr), hslash⟩
    · rcases List.mem_cons.1 hr with rfl | hr
      · exact ⟨b :: r, List.mem_cons_self, by simpa [Ne.symm hb] using hslash⟩
      · exact ⟨r, List.mem_cons_of_mem _ (by simpa [afterSlashes, hb] using hr), hslash⟩

theorem nil_mem_restsOfAll_below :
    [] ∈ restsOfAll [.between, .anyRunInName] bs ↔ ∃ r, bs = slash :: r := by
  rw [mem_restsOfAll_cons]
  simp only [mem_restsOfAll_singleton]
  constructor
  · rintro ⟨r, hr, -⟩
    cases bs with
    | nil => simp [Piece.rests] at hr
    | cons b bs =>
      by_cases hb : b = slash
      · exact ⟨bs, by rw [hb]⟩
      · simp [Piece.rests, hb] at hr
  · rintro ⟨r, rfl⟩
    obtain ⟨r', hr', hslash⟩ := exists_mem_afterSlashes r
    exact ⟨r', by simpa [Piece.rests] using hr', nil_mem_afterName.2 hslash⟩

theorem isMatch_eq_mem (glob : Glob) (h : ∀ q, glob.pieces = [q] → q ≠ .leading) (path : String) :
    glob.isMatch path = true ↔ [] ∈ restsOfAll glob.pieces (bytes path.toList) := by
  rw [isMatch]
  split
  · rename_i hpieces
    exact absurd rfl (h _ hpieces)
  · exact decide_eq_true_iff

theorem isMatch_literals (path : String) :
    isMatch ⟨cs.map .literal⟩ path = true ↔ path.toList = cs := by
  rw [isMatch_eq_mem, ← List.append_nil (cs.map Piece.literal), mem_restsOfAll_literals]
  · simp only [restsOfAll, List.mem_singleton]
    constructor
    · rintro ⟨_, h, rfl⟩
      obtain ⟨rest, hrest, hnil⟩ := Text.exists_of_bytes_eq_append h
      cases rest with
      | nil => rw [hrest, List.append_nil]
      | cons c rest =>
        obtain ⟨b, bs, hb, -⟩ := Text.utf8EncodeChar_eq_cons c
        simp [hb] at hnil
    · intro h
      exact ⟨[], by rw [h, List.append_nil], rfl⟩
  · intro q hq
    obtain ⟨c, cs, -, rfl, -⟩ := List.map_eq_cons_iff.1 hq
    exact nofun

theorem isMatch_below (path : String) :
    isMatch ⟨cs.map .literal ++ [.between, .anyRunInName]⟩ path = true ↔
      ∃ rest, path.toList = cs ++ '/' :: rest := by
  rw [isMatch_eq_mem, mem_restsOfAll_literals]
  · simp only [nil_mem_restsOfAll_below]
    have hslash : bytes (cs ++ ['/']) = bytes cs ++ [slash] := by rw [Text.bytes_append]; rfl
    constructor
    · rintro ⟨_, h, r, rfl⟩
      rw [← List.singleton_append, ← List.append_assoc, ← hslash] at h
      obtain ⟨rest, hrest, -⟩ := Text.exists_of_bytes_eq_append h
      exact ⟨rest, by rw [hrest, List.append_assoc]; rfl⟩
    · rintro ⟨rest, h⟩
      refine ⟨_, ?_, bytes rest, rfl⟩
      rw [h, ← List.singleton_append, ← List.append_assoc, Text.bytes_append, hslash,
        List.append_assoc]
      rfl
  · intro q hq
    have := congrArg List.length hq
    simp at this

end Glob

end TwinClasses
