import TwinClasses.Proofs.Expansion.Growth
import TwinClasses.Proofs.Lexing.ReadBack
import TwinClasses.Proofs.RoundTrip.Lossless
import TwinClasses.Settings

set_option autoImplicit false

/-! Text that was generated, read as a skeleton. Its first token comes with the banner, stays first
and gets the banner once more, so no generated text is what is generated from it. -/

namespace TwinClasses

theorem Node.exists_outline_eq (n : Node) : ∃ t rest, n.outline = .token t :: rest := by
  match n with
  | .token t => exact ⟨t, [], by rw [Node.outline]⟩
  | .group ⟨d, opening, children, closing⟩ =>
    exact ⟨opening, _, by rw [Node.outline, Group.outline]; rfl⟩
  | .classDecl ⟨keyword, name, heritage, opening, members, closing, isExpression⟩ =>
    exact ⟨keyword, _, by rw [Node.outline, ClassDecl.outline]; rfl⟩
  | .forOf keyword awaiting head => exact ⟨keyword, _, by rw [Node.outline]; rfl⟩
  | .await keyword operand => exact ⟨keyword, _, by rw [Node.outline]⟩
  | .access object dot name => exact ⟨object, _, by rw [Node.outline]⟩
  | .typeRef ⟨name, path, arguments⟩ =>
    exact ⟨name, _, by rw [Node.outline, TypeRef.outline]; rfl⟩

theorem Expansion.Grows.head?_tokens {e : Expansion} {n n' : Node} (h : e.Grows n n') :
    n'.tokens.head? = n.tokens.head? := by
  cases h with
  | target c htarget hadds =>
    simp [Node.tokens, ClassDecl.tokens_eq, ClassDecl.openTokens]
  | group g hchildren =>
    cases g
    simp [Node.tokens, Group.tokens]
  | _ => rfl

variable {name source banner : String} {f result : SourceFile}

/-- What comes before the first token of an expansion came before it in the text that was read. -/
theorem exists_first_token (hf : SourceFile.ofSource name source = .ok f) {e : Expansion}
    (hrun : e.run f = .ok result) :
    ((Lexer.lexemes source).tokens = [] ∧ result.source = source) ∨
      ∃ t ts rest, (Lexer.lexemes source).tokens = t :: ts ∧
        result.source = t.leading ++ (t.text ++ rest) := by
  obtain ⟨lost, hfills⟩ := SourceFile.fills_ofSource hf
  obtain ⟨-, -, -, htrailing⟩ := SourceFile.ofSource_eq_ok hf
  simp only [Expansion.run, ok_bind, ok_pure] at hrun
  obtain ⟨nodes, hnodes, rfl⟩ := hrun
  have hgrow := Expansion.allGrow_visitAll hnodes
  cases hns : f.nodes with
  | nil =>
    rw [hns] at hfills hgrow
    cases hgrow
    generalize htokens : (Lexer.lexemes source).tokens = tokens at hfills
    cases hfills
    have hsource := Lexer.sourceOf_lexemes source
    rw [htokens] at hsource
    exact .inl ⟨rfl, by rw [SourceFile.source, htrailing]; exact hsource⟩
  | cons n ns =>
    rw [hns] at hfills hgrow
    cases hgrow with
    | cons hn hns' =>
      rename_i n' ns'
      obtain ⟨t, rest, houtline⟩ := n.exists_outline_eq
      have hfirst : n.tokens.head? = some t := by
        rw [← Node.tokens_outline, houtline]
        rfl
      rw [← hn.head?_tokens] at hfirst
      obtain ⟨ts, hts⟩ := List.head?_eq_some_iff.1 hfirst
      rw [Node.outlineAll, houtline] at hfills
      generalize htokens : (Lexer.lexemes source).tokens = tokens at hfills
      cases hfills
      refine .inr ⟨t, _, Token.sourceOf (ts ++ Node.tokensAll ns') ++ f.trailing, rfl, ?_⟩
      rw [SourceFile.source, Node.sourceAll, Node.tokensAll, hts, List.cons_append,
        Token.sourceOf_cons, Token.source, String.append_assoc, String.append_assoc]

/-- No text is what is generated from it. -/
theorem banner_source_ne (hf : SourceFile.ofSource name source = .ok f) {e : Expansion}
    (hrun : e.run f = .ok result) (hskipped : Lexer.Skipped banner.toList) (hne : banner ≠ "") :
    banner ++ result.source ≠ source := by
  intro h
  have hlen : banner.length ≠ 0 := fun hzero => hne (String.length_eq_zero_iff.1 hzero)
  obtain ⟨-, hsame⟩ | ⟨t, ts, rest, htokens, hsource⟩ := exists_first_token hf hrun
  · have hlength := congrArg String.length h
    rw [hsame, String.length_append] at hlength
    omega
  · have hleading : Lexer.Skipped t.leading.toList :=
      Lexer.skipped_leading_lexemes source t (by simp [htokens])
    have hcs : source.toList =
        (banner.toList ++ t.leading.toList) ++ (t.text ++ rest).toList := by
      rw [← h, hsource, String.toList_append, String.toList_append, List.append_assoc]
    have hcontent : Lexer.Context.start.content "" source.toList =
        (t :: ts, (Lexer.lexemes source).trailing) := by
      rw [← htokens]
      rfl
    rw [hcs, Lexer.Context.content_skipped (hskipped.append hleading)] at hcontent
    obtain ⟨s, hs⟩ := Lexer.Context.leading_of_content hcontent
    have hlength := congrArg String.length hs
    simp only [String.length_append, String.length_ofList, List.length_append,
      String.length_toList, String.length_empty] at hlength
    omega

theorem skipped_standardBanner : Lexer.Skipped standardBanner.toList := by
  have hrule : '\n' ∉ "***********************************//".toList := by decide +kernel
  have htext : '\n' ∉ "    GENERATED FILE. DO NOT EDIT!   //".toList := by decide +kernel
  have hend : Lexer.Skipped ['\n'] := .space (by decide) .nil
  have hlines := Lexer.Skipped.line _ hrule (.line _ htext (.line _ hrule hend))
  refine (congrArg Lexer.Skipped ?_).mp hlines
  decide +kernel

end TwinClasses
