import ComputeKernel.Proofs.Lexing.Spelling

/-!
The order of tokens. The tokens of a source stand one behind the other; all but the mark of the end
of input have at least one byte, and `>>` has two, of which the parser may take the first alone.
-/

namespace ComputeKernel

/-- Tokens that stand one behind the other from an offset on, the last of them at the end of
input. -/
inductive Token.Ordered : Nat → List Token → Prop where
  | last {lo : Nat} {t : Token} : lo ≤ t.span.start → t.span.start ≤ t.span.stop →
      t.lexeme = .endOfInput → Ordered lo [t]
  | cons {lo : Nat} {t u : Token} {ts : List Token} : lo ≤ t.span.start →
      t.span.start < t.span.stop → t.lexeme ≠ .endOfInput →
      (t.lexeme = .symbol .shr → t.span.stop = t.span.start + 2) →
      Ordered t.span.stop (u :: ts) → Ordered lo (t :: u :: ts)

theorem Token.Ordered.mono {lo lo' : Nat} {ts : List Token} (h : Ordered lo ts) (hlo : lo' ≤ lo) :
    Ordered lo' ts := by
  cases h with
  | last hstart hspan hend => exact .last (Nat.le_trans hlo hstart) hspan hend
  | cons hstart hspan hlexeme hshift hrest =>
    exact .cons (Nat.le_trans hlo hstart) hspan hlexeme hshift hrest

theorem byteLength_pos {cs : List Char} (h : cs ≠ []) : 0 < byteLength cs := by
  cases cs with
  | nil => exact (h rfl).elim
  | cons c cs =>
    rw [byteLength_cons]
    exact Nat.add_pos_left c.utf8Size_pos _

theorem Lexeme.SpelledBy.byteLength_shr {text : List Char}
    (h : (symbol .shr).SpelledBy text) : byteLength text = 2 := by
  rw [show text = Symbol.shr.chars from h]
  rfl

namespace Piece

/-- The tokens of pieces, with the end of input somewhere behind the pieces. -/
theorem ordered_tokens {offset stop : Nat} {ps : List Piece}
    (hspelled : ∀ p ∈ ps, ∀ l, p.lexeme = some l → l.SpelledBy p.text)
    (hstop : offset + byteLength (ps.flatMap text) ≤ stop) :
    Token.Ordered offset (tokens offset ps ++ [⟨.endOfInput, stop, stop⟩]) := by
  induction ps generalizing offset with
  | nil => exact .last (by simpa using hstop) (Nat.le_refl stop) rfl
  | cons p ps ih =>
    rw [List.flatMap_cons, byteLength_append] at hstop
    have hstop' : (offset + byteLength p.text) + byteLength (ps.flatMap text) ≤ stop := by omega
    have hrest := ih (fun q hq => hspelled q (List.mem_cons_of_mem p hq)) hstop'
    unfold tokens
    cases hl : p.lexeme with
    | none => exact hrest.mono (Nat.le_add_right _ _)
    | some l =>
      have hp := hspelled p List.mem_cons_self l hl
      have hpos := byteLength_pos hp.ne_nil
      simp only [List.cons_append]
      generalize tokens (offset + byteLength p.text) ps ++ [⟨.endOfInput, stop, stop⟩] = ts at hrest
      have hlexeme : l ≠ .endOfInput := by
        rintro rfl
        exact hp
      have hshift : l = .symbol .shr → offset + byteLength p.text = offset + 2 := by
        rintro rfl
        rw [hp.byteLength_shr]
      cases ts with
      | nil => cases hrest
      | cons u ts => exact .cons (Nat.le_refl offset) (by simp only; omega) hlexeme hshift hrest

theorem exists_of_mem_tokens {offset : Nat} {ps : List Piece} {t : Token}
    (ht : t ∈ tokens offset ps) : ∃ p ∈ ps, p.lexeme = some t.lexeme := by
  induction ps generalizing offset with
  | nil => cases ht
  | cons p ps ih =>
    unfold tokens at ht
    cases hl : p.lexeme with
    | none =>
      simp only [hl] at ht
      obtain ⟨q, hq, hlexeme⟩ := ih ht
      exact ⟨q, List.mem_cons_of_mem p hq, hlexeme⟩
    | some l =>
      simp only [hl] at ht
      rcases List.mem_cons.mp ht with rfl | ht
      · exact ⟨p, List.mem_cons_self, hl⟩
      · obtain ⟨q, hq, hlexeme⟩ := ih ht
        exact ⟨q, List.mem_cons_of_mem p hq, hlexeme⟩

end Piece

theorem byteLength_eq_utf8ByteSize (cs : List Char) :
    byteLength cs = (String.ofList cs).utf8ByteSize := by
  induction cs with
  | nil => rfl
  | cons c cs ih =>
    rw [byteLength_cons, ih, show c :: cs = [c] ++ cs from rfl, String.ofList_append,
      String.utf8ByteSize_append]
    simp

/-- The tokens of a source are in order. -/
theorem tokenize_ordered (source : String) : Token.Ordered 0 (tokenize source).1 := by
  refine Piece.ordered_tokens (fun p hp l hl => Piece.spelled_of_mem_cut hp hl) ?_
  rw [Nat.zero_add, ← String.ofList_toList (s := source), ← byteLength_eq_utf8ByteSize,
    String.toList_ofList]
  exact Piece.byteLength_cut_le _ _

/-- Each token of a source has a spelling, except for the mark of the end of input. -/
theorem tokenize_spelled {source : String} {t : Token} (ht : t ∈ (tokenize source).1)
    (hl : t.lexeme ≠ .endOfInput) : ∃ text, t.lexeme.SpelledBy text := by
  simp only [tokenize, List.mem_append, List.mem_singleton] at ht
  rcases ht with ht | rfl
  · obtain ⟨p, hp, hlexeme⟩ := Piece.exists_of_mem_tokens ht
    exact ⟨p.text, Piece.spelled_of_mem_cut hp hlexeme⟩
  · exact (hl rfl).elim

end ComputeKernel
