import ComputeKernel.Proofs.Lexing.Pieces

/-!
What a comment is, said without the lexer. A line comment runs up to the end of its line. A block
comment runs up to the `*/` that closes it and all comments opened within it, or to the end of the
text if there is no such end.
-/

namespace ComputeKernel

/-- A text that closes `depth` comments and those that it opens on the way, the last of them with
its last two characters. -/
inductive Closes : Nat → List Char → Prop where
  | outermost : Closes 1 ['*', '/']
  | inner {depth : Nat} {text : List Char} : Closes (depth + 1) text →
      Closes (depth + 2) ('*' :: '/' :: text)
  | opening {depth : Nat} {text : List Char} : Closes (depth + 1) text →
      Closes depth ('/' :: '*' :: text)
  | char {depth : Nat} {c : Char} {text : List Char} : ¬ ['/', '*'] <+: c :: text →
      ¬ ['*', '/'] <+: c :: text → Closes depth text → Closes depth (c :: text)

/-- A comment with `back` behind it. -/
inductive IsComment (back : List Char) : List Char → Prop where
  | line {text : List Char} : '\n' ∉ text → (∀ c, back.head? = some c → c = '\n') →
      IsComment back ('/' :: '/' :: text)
  | block {text : List Char} : Closes 1 text → IsComment back ('/' :: '*' :: text)
  | unterminated {text : List Char} : back = [] → (∀ front, front <+: text → ¬ Closes 1 front) →
      IsComment back ('/' :: '*' :: text)

/-! ### Block comments -/

theorem Closes.ne_nil {depth : Nat} {text : List Char} (h : Closes depth text) : text ≠ [] := by
  cases h <;> simp

/-- Two characters stand in front of a text exactly if they stand in front of what it is a part
of, unless only one character of it is there. -/
theorem pair_prefix_append {a b c : Char} {text : List Char} (back : List Char)
    (h : text ≠ []) :
    [a, b] <+: c :: (text ++ back) ↔ [a, b] <+: c :: text := by
  cases text with
  | nil => exact (h rfl).elim
  | cons d text => simp [List.cons_prefix_cons]

theorem splitComment_char {depth : Nat} {c : Char} {cs : List Char}
    (hopen : ¬ ['/', '*'] <+: c :: cs) (hclose : ¬ ['*', '/'] <+: c :: cs) :
    splitComment depth (c :: cs) =
      (c :: (splitComment depth cs).1, (splitComment depth cs).2) := by
  rw [splitComment]
  · rintro rest rfl rfl
    exact hopen ⟨rest, rfl⟩
  · rintro rest rfl rfl
    exact hclose ⟨rest, rfl⟩

/-- A text that closes what is open is cut off, whatever stands behind it. -/
theorem splitComment_of_closes {depth : Nat} {text : List Char} (h : Closes depth text)
    (back : List Char) : splitComment depth (text ++ back) = (text, some back) := by
  induction h with
  | outermost => rfl
  | inner _ ih => simp [splitComment, ih]
  | opening _ ih => simp [splitComment, ih]
  | @char depth c text hopen hclose hrest ih =>
    rw [← pair_prefix_append back hrest.ne_nil] at hopen hclose
    rw [List.cons_append, splitComment_char hopen hclose, ih]

theorem closes_of_splitComment {depth : Nat} {cs text rest : List Char} (hdepth : 0 < depth)
    (h : splitComment depth cs = (text, some rest)) : Closes depth text := by
  revert h hdepth
  fun_induction splitComment depth cs generalizing text rest with
  | case1 =>
    intro hdepth h
    cases (Prod.mk.inj h).2
  | case2 depth cs text' tail hrun ih =>
    intro hdepth h
    obtain ⟨rfl, rfl⟩ := Prod.mk.inj h
    exact .opening (ih (Nat.succ_pos depth) hrun)
  | case3 depth cs hlast =>
    intro hdepth h
    obtain ⟨rfl, -⟩ := Prod.mk.inj h
    obtain rfl : depth = 1 := Nat.le_antisymm hlast hdepth
    exact .outermost
  | case4 depth cs hmore text' tail hrun ih =>
    intro hdepth h
    obtain ⟨rfl, rfl⟩ := Prod.mk.inj h
    obtain ⟨depth, rfl⟩ : ∃ d, depth = d + 2 := ⟨depth - 2, by omega⟩
    exact .inner (ih (Nat.succ_pos depth) hrun)
  | case5 depth c cs hopen hclose text' tail hrun ih =>
    intro hdepth h
    obtain ⟨rfl, rfl⟩ := Prod.mk.inj h
    have hcloses := ih hdepth hrun
    have hparts : text' ++ rest = cs := by
      have := splitComment_append depth cs
      rwa [hrun] at this
    -- the part of `cs` that was cut off is not empty: a look at it is a look at `cs`
    refine .char ?_ ?_ hcloses
    · rw [← pair_prefix_append rest hcloses.ne_nil, hparts]
      rintro ⟨behind, hbehind⟩
      obtain ⟨rfl, rfl⟩ := List.cons.inj hbehind
      exact hopen behind rfl rfl
    · rw [← pair_prefix_append rest hcloses.ne_nil, hparts]
      rintro ⟨behind, hbehind⟩
      obtain ⟨rfl, rfl⟩ := List.cons.inj hbehind
      exact hclose behind rfl rfl

namespace Piece

theorem isComment_lineComment (cs : List Char) (h : ['/', '/'] <+: cs) :
    IsComment (lineComment cs).2 (lineComment cs).1.text := by
  obtain ⟨cs, rfl⟩ := h
  have htext : (lineComment (['/', '/'] ++ cs)).1.text
      = '/' :: '/' :: cs.takeWhile (· ≠ '\n') := by simp [lineComment]
  rw [htext]
  refine .line ?_ ?_
  · intro hmem
    simpa using List.all_eq_true.mp List.all_takeWhile _ hmem
  · intro c hc
    have hnot := List.head?_dropWhile_not (· ≠ '\n') (['/', '/'] ++ cs)
    rw [show (['/', '/'] ++ cs).dropWhile (· ≠ '\n') = (lineComment (['/', '/'] ++ cs)).2 from rfl,
      hc] at hnot
    simpa using hnot

theorem isComment_blockComment (cs : List Char) (h : ['/', '*'] <+: cs) :
    IsComment (blockComment cs).2 (blockComment cs).1.text := by
  obtain ⟨cs, rfl⟩ := h
  have hsplit : splitComment 0 (['/', '*'] ++ cs) =
      ('/' :: '*' :: (splitComment 1 cs).1, (splitComment 1 cs).2) := by simp [splitComment]
  have hparts := splitComment_append 1 cs
  simp only [blockComment, hsplit]
  rcases hrun : splitComment 1 cs with ⟨text, _ | rest⟩
  · refine .unterminated rfl fun front hfront hcloses => ?_
    obtain ⟨back, rfl⟩ := hfront
    have hcut := splitComment_of_closes hcloses back
    rw [hrun, Option.getD_none, List.append_nil] at hparts
    rw [show front ++ back = cs from hparts, hrun] at hcut
    cases (Prod.mk.inj hcut).2
  · exact .block (closes_of_splitComment Nat.one_pos hrun)

end Piece

end ComputeKernel
