import ComputeKernel.Closure.Piece

/-!
Pieces put together are the text that they were cut from, and a piece with a lexeme has at least one
character.
-/

namespace ComputeKernel

/-! ### Numbers -/

namespace Digits

theorem marked_append (radix : Nat) (mark cs : List Char) :
    (marked radix mark cs).text ++ (marked radix mark cs).rest = mark ++ cs := by
  unfold marked
  simp only
  split
  · simp [List.append_assoc, List.takeWhile_append_dropWhile]
  · split <;> simp [List.append_assoc, List.takeWhile_append_dropWhile]

theorem fraction?_append {cs text rest : List Char} (h : fraction? cs = some (text, rest)) :
    text ++ rest = cs := by
  revert h
  fun_cases fraction? cs with
  | case1 c rest' hdigit =>
    rintro ⟨⟩
    simp [List.takeWhile_append_dropWhile]
  | case2 => nofun
  | case3 => rintro ⟨⟩; rfl
  | case4 => rintro ⟨⟩; rfl
  | case5 => nofun

/-- The sign of an exponent in front of what stands behind it. -/
theorem sign_append (rest : List Char) :
    let sign := match rest with
      | '+' :: _ => ['+']
      | '-' :: _ => ['-']
      | _ => []
    sign ++ rest.drop sign.length = rest := by
  split <;> rfl

theorem exponent?_append {cs text rest : List Char} (h : exponent? cs = some (text, rest)) :
    text ++ rest = cs := by
  cases cs with
  | nil => cases h
  | cons e tail =>
    simp only [exponent?] at h
    split at h
    · split at h
      · split at h
        · obtain ⟨rfl, rfl⟩ := Prod.mk.inj (Option.some.inj h)
          rw [List.append_assoc, List.takeWhile_append_dropWhile, List.cons_append]
          exact congrArg (e :: ·) (sign_append tail)
        · cases h
      · cases h
    · cases h

theorem decimal_append (cs : List Char) : (decimal cs).text ++ (decimal cs).rest = cs := by
  unfold decimal
  rcases hpoint : fraction? (cs.dropWhile isDigitOrGap) with _ | ⟨point, rest⟩
  · rcases hpower : exponent? (cs.dropWhile isDigitOrGap) with _ | ⟨power, rest⟩
    · simp [hpoint, hpower, List.takeWhile_append_dropWhile]
    · simp [hpoint, hpower, exponent?_append hpower, List.takeWhile_append_dropWhile]
  · have hrest := fraction?_append hpoint
    rcases hpower : exponent? rest with _ | ⟨power, rest'⟩
    · simp [hpoint, hpower, hrest, List.takeWhile_append_dropWhile]
    · simp [hpoint, hpower, exponent?_append hpower, hrest, List.takeWhile_append_dropWhile]

theorem scan_append (cs : List Char) : (scan cs).text ++ (scan cs).rest = cs := by
  fun_cases scan cs with
  | case1 rest => exact marked_append 16 ['0', 'x'] rest
  | case2 rest => exact marked_append 2 ['0', 'b'] rest
  | case3 rest => exact marked_append 8 ['0', 'o'] rest
  | case4 => exact decimal_append cs

end Digits

/-! ### Pieces -/

theorem splitComment_append (depth : Nat) (cs : List Char) :
    (splitComment depth cs).1 ++ (splitComment depth cs).2.getD [] = cs := by
  fun_induction splitComment depth cs with
  | case1 => rfl
  | case2 depth rest text tail h ih =>
    rw [h] at ih
    simp [ih]
  | case3 => rfl
  | case4 depth rest h text tail hrun ih =>
    rw [hrun] at ih
    simp [ih]
  | case5 depth c rest hopen hclose text tail h ih =>
    rw [h] at ih
    simp [ih]

namespace Piece

theorem number_append (cs : List Char) : (number cs).1.text ++ (number cs).2 = cs := by
  have hword : suffixWord (Digits.scan cs).rest ++
      (Digits.scan cs).rest.drop (suffixWord (Digits.scan cs).rest).length =
        (Digits.scan cs).rest := by
    unfold suffixWord
    split
    · split
      · rw [← List.prefix_iff_eq_append]
        exact List.takeWhile_prefix _
      · rfl
    · rfl
  simp only [number]
  rw [List.append_assoc, hword]
  exact Digits.scan_append cs

theorem blockComment_append (cs : List Char) :
    (blockComment cs).1.text ++ (blockComment cs).2 = cs := by
  have h := splitComment_append 0 cs
  unfold blockComment
  split
  · rename_i hsplit
    rw [hsplit] at h
    exact h
  · rename_i hsplit
    rw [hsplit] at h
    exact h

/-- A piece and the rest are the text. -/
theorem next?_append {cs rest : List Char} {p : Piece} (h : next? cs = some (p, rest)) :
    p.text ++ rest = cs := by
  unfold next? at h
  split at h
  · cases h
  · rename_i c tail
    replace h := Option.some.inj h
    rw [show p = (p, rest).1 from rfl, show rest = (p, rest).2 from rfl, ← h]
    split
    · exact List.takeWhile_append_dropWhile
    split
    · exact List.takeWhile_append_dropWhile
    split
    · exact blockComment_append _
    split
    · exact List.takeWhile_append_dropWhile
    split
    · exact number_append _
    split
    · rename_i s hs
      have hfront := List.find?_some hs
      rw [List.isPrefixOf_iff_prefix, List.prefix_iff_eq_append] at hfront
      exact hfront
    · rfl

/-- The bytes of all pieces are bytes of the text. -/
theorem byteLength_cut_le (limit : Nat) (cs : List Char) :
    byteLength ((cut limit cs).flatMap text) ≤ byteLength cs := by
  induction limit generalizing cs with
  | zero => exact Nat.zero_le _
  | succ limit ih =>
    unfold cut
    split
    · exact Nat.zero_le _
    · rename_i piece rest hnext
      rw [← next?_append hnext, byteLength_append, List.flatMap_cons, byteLength_append]
      exact Nat.add_le_add_left (ih rest) _

end Piece

end ComputeKernel
