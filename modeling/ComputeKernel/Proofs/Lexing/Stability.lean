import ComputeKernel.Proofs.Lexing.Account
import ComputeKernel.Proofs.Lexing.Numbers

/-!
Stability of lexemes. How far a lexeme reaches is settled by its own characters and by the one behind
it, and white space ends a lexeme wherever it stands. So a lexeme stays what it is if the text behind it
is replaced by one that begins in the same way or with white space. The point behind an integer is the
exception: whether it belongs to the number is settled by the character behind the point.
-/

namespace ComputeKernel

/-- Whether a text begins like another or with white space. -/
def Near (cs cs' : List Char) : Prop := ∀ c ∈ cs'.head?, Text.isSpace c ∨ c ∈ cs.head?

theorem Near.refl (cs : List Char) : Near cs cs := fun _ hc => .inr hc

theorem Near.append {cs cs' : List Char} (h : Near cs cs') (front : List Char) :
    Near (front ++ cs) (front ++ cs') := by
  cases front with
  | nil => exact h
  | cons c front => exact .refl (c :: (front ++ cs))

theorem Near.not_head {cs cs' : List Char} (h : Near cs cs') {p : Char → Prop}
    (hspace : ∀ c, Text.isSpace c → ¬ p c) (hcs : ∀ c ∈ cs.head?, ¬ p c) : ∀ c ∈ cs'.head?, ¬ p c :=
  fun c hc => (h c hc).elim (hspace c) (hcs c)

theorem eq_of_isSpace {c : Char} (h : Text.isSpace c) :
    c = ' ' ∨ c = '\t' ∨ c = '\n' ∨ c = '\x0c' ∨ c = '\r' := by
  simpa only [Text.isSpace, Bool.or_eq_true, decide_eq_true_eq, or_assoc] using h

theorem not_isIdentContinue_of_isSpace {c : Char} (h : Text.isSpace c) : ¬ isIdentContinue c := by
  rcases eq_of_isSpace h with rfl | rfl | rfl | rfl | rfl <;> decide

/-- What a text begins with up to one character behind `text`, it begins with whatever is near. -/
theorem prefix_of_near {front text rest rest' : List Char} (hspace : ∀ c ∈ front, ¬ Text.isSpace c)
    (hlength : front.length ≤ text.length + 1) (hnear : Near rest rest')
    (h : front <+: text ++ rest') : front <+: text ++ rest := by
  rcases List.prefix_or_prefix_of_prefix h (List.prefix_append text rest') with hfront | hfront
  · exact hfront.trans (List.prefix_append _ _)
  · obtain ⟨tail, rfl⟩ := hfront
    rw [List.prefix_append_right_inj] at h ⊢
    match tail with
    | [] => exact List.nil_prefix
    | [c] =>
      obtain ⟨back, rfl⟩ := h
      have hc := (hnear c rfl).resolve_left (hspace c (by simp))
      obtain ⟨back', rfl⟩ := List.head?_eq_some_iff.mp hc
      exact ⟨back', rfl⟩
    | c :: d :: tail =>
      simp only [List.length_append, List.length_cons] at hlength
      omega

/-! ### Words -/

/-- A run of characters of a kind ends where it did. -/
theorem span_near {p : Char → Bool} (hspace : ∀ c, Text.isSpace c → ¬ p c) {cs cs' : List Char}
    (h : Near (cs.dropWhile p) cs') :
    (cs.takeWhile p ++ cs').takeWhile p = cs.takeWhile p ∧
      (cs.takeWhile p ++ cs').dropWhile p = cs' := by
  have hall : ∀ c ∈ cs.takeWhile p, p c := fun c hc => List.all_eq_true.mp List.all_takeWhile c hc
  have hends : ∀ c ∈ cs'.head?, ¬ p c := by
    refine h.not_head hspace fun c hc => ?_
    have hnot := List.head?_dropWhile_not p cs
    rw [Option.mem_def.mp hc] at hnot
    simpa using hnot
  rw [List.takeWhile_append_of_pos hall, List.dropWhile_append_of_pos hall]
  cases cs' with
  | nil => simp
  | cons c cs' => simp [hends c rfl]

theorem not_isIdentStart_of_isSpace {c : Char} (h : Text.isSpace c) : ¬ isIdentStart c :=
  fun hstart => not_isIdentContinue_of_isSpace h (isIdentContinue_of_isIdentStart hstart)

theorem suffixWord_of_isIdentStart {c : Char} (h : isIdentStart c) (cs : List Char) :
    suffixWord (c :: cs) = (c :: cs).takeWhile isIdentContinue := by simp [suffixWord, h]

theorem suffixWord_of_not_head {cs : List Char} (h : ∀ c ∈ cs.head?, ¬ isIdentStart c) :
    suffixWord cs = [] := by
  cases cs with
  | nil => rfl
  | cons c cs => simp [suffixWord, h c rfl]

theorem not_isIdentStart_of_suffixWord {cs : List Char} (h : suffixWord cs = []) :
    ∀ c ∈ cs.head?, ¬ isIdentStart c := by
  intro c hc hstart
  obtain ⟨tail, rfl⟩ := List.head?_eq_some_iff.mp hc
  rw [suffixWord_of_isIdentStart hstart,
    List.takeWhile_cons_of_pos (isIdentContinue_of_isIdentStart hstart)] at h
  cases h

theorem suffixWord_append (cs : List Char) :
    suffixWord cs ++ cs.drop (suffixWord cs).length = cs := by
  rw [← List.prefix_iff_eq_append]
  unfold suffixWord
  split
  · split
    · exact List.takeWhile_prefix _
    · exact List.nil_prefix
  · exact List.nil_prefix

theorem isIdentStart_of_suffixWord {cs word : List Char} {c : Char} (h : suffixWord cs = c :: word) :
    isIdentStart c := by
  have hhead : cs.head? = some c := by
    rw [← suffixWord_append cs, h]
    rfl
  by_contra hstart
  rw [suffixWord_of_not_head fun d hd => ?_] at h
  · cases h
  · obtain rfl := Option.some.inj (hhead.symm.trans hd)
    exact hstart

theorem suffixWord_near {cs rest : List Char} (h : Near (cs.drop (suffixWord cs).length) rest) :
    suffixWord (suffixWord cs ++ rest) = suffixWord cs := by
  by_cases hstart : ∃ c ∈ cs.head?, isIdentStart c
  · obtain ⟨c, hc, hstart⟩ := hstart
    obtain ⟨tail, rfl⟩ := List.head?_eq_some_iff.mp hc
    have happend := suffixWord_append (c :: tail)
    rw [suffixWord_of_isIdentStart hstart] at h happend ⊢
    rw [List.append_cancel_left (happend.trans List.takeWhile_append_dropWhile.symm)] at h
    have hspan := (span_near (fun _ => not_isIdentContinue_of_isSpace) h).1
    rw [List.takeWhile_cons_of_pos (isIdentContinue_of_isIdentStart hstart)] at hspan ⊢
    exact (suffixWord_of_isIdentStart hstart _).trans hspan
  · have hcs : ∀ c ∈ cs.head?, ¬ isIdentStart c := fun c hc hc' => hstart ⟨c, hc, hc'⟩
    rw [suffixWord_of_not_head hcs] at h ⊢
    exact suffixWord_of_not_head (h.not_head (fun _ => not_isIdentStart_of_isSpace) hcs)

/-! ### Numbers -/

namespace Digits

theorem not_isDigit_of_isSpace {c : Char} (h : Text.isSpace c) : ¬ Text.isDigit c :=
  fun hdigit => not_isIdentContinue_of_isSpace h (isIdentContinue_of_isDigit hdigit)

theorem not_isDigitOrGap_of_isSpace {c : Char} (h : Text.isSpace c) : ¬ isDigitOrGap c :=
  fun hdigit => not_isIdentContinue_of_isSpace h (isIdentContinue_of_isDigitOrGap hdigit)

theorem isDigitOrGap_of_isDigit {c : Char} (h : Text.isDigit c) : isDigitOrGap c := by
  simp [isDigitOrGap, h]

/-- A point with neither a digit nor a name nor a point behind it is a fraction. -/
theorem fraction?_point {cs : List Char}
    (h : ∀ c ∈ cs.head?, ¬ (Text.isDigit c || (c = '.' || isIdentStart c))) :
    fraction? ('.' :: cs) = some (['.'], cs) := by
  cases cs with
  | nil => rfl
  | cons c cs =>
    obtain ⟨hdigit, hname⟩ := not_or.mp (mt Bool.or_eq_true_iff.mpr (h c rfl))
    simp only [fraction?, if_neg hdigit, if_neg hname]

/-- Whether a point is left to what follows is settled by the character behind it. -/
theorem exists_of_fraction?_point {cs : List Char} (h : fraction? ('.' :: cs) = none) :
    ∃ c rest, cs = c :: rest ∧ ∀ rest', fraction? ('.' :: c :: rest') = none := by
  cases cs with
  | nil => cases h
  | cons c cs =>
    simp only [fraction?] at h
    split at h
    · cases h
    rename_i hdigit
    split at h
    · rename_i hname
      exact ⟨c, cs, rfl, fun _ => by simp only [fraction?, if_neg hdigit, if_pos hname]⟩
    · cases h

theorem fraction?_near {cs text rest rest' : List Char} (h : fraction? cs = some (text, rest))
    (hnear : Near rest rest') : fraction? (text ++ rest') = some (text, rest') := by
  have hspace : ∀ c, Text.isSpace c → ¬ (Text.isDigit c || (c = '.' || isIdentStart c)) := by
    intro c hc
    rcases eq_of_isSpace hc with rfl | rfl | rfl | rfl | rfl <;> decide
  revert h
  fun_cases fraction? cs with
  | case1 c tail hdigit =>
    rintro ⟨⟩
    obtain ⟨htake, hdrop⟩ := span_near (fun _ => not_isDigitOrGap_of_isSpace) hnear
    rw [List.takeWhile_cons_of_pos (isDigitOrGap_of_isDigit hdigit)] at htake hdrop ⊢
    simp only [List.cons_append] at htake hdrop ⊢
    simp only [fraction?, hdigit, if_true, htake, hdrop]
  | case2 | case5 =>
    intro h
    cases h
  | case3 c tail hdigit hname =>
    rintro ⟨⟩
    refine fraction?_point (hnear.not_head hspace fun d hd => ?_)
    obtain rfl : c = d := by simpa using hd
    simp [hdigit, hname]
  | case4 =>
    rintro ⟨⟩
    refine fraction?_point (hnear.not_head hspace fun d hd => ?_)
    cases hd

/-- An exponent is a mark, at most a sign, and digits. -/
theorem exponent?_of_isDigit {e c : Char} {sign : List Char} (he : e = 'e' || e = 'E')
    (hsign : sign ∈ [[], ['+'], ['-']]) (hc : Text.isDigit c) (cs : List Char) :
    exponent? (e :: (sign ++ c :: cs)) = some
      (e :: (sign ++ (c :: cs).takeWhile isDigitOrGap), (c :: cs).dropWhile isDigitOrGap) := by
  have hplus : c ≠ '+' := by rintro rfl; exact absurd hc (by decide)
  have hminus : c ≠ '-' := by rintro rfl; exact absurd hc (by decide)
  simp only [List.mem_cons, List.not_mem_nil, or_false] at hsign
  rcases hsign with rfl | rfl | rfl
  · simp only [exponent?, if_pos he]
    split <;> simp_all
  · simp only [exponent?, if_pos he]
    simp [hc]
  · simp only [exponent?, if_pos he]
    simp [hc]

theorem exists_of_exponent? {cs text rest : List Char} (h : exponent? cs = some (text, rest)) :
    ∃ e sign c tail, (e = 'e' || e = 'E') ∧ sign ∈ [[], ['+'], ['-']] ∧ Text.isDigit c ∧
      text = e :: (sign ++ (c :: tail).takeWhile isDigitOrGap) ∧
        rest = (c :: tail).dropWhile isDigitOrGap := by
  revert h
  fun_cases exponent? cs with
  | case1 e tail he sign digits c rest' hdigits hc =>
    have hsign : sign ∈ [[], ['+'], ['-']] := by
      simp only [sign]
      split <;> simp
    rw [hdigits]
    rintro ⟨⟩
    exact ⟨e, sign, c, rest', he, hsign, hc, rfl, rfl⟩
  | case2 | case3 | case4 | case5 =>
    intro h
    cases h

theorem exponent?_near {cs text rest rest' : List Char} (h : exponent? cs = some (text, rest))
    (hnear : Near rest rest') : exponent? (text ++ rest') = some (text, rest') := by
  obtain ⟨e, sign, c, tail, he, hsign, hc, rfl, rfl⟩ := exists_of_exponent? h
  obtain ⟨htake, hdrop⟩ := span_near (fun _ => not_isDigitOrGap_of_isSpace) hnear
  rw [List.takeWhile_cons_of_pos (isDigitOrGap_of_isDigit hc)] at htake hdrop ⊢
  rw [List.cons_append] at htake hdrop
  have hrun := exponent?_of_isDigit he hsign hc (tail.takeWhile isDigitOrGap ++ rest')
  rw [htake, hdrop] at hrun
  rw [List.cons_append, List.append_assoc, List.cons_append]
  exact hrun

theorem exponent?_of_not_head {cs : List Char} (h : ∀ c ∈ cs.head?, ¬ (c = 'e' || c = 'E')) :
    exponent? cs = none := by
  cases cs with
  | nil => rfl
  | cons c cs => simp only [exponent?, if_neg (h c rfl)]

theorem fraction?_of_not_head {cs : List Char} (h : ∀ c ∈ cs.head?, c ≠ '.') :
    fraction? cs = none := by
  cases cs with
  | nil => rfl
  | cons c cs =>
    unfold fraction?
    split
    · rename_i heq
      exact absurd (List.cons.inj heq).1 (h c rfl)
    · rfl

theorem not_exponentMark_of_isSpace {c : Char} (h : Text.isSpace c) : ¬ (c = 'e' || c = 'E') := by
  rcases eq_of_isSpace h with rfl | rfl | rfl | rfl | rfl <;> decide

/-- A decimal number ends where it did, unless what stands behind it makes it have a point. -/
theorem decimal_near {cs rest : List Char} (hnear : Near (decimal cs).rest rest)
    (hexponent : ∀ c ∈ (decimal cs).rest.head?, ¬ (c = 'e' || c = 'E'))
    (hfraction : (decimal cs).isFloat = false → fraction? (decimal cs).rest = none →
      fraction? rest = none) :
    decimal ((decimal cs).text ++ rest) = { decimal cs with rest } := by
  have hmark := hnear.not_head (fun _ => not_exponentMark_of_isSpace) hexponent
  have hnone := exponent?_of_not_head hmark
  have hspan {rest} := @span_near _ (fun _ => not_isDigitOrGap_of_isSpace) cs rest
  rcases hpoint : fraction? (cs.dropWhile isDigitOrGap) with _ | ⟨point, rest₁⟩
  · rcases hpower : exponent? (cs.dropWhile isDigitOrGap) with _ | ⟨power, rest₂⟩
    · have hdecimal : decimal cs =
          ⟨cs.takeWhile isDigitOrGap, false, false, [], cs.dropWhile isDigitOrGap⟩ := by
        simp [decimal, hpoint, hpower]
      rw [hdecimal] at hnear hfraction ⊢
      obtain ⟨htake, hdrop⟩ := hspan hnear
      simp [decimal, htake, hdrop, hfraction rfl hpoint, hnone]
    · have hdecimal : decimal cs =
          ⟨cs.takeWhile isDigitOrGap ++ power, true, false, [], rest₂⟩ := by
        simp [decimal, hpoint, hpower]
      rw [hdecimal] at hnear ⊢
      have hrest := exponent?_append hpower
      obtain ⟨htake, hdrop⟩ := hspan (hrest ▸ hnear.append power)
      have hstart : ∀ c ∈ (power ++ rest).head?, c ≠ '.' := by
        obtain ⟨e, _, _, _, he, _, _, rfl, _⟩ := exists_of_exponent? hpower
        rintro c hc rfl
        obtain rfl : e = '.' := by simpa using hc
        exact absurd he (by decide)
      simp [decimal, htake, hdrop, fraction?_of_not_head hstart, exponent?_near hpower hnear]
  · have hrest₁ := fraction?_append hpoint
    rcases hpower : exponent? rest₁ with _ | ⟨power, rest₂⟩
    · have hdecimal : decimal cs =
          ⟨cs.takeWhile isDigitOrGap ++ point, true, false, [], rest₁⟩ := by
        simp [decimal, hpoint, hpower]
      rw [hdecimal] at hnear ⊢
      obtain ⟨htake, hdrop⟩ := hspan (hrest₁ ▸ hnear.append point)
      simp [decimal, htake, hdrop, fraction?_near hpoint hnear, hnone]
    · have hdecimal : decimal cs =
          ⟨cs.takeWhile isDigitOrGap ++ point ++ power, true, false, [], rest₂⟩ := by
        simp [decimal, hpoint, hpower]
      rw [hdecimal] at hnear ⊢
      have hnear₁ : Near rest₁ (power ++ rest) := exponent?_append hpower ▸ hnear.append power
      obtain ⟨htake, hdrop⟩ := hspan (hrest₁ ▸ hnear₁.append point)
      simp [decimal, htake, hdrop, fraction?_near hpoint hnear₁, exponent?_near hpower hnear]

/-- The characters of a number behind a radix mark. -/
def isRadixDigit (radix : Nat) (c : Char) : Bool := c = '_' || Text.isDigitIn radix c

theorem not_isRadixDigit_of_isSpace {radix : Nat} {c : Char} (h : Text.isSpace c) :
    ¬ isRadixDigit radix c := by
  intro hdigit
  rcases Bool.or_eq_true_iff.mp hdigit with hgap | hdigit
  · obtain rfl := of_decide_eq_true hgap
    exact absurd h (by decide)
  · exact not_isIdentContinue_of_isSpace h (isIdentContinue_of_isDigitIn hdigit)

/-- Digits of the radix, at least one, with no other digit behind them. -/
theorem marked_of_digits {radix : Nat} {mark cs : List Char}
    (hrest : ∀ c ∈ (cs.dropWhile (isRadixDigit radix)).head?, ¬ Text.isDigit c)
    (hdigits : ¬ (cs.takeWhile (isRadixDigit radix)).all (· = '_')) :
    marked radix mark cs = ⟨mark ++ cs.takeWhile (isRadixDigit radix), false, true, [],
      cs.dropWhile (isRadixDigit radix)⟩ := by
  have hnone := Option.filter_eq_none_iff.mpr hrest
  unfold marked
  simp only
  split
  · rename_i hsome
    cases hnone.symm.trans hsome
  split
  · rename_i hgaps
    exact (hdigits hgaps).elim
  · rfl

theorem digits_of_marked {radix : Nat} {mark cs : List Char}
    (h : (marked radix mark cs).faults = []) :
    (∀ c ∈ (cs.dropWhile (isRadixDigit radix)).head?, ¬ Text.isDigit c) ∧
      ¬ (cs.takeWhile (isRadixDigit radix)).all (· = '_') := by
  unfold marked at h
  simp only at h
  split at h
  · cases h
  rename_i hnone
  split at h
  · cases h
  rename_i hsome
  exact ⟨Option.filter_eq_none_iff.mp hnone, hsome⟩

theorem marked_near {radix : Nat} {mark cs rest : List Char}
    (hfaults : (marked radix mark cs).faults = []) (hnear : Near (marked radix mark cs).rest rest) :
    ∃ digits, (marked radix mark cs).text = mark ++ digits ∧
      marked radix mark (digits ++ rest) = { marked radix mark cs with rest } := by
  obtain ⟨hrest, hdigits⟩ := digits_of_marked hfaults
  rw [marked_of_digits hrest hdigits] at hnear ⊢
  obtain ⟨htake, hdrop⟩ := span_near (fun _ => not_isRadixDigit_of_isSpace) hnear
  refine ⟨cs.takeWhile (isRadixDigit radix), rfl, ?_⟩
  rw [marked_of_digits, htake, hdrop]
  · rw [hdrop]
    exact hnear.not_head (fun _ => not_isDigit_of_isSpace) hrest
  · rwa [htake]

theorem scan_of_mark {radix : Nat} {mark : Char} (h : (radix, mark) ∈ radixMarks) (cs : List Char) :
    scan ('0' :: mark :: cs) = marked radix ['0', mark] cs := by
  simp only [radixMarks, List.mem_cons, Prod.mk.injEq, List.not_mem_nil, or_false] at h
  rcases h with ⟨rfl, rfl⟩ | ⟨rfl, rfl⟩ | ⟨rfl, rfl⟩ <;> rfl

theorem scan_of_no_mark {cs : List Char} (h : ∀ m ∈ radixMarks, ¬ ['0', m.2] <+: cs) :
    scan cs = decimal cs := by
  unfold scan
  split
  · exact absurd ⟨_, rfl⟩ (h (16, 'x') (by decide))
  · exact absurd ⟨_, rfl⟩ (h (2, 'b') (by decide))
  · exact absurd ⟨_, rfl⟩ (h (8, 'o') (by decide))
  · rfl

theorem scan_near {c : Char} {cs rest : List Char} (hfaults : (scan (c :: cs)).faults = [])
    (hc : Text.isDigit c) (hnear : Near (scan (c :: cs)).rest rest)
    (hexponent : ∀ d ∈ (scan (c :: cs)).rest.head?, ¬ (d = 'e' || d = 'E'))
    (hfraction : (scan (c :: cs)).isFloat = false → fraction? (scan (c :: cs)).rest = none →
      fraction? rest = none) :
    scan ((scan (c :: cs)).text ++ rest) = { scan (c :: cs) with rest } := by
  by_cases hmark : ∃ m ∈ radixMarks, ['0', m.2] <+: c :: cs
  · obtain ⟨⟨radix, mark⟩, hm, tail, htail⟩ := hmark
    rw [← htail] at hfaults hnear ⊢
    simp only [List.cons_append, List.nil_append] at hfaults hnear ⊢
    rw [scan_of_mark hm] at hfaults hnear ⊢
    obtain ⟨digits, htext, hrun⟩ := marked_near hfaults hnear
    refine Eq.trans ?_ ((scan_of_mark hm _).trans hrun)
    rw [htext, List.append_assoc]
    rfl
  · have hno : ∀ m ∈ radixMarks, ¬ ['0', m.2] <+: c :: cs := fun m hm h => hmark ⟨m, hm, h⟩
    have hscan := scan_of_no_mark hno
    simp only [hscan] at hnear hexponent hfraction ⊢
    refine Eq.trans (scan_of_no_mark fun m hm h => hno m hm ?_)
      (decimal_near hnear hexponent hfraction)
    have hall : (radixMarks.all fun m => ['0', m.2].all fun d => ! Text.isSpace d) = true := by decide
    have hspace : ∀ m ∈ radixMarks, ∀ d ∈ ['0', m.2], ¬ Text.isSpace d := by
      intro m hm d hd
      have h := List.all_eq_true.mp (List.all_eq_true.mp hall m hm) d hd
      simpa using h
    have hpos : 0 < (decimal (c :: cs)).text.length := by
      obtain ⟨d, tail, htext, _⟩ : IsNumber (decimal (c :: cs)).text := isNumber_decimal hc
      simp [htext]
    rw [← decimal_append (c :: cs)]
    exact prefix_of_near (hspace m hm) (Nat.succ_le_succ hpos) hnear h

end Digits

/-- No suffix begins like an exponent. -/
theorem not_exponentMark_of_fits {digits : Digits} {word : List Char}
    (h : (numberLexeme digits (some (String.ofList word))).2) :
    ∀ c ∈ word.head?, ¬ (c = 'e' || c = 'E') := by
  have hall : ∀ s ∈ floatSuffixes ++ integerSuffixes,
      (s.toList.head?.all fun c => ! (c = 'e' || c = 'E')) = true := by decide +kernel
  have hmem : String.ofList word ∈ floatSuffixes ++ integerSuffixes := by
    unfold numberLexeme at h
    simp only at h
    split at h
    · rename_i hfloat
      exact List.mem_append_left _ hfloat.1
    split at h
    · rename_i hinteger
      exact List.mem_append_right _ hinteger.1
    · cases h
  intro c hc
  have h := hall _ hmem
  rw [String.toList_ofList, Option.mem_def.mp hc, Option.all_some] at h
  simpa using h

/-! ### Symbols -/

namespace Symbol

/-- The longest symbol is one with which the text begins, and no other is longer. -/
theorem longest?_eq_some_iff {cs : List Char} {s : Symbol} :
    longest? cs = some s ↔
      s.chars <+: cs ∧ ∀ t : Symbol, t.chars <+: cs → t.chars.length ≤ s.chars.length := by
  have hsound : ∀ {s}, longest? cs = some s →
      s.chars <+: cs ∧ ∀ t : Symbol, t.chars <+: cs → t.chars.length ≤ s.chars.length := by
    intro s h
    obtain ⟨hs, before, after, hall, hbefore⟩ := List.find?_eq_some_iff_append.mp h
    refine ⟨List.isPrefixOf_iff_prefix.mp hs, fun t ht => ?_⟩
    have hsorted : all.Pairwise fun a b => b.chars.length ≤ a.chars.length := by decide
    rw [hall, List.pairwise_append] at hsorted
    have hmem := t.mem_all
    rw [hall] at hmem
    rcases List.mem_append.mp hmem with hmem | hmem
    · have hnot := hbefore t hmem
      rw [List.isPrefixOf_iff_prefix.mpr ht] at hnot
      cases hnot
    · rcases List.mem_cons.mp hmem with rfl | hmem
      · exact Nat.le_refl _
      · exact (List.pairwise_cons.mp hsorted.2.1).1 t hmem
  refine ⟨hsound, fun ⟨hs, hlongest⟩ => ?_⟩
  cases ht : longest? cs with
  | none =>
    have hnot := List.find?_eq_none.mp ht s s.mem_all
    exact (hnot (List.isPrefixOf_iff_prefix.mpr hs)).elim
  | some t =>
    obtain ⟨htcs, htlongest⟩ := hsound ht
    have hlength := Nat.le_antisymm (hlongest t htcs) (htlongest s hs)
    have hfront := List.prefix_of_prefix_length_le htcs hs hlength.le
    rw [chars_injective (hfront.eq_of_length hlength)]

theorem not_isSpace_of_mem_chars (s : Symbol) : ∀ c ∈ s.chars, ¬ Text.isSpace c := by
  have hall : (s.chars.all fun c => ! Text.isSpace c) = true := by cases s <;> decide
  intro c hc
  simpa using List.all_eq_true.mp hall c hc

/-- A symbol of which another is two characters short begins with a symbol of one character less. -/
theorem exists_shorter (s : Symbol) (h : 2 < s.chars.length) :
    ∃ t : Symbol, t.chars = s.chars.take 2 := by
  cases s <;> first | exact ⟨dotDot, rfl⟩ | exact ⟨shl, rfl⟩ | exact ⟨shr, rfl⟩ | simp [chars] at h

theorem length_chars_le (s : Symbol) : s.chars.length ≤ 3 := by cases s <;> decide

/-- A symbol ends where it did. -/
theorem longest?_near {cs rest rest' : List Char} {s : Symbol}
    (h : longest? cs = some s) (hcs : cs = s.chars ++ rest) (hnear : Near rest rest') :
    longest? (s.chars ++ rest') = some s := by
  obtain ⟨-, hlongest⟩ := longest?_eq_some_iff.mp h
  rw [hcs] at hlongest
  have hshort : ∀ t : Symbol, t.chars <+: s.chars ++ rest' →
      t.chars.length ≤ s.chars.length + 1 → t.chars.length ≤ s.chars.length :=
    fun t ht hlength =>
      hlongest t (prefix_of_near t.not_isSpace_of_mem_chars hlength hnear ht)
  refine longest?_eq_some_iff.mpr ⟨List.prefix_append _ _, fun t ht => ?_⟩
  by_contra hlt
  have hpos := List.length_pos_iff.mpr s.chars_ne_nil
  have hle := t.length_chars_le
  by_cases hlength : t.chars.length ≤ s.chars.length + 1
  · exact hlt (hshort t ht hlength)
  · -- then `s` has one character, and of the three of `t` the first two are a symbol
    obtain ⟨u, hu⟩ := t.exists_shorter (by omega)
    have hulength : u.chars.length = 2 := by
      rw [hu, List.length_take]
      omega
    have := hshort u (hu ▸ (List.take_prefix _ _).trans ht) (by omega)
    omega

end Symbol

/-! ### Pieces -/

namespace Piece

theorem fits_of_number {cs : List Char} (h : (number cs).1.faults = []) :
    (Digits.scan cs).faults = [] ∧
      (numberLexeme (Digits.scan cs) (if (suffixWord (Digits.scan cs).rest).isEmpty then none
        else some (String.ofList (suffixWord (Digits.scan cs).rest)))).2 := by
  simp only [number, List.append_eq_nil_iff, ite_eq_left_iff, List.cons_ne_nil, imp_false,
    not_not] at h
  exact h

/-- A number ends where it did, unless it is an integer that what stands behind it makes have a point. -/
theorem number_near {c : Char} {cs rest rest' : List Char} {p : Piece} (hc : Text.isDigit c)
    (h : number (c :: cs) = (p, rest)) (hfaults : p.faults = []) (hnear : Near rest rest')
    (hfraction : (∃ text suffix, p.lexeme = some (.integer text suffix)) →
      Digits.fraction? rest = none → Digits.fraction? rest' = none) :
    number (p.text ++ rest') = (p, rest') := by
  obtain ⟨rfl, rfl⟩ := Prod.mk.inj h
  obtain ⟨hclean, hfits⟩ := fits_of_number hfaults
  have hword := suffixWord_near hnear
  have hparts := suffixWord_append (Digits.scan (c :: cs)).rest
  have hscan : Digits.scan ((Digits.scan (c :: cs)).text ++
      (suffixWord (Digits.scan (c :: cs)).rest ++ rest')) = { Digits.scan (c :: cs) with
        rest := suffixWord (Digits.scan (c :: cs)).rest ++ rest' } := by
    refine Digits.scan_near hclean hc ?_ ?_ ?_
    · have hnear' := hnear.append (suffixWord (Digits.scan (c :: cs)).rest)
      rwa [hparts] at hnear'
    · intro d hd hmark
      cases hsuffix : suffixWord (Digits.scan (c :: cs)).rest with
      | nil =>
        refine not_isIdentStart_of_suffixWord hsuffix d hd ?_
        rcases Bool.or_eq_true_iff.mp hmark with he | he
        · rw [of_decide_eq_true he]; rfl
        · rw [of_decide_eq_true he]; rfl
      | cons e word =>
        rw [← hparts, hsuffix] at hd
        rw [hsuffix] at hfits
        exact not_exponentMark_of_fits hfits d hd hmark
    · intro hfloat hnone
      cases hsuffix : suffixWord (Digits.scan (c :: cs)).rest with
      | nil =>
        rw [hsuffix] at hfraction
        refine hfraction ⟨String.ofList (Digits.scan (c :: cs)).text, none, ?_⟩ hnone
        simp [hfloat]
      | cons e word =>
        refine Digits.fraction?_of_not_head fun d hd => ?_
        obtain rfl : e = d := by simpa using hd
        rintro rfl
        exact absurd (isIdentStart_of_suffixWord hsuffix) (by decide)
  simp only [number, List.append_assoc, hscan, hword, List.drop_left]
  rfl

/-- What a text is cut into first is settled by how it begins. -/
theorem next?_of_cons {cs tail : List Char} {c : Char} (h : cs = c :: tail) :
    next? cs = some (
      if Text.isSpace c then blank cs
      else if ['/', '/'].isPrefixOf cs then lineComment cs
      else if ['/', '*'].isPrefixOf cs then blockComment cs
      else if isIdentStart c then word cs
      else if Text.isDigit c then number cs
      else match Symbol.longest? cs with
        | some s => symbol s cs
        | none => stray c tail) := by
  rw [h]
  rfl

/-- A piece with a lexeme ends where it did, unless it is an integer that what stands behind it makes
have a point. -/
theorem next?_near {cs rest rest' : List Char} {p : Piece} {l : Lexeme}
    (h : next? cs = some (p, rest)) (hl : p.lexeme = some l) (hfaults : p.faults = [])
    (hnear : Near rest rest')
    (hfraction : (∃ text suffix, l = .integer text suffix) →
      Digits.fraction? rest = none → Digits.fraction? rest' = none) :
    next? (p.text ++ rest') = some (p, rest') := by
  have hparts := next?_append h
  obtain ⟨c, text, htext⟩ := List.exists_cons_of_ne_nil (text_ne_nil_of_next? h)
  have hcomment : ∀ d, ¬ Text.isSpace d → ['/', d].isPrefixOf (p.text ++ rest') →
      ['/', d].isPrefixOf cs := by
    intro d hd hprefix
    rw [List.isPrefixOf_iff_prefix] at hprefix ⊢
    rw [← hparts]
    refine prefix_of_near ?_ ?_ hnear hprefix
    · simpa [hd] using (by decide : ¬ Text.isSpace '/')
    · simp [htext]
  have hcs : cs = c :: (text ++ rest) := by rw [← hparts, htext, List.cons_append]
  have hcs' : p.text ++ rest' = c :: (text ++ rest') := by rw [htext, List.cons_append]
  rw [next?_of_cons hcs] at h
  rw [next?_of_cons hcs']
  replace h := Option.some.inj h
  split at h
  · cases h
    cases hl
  rename_i hspace
  split at h
  · cases h
    cases hl
  rename_i hline
  split at h
  · rw [blockComment] at h
    split at h <;> (cases h; cases hl)
  rename_i hblock
  rw [if_neg hspace, if_neg fun h' => hline (hcomment '/' (by decide) h'),
    if_neg fun h' => hblock (hcomment '*' (by decide) h')]
  split at h
  · rename_i hstart
    rw [if_pos hstart]
    obtain ⟨rfl, rfl⟩ := Prod.mk.inj h
    obtain ⟨htake, hdrop⟩ := span_near (fun _ => not_isIdentContinue_of_isSpace) hnear
    simp only [word, htake, hdrop]
  rename_i hstart
  rw [if_neg hstart]
  split at h
  · rename_i hdigit
    rw [if_pos hdigit]
    rw [hcs] at h
    refine congrArg some (number_near hdigit h hfaults hnear ?_)
    rintro ⟨text, suffix, hinteger⟩
    exact hfraction ⟨text, suffix, Option.some.inj (hl.symm.trans hinteger)⟩
  rename_i hdigit
  rw [if_neg hdigit]
  split at h
  · rename_i s hs
    obtain ⟨rfl, rfl⟩ := Prod.mk.inj h
    have hlongest := Symbol.longest?_near hs hparts.symm hnear
    simp only [hlongest, symbol, List.drop_left]
  · rw [← (Prod.mk.inj h).1] at hl
    cases hl

end Piece

end ComputeKernel
