import ComputeKernel.Proofs.Lexing.Pieces

/-!
How lexemes are spelled. Words are made of letters, digits and underscores and do not begin with a
digit. A number begins with a digit and goes on with letters, digits, underscores, points, and signs
that stand directly behind the mark of an exponent.
-/

namespace ComputeKernel

/-! ### Words and numbers -/

/-- A word of letters, digits and underscores that begins like an identifier. -/
def IsWord (cs : List Char) : Prop :=
  ∃ c rest, cs = c :: rest ∧ isIdentStart c ∧ ∀ d ∈ rest, isIdentContinue d

theorem IsWord.continues {w : List Char} (hw : IsWord w) : ∀ c ∈ w, isIdentContinue c := by
  obtain ⟨c, rest, rfl, hc, hrest⟩ := hw
  exact List.forall_mem_cons.mpr ⟨isIdentContinue_of_isIdentStart hc, hrest⟩

/-- Whether a character behind `prev` belongs to the number of which `prev` is a part. -/
def isNumberChar (prev c : Char) : Bool :=
  isIdentContinue c || c = '.' || ((c = '+' || c = '-') && (prev = 'e' || prev = 'E'))

/-- Whether a text behind `prev` belongs to the number of which `prev` is a part. -/
def NumberTail (prev : Char) : List Char → Prop
  | [] => True
  | c :: cs => isNumberChar prev c ∧ NumberTail c cs

/-- A number with or without its suffix. -/
def IsNumber (cs : List Char) : Prop := ∃ c rest, cs = c :: rest ∧ Text.isDigit c ∧ NumberTail c rest

theorem isIdentContinue_of_isDigit {c : Char} (h : Text.isDigit c) : isIdentContinue c := by
  simp [isIdentContinue, h]

theorem isIdentContinue_of_isDigitOrGap {c : Char} (h : isDigitOrGap c) : isIdentContinue c := by
  simp only [isDigitOrGap, Bool.or_eq_true, decide_eq_true_eq] at h
  rcases h with h | rfl
  · exact isIdentContinue_of_isDigit h
  · rfl

theorem isIdentContinue_of_isDigitIn {radix : Nat} {c : Char} (h : Text.isDigitIn radix c) :
    isIdentContinue c := by
  simp only [Text.isDigitIn, Text.digitValue] at h
  split at h
  · rename_i hc
    exact isIdentContinue_of_isDigit (by simpa [Text.isDigit] using hc)
  split at h
  · rename_i hc
    have : c ≤ 'z' := Char.le_trans hc.2 (by decide)
    simp [isIdentContinue, isIdentStart, hc.1, this]
  split at h
  · rename_i hc
    have : c ≤ 'Z' := Char.le_trans hc.2 (by decide)
    simp [isIdentContinue, isIdentStart, hc.1, this]
  · simp at h

theorem NumberTail.of_continue {prev : Char} {cs : List Char} (h : ∀ c ∈ cs, isIdentContinue c) :
    NumberTail prev cs := by
  induction cs generalizing prev with
  | nil => trivial
  | cons c cs ih =>
    refine ⟨?_, ih fun d hd => h d (List.mem_cons_of_mem c hd)⟩
    simp [isNumberChar, h c List.mem_cons_self]

theorem NumberTail.append {prev : Char} {as bs : List Char} (ha : NumberTail prev as)
    (hb : ∀ c, NumberTail c bs) : NumberTail prev (as ++ bs) := by
  induction as generalizing prev with
  | nil => exact hb prev
  | cons a as ih => exact ⟨ha.1, ih ha.2⟩

theorem IsNumber.append {as bs : List Char} (ha : IsNumber as) (hb : ∀ c, NumberTail c bs) :
    IsNumber (as ++ bs) := by
  obtain ⟨c, rest, rfl, hdigit, hrest⟩ := ha
  exact ⟨c, rest ++ bs, rfl, hdigit, hrest.append hb⟩

/-! ### Scanned numbers -/

theorem numberTail_gaps (c : Char) (cs : List Char) : NumberTail c (cs.takeWhile isDigitOrGap) :=
  NumberTail.of_continue fun _ hd =>
    isIdentContinue_of_isDigitOrGap (List.all_eq_true.mp List.all_takeWhile _ hd)

theorem numberTail_fraction {cs text rest : List Char} (h : Digits.fraction? cs = some (text, rest))
    (c : Char) : NumberTail c text := by
  have hpoint : isNumberChar c '.' := by simp [isNumberChar]
  revert h
  fun_cases Digits.fraction? cs with
  | case1 d rest' hdigit =>
    rintro ⟨⟩
    exact ⟨hpoint, numberTail_gaps _ _⟩
  | case2 | case5 =>
    intro h
    cases h
  | case3 | case4 =>
    rintro ⟨⟩
    exact ⟨hpoint, trivial⟩

theorem numberTail_exponent {cs text rest : List Char} (h : Digits.exponent? cs = some (text, rest))
    (c : Char) : NumberTail c text := by
  cases cs with
  | nil => cases h
  | cons e tail =>
    simp only [Digits.exponent?] at h
    split at h
    · rename_i he
      have hmark : isNumberChar c e := by
        simp only [Bool.or_eq_true, decide_eq_true_eq] at he
        rcases he with rfl | rfl <;> simp [isNumberChar, isIdentContinue, isIdentStart]
      split at h
      · split at h
        · obtain ⟨rfl, rfl⟩ := Prod.mk.inj (Option.some.inj h)
          refine ⟨hmark, ?_⟩
          have hsigned : ∀ sign ∈ ['+', '-'], isNumberChar e sign := by
            simp only [Bool.or_eq_true, decide_eq_true_eq] at he
            simp [isNumberChar, he]
          split
          · exact ⟨hsigned '+' (by simp), numberTail_gaps _ _⟩
          · exact ⟨hsigned '-' (by simp), numberTail_gaps _ _⟩
          · exact numberTail_gaps _ _
        · cases h
      · cases h
    · cases h

theorem isNumber_marked (radix : Nat) (mark : Char) (hmark : isIdentContinue mark)
    (cs : List Char) : IsNumber (Digits.marked radix ['0', mark] cs).text := by
  have hstart : IsNumber (['0', mark] ++ cs.takeWhile fun c => c = '_' || Text.isDigitIn radix c) := by
    refine ⟨'0', _, rfl, rfl, NumberTail.of_continue fun d hd => ?_⟩
    rcases List.mem_cons.mp hd with rfl | hd
    · exact hmark
    · have := List.all_eq_true.mp List.all_takeWhile _ hd
      simp only [Bool.or_eq_true, decide_eq_true_eq] at this
      rcases this with rfl | h
      · rfl
      · exact isIdentContinue_of_isDigitIn h
  unfold Digits.marked
  simp only
  split
  · exact hstart.append fun c => numberTail_gaps c _
  · split <;> exact hstart

theorem isNumber_decimal {c : Char} {cs : List Char} (hc : Text.isDigit c) :
    IsNumber (Digits.decimal (c :: cs)).text := by
  have hwhole : IsNumber ((c :: cs).takeWhile isDigitOrGap) := by
    rw [List.takeWhile_cons_of_pos (by simp [isDigitOrGap, hc])]
    exact ⟨c, _, rfl, hc, numberTail_gaps c cs⟩
  unfold Digits.decimal
  rcases hpoint : Digits.fraction? ((c :: cs).dropWhile isDigitOrGap) with _ | ⟨point, rest⟩
  · rcases hpower : Digits.exponent? ((c :: cs).dropWhile isDigitOrGap) with _ | ⟨power, rest⟩
    · simpa [hpoint, hpower] using hwhole
    · simpa [hpoint, hpower] using hwhole.append (numberTail_exponent hpower)
  · have hpointed := hwhole.append (numberTail_fraction hpoint)
    rcases hpower : Digits.exponent? rest with _ | ⟨power, rest'⟩
    · simpa [hpoint, hpower] using hpointed
    · simpa [hpoint, hpower] using hpointed.append (numberTail_exponent hpower)

theorem isNumber_scan {c : Char} {cs : List Char} (hc : Text.isDigit c) :
    IsNumber (Digits.scan (c :: cs)).text := by
  unfold Digits.scan
  split
  · exact isNumber_marked 16 'x' rfl _
  · exact isNumber_marked 2 'b' rfl _
  · exact isNumber_marked 8 'o' rfl _
  · exact isNumber_decimal hc

/-! ### Lexemes -/

/-- Whether `text` is a spelling of a lexeme. A number is spelled with its suffix. -/
def Lexeme.SpelledBy (text : List Char) : Lexeme → Prop
  | keyword k => text = k.spelling.toList
  | symbol s => text = s.chars
  | integer digits _ | float digits _ => IsNumber digits.toList ∧ digits.toList <+: text
  | ident name => text = name.toList ∧ IsWord text ∧ Keyword.ofWord? name = none
  | endOfInput => False

theorem Lexeme.SpelledBy.ne_nil {text : List Char} {l : Lexeme} (h : l.SpelledBy text) :
    text ≠ [] := by
  rintro rfl
  cases l with
  | keyword k => cases k <;> simp [SpelledBy, Keyword.spelling] at h
  | symbol s => exact s.chars_ne_nil h.symm
  | integer digits _ | float digits _ =>
    obtain ⟨⟨c, rest, hdigits, _⟩, hfront⟩ := h
    rw [hdigits] at hfront
    simp at hfront
  | ident name =>
    obtain ⟨_, ⟨c, rest, hcons, _⟩, _⟩ := h
    cases hcons
  | endOfInput => exact h

theorem Lexeme.spelledBy_ofWord {text : List Char} (h : IsWord text) :
    (ofWord (String.ofList text)).SpelledBy text := by
  unfold ofWord
  split
  · rename_i k hk
    have hspelling := List.find?_some hk
    rw [beq_iff_eq] at hspelling
    simp [SpelledBy, hspelling]
  · rename_i hnone
    exact ⟨by simp, h, hnone⟩

theorem spelledBy_numberLexeme {digits : Digits} {word : List Char} (suffix : Option String)
    (h : IsNumber digits.text) :
    (numberLexeme digits suffix).1.SpelledBy (digits.text ++ word) := by
  have hspelled : IsNumber (String.ofList digits.text).toList ∧
      (String.ofList digits.text).toList <+: digits.text ++ word := by simp [h]
  have hplain (suffix : Option String) : (if digits.isFloat
      then Lexeme.float (String.ofList digits.text) suffix
      else Lexeme.integer (String.ofList digits.text) suffix).SpelledBy (digits.text ++ word) := by
    split <;> exact hspelled
  cases suffix with
  | none => exact hplain none
  | some s =>
    by_cases hfloat : s ∈ floatSuffixes ∧ ¬ digits.isMarked
    · simp only [numberLexeme, if_pos hfloat]
      exact hspelled
    by_cases hinteger : s ∈ integerSuffixes ∧ ¬ digits.isFloat
    · simp only [numberLexeme, if_neg hfloat, if_pos hinteger]
      exact hspelled
    · simp only [numberLexeme, if_neg hfloat, if_neg hinteger]
      exact hplain none

namespace Piece

theorem spelled_of_next? {cs rest : List Char} {p : Piece} {l : Lexeme}
    (h : next? cs = some (p, rest)) (hl : p.lexeme = some l) : l.SpelledBy p.text := by
  unfold next? at h
  split at h
  · cases h
  · rename_i c tail
    replace h := Option.some.inj h
    split at h
    · cases h
      cases hl
    split at h
    · cases h
      cases hl
    split at h
    · rw [blockComment] at h
      split at h <;> (cases h; cases hl)
    split at h
    · rename_i hstart
      cases h
      obtain rfl := Option.some.inj hl
      refine Lexeme.spelledBy_ofWord ?_
      rw [List.takeWhile_cons_of_pos (isIdentContinue_of_isIdentStart hstart)]
      exact ⟨c, _, rfl, hstart, fun d hd => List.all_eq_true.mp List.all_takeWhile d hd⟩
    split at h
    · rename_i hdigit
      obtain rfl := (congrArg Prod.fst h).symm
      obtain rfl := Option.some.inj hl
      exact spelledBy_numberLexeme _ (isNumber_scan hdigit)
    · split at h
      · cases h
        obtain rfl := Option.some.inj hl
        rfl
      · cases h
        cases hl

theorem spelled_of_mem_cut {limit : Nat} {cs : List Char} {p : Piece} {l : Lexeme}
    (hp : p ∈ cut limit cs) (hl : p.lexeme = some l) : l.SpelledBy p.text := by
  induction limit generalizing cs with
  | zero => cases hp
  | succ limit ih =>
    unfold cut at hp
    split at hp
    · cases hp
    · rename_i piece rest hnext
      rcases List.mem_cons.mp hp with rfl | hp
      · exact spelled_of_next? hnext hl
      · exact ih hp

end Piece

end ComputeKernel
