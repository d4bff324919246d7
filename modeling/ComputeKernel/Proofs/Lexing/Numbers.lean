import ComputeKernel.Proofs.Lexing.Account
import ComputeKernel.Shader.Literal
import Mathlib.Data.Rat.Defs

/-!
The numbers that literals denote. An integer is decimal or has a radix mark, a float is decimal, with a
point and a power of ten if it has them; gaps between digits count for nothing. Every number that is
scanned without a fault denotes one.
-/

namespace ComputeKernel

/-- What a numeric literal denotes. -/
inductive Number where
  | integer (value : Nat) (unsigned : Bool)
  | float (value : ℚ)
  deriving DecidableEq

namespace Number

/-! ### Readings -/

/-- A run of digits, at least one. -/
def natural? (radix : Nat) (digits : List Char) : Option Nat :=
  if digits = [] then none else Text.readDigits radix 0 digits

/-- A run of digits with or without a sign. -/
def signed? : List Char → Option ℤ
  | '+' :: digits => (natural? 10 digits).map fun n => (n : ℤ)
  | '-' :: digits => (natural? 10 digits).map fun n => -(n : ℤ)
  | digits => (natural? 10 digits).map fun n => (n : ℤ)

/-- The power of ten behind the digits of a float. -/
def power? : List Char → Option ℤ
  | [] => some 0
  | mark :: rest => if mark = 'e' ∨ mark = 'E' then signed? rest else none

/-- The digits behind a point, if there is one, and what follows. -/
def pointed : List Char → List Char × List Char
  | '.' :: rest => (rest.takeWhile Text.isDigit, rest.dropWhile Text.isDigit)
  | rest => ([], rest)

/-- A decimal number, with a point and a power of ten if it has them. -/
def decimal? (cs : List Char) : Option ℚ :=
  let whole := cs.takeWhile Text.isDigit
  let (fraction, power) := pointed (cs.dropWhile Text.isDigit)
  match natural? 10 (whole ++ fraction), power? power with
  | some n, some e => some (n * 10 ^ (e - fraction.length))
  | _, _ => none

end Number

/-- A number without the gaps between its digits. -/
def withoutGaps (cs : List Char) : List Char := cs.filter (· ≠ '_')

/-- What a literal denotes on the host. -/
def Literal.number? : Literal → Option Number
  | .bool _ => none
  | .integer text suffix =>
    let unsigned := suffix.any (· ∈ Literal.unsignedSuffixes)
    let value := match withoutGaps text.toList with
      | '0' :: 'x' :: digits => Number.natural? 16 digits
      | '0' :: 'b' :: digits => Number.natural? 2 digits
      | '0' :: 'o' :: digits => Number.natural? 8 digits
      | digits => Number.natural? 10 digits
    value.map (.integer · unsigned)
  | .float text _ => (Number.decimal? (withoutGaps text.toList)).map .float

/-! ### Digits -/

namespace Text

theorem isDigitIn_ten (c : Char) : isDigitIn 10 c = isDigit c := by
  unfold isDigitIn digitValue isDigit
  by_cases hdigit : '0' ≤ c ∧ c ≤ '9'
  · have hlt : c.toNat - '0'.toNat < 10 := by
      have hle : c.toNat ≤ '9'.toNat := hdigit.2
      simp only [show '9'.toNat = 57 from rfl, show '0'.toNat = 48 from rfl] at hle ⊢
      omega
    have hvalue : (some (c.toNat - '0'.toNat)).filter (· < 10) = some (c.toNat - '0'.toNat) :=
      Option.filter_some_pos (by simpa using hlt)
    rw [if_pos hdigit, hvalue]
    simp [hdigit]
  · have hfalse : ('0' ≤ c && c ≤ '9') = false := by simpa using hdigit
    rw [if_neg hdigit, hfalse]
    split
    · simp
    split <;> simp

theorem digitValue_lt {radix d : Nat} {c : Char} (h : digitValue radix c = some d) : d < radix := by
  simpa using (Option.filter_eq_some_iff.mp h).2

/-- A digit has one value in all the radices that are greater than it. -/
theorem digitValue_of_lt {radix radix' d : Nat} {c : Char} (h : digitValue radix c = some d)
    (hlt : d < radix') : digitValue radix' c = some d :=
  Option.filter_eq_some_iff.mpr ⟨(Option.filter_eq_some_iff.mp h).1, by simpa using hlt⟩

theorem exists_readDigits {radix : Nat} {cs : List Char} (h : ∀ c ∈ cs, isDigitIn radix c)
    (acc : Nat) : ∃ n, readDigits radix acc cs = some n := by
  induction cs generalizing acc with
  | nil => exact ⟨acc, rfl⟩
  | cons c cs ih =>
    obtain ⟨hc, hcs⟩ := List.forall_mem_cons.mp h
    obtain ⟨d, hd⟩ := Option.isSome_iff_exists.mp hc
    obtain ⟨n, hn⟩ := ih hcs (acc * radix + d)
    exact ⟨n, by rw [readDigits, hd]; exact hn⟩

theorem le_of_readDigits {radix acc n : Nat} (hradix : 0 < radix) {cs : List Char}
    (h : readDigits radix acc cs = some n) : acc ≤ n := by
  induction cs generalizing acc with
  | nil => exact Nat.le_of_eq (Option.some.inj h)
  | cons c cs ih =>
    rw [readDigits] at h
    cases hd : digitValue radix c with
    | none => simp [hd] at h
    | some d =>
      rw [hd] at h
      exact (Nat.le_mul_of_pos_right acc hradix).trans ((Nat.le_add_right _ d).trans (ih h))

theorem readDigits_append {radix acc : Nat} (cs ds : List Char) :
    readDigits radix acc (cs ++ ds) = (readDigits radix acc cs).bind (readDigits radix · ds) := by
  induction cs generalizing acc with
  | nil => rfl
  | cons c cs ih =>
    rw [List.cons_append, readDigits, readDigits]
    cases digitValue radix c with
    | none => rfl
    | some d => exact ih

end Text

/-- The digits that a text begins with, in front of something else. -/
theorem digits_of_append {digits rest : List Char} (hdigits : ∀ c ∈ digits, Text.isDigit c)
    (hrest : ∀ c ∈ rest.head?, ¬ Text.isDigit c) :
    (digits ++ rest).takeWhile Text.isDigit = digits ∧
      (digits ++ rest).dropWhile Text.isDigit = rest := by
  rw [List.takeWhile_append_of_pos hdigits, List.dropWhile_append_of_pos hdigits]
  cases rest with
  | nil => simp
  | cons c rest => simp [hrest c rfl]

namespace Number

theorem exists_natural? {radix : Nat} {digits : List Char} (hne : digits ≠ [])
    (h : ∀ c ∈ digits, Text.isDigitIn radix c) : ∃ n, natural? radix digits = some n := by
  rw [natural?, if_neg hne]
  exact Text.exists_readDigits h 0

theorem exists_natural?_ten {digits : List Char} (hne : digits ≠ [])
    (h : ∀ c ∈ digits, Text.isDigit c) : ∃ n, natural? 10 digits = some n :=
  exists_natural? hne fun c hc => (Text.isDigitIn_ten c).trans (h c hc)

/-! ### Decimal numbers -/

/-- A point with the digits behind it, or nothing. -/
inductive IsPoint : List Char → List Char → Prop
  | none : IsPoint [] []
  | some {digits} : (∀ c ∈ digits, Text.isDigit c) → IsPoint ('.' :: digits) digits

/-- Decimal numbers, and whether they have a point or a power of ten. -/
inductive IsDecimal : List Char → Bool → Prop
  | mk {whole point fraction power e} : whole ≠ [] → (∀ c ∈ whole, Text.isDigit c) →
      IsPoint point fraction → power? power = some e →
      IsDecimal (whole ++ (point ++ power)) (! point.isEmpty || ! power.isEmpty)

/-- A power of ten begins with its mark. -/
theorem head?_of_power? {power : List Char} {e : ℤ} (h : power? power = some e) :
    ∀ c ∈ power.head?, c = 'e' ∨ c = 'E' := by
  cases power with
  | nil => exact nofun
  | cons mark rest =>
    rintro c ⟨⟩
    by_contra hmark
    rw [power?, if_neg hmark] at h
    cases h

theorem not_isDigit_of_power? {power : List Char} {e : ℤ} (h : power? power = some e) :
    ∀ c ∈ power.head?, ¬ Text.isDigit c := by
  intro c hc
  rcases head?_of_power? h c hc with rfl | rfl <;> decide

/-- The value of a decimal number by its parts. -/
theorem decimal?_append {whole point fraction power : List Char} {e : ℤ}
    (hwhole : ∀ c ∈ whole, Text.isDigit c) (hpoint : IsPoint point fraction)
    (hpower : power? power = some e) :
    decimal? (whole ++ (point ++ power)) =
      (natural? 10 (whole ++ fraction)).map fun n => (n : ℚ) * 10 ^ (e - fraction.length) := by
  cases hpoint with
  | none =>
    obtain ⟨htake, hdrop⟩ := digits_of_append hwhole (not_isDigit_of_power? hpower)
    have hpointed : pointed power = ([], power) := by
      unfold pointed
      split
      · rcases head?_of_power? hpower '.' rfl with h | h <;> cases h
      · rfl
    simp only [decimal?, List.nil_append, htake, hdrop, hpointed, hpower]
    cases natural? 10 (whole ++ []) <;> rfl
  | some hfraction =>
    have hapart : ∀ c ∈ ('.' :: (fraction ++ power)).head?, ¬ Text.isDigit c := by
      rintro c ⟨⟩
      decide
    obtain ⟨htake, hdrop⟩ := digits_of_append hwhole hapart
    obtain ⟨htake', hdrop'⟩ := digits_of_append hfraction (not_isDigit_of_power? hpower)
    simp only [decimal?, List.cons_append, htake, hdrop, pointed, htake', hdrop', hpower]
    cases natural? 10 (whole ++ fraction) <;> rfl

/-- Every decimal number has a value. -/
theorem exists_decimal? {cs : List Char} {isFractional : Bool} (h : IsDecimal cs isFractional) :
    ∃ x, decimal? cs = some x := by
  cases h with
  | @mk whole point fraction power e hne hwhole hpoint hpower =>
    have hdigits : ∀ c ∈ whole ++ fraction, Text.isDigit c := by
      intro c hc
      rcases List.mem_append.mp hc with hc | hc
      · exact hwhole c hc
      · cases hpoint with
        | none => cases hc
        | some hfraction => exact hfraction c hc
    obtain ⟨n, hn⟩ := exists_natural?_ten (List.append_ne_nil_of_left_ne_nil hne _) hdigits
    exact ⟨_, (decimal?_append hwhole hpoint hpower).trans (by rw [hn]; rfl)⟩

end Number

open Number (IsPoint IsDecimal)

/-! ### Scanned numbers -/

/-- The radix marks, with the radixes that they stand for. -/
def radixMarks : List (Nat × Char) := [(16, 'x'), (2, 'b'), (8, 'o')]

/-- Numbers as they are scanned without a fault. A suffix makes a float of a number without a point and a
power of ten. -/
inductive Literal.Scanned : Literal → Prop
  | marked {radix mark digits text suffix} : (radix, mark) ∈ radixMarks →
      withoutGaps text.toList = '0' :: mark :: digits → digits ≠ [] →
      (∀ c ∈ digits, Text.isDigitIn radix c) → Scanned (.integer text suffix)
  | whole {text suffix} : IsDecimal (withoutGaps text.toList) false → Scanned (.integer text suffix)
  | float {text suffix isFractional} : IsDecimal (withoutGaps text.toList) isFractional →
      (suffix = none → isFractional) → Scanned (.float text suffix)

theorem withoutGaps_append (cs ds : List Char) :
    withoutGaps (cs ++ ds) = withoutGaps cs ++ withoutGaps ds := List.filter_append _ _

theorem withoutGaps_cons {c : Char} (h : c ≠ '_') (cs : List Char) :
    withoutGaps (c :: cs) = c :: withoutGaps cs := List.filter_cons_of_pos (by simpa using h)

theorem ne_gap_of_isDigit {c : Char} (h : Text.isDigit c) : c ≠ '_' := by
  rintro rfl
  revert h
  decide

/-- What is left of a run of digits and gaps are digits. -/
theorem isDigit_of_mem_withoutGaps {cs : List Char} :
    ∀ c ∈ withoutGaps (cs.takeWhile isDigitOrGap), Text.isDigit c := by
  intro c hc
  obtain ⟨hmem, hgap⟩ := List.mem_filter.mp hc
  have hdigit := List.all_eq_true.mp List.all_takeWhile c hmem
  simp only [isDigitOrGap, Bool.or_eq_true, decide_eq_true_eq] at hdigit hgap
  exact hdigit.resolve_right hgap

theorem withoutGaps_run_ne_nil {c : Char} (hc : Text.isDigit c) (cs : List Char) :
    withoutGaps ((c :: cs).takeWhile isDigitOrGap) ≠ [] := by
  rw [List.takeWhile_cons_of_pos (by simp [isDigitOrGap, hc]),
    withoutGaps_cons (ne_gap_of_isDigit hc)]
  exact List.cons_ne_nil _ _

namespace Digits

theorem withoutGaps_of_fraction? {cs text rest : List Char} (h : fraction? cs = some (text, rest)) :
    ∃ fraction, withoutGaps text = '.' :: fraction ∧ ∀ c ∈ fraction, Text.isDigit c := by
  revert h
  fun_cases fraction? cs with
  | case1 c rest' hdigit =>
    rintro ⟨⟩
    rw [withoutGaps_cons (by decide)]
    exact ⟨_, rfl, isDigit_of_mem_withoutGaps⟩
  | case2 | case5 =>
    intro h
    cases h
  | case3 | case4 =>
    rintro ⟨⟩
    exact ⟨[], rfl, List.forall_mem_nil _⟩

/-- A run of digits has a value behind a sign or without one. -/
theorem exists_signed? {sign digits : List Char} (hsign : sign ∈ [[], ['+'], ['-']])
    (hne : digits ≠ []) (hdigits : ∀ c ∈ digits, Text.isDigit c) :
    ∃ e, Number.signed? (sign ++ digits) = some e := by
  obtain ⟨n, hn⟩ := Number.exists_natural?_ten hne hdigits
  simp only [List.mem_cons, List.not_mem_nil, or_false] at hsign
  rcases hsign with rfl | rfl | rfl
  · refine ⟨n, ?_⟩
    unfold Number.signed?
    split
    · exact absurd (hdigits '+' (by simp_all)) (by decide)
    · exact absurd (hdigits '-' (by simp_all)) (by decide)
    · rw [List.nil_append, hn]
      rfl
  · exact ⟨n, by simp [Number.signed?, hn]⟩
  · exact ⟨-n, by simp [Number.signed?, hn]⟩

theorem power?_of_exponent? {cs text rest : List Char} (h : exponent? cs = some (text, rest)) :
    ∃ mark tail e, withoutGaps text = mark :: tail ∧ Number.power? (mark :: tail) = some e := by
  revert h
  fun_cases exponent? cs with
  | case1 mark tail hmark sign digits c rest' hdigits hc =>
    have hsign : sign ∈ [[], ['+'], ['-']] := by
      simp only [sign]
      split <;> simp
    have hsignGaps : ∀ sign ∈ [[], ['+'], ['-']], withoutGaps sign = sign := by decide
    simp only [Bool.or_eq_true, decide_eq_true_eq] at hmark
    have hgap : mark ≠ '_' := by
      rcases hmark with rfl | rfl <;> decide
    obtain ⟨e, he⟩ := exists_signed? hsign (withoutGaps_run_ne_nil hc rest')
      isDigit_of_mem_withoutGaps
    rw [hdigits]
    rintro ⟨⟩
    refine ⟨mark, sign ++ withoutGaps ((c :: rest').takeWhile isDigitOrGap), e, ?_, ?_⟩
    · rw [List.cons_append, withoutGaps_cons hgap, withoutGaps_append, hsignGaps sign hsign]
    · rw [Number.power?, if_pos hmark]
      exact he
  | case2 | case3 | case4 | case5 =>
    intro h
    cases h

/-- A number without a radix mark is decimal, and a float if it has a point or a power of ten. -/
theorem isDecimal_decimal {c : Char} (hc : Text.isDigit c) (cs : List Char) :
    IsDecimal (withoutGaps (decimal (c :: cs)).text) (decimal (c :: cs)).isFloat := by
  have hwhole := withoutGaps_run_ne_nil hc cs
  have hdigits : ∀ d ∈ withoutGaps ((c :: cs).takeWhile isDigitOrGap), Text.isDigit d :=
    isDigit_of_mem_withoutGaps
  have hnothing : Number.power? [] = some 0 := rfl
  unfold decimal
  rcases hpoint : fraction? ((c :: cs).dropWhile isDigitOrGap) with _ | ⟨point, rest⟩
  · rcases hpower : exponent? ((c :: cs).dropWhile isDigitOrGap) with _ | ⟨power, rest⟩
    · simpa [hpoint, hpower] using IsDecimal.mk hwhole hdigits .none hnothing
    · obtain ⟨mark, tail, e, hgapless, he⟩ := power?_of_exponent? hpower
      have := IsDecimal.mk hwhole hdigits .none he
      simpa [hpoint, hpower, withoutGaps_append, hgapless] using this
  · obtain ⟨fraction, hpointed, hfraction⟩ := withoutGaps_of_fraction? hpoint
    rcases hpower : exponent? rest with _ | ⟨power, rest'⟩
    · have := IsDecimal.mk hwhole hdigits (.some hfraction) hnothing
      simpa [hpoint, hpower, withoutGaps_append, hpointed] using this
    · obtain ⟨mark, tail, e, hscaled, he⟩ := power?_of_exponent? hpower
      have := IsDecimal.mk hwhole hdigits (.some hfraction) he
      simpa [hpoint, hpower, withoutGaps_append, hpointed, hscaled] using this

/-- Behind a radix mark, a number without faults has digits of the radix, at least one. -/
theorem withoutGaps_marked {radix : Nat} {mark : Char} (hmark : mark ≠ '_') {cs : List Char}
    (hfaults : (marked radix ['0', mark] cs).faults = []) :
    (marked radix ['0', mark] cs).isFloat = false ∧ ∃ digits,
      withoutGaps (marked radix ['0', mark] cs).text = '0' :: mark :: digits ∧ digits ≠ [] ∧
        ∀ c ∈ digits, Text.isDigitIn radix c := by
  unfold marked at hfaults ⊢
  simp only at hfaults ⊢
  split at hfaults
  · cases hfaults
  split at hfaults
  · cases hfaults
  rename_i hsome
  rw [if_neg hsome]
  refine ⟨rfl, withoutGaps (cs.takeWhile fun c => c = '_' || Text.isDigitIn radix c), ?_, ?_, ?_⟩
  · simp only [List.cons_append, List.nil_append]
    rw [withoutGaps_cons (by decide), withoutGaps_cons hmark]
  · intro hnil
    refine hsome (List.all_eq_true.mpr fun c hc => ?_)
    by_contra hgap
    have : c ∈ withoutGaps (cs.takeWhile fun c => c = '_' || Text.isDigitIn radix c) :=
      List.mem_filter.mpr ⟨hc, by simpa using hgap⟩
    rw [hnil] at this
    cases this
  · intro c hc
    obtain ⟨hmem, hgap⟩ := List.mem_filter.mp hc
    have hdigit := List.all_eq_true.mp List.all_takeWhile c hmem
    simp only [Bool.or_eq_true, decide_eq_true_eq] at hdigit hgap
    exact hdigit.resolve_left hgap

/-- How a number without faults is written. -/
inductive Sound (d : Digits) : Prop
  | decimal : d.isMarked = false → IsDecimal (withoutGaps d.text) d.isFloat → Sound d
  | marked {radix mark digits} : d.isMarked = true → d.isFloat = false →
      (radix, mark) ∈ radixMarks → withoutGaps d.text = '0' :: mark :: digits → digits ≠ [] →
      (∀ c ∈ digits, Text.isDigitIn radix c) → Sound d

theorem isMarked_marked (radix : Nat) (mark cs : List Char) :
    (marked radix mark cs).isMarked = true := by
  unfold marked
  simp only
  split
  · rfl
  · split <;> rfl

theorem sound_marked {radix : Nat} {mark : Char} (hmark : (radix, mark) ∈ radixMarks)
    (hgap : mark ≠ '_') {cs : List Char} (hfaults : (marked radix ['0', mark] cs).faults = []) :
    (marked radix ['0', mark] cs).Sound := by
  obtain ⟨hfloat, digits, htext, hne, hdigits⟩ := withoutGaps_marked hgap hfaults
  exact .marked (isMarked_marked _ _ _) hfloat hmark htext hne hdigits

theorem sound_scan {c : Char} (hc : Text.isDigit c) {cs : List Char}
    (hfaults : (scan (c :: cs)).faults = []) : (scan (c :: cs)).Sound := by
  unfold scan at hfaults ⊢
  split at hfaults
  · exact sound_marked (by decide) (by decide) hfaults
  · exact sound_marked (by decide) (by decide) hfaults
  · exact sound_marked (by decide) (by decide) hfaults
  · exact .decimal rfl (isDecimal_decimal hc cs)

end Digits

/-- The literal that a number spells. -/
def Lexeme.number? : Lexeme → Option Literal
  | .integer text suffix => some (.integer text suffix)
  | .float text suffix => some (.float text suffix)
  | _ => none

theorem Digits.Sound.integer {digits : Digits} (h : digits.Sound) (hfloat : ¬ digits.isFloat)
    (suffix : Option String) : (Literal.integer (String.ofList digits.text) suffix).Scanned := by
  cases h with
  | decimal _ hdecimal =>
    rw [Bool.eq_false_iff.mpr hfloat] at hdecimal
    exact .whole (by rwa [String.toList_ofList])
  | marked _ _ hmark htext hne hdigits =>
    exact .marked hmark (by rwa [String.toList_ofList]) hne hdigits

theorem Digits.Sound.float {digits : Digits} (h : digits.Sound) (hmarked : ¬ digits.isMarked)
    {suffix : Option String} (hsuffix : suffix = none → digits.isFloat) :
    (Literal.float (String.ofList digits.text) suffix).Scanned := by
  cases h with
  | decimal _ hdecimal => exact .float (by rwa [String.toList_ofList]) hsuffix
  | marked hmark => exact absurd hmark hmarked

theorem scanned_of_numberLexeme {digits : Digits} (hsound : digits.Sound) {suffix : Option String}
    (hfits : (numberLexeme digits suffix).2) {l : Literal}
    (hl : (numberLexeme digits suffix).1.number? = some l) : l.Scanned := by
  unfold numberLexeme at hfits hl
  cases suffix with
  | none =>
    by_cases hfloat : digits.isFloat
    · simp only [if_pos hfloat, Lexeme.number?, Option.some.injEq] at hl
      subst hl
      refine hsound.float (fun hmarked => ?_) fun _ => hfloat
      cases hsound with
      | decimal hdecimal => simp [hdecimal] at hmarked
      | marked _ hwhole => simp [hwhole] at hfloat
    · simp only [if_neg hfloat, Lexeme.number?, Option.some.injEq] at hl
      exact hl ▸ hsound.integer hfloat none
  | some s =>
    simp only at hfits hl
    by_cases hfloat : s ∈ floatSuffixes ∧ ¬ digits.isMarked
    · rw [if_pos hfloat] at hl
      obtain rfl := Option.some.inj hl
      exact hsound.float hfloat.2 nofun
    rw [if_neg hfloat] at hfits hl
    by_cases hinteger : s ∈ integerSuffixes ∧ ¬ digits.isFloat
    · rw [if_pos hinteger] at hl
      obtain rfl := Option.some.inj hl
      exact hsound.integer hinteger.2 _
    · rw [if_neg hinteger] at hfits
      cases hfits

namespace Piece

theorem exists_next?_of_mem_cut {limit : Nat} {cs : List Char} {p : Piece} (hp : p ∈ cut limit cs) :
    ∃ cs' rest, next? cs' = some (p, rest) := by
  induction limit generalizing cs with
  | zero => cases hp
  | succ limit ih =>
    unfold cut at hp
    split at hp
    · cases hp
    · rename_i piece rest hnext
      rcases List.mem_cons.mp hp with rfl | hp
      · exact ⟨_, _, hnext⟩
      · exact ih hp

/-- Only a text that begins with a digit is cut into a number. -/
theorem number_of_next? {cs rest : List Char} {p : Piece} (h : next? cs = some (p, rest))
    {lexeme : Lexeme} (hlexeme : p.lexeme = some lexeme) {l : Literal} (hl : lexeme.number? = some l) :
    ∃ c tail, Text.isDigit c ∧ p = (number (c :: tail)).1 := by
  unfold next? at h
  split at h
  · cases h
  rename_i c tail
  replace h := Option.some.inj h
  split at h
  · cases h
    cases hlexeme
  split at h
  · cases h
    cases hlexeme
  split at h
  · rw [blockComment] at h
    split at h <;> (cases h; cases hlexeme)
  split at h
  · cases h
    obtain rfl := Option.some.inj hlexeme
    unfold Lexeme.ofWord at hl
    split at hl <;> cases hl
  split at h
  · rename_i hc
    exact ⟨c, tail, hc, congrArg Prod.fst h.symm⟩
  split at h
  · cases h
    obtain rfl := Option.some.inj hlexeme
    cases hl
  · cases h
    cases hlexeme

/-- Every number of a source that is scanned without a fault is written as numbers are. -/
theorem scanned_of_mem_pieces {cs : List Char} {p : Piece} (hp : p ∈ pieces cs)
    (hfaults : p.faults = []) {lexeme : Lexeme} (hlexeme : p.lexeme = some lexeme) {l : Literal}
    (hl : lexeme.number? = some l) : l.Scanned := by
  obtain ⟨cs', rest, hnext⟩ := exists_next?_of_mem_cut hp
  obtain ⟨c, tail, hc, rfl⟩ := number_of_next? hnext hlexeme hl
  simp only [number, List.append_eq_nil_iff, ite_eq_left_iff, List.cons_ne_nil, imp_false,
    Bool.not_eq_true, Bool.not_eq_false] at hfaults
  obtain rfl := Option.some.inj hlexeme
  exact scanned_of_numberLexeme (Digits.sound_scan hc hfaults.1) hfaults.2 hl

end Piece

end ComputeKernel
