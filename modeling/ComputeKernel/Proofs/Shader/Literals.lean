import ComputeKernel.Proofs.Lexing.Numbers
import ComputeKernel.Proofs.Reading.Names
import Mathlib.Tactic.Ring

/-!
Literals in shader code keep their values. The shader language reads numbers as C does, where a decimal
integer does not begin with a zero: what does is read in radix eight. So every number that is scanned
without a fault denotes the same number in shader code, of the same kind and signedness, unless it is an
integer that is padded with zeros and no less than eight.
-/

namespace ComputeKernel

namespace Number

/-- What a numeric literal denotes in shader code. An integer is marked with `u` if it is unsigned, and
anything else behind the digits makes a float of it. -/
def inShader? (cs : List Char) : Option Number :=
  match cs with
  | '0' :: 'x' :: rest =>
    let mark := rest.dropWhile (Text.isDigitIn 16)
    if mark = [] ∨ mark = ['u'] then
      (natural? 16 (rest.takeWhile (Text.isDigitIn 16))).map (.integer · (mark = ['u']))
    else none
  | _ =>
    let digits := cs.takeWhile Text.isDigit
    let mark := cs.dropWhile Text.isDigit
    if mark = [] ∨ mark = ['u'] then
      (natural? (if digits.head? = some '0' then 8 else 10) digits).map (.integer · (mark = ['u']))
    else (decimal? cs).map .float

/-- The mark of an unsigned integer. -/
def unsignedMark (unsigned : Bool) : List Char := if unsigned then ['u'] else []

theorem inShader?_hexadecimal {digits : List Char} (hdigits : ∀ c ∈ digits, Text.isDigitIn 16 c)
    (unsigned : Bool) : inShader? ('0' :: 'x' :: (digits ++ unsignedMark unsigned)) =
      (natural? 16 digits).map (.integer · unsigned) := by
  have htake : (digits ++ unsignedMark unsigned).takeWhile (Text.isDigitIn 16) = digits := by
    rw [List.takeWhile_append_of_pos hdigits]
    cases unsigned <;> simp [unsignedMark, show Text.isDigitIn 16 'u' = false by decide]
  have hdrop : (digits ++ unsignedMark unsigned).dropWhile (Text.isDigitIn 16) =
      unsignedMark unsigned := by
    rw [List.dropWhile_append_of_pos hdigits]
    cases unsigned <;> simp [unsignedMark, show Text.isDigitIn 16 'u' = false by decide]
  rw [inShader?]
  simp only [htake, hdrop]
  cases unsigned <;> simp [unsignedMark]

/-- The second character of a number without a radix mark is no letter `x`. -/
theorem inShader?_of_no_mark {cs : List Char} (h : ∀ rest, cs ≠ '0' :: 'x' :: rest) :
    inShader? cs =
      if cs.dropWhile Text.isDigit = [] ∨ cs.dropWhile Text.isDigit = ['u'] then
        (natural? (if (cs.takeWhile Text.isDigit).head? = some '0' then 8 else 10)
          (cs.takeWhile Text.isDigit)).map (.integer · (cs.dropWhile Text.isDigit = ['u']))
      else (decimal? cs).map .float := by
  unfold inShader?
  split
  · rename_i rest
    exact absurd rfl (h rest)
  · rfl

theorem inShader?_digits {digits : List Char} (hdigits : ∀ c ∈ digits, Text.isDigit c)
    (unsigned : Bool) : inShader? (digits ++ unsignedMark unsigned) =
      (natural? (if digits.head? = some '0' then 8 else 10) digits).map (.integer · unsigned) := by
  have hmark : ∀ c ∈ (unsignedMark unsigned).head?, ¬ Text.isDigit c := by
    cases unsigned
    · exact nofun
    · rintro c ⟨⟩
      decide
  obtain ⟨htake, hdrop⟩ := digits_of_append hdigits hmark
  rw [inShader?_of_no_mark fun rest heq => ?_, htake, hdrop]
  · cases unsigned <;> simp [unsignedMark]
  · have hx : 'x' ∈ digits ++ unsignedMark unsigned := by simp [heq]
    rcases List.mem_append.mp hx with hx | hx
    · exact absurd (hdigits 'x' hx) (by decide)
    · cases unsigned <;> simp [unsignedMark] at hx

/-- A point or a power of ten makes a float of a number. -/
theorem inShader?_decimal {cs : List Char} (h : IsDecimal cs true) :
    inShader? cs = (decimal? cs).map .float := by
  generalize hfractional : true = isFractional at h
  cases h with
  | @mk whole point fraction power e hne hwhole hpoint hpower =>
    have hrest : ∀ c ∈ (point ++ power).head?, c = '.' ∨ c = 'e' ∨ c = 'E' := by
      cases hpoint with
      | none => exact fun c hc => .inr (head?_of_power? hpower c hc)
      | some => exact fun c hc => .inl (Option.some.inj hc).symm
    have hapart : ∀ c ∈ (point ++ power).head?, ¬ Text.isDigit c := by
      intro c hc
      rcases hrest c hc with rfl | rfl | rfl <;> decide
    obtain ⟨htake, hdrop⟩ := digits_of_append hwhole hapart
    rw [inShader?_of_no_mark, htake, hdrop, if_neg]
    · rintro (hnil | hmark)
      · obtain ⟨rfl, rfl⟩ := List.append_eq_nil_iff.mp hnil
        cases hfractional
      · rw [hmark] at hrest
        simpa using hrest 'u' rfl
    · rintro rest heq
      have hx : ('0' :: 'x' :: rest).dropWhile Text.isDigit = 'x' :: rest := rfl
      rw [heq, hx] at hdrop
      rw [← hdrop] at hrest
      simpa using hrest 'x' rfl

/-- A number with neither a point nor a power of ten is a run of digits. -/
theorem digits_of_isDecimal {cs : List Char} (h : IsDecimal cs false) :
    cs ≠ [] ∧ ∀ c ∈ cs, Text.isDigit c := by
  generalize hfractional : false = isFractional at h
  cases h with
  | @mk whole point fraction power e hne hwhole hpoint hpower =>
    simp only [Bool.false_eq, Bool.or_eq_false_iff, Bool.not_eq_false', List.isEmpty_iff]
      at hfractional
    obtain ⟨rfl, rfl⟩ := hfractional
    rw [List.append_nil, List.append_nil]
    exact ⟨hne, hwhole⟩

/-- A point and a zero behind a whole number make a float of it with the same value. -/
theorem decimal?_append_zero {cs : List Char} (h : IsDecimal cs false) :
    IsDecimal (cs ++ ['.', '0']) true ∧ decimal? (cs ++ ['.', '0']) = decimal? cs := by
  obtain ⟨hne, hdigits⟩ := digits_of_isDecimal h
  have hpoint : IsPoint ['.', '0'] ['0'] := .some (List.forall_mem_singleton.mpr rfl)
  have hnothing : power? [] = some 0 := rfl
  refine ⟨.mk hne hdigits hpoint hnothing, ?_⟩
  have hshort := decimal?_append hdigits .none hnothing
  have hlong := decimal?_append hdigits hpoint hnothing
  simp only [List.append_nil] at hshort hlong
  obtain ⟨n, hn⟩ := exists_natural?_ten hne hdigits
  have hn' : natural? 10 (cs ++ ['0']) = some (n * 10) := by
    rw [natural?, if_neg hne] at hn
    rw [natural?, if_neg (by simp), Text.readDigits_append, hn]
    rfl
  rw [hshort, hlong, hn, hn']
  simp

/-! ### Radix eight and radix ten -/

/-- Digits have no greater value in radix eight than in radix ten, and a smaller one on top of a smaller
number. -/
theorem readDigits_lt {a b m n : Nat} {cs : List Char} (hlt : a < b)
    (hm : Text.readDigits 8 a cs = some m) (hn : Text.readDigits 10 b cs = some n) : m < n := by
  induction cs generalizing a b with
  | nil =>
    obtain rfl := Option.some.inj hm
    obtain rfl := Option.some.inj hn
    exact hlt
  | cons c cs ih =>
    rw [Text.readDigits] at hm hn
    cases hd : Text.digitValue 8 c with
    | none => simp [hd] at hm
    | some d =>
      rw [hd] at hm
      rw [Text.digitValue_of_lt hd ((Text.digitValue_lt hd).trans (by decide))] at hn
      exact ih (by omega) hm hn

/-- Digits have the same value in both radices only if it is less than eight. -/
theorem lt_of_readDigits {a n : Nat} {cs : List Char} (ha : a < 8)
    (h : Text.readDigits 8 a cs = some n) (h' : Text.readDigits 10 a cs = some n) : n < 8 := by
  induction cs generalizing a with
  | nil =>
    obtain rfl := Option.some.inj h
    exact ha
  | cons c cs ih =>
    rw [Text.readDigits] at h h'
    cases hd : Text.digitValue 8 c with
    | none => simp [hd] at h
    | some d =>
      rw [hd] at h
      have hdlt := Text.digitValue_lt hd
      rw [Text.digitValue_of_lt hd (hdlt.trans (by decide))] at h'
      rcases Nat.eq_zero_or_pos a with rfl | hpos
      · simp only [Nat.zero_mul, Nat.zero_add] at h h'
        exact ih hdlt h h'
      · exact absurd (readDigits_lt (by omega) h h') (lt_irrefl n)

/-- Digits with a value less than eight have it in both radices. -/
theorem readDigits_eight {a n : Nat} {cs : List Char} (hn : n < 8)
    (h : Text.readDigits 10 a cs = some n) : Text.readDigits 8 a cs = some n := by
  induction cs generalizing a with
  | nil => exact h
  | cons c cs ih =>
    rw [Text.readDigits] at h ⊢
    cases hd : Text.digitValue 10 c with
    | none => simp [hd] at h
    | some d =>
      rw [hd] at h
      have hle := Text.le_of_readDigits (by decide) h
      obtain rfl : a = 0 := by omega
      rw [Text.digitValue_of_lt hd (by omega)]
      simp only [Nat.zero_mul, Nat.zero_add] at h ⊢
      exact ih h

/-- The digits of a decimal integer that begin with a zero are read as they are meant only if the integer
is less than eight. -/
theorem natural?_eight_iff {digits : List Char} {n : Nat} (h : natural? 10 digits = some n) :
    natural? 8 digits = some n ↔ n < 8 := by
  have hne : digits ≠ [] := by
    rintro rfl
    cases h
  rw [natural?, if_neg hne] at h ⊢
  exact ⟨fun h' => lt_of_readDigits (by decide) h' h, fun hn => readDigits_eight hn h⟩

/-- A run of digits is read as the decimal integer that it denotes unless it begins with a zero and the
integer is no less than eight. -/
theorem inShader?_digits_iff {digits : List Char} (hdigits : ∀ c ∈ digits, Text.isDigit c) {n : Nat}
    (hn : natural? 10 digits = some n) (unsigned : Bool) :
    inShader? (digits ++ unsignedMark unsigned) = some (.integer n unsigned) ↔
      ¬ (digits.head? = some '0' ∧ 8 ≤ n) := by
  rw [inShader?_digits hdigits]
  by_cases hzero : digits.head? = some '0'
  · rw [if_pos hzero, not_and, Nat.not_le]
    refine Iff.trans ?_ ((natural?_eight_iff hn).trans ⟨fun h _ => h, fun h => h hzero⟩)
    simp
  · rw [if_neg hzero, hn]
    simp [hzero]

/-! ### Integers printed in decimal -/

theorem digitValue_ten {c : Char} (hc : Text.isDigit c) :
    Text.digitValue 10 c = some (c.toNat - '0'.toNat) := by
  obtain ⟨d, hd⟩ := Option.isSome_iff_exists.mp ((Text.isDigitIn_ten c).trans hc)
  have hvalue := (Option.filter_eq_some_iff.mp hd).1
  rw [if_pos (by simpa [Text.isDigit] using hc)] at hvalue
  rw [hd, ← hvalue]

theorem readDigits_ten {digits : List Char} (hdigits : ∀ c ∈ digits, Text.isDigit c) (acc : Nat) :
    Text.readDigits 10 acc digits = some (Nat.ofDigitChars 10 digits acc) := by
  induction digits generalizing acc with
  | nil => rfl
  | cons c cs ih =>
    obtain ⟨hc, hcs⟩ := List.forall_mem_cons.mp hdigits
    rw [Text.readDigits, digitValue_ten hc]
    simp only
    rw [ih hcs, Nat.mul_comm acc 10]
    rfl

theorem natural?_toDigits (n : Nat) : natural? 10 (Nat.toDigits 10 n) = some n := by
  rw [natural?, if_neg Nat.toDigits_ne_nil,
    readDigits_ten (fun _ hc => Reading.isDigit_of_mem_toDigits hc),
    Nat.ofDigitChars_toDigits (by decide) (by decide)]

/-- Only zero is printed with a zero in front. -/
theorem eq_zero_of_head?_toDigits {n : Nat} (h : (Nat.toDigits 10 n).head? = some '0') : n = 0 := by
  induction n using Nat.strongRecOn with
  | _ n ih =>
    rcases Nat.lt_or_ge n 10 with hlt | hge
    · have hsmall : ∀ k < 10, Nat.digitChar k = '0' → k = 0 := by decide
      rw [Nat.toDigits_of_lt_base hlt] at h
      exact hsmall n hlt (Option.some.inj h)
    · obtain ⟨d, ds, hds⟩ := List.exists_cons_of_ne_nil (Nat.toDigits_ne_nil (n := n / 10) (b := 10))
      rw [Nat.toDigits_of_base_le (by decide) hge, hds, List.cons_append, List.head?_cons] at h
      have := ih (n / 10) (by omega) (by rw [hds, List.head?_cons, h])
      omega

theorem inShader?_toDigits (n : Nat) (unsigned : Bool) :
    inShader? (Nat.toDigits 10 n ++ unsignedMark unsigned) = some (.integer n unsigned) := by
  refine (inShader?_digits_iff (fun _ hc => Reading.isDigit_of_mem_toDigits hc)
    (natural?_toDigits n) unsigned).mpr ?_
  rintro ⟨hzero, hle⟩
  rw [eq_zero_of_head?_toDigits hzero] at hle
  cases hle

end Number

open Number (IsDecimal unsignedMark inShader? natural?)

/-! ### Literals -/

namespace Literal

/-- Whether an integer of the host is decimal, begins with a zero and is no less than eight. -/
def IsPadded (text : String) (n : Nat) : Prop :=
  (∃ digits, withoutGaps text.toList = '0' :: digits ∧ ∀ c ∈ digits, Text.isDigit c) ∧ 8 ≤ n

theorem toList_hlsl_integer (text : String) (suffix : Option String) :
    (integer text suffix).hlsl.toList = hlslDigits (withoutGaps text.toList) ++
      unsignedMark (suffix.any (· ∈ unsignedSuffixes)) :=
  String.toList_ofList

theorem unsigned_or_plus (cs : List Char) :
    (match cs with
      | '+' :: rest => rest
      | _ => cs) = cs ∨ ∃ rest, cs = '+' :: rest := by
  split
  · exact .inr ⟨_, rfl⟩
  · exact .inl rfl

theorem inDecimal_of_natural? {radix n : Nat} {digits tail : List Char}
    (htail : ∀ c ∈ tail, Text.isDigitIn radix c) (hn : natural? radix tail = some n)
    (hbound : n < 2 ^ 64) : inDecimal radix digits tail = Nat.toDigits 10 n := by
  have hunsigned : ∀ rest, tail ≠ '+' :: rest := by
    rintro rest rfl
    have hplus := htail '+' List.mem_cons_self
    simp [Text.isDigitIn, Text.digitValue] at hplus
  have hread : Text.readUnsigned radix Text.bound64 tail = some n := by
    have hne : tail ≠ [] := by
      rintro rfl
      cases hn
    rw [natural?, if_neg hne] at hn
    have hdigits := (unsigned_or_plus tail).resolve_right fun h => h.elim hunsigned
    fun_cases Text.readUnsigned radix Text.bound64 tail with
    | case1 digits hnil => exact absurd (hdigits.symm.trans hnil) hne
    | case2 digits hnil =>
      rw [show digits = tail from hdigits, hn]
      exact Option.filter_some_pos (decide_eq_true (show n < Text.bound64 from hbound))
  rw [inDecimal, hread]
  exact Nat.toList_repr

/-- An integer behind a radix mark keeps its value. -/
theorem inShader?_marked {text : String} {suffix : Option String} {radix : Nat} {mark : Char}
    {digits : List Char} (hmark : (radix, mark) ∈ radixMarks)
    (htext : withoutGaps text.toList = '0' :: mark :: digits) (hne : digits ≠ [])
    (hdigits : ∀ c ∈ digits, Text.isDigitIn radix c) :
    ∃ n, (integer text suffix).number? =
        some (.integer n (suffix.any (· ∈ unsignedSuffixes))) ∧
      (n < 2 ^ 64 → inShader? (integer text suffix).hlsl.toList =
        some (.integer n (suffix.any (· ∈ unsignedSuffixes)))) := by
  obtain ⟨n, hn⟩ := Number.exists_natural? hne hdigits
  rw [toList_hlsl_integer, htext]
  simp only [number?, htext]
  simp only [radixMarks, List.mem_cons, Prod.mk.injEq, List.not_mem_nil, or_false] at hmark
  rcases hmark with ⟨rfl, rfl⟩ | ⟨rfl, rfl⟩ | ⟨rfl, rfl⟩
  · refine ⟨n, by simp only [hn, Option.map_some], fun _ => ?_⟩
    refine (Number.inShader?_hexadecimal hdigits _).trans ?_
    rw [hn]
    rfl
  · refine ⟨n, by simp only [hn, Option.map_some], fun hbound => ?_⟩
    simp only [hlslDigits]
    rw [inDecimal_of_natural? hdigits hn hbound]
    exact Number.inShader?_toDigits n _
  · refine ⟨n, by simp only [hn, Option.map_some], fun hbound => ?_⟩
    simp only [hlslDigits]
    rw [inDecimal_of_natural? hdigits hn hbound]
    exact Number.inShader?_toDigits n _

/-- A decimal integer keeps its value exactly if it is not padded. -/
theorem inShader?_whole {text : String} {suffix : Option String}
    (h : IsDecimal (withoutGaps text.toList) false) :
    ∃ n, (integer text suffix).number? =
        some (.integer n (suffix.any (· ∈ unsignedSuffixes))) ∧
      (inShader? (integer text suffix).hlsl.toList =
        some (.integer n (suffix.any (· ∈ unsignedSuffixes))) ↔ ¬ IsPadded text n) := by
  obtain ⟨hne, hdigits⟩ := Number.digits_of_isDecimal h
  obtain ⟨n, hn⟩ := Number.exists_natural?_ten hne hdigits
  have hx : ∀ mark ∈ ['x', 'b', 'o'], ∀ tail, withoutGaps text.toList ≠ '0' :: mark :: tail := by
    intro mark hmark tail heq
    have hdigit := hdigits mark (by rw [heq]; simp)
    simp only [List.mem_cons, List.not_mem_nil, or_false] at hmark
    rcases hmark with rfl | rfl | rfl <;> exact absurd hdigit (by decide)
  have hhlsl : hlslDigits (withoutGaps text.toList) = withoutGaps text.toList := by
    unfold hlslDigits
    split
    · rename_i heq
      exact absurd heq (hx 'b' (by simp) _)
    · rename_i heq
      exact absurd heq (hx 'o' (by simp) _)
    · rfl
  have hnumber : (integer text suffix).number? =
      some (.integer n (suffix.any (· ∈ unsignedSuffixes))) := by
    unfold number?
    simp only
    split
    · rename_i heq
      exact absurd heq (hx 'x' (by simp) _)
    · rename_i heq
      exact absurd heq (hx 'b' (by simp) _)
    · rename_i heq
      exact absurd heq (hx 'o' (by simp) _)
    · rw [hn]
      rfl
  refine ⟨n, hnumber, ?_⟩
  rw [toList_hlsl_integer, hhlsl, Number.inShader?_digits_iff hdigits hn]
  refine not_congr ⟨fun ⟨hzero, hle⟩ => ?_, fun ⟨⟨digits, heq, _⟩, hle⟩ => ?_⟩
  · obtain ⟨c, digits, heq⟩ := List.exists_cons_of_ne_nil hne
    rw [heq] at hzero hdigits
    obtain rfl := Option.some.inj hzero
    exact ⟨⟨digits, heq, (List.forall_mem_cons.mp hdigits).2⟩, hle⟩
  · exact ⟨by rw [heq]; rfl, hle⟩

theorem isFractional_of_isDecimal {cs : List Char} {fractional : Bool} (h : IsDecimal cs fractional) :
    isFractional cs = fractional := by
  cases hfractional : fractional with
  | false =>
    obtain ⟨_, hdigits⟩ := Number.digits_of_isDecimal (hfractional ▸ h)
    refine List.any_eq_false.mpr fun c hc hmark => ?_
    simp only [Bool.or_eq_true, decide_eq_true_eq] at hmark
    rcases hmark with (rfl | rfl) | rfl <;> exact absurd (hdigits _ hc) (by decide)
  | true =>
    cases h with
    | @mk whole point fraction power e hne hwhole hpoint hpower =>
      have hmark : ∃ c ∈ point ++ power, c = '.' ∨ c = 'e' ∨ c = 'E' := by
        cases hpoint with
        | some => exact ⟨'.', List.mem_cons_self, .inl rfl⟩
        | none =>
          cases power with
          | nil => cases hfractional
          | cons c tail => exact ⟨c, List.mem_cons_self, .inr (Number.head?_of_power? hpower c rfl)⟩
      obtain ⟨c, hc, hcases⟩ := hmark
      refine List.any_eq_true.mpr ⟨c, List.mem_append_right _ hc, ?_⟩
      simpa [or_assoc] using hcases

/-- A float keeps its value. -/
theorem inShader?_float {text : String} {suffix : Option String} {fractional : Bool}
    (h : IsDecimal (withoutGaps text.toList) fractional) (hsuffix : suffix = none → fractional) :
    ∃ x, (float text suffix).number? = some (.float x) ∧
      inShader? (float text suffix).hlsl.toList = some (.float x) := by
  obtain ⟨x, hx⟩ := Number.exists_decimal? h
  have hnumber : (float text suffix).number? = some (.float x) := by
    rw [number?, hx]
    rfl
  refine ⟨x, hnumber, ?_⟩
  have hhlsl : (float text suffix).hlsl.toList = withoutGaps text.toList ++
      if suffix.isSome && ! isFractional (withoutGaps text.toList) then ['.', '0'] else [] :=
    String.toList_ofList
  rw [hhlsl, isFractional_of_isDecimal h]
  cases fractional with
  | true =>
    rw [Bool.not_true, Bool.and_false, if_neg Bool.false_ne_true, List.append_nil,
      Number.inShader?_decimal h, hx]
    rfl
  | false =>
    have hsome : suffix.isSome := by
      cases suffix with
      | none => cases hsuffix rfl
      | some s => rfl
    obtain ⟨hdecimal, hvalue⟩ := Number.decimal?_append_zero h
    rw [hsome, Bool.not_false, Bool.and_self, if_pos rfl, Number.inShader?_decimal hdecimal, hvalue, hx]
    rfl

end Literal

/-- Numbers keep their values: whatever is scanned as a number without a fault denotes a number, and its
text in shader code denotes the same number, of the same kind and signedness. The exceptions are decimal
integers that are padded with zeros and no less than eight, all of which change. -/
theorem Piece.number_kept {source : String} {p : Piece} (hp : p ∈ pieces source.toList)
    (hfaults : p.faults = []) :
    (∀ text suffix, p.lexeme = some (.integer text suffix) →
      ∃ n, (Literal.integer text suffix).number? =
          some (.integer n (suffix.any (· ∈ ["u", "U", "u32", "usize"]))) ∧
        (n < 2 ^ 64 → (inShader? (Literal.integer text suffix).hlsl.toList =
          some (.integer n (suffix.any (· ∈ ["u", "U", "u32", "usize"]))) ↔
            ¬ Literal.IsPadded text n))) ∧
      ∀ text suffix, p.lexeme = some (.float text suffix) →
        ∃ x, (Literal.float text suffix).number? = some (.float x) ∧
          inShader? (Literal.float text suffix).hlsl.toList = some (.float x) := by
  refine ⟨fun text suffix hlexeme => ?_, fun text suffix hlexeme => ?_⟩
  · cases scanned_of_mem_pieces hp hfaults hlexeme rfl with
    | marked hmark htext hne hdigits =>
      obtain ⟨n, hn, hkept⟩ := Literal.inShader?_marked hmark htext hne hdigits
      refine ⟨n, hn, fun hbound => iff_of_true (hkept hbound) ?_⟩
      rintro ⟨⟨tail, htail, hplain⟩, _⟩
      obtain rfl := (List.cons.inj (htail.symm.trans htext)).2
      have hdigit := hplain _ List.mem_cons_self
      simp only [radixMarks, List.mem_cons, Prod.mk.injEq, List.not_mem_nil, or_false] at hmark
      rcases hmark with ⟨_, rfl⟩ | ⟨_, rfl⟩ | ⟨_, rfl⟩ <;> exact absurd hdigit (by decide)
    | whole hwhole =>
      obtain ⟨n, hn, hkept⟩ := Literal.inShader?_whole hwhole
      exact ⟨n, hn, fun _ => hkept⟩
  · cases scanned_of_mem_pieces hp hfaults hlexeme rfl with
    | float hdecimal hsuffix => exact Literal.inShader?_float hdecimal hsuffix

/-- Ten is written as eight, and nine as no number, if a zero stands in front. -/
theorem Literal.misreads_padded :
    pieces "010".toList = [⟨"010".toList, some (.integer "010" none), []⟩] ∧
      (Literal.integer "010" none).number? = some (.integer 10 false) ∧
      (Literal.integer "010" none).hlsl = "010" ∧ inShader? "010".toList = some (.integer 8 false) ∧
      (Literal.integer "09" none).number? = some (.integer 9 false) ∧
      (Literal.integer "09" none).hlsl = "09" ∧ inShader? "09".toList = none := by
  refine ⟨rfl, rfl, rfl, rfl, rfl, rfl, rfl⟩

theorem Piece.number_kept_octal :
    ∃ p ∈ pieces "0o1_7u32".toList, p.faults = [] ∧
      p.lexeme = some (.integer "0o1_7" (some "u32")) ∧
      (Literal.integer "0o1_7" (some "u32")).hlsl = "15u" ∧
      inShader? "15u".toList = some (.integer 15 true) := by
  have hmem : ⟨"0o1_7u32".toList, some (.integer "0o1_7" (some "u32")), []⟩ ∈
      pieces "0o1_7u32".toList := List.mem_singleton_self _
  refine ⟨_, hmem, rfl, rfl, rfl, ?_⟩
  obtain ⟨n, hn, hkept⟩ := (Piece.number_kept hmem rfl).1 "0o1_7" (some "u32") rfl
  obtain rfl : 15 = n := by
    have hvalue : (Literal.integer "0o1_7" (some "u32")).number? = some (.integer 15 true) := rfl
    exact (Number.integer.inj (Option.some.inj (hvalue.symm.trans hn))).1
  refine (hkept (by decide)).mpr ?_
  rintro ⟨⟨digits, htext, hdigits⟩, _⟩
  obtain rfl : 'o' :: "17".toList = digits := (List.cons.inj htext).2
  exact absurd (hdigits 'o' List.mem_cons_self) (by decide)

end ComputeKernel
