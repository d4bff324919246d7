import ComputeKernel.Proofs.Lexing.Numbers

/-!
Ranges in the text. The tokens of a source and the faults of its characters begin and end between two
characters of the text, and so does the second half of a `>>`.
-/

namespace ComputeKernel

/-- Whether a range is one of a source: it begins and ends between characters, or at an end. -/
structure Span.InText (source : String) (s : Span) : Prop where
  le : s.start ≤ s.stop
  start : (⟨s.start⟩ : String.Pos.Raw).IsValid source
  stop : (⟨s.stop⟩ : String.Pos.Raw).IsValid source

namespace Span.InText

variable {source : String} {a b s : Span}

theorem merge (ha : a.InText source) (hb : b.InText source) : (a.merge b).InText source := by
  refine ⟨?_, ?_, ?_⟩
  · have := ha.le
    have := hb.le
    rw [merge_start, merge_stop]
    omega
  · rw [merge_start]
    rcases Nat.le_total a.start b.start with h | h
    · rw [Nat.min_eq_left h]
      exact ha.start
    · rw [Nat.min_eq_right h]
      exact hb.start
  · rw [merge_stop]
    rcases Nat.le_total a.stop b.stop with h | h
    · rw [Nat.max_eq_right h]
      exact hb.stop
    · rw [Nat.max_eq_left h]
      exact ha.stop

end Span.InText

/-- Whether there are diagnostics, all of them about ranges of a source. -/
structure ReportsIn (source : String) (diagnostics : List Diagnostic) : Prop where
  ne_nil : diagnostics ≠ []
  inText : ∀ d ∈ diagnostics, d.span.InText source

theorem isValid_byteLength {source : String} {front back : List Char}
    (h : source.toList = front ++ back) : (⟨byteLength front⟩ : String.Pos.Raw).IsValid source := by
  rw [String.Pos.Raw.isValid_iff_exists_append]
  refine ⟨String.ofList front, String.ofList back, ?_, ?_⟩
  · rw [← String.ofList_append, ← h, String.ofList_toList]
  · rw [byteLength_eq_utf8ByteSize]
    rfl

/-- What stands in the text is in range of it. -/
theorem StandsAt.inText {source : String} {span : Span} {text : List Char}
    (h : StandsAt source.toList span text) : span.InText source := by
  obtain ⟨front, back, hparts, rfl⟩ := h
  refine ⟨Nat.le_add_right _ _, isValid_byteLength (hparts.trans (List.append_assoc ..)), ?_⟩
  show (⟨byteLength front + byteLength text⟩ : String.Pos.Raw).IsValid source
  rw [← byteLength_append]
  exact isValid_byteLength hparts

/-- What stands in a part of a text stands in the text, moved to where the part begins. -/
theorem StandsAt.shift {part text : List Char} {span : Span} (h : StandsAt part span text)
    (front back : List Char) :
    StandsAt (front ++ part ++ back) (span.shift (byteLength front)) text := by
  obtain ⟨front', back', rfl, rfl⟩ := h
  exact ⟨front ++ front', back' ++ back, by simp, (Span.behind_append front front' text).symm⟩

theorem StandsAt.append {part text : List Char} {span : Span} (h : StandsAt part span text)
    (back : List Char) : StandsAt (part ++ back) span text := by
  have hshift := h.shift [] back
  rwa [List.nil_append, byteLength_nil, Span.shift_zero] at hshift

/-! ### Faults of pieces -/

theorem utf8Size_of_isIdentContinue {c : Char} (h : isIdentContinue c) : c.utf8Size = 1 := by
  have hval : c.val ≤ 0x7f := by
    simp only [isIdentContinue, isIdentStart, Text.isDigit, Bool.or_eq_true, Bool.and_eq_true,
      decide_eq_true_eq, Char.le_def, UInt32.le_iff_toNat_le] at h
    rw [UInt32.le_iff_toNat_le]
    rcases h with ((⟨_, h⟩ | ⟨_, h⟩) | rfl) | ⟨_, h⟩
    · exact Nat.le_trans h (by decide)
    · exact Nat.le_trans h (by decide)
    · decide
    · exact Nat.le_trans h (by decide)
  simp [Char.utf8Size, hval]

/-- Digits have one byte each. -/
theorem byteLength_of_isIdentContinue {cs : List Char} (h : ∀ c ∈ cs, isIdentContinue c) :
    byteLength cs = cs.length := by
  induction cs with
  | nil => rfl
  | cons c cs ih =>
    rw [byteLength_cons, utf8Size_of_isIdentContinue (h c List.mem_cons_self),
      ih fun d hd => h d (List.mem_cons_of_mem c hd), List.length_cons, Nat.add_comm]

/-- Whether the faults of a text stand in it. -/
def FaultsIn (text : List Char) (faults : List Diagnostic) : Prop :=
  ∀ d ∈ faults, ∃ part, StandsAt text d.span part

theorem FaultsIn.nil (text : List Char) : FaultsIn text [] := nofun

theorem faultsIn_marked {radix : Nat} {mark : List Char} (hmark : ∀ c ∈ mark, isIdentContinue c)
    (cs : List Char) : FaultsIn (Digits.marked radix mark cs).text
      (Digits.marked radix mark cs).faults := by
  have hdigits : ∀ c ∈ mark ++ cs.takeWhile fun c => c = '_' || Text.isDigitIn radix c,
      isIdentContinue c := by
    intro c hc
    rcases List.mem_append.mp hc with hc | hc
    · exact hmark c hc
    · have hdigit := List.all_eq_true.mp List.all_takeWhile c hc
      simp only [Bool.or_eq_true, decide_eq_true_eq] at hdigit
      rcases hdigit with rfl | hdigit
      · decide
      · exact isIdentContinue_of_isDigitIn hdigit
  have hlength := byteLength_of_isIdentContinue hdigits
  rw [List.length_append] at hlength
  unfold Digits.marked
  simp only
  split
  · rename_i c hhead
    obtain ⟨hhead, hdigit⟩ := Option.filter_eq_some_iff.mp hhead
    have hc := isIdentContinue_of_isDigit hdigit
    intro d hd
    rw [List.mem_singleton.mp hd]
    obtain ⟨tail, hrest⟩ := List.head?_eq_some_iff.mp hhead
    rw [hrest, List.takeWhile_cons_of_pos (by simp [isDigitOrGap, hdigit])]
    refine ⟨[c], mark ++ cs.takeWhile fun c => c = '_' || Text.isDigitIn radix c,
      tail.takeWhile isDigitOrGap, by simp, ?_⟩
    simp [Span.behind, Diagnostic.error, hlength, utf8Size_of_isIdentContinue hc]
  · split
    · intro d hd
      rw [List.mem_singleton.mp hd]
      refine ⟨_, [], [], (List.append_nil _).symm, ?_⟩
      simp [Span.behind, hlength, Diagnostic.error]
    · exact FaultsIn.nil _

theorem faultsIn_scan (cs : List Char) : FaultsIn (Digits.scan cs).text (Digits.scan cs).faults := by
  fun_cases Digits.scan cs with
  | case1 rest => exact faultsIn_marked (List.all_eq_true.mp (by decide)) rest
  | case2 rest => exact faultsIn_marked (List.all_eq_true.mp (by decide)) rest
  | case3 rest => exact faultsIn_marked (List.all_eq_true.mp (by decide)) rest
  | case4 => exact FaultsIn.nil _

namespace Piece

theorem faultsIn_number (cs : List Char) : FaultsIn (number cs).1.text (number cs).1.faults := by
  intro d hd
  simp only [number] at hd ⊢
  rcases List.mem_append.mp hd with hd | hd
  · obtain ⟨part, hpart⟩ := faultsIn_scan cs d hd
    exact ⟨part, hpart.append _⟩
  · rw [List.mem_ite_nil_left, List.mem_singleton] at hd
    rw [hd.2]
    exact ⟨suffixWord (Digits.scan cs).rest, (Digits.scan cs).text, [], by simp, rfl⟩

theorem faultsIn_blockComment (cs : List Char) :
    FaultsIn (blockComment cs).1.text (blockComment cs).1.faults := by
  unfold blockComment
  split
  · exact FaultsIn.nil _
  · intro d hd
    rw [List.mem_singleton.mp hd]
    exact ⟨_, [], [], (List.append_nil _).symm, by simp [Span.behind, Diagnostic.error]⟩

theorem faultsIn_next? {cs rest : List Char} {p : Piece} (h : next? cs = some (p, rest)) :
    FaultsIn p.text p.faults := by
  unfold next? at h
  split at h
  · cases h
  rename_i c tail
  rw [show p = (p, rest).1 from rfl, ← Option.some.inj h]
  split
  · exact FaultsIn.nil _
  split
  · exact FaultsIn.nil _
  split
  · exact faultsIn_blockComment _
  split
  · exact FaultsIn.nil _
  split
  · exact faultsIn_number _
  split
  · exact FaultsIn.nil _
  · intro d hd
    rw [List.mem_singleton.mp hd]
    exact ⟨[c], [], [], rfl, by simp [Span.behind, Diagnostic.error, Diagnostic.withHelp]⟩

/-! ### Faults of a text -/

theorem exists_piece_of_mem_diagnostics {offset : Nat} {ps : List Piece} {d : Diagnostic}
    (hd : d ∈ diagnostics offset ps) :
    ∃ front p back, ps = front ++ p :: back ∧
      ∃ fault ∈ p.faults, d = fault.shift (offset + byteLength (front.flatMap text)) := by
  induction ps generalizing offset with
  | nil => cases hd
  | cons p ps ih =>
    rcases List.mem_append.mp hd with hd | hd
    · obtain ⟨fault, hfault, rfl⟩ := List.mem_map.mp hd
      exact ⟨[], p, ps, rfl, fault, hfault, rfl⟩
    · obtain ⟨front, q, back, rfl, fault, hfault, rfl⟩ := ih hd
      exact ⟨p :: front, q, back, rfl, fault, hfault, by simp [Nat.add_assoc]⟩

end Piece

/-- A source around one of its pieces. -/
theorem toList_of_pieces {source : String} {front back : List Piece} {p : Piece}
    (h : pieces source.toList = front ++ p :: back) :
    source.toList = front.flatMap Piece.text ++ p.text ++ back.flatMap Piece.text := by
  have hparts := Piece.flatMap_cut (Nat.le_refl source.toList.length)
  rw [show Piece.cut source.toList.length source.toList = front ++ p :: back from h,
    List.flatMap_append, List.flatMap_cons, ← List.append_assoc] at hparts
  exact hparts.symm

/-- Whatever is wrong with the characters of a source is reported in the source. -/
theorem tokenize_faults_inText {source : String} {d : Diagnostic} (hd : d ∈ (tokenize source).2) :
    d.span.InText source := by
  obtain ⟨front, p, back, hps, fault, hfault, rfl⟩ := Piece.exists_piece_of_mem_diagnostics hd
  have hmem : p ∈ pieces source.toList := by simp [hps]
  obtain ⟨cs, rest, hnext⟩ := Piece.exists_next?_of_mem_cut hmem
  obtain ⟨part, hpart⟩ := Piece.faultsIn_next? hnext fault hfault
  have hat := hpart.shift (front.flatMap Piece.text) (back.flatMap Piece.text)
  rw [← toList_of_pieces hps] at hat
  rw [Nat.zero_add]
  exact hat.inText

/-- The tokens of a source stand in it, and so do the halves of a `>>`. -/
theorem tokenize_inText {source : String} {t : Token} (ht : t ∈ (tokenize source).1) :
    t.span.InText source ∧
      (t.lexeme = .symbol .shr → (⟨t.span.start + 1, t.span.stop⟩ : Span).InText source) := by
  simp only [tokenize, List.mem_append, List.mem_singleton] at ht
  rcases ht with ht | rfl
  · obtain ⟨front, p, back, hps, hl, hspan⟩ := Piece.exists_piece_of_mem_tokens ht
    have hparts := toList_of_pieces hps
    rw [Span.shift_zero] at hspan
    refine ⟨StandsAt.inText ⟨_, _, hparts, hspan⟩, fun hshift => ?_⟩
    have htext : p.text = ['>', '>'] :=
      Piece.spelled_of_mem_cut (l := .symbol .shr) (show p ∈ pieces source.toList by simp [hps])
        (hl.trans (congrArg some hshift))
    rw [htext] at hparts hspan
    have hhalf : StandsAt source.toList ⟨t.span.start + 1, t.span.stop⟩ ['>'] :=
      ⟨front.flatMap Piece.text ++ ['>'], back.flatMap Piece.text, by simp [hparts], by
        simp [hspan, Span.behind, show ('>' : Char).utf8Size = 1 by decide, Nat.add_assoc]⟩
    exact hhalf.inText
  · have hend : (⟨source.utf8ByteSize⟩ : String.Pos.Raw).IsValid source :=
      String.Pos.Raw.isValid_rawEndPos
    refine ⟨⟨Nat.le_refl _, hend, hend⟩, fun hshift => ?_⟩
    cases hshift

end ComputeKernel
