import ComputeKernel.Closure.Cursor
import ComputeKernel.Proofs.Quiet

/-!
What the elementary reading steps do in a quiet run. Looking at the cursor leaves it in place; a
token that has to be there is there and is passed; nothing is reported.
-/

namespace ComputeKernel

instance : Reporting Cursor := ⟨Cursor.diagnostics⟩

namespace Cursor

/-- The cursor with one more block or expression open. -/
def deeper (c : Cursor) : Cursor := { c with depth := c.depth + 1 }

/-- The cursor with one block or expression closed. -/
def shallower (c : Cursor) : Cursor := { c with depth := c.depth - 1 }

theorem advance_diagnostics (c : Cursor) : c.advance.diagnostics = c.diagnostics := by
  unfold advance
  split <;> rfl

theorem splitShift_diagnostics (c : Cursor) : c.splitShift.diagnostics = c.diagnostics := by
  unfold splitShift
  split <;> rfl

/-- What passing a token keeps, skipping keeps, since it passes tokens one at a time. -/
theorem skipUntil_of_advance {P : Cursor → Prop} (hadvance : ∀ c, P c → P c.advance)
    (stop : Lexeme → Bool) {c : Cursor} (h : P c) : P (c.skipUntil stop) := by
  obtain ⟨tokens, passed, depth, diagnostics⟩ := c
  change P ⟨(skipTokens stop tokens passed).1, (skipTokens stop tokens passed).2, depth, diagnostics⟩
  fun_induction skipTokens stop tokens passed with
  | case1 => exact h
  | case2 t u rest passed _ ih => exact ih (hadvance _ h)
  | case3 => exact h

end Cursor

namespace Parse

variable {α β : Type}

theorem lexeme_quiet : Quiet lexeme fun c l c' => l = c.lexeme ∧ c' = c :=
  fun _ hs => ⟨hs, rfl, rfl⟩

theorem here_quiet : Quiet here fun c s c' => s = c.here ∧ c' = c := fun _ hs => ⟨hs, rfl, rfl⟩

theorem behind_quiet : Quiet behind fun c s c' => s = c.behind ∧ c' = c :=
  fun _ hs => ⟨hs, rfl, rfl⟩

theorem at?_quiet (l : Lexeme) : Quiet (at? l) fun c b c' => b = (c.lexeme == l) ∧ c' = c :=
  fun _ hs => ⟨hs, rfl, rfl⟩

theorem atSymbol_quiet (s : Symbol) :
    Quiet (atSymbol s) fun c b c' => b = (c.lexeme == .symbol s) ∧ c' = c := at?_quiet _

theorem atKeyword_quiet (k : Keyword) :
    Quiet (atKeyword k) fun c b c' => b = (c.lexeme == .keyword k) ∧ c' = c := at?_quiet _

theorem advance_quiet : Quiet advance fun c _ c' => c' = c.advance :=
  Quiet.of_keeps Cursor.advance_diagnostics fun _ => rfl

theorem splitShift_quiet : Quiet (modify Cursor.splitShift : Parse Unit) fun c _ c' =>
    c' = c.splitShift :=
  Quiet.of_keeps Cursor.splitShift_diagnostics fun _ => rfl

theorem skipUntil_quiet (stop : Lexeme → Bool) :
    Quiet (skipUntil stop) fun c _ c' => c' = c.skipUntil stop :=
  Quiet.of_keeps (fun _ => rfl) fun _ => rfl

theorem leave_quiet : Quiet leave fun c _ c' => c' = c.shallower :=
  Quiet.of_keeps (fun _ => rfl) fun _ => rfl

/-! ### Faults -/

theorem fault_quiet (message : String) {R : Cursor → Unit → Cursor → Prop} :
    Quiet (fault message) R :=
  Quiet.not_report (fun c => .error message c.here) fun _ => rfl

theorem faultWithHelp_quiet (message help : String) {R : Cursor → Unit → Cursor → Prop} :
    Quiet (faultWithHelp message help) R :=
  Quiet.not_report (fun c => (Diagnostic.error message c.here).withHelp help) fun _ => rfl

/-- A reading that ran out of steps is not quiet. -/
theorem outOfSteps_quiet {R : Cursor → Unit → Cursor → Prop} : Quiet outOfSteps R :=
  fault_quiet _

/-! ### Tokens -/

theorem eat_quiet (l : Lexeme) : Quiet (eat l) fun c b c' =>
    if b then c.lexeme = l ∧ c' = c.advance else c.lexeme ≠ l ∧ c' = c := by
  refine (at?_quiet l).bind fun found => ?_
  cases found with
  | true =>
    refine advance_quiet.bind fun _ => Quiet.pure fun c c₁ h₁ c₀ h₀ => ?_
    obtain ⟨hl, rfl⟩ := h₀
    exact ⟨eq_of_beq hl.symm, h₁⟩
  | false =>
    refine Quiet.pure fun c c₀ h₀ => ?_
    obtain ⟨hl, rfl⟩ := h₀
    exact ⟨ne_of_beq_false hl.symm, rfl⟩

theorem eatSymbol_quiet (s : Symbol) : Quiet (eatSymbol s) fun c b c' =>
    if b then c.lexeme = .symbol s ∧ c' = c.advance else c.lexeme ≠ .symbol s ∧ c' = c :=
  eat_quiet _

theorem expect_quiet (l : Lexeme) : Quiet (expect l) fun c span c' =>
    c.lexeme = l ∧ span = c.here ∧ c' = c.advance := by
  refine here_quiet.bind fun span => (at?_quiet l).bind fun found => ?_
  cases found with
  | true =>
    refine advance_quiet.bind fun _ => Quiet.pure fun c c₂ h₂ c₁ h₁ c₀ h₀ => ?_
    obtain ⟨hspan, rfl⟩ := h₀
    obtain ⟨hl, rfl⟩ := h₁
    exact ⟨eq_of_beq hl.symm, hspan, h₂⟩
  | false => 
    exact lexeme_quiet.bind fun _ => (fault_quiet _).abort fun _ => Quiet.pure fun _ => trivial

theorem expectSymbol_quiet (s : Symbol) : Quiet (expectSymbol s) fun c span c' =>
    c.lexeme = .symbol s ∧ span = c.here ∧ c' = c.advance := expect_quiet _

theorem expectKeyword_quiet (k : Keyword) : Quiet (expectKeyword k) fun c span c' =>
    c.lexeme = .keyword k ∧ span = c.here ∧ c' = c.advance := expect_quiet _

theorem passSymbol_quiet (s : Symbol) : Quiet (discard (expectSymbol s)) fun c _ c' =>
    c.lexeme = .symbol s ∧ c' = c.advance :=
  Quiet.discard ((expectSymbol_quiet s).mono fun _ _ _ h => ⟨h.1, h.2.2⟩)

theorem passKeyword_quiet (k : Keyword) : Quiet (discard (expectKeyword k)) fun c _ c' =>
    c.lexeme = .keyword k ∧ c' = c.advance :=
  Quiet.discard ((expectKeyword_quiet k).mono fun _ _ _ h => ⟨h.1, h.2.2⟩)

theorem identifier_quiet : Quiet identifier fun c name c' =>
    c.lexeme = .ident name.text ∧ name.span = c.here ∧ c' = c.advance := by
  refine here_quiet.bind fun span => lexeme_quiet.bind fun l => ?_
  split
  · refine advance_quiet.bind fun _ => Quiet.pure fun c c₂ h₂ c₁ h₁ c₀ h₀ => ?_
    obtain ⟨hspan, rfl⟩ := h₀
    obtain ⟨hl, rfl⟩ := h₁
    exact ⟨hl.symm, hspan, h₂⟩
  · exact (fault_quiet _).abort fun _ => Quiet.pure fun _ => trivial

theorem enter_quiet : Quiet enter fun c opened c' =>
    opened = true ∧ c.depth < maxDepth ∧ c' = c.deeper := by
  refine (Quiet.of_keeps (R := fun c _ c' => c' = c.deeper) (fun _ => rfl) fun _ => rfl).bind
    fun _ => (Quiet.get (S := fun c d c' => d = c ∧ c' = c) fun _ => ⟨rfl, rfl⟩).bind fun d => ?_
  split
  · exact (faultWithHelp_quiet _ _).abort fun _ => Quiet.pure fun _ => trivial
  · rename_i hdepth
    refine Quiet.pure fun c c₁ h₁ c₀ h₀ => ?_
    obtain ⟨rfl, rfl⟩ := h₁
    subst h₀
    refine ⟨rfl, ?_, rfl⟩
    simp only [Cursor.deeper] at hdepth
    omega

end Parse

end ComputeKernel
