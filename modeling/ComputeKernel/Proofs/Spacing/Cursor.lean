import ComputeKernel.Closure.Cursor
import ComputeKernel.Proofs.Spacing.Alike
import ComputeKernel.Proofs.Spacing.Run

/-!
Cursors in front of the same lexemes. Each elementary reading step does the same at both of them, and
what it gives differs in ranges only.
-/

namespace ComputeKernel

/-- Whether the same lexemes are left to read, after the same faults. -/
structure Cursor.Alike (c c' : Cursor) : Prop where
  lexemes : c.tokens.map Token.lexeme = c'.tokens.map Token.lexeme
  depth : c.depth = c'.depth
  diagnostics : c.diagnostics.map Diagnostic.bare = c'.diagnostics.map Diagnostic.bare

namespace Cursor

variable {c c' : Cursor}

theorem lexeme_eq_headD (c : Cursor) :
    c.lexeme = (c.tokens.map Token.lexeme).headD .endOfInput := by
  unfold lexeme
  split <;> simp_all

theorem Alike.lexeme_eq (h : c.Alike c') : c.lexeme = c'.lexeme := by
  rw [lexeme_eq_headD, lexeme_eq_headD, h.lexemes]

theorem Alike.advance (h : c.Alike c') : c.advance.Alike c'.advance := by
  obtain ⟨tokens, passed, depth, diagnostics⟩ := c
  obtain ⟨tokens', passed', depth', diagnostics'⟩ := c'
  obtain ⟨hlexemes, hdepth, hdiagnostics⟩ := h
  rcases tokens with _ | ⟨t, _ | ⟨u, rest⟩⟩ <;> rcases tokens' with _ | ⟨t', _ | ⟨u', rest'⟩⟩ <;>
    first
    | exact ⟨hlexemes, hdepth, hdiagnostics⟩
    | exact ⟨(List.cons.inj hlexemes).2, hdepth, hdiagnostics⟩
    | simp at hlexemes

theorem Alike.splitShift (h : c.Alike c') : c.splitShift.Alike c'.splitShift := by
  obtain ⟨tokens, passed, depth, diagnostics⟩ := c
  obtain ⟨tokens', passed', depth', diagnostics'⟩ := c'
  obtain ⟨hlexemes, hdepth, hdiagnostics⟩ := h
  rcases tokens with _ | ⟨t, rest⟩ <;> rcases tokens' with _ | ⟨t', rest'⟩ <;>
    first
    | exact ⟨hlexemes, hdepth, hdiagnostics⟩
    | exact ⟨congrArg (Lexeme.symbol .gt :: ·) (List.cons.inj hlexemes).2, hdepth, hdiagnostics⟩
    | simp at hlexemes

theorem skipTokens_lexemes (stop : Lexeme → Bool) {tokens tokens' : List Token}
    (passed passed' : Option Span) (h : tokens.map Token.lexeme = tokens'.map Token.lexeme) :
    (skipTokens stop tokens passed).1.map Token.lexeme =
      (skipTokens stop tokens' passed').1.map Token.lexeme := by
  induction tokens generalizing tokens' passed passed' with
  | nil =>
    obtain rfl := List.map_eq_nil_iff.mp h.symm
    rfl
  | cons t rest ih =>
    rcases tokens' with _ | ⟨t', rest'⟩
    · simp at h
    obtain ⟨ht, hrest⟩ := List.cons.inj h
    rcases rest with _ | ⟨u, rest⟩ <;> rcases rest' with _ | ⟨u', rest'⟩
    · exact h
    · simp at hrest
    · simp at hrest
    · simp only [skipTokens, ht]
      split
      · exact h
      · exact ih _ _ hrest

theorem Alike.skipUntil (stop : Lexeme → Bool) (h : c.Alike c') :
    (c.skipUntil stop).Alike (c'.skipUntil stop) :=
  ⟨skipTokens_lexemes stop _ _ h.lexemes, h.depth, h.diagnostics⟩

end Cursor

namespace Parse

theorem lexeme_paired : Paired Cursor.Alike Eq lexeme lexeme :=
  Paired.of_get fun _ _ h => h.lexeme_eq

theorem here_paired : Paired Cursor.Alike Span.Any here here := Paired.of_get fun _ _ _ => trivial

theorem behind_paired : Paired Cursor.Alike Span.Any behind behind :=
  Paired.of_get fun _ _ _ => trivial

theorem advance_paired : Paired Cursor.Alike Eq advance advance :=
  Paired.update fun _ _ h => h.advance

theorem splitShift_paired :
    Paired Cursor.Alike Eq (modify Cursor.splitShift : Parse Unit) (modify Cursor.splitShift) :=
  Paired.update fun _ _ h => h.splitShift

theorem skipUntil_paired (stop : Lexeme → Bool) :
    Paired Cursor.Alike Eq (skipUntil stop) (skipUntil stop) :=
  Paired.update fun _ _ h => h.skipUntil stop

theorem leave_paired : Paired Cursor.Alike Eq leave leave :=
  Paired.update fun _ _ h => ⟨h.lexemes, congrArg (· - 1) h.depth, h.diagnostics⟩

theorem report_paired {d d' : Diagnostic} (hd : d.bare = d'.bare) :
    Paired Cursor.Alike Eq (report d) (report d') :=
  Paired.update fun _ _ h => ⟨h.lexemes, h.depth, Diagnostic.bare_append h.diagnostics hd⟩

theorem fault_paired (message : String) :
    Paired Cursor.Alike Eq (fault message) (fault message) :=
  here_paired.bind fun _ _ _ => report_paired rfl

theorem faultWithHelp_paired (message help : String) :
    Paired Cursor.Alike Eq (faultWithHelp message help) (faultWithHelp message help) :=
  here_paired.bind fun _ _ _ => report_paired rfl

theorem outOfSteps_paired : Paired Cursor.Alike Eq outOfSteps outOfSteps := fault_paired _

theorem at?_paired (l : Lexeme) : Paired Cursor.Alike Eq (at? l) (at? l) :=
  lexeme_paired.bind_eq fun _ => Paired.pure rfl

theorem atSymbol_paired (s : Symbol) : Paired Cursor.Alike Eq (atSymbol s) (atSymbol s) :=
  at?_paired _

theorem atKeyword_paired (k : Keyword) : Paired Cursor.Alike Eq (atKeyword k) (atKeyword k) :=
  at?_paired _

theorem eat_paired (l : Lexeme) : Paired Cursor.Alike Eq (eat l) (eat l) := by
  refine (at?_paired l).bind_eq fun found => ?_
  split
  · exact advance_paired.seq (Paired.pure rfl)
  · exact Paired.pure rfl

theorem eatSymbol_paired (s : Symbol) : Paired Cursor.Alike Eq (eatSymbol s) (eatSymbol s) :=
  eat_paired _

theorem expect_paired (l : Lexeme) : Paired Cursor.Alike Span.Any (expect l) (expect l) := by
  refine here_paired.bind fun _ _ _ => (at?_paired l).bind_eq fun found => ?_
  cases found with
  | true => exact advance_paired.seq (Paired.pure trivial)
  | false =>
    exact lexeme_paired.bind_eq fun _ => (fault_paired _).seq (Paired.pure trivial)

theorem expectSymbol_paired (s : Symbol) :
    Paired Cursor.Alike Span.Any (expectSymbol s) (expectSymbol s) := expect_paired _

theorem passSymbol_paired (s : Symbol) :
    Paired Cursor.Alike Eq (discard (expectSymbol s)) (discard (expectSymbol s)) :=
  (expectSymbol_paired s).discard

theorem passKeyword_paired (k : Keyword) :
    Paired Cursor.Alike Eq (discard (expectKeyword k)) (discard (expectKeyword k)) :=
  (expect_paired _).discard

theorem identifier_paired : Paired Cursor.Alike Name.Alike identifier identifier := by
  refine here_paired.bind fun _ _ _ => lexeme_paired.bind_eq fun l => ?_
  split
  · exact advance_paired.seq (Paired.pure rfl)
  · exact (fault_paired _).seq (Paired.pure rfl)

theorem enter_paired : Paired Cursor.Alike Eq enter enter := by
  refine (Paired.update fun c c' h => ?_).seq (Paired.get.bind fun c c' h => ?_)
  · exact ⟨h.lexemes, congrArg (· + 1) h.depth, h.diagnostics⟩
  · rw [h.depth]
    split
    · exact (faultWithHelp_paired _ _).seq (Paired.pure rfl)
    · exact Paired.pure rfl

end Parse

end ComputeKernel
