import ComputeKernel.Source.Diagnostic

/-!
Runs that report nothing. Reading and checking collect diagnostics and go on behind a fault, so what
they did is of interest only where none was reported. A run that ends without a diagnostic began
without one; what such a run did is built up from its steps by the rules below, from the first step
to the last.
-/

namespace ComputeKernel

/-- States that collect diagnostics. -/
class Reporting (σ : Type) where
  diagnostics : σ → List Diagnostic

variable {σ α β : Type} [Reporting σ]

/-- Every run of `p` that ends without a diagnostic began without one and did what `R` says. -/
def Quiet (p : StateM σ α) (R : σ → α → σ → Prop) : Prop :=
  ∀ s, Reporting.diagnostics (p.run s).2 = [] →
    Reporting.diagnostics s = [] ∧ R s (p.run s).1 (p.run s).2

namespace Quiet

variable {p : StateM σ α} {f : α → StateM σ β} {R : σ → α → σ → Prop} {T : σ → β → σ → Prop}

theorem mono {S : σ → α → σ → Prop} (h : Quiet p R) (hRS : ∀ s a s', R s a s' → S s a s') :
    Quiet p S := by
  intro s hs
  obtain ⟨hstart, hrun⟩ := h s hs
  exact ⟨hstart, hRS _ _ _ hrun⟩

theorem pure {a : α} (h : ∀ s, R s a s) : Quiet (Pure.pure a : StateM σ α) R :=
  fun s hs => ⟨hs, h s⟩

/-- What two steps do together follows from what the first did and what the second did behind it. -/
theorem bind (hp : Quiet p R)
    (hf : ∀ a, Quiet (f a) fun s b s' => ∀ s₀, R s₀ a s → T s₀ b s') : Quiet (p >>= f) T := by
  intro s hs
  obtain ⟨hmid, hrest⟩ := hf (p.run s).1 (p.run s).2 hs
  obtain ⟨hstart, hfirst⟩ := hp s hmid
  exact ⟨hstart, hrest s hfirst⟩

/-- What is true of every value of a step is known behind it, also where the step reports. -/
theorem bind_of_value {V : α → Prop} (hV : ∀ s, V (p.run s).1) (hp : Quiet p R)
    (hf : ∀ a, V a → Quiet (f a) fun s b s' => ∀ s₀, R s₀ a s → T s₀ b s') :
    Quiet (p >>= f) T := by
  intro s hs
  obtain ⟨hmid, hrest⟩ := hf (p.run s).1 (hV s) (p.run s).2 hs
  obtain ⟨hstart, hfirst⟩ := hp s hmid
  exact ⟨hstart, hrest s hfirst⟩

/-- The value of a step can be left out. -/
theorem discard {S : σ → PUnit → σ → Prop} (hp : Quiet p fun s _ s' => S s ⟨⟩ s') :
    Quiet (Functor.discard p) S := hp

theorem get {S : σ → σ → σ → Prop} (h : ∀ s, S s s s) : Quiet (MonadState.get : StateM σ σ) S :=
  fun s hs => ⟨hs, h s⟩

/-- A step that keeps the diagnostics. -/
theorem of_keeps (hp : ∀ s, Reporting.diagnostics (p.run s).2 = Reporting.diagnostics s)
    (h : ∀ s, R s (p.run s).1 (p.run s).2) : Quiet p R := by
  intro s hs
  refine ⟨?_, h s⟩
  rw [← hp s]
  exact hs

/-- A step that adds a diagnostic is not part of a quiet run. -/
theorem not_report (d : σ → Diagnostic)
    (hp : ∀ s, Reporting.diagnostics (p.run s).2 = Reporting.diagnostics s ++ [d s]) :
    Quiet p R := by
  intro s hs
  rw [hp s] at hs
  simp at hs

/-- Nothing behind a step that reports is part of a quiet run. -/
theorem abort (hp : Quiet p fun _ _ _ => False) (hf : ∀ a, Quiet (f a) fun _ _ _ => True) :
    Quiet (p >>= f) T :=
  hp.bind fun a => (hf a).mono fun _ _ _ _ _ h => h.elim

/-- A quiet run, as an equation. -/
theorem of_run (h : Quiet p R) {s s' : σ} {a : α} (hrun : p.run s = (a, s'))
    (hs : Reporting.diagnostics s' = []) : Reporting.diagnostics s = [] ∧ R s a s' := by
  have := h s (by rw [hrun]; exact hs)
  rw [hrun] at this
  exact this

end Quiet

/-! ### Results -/

theorem exists_of_isOk {ε α : Type} {x : Except ε α} (h : x.isOk) : ∃ a, x = .ok a := by
  cases x with
  | error e => cases h
  | ok a => exact ⟨a, rfl⟩

theorem eq_ok_of_toOption {ε α : Type} {x : Except ε α} {a : α} (h : x.toOption = some a) :
    x = .ok a := by
  cases x with
  | error e => cases h
  | ok a' => exact congrArg _ (Option.some.inj h)

end ComputeKernel
