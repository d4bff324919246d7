import ComputeKernel.Source.Diagnostic
import Mathlib.Logic.Relation

/-!
Runs that go in steps. Reading and checking go on behind a fault, so what is true of every run, and not
only of those without a fault, is told by the elementary steps that runs are made of: what each of them
preserves, a whole run preserves.

That a run is made of such steps follows from how it is put together and is found by instance search,
which goes through sequences and conditionals; cases are split by hand.
-/

namespace ComputeKernel

open Relation (ReflTransGen)

variable {σ α β : Type}

/-- Every run of `p` is made of the steps `R`. -/
class Walks (R : σ → σ → Prop) (p : StateM σ α) : Prop where
  run : ∀ s, ReflTransGen R s (p.run s).2

namespace Walks

variable {R : σ → σ → Prop} {p : StateM σ α} {f : α → StateM σ β}

/-- What each step preserves, a run preserves. -/
theorem preserves (h : Walks R p) {I : σ → Prop} (hstep : ∀ s s', R s s' → I s → I s') {s : σ}
    (hs : I s) : I (p.run s).2 := by
  have hrun := h.run s
  generalize (p.run s).2 = s' at hrun
  induction hrun with
  | refl => exact hs
  | tail _ hlast ih => exact hstep _ _ hlast ih

theorem of_step (h : ∀ s, R s (p.run s).2) : Walks R p := ⟨fun s => .single (h s)⟩

theorem of_still (h : ∀ s, (p.run s).2 = s) : Walks R p := ⟨fun s => by rw [h s]⟩

instance pure (a : α) : Walks R (Pure.pure a : StateM σ α) := of_still fun _ => rfl

instance get : Walks R (MonadState.get : StateM σ σ) := of_still fun _ => rfl

theorem seq (hp : Walks R p) (hf : ∀ a, Walks R (f a)) : Walks R (p >>= f) :=
  ⟨fun s => (hp.run s).trans ((hf _).run _)⟩

/-- What is true of every value of a step is known behind it. -/
theorem seq_of_value {V : α → Prop} (hV : ∀ s, V (p.run s).1) (hp : Walks R p)
    (hf : ∀ a, V a → Walks R (f a)) : Walks R (p >>= f) :=
  ⟨fun s => (hp.run s).trans ((hf _ (hV s)).run _)⟩

instance bind [hp : Walks R p] [hf : ∀ a, Walks R (f a)] : Walks R (p >>= f) := hp.seq hf

instance discard [hp : Walks R p] : Walks R (Functor.discard p) := ⟨hp.run⟩

instance ite {c : Prop} [Decidable c] {p q : StateM σ α} [Walks R p] [Walks R q] :
    Walks R (if c then p else q) := by
  split <;> infer_instance

theorem elim {o : Option α} {p : StateM σ β} {f : α → StateM σ β} (hp : Walks R p)
    (hf : ∀ a, o = some a → Walks R (f a)) : Walks R (o.elim p f) := by
  cases o with
  | none => exact hp
  | some a => exact hf a rfl

end Walks

end ComputeKernel
