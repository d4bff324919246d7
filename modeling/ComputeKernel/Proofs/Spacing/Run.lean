import ComputeKernel.Source.Diagnostic

/-!
Runs side by side. What is said of two runs is said of each pair of their states and values, so that
a step of one run can be followed by the step of the other that belongs to it.
-/

namespace ComputeKernel

/-- A diagnostic without its range. -/
def Diagnostic.bare (d : Diagnostic) : Diagnostic := { d with span := ⟨0, 0⟩ }

theorem Diagnostic.bare_append {ds ds' : List Diagnostic} {d d' : Diagnostic}
    (h : ds.map bare = ds'.map bare) (hd : d.bare = d'.bare) :
    (ds ++ [d]).map bare = (ds' ++ [d']).map bare := by
  rw [List.map_append, List.map_append, h, List.map_singleton, List.map_singleton, hd]

variable {σ α β : Type}

/-- Whether two checks both succeed, with values as in `R`, or both fail for the same reasons. -/
inductive Agrees (R : α → α → Prop) :
    Except (List Diagnostic) α → Except (List Diagnostic) α → Prop where
  | error {ds ds'} : ds.map Diagnostic.bare = ds'.map Diagnostic.bare →
      Agrees R (.error ds) (.error ds')
  | ok {a a'} : R a a' → Agrees R (.ok a) (.ok a')

/-- Whether two programs that start in states as in `S` give values as in `R` and end in states as
in `S`. -/
def Paired (S : σ → σ → Prop) (R : α → α → Prop) (p q : StateM σ α) : Prop :=
  ∀ s s', S s s' → R (p.run s).1 (q.run s').1 ∧ S (p.run s).2 (q.run s').2

namespace Paired

variable {S : σ → σ → Prop} {R : α → α → Prop} {T : β → β → Prop} {p q : StateM σ α}
  {f g : α → StateM σ β}

theorem pure {a b : α} (h : R a b) : Paired S R (Pure.pure a) (Pure.pure b) :=
  fun _ _ hs => ⟨h, hs⟩

theorem bind (h : Paired S R p q) (hf : ∀ a b, R a b → Paired S T (f a) (g b)) :
    Paired S T (p >>= f) (q >>= g) := by
  intro s s' hs
  obtain ⟨hvalue, hstate⟩ := h s s' hs
  exact hf _ _ hvalue _ _ hstate

/-- Steps that give the same value. -/
theorem bind_eq (h : Paired S Eq p q) (hf : ∀ a, Paired S T (f a) (g a)) :
    Paired S T (p >>= f) (q >>= g) := by
  refine h.bind fun a b hab => ?_
  subst hab
  exact hf a

/-- Steps whose values do not matter. -/
theorem seq {p q : StateM σ PUnit} {f g : PUnit → StateM σ β} (h : Paired S Eq p q)
    (hf : Paired S T (f ⟨⟩) (g ⟨⟩)) : Paired S T (p >>= f) (q >>= g) :=
  h.bind fun _ _ _ => hf

theorem discard (h : Paired S R p q) : Paired S Eq (Functor.discard p) (Functor.discard q) := by
  intro s s' hs
  exact ⟨rfl, (h s s' hs).2⟩

theorem get : Paired S S (MonadState.get : StateM σ σ) MonadState.get :=
  fun _ _ hs => ⟨hs, hs⟩

theorem update {f g : σ → σ} (h : ∀ s s', S s s' → S (f s) (g s')) :
    Paired S Eq (modify f : StateM σ PUnit) (modify g) :=
  fun s s' hs => ⟨rfl, h s s' hs⟩

/-- A value that is read off the state. -/
theorem of_get {f g : σ → α} (h : ∀ s s', S s s' → R (f s) (g s')) :
    Paired S R (do return f (← MonadState.get) : StateM σ α)
      (do return g (← MonadState.get)) :=
  fun s s' hs => ⟨h s s' hs, hs⟩

end Paired

end ComputeKernel
