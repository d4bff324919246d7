import ComputeKernel.Proofs.Quiet
import ComputeKernel.Typing.Check

/-!
What the elementary checking steps do in a quiet run: they note types and resolutions, and they
settle the type of a local that was open.
-/

namespace ComputeKernel

instance : Reporting Checking := ⟨Checking.diagnostics⟩

namespace Checking

def noteType (s : Checking) (span : Span) (t : Ty) : Checking :=
  { s with model.types := s.model.types.insert span t }

def noteReferent (s : Checking) (span : Span) (r : Referent) : Checking :=
  { s with model.referents := s.model.referents.insert span r }

/-- The state in which the local that `t` comes from, if it comes from one, has the type `target`. -/
def settle (s : Checking) (t : Typed) (target : Ty) : Checking :=
  match t.origin with
  | some id =>
    { s with
      model.locals := s.model.locals.modify id fun l => { l with type := target, family := none } }
  | none => s

/-- The state with one more local, in the innermost scope. -/
def declare (s : Checking) (name : Name) (type : Ty) (mutable : Bool)
    (family : Option LiteralFamily) : Checking :=
  { s with
    model :=
      { s.model with
        locals :=
          s.model.locals ++ [{ name := name.text, type, mutable, span := name.span, family }]
        referents := s.model.referents.insert name.span (.local s.model.locals.length) }
    scopes := match s.scopes with
      | scope :: outer => ((name.text, s.model.locals.length) :: scope) :: outer
      | [] => [] }

/-- The local that a name stands for. -/
def find? (s : Checking) (name : String) : Option Nat :=
  s.scopes.findSome? fun scope => scope.lookup name

end Checking

/-- Whether a value has the type `target` or can settle on it. -/
def Typed.Fits (t : Typed) (target : Ty) : Prop :=
  t.type = target ∨
    ∃ family k, t.family = some family ∧ target = .scalar k ∧ family.accepts k

namespace Check

variable {α : Type}

/-! ### Faults -/

theorem error_quiet (message : String) (span : Span) {R : Checking → Unit → Checking → Prop} :
    Quiet (error message span) R :=
  Quiet.not_report (fun _ => .error message span) fun _ => rfl

theorem errorWithHelp_quiet (message help : String) (span : Span)
    {R : Checking → Unit → Checking → Prop} : Quiet (errorWithHelp message help span) R :=
  Quiet.not_report (fun _ => (Diagnostic.error message span).withHelp help) fun _ => rfl

theorem report_quiet (d : Diagnostic) {R : Checking → Unit → Checking → Prop} :
    Quiet (report d) R :=
  Quiet.not_report (fun _ => d) fun _ => rfl

theorem fail_quiet (message : String) (span : Span)
    {R : Checking → Option Typed → Checking → Prop} : Quiet (fail message span) R :=
  Quiet.not_report (fun _ => .error message span) fun _ => rfl

theorem failWithHelp_quiet (message help : String) (span : Span)
    {R : Checking → Option Typed → Checking → Prop} : Quiet (failWithHelp message help span) R :=
  Quiet.not_report (fun _ => (Diagnostic.error message span).withHelp help) fun _ => rfl

/-! ### Notes -/

theorem setReferent_quiet (span : Span) (r : Referent) :
    Quiet (setReferent span r) fun s _ s' => s' = s.noteReferent span r :=
  Quiet.of_keeps (fun _ => rfl) fun _ => rfl

theorem setType_quiet (span : Span) (t : Ty) :
    Quiet (setType span t) fun s _ s' => s' = s.noteType span t :=
  Quiet.of_keeps (fun _ => rfl) fun _ => rfl

theorem declare_quiet (name : Name) (type : Ty) (mutable : Bool) (family : Option LiteralFamily) :
    Quiet (declare name type mutable family) fun s _ s' =>
      s' = s.declare name type mutable family :=
  Quiet.of_keeps (fun _ => rfl) fun _ => rfl

theorem findLocal?_quiet (name : String) :
    Quiet (findLocal? name) fun s id s' => id = s.find? name ∧ s' = s :=
  Quiet.of_keeps (fun _ => rfl) fun _ => ⟨rfl, rfl⟩

theorem typed_grows {p : Check (Option Typed)} (span : Span) (hp : Quiet p fun _ _ _ => True) :
    Quiet (p >>= typed span) fun _ _ _ => True := by
  refine hp.bind fun t => ?_
  cases t with
  | none => exact Quiet.pure fun _ _ _ => trivial
  | some v => exact (setType_quiet span v.type).bind fun _ => Quiet.pure fun _ _ _ _ _ => trivial

/-! ### Unsettled types -/

theorem settle_quiet (t : Typed) (target : Ty) :
    Quiet (settle t target) fun s _ s' => s' = s.settle t target := by
  obtain ⟨type, family, origin⟩ := t
  cases origin with
  | none => exact Quiet.pure fun _ => rfl
  | some id => exact Quiet.of_keeps (fun _ => rfl) fun _ => rfl

theorem coerce_quiet (t : Typed) (target : Ty) :
    Quiet (coerce t target) fun s done s' =>
      (done = true ∧ t.Fits target ∧ s' = s.settle t target) ∨
        (done = false ∧ ¬ t.Fits target ∧ s' = s) := by
  unfold coerce
  split
  · rename_i heq
    exact (settle_quiet t target).bind fun _ => Quiet.pure fun s' s hs' =>
      Or.inl ⟨rfl, Or.inl heq, hs'⟩
  · rename_i hne
    split
    · rename_i family k hfamily
      split
      · rename_i haccepts
        exact (settle_quiet t _).bind fun _ => Quiet.pure fun s' s hs' =>
          Or.inl ⟨rfl, Or.inr ⟨family, k, hfamily, rfl, haccepts⟩, hs'⟩
      · rename_i haccepts
        refine Quiet.pure fun s => Or.inr ⟨rfl, ?_, rfl⟩
        rintro (heq | ⟨family', k', hfamily', hk, haccepts'⟩)
        · exact hne heq
        · rw [hfamily, Option.some.injEq] at hfamily'
          rw [Ty.value.injEq, ValueType.scalar.injEq] at hk
          rw [hfamily', hk] at haccepts
          exact haccepts haccepts'
    · rename_i hnot
      refine Quiet.pure fun s => Or.inr ⟨rfl, ?_, rfl⟩
      rintro (heq | ⟨family, k, hfamily, hk, _⟩)
      · exact hne heq
      · exact hnot family k hfamily hk

end Check

end ComputeKernel
