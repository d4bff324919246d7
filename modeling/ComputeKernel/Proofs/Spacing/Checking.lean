import ComputeKernel.Proofs.Spacing.Keys
import ComputeKernel.Proofs.Spacing.Run
import ComputeKernel.Proofs.Typing.Run

/-!
Checking states of two closures that differ in their ranges only. The names and types are noted under
ranges that match, so a note for one closure is found again where its counterpart is for the other.
-/

namespace ComputeKernel

/-- A local without the range of its declaration. -/
def Local.bare (l : Local) : Local := { l with span := ⟨0, 0⟩ }

/-- Whether two models say the same of ranges as in `P`. -/
structure Model.Alike (P : Span → Span → Prop) (m m' : Model) : Prop where
  locals : m.locals.map Local.bare = m'.locals.map Local.bare
  referents : ∀ t t', P t t' → m.referent? t = m'.referent? t'
  types : ∀ t t', P t t' → m.type? t = m'.type? t'

/-- Whether two checks have come to the same. -/
structure Checking.Alike (P : Span → Span → Prop) (s s' : Checking) : Prop where
  model : s.model.Alike P s'.model
  scopes : s.scopes = s'.scopes
  loops : s.loops = s'.loops
  diagnostics : s.diagnostics.map Diagnostic.bare = s'.diagnostics.map Diagnostic.bare

variable {P : Span → Span → Prop}

/-- A value that is noted under ranges that match. -/
theorem SpanMap.get?_insert_alike {α : Type} {m m' : SpanMap α} (hP : Matching P) {s s' t t' : Span}
    (a : α) (hs : P s s') (ht : P t t') (h : m.get? t = m'.get? t') :
    (m.insert s a).get? t = (m'.insert s' a).get? t' := by
  by_cases hts : t = s
  · have hts' : t' = s' := (hP _ _ _ _ ht hs).mp hts
    subst hts hts'
    rw [get?_insert_self, get?_insert_self]
  · have hts' : t' ≠ s' := fun heq => hts ((hP _ _ _ _ ht hs).mpr heq)
    rw [get?_insert_of_ne _ _ hts, get?_insert_of_ne _ _ hts', h]

namespace Model.Alike

variable {m m' : Model}

theorem length_eq (h : m.Alike P m') : m.locals.length = m'.locals.length := by
  simpa using congrArg List.length h.locals

theorem local?_eq (h : m.Alike P m') (id : Nat) :
    (m.local? id).map Local.bare = (m'.local? id).map Local.bare := by
  unfold Model.local?
  rw [← List.getElem?_map, ← List.getElem?_map, h.locals]

theorem any_mutable_eq (h : m.Alike P m') (id : Nat) :
    ((m.local? id).any fun l => ! l.mutable) = (m'.local? id).any fun l => ! l.mutable := by
  have hlocal := congrArg (Option.any fun l => ! l.mutable) (h.local?_eq id)
  rw [Option.any_map, Option.any_map] at hlocal
  exact hlocal

theorem names_eq (h : m.Alike P m') : m.locals.map Local.name = m'.locals.map Local.name := by
  have hnames := congrArg (List.map Local.name) h.locals
  rw [List.map_map, List.map_map] at hnames
  exact hnames

end Model.Alike

namespace Checking

variable {s s' : Checking}

theorem Alike.report (h : s.Alike P s') {d d' : Diagnostic} (hd : d.bare = d'.bare) :
    Checking.Alike P { s with diagnostics := s.diagnostics ++ [d] }
      { s' with diagnostics := s'.diagnostics ++ [d'] } :=
  ⟨h.model, h.scopes, h.loops, Diagnostic.bare_append h.diagnostics hd⟩

theorem Alike.noteType (h : s.Alike P s') (hP : Matching P) {span span' : Span}
    (hspan : P span span') (t : Ty) : (s.noteType span t).Alike P (s'.noteType span' t) :=
  ⟨⟨h.model.locals, h.model.referents, fun _ _ ht =>
      SpanMap.get?_insert_alike hP t hspan ht (h.model.types _ _ ht)⟩,
    h.scopes, h.loops, h.diagnostics⟩

theorem Alike.noteReferent (h : s.Alike P s') (hP : Matching P) {span span' : Span}
    (hspan : P span span') (r : Referent) :
    (s.noteReferent span r).Alike P (s'.noteReferent span' r) :=
  ⟨⟨h.model.locals, fun _ _ ht =>
      SpanMap.get?_insert_alike hP r hspan ht (h.model.referents _ _ ht), h.model.types⟩,
    h.scopes, h.loops, h.diagnostics⟩

theorem Alike.settle (h : s.Alike P s') (t : Typed) (target : Ty) :
    (s.settle t target).Alike P (s'.settle t target) := by
  unfold Checking.settle
  split
  · rename_i id _
    refine ⟨⟨?_, h.model.referents, h.model.types⟩, h.scopes, h.loops, h.diagnostics⟩
    apply List.ext_getElem?
    intro i
    have hlocal := h.model.local?_eq i
    unfold Model.local? at hlocal
    simp only [List.getElem?_map, List.getElem?_modify]
    split
    · revert hlocal
      cases s.model.locals[i]? <;> cases s'.model.locals[i]? <;> simp +contextual [Local.bare]
    · simpa using hlocal
  · exact h

theorem Alike.declare (h : s.Alike P s') (hP : Matching P) {name name' : Name}
    (htext : name.text = name'.text) (hspan : P name.span name'.span) (type : Ty) (mutable : Bool)
    (family : Option LiteralFamily) :
    (s.declare name type mutable family).Alike P (s'.declare name' type mutable family) := by
  have hlength := h.model.length_eq
  refine ⟨⟨?_, fun t t' ht => ?_, h.model.types⟩, ?_, h.loops, h.diagnostics⟩
  · simp only [Checking.declare, List.map_append, h.model.locals, List.map_singleton, Local.bare,
      htext]
  · show (s.model.referents.insert _ _).get? t = (s'.model.referents.insert _ _).get? t'
    rw [hlength]
    exact SpanMap.get?_insert_alike hP _ hspan ht (h.model.referents _ _ ht)
  · simp only [Checking.declare, h.scopes, htext, hlength]

end Checking

namespace Check

variable {α : Type}

theorem report_paired {d d' : Diagnostic} (hd : d.bare = d'.bare) :
    Paired (Checking.Alike P) Eq (report d) (report d') :=
  Paired.update fun _ _ h => h.report hd

theorem error_paired (message : String) (span span' : Span) :
    Paired (Checking.Alike P) Eq (error message span) (error message span') := report_paired rfl

theorem errorWithHelp_paired (message help : String) (span span' : Span) :
    Paired (Checking.Alike P) Eq (errorWithHelp message help span)
      (errorWithHelp message help span') := report_paired rfl

theorem fail_paired (message : String) (span span' : Span) :
    Paired (Checking.Alike P) Eq (fail message span) (fail message span') :=
  (error_paired message span span').seq (Paired.pure rfl)

theorem failWithHelp_paired (message help : String) (span span' : Span) :
    Paired (Checking.Alike P) Eq (failWithHelp message help span)
      (failWithHelp message help span') :=
  (errorWithHelp_paired message help span span').seq (Paired.pure rfl)

theorem setReferent_paired (hP : Matching P) {span span' : Span} (hspan : P span span')
    (r : Referent) :
    Paired (Checking.Alike P) Eq (setReferent span r) (setReferent span' r) :=
  Paired.update fun _ _ h => h.noteReferent hP hspan r

theorem setType_paired (hP : Matching P) {span span' : Span} (hspan : P span span') (t : Ty) :
    Paired (Checking.Alike P) Eq (setType span t) (setType span' t) :=
  Paired.update fun _ _ h => h.noteType hP hspan t

theorem typed_paired (hP : Matching P) {span span' : Span} (hspan : P span span')
    (t : Option Typed) : Paired (Checking.Alike P) Eq (typed span t) (typed span' t) := by
  cases t with
  | none => exact Paired.pure rfl
  | some t => exact (setType_paired hP hspan t.type).seq (Paired.pure rfl)

/-- A step whose value is noted. -/
theorem bind_typed_paired (hP : Matching P) {span span' : Span} (hspan : P span span')
    {p q : Check (Option Typed)} (h : Paired (Checking.Alike P) Eq p q) :
    Paired (Checking.Alike P) Eq (do typed span (← p)) (do typed span' (← q)) :=
  h.bind_eq fun t => typed_paired hP hspan t

theorem openScope_paired : Paired (Checking.Alike P) Eq openScope openScope :=
  Paired.update fun _ _ h => ⟨h.model, congrArg ([] :: ·) h.scopes, h.loops, h.diagnostics⟩

theorem closeScope_paired : Paired (Checking.Alike P) Eq closeScope closeScope :=
  Paired.update fun _ _ h => ⟨h.model, congrArg (List.drop 1) h.scopes, h.loops, h.diagnostics⟩

theorem declare_paired (hP : Matching P) {name name' : Name} (htext : name.text = name'.text)
    (hspan : P name.span name'.span) (type : Ty) (mutable : Bool)
    (family : Option LiteralFamily) :
    Paired (Checking.Alike P) Eq (declare name type mutable family)
      (declare name' type mutable family) :=
  fun _ _ h => ⟨rfl, h.declare hP htext hspan type mutable family⟩

theorem findLocal?_paired (name : String) :
    Paired (Checking.Alike P) Eq (findLocal? name) (findLocal? name) :=
  Paired.of_get fun _ _ h => congrArg (List.findSome? _) h.scopes

theorem settle_paired (t : Typed) (target : Ty) :
    Paired (Checking.Alike P) Eq (settle t target) (settle t target) := by
  intro s s' h
  have hstate := h.settle t target
  obtain ⟨type, family, origin⟩ := t
  cases origin with
  | none => exact ⟨rfl, hstate⟩
  | some id => exact ⟨rfl, hstate⟩

theorem coerce_paired (t : Typed) (target : Ty) :
    Paired (Checking.Alike P) Eq (coerce t target) (coerce t target) := by
  unfold coerce
  split
  · exact (settle_paired t target).seq (Paired.pure rfl)
  · split
    · split
      · exact (settle_paired t _).seq (Paired.pure rfl)
      · exact Paired.pure rfl
    · exact Paired.pure rfl

theorem unify_paired (a b : Typed) :
    Paired (Checking.Alike P) Eq (unify a b) (unify a b) := by
  unfold unify
  split
  · exact Paired.pure rfl
  · exact (coerce_paired a b.type).bind_eq fun fits => Paired.pure rfl
  · exact (coerce_paired b a.type).bind_eq fun fits => Paired.pure rfl
  · exact Paired.pure rfl

end Check

end ComputeKernel
