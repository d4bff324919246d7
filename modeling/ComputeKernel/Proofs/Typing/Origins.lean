import ComputeKernel.Proofs.Typing.Openness

/-!
Where values come from. What an operation gives comes from no local, so that settling it later changes
none. Only a name stands for the local that it names, and only where that is open when the name is read.
-/

namespace ComputeKernel.Check

/-- Whether a value, if there is one, comes from no local. -/
def IsDetached (t : Option Typed) : Prop := ∀ v ∈ t, v.origin = none

/-- Whether no value that a step gives comes from a local. -/
class Detached (p : Check (Option Typed)) : Prop where
  isDetached (s : Checking) : IsDetached (p.run s).1

namespace Detached

variable {α : Type} {p q : Check (Option Typed)}

instance none : Detached (pure none) := ⟨fun _ => nofun⟩

theorem some {t : Typed} (h : t.origin = Option.none) : Detached (pure (Option.some t)) := by
  refine ⟨fun _ t' ht' => ?_⟩
  obtain rfl := Option.some.inj ht'
  exact h

instance plain (type : Ty) (family : Option LiteralFamily) :
    Detached (pure (Option.some { type, family })) := some rfl

instance detached (t : Typed) : Detached (pure (Option.some t.detached)) := some rfl

instance map {β : Type} (o : Option β) (f : β → Ty) :
    Detached (pure (o.map fun b => { type := f b })) := by
  cases o with
  | none => exact none
  | some b => exact some rfl

instance elim {o : Option α} {f : α → Check (Option Typed)} [hp : Detached p]
    [hf : ∀ a, Detached (f a)] : Detached (o.elim p f) := by
  cases o with
  | none => exact hp
  | some a => exact hf a

theorem seq {r : Check α} {f : α → Check (Option Typed)} (h : ∀ a, Detached (f a)) :
    Detached (r >>= f) := ⟨fun s => (h (r.run s).1).isDetached (r.run s).2⟩

instance bind (r : Check α) (f : α → Check (Option Typed)) [h : ∀ a, Detached (f a)] :
    Detached (r >>= f) := seq h

instance ite {c : Prop} [Decidable c] [Detached p] [Detached q] : Detached (if c then p else q) := by
  split <;> infer_instance

end Detached

instance (message : String) (span : Span) : Detached (fail message span) :=
  inferInstanceAs (Detached (_ >>= fun _ => pure none))

instance (message help : String) (span : Span) : Detached (failWithHelp message help span) :=
  inferInstanceAs (Detached (_ >>= fun _ => pure none))

/-- Noting a type changes no value. -/
theorem fst_typed (span : Span) (t : Option Typed) (s : Checking) :
    ((typed span t).run s).1 = t := by
  cases t <;> rfl

instance (p : Check (Option Typed)) [h : Detached p] (span : Span) :
    Detached (p >>= fun t => typed span t) := by
  refine ⟨fun s => ?_⟩
  have hfst : ((p >>= fun t => typed span t).run s).1 = (p.run s).1 := fst_typed span _ _
  rw [hfst]
  exact h.isDetached s

instance (span : Span) (v : Literal) : Detached (typed span (Option.some (literal v))) := by
  refine ⟨fun s t ht => ?_⟩
  rw [fst_typed] at ht
  obtain rfl := Option.some.inj ht
  exact origin_literal v

/-- How a check goes on behind a step of which the value is known. -/
theorem run_bind_of_fst {α β : Type} {p : Check α} {f : α → Check β} {s : Checking} {a : α}
    (h : (p.run s).1 = a) : (p >>= f).run s = (f a).run (p.run s).2 := by
  subst h
  rfl

theorem run_bind_elim {α β : Type} (p : Check (Option α)) (f : Option α → Check β) (s : Checking) :
    (p >>= f).run s = ((p.run s).1.elim (f none) fun a => f (some a)).run (p.run s).2 := by
  cases h : (p.run s).1 with
  | none => exact run_bind_of_fst h
  | some a => exact run_bind_of_fst h

/-- A value is found only if the operand has one. -/
theorem exists_of_found {α : Type} {o : Option α} {f : α → Check (Option Typed)} {s : Checking}
    {t : Typed} (h : ((o.elim (pure none) f).run s).1 = some t) :
    ∃ a, o = some a ∧ ((f a).run s).1 = some t := by
  cases o with
  | none => cases h
  | some a => exact ⟨a, rfl, h⟩

/-! ### Operations -/

instance (op : UnaryOp) (t : Typed) (span : Span) : Detached (unary op t span) := by
  unfold unary
  infer_instance

instance (op : BinaryOp) (left right : Typed) (span : Span) :
    Detached (scalarBinary op left right span) := by
  unfold scalarBinary
  split
  · split
    · infer_instance
    · refine .seq fun common => ?_
      split <;> infer_instance
  · infer_instance

instance (receiver : Shader.Receiver) (op : BinaryOp) (left right : Typed) (span : Span) :
    Detached (aggregateBinary receiver op left right span) := by
  unfold aggregateBinary
  split
  split
  · infer_instance
  · split <;> infer_instance

instance (op : BinaryOp) (left right : Typed) (span : Span) :
    Detached (binary op left right span) := by
  unfold binary
  split
  · infer_instance
  · split <;> infer_instance

instance (t : Typed) (target : TypeRef) : Detached (cast t target) := by
  unfold cast
  split <;> infer_instance

instance (receiver : Typed) (member : Name) : Detached (field receiver member) := by
  unfold field
  split <;> infer_instance

instance (callee : String) (expected found : Nat) (span : Span) :
    Detached (arity callee expected found span) := by
  unfold arity
  infer_instance

instance (receiver : Typed) (k : ScalarKind) (m : Shader.ScalarMethod) (member : Name) (count : Nat)
    (args : Option (List Argument)) : Detached (scalarMethod receiver k m member count args) := by
  unfold scalarMethod
  cases args <;> infer_instance

instance (receiver : Typed) (member : Name) (count : Nat) (args : Option (List Argument)) :
    Detached (method receiver member count args) := by
  unfold method
  dsimp only
  split
  · infer_instance
  · split
    · split <;> infer_instance
    · infer_instance
  · split <;> infer_instance
  · infer_instance

instance (name : String) (args : List Argument) (span : Span) : Detached (product name args span) := by
  unfold product
  split
  · split
    · split <;> infer_instance
    · infer_instance
  · infer_instance

instance (i : Shader.Intrinsic) (args : List Argument) (span : Span) :
    Detached (intrinsicResult i args span) := by
  unfold intrinsicResult
  split <;> infer_instance

instance (callee : Path) (calleeSpan : Span) (count : Nat) (args : Option (List Argument))
    (span : Span) : Detached (intrinsic callee calleeSpan count args span) := by
  unfold intrinsic
  split
  · infer_instance
  · split
    · infer_instance
    · split
      · infer_instance
      · split <;> infer_instance

instance (built : ValueType) (callee : Path) (args : List Argument) (span : Span) :
    Detached (newValue built callee args span) := by
  unfold newValue
  refine .seq fun found => ?_
  split <;> infer_instance

instance (built : ValueType) (callee : Path) (calleeSpan : Span) (args : List Argument) :
    Detached (splatValue built callee calleeSpan args) := by
  unfold splatValue
  split <;> infer_instance

instance (owner : String) (callee : Path) (calleeSpan : Span) (args : Option (List Argument))
    (span : Span) : Detached (construct owner callee calleeSpan args span) := by
  unfold construct
  split
  · split
    · infer_instance
    · split
      · infer_instance
      · split <;> infer_instance
  · infer_instance

instance (callee : Path) (calleeSpan : Span) (count : Nat) (args : Option (List Argument))
    (span : Span) : Detached (call callee calleeSpan count args span) := by
  have : Detached (call.noFunction callee calleeSpan) := by
    unfold call.noFunction
    infer_instance
  unfold call
  split
  · infer_instance
  · infer_instance

instance (base : Typed) (baseSpan : Span) (index : Typed) (indexSpan : Span) :
    Detached (element base baseSpan index indexSpan) := by
  unfold element
  split
  · infer_instance
  · split <;> infer_instance

instance (k : ScalarKind) (rows columns : Nat) (items : List Expr) (span : Span) :
    Detached (matrixSwizzle k rows columns items span) := by
  unfold matrixSwizzle
  infer_instance

/-! ### Names -/

instance (index : Nat) (f : FieldDecl) (span : Span) : Detached (captureType index f span) := by
  unfold captureType
  split <;> infer_instance

instance (index : Nat) (s : StaticDecl) (span : Span) : Detached (staticType index s span) := by
  unfold staticType
  split <;> infer_instance

instance (statics : List StaticDecl) (path : Path) (span : Span) :
    Detached (static statics path span) := by
  unfold static
  split
  · infer_instance
  · split <;> infer_instance
  · infer_instance

instance (catalog : Catalog) (p : Path) (span : Span) : Detached (path catalog p span) := by
  unfold path
  infer_instance

/-- A local that a value comes from is open when it is read. -/
theorem family_ne_none_of_localType {s : Checking} {t : Typed} {id i : Nat} {l : Local}
    (h : ((localType i).run s).1 = some t) (hid : t.origin = some id)
    (hl : s.model.local? id = some l) : l.family ≠ none := by
  have hrun : ((localType i).run s).1 = (s.model.local? i).bind fun l =>
      if l.type = .unknown then none
      else some { type := l.type, family := l.family, origin := l.family.map fun _ => i } := by
    simp only [localType, StateT.run_bind, StateT.run_get, pure_bind]
    cases s.model.local? i with
    | none => rfl
    | some l =>
      dsimp only [Option.bind_some]
      split <;> rfl
  rw [hrun, Option.bind_eq_some_iff] at h
  obtain ⟨l', hl', h⟩ := h
  cases (Option.ite_none_left_eq_some.mp h).2
  obtain ⟨f, hf, rfl⟩ := Option.map_eq_some_iff.mp hid
  obtain rfl : l' = l := Option.some.inj (hl'.symm.trans hl)
  exact hf ▸ nofun

theorem family_ne_none_of_name {catalog : Catalog} {text : String} {span : Span} {s : Checking}
    {t : Typed} {id : Nat} {l : Local} (h : ((name catalog text span).run s).1 = some t)
    (hid : t.origin = some id) (hl : s.model.local? id = some l) : l.family ≠ none := by
  cases hfind : s.find? text with
  | some i =>
    rw [name, run_bind_of_fst (show ((findLocal? text).run s).1 = _ from hfind)] at h
    exact family_ne_none_of_localType (s := s.noteReferent span (.local i)) h hid hl
  | none =>
    rw [name, run_bind_of_fst (show ((findLocal? text).run s).1 = _ from hfind)] at h
    refine nomatch hid.symm.trans (@Detached.isDetached _ ?_ s t h)
    dsimp only
    split
    · split <;> infer_instance
    · infer_instance

/-! ### Common values -/

/-- The common value of two, if there is one, is one of them or comes from no local. -/
theorem found_of_unify {a b : Typed} {s : Checking} {t : Typed}
    (h : ((unify a b).run s).1 = some t) : t = a ∨ t = b ∨ t.origin = none := by
  unfold unify at h
  split at h
  · cases (Option.ite_none_right_eq_some.mp h).2
    exact .inl rfl
  · cases (Option.ite_none_right_eq_some.mp h).2
    exact .inr (.inl rfl)
  · cases (Option.ite_none_right_eq_some.mp h).2
    exact .inl rfl
  · cases (Option.ite_none_right_eq_some.mp h).2
    exact .inr (.inr rfl)

theorem found_of_choice {yes no : Typed} {span : Span} {s : Checking} {t : Typed}
    (h : ((choice yes no span).run s).1 = some t) : t = yes ∨ t = no ∨ t.origin = none := by
  cases hunify : ((unify yes no).run s).1 with
  | none =>
    rw [choice, run_bind_of_fst hunify] at h
    cases h
  | some t' =>
    rw [choice, run_bind_of_fst hunify] at h
    obtain rfl : t' = t := Option.some.inj h
    exact found_of_unify hunify
end ComputeKernel.Check
