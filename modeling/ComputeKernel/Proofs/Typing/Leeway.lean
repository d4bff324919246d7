import ComputeKernel.Proofs.Typing.Openness

/-!
Uses of open locals. The operation that an open local is an operand of settles the local on a type or
takes a copy of its value. Behind the operation a local that it has settled rests on the type: it ends
with it, unless it is settled anew.
-/

namespace ComputeKernel

namespace Check

variable {catalog : Catalog} {m : Model} {W : Leeway} {Γ : Env} {s s₁ s' : Checking} {T : Ty}

/-! ### Types that values fit -/

/-- A settled value fits its type only. -/
theorem eq_of_fits {t : Typed} (h : t.Fits T) (ht : t.family = none) : T = t.type := by
  rcases h with rfl | ⟨f, k, hf, _⟩
  · rfl
  · cases ht.symm.trans hf

theorem Unifies.fits {a b t : Typed} (h : Unifies a b s t s') (hT : t.Fits T) :
    a.Fits T ∧ b.Fits T := by
  cases h with
  | settled ha hb heq =>
    obtain rfl := eq_of_fits hT ha
    exact ⟨.inl rfl, .inl heq.symm⟩
  | left _ hb hfits =>
    obtain rfl := eq_of_fits hT hb
    exact ⟨hfits, .inl rfl⟩
  | right ha _ hfits =>
    obtain rfl := eq_of_fits hT ha
    exact ⟨.inl rfl, hfits⟩
  | «open» ha hb heq =>
    rcases hT with rfl | ⟨f, k, hf, rfl, haccepts⟩
    · exact ⟨.inl rfl, .inl heq.symm⟩
    · exact ⟨.inr ⟨f, k, ha.trans hf, rfl, haccepts⟩, .inr ⟨f, k, hb.trans hf, rfl, haccepts⟩⟩

/-! ### Settled locals -/

/-- Whether a local ends with a type, or had been settled on it before it was settled anew. -/
def Rests (m : Model) (W : Leeway) (id : Nat) (T : Ty) : Prop :=
  (∃ l, m.local? id = some l ∧ l.type = T) ∨ W.relapses id T

/-- Whether all locals that are settled in a state rest on their types. -/
def Rested (m : Model) (W : Leeway) (s : Checking) : Prop :=
  ∀ id l, s.model.local? id = some l → l.family = none → Rests m W id l.type

/-- Whether what an operation copies and settles is within the leeway that there is for uses. -/
def Applied.Within (m : Model) (W : Leeway) (step : Applied) : Prop :=
  step.operation.copies ⊆ W.copies ∧ Rested m W step.state

/-- Runs in which all values that come from locals settle on one type. -/
inductive SettleOn (T : Ty) : List Typed → Checking → Checking → Prop where
  | nil (s : Checking) : SettleOn T [] s s
  | cons {t : Typed} {ts target} {s s' : Checking} : (∀ id, t.origin = some id → target = T) →
      SettleOn T ts (s.settle t target) s' → SettleOn T (t :: ts) s s'

theorem SettleOn.single {t : Typed} : SettleOn T [t] s (s.settle t T) :=
  .cons (fun _ _ => rfl) (.nil _)

/-- Behind such a run the locals are settled on the type. -/
theorem SettleOn.local? {ts : List Typed} (h : SettleOn T ts s s') {id : Nat} {l : Local}
    (hl : s.model.local? id = some l)
    (hid : l.type = T ∧ l.family = none ∨ ∃ t ∈ ts, t.origin = some id) :
    ∃ l', s'.model.local? id = some l' ∧ l'.family = none ∧ l'.type = T := by
  induction h generalizing l with
  | nil =>
    obtain ⟨htype, hfamily⟩ := hid.resolve_right nofun
    exact ⟨l, hl, hfamily, htype⟩
  | @cons t ts target s s' htarget _ ih =>
    by_cases horigin : t.origin = some id
    · exact ih (Checking.local?_settle_of_origin hl horigin) (.inl ⟨htarget id horigin, rfl⟩)
    · refine ih ((Checking.local?_settle_of_ne horigin).trans hl) (hid.imp_right ?_)
      rintro ⟨t', ht', horigin'⟩
      rcases List.mem_cons.mp ht' with rfl | ht'
      · exact (horigin horigin').elim
      · exact ⟨t', ht', horigin'⟩

/-- The local that a value comes from. -/
theorem exists_local_of_grounded {opens : List (Option LiteralFamily)} {t : Typed}
    (hr : Respected opens s.model.locals) (ht : t.Grounded opens) {id : Nat}
    (hid : t.origin = some id) : ∃ l, s.model.local? id = some l := by
  obtain ⟨hlt, _⟩ := List.getElem?_eq_some_iff.mp (ht.origin id hid)
  exact ⟨_, List.getElem?_eq_getElem (hr.length_eq ▸ hlt)⟩

theorem SettleOn.rests {opens : List (Option LiteralFamily)} {ts : List Typed} (h : SettleOn T ts s s')
    (hs' : Rested m W s') (hr : Respected opens s.model.locals) (hts : ∀ t ∈ ts, t.Grounded opens)
    {t : Typed} (ht : t ∈ ts) {id : Nat} (hid : t.origin = some id) : Rests m W id T := by
  obtain ⟨l, hl⟩ := exists_local_of_grounded hr (hts t ht) hid
  obtain ⟨l', hl', hfamily, rfl⟩ := h.local? hl (.inr ⟨t, ht, hid⟩)
  exact hs' id l' hl' hfamily

/-! ### Uses -/

/-- Whether a copy is taken of the local that an expression names, if it names an open one. -/
def Copied (W : Leeway) (e : Expr) (t : Typed) : Prop := t.origin.isSome → e.core.span ∈ W.copies

/-- Whether the local that an expression names, if it names an open one, rests on a type or is copied. -/
def Admits (m : Model) (W : Leeway) (e : Expr) (t : Typed) (T : Ty) : Prop :=
  ∀ id, t.origin = some id → e.core.span ∈ W.copies ∨ Rests m W id T

section Uses

variable {e : Expr} {t : Typed}

theorem copied_of_use (h : (Operand.of s e t).use ⊆ W.copies) : Copied W e t := fun hid =>
  h <| by
    rw [Operand.use, show (Operand.of s e t).value.origin.isSome = true from hid, if_pos rfl]
    exact List.mem_singleton_self _

theorem Copied.admits (h : Copied W e t) (T : Ty) : Admits m W e t T :=
  fun _ hid => .inl (h (by rw [hid]; rfl))

theorem origin_eq_none (ht : t.Sound) (h : t.family = none) : t.origin = none := by
  refine Option.eq_none_iff_forall_ne_some.mpr fun id hid => ?_
  obtain ⟨f, hf⟩ := ht.origin id hid
  cases h.symm.trans hf

theorem admits_of_origin (h : t.origin = none) (T : Ty) : Admits m W e t T :=
  fun _ hid => nomatch h.symm.trans hid

theorem admits_of_closed (ht : t.Sound) (h : t.family = none) (T : Ty) : Admits m W e t T :=
  admits_of_origin (origin_eq_none ht h) T

/-- Whether a use of an expression can have a type: one that its value fits and that is admitted. -/
structure Suits (m : Model) (W : Leeway) (e : Expr) (t : Typed) (T : Ty) : Prop where
  fits : t.Fits T
  admits : Admits m W e t T

theorem Suits.of_closed (ht : t.Sound) (h : t.family = none) : Suits m W e t t.type :=
  ⟨.inl rfl, admits_of_closed ht h _⟩

theorem SettleOn.admits {opens : List (Option LiteralFamily)} {ts : List Typed}
    (h : SettleOn T ts s s') (hs' : Rested m W s') (hr : Respected opens s.model.locals)
    (hts : ∀ t ∈ ts, t.Grounded opens) (ht : t ∈ ts) : Admits m W e t T :=
  fun _ hid => .inr (h.rests hs' hr hts ht hid)

/-- What settles on a type has it at its use. -/
theorem suits_of_settle {opens : List (Option LiteralFamily)} (e : Expr) (hs' : Rested m W (s.settle t T))
    (hr : Respected opens s.model.locals) (ht : t.Grounded opens) (hfits : t.Fits T) :
    Suits m W e t T :=
  ⟨hfits, SettleOn.single.admits hs' hr (List.forall_mem_singleton.mpr ht) (List.mem_singleton_self t)⟩

end Uses

/-! ### Operands -/

section Operands

variable {opens : List (Option LiteralFamily)} {s₀ : Checking} {ea eb : Expr} {a b t : Typed}

theorem copied_of_copiesOf (h : copiesOf (.of s₀ ea a) (.of s₀ eb b) ⊆ W.copies)
    (ha : a.family.isSome) (hb : b.family.isSome) : Copied W ea a ∧ Copied W eb b := by
  have hopen : ((Operand.of s₀ ea a).value.family.isSome &&
      (Operand.of s₀ eb b).value.family.isSome) = true := Bool.and_eq_true_iff.mpr ⟨ha, hb⟩
  rw [copiesOf, if_pos hopen, List.append_subset] at h
  exact h.imp copied_of_use copied_of_use

/-- A place that the value of an assignment fits is copied. -/
theorem copies_assign (place value : Operand) (h : value.value.Fits place.value.type) :
    (Operation.assign none place value).copies = place.use := if_pos h

/-- Values that come together have the types that their common type fits. -/
theorem Unifies.suits (h : Unifies a b s t s') (hr : Respected opens s.model.locals)
    (ha : a.Grounded opens) (hb : b.Grounded opens)
    (hcopies : copiesOf (.of s₀ ea a) (.of s₀ eb b) ⊆ W.copies) (hs' : Rested m W s')
    (hT : t.Fits T) : Suits m W ea a T ∧ Suits m W eb b T := by
  obtain ⟨hfitsA, hfitsB⟩ := h.fits hT
  cases h with
  | settled hclosedA hclosedB =>
    exact ⟨⟨hfitsA, admits_of_closed ha.sound hclosedA T⟩,
      ⟨hfitsB, admits_of_closed hb.sound hclosedB T⟩⟩
  | left _ hclosed =>
    obtain rfl := eq_of_fits hT hclosed
    exact ⟨suits_of_settle _ hs' hr ha hfitsA, ⟨hfitsB, admits_of_closed hb.sound hclosed _⟩⟩
  | right hclosed =>
    obtain rfl := eq_of_fits hT hclosed
    exact ⟨⟨hfitsA, admits_of_closed ha.sound hclosed _⟩, suits_of_settle _ hs' hr hb hfitsB⟩
  | «open» hopenA hopenB =>
    obtain ⟨hcopiedA, hcopiedB⟩ := copied_of_copiesOf hcopies (by simp [hopenA]) (by simp [hopenB])
    exact ⟨⟨hfitsA, hcopiedA.admits T⟩, ⟨hfitsB, hcopiedB.admits T⟩⟩

theorem CoercesAll.settleOn {type : Ty} {args : List Argument} (h : CoercesAll type args s s') :
    SettleOn type (args.map (·.typed)) s s' := by
  induction h with
  | nil => exact .nil _
  | cons _ _ ih => exact .cons (fun _ _ => rfl) ih

/-- A value that comes from a local is a scalar. -/
theorem exists_scalar_of_origin (ht : t.Sound) {id : Nat} (hid : t.origin = some id) :
    ∃ k, t.type = .scalar k := by
  obtain ⟨f, hf⟩ := ht.origin id hid
  exact (ht.openTo f hf).imp fun _ h => h.1

theorem IntrinsicArguments.settleOn {kind : ScalarKind} {common : ValueType} {args : List Argument}
    (h : IntrinsicArguments kind common args s s') (hargs : ∀ a ∈ args, a.typed.Sound) :
    SettleOn (.scalar kind) (args.map (·.typed)) s s' := by
  induction h with
  | nil => exact .nil _
  | cons _ _ ih =>
    obtain ⟨hfirst, hrest⟩ := List.forall_mem_cons.mp hargs
    refine .cons (fun id hid => ?_) (ih hrest)
    obtain ⟨k, hk⟩ := exists_scalar_of_origin hfirst hid
    rw [intrinsicTarget, hk]

theorem Supplies.settleOn {built : ValueType} {args : List Argument} {n : UInt8}
    (h : Supplies built args s n s') (hargs : ∀ a ∈ args, a.typed.Sound) :
    SettleOn (.scalar built.kind) (args.map (·.typed)) s s' := by
  induction h with
  | nil => exact .nil _
  | @vector arg args s s' _ _ htype _ ih =>
    obtain ⟨hfirst, hrest⟩ := List.forall_mem_cons.mp hargs
    have hnone : arg.typed.origin = none := Option.eq_none_iff_forall_ne_some.mpr fun id hid => by
      obtain ⟨k, hk⟩ := exists_scalar_of_origin hfirst hid
      cases htype.symm.trans hk
    have hsettles : SettleOn (.scalar built.kind) (args.map (·.typed))
        (s.settle arg.typed (.scalar built.kind)) s' := by
      rw [Checking.settle, hnone]
      exact ih hrest
    exact .cons (fun _ _ => rfl) hsettles
  | scalar _ _ _ ih =>
    exact .cons (fun _ _ => rfl) (ih (List.forall_mem_cons.mp hargs).2)

end Operands

end Check

end ComputeKernel
