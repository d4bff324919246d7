import ComputeKernel.Proofs.Typing.Frame

/-!
What operators and calls do to the checking state. They settle open types of operands, one after the
other, each on a type that fits it, and do nothing else.
-/

namespace ComputeKernel

/-- Runs of steps in which one of the values `ts` settles on a type that fits it. -/
inductive Checking.Settling (ts : List Typed) : Checking → Checking → Prop where
  | refl (s) : Settling ts s s
  | step {s s' t target} : t ∈ ts → t.Fits target → Settling ts (s.settle t target) s' →
      Settling ts s s'

namespace Checking.Settling

variable {ts ts' : List Typed} {s s' : Checking}

theorem single {t : Typed} {target : Ty} (ht : t ∈ ts) (hfits : t.Fits target) :
    Settling ts s (s.settle t target) := .step ht hfits (.refl _)

theorem mono (h : Settling ts s s') (hts : ts ⊆ ts') : Settling ts' s s' := by
  induction h with
  | refl => exact .refl _
  | step ht hfits _ ih => exact .step (hts ht) hfits ih

theorem scopes_settle (s : Checking) (t : Typed) (target : Ty) :
    (s.settle t target).scopes = s.scopes := by
  unfold settle
  split <;> rfl

theorem scopes_eq (h : Settling ts s s') : s'.scopes = s.scopes := by
  induction h with
  | refl => rfl
  | step _ _ _ ih => exact ih.trans (scopes_settle _ _ _)

theorem length_locals_settle (s : Checking) (t : Typed) (target : Ty) :
    (s.settle t target).model.locals.length = s.model.locals.length := by
  unfold settle
  split
  · exact List.length_modify _ _ _
  · rfl

theorem length_locals_eq (h : Settling ts s s') :
    s'.model.locals.length = s.model.locals.length := by
  induction h with
  | refl => rfl
  | step _ _ _ ih => exact ih.trans (length_locals_settle _ _ _)

end Checking.Settling

namespace Checking

variable {s : Checking} {t : Typed}

/-- A local behind a settling: it is settled, if the value comes from it, or as it was. -/
theorem local?_settle {id : Nat} {target : Ty} {l : Local}
    (h : (s.settle t target).model.local? id = some l) : ∃ l₀, s.model.local? id = some l₀ ∧
      (t.origin = some id ∧ l = { l₀ with type := target, family := none } ∨
        t.origin ≠ some id ∧ l = l₀) := by
  unfold Checking.settle at h
  split at h
  · rename_i i hi
    rw [Model.local?, List.getElem?_modify] at h
    obtain ⟨l₀, hl₀, rfl⟩ := Option.map_eq_some_iff.mp h
    refine ⟨l₀, hl₀, ?_⟩
    by_cases heq : i = id
    · exact .inl ⟨hi.trans (congrArg some heq), if_pos heq⟩
    · exact .inr ⟨fun h => heq (Option.some.inj (hi.symm.trans h)), if_neg heq⟩
  · rename_i hnone
    exact ⟨l, h, .inr ⟨fun hid => (nomatch hnone.symm.trans hid), rfl⟩⟩

theorem local?_settle_of_origin {id : Nat} {target : Ty} {l : Local}
    (h : s.model.local? id = some l) (ht : t.origin = some id) :
    (s.settle t target).model.local? id = some { l with type := target, family := none } := by
  simp only [Checking.settle, ht, Model.local?, List.getElem?_modify, if_true]
  exact congrArg (Option.map _) h

theorem local?_settle_of_ne {id : Nat} {target : Ty} (ht : t.origin ≠ some id) :
    (s.settle t target).model.local? id = s.model.local? id := by
  unfold Checking.settle
  split
  · rename_i i hi
    have hne : i ≠ id := fun heq => ht (hi.trans (congrArg some heq))
    simp only [Model.local?, List.getElem?_modify, if_neg hne]
    cases s.model.locals[id]? <;> rfl
  · rfl

end Checking

namespace Check

open Checking

variable {s s' : Checking}

/-! ### Operators -/

theorem Unifies.settling {a b t : Typed} (h : Unifies a b s t s') : Settling [a, b] s s' := by
  cases h with
  | settled | «open» => exact .refl s
  | left _ _ hfits => exact .single List.mem_cons_self hfits
  | right _ _ hfits => exact .single (List.mem_cons_of_mem _ List.mem_cons_self) hfits

theorem Matches.settling {v : ValueType} {other : Typed} (h : Matches v other s s') :
    Settling [other] s s' := by
  unfold Matches at h
  split at h
  · rw [h.2]
    exact .refl s
  · rw [h.2]
    exact .single List.mem_cons_self h.1

theorem Operates.settling {op : BinaryOp} {l r t : Typed} (h : Operates op l r s t s') :
    Settling [l, r] s s' := by
  cases h with
  | logical | shift => exact .refl s
  | comparison _ _ _ _ _ hunify => exact hunify.settling
  | scalar _ _ _ _ _ hunify => exact hunify.settling
  | aggregate _ _ _ _ _ hmatches =>
    refine hmatches.settling.mono fun t ht => ?_
    obtain rfl := List.mem_singleton.mp ht
    unfold mainOperand
    split
    · exact List.mem_cons_of_mem _ List.mem_cons_self
    · exact List.mem_cons_self

/-- The type of an operator's result is not that of an open local. -/
theorem Operates.origin_eq_none {op : BinaryOp} {l r t : Typed} (h : Operates op l r s t s') :
    t.origin = none := by
  cases h <;> rfl

/-- The result of an operator comes from no local, so nothing is settled with it. -/
theorem Operates.settle_eq {op : BinaryOp} {l r t : Typed} (h : Operates op l r s t s')
    (u : Checking) (target : Ty) : u.settle t target = u := by
  unfold Checking.settle
  rw [h.origin_eq_none]

/-! ### Calls -/

theorem CoercesAll.settling {type : Ty} {args : List Argument} (h : CoercesAll type args s s') :
    Settling (args.map (·.typed)) s s' := by
  induction h with
  | nil => exact .refl _
  | cons hfits _ ih =>
    exact .step List.mem_cons_self hfits (ih.mono (List.subset_cons_self _ _))

theorem IntrinsicArguments.settling {kind : ScalarKind} {common : ValueType} {args : List Argument}
    (h : IntrinsicArguments kind common args s s') : Settling (args.map (·.typed)) s s' := by
  induction h with
  | nil => exact .refl _
  | cons hfits _ ih =>
    exact .step List.mem_cons_self hfits (ih.mono (List.subset_cons_self _ _))

theorem IntrinsicResult.settling {i : Shader.Intrinsic} {args : List Argument} {t : Ty}
    (h : IntrinsicResult i args s t s') : Settling (args.map (·.typed)) s s' := by
  cases h with
  | operands _ _ _ hall => exact hall.settling
  | component _ _ _ hall => exact hall.settling
  | bool | product => exact .refl s

theorem Supplies.settling {built : ValueType} {args : List Argument} {n : UInt8}
    (h : Supplies built args s n s') : Settling (args.map (·.typed)) s s' := by
  induction h with
  | nil => exact .refl _
  | vector _ _ ih => exact ih.mono (List.subset_cons_self _ _)
  | scalar _ hfits _ ih =>
    exact .step List.mem_cons_self hfits (ih.mono (List.subset_cons_self _ _))

theorem Calls.settling {callee : Path} {args : List Argument} {t : Ty}
    (h : Calls callee args s t s') : Settling (args.map (·.typed)) s s' := by
  cases h with
  | intrinsic _ _ _ _ hresult => exact hresult.settling
  | new _ _ _ _ _ hsupplies => exact hsupplies.settling
  | splat _ _ _ _ _ hargs hfits =>
    subst hargs
    exact .single List.mem_cons_self hfits

theorem HasMethod.settling {r : Typed} {member : Name} {args : List Argument} {t : Ty}
    (h : HasMethod r member args s t s') : Settling (r :: args.map (·.typed)) s s' := by
  cases h with
  | swizzle | element => exact .refl s
  | scalar htype _ _ _ _ hall =>
    exact .step List.mem_cons_self (.inl htype)
      (hall.settling.mono (List.subset_cons_self _ _))

/-! ### Assignments -/

theorem Agrees.settling {target value : Typed} (h : Agrees target value s s') :
    Settling [target, value] s s' := by
  cases h with
  | value hfits => exact .single (List.mem_cons_of_mem _ List.mem_cons_self) hfits
  | target _ hfits => exact .single List.mem_cons_self hfits

theorem Assigns.settling {target value : Typed} {op : Option BinaryOp}
    (h : Assigns target value s op s') : Settling [target, value] s s' := by
  cases h with
  | plain hagrees => exact hagrees.settling
  | compound hop _ =>
    rw [Checking.settle, hop.origin_eq_none]
    exact hop.settling

end Check

end ComputeKernel
