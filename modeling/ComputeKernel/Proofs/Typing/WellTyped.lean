import ComputeKernel.Proofs.Typing.Leeway

/-!
Accepted closures are well typed. A value that the check found fits every type that the expression has,
so an expression is given the types that its value fits: one for a settled value, and all of the family
for an open one, unless the expression is the use of an open local. Such a use has the type that the
operation behind it settles the local on, if it does not take a copy.
-/

namespace ComputeKernel

namespace Check

open Shader (Receiver Member hasRule)

variable {catalog : Catalog} {m : Model} {W : Leeway} {Γ : Env} {s s₁ s' : Checking} {T : Ty}

/-! ### Operators -/

theorem ne_bool_of_accepts {f : LiteralFamily} {k : ScalarKind} (h : f.accepts k) :
    k ≠ .bool := by
  rintro rfl
  cases f <;> cases h

/-- Truth values are settled. -/
theorem family_eq_none_of_bool {t : Typed} (ht : t.Sound) (h : t.type = .bool) : t.family = none := by
  refine Option.eq_none_iff_forall_ne_some.mpr fun f hf => ?_
  obtain ⟨k, hk, haccepts⟩ := ht.openTo f hf
  obtain rfl : ScalarKind.bool = k := by simpa using h.symm.trans hk
  exact ne_bool_of_accepts haccepts rfl

theorem isInteger_of_accepts {f : LiteralFamily} {k k' : ScalarKind} (h : f.accepts k)
    (h' : f.accepts k') (hk : k.isInteger) : k'.isInteger := by
  cases f <;> cases k <;> cases h <;> cases k' <;> cases h' <;> exact hk

/-- What is not a scalar is settled. -/
theorem family_eq_none_of_ne_scalar {t : Typed} (ht : t.Sound) (h : ∀ k, t.type ≠ .scalar k) :
    t.family = none := by
  refine Option.eq_none_iff_forall_ne_some.mpr fun f hf => ?_
  obtain ⟨k, hk, _⟩ := ht.openTo f hf
  exact h k hk

theorem isInteger_of_fits {t : Typed} {t' : Ty} (ht : t.Sound) (hinteger : t.isInteger)
    (hfits : t.Fits t') : t'.isInteger := by
  rcases hfits with rfl | ⟨f, k, hf, rfl, haccepts⟩
  · exact hinteger
  · obtain ⟨k₀, hk₀, haccepts₀⟩ := ht.openTo f hf
    rw [Typed.isInteger, hk₀] at hinteger
    exact isInteger_of_accepts haccepts₀ haccepts hinteger

theorem isValue_target_of_fits {t : Typed} (h : t.type.isValue) (hfits : t.Fits T) : T.isValue := by
  rcases hfits with rfl | ⟨_, k, _, rfl, _⟩
  · exact h
  · rfl

/-- Scalars of one family have the same operators. -/
theorem hasScalar_of_accepts {op : BinaryOp} {f : LiteralFamily} {k k' : ScalarKind}
    (h : f.accepts k) (h' : f.accepts k') (hop : hasScalar op k) : hasScalar op k' := by
  cases f <;> cases k <;> cases h <;> cases k' <;> cases h' <;> exact hop

theorem fits_scalar {t : Typed} {k : ScalarKind} (ht : t.Sound) (htype : t.type = .scalar k)
    (h : t.Fits T) : ∃ k', T = .scalar k' ∧
      (k' = k ∨ ∃ f, t.family = some f ∧ f.accepts k ∧ f.accepts k') := by
  rcases h with rfl | ⟨f, k', hf, rfl, haccepts⟩
  · exact ⟨k, htype, .inl rfl⟩
  · obtain ⟨k₀, hk₀, haccepts₀⟩ := ht.openTo f hf
    cases htype.symm.trans hk₀
    exact ⟨k', rfl, .inr ⟨f, hf, haccepts₀, haccepts⟩⟩

/-- A common type is open only where both values are. -/
theorem Unifies.family {a b t : Typed} (h : Unifies a b s t s') {f : LiteralFamily}
    (hf : t.family = some f) : a.family = some f ∧ b.family = some f := by
  cases h with
  | settled ha => cases ha.symm.trans hf
  | right ha => cases ha.symm.trans hf
  | left _ hb => cases hb.symm.trans hf
  | «open» ha hb => exact ⟨ha.trans hf, hb.trans hf⟩

/-- The common type of two values comes from no local. -/
theorem Unifies.origin_eq_none {a b t : Typed} (h : Unifies a b s t s') (ha : a.Sound) (hb : b.Sound) :
    t.origin = none := by
  cases h with
  | settled hclosed | right hclosed => exact Check.origin_eq_none ha hclosed
  | left _ hclosed => exact Check.origin_eq_none hb hclosed
  | «open» => rfl

theorem ofOperands?_scalar_right {l r : Ty} (h : ¬ r.isAggregate) (k : ScalarKind) :
    Receiver.ofOperands? l (.scalar k) = Receiver.ofOperands? l r := by
  rcases l with (_ | _ | _) | _ | _ | _ | _ | _ <;> rcases r with (_ | _ | _) | _ | _ | _ | _ | _ <;>
    first | rfl | exact absurd rfl h

theorem ofOperands?_scalar_left {l r : Ty} (h : ¬ l.isAggregate) (k : ScalarKind) :
    Receiver.ofOperands? (.scalar k) r = Receiver.ofOperands? l r := by
  rcases l with (_ | _ | _) | _ | _ | _ | _ | _ <;> rcases r with (_ | _ | _) | _ | _ | _ | _ | _ <;>
    first | rfl | exact absurd rfl h

section Operands

variable {opens : List (Option LiteralFamily)} {s₀ : Checking} {op : BinaryOp} {el er : Expr}
  {l r t : Typed}

/-- The operand that goes with a vector or a matrix is of the same type, or of the component type. -/
theorem Matches.suits {v : ValueType} {e : Expr} {other : Typed} (h : Matches v other s s')
    (hr : Respected opens s.model.locals) (ho : other.Grounded opens) (hs' : Rested m W s') :
    if other.type.isAggregate then other.type = .value v ∧ Suits m W e other other.type
    else Suits m W e other (.scalar v.kind) := by
  unfold Matches at h
  split at h
  · rename_i hagg
    rw [if_pos hagg]
    refine ⟨h.1, .inl rfl, fun id hid => ?_⟩
    obtain ⟨k, hk⟩ := exists_scalar_of_origin ho.sound hid
    rw [hk] at hagg
    cases hagg
  · rename_i hagg
    rw [if_neg hagg]
    obtain ⟨hfits, rfl⟩ := h
    exact suits_of_settle _ hs' hr ho hfits

/-- A vector or a matrix has its own type at its use. -/
theorem Suits.of_aggregate {e : Expr} {v : ValueType} (ht : t.Sound) (hv : t.type = .value v)
    (hagg : t.type.isAggregate) : Suits m W e t (.value v) := by
  refine ⟨.inl hv, fun id hid => ?_⟩
  obtain ⟨k, hk⟩ := exists_scalar_of_origin ht hid
  rw [hk] at hagg
  cases hagg

/-- The operands of vector and matrix operators, in the order of the text. -/
theorem Matches.operands {v : ValueType} (hmain : (mainOperand l r).1.type = .value v)
    (h : Matches v (mainOperand l r).2 s s') (hagg : l.type.isAggregate ∨ r.type.isAggregate)
    (hresp : Respected opens s.model.locals) (hl : l.Grounded opens) (hr : r.Grounded opens)
    (hs' : Rested m W s') :
    ∃ L R, Suits m W el l L ∧ Suits m W er r R ∧
      Receiver.ofOperands? L R = Receiver.ofOperands? l.type r.type ∧
      (L = .value v ∧ (R = .value v ∨ R = .scalar v.kind) ∨ L = .scalar v.kind ∧ R = .value v) := by
  by_cases hleft : l.type.isAggregate
  · rw [show mainOperand l r = (l, r) from if_pos hleft] at hmain h
    have hother := h.suits (e := er) hresp hr hs'
    split at hother
    · obtain ⟨htype, hsuits⟩ := hother
      exact ⟨_, _, .of_aggregate hl.sound hmain hleft, htype ▸ hsuits, by rw [hmain, htype],
        .inl ⟨rfl, .inl rfl⟩⟩
    · rename_i hright
      exact ⟨_, _, .of_aggregate hl.sound hmain hleft, hother,
        hmain ▸ ofOperands?_scalar_right hright v.kind, .inl ⟨rfl, .inr rfl⟩⟩
  · rw [show mainOperand l r = (r, l) from if_neg hleft] at hmain h
    have hother := h.suits (e := el) hresp hl hs'
    rw [if_neg hleft] at hother
    exact ⟨_, _, hother, .of_aggregate hr.sound hmain (hagg.resolve_left hleft),
      hmain ▸ ofOperands?_scalar_left hleft v.kind, .inr ⟨rfl, rfl⟩⟩

theorem isAggregate_of_ofOperands? {l r : Ty} {receiver : Receiver}
    (h : Receiver.ofOperands? l r = some receiver) : l.isAggregate ∨ r.isAggregate := by
  rcases l with (_ | _ | _) | _ | _ | _ | _ | _ <;> rcases r with (_ | _ | _) | _ | _ | _ | _ | _ <;>
    first | exact .inl rfl | exact .inr rfl | cases h

theorem copies_binary (h : (Operation.binary op (.of s₀ el l) (.of s₀ er r)).copies ⊆ W.copies) :
    (shiftsScalar op (.of s₀ el l) (.of s₀ er r) → Copied W el l) ∧
      (¬ shiftsScalar op (.of s₀ el l) (.of s₀ er r) →
        copiesOf (.of s₀ el l) (.of s₀ er r) ⊆ W.copies) := by
  rw [Operation.copies] at h
  constructor
  · intro hshift
    exact copied_of_use (by rwa [if_pos hshift] at h)
  · intro hshift
    rwa [if_neg hshift] at h

/-- An operator gives every type that its result fits, to operands of types that suit them. -/
theorem Operates.combines (h : Operates op l r s t s') (hs : s.Sound)
    (hresp : Respected opens s.model.locals) (hl : l.Grounded opens) (hr : r.Grounded opens)
    (hcopies : (Operation.binary op (.of s₀ el l) (.of s₀ er r)).copies ⊆ W.copies)
    (hs' : Rested m W s') (hright : ∃ R, Suits m W er r R) (hT : t.Fits T) :
    ∃ L R, Suits m W el l L ∧ Suits m W er r R ∧ Combines op L R T := by
  obtain ⟨hcopied, hpair⟩ := copies_binary hcopies
  cases h with
  | logical hop hltype hrtype =>
    obtain rfl := eq_of_fits hT rfl
    have hlclosed := family_eq_none_of_bool hl.sound hltype
    have hrclosed := family_eq_none_of_bool hr.sound hrtype
    exact ⟨_, _, hltype ▸ .of_closed hl.sound hlclosed, hrtype ▸ .of_closed hr.sound hrclosed,
      .logical hop⟩
  | shift _ hop hltype hrtype hk hk' =>
    obtain ⟨k, rfl, hcases⟩ := fits_scalar hl.sound hltype (hT : l.Fits T)
    obtain ⟨R, hR⟩ := hright
    obtain ⟨k₁, rfl, hcases'⟩ := fits_scalar hr.sound hrtype hR.fits
    have hscalars := shiftsScalar_of_scalars (l := .of s₀ el l) (r := .of s₀ er r) hop hltype hrtype
    refine ⟨_, _, ⟨hT, (hcopied hscalars).admits _⟩, hR, .shift hop ?_ ?_⟩
    · rcases hcases with rfl | ⟨f, _, haccepts, haccepts'⟩
      · exact hk
      · exact isInteger_of_accepts haccepts haccepts' hk
    · rcases hcases' with rfl | ⟨f, _, haccepts, haccepts'⟩
      · exact hk'
      · exact isInteger_of_accepts haccepts haccepts' hk'
  | comparison _ hshift hop _ _ hunify hcommon hhas =>
    obtain rfl := eq_of_fits hT rfl
    obtain ⟨hsl, hsr⟩ := hunify.suits hresp hl hr (hpair (hshift ∘ isShift_of_shiftsScalar)) hs'
      (.inl hcommon)
    exact ⟨_, _, hsl, hsr, .comparison hop hhas⟩
  | scalar hlogical hshift hcomparison _ _ hunify hcommon hhas =>
    have hcommonSound := (hunify.sound hs hl.sound hr.sound).1
    obtain ⟨k, rfl, hcases⟩ := fits_scalar hcommonSound hcommon (hT : Typed.Fits _ T)
    obtain ⟨hsl, hsr⟩ := hunify.suits hresp hl hr (hpair (hshift ∘ isShift_of_shiftsScalar)) hs' hT
    refine ⟨_, _, hsl, hsr, .scalar hlogical hshift hcomparison ?_⟩
    rcases hcases with rfl | ⟨f, _, haccepts, haccepts'⟩
    · exact hhas
    · exact hasScalar_of_accepts haccepts haccepts' hhas
  | aggregate hlogical hreceiver hmember hrule hmain hmatches hhas =>
    obtain rfl := eq_of_fits hT rfl
    obtain ⟨L, R, hL, hR, hsame, horder⟩ := hmatches.operands hmain
      (isAggregate_of_ofOperands? hreceiver) hresp hl hr hs'
    exact ⟨L, R, hL, hR, .aggregate hlogical (hsame.trans hreceiver) hmember hrule horder hhas⟩

/-- The result of an operator is open only where its operands are, which are then copied; a shift has
the type of the left one. -/
theorem Operates.staysOpen {span : Span} {f : LiteralFamily} (h : Operates op l r s t s')
    (hcopies : (Operation.binary op (.of s₀ el l) (.of s₀ er r)).copies ⊆ W.copies)
    (hf : t.family = some f) (hl : l.family = some f → Copied W el l → StaysOpen W Γ f el)
    (hr : r.family = some f → Copied W er r → StaysOpen W Γ f er) :
    StaysOpen W Γ f (.binary span op el er) := by
  obtain ⟨hcopied, hpair⟩ := copies_binary hcopies
  cases h with
  | logical | comparison | aggregate => cases hf
  | shift _ hop hltype hrtype =>
    have hscalars := shiftsScalar_of_scalars (l := .of s₀ el l) (r := .of s₀ er r) hop hltype hrtype
    exact .shift hop (hl hf (hcopied hscalars))
  | scalar hlogical hshift hcomparison _ _ hunify =>
    obtain ⟨hfl, hfr⟩ := hunify.family hf
    obtain ⟨hcl, hcr⟩ := copied_of_copiesOf (hpair (hshift ∘ isShift_of_shiftsScalar))
      (by simp [hfl]) (by simp [hfr])
    exact .binary hlogical hshift hcomparison (hl hfl hcl) (hr hfr hcr)

end Operands

/-- Of unsigned values the check lets only matrices be negated. -/
theorem kind_of_hasUnary_neg {t : Ty} (h : hasUnary .neg t) : ∃ v, t = .value v ∧ v.kind ≠ .bool ∧
    (v.kind = .uint → ∃ rows columns, v = .matrix .uint rows columns) := by
  cases t with
  | value v =>
    refine ⟨v, rfl, ?_⟩
    rcases v with k | ⟨k, n⟩ | ⟨k, rows, columns⟩ <;> cases k <;> simp_all [hasUnary, ValueType.kind]
  | _ => cases h

/-- What can be negated in the course of a check can be negated at all types that it fits. -/
theorem negates_of_fits {e : Expr} {t : Typed} (hneg : hasUnary .neg t.type)
    (hopen : ∀ f, t.family = some f → StaysOpen W Γ f e) (hT : t.Fits T) : Negates W Γ e T := by
  rcases hT with rfl | ⟨f, k, hf, rfl, haccepts⟩
  · obtain ⟨v, hv, hbool, huint⟩ := kind_of_hasUnary_neg hneg
    exact ⟨v, hv, hbool, fun hk => .inl (huint hk)⟩
  · refine ⟨_, rfl, ne_bool_of_accepts haccepts, fun hk => .inr ⟨congrArg _ hk, ?_⟩⟩
    obtain rfl : k = .uint := hk
    cases f with
    | integer => exact hopen _ hf
    | float => cases haccepts

/-- `!` goes with all integers, also those that an open type becomes. -/
theorem hasUnary_not_of_fits {t : Typed} (ht : t.Sound) (hnot : hasUnary .not t.type)
    (hT : t.Fits T) : hasUnary .not T := by
  rcases hT with rfl | ⟨f, k, hf, rfl, haccepts⟩
  · exact hnot
  · obtain ⟨k₀, hk₀, haccepts₀⟩ := ht.openTo f hf
    rw [hk₀] at hnot
    cases f <;> cases k₀ <;> cases haccepts₀ <;> cases k <;> cases haccepts <;>
      first | rfl | cases hnot

/-! ### Calls -/

/-- Whether an expression has every type that suits it, of which there is one, and is open where its value
is, if it is copied. -/
structure Holds (catalog : Catalog) (m : Model) (W : Leeway) (Γ : Env) (e : Expr) (t : Typed) :
    Prop where
  hasType : ∀ T, Suits m W e t T → HasType catalog m W Γ e T
  staysOpen : ∀ f, t.family = some f → Copied W e t → StaysOpen W Γ f e
  exists_suits : ∃ T, Suits m W e t T

theorem Holds.of_copied {e : Expr} {t : Typed} (h : Holds catalog m W Γ e t) (hcopied : Copied W e t)
    (hT : t.Fits T) : HasType catalog m W Γ e T := h.hasType T ⟨hT, hcopied.admits T⟩

theorem Holds.of_closed_value {e : Expr} {t : Typed} (h : Holds catalog m W Γ e t) (ht : t.Sound)
    (hclosed : t.family = none) : HasType catalog m W Γ e t.type := h.hasType _ (.of_closed ht hclosed)

theorem Holds.of_bool {e : Expr} {t : Typed} (h : Holds catalog m W Γ e t) (ht : t.Sound)
    (hbool : t.type = .bool) : HasType catalog m W Γ e .bool :=
  hbool ▸ h.of_closed_value ht (family_eq_none_of_bool ht hbool)

variable {opens : List (Option LiteralFamily)} {es : List Expr} {ts : List Typed}

/-- Arguments have types that their values fit, as long as locals that they name rest on these. -/
theorem forall₂_hasType (h : List.Forall₂ (Holds catalog m W Γ) es ts) {f : Typed → Ty}
    (hfits : ∀ a ∈ arguments es ts, a.typed.Fits (f a.typed))
    (hrests : ∀ a ∈ arguments es ts, ∀ id, a.typed.origin = some id → Rests m W id (f a.typed)) :
    List.Forall₂ (HasType catalog m W Γ) es ((arguments es ts).map fun a => f a.typed) := by
  induction h with
  | nil => exact .nil
  | cons he _ ih =>
    obtain ⟨hfirst, hrest⟩ := List.forall_mem_cons.mp hfits
    obtain ⟨hrestsFirst, hrestsRest⟩ := List.forall_mem_cons.mp hrests
    exact .cons (he.hasType _ ⟨hfirst, fun id hid => .inr (hrestsFirst id hid)⟩) (ih hrest hrestsRest)

/-- Arguments that are values have types of values. -/
theorem exists_forall₂_hasType (h : List.Forall₂ (Holds catalog m W Γ) es ts)
    (hvalues : ∀ a ∈ arguments es ts, a.typed.type.isValue) :
    ∃ us, List.Forall₂ (HasType catalog m W Γ) es us ∧ ∀ T ∈ us, T.isValue := by
  induction h with
  | nil => exact ⟨[], .nil, nofun⟩
  | cons he _ ih =>
    obtain ⟨hfirst, hrest⟩ := List.forall_mem_cons.mp hvalues
    obtain ⟨us, htypes, hus⟩ := ih hrest
    obtain ⟨T, hT⟩ := he.exists_suits
    exact ⟨T :: us, .cons (he.hasType T hT) htypes,
      List.forall_mem_cons.mpr ⟨isValue_target_of_fits hfirst hT.fits, hus⟩⟩

/-- The locals that arguments name rest on the type that they settle on. -/
theorem SettleOn.rests_arguments (h : SettleOn T ((arguments es ts).map (·.typed)) s s')
    (hs' : Rested m W s') (hr : Respected opens s.model.locals) (hts : ∀ t ∈ ts, t.Grounded opens) :
    ∀ a ∈ arguments es ts, ∀ id, a.typed.origin = some id → Rests m W id T :=
  fun _ ha _ hid => h.rests hs' hr (arguments_grounded hts) (List.mem_map_of_mem ha) hid

theorem CoercesAll.hasType {type : Ty} (h : CoercesAll type (arguments es ts) s s')
    (hrests : ∀ a ∈ arguments es ts, ∀ id, a.typed.origin = some id → Rests m W id type)
    (hargs : List.Forall₂ (Holds catalog m W Γ) es ts) :
    ∀ e ∈ es, HasType catalog m W Γ e type := by
  induction hargs generalizing s with
  | nil => exact nofun
  | cons he _ ih =>
    obtain ⟨hfirst, hrests⟩ := List.forall_mem_cons.mp hrests
    cases h with
    | cons hfits hrest =>
      have htype := he.hasType type ⟨hfits, fun id hid => .inr (hfirst id hid)⟩
      exact List.forall_mem_cons.mpr ⟨htype, ih hrest hrests⟩

theorem IntrinsicArguments.fits {kind : ScalarKind} {common : ValueType} {args : List Argument}
    (h : IntrinsicArguments kind common args s s') :
    ∀ a ∈ args, a.typed.Fits (intrinsicTarget kind common a.typed) := by
  induction h with
  | nil => exact nofun
  | cons hfits _ ih => exact List.forall_mem_cons.mpr ⟨hfits, ih⟩

theorem kind_commonShape (kind : ScalarKind) (args : List Argument) :
    (commonShape kind args).kind = kind := by
  unfold commonShape
  split
  · exact ValueType.kind_withKind _ _
  · rfl

/-- Scalars settle on the component type of the common shape, all else has the shape itself. -/
theorem intrinsicTarget_eq_or (kind : ScalarKind) (common : ValueType) (t : Typed) :
    intrinsicTarget kind common t = .scalar kind ∨ intrinsicTarget kind common t = .value common := by
  unfold intrinsicTarget
  split
  · exact .inl rfl
  · exact .inr rfl

theorem mem_of_anchor? {args : List Argument} {a : Argument} (h : anchor? args = some a) :
    a ∈ args := by
  unfold anchor? at h
  cases hfind : args.find? fun a => a.typed.family.isNone with
  | some b =>
    rw [hfind] at h
    obtain rfl := Option.some.inj h
    exact List.mem_of_find?_eq_some hfind
  | none =>
    rw [hfind] at h
    exact List.mem_of_mem_head? h

/-- One argument at least has the common shape: the one that it is taken from. -/
theorem sharesShape_commonShape {kind : ScalarKind} {args : List Argument} {a : Argument}
    (ha : a ∈ args) : SharesShape (commonShape kind args)
      (args.map fun a => intrinsicTarget kind (commonShape kind args) a.typed) := by
  refine ⟨?_, List.forall_mem_map.mpr fun b _ => ?_⟩
  · cases hshape : args.findSome? fun a => a.typed.type.value?.filter fun v => ! v.isScalar with
    | none =>
      refine List.mem_map.mpr ⟨a, ha, ?_⟩
      have hcommon : commonShape kind args = .scalar kind := by rw [commonShape, hshape]
      rw [hcommon]
      exact (intrinsicTarget_eq_or kind (.scalar kind) a.typed).elim id id
    | some v =>
      obtain ⟨b, hb, hv⟩ := List.exists_of_findSome?_eq_some hshape
      obtain ⟨hvalue, hscalar⟩ := Option.filter_eq_some_iff.mp hv
      refine List.mem_map.mpr ⟨b, hb, ?_⟩
      unfold intrinsicTarget
      split
      · rename_i k hk
        rw [hk] at hvalue
        obtain rfl := Option.some.inj hvalue
        cases hscalar
      · rfl
  · rw [kind_commonShape]
    exact (intrinsicTarget_eq_or kind _ b.typed).symm

/-- What a constructor takes an argument for. -/
def suppliedType (built : ValueType) (t : Typed) : Ty :=
  match t.type with
  | .value (.scalar _) => .scalar built.kind
  | type => type

theorem Supplies.fills {built : ValueType} {args : List Argument} {n : UInt8}
    (h : Supplies built args s n s') :
    (∀ a ∈ args, a.typed.Fits (suppliedType built a.typed)) ∧
      Fills built.kind (args.map fun a => suppliedType built a.typed) n := by
  induction h with
  | nil => exact ⟨nofun, .nil⟩
  | vector htype _ ih =>
    refine ⟨List.forall_mem_cons.mpr ⟨.inl ?_, ih.1⟩, ?_⟩
    · rw [suppliedType, htype]
    · rw [List.map_cons, suppliedType, htype]
      exact .vector ih.2
  | scalar htype hfits _ ih =>
    refine ⟨List.forall_mem_cons.mpr ⟨?_, ih.1⟩, ?_⟩
    · rw [suppliedType, htype]
      exact hfits
    · rw [List.map_cons, suppliedType, htype]
      exact .scalar ih.2

theorem Selects.selectsIn {rows columns : Nat} {items : List Expr}
    (h : Selects rows columns items s s') : ∀ item ∈ items, SelectsIn rows columns item := by
  induction h with
  | nil => exact nofun
  | cons hposition hrow hcolumn _ ih =>
    exact List.forall_mem_cons.mpr ⟨⟨_, _, _, _, rfl, hposition, hrow, hcolumn⟩, ih⟩

/-- The locals that the arguments of a product name are copied. -/
theorem copied_of_product {callee : Path} {i : Shader.Intrinsic} {s₀ : Checking} {T : Ty}
    (hi : Shader.intrinsic? callee.last = some i) (hproduct : i.result = .product)
    (h : (Operation.call callee (operandsOf s₀ es ts) T).copies ⊆ W.copies) {p : Expr × Typed}
    (hp : p ∈ es.zip ts) : Copied W p.1 p.2 := by
  have hany : ((Shader.intrinsic? callee.last).any fun i => i.result = .product) = true := by
    simp [hi, hproduct]
  rw [Operation.copies, if_pos hany] at h
  exact copied_of_use (s := s₀) fun span hspan =>
    h (List.mem_flatMap.mpr ⟨_, List.mem_map_of_mem (f := fun p => Operand.of s₀ p.1 p.2) hp, hspan⟩)

section Calls

variable {s₀ : Checking} {span calleeSpan : Span} {callee : Path} {t : Ty}

theorem IntrinsicResult.hasType {i : Shader.Intrinsic} (hcallee : NamesIntrinsic callee i es)
    (hargs : List.Forall₂ (Holds catalog m W Γ) es ts) (hts : ∀ t ∈ ts, t.Grounded opens)
    (hr : Respected opens s.model.locals) (hs' : Rested m W s')
    (hcopies : (Operation.call callee (operandsOf s₀ es ts) t).copies ⊆ W.copies)
    (hvalues : ∀ a ∈ arguments es ts, a.typed.type.isValue)
    (h : IntrinsicResult i (arguments es ts) s t s') :
    HasType catalog m W Γ (.call span callee calleeSpan es) t := by
  have hsound : ∀ a ∈ arguments es ts, a.typed.Sound :=
    fun a ha => (arguments_grounded hts _ (List.mem_map_of_mem ha)).sound
  -- A scalar argument settles on the component type, so a local that it names rests on it.
  have hrests {kind : ScalarKind} {common : ValueType}
      (hall : IntrinsicArguments kind common (arguments es ts) s s') : ∀ a ∈ arguments es ts,
        ∀ id, a.typed.origin = some id → Rests m W id (intrinsicTarget kind common a.typed) := by
    intro a ha id hid
    obtain ⟨k, hk⟩ := exists_scalar_of_origin (hsound a ha) hid
    rw [intrinsicTarget, hk]
    exact (hall.settleOn hsound).rests_arguments hs' hr hts a ha id hid
  cases h with
  | operands hi ha _ hall =>
    exact .operands hcallee hi (forall₂_hasType hargs hall.fits (hrests hall))
      (sharesShape_commonShape (mem_of_anchor? ha))
  | component hi ha _ hall =>
    exact .component hcallee hi (forall₂_hasType hargs hall.fits (hrests hall))
      (sharesShape_commonShape (mem_of_anchor? ha))
  | bool hi =>
    obtain ⟨us, htypes, hus⟩ := exists_forall₂_hasType hargs hvalues
    exact .test hcallee hi htypes hus
  | product hi hpair ha hb hp =>
    have hcopied {p : Expr × Typed} (hp : p ∈ es.zip ts) : Copied W p.1 p.2 :=
      copied_of_product hcallee.2.1 hi hcopies hp
    rcases hargs with _ | ⟨hfirst, _ | ⟨hsecond, _ | _⟩⟩ <;> cases hpair
    have hcopiedFirst := hcopied (p := (_, _)) List.mem_cons_self
    have hcopiedSecond := hcopied (p := (_, _)) (List.mem_cons_of_mem _ List.mem_cons_self)
    exact .product hcallee hi (hfirst.of_copied hcopiedFirst (.inl ha))
      (hsecond.of_copied hcopiedSecond (.inl hb)) hp

theorem Calls.hasType (h : Calls callee (arguments es ts) s t s')
    (hargs : List.Forall₂ (Holds catalog m W Γ) es ts) (hts : ∀ t ∈ ts, t.Grounded opens)
    (hr : Respected opens s.model.locals) (hs' : Rested m W s')
    (hcopies : (Operation.call callee (operandsOf s₀ es ts) t).copies ⊆ W.copies) :
    HasType catalog m W Γ (.call span callee calleeSpan es) t := by
  have hlength := length_arguments hargs.length_eq
  have hsound : ∀ a ∈ arguments es ts, a.typed.Sound :=
    fun a ha => (arguments_grounded hts _ (List.mem_map_of_mem ha)).sound
  cases h with
  | intrinsic howner hi hcount hvalues hresult =>
    exact hresult.hasType ⟨howner, hi, hlength.symm.trans hcount⟩ hargs hts hr hs' hcopies hvalues
  | @new _ built _ howner hne hlast hbuilt hscalar hsupplies =>
    obtain ⟨hfits, hfills⟩ := hsupplies.fills
    refine .new ⟨_, howner, hne, hlast, hbuilt, hscalar⟩
      (forall₂_hasType hargs hfits fun a ha id hid => ?_) hfills
    obtain ⟨k, hk⟩ := exists_scalar_of_origin (hsound a ha) hid
    rw [suppliedType, hk]
    exact (hsupplies.settleOn hsound).rests_arguments hs' hr hts a ha id hid
  | splat howner hne hlast hbuilt hscalar hone hfits =>
    rcases hargs with _ | ⟨hfirst, _ | _⟩ <;> cases hone
    have hgrounded := hts _ (List.mem_singleton_self _)
    exact .splat ⟨_, howner, hne, hlast, hbuilt, hscalar⟩
      (hfirst.hasType _ (suits_of_settle _ hs' hr hgrounded hfits))

theorem HasMethod.hasType {e : Expr} {r : Typed} {member : Name}
    (h : HasMethod r member (arguments es ts) s t s') (hr : Holds catalog m W Γ e r)
    (hargs : List.Forall₂ (Holds catalog m W Γ) es ts) (hgr : r.Grounded opens)
    (hts : ∀ t ∈ ts, t.Grounded opens) (hresp : Respected opens s.model.locals)
    (hs' : Rested m W s') : HasType catalog m W Γ (.method span e member es) t := by
  have hlength := length_arguments hargs.length_eq
  have hnil : arguments es ts = [] → es = [] := fun h => by
    rw [h] at hlength
    exact List.length_eq_zero_iff.mp hlength.symm
  have haggregate {v : ValueType} (htype : r.type = .value v) (hv : ¬ v.isScalar) :
      HasType catalog m W Γ e (.value v) := by
    refine hr.hasType _ ⟨.inl htype, fun id hid => ?_⟩
    obtain ⟨k, hk⟩ := exists_scalar_of_origin hgr.sound hid
    obtain rfl := Ty.value.inj (htype.symm.trans hk)
    exact (hv rfl).elim
  cases h with
  | swizzle htype hempty hswizzle =>
    obtain rfl := hnil hempty
    exact .swizzle (haggregate htype nofun) hswizzle
  | element htype hempty hposition hrow hcolumn =>
    obtain rfl := hnil hempty
    exact .elementMethod (haggregate htype nofun) hposition hrow hcolumn
  | @scalar k _ _ htype hk hmethod hkinds hcount hall =>
    have hsettle : SettleOn (.scalar k) (r :: (arguments es ts).map (·.typed)) s s' :=
      .cons (fun _ _ => rfl) hall.settleOn
    have hgrounded : ∀ t ∈ r :: (arguments es ts).map (·.typed), t.Grounded opens :=
      List.forall_mem_cons.mpr ⟨hgr, arguments_grounded hts⟩
    have hreceiver := hr.hasType _
      ⟨.inl htype, hsettle.admits hs' hresp hgrounded List.mem_cons_self⟩
    exact .scalarMethod hreceiver hk hmethod hkinds (hlength.symm.trans hcount)
      (hall.hasType (fun a ha id hid => hsettle.rests hs' hresp hgrounded
        (List.mem_cons_of_mem _ (List.mem_map_of_mem ha)) hid) hargs)

end Calls

/-! ### Expressions -/

def Judgment.Holds (catalog : Catalog) (m : Model) (W : Leeway) (Γ : Env) : Judgment → Prop
  | .expr e t => Check.Holds catalog m W Γ e t
  | .args es ts => List.Forall₂ (Check.Holds catalog m W Γ) es ts

theorem Holds.of_closed {e : Expr} {t : Ty} (h : HasType catalog m W Γ e t) :
    Holds catalog m W Γ e { type := t } :=
  ⟨fun _ hT => (eq_of_fits hT.fits rfl) ▸ h, nofun, t, .inl rfl, admits_of_origin rfl t⟩

theorem holds_literal (span : Span) (v : Literal) :
    Holds catalog m W Γ (.literal span v) (Check.literal v) := by
  refine ⟨fun T hT => ?_, fun f hf _ => .literal hf, _, .inl rfl, admits_of_origin (origin_literal v) _⟩
  cases hfamily : (Check.literal v).family with
  | none => exact eq_of_fits hT.fits hfamily ▸ .literal hfamily
  | some f =>
    obtain ⟨k, rfl, haccepts⟩ := openTo_of_fits (literal_sound v) hT.fits f hfamily
    exact .openLiteral hfamily haccepts

/-- A local has the type that it rests on at a use, or any one of the family if the use is copied. -/
theorem holds_local {span : Span} {text : String} {id : Nat} {l : Local}
    (hΓ : Γ.Describes s) (hm : Settled Γ.opens s.model.locals m.locals) (hs : Rested m W s)
    (hfind : s.find? text = some id) (hl : s.model.local? id = some l) :
    Holds catalog m W Γ (.name span text) (useOf id l) := by
  obtain ⟨family, hfamily, hopen, hrespects⟩ := hΓ.respected.exists_family hl
  have hscopes : Γ.scopes.find? text = some id := hΓ.scopes_eq ▸ hfind
  have hrests {T : Ty} (hT : Rests m W id T) : HasType catalog m W Γ (.name span text) T := by
    obtain ⟨l', hl', rfl⟩ | hrelapse := hT
    · exact .local hscopes hl'
    · exact .relapsed hscopes hrelapse
  cases hlf : l.family with
  | none =>
    have hclosed : (useOf id l).family = none := hlf
    have horigin : (useOf id l).origin = none := by rw [useOf, hlf]; rfl
    refine ⟨fun T hT => ?_, fun f hf => ?_, l.type, .inl rfl, admits_of_origin horigin _⟩
    · rw [eq_of_fits hT.fits hclosed]
      exact hrests (hs id l hl hlf)
    · cases hclosed.symm.trans hf
  | some f =>
    obtain rfl := hrespects f hlf
    have horigin : (useOf id l).origin = some id := by rw [useOf, hlf]; rfl
    obtain ⟨l', hl', hbecomes, _⟩ := hm id l (some f) hl hfamily
    obtain ⟨k', hk', haccepts'⟩ := hbecomes f rfl
    refine ⟨fun T hT => ?_, fun g hg hcopied => ?_, l'.type, ?_, fun i hi => ?_⟩
    · rcases hT.admits id horigin with hcopied | hrest
      · have haccepted : ∃ k, T = .scalar k ∧ f.accepts k := by
          rcases hT.fits with rfl | ⟨g, k, hg, rfl, haccepts⟩
          · exact hopen f rfl
          · obtain rfl := Option.some.inj (hlf.symm.trans hg)
            exact ⟨k, rfl, haccepts⟩
        obtain ⟨k, rfl, haccepts⟩ := haccepted
        exact .copied hscopes hfamily hcopied haccepts
      · exact hrests hrest
    · obtain rfl := Option.some.inj (hlf.symm.trans hg)
      exact .local hscopes hfamily (hcopied (by rw [horigin]; rfl))
    · exact .inr ⟨f, k', hlf, hk', haccepts'⟩
    · obtain rfl := Option.some.inj (horigin.symm.trans hi)
      exact .inr (.inl ⟨l', hl', rfl⟩)

/-- What is checked in an environment has the types that were found for it, as soon as the types of the
locals are the final ones. -/
theorem Checks.holds {j : Judgment} (h : Checks catalog s j s') (hΓ : Γ.Describes s)
    (hm : Settled Γ.opens s'.model.locals m.locals) (hs : Rested m W s)
    (hP : ∀ x ∈ j.steps catalog s, x.Within m W) : j.Holds catalog m W Γ ∧ Rested m W s' := by
  induction h with
  | literal => exact ⟨holds_literal _ _, hs⟩
  | «local» hfind hl => exact ⟨holds_local hΓ hm hs hfind hl, hs⟩
  | capture hfind hcapture =>
    exact ⟨.of_closed (.capture (hΓ.scopes_eq ▸ hfind) hcapture), hs⟩
  | static hfind hfields hstatic =>
    exact ⟨.of_closed (.static (hΓ.scopes_eq ▸ hfind) hfields hstatic), hs⟩
  | path howner hstatic => exact ⟨.of_closed (.path howner hstatic), hs⟩
  | @unary s s' span op e t he hop ih =>
    obtain ⟨hgrounded, _, _⟩ := he.describes hΓ
    obtain ⟨hP, hcopies, hs'⟩ := forall_unary he (.unary he hop) hΓ.sound hP
    have hcopied : Copied W e t := copied_of_use hcopies
    obtain ⟨hoperand, _⟩ := ih hΓ hm hs hP
    have hopen (f : LiteralFamily) (hf : t.family = some f) := hoperand.staysOpen f hf hcopied
    refine ⟨⟨fun T hT => ?_, fun f hf _ => .unary (hopen f hf), t.type, .inl rfl,
      admits_of_origin rfl _⟩, hs'⟩
    have hfits : t.Fits T := hT.fits
    cases op with
    | neg => exact .neg (hoperand.of_copied hcopied hfits) (negates_of_fits hop hopen hfits)
    | not =>
      exact .not (hoperand.of_copied hcopied hfits) (hasUnary_not_of_fits hgrounded.sound hop hfits)
  | binary hleft hright hop ihLeft ihRight =>
    obtain ⟨hPl, hPr, hcopies, hs'⟩ := forall_binary hleft hright (.binary hleft hright hop) hΓ.sound hP
    obtain ⟨hgl, hΓ₁, _⟩ := hleft.describes hΓ
    obtain ⟨hgr, hΓ₂, her⟩ := hright.describes hΓ₁
    have hm₂ := (evolves_of_pair hop.settling hΓ₂.respected hgl hgr).settled hm
    obtain ⟨hl, hs₁⟩ := ihLeft hΓ (her.settled hm₂) hs hPl
    obtain ⟨hr, _⟩ := ihRight hΓ₁ hm₂ hs₁ hPr
    refine ⟨⟨fun T hT => ?_, fun f hf _ => hop.staysOpen hcopies hf (hl.staysOpen f) (hr.staysOpen f),
      _, .inl rfl, admits_of_origin hop.origin_eq_none _⟩, hs'⟩
    obtain ⟨L, R, hL, hR, hcombines⟩ := hop.combines hΓ₂.sound hΓ₂.respected hgl hgr hcopies hs'
      hr.exists_suits hT.fits
    exact .binary (hl.hasType L hL) (hr.hasType R hR) hcombines
  | cast he hcasts ih =>
    obtain ⟨htarget, hbool, k, hk, hfloat⟩ := hcasts
    obtain ⟨hgrounded, _, _⟩ := he.describes hΓ
    obtain ⟨hoperand, hs'⟩ := ih hΓ hm hs hP
    obtain ⟨T, hT⟩ := hoperand.exists_suits
    obtain ⟨k', rfl, hcases⟩ := fits_scalar hgrounded.sound hk hT.fits
    refine ⟨.of_closed (.cast (hoperand.hasType _ hT) htarget hbool ?_), hs'⟩
    rcases hcases with rfl | ⟨_, _, _, haccepts⟩
    · exact hfloat
    · exact fun h => ne_bool_of_accepts haccepts h.1
  | field he htype ih =>
    obtain ⟨hgrounded, _, _⟩ := he.describes hΓ
    obtain ⟨hoperand, hs'⟩ := ih hΓ hm hs hP
    have hclosed := family_eq_none_of_ne_scalar hgrounded.sound fun k hk => by
      rw [hk] at htype
      cases htype
    exact ⟨.of_closed (.field (hoperand.of_closed_value hgrounded.sound hclosed) htype), hs'⟩
  | method hreceiver hargs hmethod ihReceiver ihArgs =>
    obtain ⟨hPr, hPa, _, hs'⟩ :=
      forall_method hreceiver hargs (.method hreceiver hargs hmethod) hΓ.sound hP
    obtain ⟨hgr, hΓ₁, _⟩ := hreceiver.describes hΓ
    obtain ⟨hga, hΓ₂, hea⟩ := hargs.describes hΓ₁
    have hm₂ := (evolves_of_settling hmethod.settling hΓ₂.respected
      (List.forall_mem_cons.mpr ⟨hgr, arguments_grounded hga⟩)).settled hm
    obtain ⟨hr, hs₁⟩ := ihReceiver hΓ (hea.settled hm₂) hs hPr
    obtain ⟨ha, _⟩ := ihArgs hΓ₁ hm₂ hs₁ hPa
    exact ⟨.of_closed (hmethod.hasType hr ha hgr hga hΓ₂.respected hs'), hs'⟩
  | call hargs hcall ihArgs =>
    obtain ⟨hPa, hcopies, hs'⟩ := forall_call hargs (.call hargs hcall) hΓ.sound hP
    obtain ⟨hga, hΓ₁, _⟩ := hargs.describes hΓ
    have hm₁ := (evolves_of_settling hcall.settling hΓ₁.respected
      (arguments_grounded hga)).settled hm
    obtain ⟨ha, _⟩ := ihArgs hΓ hm₁ hs hPa
    exact ⟨.of_closed (hcall.hasType ha hga hΓ₁.respected hs' hcopies), hs'⟩
  | element hbase hitems hindex hinteger helement ihBase ihIndex =>
    obtain ⟨hPb, hPi⟩ := forall_index hbase hΓ.sound hP
    obtain ⟨hgb, hΓ₁, _⟩ := hbase.describes hΓ
    obtain ⟨hgi, _, hei⟩ := hindex.describes hΓ₁
    obtain ⟨hb, hs₁⟩ := ihBase hΓ (hei.settled hm) hs hPb
    obtain ⟨hi, hs'⟩ := ihIndex hΓ₁ hm hs₁ hPi
    obtain ⟨T, hT⟩ := hi.exists_suits
    have hclosed := family_eq_none_of_ne_scalar hgb.sound fun k hk => by
      rw [hk] at helement
      cases helement
    exact ⟨.of_closed (.element (hb.of_closed_value hgb.sound hclosed) hitems (hi.hasType T hT)
      (isInteger_of_fits hgi.sound hinteger hT.fits) helement), hs'⟩
  | swizzle hbase htype hlo hhi hselects ih =>
    obtain ⟨hPb, _⟩ := forall_index hbase hΓ.sound hP
    obtain ⟨hgb, _, _⟩ := hbase.describes hΓ
    have hm₁ : Settled Γ.opens _ m.locals := hselects.locals_eq ▸ hm
    obtain ⟨hb, hs₁⟩ := ih hΓ hm₁ hs hPb
    have hclosed := family_eq_none_of_ne_scalar hgb.sound fun k hk => by cases htype.symm.trans hk
    refine ⟨.of_closed (.matrixSwizzle (htype ▸ hb.of_closed_value hgb.sound hclosed) hlo hhi
      hselects.selectsIn), fun id l hl => ?_⟩
    refine hs₁ id l ?_
    rw [Model.local?, ← hselects.locals_eq]
    exact hl
  | paren _ ih =>
    obtain ⟨hinner, hs'⟩ := ih hΓ hm hs hP
    obtain ⟨T, hT⟩ := hinner.exists_suits
    exact ⟨⟨fun T hT => .paren (hinner.hasType T ⟨hT.fits, hT.admits⟩),
      fun f hf hcopied => .paren (hinner.staysOpen f hf hcopied), T, hT.fits, hT.admits⟩, hs'⟩
  | choice hcondition hbool hyes hno hunify ihCondition ihYes ihNo =>
    obtain ⟨hPc, hPy, hPn, hcopies, hs'⟩ := forall_choice hcondition hbool hyes hno
      (.choice hcondition hbool hyes hno hunify) hΓ.sound hP
    obtain ⟨hgc, hΓ₁, _⟩ := hcondition.describes hΓ
    obtain ⟨hgy, hΓ₂, hey⟩ := hyes.describes hΓ₁
    obtain ⟨hgn, hΓ₃, hen⟩ := hno.describes hΓ₂
    have hm₃ := (evolves_of_pair hunify.settling hΓ₃.respected hgy hgn).settled hm
    have hm₂ := hen.settled hm₃
    obtain ⟨hc, hs₁⟩ := ihCondition hΓ (hey.settled hm₂) hs hPc
    obtain ⟨hy, hs₂⟩ := ihYes hΓ₁ hm₂ hs₁ hPy
    obtain ⟨hn, _⟩ := ihNo hΓ₂ hm₃ hs₂ hPn
    have hquestion := hc.of_bool hgc.sound hbool
    refine ⟨⟨fun T hT => ?_, fun f hf _ => ?_, _, .inl rfl,
      admits_of_origin (hunify.origin_eq_none hgy.sound hgn.sound) _⟩, hs'⟩
    · obtain ⟨hsy, hsn⟩ := hunify.suits hΓ₃.respected hgy hgn hcopies hs' hT.fits
      exact .choice hquestion (hy.hasType T hsy) (hn.hasType T hsn)
    · obtain ⟨hfy, hfn⟩ := hunify.family hf
      obtain ⟨hcy, hcn⟩ := copied_of_copiesOf hcopies (by simp [hfy]) (by simp [hfn])
      exact .choice (hy.staysOpen f hfy hcy) (hn.staysOpen f hfn hcn)
  | nil => exact ⟨.nil, hs⟩
  | cons hfirst hrest ihFirst ihRest =>
    obtain ⟨hPf, hPr⟩ := forall_args hfirst hΓ.sound hP
    obtain ⟨_, hΓ₁, _⟩ := hfirst.describes hΓ
    obtain ⟨_, _, hes⟩ := hrest.describes hΓ₁
    obtain ⟨he, hs₁⟩ := ihFirst hΓ (hes.settled hm) hs hPf
    obtain ⟨hes, hs'⟩ := ihRest hΓ₁ hm hs₁ hPr
    exact ⟨.cons he hes, hs'⟩

end Check

end ComputeKernel
