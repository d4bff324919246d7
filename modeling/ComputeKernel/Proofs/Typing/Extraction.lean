import ComputeKernel.Proofs.Typing.Sound

/-!
Quiet checks follow the rules. A check that reports nothing, from a sound state, finds a type, and
finds it by the rule for the expression; each operator, call and name is taken apart once.
-/

namespace ComputeKernel.Check

open Shader (Receiver Member hasRule scalarMethod? intrinsic? intrinsicOwner Intrinsic)

variable {α : Type}

/-! ### Operators -/

theorem unify_quiet (a b : Typed) :
    Quiet (unify a b) fun s t s' => ∀ v, t = some v → Unifies a b s v s' := by
  unfold unify
  split
  · rename_i ha hb
    refine Quiet.pure fun s v hv => ?_
    split at hv
    · rename_i heq
      obtain rfl := Option.some.inj hv
      exact .settled ha hb heq
    · cases hv
  · rename_i f ha hb
    refine (coerce_quiet a b.type).bind fun done => Quiet.pure fun s' s hdone v hv => ?_
    rcases hdone with ⟨rfl, hfits, rfl⟩ | ⟨rfl, _, _⟩
    · obtain rfl := Option.some.inj hv
      exact .left ha hb hfits
    · cases hv
  · rename_i f ha hb
    refine (coerce_quiet b a.type).bind fun done => Quiet.pure fun s' s hdone v hv => ?_
    rcases hdone with ⟨rfl, hfits, rfl⟩ | ⟨rfl, _, _⟩
    · obtain rfl := Option.some.inj hv
      exact .right ha hb hfits
    · cases hv
  · rename_i f g ha hb
    refine Quiet.pure fun s v hv => ?_
    split at hv
    · rename_i heq
      obtain rfl := Option.some.inj hv
      obtain ⟨rfl, htype⟩ := heq
      exact .open ha hb htype
    · cases hv

theorem unary_quiet (op : UnaryOp) (t : Typed) (span : Span) :
    Quiet (unary op t span) fun s v s' =>
      v = some t.detached ∧ hasUnary op t.type ∧ s' = s := by
  unfold unary
  split
  · rename_i hop
    exact Quiet.pure fun s => ⟨rfl, hop, rfl⟩
  · exact fail_quiet _ _

theorem scalarBinary_quiet {op : BinaryOp} (hop : ¬ op.isLogical) (l r : Typed) (span : Span) :
    Quiet (scalarBinary op l r span) fun s t s' => ∃ v, t = some v ∧ Operates op l r s v s' := by
  unfold scalarBinary
  simp only
  split
  · rename_i k k' hl hr
    split
    · rename_i hshift
      split
      · rename_i hinteger
        refine Quiet.pure fun s => ⟨_, rfl, .shift hop hshift hl hr ?_ ?_⟩
        · simpa [Typed.isInteger, hl, Ty.isInteger] using (Bool.and_eq_true_iff.mp hinteger).1
        · simpa [Typed.isInteger, hr, Ty.isInteger] using (Bool.and_eq_true_iff.mp hinteger).2
      · exact fail_quiet _ _
    · rename_i hshift
      refine (unify_quiet l r).bind fun common => ?_
      cases common with
      | none => exact fail_quiet _ _
      | some common =>
        simp only
        split
        · exact fail_quiet _ _
        · rename_i hhas
          have hkind : ∀ s s', Unifies l r s common s' → ∃ k'', common.type = .scalar k'' ∧
              hasScalar op k'' := by
            intro s s' hunify
            have hscalar : ∃ k'', common.type = .scalar k'' := by
              cases hunify with
              | settled => exact ⟨k, hl⟩
              | left => exact ⟨k', hr⟩
              | right => exact ⟨k, hl⟩
              | «open» => exact ⟨k, hl⟩
            obtain ⟨k'', hk⟩ := hscalar
            refine ⟨k'', hk, ?_⟩
            simpa [hk, Ty.kind?, Ty.value?, ValueType.kind] using hhas
          split
          · rename_i hcomparison
            refine Quiet.pure fun s' s hunify => ?_
            obtain ⟨k'', hk, hhas⟩ := hkind _ _ (hunify _ rfl)
            exact ⟨_, rfl, .comparison hop hshift hcomparison hl hr (hunify _ rfl) hk hhas⟩
          · rename_i hcomparison
            refine Quiet.pure fun s' s hunify => ?_
            obtain ⟨k'', hk, hhas⟩ := hkind _ _ (hunify _ rfl)
            exact ⟨_, rfl, .scalar hop hshift hcomparison hl hr (hunify _ rfl) hk hhas⟩
  · exact fail_quiet _ _

/-- Where an operator follows the rules of vectors or of matrices, the main operand is one. -/
theorem isAggregate_mainOperand {l r : Typed} {receiver : Receiver}
    (h : Receiver.ofOperands? l.type r.type = some receiver) :
    ∃ v, (mainOperand l r).1.type = .value v := by
  unfold mainOperand
  unfold Receiver.ofOperands? at h
  split
  · rename_i hl
    cases htype : l.type with
    | value v => exact ⟨v, rfl⟩
    | _ => simp [htype, Ty.isAggregate] at hl
  · rename_i hl
    split at h
    · rename_i htype
      simp [htype, Ty.isAggregate, ValueType.isScalar] at hl
    · rename_i hr _
      exact ⟨_, hr⟩
    · rename_i htype _
      simp [htype, Ty.isAggregate, ValueType.isScalar] at hl
    · rename_i hr _ _
      exact ⟨_, hr⟩
    · cases h

theorem matching_quiet (v : ValueType) (other : Typed) :
    Quiet (do
      if other.type.isAggregate then return Ty.value v == other.type
      else coerce other (.scalar v.kind) : Check Bool) fun s found s' =>
        found = true → Matches v other s s' := by
  unfold Matches
  split
  · refine Quiet.pure fun s heq => ⟨?_, rfl⟩
    rw [beq_iff_eq] at heq
    exact heq.symm
  · refine (coerce_quiet other _).mono fun s found s' h hfound => ?_
    rcases h with ⟨_, hfits, hs'⟩ | ⟨hfalse, _⟩
    · exact ⟨hfits, hs'⟩
    · cases hfound.symm.trans hfalse

theorem aggregateBinary_quiet {op : BinaryOp} (hop : ¬ op.isLogical) {l r : Typed}
    {receiver : Receiver} (hreceiver : Receiver.ofOperands? l.type r.type = some receiver)
    (span : Span) :
    Quiet (aggregateBinary receiver op l r span) fun s t s' =>
      ∃ v, t = some v ∧ Operates op l r s v s' := by
  obtain ⟨v, hmain⟩ := isAggregate_mainOperand hreceiver
  unfold aggregateBinary
  rw [show (if l.type.isAggregate = true then (l, r) else (r, l)) = mainOperand l r from rfl]
  split
  rename_i main other hpair
  rw [hpair] at hmain
  simp only at hmain
  split
  · exact fail_quiet _ _
  rename_i hrule
  rw [hmain]
  refine (matching_quiet v other).bind fun matching => ?_
  cases matching with
  | false => exact failWithHelp_quiet _ _ _
  | true =>
    simp only [Bool.not_true, Bool.false_eq_true, if_false]
    split
    · exact fail_quiet _ _
    rename_i haggregate
    have hresult : ∀ s s', Matches v other s s' → Operates op l r s
        { type := .value (if op.isComparison then v.withKind .bool else v) } s' := by
      intro s s' hmatches
      simp only [Bool.not_eq_true', Bool.not_eq_false, Option.any_eq_true] at hrule
      obtain ⟨member, hmember, hhas⟩ := hrule
      refine .aggregate hop hreceiver hmember hhas (by rw [hpair]; exact hmain)
        (by rw [hpair]; exact hmatches) ?_
      simpa using haggregate
    split
    · rename_i hcomparison
      refine Quiet.pure fun s' s hmatches => ⟨_, rfl, ?_⟩
      have := hresult s s' (hmatches trivial)
      rwa [if_pos hcomparison] at this
    · rename_i hcomparison
      refine Quiet.pure fun s' s hmatches => ⟨_, rfl, ?_⟩
      have := hresult s s' (hmatches trivial)
      rwa [if_neg hcomparison] at this

theorem binary_quiet (op : BinaryOp) (l r : Typed) (span : Span) :
    Quiet (binary op l r span) fun s t s' => ∃ v, t = some v ∧ Operates op l r s v s' := by
  unfold binary
  split
  · rename_i hop
    split
    · rename_i htypes
      exact Quiet.pure fun s => ⟨_, rfl, .logical hop htypes.1 htypes.2⟩
    · exact fail_quiet _ _
  · rename_i hop
    split
    · rename_i receiver hreceiver
      exact aggregateBinary_quiet hop hreceiver span
    · exact scalarBinary_quiet hop l r span

theorem cast_quiet (t : Typed) (target : TypeRef) :
    Quiet (cast t target) fun s v s' =>
      ∃ k, v = some { type := .scalar k } ∧ Casts t target k ∧ s' = s := by
  unfold cast
  split
  · exact failWithHelp_quiet _ _ _
  · rename_i k l hne ht htarget
    split
    · exact fail_quiet _ _
    · rename_i hbool
      refine Quiet.pure fun s => ⟨l, rfl, ⟨htarget, ?_, k, ht, hbool⟩, rfl⟩
      rintro rfl
      exact hne rfl
  · exact fail_quiet _ _
  · exact fail_quiet _ _

/-! ### Members -/

theorem field_quiet (receiver : Typed) (member : Name) :
    Quiet (field receiver member) fun s v s' =>
      ∃ type, v = some { type } ∧ componentType? receiver.type member.text = some type ∧ s' = s := by
  unfold field
  split
  · rename_i type htype
    exact Quiet.pure fun s => ⟨type, rfl, htype, rfl⟩
  · exact fail_quiet _ _

theorem methodArguments_quiet (type : Ty) (args : List Argument) :
    Quiet (methodArguments type args) fun s _ s' => CoercesAll type args s s' := by
  induction args with
  | nil => exact Quiet.pure fun s => .nil
  | cons arg args ih =>
    refine (coerce_quiet arg.typed type).bind fun done => ?_
    cases done with
    | true =>
      refine ih.mono fun s₁ _ s' hrest s h => ?_
      rcases h with ⟨_, hfits, rfl⟩ | ⟨hfalse, _⟩
      · exact .cons hfits hrest
      · cases hfalse
    | false =>
      exact (error_quiet _ _).abort fun _ => ih.mono fun _ _ _ _ => trivial

theorem scalarMethod_quiet {receiver : Typed} {k : ScalarKind} (hk : receiver.type = .scalar k)
    (hbool : k ≠ .bool) {member : Name} {m : Shader.ScalarMethod}
    (hm : scalarMethod? member.text = some m) (args : List Argument) :
    Quiet (scalarMethod receiver k m member args.length (some args)) fun s t s' =>
      ∃ type, t = some { type } ∧ HasMethod receiver member args s type s' := by
  unfold scalarMethod
  split
  · exact fail_quiet _ _
  rename_i hkind
  split
  · exact fail_quiet _ _
  rename_i harity
  refine (Quiet.discard (S := fun s _ s' => s' = s.settle receiver (.scalar k))
    ((coerce_quiet receiver (.scalar k)).mono fun s done s' h => ?_)).bind fun _ =>
      (methodArguments_quiet _ args).bind fun _ => Quiet.pure fun s' s₁ hargs s hs₁ => ?_
  · rcases h with ⟨_, _, hs'⟩ | ⟨_, hnot, _⟩
    · exact hs'
    · exact (hnot (Or.inl hk)).elim
  · subst hs₁
    refine ⟨_, rfl, .scalar hk hbool hm ?_ (Decidable.not_not.mp harity) hargs⟩
    by_cases hfloat : k.isFloat
    · exact Or.inl hfloat
    · right
      simpa [hfloat] using hkind

theorem method_quiet (receiver : Typed) (member : Name) (args : List Argument) :
    Quiet (method receiver member args.length (some args)) fun s t s' =>
      ∃ type, t = some { type } ∧ HasMethod receiver member args s type s' := by
  unfold method
  simp only
  split
  · rename_i k n htype
    split
    · rename_i hswizzle
      exact Quiet.pure fun s => ⟨_, rfl, .swizzle htype (List.length_eq_zero_iff.mp hswizzle.1)
        hswizzle.2⟩
    · exact fail_quiet _ _
  · rename_i k rows columns htype
    split
    · rename_i r c hposition
      split at hposition
      · rename_i hcount
        split
        · rename_i hrange
          exact Quiet.pure fun s => ⟨_, rfl, .element htype (List.length_eq_zero_iff.mp hcount)
            hposition hrange.1 hrange.2⟩
        · exact fail_quiet _ _
      · cases hposition
    · exact fail_quiet _ _
  · rename_i k htype
    split
    · rename_i m hm
      split at hm
      · cases hm
      · rename_i hbool
        exact scalarMethod_quiet htype hbool hm args
    · exact fail_quiet _ _
  · exact fail_quiet _ _

/-! ### Calls -/

theorem exists_value_of_isValue {t : Ty} (h : t.isValue) : ∃ v, t = .value v := by
  cases t with
  | value v => exact ⟨v, rfl⟩
  | _ => cases h

theorem intrinsicArguments_quiet (name : String) (kind : ScalarKind) (common : ValueType)
    (args : List Argument) :
    Quiet (intrinsicArguments name kind (.value common) args) fun s done s' =>
      done = true ∧ IntrinsicArguments kind common args s s' := by
  induction args with
  | nil => exact Quiet.pure fun s => ⟨rfl, .nil⟩
  | cons arg args ih =>
    refine (coerce_quiet arg.typed (intrinsicTarget kind common arg.typed)).bind fun done => ?_
    cases done with
    | true =>
      refine ih.mono fun s₁ _ s' hrest s h => ?_
      rcases h with ⟨_, hfits, rfl⟩ | ⟨hfalse, _⟩
      · exact ⟨hrest.1, .cons hfits hrest.2⟩
      · cases hfalse
    | false => exact (error_quiet _ _).abort fun _ => Quiet.pure fun _ => trivial

/-- The type that an intrinsic's arguments have in common, where all of them are values. -/
theorem commonType_quiet (name : String) {args : List Argument} (hne : args ≠ [])
    (hvalues : ∀ a ∈ args, a.typed.type.isValue) :
    Quiet (commonType name args) fun s t s' => ∃ a kind, anchor? args = some a ∧
      a.typed.type.kind? = some kind ∧ t = some (commonShape kind args) ∧
      IntrinsicArguments kind (commonShape kind args) args s s' := by
  have hanchor : ∃ a ∈ args, anchor? args = some a := by
    unfold anchor?
    cases hfind : args.find? fun a => a.typed.family.isNone with
    | some a => exact ⟨a, List.mem_of_find?_eq_some hfind, rfl⟩
    | none =>
      cases args with
      | nil => exact (hne rfl).elim
      | cons a args => exact ⟨a, List.mem_cons_self, rfl⟩
  obtain ⟨a, ha, hanchor⟩ := hanchor
  have hkind : ∃ kind, a.typed.type.kind? = some kind := by
    have hvalue := hvalues a ha
    unfold Ty.isValue at hvalue
    obtain ⟨v, hv⟩ := Option.isSome_iff_exists.mp hvalue
    exact ⟨v.kind, by simp [Ty.kind?, hv]⟩
  obtain ⟨kind, hkind⟩ := hkind
  unfold commonType
  rw [show ((args.find? fun a => a.typed.family.isNone) <|> args.head?) = some a from hanchor]
  simp only [Option.bind_some, hkind]
  refine (intrinsicArguments_quiet name kind (commonShape kind args) args).bind fun done =>
    Quiet.pure fun s' s h => ?_
  obtain ⟨rfl, hargs⟩ := h
  exact ⟨a, kind, hanchor, hkind, rfl, hargs⟩

theorem intrinsicResult_quiet {i : Intrinsic} {args : List Argument} (hne : args ≠ [])
    (hcount : args.length = i.arity) (hproduct : i.result = .product → i.arity = 2)
    (hvalues : ∀ a ∈ args, a.typed.type.isValue) (span : Span) :
    Quiet (intrinsicResult i args span) fun s t s' =>
      ∃ type, t = some { type } ∧ IntrinsicResult i args s type s' := by
  unfold intrinsicResult
  split
  · rename_i hresult
    refine (commonType_quiet i.name hne hvalues).bind fun common => Quiet.pure fun s' s h => ?_
    obtain ⟨a, kind, hanchor, hkind, rfl, hargs⟩ := h
    exact ⟨_, rfl, .operands hresult hanchor hkind hargs⟩
  · rename_i hresult
    refine (commonType_quiet i.name hne hvalues).bind fun common => Quiet.pure fun s' s h => ?_
    obtain ⟨a, kind, hanchor, hkind, rfl, hargs⟩ := h
    exact ⟨_, rfl, .component hresult hanchor hkind hargs⟩
  · rename_i hresult
    exact Quiet.pure fun s => ⟨_, rfl, .bool hresult⟩
  · rename_i hresult
    unfold product
    split
    · rename_i a b
      split
      · rename_i v w hv hw
        split
        · rename_i p hp
          exact Quiet.pure fun s => ⟨_, rfl, .product hresult rfl hv hw hp⟩
        · exact fail_quiet _ _
      · rename_i hnot
        obtain ⟨ha, hb, _⟩ : a.typed.type.isValue ∧ b.typed.type.isValue ∧ True := by
          simpa using hvalues
        obtain ⟨v, hv⟩ := exists_value_of_isValue ha
        obtain ⟨w, hw⟩ := exists_value_of_isValue hb
        exact (hnot v w hv hw).elim
    · rename_i hnot
      rw [hproduct hresult] at hcount
      match args, hcount with
      | [a, b], _ => exact (hnot a b rfl).elim

theorem arity_of_mem_intrinsics : ∀ i ∈ Shader.intrinsics,
    1 ≤ i.arity ∧ (i.result = .product → i.arity = 2) := by
  decide

theorem intrinsic_quiet {callee : Path} (howner : callee.owner? = some intrinsicOwner)
    (calleeSpan : Span) (args : List Argument) (span : Span) :
    Quiet (intrinsic callee calleeSpan args.length (some args) span) fun s t s' =>
      ∃ type, t = some { type } ∧ Calls callee args s type s' := by
  unfold intrinsic
  split
  · exact fail_quiet _ _
  rename_i i hi
  obtain ⟨hpos, hproduct⟩ := arity_of_mem_intrinsics i (List.mem_of_find?_eq_some hi)
  split
  · exact fail_quiet _ _
  rename_i hcount
  rw [Decidable.not_not] at hcount
  simp only
  split
  · exact fail_quiet _ _
  rename_i hnone
  have hvalues : ∀ a ∈ args, a.typed.type.isValue := by
    simpa [List.find?_eq_none] using hnone
  have hne : args ≠ [] := by
    rintro rfl
    rw [← hcount] at hpos
    exact Nat.not_succ_le_zero 0 hpos
  refine (intrinsicResult_quiet hne hcount hproduct hvalues span).mono fun s t s' h => ?_
  obtain ⟨type, rfl, hresult⟩ := h
  exact ⟨type, rfl, .intrinsic howner hi hcount hvalues hresult⟩

theorem suppliedComponents_quiet (built : ValueType) (args : List Argument) :
    Quiet (suppliedComponents built args) fun s n s' =>
      ∃ count, n = some count ∧ Supplies built args s count s' := by
  induction args with
  | nil => exact Quiet.pure fun s => ⟨0, rfl, .nil⟩
  | cons arg args ih =>
    unfold suppliedComponents
    refine Quiet.bind (R := fun s n s' => ∀ m : UInt8, n = some m →
      (∃ n, arg.typed.type = .vector built.kind n ∧ m = .ofNat n ∧ s' = s) ∨
        ∃ k, arg.typed.type = .scalar k ∧ arg.typed.Fits (.scalar built.kind) ∧ m = 1 ∧
          s' = s.settle arg.typed (.scalar built.kind)) ?_ fun supplied => ?_
    · split
      · rename_i k n htype
        refine Quiet.pure fun s m hm => Or.inl ⟨n, ?_⟩
        split at hm
        · rename_i hk
          exact ⟨by rw [htype, hk], (Option.some.inj hm).symm, rfl⟩
        · cases hm
      · rename_i k htype
        refine (coerce_quiet arg.typed _).bind fun done => Quiet.pure fun s' s h m hm => ?_
        rcases h with ⟨rfl, hfits, hs'⟩ | ⟨rfl, _, _⟩
        · obtain rfl := Option.some.inj hm
          exact Or.inr ⟨k, htype, hfits, rfl, hs'⟩
        · cases hm
      · exact Quiet.pure fun s m hm => nomatch hm
    · cases supplied with
      | none => exact (error_quiet _ _).abort fun _ => Quiet.pure fun _ => trivial
      | some n =>
        refine ih.bind fun rest => Quiet.pure fun s' s₁ hrest s h => ?_
        obtain ⟨count, rfl, hsupplies⟩ := hrest
        rcases h n rfl with ⟨n, htype, rfl, rfl⟩ | ⟨k, htype, hfits, rfl, rfl⟩
        · exact ⟨.ofNat n + count, rfl, .vector htype hsupplies⟩
        · exact ⟨1 + count, rfl, .scalar htype hfits hsupplies⟩

theorem construct_quiet {owner : String} {callee : Path} (howner : callee.owner? = some owner)
    (hne : owner ≠ intrinsicOwner) (hconstructor : isConstructor callee.last) (calleeSpan : Span)
    (args : List Argument) (span : Span) :
    Quiet (construct owner callee calleeSpan (some args) span) fun s t s' =>
      ∃ type, t = some { type } ∧ Calls callee args s type s' := by
  unfold construct
  split
  · rename_i v hv
    split
    · exact fail_quiet _ _
    rename_i hscalar
    simp only
    split
    · rename_i hsplat
      rw [beq_iff_eq] at hsplat
      unfold splatValue
      split
      · rename_i arg
        refine (coerce_quiet arg.typed _).bind fun done => ?_
        cases done with
        | true =>
          refine Quiet.pure fun s' s h => ?_
          rcases h with ⟨_, hfits, rfl⟩ | ⟨hfalse, _⟩
          · exact ⟨_, rfl, .splat howner hne hsplat hv hscalar rfl hfits⟩
          · cases hfalse
        | false => exact fail_quiet _ _
      · exact fail_quiet _ _
    · rename_i hsplat
      have hnew : callee.last = "new" := by
        simp only [isConstructor, Bool.or_eq_true, beq_iff_eq] at hconstructor hsplat
        exact hconstructor.resolve_right hsplat
      unfold newValue
      refine (suppliedComponents_quiet v args).bind fun found => ?_
      cases found with
      | none => exact Quiet.pure fun s' s ⟨count, hcount, _⟩ => nomatch hcount
      | some found =>
        simp only
        split
        · rename_i hcomponents
          refine Quiet.pure fun s' s h => ?_
          obtain ⟨count, hcount, hsupplies⟩ := h
          obtain rfl := Option.some.inj hcount
          exact ⟨_, rfl, .new howner hne hnew hv hscalar (hcomponents ▸ hsupplies)⟩
        · exact fail_quiet _ _
  · exact fail_quiet _ _

theorem call_quiet (callee : Path) (calleeSpan : Span) (args : List Argument) (span : Span) :
    Quiet (call callee calleeSpan args.length (some args) span) fun s t s' =>
      ∃ type, t = some { type } ∧ Calls callee args s type s' := by
  unfold call
  split
  · rename_i owner howner
    split
    · rename_i hintrinsic
      exact intrinsic_quiet (howner.trans (congrArg some hintrinsic)) calleeSpan args span
    rename_i hne
    split
    · rename_i hconstructor
      exact construct_quiet howner hne hconstructor calleeSpan args span
    · exact failWithHelp_quiet _ _ _
  · exact failWithHelp_quiet _ _ _

/-! ### Indexes -/

theorem element_quiet (base : Typed) (baseSpan : Span) (index : Typed) (indexSpan : Span) :
    Quiet (element base baseSpan index indexSpan) fun s t s' => ∃ type, t = some { type } ∧
      index.type.isInteger ∧ elementType? base.type = some type ∧ s' = s := by
  unfold element
  split
  · exact fail_quiet _ _
  rename_i hinteger
  split
  · rename_i type htype
    exact Quiet.pure fun s => ⟨type, rfl, by simpa [Typed.isInteger] using hinteger, htype, rfl⟩
  · exact fail_quiet _ _

theorem selectors_quiet (rows columns : Nat) (items : List Expr) :
    Quiet (selectors rows columns items) fun s done s' =>
      done = true ∧ Selects rows columns items s s' := by
  induction items with
  | nil => exact Quiet.pure fun s => ⟨rfl, .nil⟩
  | cons item items ih =>
    unfold selectors
    simp only
    split
    · rename_i r c hposition
      split
      · rename_i hrange
        refine (setType_quiet _ _).bind fun _ => ih.mono fun s₁ _ s' hrest s hs₁ => ?_
        subst hs₁
        split at hposition
        · exact ⟨hrest.1, .cons hposition hrange.1 hrange.2 hrest.2⟩
        · cases hposition
      · exact (error_quiet _ _).abort fun _ => Quiet.pure fun _ => trivial
    · exact (errorWithHelp_quiet _ _ _).abort fun _ => Quiet.pure fun _ => trivial

theorem matrixSwizzle_quiet (k : ScalarKind) (rows columns : Nat) (items : List Expr)
    (span : Span) :
    Quiet (matrixSwizzle k rows columns items span) fun s t s' =>
      t = some { type := .vector k items.length } ∧ 2 ≤ items.length ∧ items.length ≤ 4 ∧
        ∃ s₁, Selects rows columns items s s₁ ∧
          s' = s₁.noteType span (.selectors items.length) := by
  unfold matrixSwizzle
  simp only
  split
  · exact fail_quiet _ _
  rename_i hcount
  refine (selectors_quiet rows columns items).bind fun done => ?_
  cases done with
  | true =>
    refine (setType_quiet _ _).bind fun _ => Quiet.pure fun s' s₁ hs' s h => ?_
    exact ⟨rfl, by omega, by omega, s₁, h.2, hs'⟩
  | false => exact Quiet.pure fun s' s h => nomatch h.1

/-! ### Names -/

theorem staticType_quiet {index : Nat} {decl : StaticDecl} (span : Span) :
    Quiet (staticType index decl span) fun s t s' => ∃ type, t = some { type } ∧
      Ty.ofText? decl.type = some type ∧ s' = s.noteReferent span (.static index) := by
  refine (setReferent_quiet _ _).bind fun _ => ?_
  split
  · rename_i type htype
    exact Quiet.pure fun s' s hs' => ⟨type, rfl, htype, hs'⟩
  · exact fail_quiet _ _

theorem static_quiet (catalog : Catalog) (path : Path) (span : Span) :
    Quiet (static catalog.statics path span) fun s t s' => ∃ index type, t = some { type } ∧
      NamesStatic catalog path index type ∧ s' = s.noteReferent span (.static index) := by
  unfold static
  split
  · exact fail_quiet _ _
  · rename_i index hnamed
    have hmem : index ∈ staticsNamed path catalog.statics := hnamed ▸ List.mem_singleton_self _
    simp only [staticsNamed, List.mem_filter, List.mem_range] at hmem
    split
    · rename_i decl hdecl
      refine (staticType_quiet span).mono fun s t s' h => ?_
      obtain ⟨type, rfl, htype, hs'⟩ := h
      exact ⟨index, type, rfl, ⟨hnamed, decl, hdecl, htype⟩, hs'⟩
    · rename_i hnone
      rw [List.getElem?_eq_none_iff] at hnone
      exact absurd hmem.1 (Nat.not_lt.mpr hnone)
  · exact failWithHelp_quiet _ _ _

theorem localType_quiet (id : Nat) :
    Quiet (localType id) fun s t s' => s' = s ∧
      ∀ l, s.model.local? id = some l → l.type ≠ .unknown → t = some (useOf id l) := by
  refine (Quiet.get (S := fun s d s' => d = s ∧ s' = s) fun _ => ⟨rfl, rfl⟩).bind fun d => ?_
  split
  · rename_i l hl
    split
    · rename_i hunknown
      refine Quiet.pure fun s' s h => ⟨h.2, fun l' hl' hne => ?_⟩
      rw [← h.1, hl, Option.some.injEq] at hl'
      exact absurd (hl' ▸ hunknown) hne
    · refine Quiet.pure fun s' s h => ⟨h.2, fun l' hl' _ => ?_⟩
      rw [← h.1, hl, Option.some.injEq] at hl'
      subst hl'
      rfl
  · rename_i hnone
    refine Quiet.pure fun s' s h => ⟨h.2, fun l' hl' _ => ?_⟩
    rw [← h.1, hnone] at hl'
    cases hl'

theorem captureType_quiet {index : Nat} {f : FieldDecl} (span : Span) :
    Quiet (captureType index f span) fun s t s' => ∃ type, t = some { type } ∧
      Ty.ofText? f.type = some type ∧ s' = s.noteReferent span (.capture index) := by
  refine (setReferent_quiet _ _).bind fun _ => ?_
  split
  · rename_i type htype
    exact Quiet.pure fun s' s hs' => ⟨type, rfl, htype, hs'⟩
  · exact fail_quiet _ _

theorem ne_unknown_of_isLocalType {t : Ty} (h : isLocalType t) : t ≠ .unknown := by
  rintro rfl
  cases h

theorem name_quiet (catalog : Catalog) (text : String) (span : Span) :
    Quiet (name catalog text span) fun s t s' => s.Sound → ∃ v, t = some v ∧
      Checks catalog s (.expr (.name span text) v) (s'.noteType span v.type) := by
  refine (findLocal?_quiet text).bind fun found => ?_
  cases found with
  | some id =>
    refine (setReferent_quiet span _).bind fun _ => (localType_quiet id).mono ?_
    intro s₂ t s' ⟨hs', huse⟩ s₁ hs₂ s ⟨hid, hs₁⟩ hsound
    subst hs₁ hs₂ hs'
    obtain ⟨l, hl, hlocal⟩ := hsound.local_of_find? hid.symm
    have ht := huse l hl (ne_unknown_of_isLocalType hlocal.isLocal)
    exact ⟨_, ht, .local hid.symm hl⟩
  | none =>
    simp only
    split
    · rename_i index hindex
      have hlt := (List.findIdx?_eq_some_iff_getElem.mp hindex).1
      split
      · rename_i f hf
        refine (captureType_quiet span).mono fun s₁ t s' h s ⟨hnone, hs₁⟩ _ => ?_
        obtain ⟨type, rfl, htype, rfl⟩ := h
        subst hs₁
        exact ⟨_, rfl, .capture hnone.symm ⟨hindex, f, hf, htype⟩⟩
      · rename_i hnone
        rw [List.getElem?_eq_none_iff] at hnone
        exact absurd hlt (Nat.not_lt.mpr hnone)
    · rename_i hfield
      refine (static_quiet catalog [text] span).mono fun s₁ t s' h s ⟨hnone, hs₁⟩ _ => ?_
      obtain ⟨index, type, rfl, hstatic, rfl⟩ := h
      subst hs₁
      exact ⟨_, rfl, .static hnone.symm hfield hstatic⟩

theorem path_quiet (catalog : Catalog) (p : Path) (span : Span) :
    Quiet (path catalog p span) fun s t s' => ∃ v, t = some v ∧
      Checks catalog s (.expr (.path span p) v) (s'.noteType span v.type) := by
  unfold path
  split
  · exact failWithHelp_quiet _ _ _
  · rename_i howner
    refine (static_quiet catalog p span).mono fun s t s' h => ?_
    obtain ⟨index, type, rfl, hstatic, rfl⟩ := h
    exact ⟨_, rfl, .path howner hstatic⟩

/-! ### Expressions -/

theorem choice_quiet (yes no : Typed) (span : Span) :
    Quiet (choice yes no span) fun s t s' => ∃ v, t = some v ∧ Unifies yes no s v s' := by
  refine (unify_quiet yes no).bind fun common => ?_
  cases common with
  | none => exact fail_quiet _ _
  | some v => exact Quiet.pure fun s' s h => ⟨v, rfl, h v rfl⟩

theorem requireBool_quiet (t : Option Typed) (span : Span) :
    Quiet (requireBool t span) fun s _ s' => (∀ v, t = some v → v.type = .bool) ∧ s' = s := by
  cases t with
  | none => exact Quiet.pure fun s => ⟨nofun, rfl⟩
  | some t =>
    unfold requireBool
    simp only
    split
    · exact error_quiet _ _
    · rename_i hbool
      refine Quiet.pure fun s => ⟨fun v hv => ?_, rfl⟩
      obtain rfl := Option.some.inj hv
      exact Decidable.not_not.mp hbool

theorem pairArguments_some (es : List Expr) (ts : List Typed) :
    pairArguments es (ts.map some) = some (arguments es ts) := by
  induction es generalizing ts with
  | nil => rfl
  | cons e es ih =>
    cases ts with
    | nil => rfl
    | cons t ts =>
      have := ih ts
      simp only [pairArguments, arguments, List.map_cons, List.zip_cons_cons, List.mapM_cons] at this ⊢
      simp [this]

theorem length_exprs (catalog : Catalog) (es : List Expr) (s : Checking) :
    ((exprs catalog es).run s).1.length = es.length := by
  induction es generalizing s with
  | nil => rfl
  | cons e es ih => exact congrArg (· + 1) (ih ((expr catalog e).run s).2)

theorem length_of_mapM {α β : Type} {f : α → Option β} {l : List α} {as : List β}
    (h : l.mapM f = some as) : as.length = l.length := by
  induction l generalizing as with
  | nil => simpa using h.symm
  | cons a l ih =>
    simp only [List.mapM_cons, Option.bind_eq_bind, Option.pure_def,
      Option.bind_eq_some_iff, Option.some.injEq] at h
    obtain ⟨b, _, bs, hbs, rfl⟩ := h
    rw [List.length_cons, List.length_cons, ih hbs]

theorem length_of_pairArguments {es : List Expr} {ts : List (Option Typed)} {args : List Argument}
    (hts : ts.length = es.length) (h : pairArguments es ts = some args) :
    args.length = es.length := by
  unfold pairArguments at h
  rw [length_of_mapM h, List.length_zip, hts, Nat.min_self]

/-! ### Arguments without types -/

theorem method_none_quiet (receiver : Typed) (member : Name) (count : Nat) :
    Quiet (method receiver member count none) fun _ _ _ => True := by
  unfold method scalarMethod
  simp only
  split
  · split
    · exact Quiet.pure fun _ => trivial
    · exact fail_quiet _ _
  · split
    · split
      · exact Quiet.pure fun _ => trivial
      · exact fail_quiet _ _
    · exact fail_quiet _ _
  · split
    · split
      · exact fail_quiet _ _
      · split
        · exact fail_quiet _ _
        · exact (Quiet.discard (S := fun _ _ _ => True) ((coerce_quiet _ _).mono
            fun _ _ _ _ => trivial)).bind fun _ => Quiet.pure fun _ _ _ => trivial
    · exact fail_quiet _ _
  · exact fail_quiet _ _

theorem call_none_quiet (callee : Path) (calleeSpan : Span) (count : Nat) (span : Span) :
    Quiet (call callee calleeSpan count none span) fun _ _ _ => True := by
  unfold call intrinsic construct
  simp only
  split
  · split
    · split
      · exact fail_quiet _ _
      · split
        · exact fail_quiet _ _
        · exact Quiet.pure fun _ => trivial
    · split
      · split
        · split
          · exact fail_quiet _ _
          · exact Quiet.pure fun _ => trivial
        · exact fail_quiet _ _
      · exact failWithHelp_quiet _ _ _
  · exact failWithHelp_quiet _ _ _

/-! ### Operands -/

variable {β : Type} {catalog : Catalog}

/-- What a quiet check of an expression is, from a sound state. -/
def FindsType (catalog : Catalog) (e : Expr) (s : Checking) (t : Option Typed) (s' : Checking) :
    Prop :=
  s.Sound → ∃ v, t = some v ∧ Checks catalog s (.expr e v) s'

/-- What a quiet check of a list of expressions is, from a sound state. -/
def FindsTypes (catalog : Catalog) (es : List Expr) (s : Checking) (ts : List (Option Typed))
    (s' : Checking) : Prop :=
  s.Sound → ∃ vs, ts = vs.map some ∧ Checks catalog s (.args es vs) s'

/-- Behind a check only the case that it found a type is of interest: from a sound state a quiet check
finds one, and what follows starts from a sound state again. -/
theorem bind_found {e : Expr} {f : Option Typed → Check β} {T : Checking → β → Checking → Prop}
    (he : Quiet (expr catalog e) (FindsType catalog e)) (hnone : Quiet (f none) fun _ _ _ => True)
    (hsome : ∀ v, Quiet (f (some v)) fun s₁ b s' =>
      s₁.Sound → ∀ s, Checks catalog s (.expr e v) s₁ → T s b s') :
    Quiet (expr catalog e >>= f) fun s b s' => s.Sound → T s b s' := by
  refine he.bind fun t => ?_
  cases t with
  | none =>
    refine hnone.mono fun s₁ b s' _ s h hs => ?_
    obtain ⟨_, hv, _⟩ := h hs
    cases hv
  | some v =>
    refine (hsome v).mono fun s₁ b s' hT s h hs => ?_
    obtain ⟨_, ⟨⟩, hchecks⟩ := h hs
    exact hT (hchecks.sound hs).2 s hchecks

/-- The same for a condition, which a quiet check has found to be of type `bool`. -/
theorem bind_condition {e : Expr} {f : Unit → Check β} {T : Checking → β → Checking → Prop}
    (he : Quiet (expr catalog e) (FindsType catalog e))
    (hf : Quiet (f ()) fun s₁ b s' =>
      s₁.Sound → ∀ s v, v.type = .bool → Checks catalog s (.expr e v) s₁ → T s b s') :
    Quiet (expr catalog e >>= fun t => requireBool t e.span >>= f) fun s b s' =>
      s.Sound → T s b s' := by
  refine he.bind fun t => (requireBool_quiet t e.span).bind fun _ => hf.mono ?_
  rintro s₁ b s' hT _ ⟨hbool, rfl⟩ s h hs
  obtain ⟨v, rfl, hchecks⟩ := h hs
  exact hT (hchecks.sound hs).2 s v (hbool v rfl) hchecks

/-- The same for a list of arguments, which have types all of them. -/
theorem bind_arguments {args : List Expr} {f : Option (List Argument) → Check β}
    {T : Checking → β → Checking → Prop}
    (hargs : Quiet (exprs catalog args) (FindsTypes catalog args))
    (hnone : Quiet (f none) fun _ _ _ => True)
    (hsome : ∀ as, as.length = args.length → Quiet (f (some as)) fun s₁ b s' =>
      ∀ s vs, as = arguments args vs → Checks catalog s (.args args vs) s₁ → T s b s') :
    Quiet (exprs catalog args >>= fun types => f (pairArguments args types)) fun s b s' =>
      s.Sound → T s b s' := by
  refine Quiet.bind_of_value (V := fun ts => ts.length = args.length) (length_exprs catalog args)
    hargs fun types hlength => ?_
  cases htypes : pairArguments args types with
  | none =>
    refine hnone.mono fun s₁ b s' _ s h hs => ?_
    obtain ⟨vs, rfl, _⟩ := h hs
    rw [pairArguments_some] at htypes
    cases htypes
  | some as =>
    refine (hsome as (length_of_pairArguments hlength htypes)).mono fun s₁ b s' hT s h hs => ?_
    obtain ⟨vs, rfl, hchecks⟩ := h hs
    rw [pairArguments_some, Option.some.injEq] at htypes
    exact hT s vs htypes.symm hchecks

/-- With its operands checked, an expression has the type that the rule for it gives, and this is noted. -/
theorem typed_found {p : Check (Option Typed)} {span : Span}
    {R T : Checking → Option Typed → Checking → Prop} (hp : Quiet p R)
    (hT : ∀ s t s', R s t s' → ∃ v, t = some v ∧ T s (some v) (s'.noteType span v.type)) :
    Quiet (p >>= typed span) T := by
  refine hp.bind fun t => ?_
  cases t with
  | none =>
    refine Quiet.pure fun s' s h => ?_
    obtain ⟨_, hv, _⟩ := hT _ _ _ h
    cases hv
  | some v =>
    refine (setType_quiet span v.type).bind fun _ => Quiet.pure fun s' s₁ hs' s h => ?_
    obtain ⟨_, ⟨⟩, htyped⟩ := hT _ _ _ h
    exact hs' ▸ htyped

/-! ### Expressions -/

mutual

theorem expr_quiet (catalog : Catalog) : ∀ e, Quiet (expr catalog e) (FindsType catalog e)
  | .literal span value =>
    typed_found (R := fun s t s' => t = some (literal value) ∧ s' = s)
      (Quiet.pure fun s => ⟨rfl, rfl⟩) fun s t s' h => by
        obtain ⟨rfl, rfl⟩ := h
        exact ⟨_, rfl, fun _ => ⟨_, rfl, .literal⟩⟩
  | .name span text => by
    refine (name_quiet catalog text span).bind fun t => ?_
    cases t with
    | none =>
      refine Quiet.pure fun s' s h hs => ?_
      obtain ⟨_, hv, _⟩ := h hs
      cases hv
    | some v =>
      refine (setType_quiet span v.type).bind fun _ => Quiet.pure fun s' s₁ hs' s h hs => ?_
      obtain ⟨_, ⟨⟩, hchecks⟩ := h hs
      exact ⟨v, rfl, hs' ▸ hchecks⟩
  | .path span p => typed_found (path_quiet catalog p span) fun s t s' h => by
      obtain ⟨v, rfl, hchecks⟩ := h
      exact ⟨v, rfl, fun _ => ⟨v, rfl, hchecks⟩⟩
  | .unary span op operand => by
    refine bind_found (expr_quiet catalog operand) (Quiet.pure fun _ => trivial) fun t =>
      typed_found (unary_quiet op t span) ?_
    rintro s₁ _ _ ⟨rfl, hop, rfl⟩
    exact ⟨_, rfl, fun _ s hoperand => ⟨_, rfl, .unary hoperand hop⟩⟩
  | .binary span op left right => by
    refine bind_found (expr_quiet catalog left) ?_ fun l =>
      bind_found (expr_quiet catalog right) (Quiet.pure fun _ => trivial) fun r =>
        typed_found (binary_quiet op l r span) ?_
    · exact (expr_quiet catalog right).bind fun _ => Quiet.pure fun _ _ _ => trivial
    · rintro s₂ _ _ ⟨v, rfl, hop⟩
      exact ⟨v, rfl, fun _ s₁ hright s hleft => ⟨v, rfl, .binary hleft hright hop⟩⟩
  | .cast span operand type => by
    refine bind_found (expr_quiet catalog operand) (Quiet.pure fun _ => trivial) fun t =>
      typed_found (cast_quiet t type) ?_
    rintro s₁ _ _ ⟨k, rfl, hcasts, rfl⟩
    exact ⟨_, rfl, fun _ s hoperand => ⟨_, rfl, .cast hoperand hcasts⟩⟩
  | .field span receiver member => by
    refine bind_found (expr_quiet catalog receiver) (Quiet.pure fun _ => trivial) fun t =>
      typed_found (field_quiet t member) ?_
    rintro s₁ _ _ ⟨type, rfl, htype, rfl⟩
    exact ⟨_, rfl, fun _ s hreceiver => ⟨_, rfl, .field hreceiver htype⟩⟩
  | .method span receiver member args => by
    refine bind_found (expr_quiet catalog receiver) ?_ fun r =>
      bind_arguments (f := fun as => method r member args.length as >>= typed span)
        (exprs_quiet catalog args) (typed_grows span (method_none_quiet r member args.length))
        fun as hlength => hlength ▸ typed_found (method_quiet r member as) ?_
    · exact (exprs_quiet catalog args).bind fun _ => Quiet.pure fun _ _ _ => trivial
    · rintro s₂ _ _ ⟨type, rfl, hmethod⟩
      refine ⟨_, rfl, fun s₁ ts has hargs s hreceiver => ⟨_, rfl, ?_⟩⟩
      exact .method hreceiver hargs (has ▸ hmethod)
  | .call span callee calleeSpan args => by
    refine bind_arguments (f := fun as => call callee calleeSpan args.length as span >>= typed span)
      (exprs_quiet catalog args) (typed_grows span (call_none_quiet callee calleeSpan args.length span))
      fun as hlength => hlength ▸ typed_found (call_quiet callee calleeSpan as span) ?_
    rintro s₁ _ _ ⟨type, rfl, hcall⟩
    exact ⟨_, rfl, fun s ts has hargs => ⟨_, rfl, .call hargs (has ▸ hcall)⟩⟩
  | .index span base index => by
    refine bind_found (expr_quiet catalog base) (Quiet.pure fun _ => trivial) fun b => ?_
    simp only
    split
    · rename_i k rows columns items hitems
      unfold swizzleItems? at hitems
      split at hitems
      · rename_i _ _ _ itemsSpan _ htype
        obtain ⟨rfl, rfl, rfl, rfl⟩ := hitems
        refine typed_found (matrixSwizzle_quiet k rows columns items itemsSpan) ?_
        rintro s₁ _ _ ⟨rfl, hlo, hhi, s₂, hselects, rfl⟩
        exact ⟨_, rfl, fun _ s hbase => ⟨_, rfl, .swizzle hbase htype hlo hhi hselects⟩⟩
      · cases hitems
    · rename_i hitems
      refine bind_found (expr_quiet catalog index) (Quiet.pure fun _ => trivial) fun i =>
        typed_found (element_quiet b base.span i index.span) ?_
      rintro s₂ _ _ ⟨type, rfl, hinteger, htype, rfl⟩
      refine ⟨_, rfl, fun _ s₁ hindex s hbase => ⟨_, rfl, ?_⟩⟩
      exact .element hbase hitems hindex hinteger htype
  | .tuple span _ => fail_quiet _ _
  | .paren span inner => by
    refine bind_found (expr_quiet catalog inner) (Quiet.pure fun _ => trivial) fun t => ?_
    refine (setType_quiet span t.type).bind fun _ => Quiet.pure fun s' s₁ hs' _ s hinner => ?_
    exact ⟨t, rfl, hs' ▸ .paren hinner⟩
  | .choice span condition yes no => by
    refine bind_condition (expr_quiet catalog condition) ?_
    refine bind_found (expr_quiet catalog yes) ?_ fun y =>
      bind_found (expr_quiet catalog no) (Quiet.pure fun _ => trivial) fun n =>
        typed_found (choice_quiet y n span) ?_
    · exact (expr_quiet catalog no).bind fun _ => Quiet.pure fun _ _ _ => trivial
    · rintro s₃ _ _ ⟨v, rfl, hunify⟩
      refine ⟨v, rfl, fun _ s₂ hno s₁ hyes s c hbool hcondition => ⟨v, rfl, ?_⟩⟩
      exact .choice hcondition hbool hyes hno hunify

theorem exprs_quiet (catalog : Catalog) : ∀ es, Quiet (exprs catalog es) (FindsTypes catalog es)
  | [] => Quiet.pure fun s _ => ⟨[], rfl, .nil⟩
  | e :: es => by
    refine (expr_quiet catalog e).bind fun t => (exprs_quiet catalog es).bind fun ts =>
      Quiet.pure fun s' s₁ hrest s hfirst hs => ?_
    obtain ⟨v, rfl, he⟩ := hfirst hs
    obtain ⟨vs, rfl, hes⟩ := hrest (he.sound hs).2
    exact ⟨v :: vs, rfl, .cons he hes⟩

end

end ComputeKernel.Check
