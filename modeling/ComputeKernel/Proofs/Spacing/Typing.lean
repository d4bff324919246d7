import ComputeKernel.Proofs.Spacing.Checking
import ComputeKernel.Typing.Statements

/-!
Checking two closures that differ in their ranges only. Each rule gives the same type to both, or
reports the same; where a rule looks at a note, it finds what was noted for the counterpart.
-/

namespace ComputeKernel

namespace Check

open Shader (Receiver Intrinsic)

variable {P : Span → Span → Prop}

/-! ### Operators -/

theorem unary_paired (op : UnaryOp) (t : Typed) (span span' : Span) :
    Paired (Checking.Alike P) Eq (unary op t span) (unary op t span') := by
  unfold unary
  split
  · exact Paired.pure rfl
  · exact fail_paired _ span span'

theorem scalarBinary_paired (op : BinaryOp) (left right : Typed) (span span' : Span) :
    Paired (Checking.Alike P) Eq (scalarBinary op left right span)
      (scalarBinary op left right span') := by
  have hmismatch := fail_paired (P := P) (operandsMessage op left right) span span'
  unfold scalarBinary
  split
  · split
    · split
      · exact Paired.pure rfl
      · exact hmismatch
    · refine (unify_paired left right).bind_eq fun common => ?_
      split
      · exact hmismatch
      · split
        · exact hmismatch
        · split
          · exact Paired.pure rfl
          · exact Paired.pure rfl
  · exact hmismatch

theorem aggregateBinary_paired (receiver : Receiver) (op : BinaryOp) (left right : Typed)
    (span span' : Span) : Paired (Checking.Alike P) Eq (aggregateBinary receiver op left right span)
      (aggregateBinary receiver op left right span') := by
  unfold aggregateBinary
  split
  rename_i main other _
  split
  · exact fail_paired _ span span'
  · split
    · have hmatching : ∀ v : ValueType, Paired (Checking.Alike P) Eq
          (do if other.type.isAggregate then return main.type == other.type
              else coerce other (.scalar v.kind) : Check Bool)
          (do if other.type.isAggregate then return main.type == other.type
              else coerce other (.scalar v.kind)) := by
        intro v
        split
        · exact Paired.pure rfl
        · exact coerce_paired other _
      refine (hmatching _).bind_eq fun matching => ?_
      split
      · exact failWithHelp_paired _ _ span span'
      · split
        · exact fail_paired _ span span'
        · split
          · exact Paired.pure rfl
          · exact Paired.pure rfl
    · exact Paired.pure rfl

theorem binary_paired (op : BinaryOp) (left right : Typed) (span span' : Span) :
    Paired (Checking.Alike P) Eq (binary op left right span) (binary op left right span') := by
  unfold binary
  split
  · split
    · exact Paired.pure rfl
    · exact fail_paired _ span span'
  · split
    · exact aggregateBinary_paired _ op left right span span'
    · exact scalarBinary_paired op left right span span'

theorem cast_paired (t : Typed) {target target' : TypeRef} (h : target.type = target'.type) :
    Paired (Checking.Alike P) Eq (cast t target) (cast t target') := by
  unfold cast
  rw [h]
  split
  · exact failWithHelp_paired _ _ _ _
  · split
    · exact fail_paired _ _ _
    · exact Paired.pure rfl
  · exact fail_paired _ _ _
  · exact fail_paired _ _ _

/-! ### Names -/

theorem localType_paired (id : Nat) :
    Paired (Checking.Alike P) Eq (localType id) (localType id) := by
  refine Paired.get.bind fun s s' h => ?_
  have hlocal := h.model.local?_eq id
  cases hl : s.model.local? id with
  | none =>
    rw [hl] at hlocal
    rw [Option.map_eq_none_iff.mp hlocal.symm]
    exact Paired.pure rfl
  | some l =>
    rw [hl] at hlocal
    obtain ⟨l', hl', hbare⟩ := Option.map_eq_some_iff.mp hlocal.symm
    have htype : l'.type = l.type := show l'.bare.type = l.bare.type by rw [hbare]
    have hfamily : l'.family = l.family := show l'.bare.family = l.bare.family by rw [hbare]
    rw [hl']
    simp only [htype, hfamily]
    split
    · exact Paired.pure rfl
    · exact Paired.pure rfl

theorem captureType_paired (hP : Matching P) {span span' : Span} (hspan : P span span')
    (index : Nat) (f : FieldDecl) :
    Paired (Checking.Alike P) Eq (captureType index f span) (captureType index f span') := by
  refine (setReferent_paired hP hspan _).seq ?_
  split
  · exact Paired.pure rfl
  · exact fail_paired _ span span'

theorem staticType_paired (hP : Matching P) {span span' : Span} (hspan : P span span')
    (index : Nat) (decl : StaticDecl) :
    Paired (Checking.Alike P) Eq (staticType index decl span) (staticType index decl span') := by
  refine (setReferent_paired hP hspan _).seq ?_
  split
  · exact Paired.pure rfl
  · exact fail_paired _ span span'

theorem static_paired (hP : Matching P) {span span' : Span} (hspan : P span span')
    (statics : List StaticDecl) (path : Path) :
    Paired (Checking.Alike P) Eq (static statics path span) (static statics path span') := by
  unfold static
  split
  · exact fail_paired _ span span'
  · split
    · exact staticType_paired hP hspan _ _
    · exact Paired.pure rfl
  · exact failWithHelp_paired _ _ span span'

theorem name_paired (hP : Matching P) {span span' : Span} (hspan : P span span')
    (catalog : Catalog) (text : String) :
    Paired (Checking.Alike P) Eq (name catalog text span) (name catalog text span') := by
  refine (findLocal?_paired text).bind_eq fun found => ?_
  split
  · exact (setReferent_paired hP hspan _).seq (localType_paired _)
  · split
    · split
      · exact captureType_paired hP hspan _ _
      · exact Paired.pure rfl
    · exact static_paired hP hspan _ _

theorem path_paired (hP : Matching P) {span span' : Span} (hspan : P span span')
    (catalog : Catalog) (p : Path) :
    Paired (Checking.Alike P) Eq (path catalog p span) (path catalog p span') := by
  unfold path
  split
  · exact failWithHelp_paired _ _ span span'
  · exact static_paired hP hspan _ _

/-! ### Conditions -/

theorem choice_paired (yes no : Typed) (span span' : Span) :
    Paired (Checking.Alike P) Eq (choice yes no span) (choice yes no span') := by
  refine (unify_paired yes no).bind_eq fun common => ?_
  split
  · exact Paired.pure rfl
  · exact fail_paired _ span span'

theorem requireBool_paired (t : Option Typed) (span span' : Span) :
    Paired (Checking.Alike P) Eq (requireBool t span) (requireBool t span') := by
  cases t with
  | none => exact Paired.pure rfl
  | some t =>
    show Paired _ _ (if t.type ≠ .bool then _ else _) (if t.type ≠ .bool then _ else _)
    split
    · exact error_paired _ span span'
    · exact Paired.pure rfl

/-! ### Arguments -/

/-- Whether the same is known of the arguments of two calls. -/
def SameArguments (args args' : List Argument) : Prop :=
  args.map Argument.typed = args'.map Argument.typed

/-- Whether the same is known of the arguments of two calls, if all have a type. -/
def SamePaired (args args' : Option (List Argument)) : Prop :=
  args.map (List.map Argument.typed) = args'.map (List.map Argument.typed)

theorem pairArguments_cons (e : Expr) (es : List Expr) (t : Typed) (types : List (Option Typed)) :
    pairArguments (e :: es) (some t :: types) =
      (pairArguments es types).map (⟨e.span, t⟩ :: ·) := by
  unfold pairArguments
  rw [List.zip_cons_cons, List.mapM_cons]
  show Option.bind (List.mapM _ (es.zip types)) (fun rest => some _) = _
  cases (List.mapM _ (es.zip types) : Option (List Argument)) <;> rfl

theorem pairArguments_same {es es' : List Expr} (h : es.length = es'.length)
    (types : List (Option Typed)) :
    SamePaired (pairArguments es types) (pairArguments es' types) := by
  induction es generalizing es' types with
  | nil =>
    obtain rfl := List.length_eq_zero_iff.mp h.symm
    rfl
  | cons e es ih =>
    cases es' with
    | nil => cases h
    | cons e' es' =>
      cases types with
      | nil => rfl
      | cons t types =>
        have hrest := ih (Nat.succ.inj h) types
        cases t with
        | none => rfl
        | some t =>
          have hcons := congrArg (Option.map (t :: ·)) hrest
          unfold SamePaired
          rw [pairArguments_cons, pairArguments_cons]
          simp only [Option.map_map] at hcons ⊢
          exact hcons

theorem arity_paired (callee : String) (expected found : Nat) (span span' : Span) :
    Paired (Checking.Alike P) Eq (arity callee expected found span)
      (arity callee expected found span') := fail_paired _ span span'

theorem field_paired (receiver : Typed) {member member' : Name} (h : member.text = member'.text) :
    Paired (Checking.Alike P) Eq (field receiver member) (field receiver member') := by
  unfold field
  rw [h]
  split
  · exact Paired.pure rfl
  · exact fail_paired _ _ _

theorem methodArguments_paired (type : Ty) {args args' : List Argument}
    (h : SameArguments args args') :
    Paired (Checking.Alike P) Eq (methodArguments type args) (methodArguments type args') := by
  induction args generalizing args' with
  | nil =>
    obtain rfl := List.map_eq_nil_iff.mp h.symm
    exact Paired.pure rfl
  | cons arg args ih =>
    cases args' with
    | nil => cases h
    | cons arg' args' =>
      obtain ⟨harg, hargs⟩ := List.cons.inj h
      unfold methodArguments
      rw [harg]
      refine (coerce_paired _ type).bind_eq fun fits => ?_
      split
      · exact (error_paired _ _ _).seq (ih hargs)
      · exact ih hargs

theorem scalarMethod_paired (receiver : Typed) (k : ScalarKind) (m : Shader.ScalarMethod)
    {member member' : Name} (hmember : member.text = member'.text) (count : Nat)
    {args args' : Option (List Argument)} (hargs : SamePaired args args') :
    Paired (Checking.Alike P) Eq (scalarMethod receiver k m member count args)
      (scalarMethod receiver k m member' count args') := by
  unfold scalarMethod
  rw [hmember]
  split
  · exact fail_paired _ _ _
  · split
    · exact arity_paired _ _ _ _ _
    · refine (coerce_paired receiver _).discard.seq ?_
      cases args with
      | none =>
        rw [Option.map_eq_none_iff.mp hargs.symm]
        exact Paired.pure rfl
      | some args =>
        obtain ⟨args', rfl, hsame⟩ := Option.map_eq_some_iff.mp hargs.symm
        exact (methodArguments_paired _ hsame.symm).seq (Paired.pure rfl)

theorem method_paired (receiver : Typed) {member member' : Name}
    (hmember : member.text = member'.text) (count : Nat) {args args' : Option (List Argument)}
    (hargs : SamePaired args args') :
    Paired (Checking.Alike P) Eq (method receiver member count args)
      (method receiver member' count args') := by
  have hunknown (name : String) := fail_paired (P := P)
    s!"no method named `{name}` found for `{receiver.type.display}`" member.span member'.span
  unfold method
  simp only [hmember]
  split
  · split
    · exact Paired.pure rfl
    · exact hunknown _
  · split
    · split
      · exact Paired.pure rfl
      · exact fail_paired _ _ _
    · exact hunknown _
  · split
    · exact scalarMethod_paired receiver _ _ hmember count hargs
    · exact hunknown _
  · exact hunknown _

/-! ### Intrinsics -/

theorem intrinsicArguments_paired (name : String) (kind : ScalarKind) (common : Ty)
    {args args' : List Argument} (h : SameArguments args args') :
    Paired (Checking.Alike P) Eq (intrinsicArguments name kind common args)
      (intrinsicArguments name kind common args') := by
  induction args generalizing args' with
  | nil =>
    obtain rfl := List.map_eq_nil_iff.mp h.symm
    exact Paired.pure rfl
  | cons arg args ih =>
    cases args' with
    | nil => cases h
    | cons arg' args' =>
      obtain ⟨harg, hargs⟩ := List.cons.inj h
      unfold intrinsicArguments
      rw [harg]
      refine (coerce_paired _ _).bind_eq fun fits => ?_
      split
      · exact ih hargs
      · exact (error_paired _ _ _).seq (Paired.pure rfl)

/-- What is found among arguments by their types only is the same. -/
theorem SameArguments.anchor {args args' : List Argument} (h : SameArguments args args') :
    (((args.find? fun a => a.typed.family.isNone) <|> args.head?).bind fun a => a.typed.type.kind?)
      = (((args'.find? fun a => a.typed.family.isNone) <|> args'.head?).bind
          fun a => a.typed.type.kind?) := by
  have hanchor : ∀ as : List Argument,
      (((as.find? fun a => a.typed.family.isNone) <|> as.head?).bind fun a => a.typed.type.kind?)
        = ((((as.map Argument.typed).find? fun t => t.family.isNone) <|>
            (as.map Argument.typed).head?).bind fun t => t.type.kind?) := by
    intro as
    rw [List.find?_map, List.head?_map]
    show _ = (((as.find? fun a : Argument => a.typed.family.isNone).map _ <|>
      as.head?.map _).bind _)
    cases as.find? fun a : Argument => a.typed.family.isNone <;> cases as.head? <;> rfl
  rw [hanchor, hanchor, h]

theorem SameArguments.shape {args args' : List Argument} (h : SameArguments args args') :
    (args.findSome? fun a => a.typed.type.value?.filter fun v => ! v.isScalar) =
      args'.findSome? fun a => a.typed.type.value?.filter fun v => ! v.isScalar := by
  have hshape : ∀ as : List Argument,
      (as.findSome? fun a => a.typed.type.value?.filter fun v => ! v.isScalar) =
        (as.map Argument.typed).findSome? fun t => t.type.value?.filter fun v => ! v.isScalar := by
    intro as
    rw [List.findSome?_map]
    rfl
  rw [hshape, hshape, h]

theorem commonType_paired (name : String) {args args' : List Argument}
    (h : SameArguments args args') :
    Paired (Checking.Alike P) Eq (commonType name args) (commonType name args') := by
  unfold commonType
  simp only [h.anchor, h.shape]
  split
  · exact Paired.pure rfl
  · exact (intrinsicArguments_paired _ _ _ h).bind_eq fun fits => Paired.pure rfl

theorem SameArguments.single {a : Argument} {args' : List Argument}
    (h : SameArguments [a] args') : ∃ a', args' = [a'] ∧ a.typed = a'.typed := by
  obtain ⟨a', rest, rfl, ha, hrest⟩ := List.map_eq_cons_iff.mp h.symm
  obtain rfl := List.map_eq_nil_iff.mp hrest
  exact ⟨a', rfl, ha.symm⟩

theorem SameArguments.pair {a b : Argument} {args' : List Argument}
    (h : SameArguments [a, b] args') :
    ∃ a' b', args' = [a', b'] ∧ a.typed = a'.typed ∧ b.typed = b'.typed := by
  obtain ⟨a', rest, rfl, ha, hrest⟩ := List.map_eq_cons_iff.mp h.symm
  obtain ⟨b', rfl, hb⟩ := SameArguments.single (a := b) (Eq.symm hrest)
  exact ⟨a', b', rfl, ha.symm, hb⟩

theorem product_paired (name : String) {args args' : List Argument} (h : SameArguments args args')
    (span span' : Span) :
    Paired (Checking.Alike P) Eq (product name args span) (product name args' span') := by
  unfold product
  split
  · obtain ⟨a', b', rfl, ha, hb⟩ := h.pair
    simp only [ha, hb]
    split
    · split
      · exact Paired.pure rfl
      · exact fail_paired _ span span'
    · exact Paired.pure rfl
  · rename_i hne
    split
    · obtain ⟨a, b, rfl, _⟩ := SameArguments.pair (Eq.symm h)
      exact (hne a b rfl).elim
    · exact Paired.pure rfl

theorem intrinsicResult_paired (i : Intrinsic) {args args' : List Argument}
    (h : SameArguments args args') (span span' : Span) :
    Paired (Checking.Alike P) Eq (intrinsicResult i args span)
      (intrinsicResult i args' span') := by
  unfold intrinsicResult
  split
  · exact (commonType_paired _ h).bind_eq fun common => Paired.pure rfl
  · exact (commonType_paired _ h).bind_eq fun common => Paired.pure rfl
  · exact Paired.pure rfl
  · exact product_paired _ h span span'

/-- An argument that no intrinsic takes is found in both calls. -/
theorem SameArguments.stray {args args' : List Argument} (h : SameArguments args args') :
    (args.find? fun a => ! a.typed.type.isValue).map Argument.typed =
      (args'.find? fun a => ! a.typed.type.isValue).map Argument.typed := by
  have hstray : ∀ as : List Argument,
      (as.find? fun a => ! a.typed.type.isValue).map Argument.typed =
        (as.map Argument.typed).find? fun t => ! t.type.isValue := by
    intro as
    rw [List.find?_map]
    rfl
  rw [hstray, hstray, h]

theorem intrinsic_paired (callee : Path) (calleeSpan calleeSpan' : Span) (count : Nat)
    {args args' : Option (List Argument)} (hargs : SamePaired args args') (span span' : Span) :
    Paired (Checking.Alike P) Eq (intrinsic callee calleeSpan count args span)
      (intrinsic callee calleeSpan' count args' span') := by
  unfold intrinsic
  split
  · exact fail_paired _ _ _
  · split
    · exact arity_paired _ _ _ _ _
    · cases args with
      | none =>
        rw [Option.map_eq_none_iff.mp hargs.symm]
        exact Paired.pure rfl
      | some args =>
        obtain ⟨args', rfl, hsame⟩ := Option.map_eq_some_iff.mp hargs.symm
        have hargs : SameArguments args args' := hsame.symm
        have hstray := hargs.stray
        simp only
        split
        · rename_i a ha
          rw [ha] at hstray
          obtain ⟨a', ha', htyped⟩ := Option.map_eq_some_iff.mp hstray.symm
          rw [ha', ← htyped]
          exact fail_paired _ _ _
        · rename_i hnone
          rw [hnone] at hstray
          rw [Option.map_eq_none_iff.mp hstray.symm]
          exact intrinsicResult_paired _ hargs span span'

/-! ### Constructors -/

theorem suppliedComponents_paired (built : ValueType) {args args' : List Argument}
    (h : SameArguments args args') :
    Paired (Checking.Alike P) Eq (suppliedComponents built args)
      (suppliedComponents built args') := by
  induction args generalizing args' with
  | nil =>
    obtain rfl := List.map_eq_nil_iff.mp h.symm
    exact Paired.pure rfl
  | cons arg args ih =>
    cases args' with
    | nil => cases h
    | cons arg' args' =>
      obtain ⟨harg, hargs⟩ := List.cons.inj h
      unfold suppliedComponents
      rw [harg]
      refine Paired.bind_eq ?_ fun supplied => ?_
      · split
        · exact Paired.pure rfl
        · exact (coerce_paired _ _).bind_eq fun fits => Paired.pure rfl
        · exact Paired.pure rfl
      · split
        · exact (ih hargs).bind_eq fun rest => Paired.pure rfl
        · exact (error_paired _ _ _).seq (Paired.pure rfl)

theorem newValue_paired (built : ValueType) (callee : Path) {args args' : List Argument}
    (h : SameArguments args args') (span span' : Span) :
    Paired (Checking.Alike P) Eq (newValue built callee args span)
      (newValue built callee args' span') := by
  refine (suppliedComponents_paired built h).bind_eq fun found => ?_
  split
  · exact Paired.pure rfl
  · split
    · exact Paired.pure rfl
    · exact fail_paired _ span span'

theorem splatValue_paired (built : ValueType) (callee : Path) (calleeSpan calleeSpan' : Span)
    {args args' : List Argument} (h : SameArguments args args') :
    Paired (Checking.Alike P) Eq (splatValue built callee calleeSpan args)
      (splatValue built callee calleeSpan' args') := by
  have hlength : args.length = args'.length := by simpa using congrArg List.length h
  unfold splatValue
  split
  · obtain ⟨a', rfl, ha⟩ := h.single
    simp only [ha]
    refine (coerce_paired _ _).bind_eq fun fits => ?_
    split
    · exact Paired.pure rfl
    · exact fail_paired _ _ _
  · rename_i hne
    split
    · obtain ⟨a, rfl, _⟩ := SameArguments.single (Eq.symm h)
      exact (hne a rfl).elim
    · rw [hlength]
      exact arity_paired _ _ _ _ _

theorem construct_paired (owner : String) (callee : Path) (calleeSpan calleeSpan' : Span)
    {args args' : Option (List Argument)} (hargs : SamePaired args args') (span span' : Span) :
    Paired (Checking.Alike P) Eq (construct owner callee calleeSpan args span)
      (construct owner callee calleeSpan' args' span') := by
  unfold construct
  split
  · split
    · exact fail_paired _ _ _
    · cases args with
      | none =>
        rw [Option.map_eq_none_iff.mp hargs.symm]
        exact Paired.pure rfl
      | some args =>
        obtain ⟨args', rfl, hsame⟩ := Option.map_eq_some_iff.mp hargs.symm
        simp only
        split
        · exact splatValue_paired _ _ _ _ hsame.symm
        · exact newValue_paired _ _ hsame.symm _ _
  · exact fail_paired _ _ _

theorem call_paired (callee : Path) (calleeSpan calleeSpan' : Span) (count : Nat)
    {args args' : Option (List Argument)} (hargs : SamePaired args args') (span span' : Span) :
    Paired (Checking.Alike P) Eq (call callee calleeSpan count args span)
      (call callee calleeSpan' count args' span') := by
  unfold call
  split
  · split
    · exact intrinsic_paired _ _ _ _ hargs _ _
    · split
      · exact construct_paired _ _ _ _ hargs _ _
      · exact failWithHelp_paired _ _ _ _
  · exact failWithHelp_paired _ _ _ _

/-! ### Indexes -/

theorem element_paired (base index : Typed) (baseSpan baseSpan' indexSpan indexSpan' : Span) :
    Paired (Checking.Alike P) Eq (element base baseSpan index indexSpan)
      (element base baseSpan' index indexSpan') := by
  unfold element
  split
  · exact fail_paired _ _ _
  · split
    · exact Paired.pure rfl
    · exact fail_paired _ _ _

theorem selectors_paired (hP : Matching P) (rows columns : Nat) {items items' : List Expr}
    (h : Alike P (.exprs items items')) :
    Paired (Checking.Alike P) Eq (selectors rows columns items)
      (selectors rows columns items') := by
  induction items generalizing items' with
  | nil =>
    cases h
    exact Paired.pure rfl
  | cons item items ih =>
    cases h with
    | moreExprs hitem hitems =>
      have hspan := hitem.span
      have hstray : ∀ span span' : Span, Paired (Checking.Alike P) Eq
          (do errorWithHelp "expected a `MatrixIndex` selector"
                "matrix swizzles look like `m[(MatrixIndex::M11, MatrixIndex::M22)]`" span
              return false : Check Bool)
          (do errorWithHelp "expected a `MatrixIndex` selector"
                "matrix swizzles look like `m[(MatrixIndex::M11, MatrixIndex::M22)]`" span'
              return false) :=
        fun span span' => (errorWithHelp_paired _ _ _ _).seq (Paired.pure rfl)
      cases hitem with
      | path _ =>
        unfold selectors
        simp only
        split
        · split
          · exact (setType_paired hP hspan _).seq (ih hitems)
          · exact (error_paired _ _ _).seq (Paired.pure rfl)
        · exact hstray _ _
      | _ => exact hstray _ _

theorem matrixSwizzle_paired (hP : Matching P) (k : ScalarKind) (rows columns : Nat)
    {items items' : List Expr} (h : Alike P (.exprs items items')) {span span' : Span}
    (hspan : P span span') :
    Paired (Checking.Alike P) Eq (matrixSwizzle k rows columns items span)
      (matrixSwizzle k rows columns items' span') := by
  unfold matrixSwizzle
  simp only [h.exprs_length]
  split
  · exact fail_paired _ _ _
  · refine (selectors_paired hP rows columns h).bind_eq fun all => ?_
    split
    · exact (setType_paired hP hspan _).seq (Paired.pure rfl)
    · exact Paired.pure rfl

/-! ### Expressions -/

theorem swizzleItems?_alike (base : Ty) {index index' : Expr} (h : Alike P (.expr index index')) :
    (swizzleItems? base index = none ∧ swizzleItems? base index' = none) ∨
      ∃ k rows columns items items', swizzleItems? base index = some (k, rows, columns, items) ∧
        swizzleItems? base index' = some (k, rows, columns, items') ∧
        Alike P (.exprs items items') := by
  cases h with
  | tuple _ hitems =>
    unfold swizzleItems?
    split
    · rename_i k rows columns s items heq
      cases heq
      exact .inr ⟨k, rows, columns, _, _, rfl, rfl, hitems⟩
    · rename_i hne
      refine .inl ⟨rfl, ?_⟩
      split
      · exact (hne _ _ _ _ _ rfl rfl).elim
      · rfl
  | _ =>
    refine .inl ⟨?_, ?_⟩ <;>
      (unfold swizzleItems?
       split
       · contradiction
       · rfl)

/-- What is said of a pair of expressions. -/
def ExprsPaired (catalog : Catalog) (P : Span → Span → Prop) : Pair → Prop
  | .expr e e' => Paired (Checking.Alike P) Eq (expr catalog e) (expr catalog e')
  | .exprs es es' => Paired (Checking.Alike P) Eq (exprs catalog es) (exprs catalog es')
  | _ => True

theorem exprs_paired (hP : Matching P) (catalog : Catalog) {p : Pair} (h : Alike P p) :
    ExprsPaired catalog P p := by
  induction h with
  | literal hs => exact typed_paired hP hs _
  | name hs => exact bind_typed_paired hP hs (name_paired hP hs catalog _)
  | path hs => exact bind_typed_paired hP hs (path_paired hP hs catalog _)
  | unary hs _ ih =>
    refine ih.bind_eq fun t => ?_
    split
    · exact Paired.pure rfl
    · exact bind_typed_paired hP hs (unary_paired _ _ _ _)
  | binary hs _ _ ihl ihr =>
    refine ihl.bind_eq fun l => ihr.bind_eq fun r => ?_
    split
    · exact bind_typed_paired hP hs (binary_paired _ _ _ _ _)
    · exact Paired.pure rfl
  | cast hs _ htype ih =>
    refine ih.bind_eq fun t => ?_
    split
    · exact Paired.pure rfl
    · exact bind_typed_paired hP hs (cast_paired _ htype)
  | field hs _ hmember ih =>
    refine ih.bind_eq fun t => ?_
    split
    · exact Paired.pure rfl
    · exact bind_typed_paired hP hs (field_paired _ hmember)
  | method hs _ hmember hargs ih ihargs =>
    refine ih.bind_eq fun r => ihargs.bind_eq fun types => ?_
    split
    · exact Paired.pure rfl
    · rw [hargs.exprs_length]
      exact bind_typed_paired hP hs
        (method_paired _ hmember _ (pairArguments_same hargs.exprs_length types))
  | call hs hargs ihargs =>
    refine ihargs.bind_eq fun types => ?_
    rw [hargs.exprs_length]
    exact bind_typed_paired hP hs
      (call_paired _ _ _ _ (pairArguments_same hargs.exprs_length types) _ _)
  | index hs hbase hindex ihbase ih =>
    refine ihbase.bind_eq fun b => ?_
    split
    · exact Paired.pure rfl
    · rename_i b
      rcases swizzleItems?_alike b.type hindex with ⟨hnone, hnone'⟩ |
        ⟨k, rows, columns, items, items', hsome, hsome', hitems⟩
      · rw [hnone, hnone']
        refine ih.bind_eq fun i => ?_
        split
        · exact Paired.pure rfl
        · exact bind_typed_paired hP hs (element_paired _ _ _ _ _ _)
      · rw [hsome, hsome']
        exact bind_typed_paired hP hs (matrixSwizzle_paired hP _ _ _ hitems hindex.span)
  | tuple _ _ _ => exact fail_paired _ _ _
  | paren hs _ ih => exact bind_typed_paired hP hs ih
  | choice hs _ _ _ ihcondition ihyes ihno =>
    refine ihcondition.bind_eq fun c => (requireBool_paired c _ _).seq
      (ihyes.bind_eq fun y => ihno.bind_eq fun n => ?_)
    split
    · exact bind_typed_paired hP hs (choice_paired _ _ _ _)
    · exact Paired.pure rfl
  | noExprs => exact Paired.pure rfl
  | moreExprs _ _ ih ihs => exact ih.bind_eq fun t => ihs.bind_eq fun ts => Paired.pure rfl
  | _ => trivial

theorem expr_paired (hP : Matching P) (catalog : Catalog) {e e' : Expr}
    (h : Alike P (.expr e e')) :
    Paired (Checking.Alike P) Eq (expr catalog e) (expr catalog e') := exprs_paired hP catalog h

/-! ### Declarations -/

/-- Whether the same is known of two values that belong together. -/
def SameFound (found found' : Option (Typed × Span)) : Prop :=
  found.map Prod.fst = found'.map Prod.fst

theorem found_paired (hP : Matching P) (catalog : Catalog) {value value' : Option Expr}
    (h : Alike P (.initial value value')) : Paired (Checking.Alike P) SameFound
      (do
        match value with
        | none => return none
        | some e => return (← expr catalog e).map fun t => (t, e.span) :
          Check (Option (Typed × Span)))
      (do
        match value' with
        | none => return none
        | some e => return (← expr catalog e).map fun t => (t, e.span)) := by
  cases h with
  | noInitial => exact Paired.pure rfl
  | someInitial he =>
    refine (expr_paired hP catalog he).bind_eq fun t => Paired.pure ?_
    cases t <;> rfl

theorem declaredType_paired {type type' : TypeRef} (htype : type.type = type'.type)
    {found found' : Option (Typed × Span)} (hfound : SameFound found found') :
    Paired (Checking.Alike P) Eq (declaredType type found) (declaredType type' found') := by
  unfold declaredType
  rw [htype]
  split
  · rename_i t _
    cases found with
    | none =>
      rw [Option.map_eq_none_iff.mp hfound.symm]
      exact Paired.pure rfl
    | some v =>
      obtain ⟨v', rfl, hv⟩ := Option.map_eq_some_iff.mp hfound.symm
      obtain ⟨v, span⟩ := v
      obtain ⟨v', span'⟩ := v'
      obtain rfl : v' = v := hv
      refine (coerce_paired v' t).bind_eq fun fits => ?_
      split
      · exact (error_paired _ _ _).seq (Paired.pure rfl)
      · exact Paired.pure rfl
  · exact (error_paired _ _ _).seq (Paired.pure rfl)

theorem inferredType_paired (v : Typed) (span span' : Span) :
    Paired (Checking.Alike P) Eq (inferredType v span) (inferredType v span') := by
  unfold inferredType
  split
  · exact Paired.pure rfl
  · exact (errorWithHelp_paired _ _ _ _).seq (Paired.pure rfl)

theorem letStmt_paired (hP : Matching P) (catalog : Catalog) (mutable : Bool) {name name' : Name}
    (htext : name.text = name'.text) (hspan : P name.span name'.span)
    {type type' : Option TypeRef} (htype : type.map TypeRef.type = type'.map TypeRef.type)
    {value value' : Option Expr} (hvalue : Alike P (.initial value value')) :
    Paired (Checking.Alike P) Eq (letStmt catalog mutable name type value)
      (letStmt catalog mutable name' type' value') := by
  refine (found_paired hP catalog hvalue).bind fun found found' hfound => ?_
  cases type with
  | some type =>
    obtain ⟨type', rfl, ht⟩ := Option.map_eq_some_iff.mp htype.symm
    exact (declaredType_paired ht.symm hfound).bind_eq fun t =>
      declare_paired hP htext hspan t mutable none
  | none =>
    obtain rfl := Option.map_eq_none_iff.mp htype.symm
    cases found with
    | some v =>
      obtain ⟨v', rfl, hv⟩ := Option.map_eq_some_iff.mp hfound.symm
      obtain ⟨v, span⟩ := v
      obtain ⟨v', span'⟩ := v'
      obtain rfl : v' = v := hv
      exact (inferredType_paired v' span span').bind_eq fun inferred =>
        declare_paired hP htext hspan _ mutable _
    | none =>
      obtain rfl := Option.map_eq_none_iff.mp hfound.symm
      have hdeclare := declare_paired hP htext hspan .unknown mutable none
      cases hvalue with
      | noInitial =>
        simp only [htext]
        exact (errorWithHelp_paired _ _ _ _).seq hdeclare
      | someInitial _ => exact hdeclare

theorem counterType_paired (lo hi : Option Typed) (span span' : Span) :
    Paired (Checking.Alike P) Eq (counterType lo hi span) (counterType lo hi span') := by
  unfold counterType
  split
  · refine (unify_paired _ _).bind_eq fun common => ?_
    split
    · split
      · exact Paired.pure rfl
      · exact fail_paired _ span span'
    · exact fail_paired _ span span'
  · exact Paired.pure rfl

/-! ### Assignments -/

theorem assignableName_paired (text : String) {span span' : Span} (hspan : P span span') :
    Paired (Checking.Alike P) Eq (assignableName text span) (assignableName text span') := by
  refine Paired.get.bind fun s s' h => ?_
  rw [h.model.referents _ _ hspan]
  split
  · rename_i id _
    rw [h.model.any_mutable_eq id]
    split
    · exact errorWithHelp_paired _ _ span span'
    · exact Paired.pure rfl
  · exact report_paired rfl
  · exact error_paired _ span span'
  · exact Paired.pure rfl

/-- What is said of a pair of places. -/
def PlacesPaired (P : Span → Span → Prop) : Pair → Prop
  | .expr e e' => Paired (Checking.Alike P) Eq (assignable e) (assignable e')
  | _ => True

theorem places_paired {p : Pair} (h : Alike P p) : PlacesPaired P p := by
  induction h with
  | name hs => exact assignableName_paired _ hs
  | path _ => exact error_paired _ _ _
  | index hs hbase _ ihbase _ =>
    refine Paired.get.bind fun s s' h => ?_
    rw [h.model.types _ _ hbase.span]
    split
    · exact Paired.pure rfl
    · exact errorWithHelp_paired _ _ _ _
    · exact ihbase
  | field _ _ _ ih => exact ih
  | paren _ _ ih => exact ih
  | literal _ | unary _ _ _ | binary _ _ _ _ _ | cast _ _ _ _ | method _ _ _ _ _ _ | call _ _ _
  | tuple _ _ _ | choice _ _ _ _ _ _ _ => exact error_paired _ _ _
  | _ => trivial

theorem fits_paired (op : Option BinaryOp) (target value : Typed) (span span' : Span) :
    Paired (Checking.Alike P) Eq (fits op target value span) (fits op target value span') := by
  cases op with
  | none =>
    refine (coerce_paired value target.type).bind_eq fun done => ?_
    split
    · exact Paired.pure rfl
    · exact (coerce_paired target value.type).bind_eq fun done' => Paired.pure rfl
  | some op =>
    refine (binary_paired op target value span span').bind_eq fun result => ?_
    split
    · exact (coerce_paired _ target.type).bind_eq fun done => Paired.pure rfl
    · exact Paired.pure rfl

theorem assign_paired (hP : Matching P) (catalog : Catalog) (op : Option BinaryOp)
    {place place' value value' : Expr} (hplace : Alike P (.expr place place'))
    (hvalue : Alike P (.expr value value')) (span span' : Span) :
    Paired (Checking.Alike P) Eq (assign catalog op place value span)
      (assign catalog op place' value' span') := by
  refine (expr_paired hP catalog hplace).bind_eq fun target =>
    (expr_paired hP catalog hvalue).bind_eq fun found => ?_
  have hassignable : Paired (Checking.Alike P) Eq (assignable place) (assignable place') :=
    places_paired hplace
  cases target with
  | none => exact Paired.pure rfl
  | some target =>
    refine hassignable.seq ?_
    cases found with
    | none => exact Paired.pure rfl
    | some found =>
      refine (fits_paired op target found span span').bind_eq fun done => ?_
      split
      · exact error_paired _ _ _
      · exact Paired.pure rfl

/-! ### Statements -/

theorem jump_paired (kind : Jump) (span span' : Span) :
    Paired (Checking.Alike P) Eq (jump kind span) (jump kind span') := by
  have houtside : ∀ (loops : Nat) (message : String), Paired (Checking.Alike P) Eq
      (if loops = 0 then error message span else return)
      (if loops = 0 then error message span' else return) := by
    intro loops message
    split
    · exact error_paired message span span'
    · exact Paired.pure rfl
  refine Paired.get.bind fun s s' h => ?_
  rw [h.loops]
  cases kind with
  | «break» => exact houtside _ _
  | «continue» => exact houtside _ _
  | «return» => exact Paired.pure rfl

theorem enterLoop_paired : Paired (Checking.Alike P) Eq enterLoop enterLoop :=
  Paired.update fun _ _ h => ⟨h.model, h.scopes, congrArg (· + 1) h.loops, h.diagnostics⟩

theorem leaveLoop_paired : Paired (Checking.Alike P) Eq leaveLoop leaveLoop :=
  Paired.update fun _ _ h => ⟨h.model, h.scopes, congrArg (· - 1) h.loops, h.diagnostics⟩

/-- A condition and the checks behind it. -/
theorem condition_paired (hP : Matching P) (catalog : Catalog) {condition condition' : Expr}
    (hcondition : Alike P (.expr condition condition')) {p q : Check Unit}
    (h : Paired (Checking.Alike P) Eq p q) : Paired (Checking.Alike P) Eq
      (do requireBool (← expr catalog condition) condition.span
          p)
      (do requireBool (← expr catalog condition') condition'.span
          q) :=
  (expr_paired hP catalog hcondition).bind_eq fun t => (requireBool_paired t _ _).seq h

/-- What is said of a pair of statements. -/
def StmtsPaired (catalog : Catalog) (P : Span → Span → Prop) : Pair → Prop
  | .stmt s s' => Paired (Checking.Alike P) Eq (stmt catalog s) (stmt catalog s')
  | .stmts body body' => Paired (Checking.Alike P) Eq (stmts catalog body) (stmts catalog body')
  | .block b b' => Paired (Checking.Alike P) Eq (block catalog b) (block catalog b')
  | .optional b b' =>
    Paired (Checking.Alike P) Eq (optionalBlock catalog b) (optionalBlock catalog b')
  | _ => True

theorem stmts_paired (hP : Matching P) (catalog : Catalog) {p : Pair} (h : Alike P p) :
    StmtsPaired catalog P p := by
  induction h with
  | «let» hspan htext htype hvalue _ =>
    exact letStmt_paired hP catalog _ htext hspan htype hvalue
  | assign hplace hvalue _ _ => exact assign_paired hP catalog _ hplace hvalue _ _
  | «if» hcondition _ _ _ ihbody ihotherwise =>
    exact condition_paired hP catalog hcondition (ihbody.seq ihotherwise)
  | «for» hspan htext hstart hstop _ _ _ ihbody =>
    refine (expr_paired hP catalog hstart).bind_eq fun lo =>
      (expr_paired hP catalog hstop).bind_eq fun hi =>
        (counterType_paired lo hi _ _).bind_eq fun found => openScope_paired.seq ?_
    cases found <;>
      exact (declare_paired hP htext hspan _ _ _).seq
        (enterLoop_paired.seq (ihbody.seq (leaveLoop_paired.seq closeScope_paired)))
  | «while» hcondition _ _ ihbody =>
    exact condition_paired hP catalog hcondition
      (enterLoop_paired.seq (ihbody.seq leaveLoop_paired))
  | loop _ ihbody => exact enterLoop_paired.seq (ihbody.seq leaveLoop_paired)
  | jump => exact jump_paired _ _ _
  | eval hvalue _ => exact (expr_paired hP catalog hvalue).discard
  | nested _ ihbody => exact ihbody
  | noStmts => exact Paired.pure rfl
  | moreStmts _ _ ih ihs => exact ih.seq ihs
  | block _ ih => exact openScope_paired.seq (ih.seq closeScope_paired)
  | noBlock => exact Paired.pure rfl
  | someBlock _ ih => exact ih
  | _ => trivial

theorem closure_paired (hP : Matching P) (catalog : Catalog) {c c' : Closure}
    (h : c.Alike P c') :
    Paired (Checking.Alike P) Eq (closure catalog c) (closure catalog c') := by
  have hbody : Paired (Checking.Alike P) Eq (block catalog c.body) (block catalog c'.body) :=
    stmts_paired hP catalog h.body
  have hrest : Paired (Checking.Alike P) Eq
      (do openScope
          declare c.param .threadIds false none
          block catalog c.body
          closeScope)
      (do openScope
          declare c'.param .threadIds false none
          block catalog c'.body
          closeScope) :=
    openScope_paired.seq ((declare_paired hP h.paramText h.param .threadIds false none).seq
      (hbody.seq closeScope_paired))
  have htype := h.paramType
  unfold closure
  cases hparam : c.paramType with
  | none =>
    rw [hparam] at htype
    rw [Option.map_eq_none_iff.mp htype.symm]
    exact hrest
  | some type =>
    rw [hparam] at htype
    obtain ⟨type', htype', ht⟩ := Option.map_eq_some_iff.mp htype.symm
    rw [htype']
    simp only [ht]
    split
    · exact (errorWithHelp_paired _ _ _ _).seq hrest
    · exact hrest

end Check

/-- Closures that differ in their ranges only are bound alike, or not at all for the same reasons. -/
theorem Closure.agrees_of_bind {P : Span → Span → Prop} (hP : Matching P) (catalog : Catalog)
    {c c' : Closure} (h : c.Alike P c') :
    Agrees (Model.Alike P) (c.bind catalog) (c'.bind catalog) := by
  have hstart : Checking.Alike P {} {} := ⟨⟨rfl, fun _ _ _ => rfl, fun _ _ _ => rfl⟩, rfl, rfl, rfl⟩
  have hpaired := Check.closure_paired hP catalog h {} {} hstart
  unfold Closure.bind
  generalize (Check.closure catalog c).run {} = run at hpaired
  generalize (Check.closure catalog c').run {} = run' at hpaired
  obtain ⟨_, model, scopes, loops, ds⟩ := run
  obtain ⟨_, model', scopes', loops', ds'⟩ := run'
  obtain ⟨_, hstate⟩ := hpaired
  have hdiagnostics : ds.map Diagnostic.bare = ds'.map Diagnostic.bare := hstate.diagnostics
  rcases ds with _ | ⟨fault, faults⟩ <;> rcases ds' with _ | ⟨fault', faults'⟩
  · exact .ok hstate.model
  · simp at hdiagnostics
  · simp at hdiagnostics
  · exact .error hdiagnostics

end ComputeKernel
