import ComputeKernel.Proofs.Typing.Origins
import ComputeKernel.Proofs.Typing.Run
import ComputeKernel.Proofs.Walks

/-!
The elementary steps of a check. Every run of a check is made of notes, declarations, reports about
ranges that it is given, and settlements of values that it is given. So a run is made of the steps of
any kind that allow these; which kind it is depends on what is to be shown of the run.
-/

namespace ComputeKernel

namespace Checking

/-- Whether steps allow what a check does without a report and without a settlement. -/
class Noting (R : Checking → Checking → Prop) : Prop where
  note {s s' : Checking} : s'.diagnostics = s.diagnostics → s'.model.locals = s.model.locals → R s s'
  declare (s : Checking) (name : Name) (type : Ty) (mutable : Bool) (family : Option LiteralFamily) :
    R s (s.declare name type mutable family)

/-- Whether steps allow reports about a range. -/
def MayReport (R : Checking → Checking → Prop) (span : Span) : Prop :=
  ∀ (s : Checking) (d : Diagnostic), d.span = span → R s { s with diagnostics := s.diagnostics ++ [d] }

/-- Whether steps allow that a value settles on a type that fits it. -/
def MaySettle (R : Checking → Checking → Prop) (t : Typed) : Prop :=
  ∀ (s : Checking) (target : Ty), t.Fits target → R s (s.settle t target)

end Checking

namespace Check

open Checking (Noting MayReport MaySettle)

variable {R : Checking → Checking → Prop} {span : Span}

/-! ### Faults -/

theorem report_walks {d : Diagnostic} (h : MayReport R span) (hd : d.span = span) :
    Walks R (report d) := .of_step fun s => h s d hd

theorem error_walks (h : MayReport R span) (message : String) : Walks R (error message span) :=
  report_walks h rfl

theorem errorWithHelp_walks (h : MayReport R span) (message help : String) :
    Walks R (errorWithHelp message help span) := report_walks h rfl

theorem fail_walks (h : MayReport R span) (message : String) : Walks R (fail message span) :=
  (error_walks h message).seq inferInstance

theorem failWithHelp_walks (h : MayReport R span) (message help : String) :
    Walks R (failWithHelp message help span) := (errorWithHelp_walks h message help).seq inferInstance

/-! ### Settlements -/

theorem settle_walks {t : Typed} (h : MaySettle R t) {target : Ty} (hfits : t.Fits target) :
    Walks R (settle t target) := by
  refine .of_step fun s => ?_
  have hrun : ((settle t target).run s).2 = s.settle t target := by
    obtain ⟨type, family, origin⟩ := t
    cases origin <;> rfl
  rw [hrun]
  exact h s target hfits

theorem coerce_walks {t : Typed} (h : MaySettle R t) (target : Ty) : Walks R (coerce t target) := by
  unfold coerce
  split
  · rename_i heq
    exact (settle_walks h (Or.inl heq)).seq inferInstance
  · rename_i hne
    split
    · rename_i family k hfamily
      split
      · rename_i haccepts
        exact (settle_walks h (Or.inr ⟨family, k, hfamily, rfl, haccepts⟩)).seq inferInstance
      · infer_instance
    · infer_instance

theorem unify_walks {a b : Typed} (ha : MaySettle R a) (hb : MaySettle R b) : Walks R (unify a b) := by
  have := coerce_walks ha
  have := coerce_walks hb
  unfold unify
  split <;> infer_instance

/-! ### Operators -/

theorem unary_walks (h : MayReport R span) (op : UnaryOp) (t : Typed) : Walks R (unary op t span) := by
  have := fail_walks h
  unfold unary
  infer_instance

theorem scalarBinary_walks (h : MayReport R span) (op : BinaryOp) {left right : Typed}
    (hleft : MaySettle R left) (hright : MaySettle R right) :
    Walks R (scalarBinary op left right span) := by
  have := fail_walks h
  have := unify_walks hleft hright
  unfold scalarBinary
  split
  · split
    · infer_instance
    · refine .seq inferInstance fun common => ?_
      split <;> infer_instance
  · infer_instance

theorem aggregateBinary_walks (h : MayReport R span) (receiver : Shader.Receiver) (op : BinaryOp)
    {left right : Typed} (hleft : MaySettle R left) (hright : MaySettle R right) :
    Walks R (aggregateBinary receiver op left right span) := by
  have := fail_walks h
  have := failWithHelp_walks h
  have := coerce_walks hleft
  have := coerce_walks hright
  unfold aggregateBinary
  split
  rename_i main other hmain
  have hother : ∀ target, Walks R (coerce other target) := by
    split at hmain <;> cases hmain <;> infer_instance
  split
  · infer_instance
  · split <;> infer_instance

theorem binary_walks (h : MayReport R span) (op : BinaryOp) {left right : Typed}
    (hleft : MaySettle R left) (hright : MaySettle R right) : Walks R (binary op left right span) := by
  have := fail_walks h
  unfold binary
  split
  · infer_instance
  · split
    · exact aggregateBinary_walks h _ _ hleft hright
    · exact scalarBinary_walks h _ hleft hright

theorem cast_walks (t : Typed) {target : TypeRef} (h : MayReport R target.span) :
    Walks R (cast t target) := by
  have := fail_walks h
  have := failWithHelp_walks h
  unfold cast
  split <;> infer_instance

/-! ### Calls -/

theorem arity_walks (h : MayReport R span) (callee : String) (expected found : Nat) :
    Walks R (arity callee expected found span) := fail_walks h _

theorem field_walks (receiver : Typed) {member : Name} (h : MayReport R member.span) :
    Walks R (field receiver member) := by
  have := fail_walks h
  unfold field
  split <;> infer_instance

/-- Whether steps allow reports about the arguments of a call, and that they settle. -/
def MayTake (R : Checking → Checking → Prop) (args : List Argument) : Prop :=
  ∀ a ∈ args, MayReport R a.span ∧ MaySettle R a.typed

theorem methodArguments_walks (type : Ty) {args : List Argument} (h : MayTake R args) :
    Walks R (methodArguments type args) := by
  induction args with
  | nil => exact .pure _
  | cons arg args ih =>
    obtain ⟨⟨hreport, hsettle⟩, hargs⟩ := List.forall_mem_cons.mp h
    have := error_walks hreport
    have := coerce_walks hsettle
    have := ih hargs
    rw [methodArguments]
    infer_instance

theorem scalarMethod_walks {receiver : Typed} (hreceiver : MaySettle R receiver) (k : ScalarKind)
    (m : Shader.ScalarMethod) {member : Name} (h : MayReport R member.span) (count : Nat)
    {args : Option (List Argument)} (hargs : ∀ as ∈ args, MayTake R as) :
    Walks R (scalarMethod receiver k m member count args) := by
  have := fail_walks h
  have := arity_walks h
  have := coerce_walks hreceiver
  unfold scalarMethod
  split
  · infer_instance
  · split
    · infer_instance
    · refine .seq inferInstance fun _ => ?_
      split
      · infer_instance
      · exact .seq (methodArguments_walks _ (hargs _ rfl)) inferInstance

theorem method_walks {receiver : Typed} (hreceiver : MaySettle R receiver) {member : Name}
    (h : MayReport R member.span) (count : Nat) {args : Option (List Argument)}
    (hargs : ∀ as ∈ args, MayTake R as) : Walks R (method receiver member count args) := by
  have := fail_walks h
  have := fun k m => scalarMethod_walks hreceiver k m h count hargs
  unfold method
  dsimp only
  split
  · infer_instance
  · split
    · split <;> infer_instance
    · infer_instance
  · split <;> infer_instance
  · infer_instance

theorem intrinsicArguments_walks (name : String) (kind : ScalarKind) (common : Ty)
    {args : List Argument} (h : MayTake R args) :
    Walks R (intrinsicArguments name kind common args) := by
  induction args with
  | nil => exact .pure _
  | cons arg args ih =>
    obtain ⟨⟨hreport, hsettle⟩, hargs⟩ := List.forall_mem_cons.mp h
    have := error_walks hreport
    have := coerce_walks hsettle
    have := ih hargs
    rw [intrinsicArguments]
    infer_instance

theorem commonType_walks (name : String) {args : List Argument} (h : MayTake R args) :
    Walks R (commonType name args) := by
  have := fun kind common => intrinsicArguments_walks name kind common h
  unfold commonType
  dsimp only
  split <;> infer_instance

theorem product_walks (h : MayReport R span) (name : String) (args : List Argument) :
    Walks R (product name args span) := by
  have := fail_walks h
  unfold product
  split
  · split
    · split <;> infer_instance
    · infer_instance
  · infer_instance

theorem intrinsicResult_walks (i : Shader.Intrinsic) {args : List Argument} (hargs : MayTake R args)
    (h : MayReport R span) : Walks R (intrinsicResult i args span) := by
  have := commonType_walks i.name hargs
  have := product_walks h i.name args
  unfold intrinsicResult
  split <;> infer_instance

theorem intrinsic_walks (callee : Path) {calleeSpan : Span} (hcallee : MayReport R calleeSpan)
    (count : Nat) {args : Option (List Argument)} (hargs : ∀ as ∈ args, MayTake R as)
    (h : MayReport R span) : Walks R (intrinsic callee calleeSpan count args span) := by
  have := fail_walks hcallee
  have := arity_walks hcallee
  unfold intrinsic
  split
  · infer_instance
  · split
    · infer_instance
    · split
      · infer_instance
      · rename_i args
        split
        · rename_i a hfind
          exact fail_walks (hargs args rfl a (List.mem_of_find?_eq_some hfind)).1 _
        · exact intrinsicResult_walks _ (hargs args rfl) h

theorem suppliedComponents_walks (built : ValueType) {args : List Argument} (h : MayTake R args) :
    Walks R (suppliedComponents built args) := by
  induction args with
  | nil => exact .pure _
  | cons arg args ih =>
    obtain ⟨⟨hreport, hsettle⟩, hargs⟩ := List.forall_mem_cons.mp h
    have := error_walks hreport
    have := coerce_walks hsettle
    have := ih hargs
    rw [suppliedComponents]
    refine .seq ?_ fun supplied => ?_
    · split <;> infer_instance
    · split <;> infer_instance

theorem newValue_walks (built : ValueType) (callee : Path) {args : List Argument}
    (hargs : MayTake R args) (h : MayReport R span) : Walks R (newValue built callee args span) := by
  have := fail_walks h
  unfold newValue
  refine .seq (suppliedComponents_walks built hargs) fun found => ?_
  split <;> infer_instance

theorem splatValue_walks (built : ValueType) (callee : Path) {calleeSpan : Span}
    (h : MayReport R calleeSpan) {args : List Argument} (hargs : MayTake R args) :
    Walks R (splatValue built callee calleeSpan args) := by
  unfold splatValue
  split
  · obtain ⟨hreport, hsettle⟩ := hargs _ List.mem_cons_self
    have := fail_walks hreport
    have := coerce_walks hsettle
    infer_instance
  · exact arity_walks h _ _ _

theorem construct_walks (owner : String) (callee : Path) {calleeSpan : Span}
    (hcallee : MayReport R calleeSpan) {args : Option (List Argument)}
    (hargs : ∀ as ∈ args, MayTake R as) (h : MayReport R span) :
    Walks R (construct owner callee calleeSpan args span) := by
  have := fail_walks hcallee
  unfold construct
  split
  · split
    · infer_instance
    · split
      · infer_instance
      · split
        · exact splatValue_walks _ _ hcallee (hargs _ rfl)
        · exact newValue_walks _ _ (hargs _ rfl) h
  · infer_instance

theorem call_walks (callee : Path) {calleeSpan : Span} (hcallee : MayReport R calleeSpan)
    (count : Nat) {args : Option (List Argument)} (hargs : ∀ as ∈ args, MayTake R as)
    (h : MayReport R span) : Walks R (call callee calleeSpan count args span) := by
  have hnone : Walks R (call.noFunction callee calleeSpan) := failWithHelp_walks hcallee _ _
  unfold call
  split
  · split
    · exact intrinsic_walks callee hcallee count hargs h
    · split
      · exact construct_walks _ callee hcallee hargs h
      · exact hnone
  · exact hnone

/-- Arguments that have a type are those of the call, each with what was found for it. -/
theorem mem_of_pairArguments {args : List Expr} {types : List (Option Typed)} {as : List Argument}
    (h : pairArguments args types = some as) {a : Argument} (ha : a ∈ as) :
    (∃ e ∈ args, a.span = e.span) ∧ some a.typed ∈ types := by
  induction args generalizing types as with
  | nil =>
    obtain rfl : as = [] := by simpa [pairArguments] using h.symm
    cases ha
  | cons e args ih =>
    cases types with
    | nil =>
      obtain rfl : as = [] := by simpa [pairArguments] using h.symm
      cases ha
    | cons t types =>
      simp only [pairArguments, List.zip_cons_cons, List.mapM_cons, Option.bind_eq_bind,
        Option.bind_eq_some_iff, Option.pure_def, Option.some.injEq, Option.map_eq_some_iff] at h
      obtain ⟨_, ⟨v, rfl, rfl⟩, rest, hrest, rfl⟩ := h
      rcases List.mem_cons.mp ha with rfl | ha
      · exact ⟨⟨e, List.mem_cons_self, rfl⟩, List.mem_cons_self⟩
      · obtain ⟨⟨e', he', hspan⟩, htyped⟩ := ih hrest ha
        exact ⟨⟨e', List.mem_cons_of_mem _ he', hspan⟩, List.mem_cons_of_mem _ htyped⟩

/-! ### Indexes -/

theorem element_walks (base : Typed) {baseSpan indexSpan : Span} (hbase : MayReport R baseSpan)
    (index : Typed) (hindex : MayReport R indexSpan) :
    Walks R (element base baseSpan index indexSpan) := by
  have := fail_walks hbase
  have := fail_walks hindex
  unfold element
  split
  · infer_instance
  · split <;> infer_instance

/-! ### Conditionals -/

theorem choice_walks {yes no : Typed} (hyes : MaySettle R yes) (hno : MaySettle R no)
    (h : MayReport R span) : Walks R (choice yes no span) := by
  have := fail_walks h
  have := unify_walks hyes hno
  refine .seq inferInstance fun t => ?_
  split <;> infer_instance

theorem requireBool_walks (t : Option Typed) (h : MayReport R span) :
    Walks R (requireBool t span) := by
  have := error_walks h
  unfold requireBool
  split <;> infer_instance

/-! ### Parts of statements -/

theorem declaredType_walks {type : TypeRef} (h : MayReport R type.span) {value : Option (Typed × Span)}
    (hvalue : ∀ v ∈ value, MaySettle R v.1 ∧ MayReport R v.2) :
    Walks R (declaredType type value) := by
  have := error_walks h
  unfold declaredType
  split
  · dsimp only
    split
    · obtain ⟨hsettle, hreport⟩ := hvalue _ rfl
      have := coerce_walks hsettle
      have := error_walks hreport
      infer_instance
    · infer_instance
  · infer_instance

theorem inferredType_walks (v : Typed) (h : MayReport R span) : Walks R (inferredType v span) := by
  have := errorWithHelp_walks h
  unfold inferredType
  infer_instance

theorem counterType_walks {lo hi : Option Typed} (hlo : ∀ t ∈ lo, MaySettle R t)
    (hhi : ∀ t ∈ hi, MaySettle R t) (h : MayReport R span) : Walks R (counterType lo hi span) := by
  have := fail_walks h
  unfold counterType
  split
  · refine .seq (unify_walks (hlo _ rfl) (hhi _ rfl)) fun t => ?_
    split <;> infer_instance
  · infer_instance

theorem assignableName_walks (text : String) (h : MayReport R span) :
    Walks R (assignableName text span) := by
  have := error_walks h
  have := errorWithHelp_walks h
  refine .seq inferInstance fun s => ?_
  split
  · infer_instance
  · exact report_walks h rfl
  · infer_instance
  · infer_instance

theorem jump_walks (kind : Jump) (h : MayReport R span) : Walks R (jump kind span) := by
  have := error_walks h
  refine .seq inferInstance fun s => ?_
  cases kind <;> infer_instance

/-! ### Notes -/

variable [Noting R]

theorem note_walks {α : Type} {p : Check α} (h : ∀ s, (p.run s).2.diagnostics = s.diagnostics)
    (hlocals : ∀ s, (p.run s).2.model.locals = s.model.locals) : Walks R p :=
  .of_step fun s => Noting.note (h s) (hlocals s)

instance (span : Span) (r : Referent) : Walks R (setReferent span r) :=
  note_walks (fun _ => rfl) fun _ => rfl

instance (span : Span) (t : Ty) : Walks R (setType span t) := note_walks (fun _ => rfl) fun _ => rfl

instance : Walks R openScope := note_walks (fun _ => rfl) fun _ => rfl

instance : Walks R closeScope := note_walks (fun _ => rfl) fun _ => rfl

instance : Walks R enterLoop := note_walks (fun _ => rfl) fun _ => rfl

instance : Walks R leaveLoop := note_walks (fun _ => rfl) fun _ => rfl

instance (name : Name) (type : Ty) (mutable : Bool) (family : Option LiteralFamily) :
    Walks R (declare name type mutable family) :=
  .of_step fun s => Noting.declare s name type mutable family

instance (name : String) : Walks R (findLocal? name) := note_walks (fun _ => rfl) fun _ => rfl

instance (span : Span) (t : Option Typed) : Walks R (typed span t) := by
  cases t with
  | none => exact .pure _
  | some t => exact .seq (inferInstanceAs (Walks _ (setType _ _))) inferInstance

/-! ### Selectors -/

theorem selectors_walks (rows columns : Nat) {items : List Expr}
    (h : ∀ item ∈ items, MayReport R item.span) : Walks R (selectors rows columns items) := by
  induction items with
  | nil => exact .pure _
  | cons item items ih =>
    obtain ⟨hitem, hitems⟩ := List.forall_mem_cons.mp h
    have := error_walks hitem
    have := errorWithHelp_walks hitem
    have := ih hitems
    unfold selectors
    dsimp only
    split
    · split <;> infer_instance
    · infer_instance

theorem matrixSwizzle_walks (k : ScalarKind) (rows columns : Nat) {items : List Expr}
    (hitems : ∀ item ∈ items, MayReport R item.span) (h : MayReport R span) :
    Walks R (matrixSwizzle k rows columns items span) := by
  have := fail_walks h
  have := selectors_walks rows columns hitems
  unfold matrixSwizzle
  infer_instance

/-! ### Names -/

instance (id : Nat) : Walks R (localType id) := by
  refine .seq inferInstance fun s => ?_
  split <;> infer_instance

theorem captureType_walks (index : Nat) (f : FieldDecl) (h : MayReport R span) :
    Walks R (captureType index f span) := by
  have := fail_walks h
  refine .seq inferInstance fun _ => ?_
  split <;> infer_instance

theorem staticType_walks (index : Nat) (s : StaticDecl) (h : MayReport R span) :
    Walks R (staticType index s span) := by
  have := fail_walks h
  refine .seq inferInstance fun _ => ?_
  split <;> infer_instance

theorem static_walks (statics : List StaticDecl) (path : Path) (h : MayReport R span) :
    Walks R (static statics path span) := by
  unfold static
  split
  · exact fail_walks h _
  · split
    · exact staticType_walks _ _ h
    · infer_instance
  · exact failWithHelp_walks h _ _

theorem name_walks (catalog : Catalog) (text : String) (h : MayReport R span) :
    Walks R (name catalog text span) := by
  refine .seq inferInstance fun found => ?_
  split
  · infer_instance
  · split
    · split
      · exact captureType_walks _ _ h
      · infer_instance
    · exact static_walks _ _ h

theorem path_walks (catalog : Catalog) (p : Path) (h : MayReport R span) :
    Walks R (path catalog p span) := by
  unfold path
  split
  · exact failWithHelp_walks h _ _
  · exact static_walks _ _ h

/-! ### Statements behind their expressions -/

/-- What a declaration does behind its value, which is `missing` where there is none in the source. -/
def declareFrom (mutable : Bool) (name : Name) (type : Option TypeRef)
    (initial : Option (Typed × Span)) (missing : Bool) : Check Unit := do
  match type, initial with
  | some type, _ => declare name (← declaredType type initial) mutable none
  | none, some (t, span) =>
    let (type, family) ← inferredType t span
    declare name type mutable family
  | none, none =>
    if missing then
      errorWithHelp s!"type annotations needed for `{name.text}`"
        s!"give the local a type: `let {name.text}: f32;`" name.span
    declare name .unknown mutable none

theorem letStmt_none (catalog : Catalog) (mutable : Bool) (name : Name) (type : Option TypeRef) :
    letStmt catalog mutable name type none = declareFrom mutable name type none true := rfl

theorem letStmt_some (catalog : Catalog) (mutable : Bool) (name : Name) (type : Option TypeRef)
    (e : Expr) : letStmt catalog mutable name type (some e) = expr catalog e >>= fun found =>
      declareFrom mutable name type (found.map fun t => (t, e.span)) false := rfl

theorem declareFrom_walks (mutable : Bool) {name : Name} (h : MayReport R name.span)
    {type : Option TypeRef} (htype : ∀ t ∈ type, MayReport R t.span)
    {initial : Option (Typed × Span)} (hinitial : ∀ v ∈ initial, MaySettle R v.1 ∧ MayReport R v.2)
    (missing : Bool) : Walks R (declareFrom mutable name type initial missing) := by
  have := errorWithHelp_walks h
  cases type with
  | some t =>
    have := declaredType_walks (htype t rfl) hinitial
    unfold declareFrom
    infer_instance
  | none =>
    cases initial with
    | none =>
      unfold declareFrom
      infer_instance
    | some v =>
      obtain ⟨t, span⟩ := v
      have := inferredType_walks t (hinitial _ rfl).2
      unfold declareFrom
      infer_instance

theorem countFrom_walks (counter : Name) {lo hi : Option Typed} (hlo : ∀ t ∈ lo, MaySettle R t)
    (hhi : ∀ t ∈ hi, MaySettle R t) (h : MayReport R span) :
    Walks R (countFrom counter span lo hi) := by
  refine (counterType_walks hlo hhi h).seq fun found => .seq inferInstance fun _ => ?_
  split <;> infer_instance

/-- What an assignment does behind its place and its value. -/
def assignFrom (op : Option BinaryOp) (place value : Expr) (span : Span)
    (target found : Option Typed) : Check Unit := do
  if target.isSome then
    assignable place
  match target, found with
  | some target, some found =>
    if (← fits op target found span) = some false then
      error
        s!"mismatched types: cannot assign `{found.type.display}` to `{target.type.display}`"
        value.span
  | _, _ => return

/-- With a value that comes from no local nothing is settled. -/
theorem maySettle_of_origin_eq_none {t : Typed} (h : t.origin = none) : MaySettle R t := by
  intro s target _
  rw [show s.settle t target = s by rw [Checking.settle, h]]
  exact Noting.note rfl rfl

theorem fits_walks (op : Option BinaryOp) {target value : Typed} (htarget : MaySettle R target)
    (hvalue : MaySettle R value) (h : MayReport R span) : Walks R (fits op target value span) := by
  have := fun op => binary_walks h op htarget hvalue
  have := coerce_walks htarget
  have := coerce_walks hvalue
  unfold fits
  split
  · infer_instance
  · refine .seq_of_value Detached.isDetached inferInstance fun result hresult => ?_
    split
    · have := coerce_walks (maySettle_of_origin_eq_none (R := R) (hresult _ rfl))
      infer_instance
    · infer_instance

theorem assignFrom_walks (op : Option BinaryOp) {place value : Expr} [Walks R (assignable place)]
    (hvalue : MayReport R value.span) (h : MayReport R span) {target found : Option Typed}
    (htarget : ∀ t ∈ target, MaySettle R t) (hfound : ∀ t ∈ found, MaySettle R t) :
    Walks R (assignFrom op place value span target found) := by
  have := error_walks hvalue
  unfold assignFrom
  cases target with
  | none => infer_instance
  | some target =>
    cases found with
    | none => infer_instance
    | some found =>
      have := fits_walks op (htarget _ rfl) (hfound _ rfl) h
      infer_instance

end Check

end ComputeKernel
