import ComputeKernel.Proofs.Spacing.Checking
import ComputeKernel.Shader.Lower.Statements

/-!
Taking over two closures that differ in their ranges only, with models that say the same of them. The
code is the same, and so are the identifiers that are given out on the way.
-/

namespace ComputeKernel.Shader

/-- Whether two contexts say the same of ranges as in `P`. -/
structure Context.Alike (P : Span → Span → Prop) (ctx ctx' : Context) : Prop where
  model : ctx.model.Alike P ctx'.model
  statics : ctx.statics = ctx'.statics
  table : ctx.table = ctx'.table
  captureNames : ctx.captureNames = ctx'.captureNames
  localNames : ctx.localNames = ctx'.localNames

/-- Whether two translations have come to the same. -/
structure Progress.Alike (s s' : Progress) : Prop where
  pool : s.pool = s'.pool
  statics : s.statics = s'.statics
  diagnostics : s.diagnostics.map Diagnostic.bare = s'.diagnostics.map Diagnostic.bare

namespace Lower

variable {α β : Type}

/-- Whether two steps of the translation that start alike both end in a defect, or end alike with
values as in `R`. -/
def Paired (R : α → α → Prop) (p q : Lower α) : Prop :=
  ∀ s s' : Progress, s.Alike s' →
    (∃ d d', p.run s = .error d ∧ q.run s' = .error d') ∨
      ∃ a a' t t', p.run s = .ok (a, t) ∧ q.run s' = .ok (a', t') ∧ R a a' ∧ t.Alike t'

namespace Paired

variable {R : α → α → Prop} {T : β → β → Prop} {p q : Lower α} {f g : α → Lower β}

theorem pure {a b : α} (h : R a b) : Paired R (Pure.pure a) (Pure.pure b) :=
  fun s s' hs => .inr ⟨a, b, s, s', rfl, rfl, h, hs⟩

theorem defect (d d' : Defect) : Paired R (defect d) (defect d') :=
  fun _ _ _ => .inl ⟨d, d', rfl, rfl⟩

theorem bind (h : Paired R p q) (hf : ∀ a b, R a b → Paired T (f a) (g b)) :
    Paired T (p >>= f) (q >>= g) := by
  intro s s' hs
  rw [StateT.run_bind, StateT.run_bind]
  rcases h s s' hs with ⟨d, d', hd, hd'⟩ | ⟨a, a', t, t', ha, ha', hvalue, hstate⟩
  · rw [hd, hd']
    exact .inl ⟨d, d', rfl, rfl⟩
  · rw [ha, ha']
    exact hf a a' hvalue t t' hstate

/-- Steps that give the same value. -/
theorem bind_eq (h : Paired Eq p q) (hf : ∀ a, Paired T (f a) (g a)) :
    Paired T (p >>= f) (q >>= g) := by
  refine h.bind fun a b hab => ?_
  subst hab
  exact hf a

theorem get : Paired Progress.Alike (MonadState.get : Lower Progress) MonadState.get :=
  fun s s' hs => .inr ⟨s, s', s, s', rfl, rfl, hs, hs⟩

theorem update {f g : Progress → Progress} (h : ∀ s s', s.Alike s' → (f s).Alike (g s')) :
    Paired Eq (modify f : Lower PUnit) (modify g) :=
  fun s s' hs => .inr ⟨_, _, _, _, rfl, rfl, rfl, h s s' hs⟩

theorem require (d d' : Defect) (a : Option α) :
    Paired Eq (Lower.require d a) (Lower.require d' a) := by
  cases a with
  | none => exact .defect d d'
  | some a => exact .pure rfl

theorem discard (h : Paired R p q) : Paired Eq (Functor.discard p) (Functor.discard q) :=
  h.bind fun _ _ _ => .pure rfl

end Paired

variable {P : Span → Span → Prop} {ctx ctx' : Context}

/-! ### Names -/

theorem allocate_paired (base : String) : Paired Eq (allocate base) (allocate base) := by
  intro s s' hs
  refine .inr ⟨_, _, _, _, rfl, rfl, ?_, ?_⟩
  · rw [hs.pool]
  · exact ⟨by rw [hs.pool], hs.statics, hs.diagnostics⟩

theorem staticName_paired (hctx : ctx.Alike P ctx') (index : Nat) (span span' : Span) :
    Paired Eq (staticName ctx index span) (staticName ctx' index span') := by
  refine Paired.get.bind fun s s' hs => ?_
  rw [hs.statics, hctx.statics]
  split
  · exact .pure rfl
  · refine (Paired.require _ _ _).bind_eq fun decl => (allocate_paired _).bind_eq fun name =>
      (Paired.update fun t t' ht => ?_).bind_eq fun _ => .pure rfl
    exact ⟨ht.pool, by rw [ht.statics], ht.diagnostics⟩

theorem referentName_paired (hctx : ctx.Alike P ctx') {span span' : Span} (hspan : P span span') :
    Paired Eq (referentName ctx span) (referentName ctx' span') := by
  unfold referentName
  rw [hctx.model.referents _ _ hspan, hctx.localNames, hctx.captureNames]
  split
  · exact .require _ _ _
  · exact .require _ _ _
  · exact staticName_paired hctx _ _ _
  · exact .defect _ _

theorem requireLocal_paired (hctx : ctx.Alike P ctx') (d d' : Defect) (id : Nat) :
    Paired (fun l l' => l.type = l'.type) (require d (ctx.model.local? id))
      (require d' (ctx'.model.local? id)) := by
  have hlocal := hctx.model.local?_eq id
  cases hl : ctx.model.local? id with
  | none =>
    rw [hl] at hlocal
    rw [Option.map_eq_none_iff.mp hlocal.symm]
    exact .defect d d'
  | some l =>
    rw [hl] at hlocal
    obtain ⟨l', hl', hbare⟩ := Option.map_eq_some_iff.mp hlocal.symm
    rw [hl']
    refine .pure ?_
    show l.bare.type = l'.bare.type
    rw [hbare]

theorem declared_paired (hctx : ctx.Alike P ctx') {span span' : Span} (hspan : P span span') :
    Paired (fun a a' => a.1.type = a'.1.type ∧ a.2 = a'.2) (declared ctx span)
      (declared ctx' span') := by
  unfold declared
  rw [hctx.model.referents _ _ hspan, hctx.localNames]
  split
  · exact (requireLocal_paired hctx _ _ _).bind fun l l' hl =>
      (Paired.require _ _ _).bind_eq fun ident => .pure ⟨hl, rfl⟩
  · exact .defect _ _

/-! ### Types -/

theorem typeName_paired (hctx : ctx.Alike P ctx') {type type' : HostType} (htype : type = type')
    (span span' : Span) : Paired Eq (typeName ctx type span) (typeName ctx' type' span') := by
  unfold typeName
  rw [hctx.table, htype]
  split
  · exact .pure rfl
  · refine (Paired.update fun s s' hs => ?_).bind_eq fun _ => .pure rfl
    exact ⟨hs.pool, hs.statics, Diagnostic.bare_append hs.diagnostics rfl⟩

theorem typeAt_paired (hctx : ctx.Alike P ctx') {span span' : Span} (hspan : P span span') :
    Paired Eq (typeAt ctx span) (typeAt ctx' span') := by
  unfold typeAt
  rw [hctx.model.types _ _ hspan]
  exact .require _ _ _

theorem receiverAt_paired (hctx : ctx.Alike P ctx') {span span' : Span} (hspan : P span span') :
    Paired Eq (receiverAt ctx span) (receiverAt ctx' span') :=
  (typeAt_paired hctx hspan).bind_eq fun _ => .require _ _ _

/-! ### Rules -/

theorem apply_paired (receiver : Receiver) (member : Member) (text : String)
    (operands : List Expr) :
    Paired Eq (apply receiver member text operands) (apply receiver member text operands) :=
  (Paired.require _ _ _).bind_eq fun _ => .require _ _ _

theorem checkOperator_paired (hctx : ctx.Alike P ctx') (op : BinaryOp)
    {left left' right right' : Span} (hleft : P left left') (hright : P right right') :
    Paired Eq (checkOperator ctx op left right) (checkOperator ctx' op left' right') := by
  refine (typeAt_paired hctx hleft).bind_eq fun l => (typeAt_paired hctx hright).bind_eq
    fun r => ?_
  split
  · exact .pure rfl
  · exact (Paired.require _ _ _).bind_eq fun member => (Paired.require _ _ _).discard

/-! ### Expressions -/

theorem unary_paired (op : ComputeKernel.UnaryOp) (type : Ty) (inner : Expr) :
    Paired Eq (unary op type inner) (unary op type inner) := by
  unfold unary
  split
  · split
    · exact apply_paired _ _ _ _
    · exact apply_paired _ _ _ _
    · exact .pure rfl
  · exact apply_paired _ _ _ _
  · exact apply_paired _ _ _ _
  · exact .pure rfl
  · exact .pure rfl

theorem selectors_paired {items items' : List ComputeKernel.Expr}
    (h : ComputeKernel.Alike P (.exprs items items')) :
    Paired Eq (selectors items) (selectors items') := by
  induction items generalizing items' with
  | nil =>
    cases h
    exact .pure rfl
  | cons item items ih =>
    cases h with
    | moreExprs hitem hitems =>
      cases hitem with
      | path _ =>
        exact (Paired.require _ _ _).bind_eq fun position => (ih hitems).bind_eq fun rest =>
          .pure rfl
      | _ => exact .defect _ _

theorem select_paired (receiver : Receiver) (name : String) (e : Expr) :
    Paired Eq (select receiver name e) (select receiver name e) := by
  unfold select
  split
  · exact apply_paired _ _ _ _
  · exact apply_paired _ _ _ _

theorem call_paired (hctx : ctx.Alike P ctx') (callee : Path) (calleeSpan calleeSpan' : Span)
    {span span' : Span} (hspan : P span span') (args : List Expr) :
    Paired Eq (call ctx callee calleeSpan span args) (call ctx' callee calleeSpan' span' args) := by
  unfold call
  split
  · exact apply_paired _ _ _ _
  · split
    · exact (typeAt_paired hctx hspan).bind_eq fun type =>
        (typeName_paired hctx rfl _ _).bind_eq fun name => apply_paired _ _ _ _
    · exact .defect _ _

/-- What is said of a pair of expressions. -/
def ExprsPaired (ctx ctx' : Context) : Pair → Prop
  | .expr e e' => Paired Eq (expr ctx e) (expr ctx' e')
  | .exprs es es' => Paired Eq (exprs ctx es) (exprs ctx' es')
  | _ => True

theorem exprs_paired (hctx : ctx.Alike P ctx') {p : Pair} (h : ComputeKernel.Alike P p) :
    ExprsPaired ctx ctx' p := by
  induction h with
  | literal _ => exact .pure rfl
  | name hs => exact (referentName_paired hctx hs).bind_eq fun ident => .pure rfl
  | path hs => exact (referentName_paired hctx hs).bind_eq fun ident => .pure rfl
  | unary _ he ih =>
    exact (typeAt_paired hctx he.span).bind_eq fun type => ih.bind_eq fun inner =>
      unary_paired _ _ _
  | binary _ hl hr ihl ihr =>
    exact (checkOperator_paired hctx _ hl.span hr.span).bind_eq fun _ => ihl.bind_eq fun l =>
      ihr.bind_eq fun r => .pure rfl
  | cast _ _ htype ih =>
    exact (typeName_paired hctx htype _ _).bind_eq fun name => ih.bind_eq fun e => .pure rfl
  | field _ he hmember ih =>
    refine (receiverAt_paired hctx he.span).bind_eq fun kind => ih.bind_eq fun e => ?_
    rw [hmember]
    exact apply_paired _ _ _ _
  | method _ he hmember _ ih ihargs =>
    refine (receiverAt_paired hctx he.span).bind_eq fun kind => ih.bind_eq fun e => ?_
    rw [hmember]
    split
    · exact (Paired.require _ _ _).bind_eq fun m => ihargs.bind_eq fun args =>
        apply_paired _ _ _ _
    · exact select_paired _ _ _
  | call hs _ ihargs => exact ihargs.bind_eq fun args => call_paired hctx _ _ _ hs args
  | index _ hbase hindex ihbase ih =>
    refine (receiverAt_paired hctx hbase.span).bind_eq fun kind => ihbase.bind_eq fun b => ?_
    cases hindex with
    | tuple _ hitems =>
      cases kind with
      | matrix => exact (selectors_paired hitems).bind_eq fun text => apply_paired _ _ _ _
      | _ => exact ih.bind_eq fun i => apply_paired _ _ _ _
    | _ => cases kind <;> exact ih.bind_eq fun i => apply_paired _ _ _ _
  | tuple _ _ _ => exact .defect _ _
  | paren _ _ ih => exact ih.bind_eq fun e => .pure rfl
  | choice _ _ _ _ ihcondition ihyes ihno =>
    exact ihcondition.bind_eq fun c => ihyes.bind_eq fun y => ihno.bind_eq fun n => .pure rfl
  | noExprs => exact .pure rfl
  | moreExprs _ _ ih ihs => exact ih.bind_eq fun e => ihs.bind_eq fun es => .pure rfl
  | _ => trivial

theorem expr_paired (hctx : ctx.Alike P ctx') {e e' : ComputeKernel.Expr}
    (h : ComputeKernel.Alike P (.expr e e')) : Paired Eq (expr ctx e) (expr ctx' e') :=
  exprs_paired hctx h

/-! ### Loop bounds -/

theorem and_eq_of_eq {a a' b b' : Bool} (h : a = a') (h' : b = b') : (a && b) = (a' && b') := by
  rw [h, h']

/-- What is said of the bounds of a pair of loops. -/
def SameInvariance (m m' : Model) : Pair → Prop
  | .expr e e' => isInvariant m e = isInvariant m' e'
  | .exprs es es' => areInvariant m es = areInvariant m' es'
  | _ => True

theorem sameInvariance {m m' : Model} (hm : m.Alike P m') {p : Pair}
    (h : ComputeKernel.Alike P p) : SameInvariance m m' p := by
  induction h with
  | literal _ => rfl
  | name hs | path hs =>
    show isInvariant _ _ = isInvariant _ _
    unfold isInvariant
    rw [hm.referents _ _ hs]
    split
    · exact hm.any_mutable_eq _
    · rfl
    · rfl
    · rfl
  | paren _ _ ih => exact ih
  | unary _ _ ih => exact ih
  | cast _ _ _ ih => exact ih
  | field _ _ _ ih => exact ih
  | binary _ _ _ ihl ihr => exact and_eq_of_eq ihl ihr
  | method _ _ _ _ ih ihargs => exact and_eq_of_eq ih ihargs
  | call _ _ ihargs => exact ihargs
  | tuple _ _ ihargs => exact ihargs
  | index _ _ _ _ _ => rfl
  | choice _ _ _ _ _ _ _ => rfl
  | noExprs => rfl
  | moreExprs _ _ ih ihs => exact and_eq_of_eq ih ihs
  | _ => trivial

/-! ### Statements -/

theorem initial_paired (hctx : ctx.Alike P ctx') {value value' : Option ComputeKernel.Expr}
    (h : ComputeKernel.Alike P (.initial value value')) :
    Paired Eq (initial ctx value) (initial ctx' value') := by
  cases h with
  | noInitial => exact .pure rfl
  | someInitial he => exact (expr_paired hctx he).bind_eq fun e => .pure rfl

theorem assign_paired (hctx : ctx.Alike P ctx') (span span' : Span)
    (op : Option ComputeKernel.BinaryOp) {place place' value value' : ComputeKernel.Expr}
    (hplace : ComputeKernel.Alike P (.expr place place'))
    (hvalue : ComputeKernel.Alike P (.expr value value')) :
    Paired Eq (stmt ctx (.assign span op place value))
      (stmt ctx' (.assign span' op place' value')) := by
  cases op with
  | none =>
    exact (expr_paired hctx hplace).bind_eq fun target => (expr_paired hctx hvalue).bind_eq
      fun e => .pure rfl
  | some op =>
    exact (checkOperator_paired hctx op hplace.span hvalue.span).bind_eq fun _ =>
      (expr_paired hctx hplace).bind_eq fun target => (expr_paired hctx hvalue).bind_eq
        fun e => .pure rfl

/-- What is said of a pair of statements. -/
def StmtsPaired (ctx ctx' : Context) : Pair → Prop
  | .stmt s s' => Paired Eq (stmt ctx s) (stmt ctx' s')
  | .stmts body body' => Paired Eq (stmts ctx body) (stmts ctx' body')
  | .block b b' => Paired Eq (block ctx b) (block ctx' b')
  | .optional b b' => Paired Eq (optionalBlock ctx b) (optionalBlock ctx' b')
  | _ => True

theorem stmts_paired (hctx : ctx.Alike P ctx') {p : Pair} (h : ComputeKernel.Alike P p) :
    StmtsPaired ctx ctx' p := by
  induction h with
  | «let» hspan _ _ hvalue _ =>
    refine (declared_paired hctx hspan).bind fun a a' ha => ?_
    obtain ⟨l, ident⟩ := a
    obtain ⟨l', ident'⟩ := a'
    obtain ⟨hl, rfl⟩ := ha
    exact (typeName_paired hctx (congrArg Ty.toHost hl) _ _).bind_eq fun type =>
      (initial_paired hctx hvalue).bind_eq fun value => .pure rfl
  | assign hplace hvalue _ _ => exact assign_paired hctx _ _ _ hplace hvalue
  | «if» hcondition _ _ _ ihbody ihotherwise =>
    exact (expr_paired hctx hcondition).bind_eq fun c => ihbody.bind_eq fun b =>
      ihotherwise.bind_eq fun o => .pure rfl
  | «for» hspan _ hstart hstop _ _ _ ihbody =>
    refine (declared_paired hctx hspan).bind fun a a' ha => ?_
    obtain ⟨l, ident⟩ := a
    obtain ⟨l', ident'⟩ := a'
    obtain ⟨hl, rfl⟩ := ha
    refine (typeName_paired hctx (congrArg Ty.toHost hl) _ _).bind_eq fun type =>
      (expr_paired hctx hstart).bind_eq fun lo => (expr_paired hctx hstop).bind_eq fun hi => ?_
    rw [show isInvariant ctx.model _ = isInvariant ctx'.model _ from sameInvariance hctx.model hstop]
    split
    · exact ihbody.bind_eq fun b => .pure rfl
    · exact (allocate_paired _).bind_eq fun bound => ihbody.bind_eq fun b => .pure rfl
  | «while» hcondition _ _ ihbody =>
    exact (expr_paired hctx hcondition).bind_eq fun c => ihbody.bind_eq fun b => .pure rfl
  | loop _ ihbody => exact ihbody.bind_eq fun b => .pure rfl
  | jump => exact .pure rfl
  | eval hvalue _ => exact (expr_paired hctx hvalue).bind_eq fun e => .pure rfl
  | nested _ ihbody => exact ihbody.bind_eq fun b => .pure rfl
  | noStmts => exact .pure rfl
  | moreStmts _ _ ih ihs => exact ih.bind_eq fun code => ihs.bind_eq fun rest => .pure rfl
  | block _ ih => exact ih
  | noBlock => exact .pure rfl
  | someBlock _ ih => exact ih.bind_eq fun b => .pure rfl
  | _ => trivial

theorem block_paired (hctx : ctx.Alike P ctx') {b b' : Block}
    (h : ComputeKernel.Alike P (.block b b')) : Paired Eq (block ctx b) (block ctx' b') :=
  stmts_paired hctx h

end Lower

end ComputeKernel.Shader
