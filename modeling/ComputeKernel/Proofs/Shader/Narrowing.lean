import ComputeKernel.Proofs.Shader.Body
import ComputeKernel.Proofs.Typing.Annotations

/-!
Taking a closure over with its locals' final types known from the start. The translation asks the model
for the types of operands, but for kinds of them only: a scalar of one type is taken over as one of
another type that literals can have, too. Annotations are not read at all, so the code is the same.
-/

namespace ComputeKernel.Shader

open Check (Covered Covers CoversStmt StmtJudgment)

/-- Whether two contexts differ in types that are kin only. -/
structure Context.Kin (ctx ctx' : Context) : Prop where
  model : ctx.model.Kin ctx'.model
  statics : ctx'.statics = ctx.statics
  table : ctx'.table = ctx.table
  captureNames : ctx'.captureNames = ctx.captureNames
  localNames : ctx'.localNames = ctx.localNames

namespace Lower

variable {ctx ctx' : Context} {catalog : Catalog} {α : Type}

/-! ### Names -/

theorem staticName_eq (h : ctx.Kin ctx') (index : Nat) (span : Span) :
    staticName ctx' index span = staticName ctx index span := by
  unfold staticName
  rw [h.statics]

theorem referentName_eq (h : ctx.Kin ctx') (span : Span) :
    referentName ctx' span = referentName ctx span := by
  unfold referentName
  simp only [h.model.referents, h.localNames, h.captureNames, staticName_eq h]

/-- What is made of the type and the name of a local that is declared. -/
theorem declared_bind (h : ctx.Kin ctx') (span : Span) {f g : Local × String → Lower α}
    (hfg : ∀ l l' ident, l'.type = l.type → g (l', ident) = f (l, ident)) :
    (declared ctx' span >>= g) = (declared ctx span >>= f) := by
  unfold declared
  rw [h.model.referents, h.localNames]
  split
  · rename_i id _
    have hlocal : (ctx'.model.local? id).map Local.closed = (ctx.model.local? id).map Local.closed := by
      unfold Model.local?
      rw [← List.getElem?_map, ← List.getElem?_map, h.model.locals]
    cases hl : ctx.model.local? id with
    | none =>
      rw [hl] at hlocal
      rw [Option.map_eq_none_iff.mp hlocal]
      rfl
    | some l =>
      rw [hl] at hlocal
      obtain ⟨l', hl', hclosed⟩ := Option.map_eq_some_iff.mp hlocal
      have htype : l'.closed.type = l.closed.type := by rw [hclosed]
      rw [hl']
      simp only [require, pure_bind, bind_assoc]
      exact bind_congr fun ident => hfg l l' ident htype
  · rfl

/-! ### Types -/

theorem typeName_eq (h : ctx.Kin ctx') (type : HostType) (span : Span) :
    typeName ctx' type span = typeName ctx type span := by
  unfold typeName
  rw [h.table]

/-- What is made of a type in the same way as of all that are kin to it. -/
theorem typeAt_bind (h : ctx.Kin ctx') (span : Span) {f g : Ty → Lower α}
    (hfg : ∀ t u, t.Kin u → g u = f t) : (typeAt ctx' span >>= g) = (typeAt ctx span >>= f) := by
  unfold typeAt
  have htypes := h.model.types span
  generalize ctx.model.type? span = noted at htypes ⊢
  generalize ctx'.model.type? span = noted' at htypes ⊢
  cases htypes with
  | none => rfl
  | some hkin =>
    simp only [require, pure_bind]
    exact hfg _ _ hkin

/-- Scalars of all types have the same receiver. -/
theorem receiverAt_eq (h : ctx.Kin ctx') (span : Span) : receiverAt ctx' span = receiverAt ctx span := by
  refine typeAt_bind h span fun t u hkin => ?_
  rcases hkin with rfl | ⟨_, _, _, rfl, rfl, _⟩ <;> rfl

theorem checkOperator_eq (h : ctx.Kin ctx') (op : BinaryOp) (left right : Span) :
    checkOperator ctx' op left right = checkOperator ctx op left right := by
  unfold checkOperator
  refine typeAt_bind h left fun l l' hl => ?_
  refine typeAt_bind h right fun r r' hr => ?_
  rw [Check.ofOperands?_eq_of_kin hl hr]

theorem unary_eq (op : ComputeKernel.UnaryOp) {t u : Ty} (h : t.Kin u) (inner : Expr) :
    unary op u inner = unary op t inner := by
  rcases h with rfl | ⟨f, k, l, rfl, rfl, hk, hl⟩
  · rfl
  have hk' := Check.ne_bool_of_accepts hk
  have hl' := Check.ne_bool_of_accepts hl
  cases op with
  | neg => rfl
  | not => cases k <;> cases l <;> first | rfl | contradiction

/-! ### Expressions -/

/-- A constructor builds a vector or a matrix, which is settled. -/
theorem call_eq (h : ctx.Kin ctx') {callee : Path} {calleeSpan span : Span} {t : Ty}
    (htype : ctx.model.type? span = some t)
    (ht : callee.owner? = some intrinsicOwner ∨ ∀ k, t ≠ .scalar k) (args : List Expr) :
    call ctx' callee calleeSpan span args = call ctx callee calleeSpan span args := by
  unfold call
  by_cases howner : callee.owner? = some intrinsicOwner
  · rw [if_pos howner, if_pos howner]
  · rw [if_neg howner, if_neg howner]
    have hkin := h.model.types span
    rw [htype] at hkin
    have htype' := hkin.eq_of_left (ht.resolve_left howner)
    simp only [typeAt, htype, htype', typeName_eq h]

/-- What is said of expressions that a model covers. -/
def SameExprs (ctx ctx' : Context) : Covered → Prop
  | .expr e _ => expr ctx' e = expr ctx e
  | .exprs es => exprs ctx' es = exprs ctx es

theorem sameExprs (h : ctx.Kin ctx') {c : Covered} (hc : Covers catalog ctx.model c) :
    SameExprs ctx ctx' c := by
  have hvalue {v : ValueType} (hv : ¬ v.isScalar) (k : ScalarKind) : Ty.value v ≠ .scalar k := by
    rintro ⟨⟩
    exact hv rfl
  induction hc with
  | literal | nil => rfl
  | name | path => simp only [SameExprs, expr, referentName_eq h]
  | unary he _ _ ih =>
    simp only [SameExprs, expr] at ih ⊢
    rw [ih]
    refine typeAt_bind h _ fun t u hkin => ?_
    simp only [unary_eq _ hkin]
  | binary _ _ _ _ ihl ihr =>
    simp only [SameExprs, expr] at ihl ihr ⊢
    rw [ihl, ihr, checkOperator_eq h]
  | cast _ _ _ ih =>
    simp only [SameExprs, expr] at ih ⊢
    rw [ih, typeName_eq h]
  | field _ _ _ ih | swizzle _ _ _ ih | element _ _ _ _ _ ih =>
    simp only [SameExprs, expr, exprs] at ih ⊢
    rw [ih, receiverAt_eq h]
  | method _ _ _ _ _ ih ihargs =>
    simp only [SameExprs, expr] at ih ihargs ⊢
    rw [ih, ihargs, receiverAt_eq h]
  | intrinsic howner _ _ _ htype ihargs =>
    simp only [SameExprs, expr] at ihargs ⊢
    rw [ihargs]
    exact bind_congr fun args => call_eq h htype (.inl howner) args
  | new _ _ _ hscalar _ htype ihargs | splat _ _ _ hscalar _ htype ihargs =>
    simp only [SameExprs, expr] at ihargs ⊢
    rw [ihargs]
    exact bind_congr fun args => call_eq h htype (.inr (hvalue hscalar)) args
  | index _ hindex _ _ _ ihbase ih =>
    simp only [SameExprs] at ihbase ih
    simp only [SameExprs, expr, ihbase, receiverAt_eq h, ih]
  | matrixSwizzle _ _ _ _ ih =>
    simp only [SameExprs] at ih
    simp only [SameExprs, expr, ih, receiverAt_eq h]
  | paren _ _ ih =>
    simp only [SameExprs, expr] at ih ⊢
    rw [ih]
  | choice _ _ _ _ ihcondition ihyes ihno =>
    simp only [SameExprs, expr] at ihcondition ihyes ihno ⊢
    rw [ihcondition, ihyes, ihno]
  | cons _ _ ih ihs =>
    simp only [SameExprs, exprs] at ih ihs ⊢
    rw [ih, ihs]

theorem expr_eq (h : ctx.Kin ctx') {e : ComputeKernel.Expr} {t : Ty}
    (he : Covers catalog ctx.model (.expr e t)) : expr ctx' e = expr ctx e :=
  sameExprs h he

/-! ### Loop bounds -/

theorem any_mutable_eq {m m' : Model} (h : m.Kin m') (id : Nat) :
    ((m'.local? id).any fun l => ! l.mutable) = (m.local? id).any fun l => ! l.mutable := by
  have hlocal := congrArg (fun locals => (locals[id]?).any fun l => ! l.mutable) h.locals
  simp only [List.getElem?_map, Option.any_map] at hlocal
  exact hlocal

mutual

theorem isInvariant_eq {m m' : Model} (h : m.Kin m') :
    ∀ e, isInvariant m' e = isInvariant m e
  | .literal .. | .index .. | .choice .. => rfl
  | .name span _ | .path span _ => by
    simp only [isInvariant, h.referents, any_mutable_eq h]
  | .paren _ e | .unary _ _ e | .cast _ e _ | .field _ e _ => by
    simp only [isInvariant, isInvariant_eq h e]
  | .binary _ _ l r => by simp only [isInvariant, isInvariant_eq h l, isInvariant_eq h r]
  | .method _ e _ args => by simp only [isInvariant, isInvariant_eq h e, areInvariant_eq h args]
  | .call _ _ _ args | .tuple _ args => by simp only [isInvariant, areInvariant_eq h args]

theorem areInvariant_eq {m m' : Model} (h : m.Kin m') :
    ∀ es, areInvariant m' es = areInvariant m es
  | [] => rfl
  | e :: es => by simp only [areInvariant, isInvariant_eq h e, areInvariant_eq h es]

end

/-! ### Statements -/

theorem initial_eq (h : ctx.Kin ctx') {value : Option ComputeKernel.Expr}
    (hvalue : ∀ e ∈ value, ∃ t, Covers catalog ctx.model (.expr e t)) :
    initial ctx' value = initial ctx value := by
  cases value with
  | none => rfl
  | some e =>
    obtain ⟨t, he⟩ := hvalue e rfl
    simp only [initial, expr_eq h he]

/-- The types that declarations are given are not read. -/
theorem stmt_annotated_let (ctx : Context) (m : Model) (span : Span) (mutable : Bool) (name : Name)
    (type : Option TypeRef) (value : Option ComputeKernel.Expr) :
    stmt ctx ((ComputeKernel.Stmt.let span mutable name type value).annotated m) =
      stmt ctx (.let span mutable name type value) := by
  cases type <;> cases value <;> simp only [Stmt.annotated, stmt]

/-- What is said of statements that a model covers, and of those with annotations of another one. -/
def SameStmts (ctx ctx' : Context) (m : Model) : StmtJudgment → Prop
  | .stmt st => stmt ctx' (st.annotated m) = stmt ctx st
  | .stmts sts => stmts ctx' (Stmt.allAnnotated m sts) = stmts ctx sts
  | .block b => block ctx' (b.annotated m) = block ctx b

theorem sameStmts (h : ctx.Kin ctx') (m : Model) {j : StmtJudgment}
    (hj : CoversStmt catalog ctx.model j) : SameStmts ctx ctx' m j := by
  induction hj with
  | «let» _ hvalue =>
    simp only [SameStmts, stmt_annotated_let, stmt]
    refine declared_bind h _ fun l l' ident htype => ?_
    simp only [htype, typeName_eq h, initial_eq h hvalue]
  | assign hplace hvalue _ =>
    simp only [SameStmts, Stmt.annotated, stmt, expr_eq h hplace, expr_eq h hvalue,
      checkOperator_eq h]
  | @«if» _ _ _ otherwise _ hcondition _ _ ihbody ihotherwise =>
    simp only [SameStmts] at ihbody ihotherwise
    have hoptional : optionalBlock ctx' (Block.optionalAnnotated m otherwise) =
        optionalBlock ctx otherwise := by
      cases otherwise with
      | none => rfl
      | some b => simp only [Block.optionalAnnotated, optionalBlock, ihotherwise b rfl]
    simp only [SameStmts, Stmt.annotated, stmt, expr_eq h hcondition, ihbody, hoptional]
  | «for» _ hstart hstop _ ihbody =>
    simp only [SameStmts] at ihbody
    simp only [SameStmts, Stmt.annotated, stmt]
    refine declared_bind h _ fun l l' ident htype => ?_
    simp only [htype, typeName_eq h, expr_eq h hstart, expr_eq h hstop, isInvariant_eq h.model,
      ihbody]
  | «while» hcondition _ ihbody =>
    simp only [SameStmts] at ihbody
    simp only [SameStmts, Stmt.annotated, stmt, expr_eq h hcondition, ihbody]
  | loop _ ihbody | nested _ ihbody =>
    simp only [SameStmts] at ihbody
    simp only [SameStmts, Stmt.annotated, stmt, ihbody]
  | jump => simp only [SameStmts, Stmt.annotated, stmt]
  | eval he => simp only [SameStmts, Stmt.annotated, stmt, expr_eq h he]
  | nil => simp only [SameStmts, Stmt.allAnnotated, stmts]
  | cons _ _ ih ihs =>
    simp only [SameStmts] at ih ihs
    simp only [SameStmts, Stmt.allAnnotated, stmts, ih, ihs]
  | block _ ih =>
    simp only [SameStmts] at ih
    simp only [SameStmts, Block.annotated, block, ih]

/-- A block is taken over alike with the final types of its locals written out. -/
theorem block_annotated (h : ctx.Kin ctx') (m : Model) {b : Block}
    (hb : CoversStmt catalog ctx.model (.block b)) : block ctx' (b.annotated m) = block ctx b :=
  sameStmts h m hb

end Lower

end ComputeKernel.Shader
