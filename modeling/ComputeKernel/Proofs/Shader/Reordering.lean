import ComputeKernel.Proofs.Shader.Body
import ComputeKernel.Proofs.Typing.Renumbering

/-!
Bodies of kernels whose catalogs list the same statics in different orders. Code asks for a static by its
number only to find what it has met, so the same code comes out, and the statics that it asks for are the
same ones in the same order.
-/

namespace ComputeKernel

/-! ### Checked bodies -/

/-- A checked body with the statics of its catalog in another order. -/
def CheckedBody.reorder (f : Nat → Nat) (catalog : Catalog) (body : CheckedBody) : CheckedBody :=
  { body with model := body.model.renumber f, catalog }

theorem CheckedBody.of_reorders {f : Equiv.Perm Nat} {catalog catalog' : Catalog}
    (hr : catalog.Reorders f catalog') {kernel source : String} {body : CheckedBody}
    (h : CheckedBody.of kernel source catalog = .ok body) :
    CheckedBody.of kernel source catalog' = .ok (body.reorder f catalog') := by
  unfold CheckedBody.of at h ⊢
  split at h
  · cases h
  · split at h
    · cases h
    · rename_i model hbind
      cases h
      rw [Closure.bind_of_reorders hr hbind]
      rfl

namespace Shader

/-! ### Steps of the translation -/

def StaticUse.renumber (f : Nat → Nat) (u : StaticUse) : StaticUse := { u with index := f u.index }

/-- A state of the translation with other numbers for the statics. -/
def Progress.renumber (f : Nat → Nat) (s : Progress) : Progress :=
  { s with statics := s.statics.map (StaticUse.renumber f) }

/-- A context with its statics in another order. -/
def Context.reorder (f : Nat → Nat) (statics : List StaticDecl) (ctx : Context) : Context :=
  { ctx with model := ctx.model.renumber f, statics }

namespace Lower

variable {α β : Type} {f : Nat → Nat}

/-- Whether a step does the same as another one, with other numbers for the statics. -/
def Renumbers (f : Nat → Nat) (p q : Lower α) : Prop :=
  ∀ s : Progress, q.run (s.renumber f) = (p.run s).map fun r => (r.1, r.2.renumber f)

namespace Renumbers

variable {p q : Lower α} {g h : α → Lower β}

theorem pure {a : α} : Renumbers f (Pure.pure a) (Pure.pure a) := fun _ => rfl

theorem defect {d : Defect} : Renumbers f (defect d : Lower α) (Lower.defect d) := fun _ => rfl

theorem bind (hp : Renumbers f p q) (hg : ∀ a, Renumbers f (g a) (h a)) :
    Renumbers f (p >>= g) (q >>= h) := by
  intro s
  rw [StateT.run_bind, StateT.run_bind, hp s]
  cases p.run s with
  | error d => rfl
  | ok r => exact hg r.1 r.2

theorem require (d : Defect) (a : Option α) : Renumbers f (require d a) (Lower.require d a) := by
  cases a with
  | none => exact .defect
  | some a => exact .pure

end Renumbers

/-! ### Names -/

theorem allocate_renumbers (base : String) : Renumbers f (allocate base) (allocate base) :=
  fun _ => rfl

variable {f : Equiv.Perm Nat} {ctx : Context} {statics : List StaticDecl}

theorem find?_renumber (uses : List StaticUse) (index : Nat) :
    (uses.map (StaticUse.renumber f)).find? (fun u => u.index == f index) =
      (uses.find? fun u => u.index == index).map (StaticUse.renumber f) := by
  rw [List.find?_map]
  congr 2
  funext u
  exact decide_eq_decide.mpr f.injective.eq_iff

/-- A static is met under its new number. -/
theorem meet_renumbers (u : StaticUse) :
    Renumbers f (modify fun s => { s with statics := s.statics ++ [u] } : Lower PUnit)
      (modify fun s => { s with statics := s.statics ++ [u.renumber f] }) := by
  intro s
  have hstatics : (s.statics ++ [u]).map (StaticUse.renumber f) =
      (s.renumber f).statics ++ [u.renumber f] := List.map_append
  exact congrArg (fun statics => Except.ok (PUnit.unit, { s with statics })) hstatics.symm

theorem staticName_renumbers (hstatics : ∀ i, statics[f i]? = ctx.statics[i]?) (index : Nat)
    (span : Span) : Renumbers f (staticName ctx index span)
      (staticName (ctx.reorder f statics) (f index) span) := by
  intro s
  have hfind : (s.renumber f).statics.find? (fun u => u.index == f index) = _ :=
    find?_renumber s.statics index
  simp only [staticName, StateT.run_bind, StateT.run_get, pure_bind]
  rw [hfind, show (ctx.reorder f statics).statics[f index]? = _ from hstatics index]
  cases s.statics.find? fun u => u.index == index with
  | some u => rfl
  | none =>
    have hnew := (Renumbers.require (f := f) (.unresolved span) ctx.statics[index]?).bind fun decl =>
      (allocate_renumbers decl.name).bind fun name =>
        (meet_renumbers ⟨index, decl, name⟩).bind fun _ => .pure (a := name)
    exact hnew s

theorem referentName_renumbers (hstatics : ∀ i, statics[f i]? = ctx.statics[i]?) (span : Span) :
    Renumbers f (referentName ctx span) (referentName (ctx.reorder f statics) span) := by
  unfold referentName
  rw [show (ctx.reorder f statics).model.referent? span = _ from Model.referent?_renumber _ _ _]
  cases ctx.model.referent? span with
  | none => exact .defect
  | some r =>
    cases r with
    | «local» id => exact .require _ _
    | capture field => exact .require _ _
    | static index => exact staticName_renumbers hstatics index span

theorem declared_renumbers (span : Span) :
    Renumbers f (declared ctx span) (declared (ctx.reorder f statics) span) := by
  unfold declared
  rw [show (ctx.reorder f statics).model.referent? span = _ from Model.referent?_renumber _ _ _]
  cases ctx.model.referent? span with
  | none => exact .defect
  | some r =>
    cases r with
    | «local» id => exact (Renumbers.require _ _).bind fun _ => (Renumbers.require _ _).bind fun _ => .pure
    | capture | static => exact .defect

/-! ### Types and rules -/

theorem typeName_renumbers (type : HostType) (span : Span) :
    Renumbers f (typeName ctx type span) (typeName (ctx.reorder f statics) type span) := by
  unfold typeName
  rw [show (ctx.reorder f statics).table = ctx.table from rfl]
  split
  · exact .pure
  · exact Renumbers.bind (fun _ => rfl) fun _ => .pure

theorem typeAt_renumbers (span : Span) :
    Renumbers f (typeAt ctx span) (typeAt (ctx.reorder f statics) span) := .require _ _

theorem receiverAt_renumbers (span : Span) :
    Renumbers f (receiverAt ctx span) (receiverAt (ctx.reorder f statics) span) :=
  (typeAt_renumbers span).bind fun _ => .require _ _

theorem apply_renumbers (receiver : Receiver) (member : Member) (text : String)
    (operands : List Expr) :
    Renumbers f (apply receiver member text operands) (apply receiver member text operands) :=
  (Renumbers.require _ _).bind fun _ => .require _ _

theorem checkOperator_renumbers (op : BinaryOp) (left right : Span) :
    Renumbers f (checkOperator ctx op left right)
      (checkOperator (ctx.reorder f statics) op left right) := by
  refine (typeAt_renumbers left).bind fun l => (typeAt_renumbers right).bind fun r => ?_
  split
  · exact .pure
  · exact (Renumbers.require _ _).bind fun _ => (Renumbers.require _ _).bind fun _ => .pure

/-! ### Expressions -/

theorem unary_renumbers (op : ComputeKernel.UnaryOp) (type : Ty) (inner : Expr) :
    Renumbers f (unary op type inner) (unary op type inner) := by
  unfold unary
  split
  · split
    · exact apply_renumbers _ _ _ _
    · exact apply_renumbers _ _ _ _
    · exact .pure
  · exact apply_renumbers _ _ _ _
  · exact apply_renumbers _ _ _ _
  · exact .pure
  · exact .pure

theorem selectors_renumbers (items : List ComputeKernel.Expr) :
    Renumbers f (selectors items) (selectors items) := by
  induction items with
  | nil => exact .pure
  | cons item items ih =>
    cases item with
    | path => exact (Renumbers.require _ _).bind fun _ => ih.bind fun _ => .pure
    | _ => exact .defect

theorem select_renumbers (receiver : Receiver) (name : String) (e : Expr) :
    Renumbers f (select receiver name e) (select receiver name e) := by
  unfold select
  split <;> exact apply_renumbers _ _ _ _

theorem call_renumbers (callee : Path) (calleeSpan span : Span) (args : List Expr) :
    Renumbers f (call ctx callee calleeSpan span args)
      (call (ctx.reorder f statics) callee calleeSpan span args) := by
  unfold call
  split
  · exact apply_renumbers _ _ _ _
  · split
    · exact (typeAt_renumbers span).bind fun _ => (typeName_renumbers _ _).bind fun _ =>
        apply_renumbers _ _ _ _
    · exact .defect

mutual

theorem expr_renumbers (hstatics : ∀ i, statics[f i]? = ctx.statics[i]?) : ∀ e : ComputeKernel.Expr,
    Renumbers f (expr ctx e) (expr (ctx.reorder f statics) e)
  | .literal .. => .pure
  | .name span _ | .path span _ => (referentName_renumbers hstatics span).bind fun _ => .pure
  | .paren _ inner => (expr_renumbers hstatics inner).bind fun _ => .pure
  | .unary _ _ operand => (typeAt_renumbers operand.span).bind fun _ =>
      (expr_renumbers hstatics operand).bind fun _ => unary_renumbers _ _ _
  | .binary _ op left right => (checkOperator_renumbers op left.span right.span).bind fun _ =>
      (expr_renumbers hstatics left).bind fun _ => (expr_renumbers hstatics right).bind fun _ => .pure
  | .cast _ operand _ => (typeName_renumbers _ _).bind fun _ =>
      (expr_renumbers hstatics operand).bind fun _ => .pure
  | .field _ receiver _ => (receiverAt_renumbers receiver.span).bind fun _ =>
      (expr_renumbers hstatics receiver).bind fun _ => apply_renumbers _ _ _ _
  | .method _ receiver _ args => by
    refine (receiverAt_renumbers receiver.span).bind fun kind =>
      (expr_renumbers hstatics receiver).bind fun e => ?_
    split
    · exact (Renumbers.require _ _).bind fun _ => (exprs_renumbers hstatics args).bind fun _ =>
        apply_renumbers _ _ _ _
    · exact select_renumbers _ _ _
  | .call _ callee calleeSpan args => (exprs_renumbers hstatics args).bind fun _ =>
      call_renumbers callee calleeSpan _ _
  | .index _ base index => by
    refine (receiverAt_renumbers base.span).bind fun kind => (expr_renumbers hstatics base).bind fun b => ?_
    split
    · exact (selectors_renumbers _).bind fun _ => apply_renumbers _ _ _ _
    · exact (expr_renumbers hstatics index).bind fun _ => apply_renumbers _ _ _ _
  | .tuple .. => .defect
  | .choice _ condition yes no => (expr_renumbers hstatics condition).bind fun _ =>
      (expr_renumbers hstatics yes).bind fun _ => (expr_renumbers hstatics no).bind fun _ => .pure

theorem exprs_renumbers (hstatics : ∀ i, statics[f i]? = ctx.statics[i]?) : ∀ es : List ComputeKernel.Expr,
    Renumbers f (exprs ctx es) (exprs (ctx.reorder f statics) es)
  | [] => .pure
  | e :: es => (expr_renumbers hstatics e).bind fun _ => (exprs_renumbers hstatics es).bind fun _ => .pure

end

/-! ### Loop bounds -/

mutual

theorem isInvariant_renumber (m : Model) :
    ∀ e : ComputeKernel.Expr, isInvariant (m.renumber f) e = isInvariant m e
  | .literal .. | .index .. | .choice .. => rfl
  | .name span _ | .path span _ => by
    rw [isInvariant, isInvariant, Model.referent?_renumber]
    rcases m.referent? span with _ | (id | field | index) <;> rfl
  | .paren _ e | .unary _ _ e | .cast _ e _ | .field _ e _ => isInvariant_renumber m e
  | .binary _ _ left right => by
    rw [isInvariant, isInvariant, isInvariant_renumber m left, isInvariant_renumber m right]
  | .method _ receiver _ args => by
    rw [isInvariant, isInvariant, isInvariant_renumber m receiver, areInvariant_renumber m args]
  | .call _ _ _ args | .tuple _ args => areInvariant_renumber m args

theorem areInvariant_renumber (m : Model) :
    ∀ es : List ComputeKernel.Expr, areInvariant (m.renumber f) es = areInvariant m es
  | [] => rfl
  | e :: es => by
    rw [areInvariant, areInvariant, isInvariant_renumber m e, areInvariant_renumber m es]

end

/-! ### Statements -/

theorem initial_renumbers (hstatics : ∀ i, statics[f i]? = ctx.statics[i]?)
    (value : Option ComputeKernel.Expr) :
    Renumbers f (initial ctx value) (initial (ctx.reorder f statics) value) := by
  cases value with
  | none => exact .pure
  | some e => exact (expr_renumbers hstatics e).bind fun _ => .pure

mutual

theorem stmt_renumbers (hstatics : ∀ i, statics[f i]? = ctx.statics[i]?) : ∀ s : ComputeKernel.Stmt,
    Renumbers f (stmt ctx s) (stmt (ctx.reorder f statics) s)
  | .let _ _ name _ value => (declared_renumbers name.span).bind fun _ =>
      (typeName_renumbers _ _).bind fun _ => (initial_renumbers hstatics value).bind fun _ => .pure
  | .assign _ none place value => (expr_renumbers hstatics place).bind fun _ =>
      (expr_renumbers hstatics value).bind fun _ => .pure
  | .assign _ (some op) place value => (checkOperator_renumbers op place.span value.span).bind fun _ =>
      (expr_renumbers hstatics place).bind fun _ =>
        (expr_renumbers hstatics value).bind fun _ => .pure
  | .if _ condition body otherwise => (expr_renumbers hstatics condition).bind fun _ =>
      (block_renumbers hstatics body).bind fun _ =>
        (optionalBlock_renumbers hstatics otherwise).bind fun _ => .pure
  | .for _ counter start stop _ body => by
    refine (declared_renumbers counter.span).bind fun _ => (typeName_renumbers _ _).bind fun _ =>
      (expr_renumbers hstatics start).bind fun _ => (expr_renumbers hstatics stop).bind fun _ => ?_
    rw [show isInvariant (ctx.reorder f statics).model stop = _ from isInvariant_renumber _ stop]
    split
    · exact (block_renumbers hstatics body).bind fun _ => .pure
    · exact (allocate_renumbers _).bind fun _ => (block_renumbers hstatics body).bind fun _ => .pure
  | .while _ condition body => (expr_renumbers hstatics condition).bind fun _ =>
      (block_renumbers hstatics body).bind fun _ => .pure
  | .loop _ body => (block_renumbers hstatics body).bind fun _ => .pure
  | .jump .. => .pure
  | .eval _ value => (expr_renumbers hstatics value).bind fun _ => .pure
  | .nested _ body => (block_renumbers hstatics body).bind fun _ => .pure

theorem optionalBlock_renumbers (hstatics : ∀ i, statics[f i]? = ctx.statics[i]?) :
    ∀ b : Option Block, Renumbers f (optionalBlock ctx b) (optionalBlock (ctx.reorder f statics) b)
  | none => .pure
  | some b => (block_renumbers hstatics b).bind fun _ => .pure

theorem block_renumbers (hstatics : ∀ i, statics[f i]? = ctx.statics[i]?) :
    ∀ b : Block, Renumbers f (block ctx b) (block (ctx.reorder f statics) b)
  | ⟨_, body⟩ => stmts_renumbers hstatics body

theorem stmts_renumbers (hstatics : ∀ i, statics[f i]? = ctx.statics[i]?) :
    ∀ ss : List ComputeKernel.Stmt,
      Renumbers f (stmts ctx ss) (stmts (ctx.reorder f statics) ss)
  | [] => .pure
  | s :: ss => (stmt_renumbers hstatics s).bind fun _ => (stmts_renumbers hstatics ss).bind fun _ => .pure

end

end Lower

/-! ### Bodies -/

def Body.renumber (f : Nat → Nat) (b : Body) : Body :=
  { b with statics := b.statics.map (StaticUse.renumber f) }

/-- The body that a run of the translation ends with. -/
def Body.ending (ctx : Context) (param : Span) : Except Defect (List Stmt × Progress) →
    Except BodyError Body
  | .error d => .error (.defect d)
  | .ok (code, progress) =>
    match progress.diagnostics, ctx.localNames[Model.paramId]? with
    | [], some threadIds =>
      .ok { code, threadIds, captureNames := ctx.captureNames, statics := progress.statics }
    | [], none => .error (.defect (.undeclared param))
    | diagnostics, _ => .error (.unnamedTypes diagnostics)

theorem Body.of_eq_ending (body : CheckedBody) (table : TypeTable) :
    Body.of body table = Body.ending (Context.of body table) body.closure.param.span
      ((Lower.block (Context.of body table) body.closure.body).run (Progress.of body)) := rfl

theorem Body.ending_renumber (f : Nat → Nat) (ctx : Context) (statics : List StaticDecl)
    (param : Span) (run : Except Defect (List Stmt × Progress)) :
    Body.ending (ctx.reorder f statics) param (run.map fun r => (r.1, r.2.renumber f)) =
      (Body.ending ctx param run).map (Body.renumber f) := by
  cases run with
  | error d => rfl
  | ok r =>
    obtain ⟨code, pool, uses, diagnostics⟩ := r
    show Body.ending ctx param (.ok (code, ⟨pool, uses.map (StaticUse.renumber f), diagnostics⟩)) = _
    unfold Body.ending
    cases diagnostics with
    | nil => cases ctx.localNames[Model.paramId]? <;> rfl
    | cons d ds => rfl

variable {f : Equiv.Perm Nat} {catalog' : Catalog} {body : CheckedBody}

/-- The body that comes of the statics in another order has other numbers for them and is the same
otherwise. -/
theorem Body.of_reorder (hr : body.catalog.Reorders f catalog') (table : TypeTable) :
    Body.of (body.reorder f catalog') table = (Body.of body table).map (Body.renumber f) := by
  obtain ⟨fields, statics⟩ := catalog'
  obtain rfl : fields = body.catalog.fields := hr.fields
  have hrun : Lower.Renumbers f (Lower.block (Context.of body table) body.closure.body) _ :=
    Lower.block_renumbers hr.statics _
  rw [Body.of_eq_ending body, ← Body.ending_renumber f _ statics, Body.of_eq_ending]
  exact congrArg (Body.ending _ _) (hrun (Progress.of body))

/-- Whether two results of the translation are the same failure, or bodies with the same text, the same
identifiers and the same statics in the same order, the paths and types of which are those of their
declarations. The statics may have different numbers. -/
inductive SameBody : Except BodyError Body → Except BodyError Body → Prop where
  | error {e} : SameBody (.error e) (.error e)
  | ok {b b' : Body} : b.text = b'.text → b.threadIds = b'.threadIds →
      b.captureNames = b'.captureNames → b.statics.map (·.name) = b'.statics.map (·.name) →
      b.statics.map (·.decl) = b'.statics.map (·.decl) → SameBody (.ok b) (.ok b')

theorem sameBody_map_renumber (f : Nat → Nat) (r : Except BodyError Body) :
    SameBody r (r.map (Body.renumber f)) := by
  cases r with
  | error e => exact .error
  | ok b =>
    refine .ok rfl rfl rfl ?_ ?_
    · rw [Body.renumber, List.map_map]
      rfl
    · rw [Body.renumber, List.map_map]
      rfl

/-- In which order a catalog lists the statics makes no difference: a kernel is accepted with one order if
it is with the other, and then it has the same body. -/
theorem sameBody_of_perm {statics statics' : List StaticDecl} (h : statics.Perm statics')
    (kernel source : String) (fields : List FieldDecl) :
    ((CheckedBody.of kernel source ⟨fields, statics⟩).isOk ↔
      (CheckedBody.of kernel source ⟨fields, statics'⟩).isOk) ∧
    ∀ body body', CheckedBody.of kernel source ⟨fields, statics⟩ = .ok body →
      CheckedBody.of kernel source ⟨fields, statics'⟩ = .ok body' →
      ∀ table, SameBody (Body.of body table) (Body.of body' table) := by
  obtain ⟨f, hr⟩ := Catalog.exists_reorders fields h
  obtain ⟨g, hr'⟩ := Catalog.exists_reorders fields h.symm
  refine ⟨⟨fun hok => ?_, fun hok => ?_⟩, fun body body' hbody hbody' table => ?_⟩
  · obtain ⟨body, hbody⟩ := exists_of_isOk hok
    rw [CheckedBody.of_reorders hr hbody]
    rfl
  · obtain ⟨body, hbody⟩ := exists_of_isOk hok
    rw [CheckedBody.of_reorders hr' hbody]
    rfl
  · obtain rfl := Except.ok.inj ((CheckedBody.of_reorders hr hbody).symm.trans hbody')
    obtain ⟨hcatalog, -⟩ := CheckedBody.read_and_bound hbody
    rw [Body.of_reorder (hcatalog ▸ hr)]
    exact sameBody_map_renumber f _

/-- A kernel with a static that is named by the end of its path and one that shares its last segment. -/
def blend : String :=
  "|ids| \x7b let x = Params::gain; if x > limit \x7b out[ids.x] = other::gain; \x7d \x7d"

def blendStatics : List StaticDecl :=
  [{ path := "app::other::gain", type := "f32" }, { path := "app::limit", type := "f32" },
    { path := "app::Params::gain", type := "f32" }]

theorem sameBody_of_perm_blend :
    ∃ body body' b b', CheckedBody.of "Blend" blend ⟨[⟨"out", "ReadWriteBuffer<f32>", false⟩],
        blendStatics⟩ = .ok body ∧
      CheckedBody.of "Blend" blend ⟨[⟨"out", "ReadWriteBuffer<f32>", false⟩],
        blendStatics.reverse⟩ = .ok body' ∧
      Body.of body .hlsl = .ok b ∧ Body.of body' .hlsl = .ok b' ∧
      b.statics.map (·.index) = [2, 1, 0] ∧ b'.statics.map (·.index) = [0, 1, 2] ∧
      SameBody (.ok b) (.ok b') := by
  have hrun : ((CheckedBody.of "Blend" blend ⟨[⟨"out", "ReadWriteBuffer<f32>", false⟩],
      blendStatics⟩).toOption.any fun body =>
        (CheckedBody.of "Blend" blend ⟨[⟨"out", "ReadWriteBuffer<f32>", false⟩],
          blendStatics.reverse⟩).toOption.any fun body' =>
            (Body.of body .hlsl).toOption.any fun b => (Body.of body' .hlsl).toOption.any fun b' =>
              b.statics.map (·.index) = [2, 1, 0] ∧ b'.statics.map (·.index) = [0, 1, 2]) = true := by
    decide +kernel
  obtain ⟨body, hbody, hrun⟩ := (Option.any_eq_true _ _).mp hrun
  obtain ⟨body', hbody', hrun⟩ := (Option.any_eq_true _ _).mp hrun
  obtain ⟨b, hb, hrun⟩ := (Option.any_eq_true _ _).mp hrun
  obtain ⟨b', hb', hrun⟩ := (Option.any_eq_true _ _).mp hrun
  obtain ⟨hindexes, hindexes'⟩ := of_decide_eq_true hrun
  have hsame := (sameBody_of_perm (List.reverse_perm blendStatics).symm "Blend" blend
    [⟨"out", "ReadWriteBuffer<f32>", false⟩]).2 body body' (eq_ok_of_toOption hbody)
    (eq_ok_of_toOption hbody') .hlsl
  rw [eq_ok_of_toOption hb, eq_ok_of_toOption hb'] at hsame
  exact ⟨body, body', b, b', eq_ok_of_toOption hbody, eq_ok_of_toOption hbody',
    eq_ok_of_toOption hb, eq_ok_of_toOption hb', hindexes, hindexes', hsame⟩

end Shader

end ComputeKernel
