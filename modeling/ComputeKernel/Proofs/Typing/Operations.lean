import Mathlib.Data.Option.NAry
import ComputeKernel.Proofs.Typing.Completeness
import ComputeKernel.Proofs.Typing.Scoping

/-!
The operations of a check. An operation brings the values of its operands together, or takes the type of
one over. What comes of a local whose type was open when it was read depends on the operation: some settle
the local, others only take a copy of the value, of which the type is then settled apart from the local.
-/

namespace ComputeKernel

/-- The state behind a check. -/
def Checking.past {α : Type} (s : Checking) (p : Check α) : Checking := (p.run s).2

namespace Expr

/-- The expression in its parentheses. -/
def core : Expr → Expr
  | .paren _ e => e.core
  | e => e

/-- The names that an open value has its type from. -/
def sources : Expr → List String
  | .name _ text => [text]
  | .paren _ e | .unary _ _ e => e.sources
  | .binary _ op l r => if op.isShift then l.sources else l.sources ++ r.sources
  | .choice _ _ yes no => yes.sources ++ no.sources
  | _ => []

end Expr

/-- The decision behind a coercion. -/
instance Typed.decidableFits (t : Typed) (target : Ty) : Decidable (t.Fits target) :=
  decidable_of_iff
    (t.type = target ∨ (t.family.any fun f => target.kind?.any fun k =>
      target == .scalar k && f.accepts k) = true) <| by
    simp only [Typed.Fits, Option.any_eq_true, Bool.and_eq_true, beq_iff_eq]
    refine or_congr_right ⟨?_, ?_⟩
    · rintro ⟨f, hf, k, _, rfl, haccepts⟩
      exact ⟨f, k, hf, rfl, haccepts⟩
    · rintro ⟨f, k, hf, rfl, haccepts⟩
      exact ⟨f, hf, k, rfl, rfl, haccepts⟩

namespace Check

open Shader (intrinsic?)

/-! ### Operations -/

/-- A value that an operation is applied to. -/
structure Operand where
  value : Typed
  /-- The range of the expression in its parentheses. -/
  span : Span
  /-- The locals that an open value has its type from. -/
  locals : List Nat

/-- The operand that an expression is, of which the value was found from a state. -/
def Operand.of (s : Checking) (e : Expr) (t : Typed) : Operand where
  value := t
  span := e.core.span
  locals := if t.family.isSome then e.sources.filterMap s.find? else []

inductive Operation where
  | unary (op : UnaryOp) (operand : Operand)
  | binary (op : BinaryOp) (left right : Operand)
  | choice (yes no : Operand)
  | method (receiver : Operand) (args : List Operand) (type : Ty)
  | call (callee : Path) (args : List Operand) (type : Ty)
  /-- A declaration with a type. -/
  | annotated (type : Ty) (value : Operand)
  /-- A declaration of the local `id` without a type. -/
  | inferred (id : Nat) (value : Operand)
  /-- The range of the counter `id`. -/
  | range (id : Nat) (start stop : Operand)
  | assign (op : Option BinaryOp) (place value : Operand)

/-- An operation, and the state that it leaves behind. -/
structure Applied where
  operation : Operation
  state : Checking

/-- The use of an open local that an operand is, if it is one. -/
def Operand.use (o : Operand) : List Span := if o.value.origin.isSome then [o.span] else []

/-- The uses in two values that come together. They settle no local if both are open. -/
def copiesOf (a b : Operand) : List Span :=
  if a.value.family.isSome && b.value.family.isSome then a.use ++ b.use else []

/-- Whether an operator is a shift of scalars. It takes over the type of the left one. -/
def shiftsScalar (op : BinaryOp) (l r : Operand) : Bool :=
  op.isShift && ! l.value.type.isAggregate && ! r.value.type.isAggregate

theorem isShift_of_shiftsScalar {op : BinaryOp} {l r : Operand} (h : shiftsScalar op l r) :
    op.isShift := by
  simp only [shiftsScalar, Bool.and_eq_true] at h
  exact h.1.1

theorem shiftsScalar_of_scalars {op : BinaryOp} {l r : Operand} {k k' : ScalarKind} (hop : op.isShift)
    (hl : l.value.type = .scalar k) (hr : r.value.type = .scalar k') : shiftsScalar op l r := by
  rw [shiftsScalar, hop, hl, hr]
  rfl

/-- Uses of open locals that an operation takes a copy of, so that it does not settle the local. -/
def Operation.copies : Operation → List Span
  | .unary _ e | .inferred _ e => e.use
  | .binary op l r | .assign (some op) l r => if shiftsScalar op l r then l.use else copiesOf l r
  | .choice l r | .range _ l r => copiesOf l r
  | .call callee args _ =>
    if (intrinsic? callee.last).any fun i => i.result = .product then args.flatMap Operand.use else []
  | .assign none place value => if value.value.Fits place.value.type then place.use else []
  | .method .. | .annotated .. => []

/-! ### Operations of a closure -/

/-- What a check has found for an expression. -/
def found? (catalog : Catalog) (e : Expr) (s : Checking) : Option Typed := ((expr catalog e).run s).1

/-- The operand that an expression is, if it has a value. -/
def operand? (catalog : Catalog) (e : Expr) (s : Checking) : Option Operand :=
  (found? catalog e s).map (.of s e)

def operands (catalog : Catalog) : List Expr → Checking → List Operand
  | [], _ => []
  | e :: es, s => (operand? catalog e s).toList ++ operands catalog es (s.past (expr catalog e))

/-- An operation of which the operands have values, with the state behind it. -/
def performed (operation : Option Operation) (s : Checking) : List Applied :=
  operation.toList.map (⟨·, s⟩)

/-- What the check of a condition does. -/
def condition (catalog : Catalog) (e : Expr) : Check Unit := do
  requireBool (← expr catalog e) e.span

/-- What the check of a loop with a counter does between its bounds and its body. -/
def countFrom (counter : Name) (span : Span) (lo hi : Option Typed) : Check Unit := do
  let found ← counterType lo hi span
  openScope
  match found with
  | some t => declare counter t.type false t.family
  | none => declare counter .unknown false none
  enterLoop

/-- What the check of a loop with a counter does before its body. -/
def countBetween (catalog : Catalog) (counter : Name) (start stop : Expr) : Check Unit := do
  let lo ← expr catalog start
  let hi ← expr catalog stop
  countFrom counter (start.span.merge stop.span) lo hi

/-- What the check of a closure does before its body. -/
def parameter (c : Closure) : Check Unit := do
  if let some type := c.paramType then
    if Ty.ofHost? type.type ≠ some .threadIds then
      errorWithHelp
        s!"kernel parameter must have type `ThreadIds`, found `{type.type.text}`"
        "kernel bodies are closures of the form `|ids: ThreadIds| \x7b ... \x7d`" type.span
  openScope
  declare c.param .threadIds false none

mutual

/-- The operations of an expression that is checked from a state, in the order of the check. -/
@[simp]
def exprSteps (catalog : Catalog) : Expr → Checking → List Applied
  | .literal .., _ | .name .., _ | .path .., _ | .tuple .., _ => []
  | .unary span op operand, s =>
    exprSteps catalog operand s ++
      performed ((operand? catalog operand s).map (.unary op))
        (s.past (expr catalog (.unary span op operand)))
  | .binary span op left right, s =>
    exprSteps catalog left s ++ (exprSteps catalog right (s.past (expr catalog left)) ++
      performed
        (Option.map₂ (.binary op) (operand? catalog left s)
          (operand? catalog right (s.past (expr catalog left))))
        (s.past (expr catalog (.binary span op left right))))
  | .cast _ operand _, s => exprSteps catalog operand s
  | .field _ receiver _, s => exprSteps catalog receiver s
  | .method span receiver member args, s =>
    exprSteps catalog receiver s ++ (argSteps catalog args (s.past (expr catalog receiver)) ++
      performed
        (Option.map₂
          (fun r t => .method r (operands catalog args (s.past (expr catalog receiver))) t.type)
          (operand? catalog receiver s) (found? catalog (.method span receiver member args) s))
        (s.past (expr catalog (.method span receiver member args))))
  | .call span callee calleeSpan args, s =>
    argSteps catalog args s ++
      performed
        ((found? catalog (.call span callee calleeSpan args) s).map fun t =>
          .call callee (operands catalog args s) t.type)
        (s.past (expr catalog (.call span callee calleeSpan args)))
  | .index _ base index, s =>
    exprSteps catalog base s ++ exprSteps catalog index (s.past (expr catalog base))
  | .paren _ inner, s => exprSteps catalog inner s
  | .choice span question yes no, s =>
    exprSteps catalog question s ++
      (exprSteps catalog yes (s.past (condition catalog question)) ++
        (exprSteps catalog no ((s.past (condition catalog question)).past (expr catalog yes)) ++
          performed
            (Option.map₂ .choice (operand? catalog yes (s.past (condition catalog question)))
              (operand? catalog no ((s.past (condition catalog question)).past
                (expr catalog yes))))
            (s.past (expr catalog (.choice span question yes no)))))

@[simp]
def argSteps (catalog : Catalog) : List Expr → Checking → List Applied
  | [], _ => []
  | e :: es, s => exprSteps catalog e s ++ argSteps catalog es (s.past (expr catalog e))

end

mutual

/-- The operations of a statement that is checked from a state. -/
@[simp]
def stmtSteps (catalog : Catalog) : Stmt → Checking → List Applied
  | .let _ _ _ _ none, _ | .jump .., _ => []
  | .let _ mutable name (some type) (some e), s =>
    exprSteps catalog e s ++
      performed (Option.map₂ .annotated (Ty.ofHost? type.type) (operand? catalog e s))
        (s.past (letStmt catalog mutable name (some type) (some e)))
  | .let _ mutable name none (some e), s =>
    exprSteps catalog e s ++
      performed ((operand? catalog e s).map (.inferred s.model.locals.length))
        (s.past (letStmt catalog mutable name none (some e)))
  | .assign span op place value, s =>
    exprSteps catalog place s ++ (exprSteps catalog value (s.past (expr catalog place)) ++
      performed
        (Option.map₂ (.assign op) (operand? catalog place s)
          (operand? catalog value (s.past (expr catalog place))))
        (s.past (assign catalog op place value span)))
  | .if _ question body otherwise, s =>
    exprSteps catalog question s ++
      (blockSteps catalog body (s.past (condition catalog question)) ++
        optionalSteps catalog otherwise
          ((s.past (condition catalog question)).past (block catalog body)))
  | .for _ counter start stop _ body, s =>
    exprSteps catalog start s ++ (exprSteps catalog stop (s.past (expr catalog start)) ++
      (performed
        (Option.map₂ (.range s.model.locals.length) (operand? catalog start s)
          (operand? catalog stop (s.past (expr catalog start))))
        (s.past (countBetween catalog counter start stop)) ++
          blockSteps catalog body (s.past (countBetween catalog counter start stop))))
  | .while _ question body, s =>
    exprSteps catalog question s ++
      blockSteps catalog body ((s.past (condition catalog question)).past enterLoop)
  | .loop _ body, s => blockSteps catalog body (s.past enterLoop)
  | .eval _ value, s => exprSteps catalog value s
  | .nested _ body, s => blockSteps catalog body s

@[simp]
def optionalSteps (catalog : Catalog) : Option Block → Checking → List Applied
  | none, _ => []
  | some b, s => blockSteps catalog b s

@[simp]
def blockSteps (catalog : Catalog) : Block → Checking → List Applied
  | ⟨_, body⟩, s => stmtsSteps catalog body (s.past openScope)

@[simp]
def stmtsSteps (catalog : Catalog) : List Stmt → Checking → List Applied
  | [], _ => []
  | st :: ss, s => stmtSteps catalog st s ++ stmtsSteps catalog ss (s.past (stmt catalog st))

end

/-! ### Operations of a derivation -/

variable {catalog : Catalog} {s s₁ s₂ s₃ s' : Checking} {P : Applied → Prop}

/-- An operand depends on the scopes that its expression stands in, and on nothing else of the state. -/
theorem Operand.of_congr (h : s'.scopes = s.scopes) (e : Expr) (t : Typed) :
    Operand.of s' e t = Operand.of s e t := by
  have hfind : s'.find? = s.find? := by
    funext name
    rw [Checking.find?, Checking.find?, h]
  rw [Operand.of, Operand.of, hfind]

section Derivations

variable {e : Expr} {t : Typed}

theorem Checks.found? (h : Checks catalog s (.expr e t) s') (hs : s.Sound) :
    found? catalog e s = some t := congrArg Prod.fst (h.answered hs)

theorem Checks.past (h : Checks catalog s (.expr e t) s') (hs : s.Sound) :
    s.past (expr catalog e) = s' := congrArg Prod.snd (h.answered hs)

theorem Checks.operand? (h : Checks catalog s (.expr e t) s') (hs : s.Sound) :
    operand? catalog e s = some (.of s e t) := by
  rw [Check.operand?, h.found? hs, Option.map_some]

theorem Checks.condition (h : Checks catalog s (.expr e t) s') (hbool : t.type = .bool)
    (hs : s.Sound) : s.past (condition catalog e) = s' := by
  have he : Answers (expr catalog e) s (some t) s' := h.answered hs
  exact congrArg Prod.snd (he.bind (requireBool_answers hbool e.span s'))

/-- The operands that arguments are. -/
def operandsOf (s : Checking) (es : List Expr) (ts : List Typed) : List Operand :=
  (es.zip ts).map fun (e, t) => .of s e t

theorem operandsOf_congr (h : s'.scopes = s.scopes) (es : List Expr) (ts : List Typed) :
    operandsOf s' es ts = operandsOf s es ts :=
  List.map_congr_left fun _ _ => Operand.of_congr h _ _

theorem Checks.operands {es : List Expr} {ts : List Typed} (h : Checks catalog s (.args es ts) s')
    (hs : s.Sound) : operands catalog es s = operandsOf s es ts := by
  generalize hj : Judgment.args es ts = j at h
  induction h generalizing es ts with
  | nil =>
    cases hj
    rfl
  | cons he hrest _ ih =>
    cases hj
    rw [Check.operands, he.operand? hs, he.past hs, ih (he.sound hs).2 rfl,
      operandsOf_congr he.scopes_eq]
    rfl
  | _ => cases hj

end Derivations

theorem forall_performed {o : Operation} : (∀ x ∈ performed (some o) s, P x) ↔ P ⟨o, s⟩ := by
  simp [performed]

def Judgment.steps (catalog : Catalog) (s : Checking) : Judgment → List Applied
  | .expr e _ => exprSteps catalog e s
  | .args es _ => argSteps catalog es s

section Expressions

variable {span : Span} {e l r : Expr} {t tl tr : Typed}

theorem forall_unary {op : UnaryOp} {t' : Typed} (he : Checks catalog s (.expr e t) s₁)
    (h : Checks catalog s (.expr (.unary span op e) t') s') (hs : s.Sound)
    (hP : ∀ x ∈ exprSteps catalog (.unary span op e) s, P x) :
    (∀ x ∈ exprSteps catalog e s, P x) ∧ P ⟨.unary op (.of s e t), s'⟩ := by
  rw [exprSteps, he.operand? hs, h.past hs, List.forall_mem_append] at hP
  exact hP.imp_right forall_performed.mp

theorem forall_binary {op : BinaryOp} (hl : Checks catalog s (.expr l tl) s₁)
    (hr : Checks catalog s₁ (.expr r tr) s₂) (h : Checks catalog s (.expr (.binary span op l r) t) s')
    (hs : s.Sound) (hP : ∀ x ∈ exprSteps catalog (.binary span op l r) s, P x) :
    (∀ x ∈ exprSteps catalog l s, P x) ∧ (∀ x ∈ exprSteps catalog r s₁, P x) ∧
      P ⟨.binary op (.of s l tl) (.of s r tr), s'⟩ := by
  rw [exprSteps, hl.operand? hs, hl.past hs, hr.operand? (hl.sound hs).2, h.past hs,
    Operand.of_congr hl.scopes_eq, List.forall_mem_append, List.forall_mem_append] at hP
  exact hP.imp_right (And.imp_right forall_performed.mp)

theorem forall_method {member : Name} {args : List Expr} {ts : List Typed}
    (he : Checks catalog s (.expr e tl) s₁) (hargs : Checks catalog s₁ (.args args ts) s₂)
    (h : Checks catalog s (.expr (.method span e member args) t) s') (hs : s.Sound)
    (hP : ∀ x ∈ exprSteps catalog (.method span e member args) s, P x) :
    (∀ x ∈ exprSteps catalog e s, P x) ∧ (∀ x ∈ argSteps catalog args s₁, P x) ∧
      P ⟨.method (.of s e tl) (operandsOf s args ts) t.type, s'⟩ := by
  rw [exprSteps, he.operand? hs, he.past hs, hargs.operands (he.sound hs).2, h.found? hs, h.past hs,
    operandsOf_congr he.scopes_eq, List.forall_mem_append, List.forall_mem_append] at hP
  exact hP.imp_right (And.imp_right forall_performed.mp)

theorem forall_call {callee : Path} {calleeSpan : Span} {args : List Expr} {ts : List Typed}
    (hargs : Checks catalog s (.args args ts) s₁)
    (h : Checks catalog s (.expr (.call span callee calleeSpan args) t) s') (hs : s.Sound)
    (hP : ∀ x ∈ exprSteps catalog (.call span callee calleeSpan args) s, P x) :
    (∀ x ∈ argSteps catalog args s, P x) ∧
      P ⟨.call callee (operandsOf s args ts) t.type, s'⟩ := by
  rw [exprSteps, hargs.operands hs, h.found? hs, h.past hs, List.forall_mem_append] at hP
  exact hP.imp_right forall_performed.mp

theorem forall_index {base index : Expr} (hb : Checks catalog s (.expr base tl) s₁) (hs : s.Sound)
    (hP : ∀ x ∈ (Judgment.expr (.index span base index) t).steps catalog s, P x) :
    (∀ x ∈ exprSteps catalog base s, P x) ∧ ∀ x ∈ exprSteps catalog index s₁, P x := by
  rw [Judgment.steps, exprSteps, hb.past hs] at hP
  exact List.forall_mem_append.mp hP

theorem forall_choice {question yes no : Expr} {c : Typed}
    (hc : Checks catalog s (.expr question c) s₁) (hbool : c.type = .bool)
    (hy : Checks catalog s₁ (.expr yes tl) s₂) (hn : Checks catalog s₂ (.expr no tr) s₃)
    (h : Checks catalog s (.expr (.choice span question yes no) t) s') (hs : s.Sound)
    (hP : ∀ x ∈ exprSteps catalog (.choice span question yes no) s, P x) :
    (∀ x ∈ exprSteps catalog question s, P x) ∧ (∀ x ∈ exprSteps catalog yes s₁, P x) ∧
      (∀ x ∈ exprSteps catalog no s₂, P x) ∧ P ⟨.choice (.of s yes tl) (.of s no tr), s'⟩ := by
  have hs₁ := (hc.sound hs).2
  rw [exprSteps, hc.condition hbool hs, hy.operand? hs₁, hy.past hs₁, hn.operand? (hy.sound hs₁).2,
    h.past hs, Operand.of_congr hc.scopes_eq, Operand.of_congr (hy.scopes_eq.trans hc.scopes_eq)] at hP
  simp only [List.forall_mem_append] at hP
  exact hP.imp_right (And.imp_right (And.imp_right forall_performed.mp))

theorem forall_args {es : List Expr} (he : Checks catalog s (.expr e t) s₁) (hs : s.Sound)
    (hP : ∀ x ∈ argSteps catalog (e :: es) s, P x) :
    (∀ x ∈ exprSteps catalog e s, P x) ∧ ∀ x ∈ argSteps catalog es s₁, P x := by
  rw [argSteps, he.past hs] at hP
  exact List.forall_mem_append.mp hP

end Expressions

/-! ### Operations of statements -/

def StmtJudgment.steps (catalog : Catalog) (s : Checking) : StmtJudgment → List Applied
  | .stmt st => stmtSteps catalog st s
  | .stmts sts => stmtsSteps catalog sts s
  | .block b => blockSteps catalog b s

section Statements

variable {span : Span} {mutable : Bool} {name : Name} {e place value question : Expr} {body : Block}
  {t v target found c : Typed}

theorem ChecksStmt.past {st : Stmt} (h : ChecksStmt catalog s (.stmt st) s') (hs : s.Sound) :
    s.past (stmt catalog st) = s' := congrArg Prod.snd (h.answered hs)

theorem ChecksStmt.past_block (h : ChecksStmt catalog s (.block body) s') (hs : s.Sound) :
    s.past (Check.block catalog body) = s' := congrArg Prod.snd (h.answered hs)

theorem forall_annotated {type : TypeRef} {target : Ty} (he : Checks catalog s (.expr e v) s₁)
    (hdeclares : Declares type target)
    (h : ChecksStmt catalog s (.stmt (.let span mutable name (some type) (some e))) s') (hs : s.Sound)
    (hP : ∀ x ∈ (StmtJudgment.stmt (.let span mutable name (some type) (some e))).steps catalog s, P x) :
    (∀ x ∈ exprSteps catalog e s, P x) ∧ P ⟨.annotated target (.of s e v), s'⟩ := by
  have hpast : s.past (letStmt catalog mutable name (some type) (some e)) = s' := h.past hs
  rw [StmtJudgment.steps, stmtSteps, he.operand? hs, hdeclares.1, hpast, List.forall_mem_append] at hP
  exact hP.imp_right forall_performed.mp

theorem forall_inferred (he : Checks catalog s (.expr e v) s₁)
    (h : ChecksStmt catalog s (.stmt (.let span mutable name none (some e))) s') (hs : s.Sound)
    (hP : ∀ x ∈ (StmtJudgment.stmt (.let span mutable name none (some e))).steps catalog s, P x) :
    (∀ x ∈ exprSteps catalog e s, P x) ∧
      P ⟨.inferred s.model.locals.length (.of s e v), s'⟩ := by
  have hpast : s.past (letStmt catalog mutable name none (some e)) = s' := h.past hs
  rw [StmtJudgment.steps, stmtSteps, he.operand? hs, hpast, List.forall_mem_append] at hP
  exact hP.imp_right forall_performed.mp

theorem forall_assign {op : Option BinaryOp} (hplace : Checks catalog s (.expr place target) s₁)
    (hvalue : Checks catalog s₁ (.expr value found) s₂)
    (h : ChecksStmt catalog s (.stmt (.assign span op place value)) s') (hs : s.Sound)
    (hP : ∀ x ∈ (StmtJudgment.stmt (.assign span op place value)).steps catalog s, P x) :
    (∀ x ∈ exprSteps catalog place s, P x) ∧ (∀ x ∈ exprSteps catalog value s₁, P x) ∧
      P ⟨.assign op (.of s place target) (.of s value found), s'⟩ := by
  have hpast : s.past (assign catalog op place value span) = s' := h.past hs
  rw [StmtJudgment.steps, stmtSteps, hplace.operand? hs, hplace.past hs,
    hvalue.operand? (hplace.sound hs).2, hpast, Operand.of_congr hplace.scopes_eq,
    List.forall_mem_append, List.forall_mem_append] at hP
  exact hP.imp_right (And.imp_right forall_performed.mp)

theorem forall_if {otherwise : Option Block} (hc : Checks catalog s (.expr question c) s₁)
    (hbool : c.type = .bool) (hbody : ChecksStmt catalog s₁ (.block body) s₂) (hs : s.Sound)
    (hP : ∀ x ∈ (StmtJudgment.stmt (.if span question body otherwise)).steps catalog s, P x) :
    (∀ x ∈ exprSteps catalog question s, P x) ∧ (∀ x ∈ blockSteps catalog body s₁, P x) ∧
      ∀ x ∈ optionalSteps catalog otherwise s₂, P x := by
  rw [StmtJudgment.steps, stmtSteps, hc.condition hbool hs, hbody.past_block (hc.sound hs).2,
    List.forall_mem_append, List.forall_mem_append] at hP
  exact hP

/-- The state in which the body of a loop with a counter is checked. -/
theorem past_countBetween {counter : Name} {start stop : Expr} {lo hi : Typed}
    (hstart : Checks catalog s (.expr start lo) s₁) (hstop : Checks catalog s₁ (.expr stop hi) s₂)
    (hunify : Unifies lo hi s₂ t s₃) (hinteger : t.isInteger) (hs : s.Sound) :
    s.past (countBetween catalog counter start stop) =
      (s₃.openScope.declare counter t.type false t.family).enterLoop := by
  have hlo : Answers (expr catalog start) s (some lo) s₁ := hstart.answered hs
  have hhi : Answers (expr catalog stop) s₁ (some hi) s₂ := hstop.answered (hstart.sound hs).2
  have hopen : Answers openScope s₃ ⟨⟩ s₃.openScope := rfl
  have henter (s : Checking) : Answers enterLoop s ⟨⟩ s.enterLoop := rfl
  have hcount : Answers (countFrom counter (start.span.merge stop.span) (some lo) (some hi)) s₂ ⟨⟩
      (s₃.openScope.declare counter t.type false t.family).enterLoop :=
    (counterType_answers hunify hinteger _).bind (hopen.bind
      ((declare_answers counter t.type false t.family _).bind (henter _)))
  exact congrArg Prod.snd (hlo.bind (hhi.bind hcount))

theorem forall_for {counter : Name} {start stop : Expr} {inclusive : Bool} {lo hi : Typed}
    (hstart : Checks catalog s (.expr start lo) s₁) (hstop : Checks catalog s₁ (.expr stop hi) s₂)
    (hunify : Unifies lo hi s₂ t s₃) (hinteger : t.isInteger) (hs : s.Sound)
    (hP : ∀ x ∈ (StmtJudgment.stmt (.for span counter start stop inclusive body)).steps catalog s, P x) :
    (∀ x ∈ exprSteps catalog start s, P x) ∧ (∀ x ∈ exprSteps catalog stop s₁, P x) ∧
      P ⟨.range s.model.locals.length (.of s start lo) (.of s stop hi),
        (s₃.openScope.declare counter t.type false t.family).enterLoop⟩ ∧
      ∀ x ∈ blockSteps catalog body
        (s₃.openScope.declare counter t.type false t.family).enterLoop, P x := by
  rw [StmtJudgment.steps, stmtSteps, past_countBetween hstart hstop hunify hinteger hs,
    hstart.operand? hs, hstart.past hs, hstop.operand? (hstart.sound hs).2,
    Operand.of_congr hstart.scopes_eq] at hP
  simp only [List.forall_mem_append] at hP
  exact hP.imp_right (And.imp_right (And.imp_left forall_performed.mp))

theorem forall_while (hc : Checks catalog s (.expr question c) s₁) (hbool : c.type = .bool)
    (hs : s.Sound) (hP : ∀ x ∈ (StmtJudgment.stmt (.while span question body)).steps catalog s, P x) :
    (∀ x ∈ exprSteps catalog question s, P x) ∧
      ∀ x ∈ blockSteps catalog body s₁.enterLoop, P x := by
  rw [StmtJudgment.steps, stmtSteps, hc.condition hbool hs] at hP
  exact List.forall_mem_append.mp hP

theorem forall_stmts {st : Stmt} {sts : List Stmt} (h : ChecksStmt catalog s (.stmt st) s₁)
    (hs : s.Sound) (hP : ∀ x ∈ stmtsSteps catalog (st :: sts) s, P x) :
    (∀ x ∈ stmtSteps catalog st s, P x) ∧ ∀ x ∈ stmtsSteps catalog sts s₁, P x := by
  rw [stmtsSteps, h.past hs] at hP
  exact List.forall_mem_append.mp hP

end Statements

end Check

/-- The operations of a closure, in the order of its check. -/
def Closure.steps (c : Closure) (catalog : Catalog) : List Check.Applied :=
  Check.blockSteps catalog c.body (Checking.past {} (Check.parameter c))

/-- The operations of a closure whose parameter is the index of a thread. -/
theorem Closure.steps_eq {c : Closure} (h : ∀ type ∈ c.paramType, Ty.ofHost? type.type = some .threadIds)
    (catalog : Catalog) : c.steps catalog = Check.blockSteps catalog c.body
      (({} : Checking).openScope.declare c.param .threadIds false none) := by
  have hpast : Checking.past {} (Check.parameter c) =
      ({} : Checking).openScope.declare c.param .threadIds false none := by
    unfold Check.parameter
    cases hp : c.paramType with
    | none => rfl
    | some type =>
      dsimp only
      rw [if_neg (not_not_intro (h type (by rw [hp]; rfl)))]
      rfl
  rw [steps, hpast]

end ComputeKernel
