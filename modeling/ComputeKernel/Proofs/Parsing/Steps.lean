import ComputeKernel.Closure.Parse
import ComputeKernel.Proofs.Parsing.Run
import ComputeKernel.Proofs.Walks

/-!
Readings as walks. Whatever the tokens are, a reading moves the cursor over them, splits a `>>`, counts
what is open and reports faults of the token that it stands at, and does nothing else.
-/

namespace ComputeKernel

/-- What a cursor becomes in one elementary step of a reading. -/
inductive Cursor.Step (c : Cursor) : Cursor → Prop where
  | advance : Step c c.advance
  | skipUntil (stop : Lexeme → Bool) : Step c (c.skipUntil stop)
  | splitShift : c.lexeme = .symbol .shr → Step c c.splitShift
  | deeper : Step c c.deeper
  | shallower : Step c c.shallower
  | report (d : Diagnostic) : d.span = c.here →
      Step c { c with diagnostics := c.diagnostics ++ [d] }

namespace Parse

open Cursor (Step)

variable {α : Type}

/-! ### Tokens -/

instance : Walks Step lexeme := .of_still fun _ => rfl

instance : Walks Step here := .of_still fun _ => rfl

instance : Walks Step behind := .of_still fun _ => rfl

instance (l : Lexeme) : Walks Step (at? l) := .of_still fun _ => rfl

instance (s : Symbol) : Walks Step (atSymbol s) := .of_still fun _ => rfl

instance (k : Keyword) : Walks Step (atKeyword k) := .of_still fun _ => rfl

instance : Walks Step advance := .of_step fun _ => .advance

instance (stop : Lexeme → Bool) : Walks Step (skipUntil stop) := .of_step fun _ => .skipUntil stop

instance : Walks Step leave := .of_step fun _ => .shallower

instance (message : String) : Walks Step (fault message) :=
  .of_step fun c => .report (.error message c.here) rfl

instance (message help : String) : Walks Step (faultWithHelp message help) :=
  .of_step fun c => .report ((Diagnostic.error message c.here).withHelp help) rfl

instance : Walks Step outOfSteps := inferInstanceAs (Walks Step (fault _))

instance (l : Lexeme) : Walks Step (eat l) := by
  unfold eat
  infer_instance

instance (s : Symbol) : Walks Step (eatSymbol s) := inferInstanceAs (Walks Step (eat _))

instance (l : Lexeme) : Walks Step (expect l) := by
  unfold expect
  infer_instance

instance (s : Symbol) : Walks Step (expectSymbol s) := inferInstanceAs (Walks Step (expect _))

instance (k : Keyword) : Walks Step (expectKeyword k) := inferInstanceAs (Walks Step (expect _))

instance : Walks Step identifier :=
  .seq inferInstance fun _ => .seq inferInstance fun l => by cases l <;> infer_instance

instance : Walks Step enter := .seq (.of_step fun _ => .deeper) inferInstance

/-! ### Types -/

instance (fuel : Nat) : Walks Step (pathTail fuel) := by
  induction fuel with
  | zero =>
    unfold pathTail
    infer_instance
  | succ fuel ih =>
    unfold pathTail
    infer_instance

/-- A `>>` is split where there is one. -/
instance : Walks Step closeAngle := by
  refine ⟨fun c => ?_⟩
  have hrun : closeAngle.run c = StateT.run
      (match c.lexeme with
        | .symbol .shr => (modify Cursor.splitShift : Parse Unit)
        | _ => discard (expectSymbol .gt)) c := rfl
  rw [hrun]
  split
  · rename_i hshift
    exact .single (.splitShift hshift)
  · exact Walks.run c

theorem types_walk (fuel : Nat) : Walks Step (typeRef fuel) ∧ Walks Step (typeArgs fuel) := by
  induction fuel with
  | zero =>
    rw [typeRef, typeArgs]
    exact ⟨inferInstance, inferInstance⟩
  | succ fuel ih =>
    obtain ⟨_, _⟩ := ih
    rw [typeRef, typeArgs]
    exact ⟨inferInstance, inferInstance⟩

instance (fuel : Nat) : Walks Step (typeRef fuel) := (types_walk fuel).1

/-! ### Expressions -/

instance : Walks Step memberName :=
  .seq inferInstance fun l => by cases l <;> infer_instance

/-- That the readings of expressions with `fuel` steps walk. -/
structure ExpressionsWalk (fuel : Nat) : Prop where
  expression (floor : Nat) : Walks Step (expression fuel floor)
  operators (floor : Nat) (left : Expr) : Walks Step (operators fuel floor left)
  operand : Walks Step (operand fuel)
  members (receiver : Expr) : Walks Step (members fuel receiver)
  primary : Walks Step (primary fuel)
  parenthesized : Walks Step (parenthesized fuel)
  tupleItems : Walks Step (tupleItems fuel)
  conditional : Walks Step (conditional fuel)
  branch : Walks Step (branch fuel)
  arguments : Walks Step (arguments fuel)
  argumentItems : Walks Step (argumentItems fuel)

theorem ExpressionsWalk.zero : ExpressionsWalk 0 where
  expression _ := by rw [Parse.expression]; infer_instance
  operators _ _ := by rw [Parse.operators]; infer_instance
  operand := by rw [Parse.operand]; infer_instance
  members _ := by rw [Parse.members]; infer_instance
  primary := by rw [Parse.primary]; infer_instance
  parenthesized := by rw [Parse.parenthesized]; infer_instance
  tupleItems := by rw [Parse.tupleItems]; infer_instance
  conditional := by rw [Parse.conditional]; infer_instance
  branch := by rw [Parse.branch]; infer_instance
  arguments := by rw [Parse.arguments]; infer_instance
  argumentItems := by rw [Parse.argumentItems]; infer_instance

namespace ExpressionsWalk

variable {fuel : Nat} (ih : ExpressionsWalk fuel)

include ih

theorem operators_succ (floor : Nat) (left : Expr) :
    Walks Step (Parse.operators (fuel + 1) floor left) := by
  have := ih.expression
  have := ih.operators
  rw [Parse.operators]
  refine .seq inferInstance fun l => ?_
  split
  · infer_instance
  · split <;> infer_instance
  · infer_instance

theorem operand_succ : Walks Step (Parse.operand (fuel + 1)) := by
  have := ih.operand
  have := ih.primary
  have := ih.members
  rw [Parse.operand]
  refine .seq inferInstance fun _ => .seq inferInstance fun l => ?_
  split <;> infer_instance

theorem members_succ (receiver : Expr) : Walks Step (Parse.members (fuel + 1) receiver) := by
  have := ih.expression
  have := ih.members
  have := ih.arguments
  rw [Parse.members]
  refine .seq inferInstance fun l => ?_
  split <;> infer_instance

theorem primary_succ : Walks Step (Parse.primary (fuel + 1)) := by
  have := ih.arguments
  have := ih.parenthesized
  have := ih.conditional
  rw [Parse.primary]
  refine .seq inferInstance fun _ => .seq inferInstance fun l => ?_
  split <;> infer_instance

theorem succ : ExpressionsWalk (fuel + 1) := by
  have := ih.expression
  have := ih.operand
  have := ih.operators
  have := ih.tupleItems
  have := ih.conditional
  have := ih.branch
  have := ih.argumentItems
  refine
    { expression := fun floor => ?_
      operators := ih.operators_succ
      operand := ih.operand_succ
      members := ih.members_succ
      primary := ih.primary_succ
      parenthesized := ?_
      tupleItems := ?_
      conditional := ?_
      branch := ?_
      arguments := ?_
      argumentItems := ?_ }
  · rw [Parse.expression]; infer_instance
  · rw [Parse.parenthesized]; infer_instance
  · rw [Parse.tupleItems]; infer_instance
  · rw [Parse.conditional]; infer_instance
  · rw [Parse.branch]; infer_instance
  · rw [Parse.arguments]; infer_instance
  · rw [Parse.argumentItems]; infer_instance

end ExpressionsWalk

theorem expressionsWalk (fuel : Nat) : ExpressionsWalk fuel := by
  induction fuel with
  | zero => exact .zero
  | succ fuel ih => exact ih.succ

instance (fuel floor : Nat) : Walks Step (expression fuel floor) :=
  (expressionsWalk fuel).expression floor

instance (fuel floor : Nat) (left : Expr) : Walks Step (operators fuel floor left) :=
  (expressionsWalk fuel).operators floor left

instance (fuel : Nat) : Walks Step (operand fuel) := (expressionsWalk fuel).operand

instance (fuel : Nat) (receiver : Expr) : Walks Step (members fuel receiver) :=
  (expressionsWalk fuel).members receiver

instance (fuel : Nat) : Walks Step (tupleItems fuel) := (expressionsWalk fuel).tupleItems

instance (fuel : Nat) : Walks Step (conditional fuel) := (expressionsWalk fuel).conditional

instance (fuel : Nat) : Walks Step (branch fuel) := (expressionsWalk fuel).branch

instance (fuel : Nat) : Walks Step (argumentItems fuel) := (expressionsWalk fuel).argumentItems

/-! ### Statements -/

/-- Behind the expression that a statement begins with. -/
theorem assignment_walks (fuel : Nat) (assign? : Option (Option BinaryOp)) (first : Expr) :
    Walks Step (do
      match assign? with
      | some op =>
        advance
        let value ← expression fuel 0
        return .assign (first.span.merge value.span) op first value
      | none => return .eval first.span first : Parse Stmt) := by
  split <;> infer_instance

instance (fuel : Nat) (isBody : Bool) : Walks Step (simpleStmt fuel isBody) :=
  .seq inferInstance fun first => .seq inferInstance fun _ =>
    .seq (assignment_walks fuel _ first) inferInstance

instance (fuel : Nat) : Walks Step (letStmt fuel) := by
  refine .seq inferInstance fun _ => .seq inferInstance fun _ => .seq inferInstance fun _ => ?_
  infer_instance

instance (kind : Jump) : Walks Step (jumpStmt kind) := by
  unfold jumpStmt
  infer_instance

/-- That the readings of statements with `fuel` steps walk. -/
structure StatementsWalk (fuel : Nat) : Prop where
  block : Walks Step (block fuel)
  statements : Walks Step (statements fuel)
  statement : Walks Step (statement fuel)
  ifStmt : Walks Step (ifStmt fuel)
  forStmt : Walks Step (forStmt fuel)

theorem StatementsWalk.zero : StatementsWalk 0 where
  block := by rw [Parse.block]; infer_instance
  statements := by rw [Parse.statements]; infer_instance
  statement := by rw [Parse.statement]; infer_instance
  ifStmt := by rw [Parse.ifStmt]; infer_instance
  forStmt := by rw [Parse.forStmt]; infer_instance

theorem StatementsWalk.succ {fuel : Nat} (ih : StatementsWalk fuel) : StatementsWalk (fuel + 1) := by
  have := ih.block
  have := ih.statements
  have := ih.statement
  have := ih.ifStmt
  have := ih.forStmt
  refine ⟨?_, ?_, ?_, ?_, ?_⟩
  · rw [Parse.block]; infer_instance
  · rw [Parse.statements]; infer_instance
  · rw [Parse.statement]
    refine .seq inferInstance fun _ => .seq inferInstance fun l => ?_
    split <;> infer_instance
  · rw [Parse.ifStmt]
    exact .seq inferInstance fun _ => .seq inferInstance fun _ => inferInstance
  · rw [Parse.forStmt]
    exact .seq inferInstance fun _ => .seq inferInstance fun _ => .seq inferInstance fun _ => inferInstance

theorem statementsWalk (fuel : Nat) : StatementsWalk fuel := by
  induction fuel with
  | zero => exact .zero
  | succ fuel ih => exact ih.succ

instance (fuel : Nat) : Walks Step (block fuel) := (statementsWalk fuel).block

instance (fuel : Nat) : Walks Step (statements fuel) := (statementsWalk fuel).statements

instance (fuel : Nat) : Walks Step (ifStmt fuel) := (statementsWalk fuel).ifStmt

/-! ### Closures -/

instance (fuel : Nat) : Walks Step (closureBody fuel) := by
  unfold closureBody
  infer_instance

instance (fuel : Nat) : Walks Step (closureFromParam fuel) := by
  refine .seq inferInstance fun _ => .seq inferInstance fun _ => .seq inferInstance fun _ => ?_
  split <;> infer_instance

/-- The reading of a closure walks. -/
theorem closure_walks (fuel : Nat) : Walks Step (closure fuel) := by
  refine .seq inferInstance fun _ => .seq inferInstance fun l => ?_
  split <;> infer_instance

end Parse

end ComputeKernel
