import ComputeKernel.Closure.Parse
import ComputeKernel.Proofs.Spacing.Cursor

/-!
Reading the same lexemes from two sources. The ranges of the tokens are copied into the tree and into
diagnostics, and nothing that is read depends on them, faults and what is read behind them included.
-/

namespace ComputeKernel

namespace Parse

/-! ### Types -/

theorem pathTail_paired (fuel : Nat) :
    Paired Cursor.Alike Eq (pathTail fuel) (pathTail fuel) := by
  induction fuel with
  | zero => exact outOfSteps_paired.seq (Paired.pure rfl)
  | succ fuel ih =>
    refine (eatSymbol_paired .colonColon).bind_eq fun found => ?_
    cases found with
    | true =>
      refine identifier_paired.bind fun segment segment' hsegment => ih.bind_eq fun rest => ?_
      exact Paired.pure (congrArg (· :: rest) hsegment)
    | false => exact Paired.pure rfl

theorem closeAngle_paired : Paired Cursor.Alike Eq closeAngle closeAngle := by
  refine lexeme_paired.bind_eq fun l => ?_
  split
  · exact splitShift_paired
  · exact passSymbol_paired .gt

theorem types_paired (fuel : Nat) :
    Paired Cursor.Alike TypeRef.Alike (typeRef fuel) (typeRef fuel) ∧
      Paired Cursor.Alike Eq (typeArgs fuel) (typeArgs fuel) := by
  induction fuel with
  | zero =>
    refine ⟨outOfSteps_paired.seq (here_paired.bind fun _ _ _ => ?_),
      outOfSteps_paired.seq (Paired.pure rfl)⟩
    exact Paired.pure rfl
  | succ fuel ih =>
    obtain ⟨ihtype, ihargs⟩ := ih
    constructor
    · refine here_paired.bind fun _ _ _ => identifier_paired.bind fun first first' hfirst =>
        (pathTail_paired fuel).bind_eq fun rest => ?_
      have hargs : Paired Cursor.Alike Eq (do
          if ← eatSymbol .lt then
            let args ← typeArgs fuel
            closeAngle
            return args
          else
            return [] : Parse (List HostType)) (do
          if ← eatSymbol .lt then
            let args ← typeArgs fuel
            closeAngle
            return args
          else
            return [] : Parse (List HostType)) := by
        refine (eatSymbol_paired .lt).bind_eq fun found => ?_
        cases found with
        | true => exact ihargs.bind_eq fun args => closeAngle_paired.seq (Paired.pure rfl)
        | false => exact Paired.pure rfl
      refine hargs.bind_eq fun args => behind_paired.bind fun _ _ _ => Paired.pure ?_
      show HostType.mk _ _ = HostType.mk _ _
      rw [show first.text = first'.text from hfirst]
    · refine ihtype.bind fun arg arg' harg => (eatSymbol_paired .comma).bind_eq fun found => ?_
      have htype : arg.type = arg'.type := harg
      rw [htype]
      cases found with
      | true => exact ihargs.bind_eq fun rest => Paired.pure rfl
      | false => exact Paired.pure rfl

theorem typeRef_paired (fuel : Nat) :
    Paired Cursor.Alike TypeRef.Alike (typeRef fuel) (typeRef fuel) := (types_paired fuel).1

/-! ### Expressions -/

theorem memberName_paired : Paired Cursor.Alike Name.Alike memberName memberName := by
  refine lexeme_paired.bind_eq fun l => ?_
  split
  · exact (faultWithHelp_paired _ _).seq (here_paired.bind fun _ _ _ =>
      advance_paired.seq (Paired.pure rfl))
  · exact identifier_paired

theorem missingExpr_paired : Paired Cursor.Alike Expr.Alike
    (do return missingExpr (← here) : Parse Expr) (do return missingExpr (← here)) :=
  here_paired.bind fun _ _ _ => Paired.pure (.name trivial)

/-- What two readings of the same lexemes have in common, with `fuel` steps each. -/
structure ExpressionsPaired (fuel : Nat) : Prop where
  expression : ∀ floor,
    Paired Cursor.Alike Expr.Alike (expression fuel floor) (expression fuel floor)
  operators : ∀ floor left left', left.Alike left' →
    Paired Cursor.Alike Expr.Alike (operators fuel floor left) (operators fuel floor left')
  operand : Paired Cursor.Alike Expr.Alike (operand fuel) (operand fuel)
  members : ∀ receiver receiver', receiver.Alike receiver' →
    Paired Cursor.Alike Expr.Alike (members fuel receiver) (members fuel receiver')
  primary : Paired Cursor.Alike Expr.Alike (primary fuel) (primary fuel)
  parenthesized : Paired Cursor.Alike Expr.Alike (parenthesized fuel) (parenthesized fuel)
  tupleItems : Paired Cursor.Alike Expr.AllAlike (tupleItems fuel) (tupleItems fuel)
  conditional : Paired Cursor.Alike Expr.Alike (conditional fuel) (conditional fuel)
  branch : Paired Cursor.Alike Expr.Alike (branch fuel) (branch fuel)
  arguments : Paired Cursor.Alike Expr.AllAlike (arguments fuel) (arguments fuel)
  argumentItems : Paired Cursor.Alike Expr.AllAlike (argumentItems fuel) (argumentItems fuel)

theorem ExpressionsPaired.zero : ExpressionsPaired 0 where
  expression _ := outOfSteps_paired.seq missingExpr_paired
  operators _ _ _ h := outOfSteps_paired.seq (Paired.pure h)
  operand := outOfSteps_paired.seq missingExpr_paired
  members _ _ h := outOfSteps_paired.seq (Paired.pure h)
  primary := outOfSteps_paired.seq missingExpr_paired
  parenthesized := outOfSteps_paired.seq missingExpr_paired
  tupleItems := outOfSteps_paired.seq (Paired.pure .noExprs)
  conditional := outOfSteps_paired.seq missingExpr_paired
  branch := outOfSteps_paired.seq missingExpr_paired
  arguments := outOfSteps_paired.seq (Paired.pure .noExprs)
  argumentItems := outOfSteps_paired.seq (Paired.pure .noExprs)

namespace ExpressionsPaired

variable {fuel : Nat} (ih : ExpressionsPaired fuel)

include ih

theorem expression_succ (floor : Nat) : Paired Cursor.Alike Expr.Alike
    (Parse.expression (fuel + 1) floor) (Parse.expression (fuel + 1) floor) := by
  refine enter_paired.bind_eq fun opened => ?_
  cases opened with
  | true =>
    refine ih.operand.bind fun first first' hfirst =>
      (ih.operators floor first first' hfirst).bind fun whole whole' hwhole => ?_
    exact leave_paired.seq (Paired.pure hwhole)
  | false =>
    exact here_paired.bind fun _ _ _ => (skipUntil_paired _).seq (Paired.pure (.name trivial))

theorem operators_succ (floor : Nat) {left left' : Expr} (hleft : left.Alike left') :
    Paired Cursor.Alike Expr.Alike (Parse.operators (fuel + 1) floor left)
      (Parse.operators (fuel + 1) floor left') := by
  refine lexeme_paired.bind_eq fun l => ?_
  split
  · refine advance_paired.seq ((typeRef_paired fuel).bind fun type type' htype => ?_)
    exact ih.operators floor _ _ (.cast trivial hleft htype)
  · split
    · exact Paired.pure hleft
    · split
      · exact Paired.pure hleft
      · refine advance_paired.seq ((ih.expression _).bind fun right right' hright => ?_)
        exact ih.operators floor _ _ (.binary trivial hleft hright)
  · exact Paired.pure hleft

theorem operand_succ : Paired Cursor.Alike Expr.Alike
    (Parse.operand (fuel + 1)) (Parse.operand (fuel + 1)) := by
  refine here_paired.bind fun _ _ _ => lexeme_paired.bind_eq fun l => ?_
  split
  · exact advance_paired.seq (ih.operand.bind fun _ _ hinner => Paired.pure (.unary trivial hinner))
  · exact advance_paired.seq (ih.operand.bind fun _ _ hinner => Paired.pure (.unary trivial hinner))
  · exact ih.primary.bind fun first first' hfirst => ih.members first first' hfirst

theorem members_succ {receiver receiver' : Expr} (hreceiver : receiver.Alike receiver') :
    Paired Cursor.Alike Expr.Alike (Parse.members (fuel + 1) receiver)
      (Parse.members (fuel + 1) receiver') := by
  refine lexeme_paired.bind_eq fun l => ?_
  split
  · refine advance_paired.seq (memberName_paired.bind fun member member' hmember =>
      (atSymbol_paired .lparen).bind_eq fun found => ?_)
    cases found with
    | true =>
      refine ih.arguments.bind fun args args' hargs => behind_paired.bind fun _ _ _ => ?_
      exact ih.members _ _ (.method trivial hreceiver hmember hargs)
    | false => exact ih.members _ _ (.field trivial hreceiver hmember)
  · refine advance_paired.seq ((ih.expression 0).bind fun index index' hindex =>
      (passSymbol_paired .rbracket).seq (behind_paired.bind fun _ _ _ => ?_))
    exact ih.members _ _ (.index trivial hreceiver hindex)
  · refine (faultWithHelp_paired _ _).seq (ih.arguments.discard.seq ?_)
    exact ih.members _ _ hreceiver
  · exact Paired.pure hreceiver

theorem primary_succ : Paired Cursor.Alike Expr.Alike
    (Parse.primary (fuel + 1)) (Parse.primary (fuel + 1)) := by
  refine here_paired.bind fun _ _ _ => lexeme_paired.bind_eq fun l => ?_
  split
  · exact advance_paired.seq (Paired.pure (.literal trivial))
  · exact advance_paired.seq (Paired.pure (.literal trivial))
  · exact advance_paired.seq (Paired.pure (.literal trivial))
  · exact advance_paired.seq (Paired.pure (.literal trivial))
  · refine advance_paired.seq ((pathTail_paired fuel).bind_eq fun rest =>
      behind_paired.bind fun _ _ _ => (atSymbol_paired .lparen).bind_eq fun found => ?_)
    cases found with
    | true =>
      refine ih.arguments.bind fun args args' hargs => behind_paired.bind fun _ _ _ => ?_
      exact Paired.pure (.call trivial hargs)
    | false =>
      rw [if_neg Bool.false_ne_true, if_neg Bool.false_ne_true]
      split
      · exact Paired.pure (.name trivial)
      · exact Paired.pure (.path trivial)
  · exact ih.parenthesized
  · exact ih.conditional
  · refine (fault_paired _).seq ?_
    split
    · exact advance_paired.seq (Paired.pure (.name trivial))
    · exact Paired.pure (.name trivial)

theorem parenthesized_succ : Paired Cursor.Alike Expr.Alike
    (Parse.parenthesized (fuel + 1)) (Parse.parenthesized (fuel + 1)) := by
  refine (expectSymbol_paired .lparen).bind fun _ _ _ =>
    (atSymbol_paired .rparen).bind_eq fun atOnce => ?_
  cases atOnce with
  | true =>
    exact (fault_paired _).seq ((expectSymbol_paired .rparen).bind fun _ _ _ =>
      Paired.pure (.tuple trivial .noExprs))
  | false =>
    refine (ih.expression 0).bind fun first first' hfirst =>
      (atSymbol_paired .rparen).bind_eq fun alone => ?_
    cases alone with
    | true =>
      exact (expectSymbol_paired .rparen).bind fun _ _ _ => Paired.pure (.paren trivial hfirst)
    | false =>
      refine ih.tupleItems.bind fun rest rest' hrest =>
        (expectSymbol_paired .rparen).bind fun _ _ _ => ?_
      exact Paired.pure (.tuple trivial (.moreExprs hfirst hrest))

theorem tupleItems_succ : Paired Cursor.Alike Expr.AllAlike
    (Parse.tupleItems (fuel + 1)) (Parse.tupleItems (fuel + 1)) := by
  refine (eatSymbol_paired .comma).bind_eq fun found => ?_
  cases found with
  | true =>
    refine (atSymbol_paired .rparen).bind_eq fun last => ?_
    cases last with
    | true => exact Paired.pure .noExprs
    | false =>
      refine (ih.expression 0).bind fun item item' hitem =>
        ih.tupleItems.bind fun rest rest' hrest => ?_
      exact Paired.pure (.moreExprs hitem hrest)
  | false => exact Paired.pure .noExprs

/-- What stands behind `else` in a conditional that is a value. -/
theorem otherwise_paired : Paired Cursor.Alike Expr.Alike
    (do if ← atKeyword .if_ then Parse.conditional fuel else Parse.branch fuel : Parse Expr)
    (do if ← atKeyword .if_ then Parse.conditional fuel else Parse.branch fuel) := by
  refine (atKeyword_paired .if_).bind_eq fun chained => ?_
  cases chained with
  | true => exact ih.conditional
  | false => exact ih.branch

theorem conditional_succ : Paired Cursor.Alike Expr.Alike
    (Parse.conditional (fuel + 1)) (Parse.conditional (fuel + 1)) := by
  refine here_paired.bind fun _ _ _ => (passKeyword_paired .if_).seq
    ((ih.expression 0).bind fun condition condition' hcondition =>
      ih.branch.bind fun yes yes' hyes => (eat_paired _).bind_eq fun found => ?_)
  cases found with
  | true =>
    refine ih.otherwise_paired.bind fun no no' hno => ?_
    exact Paired.pure (.choice trivial hcondition hyes hno)
  | false => exact (faultWithHelp_paired _ _).seq (Paired.pure (.name trivial))

theorem branch_succ : Paired Cursor.Alike Expr.Alike
    (Parse.branch (fuel + 1)) (Parse.branch (fuel + 1)) := by
  refine (passSymbol_paired .lbrace).seq ((ih.expression 0).bind fun value value' hvalue =>
    (atSymbol_paired .rbrace).bind_eq fun closed => ?_)
  cases closed with
  | true => exact (passSymbol_paired .rbrace).seq (Paired.pure hvalue)
  | false =>
    exact (faultWithHelp_paired _ _).seq ((skipUntil_paired _).seq
      ((passSymbol_paired .rbrace).seq (Paired.pure hvalue)))

theorem arguments_succ : Paired Cursor.Alike Expr.AllAlike
    (Parse.arguments (fuel + 1)) (Parse.arguments (fuel + 1)) :=
  (passSymbol_paired .lparen).seq (ih.argumentItems.bind fun _ _ hargs =>
    (passSymbol_paired .rparen).seq (Paired.pure hargs))

theorem argumentItems_succ : Paired Cursor.Alike Expr.AllAlike
    (Parse.argumentItems (fuel + 1)) (Parse.argumentItems (fuel + 1)) := by
  refine lexeme_paired.bind_eq fun l => ?_
  split
  · exact Paired.pure .noExprs
  · refine (ih.expression 0).bind fun arg arg' harg => (eatSymbol_paired .comma).bind_eq
      fun found => ?_
    cases found with
    | true => exact ih.argumentItems.bind fun _ _ hrest => Paired.pure (.moreExprs harg hrest)
    | false => exact Paired.pure (.moreExprs harg .noExprs)

theorem succ : ExpressionsPaired (fuel + 1) where
  expression := ih.expression_succ
  operators floor _ _ := ih.operators_succ floor
  operand := ih.operand_succ
  members _ _ := ih.members_succ
  primary := ih.primary_succ
  parenthesized := ih.parenthesized_succ
  tupleItems := ih.tupleItems_succ
  conditional := ih.conditional_succ
  branch := ih.branch_succ
  arguments := ih.arguments_succ
  argumentItems := ih.argumentItems_succ

end ExpressionsPaired

theorem expressionsPaired (fuel : Nat) : ExpressionsPaired fuel := by
  induction fuel with
  | zero => exact .zero
  | succ fuel ih => exact ih.succ

theorem expression_paired (fuel floor : Nat) :
    Paired Cursor.Alike Expr.Alike (expression fuel floor) (expression fuel floor) :=
  (expressionsPaired fuel).expression floor

/-! ### Statements -/

theorem annotation_paired (fuel : Nat) :
    Paired Cursor.Alike (fun type type' => type.map TypeRef.type = type'.map TypeRef.type)
      (do if ← eatSymbol .colon then return some (← typeRef fuel) else return none :
        Parse (Option TypeRef))
      (do if ← eatSymbol .colon then return some (← typeRef fuel) else return none) := by
  refine (eatSymbol_paired .colon).bind_eq fun found => ?_
  cases found with
  | true => exact (typeRef_paired fuel).bind fun _ _ htype => Paired.pure (congrArg some htype)
  | false => exact Paired.pure rfl

theorem initial_paired (fuel : Nat) :
    Paired Cursor.Alike (fun value value' => Alike Span.Any (.initial value value'))
      (do if ← eatSymbol .eq then return some (← expression fuel 0) else return none :
        Parse (Option Expr))
      (do if ← eatSymbol .eq then return some (← expression fuel 0) else return none) := by
  refine (eatSymbol_paired .eq).bind_eq fun found => ?_
  cases found with
  | true => exact (expression_paired fuel 0).bind fun _ _ he => Paired.pure (.someInitial he)
  | false => exact Paired.pure .noInitial

/-- The semicolon behind a statement, which may be left out. -/
theorem endStatement_paired {α : Type} {R : α → α → Prop} (needed : Bool) {p q : Parse α}
    (h : Paired Cursor.Alike R p q) :
    Paired Cursor.Alike R
      (do if needed then discard (expectSymbol .semicolon)
          p)
      (do if needed then discard (expectSymbol .semicolon)
          q) := by
  cases needed with
  | true => exact (passSymbol_paired .semicolon).seq h
  | false => exact h

theorem letStmt_paired (fuel : Nat) :
    Paired Cursor.Alike Stmt.Alike (letStmt fuel) (letStmt fuel) := by
  refine here_paired.bind fun _ _ _ => (passKeyword_paired .let_).seq
    ((eat_paired _).bind_eq fun mutable => identifier_paired.bind fun name name' hname =>
      (annotation_paired fuel).bind fun type type' htype =>
        (initial_paired fuel).bind fun value value' hvalue =>
          (atSymbol_paired .rbrace).bind_eq fun last => endStatement_paired _ ?_)
  exact behind_paired.bind fun _ _ _ => Paired.pure (.let trivial hname htype hvalue)

theorem jumpStmt_paired (kind : Jump) :
    Paired Cursor.Alike Stmt.Alike (jumpStmt kind) (jumpStmt kind) := by
  refine here_paired.bind fun _ _ _ => advance_paired.seq (lexeme_paired.bind_eq fun l => ?_)
  have hend : ∀ start start' : Span, Paired Cursor.Alike Stmt.Alike
      (do discard (eatSymbol .semicolon)
          return .jump start kind : Parse Stmt)
      (do discard (eatSymbol .semicolon)
          return .jump start' kind) :=
    fun _ _ => (eatSymbol_paired .semicolon).discard.seq (Paired.pure .jump)
  split
  · exact (fault_paired _).seq ((skipUntil_paired _).seq (hend _ _))
  · exact hend _ _

/-- What is made of an expression and the symbol behind it. -/
theorem assignment_paired (fuel : Nat) (assign? : Option (Option BinaryOp)) {first first' : Expr}
    (hfirst : first.Alike first') : Paired Cursor.Alike Stmt.Alike
      (do
        match assign? with
        | some op =>
          advance
          let value ← expression fuel 0
          return .assign (first.span.merge value.span) op first value
        | none => return .eval first.span first : Parse Stmt)
      (do
        match assign? with
        | some op =>
          advance
          let value ← expression fuel 0
          return .assign (first'.span.merge value.span) op first' value
        | none => return .eval first'.span first') := by
  cases assign? with
  | some op =>
    exact advance_paired.seq ((expression_paired fuel 0).bind fun _ _ hvalue =>
      Paired.pure (.assign hfirst hvalue))
  | none => exact Paired.pure (.eval hfirst)

theorem simpleStmt_paired (fuel : Nat) (isBody : Bool) :
    Paired Cursor.Alike Stmt.Alike (simpleStmt fuel isBody) (simpleStmt fuel isBody) := by
  refine (expression_paired fuel 0).bind fun first first' hfirst =>
    lexeme_paired.bind_eq fun l => (assignment_paired fuel _ hfirst).bind fun stmt stmt' hstmt =>
      (atSymbol_paired .rbrace).bind_eq fun atBrace => (at?_paired .endOfInput).bind_eq
        fun atEnd => ?_
  -- whether the semicolon is needed depends on the shape of the statement
  have hresult := hstmt
  cases hstmt with
  | eval hvalue => cases hvalue <;> exact endStatement_paired _ (Paired.pure hresult)
  | _ => exact endStatement_paired _ (Paired.pure hresult)

theorem missingStmt_paired : Paired Cursor.Alike Stmt.Alike
    (do return .eval (← here) (missingExpr (← here)) : Parse Stmt)
    (do return .eval (← here) (missingExpr (← here))) :=
  here_paired.bind fun _ _ _ => here_paired.bind fun _ _ _ => Paired.pure (.eval (.name trivial))

/-- What two readings of statements have in common, with `fuel` steps each. -/
structure StatementsPaired (fuel : Nat) : Prop where
  block : Paired Cursor.Alike Block.Alike (block fuel) (block fuel)
  statements : Paired Cursor.Alike Stmt.AllAlike (statements fuel) (statements fuel)
  statement : Paired Cursor.Alike Stmt.Alike (statement fuel) (statement fuel)
  ifStmt : Paired Cursor.Alike Stmt.Alike (ifStmt fuel) (ifStmt fuel)
  forStmt : Paired Cursor.Alike Stmt.Alike (forStmt fuel) (forStmt fuel)

theorem StatementsPaired.zero : StatementsPaired 0 where
  block := outOfSteps_paired.seq (here_paired.bind fun _ _ _ => Paired.pure (.block .noStmts))
  statements := outOfSteps_paired.seq (Paired.pure .noStmts)
  statement := outOfSteps_paired.seq missingStmt_paired
  ifStmt := outOfSteps_paired.seq missingStmt_paired
  forStmt := outOfSteps_paired.seq missingStmt_paired

namespace StatementsPaired

variable {fuel : Nat} (ih : StatementsPaired fuel)

include ih

theorem block_succ : Paired Cursor.Alike Block.Alike
    (Parse.block (fuel + 1)) (Parse.block (fuel + 1)) := by
  refine enter_paired.bind_eq fun opened => ?_
  cases opened with
  | true =>
    refine (expectSymbol_paired .lbrace).bind fun _ _ _ => ih.statements.bind
      fun stmts stmts' hstmts => (expectSymbol_paired .rbrace).bind fun _ _ _ => ?_
    exact leave_paired.seq (Paired.pure (.block hstmts))
  | false =>
    exact here_paired.bind fun _ _ _ => (skipUntil_paired _).seq (Paired.pure (.block .noStmts))

theorem statements_succ : Paired Cursor.Alike Stmt.AllAlike
    (Parse.statements (fuel + 1)) (Parse.statements (fuel + 1)) := by
  refine lexeme_paired.bind_eq fun l => ?_
  split
  · exact Paired.pure .noStmts
  · refine (eatSymbol_paired .semicolon).bind_eq fun found => ?_
    cases found with
    | true => exact ih.statements
    | false =>
      exact ih.statement.bind fun _ _ hs => ih.statements.bind fun _ _ hstmts =>
        Paired.pure (.moreStmts hs hstmts)

theorem statement_succ : Paired Cursor.Alike Stmt.Alike
    (Parse.statement (fuel + 1)) (Parse.statement (fuel + 1)) := by
  refine here_paired.bind fun _ _ _ => lexeme_paired.bind_eq fun l => ?_
  split
  · exact letStmt_paired fuel
  · exact ih.ifStmt
  · exact ih.forStmt
  · exact advance_paired.seq ((expression_paired fuel 0).bind fun _ _ hcondition =>
      ih.block.bind fun _ _ hbody => Paired.pure (.while hcondition hbody))
  · exact advance_paired.seq (ih.block.bind fun _ _ hbody => Paired.pure (.loop hbody))
  · exact jumpStmt_paired .break
  · exact jumpStmt_paired .continue
  · exact jumpStmt_paired .return
  · exact ih.block.bind fun _ _ hbody => Paired.pure (.nested hbody)
  · exact simpleStmt_paired fuel false

/-- What stands behind the body of a conditional. -/
theorem otherwise_paired :
    Paired Cursor.Alike (fun otherwise otherwise' => Alike Span.Any (.optional otherwise otherwise'))
      (do
        if ← eat (.keyword .else_) then
          if ← atKeyword .if_ then
            let chained ← Parse.ifStmt fuel
            return some ⟨chained.span, [chained]⟩
          else
            return some (← Parse.block fuel)
        else
          return none : Parse (Option Block))
      (do
        if ← eat (.keyword .else_) then
          if ← atKeyword .if_ then
            let chained ← Parse.ifStmt fuel
            return some ⟨chained.span, [chained]⟩
          else
            return some (← Parse.block fuel)
        else
          return none) := by
  refine (eat_paired _).bind_eq fun found => ?_
  cases found with
  | true =>
    refine (atKeyword_paired .if_).bind_eq fun chained => ?_
    cases chained with
    | true =>
      exact ih.ifStmt.bind fun _ _ hs =>
        Paired.pure (.someBlock (.block (.moreStmts hs .noStmts)))
    | false => exact ih.block.bind fun _ _ hb => Paired.pure (.someBlock hb)
  | false => exact Paired.pure .noBlock

theorem ifStmt_succ : Paired Cursor.Alike Stmt.Alike
    (Parse.ifStmt (fuel + 1)) (Parse.ifStmt (fuel + 1)) :=
  here_paired.bind fun _ _ _ => (passKeyword_paired .if_).seq
    ((expression_paired fuel 0).bind fun _ _ hcondition => ih.block.bind fun _ _ hbody =>
      ih.otherwise_paired.bind fun _ _ hotherwise => behind_paired.bind fun _ _ _ =>
        Paired.pure (.if hcondition hbody hotherwise))

theorem forStmt_succ : Paired Cursor.Alike Stmt.Alike
    (Parse.forStmt (fuel + 1)) (Parse.forStmt (fuel + 1)) := by
  refine here_paired.bind fun start start' _ => (passKeyword_paired .for_).seq
    (identifier_paired.bind fun counter counter' hcounter => (passKeyword_paired .in_).seq
      ((expression_paired fuel 0).bind fun first first' hfirst =>
        lexeme_paired.bind_eq fun range => ?_))
  have hrest : Paired Cursor.Alike Stmt.Alike
      (do advance
          let stop ← Parse.expression fuel 0
          let body ← Parse.block fuel
          return .for (start.merge body.span) counter first stop (range == .symbol .dotDotEq) body :
        Parse Stmt)
      (do advance
          let stop ← Parse.expression fuel 0
          let body ← Parse.block fuel
          return .for (start'.merge body.span) counter' first' stop (range == .symbol .dotDotEq)
            body) :=
    advance_paired.seq ((expression_paired fuel 0).bind fun _ _ hstop =>
      ih.block.bind fun _ _ hbody => Paired.pure (.for trivial hcounter hfirst hstop hbody))
  split
  · exact (faultWithHelp_paired _ _).seq hrest
  · exact hrest

theorem succ : StatementsPaired (fuel + 1) where
  block := ih.block_succ
  statements := ih.statements_succ
  statement := ih.statement_succ
  ifStmt := ih.ifStmt_succ
  forStmt := ih.forStmt_succ

end StatementsPaired

theorem statementsPaired (fuel : Nat) : StatementsPaired fuel := by
  induction fuel with
  | zero => exact .zero
  | succ fuel ih => exact ih.succ

/-! ### Closures -/

theorem closureBody_paired (fuel : Nat) :
    Paired Cursor.Alike Block.Alike (closureBody fuel) (closureBody fuel) := by
  refine (atSymbol_paired .lbrace).bind_eq fun braced => ?_
  cases braced with
  | true => exact (statementsPaired fuel).block
  | false =>
    exact (simpleStmt_paired fuel true).bind fun _ _ hs =>
      Paired.pure (.block (.moreStmts hs .noStmts))

theorem closureFromParam_paired (fuel : Nat) :
    Paired Cursor.Alike (Closure.Alike Span.Any) (closureFromParam fuel)
      (closureFromParam fuel) := by
  refine identifier_paired.bind fun param param' hparam => (annotation_paired fuel).bind
    fun paramType paramType' htype => (atSymbol_paired .comma).bind_eq fun several => ?_
  have hrest : Paired Cursor.Alike (Closure.Alike Span.Any)
      (do skipUntil fun l => l = .symbol .pipe || isEnd l
          discard (expectSymbol .pipe)
          let body ← closureBody fuel
          let l ← lexeme
          if ! isEnd l then
            fault s!"unexpected {l.description} after kernel body"
          return { param, paramType, body } : Parse Closure)
      (do skipUntil fun l => l = .symbol .pipe || isEnd l
          discard (expectSymbol .pipe)
          let body ← closureBody fuel
          let l ← lexeme
          if ! isEnd l then
            fault s!"unexpected {l.description} after kernel body"
          return { param := param', paramType := paramType', body }) := by
    refine (skipUntil_paired _).seq ((passSymbol_paired .pipe).seq
      ((closureBody_paired fuel).bind fun body body' hbody => lexeme_paired.bind_eq fun l => ?_))
    split
    · exact (fault_paired _).seq (Paired.pure ⟨trivial, hparam, htype, hbody⟩)
    · exact Paired.pure ⟨trivial, hparam, htype, hbody⟩
  cases several with
  | true => exact (faultWithHelp_paired _ _).seq hrest
  | false => exact hrest

/-- Whether both sources gave a closure, or neither. -/
def SameResult (c c' : Option Closure) : Prop :=
  (c = none ∧ c' = none) ∨ ∃ d d', c = some d ∧ c' = some d' ∧ d.Alike Span.Any d'

theorem closure_paired (fuel : Nat) :
    Paired Cursor.Alike SameResult (closure fuel) (closure fuel) := by
  refine (eat_paired _).discard.seq (lexeme_paired.bind_eq fun l => ?_)
  split
  · exact (faultWithHelp_paired _ _).seq (Paired.pure (.inl ⟨rfl, rfl⟩))
  · exact advance_paired.seq ((closureFromParam_paired fuel).bind fun c c' hc =>
      Paired.pure (.inr ⟨c, c', rfl, rfl, hc⟩))
  · exact (faultWithHelp_paired _ _).seq (Paired.pure (.inl ⟨rfl, rfl⟩))

end Parse

/-- The same lexemes are read alike, or not at all for the same reasons. -/
theorem Closure.agrees_of_tokens {tokens tokens' : List Token}
    (h : tokens.map Token.lexeme = tokens'.map Token.lexeme) :
    Agrees (Closure.Alike Span.Any) (Closure.ofTokens tokens) (Closure.ofTokens tokens') := by
  have hlength : tokens.length = tokens'.length := by
    simpa using congrArg List.length h
  have hpaired := Parse.closure_paired (Parse.stepBound tokens'.length) { tokens }
    { tokens := tokens' } ⟨h, rfl, rfl⟩
  unfold Closure.ofTokens
  rw [hlength]
  generalize (Parse.closure (Parse.stepBound tokens'.length)).run { tokens } = run at hpaired
  generalize (Parse.closure (Parse.stepBound tokens'.length)).run { tokens := tokens' } = run'
    at hpaired
  obtain ⟨closure, c, passed, depth, ds⟩ := run
  obtain ⟨closure', c', passed', depth', ds'⟩ := run'
  obtain ⟨hresult, hcursor⟩ := hpaired
  have hdiagnostics : ds.map Diagnostic.bare = ds'.map Diagnostic.bare := hcursor.diagnostics
  rcases hresult with ⟨hc, hc'⟩ | ⟨d, d', hc, hc', hd⟩
  · simp only at hc hc'
    subst hc hc'
    exact .error hdiagnostics
  · simp only at hc hc'
    subst hc hc'
    rcases ds with _ | ⟨fault, faults⟩ <;> rcases ds' with _ | ⟨fault', faults'⟩
    · exact .ok hd
    · simp at hdiagnostics
    · simp at hdiagnostics
    · exact .error hdiagnostics

/-- Sources with the same lexemes are read alike, or not at all for the same reasons. -/
theorem Closure.agrees_of_parse {source source' : String}
    (h : (tokenize source).2 = []) (h' : (tokenize source').2 = [])
    (hlexemes : (tokenize source).1.map Token.lexeme = (tokenize source').1.map Token.lexeme) :
    Agrees (Closure.Alike Span.Any) (Closure.parse source) (Closure.parse source') := by
  have hparse : ∀ text, (tokenize text).2 = [] →
      Closure.parse text = Closure.ofTokens (tokenize text).1 := by
    intro text htext
    unfold Closure.parse
    simp only [htext]
    split
    · rename_i closure htokens
      exact htokens.symm
    · rename_i syntactic htokens
      exact htokens.symm
  rw [hparse source h, hparse source' h']
  exact Closure.agrees_of_tokens hlexemes

end ComputeKernel
