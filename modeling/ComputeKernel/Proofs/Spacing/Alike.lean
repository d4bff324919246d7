import ComputeKernel.Proofs.Parsing.Layout

/-!
Trees that differ in their ranges only. Names and types of a closure are kept by the range of an
expression or of a declared name, so of the ranges of two such trees these ones matter.
-/

namespace ComputeKernel

/-- Two parts of two trees. -/
inductive Pair where
  | expr (e e' : Expr)
  | exprs (es es' : List Expr)
  | initial (value value' : Option Expr)
  | stmt (s s' : Stmt)
  | stmts (stmts stmts' : List Stmt)
  | block (b b' : Block)
  | optional (b b' : Option Block)

/-- Whether two parts differ in their ranges only, where the ranges of expressions and of declared
names are as in `P`. -/
inductive Alike (P : Span → Span → Prop) : Pair → Prop where
  | literal {s s' value} : P s s' → Alike P (.expr (.literal s value) (.literal s' value))
  | name {s s' text} : P s s' → Alike P (.expr (.name s text) (.name s' text))
  | path {s s' path} : P s s' → Alike P (.expr (.path s path) (.path s' path))
  | unary {s s' op e e'} : P s s' → Alike P (.expr e e') →
      Alike P (.expr (.unary s op e) (.unary s' op e'))
  | binary {s s' op l l' r r'} : P s s' → Alike P (.expr l l') → Alike P (.expr r r') →
      Alike P (.expr (.binary s op l r) (.binary s' op l' r'))
  | cast {s s' e e' type type'} : P s s' → Alike P (.expr e e') → type.type = type'.type →
      Alike P (.expr (.cast s e type) (.cast s' e' type'))
  | field {s s' e e' member member'} : P s s' → Alike P (.expr e e') →
      member.text = member'.text → Alike P (.expr (.field s e member) (.field s' e' member'))
  | method {s s' e e' member member' args args'} : P s s' → Alike P (.expr e e') →
      member.text = member'.text → Alike P (.exprs args args') →
      Alike P (.expr (.method s e member args) (.method s' e' member' args'))
  | call {s s' callee calleeSpan calleeSpan' args args'} : P s s' → Alike P (.exprs args args') →
      Alike P (.expr (.call s callee calleeSpan args) (.call s' callee calleeSpan' args'))
  | index {s s' base base' index index'} : P s s' → Alike P (.expr base base') →
      Alike P (.expr index index') →
      Alike P (.expr (.index s base index) (.index s' base' index'))
  | tuple {s s' items items'} : P s s' → Alike P (.exprs items items') →
      Alike P (.expr (.tuple s items) (.tuple s' items'))
  | paren {s s' e e'} : P s s' → Alike P (.expr e e') →
      Alike P (.expr (.paren s e) (.paren s' e'))
  | choice {s s' condition condition' yes yes' no no'} : P s s' →
      Alike P (.expr condition condition') → Alike P (.expr yes yes') → Alike P (.expr no no') →
      Alike P (.expr (.choice s condition yes no) (.choice s' condition' yes' no'))
  | noExprs : Alike P (.exprs [] [])
  | moreExprs {e e' es es'} : Alike P (.expr e e') → Alike P (.exprs es es') →
      Alike P (.exprs (e :: es) (e' :: es'))
  | noInitial : Alike P (.initial none none)
  | someInitial {e e'} : Alike P (.expr e e') → Alike P (.initial (some e) (some e'))
  | let {s s' mutable name name' type type' value value'} : P name.span name'.span →
      name.text = name'.text → type.map TypeRef.type = type'.map TypeRef.type →
      Alike P (.initial value value') →
      Alike P (.stmt (.let s mutable name type value) (.let s' mutable name' type' value'))
  | assign {s s' op place place' value value'} : Alike P (.expr place place') →
      Alike P (.expr value value') →
      Alike P (.stmt (.assign s op place value) (.assign s' op place' value'))
  | if {s s' condition condition' body body' otherwise otherwise'} :
      Alike P (.expr condition condition') → Alike P (.block body body') →
      Alike P (.optional otherwise otherwise') →
      Alike P (.stmt (.if s condition body otherwise) (.if s' condition' body' otherwise'))
  | for {s s' counter counter' start start' stop stop' inclusive body body'} :
      P counter.span counter'.span → counter.text = counter'.text →
      Alike P (.expr start start') → Alike P (.expr stop stop') → Alike P (.block body body') →
      Alike P
        (.stmt (.for s counter start stop inclusive body)
          (.for s' counter' start' stop' inclusive body'))
  | while {s s' condition condition' body body'} : Alike P (.expr condition condition') →
      Alike P (.block body body') →
      Alike P (.stmt (.while s condition body) (.while s' condition' body'))
  | loop {s s' body body'} : Alike P (.block body body') →
      Alike P (.stmt (.loop s body) (.loop s' body'))
  | jump {s s' kind} : Alike P (.stmt (.jump s kind) (.jump s' kind))
  | eval {s s' value value'} : Alike P (.expr value value') →
      Alike P (.stmt (.eval s value) (.eval s' value'))
  | nested {s s' body body'} : Alike P (.block body body') →
      Alike P (.stmt (.nested s body) (.nested s' body'))
  | noStmts : Alike P (.stmts [] [])
  | moreStmts {s s' stmts stmts'} : Alike P (.stmt s s') → Alike P (.stmts stmts stmts') →
      Alike P (.stmts (s :: stmts) (s' :: stmts'))
  | block {s s' stmts stmts'} : Alike P (.stmts stmts stmts') →
      Alike P (.block ⟨s, stmts⟩ ⟨s', stmts'⟩)
  | noBlock : Alike P (.optional none none)
  | someBlock {b b'} : Alike P (.block b b') → Alike P (.optional (some b) (some b'))

/-- Whether two names differ in their ranges only. -/
def Name.Alike (n n' : Name) : Prop := n.text = n'.text

/-- Whether two types differ in their ranges only. -/
def TypeRef.Alike (t t' : TypeRef) : Prop := t.type = t'.type

/-- Any two ranges. -/
def Span.Any (_ _ : Span) : Prop := True

/-- Whether two expressions differ in their ranges only. -/
abbrev Expr.Alike (e e' : Expr) : Prop := ComputeKernel.Alike Span.Any (.expr e e')

/-- Whether two lists of expressions differ in their ranges only. -/
abbrev Expr.AllAlike (es es' : List Expr) : Prop := ComputeKernel.Alike Span.Any (.exprs es es')

/-- Whether two statements differ in their ranges only. -/
abbrev Stmt.Alike (s s' : Stmt) : Prop := ComputeKernel.Alike Span.Any (.stmt s s')

/-- Whether two lists of statements differ in their ranges only. -/
abbrev Stmt.AllAlike (stmts stmts' : List Stmt) : Prop :=
  ComputeKernel.Alike Span.Any (.stmts stmts stmts')

/-- Whether two blocks differ in their ranges only. -/
abbrev Block.Alike (b b' : Block) : Prop := ComputeKernel.Alike Span.Any (.block b b')

/-- Whether two closures differ in their ranges only. -/
structure Closure.Alike (P : Span → Span → Prop) (c c' : Closure) : Prop where
  param : P c.param.span c'.param.span
  paramText : c.param.text = c'.param.text
  paramType : c.paramType.map TypeRef.type = c'.paramType.map TypeRef.type
  body : ComputeKernel.Alike P (.block c.body c'.body)

theorem Alike.exprs_length {P : Span → Span → Prop} {es es' : List Expr} (h : Alike P (.exprs es es')) :
    es.length = es'.length := by
  induction es generalizing es' with
  | nil =>
    cases h
    rfl
  | cons e es ih =>
    cases h with
    | moreExprs _ hes => exact congrArg (· + 1) (ih hes)

theorem Alike.span {P : Span → Span → Prop} {e e' : Expr} (h : Alike P (.expr e e')) :
    P e.span e'.span := by
  cases h <;> assumption

end ComputeKernel
