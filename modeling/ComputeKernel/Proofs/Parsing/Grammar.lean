import ComputeKernel.Closure.Parse
import ComputeKernel.Proofs.Parsing.Run

/-!
The grammar of closures as a relation. A production says which tokens stand in front of and behind
the phrases that it is made of, so what is read of an accepted closure can be told by induction on
productions, with neither fuel nor faults in the way. A cursor stands for what is left to read.
-/

namespace ComputeKernel.Parse

/-- Whether the token `l` was there, in which case it was passed. -/
def Takes (l : Lexeme) (c : Cursor) (there : Bool) (c' : Cursor) : Prop :=
  if there then c.lexeme = l ∧ c' = c.advance else c.lexeme ≠ l ∧ c' = c

/-! ### Types -/

/-- A phrase of the grammar of types, with what is read of it. -/
inductive TypePhrase where
  | tail (segments : List String)
  | type (t : TypeRef)
  | args (types : List HostType)

/-- A closing bracket, which may be the first half of `>>`. -/
def Closes (c c' : Cursor) : Prop :=
  (c.lexeme = .symbol .shr ∧ c' = c.splitShift) ∨ (c.lexeme = .symbol .gt ∧ c' = c.advance)

inductive ReadsType : Cursor → TypePhrase → Cursor → Prop where
  | tailEnd {c} : c.lexeme ≠ .symbol .colonColon → ReadsType c (.tail []) c
  | tailMore {c c' segment rest} : c.lexeme = .symbol .colonColon →
      c.advance.lexeme = .ident segment → ReadsType c.advance.advance (.tail rest) c' →
      ReadsType c (.tail (segment :: rest)) c'
  | plain {c c' first rest} : c.lexeme = .ident first → ReadsType c.advance (.tail rest) c' →
      c'.lexeme ≠ .symbol .lt →
      ReadsType c (.type ⟨⟨Text.joinPath (first :: rest), []⟩, c.here.merge c'.behind⟩) c'
  | generic {c c₁ c₂ c' first rest args} : c.lexeme = .ident first →
      ReadsType c.advance (.tail rest) c₁ → c₁.lexeme = .symbol .lt →
      ReadsType c₁.advance (.args args) c₂ → Closes c₂ c' →
      ReadsType c (.type ⟨⟨Text.joinPath (first :: rest), args⟩, c.here.merge c'.behind⟩) c'
  | lastArg {c c' t} : ReadsType c (.type t) c' → c'.lexeme ≠ .symbol .comma →
      ReadsType c (.args [t.type]) c'
  | moreArgs {c c₁ c' t rest} : ReadsType c (.type t) c₁ → c₁.lexeme = .symbol .comma →
      ReadsType c₁.advance (.args rest) c' → ReadsType c (.args (t.type :: rest)) c'

/-! ### Expressions -/

/-- A phrase of the grammar of expressions, with what is read of it. -/
inductive Phrase where
  | expression (floor : Nat) (e : Expr)
  | operators (floor : Nat) (left whole : Expr)
  | operand (e : Expr)
  | members (receiver whole : Expr)
  | primary (e : Expr)
  | tupleItems (items : List Expr)
  | branch (e : Expr)
  | arguments (args : List Expr)
  | argumentItems (args : List Expr)

/-- Whether no cast and no operator of at least the rank `floor` stands at the cursor. -/
def Stops (floor : Nat) (c : Cursor) : Prop :=
  c.lexeme ≠ .keyword .as ∧
    ∀ s op, c.lexeme = .symbol s → s.binaryOp? = some op → op.rank < floor

inductive Reads : Cursor → Phrase → Cursor → Prop where
  | expression {c c₁ c' floor first whole} : c.depth < maxDepth →
      Reads c.deeper (.operand first) c₁ → Reads c₁ (.operators floor first whole) c' →
      Reads c (.expression floor whole) c'.shallower
  | noOperator {c floor left} : Stops floor c → Reads c (.operators floor left left) c
  | cast {c c₁ c' floor left whole type} : c.lexeme = .keyword .as →
      ReadsType c.advance (.type type) c₁ →
      Reads c₁ (.operators floor (.cast (left.span.merge type.span) left type) whole) c' →
      Reads c (.operators floor left whole) c'
  | binary {c c₁ c' floor left right whole s op} : c.lexeme = .symbol s →
      s.binaryOp? = some op → floor ≤ op.rank →
      Reads c.advance (.expression (op.rank + 1) right) c₁ →
      Reads c₁ (.operators floor (.binary (left.span.merge right.span) op left right) whole) c' →
      Reads c (.operators floor left whole) c'
  | neg {c c' inner} : c.lexeme = .symbol .minus → Reads c.advance (.operand inner) c' →
      Reads c (.operand (.unary (c.here.merge inner.span) .neg inner)) c'
  | not {c c' inner} : c.lexeme = .symbol .bang → Reads c.advance (.operand inner) c' →
      Reads c (.operand (.unary (c.here.merge inner.span) .not inner)) c'
  | plain {c c₁ c' first whole} : c.lexeme ≠ .symbol .minus → c.lexeme ≠ .symbol .bang →
      Reads c (.primary first) c₁ → Reads c₁ (.members first whole) c' →
      Reads c (.operand whole) c'
  | noMember {c receiver} : c.lexeme ≠ .symbol .dot → c.lexeme ≠ .symbol .lbracket →
      c.lexeme ≠ .symbol .lparen → Reads c (.members receiver receiver) c
  | method {c c₁ c' receiver whole member args} : c.lexeme = .symbol .dot →
      c.advance.lexeme = .ident member.text → member.span = c.advance.here →
      Reads c.advance.advance (.arguments args) c₁ →
      Reads c₁ (.members (.method (receiver.span.merge c₁.behind) receiver member args) whole) c' →
      Reads c (.members receiver whole) c'
  | field {c c' receiver whole member} : c.lexeme = .symbol .dot →
      c.advance.lexeme = .ident member.text → member.span = c.advance.here →
      c.advance.advance.lexeme ≠ .symbol .lparen →
      Reads c.advance.advance
        (.members (.field (receiver.span.merge member.span) receiver member) whole) c' →
      Reads c (.members receiver whole) c'
  | index {c c₁ c' receiver whole index} : c.lexeme = .symbol .lbracket →
      Reads c.advance (.expression 0 index) c₁ → c₁.lexeme = .symbol .rbracket →
      Reads c₁.advance
        (.members (.index (receiver.span.merge c₁.advance.behind) receiver index) whole) c' →
      Reads c (.members receiver whole) c'
  | integer {c digits suffix} : c.lexeme = .integer digits suffix →
      Reads c (.primary (.literal c.here (.integer digits suffix))) c.advance
  | float {c digits suffix} : c.lexeme = .float digits suffix →
      Reads c (.primary (.literal c.here (.float digits suffix))) c.advance
  | true {c} : c.lexeme = .keyword .true_ →
      Reads c (.primary (.literal c.here (.bool true))) c.advance
  | false {c} : c.lexeme = .keyword .false_ →
      Reads c (.primary (.literal c.here (.bool false))) c.advance
  | call {c c₁ c' first rest args} : c.lexeme = .ident first →
      ReadsType c.advance (.tail rest) c₁ → Reads c₁ (.arguments args) c' →
      Reads c
        (.primary
          (.call (c.here.merge c'.behind) (first :: rest) (c.here.merge c₁.behind) args)) c'
  | name {c first} : c.lexeme = .ident first → c.advance.lexeme ≠ .symbol .colonColon →
      c.advance.lexeme ≠ .symbol .lparen →
      Reads c (.primary (.name (c.here.merge c.advance.behind) first)) c.advance
  | path {c c' first rest} : c.lexeme = .ident first → ReadsType c.advance (.tail rest) c' →
      c'.lexeme ≠ .symbol .lparen → rest ≠ [] →
      Reads c (.primary (.path (c.here.merge c'.behind) (first :: rest))) c'
  | paren {c c₁ inner} : c.lexeme = .symbol .lparen →
      Reads c.advance (.expression 0 inner) c₁ → c₁.lexeme = .symbol .rparen →
      Reads c (.primary (.paren (c.here.merge c₁.here) inner)) c₁.advance
  | tuple {c c₁ c₂ first rest} : c.lexeme = .symbol .lparen →
      Reads c.advance (.expression 0 first) c₁ → c₁.lexeme ≠ .symbol .rparen →
      Reads c₁ (.tupleItems rest) c₂ → c₂.lexeme = .symbol .rparen →
      Reads c (.primary (.tuple (c.here.merge c₂.here) (first :: rest))) c₂.advance
  | choice {c c₁ c₂ c' condition yes no} : c.lexeme = .keyword .if_ →
      Reads c.advance (.expression 0 condition) c₁ → Reads c₁ (.branch yes) c₂ →
      c₂.lexeme = .keyword .else_ → Reads c₂.advance (.branch no) c' →
      Reads c (.primary (.choice (c.here.merge no.span) condition yes no)) c'
  | choiceChain {c c₁ c₂ c' condition yes no} : c.lexeme = .keyword .if_ →
      Reads c.advance (.expression 0 condition) c₁ → Reads c₁ (.branch yes) c₂ →
      c₂.lexeme = .keyword .else_ → c₂.advance.lexeme = .keyword .if_ →
      Reads c₂.advance (.primary no) c' →
      Reads c (.primary (.choice (c.here.merge no.span) condition yes no)) c'
  | noItem {c} : c.lexeme ≠ .symbol .comma → Reads c (.tupleItems []) c
  | lastComma {c} : c.lexeme = .symbol .comma → c.advance.lexeme = .symbol .rparen →
      Reads c (.tupleItems []) c.advance
  | moreItems {c c₁ c' item rest} : c.lexeme = .symbol .comma →
      c.advance.lexeme ≠ .symbol .rparen → Reads c.advance (.expression 0 item) c₁ →
      Reads c₁ (.tupleItems rest) c' → Reads c (.tupleItems (item :: rest)) c'
  | branch {c c₁ value} : c.lexeme = .symbol .lbrace → Reads c.advance (.expression 0 value) c₁ →
      c₁.lexeme = .symbol .rbrace → Reads c (.branch value) c₁.advance
  | arguments {c c₁ args} : c.lexeme = .symbol .lparen →
      Reads c.advance (.argumentItems args) c₁ → c₁.lexeme = .symbol .rparen →
      Reads c (.arguments args) c₁.advance
  | noArgument {c} : c.lexeme = .symbol .rparen ∨ c.lexeme = .endOfInput →
      Reads c (.argumentItems []) c
  | lastArgument {c c' arg} : c.lexeme ≠ .symbol .rparen → Reads c (.expression 0 arg) c' →
      c'.lexeme ≠ .symbol .comma → Reads c (.argumentItems [arg]) c'
  | moreArguments {c c₁ c' arg rest} : c.lexeme ≠ .symbol .rparen →
      Reads c (.expression 0 arg) c₁ → c₁.lexeme = .symbol .comma →
      Reads c₁.advance (.argumentItems rest) c' → Reads c (.argumentItems (arg :: rest)) c'

/-! ### Statements -/

/-- An annotation behind a name, if there is one. -/
def ReadsAnnotation (c : Cursor) (type : Option TypeRef) (c' : Cursor) : Prop :=
  match type with
  | none => c.lexeme ≠ .symbol .colon ∧ c' = c
  | some t => c.lexeme = .symbol .colon ∧ ReadsType c.advance (.type t) c'

/-- A value behind `=`, if there is one. -/
def ReadsInitial (c : Cursor) (value : Option Expr) (c' : Cursor) : Prop :=
  match value with
  | none => c.lexeme ≠ .symbol .eq ∧ c' = c
  | some e => c.lexeme = .symbol .eq ∧ Reads c.advance (.expression 0 e) c'

/-- The end of a statement: a semicolon, unless it may be left out, as `free` says. -/
def Ends (free : Bool) (c c' : Cursor) : Prop :=
  if free then c' = c else c.lexeme = .symbol .semicolon ∧ c' = c.advance

/-- Whether a statement that is the expression `e` needs no semicolon. -/
def endsWithBrace : Expr → Bool
  | .choice .. => true
  | _ => false

/-- Whether the cursor is where the last statement of a block ends, or of a body without braces. -/
def atLast (isBody : Bool) (c : Cursor) : Bool :=
  c.lexeme == .symbol .rbrace || (isBody && c.lexeme == .endOfInput)

/-- An expression or an assignment. -/
inductive ReadsSimple (isBody : Bool) : Cursor → Stmt → Cursor → Prop where
  | eval {c c₁ c' e} : Reads c (.expression 0 e) c₁ →
      (∀ s, c₁.lexeme = .symbol s → s.assignOp? = none) →
      Ends (atLast isBody c₁ || endsWithBrace e) c₁ c' → ReadsSimple isBody c (.eval e.span e) c'
  | assign {c c₁ c₂ c' place s op value} : Reads c (.expression 0 place) c₁ →
      c₁.lexeme = .symbol s → s.assignOp? = some op →
      Reads c₁.advance (.expression 0 value) c₂ → Ends (atLast isBody c₂) c₂ c' →
      ReadsSimple isBody c (.assign (place.span.merge value.span) op place value) c'

/-- A phrase of the grammar of statements, with what is read of it. -/
inductive StmtPhrase where
  | block (b : Block)
  | statements (stmts : List Stmt)
  | statement (s : Stmt)

/-- The keyword of a jump. -/
def jumpKeyword : Jump → Keyword
  | .break => .break_
  | .continue => .continue_
  | .return => .return_

inductive ReadsStmt : Cursor → StmtPhrase → Cursor → Prop where
  | block {c c₁ stmts} : c.depth < maxDepth → c.lexeme = .symbol .lbrace →
      ReadsStmt c.deeper.advance (.statements stmts) c₁ → c₁.lexeme = .symbol .rbrace →
      ReadsStmt c (.block ⟨c.here.merge c₁.here, stmts⟩) c₁.advance.shallower
  | noStatement {c} : isBlockEnd c.lexeme → ReadsStmt c (.statements []) c
  | emptyStatement {c c' stmts} : c.lexeme = .symbol .semicolon →
      ReadsStmt c.advance (.statements stmts) c' → ReadsStmt c (.statements stmts) c'
  | moreStatements {c c₁ c' s stmts} : ¬ isBlockEnd c.lexeme → c.lexeme ≠ .symbol .semicolon →
      ReadsStmt c (.statement s) c₁ → ReadsStmt c₁ (.statements stmts) c' →
      ReadsStmt c (.statements (s :: stmts)) c'
  | let {c c₁ c₂ c₃ c' mutable name type value} : c.lexeme = .keyword .let_ →
      Takes (.keyword .mut_) c.advance mutable c₁ → c₁.lexeme = .ident name.text →
      name.span = c₁.here → ReadsAnnotation c₁.advance type c₂ → ReadsInitial c₂ value c₃ →
      Ends (c₃.lexeme == .symbol .rbrace) c₃ c' →
      ReadsStmt c (.statement (.let (c.here.merge c'.behind) mutable name type value)) c'
  | ifOnly {c c₁ c' condition body} : c.lexeme = .keyword .if_ →
      Reads c.advance (.expression 0 condition) c₁ → ReadsStmt c₁ (.block body) c' →
      c'.lexeme ≠ .keyword .else_ →
      ReadsStmt c (.statement (.if (c.here.merge c'.behind) condition body none)) c'
  | ifElse {c c₁ c₂ c' condition body otherwise} : c.lexeme = .keyword .if_ →
      Reads c.advance (.expression 0 condition) c₁ → ReadsStmt c₁ (.block body) c₂ →
      c₂.lexeme = .keyword .else_ → c₂.advance.lexeme ≠ .keyword .if_ →
      ReadsStmt c₂.advance (.block otherwise) c' →
      ReadsStmt c (.statement (.if (c.here.merge c'.behind) condition body (some otherwise))) c'
  | ifChain {c c₁ c₂ c' condition body chained} : c.lexeme = .keyword .if_ →
      Reads c.advance (.expression 0 condition) c₁ → ReadsStmt c₁ (.block body) c₂ →
      c₂.lexeme = .keyword .else_ → c₂.advance.lexeme = .keyword .if_ →
      ReadsStmt c₂.advance (.statement chained) c' →
      ReadsStmt c
        (.statement
          (.if (c.here.merge c'.behind) condition body (some ⟨chained.span, [chained]⟩))) c'
  | for {c c₁ c₂ c' counter first stop inclusive body} : c.lexeme = .keyword .for_ →
      c.advance.lexeme = .ident counter.text → counter.span = c.advance.here →
      c.advance.advance.lexeme = .keyword .in_ →
      Reads c.advance.advance.advance (.expression 0 first) c₁ →
      c₁.lexeme = .symbol (if inclusive then .dotDotEq else .dotDot) →
      Reads c₁.advance (.expression 0 stop) c₂ → ReadsStmt c₂ (.block body) c' →
      ReadsStmt c
        (.statement (.for (c.here.merge body.span) counter first stop inclusive body)) c'
  | while {c c₁ c' condition body} : c.lexeme = .keyword .while_ →
      Reads c.advance (.expression 0 condition) c₁ → ReadsStmt c₁ (.block body) c' →
      ReadsStmt c (.statement (.while (c.here.merge body.span) condition body)) c'
  | loop {c c' body} : c.lexeme = .keyword .loop → ReadsStmt c.advance (.block body) c' →
      ReadsStmt c (.statement (.loop (c.here.merge body.span) body)) c'
  | jump {c c' kind} : c.lexeme = .keyword (jumpKeyword kind) →
      Ends (c.advance.lexeme == .symbol .rbrace) c.advance c' →
      ReadsStmt c (.statement (.jump c.here kind)) c'
  | nested {c c' body} : c.lexeme = .symbol .lbrace → ReadsStmt c (.block body) c' →
      ReadsStmt c (.statement (.nested body.span body)) c'
  | simple {c c' s} : c.lexeme ≠ .keyword .if_ → ReadsSimple false c s c' →
      ReadsStmt c (.statement s) c'

/-! ### Closures -/

/-- Whether the list of parameters ends at a lexeme. -/
def endsParameters (l : Lexeme) : Bool := l = .symbol .pipe || isEnd l

/-- The body of a closure. -/
inductive ReadsBody : Cursor → Block → Cursor → Prop where
  | block {c c' b} : c.lexeme = .symbol .lbrace → ReadsStmt c (.block b) c' → ReadsBody c b c'
  | simple {c c' s} : c.lexeme ≠ .symbol .lbrace → ReadsSimple true c s c' →
      ReadsBody c ⟨s.span, [s]⟩ c'

/-- A closure. What stands between the parameter and the closing bar is passed over. -/
inductive ReadsClosure : Cursor → Closure → Cursor → Prop where
  | mk {c c₀ c₁ c' hasMove param paramType body} : Takes (.keyword .move) c hasMove c₀ →
      c₀.lexeme = .symbol .pipe → c₀.advance.lexeme = .ident param.text →
      param.span = c₀.advance.here → ReadsAnnotation c₀.advance.advance paramType c₁ →
      c₁.lexeme ≠ .symbol .comma → (c₁.skipUntil endsParameters).lexeme = .symbol .pipe →
      ReadsBody (c₁.skipUntil endsParameters).advance body c' → isEnd c'.lexeme →
      ReadsClosure c { param, paramType, body } c'

end ComputeKernel.Parse
