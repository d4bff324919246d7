import ComputeKernel.Proofs.Parsing.Grammar

/-!
The grammar of closures on lexemes, with levels. A derivation says which lexemes stand in front of
and behind the phrases that something is made of, and how many blocks and expressions are open at
once on the way; nothing bounds their number, and no reading is in it.
-/

namespace ComputeKernel.Parse

/-- The first lexeme, the end of input if there is none. -/
def first (ls : List Lexeme) : Lexeme := ls.headD .endOfInput

@[simp] theorem first_cons (l : Lexeme) (ls : List Lexeme) : first (l :: ls) = l := rfl

/-- The lexeme `l` is left out if it stands in front. -/
def Drops (l : Lexeme) (ls ls' : List Lexeme) : Prop := ls = l :: ls' ∨ (first ls ≠ l ∧ ls' = ls)

/-! ### Types -/

/-- The kinds of phrases of the grammar of types. -/
inductive TypePart where
  | tail | type | args

/-- A closing bracket, which may be the first half of `>>`. -/
inductive DerivesAngle : List Lexeme → List Lexeme → Prop where
  | whole {ls} : DerivesAngle (.symbol .gt :: ls) ls
  | half {ls} : DerivesAngle (.symbol .shr :: ls) (.symbol .gt :: ls)

/-- A phrase of types in front of the rest of lexemes. -/
inductive DerivesType : TypePart → List Lexeme → List Lexeme → Prop where
  | tailEnd {ls} : first ls ≠ .symbol .colonColon → DerivesType .tail ls ls
  | tailMore {segment ls ls'} : DerivesType .tail ls ls' →
      DerivesType .tail (.symbol .colonColon :: .ident segment :: ls) ls'
  | plain {name ls ls'} : DerivesType .tail ls ls' → first ls' ≠ .symbol .lt →
      DerivesType .type (.ident name :: ls) ls'
  | generic {name ls ls₁ ls₂ ls'} : DerivesType .tail ls (.symbol .lt :: ls₁) →
      DerivesType .args ls₁ ls₂ → DerivesAngle ls₂ ls' → DerivesType .type (.ident name :: ls) ls'
  | lastArg {ls ls'} : DerivesType .type ls ls' → first ls' ≠ .symbol .comma →
      DerivesType .args ls ls'
  | moreArgs {ls ls₁ ls'} : DerivesType .type ls (.symbol .comma :: ls₁) →
      DerivesType .args ls₁ ls' → DerivesType .args ls ls'

/-! ### Expressions -/

/-- The kinds of phrases of the grammar of expressions. Whether an expression is a conditional, and
so ends with a brace, matters to the statement that it makes; where a phrase is read behind a part of
an expression, that is told of the part and of the whole. -/
inductive Part where
  | expression (floor : Nat) (braced : Bool)
  | operators (floor : Nat) (braced whole : Bool)
  | operand (braced : Bool)
  | members (braced whole : Bool)
  | primary (braced : Bool)
  | conditional
  | tupleItems
  | branch
  | arguments
  | argumentItems

/-- Whether no cast and no operator of at least the rank `floor` begins with a lexeme. -/
def StopsAt (floor : Nat) (l : Lexeme) : Prop :=
  l ≠ .keyword .as ∧ ∀ s op, l = .symbol s → s.binaryOp? = some op → op.rank < floor

/-- Whether a lexeme is a literal. -/
def isLiteral : Lexeme → Bool
  | .integer .. | .float .. | .keyword .true_ | .keyword .false_ => true
  | _ => false

/-- A phrase of expressions in front of the rest of lexemes, with the number of expressions that are
open at once in it. -/
inductive Derives : Nat → Part → List Lexeme → List Lexeme → Prop where
  | expression {m n floor b b' ls ls₁ ls'} : Derives m (.operand b) ls ls₁ →
      Derives n (.operators floor b b') ls₁ ls' →
      Derives (max m n + 1) (.expression floor b') ls ls'
  | noOperator {floor b ls} : StopsAt floor (first ls) → Derives 0 (.operators floor b b) ls ls
  | cast {n floor b b' ls ls₁ ls'} : DerivesType .type ls ls₁ →
      Derives n (.operators floor false b') ls₁ ls' →
      Derives n (.operators floor b b') (.keyword .as :: ls) ls'
  | binary {m n floor b b' r s op ls ls₁ ls'} : s.binaryOp? = some op → floor ≤ op.rank →
      Derives m (.expression (op.rank + 1) r) ls ls₁ →
      Derives n (.operators floor false b') ls₁ ls' →
      Derives (max m n) (.operators floor b b') (.symbol s :: ls) ls'
  | neg {n b ls ls'} : Derives n (.operand b) ls ls' →
      Derives n (.operand false) (.symbol .minus :: ls) ls'
  | not {n b ls ls'} : Derives n (.operand b) ls ls' →
      Derives n (.operand false) (.symbol .bang :: ls) ls'
  | plain {m n b b' ls ls₁ ls'} : Derives m (.primary b) ls ls₁ →
      Derives n (.members b b') ls₁ ls' → Derives (max m n) (.operand b') ls ls'
  | noMember {b ls} : first ls ≠ .symbol .dot → first ls ≠ .symbol .lbracket →
      first ls ≠ .symbol .lparen → Derives 0 (.members b b) ls ls
  | method {m n b b' name ls ls₁ ls'} : Derives m .arguments (.symbol .lparen :: ls) ls₁ →
      Derives n (.members false b') ls₁ ls' →
      Derives (max m n) (.members b b') (.symbol .dot :: .ident name :: .symbol .lparen :: ls) ls'
  | field {n b b' name ls ls'} : first ls ≠ .symbol .lparen → Derives n (.members false b') ls ls' →
      Derives n (.members b b') (.symbol .dot :: .ident name :: ls) ls'
  | index {m n b b' i ls ls₁ ls'} : Derives m (.expression 0 i) ls (.symbol .rbracket :: ls₁) →
      Derives n (.members false b') ls₁ ls' →
      Derives (max m n) (.members b b') (.symbol .lbracket :: ls) ls'
  | literal {l ls} : isLiteral l → Derives 0 (.primary false) (l :: ls) ls
  | path {name ls ls'} : DerivesType .tail ls ls' → first ls' ≠ .symbol .lparen →
      Derives 0 (.primary false) (.ident name :: ls) ls'
  | call {n name ls ls₁ ls'} : DerivesType .tail ls (.symbol .lparen :: ls₁) →
      Derives n .arguments (.symbol .lparen :: ls₁) ls' →
      Derives n (.primary false) (.ident name :: ls) ls'
  | paren {n b ls ls'} : Derives n (.expression 0 b) ls (.symbol .rparen :: ls') →
      Derives n (.primary false) (.symbol .lparen :: ls) ls'
  | tuple {m n b ls ls₁ ls'} : Derives m (.expression 0 b) ls ls₁ →
      first ls₁ ≠ .symbol .rparen → Derives n .tupleItems ls₁ (.symbol .rparen :: ls') →
      Derives (max m n) (.primary false) (.symbol .lparen :: ls) ls'
  | choice {n ls ls'} : Derives n .conditional (.keyword .if_ :: ls) ls' →
      Derives n (.primary true) (.keyword .if_ :: ls) ls'
  | ifElse {k m n b ls ls₁ ls₂ ls'} : Derives k (.expression 0 b) ls ls₁ →
      Derives m .branch ls₁ (.keyword .else_ :: ls₂) → Derives n .branch ls₂ ls' →
      Derives (max k (max m n)) .conditional (.keyword .if_ :: ls) ls'
  | ifChain {k m n b ls ls₁ ls₂ ls'} : Derives k (.expression 0 b) ls ls₁ →
      Derives m .branch ls₁ (.keyword .else_ :: ls₂) → Derives n .conditional ls₂ ls' →
      Derives (max k (max m n)) .conditional (.keyword .if_ :: ls) ls'
  | noItem {ls} : first ls ≠ .symbol .comma → Derives 0 .tupleItems ls ls
  | lastComma {ls} : Derives 0 .tupleItems (.symbol .comma :: .symbol .rparen :: ls)
      (.symbol .rparen :: ls)
  | moreItems {m n b ls ls₁ ls'} : first ls ≠ .symbol .rparen → Derives m (.expression 0 b) ls ls₁ →
      Derives n .tupleItems ls₁ ls' → Derives (max m n) .tupleItems (.symbol .comma :: ls) ls'
  | branch {n b ls ls'} : Derives n (.expression 0 b) ls (.symbol .rbrace :: ls') →
      Derives n .branch (.symbol .lbrace :: ls) ls'
  | arguments {n ls ls'} : Derives n .argumentItems ls (.symbol .rparen :: ls') →
      Derives n .arguments (.symbol .lparen :: ls) ls'
  | noArgument {ls} : first ls = .symbol .rparen ∨ first ls = .endOfInput →
      Derives 0 .argumentItems ls ls
  | lastArgument {n b ls ls'} : Derives n (.expression 0 b) ls ls' →
      first ls' ≠ .symbol .comma → Derives n .argumentItems ls ls'
  | moreArguments {m n b ls ls₁ ls'} : Derives m (.expression 0 b) ls (.symbol .comma :: ls₁) →
      Derives n .argumentItems ls₁ ls' → Derives (max m n) .argumentItems ls ls'

/-! ### Statements -/

/-- An annotation behind a name, if there is one. -/
inductive DerivesAnnotation : List Lexeme → List Lexeme → Prop where
  | none {ls} : first ls ≠ .symbol .colon → DerivesAnnotation ls ls
  | some {ls ls'} : DerivesType .type ls ls' → DerivesAnnotation (.symbol .colon :: ls) ls'

/-- A value behind `=`, if there is one. -/
inductive DerivesInitial : Nat → List Lexeme → List Lexeme → Prop where
  | none {ls} : first ls ≠ .symbol .eq → DerivesInitial 0 ls ls
  | some {n b ls ls'} : Derives n (.expression 0 b) ls ls' →
      DerivesInitial n (.symbol .eq :: ls) ls'

/-- The end of a statement: a semicolon, unless it may be left out, as `free` says. -/
inductive DerivesEnd : Bool → List Lexeme → List Lexeme → Prop where
  | free {ls} : DerivesEnd true ls ls
  | semicolon {ls} : DerivesEnd false (.symbol .semicolon :: ls) ls

/-- Whether a lexeme ends the last statement of a block, or of a body without braces. -/
def endsLast (isBody : Bool) (l : Lexeme) : Bool :=
  l == .symbol .rbrace || (isBody && l == .endOfInput)

/-- An expression or an assignment. -/
inductive DerivesSimple (isBody : Bool) : Nat → List Lexeme → List Lexeme → Prop where
  | eval {n b ls ls₁ ls'} : Derives n (.expression 0 b) ls ls₁ →
      (∀ s, first ls₁ = .symbol s → s.assignOp? = none) →
      DerivesEnd (endsLast isBody (first ls₁) || b) ls₁ ls' → DerivesSimple isBody n ls ls'
  | assign {m n b b' s op ls ls₁ ls₂ ls'} : Derives m (.expression 0 b) ls (.symbol s :: ls₁) →
      s.assignOp? = some op → Derives n (.expression 0 b') ls₁ ls₂ →
      DerivesEnd (endsLast isBody (first ls₂)) ls₂ ls' → DerivesSimple isBody (max m n) ls ls'

/-- The kinds of phrases of the grammar of statements. -/
inductive StmtPart where
  | block | statements | statement | conditional | otherwise

/-- A phrase of statements in front of the rest of lexemes, with the number of blocks and
expressions that are open at once in it. -/
inductive DerivesStmt : Nat → StmtPart → List Lexeme → List Lexeme → Prop where
  | block {n ls ls'} : DerivesStmt n .statements ls (.symbol .rbrace :: ls') →
      DerivesStmt (n + 1) .block (.symbol .lbrace :: ls) ls'
  | noStatement {ls} : isBlockEnd (first ls) → DerivesStmt 0 .statements ls ls
  | emptyStatement {n ls ls'} : DerivesStmt n .statements ls ls' →
      DerivesStmt n .statements (.symbol .semicolon :: ls) ls'
  | moreStatements {m n ls ls₁ ls'} : ¬ isBlockEnd (first ls) → first ls ≠ .symbol .semicolon →
      DerivesStmt m .statement ls ls₁ → DerivesStmt n .statements ls₁ ls' →
      DerivesStmt (max m n) .statements ls ls'
  | let {n name ls ls₁ ls₂ ls₃ ls'} : Drops (.keyword .mut_) ls (.ident name :: ls₁) →
      DerivesAnnotation ls₁ ls₂ → DerivesInitial n ls₂ ls₃ →
      DerivesEnd (first ls₃ == .symbol .rbrace) ls₃ ls' →
      DerivesStmt n .statement (.keyword .let_ :: ls) ls'
  | if {n ls ls'} : DerivesStmt n .conditional (.keyword .if_ :: ls) ls' →
      DerivesStmt n .statement (.keyword .if_ :: ls) ls'
  | conditional {k m n b ls ls₁ ls₂ ls'} : Derives k (.expression 0 b) ls ls₁ →
      DerivesStmt m .block ls₁ ls₂ → DerivesStmt n .otherwise ls₂ ls' →
      DerivesStmt (max k (max m n)) .conditional (.keyword .if_ :: ls) ls'
  | noElse {ls} : first ls ≠ .keyword .else_ → DerivesStmt 0 .otherwise ls ls
  | elseBlock {n ls ls'} : DerivesStmt n .block ls ls' →
      DerivesStmt n .otherwise (.keyword .else_ :: ls) ls'
  | elseIf {n ls ls'} : DerivesStmt n .conditional ls ls' →
      DerivesStmt n .otherwise (.keyword .else_ :: ls) ls'
  | for {k m n b b' name ls ls₁ ls₂ ls'} {inclusive : Bool} :
      Derives k (.expression 0 b) ls (.symbol (if inclusive then .dotDotEq else .dotDot) :: ls₁) →
      Derives m (.expression 0 b') ls₁ ls₂ → DerivesStmt n .block ls₂ ls' →
      DerivesStmt (max k (max m n)) .statement
        (.keyword .for_ :: .ident name :: .keyword .in_ :: ls) ls'
  | while {m n b ls ls₁ ls'} : Derives m (.expression 0 b) ls ls₁ → DerivesStmt n .block ls₁ ls' →
      DerivesStmt (max m n) .statement (.keyword .while_ :: ls) ls'
  | loop {n ls ls'} : DerivesStmt n .block ls ls' →
      DerivesStmt n .statement (.keyword .loop :: ls) ls'
  | jump {kind ls ls'} : DerivesEnd (first ls == .symbol .rbrace) ls ls' →
      DerivesStmt 0 .statement (.keyword (jumpKeyword kind) :: ls) ls'
  | nested {n ls ls'} : DerivesStmt n .block (.symbol .lbrace :: ls) ls' →
      DerivesStmt n .statement (.symbol .lbrace :: ls) ls'
  | simple {n ls ls'} : first ls ≠ .keyword .if_ → DerivesSimple false n ls ls' →
      DerivesStmt n .statement ls ls'

/-! ### Closures -/

/-- The body of a closure. -/
inductive DerivesBody : Nat → List Lexeme → List Lexeme → Prop where
  | block {n ls ls'} : DerivesStmt n .block (.symbol .lbrace :: ls) ls' →
      DerivesBody n (.symbol .lbrace :: ls) ls'
  | simple {n ls ls'} : first ls ≠ .symbol .lbrace → DerivesSimple true n ls ls' →
      DerivesBody n ls ls'

/-- A closure, with the number of blocks and expressions that are open at once in it. What stands
between the parameter and the closing bar is passed over. -/
inductive DerivesClosure : Nat → List Lexeme → Prop where
  | mk {n name ls ls₁ skipped ls₂} :
      Drops (.keyword .move) ls (.symbol .pipe :: .ident name :: ls₁) →
      DerivesAnnotation ls₁ (skipped ++ .symbol .pipe :: ls₂) →
      first (skipped ++ .symbol .pipe :: ls₂) ≠ .symbol .comma →
      (∀ l ∈ skipped, ¬ endsParameters l) → DerivesBody n ls₂ [.endOfInput] → DerivesClosure n ls

/-! ### Lengths -/

theorem DerivesAngle.length_le {ls ls' : List Lexeme} (h : DerivesAngle ls ls') :
    ls'.length ≤ ls.length := by
  cases h <;> simp

/-- The least number of lexemes of a phrase of types. -/
def TypePart.least : TypePart → Nat
  | tail => 0
  | type | args => 1

theorem DerivesType.length_le {p : TypePart} {ls ls' : List Lexeme} (h : DerivesType p ls ls') :
    ls'.length + p.least ≤ ls.length := by
  induction h with
  | tailEnd _ => exact Nat.le_refl _
  | tailMore _ ih =>
    simp only [TypePart.least, List.length_cons] at ih ⊢
    omega
  | plain _ _ ih =>
    simp only [TypePart.least, List.length_cons] at ih ⊢
    omega
  | generic _ _ hclose ihRest ihArgs =>
    have := hclose.length_le
    simp only [TypePart.least, List.length_cons] at ihRest ihArgs ⊢
    omega
  | lastArg _ _ ih => exact ih
  | moreArgs _ _ ihType ihRest =>
    simp only [TypePart.least, List.length_cons] at ihType ihRest ⊢
    omega

/-- The least number of lexemes of a phrase of expressions. -/
def Part.least : Part → Nat
  | operators .. | members .. | tupleItems | argumentItems => 0
  | expression .. | operand .. | primary .. | conditional | branch | arguments => 1

theorem Derives.length_le {n : Nat} {p : Part} {ls ls' : List Lexeme} (h : Derives n p ls ls') :
    ls'.length + p.least ≤ ls.length := by
  induction h with
  | cast htype _ ih =>
    have := htype.length_le
    simp only [TypePart.least, Part.least, List.length_cons] at *
    omega
  | path htail _ =>
    have := htail.length_le
    simp only [TypePart.least, Part.least, List.length_cons] at *
    omega
  | call htail _ ih =>
    have := htail.length_le
    simp only [TypePart.least, Part.least, List.length_cons] at *
    omega
  | _ =>
    simp only [Part.least, List.length_cons] at *
    omega

/-- An expression begins with one of these lexemes. -/
def startsExpression : Lexeme → Bool
  | .ident _ | .symbol .lparen | .symbol .minus | .symbol .bang | .keyword .if_ => true
  | l => isLiteral l

/-- Whether a phrase begins as expressions do. -/
def Part.isExpression : Part → Bool
  | expression .. | operand .. | primary .. | conditional => true
  | _ => false

theorem Derives.starts {n : Nat} {p : Part} {ls ls' : List Lexeme} (h : Derives n p ls ls')
    (hp : p.isExpression) : startsExpression (first ls) := by
  induction h with
  | expression _ _ ih _ => exact ih rfl
  | plain _ _ ih _ => exact ih rfl
  | @literal l _ hl =>
    unfold startsExpression
    rw [first_cons]
    split <;> first | rfl | exact hl
  | neg | not | path | call | paren | tuple | choice | ifElse | ifChain => rfl
  | _ => cases hp

end ComputeKernel.Parse
