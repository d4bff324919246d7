import ComputeKernel.Proofs.Parsing.Grammar

/-!
The printed form of a closure: the lexemes of its parts in the order of the parts, with places where
the source is free. The statement in the block behind an `else` or in the body of the closure may stand
there without braces, semicolons may stand alone between statements, and some semicolons and commas may
be left out.
-/

namespace ComputeKernel

/-- A place of a printed form. -/
inductive Slot where
  | token (l : Lexeme)
  /-- The closing bracket of the arguments of a type, which may be the first half of `>>`. -/
  | close
  /-- Semicolons on their own, as many as there are. -/
  | semicolons
  /-- One of two forms. -/
  | either (long short : List Slot)

namespace Slot

def symbol (s : Symbol) : Slot := token (.symbol s)

def keyword (k : Keyword) : Slot := token (.keyword k)

def ident (name : String) : Slot := token (.ident name)

/-- A symbol that may be left out. -/
def maybe (s : Symbol) : Slot := either [symbol s] []

/-- The symbol that is spelled like this. -/
def spelled (text : String) : Slot := symbol ((Symbol.longest? text.toList).getD default)

end Slot

open Slot

mutual

/-- Whether the lexemes in front of what is left are those of a place. -/
def Slot.FilledBy : Slot → List Lexeme → List Lexeme → Prop
  | token l, ls, left => ls = l :: left
  | close, ls, left =>
    ls = .symbol .gt :: left ∨ ∃ rest, ls = .symbol .shr :: rest ∧ left = .symbol .gt :: rest
  | semicolons, ls, left => ∃ n, ls = List.replicate n (.symbol .semicolon) ++ left
  | either long short, ls, left => Fills long ls left ∨ Fills short ls left

/-- Whether the lexemes in front of what is left are those of a printed form. -/
def Fills : List Slot → List Lexeme → List Lexeme → Prop
  | [], ls, left => ls = left
  | p :: ps, ls, left => ∃ mid, p.FilledBy ls mid ∧ Fills ps mid left

end

/-- What fills two forms, one behind the other, fills the first up to somewhere. -/
theorem fills_append {ps qs : List Slot} {ls left : List Lexeme} :
    Fills (ps ++ qs) ls left ↔ ∃ mid, Fills ps ls mid ∧ Fills qs mid left := by
  induction ps generalizing ls with
  | nil => simp [Fills]
  | cons p ps ih =>
    simp only [List.cons_append, Fills, ih]
    constructor
    · rintro ⟨mid, hp, mid', hps, hqs⟩
      exact ⟨mid', ⟨mid, hp, hps⟩, hqs⟩
    · rintro ⟨mid', ⟨mid, hp, hps⟩, hqs⟩
      exact ⟨mid, hp, mid', hps, hqs⟩

theorem fills_tokens (ls left : List Lexeme) : Fills (ls.map token) (ls ++ left) left := by
  induction ls with
  | nil => rfl
  | cons l ls ih => exact ⟨ls ++ left, rfl, ih⟩

/-! ### Lists -/

/-- Forms with commas between them. -/
def commas : List (List Slot) → List Slot
  | [] => []
  | ps :: rest => ps ++ rest.flatMap (symbol .comma :: ·)

theorem commas_cons_cons (ps qs : List Slot) (rest : List (List Slot)) :
    commas (ps :: qs :: rest) = ps ++ symbol .comma :: commas (qs :: rest) := by
  simp [commas]

/-- Arguments, behind the last of which a comma may be left out. -/
def argumentForm (args : List (List Slot)) : List Slot :=
  symbol .lparen :: (commas args ++ (if args.isEmpty then [] else [maybe .comma]) ++ [symbol .rparen])

/-- The items of a tuple. The comma behind a single one is what makes it a tuple. -/
def tupleForm (items : List (List Slot)) : List Slot :=
  symbol .lparen ::
    (commas items ++ [if items.length = 1 then symbol .comma else maybe .comma] ++ [symbol .rparen])

def braced (ps : List Slot) : List Slot := symbol .lbrace :: (ps ++ [symbol .rbrace])

/-! ### Types -/

def pathForm : Path → List Slot
  | [] => []
  | first :: rest => ident first :: rest.flatMap fun segment => [symbol .colonColon, ident segment]

/-- The arguments of a type, if it has any. -/
def typeArgumentForm (args : List (List Slot)) : List Slot :=
  if args.isEmpty then [] else symbol .lt :: (commas args ++ [close])

mutual

def HostType.form : HostType → List Slot
  | ⟨name, args⟩ => pathForm (Text.splitPath name) ++ typeArgumentForm (HostType.forms args)

def HostType.forms : List HostType → List (List Slot)
  | [] => []
  | t :: ts => t.form :: HostType.forms ts

end

/-! ### Expressions -/

def Literal.lexeme : Literal → Lexeme
  | .bool true => .keyword .true_
  | .bool false => .keyword .false_
  | .integer digits suffix => .integer digits suffix
  | .float digits suffix => .float digits suffix

/-- What stands behind the `else` of a conditional. -/
def Expr.elseForm (no : Expr) (form : List Slot) : List Slot :=
  match no with
  | .choice .. => [either (braced form) form]
  | _ => braced form

mutual

def Expr.form : Expr → List Slot
  | .literal _ value => [token value.lexeme]
  | .name _ text => [ident text]
  | .path _ p => pathForm p
  | .unary _ op e => spelled op.symbol :: e.form
  | .binary _ op l r => l.form ++ spelled op.symbol :: r.form
  | .cast _ e type => e.form ++ keyword .as :: type.type.form
  | .field _ e member => e.form ++ [symbol .dot, ident member.text]
  | .method _ e member args =>
    e.form ++ symbol .dot :: ident member.text :: argumentForm (Expr.forms args)
  | .call _ callee _ args => pathForm callee ++ argumentForm (Expr.forms args)
  | .index _ base i => base.form ++ symbol .lbracket :: (i.form ++ [symbol .rbracket])
  | .tuple _ items => tupleForm (Expr.forms items)
  | .paren _ e => symbol .lparen :: (e.form ++ [symbol .rparen])
  | .choice _ condition yes no =>
    keyword .if_ :: (condition.form ++ braced yes.form ++ keyword .else_ :: no.elseForm no.form)

def Expr.forms : List Expr → List (List Slot)
  | [] => []
  | e :: es => e.form :: Expr.forms es

end

/-! ### Statements -/

/-- Whether a statement ends with a semicolon. -/
def Stmt.isOpen : Stmt → Bool
  | .let .. | .assign .. | .jump .. => true
  | .eval _ e => ! Parse.endsWithBrace e
  | _ => false

/-- A statement with its semicolon, which the last one of a block may go without. -/
def Stmt.ended (s : Stmt) (form : List Slot) (isLast : Bool) : List Slot :=
  form ++ if s.isOpen then [if isLast then maybe .semicolon else symbol .semicolon] else []

def annotationForm : Option TypeRef → List Slot
  | none => []
  | some t => symbol .colon :: t.type.form

def initialForm : Option Expr → List Slot
  | none => []
  | some e => symbol .eq :: e.form

/-- The operator of an assignment, with the sign of a compound one in front. -/
def assignSpelling (op : Option BinaryOp) : String :=
  match op with
  | none => "="
  | some op => op.symbol ++ "="

/-- What stands behind the `else` of a conditional, from the form of the block and that of what is in it.
The block that stands for an `else if` has no braces in the source. -/
def Block.elseForm (b : Block) (form inner : List Slot) : List Slot :=
  match b.stmts with
  | [.if ..] => [either form inner]
  | _ => form

mutual

/-- The form of a statement without its semicolon. -/
def Stmt.form : Stmt → List Slot
  | .let _ mutable name type value =>
    Slot.keyword .let_ :: ((if mutable then [Slot.keyword .mut_] else []) ++
      ident name.text :: (annotationForm type ++ initialForm value))
  | .assign _ op place value => place.form ++ spelled (assignSpelling op) :: value.form
  | .if _ condition body otherwise =>
    Slot.keyword .if_ :: (condition.form ++ body.form ++
      match otherwise with
      | none => []
      | some b => Slot.keyword .else_ :: b.elseForm b.form b.inner)
  | .for _ counter start stop inclusive body =>
    Slot.keyword .for_ :: ident counter.text :: Slot.keyword .in_ :: (start.form ++
      symbol (if inclusive then .dotDotEq else .dotDot) :: (stop.form ++ body.form))
  | .while _ condition body => Slot.keyword .while_ :: (condition.form ++ body.form)
  | .loop _ body => Slot.keyword .loop :: body.form
  | .jump _ kind => [Slot.keyword (Parse.jumpKeyword kind)]
  | .eval _ value => value.form
  | .nested _ body => body.form

def Block.form : Block → List Slot
  | ⟨_, stmts⟩ => braced (semicolons :: Stmt.sequenceForm stmts)

def Block.inner : Block → List Slot
  | ⟨_, stmts⟩ => Stmt.sequenceForm stmts

/-- Statements one behind the other, each with the semicolons on their own behind it. -/
def Stmt.sequenceForm : List Stmt → List Slot
  | [] => []
  | s :: ss => s.ended s.form ss.isEmpty ++ semicolons :: Stmt.sequenceForm ss

end

/-! ### Closures -/

/-- Whether a statement may be the body of a closure without braces. -/
def Stmt.isSimple : Stmt → Bool
  | .assign .. | .eval .. => true
  | _ => false

def Block.bodyForm (b : Block) : List Slot :=
  match b.stmts with
  | [s] => if s.isSimple then [either b.form (s.ended s.form true)] else b.form
  | _ => b.form

/-- A closure, with what else stands in front of the closing bar of its parameter. -/
def Closure.form (c : Closure) (extra : List Lexeme) : List Slot :=
  either [Slot.keyword .move] [] :: symbol .pipe :: ident c.param.text ::
    (annotationForm c.paramType ++ extra.map token ++ symbol .pipe :: c.body.bodyForm)

end ComputeKernel
