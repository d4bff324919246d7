import ComputeKernel.Closure.Operator
import ComputeKernel.Host.HostType
import ComputeKernel.Source.Span

/-!
Syntax trees of closures. Each node carries the range of the source that it was read from.
Parentheses are nodes of their own, so that the grouping of the source is kept.
-/

namespace ComputeKernel

/-- An identifier where it is declared or selected. -/
structure Name where
  text : String
  span : Span
  deriving DecidableEq, Repr, Inhabited

/-- A type where it is written. -/
structure TypeRef where
  type : HostType
  span : Span
  deriving BEq, Repr, Inhabited

/-- A literal. A number keeps its digits as written, its suffix apart. -/
inductive Literal where
  | bool (value : Bool)
  | integer (digits : String) (suffix : Option String)
  | float (digits : String) (suffix : Option String)
  deriving DecidableEq, Repr, Inhabited

/-- Whether the literal takes its type from where it stands. -/
def Literal.isFlexible : Literal → Bool
  | .bool _ => false
  | .integer _ suffix | .float _ suffix => suffix.isNone

/-- A path, segment by segment. -/
abbrev Path := List String

namespace Path

def text (path : Path) : String := Text.joinPath path

/-- The last segment, empty if the path has none. -/
def last (path : Path) : String := path.getLast?.getD ""

/-- The segment in front of the last one. -/
def owner? (path : Path) : Option String := path.dropLast.getLast?

/-- Whether `path` is the end of the path `full`, segment by segment. -/
def names (path : Path) (full : String) : Bool := path.isSuffixOf (Text.splitPath full)

end Path

inductive Expr where
  | literal (span : Span) (value : Literal)
  /-- A single identifier: a local, the thread index, a capture or a static. -/
  | name (span : Span) (text : String)
  /-- A path of two or more segments. -/
  | path (span : Span) (path : Path)
  | unary (span : Span) (op : UnaryOp) (operand : Expr)
  | binary (span : Span) (op : BinaryOp) (left right : Expr)
  | cast (span : Span) (operand : Expr) (type : TypeRef)
  | field (span : Span) (receiver : Expr) (member : Name)
  | method (span : Span) (receiver : Expr) (member : Name) (args : List Expr)
  /-- A call through a path, such as a constructor or an intrinsic. -/
  | call (span : Span) (callee : Path) (calleeSpan : Span) (args : List Expr)
  | index (span : Span) (base index : Expr)
  | tuple (span : Span) (items : List Expr)
  | paren (span : Span) (inner : Expr)
  /-- A conditional in value position, one expression to a branch. -/
  | choice (span : Span) (condition yes no : Expr)
  deriving Inhabited

def Expr.span : Expr → Span
  | .literal span _ | .name span _ | .path span _ | .unary span .. | .binary span ..
  | .cast span .. | .field span .. | .method span .. | .call span .. | .index span ..
  | .tuple span _ | .paren span _ | .choice span .. => span

/-- How control leaves the statement sequence. -/
inductive Jump where
  | break | continue | return
  deriving DecidableEq, Repr, Inhabited

mutual

inductive Stmt where
  | let (span : Span) (mutable : Bool) (name : Name) (type : Option TypeRef) (value : Option Expr)
  /-- An assignment, with the operator of a compound one. -/
  | assign (span : Span) (op : Option BinaryOp) (place value : Expr)
  /-- A conditional. A chain of `else if` is a conditional alone in the block behind `else`. -/
  | if (span : Span) (condition : Expr) (body : Block) (otherwise : Option Block)
  | for (span : Span) (counter : Name) (start stop : Expr) (inclusive : Bool) (body : Block)
  | while (span : Span) (condition : Expr) (body : Block)
  | loop (span : Span) (body : Block)
  | jump (span : Span) (kind : Jump)
  | eval (span : Span) (value : Expr)
  | nested (span : Span) (body : Block)

inductive Block where
  | mk (span : Span) (stmts : List Stmt)

end

instance : Inhabited Block := ⟨⟨default, []⟩⟩

instance : Inhabited Stmt := ⟨.jump default .break⟩

def Block.span : Block → Span
  | ⟨span, _⟩ => span

def Block.stmts : Block → List Stmt
  | ⟨_, stmts⟩ => stmts

def Stmt.span : Stmt → Span
  | .let span .. | .assign span .. | .if span .. | .for span .. | .while span .. | .loop span _
  | .jump span _ | .eval span _ | .nested span _ => span

/-- A closure of one parameter, the index of the thread. -/
structure Closure where
  param : Name
  paramType : Option TypeRef
  body : Block
  deriving Inhabited

end ComputeKernel
