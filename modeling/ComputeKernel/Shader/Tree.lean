import ComputeKernel.Closure.Tree

/-!
Syntax trees of shader code. The precedence of an expression is that of C, where the bitwise
operators bind looser than comparisons; a tree says with nodes of their own where parentheses stand.
-/

namespace ComputeKernel.Shader

inductive UnaryOp where
  | minus | not | complement
  deriving DecidableEq, Repr, Inhabited

def UnaryOp.symbol : UnaryOp → String
  | minus => "-"
  | not => "!"
  | complement => "~"

inductive Expr where
  | literal (text : String)
  | var (name : String)
  | paren (inner : Expr)
  | unary (op : UnaryOp) (operand : Expr)
  | binary (op : BinaryOp) (left right : Expr)
  /-- A conversion, whose operand is written in parentheses. -/
  | cast (type : String) (operand : Expr)
  | member (receiver : Expr) (name : String)
  | index (base index : Expr)
  | call (function : String) (args : List Expr)
  /-- A conditional, written in parentheses. -/
  | choice (condition yes no : Expr)
  deriving Inhabited

inductive Stmt where
  | declare (type name : String) (value : Option Expr)
  | assign (target : Expr) (op : Option BinaryOp) (value : Expr)
  | branch (condition : Expr) (body : List Stmt) (otherwise : Option (List Stmt))
  /-- A loop that counts up to `bound`, which is tested before each run of the body. -/
  | count (type counter : String) (start : Expr) (inclusive : Bool) (bound : Expr)
      (body : List Stmt)
  | while (condition : Expr) (body : List Stmt)
  | jump (kind : Jump)
  | eval (value : Expr)
  | nested (body : List Stmt)
  deriving Inhabited

/-! ### Precedence -/

/-- How tightly a binary operator binds in C. -/
def rank : BinaryOp → Nat
  | .or => 2
  | .and => 3
  | .bitOr => 4
  | .bitXor => 5
  | .bitAnd => 6
  | .eq | .ne => 7
  | .lt | .le | .gt | .ge => 8
  | .shl | .shr => 9
  | .add | .sub => 10
  | .mul | .div | .rem => 11

def relationalRank : Nat := 8

def unaryRank : Nat := 12

def memberRank : Nat := 13

def primaryRank : Nat := 14

namespace Expr

def rank : Expr → Nat
  | literal _ | var _ | paren _ | choice .. => primaryRank
  | unary .. | cast .. => unaryRank
  | binary op _ _ => Shader.rank op
  | member .. | index .. | call .. => memberRank

/-- The expression, in parentheses if it binds looser than `least`. -/
def atLeast (least : Nat) (e : Expr) : Expr := if e.rank < least then paren e else e

theorem rank_binary_lt (op : BinaryOp) : Shader.rank op < unaryRank := by cases op <;> decide

theorem le_rank_atLeast {least : Nat} (e : Expr) (h : least ≤ primaryRank) :
    least ≤ (e.atLeast least).rank := by
  unfold atLeast
  split
  · exact h
  · omega

end Expr

end ComputeKernel.Shader
