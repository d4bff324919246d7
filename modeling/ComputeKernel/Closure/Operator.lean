/-!
Operators of the closure language. The rank of a binary operator orders the operators from the
loosest, `||`, to the tightest, `*`; operators of one rank associate to the left.
-/

namespace ComputeKernel

inductive UnaryOp where
  | neg | not
  deriving DecidableEq, Repr, Inhabited

def UnaryOp.symbol : UnaryOp → String
  | .neg => "-"
  | .not => "!"

inductive BinaryOp where
  | add | sub | mul | div | rem
  | shl | shr
  | bitAnd | bitOr | bitXor
  | eq | ne | lt | le | gt | ge
  | and | or
  deriving DecidableEq, Repr, Inhabited

namespace BinaryOp

/-- Every operator, arithmetic first and logical last. -/
def all : List BinaryOp :=
  [add, sub, mul, div, rem, shl, shr, bitAnd, bitOr, bitXor, eq, ne, lt, le, gt, ge, and, or]

def symbol : BinaryOp → String
  | add => "+" | sub => "-" | mul => "*" | div => "/" | rem => "%"
  | shl => "<<" | shr => ">>"
  | bitAnd => "&" | bitOr => "|" | bitXor => "^"
  | eq => "==" | ne => "!=" | lt => "<" | le => "<=" | gt => ">" | ge => ">="
  | and => "&&" | or => "||"

def isArithmetic : BinaryOp → Bool
  | add | sub | mul | div | rem => true
  | _ => false

def isShift : BinaryOp → Bool
  | shl | shr => true
  | _ => false

def isBitwise : BinaryOp → Bool
  | bitAnd | bitOr | bitXor => true
  | _ => false

def isComparison : BinaryOp → Bool
  | eq | ne | lt | le | gt | ge => true
  | _ => false

def isLogical : BinaryOp → Bool
  | and | or => true
  | _ => false

def ofSymbol? (s : String) : Option BinaryOp := all.find? fun op => op.symbol == s

/-- How tightly the operator binds in a closure. -/
def rank : BinaryOp → Nat
  | or => 1
  | and => 2
  | eq | ne | lt | le | gt | ge => 3
  | bitOr => 4
  | bitXor => 5
  | bitAnd => 6
  | shl | shr => 7
  | add | sub => 8
  | mul | div | rem => 9

end BinaryOp

end ComputeKernel
