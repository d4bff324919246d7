import ComputeKernel.Shader.Tree

/-!
The text of shader code. Statements take one line each, except that a block opens and closes on
lines of its own; four blanks mark a level of nesting. A conditional alone behind `else` continues
the line of the `else`.
-/

namespace ComputeKernel.Shader

namespace Expr

mutual

def text : Expr → String
  | literal text => text
  | var name => name
  | paren inner => "(" ++ inner.text ++ ")"
  | unary op operand => op.symbol ++ operand.text
  | binary op left right => left.text ++ " " ++ op.symbol ++ " " ++ right.text
  | cast type operand => "(" ++ type ++ ")(" ++ operand.text ++ ")"
  | member receiver name => receiver.text ++ "." ++ name
  | index base i => base.text ++ "[" ++ i.text ++ "]"
  | call function args => function ++ "(" ++ ", ".intercalate (texts args) ++ ")"
  | choice condition yes no =>
    "(" ++ condition.text ++ " ? " ++ yes.text ++ " : " ++ no.text ++ ")"

def texts : List Expr → List String
  | [] => []
  | e :: es => e.text :: texts es

end

/-- Whether the text begins with a minus, which a second one in front would turn into `--`. -/
def startsWithMinus : Expr → Bool
  | literal text => text.toList.head? = some '-'
  | var name => name.toList.head? = some '-'
  | unary op _ => op = .minus
  | binary _ left _ => left.startsWithMinus
  | member receiver _ => receiver.startsWithMinus
  | index base _ => base.startsWithMinus
  | call function _ => function.toList.head? = some '-'
  | paren _ | cast .. | choice .. => false

/-- What stands behind a text does not decide whether a minus stands in front, unless it begins with
one itself. -/
theorem head?_append_eq_minus_iff {a b : String} (h : b.toList.head? ≠ some '-') :
    (a ++ b).toList.head? = some '-' ↔ a.toList.head? = some '-' := by
  rw [String.toList_append]
  cases a.toList with
  | nil => simpa using h
  | cons c cs => simp

theorem startsWithMinus_iff (e : Expr) :
    e.startsWithMinus = true ↔ e.text.toList.head? = some '-' := by
  fun_induction startsWithMinus e with
  | case1 t => simp [text]
  | case2 n => simp [text]
  | case3 op operand =>
    rw [text]
    cases op <;> simp [UnaryOp.symbol]
  | case4 op left right ih =>
    rw [text, String.append_assoc, String.append_assoc, String.append_assoc, ih,
      head?_append_eq_minus_iff (by simp)]
  | case5 receiver name ih =>
    rw [text, String.append_assoc, ih, head?_append_eq_minus_iff (by simp)]
  | case6 base i ih =>
    rw [text, String.append_assoc, String.append_assoc, ih, head?_append_eq_minus_iff (by simp)]
  | case7 function args =>
    rw [text, String.append_assoc, String.append_assoc, decide_eq_true_iff,
      head?_append_eq_minus_iff (by simp)]
  | case8 inner => simp [text]
  | case9 type operand => simp [text]
  | case10 c y n => simp [text]

end Expr

/-! ### Statements -/

def indent (depth : Nat) (line : String) : String :=
  String.ofList (List.replicate (4 * depth) ' ') ++ line

def jumpLine : Jump → String
  | .break => "break;"
  | .continue => "continue;"
  | .return => "return;"

namespace Stmt

mutual

/-- The lines of a statement. `lead` stands in front of a conditional. -/
def lines (depth : Nat) (lead : String) : Stmt → List String
  | declare type name value =>
    let initial := match value with
      | some v => " = " ++ v.text
      | none => ""
    [indent depth (type ++ " " ++ name ++ initial ++ ";")]
  | assign target op value =>
    let operator := match op with
      | some op => op.symbol
      | none => ""
    [indent depth (target.text ++ " " ++ operator ++ "= " ++ value.text ++ ";")]
  | branch condition body otherwise =>
    indent depth (lead ++ "if (" ++ condition.text ++ ")") ::
      (blockLines depth body ++ elseLines depth otherwise)
  | count type counter start inclusive bound body =>
    let test := if inclusive then " <= " else " < "
    indent depth
        ("for (" ++ type ++ " " ++ counter ++ " = " ++ start.text ++ "; " ++ counter ++ test ++
          bound.text ++ "; " ++ counter ++ "++)") ::
      blockLines depth body
  | .while condition body =>
    indent depth ("while (" ++ condition.text ++ ")") :: blockLines depth body
  | jump kind => [indent depth (jumpLine kind)]
  | eval value => [indent depth (value.text ++ ";")]
  | nested body => blockLines depth body

def elseLines (depth : Nat) : Option (List Stmt) → List String
  | none => []
  | some [branch condition body otherwise] => lines depth "else " (branch condition body otherwise)
  | some body => indent depth "else" :: blockLines depth body

def blockLines (depth : Nat) (body : List Stmt) : List String :=
  indent depth "\x7b" :: (listLines (depth + 1) body ++ [indent depth "\x7d"])

def listLines (depth : Nat) : List Stmt → List String
  | [] => []
  | s :: ss => lines depth "" s ++ listLines depth ss

end

/-- The text of a function body, braces included. -/
def bodyText (body : List Stmt) : String := "\n".intercalate (blockLines 0 body)

end Stmt

end ComputeKernel.Shader
