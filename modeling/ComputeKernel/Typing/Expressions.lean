import ComputeKernel.Typing.Calls
import ComputeKernel.Typing.Operators

/-!
Types of expressions. A name is looked up among the locals in scope, then among the fields, then
among the statics, which any unique end of their path names.
-/

namespace ComputeKernel.Check

open Shader (scalarMethod?)

def literal : Literal → Typed
  | .bool _ => { type := .bool }
  | .integer _ suffix =>
    match suffix with
    | none => { type := .scalar .int, family := some .integer }
    | some s => { type := .scalar (if s ∈ ["u", "U", "u32", "usize"] then .uint else .int) }
  | .float _ suffix =>
    match suffix with
    | none => { type := .scalar .float, family := some .float }
    | some s => { type := .scalar (if s ∈ ["d", "D", "f64"] then .double else .float) }

/-! ### Names -/

/-- Places of the statics that a path names. -/
def staticsNamed (path : Path) (statics : List StaticDecl) : List Nat :=
  (List.range statics.length).filter fun i => (statics[i]?).any fun s => path.names s.path

/-- What is known of a local, unless an error left it without a type. -/
def localType (id : Nat) : Check (Option Typed) := do
  match (← get).model.local? id with
  | some l =>
    if l.type = .unknown then return none
    else return some { type := l.type, family := l.family, origin := l.family.map fun _ => id }
  | none => return none

def captureType (index : Nat) (f : FieldDecl) (span : Span) : Check (Option Typed) := do
  setReferent span (.capture index)
  match Ty.ofText? f.type with
  | some t => return some { type := t }
  | none =>
    fail s!"capture `{f.name}` has type `{f.type}` which kernels cannot use" span

def staticType (index : Nat) (s : StaticDecl) (span : Span) : Check (Option Typed) := do
  setReferent span (.static index)
  match Ty.ofText? s.type with
  | some t => return some { type := t }
  | none =>
    fail s!"static `{s.path}` has type `{s.type}` which kernels cannot use" span

/-- The static that a path names, which has to be one only. -/
def static (statics : List StaticDecl) (path : Path) (span : Span) : Check (Option Typed) := do
  match staticsNamed path statics with
  | [] => fail s!"cannot find value `{Path.text path}` in this kernel" span
  | [index] =>
    match statics[index]? with
    | some s => staticType index s span
    | none => return none
  | several =>
    let candidates := several.filterMap fun i => (statics[i]?).map StaticDecl.path
    failWithHelp s!"`{Path.text path}` is ambiguous"
      ("qualify the path: " ++ ", ".intercalate candidates) span

def name (catalog : Catalog) (text : String) (span : Span) : Check (Option Typed) := do
  match ← findLocal? text with
  | some id =>
    setReferent span (.local id)
    localType id
  | none =>
    match catalog.fields.findIdx? fun f => f.name == text with
    | some index =>
      match catalog.fields[index]? with
      | some f => captureType index f span
      | none => return none
    | none => static catalog.statics [text] span

def path (catalog : Catalog) (path : Path) (span : Span) : Check (Option Typed) := do
  if path.owner? = some matrixIndexOwner then
    failWithHelp s!"`{Path.text path}` can only be used inside a matrix indexer"
      "select matrix elements with `m[(MatrixIndex::M11, MatrixIndex::M22)]`" span
  else
    static catalog.statics path span

/-! ### Expressions -/

/-- The type of a conditional whose branches have the types `yes` and `no`. -/
def choice (yes no : Typed) (span : Span) : Check (Option Typed) := do
  match ← unify yes no with
  | some t => return some t
  | none =>
    fail
      s!"`if` and `else` have incompatible types: `{yes.type.display}` and `{no.type.display}`" span

/-- Reports a condition that is no truth value. -/
def requireBool (t : Option Typed) (span : Span) : Check Unit := do
  if let some t := t then
    if t.type ≠ .bool then
      error s!"mismatched types: expected `bool`, found `{t.type.display}`" span

/-- The selectors that pick elements out of a matrix of this type. -/
def swizzleItems? (base : Ty) (index : Expr) :
    Option (ScalarKind × Nat × Nat × List Expr) :=
  match base, index with
  | .value (.matrix k rows columns), .tuple _ items => some (k, rows, columns, items)
  | _, _ => none

mutual

def expr (catalog : Catalog) : Expr → Check (Option Typed)
  | .literal span value => typed span (some (literal value))
  | .name span text => do typed span (← name catalog text span)
  | .path span p => do typed span (← path catalog p span)
  | .unary span op operand => do
    match ← expr catalog operand with
    | none => return none
    | some t => typed span (← unary op t span)
  | .binary span op left right => do
    let l ← expr catalog left
    let r ← expr catalog right
    match l, r with
    | some l, some r => typed span (← binary op l r span)
    | _, _ => return none
  | .cast span operand type => do
    match ← expr catalog operand with
    | none => return none
    | some t => typed span (← cast t type)
  | .field span receiver member => do
    match ← expr catalog receiver with
    | none => return none
    | some t => typed span (← field t member)
  | .method span receiver member args => do
    let r ← expr catalog receiver
    let types ← exprs catalog args
    match r with
    | none => return none
    | some r => typed span (← method r member args.length (pairArguments args types))
  | .call span callee calleeSpan args => do
    let types ← exprs catalog args
    typed span (← call callee calleeSpan args.length (pairArguments args types) span)
  | .index span base index => do
    match ← expr catalog base with
    | none => return none
    | some b =>
      match swizzleItems? b.type index with
      | some (k, rows, columns, items) =>
        typed span (← matrixSwizzle k rows columns items index.span)
      | none =>
        match ← expr catalog index with
        | none => return none
        | some i => typed span (← element b base.span i index.span)
  | .tuple span _ =>
    fail "tuples are only supported as matrix swizzle indices" span
  | .paren span inner => do typed span (← expr catalog inner)
  | .choice span condition yes no => do
    requireBool (← expr catalog condition) condition.span
    let y ← expr catalog yes
    let n ← expr catalog no
    match y, n with
    | some y, some n => typed span (← choice y n span)
    | _, _ => return none

def exprs (catalog : Catalog) : List Expr → Check (List (Option Typed))
  | [] => return []
  | e :: es => do
    let t ← expr catalog e
    return t :: (← exprs catalog es)

end

end ComputeKernel.Check
