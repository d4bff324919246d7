import ComputeKernel.Shader.Function
import ComputeKernel.Typing.Check
import ComputeKernel.Typing.Selector

/-!
Types of members, methods, intrinsics, constructors and indexes. Arguments come with the types that
were found for them; an argument without a type has been reported already.
-/

namespace ComputeKernel.Check

open Shader (scalarMethod? Intrinsic intrinsic? intrinsicOwner ResultKind)

/-- An argument and what is known of it. -/
structure Argument where
  span : Span
  typed : Typed
  deriving Repr

/-- The arguments of a call with their types, if all have one. -/
def pairArguments (args : List Expr) (types : List (Option Typed)) : Option (List Argument) :=
  (args.zip types).mapM fun (arg, t) => t.map fun typed => ⟨arg.span, typed⟩

/-- Reports that a call has the wrong number of arguments. -/
def arity (callee : String) (expected found : Nat) (span : Span) : Check (Option Typed) :=
  let plural := if expected = 1 then "" else "s"
  let verb := if found = 1 then "was" else "were"
  fail s!"`{callee}` takes {expected} argument{plural} but {found} {verb} supplied" span

/-! ### Members -/

/-- The type of a component. The index of a thread has three. -/
def componentType? (receiver : Ty) (name : String) : Option Ty :=
  match receiver, component? name with
  | .threadIds, some i => if i < 3 then some (.scalar .uint) else none
  | .value (.vector k n), some i => if i < n then some (.scalar k) else none
  | _, _ => none

def field (receiver : Typed) (member : Name) : Check (Option Typed) := do
  match componentType? receiver.type member.text with
  | some t => return some { type := t }
  | none => fail s!"no field `{member.text}` on type `{receiver.type.display}`" member.span

/-- Brings the arguments of a method to the type of its receiver. -/
def methodArguments (type : Ty) : List Argument → Check Unit
  | [] => return
  | arg :: args => do
    if ! (← coerce arg.typed type) then
      error
        s!"mismatched types: expected `{type.display}`, found `{arg.typed.type.display}`" arg.span
    methodArguments type args

/-- A mathematical method of a scalar that is no truth value. -/
def scalarMethod (receiver : Typed) (k : ScalarKind) (m : Shader.ScalarMethod) (member : Name)
    (count : Nat) (args : Option (List Argument)) : Check (Option Typed) := do
  if ! k.isFloat && ! m.onIntegers then
    fail s!"no method named `{member.text}` found for `{receiver.type.display}`" member.span
  else if count ≠ m.arity then
    arity member.text m.arity count member.span
  else
    let type := Ty.scalar k
    discard (coerce receiver type)
    match args with
    | none => return none
    | some args =>
      methodArguments type args
      return some { type }

def method (receiver : Typed) (member : Name) (count : Nat) (args : Option (List Argument)) :
    Check (Option Typed) := do
  let name := member.text
  let unknown := fail s!"no method named `{name}` found for `{receiver.type.display}`" member.span
  match receiver.type with
  | .value (.vector k n) =>
    if count = 0 ∧ isSwizzle name n then return some { type := .vector k name.length }
    else unknown
  | .value (.matrix k rows columns) =>
    match (if count = 0 then elementPosition? name else none) with
    | some (r, c) =>
      if r ≤ rows ∧ c ≤ columns then return some { type := .scalar k }
      else
        fail s!"element `{name}` is out of range for `{receiver.type.display}`" member.span
    | none => unknown
  | .value (.scalar k) =>
    match (if k = .bool then none else scalarMethod? name) with
    | some m => scalarMethod receiver k m member count args
    | none => unknown
  | _ => unknown

/-! ### Intrinsics -/

/-- Brings each argument to the common type, or a scalar one to its component type. -/
def intrinsicArguments (name : String) (kind : ScalarKind) (common : Ty) :
    List Argument → Check Bool
  | [] => return true
  | arg :: args => do
    let target := match arg.typed.type with
      | .value (.scalar _) => .scalar kind
      | _ => common
    if ← coerce arg.typed target then
      intrinsicArguments name kind common args
    else
      error
        s!"mismatched types: `{name}` expects `{target.display}`, found `{arg.typed.type.display}`"
        arg.span
      return false

/-- The common type of the arguments of an intrinsic. Its shape is that of the first vector or
matrix, its component type that of the first argument whose type is settled. -/
def commonType (name : String) (args : List Argument) : Check (Option ValueType) := do
  let anchor := (args.find? fun a => a.typed.family.isNone) <|> args.head?
  match anchor.bind fun a => a.typed.type.kind? with
  | none => return none
  | some kind =>
    let shape := args.findSome? fun a => a.typed.type.value?.filter fun v => ! v.isScalar
    let common := match shape with
      | some v => v.withKind kind
      | none => .scalar kind
    return if ← intrinsicArguments name kind (.value common) args then some common else none

/-- The type of a product of scalars, vectors and matrices. -/
def productType? (a b : ValueType) : Option ValueType :=
  if a.kind ≠ b.kind then none
  else
    match a, b with
    | .scalar _, other | other, .scalar _ => some other
    | .vector k n, .vector _ m => if n = m then some (.scalar k) else none
    | .vector k n, .matrix _ r c => if n = r then some (.row k c) else none
    | .matrix k r c, .vector _ n => if c = n then some (.row k r) else none
    | .matrix k r n, .matrix _ m c => if n = m then some (.matrix k r c) else none

def product (name : String) (args : List Argument) (span : Span) : Check (Option Typed) := do
  match args with
  | [a, b] =>
    match a.typed.type, b.typed.type with
    | .value v, .value w =>
      match productType? v w with
      | some p => return some { type := .value p }
      | none =>
        fail
          s!"`{name}` cannot combine `{a.typed.type.display}` and `{b.typed.type.display}`" span
    | _, _ => return none
  | _ => return none

def intrinsicResult (i : Intrinsic) (args : List Argument) (span : Span) :
    Check (Option Typed) := do
  match i.result with
  | .operands => return (← commonType i.name args).map fun v => { type := .value v }
  | .component => return (← commonType i.name args).map fun v => { type := .scalar v.kind }
  | .bool => return some { type := .bool }
  | .product => product i.name args span

def intrinsic (callee : Path) (calleeSpan : Span) (count : Nat) (args : Option (List Argument))
    (span : Span) : Check (Option Typed) := do
  match intrinsic? (Path.last callee) with
  | none => fail s!"cannot find function `{Path.text callee}`" calleeSpan
  | some i =>
    if count ≠ i.arity then
      arity (Path.text callee) i.arity count calleeSpan
    else
      match args with
      | none => return none
      | some args =>
        match args.find? fun a => ! a.typed.type.isValue with
        | some a =>
          fail s!"`{i.name}` cannot take a value of type `{a.typed.type.display}`" a.span
        | none => intrinsicResult i args span

/-! ### Constructors -/

/-- The components that the arguments of a constructor supply: whole vectors of the component type,
and scalars that have it or settle on it. They are counted in a byte, which goes round. -/
def suppliedComponents (built : ValueType) : List Argument → Check (Option UInt8)
  | [] => return some 0
  | arg :: args => do
    let supplied ← (do
      match arg.typed.type with
      | .value (.vector k n) => return if k = built.kind then some (.ofNat n) else none
      | .value (.scalar _) =>
        return if ← coerce arg.typed (.scalar built.kind) then some 1 else none
      | _ => return none : Check (Option UInt8))
    match supplied with
    | some n => return (← suppliedComponents built args).map (n + ·)
    | none =>
      error
        s!"mismatched types: `{arg.typed.type.display}` cannot initialize components of `{(Ty.value built).display}`"
        arg.span
      return none

def newValue (built : ValueType) (callee : Path) (args : List Argument) (span : Span) :
    Check (Option Typed) := do
  match ← suppliedComponents built args with
  | none => return none
  | some found =>
    if found = .ofNat built.components then
      return some { type := .value built }
    else
      fail
        s!"`{Path.text callee}` expects {built.components} components, found {found}" span

def splatValue (built : ValueType) (callee : Path) (calleeSpan : Span) (args : List Argument) :
    Check (Option Typed) := do
  match args with
  | [arg] =>
    if ← coerce arg.typed (.scalar built.kind) then
      return some { type := .value built }
    else
      fail
        s!"mismatched types: expected `{built.kind.hostName}`, found `{arg.typed.type.display}`"
        arg.span
  | _ => arity (Path.text callee) 1 args.length calleeSpan

def isConstructor (name : String) : Bool := name == "new" || name == "splat"

/-- A constructor of the vector or matrix type `owner`. -/
def construct (owner : String) (callee : Path) (calleeSpan : Span) (args : Option (List Argument))
    (span : Span) : Check (Option Typed) := do
  match Ty.ofHost? (.named owner) with
  | some (.value v) =>
    if v.isScalar then
      fail s!"`{Path.text callee}` is not a vector or matrix constructor" calleeSpan
    else
      match args with
      | none => return none
      | some args =>
        if Path.last callee == "splat" then splatValue v callee calleeSpan args
        else newValue v callee args span
  | _ => fail s!"`{Path.text callee}` is not a vector or matrix constructor" calleeSpan

/-- A call through a path, with the number of its arguments and, if all have one, their types. -/
def call (callee : Path) (calleeSpan : Span) (count : Nat) (args : Option (List Argument))
    (span : Span) : Check (Option Typed) := do
  match callee.owner? with
  | some owner =>
    if owner = intrinsicOwner then intrinsic callee calleeSpan count args span
    else if isConstructor callee.last then construct owner callee calleeSpan args span
    else noFunction
  | none => noFunction
where
  noFunction : Check (Option Typed) :=
    failWithHelp s!"cannot find function `{Path.text callee}`"
      "call intrinsics as `Hlsl::name(..)` and constructors as `Float4::new(..)`" calleeSpan

/-! ### Indexes -/

/-- The type of an element, by the type of what is indexed. A matrix is indexed by row. -/
def elementType? : Ty → Option Ty
  | .buffer _ element => some (.value element)
  | .value (.vector k _) => some (.scalar k)
  | .value (.matrix k _ columns) => some (.value (.row k columns))
  | _ => none

def element (base : Typed) (baseSpan : Span) (index : Typed) (indexSpan : Span) :
    Check (Option Typed) := do
  if ! index.isInteger then
    fail
      s!"the type `{base.type.display}` cannot be indexed by `{index.type.display}`" indexSpan
  else
    match elementType? base.type with
    | some t => return some { type := t }
    | none => fail s!"cannot index into a value of type `{base.type.display}`" baseSpan

/-- Checks the selectors of a matrix swizzle, each a path to a selector in range. -/
def selectors (rows columns : Nat) : List Expr → Check Bool
  | [] => return true
  | item :: items => do
    let position := match item with
      | .path _ path => matrixIndexPosition? path
      | _ => none
    match position with
    | some (r, c) =>
      if r ≤ rows ∧ c ≤ columns then
        setType item.span .matrixIndex
        selectors rows columns items
      else
        error s!"matrix index is out of range for a {rows}x{columns} matrix" item.span
        return false
    | none =>
      errorWithHelp "expected a `MatrixIndex` selector"
        "matrix swizzles look like `m[(MatrixIndex::M11, MatrixIndex::M22)]`" item.span
      return false

/-- Two to four elements of a matrix, which make a vector. -/
def matrixSwizzle (k : ScalarKind) (rows columns : Nat) (items : List Expr) (span : Span) :
    Check (Option Typed) := do
  let count := items.length
  if count < 2 ∨ 4 < count then
    fail s!"matrix swizzles take 2 to 4 indices, found {count}" span
  else if ← selectors rows columns items then
    setType span (.selectors count)
    return some { type := .vector k count }
  else
    return none

end ComputeKernel.Check
