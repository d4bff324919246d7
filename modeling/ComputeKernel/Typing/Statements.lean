import ComputeKernel.Typing.Expressions

/-!
Types of statements. A declaration is not in scope in its own initializer, and the counter of a loop
is in scope in the body only. Only elements of writable buffers and mutable locals can be assigned.
-/

namespace ComputeKernel.Check

/-! ### Declarations -/

/-- Whether a local can have the type. -/
def isLocalType (t : Ty) : Bool := t.isValue || t = .threadIds

/-- The type of a local that is declared with one. -/
def declaredType (type : TypeRef) (value : Option (Typed × Span)) : Check Ty := do
  match (Ty.ofHost? type.type).filter isLocalType with
  | some t =>
    if let some (v, span) := value then
      if ! (← coerce v t) then
        error s!"mismatched types: expected `{t.display}`, found `{v.type.display}`" span
    return t
  | none =>
    error s!"type `{type.type.text}` cannot be used for kernel locals" type.span
    return .unknown

/-- The type of a local that is set from a value, and what is open about it. -/
def inferredType (v : Typed) (span : Span) : Check (Ty × Option LiteralFamily) := do
  if isLocalType v.type then
    return (v.type, v.family)
  else
    errorWithHelp s!"cannot bind a value of type `{v.type.display}` to a local"
      "index buffers directly where their elements are needed" span
    return (.unknown, none)

def letStmt (catalog : Catalog) (mutable : Bool) (name : Name) (type : Option TypeRef)
    (value : Option Expr) : Check Unit := do
  let found ← (do
    match value with
    | none => return none
    | some e => return (← expr catalog e).map fun t => (t, e.span) : Check (Option (Typed × Span)))
  match type, found with
  | some type, _ => declare name (← declaredType type found) mutable none
  | none, some (t, span) =>
    let (type, family) ← inferredType t span
    declare name type mutable family
  | none, none =>
    if value.isNone then
      errorWithHelp s!"type annotations needed for `{name.text}`"
        s!"give the local a type: `let {name.text}: f32;`" name.span
    declare name .unknown mutable none

/-- The type of a loop's counter, by the types of the bounds. -/
def counterType (lo hi : Option Typed) (span : Span) : Check (Option Typed) := do
  match lo, hi with
  | some lo, some hi =>
    match ← unify lo hi with
    | some t =>
      if t.isInteger then return some t
      else fail s!"`for` ranges must be integers, found `{t.type.display}`" span
    | none =>
      fail s!"mismatched range bounds: `{lo.type.display}` and `{hi.type.display}`" span
  | _, _ => return none

/-! ### Assignments -/

/-- Reports a place that is a name and cannot be assigned. -/
def assignableName (text : String) (span : Span) : Check Unit := do
  let s ← get
  match s.model.referent? span with
  | some (.local id) =>
    if (s.model.local? id).any fun l => ! l.mutable then
      errorWithHelp s!"cannot assign twice to immutable variable `{text}`"
        s!"make it mutable: `let mut {text}`" span
  | some (.capture _) =>
    report ((Diagnostic.error s!"cannot assign to captured value `{text}`" span).withNote
      "scalar captures live in a read-only uniform buffer")
  | some (.static _) => error s!"cannot assign to static `{text}`" span
  | none => return

/-- Reports a place that cannot be assigned. -/
def assignable : Expr → Check Unit
  | .name span text => assignableName text span
  | .path span p => error s!"cannot assign to static `{Path.text p}`" span
  | .index span base _ => do
    match (← get).model.type? base.span with
    | some (.buffer .readWrite _) => return
    | some (.buffer access _) =>
      errorWithHelp s!"cannot assign through a `{access.hostName}`"
        "declare the capture as a `ReadWriteBuffer` to write to it" span
    | _ => assignable base
  | .field _ receiver _ => assignable receiver
  | .paren _ inner => assignable inner
  | e => error "invalid left-hand side of assignment" e.span

/-- Whether a value fits its place, after the operator of a compound assignment if there is one.
`none` where the operator has been reported. -/
def fits (op : Option BinaryOp) (target value : Typed) (span : Span) : Check (Option Bool) := do
  match op with
  | none =>
    if ← coerce value target.type then return some true
    else return some (← coerce target value.type)
  | some op =>
    match ← binary op target value span with
    | some result => return some (← coerce result target.type)
    | none => return none

def assign (catalog : Catalog) (op : Option BinaryOp) (place value : Expr) (span : Span) :
    Check Unit := do
  let target ← expr catalog place
  let found ← expr catalog value
  if target.isSome then
    assignable place
  match target, found with
  | some target, some found =>
    if (← fits op target found span) = some false then
      error
        s!"mismatched types: cannot assign `{found.type.display}` to `{target.type.display}`"
        value.span
  | _, _ => return

/-! ### Control flow -/

def jump (kind : Jump) (span : Span) : Check Unit := do
  let outside := (← get).loops = 0
  match kind with
  | .break => if outside then error "`break` outside of a loop" span
  | .continue => if outside then error "`continue` outside of a loop" span
  | .return => return

def enterLoop : Check Unit := modify fun s => { s with loops := s.loops + 1 }

def leaveLoop : Check Unit := modify fun s => { s with loops := s.loops - 1 }

mutual

def stmt (catalog : Catalog) : Stmt → Check Unit
  | .let _ mutable name type value => letStmt catalog mutable name type value
  | .assign span op place value => assign catalog op place value span
  | .if _ condition body otherwise => do
    requireBool (← expr catalog condition) condition.span
    block catalog body
    optionalBlock catalog otherwise
  | .for _ counter start stop _ body => do
    let lo ← expr catalog start
    let hi ← expr catalog stop
    let found ← counterType lo hi (start.span.merge stop.span)
    openScope
    match found with
    | some t => declare counter t.type false t.family
    | none => declare counter .unknown false none
    enterLoop
    block catalog body
    leaveLoop
    closeScope
  | .while _ condition body => do
    requireBool (← expr catalog condition) condition.span
    enterLoop
    block catalog body
    leaveLoop
  | .loop _ body => do
    enterLoop
    block catalog body
    leaveLoop
  | .jump span kind => jump kind span
  | .eval _ value => discard (expr catalog value)
  | .nested _ body => block catalog body

def optionalBlock (catalog : Catalog) : Option Block → Check Unit
  | none => return
  | some b => block catalog b

def block (catalog : Catalog) : Block → Check Unit
  | ⟨_, body⟩ => do
    openScope
    stmts catalog body
    closeScope

def stmts (catalog : Catalog) : List Stmt → Check Unit
  | [] => return
  | s :: ss => do
    stmt catalog s
    stmts catalog ss

end

/-- Checks a closure. Its parameter is in the outermost scope. -/
def closure (catalog : Catalog) (c : Closure) : Check Unit := do
  if let some type := c.paramType then
    if Ty.ofHost? type.type ≠ some .threadIds then
      errorWithHelp
        s!"kernel parameter must have type `ThreadIds`, found `{type.type.text}`"
        "kernel bodies are closures of the form `|ids: ThreadIds| \x7b ... \x7d`" type.span
  openScope
  declare c.param .threadIds false none
  block catalog c.body
  closeScope

end Check

/-- The symbol model of a closure, if every name in it resolves and every expression has a type. -/
def Closure.bind (c : Closure) (catalog : Catalog) : Except (List Diagnostic) Model :=
  let ((), s) := (Check.closure catalog c).run {}
  match s.diagnostics with
  | [] => .ok s.model
  | diagnostics => .error diagnostics

end ComputeKernel
