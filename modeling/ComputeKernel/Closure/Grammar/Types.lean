import ComputeKernel.Closure.Cursor

/-!
Types in a closure: a path, and arguments in angle brackets. Two closing brackets side by side are
one token, of which the inner list takes the first half.
-/

namespace ComputeKernel.Parse

/-- The segments of a path behind the first. -/
def pathTail (fuel : Nat) : Parse (List String) :=
  match fuel with
  | 0 => do
    outOfSteps
    return []
  | fuel + 1 => do
    if ← eatSymbol .colonColon then
      let segment ← identifier
      let rest ← pathTail fuel
      return segment.text :: rest
    else
      return []

/-- The closing bracket of an argument list. -/
def closeAngle : Parse Unit := do
  match ← lexeme with
  | .symbol .shr => modify Cursor.splitShift
  | _ => discard (expectSymbol .gt)

mutual

def typeRef (fuel : Nat) : Parse TypeRef :=
  match fuel with
  | 0 => do
    outOfSteps
    return ⟨default, ← here⟩
  | fuel + 1 => do
    let start ← here
    let first ← identifier
    let rest ← pathTail fuel
    let args ← (do
      if ← eatSymbol .lt then
        let args ← typeArgs fuel
        closeAngle
        return args
      else
        return [] : Parse (List HostType))
    return ⟨⟨Text.joinPath (first.text :: rest), args⟩, start.merge (← behind)⟩

/-- One or more arguments with commas between them. -/
def typeArgs (fuel : Nat) : Parse (List HostType) :=
  match fuel with
  | 0 => do
    outOfSteps
    return []
  | fuel + 1 => do
    let arg ← typeRef fuel
    if ← eatSymbol .comma then
      let rest ← typeArgs fuel
      return arg.type :: rest
    else
      return [arg.type]

end

end ComputeKernel.Parse
