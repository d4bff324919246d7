import ComputeKernel.Json.Value
import ComputeKernel.Settings.Basic

/-!
Settings as JSON. They are written as an object with every setting, and read from an object with any
of them, or from an array of the first few in the order of the object; what is missing has its default.
Members that are no settings are passed over, but no setting may be given twice. A group must have
three sizes, and here a count may be zero.
-/

namespace ComputeKernel.Settings

open Json (Value)

def toJson (s : Settings) : String :=
  let group := s!"[{s.groupX},{s.groupY},{s.groupZ}]"
  "\x7b\"entry_point\":" ++ Json.quote s.entryPoint ++ ",\"thread_group\":" ++ group ++
    s!",\"constant_buffer_capacity\":{s.constantBufferCapacity}" ++ "\x7d"

/-- A count, which is written with digits alone. -/
def countOf? : Value → Option Nat
  | .number text => (Text.readDigits 10 0 text).filter (· < Text.bound32)
  | _ => none

def textOf? : Value → Option String
  | .string text => text
  | _ => none

def groupOf? : Value → Option (Nat × Nat × Nat)
  | .array [x, y, z] => do return (← countOf? x, ← countOf? y, ← countOf? z)
  | _ => none

/-- What a setting is read as, the default if it is not given. -/
def orDefault {α : Type} (read : Value → Option α) (default : α) : Option Value → Option α
  | some value => read value
  | none => some default

/-- The settings with the given values. -/
def ofValues? (entry group capacity : Option Value) : Option Settings := do
  let s : Settings := {}
  let entryPoint ← orDefault textOf? s.entryPoint entry
  let (x, y, z) ← orDefault groupOf? (s.groupX, s.groupY, s.groupZ) group
  let constantBufferCapacity ← orDefault countOf? s.constantBufferCapacity capacity
  return { entryPoint, groupX := x, groupY := y, groupZ := z, constantBufferCapacity }

/-- The member with the given name, if there is one. Fails if there are several. -/
def onlyMember (name : String) (members : List (String × Value)) : Option (Option Value) :=
  match members.filter fun m => m.1 = name with
  | [] => some none
  | [(_, value)] => some (some value)
  | _ => none

def ofValue? : Value → Option Settings
  | .array items => if items.length ≤ 3 then ofValues? items[0]? items[1]? items[2]? else none
  | .object members => do
    let members ← members.mapM fun (key, value) => key.map (·, value)
    ofValues? (← onlyMember "entry_point" members) (← onlyMember "thread_group" members)
      (← onlyMember "constant_buffer_capacity" members)
  | _ => none

def ofJson? (text : String) : Option Settings := (Value.parse? text).bind ofValue?

end ComputeKernel.Settings
