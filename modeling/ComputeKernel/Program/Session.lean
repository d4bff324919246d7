import ComputeKernel.Program.Translator

/-!
A session: kernel types that may still change, each with an instance, over one translator. The last
descriptor that a kernel type was translated to is held, and questions about the kernel type are
answered from it; where none is held the kernel type is translated first. The translator does not
forget, so a change shows only where something was not translated before.
-/

namespace ComputeKernel

/-- A descriptor that is held. -/
structure Held where
  descriptor : Descriptor
  /-- Whether it is the one that the translator keeps. -/
  isKept : Bool
  deriving Inhabited

/-- A kernel type of a session. -/
structure SessionKernel where
  kernel : Kernel
  /-- The values of the instance, by field. -/
  values : List CaptureValue := []
  held : Option Held := none
  deriving Inhabited

def SessionKernel.instance_ (m : SessionKernel) : Instance := ⟨m.kernel.toKernelId, m.values⟩

structure Session where
  members : List SessionKernel
  translator : Translator := {}

namespace Session

inductive Error where
  | noKernel
  | translation (e : TranslateError)
  | packing (e : Uniform.Error)
  deriving DecidableEq, Repr

/-- A request to a session. One that fails keeps what the translator has learned. -/
abbrev Request := ExceptT Error (StateM Session)

def member (i : Nat) : Request SessionKernel := do
  match (← get).members[i]? with
  | some m => return m
  | none => throw .noKernel

/-- Runs a translator and keeps what it has learned. -/
def run {α : Type} (f : Translator → Except TranslateError α × Translator) : Request α := do
  let (result, translator) := f (← get).translator
  modify ({ · with translator })
  match result with
  | .ok a => return a
  | .error e => throw (.translation e)

def hold (i : Nat) (descriptor : Descriptor) (isKept : Bool) : Request Unit :=
  modify fun s =>
    { s with members := s.members.modify i fun m => { m with held := some ⟨descriptor, isKept⟩ } }

/-- Translates with the built-in table and holds the result. Says whether the descriptor that was
held, if there was one, is the same object. -/
def translate (i : Nat) : Request (Descriptor × Option Bool) := do
  let m ← member i
  let descriptor ← run (·.translate m.kernel)
  hold i descriptor true
  return (descriptor, m.held.map (·.isKept))

/-- Translates with a table and holds the result. -/
def translateWith (i : Nat) (table : TypeTable) : Request Descriptor := do
  let descriptor ← run (·.translateWith (← member i).kernel table)
  hold i descriptor false
  return descriptor

def compile (i : Nat) (settings : Settings) : Request String := do
  run (·.compile (← member i).kernel settings)

def checkedBody (i : Nat) : Request CheckedBody := do
  run (·.checkedBody (← member i).kernel)

/-- What is known of a kernel type. -/
structure Status where
  translated : Bool
  read : Bool
  readings : Nat
  deriving DecidableEq, Repr

def status (i : Nat) : Request Status := do
  let k := (← member i).kernel
  let t := (← get).translator
  return ⟨t.isTranslated k, t.isRead k, t.readings k⟩

def translateAll (is : List Nat) : Request (List (Except TranslateError Descriptor)) := do
  let kernels ← is.mapM fun i => do return (← member i).kernel
  run fun t =>
    let (results, t) := t.translateAll kernels
    (.ok results, t)

/-- What may change about a kernel type; what is missing stays. -/
structure Change where
  source : Option String := none
  fields : Option (List FieldDecl) := none
  statics : Option (List StaticDecl) := none
  values : Option (List CaptureValue) := none

def Change.apply (c : Change) (m : SessionKernel) : SessionKernel :=
  let catalog : Catalog :=
    { fields := c.fields.getD m.kernel.catalog.fields
      statics := c.statics.getD m.kernel.catalog.statics }
  { m with
    kernel := { m.kernel with source := c.source.getD m.kernel.source, catalog }
    values := c.values.getD m.values }

def change (i : Nat) (c : Change) : Request Unit := do
  discard (member i)
  modify fun s => { s with members := s.members.modify i c.apply }

/-- The descriptor that is held. -/
def descriptor (i : Nat) : Request Descriptor := do
  match (← member i).held with
  | some h => return h.descriptor
  | none => return (← translate i).1

/-- An instance of the kernel type `other`, with its own values unless others are given. -/
def instanceOf (other : Nat) (values : Option (List CaptureValue)) : Request Instance := do
  let m ← member other
  return { m.instance_ with values := values.getD m.values }

/-- Packs the uniform buffer of a kernel type for an instance. -/
def pack (i other : Nat) (values : Option (List CaptureValue)) :
    Request (Uniform.Layout × List UInt8) := do
  let d ← descriptor i
  match d.pack (← instanceOf other values) with
  | .ok bytes => return (d.uniforms, bytes)
  | .error e => throw (.packing e)

/-- The values of the scalar captures and of the resources of an instance. -/
def values (i other : Nat) (given : Option (List CaptureValue)) :
    Request (List CaptureValue × List CaptureValue) := do
  let d ← descriptor i
  let x ← instanceOf other given
  return (d.scalarValues x, d.resourceValues x)

end Session

end ComputeKernel
