import ComputeKernel.Capture.Captures

/-!
The binding manifest. The implicit uniform buffer comes first, at slot 0 of the constant buffers;
the resources follow by category, constant, read-only and read-write, each category in the order of
its slots. A backend binds one range of one descriptor for each slot.
-/

namespace ComputeKernel

structure BindingSlot where
  category : Category
  /-- The slot within the category. -/
  index : Nat
  /-- The place of the capture among the resources; none for the uniform buffer. -/
  resource : Option Nat
  deriving DecidableEq, Repr, Inhabited

namespace BindingSlot

def uniform : BindingSlot := ⟨.constantBuffer, 0, none⟩

def isUniform (s : BindingSlot) : Bool := s.resource.isNone

end BindingSlot

inductive RangeKind where
  /-- A constant buffer, in a register of class `b`. -/
  | cbv
  /-- A read-only buffer, in a register of class `t`. -/
  | srv
  /-- A writable buffer, in a register of class `u`. -/
  | uav
  deriving DecidableEq, Repr, Inhabited

namespace RangeKind

def ofCategory : Category → RangeKind
  | .scalarOrVector | .constantBuffer => cbv
  | .readOnlyBuffer => srv
  | .readWriteBuffer => uav

def name : RangeKind → String
  | cbv => "Cbv"
  | srv => "Srv"
  | uav => "Uav"

def registerClass : RangeKind → String
  | cbv => "b"
  | srv => "t"
  | uav => "u"

end RangeKind

/-- Which stages of a pipeline see a binding. -/
inductive Visibility where
  | all
  deriving DecidableEq, Repr, Inhabited

def Visibility.name : Visibility → String
  | all => "All"

structure BindingParameter where
  visibility : Visibility
  kind : RangeKind
  /-- How many descriptors the range has. -/
  count : Nat
  baseRegister : Nat
  deriving DecidableEq, Repr, Inhabited

namespace BindingSlot

def kind (s : BindingSlot) : RangeKind := .ofCategory s.category

/-- The register that the slot is declared at. -/
def register (s : BindingSlot) : String := s.kind.registerClass ++ toString s.index

def parameter (s : BindingSlot) : BindingParameter := ⟨.all, s.kind, 1, s.index⟩

/-- The categories of resources in the order of the manifest. -/
def resourceOrder : List Category := [.constantBuffer, .readOnlyBuffer, .readWriteBuffer]

/-- The slots of the captures of a category, in the order of the captures, of which the first stands
at `position`. -/
def ofCategory (category : Category) (position : Nat) : List Capture → List BindingSlot
  | [] => []
  | c :: cs =>
    let rest := ofCategory category (position + 1) cs
    if c.category = category then
      match c.slot with
      | some index => ⟨category, index, some position⟩ :: rest
      | none => rest
    else rest

/-- The slots of a list of resources. -/
def assemble (resources : List Capture) : List BindingSlot :=
  uniform :: resourceOrder.flatMap fun category =>
    (ofCategory category 0 resources).mergeSort fun a b => a.index ≤ b.index

end BindingSlot

end ComputeKernel
