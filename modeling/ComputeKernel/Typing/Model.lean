import ComputeKernel.Closure.Tree
import ComputeKernel.Host.Ty

/-!
The symbol model of a closure: its locals, what each name in it refers to, and the type of each
expression. Names and expressions are told apart by where they stand in the source.
-/

namespace ComputeKernel

/-- Values by range of the source. A later entry for a range hides an earlier one. -/
structure SpanMap (α : Type) where
  entries : List (Span × α) := []

namespace SpanMap

variable {α : Type}

instance : Inhabited (SpanMap α) := ⟨{}⟩

def get? (m : SpanMap α) (s : Span) : Option α := m.entries.lookup s

def insert (m : SpanMap α) (s : Span) (a : α) : SpanMap α := ⟨(s, a) :: m.entries⟩

@[simp] theorem get?_insert_self (m : SpanMap α) (s : Span) (a : α) :
    (m.insert s a).get? s = some a := by simp [get?, insert]

theorem get?_insert_of_ne (m : SpanMap α) {s t : Span} (a : α) (h : t ≠ s) :
    (m.insert s a).get? t = m.get? t := by
  simp [get?, insert, List.lookup_cons, beq_false_of_ne h]

end SpanMap

/-- What a name refers to: a local by its number, a capture by its field, a static by its place
among the visible ones. -/
inductive Referent where
  | local (id : Nat)
  | capture (field : Nat)
  | static (index : Nat)
  deriving DecidableEq, Repr, Inhabited

/-- The literals of which the type is left open. -/
inductive LiteralFamily where
  | integer | float
  deriving DecidableEq, Repr, Inhabited

/-- Whether a literal of the family can have a scalar type. -/
def LiteralFamily.accepts : LiteralFamily → ScalarKind → Bool
  | integer, k => k.isInteger
  | float, k => k.isFloat

structure Local where
  name : String
  type : Ty
  mutable : Bool
  span : Span
  /-- Set while the type can still change to another one that literals of the family have. -/
  family : Option LiteralFamily := none
  deriving DecidableEq, Repr, Inhabited

structure Model where
  /-- The locals in the order of their declarations; the first is the parameter. -/
  locals : List Local := []
  referents : SpanMap Referent := {}
  types : SpanMap Ty := {}
  deriving Inhabited

namespace Model

/-- The number of the thread index among the locals. -/
def paramId : Nat := 0

def local? (m : Model) (id : Nat) : Option Local := m.locals[id]?

/-- What the name at a range refers to, be it used or declared there. -/
def referent? (m : Model) (s : Span) : Option Referent := m.referents.get? s

/-- The type of the expression at a range. -/
def type? (m : Model) (s : Span) : Option Ty := m.types.get? s

end Model

end ComputeKernel
