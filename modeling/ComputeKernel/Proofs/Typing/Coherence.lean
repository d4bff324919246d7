import ComputeKernel.Proofs.Typing.Soundness

/-!
Types that agree once inference has come to its end. The check of an expression settles the type of a
local at most where the expression names the local itself, so in the end a value that was made of a local
while this was open may meet another type than the local ends with. Whether this comes about is seen from
the operations of the check and the model that it ends with.
-/

namespace ComputeKernel

/-- The component type that a local ends with. -/
def Model.kind? (m : Model) (id : Nat) : Option ScalarKind := (m.local? id).bind fun l => l.type.kind?

theorem Model.kind?_eq {m : Model} {id : Nat} {l : Local} (h : m.local? id = some l) :
    m.kind? id = l.type.kind? := by
  rw [kind?, h, Option.bind_some]

namespace Check

/-- Whether the locals that an open value has its type from end with a component type. -/
def Operand.EndsAs (m : Model) (o : Operand) (k : Option ScalarKind) : Prop :=
  ∀ id ∈ o.locals, m.kind? id = k

/-- Whether two values that come together agree, as far as they are made of open locals. These end with
the component type of the other value if that is settled, and with that of the locals in it otherwise. -/
def Meets (m : Model) (a b : Operand) : Prop :=
  (b.value.family = none → a.EndsAs m b.value.type.kind?) ∧
    (a.value.family = none → b.EndsAs m a.value.type.kind?) ∧
      ∀ i ∈ a.locals, ∀ j ∈ b.locals, m.kind? i = m.kind? j

/-- Whether the open locals in the operands of an operation end with the type of what they meet in it. A
value that is negated must not be made of a local that ends unsigned. -/
def Operation.Agrees (m : Model) : Operation → Prop
  | .unary op e => op = .neg → ∀ id ∈ e.locals, m.kind? id ≠ some .uint
  | .binary op a b | .assign (some op) a b => ¬ shiftsScalar op a b → Meets m a b
  | .choice a b | .assign none a b => Meets m a b
  | .range id a b => a.EndsAs m (m.kind? id) ∧ b.EndsAs m (m.kind? id)
  | .inferred id e => e.EndsAs m (m.kind? id)
  | .annotated type e => e.EndsAs m type.kind?
  | .method r args type => ∀ o ∈ r :: args, o.EndsAs m type.kind?
  | .call _ args type => type ≠ .bool → ∀ o ∈ args, o.EndsAs m type.kind?

instance (m : Model) (o : Operand) (k : Option ScalarKind) : Decidable (o.EndsAs m k) :=
  inferInstanceAs (Decidable (∀ id ∈ o.locals, m.kind? id = k))

instance (m : Model) (a b : Operand) : Decidable (Meets m a b) :=
  inferInstanceAs (Decidable (_ ∧ _ ∧ ∀ i ∈ a.locals, ∀ j ∈ b.locals, m.kind? i = m.kind? j))

instance Operation.decidableAgrees (m : Model) : ∀ o : Operation, Decidable (o.Agrees m)
  | .unary op e =>
    inferInstanceAs (Decidable (op = .neg → ∀ id ∈ e.locals, m.kind? id ≠ some .uint))
  | .binary op a b | .assign (some op) a b =>
    inferInstanceAs (Decidable (¬ shiftsScalar op a b → Meets m a b))
  | .choice a b | .assign none a b => inferInstanceAs (Decidable (Meets m a b))
  | .range id a b =>
    inferInstanceAs (Decidable (a.EndsAs m (m.kind? id) ∧ b.EndsAs m (m.kind? id)))
  | .inferred id e => inferInstanceAs (Decidable (e.EndsAs m (m.kind? id)))
  | .annotated type e => inferInstanceAs (Decidable (e.EndsAs m type.kind?))
  | .method r args type => inferInstanceAs (Decidable (∀ o ∈ r :: args, o.EndsAs m type.kind?))
  | .call _ args type =>
    inferInstanceAs (Decidable (type ≠ .bool → ∀ o ∈ args, o.EndsAs m type.kind?))

end Check

/-- Whether the locals of a closure that are open where they are read end with the types that the values
made of them meet. -/
def Closure.OpensAgree (c : Closure) (catalog : Catalog) (m : Model) : Prop :=
  ∀ step ∈ c.steps catalog, step.operation.Agrees m

/-! ### Annotations -/

/-- The final type of the local that is declared at a name, as it is written. -/
def Model.annotation? (m : Model) (name : Name) : Option TypeRef :=
  match m.referent? name.span with
  | some (.local id) => (m.local? id).map fun l => ⟨l.type.toHost, name.span⟩
  | _ => none

mutual

/-- The statement with the final types of its locals written out: each declaration that has an initial
value and no type gets one. -/
def Stmt.annotated (m : Model) : Stmt → Stmt
  | .let span mutable name none (some value) =>
    .let span mutable name (m.annotation? name) (some value)
  | .if span condition body otherwise =>
    .if span condition (body.annotated m) (Block.optionalAnnotated m otherwise)
  | .for span counter start stop inclusive body =>
    .for span counter start stop inclusive (body.annotated m)
  | .while span condition body => .while span condition (body.annotated m)
  | .loop span body => .loop span (body.annotated m)
  | .nested span body => .nested span (body.annotated m)
  | st => st

def Block.annotated (m : Model) : Block → Block
  | ⟨span, sts⟩ => ⟨span, Stmt.allAnnotated m sts⟩

def Block.optionalAnnotated (m : Model) : Option Block → Option Block
  | none => none
  | some b => some (b.annotated m)

def Stmt.allAnnotated (m : Model) : List Stmt → List Stmt
  | [] => []
  | st :: sts => st.annotated m :: Stmt.allAnnotated m sts

end

/-- The closure with the final types of its locals written out. -/
def Closure.annotated (c : Closure) (m : Model) : Closure := { c with body := c.body.annotated m }

end ComputeKernel
