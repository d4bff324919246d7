import Mathlib.Data.List.Forall2
import ComputeKernel.Proofs.Typing.Operations

/-!
What well-typed kernels are, said without the course of a check. A judgment gives an expression one
type, in the scopes that it stands in and against the types that the finished model has for locals.

Literals without a suffix have every type that literals of their family can have. Every use of a local
has the type that the local ends with, apart from two kinds of uses. The check settles a local at most
where the local itself is named, so a copy of its value that was taken while the local was open, and a
sum of it, are settled apart from it. And an operand that was read before the local was settled settles it
anew.
-/

namespace ComputeKernel

namespace Check

open Shader (Receiver Member hasRule scalarMethod? intrinsic? intrinsicOwner Intrinsic)

/-- What is known where an expression stands: the scopes that are open, and for each local so far the
family of literals that its declaration left its type open to, if it did. -/
structure Env where
  scopes : Scopes := []
  opens : List (Option LiteralFamily) := []

namespace Env

def declare (Γ : Env) (name : String) (family : Option LiteralFamily) : Env :=
  { scopes := Γ.scopes.declare name Γ.opens.length, opens := Γ.opens ++ [family] }

def openScope (Γ : Env) : Env := { Γ with scopes := [] :: Γ.scopes }

/-- The environment behind a block that was entered from `outer`. -/
def leaveTo (Γ outer : Env) : Env := { Γ with scopes := outer.scopes }

end Env

/-- Where uses of locals need not have the final types of these. -/
structure Leeway where
  /-- The uses of which a copy was taken while the local was open. -/
  copies : List Span
  /-- The types that a local had been settled on before it was settled anew. -/
  relapses : Nat → Ty → Prop

/-! ### Expressions -/

/-- An expression whose value is made of literals of a family that have no suffix, and of copies of
locals that are open to it. -/
inductive StaysOpen (W : Leeway) (Γ : Env) (f : LiteralFamily) : Expr → Prop where
  | literal {span v} : (Check.literal v).family = some f → StaysOpen W Γ f (.literal span v)
  | local {span text id} : Γ.scopes.find? text = some id → Γ.opens[id]? = some (some f) →
      span ∈ W.copies → StaysOpen W Γ f (.name span text)
  | unary {span op e} : StaysOpen W Γ f e → StaysOpen W Γ f (.unary span op e)
  | shift {span op l r} : op.isShift → StaysOpen W Γ f l → StaysOpen W Γ f (.binary span op l r)
  | binary {span op l r} : ¬ op.isLogical → ¬ op.isShift → ¬ op.isComparison → StaysOpen W Γ f l →
      StaysOpen W Γ f r → StaysOpen W Γ f (.binary span op l r)
  | paren {span e} : StaysOpen W Γ f e → StaysOpen W Γ f (.paren span e)
  | choice {span condition yes no} : StaysOpen W Γ f yes → StaysOpen W Γ f no →
      StaysOpen W Γ f (.choice span condition yes no)

/-- Whether an operand of this type can be negated. Unsigned ones cannot, but nothing keeps matrices
from it, and of a value that stays open it is not asked which type it comes to have. -/
def Negates (W : Leeway) (Γ : Env) (e : Expr) (t : Ty) : Prop :=
  ∃ v, t = .value v ∧ v.kind ≠ .bool ∧
    (v.kind = .uint →
      (∃ rows columns, v = .matrix .uint rows columns) ∨ v = .scalar .uint ∧ StaysOpen W Γ .integer e)

/-- The type that an operator gives to operands of these types. -/
inductive Combines (op : BinaryOp) : Ty → Ty → Ty → Prop where
  | logical : op.isLogical → Combines op .bool .bool .bool
  | shift {k k'} : op.isShift → k.isInteger → k'.isInteger →
      Combines op (.scalar k) (.scalar k') (.scalar k)
  | comparison {k} : op.isComparison → hasScalar op k → Combines op (.scalar k) (.scalar k) .bool
  | scalar {k} : ¬ op.isLogical → ¬ op.isShift → ¬ op.isComparison → hasScalar op k →
      Combines op (.scalar k) (.scalar k) (.scalar k)
  | aggregate {l r receiver member v} : ¬ op.isLogical → Receiver.ofOperands? l r = some receiver →
      Member.ofOperator? op = some member → hasRule receiver member →
      (l = .value v ∧ (r = .value v ∨ r = .scalar v.kind) ∨ l = .scalar v.kind ∧ r = .value v) →
      hasAggregate op v.kind →
      Combines op l r (.value (if op.isComparison then v.withKind .bool else v))

/-- Whether a path names the intrinsic, which takes that many arguments. -/
def NamesIntrinsic (callee : Path) (i : Intrinsic) (args : List Expr) : Prop :=
  callee.owner? = some intrinsicOwner ∧ intrinsic? callee.last = some i ∧ args.length = i.arity

/-- Whether a path names a constructor of vectors or matrices. -/
def NamesConstructor (callee : Path) (function : String) (v : ValueType) : Prop :=
  ∃ owner, callee.owner? = some owner ∧ owner ≠ intrinsicOwner ∧ callee.last = function ∧
    Ty.ofHost? (.named owner) = some (.value v) ∧ ¬ v.isScalar

/-- Arguments of one shape, apart from scalars of its component type. -/
def SharesShape (v : ValueType) (ts : List Ty) : Prop :=
  .value v ∈ ts ∧ ∀ t ∈ ts, t = .value v ∨ t = .scalar v.kind

/-- How many components of a kind vectors and scalars supply together, counted in a byte. -/
inductive Fills (k : ScalarKind) : List Ty → UInt8 → Prop where
  | nil : Fills k [] 0
  | vector {n ts count} : Fills k ts count → Fills k (.vector k n :: ts) (.ofNat n + count)
  | scalar {ts count} : Fills k ts count → Fills k (.scalar k :: ts) (1 + count)

/-- A selector of an element that a matrix of this size has. -/
def SelectsIn (rows columns : Nat) (e : Expr) : Prop :=
  ∃ span path row column, e = .path span path ∧ matrixIndexPosition? path = some (row, column) ∧
    row ≤ rows ∧ column ≤ columns

/-- The type of an expression. -/
inductive HasType (catalog : Catalog) (m : Model) (W : Leeway) (Γ : Env) : Expr → Ty → Prop where
  | literal {span v} : (Check.literal v).family = none →
      HasType catalog m W Γ (.literal span v) (Check.literal v).type
  | openLiteral {span v f k} : (Check.literal v).family = some f → f.accepts k →
      HasType catalog m W Γ (.literal span v) (.scalar k)
  | local {span text id l} : Γ.scopes.find? text = some id → m.local? id = some l →
      HasType catalog m W Γ (.name span text) l.type
  | copied {span text id f k} : Γ.scopes.find? text = some id → Γ.opens[id]? = some (some f) →
      span ∈ W.copies → f.accepts k → HasType catalog m W Γ (.name span text) (.scalar k)
  | relapsed {span text id t} : Γ.scopes.find? text = some id → W.relapses id t →
      HasType catalog m W Γ (.name span text) t
  | capture {span text index t} : Γ.scopes.find? text = none → NamesCapture catalog text index t →
      HasType catalog m W Γ (.name span text) t
  | static {span text index t} : Γ.scopes.find? text = none →
      (catalog.fields.findIdx? fun f => f.name == text) = none →
      NamesStatic catalog [text] index t → HasType catalog m W Γ (.name span text) t
  | path {span path index t} : path.owner? ≠ some matrixIndexOwner →
      NamesStatic catalog path index t → HasType catalog m W Γ (.path span path) t
  | neg {span e t} : HasType catalog m W Γ e t → Negates W Γ e t →
      HasType catalog m W Γ (.unary span .neg e) t
  | not {span e t} : HasType catalog m W Γ e t → hasUnary .not t →
      HasType catalog m W Γ (.unary span .not e) t
  | binary {span op l r tl tr t} : HasType catalog m W Γ l tl → HasType catalog m W Γ r tr →
      Combines op tl tr t → HasType catalog m W Γ (.binary span op l r) t
  | cast {span e target k l} : HasType catalog m W Γ e (.scalar k) →
      Ty.ofHost? target.type = some (.scalar l) → l ≠ .bool → ¬ (k = .bool ∧ l.isFloat) →
      HasType catalog m W Γ (.cast span e target) (.scalar l)
  | field {span e member t type} : HasType catalog m W Γ e t →
      componentType? t member.text = some type → HasType catalog m W Γ (.field span e member) type
  | swizzle {span e member k n} : HasType catalog m W Γ e (.vector k n) → isSwizzle member.text n →
      HasType catalog m W Γ (.method span e member []) (.vector k member.text.length)
  | elementMethod {span e member k rows columns row column} :
      HasType catalog m W Γ e (.value (.matrix k rows columns)) →
      elementPosition? member.text = some (row, column) → row ≤ rows → column ≤ columns →
      HasType catalog m W Γ (.method span e member []) (.scalar k)
  | scalarMethod {span e member args k method} : HasType catalog m W Γ e (.scalar k) → k ≠ .bool →
      scalarMethod? member.text = some method → (k.isFloat ∨ method.onIntegers) →
      args.length = method.arity → (∀ a ∈ args, HasType catalog m W Γ a (.scalar k)) →
      HasType catalog m W Γ (.method span e member args) (.scalar k)
  | operands {span callee calleeSpan args i ts v} : NamesIntrinsic callee i args →
      i.result = .operands → List.Forall₂ (HasType catalog m W Γ) args ts → SharesShape v ts →
      HasType catalog m W Γ (.call span callee calleeSpan args) (.value v)
  | component {span callee calleeSpan args i ts v} : NamesIntrinsic callee i args →
      i.result = .component → List.Forall₂ (HasType catalog m W Γ) args ts → SharesShape v ts →
      HasType catalog m W Γ (.call span callee calleeSpan args) (.scalar v.kind)
  | test {span callee calleeSpan args i ts} : NamesIntrinsic callee i args → i.result = .bool →
      List.Forall₂ (HasType catalog m W Γ) args ts → (∀ t ∈ ts, t.isValue) →
      HasType catalog m W Γ (.call span callee calleeSpan args) .bool
  | product {span callee calleeSpan a b i v w p} : NamesIntrinsic callee i [a, b] →
      i.result = .product → HasType catalog m W Γ a (.value v) → HasType catalog m W Γ b (.value w) →
      productType? v w = some p → HasType catalog m W Γ (.call span callee calleeSpan [a, b]) (.value p)
  | new {span callee calleeSpan args ts v} : NamesConstructor callee "new" v →
      List.Forall₂ (HasType catalog m W Γ) args ts → Fills v.kind ts (.ofNat v.components) →
      HasType catalog m W Γ (.call span callee calleeSpan args) (.value v)
  | splat {span callee calleeSpan a v} : NamesConstructor callee "splat" v →
      HasType catalog m W Γ a (.scalar v.kind) →
      HasType catalog m W Γ (.call span callee calleeSpan [a]) (.value v)
  | element {span base index b i t} : HasType catalog m W Γ base b → swizzleItems? b index = none →
      HasType catalog m W Γ index i → i.isInteger → elementType? b = some t →
      HasType catalog m W Γ (.index span base index) t
  | matrixSwizzle {span base k rows columns itemsSpan items} :
      HasType catalog m W Γ base (.value (.matrix k rows columns)) → 2 ≤ items.length →
      items.length ≤ 4 → (∀ item ∈ items, SelectsIn rows columns item) →
      HasType catalog m W Γ (.index span base (.tuple itemsSpan items)) (.vector k items.length)
  | paren {span e t} : HasType catalog m W Γ e t → HasType catalog m W Γ (.paren span e) t
  | choice {span condition yes no t} : HasType catalog m W Γ condition .bool →
      HasType catalog m W Γ yes t → HasType catalog m W Γ no t →
      HasType catalog m W Γ (.choice span condition yes no) t

/-! ### Statements -/

/-- Whether the next local to be declared has the type in the model. -/
def Introduces (m : Model) (Γ : Env) (t : Ty) : Prop :=
  ∃ l, m.local? Γ.opens.length = some l ∧ l.type = t

/-- Well-typed statements, with the environment that they leave behind. -/
inductive WellTyped (catalog : Catalog) (m : Model) (W : Leeway) : Env → StmtJudgment → Env → Prop where
  | declare {Γ span mutable name type t} : Declares type t → Introduces m Γ t →
      WellTyped catalog m W Γ (.stmt (.let span mutable name (some type) none))
        (Γ.declare name.text none)
  | annotated {Γ span mutable name type t e} : Declares type t → HasType catalog m W Γ e t →
      Introduces m Γ t →
      WellTyped catalog m W Γ (.stmt (.let span mutable name (some type) (some e)))
        (Γ.declare name.text none)
  | inferred {Γ span mutable name e t family} : HasType catalog m W Γ e t → isLocalType t →
      t.OpenTo family → (∀ f, family = some f → StaysOpen W Γ f e) → Introduces m Γ t →
      WellTyped catalog m W Γ (.stmt (.let span mutable name none (some e)))
        (Γ.declare name.text family)
  | assign {Γ span place value t} : HasType catalog m W Γ place t → HasType catalog m W Γ value t →
      WellTyped catalog m W Γ (.stmt (.assign span none place value)) Γ
  | compound {Γ span op place value t u} : HasType catalog m W Γ place t →
      HasType catalog m W Γ value u → Combines op t u t →
      WellTyped catalog m W Γ (.stmt (.assign span (some op) place value)) Γ
  | ifOnly {Γ Γ' span condition body} : HasType catalog m W Γ condition .bool →
      WellTyped catalog m W Γ (.block body) Γ' →
      WellTyped catalog m W Γ (.stmt (.if span condition body none)) Γ'
  | ifElse {Γ Γ₁ Γ' span condition body otherwise} : HasType catalog m W Γ condition .bool →
      WellTyped catalog m W Γ (.block body) Γ₁ → WellTyped catalog m W Γ₁ (.block otherwise) Γ' →
      WellTyped catalog m W Γ (.stmt (.if span condition body (some otherwise))) Γ'
  | for {Γ Γ' span counter start stop inclusive body t family} : HasType catalog m W Γ start t →
      HasType catalog m W Γ stop t → t.isInteger → t.OpenTo family →
      (∀ f, family = some f → StaysOpen W Γ f start ∧ StaysOpen W Γ f stop) → Introduces m Γ t →
      WellTyped catalog m W (Γ.openScope.declare counter.text family) (.block body) Γ' →
      WellTyped catalog m W Γ (.stmt (.for span counter start stop inclusive body)) (Γ'.leaveTo Γ)
  | while {Γ Γ' span condition body} : HasType catalog m W Γ condition .bool →
      WellTyped catalog m W Γ (.block body) Γ' →
      WellTyped catalog m W Γ (.stmt (.while span condition body)) Γ'
  | loop {Γ Γ' span body} : WellTyped catalog m W Γ (.block body) Γ' →
      WellTyped catalog m W Γ (.stmt (.loop span body)) Γ'
  | jump {Γ span kind} : WellTyped catalog m W Γ (.stmt (.jump span kind)) Γ
  | eval {Γ span e t} : HasType catalog m W Γ e t → WellTyped catalog m W Γ (.stmt (.eval span e)) Γ
  | nested {Γ Γ' span body} : WellTyped catalog m W Γ (.block body) Γ' →
      WellTyped catalog m W Γ (.stmt (.nested span body)) Γ'
  | nil {Γ} : WellTyped catalog m W Γ (.stmts []) Γ
  | cons {Γ Γ₁ Γ' st sts} : WellTyped catalog m W Γ (.stmt st) Γ₁ →
      WellTyped catalog m W Γ₁ (.stmts sts) Γ' → WellTyped catalog m W Γ (.stmts (st :: sts)) Γ'
  | block {Γ Γ' span sts} : WellTyped catalog m W Γ.openScope (.stmts sts) Γ' →
      WellTyped catalog m W Γ (.block ⟨span, sts⟩) (Γ'.leaveTo Γ)

end Check

open Check in
/-- The copies that the operations of a closure take of open locals, and the types that one of them
leaves a local settled on which is not the final one. -/
def Closure.leeway (c : Closure) (catalog : Catalog) (m : Model) : Leeway where
  copies := (c.steps catalog).flatMap fun step => step.operation.copies
  relapses id t := ∃ step ∈ c.steps catalog, ∃ l, step.state.model.local? id = some l ∧
    l.family = none ∧ l.type = t ∧ ∀ final, m.local? id = some final → final.type ≠ t

open Check in
/-- A closure whose parameter is the index of the thread and whose body is well typed. The environment
behind the body has the locals of the model and no others. -/
structure Closure.WellTyped (catalog : Catalog) (m : Model) (c : Closure) : Prop where
  paramType : ∀ type ∈ c.paramType, Ty.ofHost? type.type = some .threadIds
  param : ∃ l, m.local? Model.paramId = some l ∧ l.type = .threadIds
  body : ∃ Γ, Check.WellTyped catalog m (c.leeway catalog m)
    (Env.openScope {} |>.declare c.param.text none) (.block c.body) Γ ∧
      Γ.opens.length = m.locals.length

end ComputeKernel
