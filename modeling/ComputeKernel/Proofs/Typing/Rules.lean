import ComputeKernel.Proofs.Typing.Run
import ComputeKernel.Typing.Statements

/-!
Checking as a relation. A rule says which types an expression needs of its parts, which type it has
itself, and what the check leaves behind in the state; there is no rule for what is reported. A
statement about accepted closures is proved by induction on rules.
-/

namespace ComputeKernel

namespace Check

open Shader (Receiver Member hasRule scalarMethod? intrinsic? intrinsicOwner Intrinsic)

/-! ### Operators -/

/-- The common type of two values, and what is settled for it. -/
inductive Unifies (a b : Typed) (s : Checking) : Typed → Checking → Prop where
  | settled : a.family = none → b.family = none → a.type = b.type → Unifies a b s a s
  | left {f} : a.family = some f → b.family = none → a.Fits b.type →
      Unifies a b s b (s.settle a b.type)
  | right {f} : a.family = none → b.family = some f → b.Fits a.type →
      Unifies a b s a (s.settle b a.type)
  | open {f} : a.family = some f → b.family = some f → a.type = b.type →
      Unifies a b s { type := a.type, family := some f } s

/-- The operand with a shape of its own, and the other one. -/
def mainOperand (l r : Typed) : Typed × Typed := if l.type.isAggregate then (l, r) else (r, l)

/-- Whether the second operand of an operator on vectors or matrices goes with the main one. -/
def Matches (v : ValueType) (other : Typed) (s s' : Checking) : Prop :=
  if other.type.isAggregate then other.type = .value v ∧ s' = s
  else other.Fits (.scalar v.kind) ∧ s' = s.settle other (.scalar v.kind)

/-- The type of a binary operator on values. -/
inductive Operates (op : BinaryOp) (l r : Typed) (s : Checking) : Typed → Checking → Prop where
  | logical : op.isLogical → l.type = .bool → r.type = .bool →
      Operates op l r s { type := .bool } s
  | shift {k k'} : ¬ op.isLogical → op.isShift → l.type = .scalar k → r.type = .scalar k' →
      k.isInteger → k'.isInteger → Operates op l r s l.detached s
  | comparison {k k' k'' common s'} : ¬ op.isLogical → ¬ op.isShift → op.isComparison →
      l.type = .scalar k → r.type = .scalar k' → Unifies l r s common s' →
      common.type = .scalar k'' → hasScalar op k'' → Operates op l r s { type := .bool } s'
  | scalar {k k' k'' common s'} : ¬ op.isLogical → ¬ op.isShift → ¬ op.isComparison →
      l.type = .scalar k → r.type = .scalar k' → Unifies l r s common s' →
      common.type = .scalar k'' → hasScalar op k'' → Operates op l r s common.detached s'
  | aggregate {receiver member v s'} : ¬ op.isLogical →
      Receiver.ofOperands? l.type r.type = some receiver →
      Member.ofOperator? op = some member → hasRule receiver member →
      (mainOperand l r).1.type = .value v → Matches v (mainOperand l r).2 s s' →
      hasAggregate op v.kind →
      Operates op l r s
        { type := .value (if op.isComparison then v.withKind .bool else v) } s'

/-- A cast goes from a scalar to a scalar. -/
def Casts (t : Typed) (target : TypeRef) (l : ScalarKind) : Prop :=
  Ty.ofHost? target.type = some (.scalar l) ∧ l ≠ .bool ∧
    ∃ k, t.type = .scalar k ∧ ¬ (k = .bool ∧ l.isFloat)

/-! ### Calls -/

/-- Arguments that all settle on one type. -/
inductive CoercesAll (type : Ty) : List Argument → Checking → Checking → Prop where
  | nil {s} : CoercesAll type [] s s
  | cons {arg args s s'} : arg.typed.Fits type → CoercesAll type args (s.settle arg.typed type) s' →
      CoercesAll type (arg :: args) s s'

/-- What an argument of an intrinsic settles on: the common type, or its component type. -/
def intrinsicTarget (kind : ScalarKind) (common : ValueType) (t : Typed) : Ty :=
  match t.type with
  | .value (.scalar _) => .scalar kind
  | _ => .value common

inductive IntrinsicArguments (kind : ScalarKind) (common : ValueType) :
    List Argument → Checking → Checking → Prop where
  | nil {s} : IntrinsicArguments kind common [] s s
  | cons {arg args s s'} : arg.typed.Fits (intrinsicTarget kind common arg.typed) →
      IntrinsicArguments kind common args
        (s.settle arg.typed (intrinsicTarget kind common arg.typed)) s' →
      IntrinsicArguments kind common (arg :: args) s s'

/-- The argument that the component type is taken from. -/
def anchor? (args : List Argument) : Option Argument :=
  (args.find? fun a => a.typed.family.isNone) <|> args.head?

/-- The common type of arguments whose component type is `kind`. -/
def commonShape (kind : ScalarKind) (args : List Argument) : ValueType :=
  match args.findSome? fun a => a.typed.type.value?.filter fun v => ! v.isScalar with
  | some v => v.withKind kind
  | none => .scalar kind

/-- The result of an intrinsic. -/
inductive IntrinsicResult (i : Intrinsic) (args : List Argument) (s : Checking) :
    Ty → Checking → Prop where
  | operands {a kind s'} : i.result = .operands → anchor? args = some a →
      a.typed.type.kind? = some kind →
      IntrinsicArguments kind (commonShape kind args) args s s' →
      IntrinsicResult i args s (.value (commonShape kind args)) s'
  | component {a kind s'} : i.result = .component → anchor? args = some a →
      a.typed.type.kind? = some kind →
      IntrinsicArguments kind (commonShape kind args) args s s' →
      IntrinsicResult i args s (.scalar (commonShape kind args).kind) s'
  | bool : i.result = .bool → IntrinsicResult i args s .bool s
  | product {a b v w p} : i.result = .product → args = [a, b] → a.typed.type = .value v →
      b.typed.type = .value w → productType? v w = some p → IntrinsicResult i args s (.value p) s

/-- The components that the arguments of a constructor supply. -/
inductive Supplies (built : ValueType) : List Argument → Checking → UInt8 → Checking → Prop where
  | nil {s} : Supplies built [] s 0 s
  | vector {arg args s s' n count} : arg.typed.type = .vector built.kind n →
      Supplies built args s count s' → Supplies built (arg :: args) s (.ofNat n + count) s'
  | scalar {arg args s s' k count} : arg.typed.type = .scalar k →
      arg.typed.Fits (.scalar built.kind) →
      Supplies built args (s.settle arg.typed (.scalar built.kind)) count s' →
      Supplies built (arg :: args) s (1 + count) s'

/-- The type of a call through a path. -/
inductive Calls (callee : Path) (args : List Argument) (s : Checking) : Ty → Checking → Prop where
  | intrinsic {i t s'} : callee.owner? = some intrinsicOwner → intrinsic? callee.last = some i →
      args.length = i.arity → (∀ a ∈ args, a.typed.type.isValue) →
      IntrinsicResult i args s t s' → Calls callee args s t s'
  | new {owner v s'} : callee.owner? = some owner → owner ≠ intrinsicOwner →
      callee.last = "new" → Ty.ofHost? (.named owner) = some (.value v) → ¬ v.isScalar →
      Supplies v args s (.ofNat v.components) s' → Calls callee args s (.value v) s'
  | splat {owner v arg} : callee.owner? = some owner → owner ≠ intrinsicOwner →
      callee.last = "splat" → Ty.ofHost? (.named owner) = some (.value v) → ¬ v.isScalar →
      args = [arg] → arg.typed.Fits (.scalar v.kind) →
      Calls callee args s (.value v) (s.settle arg.typed (.scalar v.kind))

/-- The type of a method call, with the arguments. -/
inductive HasMethod (r : Typed) (member : Name) (args : List Argument) (s : Checking) :
    Ty → Checking → Prop where
  | swizzle {k n} : r.type = .vector k n → args = [] → isSwizzle member.text n →
      HasMethod r member args s (.vector k member.text.length) s
  | element {k rows columns row column} : r.type = .value (.matrix k rows columns) → args = [] →
      elementPosition? member.text = some (row, column) → row ≤ rows → column ≤ columns →
      HasMethod r member args s (.scalar k) s
  | scalar {k m s'} : r.type = .scalar k → k ≠ .bool → scalarMethod? member.text = some m →
      (k.isFloat ∨ m.onIntegers) → args.length = m.arity →
      CoercesAll (.scalar k) args (s.settle r (.scalar k)) s' →
      HasMethod r member args s (.scalar k) s'

/-- The selectors of a matrix swizzle, whose types are noted. -/
inductive Selects (rows columns : Nat) : List Expr → Checking → Checking → Prop where
  | nil {s} : Selects rows columns [] s s
  | cons {span path row column items s s'} : matrixIndexPosition? path = some (row, column) →
      row ≤ rows → column ≤ columns →
      Selects rows columns items (s.noteType span .matrixIndex) s' →
      Selects rows columns (.path span path :: items) s s'

/-! ### Names -/

/-- The static that a path names, with its type. -/
def NamesStatic (catalog : Catalog) (path : Path) (index : Nat) (t : Ty) : Prop :=
  staticsNamed path catalog.statics = [index] ∧
    ∃ decl, catalog.statics[index]? = some decl ∧ Ty.ofText? decl.type = some t

/-- The capture that a name stands for, with its type. -/
def NamesCapture (catalog : Catalog) (text : String) (index : Nat) (t : Ty) : Prop :=
  (catalog.fields.findIdx? fun f => f.name == text) = some index ∧
    ∃ f, catalog.fields[index]? = some f ∧ Ty.ofText? f.type = some t

/-- What is known of a use of a local. -/
def useOf (id : Nat) (l : Local) : Typed :=
  { type := l.type, family := l.family, origin := l.family.map fun _ => id }

/-! ### Expressions -/

/-- What is checked, with the types that are found. -/
inductive Judgment where
  | expr (e : Expr) (t : Typed)
  | args (es : List Expr) (ts : List Typed)

/-- Arguments with the types that were found for them. -/
def arguments (es : List Expr) (ts : List Typed) : List Argument :=
  (es.zip ts).map fun (e, t) => ⟨e.span, t⟩

inductive Checks (catalog : Catalog) : Checking → Judgment → Checking → Prop where
  | literal {s span v} :
      Checks catalog s (.expr (.literal span v) (Check.literal v))
        (s.noteType span (Check.literal v).type)
  | local {s span text id l} : s.find? text = some id → s.model.local? id = some l →
      Checks catalog s (.expr (.name span text) (useOf id l))
        ((s.noteReferent span (.local id)).noteType span l.type)
  | capture {s span text index t} : s.find? text = none → NamesCapture catalog text index t →
      Checks catalog s (.expr (.name span text) { type := t })
        ((s.noteReferent span (.capture index)).noteType span t)
  | static {s span text index t} : s.find? text = none →
      (catalog.fields.findIdx? fun f => f.name == text) = none →
      NamesStatic catalog [text] index t →
      Checks catalog s (.expr (.name span text) { type := t })
        ((s.noteReferent span (.static index)).noteType span t)
  | path {s span path index t} : path.owner? ≠ some matrixIndexOwner →
      NamesStatic catalog path index t →
      Checks catalog s (.expr (.path span path) { type := t })
        ((s.noteReferent span (.static index)).noteType span t)
  | unary {s s' span op e t} : Checks catalog s (.expr e t) s' → hasUnary op t.type →
      Checks catalog s (.expr (.unary span op e) t.detached) (s'.noteType span t.type)
  | binary {s s₁ s₂ s' span op l r tl tr t} : Checks catalog s (.expr l tl) s₁ →
      Checks catalog s₁ (.expr r tr) s₂ → Operates op tl tr s₂ t s' →
      Checks catalog s (.expr (.binary span op l r) t) (s'.noteType span t.type)
  | cast {s s' span e t target k} : Checks catalog s (.expr e t) s' → Casts t target k →
      Checks catalog s (.expr (.cast span e target) { type := .scalar k })
        (s'.noteType span (.scalar k))
  | field {s s' span e t member type} : Checks catalog s (.expr e t) s' →
      componentType? t.type member.text = some type →
      Checks catalog s (.expr (.field span e member) { type }) (s'.noteType span type)
  | method {s s₁ s₂ s' span e r member args ts type} : Checks catalog s (.expr e r) s₁ →
      Checks catalog s₁ (.args args ts) s₂ →
      HasMethod r member (Check.arguments args ts) s₂ type s' →
      Checks catalog s (.expr (.method span e member args) { type }) (s'.noteType span type)
  | call {s s₁ s' span callee calleeSpan args ts type} : Checks catalog s (.args args ts) s₁ →
      Calls callee (Check.arguments args ts) s₁ type s' →
      Checks catalog s (.expr (.call span callee calleeSpan args) { type })
        (s'.noteType span type)
  | element {s s₁ s' span base index b i type} : Checks catalog s (.expr base b) s₁ →
      swizzleItems? b.type index = none → Checks catalog s₁ (.expr index i) s' → i.type.isInteger →
      elementType? b.type = some type →
      Checks catalog s (.expr (.index span base index) { type }) (s'.noteType span type)
  | swizzle {s s₁ s' span base b k rows columns itemsSpan items} : Checks catalog s (.expr base b) s₁ →
      b.type = .value (.matrix k rows columns) → 2 ≤ items.length → items.length ≤ 4 →
      Selects rows columns items s₁ s' →
      Checks catalog s
        (.expr (.index span base (.tuple itemsSpan items)) { type := .vector k items.length })
        ((s'.noteType itemsSpan (.selectors items.length)).noteType span (.vector k items.length))
  | paren {s s' span e t} : Checks catalog s (.expr e t) s' →
      Checks catalog s (.expr (.paren span e) t) (s'.noteType span t.type)
  | choice {s s₁ s₂ s₃ s' span condition yes no c y n t} :
      Checks catalog s (.expr condition c) s₁ → c.type = .bool →
      Checks catalog s₁ (.expr yes y) s₂ → Checks catalog s₂ (.expr no n) s₃ →
      Unifies y n s₃ t s' →
      Checks catalog s (.expr (.choice span condition yes no) t) (s'.noteType span t.type)
  | nil {s} : Checks catalog s (.args [] []) s
  | cons {s s₁ s' e es t ts} : Checks catalog s (.expr e t) s₁ → Checks catalog s₁ (.args es ts) s' →
      Checks catalog s (.args (e :: es) (t :: ts)) s'

/-- The types of a list of arguments, all of which were found. -/
theorem Checks.length_eq {catalog : Catalog} {s s' : Checking} {j : Judgment}
    (h : Checks catalog s j s') : ∀ es ts, j = .args es ts → es.length = ts.length := by
  induction h with
  | nil =>
    rintro es ts ⟨⟩
    rfl
  | cons _ _ _ ih =>
    rintro es ts ⟨⟩
    exact congrArg (· + 1) (ih _ _ rfl)
  | _ => nofun

theorem length_arguments {es : List Expr} {ts : List Typed} (h : es.length = ts.length) :
    (arguments es ts).length = es.length := by
  simp [arguments, h]

/-! ### Assignments -/

/-- Whether a name stands for something that can be assigned, or for nothing. -/
def NameAssignable (m : Model) (span : Span) : Prop :=
  match m.referent? span with
  | some (.local id) => ∀ l, m.local? id = some l → l.mutable
  | some (.capture _) | some (.static _) => False
  | none => True

/-- Whether a place can be assigned. -/
inductive Assignable (m : Model) : Expr → Prop where
  | name {span text} : NameAssignable m span → Assignable m (.name span text)
  | element {span base index t} : m.type? base.span = some (.buffer .readWrite t) →
      Assignable m (.index span base index)
  | index {span base index} : (∀ access t, m.type? base.span ≠ some (.buffer access t)) →
      Assignable m base → Assignable m (.index span base index)
  | field {span receiver member} : Assignable m receiver → Assignable m (.field span receiver member)
  | paren {span inner} : Assignable m inner → Assignable m (.paren span inner)

/-- Whether one of two values has the type of the other or settles on it. -/
inductive Agrees (target value : Typed) (s : Checking) : Checking → Prop where
  | value : value.Fits target.type → Agrees target value s (s.settle value target.type)
  | target : ¬ value.Fits target.type → target.Fits value.type →
      Agrees target value s (s.settle target value.type)

/-- Whether a value fits its place, behind the operator of a compound assignment. -/
inductive Assigns (target value : Typed) (s : Checking) : Option BinaryOp → Checking → Prop where
  | plain {s'} : Agrees target value s s' → Assigns target value s none s'
  | compound {op result s₁} : Operates op target value s result s₁ → result.Fits target.type →
      Assigns target value s (some op) (s₁.settle result target.type)

/-! ### Statements -/

end Check

namespace Checking

def openScope (s : Checking) : Checking := { s with scopes := [] :: s.scopes }

def closeScope (s : Checking) : Checking := { s with scopes := s.scopes.drop 1 }

def enterLoop (s : Checking) : Checking := { s with loops := s.loops + 1 }

def leaveLoop (s : Checking) : Checking := { s with loops := s.loops - 1 }

end Checking

namespace Check

/-- The type of a local that is declared with one. -/
def Declares (type : TypeRef) (t : Ty) : Prop :=
  Ty.ofHost? type.type = some t ∧ isLocalType t

inductive StmtJudgment where
  | stmt (s : Stmt)
  | stmts (ss : List Stmt)
  | block (b : Block)

inductive ChecksStmt (catalog : Catalog) : Checking → StmtJudgment → Checking → Prop where
  | declare {s span mutable name type t} : Declares type t →
      ChecksStmt catalog s (.stmt (.let span mutable name (some type) none))
        (s.declare name t mutable none)
  | annotated {s s₁ span mutable name type t e v} : Checks catalog s (.expr e v) s₁ →
      Declares type t → v.Fits t →
      ChecksStmt catalog s (.stmt (.let span mutable name (some type) (some e)))
        ((s₁.settle v t).declare name t mutable none)
  | inferred {s s₁ span mutable name e v} : Checks catalog s (.expr e v) s₁ →
      isLocalType v.type →
      ChecksStmt catalog s (.stmt (.let span mutable name none (some e)))
        (s₁.declare name v.type mutable v.family)
  | assign {s s₁ s₂ s' span op place value target found} : Checks catalog s (.expr place target) s₁ →
      Checks catalog s₁ (.expr value found) s₂ → Assignable s₂.model place →
      Assigns target found s₂ op s' → ChecksStmt catalog s (.stmt (.assign span op place value)) s'
  | ifOnly {s s₁ s' span condition c body} : Checks catalog s (.expr condition c) s₁ →
      c.type = .bool → ChecksStmt catalog s₁ (.block body) s' →
      ChecksStmt catalog s (.stmt (.if span condition body none)) s'
  | ifElse {s s₁ s₂ s' span condition c body otherwise} : Checks catalog s (.expr condition c) s₁ →
      c.type = .bool → ChecksStmt catalog s₁ (.block body) s₂ →
      ChecksStmt catalog s₂ (.block otherwise) s' →
      ChecksStmt catalog s (.stmt (.if span condition body (some otherwise))) s'
  | for {s s₁ s₂ s₃ s' span counter start stop inclusive body lo hi t} :
      Checks catalog s (.expr start lo) s₁ → Checks catalog s₁ (.expr stop hi) s₂ →
      Unifies lo hi s₂ t s₃ → t.isInteger →
      ChecksStmt catalog ((s₃.openScope.declare counter t.type false t.family).enterLoop)
        (.block body) s' →
      ChecksStmt catalog s (.stmt (.for span counter start stop inclusive body))
        s'.leaveLoop.closeScope
  | while {s s₁ s' span condition c body} : Checks catalog s (.expr condition c) s₁ →
      c.type = .bool → ChecksStmt catalog s₁.enterLoop (.block body) s' →
      ChecksStmt catalog s (.stmt (.while span condition body)) s'.leaveLoop
  | loop {s s' span body} : ChecksStmt catalog s.enterLoop (.block body) s' →
      ChecksStmt catalog s (.stmt (.loop span body)) s'.leaveLoop
  | jump {s span kind} : (kind = .return ∨ s.loops ≠ 0) →
      ChecksStmt catalog s (.stmt (.jump span kind)) s
  | eval {s s' span e t} : Checks catalog s (.expr e t) s' →
      ChecksStmt catalog s (.stmt (.eval span e)) s'
  | nested {s s' span body} : ChecksStmt catalog s (.block body) s' →
      ChecksStmt catalog s (.stmt (.nested span body)) s'
  | nil {s} : ChecksStmt catalog s (.stmts []) s
  | cons {s s₁ s' stmt stmts} : ChecksStmt catalog s (.stmt stmt) s₁ →
      ChecksStmt catalog s₁ (.stmts stmts) s' → ChecksStmt catalog s (.stmts (stmt :: stmts)) s'
  | block {s s' span stmts} : ChecksStmt catalog s.openScope (.stmts stmts) s' →
      ChecksStmt catalog s (.block ⟨span, stmts⟩) s'.closeScope

/-- A closure whose parameter, if it is annotated, is the index of a thread. -/
inductive ChecksClosure (catalog : Catalog) (c : Closure) : Checking → Prop where
  | mk {s} : (∀ type ∈ c.paramType, Ty.ofHost? type.type = some .threadIds) →
      ChecksStmt catalog
        ((({} : Checking).openScope).declare c.param .threadIds false none)
        (.block c.body) s →
      ChecksClosure catalog c s.closeScope

end Check

end ComputeKernel
