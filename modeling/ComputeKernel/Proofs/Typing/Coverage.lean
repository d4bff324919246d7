import ComputeKernel.Proofs.Typing.Acceptance
import ComputeKernel.Proofs.Typing.Parts

/-!
What the model of a closure says of it. A model covers a tree if it has a type for each expression,
a referent for each name and a local for each declaration, and if each member, operator and call
goes with the types that it has for the operands. The model that checking leaves behind covers what
was checked, since nothing that was noted for a part is lost behind it.
-/

namespace ComputeKernel

namespace Check

open Checking
open Shader (Receiver Member hasRule scalarMethod? intrinsic? intrinsicOwner)

/-- Whether an operator on values of two types either needs no rewriting rule or has one. -/
def Operable (op : BinaryOp) (left right : Ty) : Prop :=
  ∀ receiver, Receiver.ofOperands? left right = some receiver →
    ∃ member, Member.ofOperator? op = some member ∧ hasRule receiver member

/-- Whether a path selects an element of a matrix. -/
def IsSelector (rows columns : Nat) : Expr → Prop
  | .path _ path => ∃ row column, matrixIndexPosition? path = some (row, column) ∧
      row ≤ rows ∧ column ≤ columns
  | _ => False

/-- Whether a name's referent is there. -/
inductive Refers (catalog : Catalog) (m : Model) (path : Path) : Referent → Prop where
  | local {id l} : m.local? id = some l → Refers catalog m path (.local id)
  | capture {text index t} : path = [text] → NamesCapture catalog text index t →
      Refers catalog m path (.capture index)
  | static {index t} : NamesStatic catalog path index t → Refers catalog m path (.static index)

/-- What a model covers: an expression and its type, or several expressions. -/
inductive Covered where
  | expr (e : Expr) (t : Ty)
  | exprs (es : List Expr)

inductive Covers (catalog : Catalog) (m : Model) : Covered → Prop where
  | literal {span v} : m.type? span = some (Check.literal v).type →
      Covers catalog m (.expr (.literal span v) (Check.literal v).type)
  | name {span text r t} : m.referent? span = some r → Refers catalog m [text] r →
      m.type? span = some t → Covers catalog m (.expr (.name span text) t)
  | path {span path r t} : m.referent? span = some r → Refers catalog m path r →
      m.type? span = some t → Covers catalog m (.expr (.path span path) t)
  | unary {span op e t} : Covers catalog m (.expr e t) → hasUnary op t → m.type? span = some t →
      Covers catalog m (.expr (.unary span op e) t)
  | binary {span op l r tl tr t} : Covers catalog m (.expr l tl) → Covers catalog m (.expr r tr) →
      Operable op tl tr → m.type? span = some t → Covers catalog m (.expr (.binary span op l r) t)
  | cast {span e t target k} : Covers catalog m (.expr e t) →
      Ty.ofHost? target.type = some (.scalar k) → m.type? span = some (.scalar k) →
      Covers catalog m (.expr (.cast span e target) (.scalar k))
  | field {span e t member type} : Covers catalog m (.expr e t) →
      componentType? t member.text = some type → m.type? span = some type →
      Covers catalog m (.expr (.field span e member) type)
  | swizzle {span e k n member t} : Covers catalog m (.expr e (.vector k n)) →
      isSwizzle member.text n → m.type? span = some t →
      Covers catalog m (.expr (.method span e member []) t)
  | element {span e k rows columns member row column t} :
      Covers catalog m (.expr e (.value (.matrix k rows columns))) →
      elementPosition? member.text = some (row, column) → row ≤ rows → column ≤ columns →
      m.type? span = some t → Covers catalog m (.expr (.method span e member []) t)
  | method {span e k f member args t} : Covers catalog m (.expr e (.scalar k)) →
      scalarMethod? member.text = some f → args.length = f.arity →
      Covers catalog m (.exprs args) → m.type? span = some t →
      Covers catalog m (.expr (.method span e member args) t)
  | intrinsic {span callee calleeSpan args i t} : callee.owner? = some intrinsicOwner →
      intrinsic? callee.last = some i → args.length = i.arity → Covers catalog m (.exprs args) →
      m.type? span = some t → Covers catalog m (.expr (.call span callee calleeSpan args) t)
  | new {span callee calleeSpan args v} : callee.owner? ≠ some intrinsicOwner →
      callee.last = "new" → v.Shaped → ¬ v.isScalar → Covers catalog m (.exprs args) →
      m.type? span = some (.value v) →
      Covers catalog m (.expr (.call span callee calleeSpan args) (.value v))
  | splat {span callee calleeSpan arg v} : callee.owner? ≠ some intrinsicOwner →
      callee.last = "splat" → v.Shaped → ¬ v.isScalar → Covers catalog m (.exprs [arg]) →
      m.type? span = some (.value v) →
      Covers catalog m (.expr (.call span callee calleeSpan [arg]) (.value v))
  | index {span base i tb ti t} : Covers catalog m (.expr base tb) → Covers catalog m (.expr i ti) →
      ti.isInteger → elementType? tb = some t → m.type? span = some t →
      Covers catalog m (.expr (.index span base i) t)
  | matrixSwizzle {span base k rows columns itemsSpan items t} :
      Covers catalog m (.expr base (.value (.matrix k rows columns))) → items ≠ [] →
      (∀ item ∈ items, IsSelector rows columns item) → m.type? span = some t →
      Covers catalog m (.expr (.index span base (.tuple itemsSpan items)) t)
  | paren {span e t} : Covers catalog m (.expr e t) → m.type? span = some t →
      Covers catalog m (.expr (.paren span e) t)
  | choice {span condition yes no tc ty tn t} : Covers catalog m (.expr condition tc) →
      Covers catalog m (.expr yes ty) → Covers catalog m (.expr no tn) → m.type? span = some t →
      Covers catalog m (.expr (.choice span condition yes no) t)
  | nil : Covers catalog m (.exprs [])
  | cons {e es t} : Covers catalog m (.expr e t) → Covers catalog m (.exprs es) →
      Covers catalog m (.exprs (e :: es))

/-- The model has the type that it covers an expression with. -/
theorem Covers.type? {catalog : Catalog} {m : Model} {e : Expr} {t : Ty}
    (h : Covers catalog m (.expr e t)) : m.type? e.span = some t := by
  cases h <;> assumption

/-- Whether a local is declared at a name. -/
def Declared (m : Model) (name : Name) : Prop :=
  ∃ id l, m.referent? name.span = some (.local id) ∧ m.local? id = some l

inductive CoversStmt (catalog : Catalog) (m : Model) : StmtJudgment → Prop where
  | let {span mutable name type value} : Declared m name →
      (∀ e ∈ value, ∃ t, Covers catalog m (.expr e t)) →
      CoversStmt catalog m (.stmt (.let span mutable name type value))
  | assign {span op place value target found} : Covers catalog m (.expr place target) →
      Covers catalog m (.expr value found) → (∀ o ∈ op, Operable o target found) →
      CoversStmt catalog m (.stmt (.assign span op place value))
  | if {span condition body otherwise t} : Covers catalog m (.expr condition t) →
      CoversStmt catalog m (.block body) → (∀ b ∈ otherwise, CoversStmt catalog m (.block b)) →
      CoversStmt catalog m (.stmt (.if span condition body otherwise))
  | for {span counter start stop inclusive body lo hi} : Declared m counter →
      Covers catalog m (.expr start lo) → Covers catalog m (.expr stop hi) →
      CoversStmt catalog m (.block body) →
      CoversStmt catalog m (.stmt (.for span counter start stop inclusive body))
  | while {span condition body t} : Covers catalog m (.expr condition t) →
      CoversStmt catalog m (.block body) → CoversStmt catalog m (.stmt (.while span condition body))
  | loop {span body} : CoversStmt catalog m (.block body) →
      CoversStmt catalog m (.stmt (.loop span body))
  | jump {span kind} : CoversStmt catalog m (.stmt (.jump span kind))
  | eval {span e t} : Covers catalog m (.expr e t) → CoversStmt catalog m (.stmt (.eval span e))
  | nested {span body} : CoversStmt catalog m (.block body) →
      CoversStmt catalog m (.stmt (.nested span body))
  | nil : CoversStmt catalog m (.stmts [])
  | cons {st sts} : CoversStmt catalog m (.stmt st) → CoversStmt catalog m (.stmts sts) →
      CoversStmt catalog m (.stmts (st :: sts))
  | block {span sts} : CoversStmt catalog m (.stmts sts) →
      CoversStmt catalog m (.block ⟨span, sts⟩)

/-! ### Operators and members -/

variable {catalog : Catalog} {m : Model} {s s' : Checking}

theorem Operates.operable {op : BinaryOp} {l r t : Typed} (h : Operates op l r s t s') :
    Operable op l.type r.type := by
  intro receiver hreceiver
  cases h with
  | logical _ hl hr =>
    rw [hl, hr] at hreceiver
    cases hreceiver
  | shift _ _ hl hr | comparison _ _ _ hl hr | scalar _ _ _ hl hr =>
    rw [hl, hr] at hreceiver
    cases hreceiver
  | aggregate _ hof hmember hrule =>
    obtain rfl := Option.some.inj (hof.symm.trans hreceiver)
    exact ⟨_, hmember, hrule⟩

theorem Selects.isSelector {rows columns : Nat} {items : List Expr}
    (h : Selects rows columns items s s') : ∀ item ∈ items, IsSelector rows columns item := by
  induction h with
  | nil => exact nofun
  | cons hposition hrow hcolumn _ ih =>
    exact List.forall_mem_cons.mpr ⟨⟨_, _, hposition, hrow, hcolumn⟩, ih⟩

/-! ### Expressions -/

/-- What a judgment says of the model. -/
def Judgment.covered : Judgment → Covered
  | .expr e t => .expr e t.type
  | .args es _ => .exprs es

theorem covers_method {span : Span} {e : Expr} {r : Typed} {member : Name} {args : List Expr}
    {ts : List Typed} {type : Ty} (h : HasMethod r member (arguments args ts) s type s')
    (hlength : args.length = ts.length) (hreceiver : Covers catalog m (.expr e r.type))
    (hargs : Covers catalog m (.exprs args)) (htype : m.type? span = some type) :
    Covers catalog m (.expr (.method span e member args) type) := by
  have hnone : arguments args ts = [] → args = [] := by
    intro hnil
    have := length_arguments hlength
    rw [hnil] at this
    exact List.length_eq_zero_iff.mp this.symm
  cases h with
  | swizzle hr hempty hswizzle =>
    obtain rfl := hnone hempty
    exact .swizzle (hr ▸ hreceiver) hswizzle htype
  | element hr hempty hposition hrow hcolumn =>
    obtain rfl := hnone hempty
    exact .element (hr ▸ hreceiver) hposition hrow hcolumn htype
  | scalar hr _ hm _ hcount _ =>
    rw [length_arguments hlength] at hcount
    exact .method (hr ▸ hreceiver) hm hcount hargs htype

theorem covers_call {span : Span} {callee : Path} {calleeSpan : Span} {args : List Expr}
    {ts : List Typed} {type : Ty} (h : Calls callee (arguments args ts) s type s')
    (hlength : args.length = ts.length) (hargs : Covers catalog m (.exprs args))
    (htype : m.type? span = some type) :
    Covers catalog m (.expr (.call span callee calleeSpan args) type) := by
  have hother : ∀ {owner}, callee.owner? = some owner → owner ≠ intrinsicOwner →
      callee.owner? ≠ some intrinsicOwner := by
    intro owner howner hne heq
    exact hne (Option.some.inj (howner.symm.trans heq))
  cases h with
  | intrinsic howner hi hcount _ _ =>
    rw [length_arguments hlength] at hcount
    exact .intrinsic howner hi hcount hargs htype
  | new howner hne hlast hbuilt hscalar _ =>
    exact .new (hother howner hne) hlast (Ty.shaped_of_ofHost? (t := .value _) hbuilt) hscalar
      hargs htype
  | splat howner hne hlast hbuilt hscalar hone _ =>
    have hcount := length_arguments hlength
    rw [hone] at hcount
    match args, hcount with
    | [arg], _ =>
      exact .splat (hother howner hne) hlast (Ty.shaped_of_ofHost? (t := .value _) hbuilt) hscalar
        hargs htype

/-- A model that keeps what a check noted covers what was checked. -/
theorem Checks.covers {j : Judgment} (h : Checks catalog s j s') (hm : j.Kept s' m) :
    Covers catalog m j.covered := by
  induction h with
  | literal => exact .literal (Expr.Kept.type?_noted hm)
  | «local» _ hl =>
    obtain ⟨_, hl', _⟩ := hm.2.local? hl
    exact .name (Expr.Kept.referent?_noted hm) (.local hl') (Expr.Kept.type?_noted hm)
  | capture _ hcapture =>
    exact .name (Expr.Kept.referent?_noted hm) (.capture rfl hcapture) (Expr.Kept.type?_noted hm)
  | static _ _ hstatic =>
    exact .name (Expr.Kept.referent?_noted hm) (.static hstatic) (Expr.Kept.type?_noted hm)
  | path _ hstatic =>
    exact .path (Expr.Kept.referent?_noted hm) (.static hstatic) (Expr.Kept.type?_noted hm)
  | unary _ hop ih => exact .unary (ih (Expr.Kept.unary hm)) hop (Expr.Kept.type?_noted hm)
  | binary _ hright hop ihLeft ihRight =>
    obtain ⟨hl, hr⟩ := Expr.Kept.binary hm hright hop.settles
    exact .binary (ihLeft hl) (ihRight hr) hop.operable (Expr.Kept.type?_noted hm)
  | cast _ hcasts ih => exact .cast (ih (Expr.Kept.cast hm)) hcasts.1 (Expr.Kept.type?_noted hm)
  | field _ hcomponent ih =>
    exact .field (ih (Expr.Kept.field hm)) hcomponent (Expr.Kept.type?_noted hm)
  | method _ hargs hmethod ihReceiver ihArgs =>
    obtain ⟨hreceiver, hkept⟩ := Expr.Kept.method hm hargs hmethod.settles
    exact covers_method hmethod (hargs.length_eq _ _ rfl) (ihReceiver hreceiver) (ihArgs hkept)
      (Expr.Kept.type?_noted hm)
  | call hargs hcall ihArgs =>
    exact covers_call hcall (hargs.length_eq _ _ rfl) (ihArgs (Expr.Kept.call hm hcall.settles))
      (Expr.Kept.type?_noted hm)
  | element _ _ hindex hinteger helement ihBase ihIndex =>
    obtain ⟨hb, hi⟩ := Expr.Kept.index hm hindex
    exact .index (ihBase hb) (ihIndex hi) hinteger helement (Expr.Kept.type?_noted hm)
  | swizzle _ hmatrix hcount _ hselects ih =>
    have hbase : Covers catalog m (.expr _ _) := ih (Expr.Kept.swizzle hm hselects)
    rw [hmatrix] at hbase
    refine .matrixSwizzle hbase ?_ hselects.isSelector (Expr.Kept.type?_noted hm)
    rintro rfl
    exact absurd hcount (by decide)
  | paren _ ih => exact .paren (ih (Expr.Kept.paren hm)) (Expr.Kept.type?_noted hm)
  | choice _ _ hyes hno hunify ihCondition ihYes ihNo =>
    obtain ⟨hc, hy, hn⟩ := Expr.Kept.choice hm hyes hno hunify.settles
    exact .choice (ihCondition hc) (ihYes hy) (ihNo hn) (Expr.Kept.type?_noted hm)
  | nil => exact .nil
  | cons _ hrest ihFirst ihRest =>
    obtain ⟨hfirst, hkept⟩ := Expr.AllKept.cons hm hrest
    exact .cons (ihFirst hfirst) (ihRest hkept)

/-- What a check of one expression covers, with the type that it found. -/
theorem covers_of_checks {e : Expr} {t : Typed} (h : Checks catalog s (.expr e t) s')
    (hm : e.Kept s' m) : Covers catalog m (.expr e t.type) :=
  h.covers (j := .expr e t) hm

/-! ### Statements -/

/-- What the declaration of a local leaves behind. -/
theorem declared_of_heads {name : Name} {type : Ty} {mutable : Bool}
    {family : Option LiteralFamily}
    (hheads : (s.declare name type mutable family).model.heads <+: m.heads)
    (hreferent : m.referent? name.span = some (.local s.model.locals.length)) :
    Declared m name := by
  have hlocal : (s.declare name type mutable family).model.local? s.model.locals.length =
      some { name := name.text, type, mutable, span := name.span, family } :=
    List.getElem?_concat_length
  obtain ⟨l, hl, _⟩ := Model.local?_of_heads hheads hlocal
  exact ⟨_, l, hreferent, hl⟩

theorem Assigns.operable {target value : Typed} {op : Option BinaryOp}
    (h : Assigns target value s op s') : ∀ o ∈ op, Operable o target.type value.type := by
  cases h with
  | plain _ => exact nofun
  | compound hop _ =>
    rintro o ⟨⟩
    exact hop.operable

/-- A model that keeps what the check of a statement noted covers the statement. -/
theorem ChecksStmt.covers {j : StmtJudgment} (h : ChecksStmt catalog s j s') (hm : j.Kept s' m) :
    CoversStmt catalog m j := by
  induction h with
  | declare _ => exact .let (declared_of_heads hm.2.heads (Stmt.Kept.let hm).1) nofun
  | annotated he _ _ =>
    obtain ⟨hreferent, hvalue⟩ := Stmt.Kept.let hm
    refine .let (declared_of_heads hm.2.heads hreferent) ?_
    rintro _ ⟨⟩
    exact ⟨_, covers_of_checks he ((hvalue _ rfl).of_settles (.settle _ _ _))⟩
  | inferred he _ =>
    obtain ⟨hreferent, hvalue⟩ := Stmt.Kept.let hm
    refine .let (declared_of_heads hm.2.heads hreferent) ?_
    rintro _ ⟨⟩
    exact ⟨_, covers_of_checks he (hvalue _ rfl)⟩
  | assign hplace hvalue _ hassigns =>
    obtain ⟨hp, hv⟩ := Stmt.Kept.assign hm hvalue hassigns.settles
    exact .assign (covers_of_checks hplace hp) (covers_of_checks hvalue hv) hassigns.operable
  | ifOnly hcondition _ hbody ih =>
    obtain ⟨hc, hb⟩ := Stmt.Kept.ifOnly hm hbody
    exact .if (covers_of_checks hcondition hc) (ih hb) nofun
  | ifElse hcondition _ hbody hotherwise ihBody ihOtherwise =>
    obtain ⟨hc, hb, ho⟩ := Stmt.Kept.ifElse hm hbody hotherwise
    refine .if (covers_of_checks hcondition hc) (ihBody hb) ?_
    rintro _ ⟨⟩
    exact ihOtherwise ho
  | «for» hstart hstop hunify _ hbody ih =>
    obtain ⟨hl, hh, hreferent, hb⟩ := Stmt.Kept.for hm hstop hunify.settles hbody
    -- The counter is declared in front of the body, whose locals come behind it.
    have hheads := (Block.Kept.keeps hb.1 hbody).heads.trans hb.2.heads
    exact .for (declared_of_heads hheads hreferent) (covers_of_checks hstart hl)
      (covers_of_checks hstop hh) (ih hb)
  | «while» hcondition _ hbody ih =>
    obtain ⟨hc, hb⟩ := Stmt.Kept.while hm hbody
    exact .while (covers_of_checks hcondition hc) (ih hb)
  | loop _ ih => exact .loop (ih (Stmt.Kept.loop hm))
  | jump _ => exact .jump
  | eval he => exact .eval (covers_of_checks he (Stmt.Kept.eval hm))
  | nested _ ih => exact .nested (ih (Stmt.Kept.nested hm))
  | nil => exact .nil
  | cons _ hrest ihFirst ihRest =>
    obtain ⟨hfirst, hkept⟩ := Stmt.AllKept.cons hm hrest
    exact .cons (ihFirst hfirst) (ihRest hkept)
  | block _ ih => exact .block (ih (Block.Kept.stmts hm))

/-! ### Closures -/

/-- A model that covers a closure, with locals that have types of their own. -/
structure Complete (catalog : Catalog) (c : Closure) (m : Model) : Prop where
  body : CoversStmt catalog m (.block c.body)
  locals : ∀ l ∈ m.locals, l.Sound
  param : ∃ l, m.local? Model.paramId = some l

end Check

open Check in
/-- The model of a closure that is laid out in the order of its source covers the closure. -/
theorem Closure.complete_of_bind {c : Closure} {catalog : Catalog} {m : Model} {hi : Nat}
    (hlaid : c.Laid hi) (h : c.bind catalog = .ok m) : Complete catalog c m := by
  obtain ⟨s, hchecks, rfl⟩ := c.checks_of_bind h
  have hsound := hchecks.sound
  cases hchecks with
  | @mk s _ hbody =>
    obtain ⟨_, _, _, hlaid, _⟩ := hlaid
    refine ⟨hbody.covers (hlaid.kept s), hsound.locals, ?_⟩
    have hparam : ((({} : Checking).openScope.declare c.param .threadIds false none).model.local?
        Model.paramId).isSome := rfl
    obtain ⟨l, hl⟩ := Option.isSome_iff_exists.mp hparam
    obtain ⟨l', hl', _⟩ := Model.local?_of_heads (Block.Kept.keeps hlaid hbody).heads hl
    exact ⟨l', hl'⟩

end ComputeKernel
