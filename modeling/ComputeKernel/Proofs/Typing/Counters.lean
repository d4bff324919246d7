import ComputeKernel.Proofs.Typing.Annotations
import ComputeKernel.Proofs.Typing.Places

/-!
Counters of loops and places of assignments. What counts a loop is an immutable local that has an integer
type in the end. Nothing is assigned to what a method gives.
-/

namespace ComputeKernel

/-- Whether a name is that of a local which counts: an immutable one of an integer type. -/
def Name.Counts (m : Model) (name : Name) : Prop :=
  ∃ id l, m.referent? name.span = some (.local id) ∧ m.local? id = some l ∧ l.mutable = false ∧
    l.type.isInteger

/-- Whether no method is called between an expression and its roots. -/
def Expr.IsRooted : Expr → Prop
  | .method .. => False
  | .index _ base _ => base.IsRooted
  | .field _ e _ | .paren _ e => e.IsRooted
  | .choice _ _ yes no => yes.IsRooted ∧ no.IsRooted
  | _ => True

namespace Check

variable {catalog : Catalog} {m : Model} {s s₁ s' : Checking}

/-! ### Counters -/

theorem counts_of_for {counter : Name} {body : Block} {t : Typed} (ht : t.Sound)
    (hentered : (s.openScope.declare counter t.type false t.family).enterLoop.Sound)
    (hinteger : t.isInteger) (hname : m.referent? counter.span = some (.local s.model.locals.length))
    (hbody : ChecksStmt catalog (s.openScope.declare counter t.type false t.family).enterLoop
      (.block body) s') (hkept : body.Kept s' m) (hends : s'.Ends m) : counter.Counts m := by
  obtain ⟨final, hfinal, hfits⟩ := (hbody.ends hentered hends).exists_declared
  have hheads := (Block.Kept.keeps hkept.1 hbody).heads.trans hkept.2.heads
  obtain ⟨l, hl, hhead⟩ := Model.local?_of_heads hheads (List.getElem?_concat_length ..)
  obtain rfl := Option.some.inj (hfinal.symm.trans hl)
  exact ⟨_, final, hname, hfinal, congrArg Prod.snd hhead, isInteger_of_fits ht hinteger hfits⟩

/-- The counters in a statement are locals that count. -/
theorem ChecksStmt.counters {j : StmtJudgment} (h : ChecksStmt catalog s j s') (hs : s.Sound)
    (hm : j.Kept s' m) (hends : s'.Ends m) : ∀ l ∈ j.loops, l.counter.Counts m := by
  induction h with
  | declare | annotated | inferred | assign | jump | eval | nil => exact nofun
  | ifOnly hcondition _ hbody ih =>
    obtain ⟨_, hb⟩ := Stmt.Kept.ifOnly hm hbody
    exact ih (hcondition.sound hs).2 hb hends
  | ifElse hcondition _ hbody hotherwise ihBody ihOtherwise =>
    obtain ⟨_, hb, ho⟩ := Stmt.Kept.ifElse hm hbody hotherwise
    have hs₁ := (hcondition.sound hs).2
    have hs₂ := hbody.sound hs₁
    exact List.forall_mem_append.mpr
      ⟨ihBody hs₁ hb (hotherwise.ends hs₂ hends), ihOtherwise hs₂ ho hends⟩
  | «for» hstart hstop hunify hinteger hbody ih =>
    obtain ⟨_, _, hname, hb⟩ := Stmt.Kept.for hm hstop hunify.settles hbody
    obtain ⟨ht, hentered⟩ := sound_counted hstart hstop hunify hinteger hs _
    exact List.forall_mem_cons.mpr
      ⟨counts_of_for ht hentered hinteger hname hbody hb hends, ih hentered hb hends⟩
  | «while» hcondition _ hbody ih =>
    obtain ⟨_, hb⟩ := Stmt.Kept.while hm hbody
    exact ih (hcondition.sound hs).2.enterLoop hb hends
  | loop _ ih => exact ih hs.enterLoop (Stmt.Kept.loop hm) hends
  | nested _ ih => exact ih hs (Stmt.Kept.nested hm) hends
  | cons hfirst hrest ihFirst ihRest =>
    obtain ⟨hst, hsts⟩ := Stmt.AllKept.cons hm hrest
    have hs₁ := hfirst.sound hs
    exact List.forall_mem_append.mpr
      ⟨ihFirst hs hst (hrest.ends hs₁ hends), ihRest hs₁ hsts hends⟩
  | block _ ih => exact ih hs.openScope (Block.Kept.stmts hm) hends

/-! ### Places -/

def Judgment.RootedIfBuffer : Judgment → Prop
  | .expr e t => t.type.IsBuffer → e.IsRooted
  | .args _ _ => True

theorem HasMethod.not_isBuffer {r : Typed} {member : Name} {args : List Argument} {t : Ty}
    (h : HasMethod r member args s t s') : ¬ t.IsBuffer := by
  cases h <;> exact Ty.not_isBuffer_of_isValue rfl

/-- No method gives a buffer. -/
theorem Checks.isRooted {j : Judgment} (h : Checks catalog s j s') (hs : s.Sound) :
    j.RootedIfBuffer := by
  induction h with
  | literal | «local» | capture | static | path | unary | binary | cast | call =>
    exact fun _ => trivial
  | nil | cons => trivial
  | field _ hcomponent => exact fun hbuffer => (not_isBuffer_of_componentType? hcomponent hbuffer).elim
  | method _ _ hmethod => exact fun hbuffer => (hmethod.not_isBuffer hbuffer).elim
  | element _ _ _ _ helement => exact fun hbuffer => (not_isBuffer_of_elementType? helement hbuffer).elim
  | swizzle => exact fun hbuffer => (Ty.not_isBuffer_of_isValue rfl hbuffer).elim
  | paren _ ih => exact ih hs
  | choice hcondition _ hyes hno hunify _ ihYes ihNo =>
    intro hbuffer
    obtain ⟨_, hs₁⟩ := hcondition.sound hs
    obtain ⟨hsoundYes, hs₂⟩ := hyes.sound hs₁
    obtain ⟨hbufferYes, hbufferNo⟩ := hunify.isBuffer hsoundYes (hno.sound hs₂).1
    exact ⟨ihYes hs₁ (hbufferYes.mpr hbuffer), ihNo hs₂ (hbufferNo.mpr hbuffer)⟩

/-- No method is called in a place that can be assigned, up to the index of an element. -/
theorem Assignable.isRooted {place : Expr} (h : Assignable m place) {target : Typed}
    (hplace : Checks catalog s (.expr place target) s₁) (hs : s.Sound) (hm : place.Kept s₁ m) :
    place.IsRooted := by
  induction h generalizing s₁ target with
  | name => trivial
  | element htype =>
    cases hplace with
    | element hbase _ hindex _ _ =>
      have hbuffer := (hbase.type?_eq (Expr.Kept.index hm hindex).1).symm.trans htype
      exact hbase.isRooted (j := .expr _ _) hs ⟨_, _, Option.some.inj hbuffer⟩
    | swizzle hbase hmatrix _ _ hselects =>
      have hbuffer := (hbase.type?_eq (Expr.Kept.swizzle hm hselects)).symm.trans htype
      rw [hmatrix] at hbuffer
      cases hbuffer
  | index _ _ ih =>
    cases hplace with
    | element hbase _ hindex _ _ => exact ih hbase (Expr.Kept.index hm hindex).1
    | swizzle hbase _ _ _ hselects => exact ih hbase (Expr.Kept.swizzle hm hselects)
  | field _ ih =>
    cases hplace with
    | field he _ => exact ih he (Expr.Kept.field hm)
  | paren _ ih =>
    cases hplace with
    | paren he => exact ih he (Expr.Kept.paren hm)

/-- The place of an assignment that was checked calls no methods. -/
theorem rooted_of_met {span : Span} {op : Option BinaryOp} {place value : Expr}
    (h : Met catalog m (.assign span op place value)) : place.IsRooted := by
  obtain ⟨s, s', hs, hchecks, hm⟩ := h
  cases hchecks with
  | assign hplace hvalue hassignable _ =>
    exact hassignable.isRooted hplace hs (kept_place hm.1.1 hvalue)

end Check

/-- The counters of an accepted closure count, and its places call no methods. -/
theorem Closure.counters_of_bind {c : Closure} {catalog : Catalog} {m : Model} {hi : Nat}
    (hlaid : c.Laid hi) (h : c.bind catalog = .ok m) :
    (∀ l ∈ c.body.loops, l.counter.Counts m) ∧ ∀ a ∈ c.body.assignments, a.2.IsRooted := by
  refine ⟨?_, fun a ha => ?_⟩
  · obtain ⟨s, hchecks, rfl⟩ := c.checks_of_bind h
    cases hchecks with
    | @mk s _ hbody =>
      exact hbody.counters (Check.sound_initial c) (hlaid.2.2.2.1.kept s) (Checking.ends_self s)
  · obtain ⟨_, _, hmet⟩ := (c.met_of_bind hlaid h).2 a ha
    exact Check.rooted_of_met hmet

end ComputeKernel
