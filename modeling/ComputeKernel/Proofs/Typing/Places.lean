import ComputeKernel.Proofs.Typing.Assignments
import ComputeKernel.Proofs.Typing.Coverage
import ComputeKernel.Proofs.Typing.Scoping

/-!
What is assigned and what cannot be. The root of a place is a mutable local, or a buffer of which an
element is set. Names in an expression that takes no elements and is no buffer itself stand for no
buffers either.
-/

namespace ComputeKernel

/-! ### Parts of expressions and statements -/

/-- The names at the root of a place, through elements, members, parentheses and both branches of a
conditional. -/
def Expr.roots : Expr → List Span
  | .name span _ | .path span _ => [span]
  | .index _ base _ => base.roots
  | .field _ e _ | .paren _ e => e.roots
  | .choice _ _ yes no => yes.roots ++ no.roots
  | _ => []

mutual

/-- What an expression takes elements of. -/
def Expr.indexed : Expr → List Expr
  | .literal .. | .name .. | .path .. => []
  | .unary _ _ e | .cast _ e _ | .field _ e _ | .paren _ e => e.indexed
  | .binary _ _ left right => left.indexed ++ right.indexed
  | .method _ receiver _ args => receiver.indexed ++ Expr.allIndexed args
  | .call _ _ _ args | .tuple _ args => Expr.allIndexed args
  | .index _ base i => base :: (base.indexed ++ i.indexed)
  | .choice _ condition yes no => condition.indexed ++ (yes.indexed ++ no.indexed)

def Expr.allIndexed : List Expr → List Expr
  | [] => []
  | e :: es => e.indexed ++ Expr.allIndexed es

end

/-- A counting loop without its body. -/
structure Loop where
  counter : Name
  start : Expr
  stop : Expr
  inclusive : Bool

mutual

/-- The counting loops in a statement. -/
def Stmt.loops : Stmt → List Loop
  | .let .. | .assign .. | .jump .. | .eval .. => []
  | .if _ _ body none => body.loops
  | .if _ _ body (some otherwise) => body.loops ++ otherwise.loops
  | .for _ counter start stop inclusive body => ⟨counter, start, stop, inclusive⟩ :: body.loops
  | .while _ _ body | .loop _ body | .nested _ body => body.loops

def Block.loops : Block → List Loop
  | ⟨_, stmts⟩ => Stmt.allLoops stmts

def Stmt.allLoops : List Stmt → List Loop
  | [] => []
  | s :: ss => s.loops ++ Stmt.allLoops ss

end

/-- Whether a referent is a buffer. Locals have values. -/
def Referent.IsBuffer (catalog : Catalog) : Referent → Prop
  | .local _ => False
  | .capture index => ∃ f access element, catalog.fields[index]? = some f ∧
      Ty.ofText? f.type = some (.buffer access element)
  | .static index => ∃ decl access element, catalog.statics[index]? = some decl ∧
      Ty.ofText? decl.type = some (.buffer access element)

def Ty.IsBuffer (t : Ty) : Prop := ∃ access element, t = .buffer access element

theorem Ty.not_isBuffer_of_isValue {t : Ty} (h : t.isValue) : ¬ t.IsBuffer := by
  rintro ⟨access, element, rfl⟩
  cases h

theorem Ty.isValue_scalar (k : ScalarKind) : (Ty.scalar k).isValue := rfl

/-- A type that is a buffer makes what has it one. -/
theorem Check.isBuffer_of_namesCapture {catalog : Catalog} {text : String} {index : Nat} {t : Ty}
    (h : Check.NamesCapture catalog text index t) :
    (Referent.capture index).IsBuffer catalog ↔ t.IsBuffer := by
  obtain ⟨_, f, hf, ht⟩ := h
  constructor
  · rintro ⟨f', access, element, hf', ht'⟩
    obtain rfl := Option.some.inj (hf.symm.trans hf')
    exact ⟨access, element, Option.some.inj (ht.symm.trans ht')⟩
  · rintro ⟨access, element, rfl⟩
    exact ⟨f, access, element, hf, ht⟩

theorem Check.isBuffer_of_namesStatic {catalog : Catalog} {path : Path} {index : Nat} {t : Ty}
    (h : Check.NamesStatic catalog path index t) :
    (Referent.static index).IsBuffer catalog ↔ t.IsBuffer := by
  obtain ⟨_, decl, hdecl, ht⟩ := h
  constructor
  · rintro ⟨decl', access, element, hdecl', ht'⟩
    obtain rfl := Option.some.inj (hdecl.symm.trans hdecl')
    exact ⟨access, element, Option.some.inj (ht.symm.trans ht')⟩
  · rintro ⟨access, element, rfl⟩
    exact ⟨decl, access, element, hdecl, ht⟩

namespace Check

variable {catalog : Catalog} {m : Model} {s s₁ s' : Checking}

/-! ### Operands are values -/

theorem isValue_of_fits {t : Typed} {v : ValueType} (ht : t.Sound) (h : t.Fits (.value v)) :
    t.type.isValue := by
  rcases h with heq | ⟨f, k, hf, _, _⟩
  · rw [heq]
    rfl
  · obtain ⟨k', hk', _⟩ := ht.openTo f hf
    rw [hk']
    rfl

theorem Unifies.isBuffer {a b t : Typed} (h : Unifies a b s t s') (ha : a.Sound) (hb : b.Sound) :
    (a.type.IsBuffer ↔ t.type.IsBuffer) ∧ (b.type.IsBuffer ↔ t.type.IsBuffer) := by
  have hopen {t : Typed} {f : LiteralFamily} (ht : t.Sound) (hf : t.family = some f) :
      ¬ t.type.IsBuffer := by
    obtain ⟨k, hk, _⟩ := ht.openTo f hf
    rw [hk]
    exact Ty.not_isBuffer_of_isValue (Ty.isValue_scalar k)
  have hfits {t : Typed} {target : Ty} {f : LiteralFamily} (ht : t.Sound)
      (hf : t.family = some f) (hfits : t.Fits target) : ¬ target.IsBuffer := by
    rcases hfits with rfl | ⟨g, k, _, rfl, _⟩
    · exact hopen ht hf
    · exact Ty.not_isBuffer_of_isValue (Ty.isValue_scalar k)
  cases h with
  | settled _ _ heq => exact ⟨Iff.rfl, heq ▸ Iff.rfl⟩
  | left hf _ hto => exact ⟨iff_of_false (hopen ha hf) (hfits ha hf hto), Iff.rfl⟩
  | right _ hf hto => exact ⟨Iff.rfl, iff_of_false (hopen hb hf) (hfits hb hf hto)⟩
  | «open» hf hf' heq => exact ⟨Iff.rfl, heq ▸ Iff.rfl⟩

theorem Operates.isValue {op : BinaryOp} {l r t : Typed} (h : Operates op l r s t s')
    (hl : l.Sound) (hr : r.Sound) : l.type.isValue ∧ r.type.isValue := by
  cases h with
  | logical _ htl htr => exact ⟨by rw [htl]; rfl, by rw [htr]; rfl⟩
  | shift _ _ htl htr | comparison _ _ _ htl htr | scalar _ _ _ htl htr =>
    exact ⟨by rw [htl]; rfl, by rw [htr]; rfl⟩
  | @aggregate _ _ v _ _ _ _ _ hmain hmatches _ =>
    have hother : (mainOperand l r).2.Sound → (mainOperand l r).2.type.isValue := by
      intro hsound
      unfold Matches at hmatches
      split at hmatches
      · rw [hmatches.1]
        rfl
      · exact isValue_of_fits hsound hmatches.1
    unfold mainOperand at hmain hother
    split at hmain
    · rw [if_pos ‹_›] at hother
      exact ⟨by rw [hmain]; rfl, hother hr⟩
    · rw [if_neg ‹_›] at hother
      exact ⟨hother hl, by rw [hmain]; rfl⟩

theorem isValue_of_hasUnary {op : UnaryOp} {t : Ty} (h : hasUnary op t) : t.isValue := by
  cases t with
  | value v => rfl
  | _ => cases op <;> cases h

theorem CoercesAll.isValue {k : ScalarKind} {args : List Argument}
    (h : CoercesAll (.scalar k) args s s') (hargs : ∀ a ∈ args, a.typed.Sound) :
    ∀ a ∈ args, a.typed.type.isValue := by
  induction h with
  | nil => exact nofun
  | cons hfits _ ih =>
    obtain ⟨hfirst, hrest⟩ := List.forall_mem_cons.mp hargs
    exact List.forall_mem_cons.mpr ⟨isValue_of_fits hfirst hfits, ih hrest⟩

theorem HasMethod.isValue {r : Typed} {member : Name} {args : List Argument} {t : Ty}
    (h : HasMethod r member args s t s') (hargs : ∀ a ∈ args, a.typed.Sound) :
    r.type.isValue ∧ ∀ a ∈ args, a.typed.type.isValue := by
  cases h with
  | swizzle hr hnil _ | element hr hnil _ _ _ =>
    subst hnil
    exact ⟨by rw [hr]; rfl, nofun⟩
  | scalar hr _ _ _ _ hall => exact ⟨by rw [hr]; rfl, hall.isValue hargs⟩

theorem Supplies.isValue {built : ValueType} {args : List Argument} {n : UInt8}
    (h : Supplies built args s n s') : ∀ a ∈ args, a.typed.type.isValue := by
  induction h with
  | nil => exact nofun
  | vector htype _ ih => exact List.forall_mem_cons.mpr ⟨by rw [htype]; rfl, ih⟩
  | scalar htype _ _ ih => exact List.forall_mem_cons.mpr ⟨by rw [htype]; rfl, ih⟩

theorem Calls.isValue {callee : Path} {args : List Argument} {t : Ty}
    (h : Calls callee args s t s') (hargs : ∀ a ∈ args, a.typed.Sound) :
    ∀ a ∈ args, a.typed.type.isValue := by
  cases h with
  | intrinsic _ _ _ hvalues _ => exact hvalues
  | new _ _ _ _ _ hsupplies => exact hsupplies.isValue
  | splat _ _ _ _ _ hone hfits =>
    subst hone
    refine List.forall_mem_singleton.mpr (isValue_of_fits (hargs _ List.mem_cons_self) hfits)

/-! ### What names stand for -/

/-- Whether what is checked takes no elements and is no buffer itself. -/
def Judgment.Plain : Judgment → Prop
  | .expr e t => e.indexed = [] ∧ ¬ t.type.IsBuffer
  | .args es ts => Expr.allIndexed es = [] ∧ ∀ t ∈ ts, ¬ t.type.IsBuffer

theorem not_isBuffer_of_arguments {es : List Expr} {ts : List Typed}
    (hlength : es.length = ts.length) (h : ∀ a ∈ arguments es ts, a.typed.type.isValue) :
    ∀ t ∈ ts, ¬ t.type.IsBuffer := by
  intro t ht
  obtain ⟨i, hi, rfl⟩ := List.getElem_of_mem ht
  have hmem : (⟨es[i].span, ts[i]⟩ : Argument) ∈ arguments es ts := by
    refine List.mem_map.mpr ⟨(es[i], ts[i]), ?_, rfl⟩
    rw [List.mem_iff_getElem]
    exact ⟨i, by simp [hlength, hi], by simp⟩
  exact Ty.not_isBuffer_of_isValue (h _ hmem)

/-- Names in what takes no elements and is no buffer stand for no buffers. -/
theorem Checks.mentions_not_isBuffer {j : Judgment} (h : Checks catalog s j s') (hs : s.Sound)
    (hm : j.Kept s' m) (hj : j.Plain) :
    ∀ x ∈ j.mentions, ∀ r, m.referent? x.span = some r → ¬ r.IsBuffer catalog := by
  induction h with
  | literal | nil => exact nofun
  | «local» =>
    refine List.forall_mem_singleton.mpr fun r hr => ?_
    obtain rfl := Option.some.inj ((Expr.Kept.referent?_noted hm).symm.trans hr)
    exact id
  | capture _ hcapture =>
    refine List.forall_mem_singleton.mpr fun r hr => ?_
    obtain rfl := Option.some.inj ((Expr.Kept.referent?_noted hm).symm.trans hr)
    exact fun hbuffer => hj.2 ((isBuffer_of_namesCapture hcapture).mp hbuffer)
  | static _ _ hstatic | path _ hstatic =>
    refine List.forall_mem_singleton.mpr fun r hr => ?_
    obtain rfl := Option.some.inj ((Expr.Kept.referent?_noted hm).symm.trans hr)
    exact fun hbuffer => hj.2 ((isBuffer_of_namesStatic hstatic).mp hbuffer)
  | unary _ hop ih =>
    exact ih hs (Expr.Kept.unary hm) ⟨hj.1, Ty.not_isBuffer_of_isValue (isValue_of_hasUnary hop)⟩
  | binary hleft hright hop ihLeft ihRight =>
    obtain ⟨hl, hr⟩ := Expr.Kept.binary hm hright hop.settles
    obtain ⟨hsoundLeft, hs₁⟩ := hleft.sound hs
    obtain ⟨hvl, hvr⟩ := hop.isValue hsoundLeft (hright.sound hs₁).1
    obtain ⟨hnoneLeft, hnoneRight⟩ := List.append_eq_nil_iff.mp hj.1
    exact List.forall_mem_append.mpr
      ⟨ihLeft hs hl ⟨hnoneLeft, Ty.not_isBuffer_of_isValue hvl⟩,
        ihRight hs₁ hr ⟨hnoneRight, Ty.not_isBuffer_of_isValue hvr⟩⟩
  | cast _ hcasts ih =>
    obtain ⟨_, _, k, hk, _⟩ := hcasts
    exact ih hs (Expr.Kept.cast hm)
      ⟨hj.1, Ty.not_isBuffer_of_isValue (by rw [hk]; rfl)⟩
  | field _ hcomponent ih =>
    refine ih hs (Expr.Kept.field hm) ⟨hj.1, ?_⟩
    rintro ⟨access, element, hbuffer⟩
    rw [hbuffer] at hcomponent
    cases hcomponent
  | method hreceiver hargs hmethod ihReceiver ihArgs =>
    obtain ⟨he, hes⟩ := Expr.Kept.method hm hargs hmethod.settles
    obtain ⟨_, hs₁⟩ := hreceiver.sound hs
    obtain ⟨hvr, hvalues⟩ := hmethod.isValue (arguments_sound (hargs.sound hs₁).1)
    obtain ⟨hnone, hnoneArgs⟩ := List.append_eq_nil_iff.mp hj.1
    exact List.forall_mem_append.mpr
      ⟨ihReceiver hs he ⟨hnone, Ty.not_isBuffer_of_isValue hvr⟩,
        ihArgs hs₁ hes ⟨hnoneArgs, not_isBuffer_of_arguments (hargs.length_eq _ _ rfl) hvalues⟩⟩
  | call hargs hcall ihArgs =>
    have hvalues := hcall.isValue (arguments_sound (hargs.sound hs).1)
    exact ihArgs hs (Expr.Kept.call hm hcall.settles)
      ⟨hj.1, not_isBuffer_of_arguments (hargs.length_eq _ _ rfl) hvalues⟩
  | element | swizzle => cases hj.1
  | paren _ ih => exact ih hs (Expr.Kept.paren hm) hj
  | choice hcondition hbool hyes hno hunify ihCondition ihYes ihNo =>
    obtain ⟨hc, hy, hn⟩ := Expr.Kept.choice hm hyes hno hunify.settles
    obtain ⟨_, hs₁⟩ := hcondition.sound hs
    obtain ⟨hsoundYes, hs₂⟩ := hyes.sound hs₁
    obtain ⟨hbufferYes, hbufferNo⟩ := hunify.isBuffer hsoundYes (hno.sound hs₂).1
    obtain ⟨hnone, hnoneBranches⟩ := List.append_eq_nil_iff.mp hj.1
    obtain ⟨hnoneYes, hnoneNo⟩ := List.append_eq_nil_iff.mp hnoneBranches
    refine List.forall_mem_append.mpr ⟨ihCondition hs hc ⟨hnone, ?_⟩,
      List.forall_mem_append.mpr ⟨ihYes hs₁ hy ⟨hnoneYes, fun h => hj.2 (hbufferYes.mp h)⟩,
        ihNo hs₂ hn ⟨hnoneNo, fun h => hj.2 (hbufferNo.mp h)⟩⟩⟩
    exact Ty.not_isBuffer_of_isValue (by rw [hbool]; rfl)
  | cons hfirst hrest ihFirst ihRest =>
    obtain ⟨he, hes⟩ := Expr.AllKept.cons hm hrest
    obtain ⟨hnone, hnoneRest⟩ := List.append_eq_nil_iff.mp hj.1
    obtain ⟨hplain, hplainRest⟩ := List.forall_mem_cons.mp hj.2
    exact List.forall_mem_append.mpr ⟨ihFirst hs he ⟨hnone, hplain⟩,
      ihRest (hfirst.sound hs).2 hes ⟨hnoneRest, hplainRest⟩⟩

/-! ### Roots of places -/

/-- Whether the roots of an expression stand for referents that satisfy a condition. -/
def Roots (m : Model) (P : Referent → Prop) (e : Expr) : Prop :=
  ∀ span ∈ e.roots, ∀ r, m.referent? span = some r → P r

theorem roots_of_referent {P : Referent → Prop} {span : Span} {r : Referent}
    (hr : m.referent? span = some r) (h : P r) :
    ∀ x ∈ [span], ∀ r, m.referent? x = some r → P r := by
  refine List.forall_mem_singleton.mpr fun r' hr' => ?_
  obtain rfl := Option.some.inj (hr.symm.trans hr')
  exact h

theorem not_isBuffer_of_componentType? {t type : Ty} {name : String}
    (h : componentType? t name = some type) : ¬ type.IsBuffer := by
  rintro ⟨access, element, rfl⟩
  unfold componentType? at h
  split at h
  · split at h <;> cases h
  · split at h <;> cases h
  · cases h

theorem not_isBuffer_of_elementType? {t type : Ty} (h : elementType? t = some type) :
    ¬ type.IsBuffer := by
  rintro ⟨access, element, rfl⟩
  unfold elementType? at h
  split at h <;> cases h

/-- Whether the roots of what is checked are buffers if it is one. -/
def Judgment.RootedInBuffers (catalog : Catalog) (m : Model) : Judgment → Prop
  | .expr e t => t.type.IsBuffer → Roots m (·.IsBuffer catalog) e
  | .args _ _ => True

/-- The roots of a buffer are buffers. -/
theorem Checks.rootedInBuffers {j : Judgment} (h : Checks catalog s j s') (hs : s.Sound)
    (hm : j.Kept s' m) : j.RootedInBuffers catalog m := by
  induction h with
  | literal | unary | binary | cast | method | call => exact fun _ => nofun
  | nil | cons => trivial
  | «local» hfind hl =>
    rintro ⟨access, element, hbuffer⟩
    obtain ⟨l', hl', hsound⟩ := hs.local_of_find? hfind
    obtain rfl := Option.some.inj (hl.symm.trans hl')
    have hlocal := hsound.isLocal
    rw [show Local.type _ = _ from hbuffer] at hlocal
    cases hlocal
  | capture _ hcapture =>
    exact fun hbuffer => roots_of_referent (Expr.Kept.referent?_noted hm)
      ((isBuffer_of_namesCapture hcapture).mpr hbuffer)
  | static _ _ hstatic | path _ hstatic =>
    exact fun hbuffer => roots_of_referent (Expr.Kept.referent?_noted hm)
      ((isBuffer_of_namesStatic hstatic).mpr hbuffer)
  | field _ hcomponent => exact fun hbuffer => (not_isBuffer_of_componentType? hcomponent hbuffer).elim
  | element _ _ _ _ helement => exact fun hbuffer => (not_isBuffer_of_elementType? helement hbuffer).elim
  | swizzle => exact fun hbuffer => (Ty.not_isBuffer_of_isValue rfl hbuffer).elim
  | paren _ ih => exact ih hs (Expr.Kept.paren hm)
  | choice hcondition _ hyes hno hunify _ ihYes ihNo =>
    intro hbuffer
    obtain ⟨_, hy, hn⟩ := Expr.Kept.choice hm hyes hno hunify.settles
    obtain ⟨_, hs₁⟩ := hcondition.sound hs
    obtain ⟨hsoundYes, hs₂⟩ := hyes.sound hs₁
    obtain ⟨hbufferYes, hbufferNo⟩ := hunify.isBuffer hsoundYes (hno.sound hs₂).1
    exact List.forall_mem_append.mpr
      ⟨ihYes hs₁ hy (hbufferYes.mpr hbuffer), ihNo hs₂ hn (hbufferNo.mpr hbuffer)⟩

end Check

/-- Whether a referent is one that assignments change: a buffer or a mutable local. -/
def Referent.IsAssigned (catalog : Catalog) (m : Model) (r : Referent) : Prop :=
  r.IsBuffer catalog ∨ ∃ id l, r = .local id ∧ m.local? id = some l ∧ l.mutable

namespace Expr.Kept

variable {m : Model} {s : Checking} {span : Span} {b e i : Expr} {member : Name}

theorem base (h : (Expr.index span b i).Kept s m) : b.Kept s m := by
  obtain ⟨⟨hb, hi, h₁, h₂, h₃⟩, hfinal⟩ := h
  have hi' := hi.start_lt_stop
  simp only [span_index] at hfinal
  exact ⟨hb, hfinal.mono (by omega) (by omega)⟩

theorem receiver (h : (Expr.field span e member).Kept s m) : e.Kept s m := by
  obtain ⟨⟨he, h₁, h₂, h₃, h₄⟩, hfinal⟩ := h
  unfold Span.Proper at h₃
  simp only [span_field] at hfinal
  exact ⟨he, hfinal.mono (by omega) (by omega)⟩

theorem inner (h : (Expr.paren span e).Kept s m) : e.Kept s m := by
  obtain ⟨⟨he, h₁, h₂⟩, hfinal⟩ := h
  simp only [span_paren] at hfinal
  exact ⟨he, hfinal.mono (by omega) (by omega)⟩

theorem type?_eq (h : e.Kept s m) : m.type? e.span = s.model.type? e.span :=
  h.2.types _ ⟨Nat.le_refl _, h.1.start_lt_stop, Nat.le_refl _⟩

theorem referent?_eq (h : e.Kept s m) : m.referent? e.span = s.model.referent? e.span :=
  h.2.referents _ ⟨Nat.le_refl _, h.1.start_lt_stop, Nat.le_refl _⟩

end Expr.Kept

namespace Check

variable {catalog : Catalog} {m : Model} {s s₁ s₂ s' : Checking}

theorem Checks.type?_eq {e : Expr} {t : Typed} (h : Checks catalog s (.expr e t) s')
    (hm : e.Kept s' m) : m.type? e.span = some t.type :=
  (covers_of_checks h hm).type?

/-- A name that can be assigned is a mutable local. -/
theorem isAssigned_of_nameAssignable {span : Span} {id : Nat} {l : Local}
    (h : NameAssignable s₂.model span) (hspan : s₂.model.referent? span = some (.local id))
    (hl : s₁.model.local? id = some l) (hheads : s₁.model.heads <+: s₂.model.heads)
    (hfinal : s₂.model.heads <+: m.heads) : (Referent.local id).IsAssigned catalog m := by
  obtain ⟨l₂, hl₂, _⟩ := Model.local?_of_heads hheads hl
  obtain ⟨l', hl', hhead⟩ := Model.local?_of_heads hfinal hl₂
  rw [NameAssignable, hspan] at h
  have hmutable : l₂.mutable := h l₂ hl₂
  refine .inr ⟨id, l', rfl, hl', ?_⟩
  rw [show l'.mutable = l₂.mutable from congrArg Prod.snd hhead]
  exact hmutable

theorem not_nameAssignable {span : Span} {r : Referent} (hr : m.referent? span = some r)
    (hlocal : ∀ id, r ≠ .local id) : ¬ NameAssignable m span := by
  intro h
  rw [NameAssignable, hr] at h
  cases r with
  | «local» id => exact hlocal id rfl
  | capture | static => exact h

/-- The roots of a place that can be assigned are buffers or mutable locals. -/
theorem Assignable.roots {place : Expr} (h : Assignable s₂.model place) {target : Typed}
    (hplace : Checks catalog s (.expr place target) s₁) (hs : s.Sound) (hm : place.Kept s₁ m)
    (hm₂ : place.Kept s₂ m) (hheads : s₁.model.heads <+: s₂.model.heads) :
    Roots m (·.IsAssigned catalog m) place := by
  induction h generalizing s₁ target with
  | name hname =>
    cases hplace with
    | «local» _ hl =>
      have hreferent := Expr.Kept.referent?_noted hm
      exact roots_of_referent hreferent (isAssigned_of_nameAssignable hname
        (hm₂.referent?_eq.symm.trans hreferent) hl hheads hm₂.2.heads)
    | capture | static =>
      exact (not_nameAssignable (hm₂.referent?_eq.symm.trans (Expr.Kept.referent?_noted hm)) nofun
        hname).elim
  | element htype =>
    cases hplace with
    | element hbase _ hindex _ _ =>
      obtain ⟨hb, -⟩ := Expr.Kept.index hm hindex
      have hbuffer := (hbase.type?_eq hb).symm.trans ((Expr.Kept.base hm₂).type?_eq.trans htype)
      intro span hspan r hr
      exact .inl (hbase.rootedInBuffers (j := .expr _ _) hs hb
        ⟨_, _, Option.some.inj hbuffer⟩ span hspan r hr)
    | swizzle hbase hmatrix _ _ hselects =>
      have hb := Expr.Kept.swizzle hm hselects
      have hbuffer := (hbase.type?_eq hb).symm.trans ((Expr.Kept.base hm₂).type?_eq.trans htype)
      rw [hmatrix] at hbuffer
      cases hbuffer
  | index _ _ ih =>
    cases hplace with
    | element hbase _ hindex _ _ =>
      obtain ⟨hb, -⟩ := Expr.Kept.index hm hindex
      refine ih hbase hb (Expr.Kept.base hm₂) ?_
      exact hindex.heads_eq ▸ hheads
    | swizzle hbase _ _ _ hselects =>
      refine ih hbase (Expr.Kept.swizzle hm hselects) (Expr.Kept.base hm₂) ?_
      exact hselects.heads_eq ▸ hheads
  | field _ ih =>
    cases hplace with
    | field he _ => exact ih he (Expr.Kept.field hm) (Expr.Kept.receiver hm₂) hheads
  | paren _ ih =>
    cases hplace with
    | paren he => exact ih he (Expr.Kept.paren hm) (Expr.Kept.inner hm₂) hheads

/-! ### Statements -/

def StmtJudgment.loops : StmtJudgment → List Loop
  | .stmt s => s.loops
  | .stmts ss => Stmt.allLoops ss
  | .block b => b.loops

/-- What loops and assignments have to do with buffers: the names in the end of a loop that takes no
elements stand for none, and only roots of places that do not are left to be mutable locals. -/
structure Separates (catalog : Catalog) (m : Model) (loops : List Loop)
    (assignments : List (Option BinaryOp × Expr)) : Prop where
  stops : ∀ l ∈ loops, l.stop.indexed = [] →
    ∀ x ∈ l.stop.mentions, ∀ r, m.referent? x.span = some r → ¬ r.IsBuffer catalog
  places : ∀ a ∈ assignments, Roots m (·.IsAssigned catalog m) a.2

/-- Whether a statement was checked in a sound state and what was noted for it is kept. -/
def Met (catalog : Catalog) (m : Model) (st : Stmt) : Prop :=
  ∃ s s', s.Sound ∧ ChecksStmt catalog s (.stmt st) s' ∧ st.Kept s' m

/-- The loops and the assignments of what was checked were checked where they stand. -/
theorem ChecksStmt.met {j : StmtJudgment} (h : ChecksStmt catalog s j s') (hs : s.Sound)
    (hm : j.Kept s' m) :
    (∀ l ∈ j.loops, ∃ span body,
      Met catalog m (.for span l.counter l.start l.stop l.inclusive body)) ∧
    ∀ a ∈ j.assignments, ∃ span value, Met catalog m (.assign span a.1 a.2 value) := by
  induction h with
  | declare | annotated | inferred | jump | eval | nil => exact ⟨nofun, nofun⟩
  | assign hplace hvalue hassignable hassigns =>
    exact ⟨nofun, List.forall_mem_singleton.mpr
      ⟨_, _, _, _, hs, .assign hplace hvalue hassignable hassigns, hm⟩⟩
  | ifOnly hcondition _ hbody ih =>
    obtain ⟨_, hb⟩ := Stmt.Kept.ifOnly hm hbody
    exact ih (hcondition.sound hs).2 hb
  | ifElse hcondition _ hbody hotherwise ihBody ihOtherwise =>
    obtain ⟨_, hb, ho⟩ := Stmt.Kept.ifElse hm hbody hotherwise
    have hs₁ := (hcondition.sound hs).2
    obtain ⟨hloops, hassignments⟩ := ihBody hs₁ hb
    obtain ⟨hloops', hassignments'⟩ := ihOtherwise (hbody.sound hs₁) ho
    exact ⟨List.forall_mem_append.mpr ⟨hloops, hloops'⟩,
      List.forall_mem_append.mpr ⟨hassignments, hassignments'⟩⟩
  | «for» hstart hstop hunify hinteger hbody ih =>
    obtain ⟨_, _, _, hb⟩ := Stmt.Kept.for hm hstop hunify.settles hbody
    obtain ⟨hloops, hassignments⟩ := ih (sound_counted hstart hstop hunify hinteger hs _).2 hb
    have hmet : Met catalog m (.for _ _ _ _ _ _) :=
      ⟨_, _, hs, .for hstart hstop hunify hinteger hbody, hm⟩
    exact ⟨List.forall_mem_cons.mpr ⟨⟨_, _, hmet⟩, hloops⟩, hassignments⟩
  | «while» hcondition _ hbody ih =>
    obtain ⟨_, hb⟩ := Stmt.Kept.while hm hbody
    exact ih (hcondition.sound hs).2.enterLoop hb
  | loop _ ih => exact ih hs.enterLoop (Stmt.Kept.loop hm)
  | nested _ ih => exact ih hs (Stmt.Kept.nested hm)
  | cons hfirst hrest ihFirst ihRest =>
    obtain ⟨hst, hsts⟩ := Stmt.AllKept.cons hm hrest
    obtain ⟨hloops, hassignments⟩ := ihFirst hs hst
    obtain ⟨hloops', hassignments'⟩ := ihRest (hfirst.sound hs) hsts
    exact ⟨List.forall_mem_append.mpr ⟨hloops, hloops'⟩,
      List.forall_mem_append.mpr ⟨hassignments, hassignments'⟩⟩
  | block _ ih => exact ih hs.openScope (Block.Kept.stmts hm)

theorem roots_of_met {span : Span} {op : Option BinaryOp} {place value : Expr}
    (h : Met catalog m (.assign span op place value)) :
    Roots m (·.IsAssigned catalog m) place := by
  obtain ⟨s, s', hs, hchecks, hm⟩ := h
  cases hchecks with
  | assign hplace hvalue hassignable hassigns =>
    obtain ⟨hp, -⟩ := Stmt.Kept.assign hm hvalue hassigns.settles
    have hp₂ := Stmt.Kept.place hm hassigns.settles
    exact hassignable.roots hplace hs hp hp₂ (hvalue.heads_eq ▸ List.prefix_refl _)

theorem stops_of_met {span : Span} {counter : Name} {start stop : Expr} {inclusive : Bool}
    {body : Block} (h : Met catalog m (.for span counter start stop inclusive body))
    (hnone : stop.indexed = []) :
    ∀ x ∈ stop.mentions, ∀ r, m.referent? x.span = some r → ¬ r.IsBuffer catalog := by
  obtain ⟨s, s', hs, hchecks, hm⟩ := h
  cases hchecks with
  | @«for» _ _ _ _ _ _ _ _ _ _ _ lo hi t hstart hstop hunify hinteger hbody =>
    obtain ⟨_, hkept, _, _⟩ := Stmt.Kept.for hm hstop hunify.settles hbody
    obtain ⟨hlo, hs₁⟩ := hstart.sound hs
    obtain ⟨hhi, _⟩ := hstop.sound hs₁
    have ht : ¬ t.type.IsBuffer := by
      rintro ⟨access, element, hbuffer⟩
      rw [Typed.isInteger, hbuffer] at hinteger
      cases hinteger
    refine hstop.mentions_not_isBuffer (j := .expr _ _) hs₁ hkept ⟨hnone, fun hbuffer => ht ?_⟩
    exact (hunify.isBuffer hlo hhi).2.mp hbuffer

end Check

/-- The loops and the assignments of an accepted closure were checked where they stand. -/
theorem Closure.met_of_bind {c : Closure} {catalog : Catalog} {m : Model} {hi : Nat}
    (hlaid : c.Laid hi) (h : c.bind catalog = .ok m) :
    (∀ l ∈ c.body.loops, ∃ span body,
      Check.Met catalog m (.for span l.counter l.start l.stop l.inclusive body)) ∧
    ∀ a ∈ c.body.assignments, ∃ span value, Check.Met catalog m (.assign span a.1 a.2 value) := by
  obtain ⟨s, hchecks, rfl⟩ := c.checks_of_bind h
  cases hchecks with
  | @mk s _ hbody => exact hbody.met (Check.sound_initial c) (hlaid.2.2.2.1.kept s)

/-- Loops and assignments of an accepted closure. -/
theorem Closure.separates_of_bind {c : Closure} {catalog : Catalog} {m : Model} {hi : Nat}
    (hlaid : c.Laid hi) (h : c.bind catalog = .ok m) :
    Check.Separates catalog m c.body.loops c.body.assignments := by
  obtain ⟨hloops, hassignments⟩ := c.met_of_bind hlaid h
  refine ⟨fun l hl => ?_, fun a ha => ?_⟩
  · obtain ⟨_, _, hmet⟩ := hloops l hl
    exact Check.stops_of_met hmet
  · obtain ⟨_, _, hmet⟩ := hassignments a ha
    exact Check.roots_of_met hmet

end ComputeKernel
