import ComputeKernel.Proofs.Typing.Frame

/-!
What is noted for the parts of a tree. A part is checked before the whole is, and what is checked
behind it stands elsewhere in the source; so what was noted for the part stays noted. There is one
lemma for each kind of node, about all its parts.
-/

namespace ComputeKernel

/-- Whether a model still says what a state says of an expression. -/
def Expr.Kept (e : Expr) (s : Checking) (m : Model) : Prop :=
  e.Laid ∧ s.Final e.span.start e.span.stop m

/-- Whether a model still says what a state says of expressions that stand one behind the other. -/
def Expr.AllKept (es : List Expr) (s : Checking) (m : Model) : Prop :=
  ∃ lo hi, Expr.AllLaid lo hi es ∧ s.Final lo hi m

def Stmt.Kept (st : Stmt) (s : Checking) (m : Model) : Prop :=
  (st.Laid ∧ st.span.Proper) ∧ s.Final st.span.start st.span.stop m

def Stmt.AllKept (sts : List Stmt) (s : Checking) (m : Model) : Prop :=
  ∃ lo hi, Stmt.AllLaid lo hi sts ∧ s.Final lo hi m

def Block.Kept (b : Block) (s : Checking) (m : Model) : Prop :=
  b.Laid ∧ s.Final b.span.start b.span.stop m

namespace Check

/-- Whether a model still says what a state says of what was checked. -/
def Judgment.Kept (s : Checking) (m : Model) : Judgment → Prop
  | .expr e _ => e.Kept s m
  | .args es _ => Expr.AllKept es s m

def StmtJudgment.Kept (s : Checking) (m : Model) : StmtJudgment → Prop
  | .stmt st => st.Kept s m
  | .stmts sts => Stmt.AllKept sts s m
  | .block b => b.Kept s m

end Check

open Checking
open Check (Checks ChecksStmt Selects)

variable {catalog : Catalog} {m : Model} {s s₁ s₂ s₃ s' : Checking} {span : Span} {t : Ty}

/-! ### Expressions -/

namespace Expr.Kept

variable {e l r c y n base i : Expr} {args : List Expr}

theorem of_settles (h : e.Kept s' m) (hsettles : s.Settles s') : e.Kept s m :=
  ⟨h.1, h.2.of_settles hsettles⟩

theorem referent?_noted {ref : Referent} (h : e.Kept ((s.noteReferent e.span ref).noteType e.span t) m) :
    m.referent? e.span = some ref :=
  h.2.referent?_noted ⟨Nat.le_refl _, h.1.start_lt_stop, Nat.le_refl _⟩

theorem type?_noted (h : e.Kept (s.noteType e.span t) m) : m.type? e.span = some t :=
  h.2.type?_noted ⟨Nat.le_refl _, h.1.start_lt_stop, Nat.le_refl _⟩

theorem unary {op : UnaryOp} (h : (Expr.unary span op e).Kept (s.noteType span t) m) :
    e.Kept s m := by
  obtain ⟨⟨he, h₁, h₂⟩, hfinal⟩ := h
  exact ⟨he, hfinal.part (Nat.le_of_lt h₁) h₂ (.inl h₁)⟩

theorem binary {op : BinaryOp} {u : Typed} (h : (Expr.binary span op l r).Kept (s'.noteType span t) m)
    (hright : Checks catalog s₁ (.expr r u) s₂) (hsettles : s₂.Settles s') :
    l.Kept s₁ m ∧ r.Kept s₂ m := by
  obtain ⟨⟨hl, hr, h₁, h₂, h₃⟩, hfinal⟩ := h
  simp only [span_binary] at hfinal
  have hl' := hl.start_lt_stop
  have hr' := hr.start_lt_stop
  have hkeeps := hright.keeps (j := .expr _ _) ⟨hr, Nat.le_refl _, Nat.le_refl _⟩
  exact ⟨⟨hl, ((hfinal.part h₁ (by omega) (by omega)).of_settles hsettles).of_keeps hkeeps
    (by omega)⟩, hr, (hfinal.part (by omega) h₃ (by omega)).of_settles hsettles⟩

theorem cast {target : TypeRef} (h : (Expr.cast span e target).Kept (s.noteType span t) m) :
    e.Kept s m := by
  obtain ⟨⟨he, h₁, h₂, h₃, h₄⟩, hfinal⟩ := h
  unfold Span.Proper at h₃
  simp only [span_cast] at hfinal
  exact ⟨he, hfinal.part h₁ (by omega) (by omega)⟩

theorem field {member : Name} (h : (Expr.field span e member).Kept (s.noteType span t) m) :
    e.Kept s m := by
  obtain ⟨⟨he, h₁, h₂, h₃, h₄⟩, hfinal⟩ := h
  unfold Span.Proper at h₃
  simp only [span_field] at hfinal
  exact ⟨he, hfinal.part h₁ (by omega) (by omega)⟩

theorem method {member : Name} {ts : List Typed}
    (h : (Expr.method span e member args).Kept (s'.noteType span t) m)
    (hargs : Checks catalog s₁ (.args args ts) s₂) (hsettles : s₂.Settles s') :
    e.Kept s₁ m ∧ Expr.AllKept args s₂ m := by
  obtain ⟨⟨he, h₁, ⟨h₂, h₃, h₄⟩, hlaid⟩, hfinal⟩ := h
  unfold Span.Proper at h₃
  simp only [span_method] at hfinal
  have he' := he.start_lt_stop
  exact ⟨⟨he, ((hfinal.part h₁ (by omega) (by omega)).of_settles hsettles).of_keeps
    (hargs.keeps hlaid) (by omega)⟩, _, _, hlaid,
    (hfinal.part (by omega) (by omega) (by omega)).of_settles hsettles⟩

theorem call {callee : Path} {calleeSpan : Span}
    (h : (Expr.call span callee calleeSpan args).Kept (s'.noteType span t) m)
    (hsettles : s.Settles s') : Expr.AllKept args s m := by
  obtain ⟨⟨⟨h₁, h₂, h₃⟩, hlaid⟩, hfinal⟩ := h
  unfold Span.Proper at h₂
  simp only [span_call] at hfinal
  exact ⟨_, _, hlaid, (hfinal.part (by omega) (by omega) (by omega)).of_settles hsettles⟩

theorem index {u : Typed} (h : (Expr.index span base i).Kept (s'.noteType span t) m)
    (hindex : Checks catalog s₁ (.expr i u) s') : base.Kept s₁ m ∧ i.Kept s' m := by
  obtain ⟨⟨hb, hi, h₁, h₂, h₃⟩, hfinal⟩ := h
  simp only [span_index] at hfinal
  have hb' := hb.start_lt_stop
  have hi' := hi.start_lt_stop
  have hkeeps := hindex.keeps (j := .expr _ _) ⟨hi, Nat.le_refl _, Nat.le_refl _⟩
  exact ⟨⟨hb, (hfinal.part h₁ (by omega) (by omega)).of_keeps hkeeps (by omega)⟩, hi,
    hfinal.part (by omega) (by omega) (by omega)⟩

theorem swizzle {itemsSpan : Span} {items : List Expr} {t' : Ty} {rows columns : Nat}
    (h : (Expr.index span base (.tuple itemsSpan items)).Kept
      ((s'.noteType itemsSpan t').noteType span t) m)
    (hselects : Selects rows columns items s₁ s') : base.Kept s₁ m := by
  obtain ⟨⟨hb, hindex, h₁, h₂, h₃⟩, hfinal⟩ := h
  have hb' := hb.start_lt_stop
  have hindex' := hindex.start_lt_stop
  simp only [span_index, span_tuple] at h₂ h₃ hindex' hfinal
  exact ⟨hb, ((hfinal.part h₁ (by omega) (by omega)).of_noteType (by omega)).of_keeps
    (hselects.keeps hindex) (by omega)⟩

theorem paren (h : (Expr.paren span e).Kept (s.noteType span t) m) : e.Kept s m := by
  obtain ⟨⟨he, h₁, h₂⟩, hfinal⟩ := h
  exact ⟨he, hfinal.part (Nat.le_of_lt h₁) (Nat.le_of_lt h₂) (.inl h₁)⟩

theorem choice {u v : Typed} (h : (Expr.choice span c y n).Kept (s'.noteType span t) m)
    (hyes : Checks catalog s₁ (.expr y u) s₂) (hno : Checks catalog s₂ (.expr n v) s₃)
    (hsettles : s₃.Settles s') : c.Kept s₁ m ∧ y.Kept s₂ m ∧ n.Kept s₃ m := by
  obtain ⟨⟨hc, hy, hn, h₁, h₂, h₃, h₄⟩, hfinal⟩ := h
  simp only [span_choice] at hfinal
  have hc' := hc.start_lt_stop
  have hy' := hy.start_lt_stop
  have hn' := hn.start_lt_stop
  have hkeepsYes := hyes.keeps (j := .expr _ _) ⟨hy, Nat.le_refl _, Nat.le_refl _⟩
  have hkeepsNo := hno.keeps (j := .expr _ _) ⟨hn, Nat.le_refl _, Nat.le_refl _⟩
  refine ⟨⟨hc, ?_⟩, ⟨hy, ?_⟩, hn, ?_⟩
  · exact (((hfinal.part (by omega) (by omega) (by omega)).of_settles hsettles).of_keeps
      hkeepsNo (by omega)).of_keeps hkeepsYes (by omega)
  · exact ((hfinal.part (by omega) (by omega) (by omega)).of_settles hsettles).of_keeps
      hkeepsNo (by omega)
  · exact (hfinal.part (by omega) (by omega) (by omega)).of_settles hsettles

end Expr.Kept

theorem Expr.AllKept.cons {e : Expr} {es : List Expr} {ts : List Typed}
    (h : Expr.AllKept (e :: es) s' m) (hrest : Checks catalog s₁ (.args es ts) s') :
    e.Kept s₁ m ∧ Expr.AllKept es s' m := by
  obtain ⟨lo, hi, ⟨he, hlo, hlaid⟩, hfinal⟩ := h
  have he' := he.start_lt_stop
  have hhi := hlaid.lt fun _ _ he => he.start_lt_stop
  exact ⟨⟨he, (hfinal.mono (by omega) (by omega)).of_keeps (hrest.keeps hlaid) (by omega)⟩, _, _,
    hlaid, hfinal.mono (by omega) (Nat.le_refl _)⟩

/-! ### Statements -/

/-- The model of a whole closure says what was last noted for its body. -/
theorem Block.Laid.kept {b : Block} (hlaid : b.Laid) (s : Checking) :
    b.Kept s s.closeScope.model :=
  ⟨hlaid, (Checking.Final.self s.closeScope).of_settles (.closeScope s)⟩

theorem Block.Kept.of_settles {b : Block} (h : b.Kept s' m) (hsettles : s.Settles s') :
    b.Kept s m :=
  ⟨h.1, h.2.of_settles hsettles⟩

/-- What checking a block notes stays in the range of the block. -/
theorem Block.Kept.keeps {b : Block} (hlaid : b.Laid) (h : ChecksStmt catalog s (.block b) s') :
    s.Keeps b.span.start b.span.stop s' :=
  h.keeps (j := .block _) ⟨hlaid, Nat.le_refl _, hlaid.proper, Nat.le_refl _⟩

namespace Stmt.Kept

variable {st : Stmt} {condition start stop : Expr} {body otherwise : Block}

theorem of_settles (h : st.Kept s' m) (hsettles : s.Settles s') : st.Kept s m :=
  ⟨h.1, h.2.of_settles hsettles⟩

theorem «let» {mutable mutable' : Bool} {name : Name} {type : Option TypeRef} {value : Option Expr}
    {family : Option LiteralFamily}
    (h : (Stmt.let span mutable name type value).Kept (s.declare name t mutable' family) m) :
    m.referent? name.span = some (.local s.model.locals.length) ∧ ∀ e ∈ value, e.Kept s m := by
  obtain ⟨⟨⟨⟨h₁, h₂, h₃⟩, _, hvalue⟩, hproper⟩, hfinal⟩ := h
  simp only [Stmt.span] at hproper hfinal
  refine ⟨(hfinal.referents name.span ⟨by omega, h₂, h₃⟩).trans (SpanMap.get?_insert_self _ _ _),
    fun e he => ?_⟩
  obtain ⟨he', h₄, h₅⟩ := hvalue e he
  have h₂' := h₂
  unfold Span.Proper at h₂'
  exact ⟨he', (hfinal.mono (by omega) h₅).of_declare h₂ (by omega)⟩

theorem assign {op : Option BinaryOp} {place value : Expr} {u : Typed}
    (h : (Stmt.assign span op place value).Kept s' m) (hvalue : Checks catalog s₁ (.expr value u) s₂)
    (hsettles : s₂.Settles s') : place.Kept s₁ m ∧ value.Kept s₂ m := by
  obtain ⟨⟨⟨hp, hv, h₁, h₂, h₃⟩, _⟩, hfinal⟩ := h
  simp only [Stmt.span] at hfinal
  have hp' := hp.start_lt_stop
  have hv' := hv.start_lt_stop
  have hkeeps := hvalue.keeps (j := .expr _ _) ⟨hv, Nat.le_refl _, Nat.le_refl _⟩
  have hfinal' := hfinal.of_settles hsettles
  exact ⟨⟨hp, (hfinal'.mono h₁ (by omega)).of_keeps hkeeps (by omega)⟩, hv,
    hfinal'.mono (by omega) h₃⟩

/-- What was noted for the place stays noted once the value is checked, too. -/
theorem place {op : Option BinaryOp} {place value : Expr}
    (h : (Stmt.assign span op place value).Kept s' m) (hsettles : s.Settles s') :
    place.Kept s m := by
  obtain ⟨⟨⟨hp, hv, h₁, h₂, h₃⟩, _⟩, hfinal⟩ := h
  have hv' := hv.start_lt_stop
  simp only [Stmt.span] at hfinal
  exact ⟨hp, (hfinal.of_settles hsettles).mono h₁ (by omega)⟩

theorem ifOnly (h : (Stmt.if span condition body none).Kept s' m)
    (hbody : ChecksStmt catalog s₁ (.block body) s') : condition.Kept s₁ m ∧ body.Kept s' m := by
  obtain ⟨⟨⟨hc, hb, h₁, h₂, h₃⟩, _⟩, hfinal⟩ := h
  simp only [Stmt.span] at hfinal
  have hc' := hc.start_lt_stop
  have hb' : body.span.start < body.span.stop := hb.proper
  exact ⟨⟨hc, (hfinal.mono (by omega) (by omega)).of_keeps (Block.Kept.keeps hb hbody) (by omega)⟩,
    hb, hfinal.mono (by omega) h₃⟩

theorem ifElse (h : (Stmt.if span condition body (some otherwise)).Kept s' m)
    (hbody : ChecksStmt catalog s₁ (.block body) s₂)
    (hotherwise : ChecksStmt catalog s₂ (.block otherwise) s') :
    condition.Kept s₁ m ∧ body.Kept s₂ m ∧ otherwise.Kept s' m := by
  obtain ⟨⟨⟨hc, hb, ho, h₁, h₂, h₃, h₄⟩, _⟩, hfinal⟩ := h
  simp only [Stmt.span] at hfinal
  have hc' := hc.start_lt_stop
  have hb' : body.span.start < body.span.stop := hb.proper
  have ho' : otherwise.span.start < otherwise.span.stop := ho.proper
  have hkeeps := Block.Kept.keeps ho hotherwise
  refine ⟨⟨hc, ?_⟩, ⟨hb, ?_⟩, ho, ?_⟩
  · exact ((hfinal.mono (by omega) (by omega)).of_keeps hkeeps (by omega)).of_keeps
      (Block.Kept.keeps hb hbody) (by omega)
  · exact (hfinal.mono (by omega) (by omega)).of_keeps hkeeps (by omega)
  · exact hfinal.mono (by omega) h₄

/-- The counter is declared behind the check of the bounds, although it stands in front of them. -/
theorem «for» {counter : Name} {inclusive mutable : Bool} {family : Option LiteralFamily} {u : Typed}
    (h : (Stmt.for span counter start stop inclusive body).Kept s'.leaveLoop.closeScope m)
    (hstop : Checks catalog s₁ (.expr stop u) s₂) (hsettles : s₂.Settles s₃)
    (hbody : ChecksStmt catalog (s₃.openScope.declare counter t mutable family).enterLoop
      (.block body) s') :
    start.Kept s₁ m ∧ stop.Kept s₂ m ∧
      m.referent? counter.span = some (.local s₃.model.locals.length) ∧ body.Kept s' m := by
  obtain ⟨⟨⟨hl, hh, hb, ⟨h₁, h₂, h₃⟩, h₄, h₅, h₆⟩, _⟩, hfinal⟩ := h
  simp only [Stmt.span] at hfinal
  have hl' := hl.start_lt_stop
  have hh' := hh.start_lt_stop
  have hb' : body.span.start < body.span.stop := hb.proper
  have h₂' : counter.span.start < counter.span.stop := h₂
  have hkeepsStop := hstop.keeps (j := .expr _ _) ⟨hh, Nat.le_refl _, Nat.le_refl _⟩
  have hfinal' := hfinal.of_settles ((Settles.leaveLoop _).trans (.closeScope _))
  have hfront : ∀ {lo hi}, span.start ≤ lo → hi ≤ body.span.start →
      (s₃.openScope.declare counter t mutable family).Final lo hi m := fun hlo hhi =>
    ((hfinal'.mono hlo (Nat.le_trans hhi (by omega))).of_keeps (Block.Kept.keeps hb hbody)
      (.inl hhi)).of_settles (.enterLoop _)
  refine ⟨⟨hl, ?_⟩, ⟨hh, ?_⟩, ?_, hb, hfinal'.mono (by omega) h₆⟩
  · exact (((hfront (by omega) (by omega)).of_declare h₂ (by omega)).of_settles
      (hsettles.trans (.openScope _))).of_keeps hkeepsStop (by omega)
  · exact ((hfront (by omega) h₅).of_declare h₂ (by omega)).of_settles
      (hsettles.trans (.openScope _))
  · exact ((hfront (by omega) (by omega)).referents counter.span
      ⟨Nat.le_refl _, h₂, Nat.le_refl _⟩).trans (SpanMap.get?_insert_self _ _ _)

theorem «while» (h : (Stmt.while span condition body).Kept s'.leaveLoop m)
    (hbody : ChecksStmt catalog s₁.enterLoop (.block body) s') :
    condition.Kept s₁ m ∧ body.Kept s' m := by
  obtain ⟨⟨⟨hc, hb, h₁, h₂, h₃⟩, _⟩, hfinal⟩ := h
  simp only [Stmt.span] at hfinal
  have hc' := hc.start_lt_stop
  have hb' : body.span.start < body.span.stop := hb.proper
  have hfinal' := hfinal.of_settles (.leaveLoop _)
  exact ⟨⟨hc, ((hfinal'.mono (by omega) (by omega)).of_keeps (Block.Kept.keeps hb hbody)
    (by omega)).of_settles (.enterLoop _)⟩, hb, hfinal'.mono (by omega) h₃⟩

theorem loop (h : (Stmt.loop span body).Kept s'.leaveLoop m) : body.Kept s' m := by
  obtain ⟨⟨⟨hb, h₁, h₂⟩, _⟩, hfinal⟩ := h
  exact ⟨hb, (hfinal.mono (Nat.le_of_lt h₁) h₂).of_settles (.leaveLoop _)⟩

theorem eval {value : Expr} (h : (Stmt.eval span value).Kept s m) : value.Kept s m := by
  obtain ⟨⟨⟨hv, rfl⟩, _⟩, hfinal⟩ := h
  exact ⟨hv, hfinal⟩

theorem nested (h : (Stmt.nested span body).Kept s m) : body.Kept s m := by
  obtain ⟨⟨⟨hb, rfl⟩, _⟩, hfinal⟩ := h
  exact ⟨hb, hfinal⟩

end Stmt.Kept

/-- What is noted for the place of an assignment is still there behind the value. -/
theorem Check.kept_place {span : Span} {op : Option BinaryOp} {place value : Expr} {found : Typed}
    (hlaid : (Stmt.assign span op place value).Laid)
    (hvalue : Checks catalog s₁ (.expr value found) s₂) : place.Kept s₁ s₂.model := by
  obtain ⟨hp, hv, _, hmid, _⟩ := hlaid
  have hkeeps := hvalue.keeps (j := .expr _ _) ⟨hv, Nat.le_refl _, Nat.le_refl _⟩
  exact ⟨hp, (Checking.Final.self s₂).of_keeps hkeeps (.inl (Nat.le_of_lt hmid))⟩

theorem Stmt.AllKept.cons {st : Stmt} {sts : List Stmt} (h : Stmt.AllKept (st :: sts) s' m)
    (hrest : ChecksStmt catalog s₁ (.stmts sts) s') : st.Kept s₁ m ∧ Stmt.AllKept sts s' m := by
  obtain ⟨lo, hi, ⟨hst, hproper, hlo, hlaid⟩, hfinal⟩ := h
  have hhi := Check.le_of_allLaid hlaid
  have hproper' : st.span.start < st.span.stop := hproper
  exact ⟨⟨⟨hst, hproper⟩, (hfinal.mono hlo hhi).of_keeps (hrest.keeps hlaid) (by omega)⟩, _, _,
    hlaid, hfinal.mono (by omega) (Nat.le_refl _)⟩

theorem Block.Kept.stmts {sts : List Stmt} (h : (Block.mk span sts).Kept s.closeScope m) :
    Stmt.AllKept sts s m :=
  ⟨_, _, h.1.2, h.2.of_settles (.closeScope _)⟩

end ComputeKernel
