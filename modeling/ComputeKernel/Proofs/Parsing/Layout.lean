import ComputeKernel.Closure.Tree

/-!
The layout of trees. The ranges of a tree nest as its nodes do and the parts of a node stand in the
order of the source, each in front of the next one. No two expressions have one range, and neither
do two declared names.
-/

namespace ComputeKernel

namespace Span

/-- A range of at least one byte. -/
def Proper (s : Span) : Prop := s.start < s.stop

/-- A range of at least one byte between two offsets. -/
def Between (lo hi : Nat) (s : Span) : Prop := lo ≤ s.start ∧ s.Proper ∧ s.stop ≤ hi

theorem Between.mono {lo lo' hi hi' : Nat} {s : Span} (h : s.Between lo hi) (hlo : lo' ≤ lo)
    (hhi : hi ≤ hi') : s.Between lo' hi' :=
  ⟨Nat.le_trans hlo h.1, h.2.1, Nat.le_trans h.2.2 hhi⟩

end Span

/-! ### Expressions -/

mutual

/-- Whether the parts of an expression are laid out in the range of the expression. -/
def Expr.Laid : Expr → Prop
  | .literal s _ | .name s _ | .path s _ => s.Proper
  | .unary s _ e => e.Laid ∧ s.start < e.span.start ∧ e.span.stop ≤ s.stop
  | .binary s _ l r =>
    l.Laid ∧ r.Laid ∧ s.start ≤ l.span.start ∧ l.span.stop < r.span.start ∧ r.span.stop ≤ s.stop
  | .cast s e type =>
    e.Laid ∧ s.start ≤ e.span.start ∧ type.span.Between (e.span.stop + 1) s.stop
  | .field s receiver member =>
    receiver.Laid ∧ s.start ≤ receiver.span.start ∧
      member.span.Between (receiver.span.stop + 1) s.stop
  | .method s receiver member args =>
    receiver.Laid ∧ s.start ≤ receiver.span.start ∧
      member.span.Between (receiver.span.stop + 1) s.stop ∧
      Expr.AllLaid member.span.stop s.stop args
  | .call s _ callee args => callee.Between s.start s.stop ∧ Expr.AllLaid callee.stop s.stop args
  | .index s base i =>
    base.Laid ∧ i.Laid ∧ s.start ≤ base.span.start ∧ base.span.stop < i.span.start ∧
      i.span.stop < s.stop
  | .tuple s items => Expr.AllLaid s.start s.stop items
  | .paren s inner => inner.Laid ∧ s.start < inner.span.start ∧ inner.span.stop < s.stop
  | .choice s condition yes no =>
    condition.Laid ∧ yes.Laid ∧ no.Laid ∧ s.start < condition.span.start ∧
      condition.span.stop < yes.span.start ∧ yes.span.stop < no.span.start ∧ no.span.stop ≤ s.stop

/-- Whether expressions are laid out one behind the other, apart from each other and from the bytes
at `lo` and `hi` that enclose them. -/
def Expr.AllLaid (lo hi : Nat) : List Expr → Prop
  | [] => lo < hi
  | e :: es => e.Laid ∧ lo < e.span.start ∧ Expr.AllLaid e.span.stop hi es

end

theorem Expr.AllLaid.lt {lo hi : Nat} {es : List Expr} (h : Expr.AllLaid lo hi es)
    (hproper : ∀ e ∈ es, e.Laid → e.span.Proper) : lo < hi := by
  induction es generalizing lo with
  | nil => exact h
  | cons e es ih =>
    obtain ⟨he, hlo, hes⟩ := h
    have hrest := ih hes fun e' he' => hproper e' (List.mem_cons_of_mem e he')
    have hspan : e.span.start < e.span.stop := hproper e List.mem_cons_self he
    omega

section

variable (s : Span)

@[simp] theorem Expr.span_literal (v : Literal) : (literal s v).span = s := rfl

@[simp] theorem Expr.span_name (text : String) : (name s text).span = s := rfl

@[simp] theorem Expr.span_path (p : Path) : (path s p).span = s := rfl

@[simp] theorem Expr.span_unary (op : UnaryOp) (e : Expr) : (unary s op e).span = s := rfl

@[simp] theorem Expr.span_binary (op : BinaryOp) (l r : Expr) : (binary s op l r).span = s := rfl

@[simp] theorem Expr.span_cast (e : Expr) (type : TypeRef) : (cast s e type).span = s := rfl

@[simp] theorem Expr.span_field (e : Expr) (member : Name) : (field s e member).span = s := rfl

@[simp] theorem Expr.span_method (e : Expr) (member : Name) (args : List Expr) :
    (method s e member args).span = s := rfl

@[simp] theorem Expr.span_call (callee : Path) (calleeSpan : Span) (args : List Expr) :
    (call s callee calleeSpan args).span = s := rfl

@[simp] theorem Expr.span_index (base i : Expr) : (index s base i).span = s := rfl

@[simp] theorem Expr.span_tuple (items : List Expr) : (tuple s items).span = s := rfl

@[simp] theorem Expr.span_paren (inner : Expr) : (paren s inner).span = s := rfl

@[simp] theorem Expr.span_choice (condition yes no : Expr) :
    (choice s condition yes no).span = s := rfl

end

theorem Expr.Laid.start_lt_stop : ∀ {e : Expr}, e.Laid → e.span.start < e.span.stop
  | .literal .., h | .name .., h | .path .., h => h
  | .unary _ _ e, ⟨he, h₁, h₂⟩ => by
    have := he.start_lt_stop
    simp only [span_unary]
    omega
  | .binary _ _ l r, ⟨hl, hr, h₁, h₂, h₃⟩ => by
    have := hl.start_lt_stop
    have := hr.start_lt_stop
    simp only [span_binary]
    omega
  | .cast _ e _, ⟨he, h₁, h₂, h₃, h₄⟩ => by
    have := he.start_lt_stop
    simp only [Span.Proper, span_cast] at *
    omega
  | .field _ e _, ⟨he, h₁, h₂, h₃, h₄⟩ => by
    have := he.start_lt_stop
    simp only [Span.Proper, span_field] at *
    omega
  | .method _ e _ _, ⟨he, h₁, ⟨h₂, h₃, h₄⟩, _⟩ => by
    have := he.start_lt_stop
    simp only [Span.Proper, span_method] at *
    omega
  | .call .., ⟨⟨h₁, h₂, h₃⟩, _⟩ => by
    simp only [Span.Proper, span_call] at *
    omega
  | .index _ b i, ⟨hb, hi, h₁, h₂, h₃⟩ => by
    have := hb.start_lt_stop
    have := hi.start_lt_stop
    simp only [span_index]
    omega
  | .tuple _ es, h => h.lt fun _ _ he => he.start_lt_stop
  | .paren _ e, ⟨he, h₁, h₂⟩ => by
    have := he.start_lt_stop
    simp only [span_paren]
    omega
  | .choice _ c y n, ⟨hc, hy, hn, h₁, h₂, h₃, h₄⟩ => by
    have := hc.start_lt_stop
    have := hy.start_lt_stop
    have := hn.start_lt_stop
    simp only [span_choice]
    omega

/-- Whether an expression is laid out between two offsets. -/
def Expr.LaidIn (lo hi : Nat) (e : Expr) : Prop :=
  e.Laid ∧ lo ≤ e.span.start ∧ e.span.stop ≤ hi

namespace Expr.LaidIn

variable {lo mid hi : Nat} {e l r : Expr}

theorem mono {lo' hi' : Nat} (h : e.LaidIn lo hi) (hlo : lo' ≤ lo) (hhi : hi ≤ hi') :
    e.LaidIn lo' hi' :=
  ⟨h.1, Nat.le_trans hlo h.2.1, Nat.le_trans h.2.2 hhi⟩

theorem bounds (h : e.LaidIn lo hi) :
    lo ≤ e.span.start ∧ e.span.start < e.span.stop ∧ e.span.stop ≤ hi :=
  ⟨h.2.1, h.1.start_lt_stop, h.2.2⟩

theorem between (h : e.LaidIn lo hi) : e.span.Between lo hi := h.bounds

theorem unary {s : Span} {op : UnaryOp} (hs : s.Proper) (he : e.LaidIn s.stop hi) :
    (Expr.unary (s.merge e.span) op e).LaidIn s.start hi := by
  have := he.bounds
  unfold Span.Proper at hs
  refine ⟨⟨he.1, ?_, ?_⟩, ?_, ?_⟩ <;>
    (simp only [span_unary, Span.merge_start, Span.merge_stop]; omega)

theorem binary {op : BinaryOp} (hl : l.LaidIn lo mid) (hr : r.LaidIn (mid + 1) hi) :
    (Expr.binary (l.span.merge r.span) op l r).LaidIn lo hi := by
  have := hl.bounds
  have := hr.bounds
  refine ⟨⟨hl.1, hr.1, ?_, ?_, ?_⟩, ?_, ?_⟩ <;>
    (try simp only [span_binary, Span.merge_start, Span.merge_stop]) <;> omega

theorem cast {type : TypeRef} (he : e.LaidIn lo mid) (htype : type.span.Between (mid + 1) hi) :
    (Expr.cast (e.span.merge type.span) e type).LaidIn lo hi := by
  have := he.bounds
  obtain ⟨h₁, h₂, h₃⟩ := htype
  unfold Span.Proper at h₂
  refine ⟨⟨he.1, ?_, ?_, h₂, ?_⟩, ?_, ?_⟩ <;>
    (try simp only [span_cast, Span.merge_start, Span.merge_stop]) <;> omega

theorem field {member : Name} (he : e.LaidIn lo mid)
    (hmember : member.span.Between (mid + 1) hi) :
    (Expr.field (e.span.merge member.span) e member).LaidIn lo hi := by
  have := he.bounds
  obtain ⟨h₁, h₂, h₃⟩ := hmember
  unfold Span.Proper at h₂
  refine ⟨⟨he.1, ?_, ?_, h₂, ?_⟩, ?_, ?_⟩ <;>
    (try simp only [span_field, Span.merge_start, Span.merge_stop]) <;> omega

/-- The range of a method call ends with its closing parenthesis, which is at `b`. -/
theorem method {member : Name} {args : List Expr} {b : Span} (he : e.LaidIn lo mid)
    (hmember : member.span.Between (mid + 1) b.stop) (hb : mid ≤ b.start)
    (hargs : AllLaid member.span.stop b.stop args) :
    (Expr.method (e.span.merge b) e member args).LaidIn lo b.stop := by
  have := he.bounds
  obtain ⟨h₁, h₂, h₃⟩ := hmember
  unfold Span.Proper at h₂
  have hstop : (e.span.merge b).stop = b.stop := by simp only [Span.merge_stop]; omega
  refine ⟨⟨he.1, ?_, ⟨?_, h₂, ?_⟩, by rw [hstop]; exact hargs⟩, ?_, ?_⟩ <;>
    (try simp only [span_method, Span.merge_start, Span.merge_stop]) <;> omega

/-- The range of an index ends with its closing bracket, which is at `b`. -/
theorem index {i : Expr} {b : Span} (he : e.LaidIn lo mid) (hi : i.LaidIn (mid + 1) b.start)
    (hb : b.Proper) : (Expr.index (e.span.merge b) e i).LaidIn lo b.stop := by
  have := he.bounds
  have := hi.bounds
  unfold Span.Proper at hb
  refine ⟨⟨he.1, hi.1, ?_, ?_, ?_⟩, ?_, ?_⟩ <;>
    (try simp only [span_index, Span.merge_start, Span.merge_stop]) <;> omega

theorem choice {s : Span} {c y n : Expr} {mid' : Nat} (hs : s.Proper) (hc : c.LaidIn s.stop mid)
    (hy : y.LaidIn (mid + 1) mid') (hn : n.LaidIn (mid' + 1) hi) :
    (Expr.choice (s.merge n.span) c y n).LaidIn s.start hi := by
  have := hc.bounds
  have := hy.bounds
  have := hn.bounds
  unfold Span.Proper at hs
  refine ⟨⟨hc.1, hy.1, hn.1, ?_, ?_, ?_, ?_⟩, ?_, ?_⟩ <;>
    (try simp only [span_choice, Span.merge_start, Span.merge_stop]) <;> omega

/-- Expressions in brackets at `a` and `b`. -/
theorem paren {a b : Span} {lo' hi' : Nat} (he : e.LaidIn lo' hi') (ha : a.start < lo')
    (hb : hi' < b.stop) (hab : a.stop ≤ b.stop) (hab' : a.start ≤ b.start) :
    (Expr.paren (a.merge b) e).LaidIn a.start b.stop := by
  have := he.bounds
  refine ⟨⟨he.1, ?_, ?_⟩, ?_, ?_⟩ <;>
    (try simp only [span_paren, Span.merge_start, Span.merge_stop]) <;> omega

end Expr.LaidIn

/-! ### Statements -/

mutual

/-- Whether the parts of a statement are laid out in the range of the statement. -/
def Stmt.Laid : Stmt → Prop
  | .let s _ name type value =>
    name.span.Between (s.start + 1) s.stop ∧ (∀ t ∈ type, t.span.Between name.span.stop s.stop) ∧
      ∀ e ∈ value, e.Laid ∧ name.span.stop < e.span.start ∧ e.span.stop ≤ s.stop
  | .assign s _ place value =>
    place.Laid ∧ value.Laid ∧ s.start ≤ place.span.start ∧ place.span.stop < value.span.start ∧
      value.span.stop ≤ s.stop
  | .if s condition body none =>
    condition.Laid ∧ body.Laid ∧ s.start < condition.span.start ∧
      condition.span.stop ≤ body.span.start ∧ body.span.stop ≤ s.stop
  | .if s condition body (some otherwise) =>
    condition.Laid ∧ body.Laid ∧ otherwise.Laid ∧ s.start < condition.span.start ∧
      condition.span.stop ≤ body.span.start ∧ body.span.stop ≤ otherwise.span.start ∧
      otherwise.span.stop ≤ s.stop
  | .for s counter start stop _ body =>
    start.Laid ∧ stop.Laid ∧ body.Laid ∧ counter.span.Between (s.start + 1) start.span.start ∧
      start.span.stop < stop.span.start ∧ stop.span.stop ≤ body.span.start ∧
      body.span.stop ≤ s.stop
  | .while s condition body =>
    condition.Laid ∧ body.Laid ∧ s.start < condition.span.start ∧
      condition.span.stop ≤ body.span.start ∧ body.span.stop ≤ s.stop
  | .loop s body => body.Laid ∧ s.start < body.span.start ∧ body.span.stop ≤ s.stop
  | .jump s _ => s.Proper
  | .eval s value => value.Laid ∧ s = value.span
  | .nested s body => body.Laid ∧ s = body.span

def Block.Laid : Block → Prop
  | ⟨s, stmts⟩ => s.Proper ∧ Stmt.AllLaid s.start s.stop stmts

/-- Whether statements are laid out one behind the other between two offsets. -/
def Stmt.AllLaid (lo hi : Nat) : List Stmt → Prop
  | [] => lo ≤ hi
  | s :: stmts => s.Laid ∧ s.span.Proper ∧ lo ≤ s.span.start ∧ Stmt.AllLaid s.span.stop hi stmts

end

/-- Whether the parts of a closure are laid out one behind the other, none of them behind `hi`. -/
def Closure.Laid (hi : Nat) (c : Closure) : Prop :=
  c.param.span.Proper ∧ (∀ t ∈ c.paramType, t.span.Between c.param.span.stop c.body.span.start) ∧
    c.param.span.stop ≤ c.body.span.start ∧ c.body.Laid ∧ c.body.span.stop ≤ hi

/-- Whether a statement is laid out between two offsets. -/
def Stmt.LaidIn (lo hi : Nat) (s : Stmt) : Prop := s.Laid ∧ s.span.Between lo hi

/-- Whether a block is laid out between two offsets. -/
def Block.LaidIn (lo hi : Nat) (b : Block) : Prop := b.Laid ∧ b.span.Between lo hi

theorem Block.LaidIn.mono {lo lo' hi hi' : Nat} {b : Block} (h : b.LaidIn lo hi) (hlo : lo' ≤ lo)
    (hhi : hi ≤ hi') : b.LaidIn lo' hi' := ⟨h.1, h.2.mono hlo hhi⟩

/-- A block that is one statement. -/
theorem Stmt.LaidIn.block {lo hi : Nat} {s : Stmt} (h : s.LaidIn lo hi) :
    (Block.mk s.span [s]).LaidIn lo hi :=
  ⟨⟨h.2.2.1, h.1, h.2.2.1, Nat.le_refl _, Nat.le_refl _⟩, h.2⟩

section

variable {s : Span} {mid mid' : Nat} {condition : Expr} {body : Block}

theorem Stmt.Laid.ifOnly (hcondition : condition.LaidIn (s.start + 1) mid)
    (hbody : body.LaidIn mid s.stop) : (Stmt.if s condition body none).Laid :=
  ⟨hcondition.1, hbody.1, hcondition.2.1, Nat.le_trans hcondition.2.2 hbody.2.1, hbody.2.2.2⟩

theorem Stmt.Laid.ifElse {otherwise : Block} (hcondition : condition.LaidIn (s.start + 1) mid)
    (hbody : body.LaidIn mid mid') (hotherwise : otherwise.LaidIn mid' s.stop) :
    (Stmt.if s condition body (some otherwise)).Laid :=
  ⟨hcondition.1, hbody.1, hotherwise.1, hcondition.2.1, Nat.le_trans hcondition.2.2 hbody.2.1,
    Nat.le_trans hbody.2.2.2 hotherwise.2.1, hotherwise.2.2.2⟩

end

theorem Block.Laid.proper : ∀ {b : Block}, b.Laid → b.span.Proper
  | ⟨_, _⟩, h => h.1

end ComputeKernel
