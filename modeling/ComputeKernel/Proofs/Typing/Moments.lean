import ComputeKernel.Proofs.Typing.Kinship
import ComputeKernel.Proofs.Typing.Steps

/-!
The moments of a check. The operands of an operation are checked one after the other, and the values of
the first ones wait until the last one is checked: what they say of a local is what was known of it when
they were read. So a moment of a check is a state of it together with the values that wait.
-/

namespace ComputeKernel

/-- A state that a check goes through, and the values found by then that wait for the operation that
they are operands of, the latest first. -/
structure Moment where
  state : Checking
  waiting : List Typed := []

namespace Moment

/-! ### The moments of a closure -/

/-- The moment in which an expression is checked and its value waits. -/
def after (catalog : Catalog) (m : Moment) (e : Expr) : Moment :=
  ⟨m.state.past (Check.expr catalog e),
    ((Check.expr catalog e).run m.state).1.toList ++ m.waiting⟩

/-- The moment in which all the arguments of a call are checked. -/
def afterAll (catalog : Catalog) (m : Moment) (es : List Expr) : Moment := es.foldl (after catalog) m

/-- The moment behind the condition of a conditional, of which the value does not wait any more. -/
def decided (catalog : Catalog) (m : Moment) (question : Expr) : Moment :=
  ⟨m.state.past (Check.condition catalog question), m.waiting⟩

/-- The moments of an expression by those of its parts: it begins and ends. -/
def visit (catalog : Catalog) (m : Moment) (e : Expr) (parts : Moment → List Moment) :
    List Moment :=
  m :: (parts m ++ [m.after catalog e])

end Moment

namespace Check

/-- Whether the index of an element is checked as an expression, and not as selectors of a swizzle. -/
def indexes (found : Option Typed) (index : Expr) : Bool :=
  found.any fun b => (swizzleItems? b.type index).isNone

mutual

/-- The moments of the parts of an expression of which the check begins at `m`. -/
def partMoments (catalog : Catalog) : Expr → Moment → List Moment
  | .literal .., _ | .name .., _ | .path .., _ | .tuple .., _ => []
  | .unary _ _ operand, m => m.visit catalog operand (partMoments catalog operand)
  | .binary _ _ left right, m =>
    m.visit catalog left (partMoments catalog left) ++
      (m.after catalog left).visit catalog right (partMoments catalog right)
  | .cast _ operand _, m => m.visit catalog operand (partMoments catalog operand)
  | .field _ receiver _, m => m.visit catalog receiver (partMoments catalog receiver)
  | .method _ receiver _ args, m =>
    m.visit catalog receiver (partMoments catalog receiver) ++
      argMoments catalog args (m.after catalog receiver)
  | .call _ _ _ args, m => argMoments catalog args m
  | .index _ base index, m =>
    m.visit catalog base (partMoments catalog base) ++
      if indexes ((expr catalog base).run m.state).1 index then
        (m.after catalog base).visit catalog index (partMoments catalog index)
      else []
  | .paren _ inner, m => m.visit catalog inner (partMoments catalog inner)
  | .choice _ question yes no, m =>
    m.visit catalog question (partMoments catalog question) ++
      ((m.decided catalog question).visit catalog yes (partMoments catalog yes) ++
        ((m.decided catalog question).after catalog yes).visit catalog no
          (partMoments catalog no))

def argMoments (catalog : Catalog) : List Expr → Moment → List Moment
  | [], _ => []
  | e :: es, m =>
    m.visit catalog e (partMoments catalog e) ++ argMoments catalog es (m.after catalog e)

end

/-- The moments of an expression. -/
def exprMoments (catalog : Catalog) (e : Expr) (m : Moment) : List Moment :=
  m.visit catalog e (partMoments catalog e)

mutual

/-- The moments of the parts of a statement of which the check begins in the state `s`. -/
def stmtMoments (catalog : Catalog) : Stmt → Checking → List Moment
  | .let _ _ _ _ none, _ | .jump .., _ => []
  | .let _ _ _ _ (some e), s => exprMoments catalog e ⟨s, []⟩
  | .assign _ _ place value, s =>
    exprMoments catalog place ⟨s, []⟩ ++
      exprMoments catalog value (Moment.after catalog ⟨s, []⟩ place)
  | .if _ question body otherwise, s =>
    exprMoments catalog question ⟨s, []⟩ ++
      (blockMoments catalog body (s.past (condition catalog question)) ++
        optionalMoments catalog otherwise
          ((s.past (condition catalog question)).past (block catalog body)))
  | .for _ counter start stop _ body, s =>
    exprMoments catalog start ⟨s, []⟩ ++
      (exprMoments catalog stop (Moment.after catalog ⟨s, []⟩ start) ++
        blockMoments catalog body (s.past (countBetween catalog counter start stop)))
  | .while _ question body, s =>
    exprMoments catalog question ⟨s, []⟩ ++
      blockMoments catalog body ((s.past (condition catalog question)).past enterLoop)
  | .loop _ body, s => blockMoments catalog body (s.past enterLoop)
  | .eval _ value, s => exprMoments catalog value ⟨s, []⟩
  | .nested _ body, s => blockMoments catalog body s

def optionalMoments (catalog : Catalog) : Option Block → Checking → List Moment
  | none, _ => []
  | some b, s => blockMoments catalog b s

def blockMoments (catalog : Catalog) : Block → Checking → List Moment
  | ⟨_, body⟩, s => stmtsMoments catalog body (s.past openScope)

/-- The moments of the statements of a block. Nothing waits where one begins, nor at the end. -/
def stmtsMoments (catalog : Catalog) : List Stmt → Checking → List Moment
  | [], s => [⟨s, []⟩]
  | st :: ss, s =>
    ⟨s, []⟩ :: (stmtMoments catalog st s ++ stmtsMoments catalog ss (s.past (stmt catalog st)))

end

end Check

/-- The moments of the check of a closure, from its beginning to its end. -/
def Closure.moments (c : Closure) (catalog : Catalog) : List Moment :=
  ⟨{}, []⟩ :: (Check.blockMoments catalog c.body (Checking.past {} (Check.parameter c)) ++
    [⟨Checking.past {} (Check.closure catalog c), []⟩])

/-! ### From one moment to a later one -/

/-- What a check that may settle the values `w` makes of the locals that are settled: each keeps its
type, or gets one that a value of `w` which names it fits. -/
def Checking.Retains (w : List Typed) (s s' : Checking) : Prop :=
  ∀ id l, s.model.local? id = some l → l.family = none →
    ∃ type, s'.model.local? id = some { l with type } ∧
      (type = l.type ∨ ∃ t ∈ w, t.origin = some id ∧ t.Fits type)

namespace Checking.Retains

variable {w : List Typed} {s s₁ s' : Checking}

theorem of_locals_eq (h : s'.model.locals = s.model.locals) : Retains w s s' := by
  intro id l hl _
  refine ⟨l.type, ?_, .inl rfl⟩
  rw [Model.local?, h]
  exact hl

theorem trans (h : Retains w s s₁) (h' : Retains w s₁ s') : Retains w s s' := by
  intro id l hl hshut
  obtain ⟨type, htype, hkept⟩ := h id l hl hshut
  obtain ⟨type', htype', rfl | hnew⟩ := h' id _ htype hshut
  · exact ⟨_, htype', hkept⟩
  · exact ⟨type', htype', .inr hnew⟩

theorem declare (s : Checking) (name : Name) (type : Ty) (mutable : Bool)
    (family : Option LiteralFamily) : Retains w s (s.declare name type mutable family) := by
  intro id l hl _
  refine ⟨l.type, ?_, .inl rfl⟩
  exact (List.getElem?_append_left (List.getElem?_eq_some_iff.mp hl).1).trans hl

theorem settle {t : Typed} (ht : t ∈ w) (s : Checking) {target : Ty} (hfits : t.Fits target) :
    Retains w s (s.settle t target) := by
  intro id l hl hshut
  by_cases hid : t.origin = some id
  · refine ⟨target, ?_, .inr ⟨t, ht, hid, hfits⟩⟩
    rw [local?_settle_of_origin hl hid, ← hshut]
  · exact ⟨l.type, (local?_settle_of_ne hid).trans hl, .inl rfl⟩

instance : Noting (Retains w) where
  note _ h := of_locals_eq h
  declare := declare

theorem mayReport (w : List Typed) (span : Span) : MayReport (Retains w) span :=
  fun _ _ _ => of_locals_eq rfl

theorem maySettle {t : Typed} (ht : t ∈ w) : MaySettle (Retains w) t :=
  fun s _ hfits => settle ht s hfits

/-- What the steps of a run retain, the run retains. -/
theorem of_walks {α : Type} {p : Check α} (h : Walks (Retains w) p) (s : Checking) :
    Retains w s (s.past p) :=
  h.preserves (fun _ _ hstep hs => hs.trans hstep) (of_locals_eq rfl)

end Checking.Retains

namespace Moment

/-- What is true from one moment of a check to any later one. What waits in the later one and names a
local that is settled in the first has waited there. -/
structure Leads (m m' : Moment) : Prop where
  retains : Checking.Retains m.waiting m.state m'.state
  waits : ∀ t ∈ m'.waiting, ∀ id l, t.origin = some id → m.state.model.local? id = some l →
    l.family = none → t ∈ m.waiting

variable {m m₁ m' : Moment}

namespace Leads

theorem refl (m : Moment) : m.Leads m := ⟨.of_locals_eq rfl, fun _ ht _ _ _ _ _ => ht⟩

theorem trans (h : m.Leads m₁) (h' : m₁.Leads m') : m.Leads m' := by
  have hwaits : ∀ t ∈ m'.waiting, ∀ id l, t.origin = some id → m.state.model.local? id = some l →
      l.family = none → t ∈ m.waiting := by
    intro t ht id l hid hl hshut
    obtain ⟨type, htype, _⟩ := h.retains id l hl hshut
    exact h.waits t (h'.waits t ht id _ hid htype hshut) id l hid hl hshut
  refine ⟨fun id l hl hshut => ?_, hwaits⟩
  obtain ⟨type, htype, hkept⟩ := h.retains id l hl hshut
  obtain ⟨type', htype', rfl | ⟨t, ht, hid, hfits⟩⟩ := h'.retains id _ htype hshut
  · exact ⟨_, htype', hkept⟩
  · exact ⟨type', htype', .inr ⟨t, h.waits t ht id l hid hl hshut, hid, hfits⟩⟩

/-- An operation leads on: it settles what waits, and its value comes from a local that was open. -/
theorem of_walks {α : Type} {p : Check α} (h : Walks (Checking.Retains m.waiting) p)
    {waiting : List Typed} (hwaits : ∀ t ∈ waiting, t ∈ m.waiting ∨ ∀ id l, t.origin = some id →
      m.state.model.local? id = some l → l.family ≠ none) : m.Leads ⟨m.state.past p, waiting⟩ := by
  refine ⟨.of_walks h m.state, fun t ht id l hid hl hshut => ?_⟩
  rcases hwaits t ht with hold | hopen
  · exact hold
  · exact absurd hshut (hopen id l hid hl)

/-- Behind an expression its value waits in place of those of its operands. -/
theorem after {catalog : Catalog} {e : Expr} {p : Check (Option Typed)}
    (hrun : (Check.expr catalog e).run m.state = p.run m₁.state) (hsub : m.waiting ⊆ m₁.waiting)
    (h : Walks (Checking.Retains m₁.waiting) p)
    (hfound : ∀ t, (p.run m₁.state).1 = some t → t ∈ m₁.waiting ∨ ∀ id l, t.origin = some id →
      m₁.state.model.local? id = some l → l.family ≠ none) : m₁.Leads (m.after catalog e) := by
  rw [Moment.after, Checking.past, hrun]
  refine of_walks h fun t ht => ?_
  rcases List.mem_append.mp ht with ht | ht
  · exact hfound t (Option.mem_toList.mp ht)
  · exact .inl (hsub ht)

theorem after_of_detached {catalog : Catalog} {e : Expr} {p : Check (Option Typed)}
    (hrun : (Check.expr catalog e).run m.state = p.run m₁.state) (hsub : m.waiting ⊆ m₁.waiting)
    (h : Walks (Checking.Retains m₁.waiting) p) (hp : Check.Detached p) :
    m₁.Leads (m.after catalog e) :=
  after hrun hsub h fun t ht => .inr fun _ _ hid _ => nomatch hid.symm.trans (hp.isDetached _ t ht)

end Leads

/-- Whether moments stand in order on the way from `m` to `m'`. -/
structure Course (m : Moment) (ms : List Moment) (m' : Moment) : Prop where
  leads : m.Leads m'
  begins : ∀ x ∈ ms, m.Leads x
  ends : ∀ x ∈ ms, x.Leads m'
  ordered : ms.Pairwise Leads

namespace Course

variable {ms ms' : List Moment}

theorem nil (h : m.Leads m') : Course m [] m' := ⟨h, nofun, nofun, .nil⟩

theorem single (m : Moment) : Course m [m] m :=
  ⟨.refl m, by simpa using .refl m, by simpa using .refl m, List.pairwise_singleton _ m⟩

theorem append (h : Course m ms m₁) (h' : Course m₁ ms' m') : Course m (ms ++ ms') m' := by
  refine ⟨h.leads.trans h'.leads, fun x hx => ?_, fun x hx => ?_, ?_⟩
  · rcases List.mem_append.mp hx with hx | hx
    · exact h.begins x hx
    · exact h.leads.trans (h'.begins x hx)
  · rcases List.mem_append.mp hx with hx | hx
    · exact (h.ends x hx).trans h'.leads
    · exact h'.ends x hx
  · exact List.pairwise_append.mpr
      ⟨h.ordered, h'.ordered, fun x hx y hy => (h.ends x hx).trans (h'.begins y hy)⟩

/-- The course goes on behind its last moment. -/
theorem extend (h : Course m ms m₁) (h' : m₁.Leads m') : Course m ms m' := by
  simpa using h.append (.nil h')

theorem visit {catalog : Catalog} {e : Expr} {parts : Moment → List Moment}
    (h : Course m (parts m) m₁) (h' : m₁.Leads (m.after catalog e)) :
    Course m (m.visit catalog e parts) (m.after catalog e) :=
  (single m).append ((h.extend h').append (single _))

end Course

/-! ### What waits -/

variable {catalog : Catalog}

theorem waiting_subset_after (m : Moment) (e : Expr) : m.waiting ⊆ (m.after catalog e).waiting :=
  List.subset_append_right _ _

theorem mem_waiting_after {e : Expr} {t : Typed}
    (h : ((Check.expr catalog e).run m.state).1 = some t) : t ∈ (m.after catalog e).waiting :=
  List.mem_append_left _ (Option.mem_toList.mpr h)

theorem waiting_subset_afterAll (m : Moment) (es : List Expr) :
    m.waiting ⊆ (m.afterAll catalog es).waiting := by
  induction es generalizing m with
  | nil => exact List.Subset.refl _
  | cons e es ih => exact List.Subset.trans (m.waiting_subset_after e) (ih _)

theorem state_afterAll (m : Moment) (es : List Expr) :
    (m.afterAll catalog es).state = m.state.past (Check.exprs catalog es) := by
  induction es generalizing m with
  | nil => rfl
  | cons e es ih => exact ih (m.after catalog e)

/-- The values of arguments wait behind them. -/
theorem mem_waiting_afterAll {es : List Expr} {t : Typed}
    (h : some t ∈ ((Check.exprs catalog es).run m.state).1) :
    t ∈ (m.afterAll catalog es).waiting := by
  induction es generalizing m with
  | nil => cases h
  | cons e es ih =>
    rcases (List.mem_cons (a := some t)).mp h with h | h
    · exact (m.after catalog e).waiting_subset_afterAll es (mem_waiting_after h.symm)
    · exact ih (m := m.after catalog e) h

end Moment

end ComputeKernel
