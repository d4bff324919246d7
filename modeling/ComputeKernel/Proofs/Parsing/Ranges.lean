import ComputeKernel.Proofs.Parsing.Precedence
import ComputeKernel.Proofs.Spacing.Keys
import ComputeKernel.Proofs.Typing.Resolution

/-!
What a range tells. In an accepted closure no two expressions and declared names have one range, the
range of an expression is around those of its parts, and parts that stand side by side have no byte in
common.
-/

namespace ComputeKernel

namespace Span

/-- Whether a range ends in front of another one. -/
def Before (a b : Span) : Prop := a.stop ≤ b.start

/-- Whether a range is a part of another one and not all of it. -/
structure Within (a b : Span) : Prop where
  start : b.start ≤ a.start
  stop : a.stop ≤ b.stop
  ne : a ≠ b

theorem Between.lt {lo hi : Nat} {s : Span} (h : s.Between lo hi) : lo < hi :=
  Nat.lt_of_le_of_lt h.1 (Nat.lt_of_lt_of_le h.2.1 h.2.2)

/-- Whether ranges stand one behind the other between two offsets. -/
def Row (lo hi : Nat) : List Span → Prop
  | [] => lo ≤ hi
  | s :: spans => lo ≤ s.start ∧ s.Proper ∧ Row s.stop hi spans

namespace Row

variable {lo lo' mid hi hi' : Nat} {as bs : List Span}

theorem le (h : Row lo hi as) : lo ≤ hi := by
  induction as generalizing lo with
  | nil => exact h
  | cons s as ih =>
    obtain ⟨hlo, hproper, has⟩ := h
    have := ih has
    unfold Proper at hproper
    omega

theorem mono (h : Row lo hi as) (hlo : lo' ≤ lo) (hhi : hi ≤ hi') : Row lo' hi' as := by
  induction as generalizing lo lo' with
  | nil => exact Nat.le_trans hlo (Nat.le_trans h hhi)
  | cons s as ih => exact ⟨Nat.le_trans hlo h.1, h.2.1, ih h.2.2 (Nat.le_refl _)⟩

theorem append (h : Row lo mid as) (h' : Row mid hi bs) : Row lo hi (as ++ bs) := by
  induction as generalizing lo with
  | nil => exact h'.mono h (Nat.le_refl _)
  | cons s as ih => exact ⟨h.1, h.2.1, ih h.2.2⟩

theorem between (h : Row lo hi as) : ∀ s ∈ as, s.Between lo hi := by
  induction as generalizing lo with
  | nil => exact nofun
  | cons s as ih =>
    obtain ⟨hlo, hproper, has⟩ := h
    have hstop : lo ≤ s.stop := Nat.le_trans hlo (Nat.le_of_lt hproper)
    exact List.forall_mem_cons.mpr ⟨⟨hlo, hproper, has.le⟩,
      fun t ht => (ih has t ht).mono hstop (Nat.le_refl _)⟩

theorem before (h : Row lo hi as) : as.Pairwise Before := by
  induction as generalizing lo with
  | nil => exact .nil
  | cons s as ih => exact .cons (fun t ht => (h.2.2.between t ht).1) (ih h.2.2)

end Row

end Span

open ComputeKernel.Span (Row)

/-! ### The parts of an expression -/

mutual

/-- An expression and all that are inside of it. -/
def Expr.parts : Expr → List Expr
  | .literal s v => [.literal s v]
  | .name s text => [.name s text]
  | .path s p => [.path s p]
  | .unary s op e => .unary s op e :: e.parts
  | .binary s op l r => .binary s op l r :: (l.parts ++ r.parts)
  | .cast s e type => .cast s e type :: e.parts
  | .field s e member => .field s e member :: e.parts
  | .method s e member args => .method s e member args :: (e.parts ++ Expr.allParts args)
  | .call s callee calleeSpan args => .call s callee calleeSpan args :: Expr.allParts args
  | .index s base i => .index s base i :: (base.parts ++ i.parts)
  | .tuple s items => .tuple s items :: Expr.allParts items
  | .paren s e => .paren s e :: e.parts
  | .choice s condition yes no =>
    .choice s condition yes no :: (condition.parts ++ (yes.parts ++ no.parts))

def Expr.allParts : List Expr → List Expr
  | [] => []
  | e :: es => e.parts ++ Expr.allParts es

end

/-- All expressions of a closure. -/
def Closure.parts (c : Closure) : List Expr := Expr.allParts c.body.exprs

theorem Expr.allParts_eq_flatMap (es : List Expr) : Expr.allParts es = es.flatMap Expr.parts := by
  induction es with
  | nil => rfl
  | cons e es ih => rw [Expr.allParts, ih, List.flatMap_cons]

/-- The parts of an expression are the expression and the parts of its children. -/
theorem Expr.parts_eq_cons (e : Expr) : e.parts = e :: Expr.allParts e.children := by
  cases e <;> simp [Expr.parts, Expr.children, Expr.allParts]

theorem Expr.mem_parts_self (e : Expr) : e ∈ e.parts := by
  rw [e.parts_eq_cons]
  exact List.mem_cons_self

theorem Expr.mem_parts_of_children {e x y : Expr} (hy : y ∈ e.children) (hx : x ∈ y.parts) :
    x ∈ e.parts := by
  rw [e.parts_eq_cons, Expr.allParts_eq_flatMap]
  exact List.mem_cons_of_mem _ (List.mem_flatMap_of_mem hy hx)

theorem Expr.mem_parts_of_part {e x : Expr} (h : x.Part e) : x ∈ e.parts := by
  induction h with
  | refl => exact x.mem_parts_self
  | tail _ hy ih => exact Expr.mem_parts_of_children hy ih

theorem Expr.sizeOf_lt_of_mem_children {e x : Expr} (h : x ∈ e.children) : sizeOf x < sizeOf e := by
  cases e with
  | literal | name | path => cases h
  | unary | cast | field | paren =>
    obtain rfl := List.mem_singleton.mp h
    simp +arith
  | binary | index =>
    simp only [Expr.children, List.mem_cons, List.not_mem_nil, or_false] at h
    rcases h with rfl | rfl <;> simp +arith
  | method _ receiver _ args =>
    rcases List.mem_cons.mp h with rfl | h
    · simp +arith
    · have := List.sizeOf_lt_of_mem h
      simp +arith
      omega
  | call _ _ _ args | tuple _ args =>
    have : sizeOf x < sizeOf args := List.sizeOf_lt_of_mem h
    simp +arith
    omega
  | choice =>
    simp only [Expr.children, List.mem_cons, List.not_mem_nil, or_false] at h
    rcases h with rfl | rfl | rfl <;> simp +arith

/-- What holds of an expression if it holds of its children holds of all expressions. -/
theorem Expr.induction_on_children {p : Expr → Prop}
    (h : ∀ e : Expr, (∀ x ∈ e.children, p x) → p e) (e : Expr) : p e :=
  h e fun x _ => Expr.induction_on_children h x
termination_by e
decreasing_by exact Expr.sizeOf_lt_of_mem_children ‹_›

theorem Expr.mem_parts {e x : Expr} : x ∈ e.parts ↔ x.Part e := by
  refine ⟨fun h => ?_, Expr.mem_parts_of_part⟩
  induction e using Expr.induction_on_children with
  | h e ih =>
    rw [e.parts_eq_cons, Expr.allParts_eq_flatMap] at h
    rcases List.mem_cons.mp h with rfl | h
    · exact .refl
    · obtain ⟨y, hy, hx⟩ := List.mem_flatMap.mp h
      exact (ih y hy hx).tail hy

/-! ### Ranges of the parts -/

mutual

theorem Expr.keys_eq : ∀ e : Expr, e.keys = e.parts.map Expr.span
  | .literal .. | .name .. | .path .. => rfl
  | .unary s _ e | .cast s e _ | .field s e _ | .paren s e => congrArg (s :: ·) e.keys_eq
  | .binary s _ l r | .index s l r => by
    rw [Expr.keys, Expr.parts, l.keys_eq, r.keys_eq, List.map_cons, List.map_append]
    rfl
  | .method s e _ args => by
    rw [Expr.keys, Expr.parts, e.keys_eq, Expr.allKeys_eq args, List.map_cons, List.map_append]
    rfl
  | .call s _ _ args | .tuple s args => congrArg (s :: ·) (Expr.allKeys_eq args)
  | .choice s condition yes no => by
    rw [Expr.keys, Expr.parts, condition.keys_eq, yes.keys_eq, no.keys_eq, List.map_cons,
      List.map_append, List.map_append]
    rfl

theorem Expr.allKeys_eq : ∀ es : List Expr, Expr.allKeys es = (Expr.allParts es).map Expr.span
  | [] => rfl
  | e :: es => by rw [Expr.allKeys, Expr.allParts, e.keys_eq, Expr.allKeys_eq es, List.map_append]

end

theorem Expr.keys_eq_cons (e : Expr) : e.keys = e.span :: Expr.allKeys e.children := by
  rw [e.keys_eq, e.parts_eq_cons, List.map_cons, Expr.allKeys_eq]

theorem Expr.span_mem_allKeys {x : Expr} {es : List Expr} (h : x ∈ es) :
    x.span ∈ Expr.allKeys es := by
  rw [Expr.allKeys_eq, Expr.allParts_eq_flatMap]
  exact List.mem_map_of_mem (List.mem_flatMap_of_mem h x.mem_parts_self)

theorem Expr.allKeys_append (es es' : List Expr) :
    Expr.allKeys (es ++ es') = Expr.allKeys es ++ Expr.allKeys es' := by
  simp only [Expr.allKeys_eq, Expr.allParts_eq_flatMap, List.flatMap_append, List.map_append]

section

variable (k : Span)

/-- How often a range stands among the expressions and the declared names. -/
def rangeCount (es : List Expr) (names : List Name) : Nat :=
  (Expr.allKeys es).count k + (names.map Name.span).count k

theorem rangeCount_nil : rangeCount k [] [] = 0 := rfl

theorem rangeCount_expr (e : Expr) (es : List Expr) (names : List Name) :
    rangeCount k (e :: es) names = e.keys.count k + rangeCount k es names := by
  rw [rangeCount, Expr.allKeys, List.count_append, Nat.add_assoc, ← rangeCount]

theorem rangeCount_name (es : List Expr) (name : Name) (names : List Name) :
    rangeCount k es (name :: names) = [name.span].count k + rangeCount k es names := by
  rw [rangeCount, List.map_cons, List.count_cons, rangeCount, List.count_singleton]
  omega

theorem rangeCount_append (es es' : List Expr) (names names' : List Name) :
    rangeCount k (es ++ es') (names ++ names') = rangeCount k es names + rangeCount k es' names' := by
  unfold rangeCount
  rw [Expr.allKeys_append, List.map_append, List.count_append, List.count_append]
  omega

mutual

theorem Stmt.count_keys : ∀ s : Stmt, s.keys.count k = rangeCount k s.exprs s.declarations
  | .let _ _ name _ none => by
    rw [Stmt.exprs, Stmt.declarations, rangeCount_name]
    rfl
  | .let _ _ name _ (some value) => by
    rw [Stmt.keys, List.count_cons, Stmt.exprs, Stmt.declarations, rangeCount_name,
      List.count_singleton, Nat.add_comm]
    rw [Option.toList_some, rangeCount_expr, rangeCount_nil]
    rfl
  | .assign _ _ place value => by
    rw [Stmt.keys, List.count_append, Stmt.exprs, Stmt.declarations, rangeCount_expr,
      rangeCount_expr, rangeCount_nil, Nat.add_zero]
  | .if _ condition body none => by
    rw [Stmt.keys, Block.optionalKeys, List.append_nil, List.count_append, body.count_keys,
      Stmt.exprs, Stmt.declarations, rangeCount_expr]
  | .if _ condition body (some otherwise) => by
    rw [Stmt.keys, Block.optionalKeys, List.count_append, List.count_append, body.count_keys,
      otherwise.count_keys, Stmt.exprs, Stmt.declarations, rangeCount_expr, rangeCount_append]
  | .for _ counter start stop _ body => by
    rw [Stmt.keys, List.count_cons, List.count_append, List.count_append, body.count_keys,
      Stmt.exprs, Stmt.declarations, rangeCount_name, rangeCount_expr, rangeCount_expr,
      List.count_singleton, Nat.add_comm]
  | .while _ condition body => by
    rw [Stmt.keys, List.count_append, body.count_keys, Stmt.exprs, Stmt.declarations,
      rangeCount_expr]
  | .loop _ body | .nested _ body => body.count_keys
  | .jump .. => rfl
  | .eval _ value => by
    rw [Stmt.keys, Stmt.exprs, Stmt.declarations, rangeCount_expr, rangeCount_nil, Nat.add_zero]

theorem Block.count_keys : ∀ b : Block, b.keys.count k = rangeCount k b.exprs b.declarations
  | ⟨_, stmts⟩ => Stmt.count_allKeys stmts

theorem Stmt.count_allKeys : ∀ stmts : List Stmt, (Stmt.allKeys stmts).count k =
    rangeCount k (Stmt.allExprs stmts) (Stmt.allDeclarations stmts)
  | [] => rfl
  | s :: stmts => by
    rw [Stmt.allKeys, List.count_append, s.count_keys, Stmt.count_allKeys stmts, Stmt.allExprs,
      Stmt.allDeclarations, rangeCount_append]

end

end

/-- The ranges under which a closure keeps its names and types are those of its expressions and of its
declared names. -/
theorem Closure.keys_perm (c : Closure) :
    c.keys.Perm (c.parts.map Expr.span ++ c.declarations.map Name.span) := by
  refine List.perm_iff_count.mpr fun k => ?_
  have hbody := c.body.count_keys k
  unfold rangeCount at hbody
  rw [Expr.allKeys_eq] at hbody
  simp only [Closure.keys, Closure.parts, Closure.declarations, List.map_cons, List.count_append,
    List.count_cons]
  omega

/-! ### Layout of the parts -/

theorem Expr.AllLaid.row : ∀ {lo hi : Nat} {es : List Expr}, Expr.AllLaid lo hi es →
    (∀ e ∈ es, e.Laid) ∧ Row lo hi (es.map Expr.span)
  | _, _, [], h => ⟨nofun, Nat.le_of_lt h⟩
  | _, _, _ :: _, ⟨he, hlo, hes⟩ =>
    ⟨List.forall_mem_cons.mpr ⟨he, hes.row.1⟩, Nat.le_of_lt hlo, he.start_lt_stop, hes.row.2⟩

/-- The children of an expression are laid out one behind the other in its range. -/
theorem Expr.Laid.row {e : Expr} (h : e.Laid) : (∀ x ∈ e.children, x.Laid) ∧
    Row e.span.start e.span.stop (e.children.map Expr.span) := by
  have hproper := h.start_lt_stop
  cases e with
  | literal | name | path => exact ⟨nofun, Nat.le_of_lt hproper⟩
  | unary _ _ e =>
    obtain ⟨he, hstart, hstop⟩ := h
    exact ⟨List.forall_mem_singleton.mpr he, Nat.le_of_lt hstart, he.start_lt_stop, hstop⟩
  | paren _ e =>
    obtain ⟨he, hstart, hstop⟩ := h
    exact ⟨List.forall_mem_singleton.mpr he, Nat.le_of_lt hstart, he.start_lt_stop,
      Nat.le_of_lt hstop⟩
  | cast _ e type =>
    obtain ⟨he, hstart, htype⟩ := h
    exact ⟨List.forall_mem_singleton.mpr he, hstart, he.start_lt_stop,
      Nat.le_of_succ_le (Nat.le_of_lt htype.lt)⟩
  | field _ e member =>
    obtain ⟨he, hstart, hmember⟩ := h
    exact ⟨List.forall_mem_singleton.mpr he, hstart, he.start_lt_stop,
      Nat.le_of_succ_le (Nat.le_of_lt hmember.lt)⟩
  | binary _ _ l r =>
    obtain ⟨hl, hr, hstart, hmid, hstop⟩ := h
    exact ⟨forall_mem_pair.mpr ⟨hl, hr⟩, hstart, hl.start_lt_stop, Nat.le_of_lt hmid,
      hr.start_lt_stop, hstop⟩
  | index _ base i =>
    obtain ⟨hbase, hi, hstart, hmid, hstop⟩ := h
    exact ⟨forall_mem_pair.mpr ⟨hbase, hi⟩, hstart, hbase.start_lt_stop, Nat.le_of_lt hmid,
      hi.start_lt_stop, Nat.le_of_lt hstop⟩
  | method _ e member args =>
    obtain ⟨he, hstart, ⟨hlo, hmember, _⟩, hargs⟩ := h
    have hmid : e.span.stop ≤ member.span.stop :=
      Nat.le_trans (Nat.le_of_succ_le hlo) (Nat.le_of_lt hmember)
    exact ⟨List.forall_mem_cons.mpr ⟨he, hargs.row.1⟩, hstart, he.start_lt_stop,
      hargs.row.2.mono hmid (Nat.le_refl _)⟩
  | call _ _ callee args =>
    obtain ⟨⟨hstart, hcallee, _⟩, hargs⟩ := h
    exact ⟨hargs.row.1,
      hargs.row.2.mono (Nat.le_trans hstart (Nat.le_of_lt hcallee)) (Nat.le_refl _)⟩
  | tuple _ items => exact Expr.AllLaid.row h
  | choice _ condition yes no =>
    obtain ⟨hcondition, hyes, hno, hstart, hmid, hmid', hstop⟩ := h
    exact ⟨List.forall_mem_cons.mpr ⟨hcondition, forall_mem_pair.mpr ⟨hyes, hno⟩⟩,
      Nat.le_of_lt hstart, hcondition.start_lt_stop, Nat.le_of_lt hmid, hyes.start_lt_stop,
      Nat.le_of_lt hmid', hno.start_lt_stop, hstop⟩

theorem Expr.Laid.part {e x : Expr} (h : e.Laid) (hx : x.Part e) : x.Laid := by
  induction hx using Relation.ReflTransGen.head_induction_on with
  | refl => exact h
  | head hx _ ih => exact ih.row.1 _ hx

/-- The range of a child is a part of the range of its parent. -/
theorem Expr.Laid.within {e x : Expr} (h : e.Laid) (hx : x ∈ e.children) : x.span.Within e.span := by
  obtain ⟨hstart, _, hstop⟩ := h.row.2.between x.span (List.mem_map_of_mem hx)
  refine ⟨hstart, hstop, fun heq => ?_⟩
  have hnodup := h.apart.nodup
  rw [e.keys_eq_cons, List.nodup_cons] at hnodup
  exact hnodup.1 (heq ▸ Expr.span_mem_allKeys hx)

mutual

/-- The expressions of a statement that are inside of no other one are laid out one behind the other
in its range. -/
theorem Stmt.Laid.row : ∀ {s : Stmt}, s.Laid → s.span.Proper →
    (∀ e ∈ s.exprs, e.Laid) ∧ Row s.span.start s.span.stop (s.exprs.map Expr.span)
  | .let _ _ _ _ none, _, hproper => ⟨nofun, Nat.le_of_lt hproper⟩
  | .let s _ name _ (some e), ⟨⟨hlo, hname, _⟩, _, hvalue⟩, _ => by
    obtain ⟨he, hmid, hstop⟩ := hvalue e rfl
    unfold Span.Proper at hname
    have hstart : s.start ≤ e.span.start := by omega
    exact ⟨List.forall_mem_singleton.mpr he, hstart, he.start_lt_stop, hstop⟩
  | .assign .., ⟨hplace, hvalue, hstart, hmid, hstop⟩, _ =>
    ⟨forall_mem_pair.mpr ⟨hplace, hvalue⟩, hstart, hplace.start_lt_stop, Nat.le_of_lt hmid,
      hvalue.start_lt_stop, hstop⟩
  | .if _ condition body none, ⟨hcondition, hbody, hstart, hmid, hstop⟩, _ =>
    ⟨List.forall_mem_cons.mpr ⟨hcondition, hbody.row.1⟩, Nat.le_of_lt hstart,
      hcondition.start_lt_stop, hbody.row.2.mono hmid hstop⟩
  | .if _ condition body (some otherwise),
      ⟨hcondition, hbody, hotherwise, hstart, hmid, hmid', hstop⟩, _ => by
    refine ⟨List.forall_mem_cons.mpr ⟨hcondition, ?_⟩, Nat.le_of_lt hstart,
      hcondition.start_lt_stop, ?_⟩
    · exact List.forall_mem_append.mpr ⟨hbody.row.1, hotherwise.row.1⟩
    · rw [List.map_append]
      exact (hbody.row.2.mono hmid hmid').append (hotherwise.row.2.mono (Nat.le_refl _) hstop)
  | .for _ _ start stop _ body, ⟨hlo, hhi, hbody, hcounter, hmid, hmid', hstop⟩, _ =>
    ⟨List.forall_mem_cons.mpr ⟨hlo, List.forall_mem_cons.mpr ⟨hhi, hbody.row.1⟩⟩,
      Nat.le_of_succ_le (Nat.le_of_lt hcounter.lt), hlo.start_lt_stop, Nat.le_of_lt hmid,
      hhi.start_lt_stop, hbody.row.2.mono hmid' hstop⟩
  | .while .., ⟨hcondition, hbody, hstart, hmid, hstop⟩, _ =>
    ⟨List.forall_mem_cons.mpr ⟨hcondition, hbody.row.1⟩, Nat.le_of_lt hstart,
      hcondition.start_lt_stop, hbody.row.2.mono hmid hstop⟩
  | .loop .., ⟨hbody, hstart, hstop⟩, _ =>
    ⟨hbody.row.1, hbody.row.2.mono (Nat.le_of_lt hstart) hstop⟩
  | .jump .., _, hproper => ⟨nofun, Nat.le_of_lt hproper⟩
  | .eval _ value, ⟨hvalue, hs⟩, _ => by
    subst hs
    exact ⟨List.forall_mem_singleton.mpr hvalue, Nat.le_refl _, hvalue.start_lt_stop,
      Nat.le_refl _⟩
  | .nested _ body, ⟨hbody, hs⟩, _ => by
    subst hs
    exact hbody.row

theorem Block.Laid.row : ∀ {b : Block}, b.Laid →
    (∀ e ∈ b.exprs, e.Laid) ∧ Row b.span.start b.span.stop (b.exprs.map Expr.span)
  | ⟨_, _⟩, h => h.2.row

theorem Stmt.AllLaid.row : ∀ {lo hi : Nat} {stmts : List Stmt}, Stmt.AllLaid lo hi stmts →
    (∀ e ∈ Stmt.allExprs stmts, e.Laid) ∧ Row lo hi ((Stmt.allExprs stmts).map Expr.span)
  | _, _, [], h => ⟨nofun, h⟩
  | lo, hi, s :: stmts, ⟨hs, hproper, hlo, hstmts⟩ => by
    obtain ⟨hlaid, hrow⟩ := hs.row hproper
    refine ⟨List.forall_mem_append.mpr ⟨hlaid, hstmts.row.1⟩, ?_⟩
    rw [Stmt.allExprs, List.map_append]
    exact (hrow.mono hlo (Nat.le_refl _)).append hstmts.row.2

end

/-! ### Ranges of a closure -/

/-- Whether the ranges of a closure tell its parts apart and lie in the source as the parts do. -/
structure Closure.Ranged (c : Closure) : Prop where
  /-- No two expressions have one range, nor do two declared names, nor a name and an expression. -/
  distinct : (c.parts.map Expr.span ++ c.declarations.map Name.span).Nodup
  /-- No range of an expression is empty. -/
  proper : ∀ e ∈ c.parts, e.span.Proper
  within : ∀ e ∈ c.parts, ∀ x ∈ e.children, x.span.Within e.span
  /-- The parts of an expression have no byte in common and stand in the order of the tree. -/
  siblings : ∀ e ∈ c.parts, (e.children.map Expr.span).Pairwise Span.Before
  /-- Neither have the expressions of the statements. -/
  outermost : (c.body.exprs.map Expr.span).Pairwise Span.Before

/-- The ranges of an accepted closure identify its expressions and its declared names. They nest as the
expressions do, also where the two characters of a shift close two types and where a choice ends in
front of its last brace. -/
theorem Closure.ranged_of_parse {source : String} {c : Closure} (h : Closure.parse source = .ok c) :
    c.Ranged := by
  obtain ⟨hi, hlaid⟩ := Closure.laid_of_parse h
  obtain ⟨-, -, -, hbody, -⟩ := id hlaid
  have hparts : ∀ e ∈ c.parts, e.Laid := by
    intro e he
    rw [Closure.parts, Expr.allParts_eq_flatMap] at he
    obtain ⟨x, hx, he⟩ := List.mem_flatMap.mp he
    exact (hbody.row.1 x hx).part (Expr.mem_parts.mp he)
  exact
    { distinct := c.keys_perm.nodup_iff.mp hlaid.nodup
      proper := fun e he => (hparts e he).start_lt_stop
      within := fun e he x hx => (hparts e he).within hx
      siblings := fun e he => (hparts e he).row.2.before
      outermost := hbody.row.2.before }

/-- A kernel with a choice, whose range has no last brace, and with two types that a shift closes. -/
def stairs : String :=
  "|ids| \x7b for i in 0..n \x7b let v = if (a) \x7b b as Pair<Pair<f32>> \x7d else \x7b p.xz \x7d; \x7d \x7d"

theorem Closure.ranged_of_parse_stairs : ∃ c, Closure.parse stairs = .ok c ∧
    c.parts.map Expr.span = [⟨17, 18⟩, ⟨20, 21⟩, ⟨32, 75⟩, ⟨35, 38⟩, ⟨36, 37⟩, ⟨41, 61⟩, ⟨41, 42⟩,
      ⟨71, 75⟩, ⟨71, 72⟩] ∧
    c.declarations.map Name.span = [⟨1, 4⟩, ⟨12, 13⟩, ⟨28, 29⟩] ∧ c.Ranged := by
  have hspans : (Closure.parse stairs).toOption.map (fun c =>
      (c.parts.map Expr.span, c.declarations.map Name.span)) =
      some ([⟨17, 18⟩, ⟨20, 21⟩, ⟨32, 75⟩, ⟨35, 38⟩, ⟨36, 37⟩, ⟨41, 61⟩, ⟨41, 42⟩, ⟨71, 75⟩,
        ⟨71, 72⟩], [⟨1, 4⟩, ⟨12, 13⟩, ⟨28, 29⟩]) := by
    decide +kernel
  obtain ⟨c, hc, heq⟩ := Option.map_eq_some_iff.mp hspans
  obtain ⟨hparts, hnames⟩ := Prod.mk.inj heq
  have hparse := eq_ok_of_toOption hc
  exact ⟨c, hparse, hparts, hnames, Closure.ranged_of_parse hparse⟩

end ComputeKernel
