import ComputeKernel.Proofs.Shader.Identifiers
import Mathlib.Logic.Function.Basic

/-!
Runs of shader code. What expressions come to and what assignments do is left to a machine. It is asked
that an expression depends on its variables and, if it takes elements, on the memory, and that an
assignment changes no variable but those at the root of its target. Integers are words of 32 bits that
wrap around.
-/

namespace ComputeKernel.Shader

/-! ### Parts of code -/

mutual

/-- Whether an expression takes elements, which are in the memory. -/
def Expr.takesElements : Expr → Bool
  | .literal _ | .var _ => false
  | .paren e | .unary _ e | .cast _ e | .member e _ => e.takesElements
  | .binary _ l r => l.takesElements || r.takesElements
  | .index .. => true
  | .call _ args => Expr.anyTakesElements args
  | .choice c y n => c.takesElements || (y.takesElements || n.takesElements)

def Expr.anyTakesElements : List Expr → Bool
  | [] => false
  | e :: es => e.takesElements || Expr.anyTakesElements es

end

theorem Expr.takesElements_atLeast (least : Nat) (e : Expr) :
    (e.atLeast least).takesElements = e.takesElements := by
  unfold atLeast
  split <;> rfl

/-- The variables at the root of a target. -/
def Expr.roots : Expr → List String
  | .var name => [name]
  | .paren e | .member e _ | .index e _ => e.roots
  | .choice _ y n => y.roots ++ n.roots
  | .literal _ | .unary .. | .binary .. | .cast .. | .call .. => []

theorem Expr.roots_atLeast (least : Nat) (e : Expr) : (e.atLeast least).roots = e.roots := by
  unfold atLeast
  split <;> rfl

mutual

/-- The variables that a statement sets. -/
def Stmt.changed : Stmt → List String
  | .declare _ name _ => [name]
  | .assign target _ _ => target.roots
  | .branch _ body none => Stmt.allChanged body
  | .branch _ body (some otherwise) => Stmt.allChanged body ++ Stmt.allChanged otherwise
  | .count _ counter _ _ _ body => counter :: Stmt.allChanged body
  | .while _ body | .nested body => Stmt.allChanged body
  | .jump _ | .eval _ => []

def Stmt.allChanged : List Stmt → List String
  | [] => []
  | s :: ss => s.changed ++ Stmt.allChanged ss

end

theorem Stmt.allChanged_singleton (s : Stmt) : allChanged [s] = s.changed := List.append_nil _

theorem Stmt.allChanged_append (ss ts : List Stmt) :
    allChanged (ss ++ ts) = allChanged ss ++ allChanged ts := by
  induction ss with
  | nil => rfl
  | cons s ss ih => rw [List.cons_append, allChanged, allChanged, ih, List.append_assoc]

mutual

def Stmt.jumps : Stmt → List Jump
  | .jump kind => [kind]
  | .branch _ body none => Stmt.allJumps body
  | .branch _ body (some otherwise) => Stmt.allJumps body ++ Stmt.allJumps otherwise
  | .count _ _ _ _ _ body | .while _ body | .nested body => Stmt.allJumps body
  | .declare .. | .assign .. | .eval _ => []

def Stmt.allJumps : List Stmt → List Jump
  | [] => []
  | s :: ss => s.jumps ++ Stmt.allJumps ss

end

theorem Stmt.allJumps_append (ss ts : List Stmt) :
    allJumps (ss ++ ts) = allJumps ss ++ allJumps ts := by
  induction ss with
  | nil => rfl
  | cons s ss ih => rw [List.cons_append, allJumps, allJumps, ih, List.append_assoc]

/-! ### Machines -/

/-- The values of all variables, which for a buffer say where its elements are, and the elements. -/
structure State (Value Memory : Type) where
  vars : String → Value
  memory : Memory

def State.set {Value Memory : Type} (s : State Value Memory) (x : String) (v : Value) :
    State Value Memory :=
  { s with vars := Function.update s.vars x v }

theorem State.vars_set_of_ne {Value Memory : Type} {s : State Value Memory} {x y : String} (h : y ≠ x)
    (v : Value) : (s.set x v).vars y = s.vars y :=
  Function.update_of_ne h _ _

structure Machine (Value Memory : Type) where
  eval : State Value Memory → Expr → Value
  store : State Value Memory → Expr → Option BinaryOp → Value → State Value Memory
  isTrue : Value → Prop
  word : Value → BitVec 32
  ofWord : BitVec 32 → Value
  eval_var : ∀ s x, eval s (.var x) = s.vars x
  eval_paren : ∀ s e, eval s (.paren e) = eval s e
  eval_congr : ∀ s t e, (∀ x ∈ e.variables, s.vars x = t.vars x) →
    (e.takesElements → s.memory = t.memory) → eval s e = eval t e
  vars_store : ∀ s target op v x, x ∉ target.roots → (store s target op v).vars x = s.vars x
  word_ofWord : ∀ w, word (ofWord w) = w

/-- A counting loop behind its start. -/
structure CountingLoop where
  type : String
  counter : String
  inclusive : Bool
  bound : Expr
  body : List Stmt

/-- The number that a word stands for in a type that counts. -/
def read (type : String) (w : BitVec 32) : Int := if type = "uint" then w.toNat else w.toInt

variable {Value Memory : Type}

namespace Machine

variable (M : Machine Value Memory) (s : State Value Memory) (l : CountingLoop)

theorem eval_atLeast (least : Nat) (e : Expr) : M.eval s (e.atLeast least) = M.eval s e := by
  unfold Expr.atLeast
  split
  · exact M.eval_paren s e
  · rfl

/-- A variable that an expression does not have can be set. -/
theorem eval_set {x : String} {e : Expr} (h : x ∉ e.variables) (v : Value) :
    M.eval (s.set x v) e = M.eval s e :=
  M.eval_congr _ _ e (fun _ hy => State.vars_set_of_ne (ne_of_mem_of_not_mem hy h) v) fun _ => rfl

def counter : BitVec 32 := M.word (s.vars l.counter)

def bound : BitVec 32 := M.word (M.eval s l.bound)

/-- The test in front of each run of the body. Both sides are of the type of the counter. -/
def Tests : Prop :=
  if l.inclusive then read l.type (M.counter s l) ≤ read l.type (M.bound s l)
  else read l.type (M.counter s l) < read l.type (M.bound s l)

/-- The state behind a run of the body, with the counter one further. -/
def advance : State Value Memory := s.set l.counter (M.ofWord (M.counter s l + 1))

theorem counter_advance : M.counter (M.advance s l) l = M.counter s l + 1 := by
  simp only [counter, advance, State.set, Function.update_self, M.word_ofWord]

end Machine

/-! ### Runs -/

/-- Whether a loop goes on behind a run of its body that ends with or without a jump. -/
def Resumes (o : Option Jump) : Prop := o = none ∨ o = some .continue

/-- What is left of a jump once the loop around it is left. -/
def outward : Option Jump → Option Jump
  | some .break => none
  | o => o

/-- Code to be run. Of a counting loop the runs of the body are listed by the values of the counter. -/
inductive Task where
  | stmt (s : Stmt)
  | stmts (ss : List Stmt)
  | passes (l : CountingLoop) (values : List (BitVec 32))

/-- Runs that come to an end, with the state in the end and the jump that they end with. -/
inductive Runs (M : Machine Value Memory) :
    State Value Memory → Task → State Value Memory → Option Jump → Prop where
  | declare {s type x} (v : Value) : Runs M s (.stmt (.declare type x none)) (s.set x v) none
  | set {s type x e} : Runs M s (.stmt (.declare type x (some e))) (s.set x (M.eval s e)) none
  | assign {s target op e} :
      Runs M s (.stmt (.assign target op e)) (M.store s target op (M.eval s e)) none
  | branch {s t o c body otherwise} : M.isTrue (M.eval s c) → Runs M s (.stmts body) t o →
      Runs M s (.stmt (.branch c body otherwise)) t o
  | skip {s c body} : ¬ M.isTrue (M.eval s c) → Runs M s (.stmt (.branch c body none)) s none
  | otherwise {s t o c body otherwise} : ¬ M.isTrue (M.eval s c) → Runs M s (.stmts otherwise) t o →
      Runs M s (.stmt (.branch c body (some otherwise))) t o
  | count {s t o type counter start inclusive bound body values} :
      Runs M (s.set counter (M.eval s start))
        (.passes ⟨type, counter, inclusive, bound, body⟩ values) t o →
      Runs M s (.stmt (.count type counter start inclusive bound body)) t o
  | done {s l} : ¬ M.Tests s l → Runs M s (.passes l []) s none
  | pass {s s₁ t o o' l values} : M.Tests s l → Runs M s (.stmts l.body) s₁ o → Resumes o →
      Runs M (M.advance s₁ l) (.passes l values) t o' →
      Runs M s (.passes l (M.counter s l :: values)) t o'
  | broken {s t o l} : M.Tests s l → Runs M s (.stmts l.body) t o → ¬ Resumes o →
      Runs M s (.passes l [M.counter s l]) t (outward o)
  | whileDone {s c body} : ¬ M.isTrue (M.eval s c) → Runs M s (.stmt (.while c body)) s none
  | whilePass {s s₁ t o o' c body} : M.isTrue (M.eval s c) → Runs M s (.stmts body) s₁ o →
      Resumes o → Runs M s₁ (.stmt (.while c body)) t o' → Runs M s (.stmt (.while c body)) t o'
  | whileBroken {s t o c body} : M.isTrue (M.eval s c) → Runs M s (.stmts body) t o →
      ¬ Resumes o → Runs M s (.stmt (.while c body)) t (outward o)
  | jump {s kind} : Runs M s (.stmt (.jump kind)) s (some kind)
  | eval {s e} : Runs M s (.stmt (.eval e)) s none
  | nested {s t o body} : Runs M s (.stmts body) t o → Runs M s (.stmt (.nested body)) t o
  | nil {s} : Runs M s (.stmts []) s none
  | cons {s s₁ t o st sts} : Runs M s (.stmt st) s₁ none → Runs M s₁ (.stmts sts) t o →
      Runs M s (.stmts (st :: sts)) t o
  | leave {s t kind st sts} : Runs M s (.stmt st) t (some kind) →
      Runs M s (.stmts (st :: sts)) t (some kind)

def Task.changed : Task → List String
  | .stmt s => s.changed
  | .stmts ss => Stmt.allChanged ss
  | .passes l _ => l.counter :: Stmt.allChanged l.body

def Task.jumps : Task → List Jump
  | .stmt s => s.jumps
  | .stmts ss => Stmt.allJumps ss
  | .passes l _ => Stmt.allJumps l.body

variable {M : Machine Value Memory} {s t : State Value Memory} {task : Task} {o : Option Jump}

theorem runs_nil : Runs M s (.stmts []) t o ↔ t = s ∧ o = none := by
  refine ⟨fun h => ?_, ?_⟩
  · cases h
    exact ⟨rfl, rfl⟩
  · rintro ⟨rfl, rfl⟩
    exact .nil

theorem runs_declare {type x : String} {e : Expr} :
    Runs M s (.stmts [.declare type x (some e)]) t none ↔ t = s.set x (M.eval s e) := by
  refine ⟨fun h => ?_, ?_⟩
  · cases h with
    | cons hfirst hrest =>
      cases hfirst
      exact (runs_nil.mp hrest).1
  · rintro rfl
    exact .cons .set .nil

/-- A run leaves alone what its code does not set. -/
theorem Runs.vars_eq (h : Runs M s task t o) : ∀ x ∉ task.changed, t.vars x = s.vars x := by
  induction h with
  | declare | set => exact fun x hx => State.vars_set_of_ne (mt List.mem_singleton.mpr hx) _
  | assign => exact fun x hx => M.vars_store _ _ _ _ _ hx
  | @branch _ _ _ _ _ otherwise _ _ ih =>
    intro x hx
    cases otherwise with
    | none => exact ih x hx
    | some _ => exact ih x fun h => hx (List.mem_append_left _ h)
  | otherwise _ _ ih => exact fun x hx => ih x fun h => hx (List.mem_append_right _ h)
  | skip | done | whileDone | jump | eval | nil => exact fun _ _ => rfl
  | count _ ih =>
    exact fun x hx => (ih x hx).trans (State.vars_set_of_ne (List.ne_of_not_mem_cons hx) _)
  | pass _ _ _ _ ihBody ih =>
    intro x hx
    have hrest := (ih x hx).trans (State.vars_set_of_ne (List.ne_of_not_mem_cons hx) _)
    exact hrest.trans (ihBody x (List.not_mem_of_not_mem_cons hx))
  | broken _ _ _ ih => exact fun x hx => ih x (List.not_mem_of_not_mem_cons hx)
  | whilePass _ _ _ _ ihBody ih => exact fun x hx => (ih x hx).trans (ihBody x hx)
  | whileBroken _ _ _ ih | nested _ ih => exact ih
  | cons _ _ ihFirst ihRest =>
    intro x hx
    obtain ⟨hfirst, hrest⟩ := not_or.mp (mt List.mem_append.mpr hx)
    exact (ihRest x hrest).trans (ihFirst x hfirst)
  | leave _ ih => exact fun x hx => ih x fun h => hx (List.mem_append_left _ h)

/-- Code without jumps is run to its end. -/
theorem Runs.eq_none (h : Runs M s task t o) (hjumps : task.jumps = []) : o = none := by
  induction h with
  | @branch _ _ _ _ _ otherwise _ _ ih =>
    cases otherwise with
    | none => exact ih hjumps
    | some _ => exact ih (List.append_eq_nil_iff.mp hjumps).1
  | otherwise _ _ ih => exact ih (List.append_eq_nil_iff.mp hjumps).2
  | declare | set | assign | skip | done | whileDone | eval | nil => rfl
  | jump => cases hjumps
  | pass _ _ _ _ _ ih | whilePass _ _ _ _ _ ih => exact ih hjumps
  | broken _ _ hleaves ih | whileBroken _ _ hleaves ih => exact (hleaves (.inl (ih hjumps))).elim
  | count _ ih | nested _ ih => exact ih hjumps
  | cons _ _ _ ihRest => exact ihRest (List.append_eq_nil_iff.mp hjumps).2
  | leave _ ih => exact ih (List.append_eq_nil_iff.mp hjumps).1

end ComputeKernel.Shader
