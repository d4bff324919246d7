import ComputeKernel.Proofs.Reading.Meaning
import ComputeKernel.Proofs.Shader.Body
import ComputeKernel.Proofs.Typing.Naming

/-!
The text of a translated expression. Whatever has been translated before, each expression of a
checked closure is translated to a text that C's grammar reads in one way, which is the tree that the
expression stands for. The bitwise operators, which bind tighter than comparisons in closures and
looser in C, keep their operands, and so does a minus in front of another one.
-/

namespace ComputeKernel

/-! ### Nodes -/

mutual

/-- An expression and those inside it. A tuple and its items are no expressions of their own, but
belong to the index that picks from a matrix. -/
def Expr.nodes : Expr → List Expr
  | .literal span v => [.literal span v]
  | .name span text => [.name span text]
  | .path span p => [.path span p]
  | .unary span op e => .unary span op e :: e.nodes
  | .binary span op l r => .binary span op l r :: (l.nodes ++ r.nodes)
  | .cast span e type => .cast span e type :: e.nodes
  | .field span e member => .field span e member :: e.nodes
  | .method span e member args => .method span e member args :: (e.nodes ++ Expr.allNodes args)
  | .call span callee calleeSpan args => .call span callee calleeSpan args :: Expr.allNodes args
  | .index span base i => .index span base i :: (base.nodes ++ i.nodes)
  | .tuple _ _ => []
  | .paren span e => .paren span e :: e.nodes
  | .choice span condition yes no =>
    .choice span condition yes no :: (condition.nodes ++ (yes.nodes ++ no.nodes))

def Expr.allNodes : List Expr → List Expr
  | [] => []
  | e :: es => e.nodes ++ Expr.allNodes es

end

mutual

/-- The expressions of a statement and those inside them. -/
def Stmt.nodes : Stmt → List Expr
  | .let _ _ _ _ value =>
    match value with
    | none => []
    | some e => e.nodes
  | .assign _ _ place value => place.nodes ++ value.nodes
  | .if _ condition body otherwise =>
    condition.nodes ++ (body.nodes ++
      match otherwise with
      | none => []
      | some b => b.nodes)
  | .for _ _ start stop _ body => start.nodes ++ (stop.nodes ++ body.nodes)
  | .while _ condition body => condition.nodes ++ body.nodes
  | .loop _ body | .nested _ body => body.nodes
  | .jump .. => []
  | .eval _ e => e.nodes

def Block.nodes : Block → List Expr
  | ⟨_, stmts⟩ => Stmt.allNodes stmts

def Stmt.allNodes : List Stmt → List Expr
  | [] => []
  | s :: ss => s.nodes ++ Stmt.allNodes ss

end

namespace Reading

open Check (Covers Covered CoversStmt StmtJudgment)

variable {catalog : Catalog} {m : Model}

/-- Whether an expression is one that has a reading: the model covers it and its names are words. -/
def Readable (catalog : Catalog) (m : Model) (e : Expr) : Prop :=
  e.Spelled ∧ ∃ t, Covers catalog m (.expr e t)

/-- What is said of the nodes of what the model covers. -/
def NodesReadable (catalog : Catalog) (m : Model) : Covered → Prop
  | .expr e _ => e.Spelled → ∀ x ∈ e.nodes, Readable catalog m x
  | .exprs es => Expr.AllSpelled es → ∀ x ∈ Expr.allNodes es, Readable catalog m x

theorem nodesReadable_of_covers {c : Covered} (h : Covers catalog m c) :
    NodesReadable catalog m c := by
  induction h with
  | literal htype =>
    exact fun hspelled => List.forall_mem_singleton.mpr ⟨hspelled, _, .literal htype⟩
  | name hreferent hrefers htype =>
    exact fun hspelled => List.forall_mem_singleton.mpr ⟨hspelled, _, .name hreferent hrefers htype⟩
  | path hreferent hrefers htype =>
    exact fun hspelled => List.forall_mem_singleton.mpr ⟨hspelled, _, .path hreferent hrefers htype⟩
  | unary he hop htype ih =>
    exact fun hspelled => List.forall_mem_cons.mpr ⟨⟨hspelled, _, .unary he hop htype⟩, ih hspelled⟩
  | binary hl hr hop htype ihLeft ihRight =>
    exact fun hspelled => List.forall_mem_cons.mpr ⟨⟨hspelled, _, .binary hl hr hop htype⟩,
      List.forall_mem_append.mpr ⟨ihLeft hspelled.1, ihRight hspelled.2⟩⟩
  | cast he htarget htype ih =>
    exact fun hspelled => List.forall_mem_cons.mpr
      ⟨⟨hspelled, _, .cast he htarget htype⟩, ih hspelled⟩
  | field he hcomponent htype ih =>
    exact fun hspelled => List.forall_mem_cons.mpr
      ⟨⟨hspelled, _, .field he hcomponent htype⟩, ih hspelled.1⟩
  | swizzle he hswizzle htype ih =>
    exact fun hspelled => List.forall_mem_cons.mpr ⟨⟨hspelled, _, .swizzle he hswizzle htype⟩,
      List.forall_mem_append.mpr ⟨ih hspelled.1, nofun⟩⟩
  | element he hposition hrow hcolumn htype ih =>
    exact fun hspelled => List.forall_mem_cons.mpr
      ⟨⟨hspelled, _, .element he hposition hrow hcolumn htype⟩,
        List.forall_mem_append.mpr ⟨ih hspelled.1, nofun⟩⟩
  | method he hm hcount hargs htype ih ihArgs =>
    exact fun hspelled => List.forall_mem_cons.mpr
      ⟨⟨hspelled, _, .method he hm hcount hargs htype⟩,
        List.forall_mem_append.mpr ⟨ih hspelled.1, ihArgs hspelled.2.2⟩⟩
  | intrinsic howner hi hcount hargs htype ihArgs =>
    exact fun hspelled => List.forall_mem_cons.mpr
      ⟨⟨hspelled, _, .intrinsic howner hi hcount hargs htype⟩, ihArgs hspelled.2⟩
  | new howner hlast hshaped hscalar hargs htype ihArgs =>
    exact fun hspelled => List.forall_mem_cons.mpr
      ⟨⟨hspelled, _, .new howner hlast hshaped hscalar hargs htype⟩, ihArgs hspelled.2⟩
  | splat howner hlast hshaped hscalar hargs htype ihArgs =>
    exact fun hspelled => List.forall_mem_cons.mpr
      ⟨⟨hspelled, _, .splat howner hlast hshaped hscalar hargs htype⟩, ihArgs hspelled.2⟩
  | index hb hi hinteger helement htype ihBase ihIndex =>
    exact fun hspelled => List.forall_mem_cons.mpr
      ⟨⟨hspelled, _, .index hb hi hinteger helement htype⟩,
        List.forall_mem_append.mpr ⟨ihBase hspelled.1, ihIndex hspelled.2⟩⟩
  | matrixSwizzle hb hne hitems htype ih =>
    exact fun hspelled => List.forall_mem_cons.mpr
      ⟨⟨hspelled, _, .matrixSwizzle hb hne hitems htype⟩,
        List.forall_mem_append.mpr ⟨ih hspelled.1, nofun⟩⟩
  | paren he htype ih =>
    exact fun hspelled => List.forall_mem_cons.mpr ⟨⟨hspelled, _, .paren he htype⟩, ih hspelled⟩
  | choice hc hy hn htype ihCondition ihYes ihNo =>
    exact fun hspelled => List.forall_mem_cons.mpr ⟨⟨hspelled, _, .choice hc hy hn htype⟩,
      List.forall_mem_append.mpr ⟨ihCondition hspelled.1,
        List.forall_mem_append.mpr ⟨ihYes hspelled.2.1, ihNo hspelled.2.2⟩⟩⟩
  | nil => exact fun _ => nofun
  | cons _ _ ihFirst ihRest =>
    exact fun hspelled => List.forall_mem_append.mpr ⟨ihFirst hspelled.1, ihRest hspelled.2⟩

theorem Readable.nodes {e : Expr} (h : Readable catalog m e) :
    ∀ x ∈ e.nodes, Readable catalog m x := by
  obtain ⟨hspelled, t, hcovers⟩ := h
  exact nodesReadable_of_covers hcovers hspelled

def judgmentNodes : StmtJudgment → List Expr
  | .stmt st => st.nodes
  | .stmts sts => Stmt.allNodes sts
  | .block b => b.nodes

theorem nodesReadable_of_coversStmt {j : StmtJudgment} (h : CoversStmt catalog m j)
    (hj : j.Spelled) : ∀ x ∈ judgmentNodes j, Readable catalog m x := by
  induction h with
  | @«let» _ _ _ _ value _ hvalue =>
    cases value with
    | none => exact nofun
    | some e => exact Readable.nodes ⟨hj.2 e rfl, hvalue e rfl⟩
  | assign hplace hvalue _ =>
    exact List.forall_mem_append.mpr
      ⟨Readable.nodes ⟨hj.1, _, hplace⟩, Readable.nodes ⟨hj.2, _, hvalue⟩⟩
  | @«if» _ _ _ otherwise _ hcondition _ _ ihBody ihOtherwise =>
    cases otherwise with
    | none =>
      obtain ⟨hcondition', hbody', _⟩ := hj
      exact List.forall_mem_append.mpr ⟨Readable.nodes ⟨hcondition', _, hcondition⟩,
        List.forall_mem_append.mpr ⟨ihBody hbody', nofun⟩⟩
    | some b =>
      obtain ⟨hcondition', hbody', hotherwise'⟩ := hj
      exact List.forall_mem_append.mpr ⟨Readable.nodes ⟨hcondition', _, hcondition⟩,
        List.forall_mem_append.mpr ⟨ihBody hbody', ihOtherwise b rfl hotherwise'⟩⟩
  | «for» _ hstart hstop _ ihBody =>
    obtain ⟨_, hstart', hstop', hbody'⟩ := hj
    exact List.forall_mem_append.mpr ⟨Readable.nodes ⟨hstart', _, hstart⟩,
      List.forall_mem_append.mpr ⟨Readable.nodes ⟨hstop', _, hstop⟩, ihBody hbody'⟩⟩
  | «while» hcondition _ ihBody =>
    exact List.forall_mem_append.mpr ⟨Readable.nodes ⟨hj.1, _, hcondition⟩, ihBody hj.2⟩
  | loop _ ihBody | nested _ ihBody => exact ihBody hj
  | jump | nil => exact nofun
  | eval he => exact Readable.nodes ⟨hj, _, he⟩
  | cons _ _ ihFirst ihRest => exact List.forall_mem_append.mpr ⟨ihFirst hj.1, ihRest hj.2⟩
  | block _ ih => exact ih hj

/-! ### Runs -/

open Shader (Context Progress Lower StaticUse)

/-- The states that the translation of a body can be in: expressions of the body have been translated,
and names of loop bounds given out, in any order. -/
inductive Reached (body : CheckedBody) : Progress → Prop where
  | start : Reached body (.of body)
  | expr {s s' e c} : Reached body s → e ∈ body.closure.body.nodes →
      (Lower.expr (.of body .hlsl) e).run s = .ok (c, s') → Reached body s'
  | bound {s base} : Reached body s → Reached body { s with pool := (s.pool.allocate base).2 }

variable {body : CheckedBody}

theorem readable_of_mem_nodes {kernel source : String}
    (h : CheckedBody.of kernel source catalog = .ok body) {e : Expr}
    (he : e ∈ body.closure.body.nodes) : Readable body.catalog body.model e := by
  obtain ⟨_, hparse, _⟩ := CheckedBody.read_and_bound h
  exact nodesReadable_of_coversStmt (CheckedBody.complete h).body
    (Closure.spelled_of_parse hparse).body e he

theorem translates_of_readable {e : Expr} (h : Readable body.catalog body.model e) (s : Progress) :
    Lower.Yields (Lower.expr (.of body .hlsl) e) s fun c s' =>
      Shader.Advances (.of body .hlsl) s s' ∧ ∀ statics, s'.statics <+: statics →
        Shader.Lowers (.of body .hlsl) body.catalog statics (.expr e c) := by
  obtain ⟨_, t, hcovers⟩ := h
  exact Lower.translates_of_covers (Context.fits_of body .hlsl) hcovers s

theorem Reached.named {kernel source : String} (h : CheckedBody.of kernel source catalog = .ok body)
    {s : Progress} (hs : Reached body s) : ∀ u ∈ s.statics, u.Named (.of body .hlsl) := by
  induction hs with
  | start => exact nofun
  | @expr s s' e c _ he hrun ih =>
    obtain ⟨c', s'', hrun', hadvances, _⟩ := translates_of_readable (readable_of_mem_nodes h he) s
    rw [hrun] at hrun'
    cases hrun'
    exact hadvances.named ih
  | bound _ ih => exact ih

theorem worded_of {kernel source : String} (h : CheckedBody.of kernel source catalog = .ok body)
    {statics : List StaticUse} (hstatics : ∀ u ∈ statics, u.Named (.of body .hlsl)) :
    Worded (.of body .hlsl) body.catalog statics := by
  obtain ⟨_, hparse, hbind⟩ := CheckedBody.read_and_bound h
  have hlocals := Closure.named_of_bind (Closure.spelled_of_parse hparse) hbind
  refine ⟨rfl, rfl, fun id ident hident => ?_, fun field f ident hf hident hword => ?_, hstatics⟩
  · have hid : id < body.model.locals.length :=
      (Context.fits_of body .hlsl).locals ▸ (List.getElem?_eq_some_iff.mp hident).1
    have hbase : (body.model.locals.map (·.name))[id]? = some body.model.locals[id].name := by
      simp [hid]
    exact isName_allocateAll _ hbase hident (hlocals _ (List.getElem_mem hid))
  · have hbase : (body.catalog.fields.map (·.name))[field]? = some f.name := by
      simp [hf]
    exact isName_allocateAll _ hbase hident hword

/-- Whatever has been translated before, an expression of a checked body is translated to a text with
one reading in C, which is the tree that the expression stands for up to parentheses. -/
theorem reads_of_checked {kernel source : String}
    (h : CheckedBody.of kernel source catalog = .ok body) {e : Expr}
    (he : e ∈ body.closure.body.nodes) {s : Progress} (hs : Reached body s) :
    ∃ c s', (Lower.expr (.of body .hlsl) e).run s = .ok (c, s') ∧
      ∃ t, (∀ t', Reads c.text t' ↔ t' = t) ∧
        t.ungrouped = meaning (.of body .hlsl) s'.statics e := by
  have hreadable := readable_of_mem_nodes h he
  obtain ⟨c, s', hrun, hadvances, hlowers⟩ := translates_of_readable hreadable s
  have hworded := worded_of h (hadvances.named (hs.named h))
  obtain ⟨hclean, htree⟩ :=
    readsAs_of_lowers hworded (hlowers s'.statics (List.prefix_refl _)) hreadable.1
  exact ⟨c, s', hrun, tree c, reads_text_iff hclean, htree⟩

/-- A kernel with a mask and a comparison, and with two signs. -/
def maskKernel : Kernel where
  name := "Mask"
  source := "|ids| \x7b out[ids.x] = if a & b == - -c \x7b a \x7d else \x7b b \x7d; \x7d"
  catalog :=
    { fields := [⟨"a", "i32", false⟩, ⟨"b", "i32", false⟩, ⟨"c", "i32", false⟩,
        ⟨"out", "ReadWriteBuffer<i32>", false⟩] }

theorem exists_maskKernel_node : ∃ body,
    CheckedBody.of maskKernel.name maskKernel.source maskKernel.catalog = .ok body ∧
      ∃ e, e ∈ body.closure.body.nodes := by
  have hall : (CheckedBody.of maskKernel.name maskKernel.source maskKernel.catalog).toOption.any
      fun body => ! body.closure.body.nodes.isEmpty := by decide +kernel
  cases h : CheckedBody.of maskKernel.name maskKernel.source maskKernel.catalog with
  | error e =>
    rw [h] at hall
    cases hall
  | ok body =>
    rw [h] at hall
    refine ⟨body, rfl, List.exists_mem_of_ne_nil _ fun hnil => ?_⟩
    have hnodes : (! body.closure.body.nodes.isEmpty) = true := hall
    rw [hnil] at hnodes
    cases hnodes

theorem reads_of_checked_mask : ∃ body,
    CheckedBody.of maskKernel.name maskKernel.source maskKernel.catalog = .ok body ∧
      ∃ e ∈ body.closure.body.nodes, ∃ c s',
        (Lower.expr (.of body .hlsl) e).run (.of body) = .ok (c, s') ∧
          ∃ t, (∀ t', Reads c.text t' ↔ t' = t) ∧
            t.ungrouped = meaning (.of body .hlsl) s'.statics e := by
  obtain ⟨body, h, e, he⟩ := exists_maskKernel_node
  exact ⟨body, h, e, he, reads_of_checked h he .start⟩

end Reading

end ComputeKernel
