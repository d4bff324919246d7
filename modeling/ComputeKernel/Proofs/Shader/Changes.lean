import ComputeKernel.Proofs.Shader.Hygiene
import ComputeKernel.Proofs.Shader.Machine
import ComputeKernel.Proofs.Typing.Counters

/-!
What the code of a body changes. A variable that is set is that of a local which is declared there, of a
mutable local, of a buffer, or of the bound of a loop that is run there. The jumps are those of the
closure.
-/

namespace ComputeKernel

/-! ### Jumps of the closure -/

mutual

def Stmt.jumps : Stmt → List Jump
  | .jump _ kind => [kind]
  | .let .. | .assign .. | .eval .. => []
  | .if _ _ body none => body.jumps
  | .if _ _ body (some otherwise) => body.jumps ++ otherwise.jumps
  | .for _ _ _ _ _ body | .while _ _ body | .loop _ body | .nested _ body => body.jumps

def Block.jumps : Block → List Jump
  | ⟨_, stmts⟩ => Stmt.allJumps stmts

def Stmt.allJumps : List Stmt → List Jump
  | [] => []
  | s :: ss => s.jumps ++ Stmt.allJumps ss

end

def Check.StmtJudgment.jumps : StmtJudgment → List Jump
  | .stmt s => s.jumps
  | .stmts ss => Stmt.allJumps ss
  | .block b => b.jumps

namespace Shader

open Check (StmtJudgment ResolvesStmt Roots)

variable {ctx : Context} {catalog : Catalog} {statics : List StaticUse}
  {bounds bounds' : List (Nat × String)} {code : List Stmt} {j : StmtJudgment}

/-- The code of a statement has its jumps. -/
theorem LowersStmt.jumps (h : LowersStmt ctx catalog statics j code bounds) :
    Stmt.allJumps code = j.jumps := by
  induction h with
  | declare | set | assign | jump | eval | nil => rfl
  | ifOnly _ _ ih | «for» _ _ _ _ _ ih | hoisted _ _ _ _ _ _ ih | «while» _ _ ih | loop _ ih
  | nested _ ih => exact (List.append_nil _).trans ih
  | ifElse _ _ _ ihBody ihOtherwise =>
    exact (List.append_nil _).trans (congrArg₂ (· ++ ·) ihBody ihOtherwise)
  | cons _ _ ihFirst ihRest =>
    exact (Stmt.allJumps_append _ _).trans (congrArg₂ (· ++ ·) ihFirst ihRest)
  | block _ ih => exact ih

/-! ### Elements and roots -/

/-- Whether code takes no elements if what it comes from takes none. -/
def Outcome.KeepsOut : Outcome → Prop
  | .expr e c => e.indexed = [] → c.takesElements = false
  | .exprs es cs => ComputeKernel.Expr.allIndexed es = [] → Expr.anyTakesElements cs = false

theorem takesElements_unaryOperand (op : ComputeKernel.UnaryOp) (c : Expr) :
    (unaryOperand op c).takesElements = c.takesElements := by
  cases op with
  | neg =>
    simp only [unaryOperand]
    split <;> exact Expr.takesElements_atLeast _ _
  | not => exact Expr.takesElements_atLeast _ _

theorem Lowers.keepsOut {o : Outcome} (h : Lowers ctx catalog statics o) : o.KeepsOut := by
  induction h with
  | literal | name | path | nil => exact fun _ => rfl
  | paren _ ih | cast _ _ ih => exact ih
  | unary _ _ _ ih => exact fun hnone => (takesElements_unaryOperand _ _).trans (ih hnone)
  | binary _ _ ihLeft ihRight =>
    intro hnone
    obtain ⟨hl, hr⟩ := List.append_eq_nil_iff.mp hnone
    rw [Expr.takesElements, Expr.takesElements_atLeast, Expr.takesElements_atLeast, ihLeft hl,
      ihRight hr, Bool.or_false]
  | field _ _ _ _ ih => exact fun hnone => (Expr.takesElements_atLeast _ _).trans (ih hnone)
  | swizzle _ _ _ _ ih | element _ _ _ _ ih =>
    exact fun hnone => (Expr.takesElements_atLeast _ _).trans (ih (List.append_eq_nil_iff.mp hnone).1)
  | method _ _ _ _ ih ihArgs =>
    intro hnone
    obtain ⟨he, hargs⟩ := List.append_eq_nil_iff.mp hnone
    rw [Expr.takesElements, Expr.anyTakesElements, ih he, ihArgs hargs, Bool.or_false]
  | intrinsic _ _ _ ihArgs | new _ _ _ _ _ _ ihArgs => exact ihArgs
  | splat _ _ _ _ _ _ ih => exact fun hnone => ih (List.append_eq_nil_iff.mp hnone).1
  | index | matrixSwizzle => exact nofun
  | choice _ _ _ ihCondition ihYes ihNo =>
    intro hnone
    obtain ⟨hc, hrest⟩ := List.append_eq_nil_iff.mp hnone
    obtain ⟨hy, hn⟩ := List.append_eq_nil_iff.mp hrest
    rw [Expr.takesElements, ihCondition hc, ihYes hy, ihNo hn, Bool.or_false, Bool.or_false]
  | cons _ _ ihFirst ihRest =>
    intro hnone
    obtain ⟨he, hes⟩ := List.append_eq_nil_iff.mp hnone
    rw [Expr.anyTakesElements, ihFirst he, ihRest hes, Bool.or_false]

/-- Whether the variables at the root of code stand for what is at the root of an expression. -/
def Outcome.RootsNamed (ctx : Context) (statics : List StaticUse) : Outcome → Prop
  | .expr e c => e.IsRooted → ∀ x ∈ c.roots, ∃ span ∈ e.roots, ∃ r,
      ctx.model.referent? span = some r ∧ Lower.Identifies ctx statics r x
  | .exprs _ _ => True

theorem Lowers.roots_named {o : Outcome} (h : Lowers ctx catalog statics o) :
    o.RootsNamed ctx statics := by
  induction h with
  | literal | unary | binary | cast | intrinsic | new | splat => exact fun _ => nofun
  | nil | cons => trivial
  | name hr _ hident | path hr _ hident =>
    exact fun _ => List.forall_mem_singleton.mpr ⟨_, List.mem_singleton_self _, _, hr, hident⟩
  | paren _ ih => exact ih
  | swizzle | element | method => exact False.elim
  | field _ _ _ _ ih | index _ _ _ _ _ ih _ | matrixSwizzle _ _ _ _ _ ih =>
    intro hrooted
    rw [Expr.roots, Expr.roots_atLeast]
    exact ih hrooted
  | choice _ _ _ _ ihYes ihNo =>
    rintro ⟨hyes, hno⟩
    refine List.forall_mem_append.mpr ⟨fun x hx => ?_, fun x hx => ?_⟩
    · obtain ⟨span, hspan, hnamed⟩ := ihYes hyes x hx
      exact ⟨span, List.mem_append_left _ hspan, hnamed⟩
    · obtain ⟨span, hspan, hnamed⟩ := ihNo hno x hx
      exact ⟨span, List.mem_append_right _ hspan, hnamed⟩

/-! ### Changes -/

/-- Whether an entity is changed by code that declares the locals from `lo` to `hi`. -/
def Entity.Changed (catalog : Catalog) (m : Model) (lo hi : Nat) : Entity → Prop
  | .referent (.local id) => (lo ≤ id ∧ id < hi) ∨ ∃ l, m.local? id = some l ∧ l.mutable
  | .referent r => r.IsBuffer catalog
  | .bound id => lo ≤ id ∧ id < hi

theorem Entity.Changed.mono {m : Model} {lo lo' hi hi' : Nat} {entity : Entity}
    (h : entity.Changed catalog m lo' hi') (hlo : lo ≤ lo') (hhi : hi' ≤ hi) :
    entity.Changed catalog m lo hi := by
  match entity with
  | .referent (.local _) =>
    exact h.imp_left fun ⟨h₁, h₂⟩ => ⟨Nat.le_trans hlo h₁, Nat.lt_of_lt_of_le h₂ hhi⟩
  | .referent (.capture _) | .referent (.static _) => exact h
  | .bound _ => exact ⟨Nat.le_trans hlo h.1, Nat.lt_of_lt_of_le h.2 hhi⟩

theorem changed_of_isAssigned {m : Model} {r : Referent} (h : r.IsAssigned catalog m) (lo hi : Nat) :
    (Entity.referent r).Changed catalog m lo hi := by
  rcases h with hbuffer | ⟨id, l, rfl, hl, hmutable⟩
  · cases r with
    | «local» => exact hbuffer.elim
    | capture | static => exact hbuffer
  · exact .inr ⟨l, hl, hmutable⟩

/-- Whether the places of assignments lead through no method to roots that can be assigned. -/
def Assigned (catalog : Catalog) (m : Model) (assignments : List (Option BinaryOp × ComputeKernel.Expr)) :
    Prop :=
  ∀ a ∈ assignments, a.2.IsRooted ∧ Roots m (·.IsAssigned catalog m) a.2

/-- Whether a variable is that of an entity which is changed. -/
def Names.Changed (ctx : Context) (catalog : Catalog) (statics : List StaticUse)
    (bounds : List (Nat × String)) (lo hi : Nat) (x : String) : Prop :=
  ∃ entity, (entity, x) ∈ ctx.names statics bounds ∧ entity.Changed catalog ctx.model lo hi

theorem Names.Changed.mono {lo lo' hi hi' : Nat} {x : String}
    (h : Names.Changed ctx catalog statics bounds lo' hi' x) (hlo : lo ≤ lo') (hhi : hi' ≤ hi) :
    Names.Changed ctx catalog statics bounds lo hi x :=
  h.imp fun _ ⟨hmem, hchanged⟩ => ⟨hmem, hchanged.mono hlo hhi⟩

theorem Context.Declares.changed {name : Name} {id : Nat} {l : Local} {ident : String}
    (h : ctx.Declares name id l ident) {lo hi : Nat} (hlo : lo ≤ id) (hhi : id < hi) :
    Names.Changed ctx catalog statics bounds lo hi ident :=
  ⟨_, ctx.mem_names_of_identifies (.local h.ident), .inl ⟨hlo, hhi⟩⟩

/-- What the code of resolved statements sets. -/
theorem LowersStmt.changed (h : LowersStmt ctx catalog statics j code bounds)
    {scopes scopes' : Scopes} {next next' : Nat} (hres : ResolvesStmt ctx.model scopes next j scopes' next')
    (hassigned : Assigned catalog ctx.model j.assignments) (hbounds : bounds ⊆ bounds') :
    ∀ x ∈ Stmt.allChanged code, Names.Changed ctx catalog statics bounds' next next' x := by
  induction h generalizing scopes scopes' next next' with
  | declare hdeclares | set hdeclares _ =>
    cases hres with
    | «let» _ hname =>
      cases hdeclares.referent.symm.trans hname
      exact List.forall_mem_singleton.mpr (hdeclares.changed (Nat.le_refl _) (Nat.lt_succ_self _))
  | assign hplace =>
    obtain ⟨hrooted, hroots⟩ := hassigned _ (List.mem_singleton_self _)
    intro x hx
    rw [Stmt.allChanged_singleton] at hx
    obtain ⟨span, hspan, r, hr, hident⟩ := hplace.roots_named hrooted x hx
    exact ⟨_, ctx.mem_names_of_identifies hident, changed_of_isAssigned (hroots span hspan r hr) _ _⟩
  | jump | eval | nil => exact nofun
  | ifOnly _ _ ih =>
    cases hres with
    | ifOnly _ hb =>
      rw [Stmt.allChanged_singleton]
      exact ih hb hassigned hbounds
  | ifElse _ _ _ ihBody ihOtherwise =>
    cases hres with
    | ifElse _ hb ho =>
      obtain ⟨hfirst, hrest⟩ := List.append_subset.mp hbounds
      obtain ⟨hassignedBody, hassignedOtherwise⟩ := List.forall_mem_append.mp hassigned
      rw [Stmt.allChanged_singleton]
      refine List.forall_mem_append.mpr ⟨fun x hx => ?_, fun x hx => ?_⟩
      · exact (ihBody hb hassignedBody hfirst x hx).mono (Nat.le_refl _) ho.le
      · exact (ihOtherwise ho hassignedOtherwise hrest x hx).mono hb.le (Nat.le_refl _)
  | «for» hdeclares _ _ _ _ ih =>
    cases hres with
    | «for» _ _ hname hb =>
      cases hdeclares.referent.symm.trans hname
      rw [Stmt.allChanged_singleton]
      refine List.forall_mem_cons.mpr ⟨hdeclares.changed (Nat.le_refl _) hb.le, fun x hx => ?_⟩
      exact (ih hb hassigned hbounds x hx).mono (Nat.le_succ _) (Nat.le_refl _)
  | hoisted hdeclares _ _ _ _ _ ih =>
    cases hres with
    | «for» _ _ hname hb =>
      cases hdeclares.referent.symm.trans hname
      obtain ⟨hbound, hrest⟩ := List.cons_subset.mp hbounds
      refine List.forall_mem_cons.mpr ⟨?_, ?_⟩
      · exact ⟨_, ctx.mem_names_of_bound hbound, Nat.le_refl _, hb.le⟩
      show ∀ x ∈ Stmt.allChanged [Stmt.count ..], _
      rw [Stmt.allChanged_singleton]
      refine List.forall_mem_cons.mpr ⟨hdeclares.changed (Nat.le_refl _) hb.le, fun x hx => ?_⟩
      exact (ih hb hassigned hrest x hx).mono (Nat.le_succ _) (Nat.le_refl _)
  | «while» _ _ ih =>
    cases hres with
    | «while» _ hb =>
      rw [Stmt.allChanged_singleton]
      exact ih hb hassigned hbounds
  | loop _ ih =>
    cases hres with
    | loop hb =>
      rw [Stmt.allChanged_singleton]
      exact ih hb hassigned hbounds
  | nested _ ih =>
    cases hres with
    | nested hb =>
      rw [Stmt.allChanged_singleton]
      exact ih hb hassigned hbounds
  | cons _ _ ihFirst ihRest =>
    cases hres with
    | cons hst hsts =>
      obtain ⟨hfirst, hrest⟩ := List.append_subset.mp hbounds
      obtain ⟨hassignedFirst, hassignedRest⟩ := List.forall_mem_append.mp hassigned
      rw [Stmt.allChanged_append]
      refine List.forall_mem_append.mpr ⟨fun x hx => ?_, fun x hx => ?_⟩
      · exact (ihFirst hst hassignedFirst hfirst x hx).mono (Nat.le_refl _) hsts.le
      · exact (ihRest hsts hassignedRest hrest x hx).mono hst.le (Nat.le_refl _)
  | block _ ih =>
    cases hres with
    | block hsts => exact ih hsts hassigned hbounds

end Shader

end ComputeKernel
