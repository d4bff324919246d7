import ComputeKernel.Proofs.Shader.Hygiene
import ComputeKernel.Proofs.Typing.Selections

/-!
The members in the code of a body. Each stands for a selection in the closure, so what it names is there:
its receiver is the code of an expression, and the type that the model has for that expression has all the
components or elements that the member names.
-/

namespace ComputeKernel.Shader

open Check (Found FoundAll Selects StmtJudgment)

mutual

/-- The members in an expression, each with its receiver. -/
def Expr.members : Expr → List (Expr × String)
  | .literal _ | .var _ => []
  | .paren e | .unary _ e | .cast _ e => e.members
  | .binary _ l r => l.members ++ r.members
  | .member receiver name => (receiver, name) :: receiver.members
  | .index base i => base.members ++ i.members
  | .call _ args => Expr.allMembers args
  | .choice c y n => c.members ++ (y.members ++ n.members)

def Expr.allMembers : List Expr → List (Expr × String)
  | [] => []
  | e :: es => e.members ++ Expr.allMembers es

end

theorem Expr.members_atLeast (least : Nat) (e : Expr) : (e.atLeast least).members = e.members := by
  unfold atLeast
  split <;> rfl

theorem members_unaryOperand (op : ComputeKernel.UnaryOp) (c : Expr) :
    (unaryOperand op c).members = c.members := by
  cases op with
  | neg =>
    simp only [unaryOperand]
    split <;> exact Expr.members_atLeast _ _
  | not => exact Expr.members_atLeast _ _

mutual

/-- The members in a statement, each with its receiver. -/
def Stmt.members : Stmt → List (Expr × String)
  | .declare _ _ none | .jump _ => []
  | .declare _ _ (some value) | .eval value => value.members
  | .assign target _ value => target.members ++ value.members
  | .branch condition body none => condition.members ++ Stmt.allMembers body
  | .branch condition body (some otherwise) =>
    condition.members ++ (Stmt.allMembers body ++ Stmt.allMembers otherwise)
  | .count _ _ start _ bound body => start.members ++ (bound.members ++ Stmt.allMembers body)
  | .while condition body => condition.members ++ Stmt.allMembers body
  | .nested body => Stmt.allMembers body

def Stmt.allMembers : List Stmt → List (Expr × String)
  | [] => []
  | s :: ss => s.members ++ Stmt.allMembers ss

end

theorem Stmt.allMembers_append (ss ts : List Stmt) :
    allMembers (ss ++ ts) = allMembers ss ++ allMembers ts := by
  induction ss with
  | nil => rfl
  | cons s ss ih => rw [List.cons_append, allMembers, allMembers, ih, List.append_assoc]

/-! ### Where members come from -/

variable {ctx : Context} {catalog : Catalog} {statics : List StaticUse}
  {bounds : List (Nat × String)}

def Outcome.sources : Outcome → List ComputeKernel.Expr
  | .expr e _ => [e]
  | .exprs es _ => es

def Outcome.members : Outcome → List (Expr × String)
  | .expr _ c => c.members
  | .exprs _ cs => Expr.allMembers cs

/-- Whether members are the code of parts of expressions. -/
def Stems (ctx : Context) (catalog : Catalog) (statics : List StaticUse)
    (es : List ComputeKernel.Expr) (members : List (Expr × String)) : Prop :=
  ∀ p ∈ members, ∃ e ∈ es, ∃ x : ComputeKernel.Expr, x.Part e ∧
    Lowers ctx catalog statics (.expr x (.member p.1 p.2))

namespace Stems

variable {es es' : List ComputeKernel.Expr} {e y : ComputeKernel.Expr} {ms ms' : List (Expr × String)}

theorem mono (h : Stems ctx catalog statics es ms) (hes : es ⊆ es') :
    Stems ctx catalog statics es' ms := by
  intro p hp
  obtain ⟨y, hy, hx⟩ := h p hp
  exact ⟨y, hes hy, hx⟩

theorem append (h : Stems ctx catalog statics es ms) (h' : Stems ctx catalog statics es ms') :
    Stems ctx catalog statics es (ms ++ ms') := List.forall_mem_append.mpr ⟨h, h'⟩

/-- What the first of several expressions and the others have. -/
theorem cons (h : Stems ctx catalog statics [e] ms) (h' : Stems ctx catalog statics es ms') :
    Stems ctx catalog statics (e :: es) (ms ++ ms') :=
  (h.mono (List.cons_subset_cons _ (List.nil_subset _))).append (h'.mono (List.subset_cons_self _ _))

/-- What the children of an expression have. -/
theorem children (h : Stems ctx catalog statics es ms) (hes : es ⊆ e.children) :
    Stems ctx catalog statics [e] ms := by
  intro p hp
  obtain ⟨y, hy, x, hx, hlowers⟩ := h p hp
  exact ⟨e, List.mem_cons_self, x, hx.tail (hes hy), hlowers⟩

/-- A member that is itself the code of an expression. -/
theorem member {c : Expr} {name : String}
    (h : Lowers ctx catalog statics (.expr e (.member (c.atLeast memberRank) name)))
    (hreceiver : Stems ctx catalog statics [y] c.members) (hy : y ∈ e.children) :
    Stems ctx catalog statics [e] (Expr.member (c.atLeast memberRank) name).members := by
  rw [Expr.members, Expr.members_atLeast]
  exact List.forall_mem_cons.mpr ⟨⟨e, List.mem_cons_self, e, .refl, h⟩,
    hreceiver.children (List.cons_subset.mpr ⟨hy, List.nil_subset _⟩)⟩

end Stems

/-- Each member in the code of an expression is the code of a part of the expression. -/
theorem Lowers.stems {o : Outcome} (h : Lowers ctx catalog statics o) :
    Stems ctx catalog statics o.sources o.members := by
  induction h with
  | literal | name | path | nil => exact nofun
  | paren _ ih | cast _ _ ih | splat _ _ _ _ _ _ ih => exact ih.children (List.Subset.refl _)
  | unary _ _ _ ih =>
    rw [Outcome.members, Expr.members, members_unaryOperand]
    exact ih.children (List.Subset.refl _)
  | binary _ _ ihLeft ihRight =>
    rw [Outcome.members, Expr.members, Expr.members_atLeast, Expr.members_atLeast]
    exact (ihLeft.cons ihRight).children (List.Subset.refl _)
  | field hc hliteral htype hcomponent ih =>
    exact .member (.field hc hliteral htype hcomponent) ih List.mem_cons_self
  | swizzle hc hliteral htype hswizzle ih =>
    exact .member (.swizzle hc hliteral htype hswizzle) ih List.mem_cons_self
  | element hc hliteral htype hposition ih =>
    exact .member (.element hc hliteral htype hposition) ih List.mem_cons_self
  | matrixSwizzle hc hliteral htype hne hitems ih =>
    exact .member (.matrixSwizzle hc hliteral htype hne hitems) ih List.mem_cons_self
  | method _ _ _ _ ih ihArgs => exact (ih.cons ihArgs).children (List.Subset.refl _)
  | intrinsic _ _ _ ihArgs | new _ _ _ _ _ _ ihArgs => exact ihArgs.children (List.Subset.refl _)
  | index _ _ _ _ _ ihBase ihIndex =>
    rw [Outcome.members, Expr.members, Expr.members_atLeast]
    exact (ihBase.cons ihIndex).children (List.Subset.refl _)
  | choice _ _ _ ihCondition ihYes ihNo =>
    exact (ihCondition.cons (ihYes.cons ihNo)).children (List.Subset.refl _)
  | cons _ _ ihFirst ihRest => exact ihFirst.cons ihRest

/-- Each member in the code of a statement is the code of a part of its expressions. -/
theorem LowersStmt.stems {j : StmtJudgment} {code : List Stmt}
    (h : LowersStmt ctx catalog statics j code bounds) :
    Stems ctx catalog statics j.exprs (Stmt.allMembers code) := by
  induction h with
  | declare | jump | nil => exact nofun
  | set _ he | eval he =>
    rw [Stmt.allMembers, Stmt.members, Stmt.allMembers, List.append_nil]
    exact he.stems
  | assign hplace hvalue =>
    rw [Stmt.allMembers, Stmt.members, Stmt.allMembers, List.append_nil]
    exact hplace.stems.cons hvalue.stems
  | ifOnly hcondition _ ih | «while» hcondition _ ih =>
    rw [Stmt.allMembers, Stmt.members, Stmt.allMembers, List.append_nil]
    exact hcondition.stems.cons ih
  | ifElse hcondition _ _ ihBody ihOtherwise =>
    rw [Stmt.allMembers, Stmt.members, Stmt.allMembers, List.append_nil]
    exact hcondition.stems.cons ((ihBody.mono (List.subset_append_left _ _)).append
      (ihOtherwise.mono (List.subset_append_right _ _)))
  | «for» _ hstart hstop _ _ ih =>
    rw [Stmt.allMembers, Stmt.members, Stmt.allMembers, List.append_nil, Expr.members_atLeast]
    exact hstart.stems.cons (hstop.stems.cons ih)
  | hoisted _ hstart hstop _ _ _ ih =>
    rw [Stmt.allMembers, Stmt.members, Stmt.allMembers, Stmt.members, Stmt.allMembers, List.append_nil]
    refine .append (hstop.stems.mono ?_) (hstart.stems.cons (ih.mono (List.subset_cons_self _ _)))
    exact List.cons_subset.mpr ⟨List.mem_cons_of_mem _ List.mem_cons_self, List.nil_subset _⟩
  | loop _ ih | nested _ ih =>
    rw [Stmt.allMembers, Stmt.members, Stmt.allMembers, List.append_nil]
    exact ih
  | cons _ _ ihFirst ihRest =>
    rw [Stmt.allMembers_append]
    exact (ihFirst.mono (List.subset_append_left _ _)).append
      (ihRest.mono (List.subset_append_right _ _))
  | block _ ih => exact ih

/-! ### What members name -/

theorem exists_positions {rows columns : Nat} {items : List ComputeKernel.Expr} {s s' : Checking}
    (h : Selects rows columns items s s') : ∃ ps : List (Nat × Nat),
      selectorText items = String.join (ps.map shaderElement) ∧
      (∀ p ∈ ps, p.1 < rows ∧ p.2 < columns) ∧
      List.Forall₂ (fun item p => ∃ span path, item = .path span path ∧
        path.owner? = some matrixIndexOwner ∧ path.last = hostElement 'M' p) items ps := by
  induction h with
  | nil => exact ⟨[], rfl, nofun, .nil⟩
  | @cons span path row column items _ _ hposition hrow hcolumn _ ih =>
    obtain ⟨ps, htext, hbounds, hitems⟩ := ih
    have howner : path.owner? = some matrixIndexOwner ∧
        positionBehind? 'M' path.last = some (row, column) := by
      unfold matrixIndexPosition? at hposition
      split at hposition
      · rename_i howner
        exact ⟨howner, hposition⟩
      · cases hposition
    obtain ⟨hleastRow, hleastColumn, hname⟩ := name_of_positionBehind? howner.2
    refine ⟨(row - 1, column - 1) :: ps, ?_, List.forall_mem_cons.mpr ⟨⟨by omega, by omega⟩, hbounds⟩,
      .cons ⟨span, path, rfl, howner.1, hname⟩ hitems⟩
    rw [selectorText, hposition, htext, List.map_cons, String.join_cons]
    rfl

/-- What an expression selects whose code is a member. -/
theorem picks_of_lowers {x : ComputeKernel.Expr} {receiver : Expr} {name : String}
    (h : Lowers ctx catalog statics (.expr x (.member receiver name)))
    (hx : Found catalog ctx.model x) :
    ∃ e c, receiver = c.atLeast memberRank ∧ Lowers ctx catalog statics (.expr e c) ∧
      ctx.model.Picks x e name := by
  obtain ⟨s, t, s', hchecks, hm⟩ := hx
  have htype := hchecks.type?_eq hm
  cases h with
  | @field _ _ c _ _ _ hc _ hreceiver hcomponent =>
    refine ⟨_, c, rfl, hc, ?_⟩
    cases hchecks with
    | field he hcomponent' =>
      have ht := he.type?_eq (Expr.Kept.field hm)
      obtain ⟨k, n, i, hn, hi, hname, rfl⟩ := Check.component_of_componentType? hcomponent'
      rw [hname]
      exact .component ht hn hi hname htype
  | @swizzle _ _ c _ _ _ hc _ hreceiver hswizzle =>
    refine ⟨_, c, rfl, hc, ?_⟩
    cases hchecks with
    | method he hargs hmethod =>
      have ht := he.type?_eq (Expr.Kept.method hm hargs hmethod.settles).1
      have hr := Option.some.inj (ht.symm.trans hreceiver)
      cases hmethod with
      | swizzle hvector _ _ =>
        obtain ⟨components, hname, hlength, hleast, hmost, hbounds⟩ := name_of_isSwizzle hswizzle
        cases hvector.symm.trans hr
        rw [← hlength] at htype
        rw [hname]
        exact .components hreceiver hleast hmost hbounds hname htype
      | element hmatrix => cases hmatrix.symm.trans hr
      | scalar hscalar => cases hscalar.symm.trans hr
  | @element _ _ c _ _ _ _ _ hc _ hreceiver hposition =>
    refine ⟨_, c, rfl, hc, ?_⟩
    cases hchecks with
    | method he hargs hmethod =>
      have ht := he.type?_eq (Expr.Kept.method hm hargs hmethod.settles).1
      have hr := Option.some.inj (ht.symm.trans hreceiver)
      cases hmethod with
      | swizzle hvector => cases hvector.symm.trans hr
      | element hmatrix _ hposition' hrow hcolumn =>
        cases hmatrix.symm.trans hr
        cases hposition.symm.trans hposition'
        obtain ⟨hleastRow, hleastColumn, hname⟩ := name_of_positionBehind? hposition'
        exact .element hreceiver (by omega) (by omega) hname htype
      | scalar hscalar => cases hscalar.symm.trans hr
  | @matrixSwizzle _ _ c _ _ _ _ _ hc _ hreceiver _ _ =>
    refine ⟨_, c, rfl, hc, ?_⟩
    cases hchecks with
    | element _ _ hitems => cases hitems
    | swizzle he hmatrix hleast hmost hselects =>
      have ht := he.type?_eq (Expr.Kept.swizzle hm hselects)
      have hr := Option.some.inj (ht.symm.trans hreceiver)
      cases hmatrix.symm.trans hr
      obtain ⟨ps, htext, hbounds, hitems⟩ := exists_positions hselects
      rw [hitems.length_eq] at hleast hmost htype
      rw [htext]
      exact .elements hreceiver hleast hmost hbounds hitems htype

/-- Every member in the code of a body names components or elements that its receiver has. -/
theorem members_of_body {kernel source : String} {catalog : Catalog} {body : CheckedBody}
    (hbody : CheckedBody.of kernel source catalog = .ok body) {table : TypeTable} {b : Body}
    (hb : Body.of body table = .ok b) :
    ∀ p ∈ Stmt.allMembers b.code, ∃ e ∈ body.closure.body.exprs, ∃ x : ComputeKernel.Expr, x.Part e ∧
      ∃ receiver c, p.1 = c.atLeast memberRank ∧
        Lowers (Context.of body table) catalog b.statics (.expr receiver c) ∧
        body.model.Picks x receiver p.2 := by
  obtain ⟨hcatalog, hparse, hbind⟩ := CheckedBody.read_and_bound hbody
  obtain ⟨bounds, haccounted⟩ := exists_accounted hbody hb
  have hlowers := haccounted.lowers
  rw [hcatalog] at hlowers
  intro p hp
  obtain ⟨e, he, x, hx, hmember⟩ := hlowers.stems p hp
  have hfound := (Closure.foundAll_of_bind hparse hbind e he x hx).resolve_right ?_
  · obtain ⟨receiver, c, hreceiver, hc, hpicks⟩ := picks_of_lowers hmember hfound
    exact ⟨e, he, x, hx, receiver, c, hreceiver, hc, hpicks⟩
  · rintro (⟨_, _, rfl⟩ | ⟨_, _, rfl⟩)
    · cases hmember
    · cases hmember

/-- A closure that selects in each way, and from what was selected. -/
def shuffle : String :=
  "|ids| \x7b let v = basis[(MatrixIndex::M12, MatrixIndex::M21)]; "
    ++ "out[ids.x] = offset.zyx().y + (basis.m34() - v.x); \x7d"

def shuffleCatalog : Catalog where
  fields := [⟨"basis", "Float4x4", false⟩, ⟨"offset", "Float4", false⟩,
    ⟨"out", "ReadWriteBuffer<f32>", false⟩]

theorem members_of_body_shuffle :
    ∃ body b, CheckedBody.of "Shuffle" shuffle shuffleCatalog = .ok body ∧
      Body.of body .hlsl = .ok b ∧
      (Stmt.allMembers b.code).map Prod.snd = ["_m01_m10", "x", "y", "zyx", "_m23", "x"] ∧
      ∀ p ∈ Stmt.allMembers b.code, ∃ e ∈ body.closure.body.exprs, ∃ x : ComputeKernel.Expr, x.Part e ∧
        ∃ receiver c, p.1 = c.atLeast memberRank ∧
          Lowers (Context.of body .hlsl) shuffleCatalog b.statics (.expr receiver c) ∧
          body.model.Picks x receiver p.2 := by
  have hrun : ((CheckedBody.of "Shuffle" shuffle shuffleCatalog).toOption.any fun body =>
      (Body.of body .hlsl).toOption.any fun b =>
        (Stmt.allMembers b.code).map Prod.snd == ["_m01_m10", "x", "y", "zyx", "_m23", "x"]) = true := by
    decide +kernel
  obtain ⟨body, hbody, hrun⟩ := (Option.any_eq_true _ _).mp hrun
  obtain ⟨b, hb, hnames⟩ := (Option.any_eq_true _ _).mp hrun
  have hbody := eq_ok_of_toOption hbody
  have hb := eq_ok_of_toOption hb
  exact ⟨body, b, hbody, hb, beq_iff_eq.mp hnames, members_of_body hbody hb⟩

end ComputeKernel.Shader
