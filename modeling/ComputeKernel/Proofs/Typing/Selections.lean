import ComputeKernel.Proofs.Parsing.Placement
import ComputeKernel.Proofs.Parsing.Precedence
import ComputeKernel.Proofs.Typing.Places
import ComputeKernel.Shader.Lower.Expressions

/-!
What members select. A name that the check lets select something consists of selectors of components or
elements that the type of its receiver has, and what it selects has as many components as the name has
selectors. The model still says so of every member in an accepted closure.
-/

namespace ComputeKernel

/-! ### Names of selectors -/

/-- The letter of a component, counted from zero. -/
def componentLetter : Nat → Char
  | 0 => 'x'
  | 1 => 'y'
  | 2 => 'z'
  | _ => 'w'

/-- The name that selects components of a vector. -/
def componentName (components : List Nat) : String := String.ofList (components.map componentLetter)

/-- The name of an element for the host, which counts rows and columns from one. -/
def hostElement (letter : Char) (position : Nat × Nat) : String :=
  s!"{letter}{position.1 + 1}{position.2 + 1}"

/-- The name of an element in a shader, which counts rows and columns from zero. -/
def shaderElement (position : Nat × Nat) : String := s!"_m{position.1}{position.2}"

theorem letter_of_componentIndex? {c : Char} {i : Nat} (h : componentIndex? c = some i) :
    componentLetter i = c := by
  unfold componentIndex? at h
  split at h <;> first | (cases h; rfl) | cases h

theorem name_of_component? {name : String} {i : Nat} (h : component? name = some i) :
    name = componentName [i] := by
  unfold component? at h
  split at h
  · rename_i c hname
    rw [componentName, List.map_singleton, letter_of_componentIndex? h, ← hname, String.ofList_toList]
  · cases h

theorem exists_components {cs : List Char} {size : Nat}
    (h : ∀ c ∈ cs, (componentIndex? c).any (· < size)) :
    ∃ components : List Nat, cs = components.map componentLetter ∧ ∀ i ∈ components, i < size := by
  induction cs with
  | nil => exact ⟨[], rfl, nofun⟩
  | cons c cs ih =>
    obtain ⟨hc, hcs⟩ := List.forall_mem_cons.mp h
    obtain ⟨i, hi, hlt⟩ := (Option.any_eq_true _ _).mp hc
    obtain ⟨components, rfl, hcomponents⟩ := ih hcs
    exact ⟨i :: components, by rw [List.map_cons, letter_of_componentIndex? hi],
      List.forall_mem_cons.mpr ⟨of_decide_eq_true hlt, hcomponents⟩⟩

theorem name_of_isSwizzle {name : String} {size : Nat} (h : isSwizzle name size) :
    ∃ components, name = componentName components ∧ components.length = name.length ∧
      2 ≤ components.length ∧ components.length ≤ 4 ∧ ∀ i ∈ components, i < size := by
  simp only [isSwizzle, Bool.and_eq_true, decide_eq_true_eq, List.all_eq_true] at h
  obtain ⟨⟨hleast, hmost⟩, hletters⟩ := h
  obtain ⟨components, hname, hcomponents⟩ := exists_components hletters
  have hlength : components.length = name.length := by
    rw [← String.length_toList, hname, List.length_map]
  rw [String.length_toList, ← hlength] at hleast hmost
  exact ⟨components, by rw [componentName, ← hname, String.ofList_toList], hlength, hleast, hmost,
    hcomponents⟩

/-- A row or a column is written with the digit of its number. -/
theorem digit_of_ordinal? {c : Char} {n : Nat} (h : ordinal? c = some n) :
    1 ≤ n ∧ toString n = String.singleton c := by
  obtain ⟨hvalue, hbounds⟩ := Option.filter_eq_some_iff.mp h
  obtain ⟨hleast, hmost⟩ := of_decide_eq_true hbounds
  have hcode : c.toNat = n + 48 := by
    obtain ⟨hdigit, hlt⟩ := Option.filter_eq_some_iff.mp hvalue
    have hlt := of_decide_eq_true hlt
    split at hdigit
    · rename_i hrange
      obtain rfl := Option.some.inj hdigit
      have hzero : '0'.toNat ≤ c.toNat := hrange.1
      have hcode : '0'.toNat = 48 := rfl
      omega
    · split at hdigit
      · obtain rfl := Option.some.inj hdigit
        omega
      · split at hdigit
        · obtain rfl := Option.some.inj hdigit
          omega
        · cases hdigit
  have hchar : c = Char.ofNat (n + 48) := by rw [← hcode, Char.ofNat_toNat]
  refine ⟨hleast, ?_⟩
  rw [hchar]
  obtain rfl | rfl | rfl | rfl : n = 1 ∨ n = 2 ∨ n = 3 ∨ n = 4 := by omega
  all_goals decide

theorem name_of_positionBehind? {letter : Char} {name : String} {row column : Nat}
    (h : positionBehind? letter name = some (row, column)) :
    1 ≤ row ∧ 1 ≤ column ∧ name = hostElement letter (row - 1, column - 1) := by
  unfold positionBehind? at h
  split at h
  · rename_i l r c hname
    split at h
    · rename_i hl
      simp only [Option.bind_eq_bind, Option.bind_eq_some_iff] at h
      obtain ⟨row', hrow, column', hcolumn, h⟩ := h
      obtain ⟨rfl, rfl⟩ := Prod.mk.inj (Option.some.inj h)
      obtain ⟨hleastRow, hrowDigit⟩ := digit_of_ordinal? hrow
      obtain ⟨hleastColumn, hcolumnDigit⟩ := digit_of_ordinal? hcolumn
      refine ⟨hleastRow, hleastColumn, ?_⟩
      rw [hostElement, Nat.sub_add_cancel hleastRow, Nat.sub_add_cancel hleastColumn, hrowDigit,
        hcolumnDigit, ← hl, show toString l = String.singleton l from rfl]
      apply String.toList_inj.mp
      simp [hname]
    · cases h
  · cases h

/-! ### Selections -/

/-- The number and the kind of the components that letters select. The index of a thread has three. -/
def Ty.components? : Ty → Option (ScalarKind × Nat)
  | .value (.vector k n) => some (k, n)
  | .threadIds => some (.uint, 3)
  | _ => none

/-- What an expression selects of a receiver, with the name of the selection in a shader: components or
elements that the type of the receiver has, to a type that has as many components. -/
inductive Model.Picks (m : Model) : Expr → Expr → String → Prop where
  | component {span e member t k n i} : m.type? e.span = some t → t.components? = some (k, n) →
      i < n → member.text = componentName [i] → m.type? span = some (.scalar k) →
      Picks m (.field span e member) e (componentName [i])
  | components {span e member k n} {is : List Nat} : m.type? e.span = some (.vector k n) →
      2 ≤ is.length → is.length ≤ 4 → (∀ i ∈ is, i < n) → member.text = componentName is →
      m.type? span = some (.vector k is.length) →
      Picks m (.method span e member []) e (componentName is)
  | element {span e member k rows columns row column} :
      m.type? e.span = some (.value (.matrix k rows columns)) → row < rows → column < columns →
      member.text = hostElement 'm' (row, column) → m.type? span = some (.scalar k) →
      Picks m (.method span e member []) e (shaderElement (row, column))
  | elements {span e itemsSpan items k rows columns} {ps : List (Nat × Nat)} :
      m.type? e.span = some (.value (.matrix k rows columns)) → 2 ≤ ps.length → ps.length ≤ 4 →
      (∀ p ∈ ps, p.1 < rows ∧ p.2 < columns) →
      List.Forall₂ (fun item p => ∃ span path, item = .path span path ∧
        path.owner? = some matrixIndexOwner ∧ path.last = hostElement 'M' p) items ps →
      m.type? span = some (.vector k ps.length) →
      Picks m (.index span e (.tuple itemsSpan items)) e (String.join (ps.map shaderElement))

namespace Check

variable {catalog : Catalog} {m : Model} {s s₁ s' : Checking}

theorem component_of_componentType? {t type : Ty} {name : String}
    (h : componentType? t name = some type) : ∃ k n i, t.components? = some (k, n) ∧ i < n ∧
      name = componentName [i] ∧ type = .scalar k := by
  unfold componentType? at h
  split at h
  · rename_i i hi
    split at h
    · rename_i hlt
      cases h
      exact ⟨_, _, i, rfl, hlt, name_of_component? hi, rfl⟩
    · cases h
  · rename_i k n i hi
    split at h
    · rename_i hlt
      cases h
      exact ⟨_, _, i, rfl, hlt, name_of_component? hi, rfl⟩
    · cases h
  · cases h

/-- Whether an expression was checked on the way to a model, which still says what was noted for it. -/
def Found (catalog : Catalog) (m : Model) (e : Expr) : Prop :=
  ∃ s t s', Checks catalog s (.expr e t) s' ∧ e.Kept s' m

/-- Whether all parts of an expression were checked, but for the items of swizzles. -/
def FoundAll (catalog : Catalog) (m : Model) (e : Expr) : Prop :=
  ∀ x : Expr, x.Part e → Found catalog m x ∨ (∃ span items, x = .tuple span items) ∨
    ∃ span path, x = .path span path

theorem FoundAll.of_children {e : Expr} {t : Typed} (h : Checks catalog s (.expr e t) s') (hm : e.Kept s' m)
    (hchildren : ∀ y ∈ e.children, FoundAll catalog m y) : FoundAll catalog m e := by
  intro x hx
  rcases Relation.ReflTransGen.cases_tail hx with rfl | ⟨y, hxy, hy⟩
  · exact .inl ⟨_, _, _, h, hm⟩
  · exact hchildren y hy x hxy

theorem FoundAll.of_paths {span : Span} {items : List Expr}
    (h : ∀ item ∈ items, ∃ span path, item = .path span path) :
    FoundAll catalog m (.tuple span items) := by
  intro x hx
  rcases Relation.ReflTransGen.cases_tail hx with rfl | ⟨y, hxy, hy⟩
  · exact .inr (.inl ⟨_, _, rfl⟩)
  · obtain ⟨itemSpan, path, rfl⟩ := h y hy
    rcases Relation.ReflTransGen.cases_tail hxy with rfl | ⟨z, _, hz⟩
    · exact .inr (.inr ⟨_, _, rfl⟩)
    · cases hz

theorem Selects.exists_path {rows columns : Nat} {items : List Expr}
    (h : Selects rows columns items s s') : ∀ item ∈ items, ∃ span path, item = .path span path := by
  induction h with
  | nil => exact nofun
  | cons _ _ _ _ ih => exact List.forall_mem_cons.mpr ⟨⟨_, _, rfl⟩, ih⟩

def Judgment.exprs : Judgment → List Expr
  | .expr e _ => [e]
  | .args es _ => es

/-- What was checked was checked part by part. -/
theorem Checks.foundAll {j : Judgment} (h : Checks catalog s j s') (hm : j.Kept s' m) :
    ∀ e ∈ j.exprs, FoundAll catalog m e := by
  induction h with
  | literal => exact List.forall_mem_singleton.mpr (.of_children .literal hm nofun)
  | «local» hfind hl => exact List.forall_mem_singleton.mpr (.of_children (.local hfind hl) hm nofun)
  | capture hfind hcapture =>
    exact List.forall_mem_singleton.mpr (.of_children (.capture hfind hcapture) hm nofun)
  | static hfind hnone hstatic =>
    exact List.forall_mem_singleton.mpr (.of_children (.static hfind hnone hstatic) hm nofun)
  | path howner hstatic =>
    exact List.forall_mem_singleton.mpr (.of_children (.path howner hstatic) hm nofun)
  | unary he hop ih =>
    exact List.forall_mem_singleton.mpr (.of_children (.unary he hop) hm (ih (Expr.Kept.unary hm)))
  | binary hl hr hop ihLeft ihRight =>
    obtain ⟨hleft, hright⟩ := Expr.Kept.binary hm hr hop.settles
    exact List.forall_mem_singleton.mpr (.of_children (.binary hl hr hop) hm
      (List.forall_mem_cons.mpr ⟨ihLeft hleft _ List.mem_cons_self, ihRight hright⟩))
  | cast he hcasts ih =>
    exact List.forall_mem_singleton.mpr (.of_children (.cast he hcasts) hm (ih (Expr.Kept.cast hm)))
  | field he hcomponent ih =>
    exact List.forall_mem_singleton.mpr
      (.of_children (.field he hcomponent) hm (ih (Expr.Kept.field hm)))
  | method he hargs hmethod ih ihArgs =>
    obtain ⟨hreceiver, hkept⟩ := Expr.Kept.method hm hargs hmethod.settles
    exact List.forall_mem_singleton.mpr (.of_children (.method he hargs hmethod) hm
      (List.forall_mem_cons.mpr ⟨ih hreceiver _ List.mem_cons_self, ihArgs hkept⟩))
  | call hargs hcall ih =>
    exact List.forall_mem_singleton.mpr
      (.of_children (.call hargs hcall) hm (ih (Expr.Kept.call hm hcall.settles)))
  | element hb hnone hi hinteger helement ihBase ihIndex =>
    obtain ⟨hbase, hindex⟩ := Expr.Kept.index hm hi
    exact List.forall_mem_singleton.mpr (.of_children (.element hb hnone hi hinteger helement) hm
      (List.forall_mem_cons.mpr ⟨ihBase hbase _ List.mem_cons_self, ihIndex hindex⟩))
  | swizzle hb hmatrix hleast hmost hselects ih =>
    have hbase := ih (Expr.Kept.swizzle hm hselects) _ List.mem_cons_self
    exact List.forall_mem_singleton.mpr (.of_children (.swizzle hb hmatrix hleast hmost hselects) hm
      (List.forall_mem_cons.mpr ⟨hbase, List.forall_mem_singleton.mpr
        (.of_paths hselects.exists_path)⟩))
  | paren he ih =>
    exact List.forall_mem_singleton.mpr (.of_children (.paren he) hm (ih (Expr.Kept.paren hm)))
  | choice hc hbool hy hn hunify ihCondition ihYes ihNo =>
    obtain ⟨hcondition, hyes, hno⟩ := Expr.Kept.choice hm hy hn hunify.settles
    exact List.forall_mem_singleton.mpr (.of_children (.choice hc hbool hy hn hunify) hm
      (List.forall_mem_cons.mpr ⟨ihCondition hcondition _ List.mem_cons_self,
        List.forall_mem_cons.mpr ⟨ihYes hyes _ List.mem_cons_self, ihNo hno⟩⟩))
  | nil => exact nofun
  | cons he hes ihFirst ihRest =>
    obtain ⟨hfirst, hrest⟩ := Expr.AllKept.cons hm hes
    exact List.forall_mem_cons.mpr ⟨ihFirst hfirst _ List.mem_cons_self, ihRest hrest⟩

theorem foundAll_of_checks {e : Expr} {t : Typed} (h : Checks catalog s (.expr e t) s')
    (hm : e.Kept s' m) : FoundAll catalog m e := h.foundAll (j := .expr e t) hm e List.mem_cons_self

def StmtJudgment.exprs : StmtJudgment → List Expr
  | .stmt st => st.exprs
  | .stmts sts => Stmt.allExprs sts
  | .block b => b.exprs

/-- The expressions of a statement that was checked were checked part by part. -/
theorem ChecksStmt.foundAll {j : StmtJudgment} (h : ChecksStmt catalog s j s') (hm : j.Kept s' m) :
    ∀ e ∈ j.exprs, FoundAll catalog m e := by
  induction h with
  | declare | jump | nil => exact nofun
  | annotated he _ _ =>
    exact List.forall_mem_singleton.mpr (foundAll_of_checks he
      (((Stmt.Kept.let hm).2 _ rfl).of_settles (.settle _ _ _)))
  | inferred he _ =>
    exact List.forall_mem_singleton.mpr (foundAll_of_checks he ((Stmt.Kept.let hm).2 _ rfl))
  | assign hplace hvalue _ hassigns =>
    obtain ⟨hp, hv⟩ := Stmt.Kept.assign hm hvalue hassigns.settles
    exact List.forall_mem_cons.mpr ⟨foundAll_of_checks hplace hp,
      List.forall_mem_singleton.mpr (foundAll_of_checks hvalue hv)⟩
  | ifOnly hcondition _ hbody ih =>
    obtain ⟨hc, hb⟩ := Stmt.Kept.ifOnly hm hbody
    exact List.forall_mem_cons.mpr ⟨foundAll_of_checks hcondition hc, ih hb⟩
  | ifElse hcondition _ hbody hotherwise ihBody ihOtherwise =>
    obtain ⟨hc, hb, ho⟩ := Stmt.Kept.ifElse hm hbody hotherwise
    exact List.forall_mem_cons.mpr ⟨foundAll_of_checks hcondition hc,
      List.forall_mem_append.mpr ⟨ihBody hb, ihOtherwise ho⟩⟩
  | «for» hstart hstop hunify _ hbody ih =>
    obtain ⟨hl, hh, _, hb⟩ := Stmt.Kept.for hm hstop hunify.settles hbody
    exact List.forall_mem_cons.mpr ⟨foundAll_of_checks hstart hl,
      List.forall_mem_cons.mpr ⟨foundAll_of_checks hstop hh, ih hb⟩⟩
  | «while» hcondition _ hbody ih =>
    obtain ⟨hc, hb⟩ := Stmt.Kept.while hm hbody
    exact List.forall_mem_cons.mpr ⟨foundAll_of_checks hcondition hc, ih hb⟩
  | loop _ ih => exact ih (Stmt.Kept.loop hm)
  | eval he => exact List.forall_mem_singleton.mpr (foundAll_of_checks he (Stmt.Kept.eval hm))
  | nested _ ih => exact ih (Stmt.Kept.nested hm)
  | cons _ hrest ihFirst ihRest =>
    obtain ⟨hst, hsts⟩ := Stmt.AllKept.cons hm hrest
    exact List.forall_mem_append.mpr ⟨ihFirst hst, ihRest hsts⟩
  | block _ ih => exact ih (Block.Kept.stmts hm)

end Check

/-- The expressions of an accepted closure were checked part by part. -/
theorem Closure.foundAll_of_bind {source : String} {c : Closure} {catalog : Catalog} {m : Model}
    (hparse : Closure.parse source = .ok c) (h : c.bind catalog = .ok m) :
    ∀ e ∈ c.body.exprs, Check.FoundAll catalog m e := by
  obtain ⟨hi, hlaid⟩ := Closure.laid_of_parse hparse
  obtain ⟨s, hchecks, rfl⟩ := c.checks_of_bind h
  cases hchecks with
  | mk _ hbody => exact hbody.foundAll (hlaid.2.2.2.1.kept _)

end ComputeKernel
