import ComputeKernel.Proofs.Reading.Meaning
import ComputeKernel.Proofs.Shader.Hygiene

/-!
What code takes from the shading language: the functions that it calls and the types that it writes.
The shading language keeps all of these names for itself but `log10`, which is the function of a method
and not an intrinsic; so nothing else can be hidden by an identifier that the pool has given out.
-/

namespace ComputeKernel.Shader

open Check (StmtJudgment)
open Lower (nameOf)
open Reading (isTypeWord_nameOf)

/-! ### Names of functions and types -/

mutual

/-- The functions that an expression calls and the types that it writes. -/
def Expr.vocabulary : Expr → List String
  | .literal _ | .var _ => []
  | .paren e | .unary _ e | .member e _ => e.vocabulary
  | .binary _ l r => l.vocabulary ++ r.vocabulary
  | .cast type e => type :: e.vocabulary
  | .index base i => base.vocabulary ++ i.vocabulary
  | .call function args => function :: Expr.allVocabulary args
  | .choice c y n => c.vocabulary ++ (y.vocabulary ++ n.vocabulary)

def Expr.allVocabulary : List Expr → List String
  | [] => []
  | e :: es => e.vocabulary ++ Expr.allVocabulary es

end

theorem Expr.vocabulary_atLeast (least : Nat) (e : Expr) :
    (e.atLeast least).vocabulary = e.vocabulary := by
  unfold atLeast
  split <;> rfl

theorem vocabulary_unaryOperand (op : ComputeKernel.UnaryOp) (c : Expr) :
    (unaryOperand op c).vocabulary = c.vocabulary := by
  cases op with
  | neg =>
    simp only [unaryOperand]
    split <;> exact Expr.vocabulary_atLeast _ _
  | not => exact Expr.vocabulary_atLeast _ _

mutual

/-- The functions that a statement calls and the types that it writes. -/
def Stmt.vocabulary : Stmt → List String
  | .declare type _ none => [type]
  | .declare type _ (some value) => type :: value.vocabulary
  | .assign target _ value => target.vocabulary ++ value.vocabulary
  | .branch condition body none => condition.vocabulary ++ Stmt.allVocabulary body
  | .branch condition body (some otherwise) =>
    condition.vocabulary ++ (Stmt.allVocabulary body ++ Stmt.allVocabulary otherwise)
  | .count type _ start _ bound body =>
    type :: (start.vocabulary ++ (bound.vocabulary ++ Stmt.allVocabulary body))
  | .while condition body => condition.vocabulary ++ Stmt.allVocabulary body
  | .jump _ => []
  | .eval value => value.vocabulary
  | .nested body => Stmt.allVocabulary body

def Stmt.allVocabulary : List Stmt → List String
  | [] => []
  | s :: ss => s.vocabulary ++ Stmt.allVocabulary ss

end

theorem Stmt.allVocabulary_append (ss ts : List Stmt) :
    allVocabulary (ss ++ ts) = allVocabulary ss ++ allVocabulary ts := by
  induction ss with
  | nil => rfl
  | cons s ss ih => rw [List.cons_append, allVocabulary, allVocabulary, ih, List.append_assoc]

/-! ### Kept names -/

/-- Whether the shading language keeps a name for itself, or it is the one that it should have kept. -/
def Kept (name : String) : Prop := isReserved name ∨ name = "log10"

theorem kept_of_isTypeWord {name : String} (h : Reading.IsTypeWord name) : Kept name := by
  refine .inl ?_
  rw [isReserved, h.2, Bool.or_true, Bool.true_or]

theorem kept_of_mem_scalarMethods : ∀ m ∈ scalarMethods, Kept m.function := by
  unfold Kept
  decide

theorem kept_of_intrinsic? {name : String} {i : Intrinsic} (h : intrinsic? name = some i) :
    Kept name := by
  unfold intrinsic? at h
  have hname := List.find?_some h
  refine .inl ?_
  rw [isReserved, List.any_eq_true.mpr ⟨i, List.mem_of_find?_eq_some h, hname⟩, Bool.or_true]

variable {ctx : Context} {catalog : Catalog} {statics : List StaticUse}
  {bounds : List (Nat × String)}

def Outcome.vocabulary : Outcome → List String
  | .expr _ c => c.vocabulary
  | .exprs _ cs => Expr.allVocabulary cs

theorem Lowers.kept (htable : ctx.table = .hlsl) {o : Outcome} (h : Lowers ctx catalog statics o) :
    ∀ name ∈ o.vocabulary, Kept name := by
  induction h with
  | literal | name | path | nil => exact nofun
  | paren _ ih => exact ih
  | unary _ _ _ ih =>
    rw [Outcome.vocabulary, Expr.vocabulary, vocabulary_unaryOperand]
    exact ih
  | binary _ _ ihLeft ihRight =>
    rw [Outcome.vocabulary, Expr.vocabulary, Expr.vocabulary_atLeast, Expr.vocabulary_atLeast]
    exact List.forall_mem_append.mpr ⟨ihLeft, ihRight⟩
  | cast _ htarget ih =>
    exact List.forall_mem_cons.mpr
      ⟨kept_of_isTypeWord (isTypeWord_nameOf htable htarget trivial), ih⟩
  | field _ _ _ _ ih | swizzle _ _ _ _ ih | element _ _ _ _ ih | matrixSwizzle _ _ _ _ _ ih =>
    rw [Outcome.vocabulary, Expr.vocabulary, Expr.vocabulary_atLeast]
    exact ih
  | method _ _ _ hm ih ihArgs =>
    exact List.forall_mem_cons.mpr ⟨kept_of_mem_scalarMethods _ (List.mem_of_find?_eq_some hm),
      List.forall_mem_append.mpr ⟨ih, ihArgs⟩⟩
  | intrinsic _ _ hi ihArgs => exact List.forall_mem_cons.mpr ⟨kept_of_intrinsic? hi, ihArgs⟩
  | new _ _ _ hshaped _ _ ihArgs =>
    exact List.forall_mem_cons.mpr
      ⟨kept_of_isTypeWord (isTypeWord_nameOf htable (Ty.ofHost?_toHost hshaped) hshaped), ihArgs⟩
  | splat _ _ _ hshaped _ _ ih =>
    exact List.forall_mem_cons.mpr
      ⟨kept_of_isTypeWord (isTypeWord_nameOf htable (Ty.ofHost?_toHost hshaped) hshaped), ih⟩
  | index _ _ _ _ _ ihBase ihIndex =>
    rw [Outcome.vocabulary, Expr.vocabulary, Expr.vocabulary_atLeast]
    exact List.forall_mem_append.mpr ⟨ihBase, ihIndex⟩
  | choice _ _ _ ihCondition ihYes ihNo =>
    exact List.forall_mem_append.mpr ⟨ihCondition, List.forall_mem_append.mpr ⟨ihYes, ihNo⟩⟩
  | cons _ _ ihFirst ihRest => exact List.forall_mem_append.mpr ⟨ihFirst, ihRest⟩

theorem isTypeWord_of_sound (htable : ctx.table = .hlsl) {l : Local} (hl : l.Sound) :
    Reading.IsTypeWord (nameOf ctx l.type.toHost) := by
  have hhost := Lower.ofHost?_toHost_of_sound hl
  have hshaped := hl.shaped
  have hlocal := hl.isLocal
  cases htype : l.type with
  | value v =>
    rw [htype] at hhost hshaped
    exact isTypeWord_nameOf htable hhost hshaped
  | threadIds =>
    rw [htype] at hhost
    have hname : TypeTable.hlsl.shaderName? Ty.threadIds.toHost = some "uint3" := by
      simp [TypeTable.hlsl, hhost, Ty.hlslName?]
    rw [nameOf, htable, hname]
    decide
  | _ => simp [htype, Check.isLocalType, Ty.isValue, Ty.value?] at hlocal

theorem Context.Declares.kept (htable : ctx.table = .hlsl) (hlocals : ∀ l ∈ ctx.model.locals, l.Sound)
    {name : Name} {id : Nat} {l : Local} {ident : String} (h : ctx.Declares name id l ident) :
    Kept (nameOf ctx l.type.toHost) :=
  kept_of_isTypeWord (isTypeWord_of_sound htable (hlocals l (List.mem_of_getElem? h.local?)))

/-- What the code of statements takes from the shading language is kept by it. -/
theorem LowersStmt.kept (htable : ctx.table = .hlsl) (hlocals : ∀ l ∈ ctx.model.locals, l.Sound)
    {j : StmtJudgment} {code : List Stmt} (h : LowersStmt ctx catalog statics j code bounds) :
    ∀ name ∈ Stmt.allVocabulary code, Kept name := by
  induction h with
  | declare hdeclares => simpa [Stmt.allVocabulary, Stmt.vocabulary] using hdeclares.kept htable hlocals
  | set hdeclares he =>
    rw [Stmt.allVocabulary, Stmt.vocabulary, Stmt.allVocabulary, List.append_nil]
    exact List.forall_mem_cons.mpr ⟨hdeclares.kept htable hlocals, he.kept htable⟩
  | assign hplace hvalue =>
    rw [Stmt.allVocabulary, Stmt.vocabulary, Stmt.allVocabulary, List.append_nil]
    exact List.forall_mem_append.mpr ⟨hplace.kept htable, hvalue.kept htable⟩
  | ifOnly hcondition _ ih | «while» hcondition _ ih =>
    rw [Stmt.allVocabulary, Stmt.vocabulary, Stmt.allVocabulary, List.append_nil]
    exact List.forall_mem_append.mpr ⟨hcondition.kept htable, ih⟩
  | ifElse hcondition _ _ ihBody ihOtherwise =>
    rw [Stmt.allVocabulary, Stmt.vocabulary, Stmt.allVocabulary, List.append_nil]
    exact List.forall_mem_append.mpr ⟨hcondition.kept htable,
      List.forall_mem_append.mpr ⟨ihBody, ihOtherwise⟩⟩
  | «for» hdeclares hstart hstop _ _ ih =>
    rw [Stmt.allVocabulary, Stmt.vocabulary, Stmt.allVocabulary, List.append_nil,
      Expr.vocabulary_atLeast]
    exact List.forall_mem_cons.mpr ⟨hdeclares.kept htable hlocals, List.forall_mem_append.mpr
      ⟨hstart.kept htable, List.forall_mem_append.mpr ⟨hstop.kept htable, ih⟩⟩⟩
  | hoisted hdeclares hstart hstop _ _ _ ih =>
    have htype := hdeclares.kept htable hlocals
    simp only [Stmt.allVocabulary, Stmt.vocabulary, Expr.vocabulary, List.append_nil,
      List.nil_append]
    exact List.forall_mem_append.mpr ⟨List.forall_mem_cons.mpr ⟨htype, hstop.kept htable⟩,
      List.forall_mem_cons.mpr ⟨htype, List.forall_mem_append.mpr ⟨hstart.kept htable, ih⟩⟩⟩
  | loop _ ih | nested _ ih =>
    rw [Stmt.allVocabulary, Stmt.vocabulary, Stmt.allVocabulary, List.append_nil]
    exact ih
  | jump | nil => exact nofun
  | eval he =>
    rw [Stmt.allVocabulary, Stmt.vocabulary, Stmt.allVocabulary, List.append_nil]
    exact he.kept htable
  | cons _ _ ihFirst ihRest =>
    rw [Stmt.allVocabulary_append]
    exact List.forall_mem_append.mpr ⟨ihFirst, ihRest⟩
  | block _ ih => exact ih

/-! ### Identifiers -/

/-- The identifiers of a body: those of the captures, the thread index and the statics, and those that
stand in its code, where each local and each bound is declared. -/
def Body.identifiers (b : Body) : List String :=
  b.threadIds :: (b.captureNames ++ (b.statics.map (·.name) ++ Stmt.allIdentifiers b.code))

/-- The pool has given out every identifier of a body, so none is reserved. -/
theorem not_isReserved_of_mem_identifiers {kernel source : String} {catalog : Catalog}
    {body : CheckedBody} (hbody : CheckedBody.of kernel source catalog = .ok body)
    {table : TypeTable} {b : Body} (hb : Body.of body table = .ok b) :
    ∀ name ∈ b.identifiers, ¬ isReserved name := by
  obtain ⟨bounds, haccounted⟩ := exists_accounted hbody hb
  have hgiven : ∀ name ∈ ((Context.of body table).names b.statics bounds).map (·.2),
      ¬ isReserved name := List.forall_mem_map.mpr haccounted.unreserved
  simp only [map_snd_names, List.forall_mem_append] at hgiven
  obtain ⟨hcaptureNames, hlocalNames, hstaticNames, _⟩ := hgiven
  rw [Body.identifiers, haccounted.captureNames]
  refine List.forall_mem_cons.mpr ⟨hlocalNames _ (List.mem_of_getElem? haccounted.threadIds),
    List.forall_mem_append.mpr ⟨hcaptureNames, List.forall_mem_append.mpr
      ⟨hstaticNames, fun name hname => ?_⟩⟩⟩
  have hplaces := haccounted.lowers.places (List.Subset.refl _)
  obtain ⟨_, _, entity, _, hmem⟩ := exists_of_forall₂ hplaces hname
  exact haccounted.unreserved _ hmem

/-- What a body takes from the shading language is kept by it, and no identifier of the body is; so
none but `log10` can hide a function or a type that the body uses. -/
theorem eq_log10_of_hidden {kernel source : String} {catalog : Catalog} {body : CheckedBody}
    (hbody : CheckedBody.of kernel source catalog = .ok body) {b : Body}
    (hb : Body.of body .hlsl = .ok b) :
    (∀ name ∈ Stmt.allVocabulary b.code, isReserved name ∨ name = "log10") ∧
      (∀ name ∈ b.identifiers, ¬ isReserved name) ∧
      ∀ name ∈ b.identifiers, name ∈ Stmt.allVocabulary b.code → name = "log10" := by
  have hidentifiers := not_isReserved_of_mem_identifiers hbody hb
  obtain ⟨bounds, haccounted⟩ := exists_accounted hbody hb
  have hkept := haccounted.lowers.kept rfl (CheckedBody.complete hbody).locals
  refine ⟨hkept, hidentifiers, fun name hname hmem => ?_⟩
  exact (hkept name hmem).resolve_left (hidentifiers name hname)

/-- A local that takes the name of a function from the code that calls it. -/
def decades : String :=
  "|ids| \x7b let log10 = 2f32; let max = 8f32; o[0] = log10.log10().max(max); \x7d"

def decadesCatalog : Catalog := { fields := [⟨"o", "ReadWriteBuffer<f32>", false⟩] }

theorem eq_log10_of_hidden_decades :
    ∃ body b, CheckedBody.of "Decades" decades decadesCatalog = .ok body ∧
      Body.of body .hlsl = .ok b ∧
      (∀ name ∈ Stmt.allVocabulary b.code, isReserved name ∨ name = "log10") ∧
      (∀ name ∈ b.identifiers, ¬ isReserved name) ∧
      ∀ name ∈ b.identifiers, name ∈ Stmt.allVocabulary b.code → name = "log10" := by
  obtain ⟨body, hbody⟩ := exists_of_isOk (x := CheckedBody.of "Decades" decades decadesCatalog)
    (by decide +kernel)
  obtain ⟨b, hb⟩ := exists_body_of_checked hbody
  exact ⟨body, b, hbody, hb, eq_log10_of_hidden hbody hb⟩

/-- The local `log10` keeps its name and hides the function that the body calls, while `max` does not. -/
theorem hidden_log10 :
    ∃ body b, CheckedBody.of "Decades" decades decadesCatalog = .ok body ∧
      Body.of body .hlsl = .ok b ∧
      b.identifiers = ["ids", "o", "log10", "_max", "o", "log10", "_max"] ∧
      Stmt.allVocabulary b.code = ["float", "float", "max", "log10"] := by
  have hrun : ((CheckedBody.of "Decades" decades decadesCatalog).toOption.bind fun body =>
      (Body.of body .hlsl).toOption.map fun b => (b.identifiers, Stmt.allVocabulary b.code)) =
        some (["ids", "o", "log10", "_max", "o", "log10", "_max"],
          ["float", "float", "max", "log10"]) := by
    decide +kernel
  obtain ⟨body, hbody, hrest⟩ := Option.bind_eq_some_iff.mp hrun
  obtain ⟨b, hb, hlists⟩ := Option.map_eq_some_iff.mp hrest
  obtain ⟨hidentifiers, hvocabulary⟩ := Prod.mk.inj hlists
  exact ⟨body, b, eq_ok_of_toOption hbody, eq_ok_of_toOption hb, hidentifiers, hvocabulary⟩

end ComputeKernel.Shader
