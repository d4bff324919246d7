import ComputeKernel.Proofs.Lexing.Order
import ComputeKernel.Proofs.Parsing.Placement
import ComputeKernel.Proofs.Shader.Statements
import ComputeKernel.Shader.Body

/-!
Shader bodies of checked closures. The translation of a checked body finds whatever it asks the model
for, whichever type table names the types, and with the built-in table it reports nothing.
-/

namespace ComputeKernel

/-- A checked body holds what was read, and what checking it gave. -/
theorem CheckedBody.read_and_bound {kernel source : String} {catalog : Catalog} {body : CheckedBody}
    (h : CheckedBody.of kernel source catalog = .ok body) :
    body.catalog = catalog ∧ Closure.parse source = .ok body.closure ∧
      body.closure.bind catalog = .ok body.model := by
  unfold CheckedBody.of at h
  split at h
  · cases h
  rename_i closure hparse
  split at h
  · cases h
  rename_i model hbind
  cases h
  exact ⟨rfl, hparse, hbind⟩

theorem CheckedBody.complete {kernel source : String} {catalog : Catalog} {body : CheckedBody}
    (h : CheckedBody.of kernel source catalog = .ok body) :
    Check.Complete body.catalog body.closure body.model := by
  obtain ⟨rfl, hparse, hbind⟩ := CheckedBody.read_and_bound h
  obtain ⟨hi, hlaid⟩ := Closure.laid_of_parse hparse
  exact Closure.complete_of_bind hlaid hbind

namespace Shader

/-- What a checked body is taken over with. -/
def Context.of (body : CheckedBody) (table : TypeTable) : Context :=
  let captures := Shader.captureNames (body.catalog.fields.map (·.name))
  { model := body.model, statics := body.catalog.statics, table, captureNames := captures.1,
    localNames := (captures.2.allocateAll (body.model.locals.map (·.name))).1 }

/-- The state before any code of a body is taken over: captures and locals have their names. -/
def Progress.of (body : CheckedBody) : Progress :=
  let captures := Shader.captureNames (body.catalog.fields.map (·.name))
  { pool := (captures.2.allocateAll (body.model.locals.map (·.name))).2 }

theorem length_allocateAll (pool : NamePool) (bases : List String) :
    (pool.allocateAll bases).1.length = bases.length := by
  induction bases generalizing pool with
  | nil => rfl
  | cons base bases ih => exact congrArg (· + 1) (ih (pool.allocate base).2)

theorem Context.fits_of (body : CheckedBody) (table : TypeTable) :
    (Context.of body table).Fits body.catalog := by
  refine ⟨rfl, ?_, ?_⟩
  · simp [Context.of, Shader.captureNames, length_allocateAll]
  · simp [Context.of, length_allocateAll]

theorem namesLocals_hlsl : TypeTable.hlsl.NamesLocals := by
  intro host t hhost ht
  simp only [TypeTable.hlsl, hhost, Option.bind_eq_bind, Option.bind_some]
  cases t with
  | value v => rfl
  | threadIds => rfl
  | _ => simp [Check.isLocalType, Ty.isValue, Ty.value?] at ht

/-- A body as its translation ends. -/
theorem Body.of_eq (body : CheckedBody) (table : TypeTable) {code : List Stmt} {s : Progress}
    (h : (Lower.block (Context.of body table) body.closure.body).run (Progress.of body) =
      .ok (code, s)) {threadIds : String}
    (hthreads : (Context.of body table).localNames[Model.paramId]? = some threadIds) :
    Body.of body table =
      if s.diagnostics = [] then
        .ok { code, threadIds, captureNames := (Context.of body table).captureNames,
              statics := s.statics }
      else .error (.unnamedTypes s.diagnostics) := by
  unfold Body.of
  simp only
  split
  · rename_i d herror
    cases h.symm.trans herror
  · rename_i code' s' hrun
    cases h.symm.trans hrun
    split
    · rename_i threadIds' hnone hthreads'
      cases hthreads.symm.trans hthreads'
      rw [if_pos hnone]
      rfl
    · rename_i hthreads'
      cases hthreads.symm.trans hthreads'
    · rename_i hsome hnone
      rw [if_neg]
      intro hnil
      exact hsome threadIds hnil hthreads

/-- The run that takes a checked body over comes to an end, and the thread index has its name. -/
theorem lowers_of_checked {kernel source : String} {catalog : Catalog} {body : CheckedBody}
    (h : CheckedBody.of kernel source catalog = .ok body) (table : TypeTable) :
    ∃ code s threadIds,
      (Lower.block (Context.of body table) body.closure.body).run (Progress.of body) =
        .ok (code, s) ∧ Advances (Context.of body table) (Progress.of body) s ∧
        (Context.of body table).localNames[Model.paramId]? = some threadIds := by
  have hcomplete := CheckedBody.complete h
  obtain ⟨code, s, hcode, _, hproceeds⟩ :=
    Lower.proceeds_of_covers (Context.fits_of body table) hcomplete.locals hcomplete.body
      (Progress.of body)
  have hadvances := hproceeds.advances
  obtain ⟨l, hl⟩ := hcomplete.param
  refine ⟨code, s, _, hcode, hadvances, List.getElem?_eq_getElem ?_⟩
  rw [(Context.fits_of body table).locals]
  exact (List.getElem?_eq_some_iff.mp hl).1

/-- With the built-in table a checked body becomes a shader body. -/
theorem exists_body_of_checked {kernel source : String} {catalog : Catalog} {body : CheckedBody}
    (h : CheckedBody.of kernel source catalog = .ok body) : ∃ b, Body.of body .hlsl = .ok b := by
  obtain ⟨code, s, threadIds, hcode, hadvances, hthreads⟩ := lowers_of_checked h .hlsl
  have hnone : s.diagnostics = [] := hadvances.diagnostics namesLocals_hlsl
  rw [Body.of_eq body .hlsl hcode hthreads, if_pos hnone]
  exact ⟨_, rfl⟩

/-- Whatever table names the types, the translation of a checked body has no defect, and with the
built-in table there is a shader body. -/
theorem translates_of_checked {kernel source : String} {catalog : Catalog} {body : CheckedBody}
    (h : CheckedBody.of kernel source catalog = .ok body) :
    (∀ table d, Body.of body table ≠ .error (.defect d)) ∧ ∃ b, Body.of body .hlsl = .ok b := by
  refine ⟨fun table d => ?_, exists_body_of_checked h⟩
  obtain ⟨code, s, threadIds, hcode, _, hthreads⟩ := lowers_of_checked h table
  rw [Body.of_eq body table hcode hthreads]
  split
  · exact nofun
  · exact nofun

theorem translates_of_checked_sum :
    ∃ body, CheckedBody.of "Sum"
        ("|ids| \x7b let mut s = Float2::splat(0.5); for i in 0..n \x7b s = s + v[i].xy(); \x7d "
          ++ "out[ids.x] = (-s.x).max(1.0); \x7d")
        { fields := [⟨"n", "u32", false⟩, ⟨"v", "ReadOnlyBuffer<Float4>", false⟩,
            ⟨"out", "ReadWriteBuffer<f32>", false⟩] } = .ok body ∧
      (∀ table d, Body.of body table ≠ .error (.defect d)) ∧ ∃ b, Body.of body .hlsl = .ok b :=
  (exists_of_isOk (by decide +kernel)).imp fun _ h => ⟨h, translates_of_checked h⟩

end Shader

end ComputeKernel
