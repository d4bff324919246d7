import ComputeKernel.Proofs.Parsing.Placement
import ComputeKernel.Proofs.Shader.Body
import ComputeKernel.Proofs.Spacing.Lowering
import ComputeKernel.Proofs.Spacing.Reading
import ComputeKernel.Proofs.Spacing.Typing

/-!
White space and comments do not matter. Sources with the same lexemes are accepted or rejected
together, for the same reasons, and what they are accepted as is translated to the same code.
-/

namespace ComputeKernel

namespace Shader

/-- Whether two bodies have been translated to the same, or neither has a translation. -/
inductive SameTranslation : Except BodyError Body → Except BodyError Body → Prop where
  | ok {b} : SameTranslation (.ok b) (.ok b)
  | error {e e'} : e.diagnostics.map Diagnostic.bare = e'.diagnostics.map Diagnostic.bare →
      SameTranslation (.error e) (.error e')

variable {P : Span → Span → Prop}

theorem Context.alike_of {body body' : CheckedBody} (hmodel : body.model.Alike P body'.model)
    (hcatalog : body.catalog = body'.catalog) (table : TypeTable) :
    (Context.of body table).Alike P (Context.of body' table) := by
  refine ⟨hmodel, congrArg Catalog.statics hcatalog, rfl, ?_, ?_⟩
  · simp only [Context.of, hcatalog]
  · simp only [Context.of, hcatalog, hmodel.names_eq]

theorem Progress.alike_of {body body' : CheckedBody} (hmodel : body.model.Alike P body'.model)
    (hcatalog : body.catalog = body'.catalog) : (Progress.of body).Alike (Progress.of body') := by
  refine ⟨?_, rfl, rfl⟩
  simp only [Progress.of, hcatalog, hmodel.names_eq]

/-- Bodies whose trees and models differ in ranges only are translated to the same, if one of them is
taken over without a defect. -/
theorem sameTranslation_of_run {body body' : CheckedBody} (hcatalog : body.catalog = body'.catalog)
    (hclosure : Alike P (.block body.closure.body body'.closure.body))
    (hmodel : body.model.Alike P body'.model) (table : TypeTable) {code : List Stmt} {s : Progress}
    (hrun : (Lower.block (Context.of body table) body.closure.body).run (Progress.of body) =
      .ok (code, s)) {threadIds : String}
    (hthreads : (Context.of body table).localNames[Model.paramId]? = some threadIds) :
    SameTranslation (Body.of body table) (Body.of body' table) := by
  have hctx := Context.alike_of hmodel hcatalog table
  rcases Lower.block_paired hctx hclosure _ _ (Progress.alike_of hmodel hcatalog) with
    ⟨d, d', hd, _⟩ | ⟨a, a', t, t', ha, ha', hcode, hprogress⟩
  · cases hrun.symm.trans hd
  cases hrun.symm.trans ha
  have hthreads' : (Context.of body' table).localNames[Model.paramId]? = some threadIds :=
    hctx.localNames ▸ hthreads
  rw [Body.of_eq body table hrun hthreads, Body.of_eq body' table ha' hthreads',
    ← hctx.captureNames, ← hcode, ← hprogress.statics]
  have hnone : s.diagnostics = [] ↔ t'.diagnostics = [] := by
    rw [← List.map_eq_nil_iff, hprogress.diagnostics, List.map_eq_nil_iff]
  by_cases hs : s.diagnostics = []
  · rw [if_pos hs, if_pos (hnone.mp hs)]
    exact .ok
  · rw [if_neg hs, if_neg (mt hnone.mpr hs)]
    exact .error hprogress.diagnostics

/-- Checked bodies whose trees and models differ in ranges only are translated to the same. -/
theorem sameTranslation_of_alike {kernel source source' : String} {catalog : Catalog}
    {body body' : CheckedBody} (h : CheckedBody.of kernel source catalog = .ok body)
    (h' : CheckedBody.of kernel source' catalog = .ok body')
    (hclosure : Alike P (.block body.closure.body body'.closure.body))
    (hmodel : body.model.Alike P body'.model) (table : TypeTable) :
    SameTranslation (Body.of body table) (Body.of body' table) := by
  have hcatalog : body.catalog = body'.catalog :=
    (CheckedBody.read_and_bound h).1.trans (CheckedBody.read_and_bound h').1.symm
  obtain ⟨code, s, threadIds, hrun, _, hthreads⟩ := lowers_of_checked h table
  exact sameTranslation_of_run hcatalog hclosure hmodel table hrun hthreads

end Shader

/-! ### Sources -/

/-- What two sources are taken for, where spans do not count. -/
inductive SameAnswer (kernel source source' : String) (table : TypeTable) :
    Except TranslateError CheckedBody → Except TranslateError CheckedBody → Prop where
  | rejected {ds ds'} : ds.map Diagnostic.bare = ds'.map Diagnostic.bare →
      SameAnswer kernel source source' table (.error (.rejected kernel source ds))
        (.error (.rejected kernel source' ds'))
  | accepted {body body'} :
      Shader.SameTranslation (Shader.Body.of body table) (Shader.Body.of body' table) →
      SameAnswer kernel source source' table (.ok body) (.ok body')

/-- Sources that are cut into the same lexemes are both rejected, for the same reasons in the same
order, or both accepted and then translated to the same, whatever table names the types. -/
theorem sameAnswer_of_lexemes {source source' : String} (h : (tokenize source).2 = [])
    (h' : (tokenize source').2 = [])
    (hlexemes : (tokenize source).1.map Token.lexeme = (tokenize source').1.map Token.lexeme)
    (kernel : String) (catalog : Catalog) (table : TypeTable) :
    SameAnswer kernel source source' table (CheckedBody.of kernel source catalog)
      (CheckedBody.of kernel source' catalog) := by
  have hread := Closure.agrees_of_parse h h' hlexemes
  generalize hparse : Closure.parse source = parsed at hread
  generalize hparse' : Closure.parse source' = parsed' at hread
  cases hread with
  | error hds =>
    simp only [CheckedBody.of, hparse, hparse']
    exact .rejected hds
  | @ok c c' hclosures =>
    obtain ⟨hi, hlaid⟩ := Closure.laid_of_parse hparse
    obtain ⟨hi', hlaid'⟩ := Closure.laid_of_parse hparse'
    -- As the ranges in each closure are apart, they come in pairs that match.
    obtain ⟨P, hP, halike⟩ := hclosures.matching hlaid hlaid'
    have hbound := Closure.agrees_of_bind hP catalog halike
    generalize hbind : c.bind catalog = bound at hbound
    generalize hbind' : c'.bind catalog = bound' at hbound
    cases hbound with
    | error hds =>
      simp only [CheckedBody.of, hparse, hparse', hbind, hbind']
      exact .rejected hds
    | @ok m m' hmodels =>
      have hbody : CheckedBody.of kernel source catalog = .ok ⟨kernel, source, c, m, catalog⟩ := by
        simp only [CheckedBody.of, hparse, hbind]
      have hbody' : CheckedBody.of kernel source' catalog =
          .ok ⟨kernel, source', c', m', catalog⟩ := by
        simp only [CheckedBody.of, hparse', hbind']
      rw [hbody, hbody']
      exact .accepted (Shader.sameTranslation_of_alike hbody hbody' halike.body hmodels table)

theorem sameAnswer_of_lexemes_remark :
    SameAnswer "Shift" "|ids| \x7b out[ids.x] = a >> 1; \x7d"
      "|ids|\x7bout[ids . x]=a>>/* halved */1 ;\x7d // end" .hlsl
      (CheckedBody.of "Shift" "|ids| \x7b out[ids.x] = a >> 1; \x7d"
        { fields := [⟨"a", "u32", false⟩, ⟨"out", "ReadWriteBuffer<u32>", false⟩] })
      (CheckedBody.of "Shift" "|ids|\x7bout[ids . x]=a>>/* halved */1 ;\x7d // end"
        { fields := [⟨"a", "u32", false⟩, ⟨"out", "ReadWriteBuffer<u32>", false⟩] }) :=
  sameAnswer_of_lexemes (by decide +kernel) (by decide +kernel) (by decide +kernel) _ _ _

end ComputeKernel
