import ComputeKernel.Proofs.Binding.Refusals
import ComputeKernel.Proofs.Program.Transparency
import ComputeKernel.Proofs.Shader.References

/-!
Order of failures. A kernel type can have several faults at once; its fields come before its closure, and
each before the other the faults are looked for in a fixed order, so that one fault decides what a
translation fails with. A fault of the fields leaves the closure unread; without one the closure has
been read behind the translation, whatever comes out of it.
-/

namespace ComputeKernel

/-- How the fields of a kernel type make its translation fail. -/
inductive Kernel.FieldsFail (k : Kernel) (table : TypeTable) : TranslateError → Prop where
  /-- The first static field. -/
  | shape {before f after} : k.catalog.fields = before ++ f :: after →
      (∀ g ∈ before, ¬ g.isStatic) → f.isStatic → k.FieldsFail table (.invalidShape k.name f.name)
  /-- The first field that the table refuses, where none is static. -/
  | refused {name text} : (∀ f ∈ k.catalog.fields, ¬ f.isStatic) →
      table.RefusesFirst (k.catalog.fields.map fun f => (f.name, f.type)) name text →
      k.FieldsFail table (.unsupportedCapture k.name name text)

/-- How the closure of a kernel type makes its translation fail, where the fields do not. -/
inductive Kernel.ClosureFails (k : Kernel) (table : TypeTable) : TranslateError → Prop where
  | unparsed {diagnostics} : Closure.parse k.source = .error diagnostics →
      k.ClosureFails table (.rejected k.name k.source diagnostics)
  | unbound {closure diagnostics} : Closure.parse k.source = .ok closure →
      closure.bind k.catalog = .error diagnostics →
      k.ClosureFails table (.rejected k.name k.source diagnostics)
  /-- The closure is accepted, but the shader has no name for some of its types. -/
  | unnamed {body diagnostics} : CheckedBody.of k.name k.source k.catalog = .ok body →
      Shader.Body.of body table = .error (.unnamedTypes diagnostics) →
      k.ClosureFails table (.rejected k.name k.source diagnostics)
  /-- The first static that the table refuses, in the order of the first references. -/
  | refused {body b name text} : CheckedBody.of k.name k.source k.catalog = .ok body →
      Shader.Body.of body table = .ok b →
      table.RefusesFirst (body.statics.map fun s => (s.name, s.type)) name text →
      k.ClosureFails table (.unsupportedCapture k.name name text)

theorem CheckedBody.kernel_and_source {kernel source : String} {catalog : Catalog}
    {body : CheckedBody} (h : CheckedBody.of kernel source catalog = .ok body) :
    body.kernel = kernel ∧ body.source = source := by
  unfold CheckedBody.of at h
  split at h
  · cases h
  · split at h
    · cases h
    · cases h
      exact ⟨rfl, rfl⟩

/-- A closure is rejected where it is not read, or where it is read and not accepted. -/
theorem CheckedBody.of_eq_error_iff {kernel source : String} {catalog : Catalog}
    {e : TranslateError} : CheckedBody.of kernel source catalog = .error e ↔
      ∃ diagnostics, e = .rejected kernel source diagnostics ∧
        (Closure.parse source = .error diagnostics ∨ ∃ closure,
          Closure.parse source = .ok closure ∧ closure.bind catalog = .error diagnostics) := by
  unfold CheckedBody.of
  cases hparse : Closure.parse source with
  | error diagnostics =>
    constructor
    · rintro ⟨⟩
      exact ⟨_, rfl, .inl rfl⟩
    · rintro ⟨_, rfl, ⟨⟨⟩⟩ | ⟨_, ⟨⟩, _⟩⟩
      rfl
  | ok closure =>
    cases hbind : closure.bind catalog with
    | error diagnostics =>
      simp only [hbind]
      constructor
      · rintro ⟨⟩
        exact ⟨_, rfl, .inr ⟨_, rfl, hbind⟩⟩
      · rintro ⟨_, rfl, ⟨⟨⟩⟩ | ⟨_, ⟨⟩, hbind'⟩⟩
        cases hbind.symm.trans hbind'
        rfl
    | ok model =>
      simp only [hbind]
      refine ⟨nofun, ?_⟩
      rintro ⟨_, rfl, ⟨⟨⟩⟩ | ⟨_, ⟨⟩, hbind'⟩⟩
      cases hbind.symm.trans hbind'

namespace Translator

variable {body : CheckedBody} {k : Kernel} {table : TypeTable} {e : TranslateError}

/-! ### Fields -/

theorem checkShape_eq_error_iff {kernel : String} {fields : List FieldDecl} :
    checkShape kernel fields = .error e ↔ ∃ before f after, fields = before ++ f :: after ∧
      (∀ g ∈ before, ¬ g.isStatic) ∧ f.isStatic ∧ e = .invalidShape kernel f.name := by
  unfold checkShape
  cases hfind : fields.find? fun f => f.isStatic with
  | none =>
    refine ⟨nofun, ?_⟩
    rintro ⟨before, f, after, rfl, _, hstatic, _⟩
    have hnone := List.find?_eq_none.mp hfind f (by simp)
    exact (hnone hstatic).elim
  | some f =>
    obtain ⟨hstatic, before, after, rfl, hbefore⟩ := List.find?_eq_some_iff_append.mp hfind
    constructor
    · rintro ⟨⟩
      exact ⟨before, f, after, rfl, fun g hg => by simpa using hbefore g hg, hstatic, rfl⟩
    · rintro ⟨before', f', after', hsplit, hbefore', hstatic', rfl⟩
      have hfind' : (before ++ f :: after).find? (fun f => f.isStatic) = some f' :=
        List.find?_eq_some_iff_append.mpr
          ⟨hstatic', before', after', hsplit, fun g hg => by simpa using hbefore' g hg⟩
      cases hfind.symm.trans hfind'
      rfl

theorem map_fieldRequests {fields : List FieldDecl} {names : List String}
    (h : names.length = fields.length) (index : Nat) :
    (Captures.fieldRequests index (fields.zip names)).map (fun r => (r.name, r.type)) =
      fields.map fun f => (f.name, f.type) := by
  have hfst : ((fields.zip names).zipIdx index).map (fun p => p.1.1) = fields := by
    have hzip : (fields.zip names).map Prod.fst = fields := List.map_fst_zip (by omega)
    conv_rhs => rw [← hzip, ← List.zipIdx_map_fst index (fields.zip names), List.map_map]
    rfl
  rw [Captures.fieldRequests, List.map_map]
  conv_rhs => rw [← hfst, List.map_map]
  rfl

/-- What the fields of a kernel type give fails as they do. -/
theorem fieldCaptures_eq_error_iff : fieldCaptures k table = .error e ↔ k.FieldsFail table e := by
  rw [fieldCaptures_eq]
  cases hshape : checkShape k.name k.catalog.fields with
  | error e' =>
    obtain ⟨before, f, after, hfields, hbefore, hstatic, rfl⟩ := checkShape_eq_error_iff.mp hshape
    constructor
    · rintro ⟨⟩
      exact .shape hfields hbefore hstatic
    · intro hfail
      cases hfail with
      | shape hfields' hbefore' hstatic' =>
        have hshape' : checkShape k.name k.catalog.fields = .error (.invalidShape k.name _) :=
          checkShape_eq_error_iff.mpr ⟨_, _, _, hfields', hbefore', hstatic', rfl⟩
        rw [Except.error.inj (hshape.symm.trans hshape')]
        rfl
      | refused hnone _ => exact (hnone f (by simp [hfields]) hstatic).elim
  | ok u =>
    have hnone : ∀ f ∈ k.catalog.fields, ¬ f.isStatic := by
      intro f hf hstatic
      cases hfind : k.catalog.fields.find? fun f => f.isStatic with
      | none => exact List.find?_eq_none.mp hfind f hf hstatic
      | some g =>
        rw [checkShape, hfind] at hshape
        cases hshape
    have hlength : (Shader.captureNames (k.catalog.fields.map (·.name))).1.length =
        k.catalog.fields.length := by simp [Shader.captureNames, Shader.length_allocateAll]
    show Captures.extend {} (Classify.addFields k.name table 0 (k.catalog.fields.zip
      (Shader.captureNames (k.catalog.fields.map (·.name))).1)) = .error e ↔ _
    rw [Captures.addFields_eq_addAll, Captures.extend_addAll_eq_error_iff,
      map_fieldRequests hlength]
    constructor
    · rintro ⟨name, text, hfirst, rfl⟩
      exact .refused hnone hfirst
    · intro hfail
      cases hfail with
      | shape hfields _ hstatic => exact (hnone _ (by simp [hfields]) hstatic).elim
      | refused _ hfirst => exact ⟨_, _, hfirst, rfl⟩

/-! ### Closures -/

theorem map_staticRequests {body : CheckedBody} {b : Shader.Body}
    (h : b.statics.map (·.decl) = body.statics) :
    (Captures.staticRequests (b.statics.map fun u => (u.decl, u.name))).map
        (fun r => (r.name, r.type)) = body.statics.map fun s => (s.name, s.type) := by
  rw [Captures.staticRequests, ← h, List.map_map, List.map_map, List.map_map]
  rfl

/-- The translation of a checked closure fails for a type without a name, or else for a static. -/
theorem describe_eq_error_iff (hbody : CheckedBody.of k.name k.source k.catalog = .ok body)
    (captures : Captures) : describe k.toKernelId captures body table = .error e ↔
      (∃ diagnostics, Shader.Body.of body table = .error (.unnamedTypes diagnostics) ∧
        e = .rejected k.name k.source diagnostics) ∨
      ∃ b name text, Shader.Body.of body table = .ok b ∧
        table.RefusesFirst (body.statics.map fun s => (s.name, s.type)) name text ∧
        e = .unsupportedCapture k.name name text := by
  obtain ⟨hkernel, hsource⟩ := CheckedBody.kernel_and_source hbody
  unfold describe
  cases hb : Shader.Body.of body table with
  | error e' =>
    cases e' with
    | defect d =>
      obtain ⟨code, s, threadIds, hrun, _, hthreads⟩ := Shader.lowers_of_checked hbody table
      rw [Shader.Body.of_eq body table hrun hthreads] at hb
      split at hb <;> cases hb
    | unnamedTypes diagnostics =>
      rw [hkernel, hsource]
      constructor
      · rintro ⟨⟩
        exact .inl ⟨_, rfl, rfl⟩
      · rintro (⟨_, ⟨⟩, rfl⟩ | ⟨_, _, _, ⟨⟩, _⟩)
        rfl
  | ok b =>
    have hstatics : captures.extend (Classify.addStatics k.name table
        (b.statics.map fun u => (u.decl, u.name))) = .error e ↔ ∃ name text,
          table.RefusesFirst (body.statics.map fun s => (s.name, s.type)) name text ∧
            e = .unsupportedCapture k.name name text := by
      rw [Captures.addStatics_eq_addAll, Captures.extend_addAll_eq_error_iff,
        map_staticRequests (Shader.statics_of_body hbody hb).2]
    simp only [hkernel]
    cases hadd : captures.extend (Classify.addStatics k.name table
        (b.statics.map fun u => (u.decl, u.name))) with
    | error e' =>
      rw [hadd] at hstatics
      constructor
      · rintro ⟨⟩
        obtain ⟨name, text, hfirst, rfl⟩ := hstatics.mp rfl
        exact .inr ⟨b, name, text, rfl, hfirst, rfl⟩
      · rintro (⟨_, ⟨⟩, _⟩ | ⟨_, name, text, ⟨⟩, hfirst, rfl⟩)
        cases hstatics.mpr ⟨name, text, hfirst, rfl⟩
        rfl
    | ok cs =>
      rw [hadd] at hstatics
      refine ⟨nofun, ?_⟩
      rintro (⟨_, ⟨⟩, _⟩ | ⟨_, name, text, ⟨⟩, hfirst, rfl⟩)
      cases hstatics.mpr ⟨name, text, hfirst, rfl⟩

theorem closure_eq_error_iff (k : Kernel) (captures : Captures) :
    (do let body ← CheckedBody.of k.name k.source k.catalog
        describe k.toKernelId captures body table) = .error e ↔ k.ClosureFails table e := by
  cases hbody : CheckedBody.of k.name k.source k.catalog with
  | error e' =>
    constructor
    · rintro ⟨⟩
      obtain ⟨diagnostics, rfl, hparse | ⟨closure, hparse, hbind⟩⟩ :=
        CheckedBody.of_eq_error_iff.mp hbody
      · exact .unparsed hparse
      · exact .unbound hparse hbind
    · intro hfail
      cases hfail with
      | unparsed hparse =>
        cases hbody.symm.trans (CheckedBody.of_eq_error_iff.mpr ⟨_, rfl, .inl hparse⟩)
        rfl
      | unbound hparse hbind =>
        cases hbody.symm.trans (CheckedBody.of_eq_error_iff.mpr ⟨_, rfl, .inr ⟨_, hparse, hbind⟩⟩)
        rfl
      | unnamed hok _ | refused hok _ _ => cases hbody.symm.trans hok
  | ok body =>
    refine (describe_eq_error_iff hbody captures).trans ⟨?_, ?_⟩
    · rintro (⟨diagnostics, hb, rfl⟩ | ⟨b, name, text, hb, hfirst, rfl⟩)
      · exact .unnamed hbody hb
      · exact .refused hbody hb hfirst
    · intro hfail
      cases hfail with
      | unparsed hparse =>
        cases hbody.symm.trans (CheckedBody.of_eq_error_iff.mpr ⟨_, rfl, .inl hparse⟩)
      | unbound hparse hbind =>
        cases hbody.symm.trans (CheckedBody.of_eq_error_iff.mpr ⟨_, rfl, .inr ⟨_, hparse, hbind⟩⟩)
      | unnamed hok hb =>
        cases hbody.symm.trans hok
        exact .inl ⟨_, hb, rfl⟩
      | refused hok hb hfirst =>
        cases hbody.symm.trans hok
        exact .inr ⟨_, _, _, hb, hfirst, rfl⟩

/-! ### Translations -/

/-- Faults of the fields are the result and leave the translator as it is. -/
theorem translateWith_of_fieldsFail (t : Translator) (h : k.FieldsFail table e) :
    t.translateWith k table = (.error e, t) := by
  rw [translateWith, fieldCaptures_eq_error_iff.mpr h]

/-- A closure that has been asked for is kept. -/
theorem Coherent.value?_checkedBody {t : Translator} {l : Library} (h : t.Coherent l)
    (k : KernelId) : (t.checkedBody (l.kernel k)).2.bodies.value? k =
      some (CheckedBody.of k.name (l.source k) (l.catalog k)) := by
  unfold checkedBody
  split
  · rename_i result hresult
    rw [← h.bodies k result hresult]
    exact hresult
  · rename_i hnone
    have hnone' : (t.bodies.start k).value? k = none := hnone
    show ((t.bodies.start k).store k _).value? k = _
    rw [Memo.value?_store_self, hnone']
    rfl

theorem isRead_of_value? {t : Translator} {result : Except TranslateError CheckedBody}
    (h : t.bodies.value? k.toKernelId = some result) : t.isRead k := by
  rw [isRead, Memo.contains, h]
  rfl

/-- Where the fields have no fault, the closure is read, and the result is what it leads to. -/
theorem Coherent.translateWith_of_not_fieldsFail {t : Translator} {l : Library} (h : t.Coherent l)
    (k : KernelId) (hfields : ∀ e, ¬ (l.kernel k).FieldsFail table e) :
    (t.translateWith (l.kernel k) table).2.bodies.value? k =
        some (CheckedBody.of k.name (l.source k) (l.catalog k)) ∧
      ∀ e, (t.translateWith (l.kernel k) table).1 = .error e ↔
        (l.kernel k).ClosureFails table e := by
  cases hcaptures : fieldCaptures (l.kernel k) table with
  | error e => exact (hfields e (fieldCaptures_eq_error_iff.mp hcaptures)).elim
  | ok captures =>
    refine ⟨?_, fun e => ?_⟩
    · rw [Translator.snd_translateWith, hcaptures]
      exact h.value?_checkedBody k
    · rw [Translator.fst_translateWith, hcaptures, h.fst_checkedBody]
      exact closure_eq_error_iff (l.kernel k) captures

end Translator

theorem Kernel.exists_shape_iff (k : Kernel) (table : TypeTable) :
    (∃ field, k.FieldsFail table (.invalidShape k.name field)) ↔
      ∃ f ∈ k.catalog.fields, f.isStatic := by
  constructor
  · rintro ⟨field, hfail⟩
    cases hfail with
    | shape hfields _ hstatic => exact ⟨_, by simp [hfields], hstatic⟩
  · rintro ⟨f, hf, hstatic⟩
    have hfind : (k.catalog.fields.find? fun f => f.isStatic).isSome :=
      List.find?_isSome.mpr ⟨f, hf, hstatic⟩
    obtain ⟨g, hg⟩ := Option.isSome_iff_exists.mp hfind
    obtain ⟨hstatic', before, after, hfields, hbefore⟩ := List.find?_eq_some_iff_append.mp hg
    exact ⟨g.name, .shape hfields (fun x hx => by simpa using hbefore x hx) hstatic'⟩

namespace Library

/-- A kernel type with a static field has the wrong shape, whatever else is wrong with it. Faults of the
fields leave the translator as it is; without one the closure has been read behind the translation, and
what it fails with, if it does, is the result. -/
theorem translateWith_fails_in_order (l : Library) (calls : List Call) (id : KernelId)
    (table : TypeTable) :
    let k := l.kernel id
    let t := l.after calls
    let result := (t.translateWith k table).1
    let t' := (t.translateWith k table).2
    ((∃ field, result = .error (.invalidShape k.name field)) ↔ ∃ f ∈ k.catalog.fields, f.isStatic) ∧
    (∀ e, k.FieldsFail table e → result = .error e ∧ t' = t) ∧
    ((∀ e, ¬ k.FieldsFail table e) →
      t'.bodies.value? id = some (CheckedBody.of k.name k.source k.catalog) ∧
      (∀ e, result = .error e ↔ k.ClosureFails table e) ∧
      ((∀ e, ¬ k.ClosureFails table e) → ∃ d, result = .ok d)) := by
  intro k t result t'
  have hearly : ∀ e, k.FieldsFail table e → result = .error e ∧ t' = t := fun e h => by
    have heq := t.translateWith_of_fieldsFail h
    exact ⟨congrArg Prod.fst heq, congrArg Prod.snd heq⟩
  have hlate : (∀ e, ¬ k.FieldsFail table e) → _ :=
    (l.coherent_after calls).translateWith_of_not_fieldsFail id
  refine ⟨?_, hearly, fun hfields => ?_⟩
  · refine .trans ⟨?_, ?_⟩ (k.exists_shape_iff table)
    · rintro ⟨field, hresult⟩
      by_cases hfields : ∃ e, k.FieldsFail table e
      · obtain ⟨e, he⟩ := hfields
        obtain rfl := Except.error.inj ((hearly e he).1.symm.trans hresult)
        exact ⟨field, he⟩
      · have hclosure := ((hlate (not_exists.mp hfields)).2 _).mp hresult
        cases hclosure
    · rintro ⟨field, hfail⟩
      exact ⟨field, (hearly _ hfail).1⟩
  · obtain ⟨hkept, hclosure⟩ := hlate hfields
    refine ⟨hkept, hclosure, fun hnone => ?_⟩
    cases hresult : result with
    | error e => exact (hnone e ((hclosure e).mp hresult)).elim
    | ok d => exact ⟨d, rfl⟩

/-- Kernel types with these fields, whose closure uses a name that is not bound. -/
def unbound (fields : List FieldDecl) : Library where
  source _ := "|ids| \x7b out[ids.x] = missing; \x7d"
  catalog _ := { fields }

def malformedField : FieldDecl := ⟨"items", "ReadOnlyBuffer<f32", false⟩

def staticField : FieldDecl := ⟨"COUNT", "u32", true⟩

def boundField : FieldDecl := ⟨"out", "ReadWriteBuffer<f32>", false⟩

/-- The static field decides before the malformed one, this before the closure, and this after it has
been read. -/
theorem translateWith_fails_in_order_unbound :
    (let l := unbound [malformedField, staticField]
     let t := l.after [.translate ⟨"A", 0⟩]
     (t.translateWith (l.kernel ⟨"B", 0⟩) .hlsl).1 = .error (.invalidShape "B" "COUNT") ∧
       (t.translateWith (l.kernel ⟨"B", 0⟩) .hlsl).2 = t) ∧
    (let l := unbound [malformedField]
     let t := l.after [.translate ⟨"A", 0⟩]
     (t.translateWith (l.kernel ⟨"B", 0⟩) .hlsl).1 =
         .error (.unsupportedCapture "B" "items" "ReadOnlyBuffer<f32") ∧
       (t.translateWith (l.kernel ⟨"B", 0⟩) .hlsl).2 = t) ∧
    (let l := unbound [boundField]
     let t := l.after [.translate ⟨"A", 0⟩]
     (t.translateWith (l.kernel ⟨"B", 0⟩) .hlsl).2.isRead (l.kernel ⟨"B", 0⟩) ∧
       ∃ diagnostics, (t.translateWith (l.kernel ⟨"B", 0⟩) .hlsl).1 =
         .error (.rejected "B" (l.source ⟨"B", 0⟩) diagnostics)) := by
  refine ⟨?_, ?_, ?_⟩
  · have hfields : ((unbound [malformedField, staticField]).kernel ⟨"B", 0⟩).catalog.fields =
        [malformedField] ++ staticField :: [] := rfl
    have hfail : ((unbound [malformedField, staticField]).kernel ⟨"B", 0⟩).FieldsFail .hlsl
        (.invalidShape "B" "COUNT") := .shape hfields (by simp [malformedField]) rfl
    exact ((unbound [malformedField, staticField]).translateWith_fails_in_order
      [.translate ⟨"A", 0⟩] ⟨"B", 0⟩ .hlsl).2.1 _ hfail
  · have hrefused : TypeTable.hlsl.Refuses malformedField.type "ReadOnlyBuffer<f32" :=
      .malformed (Option.isNone_iff_eq_none.mp (by decide +kernel))
    have hfail : ((unbound [malformedField]).kernel ⟨"B", 0⟩).FieldsFail .hlsl
        (.unsupportedCapture "B" "items" "ReadOnlyBuffer<f32") :=
      .refused (by decide +kernel) (.here hrefused)
    exact ((unbound [malformedField]).translateWith_fails_in_order
      [.translate ⟨"A", 0⟩] ⟨"B", 0⟩ .hlsl).2.1 _ hfail
  · have hfields : ∀ e, ¬ ((unbound [boundField]).kernel ⟨"B", 0⟩).FieldsFail .hlsl e := fun e he => by
      have hok : (Translator.fieldCaptures ((unbound [boundField]).kernel ⟨"B", 0⟩) .hlsl).isOk := by
        decide +kernel
      rw [Translator.fieldCaptures_eq_error_iff.mpr he] at hok
      cases hok
    obtain ⟨hkept, hclosure, _⟩ := ((unbound [boundField]).translateWith_fails_in_order
      [.translate ⟨"A", 0⟩] ⟨"B", 0⟩ .hlsl).2.2 hfields
    refine ⟨Translator.isRead_of_value? hkept, ?_⟩
    have hrejected : (CheckedBody.of "B" ((unbound [boundField]).source ⟨"B", 0⟩)
        ((unbound [boundField]).catalog ⟨"B", 0⟩)).isOk = false := by decide +kernel
    cases hbody : CheckedBody.of "B" ((unbound [boundField]).source ⟨"B", 0⟩)
        ((unbound [boundField]).catalog ⟨"B", 0⟩) with
    | ok body =>
      rw [hbody] at hrejected
      cases hrejected
    | error e =>
      obtain ⟨diagnostics, rfl, hparse | ⟨closure, hparse, hbind⟩⟩ :=
        CheckedBody.of_eq_error_iff.mp hbody
      · exact ⟨diagnostics, (hclosure _).mpr (.unparsed hparse)⟩
      · exact ⟨diagnostics, (hclosure _).mpr (.unbound hparse hbind)⟩

end Library

end ComputeKernel
