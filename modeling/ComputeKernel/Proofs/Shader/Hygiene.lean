import ComputeKernel.Program.Translator
import ComputeKernel.Proofs.Binding.Sources
import ComputeKernel.Proofs.Shader.Body
import ComputeKernel.Proofs.Shader.Closed

/-!
Hygiene. In a translated kernel each identifier of the code stands for the entity that the model has
for its place in the closure, the code is closed but for the thread index and the captures, and no two
entities share an identifier.
-/

namespace ComputeKernel

namespace Shader

open Check (StmtJudgment ResolvesStmt)

/-! ### Bounds of different loops -/

/-- Whether numbers increase from `lo` on and stay below `hi`. -/
def Increasing (lo hi : Nat) (ids : List Nat) : Prop :=
  ids.Pairwise (· < ·) ∧ ∀ id ∈ ids, lo ≤ id ∧ id < hi

namespace Increasing

variable {lo mid hi : Nat} {ids ids' : List Nat}

theorem nil : Increasing lo hi [] := ⟨.nil, nofun⟩

theorem append (h : Increasing lo mid ids) (h' : Increasing mid hi ids') (hlo : lo ≤ mid)
    (hhi : mid ≤ hi) : Increasing lo hi (ids ++ ids') := by
  refine ⟨List.pairwise_append.mpr ⟨h.1, h'.1, fun a ha b hb => ?_⟩,
    List.forall_mem_append.mpr ⟨fun a ha => ?_, fun b hb => ?_⟩⟩
  · have := (h.2 a ha).2
    have := (h'.2 b hb).1
    omega
  · have := h.2 a ha
    omega
  · have := h'.2 b hb
    omega

theorem cons (h : Increasing (lo + 1) hi ids) (hlo : lo < hi) : Increasing lo hi (lo :: ids) :=
  append ⟨List.pairwise_singleton _ _, List.forall_mem_singleton.mpr ⟨Nat.le_refl _, Nat.lt_succ_self _⟩⟩
    h (Nat.le_succ _) hlo

theorem mono (h : Increasing mid hi ids) (hlo : lo ≤ mid) : Increasing lo hi ids :=
  ⟨h.1, fun id hid => ⟨Nat.le_trans hlo (h.2 id hid).1, (h.2 id hid).2⟩⟩

end Increasing

variable {ctx : Context} {catalog : Catalog} {statics : List StaticUse}
  {bounds : List (Nat × String)}

/-- The loops with bounds of their own are counted by different locals. -/
theorem LowersStmt.increasing {j : StmtJudgment} {code : List Stmt}
    (h : LowersStmt ctx catalog statics j code bounds) {scopes scopes' : Scopes} {next next' : Nat}
    (hres : ResolvesStmt ctx.model scopes next j scopes' next') :
    Increasing next next' (bounds.map (·.1)) := by
  induction h generalizing scopes scopes' next next' with
  | declare | set | assign | jump | eval | nil => exact .nil
  | ifOnly _ _ ih =>
    cases hres with
    | ifOnly _ hb => exact ih hb
  | ifElse _ _ _ ihBody ihOtherwise =>
    cases hres with
    | ifElse _ hb ho =>
      rw [List.map_append]
      exact (ihBody hb).append (ihOtherwise ho) hb.le ho.le
  | «for» _ _ _ _ _ ih =>
    cases hres with
    | «for» _ _ _ hb => exact (ih hb).mono (Nat.le_succ _)
  | hoisted hdeclares _ _ _ _ _ ih =>
    cases hres with
    | «for» _ _ hname hb =>
      cases hdeclares.referent.symm.trans hname
      exact (ih hb).cons hb.le
  | «while» _ _ ih =>
    cases hres with
    | «while» _ hb => exact ih hb
  | loop _ ih =>
    cases hres with
    | loop hb => exact ih hb
  | nested _ ih =>
    cases hres with
    | nested hb => exact ih hb
  | cons _ _ ihFirst ihRest =>
    cases hres with
    | cons hst hsts =>
      rw [List.map_append]
      exact (ihFirst hst).append (ihRest hsts) hst.le hsts.le
  | block _ ih =>
    cases hres with
    | block hsts => exact ih hsts

/-! ### Distinct names -/

theorem map_fst_names (ctx : Context) (statics : List StaticUse) (bounds : List (Nat × String)) :
    (ctx.names statics bounds).map (·.1) =
      (List.range ctx.captureNames.length).map (fun field => .referent (.capture field)) ++
        ((List.range ctx.localNames.length).map (fun id => .referent (.local id)) ++
          ((statics.map (·.index)).map (fun index => .referent (.static index)) ++
            (bounds.map (·.1)).map .bound)) := by
  simp only [Context.names, List.map_append, List.map_map]
  rw [List.range_eq_range', List.range_eq_range', ← List.zipIdx_map_snd 0 ctx.captureNames,
    ← List.zipIdx_map_snd 0 ctx.localNames, List.map_map, List.map_map]
  rfl

theorem map_snd_names (ctx : Context) (statics : List StaticUse) (bounds : List (Nat × String)) :
    (ctx.names statics bounds).map (·.2) =
      ctx.captureNames ++ (ctx.localNames ++ (statics.map (·.name) ++ bounds.map (·.2))) := by
  simp only [Context.names, List.map_append, List.map_map]
  conv_rhs => rw [← List.zipIdx_map_fst 0 ctx.captureNames, ← List.zipIdx_map_fst 0 ctx.localNames]
  rfl

theorem nodup_fst_names (hstatics : (statics.map (·.index)).Nodup) (hbounds : (bounds.map (·.1)).Nodup) :
    ((ctx.names statics bounds).map (·.1)).Nodup := by
  rw [map_fst_names]
  have hcaptures : ((List.range ctx.captureNames.length).map
      fun field => Entity.referent (.capture field)).Nodup :=
    List.nodup_range.map fun _ _ h => by simpa using h
  have hlocals : ((List.range ctx.localNames.length).map
      fun id => Entity.referent (.local id)).Nodup :=
    List.nodup_range.map fun _ _ h => by simpa using h
  have hstatics' := hstatics.map (f := fun index => Entity.referent (.static index))
    fun _ _ h => by simpa using h
  have hbounds' := hbounds.map (f := Entity.bound) fun _ _ h => by simpa using h
  refine List.nodup_append.mpr ⟨hcaptures, List.nodup_append.mpr ⟨hlocals,
    List.nodup_append.mpr ⟨hstatics', hbounds', ?_⟩, ?_⟩, ?_⟩
  all_goals
    intro a ha b hb hab
    subst hab
    simp only [List.mem_append, List.mem_map] at ha hb
    grind

/-- The names that are given out before any code of a body is taken over. -/
theorem accounted_of (body : CheckedBody) (table : TypeTable) :
    (Progress.of body).Accounted ((Context.of body table).localNames.reverse ++
      (Context.of body table).captureNames.reverse) [] := by
  let captures := Shader.captureNames (body.catalog.fields.map (·.name))
  have hcaptures : captures.2.Sound := NamePool.sound_empty.allocateAll _
  refine ⟨hcaptures.allocateAll _, ?_, List.nodup_nil⟩
  have htaken := NamePool.taken_allocateAll captures.2 (body.model.locals.map (·.name))
  rw [show captures.2.taken = captures.1.reverse from
    (NamePool.taken_allocateAll {} _).trans (List.append_nil _)] at htaken
  exact htaken ▸ .refl _

/-- Names that the pool accounts for differ from each other, and none is reserved. -/
theorem snd_names_of_accounted {s : Progress}
    (h : s.Accounted (ctx.localNames.reverse ++ ctx.captureNames.reverse) (bounds.map (·.2))) :
    ((ctx.names s.statics bounds).map (·.2)).Nodup ∧
      ∀ p ∈ ctx.names s.statics bounds, ¬ isReserved p.2 := by
  have hperm : ((ctx.names s.statics bounds).map (·.2)).Perm s.pool.taken := by
    refine .trans ?_ h.taken.symm
    rw [map_snd_names, List.perm_iff_count]
    intro name
    simp only [List.count_append, List.count_reverse]
    omega
  refine ⟨hperm.nodup_iff.mpr h.sound.nodup, fun p hp => ?_⟩
  exact h.sound.unreserved _ (hperm.subset (List.mem_map_of_mem hp))

/-! ### Captures -/

/-- Where the value of an entity comes from, if it is a capture or a static. -/
def Entity.source? (catalog : Catalog) : Entity → Option CaptureSource
  | .referent (.capture field) => some (.field field)
  | .referent (.static index) => catalog.statics[index]?.map .static
  | .referent (.local _) | .bound _ => none

/-- What hygiene says of a descriptor, whose body has the text of `code`. -/
structure Hygienic (d : Descriptor) (body : CheckedBody) (code : List Stmt)
    (names : List (Entity × String)) : Prop where
  /-- Each identifier is that of the entity which the model has for its place. -/
  places : List.Forall₂ (Place.Names body.model names) (Place.ofBlock body.model body.closure.body)
    (Stmt.allIdentifiers code)
  closed : Stmt.AllClosed (d.threadIds :: d.captures.all.map (·.shaderName)) code
  threadIds : (.referent (.local Model.paramId), d.threadIds) ∈ names
  /-- The captures of the descriptor are those among the entities, each once. -/
  captures : (d.captures.all.map Capture.reads).Perm
    (names.filterMap fun p => (p.1.source? body.catalog).map (·, p.2))
  shaderNames : (d.captures.all.map (·.shaderName)).Nodup
  locals : ∀ id < body.model.locals.length, ∃ name, (.referent (.local id), name) ∈ names
  fields : ∀ i < body.catalog.fields.length, ∃ name, (.referent (.capture i), name) ∈ names
  entities : (names.map (·.1)).Nodup
  identifiers : (names.map (·.2)).Nodup
  unreserved : ∀ p ∈ names, ¬ isReserved p.2

/-- The captures and statics among the entities, with what their values come from. -/
theorem sources_names (hnamed : ∀ u ∈ statics, catalog.statics[u.index]? = some u.decl) :
    (ctx.names statics bounds).filterMap (fun p => (p.1.source? catalog).map (·, p.2)) =
      ctx.captureNames.zipIdx.map (fun p => (.field p.2, p.1)) ++
        statics.map fun u => (.static u.decl, u.name) := by
  have hstatics : statics.filterMap ((fun p : Entity × String =>
      (p.1.source? catalog).map (·, p.2)) ∘ fun u => (.referent (.static u.index), u.name)) =
        statics.map fun u => (.static u.decl, u.name) := by
    rw [← List.filterMap_eq_map]
    refine List.filterMap_congr fun u hu => ?_
    simp [Entity.source?, hnamed u hu]
  have hlocals : ctx.localNames.zipIdx.filterMap ((fun p : Entity × String =>
      (p.1.source? catalog).map (·, p.2)) ∘ fun p => (.referent (.local p.2), p.1)) = [] :=
    List.filterMap_eq_nil_iff.mpr fun _ _ => rfl
  have hbounds : bounds.filterMap ((fun p : Entity × String =>
      (p.1.source? catalog).map (·, p.2)) ∘ fun b => (.bound b.1, b.2)) = [] :=
    List.filterMap_eq_nil_iff.mpr fun _ _ => rfl
  have hcaptures : ctx.captureNames.zipIdx.filterMap ((fun p : Entity × String =>
      (p.1.source? catalog).map (·, p.2)) ∘ fun p => (.referent (.capture p.2), p.1)) =
        ctx.captureNames.zipIdx.map fun p => (.field p.2, p.1) := by
    rw [← List.filterMap_eq_map]
    rfl
  simp only [Context.names, List.filterMap_append, List.filterMap_map, hstatics, hlocals, hbounds, hcaptures,
    List.append_nil, List.nil_append]

theorem exists_static_of_mem_names {index : Nat} {name : String}
    (h : (.referent (.static index), name) ∈ ctx.names statics bounds) :
    ∃ u ∈ statics, u.index = index := by
  simp only [Context.names, List.mem_append, List.mem_map] at h
  rcases h with ⟨_, _, h⟩ | ⟨_, _, h⟩ | ⟨u, hu, h⟩ | ⟨_, _, h⟩
  · cases h
  · cases h
  · cases h
    exact ⟨u, hu, rfl⟩
  · cases h

/-- Where nothing but the thread index is in scope, that and the captures are in reach. -/
theorem reaches_captures {cs : List Capture} {threadIds param : String}
    (hnamed : ∀ u ∈ statics, catalog.statics[u.index]? = some u.decl)
    (hcaptures : (cs.map Capture.reads).Perm ((ctx.names statics bounds).filterMap
      fun p => (p.1.source? catalog).map (·, p.2)))
    (hthreads : ctx.localNames[Model.paramId]? = some threadIds) :
    Reaches (ctx.names statics bounds) [[(param, Model.paramId)]]
      (threadIds :: cs.map (·.shaderName)) := by
  rintro ⟨entity, name⟩ hp hin
  have hcapture : ∀ source, entity.source? catalog = some source → name ∈ cs.map (·.shaderName) := by
    intro source hsource
    have hmem : (source, name) ∈ cs.map Capture.reads :=
      hcaptures.symm.subset (List.mem_filterMap.mpr ⟨_, hp, by simp [hsource]⟩)
    obtain ⟨c, hc, hreads⟩ := List.mem_map.mp hmem
    exact List.mem_map.mpr ⟨c, hc, congrArg Prod.snd hreads⟩
  rcases entity with (id | field | index) | counter
  · obtain rfl : id = Model.paramId := by
      have hid : id ∈ Scopes.ids [[(param, Model.paramId)]] := hin
      simpa [Scopes.ids] using hid
    obtain rfl := Option.some.inj ((ident_of_mem_names hp).symm.trans hthreads)
    exact List.mem_cons_self
  · exact List.mem_cons_of_mem _ (hcapture _ rfl)
  · obtain ⟨u, hu, rfl⟩ := exists_static_of_mem_names hp
    refine List.mem_cons_of_mem _ (hcapture (.static u.decl) ?_)
    rw [Entity.source?, hnamed u hu]
    rfl
  · exact hin.elim

theorem map_snd_sources_sublist (names : List (Entity × String)) :
    ((names.filterMap fun p => (p.1.source? catalog).map (·, p.2)).map (·.2)).Sublist
      (names.map (·.2)) := by
  induction names with
  | nil => exact .slnil
  | cons p names ih =>
    rw [List.filterMap_cons]
    cases hsource : p.1.source? catalog with
    | none => exact ih.cons _
    | some source => exact ih.cons_cons _

theorem addFields_of_fieldCaptures {k : Kernel} {table : TypeTable} {captures : Captures}
    (h : Translator.fieldCaptures k table = .ok captures) :
    Captures.extend {} (Classify.addFields k.name table 0 (k.catalog.fields.zip
      (Shader.captureNames (k.catalog.fields.map (·.name))).1)) = .ok captures := by
  simp only [Translator.fieldCaptures] at h
  cases hshape : checkShape k.name k.catalog.fields with
  | error e =>
    rw [hshape] at h
    cases h
  | ok _ =>
    rw [hshape] at h
    exact h

/-- What a descriptor takes from the body: the code, the thread index and the statics. -/
theorem exists_of_describe {id : KernelId} {captures : Captures} {body : CheckedBody}
    {table : TypeTable} {d : Descriptor} (h : Translator.describe id captures body table = .ok d) :
    ∃ b c, Body.of body table = .ok b ∧ d.body = b.text ∧ d.threadIds = b.threadIds ∧
      captures.extend (Classify.addStatics body.kernel table
        (b.statics.map fun u => (u.decl, u.name))) = .ok c ∧ d.captures = c.finish := by
  unfold Translator.describe at h
  split at h
  · cases h
  · rename_i b hb
    simp only at h
    cases hstatics : captures.extend (Classify.addStatics body.kernel table
        (b.statics.map fun u => (u.decl, u.name))) with
    | error e =>
      rw [hstatics] at h
      cases h
    | ok c =>
      rw [hstatics] at h
      cases h
      exact ⟨b, c, hb, rfl, rfl, hstatics, rfl⟩

/-- The captures of a descriptor are the fields and the statics that its body reads. -/
theorem reads_of_describe {k : Kernel} {id : KernelId} {table : TypeTable} {captures : Captures}
    {body : CheckedBody} {b : Body} {d : Descriptor} (hb : Body.of body table = .ok b)
    (hfields : Translator.fieldCaptures k table = .ok captures)
    (h : Translator.describe id captures body table = .ok d) :
    d.body = b.text ∧ d.threadIds = b.threadIds ∧ (d.captures.all.map Capture.reads).Perm
      ((Shader.captureNames (k.catalog.fields.map (·.name))).1.zipIdx.map
          (fun p => (.field p.2, p.1)) ++
        b.statics.map fun u => (.static u.decl, u.name)) := by
  obtain ⟨b', c, hb', htext, hthreads, hstatics, hcaptures⟩ := exists_of_describe h
  cases hb.symm.trans hb'
  rw [hcaptures]
  refine ⟨htext, hthreads, (Captures.reads_addStatics hstatics).trans ?_⟩
  rw [List.map_map]
  refine List.Perm.append_right _ ?_
  have hperm := Captures.reads_addFields (addFields_of_fieldCaptures hfields)
  rw [List.map_snd_zip] at hperm
  · exact hperm
  · simp [Shader.captureNames, length_allocateAll]

/-- What a translation that succeeds goes through, where the memory holds what reading the kernel
gives. -/
theorem exists_of_translateWith {t : Translator} {k : Kernel} {table : TypeTable} {d : Descriptor}
    (hmemory : ∀ result ∈ t.bodies.value? k.toKernelId,
      result = CheckedBody.of k.name k.source k.catalog)
    (h : (t.translateWith k table).1 = .ok d) :
    ∃ captures body b, Translator.fieldCaptures k table = .ok captures ∧
      CheckedBody.of k.name k.source k.catalog = .ok body ∧ Body.of body table = .ok b ∧
      Translator.describe k.toKernelId captures body table = .ok d := by
  have hbody : (t.checkedBody k).1 = CheckedBody.of k.name k.source k.catalog := by
    unfold Translator.checkedBody
    split
    · rename_i result hresult
      exact hmemory result hresult
    · rfl
  unfold Translator.translateWith at h
  split at h
  · cases h
  rename_i captures hfields
  split at h
  · cases h
  rename_i body t' hchecked
  rw [hchecked] at hbody
  obtain ⟨b, _, hb, _⟩ := exists_of_describe h
  exact ⟨captures, body, b, hfields, hbody.symm, hb, h⟩

/-- What is known of a body that a kernel was translated to: its code is a translation of the closure,
with variables for these bounds, and its identifiers tell the entities apart and are not reserved. -/
structure Body.Accounted (b : Body) (body : CheckedBody) (table : TypeTable)
    (bounds : List (Nat × String)) : Prop where
  lowers : LowersStmt (.of body table) body.catalog b.statics (.block body.closure.body) b.code bounds
  entities : (((Context.of body table).names b.statics bounds).map (·.1)).Nodup
  identifiers : (((Context.of body table).names b.statics bounds).map (·.2)).Nodup
  unreserved : ∀ p ∈ (Context.of body table).names b.statics bounds, ¬ isReserved p.2
  named : ∀ u ∈ b.statics, u.Named (.of body table)
  captureNames : b.captureNames = (Context.of body table).captureNames
  threadIds : (Context.of body table).localNames[Model.paramId]? = some b.threadIds

theorem exists_accounted {kernel source : String} {catalog : Catalog} {body : CheckedBody}
    (hbody : CheckedBody.of kernel source catalog = .ok body) {table : TypeTable} {b : Body}
    (hb : Body.of body table = .ok b) : ∃ bounds, b.Accounted body table bounds := by
  have hcomplete := CheckedBody.complete hbody
  obtain ⟨_, hparse, hbind⟩ := CheckedBody.read_and_bound hbody
  obtain ⟨hi, hlaid⟩ := Closure.laid_of_parse hparse
  obtain ⟨code, s, hrun, bounds, hproceeds⟩ := Lower.proceeds_of_covers (Context.fits_of body table)
    hcomplete.locals hcomplete.body (Progress.of body)
  obtain ⟨_, _, threadIds, _, _, hthreads⟩ := lowers_of_checked hbody table
  rw [Body.of_eq body table hrun hthreads] at hb
  split at hb
  · cases hb
    have hlowers := hproceeds.lowers s.statics (List.prefix_refl _)
    have hincreasing := (hlowers.increasing (Closure.resolves_of_bind hlaid hbind)).1
    have haccounted := hproceeds.gives _ _ (accounted_of body table)
    rw [List.append_nil] at haccounted
    obtain ⟨hidentifiers, hunreserved⟩ := snd_names_of_accounted haccounted
    exact ⟨bounds, hlowers, nodup_fst_names haccounted.indexes (hincreasing.imp Nat.ne_of_lt),
      hidentifiers, hunreserved, hproceeds.advances.named nofun, rfl, hthreads⟩
  · cases hb

/-- Translated kernels are hygienic. -/
theorem hygienic_of_translateWith {t : Translator} {k : Kernel} {table : TypeTable} {d : Descriptor}
    (hmemory : ∀ result ∈ t.bodies.value? k.toKernelId,
      result = CheckedBody.of k.name k.source k.catalog)
    (h : (t.translateWith k table).1 = .ok d) :
    ∃ body b names, CheckedBody.of k.name k.source k.catalog = .ok body ∧
      Body.of body table = .ok b ∧ d.body = b.text ∧ Hygienic d body b.code names := by
  obtain ⟨captures, body, b, hfields, hbody, hb, hdescribe⟩ := exists_of_translateWith hmemory h
  obtain ⟨hcatalog, hparse, hbind⟩ := CheckedBody.read_and_bound hbody
  obtain ⟨hi, hlaid⟩ := Closure.laid_of_parse hparse
  have hresolves := Closure.resolves_of_bind hlaid hbind
  obtain ⟨bounds, haccounted⟩ := exists_accounted hbody hb
  obtain ⟨htext, hthreadIds, hreads⟩ := reads_of_describe hb hfields hdescribe
  set ctx := Context.of body table
  have hnamed : ∀ u ∈ b.statics, body.catalog.statics[u.index]? = some u.decl := fun u hu =>
    (haccounted.named u hu).1
  have hcaptures : (d.captures.all.map Capture.reads).Perm ((ctx.names b.statics bounds).filterMap
      fun p => (p.1.source? body.catalog).map (·, p.2)) := by
    rw [sources_names hnamed]
    rw [← hcatalog] at hreads
    exact hreads
  have hnames := hcaptures.map Prod.snd
  rw [List.map_map] at hnames
  refine ⟨body, b, ctx.names b.statics bounds, hbody, hb, htext, ?_⟩
  refine ⟨haccounted.lowers.places (List.Subset.refl _), ?_, ?_, hcaptures, ?_, fun id hid => ?_,
    fun i hi => ?_, haccounted.entities, haccounted.identifiers, haccounted.unreserved⟩
  · rw [hthreadIds]
    exact (haccounted.lowers.closed hresolves
      (reaches_captures hnamed hcaptures haccounted.threadIds)).1
  · rw [hthreadIds]
    exact ctx.mem_names_of_identifies (.local haccounted.threadIds)
  · exact hnames.nodup_iff.mpr (haccounted.identifiers.sublist (map_snd_sources_sublist _))
  · have hid' : id < ctx.localNames.length := (Context.fits_of body table).locals ▸ hid
    exact ⟨_, ctx.mem_names_of_identifies (.local (List.getElem?_eq_getElem hid'))⟩
  · have hi' : i < ctx.captureNames.length := (Context.fits_of body table).captures ▸ hi
    exact ⟨_, ctx.mem_names_of_identifies (.capture (List.getElem?_eq_getElem hi'))⟩

/-- A kernel with a reserved name, a name shadowed in a loop and one that looks like that of a bound. -/
def ramp : Kernel where
  name := "Ramp"
  source := "|ids| \x7b let float = gain; let i_end = 7u32; let mut stop = i_end; "
    ++ "for i in 0..stop \x7b let float = float + 1.0; out[i] = float; stop = stop - ids.x; \x7d \x7d"
  catalog :=
    { fields := [⟨"out", "ReadWriteBuffer<f32>", false⟩]
      statics := [{ path := "app::gain", type := "f32" }] }

theorem hygienic_of_translateWith_ramp :
    ∃ d, (({} : Translator).translateWith ramp .hlsl).1 = .ok d ∧
      ∃ body b names, CheckedBody.of ramp.name ramp.source ramp.catalog = .ok body ∧
        Body.of body .hlsl = .ok b ∧ d.body = b.text ∧ Hygienic d body b.code names :=
  (exists_of_isOk (by decide +kernel)).imp fun _ h => 
    ⟨h, hygienic_of_translateWith (by rintro _ ⟨⟩) h⟩

end Shader

end ComputeKernel
