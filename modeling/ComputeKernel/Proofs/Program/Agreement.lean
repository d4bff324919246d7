import ComputeKernel.Proofs.Binding.Refusals
import ComputeKernel.Proofs.Program.Declarations
import ComputeKernel.Proofs.Program.Transparency
import ComputeKernel.Proofs.Shader.Hygiene

/-!
Agreement of program and manifest. Slots are counted while captures are added, the manifest is put
together from them, the program is printed from the manifest, and the uniform buffer is laid out and
packed on its own. For a kernel type that has been translated all of them name the same addresses.
-/

namespace ComputeKernel

/-- Whether what a program declares is what the manifest of a descriptor binds and what packing fills. -/
structure Program.Agrees (p : Program) (d : Descriptor) : Prop where
  /-- Each resource has one slot and one declaration, at the register of the slot's parameter. -/
  resources : ∀ (i : Nat) (c : Capture), d.resources[i]? = some c → ∃ slot : BindingSlot,
    d.slots.filter (fun s => s.resource = some i) = [slot] ∧
    p.resources.filter (fun x => x.name = c.shaderName) =
      [⟨c.shaderType, c.shaderName, slot.parameter.register⟩]
  resourceCount : p.resources.length = d.resources.length
  /-- Each scalar is declared in its turn, at the byte where packing puts its value. -/
  scalars : ∀ (i : Nat) (c : Capture), d.scalars[i]? = some c → ∃ (x : ScalarDecl) (e : Uniform.Entry),
    p.scalars[i]? = some x ∧ x.type = c.shaderType ∧ x.name = c.shaderName ∧
    d.uniforms.entries[i]? = some e ∧ x.offset.bytes = e.offset ∧
    ∀ instance_ image, d.pack instance_ = .ok image →
      ∃ bytes, c.read instance_ = .bytes bytes ∧ e.Holds image bytes
  scalarCount : p.scalars.length = d.scalars.length
  names : (p.resources.map (·.name) ++ p.scalars.map (·.name)).Nodup
  /-- The scalars, if there are any, are in a block at the first register. -/
  uniforms : p.uniforms.isSome ↔ d.scalars ≠ []
  uniformRegister : ∀ u ∈ p.uniforms, u.register.text = "b0"
  registers : (p.registers.map Register.text).Nodup
  /-- Nothing is declared for the slot of the uniform buffer where there are no scalars, and for that
  slot only. -/
  undeclared : ∀ slot ∈ d.slots,
    slot.parameter.register ∉ p.registers ↔ slot.isUniform ∧ d.scalars = []

/-! ### Lists -/

theorem filter_eq_singleton_of_nodup {α β : Type} [DecidableEq β] {f : α → Option β}
    {l : List α} (h : (l.filterMap f).Nodup) {x : α} (hx : x ∈ l) {b : β} (hb : f x = some b) :
    l.filter (fun y => f y = some b) = [x] := by
  induction l with
  | nil => cases hx
  | cons a l ih =>
    rcases List.mem_cons.mp hx with rfl | hx
    · rw [List.filterMap_cons_some hb, List.nodup_cons] at h
      rw [List.filter_cons_of_pos (by simpa using hb)]
      congr 1
      refine List.filter_eq_nil_iff.mpr fun y hy hfy => h.1 ?_
      exact List.mem_filterMap.mpr ⟨y, hy, by simpa using hfy⟩
    · have hmem : b ∈ l.filterMap f := List.mem_filterMap.mpr ⟨x, hx, hb⟩
      have hne : f a ≠ some b := by
        intro ha
        rw [List.filterMap_cons_some ha, List.nodup_cons] at h
        exact h.1 hmem
      have hrest : (l.filterMap f).Nodup := by
        cases ha : f a with
        | none => rwa [List.filterMap_cons_none ha] at h
        | some b' =>
          rw [List.filterMap_cons_some ha, List.nodup_cons] at h
          exact h.2
      rw [List.filter_cons_of_neg (by simpa using hne)]
      exact ih hrest hx

theorem filterMap_getElem?_range {α : Type} (l : List α) :
    (List.range l.length).filterMap (l[·]?) = l := by
  induction l with
  | nil => rfl
  | cons a l ih =>
    rw [List.length_cons, List.range_succ_eq_map, List.filterMap_cons, List.filterMap_map]
    exact congrArg (a :: ·) ih

namespace Descriptor

variable {d : Descriptor}

/-! ### Resources -/

theorem resources_program_perm (d : Descriptor) (s : Settings) :
    (d.program s).resources.Perm (d.boundResources.map resourceDecl) := by
  unfold Program.resources program
  simp only
  induction d.boundResources with
  | nil => exact .refl _
  | cons x xs ih =>
    rw [List.map_cons]
    by_cases hconstant : x.1.category = .constantBuffer
    · have hdecl : d.constantDecl? s x = some ⟨resourceDecl x,
          blockName d.shaderNames s!"_cb_{x.2.shaderName}", s.constantBufferCapacity⟩ :=
        if_pos hconstant
      have hbuffer : bufferDecl? x = none := if_pos hconstant
      rw [List.filterMap_cons_some hdecl, List.filterMap_cons_none hbuffer]
      exact ih.cons _
    · have hdecl : d.constantDecl? s x = none := if_neg hconstant
      have hbuffer : bufferDecl? x = some (resourceDecl x) := if_neg hconstant
      rw [List.filterMap_cons_none hdecl, List.filterMap_cons_some hbuffer]
      exact List.perm_middle.trans (ih.cons _)

/-- Each slot but that of the uniform buffer binds a resource. -/
theorem slots_eq (h : BindingSlot.Manifest d.resources d.slots) :
    d.slots = .uniform :: d.boundResources.map (·.1) := by
  obtain ⟨constants, readOnlys, readWrites, hslots, hconstants, hreadOnlys, hreadWrites⟩ := h.groups
  have hfor : ∀ slot ∈ constants ++ (readOnlys ++ readWrites), ∃ category,
      slot.IsFor d.resources category := by
    intro slot hslot
    rcases List.mem_append.mp hslot with hslot | hslot
    · exact ⟨_, hconstants.isFor slot hslot⟩
    · rcases List.mem_append.mp hslot with hslot | hslot
      · exact ⟨_, hreadOnlys.isFor slot hslot⟩
      · exact ⟨_, hreadWrites.isFor slot hslot⟩
  rw [boundResources, hslots]
  congr 1
  generalize constants ++ (readOnlys ++ readWrites) = slots at hfor
  rw [List.filterMap_cons_none rfl]
  induction slots with
  | nil => rfl
  | cons slot slots ih =>
    obtain ⟨category, _, position, c, hposition, hc, _⟩ := hfor slot List.mem_cons_self
    have hrest := ih fun slot' hslot' => hfor slot' (List.mem_cons_of_mem _ hslot')
    simp only [List.filterMap_cons, hposition, hc, Option.bind_eq_bind, Option.bind_some]
    exact congrArg (slot :: ·) hrest

/-- The resources that the slots bind are all resources. -/
theorem map_snd_boundResources_perm (h : BindingSlot.Manifest d.resources d.slots) :
    (d.boundResources.map (·.2)).Perm d.resources := by
  have hpositions := h.positions.filterMap (d.resources[·]?)
  rw [filterMap_getElem?_range, List.filterMap_filterMap] at hpositions
  refine .trans (.of_eq ?_) hpositions
  rw [boundResources, List.map_filterMap]
  refine List.filterMap_congr fun slot _ => ?_
  cases hposition : slot.resource with
  | none => rfl
  | some position => cases hc : d.resources[position]? <;> simp [hc]

theorem mem_boundResources {slot : BindingSlot} {c : Capture} (h : (slot, c) ∈ d.boundResources) :
    slot ∈ d.slots ∧ ∃ i, slot.resource = some i ∧ d.resources[i]? = some c := by
  obtain ⟨slot', hslot', hbound⟩ := List.mem_filterMap.mp h
  simp only [Option.bind_eq_bind, Option.bind_eq_some_iff] at hbound
  obtain ⟨i, hi, c', hc', heq⟩ := hbound
  obtain ⟨rfl, rfl⟩ := Prod.mk.inj (Option.some.inj heq)
  exact ⟨hslot', i, hi, hc'⟩

/-! ### Registers -/

/-- The slots that something is declared for. -/
def declaredSlots (d : Descriptor) : List BindingSlot :=
  if d.scalars = [] then d.boundResources.map (·.1) else d.slots

theorem length_scalarDecls (d : Descriptor) : d.scalarDecls.length = d.scalars.length := by
  have hlength : d.uniforms.entries.length = d.scalars.length :=
    (Uniform.firstFit_entries d.scalars 0).length_eq
  rw [scalarDecls, List.length_map, List.length_zip, hlength, Nat.min_self]

theorem isEmpty_scalarDecls (d : Descriptor) : d.scalarDecls.isEmpty ↔ d.scalars = [] := by
  rw [List.isEmpty_iff_length_eq_zero, length_scalarDecls, List.length_eq_zero_iff]

theorem registers_program_perm (h : BindingSlot.Manifest d.resources d.slots) (s : Settings) :
    (d.program s).registers.Perm (d.declaredSlots.map (·.parameter.register)) := by
  have hresources : ((d.program s).resources.map (·.register)).Perm
      ((d.boundResources.map (·.1)).map (·.parameter.register)) := by
    have hperm := (resources_program_perm d s).map (·.register)
    rwa [List.map_map] at hperm ⊢
  unfold Program.registers declaredSlots
  by_cases hscalars : d.scalars = []
  · have hempty := (isEmpty_scalarDecls d).mpr hscalars
    have hnone : (d.program s).uniforms = none := if_pos hempty
    rw [hnone, if_pos hscalars]
    exact hresources
  · have hempty : ¬ d.scalarDecls.isEmpty := fun h => hscalars ((isEmpty_scalarDecls d).mp h)
    have hsome : (d.program s).uniforms =
        some ⟨blockName d.shaderNames "_uniforms", ⟨.cbv, 0⟩, d.scalarDecls⟩ := if_neg hempty
    rw [hsome, if_neg hscalars, slots_eq h]
    exact hresources.cons _

theorem nodup_slot_registers (h : BindingSlot.Manifest d.resources d.slots) :
    (d.slots.map (·.parameter.register)).Nodup := by
  have hregisters := h.registers
  rw [List.map_map] at hregisters
  refine List.Nodup.of_map (fun r => (r.kind, r.number)) ?_
  rw [List.map_map]
  exact hregisters

theorem declaredSlots_sublist (h : BindingSlot.Manifest d.resources d.slots) :
    d.declaredSlots.Sublist d.slots := by
  unfold declaredSlots
  split
  · rw [slots_eq h]
    exact List.sublist_cons_self _ _
  · exact .refl _

/-- All slots but that of an empty uniform buffer are declared. -/
theorem not_mem_registers_iff (h : BindingSlot.Manifest d.resources d.slots) (s : Settings)
    {slot : BindingSlot} (hslot : slot ∈ d.slots) :
    slot.parameter.register ∉ (d.program s).registers ↔ slot.isUniform ∧ d.scalars = [] := by
  have hnodup := nodup_slot_registers h
  have hmem : slot.parameter.register ∈ (d.program s).registers ↔ slot ∈ d.declaredSlots := by
    rw [(registers_program_perm h s).mem_iff]
    refine ⟨fun hregister => ?_, List.mem_map_of_mem⟩
    obtain ⟨slot', hslot', heq⟩ := List.mem_map.mp hregister
    have hsame := List.inj_on_of_nodup_map hnodup ((declaredSlots_sublist h).subset hslot') hslot heq
    exact hsame ▸ hslot'
  rw [hmem, declaredSlots]
  by_cases hscalars : d.scalars = []
  · rw [if_pos hscalars]
    constructor
    · intro hundeclared
      refine ⟨?_, hscalars⟩
      rw [slots_eq h] at hslot
      rcases List.mem_cons.mp hslot with rfl | hbound
      · rfl
      · exact (hundeclared hbound).elim
    · rintro ⟨huniform, _⟩ hbound
      obtain ⟨⟨slot', c⟩, hx, rfl⟩ := List.mem_map.mp hbound
      obtain ⟨_, i, hi, _⟩ := mem_boundResources hx
      rw [BindingSlot.isUniform, hi] at huniform
      cases huniform
  · rw [if_neg hscalars]
    exact ⟨fun hundeclared => (hundeclared hslot).elim, fun ⟨_, hnone⟩ => (hscalars hnone).elim⟩

/-! ### Scalars -/

theorem scalars_program (d : Descriptor) (s : Settings) :
    (d.program s).scalars = d.scalarDecls := by
  unfold Program.scalars program
  by_cases hempty : d.scalarDecls.isEmpty
  · simp only [if_pos hempty]
    exact (List.isEmpty_iff.mp hempty).symm
  · simp only [if_neg hempty]
    rfl

/-- A scalar is declared in its turn, at the offset of its entry. -/
theorem exists_scalarDecl {i : Nat} {c : Capture} (hc : d.scalars[i]? = some c) :
    ∃ x e, d.scalarDecls[i]? = some x ∧ x.type = c.shaderType ∧ x.name = c.shaderName ∧
      d.uniforms.entries[i]? = some e ∧ x.offset.bytes = e.offset := by
  obtain ⟨e, start, he, hplaces⟩ := (Uniform.firstFit_entries d.scalars 0).exists_places hc
  refine ⟨⟨c.shaderType, c.shaderName, .ofBytes e.offset⟩, e, ?_, rfl, rfl, he,
    PackOffset.bytes_ofBytes hplaces.four_dvd_offset⟩
  have hzip : (d.scalars.zip d.uniforms.entries)[i]? = some (c, e) :=
    List.getElem?_zip_eq_some.mpr ⟨hc, he⟩
  rw [scalarDecls, List.getElem?_map, hzip]
  rfl

/-- A packed image has the value of each scalar where its entry says. -/
theorem holds_of_pack {instance_ : Instance} {image : List UInt8} (h : d.pack instance_ = .ok image)
    {i : Nat} {c : Capture} (hc : d.scalars[i]? = some c) {e : Uniform.Entry}
    (he : d.uniforms.entries[i]? = some e) :
    ∃ bytes, c.read instance_ = .bytes bytes ∧ e.Holds image bytes := by
  have hpack : d.uniforms.pack ((d.scalarValues instance_).map CaptureValue.bytes?) = .ok image := by
    unfold pack at h
    split at h
    · exact h
    · cases h
  have hstop : Uniform.extent (Uniform.entries 0 d.scalars) ≤
      (List.replicate d.uniforms.size (0 : UInt8)).length := by
    rw [List.length_replicate]
    exact Uniform.le_roundUp _ (by decide)
  have hpacks := (Uniform.firstFit_entries d.scalars 0).packs_of_packInto hstop hpack
  obtain ⟨bytes, hvalue, hholds⟩ := hpacks.holds i e he
  refine ⟨bytes, ?_, hholds⟩
  have hread : Uniform.valueAt ((d.scalarValues instance_).map CaptureValue.bytes?) i =
      (c.read instance_).bytes? := by
    rw [Uniform.valueAt, scalarValues, List.map_map, List.getElem?_map, hc]
    rfl
  rw [hread] at hvalue
  cases hbytes : c.read instance_ with
  | resource handle =>
    rw [hbytes] at hvalue
    cases hvalue
  | bytes data =>
    rw [hbytes] at hvalue
    cases hvalue
    rfl

/-! ### Agreement -/

/-- The names that are declared are the identifiers of the captures. -/
theorem names_program_perm (h : BindingSlot.Manifest d.resources d.slots) (s : Settings) :
    ((d.program s).resources.map (·.name) ++ (d.program s).scalars.map (·.name)).Perm
      d.shaderNames := by
  rw [shaderNames, List.map_append]
  refine List.Perm.append ?_ (.of_eq ?_)
  · have hnames := (resources_program_perm d s).map (·.name)
    have hbound := (map_snd_boundResources_perm h).map (·.shaderName)
    rw [List.map_map] at hnames hbound
    exact hnames.trans hbound
  · rw [scalars_program]
    refine List.ext_getElem? fun i => ?_
    rw [List.getElem?_map, List.getElem?_map]
    cases hc : d.scalars[i]? with
    | none =>
      have hlength : d.scalarDecls.length ≤ i := by
        rw [length_scalarDecls]
        exact List.getElem?_eq_none_iff.mp hc
      rw [List.getElem?_eq_none hlength]
      rfl
    | some c =>
      obtain ⟨x, e, hx, _, hname, _⟩ := exists_scalarDecl hc
      rw [hx, Option.map_some, hname]
      rfl

/-- A resource has one slot and one declaration. -/
theorem exists_slot (h : BindingSlot.Manifest d.resources d.slots) (hnames : d.shaderNames.Nodup)
    (s : Settings) {i : Nat} {c : Capture} (hc : d.resources[i]? = some c) :
    ∃ slot : BindingSlot, d.slots.filter (fun s => s.resource = some i) = [slot] ∧
      (d.program s).resources.filter (fun x => x.name = c.shaderName) =
        [⟨c.shaderType, c.shaderName, slot.parameter.register⟩] := by
  have hpositions : (d.slots.filterMap (·.resource)).Nodup :=
    h.positions.nodup_iff.mpr List.nodup_range
  have hi : i ∈ d.slots.filterMap (·.resource) :=
    h.positions.mem_iff.mpr (List.mem_range.mpr (List.getElem?_eq_some_iff.mp hc).1)
  obtain ⟨slot, hslot, hresource⟩ := List.mem_filterMap.mp hi
  refine ⟨slot, filter_eq_singleton_of_nodup hpositions hslot hresource, ?_⟩
  have hbound : (slot, c) ∈ d.boundResources :=
    List.mem_filterMap.mpr ⟨slot, hslot, by simp [hresource, hc]⟩
  have hdecl : resourceDecl (slot, c) ∈ (d.program s).resources :=
    (resources_program_perm d s).mem_iff.mpr (List.mem_map_of_mem hbound)
  have hnodup := (List.nodup_append.mp ((names_program_perm h s).nodup_iff.mpr hnames)).1
  rw [← List.filterMap_eq_map] at hnodup
  have hone := filter_eq_singleton_of_nodup hnodup hdecl (b := c.shaderName) rfl
  simpa [resourceDecl] using hone

theorem program_agrees (h : BindingSlot.Manifest d.resources d.slots) (hnames : d.shaderNames.Nodup)
    (s : Settings) : (d.program s).Agrees d where
  resources _ _ hc := exists_slot h hnames s hc
  resourceCount := by
    have hbound := (map_snd_boundResources_perm h).length_eq
    rw [(resources_program_perm d s).length_eq, List.length_map, ← hbound, List.length_map]
  scalars i c hc := by
    obtain ⟨x, e, hx, htype, hname, he, hoffset⟩ := exists_scalarDecl hc
    refine ⟨x, e, ?_, htype, hname, he, hoffset, fun _ _ hpack => holds_of_pack hpack hc he⟩
    rw [scalars_program]
    exact hx
  scalarCount := by rw [scalars_program, length_scalarDecls]
  names := (names_program_perm h s).nodup_iff.mpr hnames
  uniforms := by
    unfold program
    by_cases hempty : d.scalarDecls.isEmpty
    · simp [hempty, (isEmpty_scalarDecls d).mp hempty]
    · have hscalars : d.scalars ≠ [] := fun h => hempty ((isEmpty_scalarDecls d).mpr h)
      simp [hempty, hscalars]
  uniformRegister u hu := by
    have hregister : Register.text ⟨.cbv, 0⟩ = "b0" := by decide +kernel
    simp only [program, Option.mem_def] at hu
    split at hu
    · cases hu
    · cases hu
      exact hregister
  registers := by
    refine List.Nodup.map Register.text_injective ?_
    rw [(registers_program_perm h s).nodup_iff]
    exact ((declaredSlots_sublist h).map _).nodup (nodup_slot_registers h)
  undeclared _ hslot := not_mem_registers_iff h s hslot

end Descriptor

/-! ### Translations -/

namespace Translator

/-- The captures of a translated kernel type have consecutive slots. -/
theorem numbered_of_describe {id : KernelId} {k : Kernel} {table : TypeTable} {captures : Captures}
    {body : CheckedBody} {d : Descriptor} (hfields : fieldCaptures k table = .ok captures)
    (h : describe id captures body table = .ok d) : d.captures.Numbered := by
  have hadded := Shader.addFields_of_fieldCaptures hfields
  rw [Captures.addFields_eq_addAll] at hadded
  obtain ⟨_, _, _, _, _, hstatics, hcaptures⟩ := Shader.exists_of_describe h
  rw [Captures.addStatics_eq_addAll] at hstatics
  rw [hcaptures]
  exact ((Captures.counted_empty.addAll hadded).addAll hstatics).numbered

/-- The captures of a translated kernel type have identifiers of their own. -/
theorem nodup_shaderNames {id : KernelId} {k : Kernel} {table : TypeTable} {captures : Captures}
    {body : CheckedBody} {b : Shader.Body} {d : Descriptor}
    (hfields : fieldCaptures k table = .ok captures)
    (hbody : CheckedBody.of k.name k.source k.catalog = .ok body)
    (hb : Shader.Body.of body table = .ok b) (h : describe id captures body table = .ok d) :
    d.shaderNames.Nodup := by
  obtain ⟨hcatalog, _, _⟩ := CheckedBody.read_and_bound hbody
  obtain ⟨bounds, haccounted⟩ := Shader.exists_accounted hbody hb
  have hidentifiers := haccounted.identifiers
  rw [Shader.map_snd_names] at hidentifiers
  have hreads := ((Shader.reads_of_describe hb hfields h).2.2).map Prod.snd
  have hnames : d.shaderNames.Perm ((Shader.Context.of body table).captureNames ++
      b.statics.map (·.name)) := by
    rw [List.map_map, List.map_append, List.map_map, List.map_map] at hreads
    refine hreads.trans (.of_eq (congrArg (· ++ _) ?_))
    have hfst := List.zipIdx_map_fst 0 (Shader.Context.of body table).captureNames
    rw [← hcatalog]
    exact hfst
  refine hnames.nodup_iff.mpr (hidentifiers.sublist ?_)
  refine List.Sublist.append (.refl _) ?_
  exact (List.sublist_append_left _ _).trans (List.sublist_append_right _ _)

end Translator

namespace Library

/-- The results of a reply. -/
def Reply.results : Reply → List (Except TranslateError Descriptor)
  | .descriptor result => [result]
  | .descriptors results => results
  | .program _ | .closure _ => []

/-- A descriptor in a reply is that of some kernel type and table. -/
theorem exists_translation {l : Library} {calls : List Call} {d : Descriptor}
    (h : .ok d ∈ (l.serveAll {} calls).1.flatMap Reply.results) :
    ∃ k table, l.translation k table = .ok d := by
  obtain ⟨hreplies, _⟩ := l.serveAll_of_coherent (Translator.coherent_empty l) calls
  rw [hreplies] at h
  obtain ⟨reply, hreply, hd⟩ := List.mem_flatMap.mp h
  obtain ⟨c, _, rfl⟩ := List.mem_map.mp hreply
  cases c with
  | translate k => exact ⟨k, .hlsl, (List.mem_singleton.mp hd).symm⟩
  | translateWith k table => exact ⟨k, table, (List.mem_singleton.mp hd).symm⟩
  | translateAll ks =>
    obtain ⟨k, _, hk⟩ := List.mem_map.mp hd
    exact ⟨k, .hlsl, hk⟩
  | compile k settings => cases hd
  | read k => cases hd

/-- The program of a descriptor that a translator has given is the text of declarations which agree with
the manifest and with packing. -/
theorem render_agrees (l : Library) (calls : List Call) (d : Descriptor)
    (h : .ok d ∈ (l.serveAll {} calls).1.flatMap Reply.results) (s : Settings) :
    d.render s = (d.program s).text ∧ (d.program s).Agrees d := by
  obtain ⟨name, table, hd⟩ := exists_translation h
  obtain ⟨captures, body, b, hfields, hbody, hb, hdescribe⟩ :=
    Shader.exists_of_translateWith (t := {}) nofun hd
  have hmanifest := (Translator.numbered_of_describe hfields hdescribe).manifest
  exact ⟨d.render_eq_text s,
    d.program_agrees hmanifest (Translator.nodup_shaderNames hfields hbody hb hdescribe) s⟩

/-- A kernel type with captures of every category, two of them scalars. -/
def blend : Library where
  source _ := "|ids| \x7b out[ids.x] = input[ids.x] * gain + weights[0].x + bias.y; \x7d"
  catalog _ :=
    { fields := [⟨"gain", "f32", false⟩, ⟨"input", "ReadOnlyBuffer<f32>", false⟩,
        ⟨"bias", "Float3", false⟩, ⟨"weights", "ConstantBuffer<Float4>", false⟩,
        ⟨"out", "ReadWriteBuffer<f32>", false⟩] }

/-- What the program of the kernel type declares in front of its entry point. -/
def blendDeclarations : List String :=
  ["cbuffer _uniforms : register(b0)", "\x7b", "    float gain : packoffset(c0.x);",
    "    float3 bias : packoffset(c0.y);", "\x7d;", "", "cbuffer _cb_weights : register(b1)", "\x7b",
    "    float4 weights[1024];", "\x7d;", "", "StructuredBuffer<float> input : register(t0);",
    "RWStructuredBuffer<float> _out : register(u0);", ""]

theorem render_agrees_blend :
    ∃ d, .ok d ∈ (blend.serveAll {} [.translate ⟨"Blend", 0⟩]).1.flatMap Reply.results ∧
      d.render {} = (d.program {}).text ∧ (d.program {}).Agrees d ∧
      (d.program {}).registers.map Register.text = ["b0", "b1", "t0", "u0"] ∧
      d.render {} = "\n".intercalate (["#pragma pack_matrix(row_major)", ""] ++
        blendDeclarations ++ d.entryLines {}) ++ "\n" := by
  have hrun : ((blend.translation ⟨"Blend", 0⟩ .hlsl).toOption.map fun d =>
      ((d.program {}).registers.map Register.text,
        d.uniformBlock ++ d.constantBlocks 1024 ++ d.bufferLines)) =
          some (["b0", "b1", "t0", "u0"], blendDeclarations) := by decide +kernel
  obtain ⟨d, hd, hdecls⟩ := Option.map_eq_some_iff.mp hrun
  have hok : blend.translation ⟨"Blend", 0⟩ .hlsl = .ok d := eq_ok_of_toOption hd
  have hmem : .ok d ∈ (blend.serveAll {} [.translate ⟨"Blend", 0⟩]).1.flatMap Reply.results := by
    rw [(blend.serveAll_of_coherent (Translator.coherent_empty blend) [.translate ⟨"Blend", 0⟩]).1]
    simp only [List.map_cons, List.map_nil, fresh, hok, List.flatMap_cons, List.flatMap_nil,
      Reply.results, List.append_nil, List.mem_singleton]
  obtain ⟨htext, hagrees⟩ := blend.render_agrees [.translate ⟨"Blend", 0⟩] d hmem {}
  obtain ⟨hregisters, hlines⟩ := Prod.mk.inj hdecls
  refine ⟨d, hmem, htext, hagrees, hregisters, ?_⟩
  rw [← hlines, ← List.append_assoc, ← List.append_assoc]
  rfl

end Library

end ComputeKernel
