import ComputeKernel.Proofs.Program.Agreement

/-!
Names at global scope. A program declares its captures and, around some of them, blocks. A block's name
is its base with the fewest underscores that make it no capture's, so no block has the name of a
capture; but the blocks are named one at a time, and nothing keeps two of them apart. The base of one
constant buffer can be drawn out past captures until it is the base of another, and that is the only way
in which two names of a program are the same.
-/

namespace ComputeKernel

/-- A name with underscores behind it. -/
def underscored (name : String) (n : Nat) : String := name ++ String.ofList (List.replicate n '_')

theorem toList_underscored (name : String) (n : Nat) :
    (underscored name n).toList = name.toList ++ List.replicate n '_' := by
  rw [underscored, String.toList_append, String.toList_ofList]

theorem underscored_zero (name : String) : underscored name 0 = name := by
  simp [String.ext_iff, toList_underscored]

theorem underscored_underscored (name : String) (m n : Nat) :
    underscored (underscored name m) n = underscored name (m + n) := by
  rw [String.ext_iff]
  simp only [toList_underscored, List.append_assoc, List.replicate_append_replicate]

theorem underscored_injective (name : String) : Function.Injective (underscored name) := by
  intro m n h
  have hlengths := congrArg (fun s => s.toList.length) h
  simpa [toList_underscored] using hlengths

theorem underscored_right_cancel {x y : String} {n : Nat} (h : underscored x n = underscored y n) :
    x = y := by
  have htext := congrArg String.toList h
  rw [toList_underscored, toList_underscored] at htext
  exact String.ext_iff.mpr (List.append_cancel_right htext)

/-- Of two names that become the same behind underscores the shorter one is a beginning of the other. -/
theorem underscored_of_eq {x y : String} {m n : Nat} (hle : m ≤ n)
    (h : underscored x n = underscored y m) : underscored x (n - m) = y := by
  refine underscored_right_cancel (n := m) ?_
  rw [underscored_underscored, Nat.sub_add_cancel hle, h]

namespace Descriptor

/-! ### One block -/

theorem blockName_eq_getD (names : List String) (base : String) :
    blockName names base = (((List.range (names.length + 1)).find? fun n =>
      ! names.contains (underscored base n)).map (underscored base)).getD base := by
  simp only [blockName, List.find?_map]
  rfl

/-- The name of a block is the first that no capture has. -/
theorem blockName_eq (names : List String) (base : String) :
    ∃ k, blockName names base = underscored base k ∧ underscored base k ∉ names ∧
      ∀ m < k, underscored base m ∈ names := by
  rw [blockName_eq_getD]
  cases hfound : (List.range (names.length + 1)).find?
      fun n => ! names.contains (underscored base n) with
  | some k =>
    obtain ⟨hfree, _, hbefore⟩ := List.find?_range_eq_some.mp hfound
    exact ⟨k, rfl, by simpa using hfree, fun m hm => by simpa using hbefore m hm⟩
  | none =>
    -- Otherwise more different candidates than there are names would all be captures.
    have htaken : (List.range (names.length + 1)).map (underscored base) ⊆ names := by
      intro name hname
      obtain ⟨m, hm, rfl⟩ := List.mem_map.mp hname
      simpa using List.find?_eq_none.mp hfound m hm
    have hnodup : ((List.range (names.length + 1)).map (underscored base)).Nodup :=
      List.Nodup.map (underscored_injective base) List.nodup_range
    have hlength := (hnodup.subperm htaken).length_le
    rw [List.length_map, List.length_range] at hlength
    omega

theorem blockName_not_mem (names : List String) (base : String) : blockName names base ∉ names := by
  obtain ⟨k, hname, hfree, _⟩ := blockName_eq names base
  rw [hname]
  exact hfree

/-- A name that is free behind captures is the block's. -/
theorem blockName_of_first {names : List String} {base : String} {k : Nat}
    (hfree : underscored base k ∉ names) (hbefore : ∀ m < k, underscored base m ∈ names) :
    blockName names base = underscored base k := by
  obtain ⟨k', hname, hfree', hbefore'⟩ := blockName_eq names base
  rcases Nat.lt_trichotomy k' k with hlt | rfl | hlt
  · exact (hfree' (hbefore k' hlt)).elim
  · exact hname
  · exact (hfree (hbefore' k hlt)).elim

/-! ### Two blocks -/

/-- Whether the name of a block, drawn out past captures, reaches the base of another. -/
def Reaches (names : List String) (base other : String) : Prop :=
  ∃ n, 0 < n ∧ underscored base n = other ∧ ∀ m < n, underscored base m ∈ names

theorem blockName_of_reaches {names : List String} {x y : String} (h : Reaches names x y) :
    blockName names x = blockName names y := by
  obtain ⟨n, _, rfl, hbefore⟩ := h
  obtain ⟨k, hname, hfree, hbehind⟩ := blockName_eq names (underscored x n)
  rw [hname, underscored_underscored]
  rw [underscored_underscored] at hfree
  refine blockName_of_first hfree fun m hm => ?_
  by_cases hlt : m < n
  · exact hbefore m hlt
  · have hcapture := hbehind (m - n) (by omega)
    rwa [underscored_underscored, Nat.add_sub_cancel' (by omega)] at hcapture

theorem blockName_eq_iff {names : List String} {x y : String} :
    blockName names x = blockName names y ↔ x = y ∨ Reaches names x y ∨ Reaches names y x := by
  constructor
  · intro h
    obtain ⟨m, hx, _, hxs⟩ := blockName_eq names x
    obtain ⟨n, hy, _, hys⟩ := blockName_eq names y
    rw [hx, hy] at h
    rcases Nat.lt_trichotomy m n with hlt | rfl | hlt
    · have hreach := underscored_of_eq hlt.le h.symm
      exact .inr (.inr ⟨n - m, by omega, hreach, fun k hk => hys k (by omega)⟩)
    · exact .inl (underscored_right_cancel h)
    · have hreach := underscored_of_eq hlt.le h
      exact .inr (.inl ⟨m - n, by omega, hreach, fun k hk => hxs k (by omega)⟩)
  · rintro (rfl | h | h)
    · rfl
    · exact blockName_of_reaches h
    · exact (blockName_of_reaches h).symm

/-- The base of a constant buffer's block. -/
def constantBase (name : String) : String := s!"_cb_{name}"

theorem toList_constantBase (name : String) :
    (constantBase name).toList = '_' :: 'c' :: 'b' :: '_' :: name.toList := by
  simp [constantBase, toString]

theorem constantBase_injective : Function.Injective constantBase := by
  intro x y h
  have htext := congrArg String.toList h
  simpa [toList_constantBase, String.toList_inj] using htext

/-- The bases of the two kinds of block differ in their second letters. -/
theorem blockName_uniforms_ne (names : List String) (name : String) :
    blockName names "_uniforms" ≠ blockName names (constantBase name) := by
  obtain ⟨m, hx, _⟩ := blockName_eq names "_uniforms"
  obtain ⟨n, hy, _⟩ := blockName_eq names (constantBase name)
  rw [hx, hy]
  intro h
  have htext := congrArg String.toList h
  rw [toList_underscored, toList_underscored, toList_constantBase] at htext
  have hsecond := congrArg (·[1]?) htext
  simp at hsecond

end Descriptor

/-! ### All names -/

namespace Program

/-- The names of the captures. -/
def captures (p : Program) : List String := p.resources.map (·.name) ++ p.scalars.map (·.name)

/-- The names of the blocks. -/
def blocks (p : Program) : List String :=
  (p.uniforms.map (·.block)).toList ++ p.constants.map (·.block)

/-- The names at global scope. -/
def globals (p : Program) : List String := p.captures ++ p.blocks

/-- Whether the block of one constant buffer, drawn out past captures, reaches that of another. -/
def Clash (p : Program) (x y : ConstantDecl) : Prop :=
  Descriptor.Reaches p.captures (Descriptor.constantBase x.name) (Descriptor.constantBase y.name)

/-- Which names of a program are the same. -/
structure Named (p : Program) : Prop where
  captures : p.captures.Nodup
  apart : p.captures.Disjoint p.blocks
  uniforms : ∀ u ∈ p.uniforms, ∀ x ∈ p.constants, u.block ≠ x.block
  constants : ∀ x ∈ p.constants, ∀ y ∈ p.constants,
    x.block = y.block ↔ x = y ∨ p.Clash x y ∨ p.Clash y x

variable {p : Program}

theorem Clash.ne {x y : ConstantDecl} (h : p.Clash x y) : x ≠ y := by
  rintro rfl
  obtain ⟨n, hn, hsame, _⟩ := h
  have hzero := underscored_injective _ (hsame.trans (underscored_zero _).symm)
  omega

theorem nodup_constantNames (h : p.captures.Nodup) : (p.constants.map (·.name)).Nodup := by
  have hresources := (List.nodup_append.mp h).1
  rw [resources, List.map_append, List.map_map] at hresources
  exact (List.nodup_append.mp hresources).1

theorem Clash.base_mem {x y : ConstantDecl} (h : p.Clash x y) :
    Descriptor.constantBase x.name ∈ p.captures := by
  obtain ⟨n, hn, _, hbefore⟩ := h
  simpa only [underscored_zero] using hbefore 0 hn

namespace Named

theorem nodup_constants (h : p.Named) : p.constants.Nodup :=
  (nodup_constantNames h.captures).of_map _

theorem nodup_blocks_iff (h : p.Named) :
    p.blocks.Nodup ↔ ∀ x ∈ p.constants, ∀ y ∈ p.constants, ¬ p.Clash x y := by
  have happart : ∀ name ∈ (p.uniforms.map (·.block)).toList,
      ∀ name' ∈ p.constants.map (·.block), name ≠ name' := by
    intro name hname name' hname'
    obtain ⟨u, hu, rfl⟩ := Option.mem_map.mp (Option.mem_toList.mp hname)
    obtain ⟨x, hx, rfl⟩ := List.mem_map.mp hname'
    exact h.uniforms u hu x hx
  have huniform : (p.uniforms.map (·.block)).toList.Nodup := by cases p.uniforms <;> simp
  rw [blocks, List.nodup_append, and_iff_right huniform, and_iff_left happart,
    List.nodup_map_iff_inj_on h.nodup_constants]
  constructor
  · intro hinj x hx y hy hclash
    exact hclash.ne (hinj x hx y hy ((h.constants x hx y hy).mpr (.inr (.inl hclash))))
  · intro hfree x hx y hy hsame
    rcases (h.constants x hx y hy).mp hsame with heq | hclash | hclash
    · exact heq
    · exact (hfree x hx y hy hclash).elim
    · exact (hfree y hy x hx hclash).elim

/-- The names of a program are different unless two of its blocks clash. -/
theorem nodup_globals_iff (h : p.Named) :
    p.globals.Nodup ↔ ∀ x ∈ p.constants, ∀ y ∈ p.constants, ¬ p.Clash x y := by
  rw [← h.nodup_blocks_iff, globals, List.nodup_append, and_iff_right h.captures]
  refine and_iff_left fun name hname name' hname' hsame => ?_
  exact h.apart hname (hsame ▸ hname')

end Named

end Program

namespace Descriptor

variable {d : Descriptor} {s : Settings}

theorem block_of_mem_uniforms {u : UniformDecl} (h : u ∈ (d.program s).uniforms) :
    u.block = blockName d.shaderNames "_uniforms" := by
  simp only [program, Option.mem_def] at h
  split at h
  · cases h
  · cases h
    rfl

theorem block_of_mem_constants {x : ConstantDecl} (h : x ∈ (d.program s).constants) :
    x.block = blockName d.shaderNames (constantBase x.name) := by
  obtain ⟨y, _, hy⟩ := List.mem_filterMap.mp h
  rw [constantDecl?] at hy
  split at hy
  · cases hy
    rfl
  · cases hy

theorem program_named (h : BindingSlot.Manifest d.resources d.slots) (hnames : d.shaderNames.Nodup)
    (s : Settings) : (d.program s).Named where
  captures := (names_program_perm h s).nodup_iff.mpr hnames
  apart := by
    intro name hcapture hblock
    have hmem : name ∈ d.shaderNames := (names_program_perm h s).mem_iff.mp hcapture
    rcases List.mem_append.mp hblock with hblock | hblock
    · obtain ⟨u, hu, rfl⟩ := Option.mem_map.mp (Option.mem_toList.mp hblock)
      rw [block_of_mem_uniforms hu] at hmem
      exact blockName_not_mem _ _ hmem
    · obtain ⟨x, hx, rfl⟩ := List.mem_map.mp hblock
      rw [block_of_mem_constants hx] at hmem
      exact blockName_not_mem _ _ hmem
  uniforms u hu x hx := by
    rw [block_of_mem_uniforms hu, block_of_mem_constants hx]
    exact blockName_uniforms_ne _ _
  constants x hx y hy := by
    have hcaptures := (names_program_perm h s).nodup_iff.mpr hnames
    have hclash : ∀ a b : ConstantDecl, (d.program s).Clash a b ↔
        Reaches d.shaderNames (constantBase a.name) (constantBase b.name) := fun a b => by
      have hmem : ∀ name, name ∈ (d.program s).captures ↔ name ∈ d.shaderNames := fun _ =>
        (names_program_perm h s).mem_iff
      simp only [Program.Clash, Reaches, hmem]
    have hsame : constantBase x.name = constantBase y.name ↔ x = y := by
      refine constantBase_injective.eq_iff.trans ⟨fun heq => ?_, fun heq => heq ▸ rfl⟩
      exact List.inj_on_of_nodup_map (Program.nodup_constantNames hcaptures) hx hy heq
    rw [block_of_mem_constants hx, block_of_mem_constants hy, blockName_eq_iff, hclash, hclash, hsame]

/-- A slot has the category of the resource that it binds. -/
theorem category_of_mem_boundResources (h : BindingSlot.Manifest d.resources d.slots)
    {x : BindingSlot × Capture} (hx : x ∈ d.boundResources) : x.1.category = x.2.category := by
  obtain ⟨hslot, i, hi, hc⟩ := mem_boundResources hx
  obtain ⟨constants, readOnlys, readWrites, hslots, hconstants, hreadOnlys, hreadWrites⟩ := h.groups
  have hfor : ∀ {category}, x.1.IsFor d.resources category → x.1.category = x.2.category := by
    rintro category ⟨hcategory, position, c, hposition, hresource, hcapture, _⟩
    obtain rfl := Option.some.inj (hi.symm.trans hposition)
    obtain rfl := Option.some.inj (hc.symm.trans hresource)
    exact hcategory.trans hcapture.symm
  rw [hslots] at hslot
  rcases List.mem_cons.mp hslot with huniform | hslot
  · rw [huniform] at hi
    cases hi
  · rcases List.mem_append.mp hslot with hslot | hslot
    · exact hfor (hconstants.isFor _ hslot)
    · rcases List.mem_append.mp hslot with hslot | hslot
      · exact hfor (hreadOnlys.isFor _ hslot)
      · exact hfor (hreadWrites.isFor _ hslot)

/-- The identifiers of the constant buffers. -/
def constantNames (d : Descriptor) : List String :=
  (d.resources.filter fun c => c.category = .constantBuffer).map (·.shaderName)

/-- The constant buffers that are declared are the captures of that category. -/
theorem names_constants_perm (h : BindingSlot.Manifest d.resources d.slots) (s : Settings) :
    ((d.program s).constants.map (·.name)).Perm d.constantNames := by
  have hbound := ((map_snd_boundResources_perm h).filter
    fun c => c.category = .constantBuffer).map (·.shaderName)
  refine .trans (.of_eq ?_) hbound
  rw [program, List.map_filterMap, List.filter_map, List.map_map, ← List.filterMap_eq_map,
    ← List.filterMap_eq_filter, List.filterMap_filterMap]
  refine List.filterMap_congr fun x hx => ?_
  rw [constantDecl?, category_of_mem_boundResources h hx]
  by_cases hconstant : x.2.category = .constantBuffer
  · simp [hconstant, Option.guard, resourceDecl]
  · simp [hconstant, Option.guard]

end Descriptor

/-- A body that reads no static leaves the captures that the fields are. -/
theorem Translator.captures_of_describe {id : KernelId} {captures : Captures} {body : CheckedBody}
    {table : TypeTable} {b : Shader.Body} {d : Descriptor} (hb : Shader.Body.of body table = .ok b)
    (hnone : b.statics = []) (h : describe id captures body table = .ok d) :
    d.captures = captures.finish := by
  simp only [describe, hb, hnone, List.map_nil, Classify.addStatics] at h
  cases h
  rfl

namespace Library

/-- The slots of a descriptor in a reply are a manifest of its resources, and its captures have
identifiers of their own. -/
theorem manifest_of_mem {l : Library} {calls : List Call} {d : Descriptor}
    (h : .ok d ∈ (l.serveAll {} calls).1.flatMap Reply.results) :
    BindingSlot.Manifest d.resources d.slots ∧ d.shaderNames.Nodup := by
  obtain ⟨name, table, hd⟩ := exists_translation h
  obtain ⟨captures, body, b, hfields, hbody, hb, hdescribe⟩ :=
    Shader.exists_of_translateWith (t := {}) nofun hd
  exact ⟨(Translator.numbered_of_describe hfields hdescribe).manifest,
    Translator.nodup_shaderNames hfields hbody hb hdescribe⟩

/-- The names at global scope of a program whose descriptor a translator has given are different unless
the block of a constant buffer, drawn out past captures, reaches that of another. -/
theorem globals_nodup_iff (l : Library) (calls : List Call) (d : Descriptor)
    (h : .ok d ∈ (l.serveAll {} calls).1.flatMap Reply.results) (s : Settings) :
    d.render s = (d.program s).text ∧ (d.program s).Named ∧
      ((d.program s).globals.Nodup ↔
        ∀ x ∈ (d.program s).constants, ∀ y ∈ (d.program s).constants, ¬ (d.program s).Clash x y) := by
  obtain ⟨hmanifest, hnames⟩ := manifest_of_mem h
  have hnamed := d.program_named hmanifest hnames s
  exact ⟨d.render_eq_text s, hnamed, hnamed.nodup_globals_iff⟩

/-- The identifiers of captures and those of the constant buffers among them. -/
def identifiers (cs : CaptureLists) : List String × List String :=
  ((cs.resources ++ cs.scalars).map (·.shaderName),
    (cs.resources.filter fun c => c.category = .constantBuffer).map (·.shaderName))

/-- A kernel type whose closure reads no static is translated to a descriptor with the captures of its
fields. -/
theorem exists_of_no_statics (l : Library) (k : KernelId) (names constants : List String)
    (hok : (l.translation k .hlsl).isOk = true)
    (hstatics : ((CheckedBody.of k.name (l.source k) (l.catalog k)).toOption.bind fun body =>
      (Shader.Body.of body .hlsl).toOption).map (·.statics.length) = some 0)
    (hnames : (Translator.fieldCaptures (l.kernel k) .hlsl).toOption.map
      (fun captures => identifiers captures.finish) = some (names, constants)) :
    ∃ d, .ok d ∈ (l.serveAll {} [.translate k]).1.flatMap Reply.results ∧
      d.shaderNames = names ∧ d.constantNames = constants := by
  obtain ⟨d, hd⟩ := exists_of_isOk hok
  obtain ⟨captures, body, b, hfields, hbody, hb, hdescribe⟩ :=
    Shader.exists_of_translateWith (t := {}) nofun hd
  have hnone : b.statics = [] := by
    change CheckedBody.of k.name (l.source k) (l.catalog k) = .ok body at hbody
    rw [hbody] at hstatics
    simpa [hb, Except.toOption] using hstatics
  have hcaptures := Translator.captures_of_describe hb hnone hdescribe
  change Translator.fieldCaptures (l.kernel k) .hlsl = .ok captures at hfields
  rw [hfields, Except.toOption, Option.map_some, ← hcaptures] at hnames
  obtain ⟨hall, hconstants⟩ := Prod.mk.inj (Option.some.inj hnames)
  refine ⟨d, ?_, hall, hconstants⟩
  rw [(l.serveAll_of_coherent (Translator.coherent_empty l) [.translate k]).1]
  simp only [List.map_cons, List.map_nil, fresh, hd, List.flatMap_cons, List.flatMap_nil,
    Reply.results, List.append_nil, List.mem_singleton]

/-- A kernel type with two constant buffers, the name of one that of the other with an underscore, and a
scalar. -/
def buffers (scalar : String) : Library where
  source _ := "|ids| \x7b \x7d"
  catalog _ :=
    { fields := [⟨"a", "ConstantBuffer<f32>", false⟩, ⟨"a_", "ConstantBuffer<f32>", false⟩,
        ⟨scalar, "f32", false⟩] }

theorem globals_nodup_iff_buffers :
    ∃ d, .ok d ∈ ((buffers "_uniforms").serveAll {} [.translate ⟨"K", 0⟩]).1.flatMap Reply.results ∧
      d.shaderNames = ["a", "a_", "_uniforms"] ∧ d.constantNames = ["a", "a_"] ∧
      (d.program {}).globals.Nodup := by
  obtain ⟨d, hmem, hall, hconstants⟩ := exists_of_no_statics (buffers "_uniforms") ⟨"K", 0⟩
    ["a", "a_", "_uniforms"] ["a", "a_"]
    (by decide +kernel) (by decide +kernel) (by decide +kernel)
  refine ⟨d, hmem, hall, hconstants, (globals_nodup_iff _ _ d hmem {}).2.2.mpr ?_⟩
  intro x hx y _ hclash
  obtain ⟨hmanifest, _⟩ := manifest_of_mem hmem
  have hname := (d.names_constants_perm hmanifest {}).subset (List.mem_map_of_mem hx)
  have hbase := (d.names_program_perm hmanifest {}).subset hclash.base_mem
  rw [hconstants] at hname
  rw [hall] at hbase
  have hfree : ∀ name ∈ ["a", "a_"],
      Descriptor.constantBase name ∉ ["a", "a_", "_uniforms"] := by decide +kernel
  exact hfree x.name hname hbase

/-- With a capture that has the name of a block, that block takes the name of another. -/
theorem not_nodup_globals_buffers :
    ∃ d, .ok d ∈ ((buffers "_cb_a").serveAll {} [.translate ⟨"K", 0⟩]).1.flatMap Reply.results ∧
      d.shaderNames = ["a", "a_", "_cb_a"] ∧ d.constantNames = ["a", "a_"] ∧
      ¬ (d.program {}).globals.Nodup := by
  obtain ⟨d, hmem, hall, hconstants⟩ := exists_of_no_statics (buffers "_cb_a") ⟨"K", 0⟩
    ["a", "a_", "_cb_a"] ["a", "a_"]
    (by decide +kernel) (by decide +kernel) (by decide +kernel)
  obtain ⟨hmanifest, hnodup⟩ := manifest_of_mem hmem
  have hname : ∀ name ∈ d.constantNames, ∃ x ∈ (d.program {}).constants, x.name = name :=
    fun name h => List.mem_map.mp ((d.names_constants_perm hmanifest {}).mem_iff.mpr h)
  obtain ⟨x, hx, hxa⟩ := hname "a" (by simp [hconstants])
  obtain ⟨y, hy, hya⟩ := hname "a_" (by simp [hconstants])
  have hcapture : "_cb_a" ∈ (d.program {}).captures :=
    (d.names_program_perm hmanifest {}).mem_iff.mpr (by simp [hall])
  have hclash : (d.program {}).Clash x y := by
    rw [Program.Clash, hxa, hya]
    refine ⟨1, Nat.one_pos, by decide +kernel, fun m hm => ?_⟩
    rw [Nat.lt_one_iff.mp hm, underscored_zero]
    exact hcapture
  refine ⟨d, hmem, hall, hconstants, fun hglobals => ?_⟩
  exact (d.program_named hmanifest hnodup {}).nodup_globals_iff.mp hglobals x hx y hy hclash

end Library

end ComputeKernel
