import ComputeKernel.Binding.Manifest
import ComputeKernel.Proofs.Binding.Slots

/-!
Registers of bindings. The manifest of numbered captures begins with the uniform buffer and lists each
resource once, category by category and in the order of the slots; no two descriptors share a
register.
-/

namespace ComputeKernel

namespace BindingSlot

/-- What a slot says of the resource that it is for. -/
def IsFor (s : BindingSlot) (resources : List Capture) (category : Category) : Prop :=
  s.category = category ∧ ∃ position c, s.resource = some position ∧
    resources[position]? = some c ∧ c.category = category ∧ c.slot = some s.index

/-- Whether the slots are those of one category, in increasing order. -/
structure IsGroup (resources : List Capture) (category : Category) (slots : List BindingSlot) :
    Prop where
  isFor : ∀ s ∈ slots, s.IsFor resources category
  increasing : slots.Pairwise fun a b => a.index < b.index

/-! ### One category -/

theorem indexes_ofCategory (category : Category) (position : Nat) (cs : List Capture) :
    (ofCategory category position cs).map (·.index) =
      (cs.filter fun c => c.category = category).filterMap (·.slot) := by
  induction cs generalizing position with
  | nil => rfl
  | cons c cs ih =>
    have hrest := ih (position + 1)
    by_cases hc : c.category = category
    · cases hslot : c.slot <;> simp [ofCategory, hc, hslot, hrest]
    · simp [ofCategory, hc, hrest]

theorem isFor_of_mem_ofCategory {category : Category} {resources : List Capture}
    (pre : List Capture) {cs : List Capture}
    (hresources : resources = pre ++ cs) {s : BindingSlot}
    (hs : s ∈ ofCategory category pre.length cs) : s.IsFor resources category := by
  induction cs generalizing pre with
  | nil => cases hs
  | cons c cs ih =>
    have hrest : s ∈ ofCategory category (pre.length + 1) cs → s.IsFor resources category := by
      intro h
      refine ih (pre ++ [c]) ?_ ?_
      · rw [hresources, List.append_assoc]
        rfl
      · rw [List.length_append]
        exact h
    rw [ofCategory] at hs
    split at hs
    · rename_i hc
      split at hs
      · rename_i index hslot
        rcases List.mem_cons.mp hs with rfl | hs
        · exact ⟨rfl, pre.length, c, rfl, by simp [hresources], hc, hslot⟩
        · exact hrest hs
      · exact hrest hs
    · exact hrest hs

/-- The positions of resources with slots, category by category, are all positions. -/
theorem positions_perm (position : Nat) {cs : List Capture}
    (h : ∀ c ∈ cs, c.category.isResource ∧ c.slot.isSome) :
    ((resourceOrder.flatMap fun category => ofCategory category position cs).filterMap
      (·.resource)).Perm (List.range' position cs.length) := by
  induction cs generalizing position with
  | nil => exact .refl _
  | cons c cs ih =>
    obtain ⟨hresource, hsome⟩ := h c List.mem_cons_self
    obtain ⟨index, hslot⟩ := Option.isSome_iff_exists.mp hsome
    have hrest := (ih (position + 1) fun d hd => h d (List.mem_cons_of_mem _ hd)).cons position
    simp only [resourceOrder, List.flatMap_cons, List.flatMap_nil, List.append_nil,
      List.filterMap_append] at hrest ⊢
    rw [List.length_cons, List.range'_succ]
    refine .trans ?_ hrest
    cases hc : c.category with
    | scalarOrVector =>
      rw [hc] at hresource
      cases hresource
    | constantBuffer => simp [ofCategory, hc, hslot]
    | readOnlyBuffer => simp [ofCategory, hc, hslot]
    | readWriteBuffer =>
      simp only [ofCategory, hc, hslot, reduceCtorEq, if_false, if_true]
      exact (List.perm_middle.append_left _).trans List.perm_middle

/-! ### The manifest -/

/-- Whether slots are the manifest of resources: the uniform buffer, then the groups of the categories,
each resource once, and one descriptor for each slot in a register of its own. -/
structure Manifest (resources : List Capture) (slots : List BindingSlot) : Prop where
  groups : ∃ constants readOnlys readWrites,
    slots = uniform :: (constants ++ (readOnlys ++ readWrites)) ∧
      IsGroup resources .constantBuffer constants ∧ IsGroup resources .readOnlyBuffer readOnlys ∧
        IsGroup resources .readWriteBuffer readWrites
  positions : (slots.filterMap (·.resource)).Perm (List.range resources.length)
  single : ∀ p ∈ slots.map (·.parameter), p.count = 1
  registers : ((slots.map (·.parameter)).map fun p => (p.kind, p.baseRegister)).Nodup

end BindingSlot

open BindingSlot (resourceOrder assemble IsGroup Manifest)

namespace CaptureLists.Numbered

variable {cs : CaptureLists}

theorem slot_isSome (h : cs.Numbered) {c : Capture} (hc : c ∈ cs.resources) : c.slot.isSome := by
  have hmem : c.slot ∈ (cs.ofCategory c.category).map (·.slot) :=
    List.mem_map_of_mem (List.mem_filter.mpr ⟨hc, decide_eq_true rfl⟩)
  rw [h.slots] at hmem
  obtain ⟨index, _, hindex⟩ := List.mem_map.mp hmem
  rw [← hindex]
  rfl

theorem indexes (h : cs.Numbered) (category : Category) :
    (BindingSlot.ofCategory category 0 cs.resources).map (·.index) =
      List.range' category.firstSlot (cs.ofCategory category).length := by
  have hslots := congrArg (List.filterMap id) (h.slots category)
  rw [List.filterMap_map, List.filterMap_map] at hslots
  rw [BindingSlot.indexes_ofCategory]
  exact hslots.trans List.filterMap_some

theorem group (h : cs.Numbered) (category : Category) :
    IsGroup cs.resources category (BindingSlot.ofCategory category 0 cs.resources) := by
  refine ⟨fun s hs => BindingSlot.isFor_of_mem_ofCategory [] rfl hs, ?_⟩
  rw [← List.pairwise_map (R := (· < ·)), h.indexes]
  exact List.pairwise_lt_range'

/-- The slots of each category come in order already. -/
theorem assemble_eq (h : cs.Numbered) : assemble cs.resources =
    .uniform :: resourceOrder.flatMap fun k => BindingSlot.ofCategory k 0 cs.resources := by
  unfold assemble
  congr 2
  funext category
  refine List.mergeSort_of_pairwise ((h.group category).increasing.imp fun hab => ?_)
  exact decide_eq_true (Nat.le_of_lt hab)

theorem registers_ofCategory (h : cs.Numbered) (category : Category) :
    (BindingSlot.ofCategory category 0 cs.resources).map (fun s => (s.kind, s.index)) =
      (List.range' category.firstSlot (cs.ofCategory category).length).map
        (RangeKind.ofCategory category, ·) := by
  rw [← h.indexes, List.map_map]
  refine List.map_congr_left fun s hs => ?_
  rw [BindingSlot.kind, ((h.group category).isFor s hs).1]
  rfl

/-- Constant buffers begin behind the register of the uniform buffer. -/
theorem registers_nodup (h : cs.Numbered) :
    ((assemble cs.resources).map fun s => (s.kind, s.index)).Nodup := by
  rw [h.assemble_eq]
  simp only [resourceOrder, List.flatMap_cons, List.flatMap_nil, List.append_nil, List.map_cons,
    List.map_append, h.registers_ofCategory]
  have hrange (kind : RangeKind) (start n : Nat) :
      ((List.range' start n).map (kind, ·)).Nodup :=
    List.Pairwise.map _ (fun _ _ hne heq => hne (Prod.mk.inj heq).2) List.nodup_range'
  refine List.nodup_cons.mpr ⟨?_, List.nodup_append.mpr ⟨hrange _ _ _,
    List.nodup_append.mpr ⟨hrange _ _ _, hrange _ _ _, ?_⟩, ?_⟩⟩
  · simp [BindingSlot.uniform, BindingSlot.kind, RangeKind.ofCategory, Category.firstSlot]
  · intro a ha b hb hab
    obtain ⟨_, _, rfl⟩ := List.mem_map.mp ha
    obtain ⟨_, _, rfl⟩ := List.mem_map.mp hb
    cases hab
  · intro a ha b hb hab
    obtain ⟨_, _, rfl⟩ := List.mem_map.mp ha
    rcases List.mem_append.mp hb with hb | hb
    · obtain ⟨_, _, rfl⟩ := List.mem_map.mp hb
      cases hab
    · obtain ⟨_, _, rfl⟩ := List.mem_map.mp hb
      cases hab

theorem manifest (h : cs.Numbered) : Manifest cs.resources (assemble cs.resources) where
  groups := by
    refine ⟨_, _, _, ?_, h.group .constantBuffer, h.group .readOnlyBuffer, h.group .readWriteBuffer⟩
    simp [h.assemble_eq, resourceOrder]
  positions := by
    rw [h.assemble_eq, List.range_eq_range']
    exact BindingSlot.positions_perm 0 fun c hc => ⟨h.isResource c hc, h.slot_isSome hc⟩
  single := by
    intro p hp
    obtain ⟨s, _, rfl⟩ := List.mem_map.mp hp
    rfl
  registers := by
    rw [List.map_map]
    exact h.registers_nodup

end CaptureLists.Numbered

/-! ### Runs -/

namespace Captures

/-- Whether captures are others with one more. A resource gets the slot that its category's
counter has come to, and moves that counter. -/
structure Grants (c : Captures) (capture : Capture) (c' : Captures) : Prop where
  resources : c'.resources = c.resources ++ if capture.category.isResource then
    [{ capture with slot := c.next? capture.category }] else []
  scalars : c'.scalars = c.scalars ++ if capture.category.isResource then [] else [capture]
  counters : ∀ category, c'.next? category =
    (c.next? category).map (· + if category = capture.category then 1 else 0)

/-- How a request is answered: with an error, which names the type, and no change, or with one capture
more. -/
inductive Answers (kernel : String) (table : TypeTable) (c : Captures) (r : Request) :
    Except TranslateError Unit × Captures → Prop where
  | refused {text} : table.Refuses r.type text →
      Answers kernel table c r (.error (.unsupportedCapture kernel r.name text), c)
  | granted {capture c'} : r.capture? table = some capture → c.Grants capture c' →
      Answers kernel table c r (.ok (), c')

theorem grants_grant {table : TypeTable} {r : Request} {capture : Capture}
    (h : r.capture? table = some capture) (c : Captures) : c.Grants capture (c.grant capture) where
  resources := by
    rw [toCaptureLists_grant, CaptureLists.resources_push]
    by_cases hc : capture.category.isResource <;> simp [hc]
  scalars := by
    rw [toCaptureLists_grant, CaptureLists.scalars_push]
    by_cases hc : capture.category.isResource
    · simp [hc]
    · have hnone : { capture with slot := c.next? capture.category } = capture := by
        rw [(c.next?_eq_none_iff _).mpr hc]
        exact Request.unslotted_of_capture? h
      simp [hc, hnone]
  counters := c.next?_grant capture

theorem answers_request (kernel : String) (table : TypeTable) (c : Captures) (r : Request) :
    Answers kernel table c r (c.answer (request kernel table r)) := by
  rcases c.answer_request kernel table r with ⟨text, hrefuses, hanswer⟩ | ⟨capture, hcapture, hanswer⟩
  · rw [hanswer]
    exact .refused hrefuses
  · rw [hanswer]
    exact .granted hcapture (grants_grant hcapture c)

/-- Whatever is asked for, and whichever requests are refused: a refused request leaves the lists and the
counters as they were, the captures are those that were granted, in order, the slots of each category
are consecutive and its counter has come to the next one, and the manifest of the resources has each of
them once, all in registers of their own. -/
theorem manifest_of_run (kernel : String) (table : TypeTable) (requests : List Request) :
    (∀ before r, Answers kernel table (run kernel table before) r
        ((run kernel table before).answer (request kernel table r)) ∧
      run kernel table (before ++ [r]) =
        ((run kernel table before).answer (request kernel table r)).2) ∧
      (run kernel table requests).finish.resources.map Capture.unslotted =
        (granted table requests).filter (·.category.isResource) ∧
      (run kernel table requests).finish.scalars =
        (granted table requests).filter (! ·.category.isResource) ∧
      (∀ category, ((run kernel table requests).finish.ofCategory category).map (·.slot) =
        (List.range' category.firstSlot
          ((run kernel table requests).finish.ofCategory category).length).map some) ∧
      (∀ category, category.isResource → (run kernel table requests).next? category =
        some (category.firstSlot +
          ((run kernel table requests).finish.ofCategory category).length)) ∧
      Manifest (run kernel table requests).finish.resources
        (assemble (run kernel table requests).finish.resources) := by
  obtain ⟨hresources, hscalars⟩ := foldl_after kernel table requests {}
  have hcounted := counted_run kernel table requests
  refine ⟨fun before r => ⟨answers_request kernel table _ r, ?_⟩, hresources, hscalars,
    hcounted.numbered.slots, hcounted.counters, hcounted.numbered.manifest⟩
  rw [run, List.foldl_append]
  rfl

end Captures

end ComputeKernel
