import ComputeKernel.Capture.Captures

/-!
Slots of captures. Captures are added one by one, and any of them may be refused. One that is refused
leaves those before it as they were, the counters included. What is granted is kept in order, resources
apart from scalars, and the resources of a category have consecutive slots, up to the counter.
-/

namespace ComputeKernel

/-- A capture without its slot. -/
def Capture.unslotted (c : Capture) : Capture := { c with slot := none }

/-- The first slot for captures of a category. -/
def Category.firstSlot : Category → Nat
  | constantBuffer => 1
  | scalarOrVector | readOnlyBuffer | readWriteBuffer => 0

/-- Whether captures whose type is written like this are refused, with the text of the type in the
error. -/
inductive TypeTable.Refuses (table : TypeTable) : String → String → Prop where
  | malformed {type} : HostType.parse? type = none → table.Refuses type type
  | uncategorized {type host} : HostType.parse? type = some host → table.category? host = none →
      table.Refuses type host.text
  | unnamed {type host} : HostType.parse? type = some host → table.shaderName? host = none →
      table.Refuses type host.text

namespace CaptureLists

theorem resources_push (cs : CaptureLists) (c : Capture) :
    (cs.push c).resources = cs.resources ++ [c].filter (·.category.isResource) := by
  by_cases h : c.category.isResource <;> simp [push, h]

theorem scalars_push (cs : CaptureLists) (c : Capture) :
    (cs.push c).scalars = cs.scalars ++ [c].filter (! ·.category.isResource) := by
  by_cases h : c.category.isResource <;> simp [push, h]

/-- The resources of a category, in order. -/
def ofCategory (cs : CaptureLists) (category : Category) : List Capture :=
  cs.resources.filter fun c => c.category = category

theorem ofCategory_push (cs : CaptureLists) {c : Capture} (hc : c.category.isResource)
    (category : Category) : (cs.push c).ofCategory category =
      cs.ofCategory category ++ [c].filter (·.category = category) := by
  simp [ofCategory, resources_push, hc]

/-- Whether the resources of each category have consecutive slots. -/
structure Numbered (cs : CaptureLists) : Prop where
  isResource : ∀ c ∈ cs.resources, c.category.isResource
  slots : ∀ category, (cs.ofCategory category).map (·.slot) =
    (List.range' category.firstSlot (cs.ofCategory category).length).map some

end CaptureLists

namespace Captures

/-- What can be added: a field of the instance or a static, with its identifier. -/
inductive Request where
  | field (index : Nat) (f : FieldDecl) (shaderName : String)
  | static (s : StaticDecl) (shaderName : String)

namespace Request

def name : Request → String
  | field _ f _ => f.name
  | static s _ => s.name

def type : Request → String
  | field _ f _ => f.type
  | static s _ => s.type

def shaderName : Request → String
  | field _ _ shaderName | static _ shaderName => shaderName

def source : Request → CaptureSource
  | field index _ _ => .field index
  | static s _ => .static s

/-- The capture that is asked for, apart from its slot, if its type can be captured. -/
def capture? (r : Request) (table : TypeTable) : Option Capture := do
  let hostType ← HostType.parse? r.type
  let category ← table.category? hostType
  let shaderType ← table.shaderName? hostType
  return ⟨r.name, r.shaderName, hostType, shaderType, category, none, r.source⟩

end Request

variable (kernel : String) (table : TypeTable)

def request : Request → Classify Unit
  | .field index f shaderName => Classify.addField kernel table index f shaderName
  | .static s shaderName => Classify.addStatic kernel table s shaderName

/-- The captures behind a request, refused or not. -/
def after (c : Captures) (r : Request) : Captures := (c.answer (request kernel table r)).2

/-- The captures behind a sequence of requests, refused ones among them. -/
def run (requests : List Request) : Captures := requests.foldl (after kernel table) {}

/-- The captures that a sequence of requests asks for and can have, in order, without their slots. -/
def granted (requests : List Request) : List Capture := requests.filterMap (·.capture? table)

variable {kernel table}

/-- The counter of a category, for resources. -/
def next? (c : Captures) : Category → Option Nat
  | .scalarOrVector => none
  | .constantBuffer => some c.nextConstant
  | .readOnlyBuffer => some c.nextReadOnly
  | .readWriteBuffer => some c.nextReadWrite

/-- The captures with one more, in the slot that comes next. -/
def grant (c : Captures) (capture : Capture) : Captures :=
  let (slot, c) := c.takeSlot capture.category
  c.push { capture with slot }

/-! ### One request -/

theorem Request.unslotted_of_capture? {r : Request} {c : Capture} (h : r.capture? table = some c) :
    c.unslotted = c := by
  simp only [Request.capture?, Option.bind_eq_bind, Option.bind_eq_some_iff] at h
  obtain ⟨hostType, _, category, _, shaderType, _, ⟨⟩⟩ := h
  rfl

theorem Request.capture?_eq_none_iff {r : Request} :
    r.capture? table = none ↔ ∃ text, table.Refuses r.type text := by
  unfold Request.capture?
  constructor
  · intro h
    cases hparse : HostType.parse? r.type with
    | none => exact ⟨_, .malformed hparse⟩
    | some host =>
      rw [hparse, Option.bind_eq_bind, Option.bind_some] at h
      cases hcategory : table.category? host with
      | none => exact ⟨_, .uncategorized hparse hcategory⟩
      | some category =>
        rw [hcategory, Option.bind_eq_bind, Option.bind_some] at h
        cases hname : table.shaderName? host with
        | none => exact ⟨_, .unnamed hparse hname⟩
        | some name =>
          rw [hname] at h
          cases h
  · rintro ⟨text, hrefuses⟩
    cases hrefuses with
    | malformed hparse => rw [hparse]; rfl
    | uncategorized hparse hcategory =>
      rw [hparse, Option.bind_eq_bind, Option.bind_some, hcategory]
      rfl
    | unnamed hparse hname =>
      rw [hparse, Option.bind_eq_bind, Option.bind_some, hname]
      cases table.category? _ <;> rfl

variable (kernel table) in
/-- Whether a request is granted does not depend on what has been added. One that is refused hands on
the captures that it got. -/
theorem answer_request (c : Captures) (r : Request) :
    (∃ text, table.Refuses r.type text ∧ c.answer (request kernel table r) =
        (.error (.unsupportedCapture kernel r.name text), c)) ∨
      ∃ capture, r.capture? table = some capture ∧
        c.answer (request kernel table r) = (.ok (), c.grant capture) := by
  have hadd : request kernel table r =
      Classify.add kernel table r.name r.type r.shaderName r.source := by cases r <;> rfl
  rw [hadd]
  unfold Classify.add Request.capture?
  cases hparse : HostType.parse? r.type with
  | none => exact .inl ⟨_, .malformed hparse, rfl⟩
  | some hostType =>
    simp only [Option.bind_eq_bind, Option.bind_some]
    cases hcategory : table.category? hostType with
    | none => exact .inl ⟨_, .uncategorized hparse hcategory, rfl⟩
    | some category =>
      cases hname : table.shaderName? hostType with
      | none => exact .inl ⟨_, .unnamed hparse hname, rfl⟩
      | some shaderType => exact .inr ⟨_, rfl, rfl⟩

theorem after_of_none {r : Request} (h : r.capture? table = none) (c : Captures) :
    c.after kernel table r = c := by
  unfold after
  rcases c.answer_request kernel table r with ⟨text, _, hanswer⟩ | ⟨capture, hcapture, _⟩
  · rw [hanswer]
  · cases h.symm.trans hcapture

theorem after_of_some {r : Request} {capture : Capture} (h : r.capture? table = some capture)
    (c : Captures) : c.after kernel table r = c.grant capture := by
  unfold after
  rcases c.answer_request kernel table r with ⟨text, hrefuses, _⟩ | ⟨capture', hcapture, hanswer⟩
  · cases h.symm.trans (Request.capture?_eq_none_iff.mpr ⟨text, hrefuses⟩)
  · cases h.symm.trans hcapture
    rw [hanswer]

/-! ### One capture more -/

variable (c : Captures) (capture : Capture)

theorem fst_takeSlot (category : Category) : (c.takeSlot category).1 = c.next? category := by
  cases category <;> rfl

theorem toCaptureLists_grant : (c.grant capture).toCaptureLists =
    c.toCaptureLists.push { capture with slot := c.next? capture.category } := by
  unfold grant
  rw [← fst_takeSlot]
  cases capture.category <;> rfl

/-- Taking a slot moves the counter of its category and no other. -/
theorem next?_grant (category : Category) : (c.grant capture).next? category =
    (c.next? category).map (· + if category = capture.category then 1 else 0) := by
  have hnext : (c.grant capture).next? category =
      (c.takeSlot capture.category).2.next? category := by cases category <;> rfl
  rw [hnext]
  cases capture.category <;> cases category <;> rfl

theorem next?_eq_none_iff (category : Category) :
    c.next? category = none ↔ ¬ category.isResource := by
  cases category <;> simp [next?, Category.isResource]

/-! ### Order -/

variable (kernel table) in
/-- What a run adds to what was there. -/
theorem foldl_after (requests : List Request) (c : Captures) :
    (requests.foldl (after kernel table) c).resources.map Capture.unslotted =
        c.resources.map Capture.unslotted ++
          (granted table requests).filter (·.category.isResource) ∧
      (requests.foldl (after kernel table) c).scalars =
        c.scalars ++ (granted table requests).filter (! ·.category.isResource) := by
  induction requests generalizing c with
  | nil => simp [granted]
  | cons r requests ih =>
    rw [List.foldl_cons]
    cases hr : r.capture? table with
    | none =>
      have hgranted : granted table (r :: requests) = granted table requests :=
        List.filterMap_cons_none hr
      rw [after_of_none hr, hgranted]
      exact ih c
    | some capture =>
      have hgranted : granted table (r :: requests) = capture :: granted table requests :=
        List.filterMap_cons_some hr
      have hunslotted := Request.unslotted_of_capture? hr
      obtain ⟨hresources, hscalars⟩ := ih (c.after kernel table r)
      rw [hresources, hscalars, after_of_some hr, hgranted, toCaptureLists_grant,
        CaptureLists.resources_push, CaptureLists.scalars_push]
      by_cases hc : capture.category.isResource
      · have hslot (slot : Option Nat) : Capture.unslotted { capture with slot } = capture :=
          hunslotted
        simp [hc, hslot]
      · have hnone : { capture with slot := c.next? capture.category } = capture := by
          rw [(c.next?_eq_none_iff _).mpr hc]
          exact hunslotted
        simp [hc, hnone]

/-! ### Slots -/

/-- Whether the resources have the slots that the counters have gone through. -/
structure Counted (c : Captures) : Prop where
  numbered : c.toCaptureLists.Numbered
  counters : ∀ category, category.isResource →
    c.next? category = some (category.firstSlot + (c.ofCategory category).length)

theorem counted_empty : Counted {} where
  numbered := ⟨nofun, fun _ => rfl⟩
  counters category _ := by cases category <;> trivial

variable {c capture}

theorem Counted.grant (h : c.Counted) : (c.grant capture).Counted := by
  by_cases hc : capture.category.isResource
  · have hgroup (category : Category) := c.toCaptureLists.ofCategory_push
      (c := { capture with slot := c.next? capture.category }) hc category
    refine ⟨⟨fun d hd => ?_, fun category => ?_⟩, fun category hcategory => ?_⟩
    · rw [toCaptureLists_grant, CaptureLists.resources_push] at hd
      rcases List.mem_append.mp hd with hd | hd
      · exact h.numbered.isResource d hd
      · exact (List.mem_filter.mp hd).2
    · have hslots := h.numbered.slots category
      rw [toCaptureLists_grant, hgroup]
      by_cases hcategory : capture.category = category
      · subst hcategory
        simp [List.range'_1_concat, hslots, h.counters _ hc]
      · simp [hcategory, hslots]
    · rw [next?_grant, h.counters category hcategory, toCaptureLists_grant, hgroup]
      by_cases hsame : capture.category = category
      · simp [hsame, Nat.add_assoc]
      · simp [hsame, Ne.symm hsame]
  · have hpush : (c.grant capture).resources = c.resources := by
      simp [toCaptureLists_grant, CaptureLists.resources_push, hc]
    refine ⟨⟨?_, fun category => ?_⟩, fun category hcategory => ?_⟩
    · rw [hpush]
      exact h.numbered.isResource
    · rw [CaptureLists.ofCategory, hpush]
      exact h.numbered.slots category
    · have hother : category ≠ capture.category := by
        rintro rfl
        exact hc hcategory
      have hgroup : (c.grant capture).ofCategory category = c.ofCategory category := by
        rw [CaptureLists.ofCategory, hpush]
        rfl
      rw [next?_grant, h.counters category hcategory, hgroup, if_neg hother]
      rfl

theorem Counted.after (h : c.Counted) (r : Request) : (c.after kernel table r).Counted := by
  cases hr : r.capture? table with
  | none =>
    rw [after_of_none hr]
    exact h
  | some capture =>
    rw [after_of_some hr]
    exact h.grant

variable (kernel table) in
theorem counted_run (requests : List Request) : (run kernel table requests).Counted :=
  List.foldlRecOn requests _ counted_empty fun _ h r _ => h.after r

end Captures

end ComputeKernel
