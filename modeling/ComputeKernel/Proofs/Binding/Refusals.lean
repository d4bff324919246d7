import ComputeKernel.Proofs.Binding.Slots

/-!
Refused captures. Fields and statics are added one after the other, up to the first that the type table
refuses, which is the one that the error names. If none is refused, the captures are those of a run in
which every request is granted.
-/

namespace ComputeKernel

/-- The first declaration, a name with a type, that is refused. -/
inductive TypeTable.RefusesFirst (table : TypeTable) :
    List (String × String) → String → String → Prop where
  | here {name type text rest} : table.Refuses type text →
      table.RefusesFirst ((name, type) :: rest) name text
  | there {decl rest name text} : (∀ text, ¬ table.Refuses decl.2 text) →
      table.RefusesFirst rest name text → table.RefusesFirst (decl :: rest) name text

/-- The error has one text. -/
theorem TypeTable.Refuses.text_eq {table : TypeTable} {type text text' : String}
    (h : table.Refuses type text) (h' : table.Refuses type text') : text = text' := by
  cases h with
  | malformed hparse =>
    cases h' with
    | malformed _ => rfl
    | uncategorized hhost _ | unnamed hhost _ => cases hparse.symm.trans hhost
  | uncategorized hparse _ | unnamed hparse _ =>
    cases h' with
    | malformed hnone => cases hparse.symm.trans hnone
    | uncategorized hhost _ | unnamed hhost _ =>
      cases hparse.symm.trans hhost
      rfl

namespace Captures

variable {kernel : String} {table : TypeTable} {c c' : Captures}

/-- A step and then another. -/
theorem extend_bind (c : Captures) (first next : Classify Unit) :
    c.extend (do first; next) = (do (← c.extend first).extend next) := by
  unfold extend
  have hanswer : c.answer (do first; next) = match c.answer first with
      | (.ok _, c') => c'.answer next
      | (.error e, c') => (.error e, c') := by
    unfold answer
    rw [ExceptT.run_bind, StateT.run_bind]
    rcases first.run.run c with ⟨_ | _, c'⟩ <;> rfl
  rw [hanswer]
  rcases c.answer first with ⟨_ | _, c'⟩ <;> rfl

/-- Adds captures, unless one of them is refused. -/
def addAll (kernel : String) (table : TypeTable) : List Request → Classify Unit
  | [] => return
  | r :: rest => do
    request kernel table r
    addAll kernel table rest

/-- The requests for fields from the place `index` on. -/
def fieldRequests (index : Nat) (fields : List (FieldDecl × String)) : List Request :=
  (fields.zipIdx index).map fun p => .field p.2 p.1.1 p.1.2

def staticRequests (statics : List (StaticDecl × String)) : List Request :=
  statics.map fun p => .static p.1 p.2

theorem addFields_eq_addAll (kernel : String) (table : TypeTable) (index : Nat)
    (fields : List (FieldDecl × String)) :
    Classify.addFields kernel table index fields = addAll kernel table (fieldRequests index fields) := by
  induction fields generalizing index with
  | nil => rfl
  | cons p fields ih =>
    rw [Classify.addFields, fieldRequests, List.zipIdx_cons, List.map_cons, addAll]
    exact bind_congr fun _ => ih (index + 1)

theorem addStatics_eq_addAll (kernel : String) (table : TypeTable)
    (statics : List (StaticDecl × String)) :
    Classify.addStatics kernel table statics = addAll kernel table (staticRequests statics) := by
  induction statics with
  | nil => rfl
  | cons p statics ih =>
    rw [Classify.addStatics, staticRequests, List.map_cons, addAll]
    exact bind_congr fun _ => ih

/-! ### Refusals -/

/-- A request that is refused is refused for its type. -/
theorem extend_request_eq_error_iff {r : Request} {e : TranslateError} :
    c.extend (request kernel table r) = .error e ↔
      ∃ text, table.Refuses r.type text ∧ e = .unsupportedCapture kernel r.name text := by
  unfold extend
  rcases c.answer_request kernel table r with ⟨text, hrefuses, hanswer⟩ | ⟨capture, hcapture, hanswer⟩
  · rw [hanswer]
    constructor
    · rintro ⟨⟩
      exact ⟨text, hrefuses, rfl⟩
    · rintro ⟨text', hrefuses', rfl⟩
      rw [hrefuses.text_eq hrefuses']
      rfl
  · rw [hanswer]
    refine ⟨nofun, ?_⟩
    rintro ⟨text, hrefuses, _⟩
    cases hcapture.symm.trans (Request.capture?_eq_none_iff.mpr ⟨text, hrefuses⟩)

/-- Captures that are added one after the other fail with the first that is refused. -/
theorem extend_addAll_eq_error_iff {requests : List Request} {e : TranslateError} :
    c.extend (addAll kernel table requests) = .error e ↔
      ∃ name text, table.RefusesFirst (requests.map fun r => (r.name, r.type)) name text ∧
        e = .unsupportedCapture kernel name text := by
  induction requests generalizing c with
  | nil =>
    refine ⟨nofun, ?_⟩
    rintro ⟨_, _, ⟨⟩, _⟩
  | cons r requests ih =>
    rw [addAll, extend_bind, List.map_cons]
    cases hfirst : c.extend (request kernel table r) with
    | error e' =>
      obtain ⟨text, hrefuses, rfl⟩ := extend_request_eq_error_iff.mp hfirst
      constructor
      · rintro ⟨⟩
        exact ⟨_, _, .here hrefuses, rfl⟩
      · rintro ⟨name, text', hfirst', rfl⟩
        cases hfirst' with
        | here hrefuses' => rw [hrefuses.text_eq hrefuses']; rfl
        | there hnone _ => exact (hnone text hrefuses).elim
    | ok c₁ =>
      have hnone : ∀ text, ¬ table.Refuses r.type text := by
        intro text hrefuses
        have herror : c.extend (request kernel table r) =
            .error (.unsupportedCapture kernel r.name text) :=
          extend_request_eq_error_iff.mpr ⟨text, hrefuses, rfl⟩
        cases hfirst.symm.trans herror
      refine (show c₁.extend (addAll kernel table requests) = .error e ↔ _ from ih).trans ⟨?_, ?_⟩
      · rintro ⟨name, text, hrest, rfl⟩
        exact ⟨name, text, .there hnone hrest, rfl⟩
      · rintro ⟨name, text, hrest, rfl⟩
        cases hrest with
        | here hrefuses => exact (hnone _ hrefuses).elim
        | there _ hrest => exact ⟨name, text, hrest, rfl⟩

/-- A request that is not refused is granted. -/
theorem eq_grant_of_extend {r : Request} (h : c.extend (request kernel table r) = .ok c') :
    ∃ capture, r.capture? table = some capture ∧ c' = c.grant capture := by
  unfold extend at h
  rcases c.answer_request kernel table r with ⟨text, _, hanswer⟩ | ⟨capture, hcapture, hanswer⟩
  · rw [hanswer] at h
    cases h
  · rw [hanswer] at h
    cases h
    exact ⟨capture, hcapture, rfl⟩

theorem Counted.addAll (hcounted : c.Counted) {requests : List Request}
    (h : c.extend (addAll kernel table requests) = .ok c') : c'.Counted := by
  induction requests generalizing c with
  | nil =>
    cases h
    exact hcounted
  | cons r requests ih =>
    rw [Captures.addAll, extend_bind] at h
    cases hfirst : c.extend (request kernel table r) with
    | error e =>
      rw [hfirst] at h
      cases h
    | ok c₁ =>
      rw [hfirst] at h
      obtain ⟨capture, _, rfl⟩ := eq_grant_of_extend hfirst
      exact ih hcounted.grant h

end Captures

end ComputeKernel
