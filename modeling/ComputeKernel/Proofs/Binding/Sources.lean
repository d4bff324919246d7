import ComputeKernel.Proofs.Binding.Refusals

/-!
Where captures come from. Fields and statics that are all granted are the captures in the end, each
once and with its identifier.
-/

namespace ComputeKernel

/-- What a capture reads, and the identifier under which it does. -/
def Capture.reads (c : Capture) : CaptureSource × String := (c.source, c.shaderName)

namespace CaptureLists

def all (cs : CaptureLists) : List Capture := cs.resources ++ cs.scalars

theorem all_push_perm (cs : CaptureLists) (c : Capture) : (cs.push c).all.Perm (c :: cs.all) := by
  unfold all push
  split
  · rw [List.append_assoc]
    exact List.perm_middle
  · rw [← List.append_assoc]
    exact List.perm_append_comm

end CaptureLists

namespace Captures

variable {kernel : String} {table : TypeTable} {c c' : Captures}

theorem reads_of_request {r : Request} (h : c.extend (request kernel table r) = .ok c') :
    (c'.all.map Capture.reads).Perm ((r.source, r.shaderName) :: c.all.map Capture.reads) := by
  obtain ⟨capture, hcapture, rfl⟩ := eq_grant_of_extend h
  rw [toCaptureLists_grant]
  simp only [Request.capture?, Option.bind_eq_bind, Option.bind_eq_some_iff] at hcapture
  obtain ⟨hostType, _, category, _, shaderType, _, ⟨⟩⟩ := hcapture
  exact (CaptureLists.all_push_perm _ _).map Capture.reads

theorem reads_addAll {requests : List Request}
    (h : c.extend (addAll kernel table requests) = .ok c') :
    (c'.all.map Capture.reads).Perm
      (c.all.map Capture.reads ++ requests.map fun r => (r.source, r.shaderName)) := by
  induction requests generalizing c with
  | nil =>
    cases h
    rw [List.map_nil, List.append_nil]
  | cons r requests ih =>
    rw [addAll, extend_bind] at h
    cases hfirst : c.extend (request kernel table r) with
    | error e =>
      rw [hfirst] at h
      cases h
    | ok c₁ =>
      rw [hfirst] at h
      refine (ih h).trans (((reads_of_request hfirst).append_right _).trans ?_)
      exact List.perm_middle.symm

theorem reads_addFields {index : Nat} {fields : List (FieldDecl × String)}
    (h : c.extend (Classify.addFields kernel table index fields) = .ok c') :
    (c'.all.map Capture.reads).Perm
      (c.all.map Capture.reads ++
        ((fields.map (·.2)).zipIdx index).map fun p => (.field p.2, p.1)) := by
  rw [addFields_eq_addAll] at h
  refine (reads_addAll h).trans (.of_eq ?_)
  rw [fieldRequests, List.map_map, List.zipIdx_map, List.map_map]
  rfl

theorem reads_addStatics {statics : List (StaticDecl × String)}
    (h : c.extend (Classify.addStatics kernel table statics) = .ok c') :
    (c'.all.map Capture.reads).Perm
      (c.all.map Capture.reads ++ statics.map fun p => (.static p.1, p.2)) := by
  rw [addStatics_eq_addAll] at h
  refine (reads_addAll h).trans (.of_eq ?_)
  rw [staticRequests, List.map_map]
  rfl

end Captures

end ComputeKernel
