import ComputeKernel.Program.Translator

/-!
What a translator has kept does not show. Kernel types of a library are translated, compiled and read
by calls in any order and with any tables, and each call is answered as if nothing had been asked
before. The closures that are kept serve every table; the descriptors that are kept are those under the
built-in one, so a translation with a table of its own never sees them. As the calls stand in any order,
it does not matter either in which order the kernel types of one call are translated.
-/

namespace ComputeKernel

/-- Kernel types by identity, each with its closure and its catalog. -/
structure Library where
  source : KernelId → String
  catalog : KernelId → Catalog

namespace Library

def kernel (l : Library) (k : KernelId) : Kernel := ⟨k, l.source k, l.catalog k⟩

/-- A call to a translator, with kernel types by identity. -/
inductive Call where
  | translate (kernel : KernelId)
  | translateWith (kernel : KernelId) (table : TypeTable)
  | compile (kernel : KernelId) (settings : Settings)
  | translateAll (kernels : List KernelId)
  /-- Reads and checks the closure only. -/
  | read (kernel : KernelId)

inductive Reply where
  | descriptor (result : Except TranslateError Descriptor)
  | program (result : Except TranslateError String)
  | descriptors (results : List (Except TranslateError Descriptor))
  | closure (result : Except TranslateError CheckedBody)

def serve (l : Library) (t : Translator) : Call → Reply × Translator
  | .translate k => ((t.translate (l.kernel k)).map .descriptor id)
  | .translateWith k table => ((t.translateWith (l.kernel k) table).map .descriptor id)
  | .compile k settings => ((t.compile (l.kernel k) settings).map .program id)
  | .translateAll ks => ((t.translateAll (ks.map l.kernel)).map .descriptors id)
  | .read k => ((t.checkedBody (l.kernel k)).map .closure id)

def serveAll (l : Library) (t : Translator) : List Call → List Reply × Translator
  | [] => ([], t)
  | c :: cs =>
    let (reply, t) := l.serve t c
    let (replies, t) := l.serveAll t cs
    (reply :: replies, t)

/-- A translator that has served calls and nothing else. -/
def after (l : Library) (calls : List Call) : Translator := (l.serveAll {} calls).2

/-- What a kernel type is translated to by a translator that has kept nothing. -/
def translation (l : Library) (k : KernelId) (table : TypeTable) : Except TranslateError Descriptor :=
  (({} : Translator).translateWith (l.kernel k) table).1

/-- The reply of a translator that has kept nothing. -/
def fresh (l : Library) : Call → Reply
  | .translate k => .descriptor (l.translation k .hlsl)
  | .translateWith k table => .descriptor (l.translation k table)
  | .compile k settings => .program ((l.translation k .hlsl).map (·.render settings))
  | .translateAll ks => .descriptors (ks.map fun k => l.translation k .hlsl)
  | .read k => .closure (({} : Translator).checkedBody (l.kernel k)).1

end Library

/-! ### Stateless translation -/

/-- A property of all values that are kept extends to one that is computed and kept. -/
theorem Memo.value?_start_store {κ ν : Type} [DecidableEq κ] {P : κ → ν → Prop} {m : Memo κ ν}
    (h : ∀ other, ∀ v ∈ m.value? other, P other v) {key : κ} {value : ν} (hvalue : P key value) :
    ∀ other, ∀ v ∈ ((m.start key).store key value).value? other, P other v := by
  intro other v hv
  by_cases hother : other = key
  · subst hother
    rw [Memo.value?_store_self, value?_start, Option.mem_some] at hv
    cases hkept : m.value? other with
    | none =>
      rw [hkept, Option.getD_none] at hv
      exact hv ▸ hvalue
    | some w =>
      rw [hkept, Option.getD_some] at hv
      exact hv ▸ h other w hkept
  · rw [Memo.value?_store_of_ne hother, value?_start] at hv
    exact h other v hv

namespace Translator

theorem fieldCaptures_eq (k : Kernel) (table : TypeTable) :
    fieldCaptures k table = (checkShape k.name k.catalog.fields >>= fun _ =>
      Captures.extend {} (Classify.addFields k.name table 0
        (k.catalog.fields.zip (Shader.captureNames (k.catalog.fields.map (·.name))).1))) := rfl

/-- The result of a translation depends on the memory only through the closure. -/
theorem fst_translateWith (t : Translator) (k : Kernel) (table : TypeTable) :
    (t.translateWith k table).1 = (do
      let captures ← fieldCaptures k table
      let body ← (t.checkedBody k).1
      describe k.toKernelId captures body table) := by
  unfold translateWith
  cases fieldCaptures k table with
  | error e => rfl
  | ok captures =>
    rcases t.checkedBody k with ⟨_ | body, t'⟩
    · rfl
    · rfl

theorem snd_translateWith (t : Translator) (k : Kernel) (table : TypeTable) :
    (t.translateWith k table).2 =
      if (fieldCaptures k table).isOk then (t.checkedBody k).2 else t := by
  unfold translateWith
  cases fieldCaptures k table with
  | error e => rfl
  | ok captures =>
    rcases t.checkedBody k with ⟨_ | body, t'⟩
    · rfl
    · rfl

/-- All that a translator has kept is what the library's kernel types give. -/
structure Coherent (t : Translator) (l : Library) : Prop where
  bodies : ∀ k, ∀ result ∈ t.bodies.value? k,
    result = CheckedBody.of k.name (l.source k) (l.catalog k)
  descriptors : ∀ k, ∀ result ∈ t.descriptors.value? k, result = l.translation k .hlsl

variable {t : Translator} {l : Library}

theorem coherent_empty (l : Library) : ({} : Translator).Coherent l where
  bodies _ _ h := nomatch h
  descriptors _ _ h := nomatch h

namespace Coherent

theorem fst_checkedBody (h : t.Coherent l) (k : KernelId) :
    (t.checkedBody (l.kernel k)).1 = CheckedBody.of k.name (l.source k) (l.catalog k) := by
  unfold checkedBody
  split
  · rename_i result hresult
    exact h.bodies k result hresult
  · rfl

theorem snd_checkedBody (h : t.Coherent l) (k : KernelId) :
    (t.checkedBody (l.kernel k)).2.Coherent l := by
  unfold checkedBody
  split
  · exact h
  · refine ⟨?_, h.descriptors⟩
    exact Memo.value?_start_store
      (P := fun k result => result = CheckedBody.of k.name (l.source k) (l.catalog k)) h.bodies rfl

theorem fst_translateWith (h : t.Coherent l) (k : KernelId) (table : TypeTable) :
    (t.translateWith (l.kernel k) table).1 = l.translation k table := by
  rw [Library.translation, Translator.fst_translateWith, Translator.fst_translateWith,
    h.fst_checkedBody, (coherent_empty l).fst_checkedBody]

theorem snd_translateWith (h : t.Coherent l) (k : KernelId) (table : TypeTable) :
    (t.translateWith (l.kernel k) table).2.Coherent l := by
  rw [Translator.snd_translateWith]
  split
  · exact h.snd_checkedBody k
  · exact h

theorem fst_translate (h : t.Coherent l) (k : KernelId) :
    (t.translate (l.kernel k)).1 = l.translation k .hlsl := by
  unfold translate
  split
  · rename_i descriptor hdescriptor
    exact h.descriptors k descriptor hdescriptor
  · exact h.fst_translateWith k .hlsl

theorem snd_translate (h : t.Coherent l) (k : KernelId) :
    (t.translate (l.kernel k)).2.Coherent l := by
  unfold translate
  split
  · exact h
  · have hafter := h.snd_translateWith k .hlsl
    refine ⟨hafter.bodies, ?_⟩
    exact Memo.value?_start_store
      (P := fun k result => result = l.translation k .hlsl) hafter.descriptors
      (h.fst_translateWith k .hlsl)

theorem translateAll (h : t.Coherent l) (ks : List KernelId) :
    (t.translateAll (ks.map l.kernel)).1 = ks.map (fun k => l.translation k .hlsl) ∧
      (t.translateAll (ks.map l.kernel)).2.Coherent l := by
  induction ks generalizing t with
  | nil => exact ⟨rfl, h⟩
  | cons k ks ih =>
    obtain ⟨hrest, hafter⟩ := ih (h.snd_translate k)
    refine ⟨?_, hafter⟩
    show (t.translate (l.kernel k)).1 ::
      ((t.translate (l.kernel k)).2.translateAll (ks.map l.kernel)).1 = _
    rw [hrest, h.fst_translate, List.map_cons]

end Coherent

end Translator

/-! ### Calls -/

namespace Library

variable {t : Translator}

/-- A call is answered as by a translator that has kept nothing, and keeps nothing else. -/
theorem serve_of_coherent (l : Library) (h : t.Coherent l) (c : Call) :
    (l.serve t c).1 = l.fresh c ∧ (l.serve t c).2.Coherent l := by
  cases c with
  | translate k => exact ⟨congrArg Reply.descriptor (h.fst_translate k), h.snd_translate k⟩
  | translateWith k table =>
    exact ⟨congrArg Reply.descriptor (h.fst_translateWith k table), h.snd_translateWith k table⟩
  | compile k settings =>
    refine ⟨?_, h.snd_translate k⟩
    show Reply.program ((t.translate (l.kernel k)).1.map (·.render settings)) = _
    rw [h.fst_translate]
    rfl
  | translateAll ks =>
    obtain ⟨hresults, hafter⟩ := h.translateAll ks
    exact ⟨congrArg Reply.descriptors hresults, hafter⟩
  | read k =>
    refine ⟨?_, h.snd_checkedBody k⟩
    show Reply.closure (t.checkedBody (l.kernel k)).1 = _
    rw [h.fst_checkedBody, ← (Translator.coherent_empty l).fst_checkedBody]
    rfl

theorem serveAll_of_coherent (l : Library) (h : t.Coherent l) (calls : List Call) :
    (l.serveAll t calls).1 = calls.map l.fresh ∧ (l.serveAll t calls).2.Coherent l := by
  induction calls generalizing t with
  | nil => exact ⟨rfl, h⟩
  | cons c calls ih =>
    obtain ⟨hreply, hafter⟩ := l.serve_of_coherent h c
    obtain ⟨hreplies, hend⟩ := ih hafter
    refine ⟨?_, hend⟩
    show (l.serve t c).1 :: (l.serveAll (l.serve t c).2 calls).1 = _
    rw [hreply, hreplies, List.map_cons]

theorem coherent_after (l : Library) (calls : List Call) : (l.after calls).Coherent l :=
  (l.serveAll_of_coherent (Translator.coherent_empty l) calls).2

/-- Every call is answered as by a translator that has kept nothing. -/
theorem serveAll_eq_fresh (l : Library) (calls : List Call) :
    (l.serveAll {} calls).1 = calls.map l.fresh :=
  (l.serveAll_of_coherent (Translator.coherent_empty l) calls).1

end Library

end ComputeKernel
