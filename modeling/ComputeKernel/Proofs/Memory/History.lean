import Mathlib.Data.Finset.Card
import Mathlib.Data.List.Dedup
import ComputeKernel.Memo

/-!
Histories of a memory. A run is told again with everything that happens in it: each time a key is asked
for, and the end of each computation, with the memory as it was then. Whatever a memory answers, at any
point of a run, can be read off from what happened before.
-/

namespace ComputeKernel

namespace Memo

variable {κ ν : Type}

/-- What happens in a memory. To ask for a key is to find its value or to start its computation. -/
inductive Event (κ ν : Type) where
  | found (key : κ) (value : ν)
  | started (key : κ)
  /-- A computation of the key gives a value. -/
  | returned (key : κ) (value : ν)
  /-- A computation of the key breaks off. -/
  | broke (key : κ)
  deriving DecidableEq, Repr

/-- An event, with the memory as it was when it happened. -/
structure Moment (κ ν : Type) where
  memory : Memo κ ν
  event : Event κ ν

def events (log : List (Moment κ ν)) : List (Event κ ν) := log.map (·.event)

/-! ### What events say -/

def Event.started? : Event κ ν → Option κ
  | started key => some key
  | _ => none

def Event.returned? : Event κ ν → Option (κ × ν)
  | returned key value => some (key, value)
  | _ => none

/-- The keys of the computations that were started. -/
def starts (es : List (Event κ ν)) : List κ := es.filterMap Event.started?

/-- What computations gave, the first one first. -/
def returns (es : List (Event κ ν)) : List (κ × ν) := es.filterMap Event.returned?

variable [DecidableEq κ]

/-- The keys of which some computation has given a value. -/
def done (es : List (Event κ ν)) : Finset κ := ((returns es).map Prod.fst).toFinset

theorem mem_done {es : List (Event κ ν)} {key : κ} :
    key ∈ done es ↔ ∃ value, .returned key value ∈ es := by
  simp only [done, returns, List.mem_toFinset, List.mem_map, List.mem_filterMap]
  constructor
  · rintro ⟨⟨_, value⟩, ⟨e, he, hreturned⟩, rfl⟩
    cases e <;> cases hreturned
    exact ⟨value, he⟩
  · rintro ⟨value, he⟩
    exact ⟨(key, value), ⟨_, he, rfl⟩, rfl⟩

theorem isSome_lookup_returns {es : List (Event κ ν)} {key : κ} :
    ((returns es).lookup key).isSome ↔ key ∈ done es := by
  simp only [List.lookup_isSome_iff, done, List.mem_toFinset, List.mem_map, beq_iff_eq, eq_comm (a := key)]

theorem done_append_returned (es : List (Event κ ν)) (key : κ) (value : ν) :
    done (es ++ [.returned key value]) = insert key (done es) := by
  ext other
  rw [Finset.mem_insert, mem_done, mem_done]
  constructor
  · rintro ⟨v, hv⟩
    rcases List.mem_append.mp hv with hv | hv
    · exact .inr ⟨v, hv⟩
    · cases List.mem_singleton.mp hv
      exact .inl rfl
  · rintro (rfl | ⟨v, hv⟩)
    · exact ⟨value, List.mem_append_right _ (List.mem_singleton.mpr rfl)⟩
    · exact ⟨v, List.mem_append_left _ hv⟩

/-! ### Runs with their histories -/

/-- `run`, with what happens in it. -/
def Computation.traced : Computation κ ν → Memo κ ν → List (Moment κ ν) × Option ν × Memo κ ν
  | give value, m => ([], some value, m)
  | breakOff, m => ([], none, m)
  | ask key inner next, m =>
    match m.value? key with
    | some value =>
      let (log, result) := (next value).traced m
      (⟨m, .found key value⟩ :: log, result)
    | none =>
      match inner.traced (m.start key) with
      | (log, some value, m') =>
        let (log', result) := (next value).traced (m'.store key value)
        (⟨m, .started key⟩ :: (log ++ ⟨m', .returned key value⟩ :: log'), result)
      | (log, none, m') => (⟨m, .started key⟩ :: (log ++ [⟨m', .broke key⟩]), none, m')

def Computation.history (c : Computation κ ν) (m : Memo κ ν) : List (Moment κ ν) := (c.traced m).1

theorem Computation.traced_snd (c : Computation κ ν) (m : Memo κ ν) : (c.traced m).2 = c.run m := by
  induction c generalizing m with
  | give | breakOff => rfl
  | ask key inner next ihInner ihNext =>
    rw [traced, run, Memo.ask]
    cases hvalue : m.value? key with
    | some value => exact ihNext value m
    | none =>
      have hinner := ihInner (m.start key)
      simp only
      rw [← hinner]
      rcases inner.traced (m.start key) with ⟨log, value?, m'⟩
      cases value? with
      | none => rfl
      | some value => exact ihNext value (m'.store key value)

/-- The memory behind an event. -/
def Event.after (m : Memo κ ν) : Event κ ν → Memo κ ν
  | found .. | broke _ => m
  | started key => m.start key
  | returned key value => m.store key value

/-- Whether a key that is asked for has the value that is found, or none if a computation is started. -/
def Event.Fits (m : Memo κ ν) : Event κ ν → Prop
  | found key value => m.value? key = some value
  | started key => m.value? key = none
  | returned .. | broke _ => True

/-- Moments that follow from each other, from one memory to another. -/
inductive History : Memo κ ν → List (Moment κ ν) → Memo κ ν → Prop where
  | nil {m} : History m [] m
  | cons {m e log m'} : e.Fits m → History (e.after m) log m' → History m (⟨m, e⟩ :: log) m'

variable {m m₁ m' : Memo κ ν} {log log' : List (Moment κ ν)} {es : List (Event κ ν)}

theorem History.append (h : History m log m₁) (h' : History m₁ log' m') : History m (log ++ log') m' := by
  induction h with
  | nil => exact h'
  | cons hfits _ ih => exact .cons hfits (ih h')

theorem Computation.history_run (c : Computation κ ν) (m : Memo κ ν) :
    History m (c.history m) (c.run m).2 := by
  rw [← c.traced_snd]
  induction c generalizing m with
  | give | breakOff => exact .nil
  | ask key inner next ihInner ihNext =>
    rw [history, traced]
    cases hvalue : m.value? key with
    | some value => exact .cons hvalue (ihNext value m)
    | none =>
      have hstarts : (Event.started key : Event κ ν).Fits m := hvalue
      have hinner := ihInner (m.start key)
      rw [history] at hinner
      generalize inner.traced (m.start key) = traced at hinner
      obtain ⟨log, value?, m'⟩ := traced
      cases value? with
      | none => exact .cons hstarts (hinner.append (.cons trivial .nil))
      | some value =>
        exact .cons hstarts (hinner.append (.cons trivial (ihNext value (m'.store key value))))

/-! ### What a memory holds -/

/-- Whether a memory is another one with what came of events: a key that had no value has the first one
that was given, and no key has lost its value. -/
structure After (m : Memo κ ν) (es : List (Event κ ν)) (m' : Memo κ ν) : Prop where
  value? : ∀ key, m'.value? key = (m.value? key).or ((returns es).lookup key)
  computations : ∀ key, m'.computations key = m.computations key + (starts es).count key
  size : m'.size = m.size + ((done es).filter fun key => ¬ m.contains key).card

theorem After.refl (m : Memo κ ν) : After m [] m :=
  ⟨fun _ => (Option.or_none).symm, fun _ => rfl, rfl⟩

theorem After.contains_iff (h : After m es m') (key : κ) :
    m'.contains key ↔ m.contains key ∨ key ∈ done es := by
  rw [contains, h.value?, Option.isSome_or, Bool.or_eq_true, isSome_lookup_returns]
  rfl

theorem value?_store (m : Memo κ ν) (key other : κ) (value : ν) :
    (m.store key value).value? other = (m.value? other).or ([(key, value)].lookup other) := by
  by_cases h : other = key
  · subst h
    rw [value?_store_self, List.lookup_cons_self]
    cases m.value? other <;> rfl
  · have hlookup : [(key, value)].lookup other = none := by simp [h]
    rw [value?_store_of_ne h, hlookup, Option.or_none]

theorem After.store (h : After m es m₁) (key : κ) (value : ν) :
    After m (es ++ [.returned key value]) (m₁.store key value) where
  value? other := by
    have hreturns : returns (es ++ [.returned key value]) = returns es ++ [(key, value)] :=
      List.filterMap_append
    rw [value?_store, h.value?, hreturns, List.lookup_append, Option.or_assoc]
  computations other := by
    have hstarts : starts (es ++ [.returned key value]) = starts es ++ [] := List.filterMap_append
    rw [computations_store, h.computations, hstarts, List.append_nil]
  size := by
    have hcontains := h.contains_iff key
    rw [size_store, h.size, done_append_returned, Finset.filter_insert]
    by_cases hm : m.contains key
    · rw [if_pos (hcontains.mpr (.inl hm)), if_neg (not_not_intro hm)]
    · rw [if_pos hm]
      by_cases hdone : key ∈ done es
      · have hmem : key ∈ (done es).filter fun key => ¬ m.contains key :=
          Finset.mem_filter.mpr ⟨hdone, hm⟩
        rw [if_pos (hcontains.mpr (.inr hdone)), Finset.insert_eq_of_mem hmem]
      · have hnew : ¬ m₁.contains key := fun hkey => (hcontains.mp hkey).elim hm hdone
        rw [if_neg hnew, Finset.card_insert_of_notMem fun hmem => hdone (Finset.mem_filter.mp hmem).1,
          Nat.add_assoc]

theorem After.start (h : After m es m₁) (key : κ) :
    After m (es ++ [.started key]) (m₁.start key) := by
  have hreturns : returns (es ++ [Event.started (ν := ν) key]) = returns es :=
    List.filterMap_append.trans (List.append_nil _)
  have hstarts : starts (es ++ [Event.started (ν := ν) key]) = starts es ++ [key] :=
    List.filterMap_append
  refine ⟨fun other => ?_, fun other => ?_, ?_⟩
  · rw [value?_start, h.value?, hreturns]
  · rw [computations_start, h.computations, hstarts, List.count_append, List.count_singleton,
      Nat.add_assoc]
    simp only [beq_iff_eq]
  · rw [done, hreturns]
    exact h.size

/-- What is neither the start of a computation nor its value changes nothing. -/
theorem After.other (h : After m es m₁) {e : Event κ ν} (hstarted : e.started? = none)
    (hreturned : e.returned? = none) : After m (es ++ [e]) m₁ := by
  have hreturns : returns (es ++ [e]) = returns es := by
    rw [returns, List.filterMap_append, List.filterMap_cons_none hreturned, List.filterMap_nil,
      List.append_nil, returns]
  have hstarts : starts (es ++ [e]) = starts es := by
    rw [starts, List.filterMap_append, List.filterMap_cons_none hstarted, List.filterMap_nil,
      List.append_nil, starts]
  refine ⟨fun key => ?_, fun key => ?_, ?_⟩
  · rw [hreturns, h.value?]
  · rw [hstarts, h.computations]
  · rw [done, hreturns]
    exact h.size

/-- One event more. -/
theorem After.step (h : After m es m₁) (e : Event κ ν) : After m (es ++ [e]) (e.after m₁) := by
  cases e with
  | found key value => exact h.other rfl rfl
  | started key => exact h.start key
  | returned key value => exact h.store key value
  | broke key => exact h.other rfl rfl

/-- All events more. -/
theorem History.after (h : History m₁ log m') (hm : After m es m₁) : After m (es ++ events log) m' := by
  induction h generalizing es with
  | nil => rwa [events, List.map_nil, List.append_nil]
  | @cons _ e _ _ _ _ ih =>
    have hrest := ih (hm.step e)
    rwa [List.append_assoc] at hrest

/-- A history is made of what leads to a moment, the moment, and what comes behind it. -/
theorem History.split {before after : List (Moment κ ν)} {x : Moment κ ν}
    (h : History m (before ++ x :: after) m') :
    History m before x.memory ∧ x.event.Fits x.memory ∧ History (x.event.after x.memory) after m' := by
  induction before generalizing m with
  | nil =>
    cases h with
    | cons hfits hrest => exact ⟨.nil, hfits, hrest⟩
  | cons y before ih =>
    cases h with
    | cons hfits hrest =>
      obtain ⟨hbefore, hx⟩ := ih hrest
      exact ⟨.cons hfits hbefore, hx⟩

end Memo

end ComputeKernel
