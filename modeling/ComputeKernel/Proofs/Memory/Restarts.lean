import ComputeKernel.Proofs.Memory.Requests

/-!
How often a key is computed. Computations are nested, and none asks for a key that is being computed
around it. So a key is under way once at most, and only while it has no value; a computation of it that
gives a value is the last one, and every other one broke off. What is counted is therefore one more than
the computations that broke off if the key has a value or is under way, and no more than these otherwise.
-/

namespace ComputeKernel

namespace Memo

variable {κ ν : Type}

/-! ### Computations under way -/

/-- Whether a computation asks for other keys only: neither for one of `underWay` nor, within the
computation of a key that it asks for, for that key. -/
def Computation.Avoids (underWay : List κ) : Computation κ ν → Prop
  | give _ | breakOff => True
  | ask key inner next =>
    key ∉ underWay ∧ inner.Avoids (key :: underWay) ∧ ∀ value, (next value).Avoids underWay

/-- Whether the computation that a request comes with asks for other keys only. -/
def Request.Apart : Request κ ν → Prop
  | ask key c => c.Avoids [key]
  | _ => True

/-- The keys that are being computed, the innermost first, before and after an event. -/
inductive Event.Shifts : List κ → Event κ ν → List κ → Prop where
  | found {underWay key value} : Shifts underWay (found key value) underWay
  | started {underWay key} : key ∉ underWay → Shifts underWay (started key) (key :: underWay)
  | returned {underWay key value} : Shifts (key :: underWay) (returned key value) underWay
  | broke {underWay key} : Shifts (key :: underWay) (broke key) underWay

/-- The keys that are being computed before and after events. -/
inductive Nested : List κ → List (Event κ ν) → List κ → Prop where
  | nil {underWay} : Nested underWay [] underWay
  | cons {underWay underWay₁ underWay' e es} : e.Shifts underWay underWay₁ →
      Nested underWay₁ es underWay' → Nested underWay (e :: es) underWay'

variable {m m' : Memo κ ν} {es es' : List (Event κ ν)} {underWay underWay₁ underWay' : List κ}

theorem Nested.append (h : Nested underWay es underWay₁) (h' : Nested underWay₁ es' underWay') :
    Nested underWay (es ++ es') underWay' := by
  induction h with
  | nil => exact h'
  | cons hshifts _ ih => exact .cons hshifts (ih h')

theorem Nested.split (h : Nested underWay (es ++ es') underWay') :
    ∃ underWay₁, Nested underWay es underWay₁ ∧ Nested underWay₁ es' underWay' := by
  induction es generalizing underWay with
  | nil => exact ⟨underWay, .nil, h⟩
  | cons e es ih =>
    cases h with
    | cons hshifts hrest =>
      obtain ⟨underWay₁, hes, hes'⟩ := ih hrest
      exact ⟨underWay₁, .cons hshifts hes, hes'⟩

/-! ### Events -/

theorem events_append (log log' : List (Moment κ ν)) :
    events (log ++ log') = events log ++ events log' := List.map_append

def Event.broke? : Event κ ν → Option κ
  | broke key => some key
  | _ => none

/-- The keys of the computations that broke off. -/
def breaks (es : List (Event κ ν)) : List κ := es.filterMap Event.broke?

theorem breaks_append (es es' : List (Event κ ν)) : breaks (es ++ es') = breaks es ++ breaks es' :=
  List.filterMap_append

variable [DecidableEq κ]

/-- What is under way around a computation is under way behind it. -/
theorem Computation.Avoids.nested {c : Computation κ ν} (h : c.Avoids underWay) (m : Memo κ ν) :
    Nested underWay (events (c.history m)) underWay := by
  induction c generalizing m underWay with
  | give | breakOff => exact .nil
  | ask key inner next ihInner ihNext =>
    obtain ⟨hkey, hinner, hnext⟩ := h
    rw [Computation.history, Computation.traced]
    cases hvalue : m.value? key with
    | some value => exact .cons .found (ihNext value (hnext value) m)
    | none =>
      have hlog := ihInner hinner (m.start key)
      rw [Computation.history] at hlog
      generalize inner.traced (m.start key) = traced at hlog
      obtain ⟨log, value?, m'⟩ := traced
      cases value? with
      | none =>
        have hends : Nested (key :: underWay) (events (log ++ [⟨m', .broke key⟩])) underWay := by
          rw [events_append]
          exact hlog.append (.cons .broke .nil)
        exact .cons (.started hkey) hends
      | some value =>
        have hends : Nested (key :: underWay) (events (log ++ ⟨m', .returned key value⟩ ::
            (next value).history (m'.store key value))) underWay := by
          rw [events_append]
          exact hlog.append (.cons .returned (ihNext value (hnext value) _))
        exact .cons (.started hkey) hends

theorem Request.nested_history {r : Request κ ν} (h : r.Apart) (m : Memo κ ν) :
    Nested [] (events (r.history m)) [] := by
  cases r with
  | ask key c =>
    have havoids : (Computation.ask key c .give).Avoids [] :=
      ⟨List.not_mem_nil, h, fun _ => trivial⟩
    exact havoids.nested m
  | _ => exact .nil

theorem nested_historyOf {requests : List (Request κ ν)} (h : ∀ r ∈ requests, r.Apart)
    (m : Memo κ ν) : Nested [] (events (historyOf m requests)) [] := by
  induction requests generalizing m with
  | nil => exact .nil
  | cons r requests ih =>
    obtain ⟨hr, hrequests⟩ := List.forall_mem_cons.mp h
    rw [historyOf, events_append]
    exact (Request.nested_history hr m).append (ih hrequests _)

/-! ### Accounts -/

/-- The account of a memory that was empty: each computation that was started broke off, is under way
or gave its key the value that it has. -/
structure Ledger (es : List (Event κ ν)) (underWay : List κ) (m : Memo κ ν) : Prop where
  nodup : underWay.Nodup
  unfilled : ∀ key ∈ underWay, m.value? key = none
  computations : ∀ key, m.computations key =
    (breaks es).count key + if key ∈ underWay ∨ m.contains key then 1 else 0
  returned : ∀ key, ((returns es).map Prod.fst).count key = if m.contains key then 1 else 0

theorem Ledger.nil : Ledger [] [] ({} : Memo κ ν) where
  nodup := List.nodup_nil
  unfilled := nofun
  computations _ := rfl
  returned _ := rfl

theorem contains_store (m : Memo κ ν) (key other : κ) (value : ν) :
    (m.store key value).contains other ↔ other = key ∨ m.contains other := by
  by_cases h : other = key
  · subst h
    rw [contains, value?_store_self]
    exact iff_of_true rfl (.inl rfl)
  · rw [contains, value?_store_of_ne h, or_iff_right h, contains]

theorem not_contains_of_value? {key : κ} (h : m.value? key = none) : ¬ m.contains key := by
  rw [contains, h]
  exact Bool.false_ne_true

namespace Ledger

/-- A key that has neither a value nor a computation under way gets one under way. -/
theorem start {key : κ} (h : Ledger es underWay m) (hkey : key ∉ underWay)
    (hnone : m.value? key = none) : Ledger (es ++ [.started key]) (key :: underWay) (m.start key) where
  nodup := List.nodup_cons.mpr ⟨hkey, h.nodup⟩
  unfilled := List.forall_mem_cons.mpr ⟨hnone, h.unfilled⟩
  computations other := by
    have hbreaks : breaks (es ++ [Event.started (ν := ν) key]) = breaks es :=
      (breaks_append _ _).trans (List.append_nil _)
    have hcontains : (m.start key).contains other = m.contains other := rfl
    rw [computations_start, h.computations, hbreaks, hcontains, Nat.add_assoc]
    by_cases hother : key = other
    · subst hother
      simp [hkey, not_contains_of_value? hnone]
    · simp [hother, Ne.symm hother]
  returned other := by
    have hreturns : returns (es ++ [Event.started (ν := ν) key]) = returns es :=
      List.filterMap_append.trans (List.append_nil _)
    rw [hreturns]
    exact h.returned other

/-- The innermost key gets the value that its computation gives. -/
theorem «return» {key : κ} (h : Ledger es (key :: underWay) m) (value : ν) :
    Ledger (es ++ [.returned key value]) underWay (m.store key value) where
  nodup := (List.nodup_cons.mp h.nodup).2
  unfilled other hother := by
    have hne : other ≠ key := by
      rintro rfl
      exact (List.nodup_cons.mp h.nodup).1 hother
    rw [value?_store_of_ne hne]
    exact h.unfilled other (List.mem_cons_of_mem _ hother)
  computations other := by
    have hbreaks : breaks (es ++ [.returned key value]) = breaks es :=
      (breaks_append _ _).trans (List.append_nil _)
    rw [computations_store, h.computations, hbreaks]
    simp only [contains_store, List.mem_cons, or_assoc, or_left_comm]
  returned other := by
    have hreturns : returns (es ++ [.returned key value]) = returns es ++ [(key, value)] :=
      List.filterMap_append
    have hnone := not_contains_of_value? (h.unfilled key List.mem_cons_self)
    rw [hreturns, List.map_append, List.count_append, h.returned]
    simp only [contains_store, List.map_cons, List.map_nil, List.count_singleton, beq_iff_eq]
    by_cases hother : other = key
    · subst hother
      simp [hnone]
    · simp [hother, Ne.symm hother]

/-- The innermost key is left without a value. -/
theorem breakOff {key : κ} (h : Ledger es (key :: underWay) m) :
    Ledger (es ++ [.broke key]) underWay m where
  nodup := (List.nodup_cons.mp h.nodup).2
  unfilled other hother := h.unfilled other (List.mem_cons_of_mem _ hother)
  computations other := by
    have hbreaks : breaks (es ++ [Event.broke (ν := ν) key]) = breaks es ++ [key] :=
      breaks_append _ _
    have hkey := (List.nodup_cons.mp h.nodup).1
    have hnone := not_contains_of_value? (h.unfilled key List.mem_cons_self)
    rw [h.computations, hbreaks, List.count_append, List.count_singleton, Nat.add_assoc]
    by_cases hother : other = key
    · subst hother
      simp [hkey, hnone]
    · simp [hother, Ne.symm hother]
  returned other := by
    have hreturns : returns (es ++ [Event.broke (ν := ν) key]) = returns es :=
      List.filterMap_append.trans (List.append_nil _)
    rw [hreturns]
    exact h.returned other

/-- A key that is found changes nothing. -/
theorem find (h : Ledger es underWay m) (key : κ) (value : ν) :
    Ledger (es ++ [.found key value]) underWay m := by
  have hbreaks : breaks (es ++ [.found key value]) = breaks es :=
    (breaks_append _ _).trans (List.append_nil _)
  have hreturns : returns (es ++ [.found key value]) = returns es :=
    List.filterMap_append.trans (List.append_nil _)
  exact ⟨h.nodup, h.unfilled, hbreaks ▸ h.computations, hreturns ▸ h.returned⟩

/-- One event more. -/
theorem step {e : Event κ ν} (h : Ledger es underWay m) (hfits : e.Fits m)
    (hshifts : e.Shifts underWay underWay') : Ledger (es ++ [e]) underWay' (e.after m) := by
  cases hshifts with
  | found => exact h.find _ _
  | started hkey => exact h.start hkey hfits
  | returned => exact h.return _
  | broke => exact h.breakOff

/-- All events more. -/
theorem run {log : List (Moment κ ν)} (h : Ledger es underWay m) (hlog : History m log m')
    (hnested : Nested underWay (events log) underWay') :
    Ledger (es ++ events log) underWay' m' := by
  induction hlog generalizing es underWay with
  | nil =>
    cases hnested
    rwa [events, List.map_nil, List.append_nil]
  | cons hfits _ ih =>
    cases hnested with
    | cons hshifts hnested =>
      have hrest := ih (h.step hfits hshifts) hnested
      rwa [List.append_assoc] at hrest

theorem computations_le (h : Ledger es underWay m) (key : κ) :
    m.computations key ≤ (breaks es).count key + 1 := by
  rw [h.computations]
  split <;> omega

end Ledger

/-- With computations that ask for other keys only, at every moment of a program: each computation that
was started broke off, is under way or gave its key the value that it has, so that those of a key are no
more than one beyond those that broke off. Behind the program they are as many as broke off, and one more
if the key has a value, which exactly one computation has given then. -/
theorem computations_of_apart (requests : List (Request κ ν)) (h : ∀ r ∈ requests, r.Apart) :
    (∀ before x after, historyOf {} requests = before ++ x :: after →
      (∃ underWay, Nested [] (events before) underWay ∧ Ledger (events before) underWay x.memory) ∧
      ∀ key, x.memory.computations key ≤ (breaks (events before)).count key + 1) ∧
    ∀ key,
      (serveAll {} requests).2.computations key =
          (breaks (events (historyOf {} requests))).count key +
            (if (serveAll {} requests).2.contains key then 1 else 0) ∧
        ((returns (events (historyOf {} requests))).map Prod.fst).count key =
          if (serveAll {} requests).2.contains key then 1 else 0 := by
  have hnested := nested_historyOf h {}
  have hhistory := history_serveAll {} requests
  refine ⟨fun before x after hsplit => ?_, fun key => ?_⟩
  · rw [hsplit] at hhistory hnested
    rw [events_append] at hnested
    obtain ⟨hbefore, _, _⟩ := hhistory.split
    obtain ⟨underWay, hnestedBefore, _⟩ := hnested.split
    have hledger := Ledger.nil.run hbefore hnestedBefore
    exact ⟨⟨underWay, hnestedBefore, hledger⟩, hledger.computations_le⟩
  · have hledger := Ledger.nil.run hhistory hnested
    have hcomputations := hledger.computations key
    simp only [List.not_mem_nil, false_or] at hcomputations
    exact ⟨hcomputations, hledger.returned key⟩

/-- The first computation of 1 breaks off behind one of 2, and the second one gives a value. -/
theorem computations_of_apart_resumed :
    (∀ r ∈ resumed, r.Apart) ∧
    (∀ before x after, historyOf {} resumed = before ++ x :: after →
      (∃ underWay, Nested [] (events before) underWay ∧ Ledger (events before) underWay x.memory) ∧
      ∀ key, x.memory.computations key ≤ (breaks (events before)).count key + 1) ∧
    (serveAll {} resumed).2.computations 1 = 2 ∧
    (serveAll {} resumed).2.computations 1 =
      (breaks (events (historyOf {} resumed))).count 1 +
        if (serveAll {} resumed).2.contains 1 then 1 else 0 := by
  have hapart : ∀ r ∈ resumed, r.Apart := by
    simp [resumed, Request.Apart, Computation.Avoids]
  obtain ⟨hmoments, hend⟩ := computations_of_apart resumed hapart
  exact ⟨hapart, hmoments, by decide, (hend 1).1⟩

/-- A key whose computation breaks off, and which is asked for again. -/
def retried : List (Request Nat Nat) := [.ask 1 .breakOff, .ask 1 (.give 10), .computations 1]

/-- A key can be computed more than once. -/
theorem recomputes_retried :
    (∀ r ∈ retried, r.Apart) ∧
    (serveAll {} retried).1 = [.answer ⟨none, true⟩, .answer ⟨some 10, true⟩, .number 2] ∧
    ¬ (serveAll {} retried).2.computations 1 ≤ 1 :=
  ⟨by simp [retried, Request.Apart, Computation.Avoids], by decide, by decide⟩

end Memo

end ComputeKernel
