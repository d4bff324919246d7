import ComputeKernel.Proofs.Memory.History

/-!
Requests to a memory, one after the other. Computations may ask for further keys and may break off, and
the requests behind them find what is left. Each answer is what the history so far says: the first value
that a computation of the key gave, the keys with a value, the computations that were started.
-/

namespace ComputeKernel

namespace Memo

variable {κ ν : Type} [DecidableEq κ]

inductive Request (κ ν : Type) where
  | ask (key : κ) (computation : Computation κ ν)
  | contains (key : κ)
  | computations (key : κ)
  | size
  | isEmpty

inductive Reply (ν : Type) where
  | answer (a : Answer ν)
  | truth (b : Bool)
  | number (n : Nat)
  deriving DecidableEq, Repr

def Request.serve (m : Memo κ ν) : Request κ ν → Reply ν × Memo κ ν
  | ask key c => (.answer (m.ask key c.run).1, (m.ask key c.run).2)
  | contains key => (.truth (m.contains key), m)
  | computations key => (.number (m.computations key), m)
  | size => (.number m.size, m)
  | isEmpty => (.truth m.isEmpty, m)

/-- What happens while a request is served. -/
def Request.history (m : Memo κ ν) : Request κ ν → List (Moment κ ν)
  | ask key c => (Computation.ask key c .give).history m
  | _ => []

def serveAll (m : Memo κ ν) : List (Request κ ν) → List (Reply ν) × Memo κ ν
  | [] => ([], m)
  | r :: rs =>
    let (reply, m) := r.serve m
    let (replies, m) := serveAll m rs
    (reply :: replies, m)

def historyOf (m : Memo κ ν) : List (Request κ ν) → List (Moment κ ν)
  | [] => []
  | r :: rs => r.history m ++ historyOf (r.serve m).2 rs

variable {m m' : Memo κ ν} {es : List (Event κ ν)}

/-! ### Runs -/

/-- To ask is to run a computation that asks and gives what it gets. -/
theorem run_ask_give (m : Memo κ ν) (key : κ) (c : Computation κ ν) :
    (Computation.ask key c .give).run m = ((m.ask key c.run).1.value?, (m.ask key c.run).2) := by
  rw [Computation.run]
  rcases m.ask key c.run with ⟨⟨_ | value, ran⟩, m'⟩
  · rfl
  · rfl

theorem Request.history_serve (r : Request κ ν) (m : Memo κ ν) :
    History m (r.history m) (r.serve m).2 := by
  cases r with
  | ask key c =>
    have hrun := (Computation.ask key c .give).history_run m
    rw [run_ask_give] at hrun
    exact hrun
  | _ => exact .nil

theorem history_serveAll (m : Memo κ ν) (rs : List (Request κ ν)) :
    History m (historyOf m rs) (serveAll m rs).2 := by
  induction rs generalizing m with
  | nil => exact .nil
  | cons r rs ih => exact (r.history_serve m).append (ih _)

/-- The reply to a request behind others. -/
theorem getElem?_serveAll (m : Memo κ ν) (before : List (Request κ ν)) (r : Request κ ν)
    (after : List (Request κ ν)) :
    (serveAll m (before ++ r :: after)).1[before.length]? = some (r.serve (serveAll m before).2).1 := by
  induction before generalizing m with
  | nil => rfl
  | cons s before ih => exact ih _

/-! ### Answers -/

/-- Whether a memory that was empty holds what came of events, and nothing else. -/
structure Records (es : List (Event κ ν)) (m : Memo κ ν) : Prop where
  value? : ∀ key, m.value? key = (returns es).lookup key
  contains : ∀ key, m.contains key ↔ key ∈ done es
  computations : ∀ key, m.computations key = (starts es).count key
  size : m.size = (done es).card

theorem After.records (h : After {} es m) : Records es m where
  value? := h.value?
  contains key := by
    rw [h.contains_iff]
    exact or_iff_right Bool.false_ne_true
  computations key := (h.computations key).trans (Nat.zero_add _)
  size := by
    have hnone : (done es).filter (fun key => ¬ ({} : Memo κ ν).contains key) = done es :=
      Finset.filter_true_of_mem fun _ _ => Bool.false_ne_true
    rw [h.size, hnone]
    exact Nat.zero_add _

/-- Whether a key that is asked for is found with the first value that a computation gave before, or a
computation is started and none gave one before. -/
def Event.Follows (es : List (Event κ ν)) : Event κ ν → Prop
  | found key value => (returns es).lookup key = some value
  | started key => key ∉ done es
  | returned .. | broke _ => True

/-- Whether a reply is right after what happened before. -/
def Request.Answered (es : List (Event κ ν)) : Request κ ν → Reply ν → Prop
  | ask key _, .answer a =>
    (∀ value, (returns es).lookup key = some value → a = ⟨some value, false⟩) ∧
      (key ∉ done es → a.ran)
  | contains key, .truth b => b = decide (key ∈ done es)
  | computations key, .number n => n = (starts es).count key
  | size, .number n => n = (done es).card
  | isEmpty, .truth b => b = decide (done es = ∅)
  | _, _ => False

theorem Records.follows (h : Records es m) {e : Event κ ν} (hfits : e.Fits m) : e.Follows es := by
  cases e with
  | found key value => exact (h.value? key).symm.trans hfits
  | started key =>
    intro hdone
    have hcontains := (h.contains key).mpr hdone
    rw [Memo.contains, show m.value? key = none from hfits] at hcontains
    cases hcontains
  | returned key value => trivial
  | broke key => trivial

theorem ask_of_value? {key : κ} {value : ν} (h : m.value? key = some value) (c : Computation κ ν) :
    m.ask key c.run = (⟨some value, false⟩, m) := by
  rw [ask, h]

theorem ask_of_value?_eq_none {key : κ} (h : m.value? key = none) (c : Computation κ ν) :
    m.ask key c.run =
      match c.run (m.start key) with
      | (some value, m') => (⟨some value, true⟩, m'.store key value)
      | (none, m') => (⟨none, true⟩, m') := by
  rcases hrun : c.run (m.start key) with ⟨_ | value, m'⟩
  · simp only [ask, h, hrun]
  · simp only [ask, h, hrun]

theorem Records.answered (h : Records es m) (r : Request κ ν) : r.Answered es (r.serve m).1 := by
  cases r with
  | ask key c =>
    refine ⟨fun value hvalue => ?_, fun hnew => ?_⟩
    · rw [ask_of_value? ((h.value? key).trans hvalue)]
    · have hnone : m.value? key = none := by
        rw [← Option.not_isSome_iff_eq_none]
        exact fun hsome => hnew ((h.contains key).mp hsome)
      rw [ask_of_value?_eq_none hnone]
      rcases c.run (m.start key) with ⟨_ | value, m'⟩
      · rfl
      · rfl
  | contains key => exact Bool.eq_iff_iff.mpr ((h.contains key).trans decide_eq_true_iff.symm)
  | computations key => exact h.computations key
  | size => exact h.size
  | isEmpty =>
    show decide (m.size = 0) = decide (done es = ∅)
    rw [h.size, decide_eq_decide]
    exact Finset.card_eq_zero

/-- A computation that breaks off leaves what was computed inside of it, and its own start. -/
theorem after_ask_of_broke {key : κ} {c : Computation κ ν} (h : (m.ask key c.run).1.value? = none) :
    After m (.started key :: events (c.history (m.start key))) (m.ask key c.run).2 := by
  cases hvalue : m.value? key with
  | some value =>
    rw [ask_of_value? hvalue] at h
    cases h
  | none =>
    have hinner := (c.history_run (m.start key)).after ((After.refl m).start key)
    rw [ask_of_value?_eq_none hvalue] at h ⊢
    generalize c.run (m.start key) = result at hinner h
    obtain ⟨_ | value, m'⟩ := result
    · exact hinner
    · cases h

/-- Whatever is asked for, with computations that ask for further keys and may break off: wherever a key
is asked for, the first value that a computation of it gave is found, if there is one, and nothing is
computed; a memory has a value for the keys of which some computation gave one, which it counts, and the
number of computations that were started. A computation that breaks off leaves what the computations
inside of it gave, and nothing else. -/
theorem single_flight (requests : List (Request κ ν)) :
    (∀ before x after, historyOf {} requests = before ++ x :: after →
      Records (events before) x.memory ∧ x.event.Follows (events before)) ∧
    (∀ before r after, requests = before ++ r :: after →
      ∃ reply, (serveAll {} requests).1[before.length]? = some reply ∧
        r.Answered (events (historyOf {} before)) reply) ∧
    ∀ (m : Memo κ ν) (key : κ) (c : Computation κ ν), (m.ask key c.run).1.value? = none →
      After m (.started key :: events (c.history (m.start key))) (m.ask key c.run).2 ∧
      ∀ other, (m.ask key c.run).2.contains other ↔
        m.contains other ∨ other ∈ done (events (c.history (m.start key))) := by
  refine ⟨fun before x after hsplit => ?_, fun before r after hsplit => ?_, fun m key c hbroke => ?_⟩
  · have hhistory := history_serveAll {} requests
    rw [hsplit] at hhistory
    obtain ⟨hbefore, hfits, _⟩ := hhistory.split
    have hrecords := (hbefore.after (.refl {})).records
    exact ⟨hrecords, hrecords.follows hfits⟩
  · subst hsplit
    have hrecords := ((history_serveAll {} before).after (.refl {})).records
    exact ⟨_, getElem?_serveAll {} before r after, hrecords.answered r⟩
  · have hafter := after_ask_of_broke hbroke
    exact ⟨hafter, hafter.contains_iff⟩

/-- The first computation of 1 breaks off behind one of 2; the second one finds what that gave. -/
def resumed : List (Request Nat Nat) :=
  [.ask 1 (.ask 2 (.give 20) fun _ => .breakOff), .ask 1 (.ask 2 (.give 99) fun v => .give (v + 1)),
    .ask 1 .breakOff, .computations 1, .size]

theorem single_flight_resumed :
    (serveAll {} resumed).1 = [.answer ⟨none, true⟩, .answer ⟨some 21, true⟩, .answer ⟨some 21, false⟩,
      .number 2, .number 2] ∧
    (∃ reply, (serveAll {} resumed).1[2]? = some reply ∧
      Request.Answered [.started 1, .started 2, .returned 2 20, .broke 1, .started 1, .found 2 20,
        .returned 1 21] (.ask 1 .breakOff) reply) ∧
    ∀ other, (({} : Memo Nat Nat).ask 1 (Computation.ask 2 (.give 20) fun _ => .breakOff).run).2.contains
      other ↔ ({} : Memo Nat Nat).contains other ∨ other ∈ done (ν := Nat) [.started 2, .returned 2 20] := by
  obtain ⟨_, hreplies, hbroke⟩ := single_flight resumed
  exact ⟨by decide, hreplies (resumed.take 2) (.ask 1 .breakOff) [.computations 1, .size] rfl,
    (hbroke {} 1 (.ask 2 (.give 20) fun _ => .breakOff) rfl).2⟩

end Memo

end ComputeKernel
