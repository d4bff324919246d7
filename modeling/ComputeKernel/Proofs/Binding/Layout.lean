import Mathlib.Order.Bounds.Basic
import Mathlib.Order.Interval.Finset.Nat
import ComputeKernel.Binding.Uniform
import ComputeKernel.Proofs.Typing.Shape

/-!
The layout of the uniform buffer. Each value lies at the first place behind the one in front of it at
which a value of its shape may lie, so the layout of the first captures does not depend on those behind
them, no two rows share a byte, and the buffer holds all of them.
-/

namespace ComputeKernel.Uniform

/-! ### Rounding -/

theorem roundUp_dvd (n unit : Nat) : unit ∣ roundUp n unit := Nat.dvd_mul_left _ _

theorem le_roundUp (n : Nat) {unit : Nat} (h : 0 < unit) : n ≤ roundUp n unit := by
  have hdivides := Nat.div_add_mod (n + (unit - 1)) unit
  have hrest := Nat.mod_lt (n + (unit - 1)) h
  rw [roundUp, Nat.mul_comm]
  omega

theorem roundUp_le {n k unit : Nat} (h : 0 < unit) (hk : unit ∣ k) (hn : n ≤ k) :
    roundUp n unit ≤ k := by
  obtain ⟨j, rfl⟩ := hk
  have hquotient : (n + (unit - 1)) / unit < j + 1 := by
    rw [Nat.div_lt_iff_lt_mul h, Nat.add_mul, Nat.mul_comm j]
    omega
  rw [roundUp, Nat.mul_comm]
  exact Nat.mul_le_mul_left unit (Nat.lt_succ_iff.mp hquotient)

theorem isLeast_roundUp (n : Nat) {unit : Nat} (h : 0 < unit) :
    IsLeast {k | unit ∣ k ∧ n ≤ k} (roundUp n unit) :=
  ⟨⟨roundUp_dvd n unit, le_roundUp n h⟩, fun _ ⟨hk, hn⟩ => roundUp_le h hk hn⟩

/-! ### Shapes -/

/-- Whether a shape has rows, and components that divide a register. -/
structure Shape.Regular (s : Shape) : Prop where
  rows : 0 < s.rows
  rowSize : 0 < s.rowSize
  component : 0 < s.component
  dvd_register : s.component ∣ register

theorem size_pos (k : ScalarKind) : 0 < k.size := by cases k <;> decide

theorem size_dvd_register (k : ScalarKind) : k.size ∣ register := by cases k <;> decide

theorem regular_word : Shape.Regular ⟨1, 4, 4, false⟩ :=
  ⟨by decide, by decide, by decide, by decide⟩

/-- Every host type has such a shape. -/
theorem regular_shape (host : HostType) : (shape (Ty.ofHost? host)).Regular := by
  cases htype : Ty.ofHost? host with
  | none => exact regular_word
  | some t =>
    have hshaped := Ty.shaped_of_ofHost? htype
    cases t with
    | value v =>
      cases v with
      | scalar k => exact ⟨Nat.one_pos, size_pos k, size_pos k, size_dvd_register k⟩
      | vector k n =>
        have hn : 0 < n := Nat.lt_of_lt_of_le Nat.two_pos hshaped.1
        exact ⟨Nat.one_pos, Nat.mul_pos hn (size_pos k), size_pos k, size_dvd_register k⟩
      | matrix k r c =>
        obtain ⟨hr, _, hc, _⟩ := hshaped
        exact ⟨hr, Nat.mul_pos hc (size_pos k), size_pos k, size_dvd_register k⟩
    | _ => exact regular_word

theorem four_dvd_size (k : ScalarKind) : 4 ∣ k.size := by cases k <;> decide

/-- Components are whole words. -/
theorem four_dvd_component (host : HostType) : 4 ∣ (shape (Ty.ofHost? host)).component := by
  cases Ty.ofHost? host with
  | none => exact Nat.dvd_refl 4
  | some t =>
    cases t with
    | value v => cases v <;> exact four_dvd_size _
    | _ => exact Nat.dvd_refl 4

/-- Whether a register begins inside of `n` bytes at `offset`. -/
def Crosses (offset n : Nat) : Prop :=
  ∃ k, offset < k * register ∧ k * register < offset + n

theorem crosses_iff {offset n : Nat} : Crosses offset n ↔ register < offset % register + n := by
  unfold Crosses register
  constructor
  · rintro ⟨k, hlo, hhi⟩
    omega
  · intro h
    exact ⟨offset / 16 + 1, by omega, by omega⟩

/-- Whether a value of a shape may lie at an offset. A value that fits into a register lies in one, and
a longer one begins a register, as a matrix does. -/
structure Shape.Admits (s : Shape) (offset : Nat) : Prop where
  aligned : s.component ∣ offset
  uncrossed : s.rowSize ≤ register → ¬ Crosses offset s.rowSize
  begins : s.isMatrix ∨ register < s.rowSize → register ∣ offset

/-- A value is placed at the first offset that its shape admits. -/
theorem isLeast_place {s : Shape} (hs : s.Regular) (offset : Nat) :
    IsLeast {o | offset ≤ o ∧ s.Admits o} (place offset s) := by
  have haligned := isLeast_roundUp offset hs.component
  set aligned := roundUp offset s.component
  have hregister := isLeast_roundUp aligned (show 0 < register by decide)
  by_cases hmoves : s.isMatrix ∨ register < aligned % register + s.rowSize
  · have hplace : place offset s = roundUp aligned register := if_pos (by simpa using hmoves)
    rw [hplace]
    refine ⟨⟨haligned.1.2.trans hregister.1.2, hs.dvd_register.trans hregister.1.1, fun hsize => ?_,
      fun _ => hregister.1.1⟩, fun o ⟨hle, ho⟩ => ?_⟩
    · rw [crosses_iff, Nat.mod_eq_zero_of_dvd hregister.1.1]
      omega
    · have hfrom : aligned ≤ o := haligned.2 ⟨ho.aligned, hle⟩
      by_cases hbegins : s.isMatrix ∨ register < s.rowSize
      · exact hregister.2 ⟨ho.begins hbegins, hfrom⟩
      · -- A value that crosses at `aligned` crosses at each later offset in the same register.
        have hsize : s.rowSize ≤ register := Nat.not_lt.mp fun h => hbegins (.inr h)
        have hcrosses := hmoves.resolve_left fun h => hbegins (.inl h)
        have huncrossed := ho.uncrossed hsize
        rw [crosses_iff] at huncrossed
        unfold roundUp register at *
        omega
  · have hplace : place offset s = aligned := if_neg (by simpa using hmoves)
    obtain ⟨hmatrix, hwithin⟩ := not_or.mp hmoves
    rw [hplace]
    refine ⟨⟨haligned.1.2, haligned.1.1, fun _ => by rwa [crosses_iff], fun hbegins => ?_⟩,
      fun o ⟨hle, ho⟩ => haligned.2 ⟨ho.aligned, hle⟩⟩
    have hlong := hbegins.resolve_left hmatrix
    omega

/-! ### Entries -/

/-- Whether an entry is that of a capture, at the first place from `start` on that the shape of the
capture admits. -/
structure Entry.Places (e : Entry) (start : Nat) (c : Capture) : Prop where
  name : e.name = c.shaderName
  rows : e.rows = (shape (Ty.ofHost? c.hostType)).rows
  rowSize : e.rowSize = (shape (Ty.ofHost? c.hostType)).rowSize
  rowStride : IsLeast {n | register ∣ n ∧ e.rowSize ≤ n} e.rowStride
  offset : IsLeast {o | start ≤ o ∧ (shape (Ty.ofHost? c.hostType)).Admits o} e.offset

/-- Entries of captures one behind the other, between the offset where the first may begin and the end
of the last. -/
inductive FirstFit : Nat → List Capture → List Entry → Nat → Prop where
  | nil {start} : FirstFit start [] [] start
  | cons {start stop c e cs es} : e.Places start c →
      FirstFit (e.offset + (e.rows - 1) * e.rowStride + e.rowSize) cs es stop →
      FirstFit start (c :: cs) (e :: es) stop

variable {start stop : Nat} {c : Capture} {cs : List Capture} {e : Entry} {es : List Entry}

theorem stop_eq (e : Entry) : e.stop = e.offset + (e.rows - 1) * e.rowStride + e.rowSize :=
  (Nat.add_assoc _ _ _).symm

theorem places_entry (start : Nat) (c : Capture) : (entry start c).Places start c :=
  ⟨rfl, rfl, rfl, isLeast_roundUp _ (by decide), isLeast_place (regular_shape c.hostType) start⟩

theorem firstFit_entries (cs : List Capture) (start : Nat) :
    FirstFit start cs (entries start cs) ((((entries start cs).getLast?).map Entry.stop).getD start) := by
  induction cs generalizing start with
  | nil => exact .nil
  | cons c cs ih =>
    have hrest := ih (entry start c).stop
    rw [entries, List.getLast?_cons, Option.map_some, Option.getD_some]
    refine .cons (places_entry start c) ?_
    rw [← stop_eq]
    cases hlast : (entries (entry start c).stop cs).getLast? with
    | none => rwa [hlast] at hrest
    | some e => rwa [hlast] at hrest

/-- The entries of the first captures do not depend on the captures behind them. -/
theorem entries_take (cs : List Capture) (start n : Nat) :
    entries start (cs.take n) = (entries start cs).take n := by
  induction cs generalizing start n with
  | nil => rw [List.take_nil]; exact List.take_nil.symm
  | cons c cs ih =>
    cases n with
    | zero => rfl
    | succ n => exact congrArg (entry start c :: ·) (ih _ n)

/-! ### Rows -/

/-- The bytes of each row. -/
def Entry.rowBytes (e : Entry) : List (Finset Nat) :=
  (List.range e.rows).map fun r =>
    Finset.Ico (e.offset + r * e.rowStride) (e.offset + r * e.rowStride + e.rowSize)

/-- Whether bytes come before others. -/
def Before (S T : Finset Nat) : Prop := ∀ i ∈ S, ∀ j ∈ T, i < j

theorem Before.disjoint {S T : Finset Nat} (h : Before S T) : Disjoint S T :=
  Finset.disjoint_left.mpr fun i hi hi' => Nat.lt_irrefl i (h i hi i hi')

namespace Entry.Places

/-- Every value begins at a word. -/
theorem four_dvd_offset (h : e.Places start c) : 4 ∣ e.offset :=
  (four_dvd_component c.hostType).trans h.offset.1.2.aligned

/-- The rows of a value lie one behind the other. -/
theorem pairwise_rowBytes (h : e.Places start c) : e.rowBytes.Pairwise Before := by
  refine List.pairwise_map.mpr (List.pairwise_lt_range.imp fun {r r'} hlt i hi j hj => ?_)
  have hstride : e.rowSize ≤ e.rowStride := h.rowStride.1.2
  have hnext : (r + 1) * e.rowStride ≤ r' * e.rowStride := Nat.mul_le_mul_right _ hlt
  rw [Nat.add_mul, Nat.one_mul] at hnext
  rw [Finset.mem_Ico] at hi hj
  omega

/-- The last row ends where the entry does. -/
theorem mem_rowBytes_bounds (h : e.Places start c) {S : Finset Nat} (hS : S ∈ e.rowBytes) {i : Nat}
    (hi : i ∈ S) : start ≤ i ∧ i < e.offset + (e.rows - 1) * e.rowStride + e.rowSize := by
  obtain ⟨r, hr, rfl⟩ := List.mem_map.mp hS
  have hlast : r * e.rowStride ≤ (e.rows - 1) * e.rowStride :=
    Nat.mul_le_mul_right _ (Nat.le_sub_one_of_lt (List.mem_range.mp hr))
  have hstart : start ≤ e.offset := h.offset.1.1
  rw [Finset.mem_Ico] at hi
  omega

end Entry.Places

namespace FirstFit

theorem length_eq (h : FirstFit start cs es stop) : es.length = cs.length := by
  induction h with
  | nil => rfl
  | cons _ _ ih => rw [List.length_cons, List.length_cons, ih]

/-- Each capture has its entry. -/
theorem exists_places (h : FirstFit start cs es stop) {i : Nat} (hc : cs[i]? = some c) :
    ∃ e from_, es[i]? = some e ∧ e.Places from_ c := by
  induction h generalizing i with
  | nil => cases hc
  | cons hplaces _ ih =>
    cases i with
    | zero =>
      cases hc
      exact ⟨_, _, rfl, hplaces⟩
    | succ i => exact ih hc

theorem le (h : FirstFit start cs es stop) : start ≤ stop := by
  induction h with
  | nil => exact Nat.le_refl _
  | cons hplaces _ ih =>
    have hstart := hplaces.offset.1.1
    omega

theorem mem_rowBytes_bounds (h : FirstFit start cs es stop) {S : Finset Nat}
    (hS : S ∈ es.flatMap Entry.rowBytes) {i : Nat} (hi : i ∈ S) : start ≤ i ∧ i < stop := by
  induction h with
  | nil => cases hS
  | cons hplaces hrest ih =>
    have hstart := hplaces.offset.1.1
    have hstop := hrest.le
    rcases List.mem_append.mp (List.flatMap_cons ▸ hS) with hS | hS
    · have hbounds := hplaces.mem_rowBytes_bounds hS hi
      omega
    · have hbounds := ih hS
      omega

/-- All rows lie one behind the other. -/
theorem pairwise_rowBytes (h : FirstFit start cs es stop) :
    (es.flatMap Entry.rowBytes).Pairwise Before := by
  induction h with
  | nil => exact .nil
  | cons hplaces hrest ih =>
    rw [List.flatMap_cons, List.pairwise_append]
    refine ⟨hplaces.pairwise_rowBytes, ih, fun S hS T hT i hi j hj => ?_⟩
    exact (hplaces.mem_rowBytes_bounds hS hi).2.trans_le (hrest.mem_rowBytes_bounds hT hj).1

end FirstFit

/-! ### Layouts -/

/-- A layout is first fit: each value lies at the first place that its shape admits behind the end of
the one in front of it, and the size is the first whole number of registers behind the last end. So the
rows share no byte and lie inside the buffer, and the first captures are laid out as they are alone. -/
theorem layout_firstFit (cs : List Capture) :
    (∃ stop, FirstFit 0 cs (layout cs).entries stop ∧
      IsLeast {n | register ∣ n ∧ stop ≤ n} (layout cs).size) ∧
    ((layout cs).entries.flatMap Entry.rowBytes).Pairwise Disjoint ∧
    (∀ S ∈ (layout cs).entries.flatMap Entry.rowBytes, S ⊆ Finset.range (layout cs).size) ∧
    ∀ n, (layout (cs.take n)).entries = (layout cs).entries.take n := by
  have hfit := firstFit_entries cs 0
  have hsize := isLeast_roundUp (extent (entries 0 cs)) (show 0 < register by decide)
  refine ⟨⟨_, hfit, hsize⟩, hfit.pairwise_rowBytes.imp Before.disjoint, fun S hS i hi => ?_,
    entries_take cs 0⟩
  exact Finset.mem_range.mpr ((hfit.mem_rowBytes_bounds hS hi).2.trans_le hsize.1.2)

/-- Scalars, vectors and matrices of which each but the first begins in what another one leaves of a
register, or moves to the next. -/
def mixed : List Capture :=
  [("gain", "f32"), ("basis", "Float3x3"), ("bias", "f32"), ("step", "f64"), ("frame", "Double3x3"),
    ("origin", "Float2"), ("normal", "Float3")].map fun (name, type) =>
      { name, shaderName := name, hostType := .named type, shaderType := type,
        category := .scalarOrVector, slot := none, source := .field 0 }

theorem layout_firstFit_mixed :
    (layout mixed).entries.map (·.offset) = [0, 16, 60, 64, 80, 168, 176] ∧
    (layout mixed).size = 192 ∧
    ((layout mixed).entries.flatMap Entry.rowBytes).Pairwise Disjoint ∧
    Finset.Ico 144 168 ⊆ Finset.range (layout mixed).size ∧
    (layout (mixed.take 5)).entries = (layout mixed).entries.take 5 := by
  obtain ⟨_, hdisjoint, hinside, hprefix⟩ := layout_firstFit mixed
  exact ⟨by decide +kernel, by decide +kernel, hdisjoint,
    hinside (Finset.Ico 144 168) (by decide +kernel), hprefix 5⟩

end ComputeKernel.Uniform
