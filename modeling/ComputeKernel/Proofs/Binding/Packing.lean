import ComputeKernel.Proofs.Binding.Layout
import ComputeKernel.Proofs.Quiet

/-!
Packing. A value has each row written where its entry says, and since the rows of a layout lie inside of
the buffer and share no byte, what is written stays: the image holds every value, and zeros between them.
The packing fails at the first entry without a value of its size, and only there.
-/

namespace ComputeKernel.Uniform

variable {start stop : Nat} {c : Capture} {cs : List Capture} {e : Entry} {es : List Entry}
  {buffer image bytes : List UInt8} {values : List (Option (List UInt8))}

/-! ### Slices -/

/-- The bytes of an image from `offset` on. -/
def slice (image : List UInt8) (offset n : Nat) : List UInt8 := (image.drop offset).take n

theorem slice_congr {offset n : Nat}
    (h : ∀ i ∈ Finset.Ico offset (offset + n), image[i]? = buffer[i]?) :
    slice image offset n = slice buffer offset n := by
  refine List.ext_getElem? fun i => ?_
  rw [slice, slice, List.getElem?_take, List.getElem?_take]
  split
  case isTrue hi =>
    rw [List.getElem?_drop, List.getElem?_drop]
    exact h _ (Finset.mem_Ico.mpr ⟨Nat.le_add_right _ _, Nat.add_lt_add_left hi _⟩)
  case isFalse => rfl

/-- A value is its slices of one length, one behind the other. -/
theorem flatMap_slice (bytes : List UInt8) (n rows : Nat) :
    ((List.range rows).flatMap fun r => slice bytes (r * n) n) = bytes.take (rows * n) := by
  induction rows with
  | zero => rw [Nat.zero_mul, List.take_zero, List.range_zero, List.flatMap_nil]
  | succ rows ih =>
    rw [List.range_succ, List.flatMap_append, ih, List.flatMap_singleton, Nat.add_mul, Nat.one_mul,
      List.take_add, slice]

section overwrite

variable {offset : Nat} (h : offset + bytes.length ≤ buffer.length)

include h

theorem length_overwrite : (overwrite buffer offset bytes).length = buffer.length := by
  simp only [overwrite, List.length_append, List.length_take, List.length_drop]
  omega

theorem slice_overwrite : slice (overwrite buffer offset bytes) offset bytes.length = bytes := by
  have htake : (buffer.take offset).length = offset := List.length_take_of_le (by omega)
  rw [slice, overwrite, List.append_assoc, List.drop_left' htake, List.take_left]

theorem getElem?_overwrite {i : Nat} (hi : i ∉ Finset.Ico offset (offset + bytes.length)) :
    (overwrite buffer offset bytes)[i]? = buffer[i]? := by
  have htake : (buffer.take offset).length = offset := List.length_take_of_le (by omega)
  rw [overwrite, List.append_assoc]
  rcases Nat.lt_or_ge i offset with hlt | hge
  · rw [List.getElem?_append_left (by omega), List.getElem?_take_of_lt hlt]
  · have hbehind : offset + bytes.length ≤ i :=
      Nat.not_lt.mp fun hlt => hi (Finset.mem_Ico.mpr ⟨hge, hlt⟩)
    rw [List.getElem?_append_right (by omega), List.getElem?_append_right (by omega),
      List.getElem?_drop]
    congr 1
    omega

end overwrite

/-! ### Rows -/

/-- The bytes that an entry takes its value from. -/
def Entry.read (e : Entry) (image : List UInt8) : List UInt8 :=
  (List.range e.rows).flatMap fun r => slice image (e.offset + r * e.rowStride) e.rowSize

/-- Whether an image has a value of the right size in the places of an entry. -/
structure Entry.Holds (e : Entry) (image bytes : List UInt8) : Prop where
  size : bytes.length = e.hostSize
  rows : ∀ r < e.rows, slice image (e.offset + r * e.rowStride) e.rowSize = row e bytes r

/-- The rows of a value make up the value. -/
theorem Entry.Holds.read_eq (h : e.Holds image bytes) : e.read image = bytes := by
  have hrows : e.read image = (List.range e.rows).flatMap fun r => slice bytes (r * e.rowSize) e.rowSize := by
    rw [read, List.flatMap_def, List.flatMap_def]
    exact congrArg List.flatten (List.map_congr_left fun r hr => h.rows r (List.mem_range.mp hr))
  rw [hrows, flatMap_slice]
  exact List.take_of_length_le h.size.le

/-- A slice outside of which two images agree about the rows is that of both. -/
theorem Entry.Holds.congr (h : e.Holds buffer bytes)
    (hsame : ∀ S ∈ e.rowBytes, ∀ i ∈ S, image[i]? = buffer[i]?) : e.Holds image bytes :=
  ⟨h.size, fun r hr => (slice_congr (hsame _ (List.mem_map.mpr ⟨r, List.mem_range.mpr hr, rfl⟩))).trans
    (h.rows r hr)⟩

theorem length_row (hsize : bytes.length = e.hostSize) {r : Nat} (hr : r < e.rows) :
    (row e bytes r).length = e.rowSize := by
  have hrest : (r + 1) * e.rowSize ≤ e.rows * e.rowSize := Nat.mul_le_mul_right _ hr
  rw [Nat.add_mul, Nat.one_mul, ← Entry.hostSize, ← hsize] at hrest
  rw [row, List.length_take, List.length_drop]
  omega

/-- The buffer after the first `n` rows of a value. -/
def writeFirst (e : Entry) (bytes buffer : List UInt8) (n : Nat) : List UInt8 :=
  (List.range n).foldl
    (fun buffer r => overwrite buffer (e.offset + r * e.rowStride) (row e bytes r)) buffer

theorem writeFirst_succ (e : Entry) (bytes buffer : List UInt8) (n : Nat) :
    writeFirst e bytes buffer (n + 1) =
      overwrite (writeFirst e bytes buffer n) (e.offset + n * e.rowStride) (row e bytes n) := by
  rw [writeFirst, List.range_succ, List.foldl_append]
  rfl

/-- Rows that lie in the buffer one behind the other, and a value for them. -/
structure Entry.Fits (e : Entry) (bytes buffer : List UInt8) : Prop where
  stride : e.rowSize ≤ e.rowStride
  inside : e.stop ≤ buffer.length
  size : bytes.length = e.hostSize

namespace Entry.Fits

variable (h : e.Fits bytes buffer)

include h

theorem row_inside {r : Nat} (hr : r < e.rows) :
    e.offset + r * e.rowStride + (row e bytes r).length ≤ buffer.length := by
  have hlast : r * e.rowStride ≤ (e.rows - 1) * e.rowStride :=
    Nat.mul_le_mul_right _ (Nat.le_sub_one_of_lt hr)
  have hinside := h.inside
  rw [stop] at hinside
  rw [length_row h.size hr]
  omega

/-- Writing rows keeps the length. -/
theorem length_writeFirst {n : Nat} (hn : n ≤ e.rows) :
    (writeFirst e bytes buffer n).length = buffer.length := by
  induction n with
  | zero => rfl
  | succ n ih =>
    have hlength := ih (Nat.le_of_succ_le hn)
    rw [writeFirst_succ, length_overwrite (hlength ▸ h.row_inside hn), hlength]

/-- A byte in none of the rows is not written to. -/
theorem getElem?_writeFirst {n i : Nat} (hn : n ≤ e.rows)
    (hi : ∀ r < n, i ∉ Finset.Ico (e.offset + r * e.rowStride) (e.offset + r * e.rowStride + e.rowSize)) :
    (writeFirst e bytes buffer n)[i]? = buffer[i]? := by
  induction n with
  | zero => rfl
  | succ n ih =>
    have hlength := h.length_writeFirst (Nat.le_of_succ_le hn)
    rw [writeFirst_succ, getElem?_overwrite (hlength ▸ h.row_inside hn)
      (by rw [length_row h.size hn]; exact hi n (Nat.lt_succ_self n))]
    exact ih (Nat.le_of_succ_le hn) fun r hr => hi r (Nat.lt_succ_of_lt hr)

/-- A row that is written stays, as those behind it do not reach back. -/
theorem slice_writeFirst {n r : Nat} (hn : n ≤ e.rows) (hr : r < n) :
    slice (writeFirst e bytes buffer n) (e.offset + r * e.rowStride) e.rowSize = row e bytes r := by
  induction n with
  | zero => cases hr
  | succ n ih =>
    have hlength := h.length_writeFirst (Nat.le_of_succ_le hn)
    have hinside := hlength ▸ h.row_inside hn
    rw [writeFirst_succ]
    rcases Nat.lt_succ_iff_lt_or_eq.mp hr with hlt | rfl
    · refine (slice_congr fun i hi => getElem?_overwrite hinside fun hi' => ?_).trans
        (ih (Nat.le_of_succ_le hn) hlt)
      have hnext : (r + 1) * e.rowStride ≤ n * e.rowStride := Nat.mul_le_mul_right _ hlt
      have hstride := h.stride
      rw [Nat.add_mul, Nat.one_mul] at hnext
      rw [Finset.mem_Ico] at hi hi'
      omega
    · have hrow := slice_overwrite hinside
      rwa [length_row h.size hn] at hrow

theorem length_writeRows : (writeRows e bytes buffer).length = buffer.length :=
  h.length_writeFirst (Nat.le_refl _)

theorem getElem?_writeRows {i : Nat} (hi : ∀ S ∈ e.rowBytes, i ∉ S) :
    (writeRows e bytes buffer)[i]? = buffer[i]? :=
  h.getElem?_writeFirst (Nat.le_refl _) fun r hr =>
    hi _ (List.mem_map.mpr ⟨r, List.mem_range.mpr hr, rfl⟩)

theorem holds_writeRows : e.Holds (writeRows e bytes buffer) bytes :=
  ⟨h.size, fun _ hr => h.slice_writeFirst (Nat.le_refl _) hr⟩

end Entry.Fits

/-! ### Faults -/

/-- What is wrong with a value for an entry. -/
def Entry.fault? (e : Entry) : Option (List UInt8) → Option Error
  | none => some (.notAValue e.name)
  | some bytes =>
    if bytes.length = e.hostSize then none
    else some (.sizeMismatch e.name e.hostSize bytes.length)

theorem Entry.fault?_eq_none {value : Option (List UInt8)} (h : e.fault? value = none) :
    ∃ bytes, value = some bytes ∧ bytes.length = e.hostSize := by
  cases value with
  | none => cases h
  | some bytes =>
    rw [fault?] at h
    split at h
    case isTrue hsize => exact ⟨bytes, rfl, hsize⟩
    case isFalse => cases h

/-- The value that belongs to an entry. -/
def valueAt (values : List (Option (List UInt8))) (i : Nat) : Option (List UInt8) := values[i]?.join

theorem valueAt_tail (values : List (Option (List UInt8))) (i : Nat) :
    valueAt values.tail i = valueAt values (i + 1) := by
  rw [valueAt, valueAt, List.getElem?_tail]

theorem head?_join (values : List (Option (List UInt8))) :
    values.head?.join = valueAt values 0 := by
  rw [valueAt, List.head?_eq_getElem?]

/-- Whether an error is that of the first entry that has something wrong with its value. -/
def FirstFault (es : List Entry) (values : List (Option (List UInt8))) (err : Error) : Prop :=
  ∃ (i : Nat) (e : Entry), es[i]? = some e ∧ e.fault? (valueAt values i) = some err ∧
    ∀ j < i, ∀ e' : Entry, es[j]? = some e' → e'.fault? (valueAt values j) = none

theorem firstFault_cons {err : Error} : FirstFault (e :: es) values err ↔
    e.fault? (valueAt values 0) = some err ∨
      e.fault? (valueAt values 0) = none ∧ FirstFault es values.tail err := by
  constructor
  · rintro ⟨i, e', he', hfault, hbefore⟩
    cases i with
    | zero =>
      obtain rfl : e = e' := Option.some.inj he'
      exact .inl hfault
    | succ i =>
      refine .inr ⟨hbefore 0 (Nat.succ_pos i) e rfl, i, e', he', valueAt_tail values i ▸ hfault,
        fun j hj e'' he'' => ?_⟩
      rw [valueAt_tail]
      exact hbefore (j + 1) (Nat.succ_lt_succ hj) e'' he''
  · rintro (hfault | ⟨hnone, i, e', he', hfault, hbefore⟩)
    · exact ⟨0, e, rfl, hfault, fun j hj => absurd hj (Nat.not_lt_zero j)⟩
    · refine ⟨i + 1, e', he', valueAt_tail values i ▸ hfault, fun j hj e'' he'' => ?_⟩
      cases j with
      | zero =>
        obtain rfl : e = e'' := Option.some.inj he''
        exact hnone
      | succ j =>
        rw [← valueAt_tail]
        exact hbefore j (Nat.lt_of_succ_lt_succ hj) e'' he''

theorem packInto_of_fault {err : Error} (h : e.fault? (valueAt values 0) = some err) :
    packInto buffer (e :: es) values = .error err := by
  rw [packInto, head?_join]
  cases hvalue : valueAt values 0 with
  | none =>
    rw [hvalue] at h
    exact congrArg Except.error (Option.some.inj h)
  | some bytes =>
    rw [hvalue, Entry.fault?] at h
    split at h
    case isTrue => cases h
    case isFalse hsize => exact (if_neg hsize).trans (congrArg Except.error (Option.some.inj h))

theorem packInto_of_value (hvalue : valueAt values 0 = some bytes) (hsize : bytes.length = e.hostSize) :
    packInto buffer (e :: es) values = packInto (writeRows e bytes buffer) es values.tail := by
  rw [packInto, head?_join, hvalue]
  exact if_pos hsize

/-- A packing fails with the error of the first entry that has something wrong with its value. -/
theorem packInto_eq_error_iff {err : Error} :
    packInto buffer es values = .error err ↔ FirstFault es values err := by
  induction es generalizing buffer values with
  | nil => exact ⟨fun h => (nomatch h), fun ⟨_, _, he, _⟩ => (nomatch he)⟩
  | cons e es ih =>
    rw [firstFault_cons]
    cases hfault : e.fault? (valueAt values 0) with
    | some err' => simp [packInto_of_fault hfault]
    | none =>
      obtain ⟨bytes, hvalue, hsize⟩ := Entry.fault?_eq_none hfault
      simp [packInto_of_value hvalue hsize, ih]

/-! ### Images -/

/-- Whether an image has the values of entries in their places and agrees with a buffer elsewhere. -/
structure Packs (es : List Entry) (values : List (Option (List UInt8))) (buffer image : List UInt8) :
    Prop where
  length : image.length = buffer.length
  holds : ∀ (i : Nat) (e : Entry), es[i]? = some e → ∃ bytes, valueAt values i = some bytes ∧ e.Holds image bytes
  rest : ∀ i, (∀ S ∈ es.flatMap Entry.rowBytes, i ∉ S) → image[i]? = buffer[i]?

theorem Entry.Places.fits (h : e.Places start c) (hinside : e.stop ≤ buffer.length)
    (hsize : bytes.length = e.hostSize) : e.Fits bytes buffer :=
  ⟨h.rowStride.1.2, hinside, hsize⟩

theorem FirstFit.packs_of_packInto (h : FirstFit start cs es stop) (hstop : stop ≤ buffer.length)
    (hpack : packInto buffer es values = .ok image) : Packs es values buffer image := by
  induction h generalizing buffer values with
  | nil =>
    obtain rfl : buffer = image := Except.ok.inj hpack
    exact ⟨rfl, fun _ _ he => (nomatch he), fun _ _ => rfl⟩
  | @cons start stop c e cs es hplaces hrest ih =>
    rw [← stop_eq] at hrest
    cases hfault : e.fault? (valueAt values 0) with
    | some err => rw [packInto_of_fault hfault] at hpack; cases hpack
    | none =>
      obtain ⟨bytes, hvalue, hsize⟩ := Entry.fault?_eq_none hfault
      rw [packInto_of_value hvalue hsize] at hpack
      have hfits := hplaces.fits (hrest.le.trans hstop) hsize
      have hpacks := ih (hfits.length_writeRows ▸ hstop) hpack
      refine ⟨hpacks.length.trans hfits.length_writeRows, fun i e' he' => ?_, fun i hi => ?_⟩
      · cases i with
        | zero =>
          obtain rfl : e = e' := Option.some.inj he'
          -- The rows of the entries behind lie behind this one.
          refine ⟨bytes, hvalue, hfits.holds_writeRows.congr fun S hS i hi =>
            hpacks.rest i fun T hT hi' => ?_⟩
          have hhere := (hplaces.mem_rowBytes_bounds hS hi).2
          have hthere := (hrest.mem_rowBytes_bounds hT hi').1
          rw [stop_eq] at hthere
          omega
        | succ i =>
          rw [← valueAt_tail]
          exact hpacks.holds i e' he'
      · rw [List.flatMap_cons] at hi
        rw [hpacks.rest i fun S hS => hi S (List.mem_append_right _ hS)]
        exact hfits.getElem?_writeRows fun S hS => hi S (List.mem_append_left _ hS)

/-! ### Bounds -/

/-- `overwrite`, where the bytes have a place in the buffer. -/
def overwrite? (buffer : List UInt8) (offset : Nat) (bytes : List UInt8) : Option (List UInt8) :=
  if offset + bytes.length ≤ buffer.length then some (overwrite buffer offset bytes) else none

/-- `writeRows`, where all rows have a place in the buffer. -/
def writeRows? (e : Entry) (bytes buffer : List UInt8) : Option (List UInt8) :=
  (List.range e.rows).foldlM
    (fun buffer r => overwrite? buffer (e.offset + r * e.rowStride) (row e bytes r)) buffer

/-- `packInto`, where nothing is written outside of the buffer. -/
def packInto? (buffer : List UInt8) :
    List Entry → List (Option (List UInt8)) → Option (Except Error (List UInt8))
  | [], _ => some (.ok buffer)
  | e :: es, values =>
    match e.fault? (valueAt values 0) with
    | some err => some (.error err)
    | none => do packInto? (← writeRows? e ((valueAt values 0).getD []) buffer) es values.tail

theorem Entry.Fits.writeRows? (h : e.Fits bytes buffer) :
    Uniform.writeRows? e bytes buffer = some (writeRows e bytes buffer) := by
  suffices hfirst : ∀ n ≤ e.rows, (List.range n).foldlM (fun buffer r =>
      overwrite? buffer (e.offset + r * e.rowStride) (row e bytes r)) buffer =
        some (writeFirst e bytes buffer n) from hfirst e.rows (Nat.le_refl _)
  intro n hn
  induction n with
  | zero => rfl
  | succ n ih =>
    have hlength := h.length_writeFirst (Nat.le_of_succ_le hn)
    have hwrite : overwrite? (writeFirst e bytes buffer n) (e.offset + n * e.rowStride) (row e bytes n) =
        some (writeFirst e bytes buffer (n + 1)) := by
      rw [writeFirst_succ]
      exact if_pos (hlength ▸ h.row_inside hn)
    rw [List.range_succ, List.foldlM_append, ih (Nat.le_of_succ_le hn)]
    simpa using hwrite

theorem FirstFit.packInto?_eq (h : FirstFit start cs es stop) (hstop : stop ≤ buffer.length) :
    packInto? buffer es values = some (packInto buffer es values) := by
  induction h generalizing buffer values with
  | nil => rfl
  | @cons start stop c e cs es hplaces hrest ih =>
    rw [← stop_eq] at hrest
    cases hfault : e.fault? (valueAt values 0) with
    | some err => rw [packInto_of_fault hfault, packInto?, hfault]
    | none =>
      obtain ⟨bytes, hvalue, hsize⟩ := Entry.fault?_eq_none hfault
      have hfits := hplaces.fits (hrest.le.trans hstop) hsize
      rw [packInto_of_value hvalue hsize, packInto?, hfault, hvalue]
      simp only [Option.getD_some, hfits.writeRows?, Option.bind_eq_bind, Option.bind_some]
      exact ih (hfits.length_writeRows ▸ hstop)

/-! ### Layouts -/

/-- A packing writes nothing outside of the buffer. It fails with the error of the first entry whose value
is missing or has the wrong size. Else the image has the size of the layout, the rows of each value in
their places, from which the value can be read back, and zeros elsewhere. -/
theorem pack_layout (cs : List Capture) (values : List (Option (List UInt8))) :
    packInto? (List.replicate (layout cs).size 0) (layout cs).entries values =
      some ((layout cs).pack values) ∧
    (∀ err, (layout cs).pack values = .error err ↔ FirstFault (layout cs).entries values err) ∧
    ∀ image, (layout cs).pack values = .ok image →
      image.length = (layout cs).size ∧
      (∀ (i : Nat) (e : Entry), (layout cs).entries[i]? = some e →
        ∃ bytes, valueAt values i = some bytes ∧ e.Holds image bytes ∧ e.read image = bytes) ∧
      ∀ i < image.length, (∀ S ∈ (layout cs).entries.flatMap Entry.rowBytes, i ∉ S) →
        image[i]? = some 0 := by
  have hstop : extent (entries 0 cs) ≤ (List.replicate (layout cs).size (0 : UInt8)).length := by
    rw [List.length_replicate]
    exact le_roundUp _ (by decide)
  have hfit := firstFit_entries cs 0
  refine ⟨hfit.packInto?_eq hstop, fun err => packInto_eq_error_iff, fun image hpack => ?_⟩
  have hpacks := hfit.packs_of_packInto hstop hpack
  have hlength : image.length = (layout cs).size := hpacks.length.trans List.length_replicate
  refine ⟨hlength, fun i e he => ?_, fun i hi hrest => ?_⟩
  · obtain ⟨bytes, hvalue, hholds⟩ := hpacks.holds i e he
    exact ⟨bytes, hvalue, hholds, hholds.read_eq⟩
  · rw [hpacks.rest i hrest, List.getElem?_replicate, if_pos (hlength ▸ hi)]

/-- Values of the right sizes, without a zero. -/
def filled : List (Option (List UInt8)) :=
  (layout mixed).entries.map fun e => some ((List.range e.hostSize).map fun i => UInt8.ofNat (i + 1))

/-- What lies between the first scalar and the matrix behind it stays zero, the matrix can be read back,
and of two values that are wrong the first is reported. -/
theorem pack_layout_mixed :
    (∃ image, (layout mixed).pack filled = .ok image ∧ image.length = 192 ∧ image[12]? = some 0 ∧
      ∃ e bytes, (layout mixed).entries[1]? = some e ∧ valueAt filled 1 = some bytes ∧
        e.read image = bytes) ∧
    (layout mixed).pack ((filled.set 3 none).set 5 (some [1])) = .error (.notAValue "step") := by
  have hrun : ((layout mixed).pack filled).isOk = true := by decide +kernel
  obtain ⟨image, himage⟩ := exists_of_isOk hrun
  obtain ⟨_, _, hpacked⟩ := pack_layout mixed filled
  obtain ⟨hlength, hvalues, hrest⟩ := hpacked image himage
  have hsize : (layout mixed).size = 192 := by decide +kernel
  rw [hsize] at hlength
  obtain ⟨bytes, hvalue, _, hread⟩ := hvalues 1 _ rfl
  refine ⟨⟨image, himage, hlength, hrest 12 (by omega) (by decide +kernel), _, bytes, rfl, hvalue,
    hread⟩, ?_⟩
  exact ((pack_layout mixed _).2.1 _).mpr ⟨3, _, rfl, by decide +kernel, by decide +kernel⟩

end ComputeKernel.Uniform
