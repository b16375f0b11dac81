import PagedDb.Heap.HeapPage

/-!
# The bytes of a heap page

A page is stored as its bitmap, padded so that the tuple slots end where the
page ends. Encoding and decoding walk over the same layout.
-/

namespace PagedDb

open Memory Layout

namespace HeapPage

theorem layout (pageSize : ℕ) (td : TupleDesc) :
    td.getSize * getNumTuples pageSize td ≤ pageSize ∧
      getNumTuples pageSize td ≤ 8 * getHeaderSize pageSize td := by
  have hdiv : getNumTuples pageSize td * (td.getSize * 8 + 1) ≤ pageSize * 8 :=
    Nat.div_mul_le_self _ _
  have hexpand : getNumTuples pageSize td * (td.getSize * 8 + 1) =
      8 * (td.getSize * getNumTuples pageSize td) + getNumTuples pageSize td := by ring
  unfold getHeaderSize
  omega

/-- The `HeapPage` constructor. -/
def ofData (pageSize : ℕ) (td : TupleDesc) (id : HeapPageId) (data stack : Buffer) : HeapPage :=
  .ofBytes id td (read data 0 (getHeaderSize pageSize td)) (getNumTuples pageSize td)
    (by simpa using (layout pageSize td).2) data (getHeaderSize pageSize td) stack

/-- One iteration of `getPageData`'s loop. -/
def writeSlot (p : HeapPage) (c : Cursor) (i : ℕ) : Cursor :=
  if p.isSlotUsed i then writeFields c ((p.tuples.getD i .empty).fields.take p.td.numFields)
  else (write c.1 c.2 (List.replicate p.td.getSize 0), c.2 + p.td.getSize)

/-- `getPageData`; `fresh` is what the memory behind the new buffer held. -/
def getPageData (p : HeapPage) (pageSize : ℕ) (fresh : Buffer) : Buffer :=
  let headerSize := pageSize - p.td.getSize * p.numSlots
  let data := write (zeroed pageSize fresh) 0 (p.header.take headerSize)
  (walk p.writeSlot p.numSlots (data, headerSize)).1

/-- The page has the shape a page of this size and schema has. -/
structure Fits (p : HeapPage) (pageSize : ℕ) : Prop where
  slots : p.numSlots = getNumTuples pageSize p.td
  header : p.header.length = getHeaderSize pageSize p.td

/-- The page has the slots and the header that the constructor computes in `int` and `size_t`. -/
structure Allocated (p : HeapPage) (pageSize : ℕ) : Prop where
  slots : (p.numSlots : Int) = getNumTuplesInt pageSize p.td
  header : (p.header.length : Int) = getHeaderSizeInt pageSize p.td

def RoundTrips (p : HeapPage) : Prop := ∀ i row, p.row? i = some row → ∀ f ∈ row, f.RoundTrips

variable {p : HeapPage} {pageSize i : ℕ} {fresh data stack : Buffer}

theorem ofData_fits (pageSize : ℕ) (td : TupleDesc) (id : HeapPageId) (data stack : Buffer) :
    (ofData pageSize td id data stack).Fits pageSize := ⟨rfl, by simp [ofData, TuplePage.ofBytes]⟩

/-- Below `2 ^ 28` bytes the constructor computes the sizes that the formulas give. -/
theorem allocated_iff (hsize : pageSize < 2 ^ 28) (hslot : 0 < getNumTuples pageSize p.td) :
    p.Allocated pageSize ↔ p.Fits pageSize := by
  obtain ⟨hnum, hheader⟩ := sizes_int hsize hslot
  constructor
  · rintro ⟨hslots, hbytes⟩
    rw [hnum] at hslots
    rw [hheader] at hbytes
    exact ⟨by exact_mod_cast hslots, by exact_mod_cast hbytes⟩
  · rintro ⟨hslots, hbytes⟩
    exact ⟨by rw [hnum, hslots], by rw [hheader, hbytes]⟩

theorem Fits.put (h : p.Fits pageSize) (t : Tuple) (htd : t.td = p.td) :
    Fits (p.put i t htd) pageSize := ⟨h.slots, by simpa using h.header⟩

theorem writeSlot_used (hi : i < p.numSlots) (hu : p.isSlotUsed i = true) {row : Row}
    (hrow : p.row? i = some row) (c : Cursor) : p.writeSlot c i = writeFields c row := by
  obtain ⟨t, ht, htd, -, hrow'⟩ := p.tuple_of_used hi hu
  obtain rfl : row = t.fields := Option.some.inj (hrow.symm.trans hrow')
  have hlen : t.fields.length ≤ p.td.numFields := by rw [t.fields_length, htd]
  rw [writeSlot, if_pos hu, List.getD_eq_getElem?_getD, ht, Option.getD_some,
    List.take_of_length_le hlen]

theorem writeSlot_fills (hi : i < p.numSlots) :
    Fills p.writeSlot p.td.getSize i := by
  cases hrow : p.row? i with
  | none =>
    have hu : p.isSlotUsed i = false := by rw [← p.row?_isSome hi, hrow]; rfl
    constructor
    · intro c
      simp [writeSlot, hu]
    · intro c j hj
      simp only [writeSlot, hu, Bool.false_eq_true, if_false]
      exact write_outside (by simpa using hj)
  | some row =>
    have hu : p.isSlotUsed i = true := by rw [← p.row?_isSome hi, hrow]; rfl
    have hsize := (p.row_types hrow).2
    constructor
    · intro c
      rw [writeSlot_used hi hu hrow, writeFields_offset, hsize]
    · intro c j hj
      rw [writeSlot_used hi hu hrow]
      exact writeFields_outside (by rwa [hsize])

theorem getPageData_eq (hfit : p.Fits pageSize) (fresh : Buffer) :
    p.getPageData pageSize fresh = (walk p.writeSlot p.numSlots
      (write (zeroed pageSize fresh) 0 p.header, getHeaderSize pageSize p.td)).1 := by
  have hhs : pageSize - p.td.getSize * p.numSlots = getHeaderSize pageSize p.td := by
    rw [hfit.slots, getHeaderSize]
  rw [getPageData, hhs, List.take_of_length_le hfit.header.le]

/-- Decoding what a page encodes to gives its bitmap back, whatever the fields are. Only the
page's own bytes matter, so this also holds of a copy that was stored and read. -/
theorem ofData_getPageData_header (hfit : p.Fits pageSize)
    (hdata : ∀ j < pageSize, data j = p.getPageData pageSize fresh j) :
    (ofData pageSize p.td p.pid data stack).header = p.header := by
  refine Eq.trans ?_ (read_write_self (zeroed pageSize fresh) 0 p.header)
  rw [hfit.header]
  apply read_congr
  intro j _ hj
  rw [Nat.zero_add] at hj
  rw [hdata j (by unfold getHeaderSize at hj; omega), getPageData_eq hfit,
    walk_outside (fun _ => writeSlot_fills) (.inl hj)]

/-- If the fields round-trip, so do the rows. -/
theorem ofData_getPageData (hfit : p.Fits pageSize) (hrt : p.RoundTrips)
    (hdata : ∀ j < pageSize, data j = p.getPageData pageSize fresh j) :
    (ofData pageSize p.td p.pid data stack).row? = p.row? := by
  obtain ⟨hle, -⟩ := layout pageSize p.td
  have hheader : (ofData pageSize p.td p.pid data stack).header = p.header :=
    ofData_getPageData_header hfit hdata
  have hend : getHeaderSize pageSize p.td + p.numSlots * p.td.getSize = pageSize := by
    rw [hfit.slots, getHeaderSize, Nat.mul_comm (getNumTuples _ _)]
    omega
  have hfill : ∀ k < p.numSlots, Fills p.writeSlot p.td.getSize k := fun _ => writeSlot_fills
  funext k
  rcases Nat.lt_or_ge k p.numSlots with hk | hk
  · have hk' : k < getNumTuples pageSize p.td := by rwa [← hfit.slots]
    have hbit : Bitmap.get (read data 0 (getHeaderSize pageSize p.td)) k = p.isSlotUsed k := by
      rw [TuplePage.isSlotUsed, ← hheader]
      rfl
    rw [ofData, TuplePage.ofBytes_row? hk', hbit]
    cases hrow : p.row? k with
    | none =>
      have hu : p.isSlotUsed k = false := by rw [← p.row?_isSome hk, hrow]; rfl
      rw [hu]
      rfl
    | some row =>
      have hu : p.isSlotUsed k = true := by rw [← p.row?_isSome hk, hrow]; rfl
      obtain ⟨htypes, hsize⟩ := p.row_types hrow
      have hlast : k * p.td.getSize + p.td.getSize ≤ p.numSlots * p.td.getSize := by
        have := Nat.mul_le_mul_right p.td.getSize hk
        rwa [Nat.succ_mul] at this
      rw [hu, if_pos rfl]
      congr 1
      have hoff := walk_offset (fun j hj => hfill j (by omega : j < p.numSlots))
        (n := k) (write (zeroed pageSize fresh) 0 p.header, getHeaderSize pageSize p.td)
      rw [← htypes, ← hoff]
      apply parseFields_writeFields (hrt k row hrow)
      intro j h₁ h₂
      rw [hoff, hsize] at h₂
      rw [hdata j (by omega), getPageData_eq hfit, walk_inside hfill hk h₂,
        writeSlot_used hk hu hrow]
  · rw [TuplePage.row?_of_le _ (by simpa [ofData, TuplePage.ofBytes, ← hfit.slots] using hk),
      p.row?_of_le hk]

theorem getPageData_outside (hfit : p.Fits pageSize) (fresh : Buffer) {j : ℕ} (hj : pageSize ≤ j) :
    p.getPageData pageSize fresh j = fresh j := by
  obtain ⟨hle, -⟩ := layout pageSize p.td
  have hend : getHeaderSize pageSize p.td + p.numSlots * p.td.getSize = pageSize := by
    rw [hfit.slots, getHeaderSize, Nat.mul_comm (getNumTuples _ _)]
    omega
  rw [getPageData_eq hfit, walk_outside (fun _ => writeSlot_fills) (.inr (by simp only; omega))]
  have hheader : p.header.length ≤ pageSize := by
    rw [hfit.header]
    exact Nat.sub_le _ _
  have hzero : zeroed pageSize fresh j = fresh j := by simp [zeroed, Nat.not_lt.mpr hj]
  exact (write_outside (.inr (by omega))).trans hzero

/-- Pages that show the same bitmap and the same rows have the same bytes. -/
theorem getPageData_congr {q : HeapPage} (hfit : p.Fits pageSize) (hq : q.Fits pageSize)
    (htd : q.td = p.td) (hheader : q.header = p.header) (hrow : q.row? = p.row?)
    (fresh : Buffer) : q.getPageData pageSize fresh = p.getPageData pageSize fresh := by
  have hslots : q.numSlots = p.numSlots := by rw [hq.slots, hfit.slots, htd]
  have hstep : ∀ i < p.numSlots, ∀ c, q.writeSlot c i = p.writeSlot c i := by
    intro i hi c
    have hused : q.isSlotUsed i = p.isSlotUsed i := by
      rw [TuplePage.isSlotUsed, TuplePage.isSlotUsed, hheader]
    cases hu : p.isSlotUsed i with
    | false => simp [writeSlot, hused, hu, htd]
    | true =>
      obtain ⟨row, hp⟩ := Option.isSome_iff_exists.mp ((p.row?_isSome hi).trans hu)
      have hqrow : q.row? i = some row := by rw [hrow, hp]
      rw [writeSlot_used hi hu hp, writeSlot_used (hslots ▸ hi) (hused.trans hu) hqrow]
  have hwalk : ∀ n ≤ p.numSlots, ∀ c, walk q.writeSlot n c = walk p.writeSlot n c := by
    intro n hn c
    induction n with
    | zero => rfl
    | succ n ih =>
      rw [walk_succ, walk_succ, ih (by omega)]
      exact hstep n hn _
  rw [getPageData_eq hq, getPageData_eq hfit, hslots, hwalk _ (Nat.le_refl _), hheader, htd]

theorem read_header_congr {td : TupleDesc} {data' : Buffer} (h : ∀ j < pageSize, data j = data' j) :
    read data 0 (getHeaderSize pageSize td) = read data' 0 (getHeaderSize pageSize td) := by
  apply read_congr
  intro j _ hj
  exact h j (by unfold getHeaderSize at hj; omega)

/-- A page of integer fields is decoded from its own bytes only. -/
theorem ofData_congr {td : TupleDesc} {id : HeapPageId} {data' stack' : Buffer} (hint : td.IntOnly)
    (h : ∀ j < pageSize, data j = data' j) :
    ofData pageSize td id data stack = ofData pageSize td id data' stack' := by
  obtain ⟨hle, -⟩ := layout pageSize td
  have hheader : read data 0 (getHeaderSize pageSize td) = read data' 0 (getHeaderSize pageSize td) :=
    read_header_congr h
  have htuples : TuplePage.readTuples td (.heap id) (read data 0 (getHeaderSize pageSize td))
        (getNumTuples pageSize td) data (getHeaderSize pageSize td) stack =
      TuplePage.readTuples td (.heap id) (read data' 0 (getHeaderSize pageSize td))
        (getNumTuples pageSize td) data' (getHeaderSize pageSize td) stack' := by
    rw [TuplePage.readTuples, TuplePage.readTuples, hheader]
    apply List.map_congr_left
    intro i hi
    have hi := List.mem_range.mp hi
    have hfields : parseFields data stack td.types (getHeaderSize pageSize td + i * td.getSize) =
        parseFields data' stack' td.types (getHeaderSize pageSize td + i * td.getSize) := by
      apply parseFields_congr hint
      intro j _ hj
      have hslot := Nat.mul_le_mul_right td.getSize hi
      rw [Nat.succ_mul, Nat.mul_comm (getNumTuples pageSize td)] at hslot
      change j < _ + td.getSize at hj
      exact h j (by unfold getHeaderSize at hj; omega)
    simp only [readTuple, hfields]
  rw [hheader] at htuples
  simp only [ofData, TuplePage.ofBytes, hheader, htuples]

theorem roundTrips_of_intOnly (h : p.td.IntOnly) : p.RoundTrips := by
  intro i row hrow f hf
  unfold TuplePage.row? at hrow
  split at hrow
  · rename_i hu
    obtain ⟨t, ht, rfl⟩ := Option.map_eq_some_iff.mp hrow
    obtain ⟨v, rfl⟩ := t.field_isInt ((p.stored i t ht hu).1 ▸ h) hf
    exact Field.int_roundTrips v
  · cases hrow

theorem ofData_zeroed_row? (pageSize : ℕ) (td : TupleDesc) (id : HeapPageId) (fresh stack : Buffer) :
    (ofData pageSize td id (zeroed pageSize fresh) stack).row? = fun _ => none := by
  funext i
  have hle := (layout pageSize td).1
  have hu : (ofData pageSize td id (zeroed pageSize fresh) stack).isSlotUsed i = false := by
    apply Bitmap.get_eq_false
    change (read (zeroed pageSize fresh) 0 (getHeaderSize pageSize td)).getD (i / 8) 0 = 0
    rw [List.getD_eq_getElem?_getD]
    by_cases hi : i / 8 < getHeaderSize pageSize td
    · have hlt : i / 8 < pageSize := by unfold getHeaderSize at hi; omega
      simp [Memory.read, zeroed, hi, hlt]
    · simp [Memory.read, hi]
  simp [TuplePage.row?, hu]

/-- The codec of a heap page of less than `2 ^ 28` bytes: header and slots fill the page, the
encoder writes and the decoder reads no byte behind it, and what is decoded from a page's bytes has
the same used slots, the same tuples under their record ids, and the same bytes again. -/
theorem codec_round_trip (hsize : pageSize < 2 ^ 28)
    (hslot : 1 ≤ 8 * pageSize / (8 * p.td.getSize + 1)) (hsizes : p.Allocated pageSize)
    (hrt : p.RoundTrips) :
    p.numSlots = 8 * pageSize / (8 * p.td.getSize + 1) ∧ p.numSlots ≤ 8 * p.header.length ∧
      p.header.length + p.numSlots * p.td.getSize = pageSize ∧
      (∀ fresh j, pageSize ≤ j → p.getPageData pageSize fresh j = fresh j) ∧
      ∀ fresh data stack, (∀ j < pageSize, data j = p.getPageData pageSize fresh j) →
        (ofData pageSize p.td p.pid data stack).Allocated pageSize ∧
        (∀ i, (ofData pageSize p.td p.pid data stack).isSlotUsed i = p.isSlotUsed i) ∧
        (ofData pageSize p.td p.pid data stack).tuple? = p.tuple? ∧
        (∀ i t, (ofData pageSize p.td p.pid data stack).tuple? i = some t →
          t.rid = some ⟨.heap p.pid, i⟩) ∧
        ∀ fresh', (ofData pageSize p.td p.pid data stack).getPageData pageSize fresh' =
          p.getPageData pageSize fresh' := by
  have hnum : getNumTuples pageSize p.td = 8 * pageSize / (8 * p.td.getSize + 1) := by
    rw [getNumTuples, Nat.mul_comm pageSize, Nat.mul_comm p.td.getSize]
  rw [← hnum] at hslot ⊢
  have hfit := (allocated_iff hsize hslot).mp hsizes
  obtain ⟨hle, hbits⟩ := layout pageSize p.td
  refine ⟨hfit.slots, ?_, ?_, fun fresh j hj => getPageData_outside hfit fresh hj, ?_⟩
  · rwa [hfit.slots, hfit.header]
  · rw [hfit.slots, hfit.header, getHeaderSize, Nat.mul_comm (getNumTuples _ _)]
    omega
  · intro fresh data stack hdata
    have hheader : (ofData pageSize p.td p.pid data stack).header = p.header :=
      ofData_getPageData_header hfit hdata
    have hrow : (ofData pageSize p.td p.pid data stack).row? = p.row? :=
      ofData_getPageData hfit hrt hdata
    have htuple : (ofData pageSize p.td p.pid data stack).tuple? = p.tuple? :=
      TuplePage.tuple?_eq_of_row? rfl rfl hrow
    refine ⟨?_, ?_, htuple, ?_, ?_⟩
    · exact (allocated_iff (p := ofData pageSize p.td p.pid data stack) hsize hslot).mpr
        (ofData_fits _ _ _ _ _)
    · intro i
      rw [TuplePage.isSlotUsed, TuplePage.isSlotUsed, hheader]
    · intro i t ht
      rw [htuple] at ht
      exact (p.of_tuple? ht).2
    · intro fresh'
      exact getPageData_congr hfit (ofData_fits _ _ _ _ _) rfl hheader hrow fresh'

def pageWithFive : HeapPage :=
  ofData 9 (.ofInts 1) ⟨7, 0⟩ (fun j => if j = 0 then 1 else if j = 1 then 5 else 0) fun _ => 0

theorem codec_round_trip_pageWithFive :
    (ofData 9 (.ofInts 1) ⟨7, 0⟩ (pageWithFive.getPageData 9 fun _ => 0) fun _ => 0).tuple? =
      pageWithFive.tuple? ∧ pageWithFive.row? 0 = some [.int 5] :=
  ⟨((codec_round_trip (p := pageWithFive) (by decide) (by decide) ⟨by decide, by decide⟩
    (roundTrips_of_intOnly (by decide))).2.2.2.2 _ _ _ fun _ _ => rfl).2.2.1, by decide⟩

/-- A page of `2 ^ 29` bytes is given no slots: its header takes all of it. -/
theorem hugePage_overflows : ¬ ∀ (pageSize : ℕ) (td : TupleDesc), pageSize < 2 ^ 31 →
    1 ≤ 8 * pageSize / (8 * td.getSize + 1) →
    getHeaderSizeInt pageSize td + (8 * pageSize / (8 * td.getSize + 1) : ℕ) * td.getSize =
      pageSize := by
  intro hclaim
  have hheader : getHeaderSizeInt (2 ^ 29) (.ofInts 1) = 2 ^ 29 := by decide
  have hfill := hclaim (2 ^ 29) (.ofInts 1) (by decide) (by decide)
  rw [hheader] at hfill
  exact absurd hfill (by decide)

end HeapPage

end PagedDb
