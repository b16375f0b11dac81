import PagedDb.Storage.TuplePage

/-!
# Heap pages

A tuple goes to the lowest empty slot of a page; a deletion clears its slot.
-/

namespace PagedDb

abbrev HeapPage := TuplePage PageId.heap

namespace HeapPage

/-- `getNumTuples` for a page size and a schema, as long as the product fits in an `int`: for pages
of less than `2 ^ 28` bytes. -/
def getNumTuples (pageSize : ℕ) (td : TupleDesc) : ℕ := pageSize * 8 / (td.getSize * 8 + 1)

/-- `getHeaderSize` for a page size and a schema. -/
def getHeaderSize (pageSize : ℕ) (td : TupleDesc) : ℕ :=
  pageSize - td.getSize * getNumTuples pageSize td

/-- `getNumTuples` for every page size: the product is an `int` and the division one of `size_t`. -/
def getNumTuplesInt (pageSize : ℕ) (td : TupleDesc) : Int :=
  let product := ((pageSize * 8 : ℕ) : Int).bmod (2 ^ 32)
  let bits := ((td.getSize * 8 + 1 : ℕ) : Int)
  (product % 2 ^ 64 / (bits % 2 ^ 64)).bmod (2 ^ 32)

/-- `getHeaderSize` for every page size. -/
def getHeaderSizeInt (pageSize : ℕ) (td : TupleDesc) : Int :=
  (pageSize - td.getSize * getNumTuplesInt pageSize td).bmod (2 ^ 32)

/-- `HeapPage::insertTuple`: the page and the caller's tuple afterwards. -/
def insertTuple (p : HeapPage) (t : Tuple) : Except Fault (HeapPage × Tuple) :=
  if p.getNumEmptySlots = 0 then .error (.runtimeError "No space")
  else if htd : t.td = p.td then
    -- one of the first `numSlots` slots is empty, so the `while` loop stops there
    let slotIndex := Slots.search (fun i => !p.isSlotUsed i) p.numSlots 0
    .ok (p.put slotIndex t htd, t.setRecordId (some ⟨.heap p.pid, slotIndex⟩))
  else .error (.runtimeError "Wrong tuple description")

def deleteTuple (p : HeapPage) (t : Tuple) : Except Fault HeapPage :=
  match t.rid with
  | none => .error .nullDeref
  | some rid =>
    if rid.pid ≠ .heap p.pid then .error (.runtimeError "Wrong page")
    else if p.isSlotUsed rid.tupleno then .ok (p.free rid.tupleno)
    else .error (.runtimeError "Empty slot")

/-- Below `2 ^ 28` bytes a page has the slots and the header that the formulas give. -/
theorem sizes_int {pageSize : ℕ} {td : TupleDesc} (hsize : pageSize < 2 ^ 28)
    (hslot : 0 < getNumTuples pageSize td) :
    getNumTuplesInt pageSize td = getNumTuples pageSize td ∧
      getHeaderSizeInt pageSize td = getHeaderSize pageSize td := by
  have hwidth : td.getSize * 8 + 1 ≤ pageSize * 8 := (Nat.div_pos_iff.mp hslot).2
  have hle : getNumTuples pageSize td ≤ pageSize * 8 := Nat.div_le_self _ _
  -- nothing leaves its type
  have hint : ∀ n : ℕ, n < 2 ^ 31 → (n : Int).bmod (2 ^ 32) = n := by
    intro n hn
    exact Int.bmod_eq_of_le (by omega) (by omega)
  have hsizeT : ∀ n : ℕ, n < 2 ^ 31 → (n : Int) % 2 ^ 64 = n := by
    intro n hn
    exact Int.emod_eq_of_lt (by omega) (by omega)
  have hnum : getNumTuplesInt pageSize td = getNumTuples pageSize td := by
    unfold getNumTuplesInt
    dsimp only
    rw [hint _ (by omega), hsizeT _ (by omega), hsizeT _ (by omega), ← Int.natCast_div]
    exact hint _ (hle.trans_lt (by omega))
  refine ⟨hnum, ?_⟩
  have hfill : td.getSize * getNumTuples pageSize td ≤ pageSize := by
    have hdiv : getNumTuples pageSize td * (td.getSize * 8 + 1) ≤ pageSize * 8 :=
      Nat.div_mul_le_self _ _
    nlinarith
  rw [getHeaderSizeInt, hnum, ← Nat.cast_mul, ← Nat.cast_sub hfill]
  exact hint _ (by omega)

/-- What a successful insertion does: the tuple goes to the lowest empty slot. -/
theorem insertTuple_ok {p : HeapPage} {t : Tuple} (hroom : 0 < p.getNumEmptySlots)
    (htd : t.td = p.td) :
    ∃ i < p.numSlots, p.row? i = none ∧ (∀ j < i, p.isSlotUsed j = true) ∧
      insertTuple p t = .ok (p.put i t htd, t.setRecordId (some ⟨.heap p.pid, i⟩)) := by
  obtain ⟨e, he, hempty⟩ := TuplePage.getNumEmptySlots_pos.mp hroom
  have hlt : Slots.search (fun i => !p.isSlotUsed i) p.numSlots 0 < 0 + p.numSlots :=
    Slots.search_lt (Nat.zero_le e) (Nat.lt_add_left 0 he) (by simp [hempty])
  have hstop := Slots.search_stop hlt
  rw [Nat.zero_add] at hlt
  refine ⟨Slots.search (fun i => !p.isSlotUsed i) p.numSlots 0, hlt, ?_, ?_, ?_⟩
  · have := p.row?_isSome hlt
    simp only [Bool.not_eq_true'] at hstop
    rw [hstop] at this
    simpa using this
  · intro j hj
    simpa using Slots.search_before (Nat.zero_le j) hj
  · rw [insertTuple, if_neg (by omega), dif_pos htd]

theorem insertTuple_pid {p p' : HeapPage} {t t' : Tuple} (h : insertTuple p t = .ok (p', t')) :
    p'.pid = p.pid := by
  unfold insertTuple at h
  split at h
  · cases h
  · split at h
    · cases h
      rfl
    · cases h

end HeapPage

end PagedDb
