import PagedDb.BTree.LeafPage

/-!
# The bytes of a leaf page

The encoder puts every field of a record at the start of its slot, so that only
the last one survives, and the slots end twelve bytes behind the page. A page
comes back from its bytes exactly when neither shows.
-/

namespace PagedDb

open Memory Layout

namespace BTreeLeafPage

/-- `getHeaderSize` for a page size and a schema. -/
def getHeaderSize (pageSize : ℕ) (td : TupleDesc) : ℕ :=
  pageSize - td.getSize * getMaxTuples pageSize td

theorem layout (pageSize : ℕ) (td : TupleDesc) :
    8 * (td.getSize * getMaxTuples pageSize td) + getMaxTuples pageSize td ≤ 8 * (pageSize - 12) := by
  have hdiv : getMaxTuples pageSize td * (td.getSize * 8 + 1) ≤ (pageSize - 12) * 8 :=
    Nat.div_mul_le_self _ _
  have hexpand : getMaxTuples pageSize td * (td.getSize * 8 + 1) =
      8 * (td.getSize * getMaxTuples pageSize td) + getMaxTuples pageSize td := by ring
  omega

theorem slots_le_header (pageSize : ℕ) (td : TupleDesc) :
    getMaxTuples pageSize td ≤ 8 * getHeaderSize pageSize td := by
  have := layout pageSize td
  unfold getHeaderSize
  omega

/-- Where slot `i` starts. -/
def slotStart (pageSize : ℕ) (td : TupleDesc) (i : ℕ) : ℕ :=
  12 + getHeaderSize pageSize td + i * td.getSize

/-- The constructor. -/
def ofData (pageSize : ℕ) (td : TupleDesc) (id : BTreePageId) (key : ℕ) (data stack : Buffer) :
    BTreeLeafPage :=
  let slots : TuplePage PageId.btree :=
    .ofBytes id td (read data 12 (getHeaderSize pageSize td)) (getMaxTuples pageSize td)
      (by simpa using slots_le_header pageSize td) data (12 + getHeaderSize pageSize td) stack
  { slots with
    keyField := key
    parent := loadWord data 0
    leftSibling := loadWord data 4
    rightSibling := loadWord data 8 }

/-- The inner loop of `getPageData`: every field goes to the same offset. -/
def serializeFields (m : Buffer) (off : ℕ) (fs : List Field) : Buffer :=
  fs.foldl (fun m f => write m off f.serialize) m

/-- One iteration of `getPageData`'s loop. -/
def writeSlot (p : BTreeLeafPage) (c : Cursor) (i : ℕ) : Cursor :=
  (if p.isSlotUsed i then
    serializeFields c.1 c.2 ((p.tuples.getD i .empty).fields.take p.td.numFields) else c.1,
    c.2 + p.td.getSize)

/-- What `getPageData` writes in front of the slots; `fresh` is what the memory behind the new
buffer held. -/
def writeHeader (p : BTreeLeafPage) (pageSize : ℕ) (fresh : Buffer) : Buffer :=
  let data := storeWord (zeroed pageSize fresh) 0 p.parent
  let data := storeWord data 4 p.leftSibling
  let data := storeWord data 8 p.rightSibling
  write data 12 (p.header.take (pageSize - p.td.getSize * p.numSlots))

def getPageData (p : BTreeLeafPage) (pageSize : ℕ) (fresh : Buffer) : Buffer :=
  (walk p.writeSlot p.numSlots
    (p.writeHeader pageSize fresh, 12 + (pageSize - p.td.getSize * p.numSlots))).1

/-- The page has the shape a page of this size and schema has. -/
structure Fits (p : BTreeLeafPage) (pageSize : ℕ) : Prop where
  slots : p.numSlots = getMaxTuples pageSize p.td
  header : p.header.length = getHeaderSize pageSize p.td

variable {p : BTreeLeafPage} {pageSize i : ℕ} {fresh data stack : Buffer} {row : Row}

theorem serializeFields_outside {m : Buffer} {off n j : ℕ} {fs : List Field}
    (hfs : ∀ f ∈ fs, f.serialize.length ≤ n) (hj : j < off ∨ off + n ≤ j) :
    serializeFields m off fs j = m j := by
  induction fs generalizing m with
  | nil => rfl
  | cons f fs ih =>
    have hf := hfs f List.mem_cons_self
    change serializeFields (write m off f.serialize) off fs j = m j
    rw [ih fun g hg => hfs g (List.mem_cons_of_mem f hg), write_outside (by omega)]

theorem serializeFields_last (m : Buffer) (off : ℕ) (fs : List Field) (v : Int32) :
    loadWord (serializeFields m off (fs ++ [.int v])) off = v := by
  rw [serializeFields, List.foldl_append]
  exact loadWord_storeWord _ off v

theorem writeSlot_used (hrow : p.row? i = some row) (c : Cursor) :
    p.writeSlot c i = (serializeFields c.1 c.2 row, c.2 + p.td.getSize) := by
  have hi : i < p.numSlots := by
    by_contra hge
    rw [p.row?_of_le (by omega)] at hrow
    cases hrow
  have hu : p.isSlotUsed i = true := by
    rw [← p.row?_isSome hi, hrow]
    rfl
  obtain ⟨t, ht, htd, -, hrow'⟩ := p.tuple_of_used hi hu
  obtain rfl : row = t.fields := Option.some.inj (hrow.symm.trans hrow')
  have hlen : t.fields.length ≤ p.td.numFields := by rw [t.fields_length, htd]
  rw [writeSlot, if_pos hu, List.getD_eq_getElem?_getD, ht, Option.getD_some,
    List.take_of_length_le hlen]

theorem field_length_le {fs : List Field} {f : Field} (hf : f ∈ fs) :
    f.serialize.length ≤ fieldsSize fs := by
  have hle := f.serialize_length_le
  have hmem : f.getType.getLen ∈ fs.map fun f => f.getType.getLen := List.mem_map_of_mem hf
  exact le_trans hle (List.single_le_sum (fun _ _ => Nat.zero_le _) _ hmem)

theorem writeSlot_fills (hi : i < p.numSlots) : Fills p.writeSlot p.td.getSize i := by
  constructor
  · intro c
    rfl
  · intro c j hj
    cases hrow : p.row? i with
    | none =>
      have hu : p.isSlotUsed i = false := by rw [← p.row?_isSome hi, hrow]; rfl
      simp [writeSlot, hu]
    | some row =>
      rw [writeSlot_used hrow]
      apply serializeFields_outside (n := p.td.getSize) _ hj
      intro f hf
      rw [← (p.row_types hrow).2]
      exact field_length_le hf

theorem getPageData_eq (hfit : p.Fits pageSize) (fresh : Buffer) :
    p.getPageData pageSize fresh = (walk p.writeSlot p.numSlots
      (p.writeHeader pageSize fresh, 12 + getHeaderSize pageSize p.td)).1 := by
  rw [getPageData, hfit.slots, getHeaderSize]

theorem getPageData_front (hfit : p.Fits pageSize) {j : ℕ}
    (hj : j < 12 + getHeaderSize pageSize p.td) :
    p.getPageData pageSize fresh j = p.writeHeader pageSize fresh j := by
  rw [getPageData_eq hfit, walk_outside (fun _ => writeSlot_fills) (.inl hj)]

theorem writeHeader_behind (hfit : p.Fits pageSize) {j : ℕ}
    (hj : 12 + getHeaderSize pageSize p.td ≤ j) :
    p.writeHeader pageSize fresh j = zeroed pageSize fresh j := by
  have hlen : (p.header.take (pageSize - p.td.getSize * p.numSlots)).length ≤
      getHeaderSize pageSize p.td := by
    rw [← hfit.header]
    exact List.length_take_le' _ _
  rw [writeHeader, write_outside (by omega), storeWord_outside (by omega),
    storeWord_outside (by omega), storeWord_outside (by omega)]

theorem lt_of_row? (hrow : p.row? i = some row) : i < p.numSlots := by
  by_contra hge
  rw [p.row?_of_le (by omega)] at hrow
  cases hrow

/-- Up to the end of its slot, the buffer is what the slot's own iteration made of it. -/
theorem getPageData_slot (hfit : p.Fits pageSize) (hrow : p.row? i = some row) (fresh : Buffer) :
    ∃ m : Buffer, (∀ k, slotStart pageSize p.td i ≤ k → m k = zeroed pageSize fresh k) ∧
      ∀ j, j < slotStart pageSize p.td i + p.td.getSize →
        p.getPageData pageSize fresh j = serializeFields m (slotStart pageSize p.td i) row j := by
  have hi := lt_of_row? hrow
  have hbefore : ∀ k < i, Fills p.writeSlot p.td.getSize k := fun k hk =>
    writeSlot_fills (by omega)
  refine ⟨(walk p.writeSlot i
    (p.writeHeader pageSize fresh, 12 + getHeaderSize pageSize p.td)).1, ?_, ?_⟩
  · intro k hk
    unfold slotStart at hk
    rw [walk_outside hbefore (.inr hk)]
    exact writeHeader_behind hfit (by omega)
  · intro j hj
    rw [getPageData_eq hfit, walk_inside (fun _ => writeSlot_fills) hi hj, writeSlot_used hrow,
      walk_offset hbefore]
    rfl

theorem int_length {fs : List Field} (hint : p.td.IntOnly) (hrow : p.row? i = some fs) {f : Field}
    (hf : f ∈ fs) : f.serialize.length = 4 := by
  have htype : f.getType = .intType := by
    apply hint
    rw [← (p.row_types hrow).1]
    exact List.mem_map_of_mem hf
  obtain ⟨v, rfl⟩ := Field.exists_int htype
  rfl

theorem getPageData_rest (hfit : p.Fits pageSize) (hint : p.td.IntOnly)
    (hrow : p.row? i = some row) {j : ℕ} (h₁ : slotStart pageSize p.td i + 4 ≤ j)
    (h₂ : j < slotStart pageSize p.td i + p.td.getSize) :
    p.getPageData pageSize fresh j = zeroed pageSize fresh j := by
  obtain ⟨m, hm, hslot⟩ := getPageData_slot hfit hrow fresh
  rw [hslot j h₂,
    serializeFields_outside (n := 4) (fun f hf => (int_length hint hrow hf).le) (.inr h₁)]
  exact hm j (by omega)

theorem getPageData_first (hfit : p.Fits pageSize) {fs : List Field} {v : Int32}
    (hrow : p.row? i = some (fs ++ [.int v])) :
    loadWord (p.getPageData pageSize fresh) (slotStart pageSize p.td i) = v := by
  obtain ⟨m, -, hslot⟩ := getPageData_slot hfit hrow fresh
  have hsize : 4 ≤ p.td.getSize := by
    rw [← (p.row_types hrow).2]
    exact field_length_le (f := .int v) (by simp)
  rw [← serializeFields_last m (slotStart pageSize p.td i) fs v]
  apply loadWord_congr
  intro j _ h₂
  exact hslot j (by omega)

theorem row_eq_append (hint : p.td.IntOnly) (hkey : 0 < p.td.numFields)
    (hrow : p.row? i = some row) : ∃ fs v, row = fs ++ [.int v] := by
  have htypes := (p.row_types hrow).1
  have hlen : row.length = p.td.numFields := by
    have := congrArg List.length htypes
    simpa [TupleDesc.types, TupleDesc.numFields] using this
  obtain ⟨fs, f, rfl⟩ := List.eq_nil_or_concat' row |>.resolve_left (by
    rintro rfl
    rw [List.length_nil] at hlen
    omega)
  have htype : f.getType = .intType := by
    apply hint
    rw [← htypes]
    exact List.mem_map_of_mem (by simp)
  obtain ⟨v, rfl⟩ := Field.exists_int htype
  exact ⟨fs, v, rfl⟩

/-- What the decoder makes of a slot: the last field and zeros, as long as the slot's bytes behind
its first field are in the page. -/
theorem parse_slot (hfit : p.Fits pageSize) (hint : p.td.IntOnly) {fs : List Field} {v : Int32}
    (hrow : p.row? i = some (fs ++ [.int v]))
    (hend : fs = [] ∨ slotStart pageSize p.td i + p.td.getSize ≤ pageSize)
    (hdata : ∀ j, slotStart pageSize p.td i ≤ j → j < slotStart pageSize p.td i + p.td.getSize →
      data j = p.getPageData pageSize fresh j) :
    parseFields data stack p.td.types (slotStart pageSize p.td i) =
      .int v :: List.replicate fs.length (.int 0) := by
  have htypes := (p.row_types hrow).1
  have hlen : p.td.types.length = fs.length + 1 := by
    rw [← htypes]
    simp
  have hsize : p.td.getSize = 4 * (fs.length + 1) := by
    rw [hint.getSize_eq, ← hlen]
    simp [TupleDesc.numFields, TupleDesc.types]
  rw [parseFields_int hint, hlen, List.range_succ_eq_map, List.map_cons, List.map_map]
  congr 1
  · have hfirst : loadWord (p.getPageData pageSize fresh) (slotStart pageSize p.td i) = v :=
      getPageData_first hfit hrow
    rw [← hfirst]
    congr 1
    apply loadWord_congr
    intro j h₁ h₂
    exact hdata j h₁ (by omega)
  · apply List.eq_replicate_iff.mpr
    refine ⟨by simp, ?_⟩
    intro f hf
    obtain ⟨j, hj, rfl⟩ := List.mem_map.mp hf
    have hj := List.mem_range.mp hj
    rcases hend with rfl | hend
    · simp at hj
    · simp only [Function.comp]
      congr 1
      apply loadWord_eq_zero
      intro k h₁ h₂
      rw [hdata k (by omega) (by omega), getPageData_rest hfit hint hrow (by omega) (by omega),
        zeroed, if_pos (by omega)]

/-- Putting the last field first and zeros behind it gives the record back only if there is one
field or nothing but zeros. -/
theorem last_first_iff {fs : List Field} {v : Int32} :
    .int v :: List.replicate fs.length (.int 0) = fs ++ [.int v] ↔
      (fs ++ [Field.int v]).length = 1 ∨ ∀ f ∈ fs ++ [.int v], f = Field.int 0 := by
  cases fs with
  | nil => simp
  | cons f fs =>
    constructor
    · intro h
      right
      rw [List.cons_append, List.cons.injEq, List.length_cons, List.replicate_succ'] at h
      obtain ⟨rfl, htail⟩ := h
      obtain ⟨hfs, hlast⟩ := List.append_inj' htail rfl
      rw [List.singleton_inj] at hlast
      intro g hg
      rw [← hlast, ← hfs] at hg
      simp only [List.cons_append, List.mem_cons, List.mem_append, List.mem_replicate,
        List.not_mem_nil, or_false] at hg
      rcases hg with rfl | ⟨-, rfl⟩ | rfl
      · rfl
      · rfl
      · rfl
    · rintro (hone | hzero)
      · simp at hone
      · have hall : (f :: fs) ++ [Field.int v] = List.replicate (fs.length + 2) (.int 0) := by
          apply List.eq_replicate_iff.mpr
          exact ⟨by simp, hzero⟩
        have hv : Field.int v = .int 0 := hzero _ (by simp)
        rw [hall, hv]
        rfl

theorem parse_top (hint : p.td.IntOnly) (hkey : 0 < p.td.numFields) {off : ℕ}
    {data' stack' : Buffer}
    (h : parseFields data stack p.td.types off = parseFields data' stack' p.td.types off) :
    data (off + p.td.getSize - 1) = data' (off + p.td.getSize - 1) := by
  have hlen : p.td.types.length = p.td.numFields := by simp [TupleDesc.types, TupleDesc.numFields]
  rw [parseFields_int hint, parseFields_int hint, hlen] at h
  have hlast := List.map_inj_left.mp h (p.td.numFields - 1) (List.mem_range.mpr (by omega))
  have htop := loadWord_top (Field.int.inj hlast)
  have hsize := hint.getSize_eq
  rwa [show off + 4 * (p.td.numFields - 1) + 3 = off + p.td.getSize - 1 by omega] at htop

/-- The two pages have the same pointers and the same used slots with the same rows. -/
structure SameAs (q p : BTreeLeafPage) : Prop where
  parent : q.parent = p.parent
  leftSibling : q.leftSibling = p.leftSibling
  rightSibling : q.rightSibling = p.rightSibling
  used : ∀ i < p.numSlots, q.isSlotUsed i = p.isSlotUsed i
  rows : ∀ i row, p.row? i = some row → q.row? i = some row

theorem writeHeader_words (p : BTreeLeafPage) (pageSize : ℕ) (fresh : Buffer) :
    loadWord (p.writeHeader pageSize fresh) 0 = p.parent ∧
      loadWord (p.writeHeader pageSize fresh) 4 = p.leftSibling ∧
      loadWord (p.writeHeader pageSize fresh) 8 = p.rightSibling := by
  refine ⟨?_, ?_, ?_⟩
  · rw [writeHeader, loadWord_write_outside (by omega), loadWord_storeWord_outside (by omega),
      loadWord_storeWord_outside (by omega), loadWord_storeWord]
  · rw [writeHeader, loadWord_write_outside (by omega), loadWord_storeWord_outside (by omega),
      loadWord_storeWord]
  · rw [writeHeader, loadWord_write_outside (by omega), loadWord_storeWord]

/-- What the decoder reads in front of the slots is right. -/
theorem ofData_front (hfit : p.Fits pageSize) (hcap : 1 ≤ p.numSlots)
    (hdata : ∀ j < pageSize, data j = p.getPageData pageSize fresh j) {q : BTreeLeafPage}
    (hq : q = ofData pageSize p.td p.pid p.keyField data stack) :
    q.parent = p.parent ∧ q.leftSibling = p.leftSibling ∧ q.rightSibling = p.rightSibling ∧
      ∀ i < p.numSlots, q.isSlotUsed i = p.isSlotUsed i := by
  have hlayout := layout pageSize p.td
  rw [← hfit.slots] at hlayout
  have hheader : getHeaderSize pageSize p.td = pageSize - p.td.getSize * p.numSlots := by
    rw [getHeaderSize, hfit.slots]
  have hfront : ∀ j < 12 + getHeaderSize pageSize p.td, j < pageSize →
      data j = p.writeHeader pageSize fresh j := by
    intro j h₁ h₂
    rw [hdata j h₂, getPageData_front hfit h₁]
  obtain ⟨h₀, h₄, h₈⟩ := writeHeader_words p pageSize fresh
  subst hq
  refine ⟨?_, ?_, ?_, ?_⟩
  · rw [← h₀]
    exact loadWord_congr fun j _ hj => hfront j (by omega) (by omega)
  · rw [← h₄]
    exact loadWord_congr fun j _ hj => hfront j (by omega) (by omega)
  · rw [← h₈]
    exact loadWord_congr fun j _ hj => hfront j (by omega) (by omega)
  · intro i hi
    have hlt : i / 8 < getHeaderSize pageSize p.td := by omega
    have hbyte : (read data 12 (getHeaderSize pageSize p.td)).getD (i / 8) 0 =
        p.header.getD (i / 8) 0 := by
      rw [List.getD_eq_getElem _ _ (by simpa using hlt)]
      simp only [Memory.read, List.getElem_map, List.getElem_range]
      rw [hfront _ (by omega) (by omega), writeHeader, ← hheader,
        List.take_of_length_le hfit.header.le, write_inside (by rwa [hfit.header])]
    change Bitmap.get (read data 12 (getHeaderSize pageSize p.td)) i = Bitmap.get p.header i
    rw [Bitmap.get, Bitmap.get, hbyte]

theorem ofData_row? (hfit : p.Fits pageSize) (hcap : 1 ≤ p.numSlots)
    (hdata : ∀ j < pageSize, data j = p.getPageData pageSize fresh j)
    (hrow : p.row? i = some row) :
    (ofData pageSize p.td p.pid p.keyField data stack).row? i =
      some (parseFields data stack p.td.types (slotStart pageSize p.td i)) := by
  have hi := lt_of_row? hrow
  have hu : p.isSlotUsed i = true := by
    rw [← p.row?_isSome hi, hrow]
    rfl
  obtain ⟨-, -, -, hused⟩ := ofData_front hfit hcap hdata
    (Eq.refl (ofData pageSize p.td p.pid p.keyField data stack))
  have hbit : Bitmap.get (read data 12 (getHeaderSize pageSize p.td)) i = true :=
    (hused i hi).trans hu
  have hi' : i < getMaxTuples pageSize p.td := by rwa [← hfit.slots]
  change (TuplePage.ofBytes _ _ _ _ _ _ _ _).row? i = _
  rw [TuplePage.ofBytes_row? hi', if_pos hbit]
  rfl

/-- Every page that a file may give back where `p` was stored is the same as `p`. -/
def FromDisk (p : BTreeLeafPage) (pageSize : ℕ) : Prop :=
  ∀ fresh data stack, (∀ j < pageSize, data j = p.getPageData pageSize fresh j) →
    SameAs (ofData pageSize p.td p.pid p.keyField data stack) p

/-- The page built from the encoder's own buffer is the same as `p`. -/
def FromBuffer (p : BTreeLeafPage) (pageSize : ℕ) : Prop :=
  ∀ fresh stack,
    SameAs (ofData pageSize p.td p.pid p.keyField (p.getPageData pageSize fresh) stack) p

def EndsInside (p : BTreeLeafPage) (pageSize i : ℕ) : Prop :=
  slotStart pageSize p.td i + p.td.getSize ≤ pageSize

theorem fromDisk_iff (hfit : p.Fits pageSize) (hint : p.td.IntOnly) (hpos : 0 < p.td.numFields)
    (hcap : 1 ≤ p.numSlots) :
    p.FromDisk pageSize ↔ ∀ i row, p.row? i = some row →
      p.EndsInside pageSize i ∧ (row.length = 1 ∨ ∀ f ∈ row, f = .int 0) := by
  constructor
  · intro hdisk i row hrow
    obtain ⟨fs, v, rfl⟩ := row_eq_append hint hpos hrow
    -- the memory behind the page may hold anything, say `c` everywhere
    let past (c : UInt8) : Buffer := fun j =>
      if j < pageSize then p.getPageData pageSize (fun _ => 0) j else c
    have hpast : ∀ c, ∀ j < pageSize, past c j = p.getPageData pageSize (fun _ => 0) j :=
      fun c j hj => if_pos hj
    have hback : ∀ c, parseFields (past c) (fun _ => 0) p.td.types
        (slotStart pageSize p.td i) = fs ++ [.int v] := by
      intro c
      have hrows := (hdisk _ (past c) (fun _ => 0) (hpast c)).rows i _ hrow
      rw [ofData_row? hfit hcap (hpast c) hrow] at hrows
      exact Option.some.inj hrows
    have hend : p.EndsInside pageSize i := by
      by_contra hover
      unfold EndsInside at hover
      have htop := parse_top hint hpos ((hback 0).trans (hback 1).symm)
      have hout : ¬ slotStart pageSize p.td i + p.td.getSize - 1 < pageSize := by omega
      simp only [past, if_neg hout] at htop
      cases htop
    refine ⟨hend, ?_⟩
    rw [← last_first_iff, ← hback 0]
    symm
    apply parse_slot hfit hint hrow (.inr hend)
    intro j _ hj
    exact hpast 0 j (lt_of_lt_of_le hj hend)
  · intro hall fresh data stack hdata
    obtain ⟨h₁, h₂, h₃, h₄⟩ := ofData_front hfit hcap hdata
      (Eq.refl (ofData pageSize p.td p.pid p.keyField data stack))
    refine ⟨h₁, h₂, h₃, h₄, ?_⟩
    intro i row hrow
    obtain ⟨hend, hvalue⟩ := hall i row hrow
    obtain ⟨fs, v, rfl⟩ := row_eq_append hint hpos hrow
    rw [ofData_row? hfit hcap hdata hrow, parse_slot hfit hint hrow (.inr hend)
      fun j _ hj => hdata j (lt_of_lt_of_le hj hend), last_first_iff.mpr hvalue]

theorem fromBuffer_iff (hfit : p.Fits pageSize) (hint : p.td.IntOnly) (hpos : 0 < p.td.numFields)
    (hcap : 1 ≤ p.numSlots) :
    p.FromBuffer pageSize ↔ ∀ i row, p.row? i = some row →
      row.length = 1 ∨ (p.EndsInside pageSize i ∧ ∀ f ∈ row, f = .int 0) := by
  constructor
  · intro hbuffer i row hrow
    obtain ⟨fs, v, rfl⟩ := row_eq_append hint hpos hrow
    have hback : ∀ c : UInt8, parseFields (p.getPageData pageSize fun _ => c) (fun _ => 0)
        p.td.types (slotStart pageSize p.td i) = fs ++ [.int v] := by
      intro c
      have hrows := (hbuffer (fun _ => c) (fun _ => 0)).rows i _ hrow
      rw [ofData_row? hfit hcap (fun _ _ => rfl) hrow] at hrows
      exact Option.some.inj hrows
    by_cases hone : fs = []
    · left
      rw [hone]
      rfl
    · right
      have hend : p.EndsInside pageSize i := by
        by_contra hover
        unfold EndsInside at hover
        have hlen : 0 < fs.length := List.length_pos_iff.mpr hone
        have hsize : 8 ≤ p.td.getSize := by
          have := congrArg List.length (p.row_types hrow).1
          rw [hint.getSize_eq]
          simp [TupleDesc.types, TupleDesc.numFields] at this ⊢
          omega
        have htop := parse_top hint hpos ((hback 0).trans (hback 1).symm)
        rw [getPageData_rest hfit hint hrow (by omega) (by omega),
          getPageData_rest hfit hint hrow (by omega) (by omega), zeroed, zeroed,
          if_neg (by omega), if_neg (by omega)] at htop
        cases htop
      refine ⟨hend, ?_⟩
      have hvalue : (fs ++ [Field.int v]).length = 1 ∨ ∀ f ∈ fs ++ [.int v], f = Field.int 0 := by
        rw [← last_first_iff, ← hback 0]
        symm
        exact parse_slot hfit hint hrow (.inr hend) fun _ _ _ => rfl
      rcases hvalue with hlen | hzero
      · rw [List.length_append, List.length_singleton] at hlen
        exact absurd (List.length_eq_zero_iff.mp (by omega)) hone
      · exact hzero
  · intro hall fresh stack
    obtain ⟨h₁, h₂, h₃, h₄⟩ :=
      ofData_front hfit hcap (fun _ _ => rfl)
        (Eq.refl (ofData pageSize p.td p.pid p.keyField (p.getPageData pageSize fresh) stack))
    refine ⟨h₁, h₂, h₃, h₄, ?_⟩
    intro i row hrow
    obtain ⟨fs, v, rfl⟩ := row_eq_append hint hpos hrow
    have hend : fs = [] ∨ slotStart pageSize p.td i + p.td.getSize ≤ pageSize := by
      rcases hall i _ hrow with hone | ⟨hend, -⟩
      · left
        rw [List.length_append, List.length_singleton] at hone
        exact List.length_eq_zero_iff.mp (by omega)
      · exact .inr hend
    have hvalue : (fs ++ [Field.int v]).length = 1 ∨ ∀ f ∈ fs ++ [.int v], f = Field.int 0 :=
      (hall i _ hrow).imp_right And.right
    rw [ofData_row? hfit hcap (fun _ _ => rfl) hrow,
      parse_slot hfit hint hrow hend fun _ _ _ => rfl, last_first_iff.mpr hvalue]

/-- A leaf comes back from its page's bytes exactly if every record is in a slot inside the page
and has one field or only zeros; from the encoder's buffer, exactly if every record has one
field, or is in a slot inside the page and has only zeros. -/
theorem leaf_reload_iff (hfit : p.Fits pageSize) (hint : p.td.IntOnly)
    (hkey : p.keyField < p.td.numFields) (hcap : 1 ≤ getMaxTuples pageSize p.td) :
    (p.FromDisk pageSize ↔ ∀ i row, p.row? i = some row →
      p.EndsInside pageSize i ∧ (row.length = 1 ∨ ∀ f ∈ row, f = .int 0)) ∧
    (p.FromBuffer pageSize ↔ ∀ i row, p.row? i = some row →
      row.length = 1 ∨ (p.EndsInside pageSize i ∧ ∀ f ∈ row, f = .int 0)) := by
  have hpos : 0 < p.td.numFields := by omega
  rw [← hfit.slots] at hcap
  exact ⟨fromDisk_iff hfit hint hpos hcap, fromBuffer_iff hfit hint hpos hcap⟩

theorem ofData_fits (pageSize : ℕ) (td : TupleDesc) (id : BTreePageId) (key : ℕ)
    (data stack : Buffer) : (ofData pageSize td id key data stack).Fits pageSize :=
  ⟨rfl, by simp [ofData, TuplePage.ofBytes]⟩

/-- A page of `width` integer columns with one record of the given values in its first slot. -/
def onePage (pageSize width : ℕ) (vs : List Int32) : BTreeLeafPage :=
  ofData pageSize (.ofInts width) ⟨7, 1, .leaf⟩ 0
    (fun j =>
      let start := slotStart pageSize (.ofInts width) 0
      if j = 12 then 1 else if j < start then 0 else (vs.flatMap wordBytes).getD (j - start) 0)
    fun _ => 0

theorem leaf_reload_iff_onePage :
    (onePage 37 1 [5]).FromDisk 37 ∧ (onePage 37 1 [5]).FromBuffer 37 := by
  have hrows : ∀ i row, (onePage 37 1 [5]).row? i = some row →
      (onePage 37 1 [5]).EndsInside 37 i ∧ row.length = 1 := by
    intro i row hrow
    have hlen := congrArg List.length ((onePage 37 1 [5]).row_types hrow).1
    rw [List.length_map] at hlen
    refine ⟨?_, hlen⟩
    have hi : i < 6 := lt_of_row? hrow
    have hempty : ∀ j < 6, j ≠ 0 → (onePage 37 1 [5]).row? j = none := by decide
    obtain rfl : i = 0 := by
      by_contra hne
      rw [hempty i hi hne] at hrow
      cases hrow
    unfold EndsInside
    decide
  obtain ⟨hdisk, hbuffer⟩ := leaf_reload_iff
    (ofData_fits 37 _ _ _ _ _ : (onePage 37 1 [5]).Fits 37) (by decide) (by decide) (by decide)
  exact ⟨hdisk.mpr fun i row h => ⟨(hrows i row h).1, .inl (hrows i row h).2⟩,
    hbuffer.mpr fun i row h => .inl (hrows i row h).2⟩

/-- The record (1, 2) comes back as (2, 0), even from the encoder's own buffer. -/
theorem fields_overwritten :
    ¬ ∀ (p : BTreeLeafPage) (pageSize : ℕ), p.Fits pageSize → p.td.IntOnly →
      p.keyField < p.td.numFields → 1 ≤ getMaxTuples pageSize p.td → p.FromBuffer pageSize := by
  intro hclaim
  have hfit : (onePage 60 2 [1, 2]).Fits 60 := ofData_fits _ _ _ _ _ _
  have hint : (onePage 60 2 [1, 2]).td.IntOnly := by decide
  have hrow : (onePage 60 2 [1, 2]).row? 0 = some [.int 1, .int 2] := by decide
  have hback := hclaim (onePage 60 2 [1, 2]) 60 hfit hint (by decide) (by decide)
    (fun _ => 0) (fun _ => 0)
  have hrows := hback.rows 0 _ hrow
  rw [ofData_row? hfit (by decide) (fun _ _ => rfl) hrow,
    parse_slot hfit hint (show _ = some ([Field.int 1] ++ [.int 2]) from hrow) (.inr (by decide))
      fun _ _ _ => rfl] at hrows
  cases hrows

end BTreeLeafPage

end PagedDb
