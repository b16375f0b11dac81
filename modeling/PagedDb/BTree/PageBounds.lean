import PagedDb.Foundation.Spans
import PagedDb.BTree.FilePages

/-!
# Which pages stay inside their buffers

The capacity of a page, its header size and the bytes its codec touches are
computed in different places. A leaf page ends twelve bytes behind its buffer,
an internal page one byte behind it for some page sizes, the root pointer page
three bytes; header pages fit.
-/

namespace PagedDb

open Memory Layout

/-- The bytes `Types::parse` reads: of a string, its length and then that many characters. -/
def FieldType.reads (data : Buffer) (off : ℕ) : FieldType → List Span
  | .intType => [⟨off, 4⟩]
  | .stringType => [⟨off, 4⟩, ⟨off + 4, (loadWord data off).toUInt32.toNat⟩]

/-- The bytes `serialize` writes. -/
def FieldType.writes (off : ℕ) : FieldType → List Span
  | .intType => [⟨off, 4⟩]
  | .stringType => [⟨off, 4⟩, ⟨off + 4, 4⟩]

/-- The bytes `readTuple` reads. -/
def rowReads (data : Buffer) : List FieldType → ℕ → List Span
  | [], _ => []
  | t :: ts, off => t.reads data off ++ rowReads data ts (off + t.getLen)

/-- The strings of a slot have the lengths a `StringField` can have. -/
def ShortStrings (data : Buffer) : List FieldType → ℕ → Prop
  | [], _ => True
  | .intType :: ts, off => ShortStrings data ts (off + FieldType.getLen .intType)
  | .stringType :: ts, off => (loadWord data off).toUInt32.toNat < stringLen ∧
      ShortStrings data ts (off + FieldType.getLen .stringType)

theorem FieldType.writes_le (t : FieldType) (off : ℕ) :
    ∀ s ∈ t.writes off, s.off + s.len ≤ off + t.getLen := by
  intro s hs
  cases t with
  | intType =>
    simp only [FieldType.writes, List.mem_singleton] at hs
    subst hs
    exact Nat.le_refl _
  | stringType =>
    simp only [FieldType.writes, List.mem_cons, List.not_mem_nil, or_false] at hs
    rcases hs with rfl | rfl <;> simp only [FieldType.getLen, stringLen] <;> omega

section Rows

variable {data data' stack : Buffer} {ts : List FieldType} {off size : ℕ}

/-- The fields of a slot are decided by the bytes that `readTuple` reads. -/
theorem parseFields_agree (h : Agree (rowReads data ts off) data data') :
    parseFields data stack ts off = parseFields data' stack ts off := by
  induction ts generalizing off with
  | nil => rfl
  | cons t ts ih =>
    have hrest := ih (h.subset (List.subset_append_right _ _))
    have hfirst := h.subset (List.subset_append_left (t.reads data off) _)
    have hfield : Field.parse data off stack t = Field.parse data' off stack t := by
      cases t with
      | intType => exact congrArg Field.int (hfirst.loadWord (by simp [FieldType.reads]))
      | stringType =>
        have hlen : loadWord data off = loadWord data' off :=
          hfirst.loadWord (by simp [FieldType.reads])
        have hchars : ∀ i, i < (loadWord data off).toUInt32.toNat →
            data (off + 4 + i) = data' (off + 4 + i) := by
          intro i hi
          exact hfirst ⟨off + 4, _⟩ (List.mem_cons_of_mem _ (List.mem_singleton_self _)) _
            ⟨Nat.le_add_right _ _, Nat.add_lt_add_left hi _⟩
        simp only [Field.parse, ← hlen]
        congr 2
        funext i
        split
        · exact hchars i ‹_›
        · rfl
    rw [parseFields, parseFields, hfield, hrest]

/-- Rows with strings of such lengths are read inside their slots. -/
theorem rowReads_le (h : ShortStrings data ts off)
    (hsize : off + (ts.map FieldType.getLen).sum ≤ size) :
    ∀ s ∈ rowReads data ts off, s.Inside size := by
  induction ts generalizing off with
  | nil => simp [rowReads]
  | cons t ts ih =>
    simp only [List.map_cons, List.sum_cons] at hsize
    intro s hs
    rcases List.mem_append.mp hs with hs | hs
    · apply Span.inside_of_le
      cases t with
      | intType =>
        simp only [FieldType.reads, List.mem_singleton] at hs
        subst hs
        simp only [FieldType.getLen] at hsize
        change off + 4 ≤ size
        omega
      | stringType =>
        have hlen := h.1
        simp only [FieldType.getLen] at hsize
        simp only [FieldType.reads, List.mem_cons, List.not_mem_nil, or_false] at hs
        rcases hs with rfl | rfl
        · simp only
          omega
        · simp only
          omega
    · refine ih ?_ (by omega) s hs
      cases t with
      | intType => exact h
      | stringType => exact h.2

/-- Memory from `base` on in which every word is 127. -/
def LongStrings (data : Buffer) (base : ℕ) : Prop := ∀ k, loadWord data (base + 4 * k) = 127

theorem FieldType.getLen_words (t : FieldType) : ∃ k, t.getLen = 4 * k := by
  cases t with
  | intType => exact ⟨1, rfl⟩
  | stringType => exact ⟨33, rfl⟩

theorem LongStrings.short {base : ℕ} (h : LongStrings data base) (ts : List FieldType) (k : ℕ) :
    ShortStrings data ts (base + 4 * k) := by
  induction ts generalizing k with
  | nil => trivial
  | cons t ts ih =>
    obtain ⟨n, hn⟩ := t.getLen_words
    have hrest := ih (k + n)
    have hoff : base + 4 * (k + n) = base + 4 * k + t.getLen := by omega
    rw [hoff] at hrest
    cases t with
    | intType => exact hrest
    | stringType =>
      refine ⟨?_, hrest⟩
      rw [h k]
      decide

/-- In such memory the last field of a slot is read up to the slot's end, but for one byte. -/
theorem LongStrings.last {base : ℕ} (h : LongStrings data base) (hne : ts ≠ []) (k : ℕ)
    (hinside : ∀ s ∈ rowReads data ts (base + 4 * k), s.Inside size) :
    base + 4 * k + (ts.map FieldType.getLen).sum ≤ size + 1 := by
  induction ts generalizing k with
  | nil => exact absurd rfl hne
  | cons t ts ih =>
    obtain ⟨n, hn⟩ := t.getLen_words
    have hoff : base + 4 * (k + n) = base + 4 * k + t.getLen := by omega
    simp only [List.map_cons, List.sum_cons]
    by_cases hts : ts = []
    · subst hts
      have hin : ∀ s ∈ t.reads data (base + 4 * k), s.Inside size := fun s hs =>
        hinside s (List.mem_append_left _ hs)
      simp only [List.map_nil, List.sum_nil]
      cases t with
      | intType =>
        have hle := (hin ⟨base + 4 * k, 4⟩ (by simp [FieldType.reads])).le (Nat.succ_pos _)
        simp only [FieldType.getLen] at *
        omega
      | stringType =>
        have hword : (loadWord data (base + 4 * k)).toUInt32.toNat = 127 := by
          rw [h k]
          rfl
        have hspan : (⟨base + 4 * k + 4, 127⟩ : Span) ∈
            FieldType.reads data (base + 4 * k) .stringType := by
          simp [FieldType.reads, hword]
        have hle := (hin _ hspan).le (Nat.succ_pos _)
        simp only [FieldType.getLen, stringLen] at *
        omega
    · have hrest := ih hts (k + n) fun s hs => hinside s (List.mem_append_right _ (hoff ▸ hs))
      omega

end Rows

namespace BTreeLeafPage

def dataReads (pageSize : ℕ) (td : TupleDesc) (data : Buffer) : List Span :=
  [⟨0, 4⟩, ⟨4, 4⟩, ⟨8, 4⟩, ⟨12, getHeaderSize pageSize td⟩] ++
    (List.range (getMaxTuples pageSize td)).flatMap fun i =>
      if Bitmap.get (read data 12 (getHeaderSize pageSize td)) i then
        rowReads data td.types (slotStart pageSize td i)
      else []

/-- The bytes `getPageData` writes in front of the slots. -/
def headerWrites (p : BTreeLeafPage) (pageSize : ℕ) : List Span :=
  [⟨0, 4⟩, ⟨4, 4⟩, ⟨8, 4⟩, ⟨12, pageSize - p.td.getSize * p.numSlots⟩]

/-- The bytes it writes for the first `n` slots. -/
def slotWrites (p : BTreeLeafPage) (base n : ℕ) : List Span :=
  (List.range n).flatMap fun i =>
    if p.isSlotUsed i then p.td.types.flatMap (FieldType.writes (base + i * p.td.getSize)) else []

/-- The bytes `getPageData` writes. -/
def dataWrites (p : BTreeLeafPage) (pageSize : ℕ) : List Span :=
  p.headerWrites pageSize ++
    p.slotWrites (12 + (pageSize - p.td.getSize * p.numSlots)) p.numSlots

section Footprint

variable {p : BTreeLeafPage} {pageSize key : ℕ} {td : TupleDesc} {id : BTreePageId}
  {data data' stack fresh : Buffer}

/-- The constructor depends on the bytes of its spans only. -/
theorem ofData_agree (h : Agree (dataReads pageSize td data) data data') :
    ofData pageSize td id key data stack = ofData pageSize td id key data' stack := by
  have hword : ∀ off, (⟨off, 4⟩ : Span) ∈ dataReads pageSize td data →
      loadWord data off = loadWord data' off := fun off hs => h.loadWord hs
  have hheader : read data 12 (getHeaderSize pageSize td) =
      read data' 12 (getHeaderSize pageSize td) := h.read (by simp [dataReads])
  have hrow : ∀ i < getMaxTuples pageSize td,
      Bitmap.get (read data 12 (getHeaderSize pageSize td)) i = true →
      parseFields data stack td.types (slotStart pageSize td i) =
        parseFields data' stack td.types (slotStart pageSize td i) := by
    intro i hi hu
    apply parseFields_agree
    apply h.subset
    intro s hs
    apply List.mem_append_right
    exact List.mem_flatMap.mpr ⟨i, List.mem_range.mpr hi, by simpa only [hu, if_true] using hs⟩
  have htuples : TuplePage.readTuples td (.btree id) (read data 12 (getHeaderSize pageSize td))
        (getMaxTuples pageSize td) data (12 + getHeaderSize pageSize td) stack =
      TuplePage.readTuples td (.btree id) (read data' 12 (getHeaderSize pageSize td))
        (getMaxTuples pageSize td) data' (12 + getHeaderSize pageSize td) stack := by
    rw [TuplePage.readTuples, TuplePage.readTuples, ← hheader]
    apply List.map_congr_left
    intro i hi
    split
    · rename_i hu
      exact Tuple.ext rfl (hrow i (List.mem_range.mp hi) hu) rfl
    · rfl
  have hparent := hword 0 (by simp [dataReads])
  have hleft := hword 4 (by simp [dataReads])
  have hright := hword 8 (by simp [dataReads])
  rw [hheader] at htuples
  simp only [ofData, TuplePage.ofBytes, hheader, hparent, hleft, hright]
  congr 2

theorem serializeFields_touches (m : Buffer) (off : ℕ) (fs : List Field) :
    AgreeOutside ((fs.map Field.getType).flatMap (FieldType.writes off)) m
      (serializeFields m off fs) := by
  induction fs generalizing m with
  | nil => exact AgreeOutside.refl m
  | cons f fs ih =>
    have hfirst : AgreeOutside (FieldType.writes off f.getType) m (write m off f.serialize) := by
      intro i hi
      refine (write_outside ?_).symm
      cases f with
      | int v =>
        have hout := hi ⟨off, 4⟩ (List.mem_singleton_self _)
        simp only [Span.Covers] at hout
        change i < off ∨ off + 4 ≤ i
        omega
      | string s =>
        have hout := hi ⟨off, 4⟩ (by simp [FieldType.writes, Field.getType])
        have hout' := hi ⟨off + 4, 4⟩ (by simp [FieldType.writes, Field.getType])
        have hlen : (Field.string s).serialize.length ≤ 8 := by
          simp only [Field.serialize, List.length_append, wordBytes_length, List.length_take]
          omega
        simp only [Span.Covers] at hout hout'
        omega
    exact hfirst.trans (ih _)

/-- `getPageData` changes the bytes of its spans only. -/
theorem getPageData_touches (p : BTreeLeafPage) (pageSize : ℕ) (fresh : Buffer) :
    AgreeOutside (p.dataWrites pageSize) (zeroed pageSize fresh)
      (p.getPageData pageSize fresh) := by
  have hheader : AgreeOutside (p.headerWrites pageSize) (zeroed pageSize fresh)
      (p.writeHeader pageSize fresh) := by
    have h₀ := agreeOutside_write (n := 4) (zeroed pageSize fresh) 0 (wordBytes_length p.parent).le
    have h₁ := h₀.trans (agreeOutside_write (n := 4) _ 4 (wordBytes_length p.leftSibling).le)
    have h₂ := h₁.trans (agreeOutside_write (n := 4) _ 8 (wordBytes_length p.rightSibling).le)
    exact h₂.trans (agreeOutside_write _ 12 (List.length_take_le _ _))
  have hslots : ∀ n ≤ p.numSlots, ∀ base, AgreeOutside (p.slotWrites base n)
      (p.writeHeader pageSize fresh)
      (walk p.writeSlot n (p.writeHeader pageSize fresh, base)).1 := by
    intro n
    induction n with
    | zero => exact fun _ base => AgreeOutside.refl _
    | succ n ih =>
      intro hn base
      have hoff := walk_offset (fun i hi => writeSlot_fills (p := p) (show i < p.numSlots by omega))
        (p.writeHeader pageSize fresh, base) (n := n)
      have hsplit : p.slotWrites base (n + 1) = p.slotWrites base n ++
          if p.isSlotUsed n then p.td.types.flatMap (FieldType.writes (base + n * p.td.getSize))
          else [] := by
        simp [slotWrites, List.range_succ]
      rw [walk_succ, hsplit]
      refine (ih (by omega) base).trans ?_
      cases hu : p.isSlotUsed n with
      | false =>
        simp only [writeSlot, hu]
        exact AgreeOutside.refl _
      | true =>
        obtain ⟨t, -, htd, -, hrow⟩ := p.tuple_of_used (show n < p.numSlots by omega) hu
        rw [writeSlot_used hrow, hoff, if_pos rfl, ← htd, ← t.typed]
        exact serializeFields_touches _ _ _
  exact hheader.trans (hslots _ (Nat.le_refl _) _)

end Footprint

/-- A page of this size and schema with this set of used slots stays inside its buffer when it is
read, from any bytes that hold such a page, and when it is written. -/
structure StaysInside (pageSize : ℕ) (td : TupleDesc) (used : ℕ → Bool) : Prop where
  bits : getMaxTuples pageSize td ≤ 8 * getHeaderSize pageSize td
  reads : ∀ data : Buffer,
    (∀ i < getMaxTuples pageSize td,
      Bitmap.get (read data 12 (getHeaderSize pageSize td)) i = used i) →
    (∀ i < getMaxTuples pageSize td, used i = true →
      ShortStrings data td.types (slotStart pageSize td i)) →
    ∀ s ∈ dataReads pageSize td data, s.Inside pageSize
  writes : ∀ p : BTreeLeafPage, p.td = td → p.numSlots = getMaxTuples pageSize td →
    (∀ i < p.numSlots, p.isSlotUsed i = used i) → ∀ s ∈ p.dataWrites pageSize, s.Inside pageSize

/-- Slot `i` ends inside the page: behind it there are twelve bytes of slots, which the header
has in excess. -/
def SlotInside (pageSize : ℕ) (td : TupleDesc) (i : ℕ) : Prop :=
  12 ≤ (getMaxTuples pageSize td - 1 - i) * td.getSize

section Inside

variable {pageSize i : ℕ} {td : TupleDesc} {used : ℕ → Bool}

theorem header_end (pageSize : ℕ) (td : TupleDesc) : 12 + getHeaderSize pageSize td +
    getMaxTuples pageSize td * td.getSize = 12 + pageSize := by
  have hle := layout pageSize td
  have hcomm := Nat.mul_comm td.getSize (getMaxTuples pageSize td)
  unfold getHeaderSize
  omega

theorem slot_end (hi : i < getMaxTuples pageSize td) : slotStart pageSize td i + td.getSize +
    (getMaxTuples pageSize td - 1 - i) * td.getSize = 12 + pageSize := by
  have hend := header_end pageSize td
  have hsum : i + 1 + (getMaxTuples pageSize td - 1 - i) = getMaxTuples pageSize td := by omega
  have hmul : i * td.getSize + td.getSize + (getMaxTuples pageSize td - 1 - i) * td.getSize =
      getMaxTuples pageSize td * td.getSize := by
    rw [← Nat.succ_mul, ← Nat.add_mul, Nat.succ_eq_add_one, hsum]
  unfold slotStart
  omega

theorem size_words (td : TupleDesc) : ∃ k, td.getSize = 4 * k := by
  unfold TupleDesc.getSize
  induction td.types with
  | nil => exact ⟨0, rfl⟩
  | cons t ts ih =>
    obtain ⟨n, hn⟩ := t.getLen_words
    obtain ⟨k, hk⟩ := ih
    refine ⟨n + k, ?_⟩
    simp only [List.map_cons, List.sum_cons]
    omega

/-- There is a buffer with any choice of used slots and strings as long as they get. -/
theorem exists_buffer (pageSize : ℕ) (td : TupleDesc) (used : ℕ → Bool) : ∃ data : Buffer,
    (∀ i < getMaxTuples pageSize td,
      Bitmap.get (read data 12 (getHeaderSize pageSize td)) i = used i) ∧
    LongStrings data (12 + getHeaderSize pageSize td) := by
  obtain ⟨h, hlen, hbits⟩ := Bitmap.exists_bits used (getHeaderSize pageSize td)
  let words : Buffer := fun j => if (j - (12 + getHeaderSize pageSize td)) % 4 = 0 then 127 else 0
  refine ⟨write words 12 h, ?_, ?_⟩
  · intro i hi
    have hroom := slots_le_header pageSize td
    rw [← hlen, read_write_self]
    exact hbits i (by omega)
  · intro k
    have hword : ∀ j < 4, write words 12 h (12 + getHeaderSize pageSize td + 4 * k + j) =
        if j = 0 then 127 else 0 := by
      intro j hj
      rw [write_outside (by omega)]
      have hsub : 12 + getHeaderSize pageSize td + 4 * k + j - (12 + getHeaderSize pageSize td) =
          4 * k + j := by omega
      have hmod : (4 * k + j) % 4 = j := by omega
      simp only [words, hsub, hmod]
    have h₀ := hword 0 (by omega)
    rw [Nat.add_zero] at h₀
    simp only [loadWord, h₀, hword 1 (by omega), hword 2 (by omega), hword 3 (by omega)]
    rfl

theorem StaysInside.header (h : StaysInside pageSize td used)
    (hcap : 1 ≤ getMaxTuples pageSize td) : 12 ≤ getMaxTuples pageSize td * td.getSize := by
  obtain ⟨data, hbits, hlong⟩ := exists_buffer pageSize td used
  obtain ⟨k, hk⟩ := size_words td
  have hshort : ∀ i, ShortStrings data td.types (slotStart pageSize td i) := by
    intro i
    have hstart : slotStart pageSize td i = 12 + getHeaderSize pageSize td + 4 * (i * k) := by
      rw [slotStart, hk]
      ring
    exact hstart ▸ hlong.short td.types (i * k)
  have hroom := layout pageSize td
  have hend := header_end pageSize td
  have hpos : 0 < getHeaderSize pageSize td := by
    unfold getHeaderSize
    omega
  have hheader := h.reads data hbits (fun i _ _ => hshort i) ⟨12, getHeaderSize pageSize td⟩
    (by simp [dataReads])
  have hle : 12 + getHeaderSize pageSize td ≤ pageSize := hheader.le hpos
  omega

/-- A used slot that is read inside the page has twelve bytes of slots behind it. -/
theorem StaysInside.slot (h : StaysInside pageSize td used) (hi : i < getMaxTuples pageSize td)
    (hu : used i = true) : SlotInside pageSize td i := by
  obtain ⟨data, hbits, hlong⟩ := exists_buffer pageSize td used
  obtain ⟨k, hk⟩ := size_words td
  have hstart : ∀ j, slotStart pageSize td j = 12 + getHeaderSize pageSize td + 4 * (j * k) := by
    intro j
    rw [slotStart, hk]
    ring
  have hinside := h.reads data hbits fun j _ _ => hstart j ▸ hlong.short td.types (j * k)
  have hend := slot_end hi
  have hne : td.types ≠ [] := by
    intro hnil
    have hheader := h.header (by omega)
    simp [TupleDesc.getSize, hnil] at hheader
  have hrow : ∀ s ∈ rowReads data td.types (12 + getHeaderSize pageSize td + 4 * (i * k)),
      s.Inside pageSize := by
    intro s hs
    apply hinside
    apply List.mem_append_right
    refine List.mem_flatMap.mpr ⟨i, List.mem_range.mpr hi, ?_⟩
    rw [if_pos ((hbits i hi).trans hu), hstart]
    exact hs
  have hlast := hlong.last hne (i * k) hrow
  rw [← hstart] at hlast
  change slotStart pageSize td i + td.getSize ≤ pageSize + 1 at hlast
  -- rows are made of words, so the one byte that the last string leaves does not matter
  have hwords : (getMaxTuples pageSize td - 1 - i) * td.getSize =
      4 * ((getMaxTuples pageSize td - 1 - i) * k) := by
    rw [hk]
    ring
  unfold SlotInside
  omega

/-- A leaf page stays inside its buffer exactly if the slots take at least twelve bytes, so that
the header does, and no slot is used that has less than twelve bytes of slots behind it. -/
theorem staysInside_iff (hcap : 1 ≤ getMaxTuples pageSize td) (used : ℕ → Bool) :
    StaysInside pageSize td used ↔ 12 ≤ getMaxTuples pageSize td * td.getSize ∧
      ∀ i < getMaxTuples pageSize td, used i = true → SlotInside pageSize td i := by
  have hend := header_end pageSize td
  constructor
  · intro h
    exact ⟨h.header hcap, fun i hi hu => h.slot hi hu⟩
  · rintro ⟨hheader, hslots⟩
    have hsize : 12 + getHeaderSize pageSize td ≤ pageSize := by omega
    have hslot : ∀ i < getMaxTuples pageSize td, used i = true →
        slotStart pageSize td i + td.getSize ≤ pageSize := by
      intro i hi hu
      have hslot := hslots i hi hu
      have hslotEnd := slot_end hi
      unfold SlotInside at hslot
      omega
    refine ⟨slots_le_header pageSize td, ?_, ?_⟩
    · intro data hbits hshort s hs
      rcases List.mem_append.mp hs with hs | hs
      · apply Span.inside_of_le
        simp only [List.mem_cons, List.not_mem_nil, or_false] at hs
        rcases hs with rfl | rfl | rfl | rfl <;> simp only <;> omega
      · obtain ⟨i, hi, hs⟩ := List.mem_flatMap.mp hs
        have hlt := List.mem_range.mp hi
        split at hs
        · rename_i hu
          rw [hbits i hlt] at hu
          exact rowReads_le (hshort i hlt hu) (hslot i hlt hu) s hs
        · cases hs
    · intro p htd hnum hbits s hs
      have hbase : pageSize - p.td.getSize * p.numSlots = getHeaderSize pageSize td := by
        rw [htd, hnum, getHeaderSize]
      apply Span.inside_of_le
      rcases List.mem_append.mp hs with hs | hs
      · simp only [headerWrites, hbase, List.mem_cons, List.not_mem_nil, or_false] at hs
        rcases hs with rfl | rfl | rfl | rfl <;> simp only <;> omega
      · simp only [slotWrites, hbase] at hs
        obtain ⟨i, hi, hs⟩ := List.mem_flatMap.mp hs
        have hlt := List.mem_range.mp hi
        split at hs
        · rename_i hu
          rw [hbits i hlt] at hu
          rw [hnum] at hlt
          obtain ⟨t, ht, hs⟩ := List.mem_flatMap.mp hs
          rw [htd] at ht hs
          have hle := t.writes_le (12 + getHeaderSize pageSize td + i * td.getSize) s hs
          have hfield : t.getLen ≤ td.getSize :=
            List.single_le_sum (fun _ _ => Nat.zero_le _) _ (List.mem_map_of_mem ht)
          have hinside := hslot i hlt hu
          unfold slotStart at hinside
          omega
        · cases hs

end Inside

theorem staysInside_iff_first : StaysInside 4096 (.ofInts 2) (fun i => i = 0) ↔
    12 ≤ getMaxTuples 4096 (.ofInts 2) * (TupleDesc.ofInts 2).getSize ∧
      ∀ i < getMaxTuples 4096 (.ofInts 2), decide (i = 0) = true → SlotInside 4096 (.ofInts 2) i :=
  staysInside_iff (by decide) fun i => i = 0

/-- A full page of 4096 bytes with 502 slots of two integers: the last slot ends at byte 4108. -/
theorem full_leaf_overruns : ¬ ∀ (pageSize : ℕ) (td : TupleDesc) (used : ℕ → Bool),
    1 ≤ getMaxTuples pageSize td → StaysInside pageSize td used := by
  intro hclaim
  have hinside := hclaim 4096 (.ofInts 2) (fun _ => true) (by decide)
  have hlast : SlotInside 4096 (.ofInts 2) 501 := hinside.slot (by decide) rfl
  have hnot : ¬ SlotInside 4096 (.ofInts 2) 501 := by
    unfold SlotInside
    decide
  exact hnot hlast

end BTreeLeafPage

namespace BTreeInternalPage

/-- `getMaxEntries` for a key type of serialized size `keySize`. -/
def entriesFor (pageSize keySize : ℕ) : ℕ :=
  ((pageSize - 12) * 8 + 1) / ((keySize + 4) * 8 + 1)

theorem maxEntries_eq (pageSize : ℕ) (td : TupleDesc) (key : ℕ) :
    maxEntries pageSize td key = entriesFor pageSize (keyLen td key) := rfl

/-- The bytes of the parent, the category, the bitmap, the keys and the children of a page with
this number of slots. -/
def layoutSize (slots keySize : ℕ) : ℕ :=
  4 + 4 + getHeaderSize slots + (slots - 1) * keySize + slots * 4

/-- Where `getPageData` ends. -/
def dataEnd (p : BTreeInternalPage) (pageSize : ℕ) (fresh : Buffer) : ℕ :=
  (walk p.writeChild p.numSlots (walk p.writeKey (p.numSlots - 1)
    (p.writeHeader pageSize fresh, 8 + getHeaderSize p.numSlots))).2

theorem walk_advance {step : Cursor → ℕ → Cursor} (size : ℕ)
    (h : ∀ c i, (step c i).2 = c.2 + size) (n : ℕ) (start : Cursor) :
    (walk step n start).2 = start.2 + n * size := by
  induction n with
  | zero => simp [walk]
  | succ n ih =>
    rw [walk_succ, h, ih]
    ring

theorem dataEnd_eq (p : BTreeInternalPage) (pageSize : ℕ) (fresh : Buffer) :
    p.dataEnd pageSize fresh = layoutSize p.numSlots (keyLen p.td p.keyField) := by
  rw [dataEnd, walk_advance 4 fun _ _ => rfl,
    walk_advance (keyLen p.td p.keyField) fun _ _ => rfl]
  rfl

theorem getHeaderSize_eq (slots : ℕ) : getHeaderSize slots = (slots + 7) / 8 := by
  unfold getHeaderSize
  dsimp only
  split
  · omega
  · omega

/-- The layout fits exactly if the bytes behind the fixed part are neither a whole number of eight
entries and their header byte, nor one entry more: then there is no room for the byte that the
bit of the extra child begins. -/
theorem layout_fits_iff {pageSize keySize : ℕ} (hsize : 12 ≤ pageSize) :
    (entriesFor pageSize keySize + 1 ≤ 8 * getHeaderSize (entriesFor pageSize keySize + 1) ∧
        layoutSize (entriesFor pageSize keySize + 1) keySize ≤ pageSize) ↔
      (pageSize - 12) % (8 * keySize + 33) ≠ 0 ∧
        (pageSize - 12) % (8 * keySize + 33) ≠ keySize + 4 := by
  have hbits := slots_le_header (entriesFor pageSize keySize + 1)
  have hdiv := Nat.div_add_mod (pageSize - 12) (8 * keySize + 33)
  have hmod := Nat.mod_lt (pageSize - 12) (show 0 < 8 * keySize + 33 by omega)
  generalize (pageSize - 12) / (8 * keySize + 33) = j at hdiv
  generalize (pageSize - 12) % (8 * keySize + 33) = r at hdiv hmod ⊢
  -- of the entries, `8 * j` come with whole header bytes and `k` are left
  have hentries : entriesFor pageSize keySize = (8 * r + 1) / (8 * keySize + 33) + 8 * j := by
    have hnum : (pageSize - 12) * 8 + 1 = 8 * r + 1 + (8 * keySize + 33) * (8 * j) := by
      rw [← hdiv]
      ring
    rw [entriesFor, hnum, show (keySize + 4) * 8 + 1 = 8 * keySize + 33 by ring]
    exact Nat.add_mul_div_left _ _ (by omega)
  have hlow := Nat.div_mul_le_self (8 * r + 1) (8 * keySize + 33)
  have hhigh := Nat.lt_div_mul_add (a := 8 * r + 1) (show 0 < 8 * keySize + 33 by omega)
  have hk : (8 * r + 1) / (8 * keySize + 33) < 8 := Nat.div_lt_of_lt_mul (by omega)
  generalize (8 * r + 1) / (8 * keySize + 33) = k at *
  have hheader : getHeaderSize (entriesFor pageSize keySize + 1) = j + 1 := by
    rw [getHeaderSize_eq, hentries]
    omega
  have hkeys : entriesFor pageSize keySize * keySize = k * keySize + 8 * (j * keySize) := by
    rw [hentries]
    ring
  have hj : (8 * keySize + 33) * j = 8 * (j * keySize) + 33 * j := by ring
  have hfits : layoutSize (entriesFor pageSize keySize + 1) keySize ≤ pageSize ↔
      k * (keySize + 4) + 1 ≤ r := by
    rw [layoutSize, hheader, Nat.add_sub_cancel, hkeys, Nat.mul_add]
    omega
  rw [hfits]
  interval_cases k <;> omega

theorem layout_fits_default :
    (entriesFor 4096 4 + 1 ≤ 8 * getHeaderSize (entriesFor 4096 4 + 1) ∧
        layoutSize (entriesFor 4096 4 + 1) 4 ≤ 4096) ↔
      (4096 - 12) % (8 * 4 + 33) ≠ 0 ∧ (4096 - 12) % (8 * 4 + 33) ≠ 4 + 4 :=
  layout_fits_iff (by decide)

/-- One entry of an integer key in a page of 20 bytes takes 21 bytes. -/
theorem one_entry_overruns : ¬ ∀ pageSize keySize : ℕ, 12 ≤ pageSize →
    1 ≤ entriesFor pageSize keySize →
    entriesFor pageSize keySize + 1 ≤ 8 * getHeaderSize (entriesFor pageSize keySize + 1) ∧
      layoutSize (entriesFor pageSize keySize + 1) keySize ≤ pageSize := by
  intro hclaim
  have hle := (hclaim 20 4 (by decide) (by decide)).2
  have hsize : layoutSize (entriesFor 20 4 + 1) 4 = 21 := by decide
  omega

end BTreeInternalPage

/-- The pages with a layout of their own: the root pointer page and the header pages of files
with pages of this size. -/
inductive FixedPage (pageSize : ℕ)
  | rootPtr (page : BTreeRootPtrPage)
  | header (page : BTreeHeaderPage)
      (sized : page.header.length = BTreeHeaderPage.getHeaderSize pageSize)

namespace FixedPage

variable {pageSize : ℕ}

/-- The buffer size of `readPage` and `writePage`. -/
def bufferSize : FixedPage pageSize → ℕ
  | .rootPtr _ => BTreeRootPtrPage.size
  | .header _ _ => pageSize

/-- The bytes that the constructor reads and `getPageData` writes. -/
def touches : FixedPage pageSize → List Span
  | .rootPtr _ => [⟨0, 4⟩, ⟨4, 4⟩, ⟨8, 4⟩]
  | .header _ _ => [⟨0, 4⟩, ⟨4, 4⟩, ⟨8, BTreeHeaderPage.getHeaderSize pageSize⟩]

def getPageData (p : FixedPage pageSize) (fresh : Buffer) : Buffer :=
  match p with
  | .rootPtr page => page.getPageData fresh
  | .header page _ => page.getPageData pageSize fresh

def ReadsBack (p : FixedPage pageSize) (data : Buffer) : Prop :=
  match p with
  | .rootPtr page => BTreeRootPtrPage.ofData page.pid data = page
  | .header page _ => BTreeHeaderPage.ofData pageSize page.pid data = page

def isHeader : FixedPage pageSize → Bool
  | .rootPtr _ => false
  | .header _ _ => true

/-- The codec of a page stays inside the buffer, and what the buffer holds is the page. -/
structure Lossless (p : FixedPage pageSize) : Prop where
  inside : ∀ s ∈ p.touches, s.Inside p.bufferSize
  readsBack : ∀ fresh data : Buffer,
    (∀ i < p.bufferSize, data i = p.getPageData fresh i) → p.ReadsBack data

theorem getPageData_touches (p : FixedPage pageSize) (fresh : Buffer) :
    AgreeOutside p.touches (zeroed p.bufferSize fresh) (p.getPageData fresh) := by
  cases p with
  | rootPtr page =>
    have h₀ := agreeOutside_write (n := 4) (zeroed BTreeRootPtrPage.size fresh) 0
      (wordBytes_length page.root).le
    have h₁ := h₀.trans (agreeOutside_write (n := 4) _ 4 (wordBytes_length page.header).le)
    exact h₁.trans (agreeOutside_write _ 8 (wordBytes_length page.rootCategory.code).le)
  | header page sized =>
    have h₀ := agreeOutside_write (n := 4) (zeroed pageSize fresh) 0
      (wordBytes_length page.nextPage).le
    have h₁ := h₀.trans (agreeOutside_write (n := 4) _ 4 (wordBytes_length page.prevPage).le)
    exact h₁.trans (agreeOutside_write _ 8 (List.length_take_le _ _))

theorem readsBack_agree (p : FixedPage pageSize) {data data' : Buffer}
    (h : Agree p.touches data data') : p.ReadsBack data ↔ p.ReadsBack data' := by
  have hword : ∀ off, ⟨off, 4⟩ ∈ p.touches → loadWord data off = loadWord data' off :=
    fun _ hs => h.loadWord hs
  cases p with
  | rootPtr page =>
    have h₀ := hword 0 (by simp [touches])
    have h₁ := hword 4 (by simp [touches])
    have h₂ := hword 8 (by simp [touches])
    simp only [ReadsBack, BTreeRootPtrPage.ofData, h₀, h₁, h₂]
  | header page sized =>
    have h₀ := hword 0 (by simp [touches])
    have h₁ := hword 4 (by simp [touches])
    have h₂ : read data 8 (BTreeHeaderPage.getHeaderSize pageSize) =
        read data' 8 (BTreeHeaderPage.getHeaderSize pageSize) := h.read (by simp [touches])
    simp only [ReadsBack, BTreeHeaderPage.ofData, h₀, h₁, h₂]

theorem header_readsBack {page : BTreeHeaderPage}
    (sized : page.header.length = BTreeHeaderPage.getHeaderSize pageSize) (fresh : Buffer) :
    BTreeHeaderPage.ofData pageSize page.pid (page.getPageData pageSize fresh) = page := by
  have htake : page.header.take (BTreeHeaderPage.getHeaderSize pageSize) = page.header :=
    List.take_of_length_le sized.le
  have hnext : loadWord (page.getPageData pageSize fresh) 0 = page.nextPage := by
    rw [BTreeHeaderPage.getPageData, loadWord_write_outside (by omega),
      loadWord_storeWord_outside (by omega), loadWord_storeWord]
  have hprev : loadWord (page.getPageData pageSize fresh) 4 = page.prevPage := by
    rw [BTreeHeaderPage.getPageData, loadWord_write_outside (by omega), loadWord_storeWord]
  have hheader : read (page.getPageData pageSize fresh) 8
      (BTreeHeaderPage.getHeaderSize pageSize) = page.header := by
    rw [BTreeHeaderPage.getPageData, htake, ← sized, read_write_self]
  rw [BTreeHeaderPage.ofData, hnext, hprev, hheader]

/-- The header pages are read back from their bytes; the root pointer page's category is copied
to and from three bytes that its buffer does not have. -/
theorem lossless_iff (hsize : 8 < pageSize) (p : FixedPage pageSize) :
    p.Lossless ↔ p.isHeader = true := by
  cases p with
  | rootPtr page =>
    simp only [isHeader, Bool.false_eq_true, iff_false]
    intro h
    have hlast := (h.inside ⟨8, 4⟩ (by simp [touches])).le (Nat.succ_pos _)
    simp [bufferSize, BTreeRootPtrPage.size] at hlast
  | header page sized =>
    have hheader : 8 + BTreeHeaderPage.getHeaderSize pageSize = pageSize := by
      unfold BTreeHeaderPage.getHeaderSize
      omega
    have hinside : ∀ s ∈ (header page sized).touches, s.Inside pageSize := by
      intro s hs
      apply Span.inside_of_le
      simp only [touches, List.mem_cons, List.not_mem_nil, or_false] at hs
      rcases hs with rfl | rfl | rfl <;> simp only <;> omega
    refine ⟨fun _ => rfl, fun _ => ⟨hinside, ?_⟩⟩
    intro fresh data hdata
    have hagree : Agree (header page sized).touches data (page.getPageData pageSize fresh) :=
      fun s hs i hi => hdata i (hinside s hs i hi)
    exact (readsBack_agree _ hagree).mpr (header_readsBack sized fresh)

theorem lossless_iff_header :
    (header ⟨⟨7, 1, .header⟩, 2, 0, [0xFF]⟩ rfl : FixedPage 9).Lossless ↔
      (header ⟨⟨7, 1, .header⟩, 2, 0, [0xFF]⟩ rfl : FixedPage 9).isHeader = true :=
  lossless_iff (by decide) _

/-- A root pointer page does not fit in its nine bytes. -/
theorem rootPtr_overruns : ¬ ∀ (pageSize : ℕ), 8 < pageSize →
    ∀ p : FixedPage pageSize, p.Lossless := by
  intro hclaim
  have h := hclaim 4096 (by decide) (rootPtr ⟨⟨7, 0, .rootPtr⟩, 1, 0, .leaf⟩)
  have hlast := (h.inside ⟨8, 4⟩ (by simp [touches])).le (Nat.succ_pos _)
  simp [bufferSize, BTreeRootPtrPage.size] at hlast

end FixedPage

end PagedDb
