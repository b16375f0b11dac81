import PagedDb.Foundation.Bitmap
import PagedDb.Foundation.Slots
import PagedDb.Storage.TupleCodec

/-!
# Pages of tuples

Heap pages and leaf pages of a B+ tree keep tuples the same way: a bitmap over
numbered slots and an array of tuples. The view of such a page is the partial
map from slots to rows; the operations are stated on that view.
-/

namespace PagedDb

open Memory

abbrev Row := List Field

/-- The bitmap and the slots of a page whose id `ι` is a page id by `page`. The last three
members are what every constructor and operation keeps: the header has a bit for each slot, and
a used slot holds a tuple of the page's schema that knows where it is stored. -/
structure TuplePage {ι : Type} (page : ι → PageId) where
  pid : ι
  td : TupleDesc
  header : List UInt8
  tuples : List Tuple
  numSlots : ℕ
  header_bits : numSlots ≤ 8 * header.length
  tuples_length : tuples.length = numSlots
  stored : ∀ i t, tuples[i]? = some t → Bitmap.get header i = true →
    t.td = td ∧ t.rid = some ⟨page pid, i⟩
  deriving DecidableEq

namespace TuplePage

variable {ι : Type} {page : ι → PageId}

def isSlotUsed (p : TuplePage page) (i : ℕ) : Bool := Bitmap.get p.header i

def getNumEmptySlots (p : TuplePage page) : ℕ :=
  ((List.range p.numSlots).filter fun i => !p.isSlotUsed i).length

/-- The tuple in slot `i`, if that slot is used. -/
def tuple? (p : TuplePage page) (i : ℕ) : Option Tuple :=
  if p.isSlotUsed i then p.tuples[i]? else none

/-- The row in slot `i`, if that slot is used. -/
def row? (p : TuplePage page) (i : ℕ) : Option Row :=
  if p.isSlotUsed i then p.tuples[i]?.map Tuple.fields else none

def storedTuples (p : TuplePage page) : List Tuple := Slots.segment p.tuple? 0 p.numSlots

def rows (p : TuplePage page) : List Row := Slots.segment p.row? 0 p.numSlots

def usedSlots (p : TuplePage page) : List RecordId :=
  ((List.range p.numSlots).filter p.isSlotUsed).map fun i => ⟨page p.pid, i⟩

theorem slot_in_header (p : TuplePage page) {i : ℕ} (hi : i < p.numSlots) :
    i / 8 < p.header.length := by
  have := p.header_bits
  omega

theorem row?_eq_map (p : TuplePage page) (i : ℕ) : p.row? i = (p.tuple? i).map Tuple.fields := by
  unfold row? tuple?
  split <;> rfl

theorem row?_of_le (p : TuplePage page) {i : ℕ} (hi : p.numSlots ≤ i) : p.row? i = none := by
  have hnone : p.tuples[i]? = none := by
    rw [List.getElem?_eq_none_iff, p.tuples_length]
    exact hi
  simp [row?, hnone]

theorem tuple?_isSome (p : TuplePage page) {i : ℕ} (hi : i < p.numSlots) :
    (p.tuple? i).isSome = p.isSlotUsed i := by
  have hlt : i < p.tuples.length := by rwa [p.tuples_length]
  cases hu : p.isSlotUsed i <;> simp [tuple?, hu, List.getElem?_eq_getElem hlt]

theorem of_tuple? (p : TuplePage page) {i : ℕ} {t : Tuple} (h : p.tuple? i = some t) :
    t.td = p.td ∧ t.rid = some ⟨page p.pid, i⟩ := by
  unfold tuple? at h
  split at h
  · exact p.stored i t h ‹_›
  · cases h

theorem row?_isSome (p : TuplePage page) {i : ℕ} (hi : i < p.numSlots) :
    (p.row? i).isSome = p.isSlotUsed i := by
  rw [p.row?_eq_map, Option.isSome_map, p.tuple?_isSome hi]

theorem tuple_of_used (p : TuplePage page) {i : ℕ} (hi : i < p.numSlots)
    (hu : p.isSlotUsed i = true) :
    ∃ t, p.tuples[i]? = some t ∧ t.td = p.td ∧ t.rid = some ⟨page p.pid, i⟩ ∧
      p.row? i = some t.fields := by
  have hlt : i < p.tuples.length := by rwa [p.tuples_length]
  have hget : p.tuples[i]? = some p.tuples[i] := List.getElem?_eq_getElem hlt
  obtain ⟨htd, hrid⟩ := p.stored i _ hget hu
  exact ⟨p.tuples[i], hget, htd, hrid, by simp [row?, hu, hget]⟩

theorem row_types (p : TuplePage page) {i : ℕ} {row : Row} (hrow : p.row? i = some row) :
    row.map Field.getType = p.td.types ∧ fieldsSize row = p.td.getSize := by
  have hi : i < p.numSlots := by
    by_contra hge
    rw [p.row?_of_le (by omega)] at hrow
    cases hrow
  have hu : p.isSlotUsed i = true := by
    rw [← p.row?_isSome hi, hrow]
    rfl
  obtain ⟨t, -, htd, -, hrow'⟩ := p.tuple_of_used hi hu
  obtain rfl : row = t.fields := Option.some.inj (hrow.symm.trans hrow')
  have htypes : t.fields.map Field.getType = p.td.types := by rw [t.typed, htd]
  exact ⟨htypes, fieldsSize_eq htypes⟩

/-- A stored tuple is its row and its place: pages with one id, one schema and the same rows
store the same tuples. -/
theorem tuple?_eq_of_row? {p q : TuplePage page} (hpid : q.pid = p.pid) (htd : q.td = p.td)
    (hrow : q.row? = p.row?) : q.tuple? = p.tuple? := by
  funext i
  have hrow := congrFun hrow i
  rw [row?_eq_map, row?_eq_map] at hrow
  cases ht : p.tuple? i with
  | none => simpa [ht] using hrow
  | some t =>
    rw [ht] at hrow
    obtain ⟨u, hu, hfields⟩ := Option.map_eq_some_iff.mp hrow
    obtain ⟨htd', hrid⟩ := p.of_tuple? ht
    obtain ⟨hutd, hurid⟩ := q.of_tuple? hu
    rw [hu]
    congr 1
    exact Tuple.ext (by rw [hutd, htd', htd]) hfields (by rw [hurid, hrid, hpid])

theorem storedTuples_fields (p : TuplePage page) : p.storedTuples.map Tuple.fields = p.rows := by
  rw [storedTuples, rows, Slots.segment, Slots.segment, List.map_filterMap]
  apply List.filterMap_congr
  intro i _
  exact (p.row?_eq_map i).symm

theorem storedTuples_rid (p : TuplePage page) :
    p.storedTuples.map Tuple.rid = p.usedSlots.map some := by
  rw [storedTuples, usedSlots, Slots.segment, List.map_filterMap, List.map_map, Nat.sub_zero,
    ← List.range_eq_range', ← List.filterMap_eq_map, List.filterMap_filter]
  apply List.filterMap_congr
  intro i hi
  have hlt := List.mem_range.mp hi
  cases hu : p.isSlotUsed i with
  | false => simp [tuple?, hu]
  | true =>
    obtain ⟨t, ht, -, hrid, -⟩ := p.tuple_of_used hlt hu
    simp [tuple?, hu, ht, hrid]

theorem storedTuples_ne_nil {p : TuplePage page} :
    p.storedTuples ≠ [] ↔ ∃ i < p.numSlots, p.isSlotUsed i = true := by
  constructor
  · intro hne
    obtain ⟨t, ht⟩ := List.exists_mem_of_ne_nil _ hne
    obtain ⟨i, -, hi, hti⟩ := Slots.mem_segment.mp ht
    refine ⟨i, hi, ?_⟩
    rw [← p.tuple?_isSome hi, hti]
    rfl
  · rintro ⟨i, hi, hu⟩
    rw [← p.tuple?_isSome hi] at hu
    obtain ⟨t, ht⟩ := Option.isSome_iff_exists.mp hu
    exact List.ne_nil_of_mem (Slots.mem_segment.mpr ⟨i, Nat.zero_le i, hi, ht⟩)

theorem search_used (p : TuplePage page) {i j : ℕ} (hi : i ≤ p.numSlots)
    (hj : Slots.search p.isSlotUsed (p.numSlots - i) i = j) :
    i ≤ j ∧ j ≤ p.numSlots ∧ (j < p.numSlots → p.isSlotUsed j = true) ∧
      Slots.segment p.tuple? i p.numSlots = Slots.segment p.tuple? j p.numSlots := by
  subst hj
  have hlen : i + (p.numSlots - i) = p.numSlots := by omega
  have hle := Slots.search_le p.isSlotUsed (p.numSlots - i) i
  have hskip := Slots.segment_search (i := i) (n := p.numSlots - i) (f := p.tuple?)
    fun j hj => (p.tuple?_isSome (hlen ▸ hj)).symm
  rw [hlen] at hle hskip
  refine ⟨Slots.le_search .., hle, fun hlt => Slots.search_stop ?_, hskip⟩
  rwa [hlen]

theorem segment_used (p : TuplePage page) {i : ℕ} (hi : i < p.numSlots)
    (hu : p.isSlotUsed i = true) : ∃ t, p.tuple? i = some t ∧
      Slots.segment p.tuple? i p.numSlots = t :: Slots.segment p.tuple? (i + 1) p.numSlots := by
  obtain ⟨t, ht⟩ := Option.isSome_iff_exists.mp ((p.tuple?_isSome hi).trans hu)
  refine ⟨t, ht, ?_⟩
  rw [Slots.segment_cons _ hi, ht]
  rfl

theorem rows_length (p : TuplePage page) :
    p.rows.length = ((List.range p.numSlots).filter p.isSlotUsed).length := by
  rw [rows, Slots.segment_length]
  congr 1
  apply List.filter_congr
  intro i hi
  exact p.row?_isSome (List.mem_range.mp hi)

theorem getNumEmptySlots_pos {p : TuplePage page} :
    0 < p.getNumEmptySlots ↔ ∃ i < p.numSlots, p.isSlotUsed i = false := by
  simp [getNumEmptySlots, List.length_pos_iff_exists_mem]

theorem rows_length_add_empty (p : TuplePage page) :
    p.rows.length + p.getNumEmptySlots = p.numSlots := by
  have h := List.length_eq_length_filter_add (l := List.range p.numSlots) p.isSlotUsed
  rw [List.length_range] at h
  rw [p.rows_length, getNumEmptySlots]
  exact h.symm

/-- Mark slot `i` used and put the tuple there. -/
def put (p : TuplePage page) (i : ℕ) (t : Tuple) (htd : t.td = p.td) : TuplePage page where
  pid := p.pid
  td := p.td
  header := Bitmap.set p.header i true
  tuples := p.tuples.set i (t.setRecordId (some ⟨page p.pid, i⟩))
  numSlots := p.numSlots
  header_bits := by simpa using p.header_bits
  tuples_length := by simpa using p.tuples_length
  stored := by
    intro j u hu hbit
    by_cases hij : i = j
    · subst hij
      rw [List.getElem?_set_self'] at hu
      obtain ⟨_, -, rfl⟩ := Option.map_eq_some_iff.mp hu
      exact ⟨htd, rfl⟩
    · rw [List.getElem?_set_ne hij] at hu
      rw [Bitmap.get_set_ne hij] at hbit
      exact p.stored j u hu hbit

/-- Mark slot `i` empty; the tuple stays in the array. -/
def free (p : TuplePage page) (i : ℕ) : TuplePage page where
  pid := p.pid
  td := p.td
  header := Bitmap.set p.header i false
  tuples := p.tuples
  numSlots := p.numSlots
  header_bits := by simpa using p.header_bits
  tuples_length := p.tuples_length
  stored := by
    intro j u hu hbit
    by_cases hij : i = j
    · subst hij
      have hj : i < p.tuples.length := (List.getElem?_eq_some_iff.mp hu).1
      rw [p.tuples_length] at hj
      rw [Bitmap.get_set_self (p.slot_in_header hj)] at hbit
      cases hbit
    · rw [Bitmap.get_set_ne hij] at hbit
      exact p.stored j u hu hbit

@[simp] theorem put_pid (p : TuplePage page) (i : ℕ) (t : Tuple) (htd : t.td = p.td) :
    (p.put i t htd).pid = p.pid := rfl

@[simp] theorem put_td (p : TuplePage page) (i : ℕ) (t : Tuple) (htd : t.td = p.td) :
    (p.put i t htd).td = p.td := rfl

@[simp] theorem put_numSlots (p : TuplePage page) (i : ℕ) (t : Tuple) (htd : t.td = p.td) :
    (p.put i t htd).numSlots = p.numSlots := rfl

@[simp] theorem put_header_length (p : TuplePage page) (i : ℕ) (t : Tuple) (htd : t.td = p.td) :
    (p.put i t htd).header.length = p.header.length := by
  simp [put]

@[simp] theorem free_pid (p : TuplePage page) (i : ℕ) : (p.free i).pid = p.pid := rfl

@[simp] theorem free_td (p : TuplePage page) (i : ℕ) : (p.free i).td = p.td := rfl

@[simp] theorem free_numSlots (p : TuplePage page) (i : ℕ) : (p.free i).numSlots = p.numSlots := rfl

theorem put_isSlotUsed (p : TuplePage page) {i j : ℕ} (t : Tuple) (htd : t.td = p.td)
    (hi : i < p.numSlots) : (p.put i t htd).isSlotUsed j = if i = j then true else p.isSlotUsed j :=
  Bitmap.get_set (p.slot_in_header hi)

theorem free_isSlotUsed (p : TuplePage page) {i j : ℕ} (hi : i < p.numSlots) :
    (p.free i).isSlotUsed j = if i = j then false else p.isSlotUsed j :=
  Bitmap.get_set (p.slot_in_header hi)

theorem put_row? (p : TuplePage page) {i : ℕ} (t : Tuple) (htd : t.td = p.td)
    (hi : i < p.numSlots) : (p.put i t htd).row? = Function.update p.row? i (some t.fields) := by
  funext j
  rw [row?, put_isSlotUsed p t htd hi]
  by_cases hij : i = j
  · subst hij
    have hlt : i < p.tuples.length := by rwa [p.tuples_length]
    simp [put, hlt]
  · rw [Function.update_of_ne (Ne.symm hij), if_neg hij, put, List.getElem?_set_ne hij, row?]

theorem free_row? (p : TuplePage page) {i : ℕ} (hi : i < p.numSlots) :
    (p.free i).row? = Function.update p.row? i none := by
  funext j
  rw [row?, free_isSlotUsed p hi]
  by_cases hij : i = j
  · subst hij
    simp
  · rw [Function.update_of_ne (Ne.symm hij), if_neg hij, free, row?]

theorem put_tuple? (p : TuplePage page) {i : ℕ} (t : Tuple) (htd : t.td = p.td)
    (hi : i < p.numSlots) : (p.put i t htd).tuple? =
      Function.update p.tuple? i (some (t.setRecordId (some ⟨page p.pid, i⟩))) := by
  funext j
  rw [tuple?, put_isSlotUsed p t htd hi]
  by_cases hij : i = j
  · subst hij
    have hlt : i < p.tuples.length := by rwa [p.tuples_length]
    simp [put, hlt]
  · simp [Function.update_of_ne (Ne.symm hij), hij, put, tuple?]

theorem free_tuple? (p : TuplePage page) {i : ℕ} (hi : i < p.numSlots) :
    (p.free i).tuple? = Function.update p.tuple? i none := by
  funext j
  rw [tuple?, free_isSlotUsed p hi]
  by_cases hij : i = j
  · subst hij
    simp
  · simp [Function.update_of_ne (Ne.symm hij), hij, free, tuple?]

theorem put_rows_perm (p : TuplePage page) {i : ℕ} (t : Tuple) (htd : t.td = p.td)
    (hi : i < p.numSlots) (hempty : p.row? i = none) :
    (p.put i t htd).rows.Perm (t.fields :: p.rows) := by
  have hback : p.row? = Function.update (p.put i t htd).row? i none := by
    rw [put_row? p t htd hi, Function.update_idem, ← hempty, Function.update_eq_self]
  have hat : (p.put i t htd).row? i = some t.fields := by
    rw [put_row? p t htd hi, Function.update_self]
  rw [rows, rows, put_numSlots, Slots.segment_at hi hat, hback, Slots.segment_update_none hi]
  exact List.perm_middle

/-- The loop of the constructors over the slots from offset `base` on: a used slot is read, the
others keep the default tuple. -/
def readTuples (td : TupleDesc) (pid : PageId) (header : List UInt8) (numSlots : ℕ)
    (data : Buffer) (base : ℕ) (stack : Buffer) : List Tuple :=
  (List.range numSlots).map fun i =>
    if Bitmap.get header i then readTuple td pid data (base + i * td.getSize) stack i else .empty

/-- The page with this bitmap and the slots from offset `base` on. -/
def ofBytes (pid : ι) (td : TupleDesc) (header : List UInt8) (numSlots : ℕ)
    (header_bits : numSlots ≤ 8 * header.length) (data : Buffer) (base : ℕ) (stack : Buffer) :
    TuplePage page where
  pid
  td
  header
  tuples := readTuples td (page pid) header numSlots data base stack
  numSlots
  header_bits
  tuples_length := by simp [readTuples]
  stored := by
    intro i t ht hbit
    rw [readTuples, List.getElem?_map] at ht
    obtain ⟨j, hj, rfl⟩ := Option.map_eq_some_iff.mp ht
    obtain ⟨-, rfl⟩ := List.getElem?_eq_some_iff.mp hj
    simp only [List.getElem_range, hbit, if_true]
    exact ⟨rfl, rfl⟩

@[simp] theorem ofBytes_isSlotUsed {pid : ι} {td : TupleDesc} {header : List UInt8} {numSlots : ℕ}
    {header_bits : numSlots ≤ 8 * header.length} {data stack : Buffer} {base i : ℕ} :
    (ofBytes pid td header numSlots header_bits data base stack : TuplePage page).isSlotUsed i =
      Bitmap.get header i := rfl

theorem ofBytes_row? {pid : ι} {td : TupleDesc} {header : List UInt8} {numSlots : ℕ}
    {header_bits : numSlots ≤ 8 * header.length} {data stack : Buffer} {base i : ℕ}
    (hi : i < numSlots) :
    (ofBytes pid td header numSlots header_bits data base stack : TuplePage page).row? i =
      if Bitmap.get header i then some (parseFields data stack td.types (base + i * td.getSize))
      else none := by
  have hread :
      (ofBytes pid td header numSlots header_bits data base stack : TuplePage page).tuples[i]? =
        some (if Bitmap.get header i then
          readTuple td (page pid) data (base + i * td.getSize) stack i else .empty) := by
    simp [ofBytes, readTuples, hi]
  rw [row?, hread]
  change (if Bitmap.get header i = true then _ else _) = _
  split
  · rfl
  · rfl

end TuplePage

theorem two_in_byte : 2 ≤ 8 * ([1] : List UInt8).length := by decide

end PagedDb
