import PagedDb.Foundation.Layout
import PagedDb.BTree.InternalPage

/-!
# The bytes of an internal page

The encoder writes parent, category, bitmap, keys and children. The decoder
reads the first four of them the same way, but takes every child from the word
that holds the parent and then sets the category to leaf pages.
-/

namespace PagedDb

open Memory Layout

namespace BTreeInternalPage

/-- `getHeaderSize` for a number of slots. -/
def getHeaderSize (slotsPerPage : ℕ) : ℕ :=
  let hb := slotsPerPage / 8
  if hb * 8 < slotsPerPage then hb + 1 else hb

theorem slots_le_header (slotsPerPage : ℕ) : slotsPerPage ≤ 8 * getHeaderSize slotsPerPage := by
  unfold getHeaderSize
  dsimp only
  split
  · omega
  · omega

theorem keys_inside {pageSize : ℕ} {td : TupleDesc} {key : ℕ} (hcap : 1 ≤ maxEntries pageSize td key) :
    8 + getHeaderSize (maxEntries pageSize td key + 1) +
      maxEntries pageSize td key * keyLen td key ≤ pageSize := by
  have hdiv : maxEntries pageSize td key * ((keyLen td key + 4) * 8 + 1) ≤
      (pageSize - 12) * 8 + 1 := Nat.div_mul_le_self _ _
  have hexpand : maxEntries pageSize td key * ((keyLen td key + 4) * 8 + 1) =
      8 * (maxEntries pageSize td key * keyLen td key) + 33 * maxEntries pageSize td key := by ring
  have hheader : 8 * getHeaderSize (maxEntries pageSize td key + 1) ≤
      maxEntries pageSize td key + 8 := by
    unfold getHeaderSize
    dsimp only
    split
    · omega
    · omega
  omega

/-- The constructor. -/
def ofData (pageSize : ℕ) (td : TupleDesc) (id : BTreePageId) (key : ℕ) (data stack : Buffer) :
    BTreeInternalPage where
  pid := id
  td := td
  keyField := key
  parent := loadWord data 0
  -- the category is read from the second word and then overwritten
  childCategory := .leaf
  header := read data 8 (getHeaderSize (maxEntries pageSize td key + 1))
  keys := none :: (List.range (maxEntries pageSize td key)).map fun i =>
    (td.getFieldType key).map (Field.parse data
      (8 + getHeaderSize (maxEntries pageSize td key + 1) + i * keyLen td key) stack)
  children := List.replicate (maxEntries pageSize td key + 1) (loadWord data 0)
  numSlots := maxEntries pageSize td key + 1
  header_bits := by
    rw [read_length]
    exact slots_le_header _
  keys_length := by simp
  children_length := by simp

/-- One iteration of `getPageData`'s loop over the keys, which starts with slot 1. -/
def writeKey (p : BTreeInternalPage) (c : Cursor) (i : ℕ) : Cursor :=
  (if p.isSlotUsed (i + 1) then
    write c.1 c.2 (((p.keyAt (i + 1)).map Field.serialize).getD []) else c.1,
    c.2 + keyLen p.td p.keyField)

/-- One iteration of `getPageData`'s loop over the children. -/
def writeChild (p : BTreeInternalPage) (c : Cursor) (i : ℕ) : Cursor :=
  (if p.isSlotUsed i then storeWord c.1 c.2 (p.childAt i) else c.1, c.2 + 4)

/-- What `getPageData` writes in front of the keys. -/
def writeHeader (p : BTreeInternalPage) (pageSize : ℕ) (fresh : Buffer) : Buffer :=
  let data := storeWord (zeroed pageSize fresh) 0 p.parent
  let data := storeWord data 4 p.childCategory.code
  write data 8 (p.header.take (getHeaderSize p.numSlots))

def getPageData (p : BTreeInternalPage) (pageSize : ℕ) (fresh : Buffer) : Buffer :=
  let c := walk p.writeKey (p.numSlots - 1)
    (p.writeHeader pageSize fresh, 8 + getHeaderSize p.numSlots)
  (walk p.writeChild p.numSlots c).1

/-- The pages that insertions make of an empty page, whatever its parent and its category are. -/
inductive Reachable (pageSize : ℕ) (td : TupleDesc) (key : ℕ) : BTreeInternalPage → Prop
  | empty {p : BTreeInternalPage} : p.td = td → p.keyField = key →
      p.numSlots = maxEntries pageSize td key + 1 →
      p.header.length = getHeaderSize (maxEntries pageSize td key + 1) →
      (∀ i, p.slot? i = none) → Reachable pageSize td key p
  | insert {p q : BTreeInternalPage} {e : BTreeEntry} : Reachable pageSize td key p →
      p.insertEntry e = .ok q → Reachable pageSize td key q
  | reparent {p : BTreeInternalPage} (parent : Int32) : Reachable pageSize td key p →
      Reachable pageSize td key { p with parent }

/-- A page of this size, schema and key field whose used slots but the first have a key. -/
structure Shaped (pageSize : ℕ) (td : TupleDesc) (key : ℕ) (p : BTreeInternalPage) : Prop where
  schema : p.td = td
  field : p.keyField = key
  slots : p.numSlots = maxEntries pageSize td key + 1
  header : p.header.length = getHeaderSize (maxEntries pageSize td key + 1)
  keyed : ∀ i key' child, 0 < i → p.slot? i = some (key', child) →
    ∃ k, key' = some k ∧ td.getFieldType key = some k.getType

variable {pageSize key : ℕ} {td : TupleDesc} {p q : BTreeInternalPage} {fresh data stack : Buffer}

theorem Shaped.insertFirst (h : Shaped pageSize td key p) {k : Field}
    (hk : td.getFieldType key = some k.getType) (left right : Int32) :
    Shaped pageSize td key (p.insertFirst k left right) := by
  refine ⟨h.schema, h.field, h.slots, ?_, ?_⟩
  · simpa [BTreeInternalPage.insertFirst, markSlotUsed, setKey, setChild] using h.header
  · intro i key' child hi hslot
    obtain ⟨hlt, hu, rfl, -⟩ := (slot?_eq_some _).mp hslot
    by_cases hone : i = 1
    · subst hone
      refine ⟨k, ?_, hk⟩
      have hlen : 1 < p.keys.length := by
        rw [p.keys_length]
        exact hlt
      simp [keyAt, BTreeInternalPage.insertFirst, markSlotUsed, setKey, setChild, hlen]
    · have hkey : (p.insertFirst k left right).keyAt i = p.keyAt i := by
        simp [keyAt, BTreeInternalPage.insertFirst, markSlotUsed, setKey, setChild,
          List.getElem?_set_ne (Ne.symm hone)]
      have hused : p.isSlotUsed i = true := by
        change Bitmap.get (Bitmap.set (Bitmap.set p.header 0 true) 1 true) i = true at hu
        rwa [Bitmap.get_set_ne (Ne.symm hone), Bitmap.get_set_ne (by omega)] at hu
      rw [hkey]
      exact h.keyed i _ (p.childAt i) hi (p.slot?_of_used hlt hused)

theorem Shaped.insertMore (h : Shaped pageSize td key p) {k : Field}
    (hk : td.getFieldType key = some k.getType) {left right : Int32}
    (hq : p.insertMore k left right = .ok q) : Shaped pageSize td key q := by
  obtain ⟨e, pos, p₁, -, hsame, he, hlt, hempty, hpos, hle, hne, rfl⟩ := insertMore_cases hq
  have hkeeps : ∀ {τ : Type} (part : BTreeInternalPage → τ),
      (∀ (r : BTreeInternalPage) a b, part (r.moveEntry a b) = part r) →
      part (Slots.makeRoom moveEntry p₁ e pos) = part p₁ := fun part hpart =>
    Slots.makeRoom_keeps hpart p₁ e pos
  have hnum := hsame.numSlots
  have hview := @makeRoom_put_slot? p₁ e pos (by omega) (by omega) hne (some k) right
  refine ⟨?_, ?_, ?_, ?_, ?_⟩
  · change (Slots.makeRoom moveEntry p₁ e pos).td = td
    rw [hkeeps (fun r => r.td) fun r a b => (r.moveEntry_keeps a b).2.2.2.1, hsame.td, h.schema]
  · change (Slots.makeRoom moveEntry p₁ e pos).keyField = key
    rw [hkeeps (fun r => r.keyField) fun r a b => (r.moveEntry_keeps a b).2.2.2.2.1, hsame.keyField,
      h.field]
  · change (Slots.makeRoom moveEntry p₁ e pos).numSlots = _
    rw [hkeeps (fun r => r.numSlots) fun r a b => (r.moveEntry_keeps a b).1, hsame.numSlots, h.slots]
  · change (Bitmap.set (Slots.makeRoom moveEntry p₁ e pos).header _ true).length = _
    rw [Bitmap.set_length, hkeeps (fun r => r.header.length) fun r a b => (r.moveEntry_keeps a b).2.1,
      hsame.header, h.header]
  · intro i key' child hi hslot
    rw [hview] at hslot
    have hole : p₁.slot? e = none := (slot?_eq_none _).mpr (.inr (by rw [hsame.isSlotUsed, hempty]))
    rcases Slots.insertAt_eq_some hole hslot with heq | ⟨j, hj, hold⟩
    · cases heq
      exact ⟨k, rfl, hk⟩
    · obtain ⟨hjlt, hused, rfl, -⟩ := (slot?_eq_some _).mp hold
      rw [hsame.isSlotUsed] at hused
      rw [hsame.keyAt]
      refine h.keyed j _ (p.childAt j) (by omega) (p.slot?_of_used (by omega) hused)

theorem Shaped.category (h : Shaped pageSize td key p) (c : BTreePageType) :
    Shaped pageSize td key { p with childCategory := c } :=
  ⟨h.schema, h.field, h.slots, h.header, h.keyed⟩

/-- Every reachable page has the shape, and a key of the right type in every slot but the first;
induction on how the page was made. -/
theorem Reachable.shaped (h : Reachable pageSize td key p) : Shaped pageSize td key p := by
  induction h with
  | empty htd hkey hslots hheader hempty =>
    refine ⟨htd, hkey, hslots, hheader, ?_⟩
    intro i key' child _ hslot
    rw [hempty i] at hslot
    cases hslot
  | insert _ hins ih =>
    obtain ⟨k, left, right, p₁, -, -, -, htype, hcheck, -, hcase⟩ := insertEntry_cases hins
    obtain ⟨rfl, -, -⟩ := checkCategory_ok hcheck
    rw [ih.schema, ih.field] at htype
    rcases hcase with ⟨-, rfl⟩ | hmore
    · exact (ih.category left.type).insertFirst htype _ _
    · exact (ih.category left.type).insertMore htype hmore
  | reparent parent _ ih => exact ⟨ih.schema, ih.field, ih.slots, ih.header, ih.keyed⟩

theorem writeKey_fills (h : Shaped pageSize td key p) {i : ℕ} (hi : i < p.numSlots - 1) :
    Fills p.writeKey (keyLen td key) i := by
  constructor
  · intro c
    rw [writeKey, h.schema, h.field]
  · intro c j hj
    unfold writeKey
    by_cases hu : p.isSlotUsed (i + 1) = true
    · obtain ⟨k, hk, htype⟩ := h.keyed (i + 1) _ _ (by omega) (p.slot?_of_used (by omega) hu)
      have hlen : k.serialize.length ≤ keyLen td key := by
        rw [keyLen, htype]
        exact k.serialize_length_le
      rw [if_pos hu, hk]
      exact write_outside (by
        change j < c.2 ∨ c.2 + k.serialize.length ≤ j
        omega)
    · rw [if_neg hu]

theorem writeChild_fills (p : BTreeInternalPage) (i : ℕ) : Fills p.writeChild 4 i := by
  constructor
  · intro c
    rfl
  · intro c j hj
    unfold writeChild
    split
    · exact storeWord_outside hj
    · rfl

theorem getPageData_front (h : Shaped pageSize td key p) {j : ℕ}
    (hj : j < 8 + getHeaderSize p.numSlots + (p.numSlots - 1) * keyLen td key) :
    p.getPageData pageSize fresh j = (walk p.writeKey (p.numSlots - 1)
      (p.writeHeader pageSize fresh, 8 + getHeaderSize p.numSlots)).1 j := by
  rw [getPageData]
  apply walk_outside fun i _ => p.writeChild_fills i
  left
  rw [walk_offset fun _ => writeKey_fills h]
  exact hj

theorem getPageData_header (h : Shaped pageSize td key p) {j : ℕ}
    (hj : j < 8 + getHeaderSize p.numSlots) :
    p.getPageData pageSize fresh j = p.writeHeader pageSize fresh j := by
  rw [getPageData_front h (by omega), walk_outside (fun _ => writeKey_fills h) (.inl hj)]

theorem getPageData_key (h : Shaped pageSize td key p) {i : ℕ} {k : Field} (hk : k.RoundTrips)
    (hi : i + 1 < p.numSlots) (hu : p.isSlotUsed (i + 1) = true) (hkey : p.keyAt (i + 1) = some k)
    (htype : td.getFieldType key = some k.getType) {j : ℕ} (hj : j < keyLen td key) :
    p.getPageData pageSize fresh (8 + getHeaderSize p.numSlots + i * keyLen td key + j) =
      k.serialize.getD j 0 := by
  have hlen : k.serialize.length = keyLen td key := by
    rw [hk.length, keyLen, htype]
    rfl
  have hbefore : ∀ n < i, Fills p.writeKey (keyLen td key) n := fun n hn =>
    writeKey_fills h (by omega)
  have hend : i * keyLen td key + keyLen td key ≤ (p.numSlots - 1) * keyLen td key := by
    have := Nat.mul_le_mul_right (keyLen td key) (show i + 1 ≤ p.numSlots - 1 by omega)
    rwa [Nat.succ_mul] at this
  have hi' : i < p.numSlots - 1 := by omega
  rw [getPageData_front h (by omega), walk_inside (fun _ => writeKey_fills h) hi'
    (by simp only; omega), writeKey, if_pos hu, hkey, walk_offset hbefore]
  have hlt : j < k.serialize.length := by rwa [hlen]
  exact write_inside hlt

/-- Parent, category, used slots, keys and children are the same. -/
structure SameAs (q p : BTreeInternalPage) : Prop where
  parent : q.parent = p.parent
  category : q.childCategory = p.childCategory
  used : ∀ i < p.numSlots, q.isSlotUsed i = p.isSlotUsed i
  keys : ∀ i < p.numSlots, 0 < i → p.isSlotUsed i = true → q.keyAt i = p.keyAt i
  children : ∀ i < p.numSlots, p.isSlotUsed i = true → q.childAt i = p.childAt i

theorem ofData_childAt {id : BTreePageId} {i : ℕ} (hi : i < maxEntries pageSize td key + 1) :
    (ofData pageSize td id key data stack).childAt i = loadWord data 0 := by
  simp [childAt, ofData, hi]

/-- The decoder gets the parent, the bitmap and the keys right. -/
theorem ofData_front (h : Shaped pageSize td key p) (hcap : 1 ≤ maxEntries pageSize td key)
    (hkeys : td.getFieldType key = some .intType) {id : BTreePageId}
    (hdata : ∀ j < pageSize, data j = p.getPageData pageSize fresh j) :
    (ofData pageSize td id key data stack).parent = p.parent ∧
      (∀ i < p.numSlots, (ofData pageSize td id key data stack).isSlotUsed i = p.isSlotUsed i) ∧
      ∀ i < p.numSlots, 0 < i → p.isSlotUsed i = true →
        (ofData pageSize td id key data stack).keyAt i = p.keyAt i := by
  have hinside := keys_inside hcap
  rw [← h.slots] at hinside
  have hlen : p.header.length = getHeaderSize p.numSlots := by rw [h.header, h.slots]
  have hfront : ∀ j < 8 + getHeaderSize p.numSlots,
      data j = p.writeHeader pageSize fresh j := by
    intro j hj
    rw [hdata j (by omega), getPageData_header h hj]
  refine ⟨?_, ?_, ?_⟩
  · have hword : loadWord (p.writeHeader pageSize fresh) 0 = p.parent := by
      rw [writeHeader, loadWord_write_outside (by omega), loadWord_storeWord_outside (by omega),
        loadWord_storeWord]
    change loadWord data 0 = p.parent
    rw [← hword]
    exact loadWord_congr fun j _ hj => hfront j (by omega)
  · intro i hi
    have hlt : i / 8 < getHeaderSize p.numSlots := by
      have := slots_le_header p.numSlots
      omega
    have hbyte : (read data 8 (getHeaderSize p.numSlots)).getD (i / 8) 0 = p.header.getD (i / 8) 0 := by
      rw [List.getD_eq_getElem _ _ (by simpa using hlt)]
      simp only [Memory.read, List.getElem_map, List.getElem_range]
      rw [hfront _ (by omega), writeHeader, List.take_of_length_le hlen.le,
        write_inside (by rwa [hlen])]
    change Bitmap.get (read data 8 (getHeaderSize (maxEntries pageSize td key + 1))) i = _
    rw [← h.slots, Bitmap.get, hbyte]
    rfl
  · intro i hi hpos hu
    obtain ⟨n, rfl⟩ := Nat.exists_eq_add_of_le' hpos
    obtain ⟨k, hk, htype⟩ := h.keyed (n + 1) _ _ hpos (p.slot?_of_used hi hu)
    have hint : k.getType = .intType := by
      rw [hkeys] at htype
      exact (Option.some.inj htype).symm
    obtain ⟨v, rfl⟩ := Field.exists_int hint
    have hsize : keyLen td key = 4 := by
      rw [keyLen, hkeys]
      rfl
    have hword : loadWord data (8 + getHeaderSize p.numSlots + n * 4) = v := by
      apply loadWord_of_read
      have hend : n * 4 + 4 ≤ (p.numSlots - 1) * 4 := by omega
      rw [hsize, show maxEntries pageSize td key = p.numSlots - 1 by rw [h.slots]; omega] at hinside
      apply List.ext_getElem
      · simp
      · intro j h₁ h₂
        rw [wordBytes_length] at h₂
        simp only [Memory.read, List.getElem_map, List.getElem_range]
        have hj : j < keyLen td key := by rwa [hsize]
        have := @getPageData_key _ _ _ _ fresh h _ _ (Field.int_roundTrips v) hi hu hk htype j hj
        rw [hsize] at this
        rw [hdata _ (by omega), this]
        exact List.getD_eq_getElem _ _ h₂
    rw [hk]
    have hn : n < maxEntries pageSize td key := by
      have := h.slots
      omega
    simp only [keyAt, ofData, List.getD_eq_getElem?_getD, List.getElem?_cons_succ]
    rw [List.getElem?_map, List.getElem?_range hn]
    simp only [Option.map_some, Option.getD_some, hkeys, hsize]
    rw [← h.slots, Field.parse, hword]

/-- Decoding gives the page back exactly if its children are leaf pages and every child pointer
is the parent's number. -/
theorem ofData_same_iff (h : Shaped pageSize td key p) (hcap : 1 ≤ maxEntries pageSize td key)
    (hkeys : td.getFieldType key = some .intType)
    (hdata : ∀ j < pageSize, data j = p.getPageData pageSize fresh j) :
    SameAs (ofData pageSize td p.pid key data stack) p ↔
      p.childCategory = .leaf ∧ ∀ i < p.numSlots, p.isSlotUsed i = true → p.childAt i = p.parent := by
  obtain ⟨hparent, hused, hkey⟩ :=
    @ofData_front _ _ _ _ fresh data stack h hcap hkeys p.pid hdata
  have hchild : ∀ i < p.numSlots,
      (ofData pageSize td p.pid key data stack).childAt i = p.parent := by
    intro i hi
    rw [ofData_childAt (by rwa [← h.slots])]
    exact hparent
  constructor
  · intro hsame
    refine ⟨hsame.category.symm, ?_⟩
    intro i hi hu
    rw [← hsame.children i hi hu, hchild i hi]
  · rintro ⟨hcat, hall⟩
    refine ⟨hparent, hcat.symm, hused, hkey, ?_⟩
    intro i hi hu
    rw [hchild i hi, hall i hi hu]

theorem ofData_zeroed_unused (hcap : 1 ≤ maxEntries pageSize td key) (id : BTreePageId)
    (fresh stack : Buffer) (i : ℕ) :
    (ofData pageSize td id key (zeroed pageSize fresh) stack).isSlotUsed i = false := by
  have hinside := keys_inside hcap
  apply Bitmap.get_eq_false
  change (read (zeroed pageSize fresh) 8 (getHeaderSize (maxEntries pageSize td key + 1))).getD
    (i / 8) 0 = 0
  by_cases hi : i / 8 < getHeaderSize (maxEntries pageSize td key + 1)
  · have hlt : 8 + i / 8 < pageSize := by omega
    rw [List.getD_eq_getElem _ _ (by simpa using hi)]
    simp [Memory.read, zeroed, hlt]
  · rw [List.getD_eq_default _ _ (by simpa using hi)]

/-- A page of zeroed bytes takes a first entry whose children are leaf pages. -/
theorem insertEntry_zeroed (hcap : 1 ≤ maxEntries pageSize td key)
    (hkeys : td.getFieldType key = some .intType) {id left right : BTreePageId}
    (hleft : left.tableId = id.tableId) (hright : right.tableId = id.tableId)
    (hlt : left.type = .leaf) (hrt : right.type = .leaf) (v : Int32) (rid : Option RecordId) :
    (ofData pageSize td id key (zeroed pageSize fresh) stack).insertEntry
        ⟨some (.int v), some left, some right, rid⟩ =
      .ok ((ofData pageSize td id key (zeroed pageSize fresh) stack).insertFirst (.int v)
        left.pgNo right.pgNo) := by
  have hunused := ofData_zeroed_unused hcap id fresh stack
  have hempty : (ofData pageSize td id key (zeroed pageSize fresh) stack).getNumEmptySlots =
      (ofData pageSize td id key (zeroed pageSize fresh) stack).getMaxEntries := by
    rw [getNumEmptySlots, List.filter_eq_self.mpr fun i _ => by rw [hunused i]; rfl,
      List.length_range', getMaxEntries]
  have hcheck : (ofData pageSize td id key (zeroed pageSize fresh) stack).checkCategory left right =
      .ok (ofData pageSize td id key (zeroed pageSize fresh) stack) := by
    have hcat : ¬ (ofData pageSize td id key (zeroed pageSize fresh) stack).childCategory =
        .rootPtr := by
      change ¬ BTreePageType.leaf = .rootPtr
      decide
    unfold checkCategory
    rw [if_neg hcat, if_pos ⟨hlt, hrt⟩]
  have htwo : ¬ (ofData pageSize td id key (zeroed pageSize fresh) stack).numSlots < 2 := by
    change ¬ maxEntries pageSize td key + 1 < 2
    omega
  unfold insertEntry
  simp only
  rw [if_neg (by simp [ofData, hkeys, Field.getType]), assertThat_ok ⟨hleft, hright⟩]
  change (checkCategory _ left right >>= _) = _
  rw [hcheck]
  change insertChecked _ _ _ _ = _
  rw [insertChecked, if_neg htwo, if_pos hempty]

theorem insertEntry_zeroed_iff (hcap : 1 ≤ maxEntries pageSize td key)
    (hkeys : td.getFieldType key = some .intType) {id left right : BTreePageId}
    (hleft : left.tableId = id.tableId) (hright : right.tableId = id.tableId) {c : BTreePageType}
    (hlt : left.type = c) (hrt : right.type = c) (v : Int32) (rid : Option RecordId) :
    (∃ q, (ofData pageSize td id key (zeroed pageSize fresh) stack).insertEntry
      ⟨some (.int v), some left, some right, rid⟩ = .ok q) ↔ c = .leaf := by
  constructor
  · rintro ⟨q, hq⟩
    obtain ⟨_, left', right', p₁, -, heq, -, -, hcheck, -⟩ := insertEntry_cases hq
    cases heq
    obtain ⟨-, -, hcase⟩ := checkCategory_ok hcheck
    rcases hcase with hroot | hsame
    · cases hroot
    · rw [← hlt, ← hsame]
      rfl
  · rintro rfl
    exact ⟨_, insertEntry_zeroed hcap hkeys hleft hright hlt hrt v rid⟩

/-- A reachable page comes back from its bytes exactly if its children are leaf pages whose
numbers are all the parent's, and a page of zeroed bytes takes exactly the first entries whose
children are leaf pages. -/
theorem internal_reload_iff (hreach : Reachable pageSize td key p)
    (hcap : 1 ≤ maxEntries pageSize td key)
    (hkeys : td.getFieldType key = some .intType) :
    (∀ fresh data stack, (∀ j < pageSize, data j = p.getPageData pageSize fresh j) →
      (SameAs (ofData pageSize td p.pid key data stack) p ↔ p.childCategory = .leaf ∧
        ∀ i < p.numSlots, p.isSlotUsed i = true → p.childAt i = p.parent)) ∧
    ∀ (id left right : BTreePageId) (c : BTreePageType) (v : Int32) (rid : Option RecordId)
      (fresh stack : Buffer), left.tableId = id.tableId → right.tableId = id.tableId →
      left.type = c → right.type = c →
      ((∃ q, (ofData pageSize td id key (zeroed pageSize fresh) stack).insertEntry
        ⟨some (.int v), some left, some right, rid⟩ = .ok q) ↔ c = .leaf) := by
  constructor
  · intro fresh data stack hdata
    exact ofData_same_iff hreach.shaped hcap hkeys hdata
  · intro id left right c v rid fresh stack hleft hright hlt hrt
    exact insertEntry_zeroed_iff hcap hkeys hleft hright hlt hrt v rid

def blankPage : BTreeInternalPage :=
  ofData 37 (.ofInts 1) ⟨7, 2, .internal⟩ 0 (zeroed 37 fun _ => 0) fun _ => 0

theorem blankPage_reachable : Reachable 37 (.ofInts 1) 0 blankPage := by
  refine Reachable.empty (p := blankPage) rfl rfl rfl (by simp [blankPage, ofData]) ?_
  intro i
  apply (slot?_eq_none _).mpr
  right
  exact ofData_zeroed_unused (by decide) _ _ _ i

theorem blankPage_insert (v left right : Int32) :
    blankPage.insertEntry
        ⟨some (.int v), some ⟨7, left, .leaf⟩, some ⟨7, right, .leaf⟩, none⟩ =
      .ok (blankPage.insertFirst (.int v) left right) :=
  @insertEntry_zeroed 37 0 (.ofInts 1) (fun _ => 0) (fun _ => 0) (by decide) (by decide)
    ⟨7, 2, .internal⟩ ⟨7, left, .leaf⟩ ⟨7, right, .leaf⟩ rfl rfl rfl rfl v none

/-- A page under the page 4 whose two children are numbered 4, too, with the key 5 between them. -/
def fourPage : BTreeInternalPage := { blankPage.insertFirst (.int 5) 4 4 with parent := 4 }

theorem fourPage_reachable : Reachable 37 (.ofInts 1) 0 fourPage :=
  (blankPage_reachable.insert (blankPage_insert 5 4 4)).reparent 4

/-- It comes back, and a page of zeroed bytes takes no first entry over internal pages. -/
theorem internal_reload_iff_fourPage :
    (fourPage.slot? 0 = some (none, 4) ∧ fourPage.slot? 1 = some (some (.int 5), 4)) ∧
      SameAs (ofData 37 (.ofInts 1) ⟨7, 2, .internal⟩ 0 (fourPage.getPageData 37 fun _ => 0)
        fun _ => 0) fourPage ∧
      ¬ ∃ q, (ofData 37 (.ofInts 1) ⟨7, 2, .internal⟩ 0 (zeroed 37 fun _ => 0)
        fun _ => 0).insertEntry ⟨some (.int 5), some ⟨7, 4, .internal⟩, some ⟨7, 4, .internal⟩,
          none⟩ = .ok q := by
  obtain ⟨hsame, hfirst⟩ := internal_reload_iff fourPage_reachable (by decide) (by decide)
  refine ⟨⟨by decide, by decide⟩, ?_, ?_⟩
  · exact (hsame (fun _ => 0) _ _ fun _ _ => rfl).mpr ⟨rfl, by decide⟩
  · intro hex
    have hleaf := (hfirst ⟨7, 2, .internal⟩ ⟨7, 4, .internal⟩ ⟨7, 4, .internal⟩ .internal 5 none
      (fun _ => 0) (fun _ => 0) rfl rfl rfl rfl).mp hex
    cases hleaf

/-- A root with the leaves 1 and 3 comes back with the children 0 and 0. -/
theorem children_lost :
    ¬ ∀ (pageSize : ℕ) (td : TupleDesc) (key : ℕ) (p : BTreeInternalPage),
      Reachable pageSize td key p → 1 ≤ maxEntries pageSize td key →
      td.getFieldType key = some .intType →
      (∀ fresh data stack, (∀ j < pageSize, data j = p.getPageData pageSize fresh j) →
        SameAs (ofData pageSize td p.pid key data stack) p) ∧
      ∀ (c : BTreePageType) (id left right : BTreePageId) (v : Int32) (rid : Option RecordId)
        (fresh stack : Buffer), c = .leaf ∨ c = .internal → left.tableId = id.tableId →
        right.tableId = id.tableId → left.type = c → right.type = c →
        ∃ q, (ofData pageSize td id key (zeroed pageSize fresh) stack).insertEntry
          ⟨some (.int v), some left, some right, rid⟩ = .ok q := by
  intro hclaim
  have hroot : Reachable 37 (.ofInts 1) 0 (blankPage.insertFirst (.int 5) 1 3) :=
    blankPage_reachable.insert (blankPage_insert 5 1 3)
  obtain ⟨hsame, -⟩ := hclaim 37 (.ofInts 1) 0 _ hroot (by decide) (by decide)
  have hback := hsame (fun _ => 0) _ (fun _ => 0) fun _ _ => rfl
  have hiff := @ofData_same_iff _ _ _ _ (fun _ => 0) _ (fun _ => 0) hroot.shaped (by decide)
    (by decide) fun _ _ => rfl
  have hparent := (hiff.mp hback).2 0 (by decide) (by decide)
  exact absurd hparent (by decide)

end BTreeInternalPage

end PagedDb
