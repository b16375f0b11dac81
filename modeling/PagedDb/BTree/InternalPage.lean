import PagedDb.Foundation.Exec
import PagedDb.Foundation.Slots
import PagedDb.BTree.LeafPage

/-!
# Internal pages of a B+ tree

An internal page keeps a child pointer in every used slot and a key in every
used slot but the first. The slots are seen as a sequence of keys and children;
an insertion finds the child that was split and puts the new pair behind it.
-/

namespace PagedDb

/-- `BTreeEntry`: a key and the children on its two sides, as an iterator or a caller made it.
`none` stands for a null pointer. -/
structure BTreeEntry where
  key : Option Field
  leftChild : Option BTreePageId
  rightChild : Option BTreePageId
  rid : Option RecordId
  deriving DecidableEq

/-- `BTreeInternalPage`; the first key is the null pointer. -/
@[ext] structure BTreeInternalPage where
  pid : BTreePageId
  td : TupleDesc
  keyField : ℕ
  parent : Int32
  childCategory : BTreePageType
  header : List UInt8
  keys : List (Option Field)
  children : List Int32
  numSlots : ℕ
  header_bits : numSlots ≤ 8 * header.length
  keys_length : keys.length = numSlots
  children_length : children.length = numSlots

instance : DecidableEq BTreeInternalPage := fun _ _ =>
  decidable_of_iff _ BTreeInternalPage.ext_iff.symm

namespace BTreeInternalPage

/-- `Types::getLen` of the key field. -/
def keyLen (td : TupleDesc) (key : ℕ) : ℕ := ((td.getFieldType key).map FieldType.getLen).getD 0

/-- `getMaxEntries` for a page size, a schema and a key field. -/
def maxEntries (pageSize : ℕ) (td : TupleDesc) (key : ℕ) : ℕ :=
  ((pageSize - 12) * 8 + 1) / ((keyLen td key + 4) * 8 + 1)

/-- `getMaxEntries` of a page: the constructor made one slot more. -/
def getMaxEntries (p : BTreeInternalPage) : ℕ := p.numSlots - 1

def getParentId (p : BTreeInternalPage) : BTreePageId := BTreePage.getParentId p.pid.tableId p.parent

def setParentId (p : BTreeInternalPage) (id : BTreePageId) : Except Fault BTreeInternalPage := do
  let parent ← BTreePage.setParentId p.pid.tableId id
  pure { p with parent }

def isSlotUsed (p : BTreeInternalPage) (i : ℕ) : Bool := Bitmap.get p.header i

def getNumEmptySlots (p : BTreeInternalPage) : ℕ :=
  ((List.range' 1 (p.numSlots - 1)).filter fun i => !p.isSlotUsed i).length

def getNumEntries (p : BTreeInternalPage) : ℕ := p.numSlots - p.getNumEmptySlots - 1

def markSlotUsed (p : BTreeInternalPage) (i : ℕ) (value : Bool) : BTreeInternalPage :=
  { p with
    header := Bitmap.set p.header i value
    header_bits := by simpa using p.header_bits }

def setKey (p : BTreeInternalPage) (i : ℕ) (key : Option Field) : BTreeInternalPage :=
  { p with
    keys := p.keys.set i key
    keys_length := by simpa using p.keys_length }

def setChild (p : BTreeInternalPage) (i : ℕ) (child : Int32) : BTreeInternalPage :=
  { p with
    children := p.children.set i child
    children_length := by simpa using p.children_length }

/-- `keys[i]`. -/
def keyAt (p : BTreeInternalPage) (i : ℕ) : Option Field := p.keys.getD i none

/-- `children[i]`. -/
def childAt (p : BTreeInternalPage) (i : ℕ) : Int32 := p.children.getD i 0

/-- The key and the child in slot `i`, if that slot is used. -/
def slot? (p : BTreeInternalPage) (i : ℕ) : Option (Option Field × Int32) :=
  if p.isSlotUsed i ∧ i < p.numSlots then some (p.keyAt i, p.childAt i) else none

/-- `getKey`; `none` stands for the null pointer. -/
def getKey (p : BTreeInternalPage) (i : ℕ) : Except Fault (Option Field) :=
  if 0 < i ∧ i < p.numSlots then .ok (if p.isSlotUsed i then p.keyAt i else none)
  else .error .assertion

/-- `getChildId`; `none` stands for the null pointer. -/
def getChildId (p : BTreeInternalPage) (i : ℕ) : Except Fault (Option BTreePageId) :=
  if i < p.numSlots then
    .ok (if p.isSlotUsed i then some ⟨p.pid.tableId, p.childAt i, p.childCategory⟩ else none)
  else .error .assertion

/-- `assert(keys[i]->compare(op, key))`; either pointer may be null. -/
def assertKey (p : BTreeInternalPage) (i : ℕ) (op : Op) (key : Option Field) :
    Except Fault Unit :=
  match p.keyAt i, key with
  | some k, some key => do
    let holds ← k.compare op key
    assertThat holds
  | _, _ => .error .nullDeref

/-- `assert(i == 0 || keys[i]->compare(op, key))`. -/
def assertKeyBehind (p : BTreeInternalPage) (i : ℕ) (op : Op) (key : Option Field) :
    Except Fault Unit :=
  if i = 0 then .ok () else p.assertKey i op key

/-- Put a key and a child into slot `i`. -/
def put (p : BTreeInternalPage) (i : ℕ) (key : Option Field) (child : Int32) : BTreeInternalPage :=
  ((p.markSlotUsed i true).setKey i key).setChild i child

def moveEntry (p : BTreeInternalPage) (src dst : ℕ) : BTreeInternalPage :=
  if !p.isSlotUsed dst ∧ p.isSlotUsed src then
    (p.put dst (p.keyAt src) (p.childAt src)).markSlotUsed src false
  else p

/-- The check of the child category in `insertEntry`. -/
def checkCategory (p : BTreeInternalPage) (left right : BTreePageId) :
    Except Fault BTreeInternalPage :=
  if p.childCategory = .rootPtr then
    if left.type = right.type then .ok { p with childCategory := left.type } else .error .assertion
  else if left.type = p.childCategory ∧ right.type = p.childCategory then .ok p
  else .error .assertion

def insertFirst (p : BTreeInternalPage) (key : Field) (left right : Int32) : BTreeInternalPage :=
  let p := (p.setChild 0 left).setChild 1 right
  ((p.setKey 1 (some key)).markSlotUsed 0 true).markSlotUsed 1 true

/-- The loop of `insertEntry` that finds the child of the entry that is on the page; the result
is the page and `lessOrEqKey + 1`. -/
def matchChild (p : BTreeInternalPage) (key : Field) (left right : Int32) :
    ℕ → ℕ → ℕ → Except Fault (BTreeInternalPage × ℕ)
  | 0, _, pos => .ok (p, pos)
  | n + 1, i, pos =>
    if p.isSlotUsed i then
      if p.childAt i = left ∨ p.childAt i = right then do
        p.assertKeyBehind i .lessThanOrEq (some key)
        let p := if p.childAt i = right then p.setChild i left else p
        p.matchChild key left right n (i + 1) (i + 1)
      else if pos ≠ 0 then do
        p.assertKey i .greaterThanOrEq (some key)
        pure (p, pos)
      else p.matchChild key left right n (i + 1) pos
    else p.matchChild key left right n (i + 1) pos

/-- An entry of a page that already has one. -/
def insertMore (p : BTreeInternalPage) (key : Field) (left right : Int32) :
    Except Fault BTreeInternalPage := do
  let emptySlot := Slots.search (fun i => !p.isSlotUsed i) (p.numSlots - 1) 1
  assertThat (emptySlot ≠ p.numSlots)
  let (p, pos) ← p.matchChild key left right p.numSlots 0 0
  assertThat (pos ≠ 0)
  pure ((Slots.makeRoom moveEntry p emptySlot pos).put (Slots.roomSlot emptySlot pos) (some key)
    right)

/-- The rest of `insertEntry` after its checks; a page without room for a second child is written
out of bounds. -/
def insertChecked (p : BTreeInternalPage) (key : Field) (left right : Int32) :
    Except Fault BTreeInternalPage :=
  if p.numSlots < 2 then .error .outOfBounds
  else if p.getNumEmptySlots = p.getMaxEntries then .ok (p.insertFirst key left right)
  else p.insertMore key left right

/-- `insertEntry`. The caller's entry is passed by value, so it does not change. -/
def insertEntry (p : BTreeInternalPage) (e : BTreeEntry) : Except Fault BTreeInternalPage :=
  match e.key with
  | none => .error .nullDeref
  | some key =>
    if p.td.getFieldType p.keyField ≠ some key.getType then .error .assertion
    else
      match e.leftChild, e.rightChild with
      | some left, some right => do
        assertThat (left.tableId = p.pid.tableId ∧ right.tableId = p.pid.tableId)
        let p ← p.checkCategory left right
        p.insertChecked key left.pgNo right.pgNo
      | _, _ => .error .nullDeref

/-- The loop of `deleteEntry` that moves the right child over the left one. -/
def deleteLeft (p : BTreeInternalPage) (slot : ℕ) : ℕ → BTreeInternalPage
  | 0 => p
  | i + 1 =>
    if p.isSlotUsed i then (p.setChild i (p.childAt slot)).markSlotUsed slot false
    else p.deleteLeft slot i

/-- `deleteEntry`: the page and the caller's entry afterwards. The second assertion asks for an
entry of another table. -/
def deleteEntry (p : BTreeInternalPage) (e : BTreeEntry) (deleteRightChild : Bool) :
    Except Fault (BTreeInternalPage × BTreeEntry) :=
  match e.rid with
  | none => .error .assertion
  | some rid =>
    if ¬ (rid.pid.pageNumber = p.pid.pgNo ∧ rid.pid.getTableId ≠ p.pid.tableId) then
      .error .assertion
    else if !p.isSlotUsed rid.tupleno then .error .assertion
    else
      let q := if deleteRightChild then p.markSlotUsed rid.tupleno false
        else p.deleteLeft rid.tupleno rid.tupleno
      .ok (q, { e with rid := none })

def deleteKeyAndRightChild (p : BTreeInternalPage) (e : BTreeEntry) :
    Except Fault (BTreeInternalPage × BTreeEntry) := p.deleteEntry e true

def deleteKeyAndLeftChild (p : BTreeInternalPage) (e : BTreeEntry) :
    Except Fault (BTreeInternalPage × BTreeEntry) := p.deleteEntry e false

/-- The loop of `updateEntry` over the slots behind the entry's. -/
def checkRight (p : BTreeInternalPage) (key : Option Field) : ℕ → ℕ → Except Fault Unit
  | 0, _ => .ok ()
  | n + 1, i =>
    if p.isSlotUsed i then p.assertKey i .greaterThanOrEq key else p.checkRight key n (i + 1)

/-- The loop of `updateEntry` over the slots before the entry's. -/
def updateLeft (p : BTreeInternalPage) (key : Option Field) (left : Option BTreePageId) :
    ℕ → Except Fault BTreeInternalPage
  | 0 => .ok p
  | i + 1 =>
    if p.isSlotUsed i then do
      p.assertKeyBehind i .lessThanOrEq key
      match left with
      | none => throw .nullDeref
      | some left => pure (p.setChild i left.pgNo)
    else p.updateLeft key left i

def updateEntry (p : BTreeInternalPage) (e : BTreeEntry) : Except Fault BTreeInternalPage :=
  match e.rid with
  | none => .error .assertion
  | some rid =>
    if ¬ (rid.pid.pageNumber = p.pid.pgNo ∧ rid.pid.getTableId = p.pid.tableId) then
      .error .assertion
    else if !p.isSlotUsed rid.tupleno then .error .assertion
    else do
      p.checkRight e.key (p.numSlots - (rid.tupleno + 1)) (rid.tupleno + 1)
      let p ← p.updateLeft e.key e.leftChild rid.tupleno
      match e.rightChild with
      | none => throw .nullDeref
      | some right => pure ((p.setChild rid.tupleno right.pgNo).setKey rid.tupleno e.key)

section View

variable (p : BTreeInternalPage) {i : ℕ}

theorem slot_in_header (hi : i < p.numSlots) : i / 8 < p.header.length := by
  have := p.header_bits
  omega

theorem slot?_eq_none : p.slot? i = none ↔ p.numSlots ≤ i ∨ p.isSlotUsed i = false := by
  unfold slot?
  cases p.isSlotUsed i <;> simp

theorem slot?_eq_some {key : Option Field} {child : Int32} :
    p.slot? i = some (key, child) ↔
      i < p.numSlots ∧ p.isSlotUsed i = true ∧ p.keyAt i = key ∧ p.childAt i = child := by
  unfold slot?
  by_cases hu : p.isSlotUsed i = true ∧ i < p.numSlots
  · rw [if_pos hu]
    simp [hu.1, hu.2]
  · rw [if_neg hu]
    constructor
    · intro h
      cases h
    · rintro ⟨hi, hu', -⟩
      exact absurd ⟨hu', hi⟩ hu

theorem slot?_of_used (hi : i < p.numSlots) (hu : p.isSlotUsed i = true) :
    p.slot? i = some (p.keyAt i, p.childAt i) := by
  rw [slot?, if_pos ⟨hu, hi⟩]

theorem slot?_isSome (hi : i < p.numSlots) : (p.slot? i).isSome = p.isSlotUsed i := by
  cases hu : p.isSlotUsed i with
  | false => rw [p.slot?_eq_none.mpr (.inr hu), Option.isSome_none]
  | true => rw [p.slot?_of_used hi hu, Option.isSome_some]

theorem markSlotUsed_false_slot? (i : ℕ) :
    (p.markSlotUsed i false).slot? = Function.update p.slot? i none := by
  funext j
  by_cases hij : i = j
  · subst hij
    rw [Function.update_self, slot?_eq_none]
    rcases Nat.lt_or_ge i p.numSlots with hi | hi
    · right
      exact Bitmap.get_set_self (p.slot_in_header hi)
    · exact .inl hi
  · rw [Function.update_of_ne (Ne.symm hij)]
    have hbit : (p.markSlotUsed i false).isSlotUsed j = p.isSlotUsed j := Bitmap.get_set_ne hij
    rw [slot?, slot?, hbit]
    rfl

theorem put_slot? (hi : i < p.numSlots) (key : Option Field) (child : Int32) :
    (p.put i key child).slot? = Function.update p.slot? i (some (key, child)) := by
  funext j
  by_cases hij : i = j
  · subst hij
    have hk : i < p.keys.length := by rwa [p.keys_length]
    have hc : i < p.children.length := by rwa [p.children_length]
    rw [Function.update_self, slot?_eq_some]
    refine ⟨hi, Bitmap.get_set_self (p.slot_in_header hi), ?_, ?_⟩
    · simp [keyAt, put, setChild, setKey, markSlotUsed, hk]
    · simp [childAt, put, setChild, setKey, markSlotUsed, hc]
  · rw [Function.update_of_ne (Ne.symm hij)]
    have hbit : (p.put i key child).isSlotUsed j = p.isSlotUsed j := Bitmap.get_set_ne hij
    have hkey : (p.put i key child).keyAt j = p.keyAt j := by
      simp [keyAt, put, setChild, setKey, markSlotUsed, List.getElem?_set_ne hij]
    have hchild : (p.put i key child).childAt j = p.childAt j := by
      simp [childAt, put, setChild, setKey, markSlotUsed, List.getElem?_set_ne hij]
    rw [slot?, slot?, hbit, hkey, hchild]
    rfl

theorem setChild_slot? (hi : i < p.numSlots) (hu : p.isSlotUsed i = true) (child : Int32) :
    (p.setChild i child).slot? = Function.update p.slot? i (some (p.keyAt i, child)) := by
  funext j
  by_cases hij : i = j
  · subst hij
    have hc : i < p.children.length := by rwa [p.children_length]
    rw [Function.update_self, slot?_eq_some]
    exact ⟨hi, hu, rfl, by simp [childAt, setChild, hc]⟩
  · rw [Function.update_of_ne (Ne.symm hij)]
    have hchild : (p.setChild i child).childAt j = p.childAt j := by
      simp [childAt, setChild, List.getElem?_set_ne hij]
    rw [slot?, slot?, hchild]
    rfl

theorem moveEntry_slot? {src dst : ℕ} (hsrc : src < p.numSlots) (hdst : dst < p.numSlots) :
    (p.moveEntry src dst).slot? = Slots.move p.slot? src dst := by
  unfold moveEntry Slots.move
  by_cases hd : p.isSlotUsed dst = true
  · rw [if_neg (by simp [hd]), if_neg (by simp [p.slot?_of_used hdst hd])]
  · have hdst' : p.slot? dst = none := p.slot?_eq_none.mpr (.inr (by simpa using hd))
    rw [if_pos hdst']
    by_cases hs : p.isSlotUsed src = true
    · rw [if_pos ⟨by simpa using hd, hs⟩, markSlotUsed_false_slot?, put_slot? p hdst,
        p.slot?_of_used hsrc hs]
    · have hsrc' : p.slot? src = none := p.slot?_eq_none.mpr (.inr (by simpa using hs))
      rw [if_neg (by simp [hs]), hsrc', ← hdst', Function.update_eq_self, hdst', ← hsrc',
        Function.update_eq_self]

theorem moveEntry_keeps (src dst : ℕ) :
    (p.moveEntry src dst).numSlots = p.numSlots ∧
      (p.moveEntry src dst).header.length = p.header.length ∧
      (p.moveEntry src dst).pid = p.pid ∧ (p.moveEntry src dst).td = p.td ∧
      (p.moveEntry src dst).keyField = p.keyField ∧ (p.moveEntry src dst).parent = p.parent ∧
      (p.moveEntry src dst).childCategory = p.childCategory := by
  unfold moveEntry
  split
  · simp [put, setChild, setKey, markSlotUsed]
  · simp

/-- Making room for an entry and putting it there inserts it into the sequence of slots. -/
theorem makeRoom_put_slot? {e pos : ℕ} (he : e < p.numSlots) (hpos : pos ≤ p.numSlots)
    (hne : e + 1 ≠ pos) (key : Option Field) (child : Int32) :
    ((Slots.makeRoom moveEntry p e pos).put (Slots.roomSlot e pos) key child).slot? =
      Slots.insertAt p.slot? e pos (key, child) := by
  have hsize : ∀ (q : BTreeInternalPage) a b, (q.moveEntry a b).numSlots = q.numSlots :=
    fun q a b => (q.moveEntry_keeps a b).1
  have hroom : (Slots.makeRoom moveEntry p e pos).numSlots = p.numSlots :=
    @Slots.makeRoom_keeps _ moveEntry _ (fun q => q.numSlots) hsize p e pos
  rw [put_slot?]
  · have hmove : ∀ (q : BTreeInternalPage) a b, a < q.numSlots → b < q.numSlots →
        (q.moveEntry a b).slot? = Slots.move q.slot? a b := fun q a b ha hb =>
      q.moveEntry_slot? ha hb
    exact Slots.view_makeRoom hsize hmove p (key, child) he hpos hne
  · rw [hroom]
    unfold Slots.roomSlot
    split
    · omega
    · omega

end View

/-- Pages that differ in their child pointers only. -/
structure SameButChildren (q p : BTreeInternalPage) : Prop where
  pid : q.pid = p.pid
  td : q.td = p.td
  keyField : q.keyField = p.keyField
  parent : q.parent = p.parent
  category : q.childCategory = p.childCategory
  header : q.header = p.header
  keys : q.keys = p.keys
  numSlots : q.numSlots = p.numSlots

theorem SameButChildren.refl (p : BTreeInternalPage) : SameButChildren p p :=
  ⟨rfl, rfl, rfl, rfl, rfl, rfl, rfl, rfl⟩

theorem SameButChildren.trans {p q r : BTreeInternalPage} (h : SameButChildren r q)
    (h' : SameButChildren q p) : SameButChildren r p :=
  ⟨h.pid.trans h'.pid, h.td.trans h'.td, h.keyField.trans h'.keyField, h.parent.trans h'.parent,
    h.category.trans h'.category, h.header.trans h'.header, h.keys.trans h'.keys,
    h.numSlots.trans h'.numSlots⟩

theorem SameButChildren.isSlotUsed {p q : BTreeInternalPage} (h : SameButChildren q p) (i : ℕ) :
    q.isSlotUsed i = p.isSlotUsed i := by
  rw [BTreeInternalPage.isSlotUsed, BTreeInternalPage.isSlotUsed, h.header]

theorem SameButChildren.keyAt {p q : BTreeInternalPage} (h : SameButChildren q p) (i : ℕ) :
    q.keyAt i = p.keyAt i := by
  rw [BTreeInternalPage.keyAt, BTreeInternalPage.keyAt, h.keys]

theorem setChild_same (p : BTreeInternalPage) (child : Int32) (i : ℕ) : SameButChildren (p.setChild i child) p :=
  ⟨rfl, rfl, rfl, rfl, rfl, rfl, rfl, rfl⟩

/-- What the loop of `insertEntry` does: it changes child pointers only, and the position it
finds is behind a used slot. -/
theorem matchChild_ok {key : Field} {left right : Int32} {n i pos pos' : ℕ}
    {p q : BTreeInternalPage} (h : p.matchChild key left right n i pos = .ok (q, pos'))
    (hpos : 0 < pos → p.isSlotUsed (pos - 1) = true) :
    SameButChildren q p ∧ pos' ≤ max pos (i + n) ∧
      (0 < pos' → p.isSlotUsed (pos' - 1) = true) := by
  induction n generalizing p i pos with
  | zero =>
    cases h
    exact ⟨.refl _, Nat.le_max_left _ _, hpos⟩
  | succ n ih =>
    rw [matchChild] at h
    split at h
    · rename_i hu
      split at h
      · -- a child of the entry
        obtain ⟨_, -, h⟩ := Exec.of_except_bind h
        by_cases hright : p.childAt i = right
        · simp only [hright, if_true] at h
          obtain ⟨hsame, hle, hused⟩ := ih h fun _ => hu
          exact ⟨hsame.trans (p.setChild_same left i), by omega, hused⟩
        · simp only [hright, if_false] at h
          obtain ⟨hsame, hle, hused⟩ := ih h fun _ => hu
          exact ⟨hsame, by omega, hused⟩
      · split at h
        · obtain ⟨_, -, h⟩ := Exec.of_except_bind h
          cases h
          exact ⟨.refl _, Nat.le_max_left _ _, hpos⟩
        · obtain ⟨hsame, hle, hused⟩ := ih h hpos
          exact ⟨hsame, by omega, hused⟩
    · obtain ⟨hsame, hle, hused⟩ := ih h hpos
      exact ⟨hsame, by omega, hused⟩

theorem checkCategory_ok {p q : BTreeInternalPage} {left right : BTreePageId}
    (h : p.checkCategory left right = .ok q) :
    q = { p with childCategory := left.type } ∧ right.type = left.type ∧
      (p.childCategory = .rootPtr ∨ p.childCategory = left.type) := by
  unfold checkCategory at h
  split at h
  · split at h
    · cases h
      exact ⟨rfl, Eq.symm ‹_›, .inl ‹_›⟩
    · cases h
  · split at h
    · rename_i hboth
      cases h
      refine ⟨?_, hboth.2.trans hboth.1.symm, .inr hboth.1.symm⟩
      rw [hboth.1]
    · cases h

/-- Everything a successful `insertEntry` does: the entry is the first one, or it goes behind the
child it was split from. -/
theorem insertEntry_cases {p q : BTreeInternalPage} {e : BTreeEntry} (h : p.insertEntry e = .ok q) :
    ∃ key left right p₁, e.key = some key ∧ e.leftChild = some left ∧ e.rightChild = some right ∧
      p.td.getFieldType p.keyField = some key.getType ∧ p.checkCategory left right = .ok p₁ ∧
      2 ≤ p₁.numSlots ∧
      ((p₁.getNumEmptySlots = p₁.getMaxEntries ∧ q = p₁.insertFirst key left.pgNo right.pgNo) ∨
        p₁.insertMore key left.pgNo right.pgNo = .ok q) := by
  unfold insertEntry at h
  split at h
  · cases h
  · rename_i key hkey
    split at h
    · cases h
    · rename_i htype
      split at h
      · rename_i left right hleft hright
        obtain ⟨_, -, h⟩ := Exec.of_except_bind h
        obtain ⟨p₁, hcheck, h⟩ := Exec.of_except_bind h
        refine ⟨key, left, right, p₁, hkey, hleft, hright, by simpa using htype, hcheck, ?_⟩
        unfold insertChecked at h
        split at h
        · cases h
        · refine ⟨by omega, ?_⟩
          split at h
          · cases h
            exact .inl ⟨‹_›, rfl⟩
          · exact .inr h
      · cases h

/-- An entry behind the first one: the slots gain one pair, at the position found. -/
theorem insertMore_cases {p q : BTreeInternalPage} {key : Field} {left right : Int32}
    (h : p.insertMore key left right = .ok q) :
    ∃ e pos p₁, p.matchChild key left right p.numSlots 0 0 = .ok (p₁, pos) ∧
      SameButChildren p₁ p ∧ 1 ≤ e ∧ e < p.numSlots ∧ p.isSlotUsed e = false ∧
      1 ≤ pos ∧ pos ≤ p.numSlots ∧ e + 1 ≠ pos ∧
      q = (Slots.makeRoom moveEntry p₁ e pos).put (Slots.roomSlot e pos) (some key) right := by
  unfold insertMore at h
  obtain ⟨_, hfull, h⟩ := Exec.of_except_bind h
  obtain ⟨⟨p₁, pos⟩, hmatch, h⟩ := Exec.of_except_bind h
  obtain ⟨_, hpos, h⟩ := Exec.of_except_bind h
  cases h
  obtain ⟨hsame, hle, hused⟩ := matchChild_ok hmatch fun h => absurd h (lt_irrefl 0)
  have hpos' : 1 ≤ pos := Nat.one_le_iff_ne_zero.mpr (of_assertThat hpos)
  have hone := Slots.le_search (fun i => !p.isSlotUsed i) (p.numSlots - 1) 1
  have hend := Slots.search_le (fun i => !p.isSlotUsed i) (p.numSlots - 1) 1
  have hne := of_assertThat hfull
  have hslots : 1 ≤ p.numSlots := by omega
  have hlt : Slots.search (fun i => !p.isSlotUsed i) (p.numSlots - 1) 1 < 1 + (p.numSlots - 1) := by
    omega
  have hempty := Slots.search_stop hlt
  simp only [Bool.not_eq_true'] at hempty
  refine ⟨_, pos, p₁, hmatch, hsame, hone, by omega, hempty, hpos', by omega, ?_, rfl⟩
  intro heq
  have := hused (by omega)
  rw [← heq, Nat.add_sub_cancel, hempty] at this
  cases this

end BTreeInternalPage

/-- `BTreeInternalPageIterator`; the page it walks over is passed to its operators. -/
structure BTreeInternalPageIterator where
  curEntry : ℕ
  prevChildId : Option BTreePageId
  currChildId : Option BTreePageId
  deriving DecidableEq

namespace BTreeInternalPageIterator

def new (slot : ℕ) (p : BTreeInternalPage) : Except Fault BTreeInternalPageIterator :=
  if slot = p.numSlots then .ok ⟨slot, none, none⟩
  else do
    let prevChildId ← if 0 < slot then p.getChildId (slot - 1) else pure none
    let currChildId ← p.getChildId slot
    pure ⟨if currChildId = none then p.numSlots else slot, prevChildId, currChildId⟩

/-- `operator!=`. -/
def ne (a b : BTreeInternalPageIterator) : Bool := a.curEntry ≠ b.curEntry

/-- `operator++`. -/
def next (it : BTreeInternalPageIterator) (p : BTreeInternalPage) :
    Except Fault BTreeInternalPageIterator :=
  let slot := Slots.search p.isSlotUsed (p.numSlots - (it.curEntry + 1)) (it.curEntry + 1)
  if slot < p.numSlots then do
    let currChildId ← p.getChildId slot
    pure ⟨slot, it.currChildId, currChildId⟩
  else .ok ⟨slot, it.currChildId, it.currChildId⟩

/-- `operator*`. -/
def get (it : BTreeInternalPageIterator) (p : BTreeInternalPage) : Except Fault BTreeEntry := do
  let key ← p.getKey it.curEntry
  pure ⟨key, it.prevChildId, it.currChildId, some ⟨.btree p.pid, it.curEntry⟩⟩

end BTreeInternalPageIterator

/-- `BTreeInternalPageReverseIterator`. -/
structure BTreeInternalPageReverseIterator where
  leftSlot : Int
  rightSlot : Int
  leftChildId : Option BTreePageId
  rightChildId : Option BTreePageId
  deriving DecidableEq

namespace BTreeInternalPageReverseIterator

/-- The constructor: the scan for a used slot starts at `slot` itself, so that both slots are
the same one and the right child is not set. -/
def new (slot : ℕ) (p : BTreeInternalPage) : Except Fault BTreeInternalPageReverseIterator := do
  let leftSlot := max 0 (Slots.searchDown p.isSlotUsed (slot + 1))
  let leftChildId ← if 0 < leftSlot then p.getChildId leftSlot.toNat else pure none
  pure ⟨leftSlot, slot, leftChildId, none⟩

/-- `operator!=`. -/
def ne (a b : BTreeInternalPageReverseIterator) : Bool := a.leftSlot ≠ b.leftSlot

/-- `operator++`. -/
def next (it : BTreeInternalPageReverseIterator) (p : BTreeInternalPage) :
    Except Fault BTreeInternalPageReverseIterator :=
  let leftSlot :=
    if it.leftSlot ≤ 0 then it.leftSlot - 1 else Slots.searchDown p.isSlotUsed it.leftSlot.toNat
  if 0 ≤ leftSlot then do
    let leftChildId ← p.getChildId leftSlot.toNat
    pure ⟨leftSlot, it.leftSlot, leftChildId, it.leftChildId⟩
  else .ok ⟨leftSlot, it.leftSlot, it.leftChildId, it.leftChildId⟩

/-- `operator*`. -/
def get (it : BTreeInternalPageReverseIterator) (p : BTreeInternalPage) :
    Except Fault BTreeEntry := do
  let key ← p.getKey it.rightSlot.toNat
  pure ⟨key, it.leftChildId, it.rightChildId, some ⟨.btree p.pid, it.rightSlot.toNat⟩⟩

end BTreeInternalPageReverseIterator

namespace BTreeInternalPage

def begin (p : BTreeInternalPage) : Except Fault BTreeInternalPageIterator :=
  BTreeInternalPageIterator.new 1 p

def ending (p : BTreeInternalPage) : BTreeInternalPageIterator := ⟨p.numSlots, none, none⟩

def rbegin (p : BTreeInternalPage) : Except Fault BTreeInternalPageReverseIterator :=
  BTreeInternalPageReverseIterator.new (p.numSlots - 1) p

end BTreeInternalPage

end PagedDb
