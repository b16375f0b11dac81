import PagedDb.Storage.TuplePage

/-!
# Leaf pages of a B+ tree

A leaf keeps its tuples in key order. An insertion splits the stored sequence
behind the last key that is not greater and carries an empty slot there; a
deletion clears its slot and leaves the others where they are.
-/

namespace PagedDb

namespace BTreePage

/-- `getParentId`: the number 0 stands for the root pointer page. -/
def getParentId (tableId parent : Int32) : BTreePageId :=
  if parent = 0 then ⟨tableId, 0, .rootPtr⟩ else ⟨tableId, parent, .internal⟩

/-- `setParentId`: the number a page of table `tableId` stores for its new parent. -/
def setParentId (tableId : Int32) (id : BTreePageId) : Except Fault Int32 :=
  if id.tableId ≠ tableId then .error .assertion
  else if id.type = .rootPtr then .ok 0
  else if id.type = .internal then .ok id.pgNo
  else .error .assertion

end BTreePage

/-- `BTreeLeafPage`. -/
structure BTreeLeafPage extends TuplePage PageId.btree where
  keyField : ℕ
  parent : Int32
  leftSibling : Int32
  rightSibling : Int32
  deriving DecidableEq

namespace BTreeLeafPage

/-- `getMaxTuples` for a page size and a schema. -/
def getMaxTuples (pageSize : ℕ) (td : TupleDesc) : ℕ :=
  (pageSize - 12) * 8 / (td.getSize * 8 + 1)

def getParentId (p : BTreeLeafPage) : BTreePageId := BTreePage.getParentId p.pid.tableId p.parent

def setParentId (p : BTreeLeafPage) (id : BTreePageId) : Except Fault BTreeLeafPage := do
  let parent ← BTreePage.setParentId p.pid.tableId id
  pure { p with parent }

def siblingId (tableId number : Int32) : Option BTreePageId :=
  if number = 0 then none else some ⟨tableId, number, .leaf⟩

/-- The number a page of table `tableId` stores for a sibling. -/
def siblingNumber (tableId : Int32) : Option BTreePageId → Except Fault Int32
  | none => .ok 0
  | some id =>
    if id.tableId = tableId ∧ id.type = .leaf then .ok id.pgNo else .error .assertion

def getLeftSiblingId (p : BTreeLeafPage) : Option BTreePageId :=
  siblingId p.pid.tableId p.leftSibling

def getRightSiblingId (p : BTreeLeafPage) : Option BTreePageId :=
  siblingId p.pid.tableId p.rightSibling

def setLeftSiblingId (p : BTreeLeafPage) (id : Option BTreePageId) :
    Except Fault BTreeLeafPage := do
  let leftSibling ← siblingNumber p.pid.tableId id
  pure { p with leftSibling }

def setRightSiblingId (p : BTreeLeafPage) (id : Option BTreePageId) :
    Except Fault BTreeLeafPage := do
  let rightSibling ← siblingNumber p.pid.tableId id
  pure { p with rightSibling }

def getNumTuples (p : BTreeLeafPage) : ℕ := p.numSlots - p.getNumEmptySlots

def setSlots (p : BTreeLeafPage) (slots : TuplePage PageId.btree) : BTreeLeafPage :=
  { p with toTuplePage := slots }

def moveRecord (p : BTreeLeafPage) (src dst : ℕ) : BTreeLeafPage :=
  if p.isSlotUsed dst then p
  else
    match h : p.tuple? src with
    | none => p
    | some t => p.setSlots ((p.put dst t (p.of_tuple? h).1).free src)

theorem moveRecord_keeps (p : BTreeLeafPage) (src dst : ℕ) :
    (p.moveRecord src dst).td = p.td ∧ (p.moveRecord src dst).numSlots = p.numSlots := by
  unfold moveRecord
  split
  · exact ⟨rfl, rfl⟩
  · split
    · exact ⟨rfl, rfl⟩
    · exact ⟨rfl, rfl⟩

theorem makeRoom_td (p : BTreeLeafPage) (e pos : ℕ) :
    (Slots.makeRoom moveRecord p e pos).td = p.td :=
  @Slots.makeRoom_keeps _ moveRecord _ (fun p => p.td)
    (fun p a b => (p.moveRecord_keeps a b).1) p e pos

/-- The loop of `insertTuple` that computes `lessOrEqKey`; the result is `lessOrEqKey + 1`. -/
def lessOrEqPos (p : BTreeLeafPage) (key : Field) : ℕ → ℕ → ℕ → Except Fault ℕ
  | 0, _, pos => .ok pos
  | n + 1, i, pos =>
    match p.tuple? i with
    | none => p.lessOrEqPos key n (i + 1) pos
    | some t => do
      let f ← t.getField p.keyField
      if ← f.compare .lessThanOrEq key then p.lessOrEqPos key n (i + 1) (i + 1) else pure pos

/-- `insertTuple`: the page and the caller's tuple afterwards. -/
def insertTuple (p : BTreeLeafPage) (t : Tuple) : Except Fault (BTreeLeafPage × Tuple) :=
  if htd : t.td = p.td then do
    let emptySlot := Slots.search (fun i => !p.isSlotUsed i) p.numSlots 0
    assertThat (emptySlot ≠ p.numSlots)
    let key ← t.getField p.keyField
    let pos ← p.lessOrEqPos key p.numSlots 0 0
    let shifted := Slots.makeRoom moveRecord p emptySlot pos
    let goodSlot := Slots.roomSlot emptySlot pos
    pure (shifted.setSlots (shifted.put goodSlot t (htd.trans (p.makeRoom_td emptySlot pos).symm)),
      t.setRecordId (some ⟨.btree p.pid, goodSlot⟩))
  else .error .assertion

/-- `deleteTuple`; the caller's tuple loses its record id. -/
def deleteTuple (p : BTreeLeafPage) (t : Tuple) : Except Fault (BTreeLeafPage × Tuple) :=
  match t.rid with
  | none => .error .assertion
  | some rid =>
    if rid.pid.pageNumber = p.pid.pgNo ∧ rid.pid.getTableId = p.pid.tableId ∧
        p.isSlotUsed rid.tupleno then
      .ok (p.setSlots (p.free rid.tupleno), t.setRecordId none)
    else .error .assertion

/-- `getTuple`; `none` stands for the null pointer. -/
def getTuple (p : BTreeLeafPage) (i : ℕ) : Except Fault (Option Tuple) :=
  if i < p.numSlots then .ok (p.tuple? i) else .error .assertion

end BTreeLeafPage

/-- `BTreeLeafPageIterator`; the page it walks over is passed to its operators. -/
structure BTreeLeafPageIterator where
  index : Int
  reverse : Bool
  deriving DecidableEq

namespace BTreeLeafPage

def begin (p : BTreeLeafPage) : BTreeLeafPageIterator :=
  ⟨Slots.search p.isSlotUsed p.numSlots 0, false⟩

def ending (p : BTreeLeafPage) : BTreeLeafPageIterator := ⟨p.numSlots, false⟩

def rbegin (p : BTreeLeafPage) : BTreeLeafPageIterator :=
  ⟨Slots.searchDown p.isSlotUsed p.numSlots, true⟩

end BTreeLeafPage

namespace BTreeLeafPageIterator

/-- `operator!=`. -/
def ne (a b : BTreeLeafPageIterator) : Bool := a.index ≠ b.index

/-- `operator++`. -/
def next (it : BTreeLeafPageIterator) (p : BTreeLeafPage) : BTreeLeafPageIterator :=
  if it.reverse then
    if it.index ≤ 0 then { it with index := it.index - 1 }
    else { it with index := Slots.searchDown p.isSlotUsed it.index.toNat }
  else
    let slot := (it.index + 1).toNat
    { it with index := Slots.search p.isSlotUsed (p.numSlots - slot) slot }

/-- `operator*`: in front of the first slot the bitmap is read out of bounds. -/
def get (it : BTreeLeafPageIterator) (p : BTreeLeafPage) : Except Fault Tuple :=
  if it.index < 0 then .error .outOfBounds
  else
    match p.getTuple it.index.toNat with
    | .error e => .error e
    | .ok none => .error .nullDeref
    | .ok (some t) => .ok t

end BTreeLeafPageIterator

end PagedDb
