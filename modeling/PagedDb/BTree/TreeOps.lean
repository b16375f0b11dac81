import PagedDb.BTree.TreeStore

/-!
# Insertion into a B+ tree file

The functions of `BTreeFile` that search the tree, split pages and hand out page
numbers, over any way to reach the pages. Recursion over the tree and along the
header pages takes the number of pages in the file as fuel.
-/

namespace PagedDb

open Exec

namespace BTreeFile

variable {σ H : Type} [TreeStore σ H]

section Pointers

/-- `dynamic_cast<BTreeRootPtrPage *>(page)`; a page of another kind gives the null pointer. -/
def rootPtrAt (page : H) : EStateM Fault σ BTreeRootPtrPage := do
  match ← TreeStore.load page with
  | .rootPtr p => pure p
  | _ => throw .nullDeref

/-- `dynamic_cast<BTreeHeaderPage *>(page)`. -/
def headerAt (page : H) : EStateM Fault σ BTreeHeaderPage := do
  match ← TreeStore.load page with
  | .header p => pure p
  | _ => throw .nullDeref

/-- `dynamic_cast<BTreeInternalPage *>(page)`. -/
def internalAt (page : H) : EStateM Fault σ BTreeInternalPage := do
  match ← TreeStore.load page with
  | .internal p => pure p
  | _ => throw .nullDeref

/-- `dynamic_cast<BTreeLeafPage *>(page)`. -/
def leafAt (page : H) : EStateM Fault σ BTreeLeafPage := do
  match ← TreeStore.load page with
  | .leaf p => pure p
  | _ => throw .nullDeref

def modifyRootPtr (page : H) (f : BTreeRootPtrPage → Except Fault BTreeRootPtrPage) :
    EStateM Fault σ Unit := do
  let p ← rootPtrAt page
  let p ← lift (f p)
  TreeStore.store page (.rootPtr p)

def modifyHeader (page : H) (f : BTreeHeaderPage → Except Fault BTreeHeaderPage) :
    EStateM Fault σ Unit := do
  let p ← headerAt page
  let p ← lift (f p)
  TreeStore.store page (.header p)

def modifyInternal (page : H) (f : BTreeInternalPage → Except Fault BTreeInternalPage) :
    EStateM Fault σ Unit := do
  let p ← internalAt page
  let p ← lift (f p)
  TreeStore.store page (.internal p)

def modifyLeaf (page : H) (f : BTreeLeafPage → Except Fault BTreeLeafPage) :
    EStateM Fault σ Unit := do
  let p ← leafAt page
  let p ← lift (f p)
  TreeStore.store page (.leaf p)

end Pointers

/-- `dynamic_cast<BTreePage *>(page)->getParentId()`. -/
def getParentId (page : H) : EStateM Fault σ BTreePageId := do
  match ← TreeStore.load page with
  | .internal p => pure p.getParentId
  | .leaf p => pure p.getParentId
  | _ => throw .nullDeref

/-- `dynamic_cast<BTreePage *>(page)->setParentId(id)`. -/
def setParentId (page : H) (id : BTreePageId) : EStateM Fault σ Unit := do
  match ← TreeStore.load page with
  | .internal p =>
    let p ← lift (p.setParentId id)
    TreeStore.store page (.internal p)
  | .leaf p =>
    let p ← lift (p.setParentId id)
    TreeStore.store page (.leaf p)
  | _ => throw .nullDeref

/-- `BTreeRootPtrPage::getId(tableid)`. -/
def rootPtrId : EStateM Fault σ BTreePageId := do
  pure (BTreeRootPtrPage.getId (TreeStore.tableid (← get)))

def getRootPtrPage : EStateM Fault σ H := do
  if TreeStore.isEmpty (← get) then TreeStore.createFile
  TreeStore.getPage (← rootPtrId) .readOnly

section Allocation

/-- The loop of `getEmptyPageNo` over the header pages, from one of them and its position on:
the first with an empty slot. -/
def findHeaderPage : ℕ → H → ℕ → EStateM Fault σ (Option (BTreePageId × ℕ))
  | 0, _, _ => throw .outOfFuel
  | fuel + 1, headerPage, headerPageCount => do
    let p ← headerAt headerPage
    if (p.getEmptySlot (TreeStore.pageSize (← get))).isSome then pure (some (p.pid, headerPageCount))
    else
      match p.getNextPageId with
      | none => pure none
      | some headerId =>
        let headerPage ← TreeStore.getPage headerId .readOnly
        findHeaderPage fuel headerPage (headerPageCount + 1)

/-- `markSlotUsed`; a slot outside of the header is a byte outside of its array. -/
def markSlotUsed (headerPage : H) (slot : Int) (value : Bool) : EStateM Fault σ Unit := do
  let pageSize := TreeStore.pageSize (← get)
  modifyHeader headerPage fun p =>
    if 0 ≤ slot ∧ slot < BTreeHeaderPage.getNumSlots pageSize then
      .ok (p.markSlotUsed slot.toNat value)
    else .error .outOfBounds

/-- The search of `getEmptyPageNo` from the root pointer page on. -/
def findEmptyHeader (p : BTreeRootPtrPage) : EStateM Fault σ (Option (BTreePageId × ℕ)) := do
  match p.getHeaderId with
  | none => pure none
  | some headerId =>
    let headerPage ← TreeStore.getPage headerId .readOnly
    findHeaderPage (TreeStore.getNumPages (← get) + 1) headerPage 0

def getEmptyPageNo : EStateM Fault σ Int32 := do
  let rootPtr ← getRootPtrPage
  let p ← rootPtrAt rootPtr
  match ← findEmptyHeader p with
  | some (headerId, headerPageCount) =>
    let headerPage ← TreeStore.getPage headerId .readWrite
    let p ← headerAt headerPage
    let pageSize := TreeStore.pageSize (← get)
    match p.getEmptySlot pageSize with
    | none => throw .outOfBounds
    | some emptySlot =>
      markSlotUsed headerPage emptySlot true
      pure (Int32.ofNat (headerPageCount * BTreeHeaderPage.getNumSlots pageSize + emptySlot))
  | none =>
    TreeStore.appendPage
    pure (Int32.ofNat (TreeStore.getNumPages (← get)))

def getEmptyPage (type : BTreePageType) : EStateM Fault σ H := do
  let emptyPageNo ← getEmptyPageNo
  let newPageId : BTreePageId := ⟨TreeStore.tableid (← get), emptyPageNo, type⟩
  TreeStore.clearPage emptyPageNo
  TreeStore.discardPage newPageId
  TreeStore.getPage newPageId .readWrite

/-- The test of both loops of `setEmptyPage`, in `int`. -/
def beyondHeader (pageSize headerPageCount : ℕ) (emptyPageNo : Int32) : Bool :=
  (Int32.ofNat ((headerPageCount + 1) * BTreeHeaderPage.getNumSlots pageSize)).toInt <
    emptyPageNo.toInt

/-- The first loop of `setEmptyPage`: along the header pages to the one for the page. -/
def walkHeaders (emptyPageNo : Int32) : ℕ → Option BTreePageId → Option BTreePageId → ℕ →
    EStateM Fault σ (Option BTreePageId × Option BTreePageId × ℕ)
  | 0, _, _, _ => throw .outOfFuel
  | fuel + 1, headerId, prevId, headerPageCount => do
    match headerId with
    | none => pure (none, prevId, headerPageCount)
    | some id =>
      if beyondHeader (TreeStore.pageSize (← get)) headerPageCount emptyPageNo then
        let headerPage ← TreeStore.getPage id .readOnly
        let p ← headerAt headerPage
        walkHeaders emptyPageNo fuel p.getNextPageId (some id) (headerPageCount + 1)
      else pure (some id, prevId, headerPageCount)

/-- The second loop of `setEmptyPage`: add header pages until there is one for the page. -/
def addHeaders (emptyPageNo : Int32) : ℕ → Option BTreePageId → Option BTreePageId → ℕ →
    EStateM Fault σ (Option BTreePageId × ℕ)
  | 0, _, _, _ => throw .outOfFuel
  | fuel + 1, headerId, prevId, headerPageCount => do
    let pageSize := TreeStore.pageSize (← get)
    if beyondHeader pageSize headerPageCount emptyPageNo then
      match prevId with
      | none => throw .nullDeref
      | some prev =>
        let prevPage ← TreeStore.getPage prev .readWrite
        let headerPage ← getEmptyPage .header
        let h ← headerAt headerPage
        modifyHeader headerPage fun p => .ok (p.init pageSize)
        modifyHeader headerPage fun p => p.setPrevPageId (some prev)
        modifyHeader prevPage fun p => p.setNextPageId (some h.pid)
        addHeaders emptyPageNo fuel (some h.pid) (some h.pid) (headerPageCount + 1)
    else pure (headerId, headerPageCount)

/-- The first header page, made if there is none. -/
def firstHeader : EStateM Fault σ BTreePageId := do
  let rootPtr ← getRootPtrPage
  let p ← rootPtrAt rootPtr
  match p.getHeaderId with
  | some headerId => pure headerId
  | none =>
    let rootPtr ← TreeStore.getPage (← rootPtrId) .readWrite
    let headerPage ← getEmptyPage .header
    let h ← headerAt headerPage
    let pageSize := TreeStore.pageSize (← get)
    modifyHeader headerPage fun p => .ok (p.init pageSize)
    modifyRootPtr rootPtr fun p => p.setHeaderId (some h.pid)
    pure h.pid

def setEmptyPage (emptyPageNo : Int32) : EStateM Fault σ Unit := do
  let headerId ← firstHeader
  let (headerId, prevId, headerPageCount) ←
    walkHeaders emptyPageNo (TreeStore.getNumPages (← get) + 1) (some headerId) none 0
  let (headerId, headerPageCount) ←
    addHeaders emptyPageNo (emptyPageNo.toInt.toNat + 1) headerId prevId headerPageCount
  match headerId with
  | none => throw .nullDeref
  | some id =>
    let headerPage ← TreeStore.getPage id .readWrite
    let emptySlot := emptyPageNo -
      Int32.ofNat (headerPageCount * BTreeHeaderPage.getNumSlots (TreeStore.pageSize (← get)))
    markSlotUsed headerPage emptySlot.toInt false

end Allocation

section Search

/-- `f->compare(op, key)` for a key that may be null. -/
def compareKey (op : Op) (f : Field) : Option Field → Except Fault Bool
  | none => .error .nullDeref
  | some key => f.compare op key

/-- The loop of `findLeafPage` over the entries of an internal page: the child to go on with. -/
def findChild (p : BTreeInternalPage) (f : Option Field) :
    ℕ → BTreeInternalPageIterator → Except Fault (Option BTreePageId)
  | 0, _ => .error .outOfFuel
  | fuel + 1, it => do
    let entry ← it.get p
    let here ← match f with
      | none => pure true
      | some f => compareKey .lessThanOrEq f entry.key
    if here then pure entry.leftChild
    else
      let it ← it.next p
      if it.ne p.ending then findChild p f fuel it else pure entry.rightChild

/-- The body of `findLeafPage` at an internal page. -/
def chooseChild (p : BTreeInternalPage) (f : Option Field) : Except Fault (Option BTreePageId) := do
  let it ← p.begin
  if it.ne p.ending then findChild p f p.numSlots it else throw (.runtimeError "Empty page")

def findLeafPage (perm : Permissions) (f : Option Field) : ℕ → BTreePageId → EStateM Fault σ H
  | 0, _ => throw .outOfFuel
  | fuel + 1, pid => do
    if pid.type = .leaf then TreeStore.getPage pid perm
    else if pid.type ≠ .internal then throw (.runtimeError "Invalid page")
    else
      let page ← TreeStore.getPage pid perm
      let p ← internalAt page
      match ← lift (chooseChild p f) with
      | none => throw .nullDeref
      | some child => findLeafPage perm f fuel child

end Search

section Parents

def updateParentPointer (pid : BTreePageId) (child : Option BTreePageId) :
    EStateM Fault σ Unit := do
  match child with
  | none => throw .nullDeref
  | some child =>
    let page ← TreeStore.getPage child .readOnly
    if (← getParentId page) ≠ pid then
      let page ← TreeStore.getPage child .readWrite
      setParentId page pid

/-- The loop of `updateParentPointers` over the entries; it ends with the last one. -/
def updateChildren (page : H) (pid : BTreePageId) :
    ℕ → BTreeInternalPageIterator → Option BTreeEntry → EStateM Fault σ (Option BTreeEntry)
  | 0, _, e => pure e
  | n + 1, it, e => do
    let p ← internalAt page
    if it.ne p.ending then
      let item ← lift (it.get p)
      updateParentPointer pid item.leftChild
      let p ← internalAt page
      let it ← lift (it.next p)
      updateChildren page pid n it (some item)
    else pure e

def updateParentPointers (page : H) : EStateM Fault σ Unit := do
  let p ← internalAt page
  let it ← lift p.begin
  match ← updateChildren page p.pid p.numSlots it none with
  | none => pure ()
  | some e => updateParentPointer p.pid e.rightChild

end Parents

section Split

/-- The case of `getParentWithEmptySlots` in which the page is the root: a new root above it. -/
def makeRoot : EStateM Fault σ H := do
  let parent ← getEmptyPage .internal
  let rootPtr ← TreeStore.getPage (← rootPtrId) .readWrite
  let prevRootId := (← rootPtrAt rootPtr).getRootId
  let q ← internalAt parent
  modifyRootPtr rootPtr fun p => p.setRootId (some q.pid)
  match prevRootId with
  | none => throw .nullDeref
  | some prevRootId =>
    let prevRootPage ← TreeStore.getPage prevRootId .readWrite
    setParentId prevRootPage q.pid
    pure parent

/-- The loop of `splitInternalPage` that moves entries to the right page. -/
def moveEntries (page rightPage : H) :
    ℕ → BTreeInternalPageReverseIterator → EStateM Fault σ BTreeInternalPageReverseIterator
  | 0, it => pure it
  | n + 1, it => do
    let p ← internalAt page
    let entry ← lift (it.get p)
    let (p, entry) ← lift (p.deleteKeyAndRightChild entry)
    TreeStore.store page (.internal p)
    modifyInternal rightPage fun q => q.insertEntry entry
    let p ← internalAt page
    let it ← lift (it.next p)
    moveEntries page rightPage n it

def enterSplit (parentPage : H) (index : Option Field) (left right : BTreePageId) :
    EStateM Fault σ Unit := do
  modifyInternal parentPage fun q => q.insertEntry ⟨index, some left, some right, none⟩
  updateParentPointers parentPage

/-- `splitInternalPage`, given what it calls for the parent. -/
def splitInternalWith (getParent : BTreePageId → Option Field → EStateM Fault σ H) (page : H)
    (field : Option Field) : EStateM Fault σ H := do
  let rightPage ← getEmptyPage .internal
  let p ← internalAt page
  let middleIndex := (p.getNumEntries + 1) / 2 - 1
  let it ← lift p.rbegin
  let it ← moveEntries page rightPage middleIndex it
  let p ← internalAt page
  let entry ← lift (it.get p)
  modifyInternal page fun p => Prod.fst <$> p.deleteKeyAndRightChild entry
  updateParentPointers rightPage
  let p ← internalAt page
  let right ← internalAt rightPage
  let parentPage ← getParent p.getParentId entry.key
  enterSplit parentPage entry.key p.pid right.pid
  match field with
  | none => throw .nullDeref
  | some field =>
    if ← lift (compareKey .lessThan field entry.key) then pure page else pure rightPage

def parentPage (parentId : BTreePageId) : EStateM Fault σ H :=
  if parentId.type = .rootPtr then makeRoot else TreeStore.getPage parentId .readWrite

def getParentWithEmptySlots : ℕ → BTreePageId → Option Field → EStateM Fault σ H
  | 0, _, _ => throw .outOfFuel
  | fuel + 1, parentId, field => do
    let parent ← parentPage parentId
    let q ← internalAt parent
    if q.getNumEmptySlots = 0 then splitInternalWith (getParentWithEmptySlots fuel) parent field
    else pure parent

def splitInternalPage (fuel : ℕ) (page : H) (field : Option Field) : EStateM Fault σ H :=
  splitInternalWith (getParentWithEmptySlots fuel) page field

/-- `page->deleteTuple(tuple); rightPage->insertTuple(tuple);`. -/
def moveTuple (page rightPage : H) (tuple : Tuple) : EStateM Fault σ Unit := do
  let p ← leafAt page
  let (p, tuple) ← lift (p.deleteTuple tuple)
  TreeStore.store page (.leaf p)
  modifyLeaf rightPage fun r => Prod.fst <$> r.insertTuple tuple

/-- The loop of `splitLeafPage` that moves tuples to the right page. -/
def moveTuples (page rightPage : H) :
    ℕ → BTreeLeafPageIterator → EStateM Fault σ BTreeLeafPageIterator
  | 0, it => pure it
  | n + 1, it => do
    let p ← leafAt page
    let tuple ← lift (it.get p)
    moveTuple page rightPage tuple
    let p ← leafAt page
    moveTuples page rightPage n (it.next p)

/-- The right sibling of a page that is split names the new page as its left one. -/
def linkNext (nextPageId : Option BTreePageId) (right : BTreePageId) : EStateM Fault σ Unit := do
  match nextPageId with
  | none => pure ()
  | some nextPageId =>
    let next ← TreeStore.getPage nextPageId .readWrite
    modifyLeaf next fun n => n.setLeftSiblingId (some right)

/-- The first part of `splitLeafPage`: link the new page into the chain. -/
def linkRight (page rightPage : H) : EStateM Fault σ Unit := do
  let p ← leafAt page
  let right ← leafAt rightPage
  linkNext p.getRightSiblingId right.pid
  modifyLeaf rightPage fun r => r.setRightSiblingId p.getRightSiblingId
  modifyLeaf rightPage fun r => r.setLeftSiblingId (some p.pid)
  modifyLeaf page fun p => p.setRightSiblingId (some right.pid)

def splitLeafPage (fuel : ℕ) (page : H) (field : Field) : EStateM Fault σ H := do
  let rightPage ← getEmptyPage .leaf
  linkRight page rightPage
  let p ← leafAt page
  let middleIndex := (p.getNumTuples + 1) / 2 - 1
  let it ← moveTuples page rightPage middleIndex p.rbegin
  let p ← leafAt page
  let tuple ← lift (it.get p)
  let index ← lift (tuple.getField (TreeStore.keyField (← get)))
  moveTuple page rightPage tuple
  let p ← leafAt page
  let right ← leafAt rightPage
  let parentPage ← getParentWithEmptySlots fuel p.getParentId (some index)
  enterSplit parentPage (some index) p.pid right.pid
  if ← lift (field.compare .lessThan index) then pure page else pure rightPage

end Split

/-- The page id of the root; a new tree gets its first leaf as root. -/
def getRoot : EStateM Fault σ BTreePageId := do
  let rootPtr ← getRootPtrPage
  let p ← rootPtrAt rootPtr
  match p.getRootId with
  | some rootId => pure rootId
  | none =>
    let s ← get
    let rootId : BTreePageId :=
      ⟨TreeStore.tableid s, Int32.ofNat (TreeStore.getNumPages s), .leaf⟩
    let rootPtr ← TreeStore.getPage (← rootPtrId) .readWrite
    modifyRootPtr rootPtr fun p => p.setRootId (some rootId)
    pure rootId

def leafWithRoom (fuel : ℕ) (leafPage : H) (key : Field) : EStateM Fault σ H := do
  let l ← leafAt leafPage
  if l.getNumEmptySlots = 0 then splitLeafPage fuel leafPage key else pure leafPage

/-- `insertTuple`, which leaves the pages it returns in `dirtypages`. -/
def insertTuple (t : Tuple) : EStateM Fault σ Tuple := do
  let rootId ← getRoot
  let s ← get
  let fuel := TreeStore.getNumPages s + 1
  let key ← lift (t.getField (TreeStore.keyField s))
  let leafPage ← findLeafPage .readOnly (some key) fuel rootId
  let leafPage ← TreeStore.getPage (← leafAt leafPage).pid .readWrite
  let leafPage ← leafWithRoom fuel leafPage key
  let l ← leafAt leafPage
  let (l, t) ← lift (l.insertTuple t)
  TreeStore.store leafPage (.leaf l)
  pure t

end BTreeFile

end PagedDb
