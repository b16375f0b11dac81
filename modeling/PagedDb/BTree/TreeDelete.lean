import PagedDb.BTree.TreeOps

/-!
# Deletion from a B+ tree file

The functions of `BTreeFile` that refill or merge a page with too few tuples or
entries. A merge takes an entry out of the parent, which may leave the parent
with too few in turn, so the functions call each other up the tree; the call for
the parent is a parameter, tied up at the end with the number of pages as fuel.
-/

namespace PagedDb

open Exec

namespace BTreeFile

variable {σ H : Type} [TreeStore σ H]

section Steal

/-- The loop of `stealFromLeafPage`, for one more than `n` tuples: the iterator and the last tuple
moved. -/
def stealTuples (page sibling : H) :
    ℕ → BTreeLeafPageIterator → EStateM Fault σ (BTreeLeafPageIterator × Tuple)
  | n, it => do
    let s ← leafAt sibling
    let tuple ← lift (it.get s)
    moveTuple sibling page tuple
    let s ← leafAt sibling
    let it := it.next s
    match n with
    | 0 => pure (it, tuple)
    | n + 1 => stealTuples page sibling n it

def stealFromLeafPage (page sibling parent : H) (entry : BTreeEntry) (isRightSibling : Bool) :
    EStateM Fault σ Unit := do
  let s ← leafAt sibling
  let p ← leafAt page
  let itemsToMove := ((s.getNumTuples : Int) - p.getNumTuples).tdiv 2
  if itemsToMove ≤ 0 then throw (.runtimeError "Nothing to steal.")
  else
    let (it, tuple) ← stealTuples page sibling (itemsToMove.toNat - 1)
      (if isRightSibling then s.begin else s.rbegin)
    let s ← leafAt sibling
    let tuple ← if isRightSibling then lift (it.get s) else pure tuple
    let key ← lift (tuple.getField (TreeStore.keyField (← get)))
    modifyInternal parent fun q => q.updateEntry { entry with key := some key }

/-- The loop of `stealFromLeftInternalPage`. -/
def stealLeft (page leftSibling parent : H) : ℕ → BTreeInternalPageReverseIterator →
    BTreeEntry → BTreeEntry → EStateM Fault σ Unit
  | 0, _, _, _ => pure ()
  | n + 1, it, rightEntry, parentEntry => do
    let l ← internalAt leftSibling
    let leftEntry ← lift (it.get l)
    let q ← internalAt parent
    let (q, parentEntry) ← lift (q.deleteKeyAndRightChild parentEntry)
    TreeStore.store parent (.internal q)
    let parentEntry : BTreeEntry :=
      { parentEntry with leftChild := leftEntry.rightChild, rightChild := rightEntry.leftChild }
    modifyInternal page fun p => p.insertEntry parentEntry
    let l ← internalAt leftSibling
    let (l, leftEntry) ← lift (l.deleteKeyAndRightChild leftEntry)
    TreeStore.store leftSibling (.internal l)
    let p ← internalAt page
    let leftEntry : BTreeEntry :=
      { leftEntry with leftChild := some l.pid, rightChild := some p.pid }
    modifyInternal parent fun q => q.insertEntry leftEntry
    let l ← internalAt leftSibling
    let it ← lift (it.next l)
    stealLeft page leftSibling parent n it parentEntry leftEntry

def stealFromLeftInternalPage (page leftSibling parent : H) (parentEntry : BTreeEntry) :
    EStateM Fault σ Unit := do
  let l ← internalAt leftSibling
  let p ← internalAt page
  let itemsToMove := ((l.getNumEntries : Int) - p.getNumEntries).tdiv 2
  if itemsToMove ≤ 0 then throw (.runtimeError "Nothing to steal.")
  else
    let it ← lift l.rbegin
    let first ← lift p.begin
    let rightEntry ← lift (first.get p)
    stealLeft page leftSibling parent itemsToMove.toNat it rightEntry parentEntry
    updateParentPointers page

/-- The loop of `stealFromRightInternalPage`. -/
def stealRight (page rightSibling parent : H) : ℕ → BTreeInternalPageIterator →
    BTreeEntry → BTreeEntry → EStateM Fault σ Unit
  | 0, _, _, _ => pure ()
  | n + 1, it, leftEntry, parentEntry => do
    let r ← internalAt rightSibling
    let rightEntry ← lift (it.get r)
    let q ← internalAt parent
    let (q, parentEntry) ← lift (q.deleteKeyAndRightChild parentEntry)
    TreeStore.store parent (.internal q)
    let parentEntry : BTreeEntry :=
      { parentEntry with leftChild := leftEntry.rightChild, rightChild := rightEntry.leftChild }
    modifyInternal page fun p => p.insertEntry parentEntry
    let r ← internalAt rightSibling
    let (r, rightEntry) ← lift (r.deleteKeyAndLeftChild rightEntry)
    TreeStore.store rightSibling (.internal r)
    let p ← internalAt page
    let rightEntry : BTreeEntry :=
      { rightEntry with leftChild := some p.pid, rightChild := some r.pid }
    modifyInternal parent fun q => q.insertEntry rightEntry
    let r ← internalAt rightSibling
    let it ← lift (it.next r)
    stealRight page rightSibling parent n it parentEntry rightEntry

def stealFromRightInternalPage (page rightSibling parent : H) (parentEntry : BTreeEntry) :
    EStateM Fault σ Unit := do
  let r ← internalAt rightSibling
  let p ← internalAt page
  let itemsToMove := ((r.getNumEntries : Int) - p.getNumEntries).tdiv 2
  if itemsToMove ≤ 0 then throw (.runtimeError "Nothing to steal.")
  else
    let it ← lift r.begin
    let last ← lift p.rbegin
    let leftEntry ← lift (last.get p)
    stealRight page rightSibling parent itemsToMove.toNat it leftEntry parentEntry
    updateParentPointers page

end Steal

section Merge

/-- `dynamic_cast<BTreePage *>(page)->getId()`. -/
def pageIdAt (page : H) : EStateM Fault σ BTreePageId := do
  match ← TreeStore.load page with
  | .internal p => pure p.pid
  | .leaf p => pure p.pid
  | _ => throw .nullDeref

def maxEmptySlots (slots : ℕ) : ℕ := slots - slots / 2

/-- `deleteParentEntry`, given what it calls for a parent with too few entries. -/
def deleteParentEntry (handleParent : H → EStateM Fault σ Unit) (leftPage parent : H)
    (parentEntry : BTreeEntry) : EStateM Fault σ BTreeEntry := do
  let q ← internalAt parent
  let (q, parentEntry) ← lift (q.deleteKeyAndRightChild parentEntry)
  TreeStore.store parent (.internal q)
  if q.getNumEmptySlots = q.getMaxEntries then
    let rootPtrId := q.getParentId
    lift (assertThat (rootPtrId.type = .rootPtr))
    let rootPtr ← TreeStore.getPage rootPtrId .readWrite
    setParentId leftPage rootPtrId
    let leftId ← pageIdAt leftPage
    modifyRootPtr rootPtr fun r => r.setRootId (some leftId)
    setEmptyPage (H := H) q.pid.pgNo
    pure parentEntry
  else if maxEmptySlots q.getMaxEntries < q.getNumEmptySlots then
    handleParent parent
    pure parentEntry
  else pure parentEntry

/-- The loop of `mergeLeafPages` over the tuples of the right page. -/
def mergeTuples (leftPage rightPage : H) : ℕ → BTreeLeafPageIterator → EStateM Fault σ Unit
  | 0, _ => throw .outOfFuel
  | fuel + 1, it => do
    let r ← leafAt rightPage
    if it.ne r.ending then
      let tuple ← lift (it.get r)
      moveTuple rightPage leftPage tuple
      let r ← leafAt rightPage
      mergeTuples leftPage rightPage fuel (it.next r)
    else pure ()

def mergeLeafPages (handleParent : H → EStateM Fault σ Unit) (leftPage rightPage parent : H)
    (parentEntry : BTreeEntry) : EStateM Fault σ Unit := do
  let r ← leafAt rightPage
  mergeTuples leftPage rightPage (r.numSlots + 1) r.begin
  let r ← leafAt rightPage
  let nextPageId := r.getRightSiblingId
  modifyLeaf leftPage fun l => l.setRightSiblingId nextPageId
  let l ← leafAt leftPage
  linkNext (H := H) nextPageId l.pid
  let _ ← deleteParentEntry handleParent leftPage parent parentEntry
  let r ← leafAt rightPage
  setEmptyPage (H := H) r.pid.pgNo

/-- The loop of `mergeInternalPages` over the entries of the right page. -/
def mergeEntries (leftPage rightPage : H) : ℕ → BTreeInternalPageIterator → EStateM Fault σ Unit
  | 0, _ => throw .outOfFuel
  | fuel + 1, it => do
    let r ← internalAt rightPage
    if it.ne r.ending then
      let entry ← lift (it.get r)
      let (r, entry) ← lift (r.deleteKeyAndRightChild entry)
      TreeStore.store rightPage (.internal r)
      modifyInternal leftPage fun l => l.insertEntry entry
      let r ← internalAt rightPage
      let it ← lift (it.next r)
      mergeEntries leftPage rightPage fuel it
    else pure ()

def mergeInternalPages (handleParent : H → EStateM Fault σ Unit) (leftPage rightPage parent : H)
    (parentEntry : BTreeEntry) : EStateM Fault σ Unit := do
  let parentEntry ← deleteParentEntry handleParent leftPage parent parentEntry
  let r ← internalAt rightPage
  let first ← lift r.begin
  let rightEntry ← lift (first.get r)
  let l ← internalAt leftPage
  let last ← lift l.rbegin
  let leftEntry ← lift (last.get l)
  modifyInternal leftPage fun l => l.insertEntry
    { parentEntry with leftChild := leftEntry.rightChild, rightChild := rightEntry.leftChild }
  let r ← internalAt rightPage
  let it ← lift r.begin
  mergeEntries leftPage rightPage (r.numSlots + 1) it
  updateParentPointers leftPage
  let r ← internalAt rightPage
  setEmptyPage (H := H) r.pid.pgNo

end Merge

section MinOccupancy

/-- The loop of `handleMinOccupancyPage` over the entries of the parent: the entries on the left
and on the right of a page. The source has no step to the next entry in it. -/
def siblingEntries (q : BTreeInternalPage) (id : BTreePageId) :
    ℕ → BTreeInternalPageIterator → Option BTreeEntry →
      Except Fault (Option BTreeEntry × Option BTreeEntry)
  | 0, _, _ => .error .outOfFuel
  | fuel + 1, it, leftEntry =>
    if it.ne q.ending then do
      let e ← it.get q
      match e.leftChild, e.rightChild with
      | none, _ => throw .nullDeref
      | some left, rightChild =>
        if left = id then pure (leftEntry, some e)
        else
          match rightChild with
          | none => throw .nullDeref
          | some right => siblingEntries q id fuel it (if right = id then some e else leftEntry)
    else pure (leftEntry, none)

def handleMinOccupancyLeafPage (handleParent : H → EStateM Fault σ Unit) (page : H)
    (parent : Option H) (leftEntry rightEntry : Option BTreeEntry) : EStateM Fault σ Unit := do
  let p ← leafAt page
  let emptySlots := maxEmptySlots p.numSlots
  match parent, leftEntry, rightEntry with
  | some parent, some ⟨key, some left, right, rid⟩, _ =>
    let leftSibling ← TreeStore.getPage left .readWrite
    let l ← leafAt leftSibling
    if emptySlots ≤ l.getNumEmptySlots then
      mergeLeafPages handleParent leftSibling page parent ⟨key, some left, right, rid⟩
    else stealFromLeafPage page leftSibling parent ⟨key, some left, right, rid⟩ false
  | some parent, _, some ⟨key, left, some right, rid⟩ =>
    let rightSibling ← TreeStore.getPage right .readWrite
    let r ← leafAt rightSibling
    if emptySlots ≤ r.getNumEmptySlots then
      mergeLeafPages handleParent page rightSibling parent ⟨key, left, some right, rid⟩
    else stealFromLeafPage page rightSibling parent ⟨key, left, some right, rid⟩ true
  | _, _, _ => pure ()

def handleMinOccupancyInternalPage (handleParent : H → EStateM Fault σ Unit) (page : H)
    (parent : Option H) (leftEntry rightEntry : Option BTreeEntry) : EStateM Fault σ Unit := do
  let p ← internalAt page
  let emptySlots := maxEmptySlots p.getMaxEntries
  match parent, leftEntry, rightEntry with
  | some parent, some ⟨key, some left, right, rid⟩, _ =>
    let leftSibling ← TreeStore.getPage left .readWrite
    let l ← internalAt leftSibling
    if emptySlots ≤ l.getNumEmptySlots then
      mergeInternalPages handleParent leftSibling page parent ⟨key, some left, right, rid⟩
    else stealFromLeftInternalPage page leftSibling parent ⟨key, some left, right, rid⟩
  | some parent, _, some ⟨key, left, some right, rid⟩ =>
    let rightSibling ← TreeStore.getPage right .readWrite
    let r ← internalAt rightSibling
    if emptySlots ≤ r.getNumEmptySlots then
      mergeInternalPages handleParent page rightSibling parent ⟨key, left, some right, rid⟩
    else stealFromRightInternalPage page rightSibling parent ⟨key, left, some right, rid⟩
  | _, _, _ => pure ()

/-- `handleMinOccupancyPage`, given what it calls for the parent. The loop over the parent's
entries gets a bound that it can only reach by not ending at all. -/
def handlePage (handleParent : H → EStateM Fault σ Unit) (page : H) : EStateM Fault σ Unit := do
  let id ← pageIdAt page
  let parentId ← getParentId page
  if parentId.type ≠ .rootPtr then
    let parent ← TreeStore.getPage parentId .readWrite
    let q ← internalAt parent
    let it ← lift q.begin
    let (leftEntry, rightEntry) ← lift (siblingEntries q id (q.numSlots + 1) it none)
    if id.type = .leaf then
      handleMinOccupancyLeafPage handleParent page (some parent) leftEntry rightEntry
    else handleMinOccupancyInternalPage handleParent page (some parent) leftEntry rightEntry
  else if id.type = .leaf then handleMinOccupancyLeafPage handleParent page none none none
  else handleMinOccupancyInternalPage handleParent page none none none

def handleMinOccupancyPage : ℕ → H → EStateM Fault σ Unit
  | 0, _ => throw .outOfFuel
  | fuel + 1, page => handlePage (handleMinOccupancyPage fuel) page

end MinOccupancy

/-- `deleteTuple`, which leaves the pages it returns in `dirtypages`. -/
def deleteTuple (t : Tuple) : EStateM Fault σ Tuple := do
  match t.rid with
  | none => throw .nullDeref
  | some rid =>
    let s ← get
    let page ← TreeStore.getPage ⟨TreeStore.tableid s, rid.pid.pageNumber, .leaf⟩ .readWrite
    let p ← leafAt page
    let (p, t) ← lift (p.deleteTuple t)
    TreeStore.store page (.leaf p)
    if maxEmptySlots p.numSlots < p.getNumEmptySlots then
      handleMinOccupancyPage (TreeStore.getNumPages s + 1) page
    pure t

end BTreeFile

end PagedDb
