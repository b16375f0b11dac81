import PagedDb.BTree.TreeOps

/-!
# The tree as a map of pages

What the pool and the file stand for: a map from page numbers to pages. A page
that was never asked for reads as an empty one. Asking for a page under another
id than its own, or for one that is not in the file, is stuck.
-/

namespace PagedDb

open Exec

/-- The logical content of a B+ tree file. `blank` gives the page that a new page reads as, by
the number of pages asked for before; `limit` is the size from which on the file can not be read
and `clearGrowth` is what `getEmptyPage` adds to it. -/
structure LogicalTree where
  tableid : Int32
  keyField : ℕ
  pageSize : ℕ
  limit : ℕ∞
  clearGrowth : ℕ
  blank : ℕ → BTreePageId → BTreeFilePage
  reads : ℕ
  size : ℕ
  pages : Int32 → Option BTreeFilePage

namespace LogicalTree

variable {t t' : LogicalTree} {n m : Int32} {p q : BTreeFilePage}

/-- What an access ends in that the interface does not promise anything for. -/
def stuck : Fault := .runtimeError "not a page of the tree"

def getNumPages (t : LogicalTree) : ℕ := (t.size - BTreeRootPtrPage.size) / t.pageSize

/-- A page id whose place is in a file of `count` pages. -/
def Numbered (tableid : Int32) (count : ℕ) (id : BTreePageId) : Prop :=
  id.tableId = tableid ∧
    (if id.type = .rootPtr then id.pgNo = 0 else 0 < id.pgNo.toInt ∧ id.pgNo.toInt ≤ count)

instance (tableid : Int32) (count : ℕ) (id : BTreePageId) :
    Decidable (Numbered tableid count id) := inferInstanceAs (Decidable (_ ∧ _))

def InFile (t : LogicalTree) (id : BTreePageId) : Prop :=
  BTreeRootPtrPage.size ≤ t.size ∧ (t.size : ℕ∞) ≤ t.limit ∧ Numbered t.tableid t.getNumPages id

instance (t : LogicalTree) (id : BTreePageId) : Decidable (t.InFile id) :=
  inferInstanceAs (Decidable (_ ∧ _))

def setPage (t : LogicalTree) (n : Int32) (p : BTreeFilePage) : LogicalTree :=
  { t with pages := Function.update t.pages n (some p) }

def touch (t : LogicalTree) (id : BTreePageId) : LogicalTree :=
  { t.setPage id.pgNo (t.blank t.reads id) with reads := t.reads + 1 }

def getPage (id : BTreePageId) : EStateM Fault LogicalTree Int32 := fun t =>
  if t.InFile id then
    match t.pages id.pgNo with
    | some p => if p.getId = id then .ok id.pgNo t else .error stuck t
    | none => .ok id.pgNo (t.touch id)
  else .error stuck t

def load (n : Int32) : EStateM Fault LogicalTree BTreeFilePage := fun t =>
  match t.pages n with
  | some p => .ok p t
  | none => .error stuck t

def store (n : Int32) (p : BTreeFilePage) : EStateM Fault LogicalTree Unit := fun t =>
  match t.pages n with
  | some q => if q.getId = p.getId then .ok () (t.setPage n p) else .error stuck t
  | none => .error stuck t

def discardPage (id : BTreePageId) : EStateM Fault LogicalTree Unit := fun t =>
  if t.pages id.pgNo = none then .ok () t else .error stuck t

def createFile : EStateM Fault LogicalTree Unit := fun t =>
  if t.size = 0 then .ok () { t with size := BTreeRootPtrPage.size + t.pageSize }
  else .error stuck t

def appendPage : EStateM Fault LogicalTree Unit := fun t =>
  if BTreeRootPtrPage.size ≤ t.size then .ok () { t with size := t.size + t.pageSize }
  else .error stuck t

def clearPage (n : Int32) : EStateM Fault LogicalTree Unit := fun t =>
  if t.pages n = none ∧ (t.size : ℕ∞) ≤ t.limit ∧ 0 < n.toInt ∧ n.toInt ≤ t.getNumPages then
    .ok () { t with size := t.size + t.clearGrowth }
  else .error stuck t

instance : TreeStore LogicalTree Int32 where
  tableid := tableid
  keyField := keyField
  pageSize := pageSize
  isEmpty t := t.size = 0
  getNumPages := getNumPages
  createFile := createFile
  appendPage := appendPage
  clearPage := clearPage
  discardPage := discardPage
  getPage id _ := getPage id
  load := load
  store := store

@[simp] theorem setPage_self : (t.setPage n p).pages n = some p := by
  simp [setPage]

@[simp] theorem setPage_ne (h : m ≠ n) : (t.setPage n p).pages m = t.pages m := by
  simp [setPage, h]

@[simp] theorem setPage_numPages : (t.setPage n p).getNumPages = t.getNumPages := rfl

@[simp] theorem setPage_keyField : (t.setPage n p).keyField = t.keyField := rfl

@[simp] theorem setPage_tableid : (t.setPage n p).tableid = t.tableid := rfl

@[simp] theorem setPage_pageSize : (t.setPage n p).pageSize = t.pageSize := rfl

theorem setPage_comm (h : n ≠ m) : (t.setPage n p).setPage m q = (t.setPage m q).setPage n p := by
  simp [setPage, Function.update_comm h]

@[simp] theorem setPage_setPage : (t.setPage n p).setPage n q = t.setPage n q := by
  simp [setPage]

theorem setPage_eq_self (h : t.pages n = some p) : t.setPage n p = t := by
  simp [setPage, ← h]

theorem load_run (h : t.pages n = some p) : TreeStore.load n t = .ok p t := by
  change load n t = _
  simp [load, h]

theorem store_run (h : t.pages n = some q) (hid : q.getId = p.getId) :
    TreeStore.store n p t = .ok () (t.setPage n p) := by
  change store n p t = _
  simp [store, h, hid]

theorem getPage_run {id : BTreePageId} (perm : Permissions) (h : t.pages id.pgNo = some p)
    (hid : p.getId = id) (hin : t.InFile id) :
    TreeStore.getPage id perm t = .ok id.pgNo t := by
  change getPage id t = _
  simp [getPage, h, hid, hin]

theorem getPage_touch {id : BTreePageId} (perm : Permissions) (h : t.pages id.pgNo = none)
    (hin : t.InFile id) : TreeStore.getPage id perm t = .ok id.pgNo (t.touch id) := by
  change getPage id t = _
  simp [getPage, h, hin]

end LogicalTree

end PagedDb
