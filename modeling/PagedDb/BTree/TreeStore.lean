import PagedDb.BTree.FilePages

/-!
# How a B+ tree reaches its pages

The code of `BTreeFile` gets pages by id, changes them through pointers and
appends empty ones. `TreeStore` is that interface; the code is written over it
once. `PoolTree` is the interface as the program has it: the buffer pool over a
file, and the map of pages the current operation has asked for to write.
-/

namespace PagedDb

open Exec

/-- `Permissions`. -/
inductive Permissions
  | readOnly
  | readWrite
  deriving DecidableEq

/-- What `BTreeFile` uses to reach its pages: `σ` is the state of a run and `H` the pointers to
page objects. -/
class TreeStore (σ : Type) (H : outParam Type) where
  tableid : σ → Int32
  keyField : σ → ℕ
  pageSize : σ → ℕ
  /-- `st_size == 0`. -/
  isEmpty : σ → Bool
  getNumPages : σ → ℕ
  /-- Write an empty root pointer page and an empty leaf. -/
  createFile : EStateM Fault σ Unit
  /-- `write` an empty page to the end of the file. -/
  appendPage : EStateM Fault σ Unit
  /-- `pwrite` the first bytes of an empty page to the place of a page. -/
  clearPage : Int32 → EStateM Fault σ Unit
  /-- Take a page out of the pool and out of `dirtypages`. -/
  discardPage : BTreePageId → EStateM Fault σ Unit
  getPage : BTreePageId → Permissions → EStateM Fault σ H
  load : H → EStateM Fault σ BTreeFilePage
  store : H → BTreeFilePage → EStateM Fault σ Unit

/-- The file of a `BTreeFile`, as far as its own code uses it. -/
class BTreeDisk (δ : Type) extends PageFile BTreeFilePage δ where
  tableid : δ → Int32
  keyField : δ → ℕ
  isEmpty : δ → Bool
  getNumPages : δ → ℕ → ℕ
  createFile : δ → ℕ → δ
  appendPage : δ → ℕ → δ
  clearPage : δ → ℕ → Int32 → δ

namespace BTreeFile

/-- The two `pwrite` calls of `getRootPtrPage` on an empty file. -/
def createFile (f : BTreeFile) (pageSize : ℕ) : BTreeFile :=
  let rootPtr := Memory.zeroed BTreeRootPtrPage.size f.scratch
  let fd := f.fd.pwriteAppend rootPtr BTreeRootPtrPage.size 0
  { f with fd := fd.pwriteAppend (Memory.zeroed pageSize f.scratch) pageSize BTreeRootPtrPage.size }

/-- The `write` call of `getEmptyPageNo`. -/
def appendPage (f : BTreeFile) (pageSize : ℕ) : BTreeFile :=
  { f with fd := f.fd.append (Memory.zeroed pageSize f.scratch) pageSize }

/-- The `pwrite` call of `getEmptyPage`: the length is that of the root pointer page. -/
def clearPage (f : BTreeFile) (pageSize : ℕ) (pgNo : Int32) : BTreeFile :=
  let page := Memory.zeroed BTreeRootPtrPage.size f.scratch
  { f with fd := f.fd.pwriteAppend page BTreeRootPtrPage.size (pageOffset pageSize pgNo) }

end BTreeFile

instance : BTreeDisk BTreeFile where
  tableid := BTreeFile.tableid
  keyField := BTreeFile.keyField
  isEmpty f := f.fd.size = 0
  getNumPages := BTreeFile.getNumPages
  createFile := BTreeFile.createFile
  appendPage := BTreeFile.appendPage
  clearPage := BTreeFile.clearPage

/-- The database and `dirtypages`, the pages the current operation may have changed. -/
structure PoolTree (δ : Type) where
  db : Database BTreeFilePage δ
  dirtypages : PagesMap

namespace PoolTree

variable {δ : Type}

def onDb {α : Type} (x : DbM BTreeFilePage δ α) : EStateM Fault (PoolTree δ) α :=
  zoom PoolTree.db (fun db s => { s with db }) x

def onFile (f : δ → ℕ → δ) : EStateM Fault (PoolTree δ) Unit :=
  onDb (modify fun db => { db with files := f db.files db.pageSize })

variable [BTreeDisk δ]

def getPage (pid : BTreePageId) (perm : Permissions) : EStateM Fault (PoolTree δ) Ref := do
  let s ← get
  match s.dirtypages.lookup (.btree pid) with
  | some ref => pure ref
  | none =>
    let ref ← onDb (BufferPool.getPage (.btree pid))
    if perm = .readWrite then
      modify fun s => { s with dirtypages := s.dirtypages.insert (.btree pid) ref }
    pure ref

/-- `discardPage(newPageId); dirtypages.erase(newPageId)`. -/
def discardPage (pid : BTreePageId) : EStateM Fault (PoolTree δ) Unit := do
  onDb (BufferPool.discardPage (.btree pid))
  modify fun s => { s with dirtypages := s.dirtypages.erase (.btree pid) }

def load (ref : Ref) : EStateM Fault (PoolTree δ) BTreeFilePage := do
  let obj ← onDb (deref ref)
  pure obj.page

def store (ref : Ref) (page : BTreeFilePage) : EStateM Fault (PoolTree δ) Unit := do
  let obj ← onDb (deref ref)
  modify fun s => { s with db := s.db.setObject ref { obj with page } }

instance : TreeStore (PoolTree δ) Ref where
  tableid s := BTreeDisk.tableid s.db.files
  keyField s := BTreeDisk.keyField s.db.files
  pageSize s := s.db.pageSize
  isEmpty s := BTreeDisk.isEmpty s.db.files
  getNumPages s := BTreeDisk.getNumPages s.db.files s.db.pageSize
  createFile := onFile BTreeDisk.createFile
  appendPage := onFile BTreeDisk.appendPage
  clearPage pgNo := onFile fun f pageSize => BTreeDisk.clearPage f pageSize pgNo
  discardPage := discardPage
  getPage := getPage
  load := load
  store := store

end PoolTree

end PagedDb
