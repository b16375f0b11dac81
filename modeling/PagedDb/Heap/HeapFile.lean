import PagedDb.Heap.HeapPageCodec
import PagedDb.Storage.BufferPool

/-!
# Heap files

A heap file stores page `n` at byte `n * pageSize`. The files of the catalog
are kept by table id; the buffer pool reads and writes their pages and their
insertion asks the pool for every page in turn.
-/

namespace PagedDb

open Memory Exec

/-- `HeapFile`. -/
structure HeapFile where
  tableid : Int32
  td : TupleDesc
  numPages : ℕ
  fd : File

/-- The heap files of the catalog under their ids, and what new memory holds: `heap` behind
the buffer of an object, `stack` in the locals of its constructor, `scratch` elsewhere. -/
structure HeapFiles where
  file? : Int32 → Option HeapFile
  filed : ∀ id f, file? id = some f → f.tableid = id
  heap : Ref → Buffer
  stack : Ref → Buffer
  scratch : Buffer

abbrev HeapDb := Database HeapPage HeapFiles

abbrev HeapM (α : Type) := DbM HeapPage HeapFiles α

namespace HeapFiles

def getDatabaseFile (files : HeapFiles) (tableid : Int32) : Except Fault HeapFile :=
  match files.file? tableid with
  | some f => .ok f
  | none => .error (.runtimeError "Table not found")

/-- Replace a file by a later state of it. -/
def setFile (files : HeapFiles) (f : HeapFile) : HeapFiles :=
  { files with
    file? := Function.update files.file? f.tableid (some f)
    filed := by
      intro id g hg
      rcases eq_or_ne id f.tableid with rfl | hid
      · rw [Function.update_self] at hg
        cases hg
        rfl
      · rw [Function.update_of_ne hid] at hg
        exact files.filed id g hg }

@[simp] theorem setFile_self (files : HeapFiles) (f : HeapFile) :
    (files.setFile f).file? f.tableid = some f := by
  simp [setFile]

theorem setFile_ne (files : HeapFiles) (f : HeapFile) {id : Int32} (h : id ≠ f.tableid) :
    (files.setFile f).file? id = files.file? id := by
  simp [setFile, h]

end HeapFiles

namespace HeapFile

/-- `pageNumber() * pageSize`, both of type `int`. -/
def pageOffset (pageSize : ℕ) (id : HeapPageId) : Int := (id.pgNo * Int32.ofNat pageSize).toInt

/-- `HeapFile::readPage`, into the new object `ref`. -/
def readPage (files : HeapFiles) (pageSize : ℕ) (pid : PageId) (ref : Ref) :
    Except Fault HeapPage := do
  let f ← files.getDatabaseFile pid.getTableId
  match pid with
  | .btree _ => .error .nullDeref
  | .heap id =>
    let data := f.fd.pread (files.heap ref) pageSize (pageOffset pageSize id)
    .ok (HeapPage.ofData pageSize f.td id data (files.stack ref))

def writePage (files : HeapFiles) (pageSize : ℕ) (tableId : Int32) (p : HeapPage) :
    Except Fault HeapFiles := do
  let f ← files.getDatabaseFile tableId
  let data := p.getPageData pageSize files.scratch
  .ok (files.setFile { f with fd := f.fd.pwrite data pageSize (pageOffset pageSize p.pid) })

instance : PageFile HeapPage HeapFiles where
  getId p := .heap p.pid
  readPage := readPage
  writePage := writePage

/-- The search loop of `insertTuple`: the first of the pages `i, …, i + n - 1` with room. -/
def findPage (tableid : Int32) : ℕ → ℕ → HeapM (Option Ref)
  | 0, _ => pure none
  | n + 1, i => do
    let pid := .heap ⟨tableid, Int32.ofNat i⟩
    let currPage ← BufferPool.getPage pid
    let obj ← deref currPage
    if 0 < obj.page.getNumEmptySlots then some <$> BufferPool.getPage pid
    else findPage tableid n (i + 1)

/-- The `page == nullptr` case: a new page behind the last one. -/
def growFile (tableId : Int32) : HeapM Ref := do
  let db ← get
  let f ← lift (db.files.getDatabaseFile tableId)
  let data := zeroed db.pageSize (db.files.heap db.objects.length)
  let page ← newObject (HeapPage.ofData db.pageSize f.td ⟨f.tableid, Int32.ofNat f.numPages⟩ data
    (db.files.stack db.objects.length))
  modify fun db => { db with files := db.files.setFile { f with numPages := f.numPages + 1 } }
  pure page

/-- The end of `insertTuple`: `page->insertTuple(&t); return {page};`. -/
def storeTuple (page : Ref) (t : Tuple) : HeapM (List Ref × Tuple) := do
  let obj ← deref page
  let (p, t) ← lift (obj.page.insertTuple t)
  modify fun db => db.setObject page { obj with page := p }
  pure ([page], t)

def insertTuple (tableId : Int32) (_tid : TransactionId) (t : Tuple) :
    HeapM (List Ref × Tuple) := do
  let db ← get
  let f ← lift (db.files.getDatabaseFile tableId)
  match ← findPage f.tableid f.numPages 0 with
  | some page => storeTuple page t
  | none =>
    let page ← growFile tableId
    storeTuple page t

def deleteTuple (_tableId : Int32) (_tid : TransactionId) (t : Tuple) :
    HeapM (List Ref × Tuple) := do
  match t.rid with
  | none => throw .nullDeref
  | some rid =>
    let page ← BufferPool.getPage rid.pid
    let obj ← deref page
    let p ← lift (obj.page.deleteTuple t)
    modify fun db => db.setObject page { obj with page := p }
    pure ([page], t)

instance : DbFile HeapPage HeapFiles where
  getDatabaseFile files tableId := (files.getDatabaseFile tableId).map fun _ => ()
  insertTuple := insertTuple
  deleteTuple := deleteTuple

end HeapFile

end PagedDb
