import PagedDb.Foundation.Exec
import PagedDb.Storage.Values
import PagedDb.Storage.File

/-!
# The buffer pool

Page objects live on a heap and are named by references; the pool maps page ids
to references, so a caller's pointer stays valid when its page is evicted, and
a page read again is a second object. `π` is the type of pages and `δ` the
files behind the catalog, which the pool sees only through `PageFile`.
-/

namespace PagedDb

open Exec

abbrev Ref := ℕ

/-- `PagesMap`: an `unordered_map` from page ids to page pointers. -/
abbrev PagesMap := AList fun _ : PageId => Ref

/-- A page object: the page and the `dirty` member it inherits from `Page`. -/
structure PageObject (π : Type) where
  page : π
  dirty : Option TransactionId
  deriving DecidableEq

/-- What the pool calls on pages and, through the catalog, on their files. -/
class PageFile (π δ : Type) where
  /-- `Page::getId`. -/
  getId : π → PageId
  /-- `getCatalog().getDatabaseFile(pid->getTableId())->readPage(*pid)`, into a new object. -/
  readPage : δ → ℕ → PageId → Ref → Except Fault π
  /-- `getCatalog().getDatabaseFile(tableId)->writePage(page)`. -/
  writePage : δ → ℕ → Int32 → π → Except Fault δ

/-- The heap of page objects, the pool and the files. The iteration order of an
`unordered_map` is unspecified: `order` says which entry each next `begin()` finds. -/
structure Database (π δ : Type) where
  objects : List (PageObject π)
  pageSize : ℕ
  numPages : ℕ
  pages : PagesMap
  order : ℕ → ℕ
  files : δ

abbrev DbM (π δ α : Type) := EStateM Fault (Database π δ) α

variable {π δ : Type}

namespace Database

/-- Put `obj` at a reference. -/
def setObject (db : Database π δ) (ref : Ref) (obj : PageObject π) : Database π δ :=
  { db with objects := db.objects.set ref obj }

def object? (db : Database π δ) (pid : PageId) : Option (PageObject π) :=
  (db.pages.lookup pid).bind fun ref => db.objects[ref]?

def page? (db : Database π δ) (pid : PageId) : Option π :=
  (db.object? pid).map PageObject.page

theorem object?_of_lookup {db : Database π δ} {pid : PageId} {ref : Ref} {obj : PageObject π}
    (hl : db.pages.lookup pid = some ref) (hobj : db.objects[ref]? = some obj) :
    db.object? pid = some obj := by
  rw [object?, hl]
  exact hobj

theorem object?_eq_none {db : Database π δ} {pid : PageId} (hl : db.pages.lookup pid = none) :
    db.object? pid = none := by
  rw [object?, hl]
  rfl

theorem setObject_self {db : Database π δ} {ref : Ref} {obj obj' : PageObject π} (h : db.objects[ref]? = some obj) :
    (db.setObject ref obj').objects[ref]? = some obj' := by
  rw [setObject, List.getElem?_set_self (List.getElem?_eq_some_iff.mp h).1]

theorem setObject_ne {db : Database π δ} {ref ref' : Ref} {obj : PageObject π} (h : ref ≠ ref') :
    (db.setObject ref obj).objects[ref']? = db.objects[ref']? :=
  List.getElem?_set_ne h

end Database

def deref (ref : Ref) : DbM π δ (PageObject π) := fun db =>
  match db.objects[ref]? with
  | some obj => .ok obj db
  | none => .error .nullDeref db

/-- `new`: the object gets the next reference. -/
def newObject (page : π) : DbM π δ Ref := fun db =>
  .ok db.objects.length { db with objects := db.objects ++ [⟨page, none⟩] }

def markDirty (ref : Ref) (tid : Option TransactionId) : DbM π δ Unit := do
  let obj ← deref ref
  modify fun db => db.setObject ref { obj with dirty := tid }

theorem deref_run {db : Database π δ} {ref : Ref} {obj : PageObject π} (h : db.objects[ref]? = some obj) :
    deref ref db = .ok obj db := by
  rw [deref, h]

theorem markDirty_run {db : Database π δ} {ref : Ref} {obj : PageObject π} (h : db.objects[ref]? = some obj)
    (tid : Option TransactionId) :
    markDirty ref tid db = .ok () (db.setObject ref { obj with dirty := tid }) := by
  rw [markDirty, bind_ok (deref_run h)]
  rfl

namespace BufferPool

variable [PageFile π δ]

def flushPage (pid : PageId) : DbM π δ Unit := do
  let db ← get
  match db.pages.lookup pid with
  | none => pure ()
  | some ref =>
    let obj ← deref ref
    if obj.dirty.isSome then
      markDirty ref none
      let files ← lift (PageFile.writePage db.files db.pageSize pid.getTableId obj.page)
      modify fun db => { db with files }
    else pure ()

def evictPage : DbM π δ Unit := do
  let db ← get
  match db.pages.keys[db.order 0 % db.pages.keys.length]? with
  | none => pure ()
  | some pid =>
    modify fun db => { db with order := fun n => db.order (n + 1) }
    flushPage pid
    modify fun db => { db with pages := db.pages.erase pid }

def flushAllPages : DbM π δ Unit := do
  let db ← get
  db.pages.keys.forM flushPage

def flushPages (tid : TransactionId) : DbM π δ Unit := do
  let db ← get
  db.pages.entries.forM fun item => do
    let obj ← deref item.2
    if obj.dirty = some tid then flushPage item.1 else pure ()

def discardPage (pid : PageId) : DbM π δ Unit :=
  modify fun db => { db with pages := db.pages.erase pid }

/-- The eviction that `getPage` and `insertTuple` guard by a test. -/
def evictIf (full : Prop) [Decidable full] : DbM π δ Unit :=
  if full then evictPage else pure ()

/-- The end of `getPage`: read the page into a new object and file it. -/
def loadPage (pid : PageId) : DbM π δ Ref := do
  let db ← get
  let page ← lift (PageFile.readPage db.files db.pageSize pid db.objects.length)
  let ref ← newObject page
  modify fun db => { db with pages := db.pages.insert pid ref }
  pure ref

def getPage (pid : PageId) : DbM π δ Ref := do
  let db ← get
  match db.pages.lookup pid with
  | some ref => pure ref
  | none =>
    evictIf (db.numPages ≤ db.pages.keys.length)
    loadPage pid

/-- The loop body that `insertTuple` and `deleteTuple` run over the dirtied pages. -/
def registerDirty (tid : TransactionId) (ref : Ref) : DbM π δ Unit := do
  markDirty ref (some tid)
  let obj ← deref ref
  let pid := PageFile.getId δ obj.page
  let db ← get
  evictIf (db.numPages ≤ db.pages.keys.length ∧ db.pages.lookup pid = none)
  modify fun db => { db with pages := db.pages.insert pid ref }

end BufferPool

/-- `DbFile`: a `PageFile` that also stores tuples. Both calls return the dirtied pages
and the caller's tuple object as they left it; the `Int32` is the id of the file. -/
class DbFile (π δ : Type) extends PageFile π δ where
  /-- `Catalog::getDatabaseFile`, which throws when the table is unknown. -/
  getDatabaseFile : δ → Int32 → Except Fault Unit
  insertTuple : Int32 → TransactionId → Tuple → DbM π δ (List Ref × Tuple)
  deleteTuple : Int32 → TransactionId → Tuple → DbM π δ (List Ref × Tuple)

namespace BufferPool

variable [DbFile π δ]

def insertTuple (tid : TransactionId) (tableId : Int32) (t : Tuple) : DbM π δ Tuple := do
  let db ← get
  lift (DbFile.getDatabaseFile π db.files tableId)
  let (dirtypages, t) ← DbFile.insertTuple tableId tid t
  dirtypages.forM (registerDirty tid)
  pure t

/-- `BufferPool::deleteTuple`. The body calls the file's `insertTuple`. -/
def deleteTuple (tid : TransactionId) (t : Tuple) : DbM π δ Tuple := do
  match t.rid with
  | none => throw .nullDeref
  | some rid =>
    let db ← get
    lift (DbFile.getDatabaseFile π db.files rid.pid.getTableId)
    let (dirtypages, t) ← DbFile.insertTuple rid.pid.getTableId tid t
    dirtypages.forM (registerDirty tid)
    pure t

end BufferPool

end PagedDb
