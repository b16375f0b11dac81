import PagedDb.BTree.InternalCodec
import PagedDb.BTree.LeafCodec
import PagedDb.Storage.BufferPool

/-!
# The pages of a B+ tree file

A file holds one root pointer page of nine bytes and then pages of the pool's
page size, numbered from 1: leaf, internal and header pages. The descriptor is
opened with `O_APPEND`, so every write goes to the end of the file.
-/

namespace PagedDb

open Memory Exec

/-- `BTreeRootPtrPage`. -/
structure BTreeRootPtrPage where
  pid : BTreePageId
  root : Int32
  header : Int32
  rootCategory : BTreePageType
  deriving DecidableEq

namespace BTreeRootPtrPage

/-- `PAGE_SIZE`: the page has three words, of which the last does not fit. -/
def size : ℕ := 9

def getId (tableid : Int32) : BTreePageId := ⟨tableid, 0, .rootPtr⟩

def ofData (id : BTreePageId) (data : Buffer) : BTreeRootPtrPage :=
  ⟨id, loadWord data 0, loadWord data 4, ⟨loadWord data 8⟩⟩

def getPageData (p : BTreeRootPtrPage) (fresh : Buffer) : Buffer :=
  let data := storeWord (zeroed size fresh) 0 p.root
  let data := storeWord data 4 p.header
  storeWord data 8 p.rootCategory.code

/-- `getRootId`; the number 0 stands for no root. -/
def getRootId (p : BTreeRootPtrPage) : Option BTreePageId :=
  if p.root = 0 then none else some ⟨p.pid.tableId, p.root, p.rootCategory⟩

def setRootId (p : BTreeRootPtrPage) : Option BTreePageId → Except Fault BTreeRootPtrPage
  | none => .ok { p with root := 0 }
  | some id =>
    if id.tableId = p.pid.tableId ∧ (id.type = .internal ∨ id.type = .leaf) then
      .ok { p with root := id.pgNo, rootCategory := id.type }
    else .error .assertion

def getHeaderId (p : BTreeRootPtrPage) : Option BTreePageId :=
  if p.header = 0 then none else some ⟨p.pid.tableId, p.header, .header⟩

def setHeaderId (p : BTreeRootPtrPage) : Option BTreePageId → Except Fault BTreeRootPtrPage
  | none => .ok { p with header := 0 }
  | some id =>
    if id.tableId = p.pid.tableId ∧ id.type = .header then .ok { p with header := id.pgNo }
    else .error .assertion

end BTreeRootPtrPage

/-- `BTreeHeaderPage`: which page numbers are in use. -/
structure BTreeHeaderPage where
  pid : BTreePageId
  nextPage : Int32
  prevPage : Int32
  header : List UInt8
  deriving DecidableEq

namespace BTreeHeaderPage

def getHeaderSize (pageSize : ℕ) : ℕ := pageSize - 8

def getNumSlots (pageSize : ℕ) : ℕ := getHeaderSize pageSize * 8

def ofData (pageSize : ℕ) (id : BTreePageId) (data : Buffer) : BTreeHeaderPage :=
  ⟨id, loadWord data 0, loadWord data 4, read data 8 (getHeaderSize pageSize)⟩

/-- `init`: every page number is in use. -/
def init (p : BTreeHeaderPage) (pageSize : ℕ) : BTreeHeaderPage :=
  { p with header := List.replicate (getHeaderSize pageSize) 0xFF }

def getPageData (p : BTreeHeaderPage) (pageSize : ℕ) (fresh : Buffer) : Buffer :=
  let data := storeWord (zeroed pageSize fresh) 0 p.nextPage
  let data := storeWord data 4 p.prevPage
  write data 8 (p.header.take (getHeaderSize pageSize))

def pageId (tableId number : Int32) : Option BTreePageId :=
  if number = 0 then none else some ⟨tableId, number, .header⟩

/-- The number a header page of table `tableId` stores for another one. -/
def pageNumber (tableId : Int32) : Option BTreePageId → Except Fault Int32
  | none => .ok 0
  | some id =>
    if id.tableId = tableId ∧ id.type = .header then .ok id.pgNo else .error .assertion

def getNextPageId (p : BTreeHeaderPage) : Option BTreePageId := pageId p.pid.tableId p.nextPage

def setPrevPageId (p : BTreeHeaderPage) (id : Option BTreePageId) :
    Except Fault BTreeHeaderPage := do
  let prevPage ← pageNumber p.pid.tableId id
  pure { p with prevPage }

def setNextPageId (p : BTreeHeaderPage) (id : Option BTreePageId) :
    Except Fault BTreeHeaderPage := do
  let nextPage ← pageNumber p.pid.tableId id
  pure { p with nextPage }

def isSlotUsed (p : BTreeHeaderPage) (i : ℕ) : Bool := Bitmap.get p.header i

def markSlotUsed (p : BTreeHeaderPage) (i : ℕ) (value : Bool) : BTreeHeaderPage :=
  { p with header := Bitmap.set p.header i value }

/-- `getEmptySlot`; `none` stands for -1. -/
def getEmptySlot (p : BTreeHeaderPage) (pageSize : ℕ) : Option ℕ :=
  (List.range (getNumSlots pageSize)).find? fun i => !p.isSlotUsed i

end BTreeHeaderPage

/-- The page kinds of a `BTreeFile`. -/
inductive BTreeFilePage
  | rootPtr (page : BTreeRootPtrPage)
  | header (page : BTreeHeaderPage)
  | internal (page : BTreeInternalPage)
  | leaf (page : BTreeLeafPage)
  deriving DecidableEq

namespace BTreeFilePage

def getId : BTreeFilePage → BTreePageId
  | .rootPtr p => p.pid
  | .header p => p.pid
  | .internal p => p.pid
  | .leaf p => p.pid

def getPageData (pageSize : ℕ) (fresh : Buffer) : BTreeFilePage → Buffer
  | .rootPtr p => p.getPageData fresh
  | .header p => p.getPageData pageSize fresh
  | .internal p => p.getPageData pageSize fresh
  | .leaf p => p.getPageData pageSize fresh

end BTreeFilePage

/-- `BTreeFile`, with what new memory holds: `heap` behind the buffer of a page object, `stack` in
the locals of its constructor, `scratch` elsewhere. -/
structure BTreeFile where
  tableid : Int32
  keyField : ℕ
  td : TupleDesc
  fd : File
  heap : Ref → Buffer
  stack : Ref → Buffer
  scratch : Buffer

namespace BTreeFile

/-- `getPageSize() + (pageNumber() - 1) * pageSize`, computed in `int`. -/
def pageOffset (pageSize : ℕ) (pgNo : Int32) : Int :=
  (9 + (pgNo - 1) * Int32.ofNat pageSize).toInt

/-- `readPage`, into the new object `ref`. -/
def readPage (f : BTreeFile) (pageSize : ℕ) (id : BTreePageId) (ref : Ref) :
    Except Fault BTreeFilePage := do
  if id.type = .rootPtr then
    assertThat (f.fd.preadCount BTreeRootPtrPage.size 0 = some BTreeRootPtrPage.size)
    pure (.rootPtr (.ofData id (f.fd.pread (f.heap ref) BTreeRootPtrPage.size 0)))
  else
    let offset := pageOffset pageSize id.pgNo
    assertThat (f.fd.preadCount pageSize offset = some pageSize)
    let data := f.fd.pread (f.heap ref) pageSize offset
    if id.type = .internal then
      pure (.internal (.ofData pageSize f.td id f.keyField data (f.stack ref)))
    else if id.type = .leaf then
      pure (.leaf (.ofData pageSize f.td id f.keyField data (f.stack ref)))
    else pure (.header (.ofData pageSize id data))

def writePage (f : BTreeFile) (pageSize : ℕ) (page : BTreeFilePage) : BTreeFile :=
  let data := page.getPageData pageSize f.scratch
  if page.getId.type = .rootPtr then
    { f with fd := f.fd.pwriteAppend data BTreeRootPtrPage.size 0 }
  else
    { f with fd := f.fd.pwriteAppend data pageSize (pageOffset pageSize page.getId.pgNo) }

def getNumPages (f : BTreeFile) (pageSize : ℕ) : ℕ := (f.fd.size - BTreeRootPtrPage.size) / pageSize

instance : PageFile BTreeFilePage BTreeFile where
  getId page := .btree page.getId
  readPage f pageSize pid ref :=
    if pid.getTableId ≠ f.tableid then .error (.runtimeError "Table not found")
    else
      match pid with
      | .heap _ => .error .nullDeref
      | .btree id => f.readPage pageSize id ref
  writePage f pageSize tableId page :=
    if tableId ≠ f.tableid then .error (.runtimeError "Table not found")
    else .ok (f.writePage pageSize page)

end BTreeFile

end PagedDb
