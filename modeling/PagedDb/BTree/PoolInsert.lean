import PagedDb.BTree.TreeOps

/-!
# Insertion into a B+ tree file through the pool

`BufferPool::insertTuple` starts with an empty map of dirty pages, lets the file
insert the tuple, and marks and files the pages the file returns.
-/

namespace PagedDb

open Exec

/-- One call of `BufferPool::insertTuple`. `BTreeFile::insertTuple` returns its pages in the
iteration order of an `unordered_map`: `arrange` is that order. -/
structure InsertCall where
  tid : TransactionId
  tuple : Tuple
  arrange : List Ref → List Ref
  arrange_perm : ∀ refs, (arrange refs).Perm refs

def InsertCall.inOrder (tuple : Tuple) : InsertCall := ⟨⟨0⟩, tuple, id, fun _ => .refl _⟩

namespace PoolTree

variable {δ : Type} [BTreeDisk δ]

/-- The pages that `BTreeFile::insertTuple` returns. -/
def returned (s : PoolTree δ) : List Ref := s.dirtypages.entries.map Sigma.snd

/-- `BufferPool::insertTuple`; the result is the caller's tuple. -/
def insertTuple (call : InsertCall) : EStateM Fault (PoolTree δ) Tuple := do
  modify fun s => { s with dirtypages := ∅ }
  let t ← BTreeFile.insertTuple call.tuple
  let s ← get
  onDb ((call.arrange s.returned).forM (BufferPool.registerDirty call.tid))
  pure t

def insertAll : List InsertCall → EStateM Fault (PoolTree δ) (List Tuple)
  | [] => pure []
  | call :: calls => do
    let t ← insertTuple call
    let ts ← insertAll calls
    pure (t :: ts)

/-- An empty pool over a file. -/
def opened (file : δ) (pageSize numPages : ℕ) (order : ℕ → ℕ) : PoolTree δ where
  db :=
    { objects := []
      pageSize
      numPages
      pages := ∅
      order
      files := file }
  dirtypages := ∅

end PoolTree

/-- The file that the constructor of `BTreeFile` opens: it is truncated. -/
def BTreeFile.opened (tableid : Int32) (keyField : ℕ) (td : TupleDesc) (heap stack : Ref → Memory.Buffer)
    (scratch : Memory.Buffer) : BTreeFile :=
  { tableid, keyField, td, fd := .empty, heap, stack, scratch }

end PagedDb
