import PagedDb.Heap.TableRows

/-!
# Deleting through the pool

`BufferPool::deleteTuple` calls the file's `insertTuple`. Whatever the table and
the tuple are, the call adds a row instead of taking one away.
-/

namespace PagedDb

open Exec WriteBack

namespace HeapFile

variable {db db' : HeapDb} {id : HeapPageId} {i : ℕ} {t : Tuple}

/-- What a deletion of the tuple in slot `i` of page `id` is to leave behind. -/
structure Deleted (tid : TransactionId) (t : Tuple) (id : HeapPageId) (i : ℕ) (db db' : HeapDb) :
    Prop where
  rows : (t.fields :: tableRows db' id.tableId).Perm (tableRows db id.tableId)
  others : ∀ id' k row, (id', k) ≠ (id, i) → (Holds db' id' k row ↔ Holds db id' k row)
  pages : db'.files.schema = db.files.schema
  dirty : ∃ obj, db'.object? (.heap id) = some obj ∧ obj.dirty = some tid

/-- The tuple is in the slot its record id names. -/
structure InPlace (db : HeapDb) (id : HeapPageId) (i : ℕ) (t : Tuple) : Prop where
  live : .heap id ∈ livePages db.files.schema
  rid : t.rid = some ⟨.heap id, i⟩
  slot : ∃ p, readerPage db id = some p ∧ t.td = p.td ∧ p.row? i = some t.fields

theorem deleteTuple_eq_insertTuple {rid : RecordId} (hrid : t.rid = some rid) (tid : TransactionId) :
    (BufferPool.deleteTuple tid t : HeapM Tuple) =
      BufferPool.insertTuple tid rid.pid.getTableId t := by
  rw [BufferPool.deleteTuple, hrid]
  rfl

/-- Deleting a stored tuple stores it once more: the table gets a page or a row. -/
theorem deleteTuple_adds (h : Ready HeapPage.headerView db) (hin : InPlace db id i t)
    (tid : TransactionId) :
    ∃ t' db', BufferPool.deleteTuple tid t db = .ok t' db' ∧
      (db'.files.schema ≠ db.files.schema ∨
        (tableRows db' id.tableId).length = (tableRows db id.tableId).length + 1) := by
  obtain ⟨p, hp, htd, hrow⟩ := hin.slot
  obtain ⟨q, hq, hqid, hgood, -⟩ := readerPage_spec h hin.live
  obtain rfl : p = q := Option.some.inj (hp.symm.trans hq)
  obtain ⟨n, hs⟩ := hgood.schema
  rw [hqid] at hs
  have hslot : 0 < HeapPage.getNumTuples db.pageSize p.td := by
    rw [← hgood.fits.slots]
    by_contra hzero
    rw [p.row?_of_le (by omega)] at hrow
    cases hrow
  obtain ⟨db', p', k, hrun, hstored, hplace⟩ := insertTuple_spec h hs htd hslot tid
  refine ⟨_, db', by rw [deleteTuple_eq_insertTuple hin.rid]; exact hrun, ?_⟩
  rcases hplace with hold | hnew
  · right
    obtain ⟨hitems, -⟩ := items_insert countTally h hs htd hstored (.inl hold) hold.ready
    rw [tableRows_length, tableRows_length, hitems.length_eq, List.length_cons]
  · left
    intro hsame
    have := congrFun (hnew.schema.symm.trans hsame) id.tableId
    rw [Function.update_self, hs] at this
    cases this

theorem not_deleted {tid : TransactionId}
    (h : db'.files.schema ≠ db.files.schema ∨
      (tableRows db' id.tableId).length = (tableRows db id.tableId).length + 1) :
    ¬ Deleted tid t id i db db' := by
  intro hdel
  rcases h with hpages | hlen
  · exact hpages hdel.pages
  · have := hdel.rows.length_eq
    rw [List.length_cons] at this
    omega

/-- No deletion through the pool does what it is for, in any state and for any stored tuple. -/
theorem deleteTuple_not_deleted (h : Ready HeapPage.headerView db) (hin : InPlace db id i t)
    (tid : TransactionId) :
    ¬ ∃ t' db', BufferPool.deleteTuple tid t db = .ok t' db' ∧ Deleted tid t id i db db' := by
  rintro ⟨t', db', hrun, hdel⟩
  obtain ⟨t'', db'', hrun', hadds⟩ := deleteTuple_adds h hin tid
  rw [hrun'] at hrun
  cases hrun
  exact not_deleted hadds hdel

def storedFive : Tuple := (intTuple 5).setRecordId (some ⟨.heap (pageId 7 0), 0⟩)

theorem onePage_inPlace :
    InPlace (openTable 9 1 7 oneInt onePageFile) (pageId 7 0) 0 storedFive := by
  refine ⟨⟨pageId 7 0, oneInt, 1, rfl, rfl, by decide, by decide⟩, rfl, ?_⟩
  exact ⟨_, rfl, rfl, by decide⟩

theorem deleteTuple_not_deleted_onePage :
    ¬ ∃ t' db', BufferPool.deleteTuple ⟨1⟩ storedFive (openTable 9 1 7 oneInt onePageFile) =
        .ok t' db' ∧
      Deleted ⟨1⟩ storedFive (pageId 7 0) 0 (openTable 9 1 7 oneInt onePageFile) db' :=
  deleteTuple_not_deleted (openTable_ready (by decide) (by decide) trivial (by decide))
    onePage_inPlace ⟨1⟩

/-- Deleting the only row of a one-page table leaves two rows. -/
theorem deleteTuple_doubles :
    ¬ ∀ (db : HeapDb) (id : HeapPageId) (i : ℕ) (t : Tuple) (tid : TransactionId),
      Ready HeapPage.headerView db → InPlace db id i t →
      ∃ t' db', BufferPool.deleteTuple tid t db = .ok t' db' ∧ Deleted tid t id i db db' := by
  intro hclaim
  have hready : Ready HeapPage.headerView (openTable 9 1 7 oneInt onePageFile) :=
    openTable_ready (by decide) (by decide) trivial (by decide)
  obtain ⟨t', db', hrun, hdel⟩ := hclaim _ _ _ _ ⟨1⟩ hready onePage_inPlace
  obtain ⟨t'', db'', hrun', hadds⟩ := deleteTuple_adds hready onePage_inPlace ⟨1⟩
  rw [hrun'] at hrun
  cases hrun
  exact not_deleted hadds hdel

end HeapFile

end PagedDb
