import PagedDb.Heap.PoolRuns
import PagedDb.Storage.DirtyOwner

/-!
# What `flushPages` makes durable

Heap tables are run over files that log modifications and writes. A page has
one dirty owner, so `flushPages` of a transaction leaves out the pages that
another transaction modified after it, although its own changes are on them
too. Those are the only ones it leaves out.
-/

namespace PagedDb

open Exec

abbrev LoggedDb := Database HeapPage (Logged HeapFiles)

abbrev LoggedM (α : Type) := DbM HeapPage (Logged HeapFiles) α

namespace HeapFile

/-- Run a program that asks the pool for nothing on the files below the log. -/
def belowLog {α : Type} (x : HeapM α) : LoggedM α :=
  zoom Database.erase (fun db logged => { db with files := ⟨db.files, logged.files.log⟩ }) x

/-- `findPage` over logged files. -/
def findPageLogged (tableid : Int32) : ℕ → ℕ → LoggedM (Option Ref)
  | 0, _ => pure none
  | n + 1, i => do
    let pid := .heap ⟨tableid, Int32.ofNat i⟩
    let currPage ← BufferPool.getPage pid
    let obj ← deref currPage
    if 0 < obj.page.getNumEmptySlots then some <$> BufferPool.getPage pid
    else findPageLogged tableid n (i + 1)

/-- `storeTuple` over logged files: the transaction modifies the page. -/
def storeTupleLogged (tid : TransactionId) (page : Ref) (t : Tuple) :
    LoggedM (List Ref × Tuple) := do
  let obj ← deref page
  let (p, t) ← lift (obj.page.insertTuple t)
  modify fun db =>
    { db.setObject page { obj with page := p } with
      files := { db.files with log := db.files.log ++ [.modified tid (.heap obj.page.pid)] } }
  pure ([page], t)

/-- `insertTuple` over logged files. -/
def insertTupleLogged (tableId : Int32) (tid : TransactionId) (t : Tuple) :
    LoggedM (List Ref × Tuple) := do
  let db ← get
  let f ← lift (db.files.files.getDatabaseFile tableId)
  match ← findPageLogged f.tableid f.numPages 0 with
  | some page => storeTupleLogged tid page t
  | none =>
    let page ← belowLog (growFile tableId)
    storeTupleLogged tid page t

/-- `deleteTuple` over logged files. -/
def deleteTupleLogged (_tableId : Int32) (tid : TransactionId) (t : Tuple) :
    LoggedM (List Ref × Tuple) := do
  match t.rid with
  | none => throw .nullDeref
  | some rid =>
    let page ← BufferPool.getPage rid.pid
    let obj ← deref page
    let p ← lift (obj.page.deleteTuple t)
    modify fun db =>
      { db.setObject page { obj with page := p } with
        files := { db.files with log := db.files.log ++ [.modified tid (.heap obj.page.pid)] } }
    pure ([page], t)

instance : DbFile HeapPage (Logged HeapFiles) where
  getDatabaseFile files tableId := (files.files.getDatabaseFile tableId).map fun _ => ()
  insertTuple := insertTupleLogged
  deleteTuple := deleteTupleLogged

/-- Run one operation over logged files. -/
def PoolOp.runLogged : PoolOp → LoggedM Unit
  | .insertTuple tid tableId t => do
    let _ ← BufferPool.insertTuple tid tableId t
    pure ()
  | .getPage id => do
    let _ ← BufferPool.getPage (.heap id)
    pure ()
  | .flushPage id => BufferPool.flushPage (.heap id)
  | .flushPages tid => BufferPool.flushPages tid
  | .flushAllPages => BufferPool.flushAllPages
  | .evictPage => BufferPool.evictPage

/-- The database after a sequence of operations; one that throws leaves its state behind. -/
def runLogged (ops : List PoolOp) (db : LoggedDb) : LoggedDb :=
  ops.foldl (fun db op => stateOf (op.runLogged db)) db

section Erasure

open BufferPool

theorem erases_belowLog {α : Type} (x : HeapM α) : Erases Database.erase (belowLog x) x := by
  intro db
  unfold belowLog zoom
  cases h : x db.erase with
  | ok a s =>
    simp only [mapState]
    rfl
  | error e s =>
    simp only [mapState]
    rfl

theorem erases_findPage (tableid : Int32) (n i : ℕ) :
    Erases Database.erase (findPageLogged tableid n i) (findPage tableid n i) := by
  induction n generalizing i with
  | zero => exact .pure _
  | succ n ih =>
    refine (erases_getPage _).bind fun page => (erases_deref page).bind fun obj => ?_
    refine .ite Iff.rfl ?_ (ih (i + 1))
    exact (erases_getPage _).bind fun _ => .pure _

theorem erases_storeTuple (tid : TransactionId) (page : Ref) (t : Tuple) :
    Erases Database.erase (storeTupleLogged tid page t) (storeTuple page t) := by
  refine (erases_deref page).bind fun obj => (Erases.lift _).bind fun out => ?_
  apply Erases.bind
  · exact .modify fun _ => rfl
  · exact fun _ => .pure _

theorem erases_insertTuple (tableId : Int32) (tid : TransactionId) (t : Tuple) :
    Erases Database.erase (insertTupleLogged tableId tid t) (insertTuple tableId tid t) := by
  apply Erases.get
  intro db
  refine (Erases.lift _).bind fun f => (erases_findPage _ _ _).bind fun found => ?_
  cases found with
  | some page => exact erases_storeTuple tid page t
  | none => exact (erases_belowLog _).bind fun page => erases_storeTuple tid page t

theorem erases_poolInsert (tid : TransactionId) (tableId : Int32) (t : Tuple) :
    Erases Database.erase (BufferPool.insertTuple tid tableId t : LoggedM Tuple)
      (BufferPool.insertTuple tid tableId t) := by
  apply Erases.get
  intro db
  refine (Erases.lift _).bind fun _ => (erases_insertTuple tableId tid t).bind fun out => ?_
  exact (Erases.forM out.1 fun ref => erases_registerDirty tid ref).bind fun _ => .pure _

/-- With the log forgotten, an operation over logged files is the operation. -/
theorem erases_run (op : PoolOp) :
    Erases Database.erase op.runLogged (op.run >>= fun _ => pure ()) := by
  cases op with
  | insertTuple tid tableId t =>
    simp only [PoolOp.run, PoolOp.runLogged, bind_assoc, pure_bind]
    exact (erases_poolInsert tid tableId t).bind fun _ => .pure _
  | getPage id =>
    simp only [PoolOp.run, PoolOp.runLogged, bind_assoc, pure_bind]
    exact (erases_getPage _).bind fun _ => .pure _
  | flushPage id =>
    have h : Erases Database.erase (flushPage (.heap id) : LoggedM Unit) (flushPage (.heap id)) :=
      erases_flushPage (.heap id)
    simpa [PoolOp.run, PoolOp.runLogged] using h
  | flushPages tid =>
    have h : Erases Database.erase (flushPages tid : LoggedM Unit) (flushPages tid) :=
      erases_flushPages tid
    simpa [PoolOp.run, PoolOp.runLogged] using h
  | flushAllPages =>
    have h : Erases Database.erase (flushAllPages : LoggedM Unit) flushAllPages :=
      erases_flushAllPages
    simpa [PoolOp.run, PoolOp.runLogged] using h
  | evictPage =>
    have h : Erases Database.erase (evictPage : LoggedM Unit) (evictPage) := erases_evictPage
    simpa [PoolOp.run, PoolOp.runLogged] using h

end Erasure

def InCatalog (files : HeapFiles) (pid : PageId) : Prop :=
  (files.file? pid.getTableId).isSome = true

theorem InCatalog.setFile {files : HeapFiles} {f : HeapFile} {pid : PageId}
    (h : InCatalog files pid) : InCatalog (files.setFile f) pid := by
  unfold InCatalog at h ⊢
  by_cases hid : pid.getTableId = f.tableid
  · rw [hid, HeapFiles.setFile_self]
    rfl
  · rwa [HeapFiles.setFile_ne files f hid]

theorem steady : Steady HeapPage InCatalog where
  read_ok := by
    intro files pageSize pid ref p hread
    obtain ⟨f, hf, hrest⟩ := of_except_bind (show _ >>= _ = Except.ok p from hread)
    cases pid with
    | btree id => cases hrest
    | heap id =>
      cases hrest
      refine ⟨rfl, ?_⟩
      unfold HeapFiles.getDatabaseFile at hf
      unfold InCatalog
      split at hf
      · rename_i hfile
        rw [hfile]
        rfl
      · cases hf
  write_ok := by
    intro files pageSize p hknown
    have hin : (files.file? p.pid.tableId).isSome = true := hknown
    obtain ⟨f, hf⟩ := Option.isSome_iff_exists.mp hin
    let data := p.getPageData pageSize files.scratch
    let f' : HeapFile := { f with fd := f.fd.pwrite data pageSize (pageOffset pageSize p.pid) }
    refine ⟨files.setFile f', ?_, fun q hq => hq.setFile⟩
    change (files.getDatabaseFile p.pid.tableId >>= _) = _
    rw [getDatabaseFile_ok hf]
    rfl

variable {db db' : LoggedDb} {tid : TransactionId} {t : Tuple} {ref : Ref}

def KnownObject (db : LoggedDb) (ref : Ref) : Prop :=
  ∃ obj, db.objects[ref]? = some obj ∧ InCatalog db.files.files (.heap obj.page.pid)

/-- The pool's marks are right but for the page of the object `ref`, which the transaction has
just modified and which is not registered yet. -/
def Pending (tid : TransactionId) (ref : Ref) (db : LoggedDb) : Prop :=
  ∃ obj, db.objects[ref]? = some obj ∧ InCatalog db.files.files (.heap obj.page.pid) ∧
    Tracks InCatalog (some (.heap obj.page.pid)) db ∧
    owner db.files.log (.heap obj.page.pid) = some tid

/-- What an insertion leaves behind: one modified page to register, or marks that are right. -/
def Inserted (tid : TransactionId) : EStateM.Result Fault LoggedDb (List Ref × Tuple) → Prop
  | .ok out db => ∃ ref, out.1 = [ref] ∧ Pending tid ref db
  | .error _ db => Tracks InCatalog none db

theorem storeTuple_tracks (h : Tracks InCatalog none db) (hknown : KnownObject db ref)
    (tid : TransactionId) (t : Tuple) : Inserted tid (storeTupleLogged tid ref t db) := by
  obtain ⟨obj, hobj, hin⟩ := hknown
  rw [storeTupleLogged, bind_ok (deref_run hobj)]
  cases hstore : obj.page.insertTuple t with
  | error e => exact h
  | ok out =>
    obtain ⟨p, t'⟩ := out
    have hpid : p.pid = obj.page.pid := HeapPage.insertTuple_pid hstore
    have hid : PageId.heap p.pid = .heap obj.page.pid := congrArg PageId.heap hpid
    refine ⟨ref, rfl, { obj with page := p }, Database.setObject_self hobj, ?_⟩
    rw [hid]
    exact ⟨hin, h.modify hobj rfl hid tid, by simp⟩

theorem findPage_tracks (h : Tracks InCatalog none db) (tableid : Int32) (n i : ℕ) :
    Tracks InCatalog none (stateOf (findPageLogged tableid n i db)) ∧
      ∀ ref db', findPageLogged tableid n i db = .ok (some ref) db' → KnownObject db' ref := by
  induction n generalizing db i with
  | zero => exact ⟨h, fun _ _ heq => by cases heq⟩
  | succ n ih =>
    obtain ⟨h₁, -, hlookup₁⟩ := BufferPool.getPage_tracks steady h (.heap ⟨tableid, Int32.ofNat i⟩)
    cases hget₁ : BufferPool.getPage (.heap ⟨tableid, Int32.ofNat i⟩) db with
    | error e db₁ =>
      rw [hget₁] at h₁
      rw [findPageLogged, bind_error hget₁]
      exact ⟨h₁, fun _ _ heq => by cases heq⟩
    | ok ref₁ db₁ =>
      rw [hget₁, stateOf_ok] at h₁
      obtain ⟨obj, hobj, -⟩ := h₁.entry _ _ (hlookup₁ ref₁ db₁ hget₁)
      rw [findPageLogged, bind_ok hget₁, bind_ok (deref_run hobj)]
      split
      · -- the page is asked for a second time
        obtain ⟨h₂, -, hlookup₂⟩ :=
          BufferPool.getPage_tracks steady h₁ (.heap ⟨tableid, Int32.ofNat i⟩)
        cases hget₂ : BufferPool.getPage (.heap ⟨tableid, Int32.ofNat i⟩) db₁ with
        | error e db₂ =>
          rw [hget₂] at h₂
          rw [map_eq_pure_bind, bind_error hget₂]
          exact ⟨h₂, fun _ _ heq => by cases heq⟩
        | ok ref₂ db₂ =>
          rw [hget₂, stateOf_ok] at h₂
          rw [map_eq_pure_bind, bind_ok hget₂]
          refine ⟨h₂, ?_⟩
          rintro ref db' heq
          cases heq
          obtain ⟨obj₂, hobj₂, hid₂, hknown₂⟩ := h₂.entry _ _ (hlookup₂ ref₂ db₂ hget₂)
          refine ⟨obj₂, hobj₂, ?_⟩
          have hpid : PageId.heap obj₂.page.pid = .heap ⟨tableid, Int32.ofNat i⟩ := hid₂
          rwa [hpid]
      · exact ih h₁ (i + 1)

theorem getDatabaseFile_missing {files : HeapFiles} {tableId : Int32}
    (h : files.file? tableId = none) :
    files.getDatabaseFile tableId = .error (.runtimeError "Table not found") := by
  rw [HeapFiles.getDatabaseFile, h]

theorem growFile_tracks (h : Tracks InCatalog none db) (tableId : Int32) :
    Tracks InCatalog none (stateOf (belowLog (growFile tableId) db)) ∧
      ∀ ref db', belowLog (growFile tableId) db = .ok ref db' → KnownObject db' ref := by
  cases hf : db.files.files.file? tableId with
  | none =>
    have hfind := getDatabaseFile_missing (show db.erase.files.file? tableId = none from hf)
    have hrun : growFile tableId db.erase = .error (.runtimeError "Table not found") db.erase := by
      rw [growFile, bind_ok (get_run _)]
      exact bind_error (by rw [hfind]; rfl)
    rw [belowLog, zoom_error hrun]
    exact ⟨h, fun _ _ heq => by cases heq⟩
  | some f =>
    let page := HeapPage.ofData db.pageSize f.td ⟨f.tableid, Int32.ofNat f.numPages⟩
      (Memory.zeroed db.pageSize (db.files.files.heap db.objects.length))
      (db.files.files.stack db.objects.length)
    let f' : HeapFile := { f with numPages := f.numPages + 1 }
    let db' : LoggedDb :=
      { db with
        objects := db.objects ++ [⟨page, none⟩]
        files := ⟨db.files.files.setFile f', db.files.log⟩ }
    have hnew : db'.objects[db.objects.length]? = some ⟨page, none⟩ := List.getElem?_concat_length
    have hfile : db'.files.files.file? f.tableid = some f' := HeapFiles.setFile_self _ f'
    have hfind : db.erase.files.getDatabaseFile tableId = .ok f := getDatabaseFile_ok hf
    have hrun : growFile tableId db.erase = .ok db.objects.length db'.erase := by
      rw [growFile, bind_ok (get_run _), bind_ok (lift_run hfind _)]
      rfl
    rw [belowLog, zoom_ok hrun]
    refine ⟨h.extend rfl ?_ (fun _ hk => hk.setFile) rfl, ?_⟩
    · exact fun r o ho => (List.getElem?_append_left (List.getElem?_eq_some_iff.mp ho).1).trans ho
    · rintro ref db'' heq
      cases heq
      exact ⟨_, hnew, Option.isSome_of_eq_some hfile⟩

theorem insertTupleLogged_tracks (h : Tracks InCatalog none db) (tableId : Int32)
    (tid : TransactionId) (t : Tuple) : Inserted tid (insertTupleLogged tableId tid t db) := by
  rw [insertTupleLogged, bind_ok (get_run db)]
  cases hf : db.files.files.file? tableId with
  | none =>
    rw [getDatabaseFile_missing hf]
    exact h
  | some f =>
    rw [bind_ok (lift_run (getDatabaseFile_ok hf) db)]
    obtain ⟨h₁, hfound⟩ := findPage_tracks h f.tableid f.numPages 0
    cases hfind : findPageLogged f.tableid f.numPages 0 db with
    | error e db₁ =>
      rw [hfind] at h₁
      rw [bind_error hfind]
      exact h₁
    | ok found db₁ =>
      rw [hfind, stateOf_ok] at h₁
      rw [bind_ok hfind]
      cases found with
      | some page => exact storeTuple_tracks h₁ (hfound page db₁ hfind) tid t
      | none =>
        obtain ⟨h₂, hnew⟩ := growFile_tracks h₁ tableId
        simp only
        cases hgrow : belowLog (growFile tableId) db₁ with
        | error e db₂ =>
          rw [hgrow] at h₂
          rw [bind_error hgrow]
          exact h₂
        | ok page db₂ =>
          rw [hgrow, stateOf_ok] at h₂
          rw [bind_ok hgrow]
          exact storeTuple_tracks h₂ (hnew page db₂ hgrow) tid t

theorem poolInsert_tracks (h : Tracks InCatalog none db) (tid : TransactionId) (tableId : Int32)
    (t : Tuple) :
    Tracks InCatalog none (stateOf (BufferPool.insertTuple tid tableId t db)) := by
  rw [BufferPool.insertTuple, bind_ok (get_run db)]
  change Tracks _ _ (stateOf ((lift ((db.files.files.getDatabaseFile tableId).map fun _ => ()) >>=
    fun _ => insertTupleLogged tableId tid t >>= _) db))
  cases hf : db.files.files.getDatabaseFile tableId with
  | error e => exact h
  | ok f =>
    have hfile : (Except.ok f : Except Fault HeapFile).map (fun _ => ()) = .ok () := rfl
    rw [bind_ok (lift_run hfile db)]
    have hinserted := insertTupleLogged_tracks h tableId tid t
    cases hrun : insertTupleLogged tableId tid t db with
    | error e db₁ =>
      rw [hrun] at hinserted
      rw [bind_error hrun]
      exact hinserted
    | ok out db₁ =>
      rw [hrun] at hinserted
      obtain ⟨ref, hout, obj, hobj, hknown, htracks, howner⟩ := hinserted
      obtain ⟨db₂, hregister, h₂⟩ :=
        BufferPool.registerDirty_tracks steady htracks hobj rfl hknown howner
      have hloop : out.1.forM (BufferPool.registerDirty tid) db₁ = .ok ⟨⟩ db₂ := by
        rw [hout]
        exact bind_ok hregister
      rw [bind_ok hrun]
      change Tracks _ _ (stateOf ((out.1.forM (BufferPool.registerDirty tid) >>= _) db₁))
      rw [bind_ok hloop]
      exact h₂

/-- Every operation keeps the marks right, whether it succeeds or throws. -/
theorem step_tracks (h : Tracks InCatalog none db) (op : PoolOp) :
    Tracks InCatalog none (stateOf (op.runLogged db)) := by
  cases op with
  | insertTuple tid tableId t =>
    have h' := poolInsert_tracks h tid tableId t
    cases hrun : (BufferPool.insertTuple tid tableId t : LoggedM Tuple) db with
    | ok t' db' =>
      rw [hrun] at h'
      rw [PoolOp.runLogged, bind_ok hrun]
      exact h'
    | error e db' =>
      rw [hrun] at h'
      rw [PoolOp.runLogged, bind_error hrun]
      exact h'
  | getPage id =>
    obtain ⟨h', -⟩ := BufferPool.getPage_tracks steady h (.heap id)
    cases hrun : (BufferPool.getPage (.heap id) : LoggedM Ref) db with
    | ok ref db' =>
      rw [hrun] at h'
      rw [PoolOp.runLogged, bind_ok hrun]
      exact h'
    | error e db' =>
      rw [hrun] at h'
      rw [PoolOp.runLogged, bind_error hrun]
      exact h'
  | flushPage id =>
    obtain ⟨db', hrun, h', -⟩ := BufferPool.flushPage_tracks steady h (.heap id)
    rw [PoolOp.runLogged, hrun]
    exact h'
  | flushPages tid =>
    obtain ⟨db', -, hrun, h', -⟩ := BufferPool.flushPages_tracks steady h tid
    rw [PoolOp.runLogged, hrun]
    exact h'
  | flushAllPages =>
    obtain ⟨db', hrun, h', -⟩ := BufferPool.flushAllPages_tracks steady h
    rw [PoolOp.runLogged, hrun]
    exact h'
  | evictPage =>
    obtain ⟨db', hrun, h', -⟩ := BufferPool.evictPage_tracks steady h
    rw [PoolOp.runLogged, hrun]
    exact h'

theorem runLogged_tracks (h : Tracks InCatalog none db) (ops : List PoolOp) :
    Tracks InCatalog none (runLogged ops db) := by
  induction ops generalizing db with
  | nil => exact h
  | cons op ops ih => exact ih (step_tracks h op)

theorem erase_runLogged (ops : List PoolOp) (db : LoggedDb) :
    (runLogged ops db).erase = ops.foldl (fun db op => stateOf (op.run db)) db.erase := by
  induction ops generalizing db with
  | nil => rfl
  | cons op ops ih =>
    have hstep : (stateOf (op.runLogged db)).erase = stateOf (op.run db.erase) := by
      have herase := congrArg stateOf (erases_run op db)
      rw [stateOf_mapState] at herase
      rw [herase]
      cases hrun : op.run db.erase with
      | ok done db' => exact congrArg stateOf (bind_ok hrun)
      | error e db' => exact congrArg stateOf (bind_error hrun)
    change (runLogged ops (stateOf (op.runLogged db))).erase = _
    rw [ih, hstep]
    rfl

/-- An empty pool over heap files, before anything is logged. -/
def openLogged (pageSize numPages : ℕ) (order : ℕ → ℕ) (files : HeapFiles) : LoggedDb where
  objects := []
  pageSize
  numPages
  pages := ∅
  order
  files := ⟨files, []⟩

theorem openLogged_tracks (pageSize numPages : ℕ) (order : ℕ → ℕ) (files : HeapFiles) :
    Tracks InCatalog none (openLogged pageSize numPages order files) := by
  have hnone : ∀ pid, (openLogged pageSize numPages order files).pages.lookup pid = none :=
    AList.lookup_empty
  refine ⟨?_, ?_⟩
  · intro pid ref hl
    rw [hnone pid] at hl
    cases hl
  · intro pid _
    exact Database.mark_of_none (hnone pid)

/-- After any run, `flushPages` of a transaction makes its work durable exactly if no page with
an unwritten modification of its has been modified by another transaction since. -/
theorem flushPages_durable_iff (files : HeapFiles) (pageSize numPages : ℕ) (order : ℕ → ℕ)
    (ops : List PoolOp) (tid : TransactionId) :
    ∃ db, db = runLogged ops (openLogged pageSize numPages order files) ∧
      db.erase = ops.foldl (fun db op => stateOf (op.run db))
        (openLogged pageSize numPages order files).erase ∧
      ∃ db', (BufferPool.flushPages tid : LoggedM Unit) db = .ok ⟨⟩ db' ∧
        (Durable db'.files.log tid ↔
          ∀ pid, Unwritten db.files.log tid pid → owner db.files.log pid = some tid) := by
  refine ⟨_, rfl, erase_runLogged ops _, ?_⟩
  have h := runLogged_tracks (openLogged_tracks pageSize numPages order files) ops
  obtain ⟨db', writes, hrun, -, -, hlog, hwrites⟩ := BufferPool.flushPages_tracks steady h tid
  refine ⟨db', hrun, ?_⟩
  simp only [Durable, hlog, unwritten_append_written, hwrites, not_and, not_not]

/-- Two transactions insert into one page and the first flushes: its row is not written. -/
theorem flushed_too_little :
    ¬ Durable (stateOf ((BufferPool.flushPages ⟨1⟩ : LoggedM Unit)
      (runLogged [.insertTuple ⟨1⟩ 7 (intTuple 5), .insertTuple ⟨2⟩ 7 (intTuple 6)]
        (openLogged 9 1 (fun _ => 0) (openTable 9 1 7 oneInt .empty).files)))).files.log ⟨1⟩ := by
  have hlog : (stateOf ((BufferPool.flushPages ⟨1⟩ : LoggedM Unit)
      (runLogged [.insertTuple ⟨1⟩ 7 (intTuple 5), .insertTuple ⟨2⟩ 7 (intTuple 6)]
        (openLogged 9 1 (fun _ => 0) (openTable 9 1 7 oneInt .empty).files)))).files.log =
      [.modified ⟨1⟩ (.heap ⟨7, 0⟩), .modified ⟨2⟩ (.heap ⟨7, 0⟩)] := by
    decide
  rw [hlog]
  intro h
  exact h (.heap ⟨7, 0⟩) ⟨[], [.modified ⟨2⟩ (.heap ⟨7, 0⟩)], rfl, by decide⟩

end HeapFile

end PagedDb
