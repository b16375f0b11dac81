import PagedDb.Heap.PageFetch
import PagedDb.Storage.KeyedPool

/-!
# The keys of the pool under iterators

A `HeapFileIterator` hands the pool the address of its own page id and changes
that id when it leaves the page. Insertions and the callers of `getPage` leave
their ids alone, so all keys stay right as long as no iterator leaves a page
while its id is a key.
-/

namespace PagedDb

open Exec

abbrev KeyedHeapDb := KeyedDb HeapPage HeapFiles

abbrev KeyedHeapM (α : Type) := KeyedM HeapPage HeapFiles α

namespace HeapFile

/-- The search loop of `insertTuple`; every round makes an id of its own. -/
def findPageKeyed (tableid : Int32) : ℕ → ℕ → KeyedHeapM (Option Ref)
  | 0, _ => pure none
  | n + 1, i => do
    let pid ← newCell (.heap ⟨tableid, Int32.ofNat i⟩)
    let currPage ← KeyedPool.getPage (.cell pid)
    let obj ← offPool (deref currPage)
    if 0 < obj.page.getNumEmptySlots then some <$> KeyedPool.getPage (.cell pid)
    else findPageKeyed tableid n (i + 1)

/-- `HeapFile::insertTuple`. -/
def insertTupleKeyed (tableId : Int32) (t : Tuple) : KeyedHeapM (List Ref × Tuple) := do
  let db ← get
  let f ← lift (db.files.getDatabaseFile tableId)
  match ← findPageKeyed f.tableid f.numPages 0 with
  | some page => offPool (storeTuple page t)
  | none =>
    let page ← offPool (growFile tableId)
    offPool (storeTuple page t)

/-- `BufferPool::insertTuple`. -/
def poolInsertKeyed (tid : TransactionId) (tableId : Int32) (t : Tuple) : KeyedHeapM Tuple := do
  let db ← get
  let _ ← lift (db.files.getDatabaseFile tableId)
  let (dirtypages, t) ← insertTupleKeyed tableId t
  dirtypages.forM (KeyedPool.registerDirty tid)
  pure t

end HeapFile

/-- `HeapFileIterator`, with the cell of its `hpid`. -/
structure HeapFileIterator where
  numPages : ℕ
  hpid : ℕ
  isEnd : Bool
  it : Option HeapPageIterator
  page : Option Ref
  deriving DecidableEq

namespace HeapFileIterator

/-- `HeapFile::begin`: the constructor runs on an object of its own, and the caller gets a copy
with another `hpid`. -/
def begin (tableid : Int32) (numPages : ℕ) : KeyedHeapM HeapFileIterator := do
  let hpid ← newCell (.heap ⟨tableid, 0⟩)
  let page ← KeyedPool.getPage (.cell hpid)
  let it ← offPool (HeapPageIterator.new 0 page)
  let copy ← newCell (.heap ⟨tableid, 0⟩)
  pure ⟨numPages, copy, false, some it, some page⟩

/-- The rest of `operator++` once the page is done: move `hpid` to the next page. -/
def nextPage (it : HeapFileIterator) : KeyedHeapM HeapFileIterator := do
  let old ← KeyedPool.readKey (.cell it.hpid)
  let hpid : HeapPageId := ⟨old.getTableId, old.pageNumber + 1⟩
  setCell it.hpid (.heap hpid)
  if (it.numPages : Int) ≤ hpid.pgNo.toInt then
    pure { it with isEnd := true, it := none }
  else
    let page ← KeyedPool.getPage (.cell it.hpid)
    let pageIt ← offPool (HeapPageIterator.new 0 page)
    pure { it with it := some pageIt, page := some page }

/-- `operator++`. -/
def next (it : HeapFileIterator) : KeyedHeapM HeapFileIterator :=
  match it.it, it.page with
  | some pageIt, some page => do
    let pageIt ← offPool pageIt.next
    let obj ← offPool (deref page)
    if pageIt ≠ ⟨obj.page.numSlots, page⟩ then pure { it with it := some pageIt }
    else nextPage it
  | _, _ => throw .nullDeref

end HeapFileIterator

/-- The database and the iterators of its callers. -/
structure ScanState where
  db : KeyedHeapDb
  iterators : List HeapFileIterator

/-- What callers do; `newId` makes an id that `getPage` may be given. -/
inductive ScanOp
  | newId (id : HeapPageId)
  | getPage (key : Key)
  | insertTuple (tid : TransactionId) (tableId : Int32) (t : Tuple)
  | begin (tableId : Int32)
  | next (i : ℕ)

namespace ScanOp

/-- The state after an operation; one that throws leaves its changes behind. -/
def step (op : ScanOp) (s : ScanState) : ScanState :=
  match op with
  | .newId id => { s with db := stateOf ((newCell (.heap id) : KeyedHeapM ℕ) s.db) }
  | .getPage key => { s with db := stateOf (KeyedPool.getPage key s.db) }
  | .insertTuple tid tableId t =>
    { s with db := stateOf (HeapFile.poolInsertKeyed tid tableId t s.db) }
  | .begin tableId =>
    match s.db.files.getDatabaseFile tableId with
    | .error _ => s
    | .ok f =>
      match HeapFileIterator.begin f.tableid f.numPages s.db with
      | .ok it db => ⟨db, s.iterators ++ [it]⟩
      | .error _ db => { s with db }
  | .next i =>
    match s.iterators[i]? with
    | none => s
    | some it =>
      match it.next s.db with
      | .ok it db => ⟨db, s.iterators.set i it⟩
      -- `++` throws only after it has deleted its page iterator
      | .error _ db => ⟨db, s.iterators.set i { it with it := none }⟩

end ScanOp

def runScan (ops : List ScanOp) (s : ScanState) : ScanState := ops.foldl (fun s op => op.step s) s

open KeyedPool HeapFile

variable {db db' : KeyedHeapDb} {it : HeapFileIterator}

theorem readsById : ReadsById HeapPage HeapFiles := by
  intro files pageSize pid ref p hread
  obtain ⟨f, -, hrest⟩ := of_except_bind (show _ >>= _ = Except.ok p from hread)
  cases pid with
  | btree id => cases hrest
  | heap id =>
    cases hrest
    rfl

theorem keeps_getPage (key : Key) :
    Keeps Filed (KeyedPool.getPage key : KeyedHeapM Ref) :=
  fun _ h => (getPage_filed readsById h key).1

theorem keeps_newCell (pid : PageId) : Keeps Filed (newCell pid : KeyedHeapM ℕ) :=
  fun db h => h.keep (sameIds_newCell db pid) rfl

theorem keeps_deref (ref : Ref) : Keeps Filed (offPool (deref ref) : KeyedHeapM _) := by
  intro db h
  cases hobj : db.objects[ref]? with
  | none => rwa [deref_missing hobj]
  | some obj => rwa [KeyedPool.deref_run hobj]

namespace HeapFile

theorem storeTuple_state (page : Ref) (t : Tuple) (db : HeapDb) :
    stateOf (storeTuple page t db) = db ∨ ∃ obj p, db.objects[page]? = some obj ∧
      p.pid = obj.page.pid ∧
      stateOf (storeTuple page t db) = db.setObject page { obj with page := p } := by
  cases hobj : db.objects[page]? with
  | none =>
    left
    have hfail : deref page db = .error .nullDeref db := by rw [deref, hobj]
    rw [storeTuple, bind_error hfail]
    rfl
  | some obj =>
    rw [storeTuple, bind_ok (PagedDb.deref_run hobj)]
    cases hstore : obj.page.insertTuple t with
    | error e => exact .inl rfl
    | ok out => exact .inr ⟨obj, out.1, rfl, HeapPage.insertTuple_pid hstore, rfl⟩

theorem keeps_storeTuple (page : Ref) (t : Tuple) :
    Keeps Filed (offPool (storeTuple page t) : KeyedHeapM _) := by
  intro db h
  rw [offPool, stateOf_zoom]
  rcases storeTuple_state page t db.below with hsame | ⟨obj, p, hobj, hpid, hset⟩
  · rw [hsame]
    exact h
  · rw [hset]
    have hid : PageId.heap p.pid = .heap obj.page.pid := congrArg PageId.heap hpid
    exact h.keep (sameIds_set (o := { obj with page := p }) hobj hid db.files) rfl

theorem keeps_growFile (tableId : Int32) :
    Keeps Filed (offPool (growFile tableId) : KeyedHeapM Ref) := by
  intro db h
  rw [offPool, stateOf_zoom, growFile, bind_ok (get_run _)]
  cases hf : db.files.getDatabaseFile tableId with
  | error e =>
    have hbelow : db.below.files.getDatabaseFile tableId = .error e := hf
    rw [hbelow]
    exact h
  | ok f =>
    have hbelow : db.below.files.getDatabaseFile tableId = .ok f := hf
    rw [hbelow]
    exact h.keep (sameIds_append db _ _) rfl

theorem keeps_findPage (tableid : Int32) (n i : ℕ) : Keeps Filed (findPageKeyed tableid n i) := by
  induction n generalizing i with
  | zero => exact .pure _
  | succ n ih =>
    refine (keeps_newCell _).bind fun pid => (keeps_getPage _).bind fun page => ?_
    refine (keeps_deref page).bind fun obj => .ite ?_ (ih (i + 1))
    exact (keeps_getPage _).bind fun _ => .pure _

theorem keeps_insertTuple (tableId : Int32) (t : Tuple) :
    Keeps Filed (insertTupleKeyed tableId t) := by
  refine .get fun db => (Keeps.lift _).bind fun f => (keeps_findPage _ _ _).bind fun found => ?_
  cases found with
  | some page => exact keeps_storeTuple page t
  | none => exact (keeps_growFile tableId).bind fun page => keeps_storeTuple page t

theorem keeps_poolInsert (tid : TransactionId) (tableId : Int32) (t : Tuple) :
    Keeps Filed (poolInsertKeyed tid tableId t) := by
  refine .get fun db => (Keeps.lift _).bind fun _ => (keeps_insertTuple tableId t).bind fun out => ?_
  have hloop : ∀ ref, Keeps Filed (registerDirty tid ref : KeyedHeapM Unit) :=
    fun ref _ h => (registerDirty_filed h tid ref).1
  exact (Keeps.forM hloop out.1).bind fun _ => .pure _

end HeapFile

theorem pageIt_state (i : ℕ) (page : Ref) (db : HeapDb) :
    stateOf (HeapPageIterator.new i page db) = db := by
  cases hobj : db.objects[page]? with
  | none =>
    have hfail : deref page db = .error .nullDeref db := by rw [deref, hobj]
    rw [HeapPageIterator.new, bind_error hfail]
    rfl
  | some obj =>
    rw [HeapPageIterator.new, bind_ok (PagedDb.deref_run hobj)]
    rfl

theorem keeps_newPageIt (i : ℕ) (page : Ref) :
    Keeps Filed (offPool (HeapPageIterator.new i page) : KeyedHeapM _) := by
  intro db h
  rw [offPool, stateOf_zoom, pageIt_state]
  exact h

theorem keeps_begin (tableid : Int32) (numPages : ℕ) :
    Keeps Filed (HeapFileIterator.begin tableid numPages) := by
  refine (keeps_newCell _).bind fun hpid => (keeps_getPage _).bind fun page => ?_
  exact (keeps_newPageIt 0 page).bind fun it => (keeps_newCell _).bind fun copy => .pure _

namespace HeapFileIterator

/-- `operator++` will leave the page. -/
def Leaves (db : KeyedHeapDb) (it : HeapFileIterator) : Prop :=
  ∃ pageIt page obj, it.it = some pageIt ∧ it.page = some page ∧ db.objects[page]? = some obj ∧
    offPool pageIt.next db = .ok ⟨obj.page.numSlots, page⟩ db

def Unfiled (db : KeyedHeapDb) (it : HeapFileIterator) : Prop :=
  ∀ e ∈ db.entries, e.key ≠ .cell it.hpid

/-- The next page exists, is not resident, and the eviction for it takes the entry that is filed
under the iterator's own id. -/
def Evicts (db : KeyedHeapDb) (it : HeapFileIterator) : Prop :=
  ∃ old e, db.idAt (.cell it.hpid) = some old ∧
    (old.pageNumber + 1).toInt < it.numPages ∧
    { db with
      cells := db.cells.set it.hpid (some (.heap ⟨old.getTableId, old.pageNumber + 1⟩)) }.find?
      (.heap ⟨old.getTableId, old.pageNumber + 1⟩) = none ∧
    db.numPages ≤ db.entries.length ∧
    db.entries[db.order 0 % db.entries.length]? = some e ∧ e.key = .cell it.hpid

theorem nextPage_filed (h : Filed db) (hok : Unfiled db it ∨ Evicts db it) :
    Filed (stateOf (it.nextPage db)) := by
  cases hold : db.idAt (.cell it.hpid) with
  | none =>
    rw [nextPage, bind_error (readKey_missing hold)]
    exact h
  | some old =>
    let pid : PageId := .heap ⟨old.getTableId, old.pageNumber + 1⟩
    let db₁ : KeyedHeapDb := { db with cells := db.cells.set it.hpid (some pid) }
    have hset : setCell it.hpid pid db = .ok () db₁ := rfl
    rw [nextPage, bind_ok (readKey_run hold)]
    change Filed (stateOf ((setCell it.hpid pid >>= _) db))
    rw [bind_ok hset]
    split
    · -- the scan is at its end
      rcases hok with hfree | ⟨old', e, hold', hlt, -⟩
      · exact setCell_filed h hfree pid
      · rw [hold] at hold'
        cases hold'
        have hge : (it.numPages : Int) ≤ (old.pageNumber + 1).toInt := ‹_›
        omega
    · have hget : Filed (stateOf (getPage (.cell it.hpid) db₁)) := by
        rcases hok with hfree | ⟨old', e, hold', -, hmiss, hfull, hvictim, hkey⟩
        · exact (getPage_filed readsById (setCell_filed h hfree pid) _).1
        · rw [hold] at hold'
          cases hold'
          have hc : it.hpid < db.cells.length := KeyedDb.inside_of_idAt hold
          exact getPage_filed_evicting readsById h hc hkey hvictim hfull hmiss
      exact Keeps.run hget fun page => (keeps_newPageIt 0 page).bind fun _ => .pure _

theorem nextPageIt_run (pageIt : HeapPageIterator) (db : KeyedHeapDb) :
    stateOf (offPool pageIt.next db) = db := by
  rw [offPool, stateOf_zoom]
  cases hobj : db.objects[pageIt.page]? with
  | none =>
    have hfail : deref pageIt.page db.below = .error .nullDeref db.below := by
      rw [deref, show db.below.objects[pageIt.page]? = none from hobj]
    rw [HeapPageIterator.next, bind_error hfail]
    rfl
  | some obj =>
    rw [HeapPageIterator.next_run (show db.below.objects[pageIt.page]? = some _ from hobj)]
    rfl

theorem next_filed (h : Filed db) (hok : Leaves db it → Unfiled db it ∨ Evicts db it) :
    Filed (stateOf (it.next db)) := by
  unfold next
  cases hit : it.it with
  | none => exact h
  | some pageIt =>
    cases hpage : it.page with
    | none => exact h
    | some page =>
      simp only
      have hstate := nextPageIt_run pageIt db
      cases hnext : offPool pageIt.next db with
      | error e db₁ =>
        rw [hnext] at hstate
        rw [bind_error hnext]
        exact hstate ▸ h
      | ok pageIt' db₁ =>
        rw [hnext, stateOf_ok] at hstate
        subst hstate
        rw [bind_ok hnext]
        cases hobj : db₁.objects[page]? with
        | none =>
          rw [bind_error (deref_missing hobj)]
          exact h
        | some obj =>
          rw [bind_ok (KeyedPool.deref_run hobj)]
          split
          · exact h
          · rename_i hend
            have heq : pageIt' = ⟨obj.page.numSlots, page⟩ := not_not.mp hend
            apply nextPage_filed h
            exact hok ⟨pageIt, page, obj, hit, hpage, hobj, heq ▸ hnext⟩

end HeapFileIterator

namespace ScanOp

/-- A `++` leaves its page only where the iterator's own id is no key, or where the entry under
it is evicted in the same call. -/
def Safe (s : ScanState) : ScanOp → Prop
  | .next i => ∀ it, s.iterators[i]? = some it → it.Leaves s.db → it.Unfiled s.db ∨ it.Evicts s.db
  | _ => True

theorem step_filed {s : ScanState} (h : Filed s.db) {op : ScanOp} (hsafe : op.Safe s) :
    Filed (op.step s).db := by
  cases op with
  | newId id => exact keeps_newCell _ _ h
  | getPage key => exact keeps_getPage key _ h
  | insertTuple tid tableId t => exact HeapFile.keeps_poolInsert tid tableId t _ h
  | begin tableId =>
    simp only [step]
    split
    · exact h
    · rename_i f hf
      have hbegin := keeps_begin f.tableid f.numPages _ h
      split
      all_goals
        rename_i hrun
        rw [hrun] at hbegin
        exact hbegin
  | next i =>
    simp only [step]
    split
    · exact h
    · rename_i it hit
      have hnext := HeapFileIterator.next_filed h (hsafe it hit)
      split
      all_goals
        rename_i hrun
        rw [hrun] at hnext
        exact hnext

end ScanOp

def SafeRun : ScanState → List ScanOp → Prop
  | _, [] => True
  | s, op :: ops => op.Safe s ∧ SafeRun (op.step s) ops

theorem runScan_filed {s : ScanState} (h : Filed s.db) (ops : List ScanOp) (hsafe : SafeRun s ops)
    (k : ℕ) : Filed (runScan (ops.take k) s).db := by
  induction ops generalizing s k with
  | nil => simpa [runScan] using h
  | cons op ops ih =>
    cases k with
    | zero => exact h
    | succ k => exact ih (op.step_filed h hsafe.1) hsafe.2 k

def openScans (pageSize numPages : ℕ) (order : ℕ → ℕ) (files : HeapFiles) : ScanState where
  db := ⟨[], [], pageSize, numPages, [], order, files⟩
  iterators := []

/-- In every state of a run of safe steps, every cached page is filed under its own id. -/
theorem runScan_keysRight (files : HeapFiles) (pageSize numPages : ℕ) (order : ℕ → ℕ)
    (ops : List ScanOp) (hsafe : SafeRun (openScans pageSize numPages order files) ops) (k : ℕ) :
    KeysRight (runScan (ops.take k) (openScans pageSize numPages order files)).db := by
  have hempty : Filed (openScans pageSize numPages order files).db :=
    ⟨fun e he => absurd he List.not_mem_nil, List.nodup_nil⟩
  exact (runScan_filed hempty ops hsafe k).keysRight

/-- The first step off a page: the iterator's own id is not yet a key. -/
theorem runScan_keysRight_onePage :
    KeysRight (runScan ([ScanOp.begin 7, .next 0].take 2)
      (openScans 9 2 (fun _ => 0) (openTable 9 2 7 oneInt onePageFile).files)).db := by
  apply runScan_keysRight
  refine ⟨trivial, ?_, trivial⟩
  intro it hit _
  left
  have hiter : (ScanOp.step (.begin 7)
      (openScans 9 2 (fun _ => 0) (openTable 9 2 7 oneInt onePageFile).files)).iterators =
      [⟨1, 1, false, some ⟨0, 0⟩, some 0⟩] := by decide
  have hentries : (ScanOp.step (.begin 7)
      (openScans 9 2 (fun _ => 0) (openTable 9 2 7 oneInt onePageFile).files)).db.entries =
      [⟨.cell 0, 7, 0⟩] := by decide
  rw [hiter] at hit
  cases hit
  unfold HeapFileIterator.Unfiled
  rw [hentries]
  decide

def twoPageFile : File where
  size := 18
  byte := fun j => if j = 0 then 1 else if j = 1 then 5 else if j = 9 then 1 else if j = 10 then 6 else 0
  byte_of_size_le := by
    intro j hj
    rw [if_neg (by omega), if_neg (by omega), if_neg (by omega), if_neg (by omega)]

/-- A scan of two pages: the id under which the second page was filed ends as another one. -/
theorem scan_moves_key :
    ¬ KeysRight (runScan [.begin 7, .next 0, .next 0]
      (openScans 9 2 (fun _ => 0) (openTable 9 2 7 oneInt twoPageFile).files)).db := by
  intro h
  have hmem : (⟨.cell 1, 6, 1⟩ : Entry) ∈ (runScan [.begin 7, .next 0, .next 0]
      (openScans 9 2 (fun _ => 0) (openTable 9 2 7 oneInt twoPageFile).files)).db.entries := by
    decide
  obtain ⟨pid, hkey, hpage⟩ := h.keys _ hmem
  rw [← hkey] at hpage
  revert hpage
  decide

end PagedDb
