import PagedDb.Heap.TableRows

/-!
# Runs of the buffer pool over heap tables

The pool and the files under any sequence of operations refine one multiset of
rows for every table: inserting adds one row, everything else adds none, no
matter which page the pool chooses to evict.
-/

namespace PagedDb

open Exec WriteBack

namespace HeapFile

variable {db db' : HeapDb} {tbl : Int32} {td : TupleDesc} {n : ℕ}

/-- What the pool is asked to do. -/
inductive PoolOp
  | insertTuple (tid : TransactionId) (tableId : Int32) (t : Tuple)
  | getPage (id : HeapPageId)
  | flushPage (id : HeapPageId)
  | flushPages (tid : TransactionId)
  | flushAllPages
  | evictPage

namespace PoolOp

/-- Run one operation; an insertion hands back its table and the caller's tuple. -/
def run : PoolOp → HeapM (List (Int32 × Tuple))
  | .insertTuple tid tableId t => do
    let t ← BufferPool.insertTuple tid tableId t
    pure [(tableId, t)]
  | .getPage id => do
    let _ ← BufferPool.getPage (.heap id)
    pure []
  | .flushPage id => do
    BufferPool.flushPage (.heap id)
    pure []
  | .flushPages tid => do
    BufferPool.flushPages tid
    pure []
  | .flushAllPages => do
    BufferPool.flushAllPages
    pure []
  | .evictPage => do
    BufferPool.evictPage
    pure []

/-- Insertions take tuples with the file's description, and pages are of tables in the catalog. -/
def Legal (schema : Int32 → Option (TupleDesc × ℕ)) : PoolOp → Prop
  | .insertTuple _ tableId t => ∃ n, schema tableId = some (t.td, n)
  | .getPage id => (schema id.tableId).isSome = true
  | _ => True

def added : PoolOp → List (Int32 × Row)
  | .insertTuple _ tableId t => [(tableId, t.fields)]
  | _ => []

end PoolOp

def runOps : List PoolOp → HeapM (List (Int32 × Tuple))
  | [] => pure []
  | op :: ops => do
    let done ← op.run
    let rest ← runOps ops
    pure (done ++ rest)

def addedRows (added : List (Int32 × Row)) (tbl : Int32) : List Row :=
  (added.filter fun x => x.1 = tbl).map Prod.snd

def SameTables (schema schema' : Int32 → Option (TupleDesc × ℕ)) : Prop :=
  ∀ id, (schema' id).map Prod.fst = (schema id).map Prod.fst

/-- What an operation, or a run of operations, does to the tables. -/
structure Refines (added : List (Int32 × Row)) (db db' : HeapDb) : Prop where
  tables : SameTables db.files.schema db'.files.schema
  capacity : db'.numPages = db.numPages
  pageSize : db'.pageSize = db.pageSize
  rows : ∀ tbl, (tableRows db' tbl).Perm (addedRows added tbl ++ tableRows db tbl)
  keeps : ∀ id i row, Holds db id i row → Holds db' id i row

def Roomy (db : HeapDb) : Prop :=
  ∀ id td n, db.files.schema id = some (td, n) → 0 < HeapPage.getNumTuples db.pageSize td

def Placed (db : HeapDb) (done : List (Int32 × Tuple)) : Prop :=
  ∀ x ∈ done, ∃ id i, x.2.rid = some ⟨.heap id, i⟩ ∧ id.tableId = x.1 ∧ Holds db id i x.2.fields

def NoRoom (db : HeapDb) (tbl : Int32) : Prop :=
  ∀ td n, db.files.schema tbl = some (td, n) → ∀ i < n,
    ∃ p, readerPage db (pageId tbl i) = some p ∧ p.getNumEmptySlots = 0

theorem SameTables.lookup {schema schema' : Int32 → Option (TupleDesc × ℕ)}
    (h : SameTables schema schema') (hs : schema tbl = some (td, n)) :
    ∃ m, schema' tbl = some (td, m) := by
  have := h tbl
  rw [hs] at this
  obtain ⟨⟨td', m⟩, hm, htd⟩ := Option.map_eq_some_iff.mp this
  obtain rfl : td' = td := htd
  exact ⟨m, hm⟩

theorem SameTables.symm {schema schema' : Int32 → Option (TupleDesc × ℕ)}
    (h : SameTables schema schema') : SameTables schema' schema := fun id => (h id).symm

theorem PoolOp.Legal.of_sameTables {schema schema' : Int32 → Option (TupleDesc × ℕ)}
    (h : SameTables schema schema') {op : PoolOp} (hlegal : op.Legal schema) : op.Legal schema' := by
  cases op with
  | insertTuple tid tableId t =>
    obtain ⟨n, hn⟩ := hlegal
    exact h.lookup hn
  | getPage id =>
    have := congrArg Option.isSome (h id.tableId)
    simp only [Option.isSome_map] at this
    exact this.trans hlegal
  | flushPage id => trivial
  | flushPages tid => trivial
  | flushAllPages => trivial
  | evictPage => trivial

theorem Roomy.of_refines {added : List (Int32 × Row)} (h : Roomy db) (hr : Refines added db db') :
    Roomy db' := by
  intro id td n hs
  obtain ⟨m, hm⟩ := hr.tables.symm.lookup hs
  rw [hr.pageSize]
  exact h id td m hm

theorem Holds.of_seen (h : Ready HeapPage.rowView db) {id : HeapPageId} {i : ℕ} {row : Row}
    {c : ℕ → Option Row} (hlive : .heap id ∈ livePages db.files.schema)
    (hseen : seen HeapPage.rowView db id = some c) (hc : c i = some row) : Holds db id i row := by
  obtain ⟨p, hp, rfl⟩ := (seen_iff h hlive).mp hseen
  exact ⟨hlive, p, hp, hc⟩

theorem Holds.seen (h : Ready HeapPage.rowView db) {id : HeapPageId} {i : ℕ} {row : Row}
    (hold : Holds db id i row) :
    ∃ c, HeapFile.seen HeapPage.rowView db id = some c ∧ c i = some row := by
  obtain ⟨hlive, p, hp, hrow⟩ := hold
  exact ⟨p.row?, (seen_iff h hlive).mpr ⟨p, hp, rfl⟩, hrow⟩

theorem noRoom_of_seenFull (h : Ready HeapPage.rowView db)
    (hs : db.files.schema tbl = some (td, n))
    (hfull : ∀ j < n, SeenFull HeapPage.rowView db.pageSize db (pageId tbl j)) : NoRoom db tbl := by
  intro td' n' hs' i hi
  obtain ⟨rfl, rfl⟩ : td = td' ∧ n = n' := by
    rw [hs] at hs'
    cases hs'
    exact ⟨rfl, rfl⟩
  obtain ⟨q, hq, hqid, hview, hnone⟩ := hfull i hi
  obtain ⟨p, hp, hpid, hgood, hseen⟩ := readerPage_spec h (h.page_live hs hi)
  refine ⟨p, hp, ?_⟩
  have hrow : p.row? = q.row? := Option.some.inj (hseen.symm.trans hview)
  have htd : p.td = q.td := by
    obtain ⟨m, hm⟩ := hgood.schema
    obtain ⟨m', hm'⟩ := hq.schema
    rw [hpid] at hm
    rw [hqid, hm] at hm'
    exact congrArg Prod.fst (Option.some.inj hm')
  have hslots : p.numSlots = q.numSlots := by rw [hgood.fits.slots, hq.fits.slots, htd]
  by_contra hpos
  obtain ⟨k, hk, hempty⟩ := TuplePage.getNumEmptySlots_pos.mp (Nat.pos_of_ne_zero hpos)
  have hkq : k < q.numSlots := by rwa [← hslots]
  have : 0 < q.getNumEmptySlots := by
    refine TuplePage.getNumEmptySlots_pos.mpr ⟨k, hkq, ?_⟩
    rw [← q.row?_isSome hkq, ← hrow, p.row?_isSome hk, hempty]
  omega

theorem refines_of_quiet (h : Ready HeapPage.rowView db)
    (hserving : Serving (backing HeapPage.rowView db.pageSize) (livePages db.files.schema) db')
    (hquiet : Quiet (backing HeapPage.rowView db.pageSize) (livePages db.files.schema) db db') :
    Ready HeapPage.rowView db' ∧ Refines [] db db' := by
  have hschema : db'.files.schema = db.files.schema := hquiet.info
  have hsize : db'.pageSize = db.pageSize := hserving.pageSize
  have h' := h.keep hserving hschema hquiet.numPages
  have hseen : ∀ id, .heap id ∈ livePages db.files.schema →
      seen HeapPage.rowView db' id = seen HeapPage.rowView db id := by
    intro id hid
    unfold seen
    rw [hsize]
    exact hquiet.view _ hid
  refine ⟨h', ⟨fun id => by rw [hschema], hquiet.numPages, hsize, ?_, ?_⟩⟩
  · intro tbl
    unfold tableRows
    rw [items_congr rowTally h h' (by rw [hschema]) hsize fun id _ hid => hseen id hid]
    exact List.Perm.refl _
  · intro id i row hold
    obtain ⟨c, hc, hrow⟩ := hold.seen h
    exact Holds.of_seen h' (hschema ▸ hold.1) ((hseen id hold.1).trans hc) hrow

/-- An insertion adds its row and keeps every other. -/
theorem refines_of_insert {p : HeapPage} {i : ℕ} {t : Tuple} {tid : TransactionId}
    (h : Ready HeapPage.rowView db) (hs : db.files.schema tbl = some (td, n)) (htd : t.td = td)
    (hstored : Stored HeapPage.rowView tid t db db' p i)
    (hplace : OnOldPage HeapPage.rowView tbl n db db' p ∨
      OnNewPage HeapPage.rowView tbl td n db db' p)
    (h' : Ready HeapPage.rowView db') :
    Refines [(tbl, t.fields)] db db' ∧
      Placed db' [(tbl, t.setRecordId (some ⟨.heap p.pid, i⟩))] := by
  have htable := page_tableId hplace
  have hlive' : ∀ id, .heap id ∈ livePages db.files.schema → .heap id ∈ livePages db'.files.schema := by
    intro id hid
    rcases hplace with hold | hnew
    · rwa [hold.schema]
    · rw [hnew.schema, livePages_grow hs]
      · exact Set.mem_insert_of_mem _ hid
      · have := h'.count_le (show db'.files.schema tbl = some (td, n + 1) by
          rw [hnew.schema, Function.update_self])
        omega
  have hput : (p.put i t hstored.td).row? i = some t.fields := by
    rw [TuplePage.put_row? p t hstored.td hstored.slot, Function.update_self]
  have hpage : .heap p.pid ∈ livePages db'.files.schema := by
    rcases hplace with hold | hnew
    · obtain ⟨j, hj, hpid⟩ := hold.page
      rw [hpid]
      exact hlive' _ (h.page_live hs hj)
    · rw [hnew.page]
      exact h'.page_live (by rw [hnew.schema, Function.update_self]) (Nat.lt_succ_self n)
  refine ⟨⟨?_, hstored.numPages, hstored.pageSize, ?_, ?_⟩, ?_⟩
  · intro id
    rcases hplace with hold | hnew
    · rw [hold.schema]
    · rw [hnew.schema]
      rcases eq_or_ne id tbl with rfl | hne
      · rw [Function.update_self, hs]
        rfl
      · rw [Function.update_of_ne hne]
  · intro id
    obtain ⟨hself, hother⟩ := items_insert rowTally h hs htd hstored hplace h'
    rcases eq_or_ne id tbl with rfl | hne
    · have hadded : addedRows [(id, t.fields)] id = [t.fields] := by simp [addedRows]
      rw [hadded]
      exact hself
    · have hadded : addedRows [(tbl, t.fields)] id = [] := by simp [addedRows, Ne.symm hne]
      rw [hadded, tableRows, hother id hne]
      exact List.Perm.refl _
  · intro id k row hold
    obtain ⟨c, hc, hrow⟩ := hold.seen h
    by_cases hid : id = p.pid
    · -- the same page: only the slot filled now has changed, and it was empty
      subst hid
      have hc' : c = p.row? := by
        rcases hplace with hon | hnew
        · exact Option.some.inj (hc.symm.trans hon.seen)
        · exfalso
          have hcount := h'.count_le (show db'.files.schema tbl = some (td, n + 1) by
            rw [hnew.schema, Function.update_self])
          obtain ⟨j, hj, heq⟩ := (mem_livePages (htable ▸ hs) (h.count_le hs)).mp hold.1
          rw [htable, hnew.page] at heq
          have := pageId_inj (by omega) (by omega) heq
          omega
      refine Holds.of_seen h' hpage hstored.self ?_
      change (p.put i t hstored.td).row? k = some row
      rw [hc'] at hrow
      have hne : k ≠ i := by
        rintro rfl
        rw [hstored.empty] at hrow
        cases hrow
      rw [TuplePage.put_row? p t hstored.td hstored.slot, Function.update_of_ne hne, hrow]
    · exact Holds.of_seen h' (hlive' id hold.1) ((hstored.other id hold.1 hid).trans hc) hrow
  · intro x hx
    obtain rfl := List.mem_singleton.mp hx
    exact ⟨p.pid, i, rfl, htable, Holds.of_seen h' hpage hstored.self hput⟩

/-- How one operation changes the page counts: by at most one page, and only for a table
whose pages are all full. -/
structure Grows (db db' : HeapDb) : Prop where
  count : ∀ tbl td n, db.files.schema tbl = some (td, n) →
    ∃ m ≤ n + 1, db'.files.schema tbl = some (td, m)
  absent : ∀ tbl, db.files.schema tbl = none → db'.files.schema tbl = none
  noRoom : ∀ tbl, db'.files.schema tbl ≠ db.files.schema tbl → NoRoom db tbl
  pageSize : db'.pageSize = db.pageSize

/-- What one operation does, if the offsets still fit afterwards. -/
structure Step (op : PoolOp) (db db' : HeapDb) (done : List (Int32 × Tuple)) : Prop where
  ready : Ready HeapPage.rowView db'
  refines : Refines op.added db db'
  placed : Placed db' done
  done_eq : (done.map fun x => (x.1, x.2.fields)) = op.added

theorem Grows.of_schema (hschema : db'.files.schema = db.files.schema)
    (hsize : db'.pageSize = db.pageSize) : Grows db db' := by
  refine ⟨?_, ?_, ?_, hsize⟩
  · intro tbl td n hs
    exact ⟨n, Nat.le_succ n, by rw [hschema, hs]⟩
  · intro tbl hs
    rw [hschema, hs]
  · intro tbl hne
    exact absurd (congrFun hschema tbl) hne

theorem Grows.of_newPage {p : HeapPage} (h : Ready HeapPage.rowView db)
    (hs : db.files.schema tbl = some (td, n)) (hsize : db'.pageSize = db.pageSize)
    (hnew : OnNewPage HeapPage.rowView tbl td n db db' p) : Grows db db' := by
  refine ⟨?_, ?_, ?_, hsize⟩
  · intro id td' n' hs'
    rw [hnew.schema]
    rcases eq_or_ne id tbl with rfl | hne
    · rw [hs] at hs'
      cases hs'
      exact ⟨n + 1, le_refl _, Function.update_self ..⟩
    · exact ⟨n', Nat.le_succ n', by rw [Function.update_of_ne hne, hs']⟩
  · intro id hnone
    rw [hnew.schema, Function.update_of_ne, hnone]
    rintro rfl
    rw [hs] at hnone
    cases hnone
  · intro id hne
    rw [hnew.schema] at hne
    rcases eq_or_ne id tbl with rfl | hother
    · exact noRoom_of_seenFull h hs hnew.full
    · rw [Function.update_of_ne hother] at hne
      exact absurd rfl hne

theorem step_of_quiet {op : PoolOp} (hop : op.added = []) (h : Ready HeapPage.rowView db)
    (hserving : Serving (backing HeapPage.rowView db.pageSize) (livePages db.files.schema) db')
    (hquiet : Quiet (backing HeapPage.rowView db.pageSize) (livePages db.files.schema) db db') :
    Grows db db' ∧ (OffsetsFit db' → Step op db db' []) := by
  obtain ⟨h', hrefines⟩ := refines_of_quiet h hserving hquiet
  refine ⟨Grows.of_schema hquiet.info hserving.pageSize, fun _ => ⟨h', hop ▸ hrefines, ?_, hop.symm⟩⟩
  exact fun x hx => absurd hx List.not_mem_nil

theorem evictPage_any (h : Ready HeapPage.rowView db) :
    ∃ db', BufferPool.evictPage db = .ok () db' ∧
      Serving (backing HeapPage.rowView db.pageSize) (livePages db.files.schema) db' ∧
      Quiet (backing HeapPage.rowView db.pageSize) (livePages db.files.schema) db db' := by
  by_cases hne : db.pages.keys = []
  · refine ⟨db, ?_, h.serving, Quiet.refl _ _ _⟩
    rw [BufferPool.evictPage, bind_ok (get_run db), hne]
    rfl
  · obtain ⟨db', -, hrun, h', hquiet, -⟩ := BufferPool.evictPage_spec h.serving hne
    exact ⟨db', hrun, h', hquiet⟩

/-- Every legal operation runs, and refines the tables. -/
theorem run_spec (h : Ready HeapPage.rowView db) (hroomy : Roomy db) {op : PoolOp}
    (hlegal : op.Legal db.files.schema) :
    ∃ done db', op.run db = .ok done db' ∧ Grows db db' ∧
      (OffsetsFit db' → Step op db db' done) := by
  cases op with
  | insertTuple tid tableId t =>
    obtain ⟨n, hs⟩ := hlegal
    obtain ⟨db', p, i, hrun, hstored, hplace⟩ :=
      insertTuple_spec h hs rfl (hroomy _ _ _ hs) tid
    refine ⟨[(tableId, t.setRecordId (some ⟨.heap p.pid, i⟩))], db', ?_, ?_, ?_⟩
    · rw [PoolOp.run, bind_ok hrun]
      rfl
    · rcases hplace with hold | hnew
      · exact Grows.of_schema hold.schema hstored.pageSize
      · exact Grows.of_newPage h hs hstored.pageSize hnew
    · intro hfit
      have h' : Ready HeapPage.rowView db' := by
        rcases hplace with hold | hnew
        · exact hold.ready
        · have := hfit tableId t.td (n + 1) (by rw [hnew.schema, Function.update_self])
          rw [hstored.pageSize] at this
          exact hnew.ready this
      obtain ⟨hrefines, hplaced⟩ := refines_of_insert h hs rfl hstored hplace h'
      exact ⟨h', hrefines, hplaced, rfl⟩
  | getPage id =>
    obtain ⟨⟨td, n⟩, hs⟩ := Option.isSome_iff_exists.mp hlegal
    have hknown : (backing HeapPage.rowView db.pageSize).Known
        ((backing HeapPage.rowView db.pageSize).info db.files) (.heap id) :=
      ⟨td, n, hs, h.covered _ _ _ hs⟩
    obtain ⟨db', ref, hrun, h', hquiet, -⟩ := BufferPool.getPage_spec h.serving h.numPages hknown
    refine ⟨[], db', ?_, step_of_quiet rfl h h' hquiet⟩
    rw [PoolOp.run, bind_ok hrun]
    rfl
  | flushPage id =>
    obtain ⟨db', hrun, h', hquiet, -⟩ := BufferPool.flushPage_spec h.serving (.heap id)
    refine ⟨[], db', ?_, step_of_quiet rfl h h' hquiet⟩
    rw [PoolOp.run, bind_ok hrun]
    rfl
  | flushPages tid =>
    obtain ⟨db', hrun, h', hquiet, -⟩ := BufferPool.flushPages_spec h.serving tid
    refine ⟨[], db', ?_, step_of_quiet rfl h h' hquiet⟩
    rw [PoolOp.run, bind_ok hrun]
    rfl
  | flushAllPages =>
    obtain ⟨db', hrun, h', hquiet, -⟩ := BufferPool.flushAllPages_spec h.serving
    refine ⟨[], db', ?_, step_of_quiet rfl h h' hquiet⟩
    rw [PoolOp.run, bind_ok hrun]
    rfl
  | evictPage =>
    obtain ⟨db', hrun, h', hquiet⟩ := evictPage_any h
    refine ⟨[], db', ?_, step_of_quiet rfl h h' hquiet⟩
    rw [PoolOp.run, bind_ok hrun]
    rfl

theorem addedRows_append (xs ys : List (Int32 × Row)) (tbl : Int32) :
    addedRows (xs ++ ys) tbl = addedRows xs tbl ++ addedRows ys tbl := by
  simp [addedRows]

theorem Refines.trans {xs ys : List (Int32 × Row)} {db'' : HeapDb} (h : Refines xs db db')
    (h' : Refines ys db' db'') : Refines (xs ++ ys) db db'' where
  tables := fun id => (h'.tables id).trans (h.tables id)
  capacity := h'.capacity.trans h.capacity
  pageSize := h'.pageSize.trans h.pageSize
  rows := by
    intro tbl
    rw [addedRows_append, List.append_assoc]
    refine (h'.rows tbl).trans ?_
    refine ((h.rows tbl).append_left _).trans ?_
    rw [← List.append_assoc, ← List.append_assoc]
    exact List.perm_append_comm.append_right _
  keeps := fun id i row hold => h'.keeps id i row (h.keeps id i row hold)

/-- Every run of legal operations whose pages stay below `2 ^ 31` goes through, and refines
the tables. -/
theorem runOps_spec (ops : List PoolOp) (h : Ready HeapPage.rowView db) (hroomy : Roomy db)
    (hlegal : ∀ op ∈ ops, op.Legal db.files.schema)
    (hfit : ∀ k ≤ ops.length, ∀ done db', runOps (ops.take k) db = .ok done db' → OffsetsFit db') :
    ∃ done db', runOps ops db = .ok done db' ∧ Ready HeapPage.rowView db' ∧
      Refines (ops.flatMap PoolOp.added) db db' ∧ Placed db' done ∧
      (done.map fun x => (x.1, x.2.fields)) = ops.flatMap PoolOp.added := by
  induction ops generalizing db with
  | nil =>
    have hrefl : Refines [] db db :=
      ⟨fun _ => rfl, rfl, rfl, fun _ => List.Perm.refl _, fun _ _ _ hold => hold⟩
    exact ⟨[], db, rfl, h, hrefl, fun x hx => absurd hx List.not_mem_nil, rfl⟩
  | cons op ops ih =>
    obtain ⟨done₁, db₁, hrun₁, -, hstep⟩ := run_spec h hroomy (hlegal op List.mem_cons_self)
    have hfit₁ : OffsetsFit db₁ := by
      apply hfit 1 (by simp) (done₁ ++ []) db₁
      rw [List.take_succ_cons, List.take_zero, runOps, bind_ok hrun₁]
      rfl
    have s := hstep hfit₁
    have hlegal₁ : ∀ op' ∈ ops, op'.Legal db₁.files.schema :=
      fun op' hop' => (hlegal op' (List.mem_cons_of_mem op hop')).of_sameTables s.refines.tables
    obtain ⟨done₂, db₂, hrun₂, h₂, hrefines₂, hplaced₂, hdone₂⟩ :=
      ih s.ready (hroomy.of_refines s.refines) hlegal₁ (by
        intro k hk done db' hrun
        apply hfit (k + 1) (by simpa using hk) (done₁ ++ done) db'
        rw [List.take_succ_cons, runOps, bind_ok hrun₁, bind_ok hrun]
        rfl)
    refine ⟨done₁ ++ done₂, db₂, ?_, h₂, ?_, ?_, ?_⟩
    · rw [runOps, bind_ok hrun₁, bind_ok hrun₂]
      rfl
    · rw [List.flatMap_cons]
      exact s.refines.trans hrefines₂
    · intro x hx
      rcases List.mem_append.mp hx with hx | hx
      · obtain ⟨id, i, hrid, hid, hold⟩ := s.placed x hx
        exact ⟨id, i, hrid, hid, hrefines₂.keeps _ _ _ hold⟩
      · exact hplaced₂ x hx
    · rw [List.map_append, s.done_eq, hdone₂, List.flatMap_cons]

/-- Once everything is flushed, the bytes on disk alone give every table. -/
theorem diskRows_flushed (h : Ready HeapPage.rowView db) :
    ∃ db', BufferPool.flushAllPages db = .ok () db' ∧ ∀ tbl, diskRows db' tbl = tableRows db tbl := by
  obtain ⟨db', hrun, hserving, hquiet, -, hclean⟩ := BufferPool.flushAllPages_spec h.serving
  have hsize : db'.pageSize = db.pageSize := hserving.pageSize
  have hschema : db'.files.schema = db.files.schema := hquiet.info
  have h' := h.keep hserving hschema hquiet.numPages
  refine ⟨db', hrun, ?_⟩
  intro tbl
  unfold tableRows diskRows itemsOf
  rw [hschema]
  cases hs : db.files.schema tbl with
  | none => rfl
  | some e =>
    obtain ⟨td, n⟩ := e
    apply List.flatMap_congr
    intro i hi
    have hin := List.mem_range.mp hi
    have hlive := h.page_live hs hin
    obtain ⟨p, hp, hpid, hgood, hseen⟩ := readerPage_spec h hlive
    have hknown : KnownPage HeapPage.rowView db'.files.schema (.heap (pageId tbl i)) :=
      h'.known (hschema ▸ hs) i
    obtain ⟨q, hread, hqid, hqgood, hcontent⟩ :=
      readPage_ok db'.pageSize db'.objects.length hknown
    -- nothing is dirty any more, so what a reader saw is what the file holds
    have hstored : HeapFile.stored HeapPage.rowView db'.pageSize db'.files (.heap (pageId tbl i)) =
        some p.row? := by
      have hview := (hquiet.view _ hlive).trans hseen
      rw [hserving.coherent.view_eq_disk hlive fun c => hclean _ c] at hview
      rw [hsize]
      exact hview
    have hrow : q.row? = p.row? := hcontent _ hstored
    have htd : q.td = p.td :=
      (hqgood.td_eq (by injection hqid) (hschema ▸ hs)).trans (hgood.td_eq hpid hs).symm
    simp only [hread, hp, Except.toOption, Option.map_some, Option.getD_some]
    exact rowTally.congr q p htd (by rw [hqgood.fits.slots, hgood.fits.slots, htd, hsize]) hrow

/-- A pool with nothing in it over heap files as their constructor opens them: integer
schemas with at least one slot to a page, and as many pages as fit in the file. -/
structure Opened (db : HeapDb) : Prop extends Fresh db where
  intOnly : ∀ id f, db.files.file? id = some f → f.td.IntOnly
  slots : ∀ id f, db.files.file? id = some f → 0 < HeapPage.getNumTuples db.pageSize f.td

theorem Opened.roomy (h : Opened db) : Roomy db := by
  intro id td n hs
  obtain ⟨f, hf, -, rfl, -⟩ := schema_eq_some hs
  exact h.slots id f hf

theorem Opened.ready (h : Opened db) (hfit : OffsetsFit db) : Ready HeapPage.rowView db :=
  h.toFresh.ready h.intOnly hfit

/-- A run of `m` operations keeps page offsets in range if `m` more pages would. -/
theorem runOps_offsets (ops : List PoolOp) (h : Ready HeapPage.rowView db) (hroomy : Roomy db)
    (hlegal : ∀ op ∈ ops, op.Legal db.files.schema)
    (hbound : ∀ id td n, db.files.schema id = some (td, n) →
      (n + ops.length) * db.pageSize ≤ 2147483648) :
    ∀ k ≤ ops.length, ∀ done db', runOps (ops.take k) db = .ok done db' → OffsetsFit db' := by
  induction ops generalizing db with
  | nil =>
    intro k _ done db' hrun
    rw [List.take_nil] at hrun
    cases hrun
    exact fun id td n hs => hbound id td n hs
  | cons op ops ih =>
    obtain ⟨done₁, db₁, hrun₁, hgrows, hstep⟩ := run_spec h hroomy (hlegal op List.mem_cons_self)
    have hbound₁ : ∀ id td m, db₁.files.schema id = some (td, m) →
        (m + ops.length) * db₁.pageSize ≤ 2147483648 := by
      intro id td m hs
      cases hs₀ : db.files.schema id with
      | none =>
        rw [hgrows.absent id hs₀] at hs
        cases hs
      | some e =>
        obtain ⟨m', hm', hs'⟩ := hgrows.count id e.1 e.2 hs₀
        rw [hs'] at hs
        cases hs
        rw [hgrows.pageSize]
        refine le_trans (Nat.mul_le_mul_right _ ?_) (hbound id _ _ hs₀)
        rw [List.length_cons]
        omega
    have s := hstep fun id td m hs =>
      le_trans (Nat.mul_le_mul_right _ (Nat.le_add_right _ _)) (hbound₁ id td m hs)
    intro k hk done db' hrun
    cases k with
    | zero =>
      cases hrun
      exact fun id td n hs =>
        le_trans (Nat.mul_le_mul_right _ (Nat.le_add_right _ _)) (hbound id td n hs)
    | succ k =>
      rw [List.take_succ_cons, runOps, bind_ok hrun₁] at hrun
      obtain ⟨rest, db₂, hrest, hend⟩ := of_bind_ok hrun
      cases hend
      have hlegal₁ : ∀ op' ∈ ops, op'.Legal db₁.files.schema :=
        fun op' hop' => (hlegal op' (List.mem_cons_of_mem op hop')).of_sameTables s.refines.tables
      exact ih s.ready (hroomy.of_refines s.refines) hlegal₁ hbound₁ k (by simpa using hk) rest _
        hrest

/-- The pool loses and duplicates nothing. Whatever is evicted during a run, the pool stays
within its capacity, every table holds its old rows and those inserted, every inserted tuple
is in the slot its record id names, a table grows only when it has no empty slot, and after
`flushAllPages` the files alone hold every table. -/
theorem runOps_refines (h : Opened db) (ops : List PoolOp)
    (hlegal : ∀ op ∈ ops, op.Legal db.files.schema)
    (hfit : ∀ k ≤ ops.length, ∀ done db', runOps (ops.take k) db = .ok done db' → OffsetsFit db') :
    ∃ done db', runOps ops db = .ok done db' ∧ db'.pages.keys.length ≤ db.numPages ∧
      (∀ tbl, (tableRows db' tbl).Perm
        (addedRows (ops.flatMap PoolOp.added) tbl ++ tableRows db tbl)) ∧
      (done.map fun x => (x.1, x.2.fields)) = ops.flatMap PoolOp.added ∧ Placed db' done ∧
      (∀ op : PoolOp, op.Legal db.files.schema → ∀ done' db'', op.run db' = .ok done' db'' →
        ∀ tbl, db''.files.schema tbl ≠ db'.files.schema tbl → NoRoom db' tbl) ∧
      ∃ db'', BufferPool.flushAllPages db' = .ok () db'' ∧
        ∀ tbl, diskRows db'' tbl = tableRows db' tbl := by
  have hready := h.ready (hfit 0 (Nat.zero_le _) [] db rfl)
  obtain ⟨done, db', hrun, h', hrefines, hplaced, hdone⟩ :=
    runOps_spec ops hready h.roomy hlegal hfit
  refine ⟨done, db', hrun, ?_, hrefines.rows, hdone, hplaced, ?_, diskRows_flushed h'⟩
  · have := h'.serving.capacity
    rwa [hrefines.capacity] at this
  · intro op hop done' db'' hrun' tbl hne
    obtain ⟨done₁, db₁, hrun₁, hgrows, -⟩ :=
      run_spec h' (h.roomy.of_refines hrefines) (hop.of_sameTables hrefines.tables)
    rw [hrun₁] at hrun'
    cases hrun'
    exact hgrows.noRoom tbl hne

theorem openTable_opened {pageSize numPages : ℕ} {tableid : Int32} {td : TupleDesc} {fd : File}
    (hsize : 0 < pageSize) (hnum : 1 ≤ numPages) (hint : td.IntOnly)
    (hslots : 0 < HeapPage.getNumTuples pageSize td) :
    Opened (openTable pageSize numPages tableid td fd) := by
  refine ⟨openTable_fresh hsize hnum, ?_, ?_⟩
  · intro id f hf
    rwa [openTable_file hf]
  · intro id f hf
    rwa [openTable_file hf]

/-- Three insertions through a pool of one page, two rows to a page. -/
theorem runOps_refines_run :
    ∃ done db', runOps [.insertTuple ⟨1⟩ 7 (intTuple 5), .insertTuple ⟨2⟩ 7 (intTuple 6), .evictPage,
        .insertTuple ⟨1⟩ 7 (intTuple 5), .flushAllPages] (openTable 9 1 7 oneInt .empty) =
        .ok done db' ∧ (tableRows db' 7).Perm [[.int 5], [.int 6], [.int 5]] := by
  have hopened : Opened (openTable 9 1 7 oneInt .empty) :=
    openTable_opened (by decide) (by decide) (by decide) (by decide)
  have hlegal : ∀ op ∈ [PoolOp.insertTuple ⟨1⟩ 7 (intTuple 5), .insertTuple ⟨2⟩ 7 (intTuple 6),
      .evictPage, .insertTuple ⟨1⟩ 7 (intTuple 5), .flushAllPages],
      op.Legal (openTable 9 1 7 oneInt .empty).files.schema := by
    intro op hop
    fin_cases hop
    · exact ⟨0, rfl⟩
    · exact ⟨0, rfl⟩
    · trivial
    · exact ⟨0, rfl⟩
    · trivial
  have hcount : ∀ id td n, (openTable 9 1 7 oneInt .empty).files.schema id = some (td, n) → n = 0 := by
    intro id td n hs
    obtain ⟨f, hf, -, -, rfl⟩ := schema_eq_some hs
    rw [openTable_file hf]
    rfl
  have hready := hopened.ready fun id td n hs => by rw [hcount id td n hs]; decide
  obtain ⟨done, db', hrun, -, hrows, -⟩ := runOps_refines hopened _ hlegal
    (runOps_offsets _ hready hopened.roomy hlegal fun id td n hs => by
      rw [hcount id td n hs]
      decide)
  exact ⟨done, db', hrun, hrows 7⟩

end HeapFile

end PagedDb
