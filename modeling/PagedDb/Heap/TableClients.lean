import PagedDb.Foundation.Relate
import PagedDb.Heap.SlotTables

/-!
# Clients of heap tables

A client inserts tuples through the pool, keeps the tuple objects it gets back, and
deletes with them. Pages are read, flushed and evicted meanwhile. What the client
finds is what the slots for rows do, in which there are no pages to evict.
-/

namespace PagedDb

open Exec WriteBack HeapFile

namespace TableOp

/-- Run one operation, with the tuple objects that insertions have handed back until then. -/
def run (objects : List Tuple) : TableOp → HeapM (List Tuple)
  | .pool op => do
    let done ← op.run
    pure (objects ++ done.map Prod.snd)
  | .delete tid k =>
    match objects[k]? with
    | some t => do
      let t ← fileDelete tid t
      pure (objects.set k t)
    | none => pure objects

def runFrom (objects : List Tuple) (ops : List TableOp) : HeapM (List Tuple) :=
  ops.foldlM run objects

def runAll (ops : List TableOp) : HeapM (List Tuple) := runFrom [] ops

theorem Legal.of_sameTables {schema schema' : Int32 → Option (TupleDesc × ℕ)}
    (h : SameTables schema schema') {op : TableOp} (hlegal : op.Legal schema) : op.Legal schema' := by
  cases op with
  | pool op => exact PoolOp.Legal.of_sameTables h hlegal
  | delete tid k => trivial

theorem runFrom_cons (objects : List Tuple) (op : TableOp) (ops : List TableOp) :
    runFrom objects (op :: ops) = op.run objects >>= fun objects => runFrom objects ops := rfl

end TableOp

/-- The tuple object that an insertion gave this handle to. -/
structure Handle.Of (h : Handle) (u : Tuple) : Prop where
  rid : u.rid = some ⟨.heap (pageId h.table h.page), h.slot⟩
  fields : u.fields = h.row

/-- The slots of the tables are what a reader gets, and the handles are those of the objects. -/
structure Mirrors (db : HeapDb) (objects : List Tuple) (s : SlotStore) : Prop where
  ready : Ready HeapPage.rowView db
  roomy : Roomy db
  tables : HeapFile.tables db = s.tables
  objects : List.Forall₂ Handle.Of s.handles objects
  inside : ∀ h ∈ s.handles, ∃ x, s.tables h.table = some x ∧
    h.page < x.rows.count ∧ h.slot < x.rows.width

namespace Mirrors

variable {db db' : HeapDb} {objects : List Tuple} {s : SlotStore} {x : SlotTable} {tbl : Int32}

theorem start (h : Opened db) (hfit : OffsetsFit db) : Mirrors db [] ⟨HeapFile.tables db, []⟩ :=
  ⟨h.ready hfit, h.roomy, rfl, .nil, fun _ hh => absurd hh List.not_mem_nil⟩

theorem shown (M : Mirrors db objects s) (hx : s.tables tbl = some x) : Shown db tbl x :=
  (shown_iff M.ready).mp (by rw [M.tables, hx])

theorem table (M : Mirrors db objects s) {td : TupleDesc} {n : ℕ}
    (hs : db.files.schema tbl = some (td, n)) :
    ∃ x, s.tables tbl = some x ∧ x.td = td ∧ x.rows.count = n := by
  cases hx : s.tables tbl with
  | none =>
    rw [← M.tables, tables_eq_none, hs] at hx
    cases hx
  | some x =>
    have hschema := (M.shown hx).schema
    rw [hs] at hschema
    cases hschema
    exact ⟨x, rfl, rfl, rfl⟩

theorem known (M : Mirrors db objects s) {op : TableOp} (hlegal : op.Legal db.files.schema)
    {r : Int32 × Row} (hr : r ∈ op.added) : ∃ x, s.tables r.1 = some x := by
  cases op with
  | delete tid k => cases hr
  | pool op =>
    cases op with
    | insertTuple tid tableId t =>
      obtain ⟨n, hs⟩ := hlegal
      obtain rfl := List.mem_singleton.mp hr
      obtain ⟨x, hx, -⟩ := M.table hs
      exact ⟨x, hx⟩
    | _ => cases hr

theorem fields (M : Mirrors db objects s) :
    objects.map Tuple.fields = s.handles.map (Prod.snd ∘ Handle.inserted) := by
  refine List.ext_getElem (by simp [M.objects.length_eq]) fun k hk hk' => ?_
  rw [List.getElem_map, List.getElem_map]
  have hlt : k < s.handles.length := by simpa using hk'
  exact (M.objects.get hlt (by simpa using hk)).fields

theorem width_pos (M : Mirrors db objects s) (hx : s.tables tbl = some x) : 0 < x.rows.width := by
  have hshown := M.shown hx
  rw [hshown.width]
  exact M.roomy _ _ _ hshown.schema

theorem inside_setRows (M : Mirrors db objects s) (hx : s.tables tbl = some x) {S : Shelves Row}
    (hwidth : S.width = x.rows.width) (hcount : x.rows.count ≤ S.count) :
    ∀ h ∈ s.handles, ∃ y, (s.setRows tbl x S).tables h.table = some y ∧
      h.page < y.rows.count ∧ h.slot < y.rows.width := by
  intro h hh
  obtain ⟨y, hy, hpage, hslot⟩ := M.inside h hh
  rw [SlotStore.setRows_tables]
  split
  · rename_i heq
    rw [heq, hx] at hy
    cases hy
    exact ⟨_, rfl, hpage.trans_le hcount, hwidth ▸ hslot⟩
  · exact ⟨y, hy, hpage, hslot⟩

theorem quiet (M : Mirrors db objects s)
    (h' : Serving (backing HeapPage.rowView db.pageSize) (livePages db.files.schema) db')
    (hquiet : Quiet (backing HeapPage.rowView db.pageSize) (livePages db.files.schema) db db') :
    Mirrors db' objects s := by
  obtain ⟨hready, hrefines⟩ := refines_of_quiet M.ready h' hquiet
  exact ⟨hready, M.roomy.of_refines hrefines, (tables_quiet M.ready h' hquiet).trans M.tables,
    M.objects, M.inside⟩

/-- An insertion is one by first fit. -/
theorem insert (M : Mirrors db objects s) {t : Tuple} {n : ℕ}
    (hs : db.files.schema tbl = some (t.td, n)) (hfit : (n + 1) * db.pageSize ≤ 2147483648)
    (tid : TransactionId) :
    ∃ s' t' db', s.insert tbl t.fields = .ok s' ∧ BufferPool.insertTuple tid tbl t db = .ok t' db' ∧
      Mirrors db' (objects ++ [t']) s' ∧ Grows db db' ∧ SameTables db.files.schema db'.files.schema := by
  obtain ⟨x, hx, htd, rfl⟩ := M.table hs
  have hshown := M.shown hx
  have hpos := M.width_pos hx
  obtain ⟨db', p, i, hrun, hstored, hplace⟩ := insertTuple_spec M.ready hs rfl (M.roomy _ _ _ hs) tid
  have hgrows : Grows db db' := by
    rcases hplace with hold | hnew
    · exact Grows.of_schema hold.schema hstored.pageSize
    · exact Grows.of_newPage M.ready hs hstored.pageSize hnew
  have hready : Ready HeapPage.rowView db' := by
    rcases hplace with hold | hnew
    · exact hold.ready
    · exact hnew.ready hfit
  obtain ⟨hrefines, -⟩ := refines_of_insert M.ready hs rfl hstored hplace hready
  -- the record id in the tuple says where the row is
  have hrid := congrArg Tuple.rid (insertTuple_place M.ready hshown hpos hrun)
  obtain ⟨hpid, hi⟩ := RecordId.mk.inj (Option.some.inj hrid)
  have htables := tables_insert hstored M.ready hready hshown htd.symm (htd ▸ hplace)
    (PageId.heap.inj hpid) hi
  obtain ⟨hslot, -⟩ := Shelves.place_free hpos
  refine ⟨_, _, db', by rw [SlotStore.insert, hx], hrun, ?_, hgrows, hrefines.tables⟩
  constructor
  case ready => exact hready
  case roomy => exact M.roomy.of_refines hrefines
  case tables =>
    rw [htables, M.tables]
    rfl
  case objects =>
    refine List.rel_append M.objects (.cons ⟨?_, rfl⟩ .nil)
    rw [← PageId.heap.inj hpid, ← hi]
    rfl
  case inside =>
    intro h hh
    rcases List.mem_append.mp hh with hold | hnew
    · exact M.inside_setRows (S := x.rows.insert t.fields) hx rfl (Nat.le_max_left _ _) h hold
    · obtain rfl := List.mem_singleton.mp hnew
      refine ⟨_, (SlotStore.setRows_tables ..).trans (if_pos rfl), ?_, hslot⟩
      exact Nat.lt_of_lt_of_le (Nat.lt_succ_self _) (Nat.le_max_right _ _)

/-- A deletion takes out what is in the slot, or finds nothing there. -/
theorem delete (M : Mirrors db objects s) {k : ℕ} {h : Handle} (hk : s.handles[k]? = some h)
    (tid : TransactionId) : ∃ u, objects[k]? = some u ∧
      Yields (s.delete h) (fun v db' s' => v = u ∧ Mirrors db' objects s' ∧
        db'.files.schema = db.files.schema ∧ db'.pageSize = db.pageSize) (fileDelete tid u db) := by
  obtain ⟨hlt, rfl⟩ := List.getElem?_eq_some_iff.mp hk
  have hlen : k < objects.length := M.objects.length_eq ▸ hlt
  have hof : Handle.Of s.handles[k] objects[k] := M.objects.get hlt hlen
  obtain ⟨x, hx, hpage, hslot⟩ := M.inside _ (List.getElem_mem hlt)
  obtain ⟨hused, hfree⟩ := fileDelete_spec M.ready (M.shown hx) hpage hslot hof.rid tid
  refine ⟨objects[k], List.getElem?_eq_getElem hlen, ?_⟩
  rw [SlotStore.delete, hx]
  change Yields (if _ then _ else _) _ _
  split
  · rename_i hbit
    obtain ⟨db', hrun, hready, hschema, hnum, hsize, htables⟩ := hused hbit
    rw [hrun]
    refine .of_ok ⟨rfl, ⟨hready, ?_, ?_, M.objects, ?_⟩, hschema, hsize⟩
    · intro id td n hs
      rw [hsize]
      exact M.roomy id td n (hschema ▸ hs)
    · rw [htables, M.tables]
      rfl
    · exact M.inside_setRows (S := x.rows.set _ _ none) hx rfl (Nat.le_max_left _ _)
  · rename_i hbit
    obtain ⟨db', hrun⟩ := hfree (Bool.eq_false_iff.mpr hbit)
    rw [hrun]
    exact .of_error _ _

/-- One operation does to the tables what it does to the slots. -/
theorem step (M : Mirrors db objects s) {op : TableOp} (hlegal : op.Legal db.files.schema)
    (hfit : ∀ id td n, db.files.schema id = some (td, n) → (n + 1) * db.pageSize ≤ 2147483648) :
    Yields (s.apply op) (fun objects' db' s' => Mirrors db' objects' s' ∧ Grows db db' ∧
      SameTables db.files.schema db'.files.schema) (op.run objects db) := by
  have hsame : ∀ {db' : HeapDb}, db'.files.schema = db.files.schema →
      SameTables db.files.schema db'.files.schema := fun heq id => by rw [heq]
  cases op with
  | delete tid k =>
    rw [SlotStore.apply, TableOp.run]
    cases hk : s.handles[k]? with
    | none =>
      have hnone : objects[k]? = none := by
        rw [List.getElem?_eq_none_iff] at hk ⊢
        rwa [← M.objects.length_eq]
      rw [hnone]
      exact .of_ok ⟨M, Grows.of_schema rfl rfl, hsame rfl⟩
    | some h =>
      obtain ⟨u, hu, hdelete⟩ := M.delete hk tid
      rw [hu]
      change Yields (s.delete h) _ ((fileDelete tid u >>= fun t => pure (objects.set k t)) db)
      constructor
      case ok =>
        intro s' hs'
        obtain ⟨_, db', hrun, rfl, M', hschema, hsize⟩ := hdelete.ok s' hs'
        obtain ⟨hlt, rfl⟩ := List.getElem?_eq_some_iff.mp hu
        refine ⟨objects, db', ?_, M', Grows.of_schema hschema hsize, hsame hschema⟩
        rw [bind_ok hrun, List.set_getElem_self]
        rfl
      case error =>
        intro e he
        obtain ⟨db', hrun⟩ := hdelete.error e he
        exact ⟨db', bind_error hrun⟩
  | pool op =>
    by_cases hop : op.added = []
    · obtain ⟨db', hrun, h', hquiet⟩ := run_quiet M.ready hlegal hop
      have happly : s.apply (.pool op) = .ok s := by
        cases op with
        | insertTuple tid tableId t => cases hop
        | _ => rfl
      rw [happly, TableOp.run, bind_ok hrun]
      refine .of_ok ⟨?_, Grows.of_schema hquiet.info h'.pageSize, hsame hquiet.info⟩
      rw [List.map_nil, List.append_nil]
      exact M.quiet h' hquiet
    · cases op with
      | insertTuple tid tableId t =>
        obtain ⟨n, hs⟩ := hlegal
        obtain ⟨s', t', db', happly, hrun, M', hgrows, htables⟩ :=
          M.insert hs (hfit _ _ _ hs) tid
        rw [SlotStore.apply, happly, TableOp.run, PoolOp.run, bind_assoc, bind_ok hrun]
        exact .of_ok ⟨M', hgrows, htables⟩
      | _ => exact absurd rfl hop

theorem run (M : Mirrors db objects s) (ops : List TableOp)
    (hlegal : ∀ op ∈ ops, op.Legal db.files.schema)
    (hfit : ∀ id td n, db.files.schema id = some (td, n) →
      (n + ops.length) * db.pageSize ≤ 2147483648) :
    Yields (s.run ops) (fun objects' db' s' => Mirrors db' objects' s')
      (TableOp.runFrom objects ops db) := by
  induction ops generalizing db objects s with
  | nil => exact .of_ok M
  | cons op ops ih =>
    rw [TableOp.runFrom_cons]
    refine Yields.bind (g := fun s => s.run ops) (M.step (hlegal op List.mem_cons_self) ?_) ?_
    · intro id td n hs
      refine le_trans (Nat.mul_le_mul_right _ ?_) (hfit id td n hs)
      rw [List.length_cons]
      omega
    · rintro objects₁ db₁ s₁ ⟨M₁, hgrows, hsame⟩
      refine ih M₁ (fun op' hop' => (hlegal op' (List.mem_cons_of_mem op hop')).of_sameTables hsame) ?_
      intro id td m hs
      obtain ⟨n, hn⟩ := hsame.symm.lookup hs
      obtain ⟨m', hm', hs'⟩ := hgrows.count id td n hn
      rw [hs'] at hs
      cases hs
      rw [hgrows.pageSize]
      refine le_trans (Nat.mul_le_mul_right _ ?_) (hfit id td n hn)
      rw [List.length_cons]
      omega

theorem place_of_left (M : Mirrors db objects s) {s₀ : SlotStore} {dead : Finset ℕ}
    (L : SlotStore.Ledger s₀ s dead) {k : ℕ} {u : Tuple} (hu : objects[k]? = some u) (hk : k ∉ dead) :
    ∃ id i, u.rid = some ⟨.heap id, i⟩ ∧ Holds db id i u.fields := by
  obtain ⟨hlen, rfl⟩ := List.getElem?_eq_some_iff.mp hu
  have hlt : k < s.handles.length := M.objects.length_eq ▸ hlen
  have hof : Handle.Of s.handles[k] objects[k] := M.objects.get hlt hlen
  obtain ⟨x, hx, hat⟩ := L.own k _ (List.getElem?_eq_getElem hlt) hk
  obtain ⟨hpage, -⟩ := Shelves.lt_of_at? hat
  have hshown := M.shown hx
  refine ⟨_, _, hof.rid, ?_⟩
  rw [hof.fields]
  exact Holds.of_seen M.ready (M.ready.page_live hshown.schema hpage) (hshown.seen _ hpage) hat

theorem rid_inj_of_left (M : Mirrors db objects s) {s₀ : SlotStore} {dead : Finset ℕ}
    (L : SlotStore.Ledger s₀ s dead) {k k' : ℕ} {u u' : Tuple} (hu : objects[k]? = some u)
    (hu' : objects[k']? = some u') (hk : k ∉ dead) (hk' : k' ∉ dead) (hrid : u.rid = u'.rid) :
    k = k' := by
  obtain ⟨hlen, rfl⟩ := List.getElem?_eq_some_iff.mp hu
  obtain ⟨hlen', rfl⟩ := List.getElem?_eq_some_iff.mp hu'
  have hlt : k < s.handles.length := M.objects.length_eq ▸ hlen
  have hlt' : k' < s.handles.length := M.objects.length_eq ▸ hlen'
  have hof : Handle.Of s.handles[k] objects[k] := M.objects.get hlt hlen
  have hof' : Handle.Of s.handles[k'] objects[k'] := M.objects.get hlt' hlen'
  rw [hof.rid, hof'.rid] at hrid
  obtain ⟨hpid, hslot⟩ := RecordId.mk.inj (Option.some.inj hrid)
  have hid := PageId.heap.inj hpid
  have htable : (s.handles[k]).table = (s.handles[k']).table := congrArg HeapPageId.tableId hid
  -- page numbers below `2 ^ 31` are told apart by the page id
  have hbound : ∀ {j} (hj : j < s.handles.length), (s.handles[j]).page < 2147483648 := by
    intro j hj
    obtain ⟨x, hx, hpage, -⟩ := M.inside _ (List.getElem_mem hj)
    exact hpage.trans_le (M.ready.count_le (M.shown hx).schema)
  rw [htable] at hid
  exact L.distinct k _ k' _ (List.getElem?_eq_getElem hlt) (List.getElem?_eq_getElem hlt') hk hk'
    htable (pageId_inj (hbound hlt) (hbound hlt') hid) hslot

theorem rows_eq (M : Mirrors db objects s) (tbl : Int32) :
    s.rows tbl = (tableRows db tbl : Multiset Row) := by
  rw [SlotStore.rows]
  cases hx : s.tables tbl with
  | none =>
    rw [← M.tables, tables_eq_none] at hx
    rw [tableRows, itemsOf, hx]
    rfl
  | some x => exact (M.shown hx).contents M.ready

end Mirrors

theorem sum_rowIn (handles : List Handle) (dead : Finset ℕ) (tbl : Int32) :
    ∑ k ∈ Finset.range handles.length \ dead, (handles[k]?.map (Handle.rowIn · tbl)).getD 0 =
      TableOp.leftRows (handles.map Handle.inserted) dead tbl := by
  rw [TableOp.leftRows, List.length_map]
  refine Finset.sum_congr rfl fun k _ => ?_
  rw [List.getElem?_map, Option.map_map]
  rfl

/-- A database as it is opened, operations that are legal in it, and room in the files for as many
pages as there are operations. -/
structure Admits (db : HeapDb) (ops : List TableOp) : Prop where
  opened : Opened db
  legal : ∀ op ∈ ops, op.Legal db.files.schema
  room : ∀ id td n, db.files.schema id = some (td, n) →
    (n + ops.length) * db.pageSize ≤ 2147483648

namespace Admits

variable {db : HeapDb} {ops : List TableOp}

theorem start (h : Admits db ops) : Mirrors db [] ⟨HeapFile.tables db, []⟩ :=
  Mirrors.start h.opened fun id td n hs =>
    le_trans (Nat.mul_le_mul_right _ (Nat.le_add_right n ops.length)) (h.room id td n hs)

theorem openTable (hlegal : ∀ op ∈ ops, op.Legal (openTable 9 1 7 oneInt .empty).files.schema)
    (hops : ops.length ≤ 9) : Admits (openTable 9 1 7 oneInt .empty) ops := by
  refine ⟨openTable_opened (by decide) (by decide) (by decide) (by decide), hlegal, ?_⟩
  intro id td n hs
  obtain ⟨f, hf, -, -, rfl⟩ := schema_eq_some hs
  rw [openTable_file hf]
  change (0 / 9 + ops.length) * 9 ≤ 2147483648
  omega

end Admits

namespace TableOp

variable {db : HeapDb} {ops : List TableOp}

/-- Whatever pages are evicted on the way, a run over heap files returns where the same run over
slots for rows does, and fails where that fails. At its end the tables are those slots, in the pool
and, once everything is flushed, in the files alone, and the tuple objects name the slots of the
handles. -/
theorem runAll_refines (h : Admits db ops) : Yields ((⟨HeapFile.tables db, []⟩ : SlotStore).run ops)
    (fun objects db' s => HeapFile.tables db' = s.tables ∧
      List.Forall₂ Handle.Of s.handles objects ∧
      ∃ db'', BufferPool.flushAllPages db' = .ok () db'' ∧ diskTables db'' = s.tables)
    (runAll ops db) := by
  obtain ⟨hok, herror⟩ := h.start.run ops h.legal h.room
  refine ⟨fun s hs => ?_, herror⟩
  obtain ⟨objects, db', hrun, M⟩ := hok s hs
  obtain ⟨db'', hflush, hdisk⟩ := diskTables_flushed M.ready
  exact ⟨objects, db', hrun, M.tables, M.objects, db'', hflush, hdisk.trans M.tables⟩

/-- The second deletion with one tuple object finds its slot empty. -/
theorem runAll_refines_twice : ∃ db', runAll [.pool (.insertTuple ⟨1⟩ 7 (intTuple 5)),
      .delete ⟨1⟩ 0, .pool .evictPage, .delete ⟨2⟩ 0] (openTable 9 1 7 oneInt .empty) =
    .error (.runtimeError "Empty slot") db' := by
  refine (runAll_refines (Admits.openTable ?_ (by decide))).error _ ?_
  · intro op hop
    fin_cases hop
    · exact ⟨0, rfl⟩
    · trivial
    · trivial
    · trivial
  · rfl

/-- A run that deletes with no tuple object twice does not fail. Each object that is left is in a slot
of its own with its own fields, and every table holds their rows beside those it had before, in the
pool and, once everything is flushed, in the files alone. -/
theorem runAll_ledger (h : Admits db ops) (honce : DeletesOnce 0 ∅ ops) :
    ∃ objects db', runAll ops db = .ok objects db' ∧
      objects.map Tuple.fields = (ops.flatMap added).map Prod.snd ∧
      (∀ k u, objects[k]? = some u → k ∉ allDeleted ops →
        ∃ id i, u.rid = some ⟨.heap id, i⟩ ∧ Holds db' id i u.fields) ∧
      (∀ k u k' u', objects[k]? = some u → objects[k']? = some u' → k ∉ allDeleted ops →
        k' ∉ allDeleted ops → u.rid = u'.rid → k = k') ∧
      (∀ tbl, (tableRows db' tbl : Multiset Row) = tableRows db tbl +
        leftRows (ops.flatMap added) (allDeleted ops) tbl) ∧
      ∃ db'', BufferPool.flushAllPages db' = .ok () db'' ∧
        ∀ tbl, diskRows db'' tbl = tableRows db' tbl := by
  have M₀ := h.start
  let s₀ : SlotStore := ⟨HeapFile.tables db, []⟩
  have hknown : ∀ op ∈ ops, ∀ x ∈ op.added, (s₀.tables x.1).isSome := by
    intro op hop x hx
    obtain ⟨y, hy⟩ := M₀.known (h.legal op hop) hx
    exact Option.isSome_iff_exists.mpr ⟨y, hy⟩
  obtain ⟨s, hs, L⟩ := (SlotStore.Ledger.start s₀ (fun _ _ => M₀.width_pos) rfl).run hknown honce
  rw [Finset.union_empty] at L
  obtain ⟨objects, db', hrun, M⟩ := (M₀.run ops h.legal h.room).ok s hs
  have hinserted : s.handles.map Handle.inserted = ops.flatMap added := SlotStore.run_handles hs
  refine ⟨objects, db', hrun, ?_, fun k u hu hk => M.place_of_left L hu hk,
    fun k u k' u' hu hu' => M.rid_inj_of_left L hu hu', fun tbl => ?_, diskRows_flushed M.ready⟩
  · rw [← hinserted, List.map_map]
    exact M.fields
  · rw [← M.rows_eq, ← M₀.rows_eq, L.rows, sum_rowIn, hinserted]

/-- Of three rows on two pages the first is deleted, and a fourth gets its slot. -/
theorem runAll_ledger_fourRows : ∃ objects db', runAll [.pool (.insertTuple ⟨1⟩ 7 (intTuple 5)),
      .pool (.insertTuple ⟨1⟩ 7 (intTuple 6)), .pool (.insertTuple ⟨2⟩ 7 (intTuple 5)), .delete ⟨2⟩ 0,
      .pool (.insertTuple ⟨2⟩ 7 (intTuple 8))] (openTable 9 1 7 oneInt .empty) = .ok objects db' ∧
    (tableRows db' 7 : Multiset Row) = {[.int 6], [.int 5], [.int 8]} := by
  have hlegal : ∀ op ∈ [TableOp.pool (.insertTuple ⟨1⟩ 7 (intTuple 5)),
      .pool (.insertTuple ⟨1⟩ 7 (intTuple 6)), .pool (.insertTuple ⟨2⟩ 7 (intTuple 5)), .delete ⟨2⟩ 0,
      .pool (.insertTuple ⟨2⟩ 7 (intTuple 8))],
      op.Legal (HeapFile.openTable 9 1 7 oneInt .empty).files.schema := by
    intro op hop
    fin_cases hop
    · exact ⟨0, rfl⟩
    · exact ⟨0, rfl⟩
    · exact ⟨0, rfl⟩
    · trivial
    · exact ⟨0, rfl⟩
  obtain ⟨objects, db', hrun, -, -, -, hrows, -⟩ :=
    runAll_ledger (Admits.openTable hlegal (by decide))
      (by simp [DeletesOnce, deleted, added, PoolOp.added])
  exact ⟨objects, db', hrun, (hrows 7).trans (by decide +kernel)⟩

end TableOp

end PagedDb
