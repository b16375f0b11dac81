import PagedDb.BTree.ObjectScans

/-!
# Scans of a file that insertions and deletions have changed

Calls of the functions of the file itself, through a pool that keeps its pages.
As long as insertions find room and no deletion takes the last tuple, every call
that returns leaves a tree whose full scan gives each stored tuple once, in key
order. The deletion of the last tuple leaves an empty root leaf, and there the
scan reads a slot that is not used.
-/

namespace PagedDb

open Exec LogicalTree BTreeFile

/-- `BTreeFile::insertTuple`, `BufferPool::insertTuple` and `BTreeFile::deleteTuple`. -/
inductive FileCall
  | insert (tuple : Tuple)
  | poolInsert (call : InsertCall)
  | delete (tuple : Tuple)

namespace FileCall

variable {δ : Type} [BTreeDisk δ]

/-- A call; the result is the caller's tuple. The functions of the file start with an empty map. -/
def run : FileCall → EStateM Fault (PoolTree δ) Tuple
  | insert tuple => do
    modify fun s => { s with dirtypages := ∅ }
    BTreeFile.insertTuple tuple
  | poolInsert call => PoolTree.insertTuple call
  | delete tuple => do
    modify fun s => { s with dirtypages := ∅ }
    BTreeFile.deleteTuple tuple

def inserted : FileCall → Option Tuple
  | insert tuple => some tuple
  | poolInsert call => some call.tuple
  | delete _ => none

end FileCall

/-- The row in the slot that an object names, as the pool has the page. -/
def PoolTree.slotRow {δ : Type} (s : PoolTree δ) (u : Tuple) : Option Row := do
  let rid ← u.rid
  let ref ← s.db.pages.lookup rid.pid
  let obj ← s.db.objects[ref]?
  match obj.page with
  | .leaf p => p.row? rid.tupleno
  | _ => none

namespace FileCall

/-- The rows that are stored after a call that returns: the new one is added, or the row in the slot
that the object names is taken out. -/
def rowsAfter {δ : Type} (s : PoolTree δ) (rows : List Row) : FileCall → List Row
  | insert tuple => tuple.fields :: rows
  | poolInsert call => call.tuple.fields :: rows
  | delete u =>
    match s.slotRow u with
    | some row => rows.erase row
    | none => rows

theorem rowsAfter_inserted {δ : Type} (s : PoolTree δ) (rows : List Row) {call : FileCall}
    {tuple : Tuple} (h : call.inserted = some tuple) :
    call.rowsAfter s rows = tuple.fields :: rows := by
  cases call with
  | insert _ => cases h; rfl
  | poolInsert _ => cases h; rfl
  | delete _ => cases h

/-- An insertion is one of a tuple of the schema and finds room. A deletion is one with an object that
an insertion or a scan has given, and leaves a tuple. -/
def Allowed (td : TupleDesc) (objects : List Tuple) (rows : List Row) (s : PoolTree BTreeFile)
    (call : FileCall) : Prop :=
  match call.inserted with
  | some tuple =>
    tuple.td = td ∧ ∃ t, PoolTree.Resident s.db s.dirtypages t ∧ RoomFor t tuple
  | none => 2 ≤ rows.length ∧ ∀ u, call = delete u → u ∈ objects

end FileCall

/-- The loop from `begin()` to `end()` gives these tuples. -/
structure ScanGives (s : PoolTree BTreeFile) (t : LogicalTree) (rows : List Row)
    (us : List Tuple) : Prop where
  scan : ∃ s', ∀ fuel, us.length < fuel →
    BTreeFile.scan none fuel { s with dirtypages := ∅ } = .ok us s'
  stored : ∀ u ∈ us, ∃ n i p, t.pages n = some (.leaf p) ∧ u.rid = some ⟨.btree p.pid, i⟩ ∧
    p.tuple? i = some u
  once : (us.map Tuple.rid).Nodup
  rows : (us.map Tuple.fields).Perm rows
  ordered : KeyOrdered t.keyField (us.map Tuple.fields)

section Loop

variable {σ H : Type} [TreeStore σ H] {s s' : σ} {us : List Tuple} {fuel fuel' : ℕ}

/-- More rounds than a loop needs change nothing. -/
theorem scanFrom_mono {iter : BTreeFileIterator H} (hle : fuel ≤ fuel')
    (hrun : scanFrom fuel iter s = .ok us s') : scanFrom fuel' iter s = .ok us s' := by
  induction fuel generalizing fuel' iter us s with
  | zero => cases hrun
  | succ fuel ih =>
    obtain ⟨fuel', rfl⟩ : ∃ n, fuel' = n + 1 := ⟨fuel' - 1, by omega⟩
    rw [scanFrom] at hrun ⊢
    by_cases hnone : iter.isNone = true
    · rwa [if_pos hnone] at hrun ⊢
    · rw [if_neg hnone] at hrun ⊢
      obtain ⟨u, s₁, hget, hrun⟩ := of_bind_ok hrun
      obtain ⟨next, s₂, hnext, hrun⟩ := of_bind_ok hrun
      obtain ⟨rest, s₃, hrest, hrun⟩ := of_bind_ok hrun
      cases hrun
      rw [bind_ok hget, bind_ok hnext, bind_ok (ih (Nat.le_of_succ_le_succ hle) hrest)]
      rfl

theorem scan_mono {pred : Option IndexPredicate} (hle : fuel ≤ fuel')
    (hrun : BTreeFile.scan pred fuel s = .ok us s') :
    BTreeFile.scan pred fuel' s = .ok us s' := by
  obtain ⟨iter, s₁, hbegin, hfrom⟩ := of_bind_ok hrun
  exact (bind_ok hbegin).trans (scanFrom_mono hle hfrom)

end Loop

section Runs

variable {F : FileShape} {objects us : List Tuple} {rows : List Row} {s s' : PoolTree BTreeFile}
  {t t' : LogicalTree} {tuple u : Tuple} {T : KeyTree Int32 Int} {rank : Int32 → ℕ}
  {root : BTreePageId} {leaves : List Int32} {call : FileCall}

/-- A file that nothing is inserted into yet, or a tree with these rows on whose leaves the objects name
slots. -/
inductive HoldsRows (F : FileShape) (objects : List Tuple) (rows : List Row) (t : LogicalTree) : Prop
  | unused (h : Unused F.td t) (no_objects : objects = []) (no_rows : rows = []) :
      HoldsRows F objects rows t
  | grown {T : KeyTree Int32 Int} {rank : Int32 → ℕ} {root : BTreePageId} {leaves : List Int32}
      (h : Grown F.td T rank root leaves t) (perm : (t.leafRows leaves).Perm rows)
      (names : ∀ u ∈ objects, Names F leaves u) : HoldsRows F objects rows t

/-- The pool holds the pages of such a file. -/
structure FollowsFile (F : FileShape) (objects : List Tuple) (rows : List Row) (s : PoolTree BTreeFile)
    (t : LogicalTree) : Prop where
  resident : PoolTree.Resident s.db s.dirtypages t
  tableid : t.tableid = F.tableid
  pageSize : t.pageSize = F.pageSize
  cap : 2 ≤ BTreeLeafPage.getMaxTuples F.pageSize F.td
  holds : HoldsRows F objects rows t

theorem Stores.holdsRows {leaves' : List Int32} {t₁ : LogicalTree} {C : Int32} {l q : BTreeLeafPage}
    (h : Stores F.td leaves tuple u t t' T rank root leaves' t₁ C l q)
    (htable : t.tableid = F.tableid) (hsize : t.pageSize = F.pageSize)
    (hrows : (t.leafRows leaves).Perm rows) (hnames : ∀ v ∈ objects, Names F leaves v) :
    t'.tableid = F.tableid ∧ t'.pageSize = F.pageSize ∧
      HoldsRows F (u :: objects) (tuple.fields :: rows) t' := by
  refine ⟨h.tableid.trans htable, h.pageSize.trans hsize,
    .grown h.grown (h.perm.trans (hrows.cons _)) fun v hv => ?_⟩
  rcases List.mem_cons.mp hv with rfl | hv
  · exact (h.names htable hsize).2.2
  · exact (hnames v hv).mono h.kept

theorem HoldsRows.insertTuple (h : HoldsRows F objects rows t) (htable : t.tableid = F.tableid)
    (hsize : t.pageSize = F.pageSize) (hcap : 2 ≤ BTreeLeafPage.getMaxTuples F.pageSize F.td)
    (htd : tuple.td = F.td) (hroom : RoomFor t tuple) :
    ∃ u t', BTreeFile.insertTuple tuple t = .ok u t' ∧ t'.tableid = F.tableid ∧
      t'.pageSize = F.pageSize ∧ HoldsRows F (u :: objects) (tuple.fields :: rows) t' := by
  rw [← hsize] at hcap
  cases h with
  | unused h hobjects hrows =>
    subst hobjects hrows
    obtain ⟨r, u, t', T, rank, root, leaves, t₁, C, l, q, hrun, hstores, hnil⟩ :=
      h.insertTuple hcap htd
    exact ⟨u, t', hrun, hstores.holdsRows htable hsize (.of_eq hnil) (by simp)⟩
  | grown h hperm hnames =>
    obtain ⟨u, t', T, rank, root, leaves, t₁, C, l, q, hrun, hstores⟩ :=
      h.insertTuple hcap htd hroom
    exact ⟨u, t', hrun, hstores.holdsRows htable hsize hperm hnames⟩

/-- The slot that an object names, in the pool and in the map of its pages. -/
theorem PoolTree.Resident.slotRow (h : PoolTree.Resident s.db s.dirtypages t) {n : Int32}
    {p : BTreeLeafPage} {i : ℕ} (hp : t.pages n = some (.leaf p))
    (hrid : u.rid = some ⟨.btree p.pid, i⟩) : s.slotRow u = p.row? i := by
  obtain ⟨ref, hl, obj, hobj, hpage⟩ := h.held n _ hp
  simp only [BTreeFilePage.getId] at hl
  simp [PoolTree.slotRow, hrid, hl, hobj, hpage]

theorem FileCall.run_inserted (h : PoolTree.Resident s.db s.dirtypages t)
    (hcall : call.inserted = some tuple) (hrun : BTreeFile.insertTuple tuple t = .ok u t') :
    ∃ s', call.run s = .ok u s' ∧ PoolTree.Resident s'.db s'.dirtypages t' := by
  cases call with
  | insert _ =>
    cases hcall
    have hempty : PoolTree.Resident s.db ∅ t := { h with dirty := fun _ _ hl => by cases hl }
    have hagrees := PoolTree.residentSim.insertTuple (s := { s with dirtypages := ∅ }) hempty tuple
    rw [hrun] at hagrees
    obtain ⟨_, s₁, hok, hs₁, -, rfl⟩ := hagrees.of_ok
    exact ⟨s₁, hok, hs₁⟩
  | poolInsert call =>
    cases hcall
    exact PoolTree.insertTuple_resident h call hrun
  | delete _ => cases hcall

/-- A deletion ends on the pool as it does on the map of its pages. -/
theorem FileCall.run_delete (h : PoolTree.Resident s.db s.dirtypages t) (u : Tuple) :
    Agrees PoolTree.residentCoupling { s with dirtypages := ∅ } t (fun a b _ _ => a = b)
      ((FileCall.delete u).run s) (BTreeFile.deleteTuple u t) := by
  have hempty : PoolTree.Resident s.db ∅ t := { h with dirty := fun _ _ hl => by cases hl }
  exact PoolTree.residentSim.deleteTuple (s := { s with dirtypages := ∅ }) hempty u

theorem FollowsFile.delete (h : FollowsFile F objects rows s t) (hu : u ∈ objects)
    (hrun : (FileCall.delete u).run s = .ok tuple s') :
    ∃ t', FollowsFile F (tuple :: objects) ((FileCall.delete u).rowsAfter s rows) s' t' := by
  have hagrees := FileCall.run_delete h.resident u
  cases h.holds with
  | unused _ hobjects _ =>
    subst hobjects
    cases hu
  | @grown T rank root leaves hgrown hperm hnames =>
    rcases hgrown.delete_cases h.tableid h.pageSize (hnames u hu) with
      ⟨row, T', t', hdel, hrun', hgrown', hr, hrows⟩ | ⟨-, hfails⟩
    · rw [hrun'] at hagrees
      obtain ⟨_, s₁, hok, hs₁, -, rfl⟩ := hagrees.of_ok
      rw [hrun] at hok
      cases hok
      obtain ⟨n, i, p, hrid, hp, hrow, -⟩ := hdel
      obtain ⟨m, hm, j, hj, heq⟩ := hnames u hu _ hrid
      rw [← h.tableid] at heq
      cases heq
      have hslot : s.slotRow u = some row := by
        rw [h.resident.slotRow hp ((hgrown.legal.leaf_id hm hp).1 ▸ hrid), hrow]
      refine ⟨t', hs₁, hr.grown.tableid.trans h.tableid, hr.grown.pageSize.trans h.pageSize, h.cap,
        .grown hgrown' ?_ fun v hv => ?_⟩
      · have herase := (hrows.symm.trans hperm).erase row
        rw [List.erase_cons_head] at herase
        simpa [FileCall.rowsAfter, hslot] using herase
      · rcases List.mem_cons.mp hv with rfl | hv
        · exact fun rid hrid => by cases hrid
        · exact hnames v hv
    · -- a call that fails on the map of pages fails on the pool
      cases hfail : BTreeFile.deleteTuple u t with
      | ok v t' =>
        rw [hfail] at hfails
        exact hfails.elim
      | error e t' =>
        rw [hfail] at hfails hagrees
        obtain ⟨s₁, herror⟩ := hagrees.of_error hfails
        rw [hrun] at herror
        cases herror

theorem FollowsFile.step (h : FollowsFile F objects rows s t)
    (hallowed : call.Allowed F.td objects rows s) (hrun : call.run s = .ok u s') :
    ∃ t', FollowsFile F (u :: objects) (call.rowsAfter s rows) s' t' := by
  unfold FileCall.Allowed at hallowed
  cases hcall : call.inserted with
  | some tuple =>
    rw [hcall] at hallowed
    obtain ⟨htd, t₀, ht₀, hroom⟩ := hallowed
    obtain rfl := h.resident.unique ht₀
    obtain ⟨v, t', hrun', htable, hsize, hholds⟩ :=
      h.holds.insertTuple h.tableid h.pageSize h.cap htd hroom
    obtain ⟨s₁, hok, hs₁⟩ := FileCall.run_inserted h.resident hcall hrun'
    rw [hrun] at hok
    cases hok
    refine ⟨t', hs₁, htable, hsize, h.cap, ?_⟩
    rwa [FileCall.rowsAfter_inserted s rows hcall]
  | none =>
    rw [hcall] at hallowed
    cases call with
    | delete v => exact h.delete (hallowed.2 v rfl) hrun
    | insert tuple => cases hcall
    | poolInsert call => cases hcall

/-- No two tuples of a tree are in one slot. -/
theorem Legal.rids_nodup {td : TupleDesc} (h : Legal td T rank root leaves t) :
    ((t.leafTuples leaves).map Tuple.rid).Nodup := by
  rw [leafTuples, List.map_flatMap, List.nodup_flatMap]
  constructor
  · intro n hn
    obtain ⟨p, hp, -⟩ := h.leaf n hn
    rw [hp]
    dsimp only
    rw [p.storedTuples_rid, TuplePage.usedSlots, List.map_map]
    refine (List.nodup_range.filter _).map fun i j hij => ?_
    exact congrArg RecordId.tupleno (Option.some.inj hij)
  · refine h.nodup.imp_of_mem fun {n m} hn hm hne => ?_
    obtain ⟨p, hp, -⟩ := h.leaf n hn
    obtain ⟨q, hq, -⟩ := h.leaf m hm
    rw [Function.onFun, hp, hq]
    dsimp only
    rw [p.storedTuples_rid, q.storedTuples_rid, TuplePage.usedSlots, TuplePage.usedSlots,
      List.map_map, List.map_map]
    intro rid hp' hq'
    obtain ⟨i, -, rfl⟩ := List.mem_map.mp hp'
    obtain ⟨j, -, heq⟩ := List.mem_map.mp hq'
    have hpid : q.pid = p.pid := PageId.btree.inj (congrArg RecordId.pid (Option.some.inj heq))
    rw [(h.leaf_id hn hp).1, (h.leaf_id hm hq).1] at hpid
    exact hne (congrArg BTreePageId.pgNo hpid).symm

/-- The tuples of the leaves, and what a scan of the map of pages gives. -/
theorem Grown.scan_tuples (h : Grown F.td T rank root leaves t)
    (hcap : 2 ≤ BTreeLeafPage.getMaxTuples t.pageSize F.td) (hrows : t.leafRows leaves ≠ []) :
    ∃ us, (∀ fuel, us.length < fuel → BTreeFile.scan none fuel t = .ok us t) ∧
      us.map Tuple.fields = t.leafRows leaves ∧ (us.map Tuple.rid).Nodup ∧
      ∀ u ∈ us, ∃ n ∈ leaves, ∃ i p, t.pages n = some (.leaf p) ∧ i < p.numSlots ∧
        u.rid = some ⟨.btree p.pid, i⟩ ∧ p.tuple? i = some u := by
  obtain ⟨skipped, us, htuples, hscan, hnone, -⟩ := h.legal.scan_suffix h.rooted
    (h.leaves_nonempty hcap hrows) (show IntOperand none from nofun)
  rw [hnone rfl, List.nil_append] at htuples
  refine ⟨us, hscan, by rw [← htuples, leafTuples_fields], htuples ▸ h.legal.rids_nodup,
    fun u hu => ?_⟩
  rw [← htuples, leafTuples, List.mem_flatMap] at hu
  obtain ⟨n, hn, hu⟩ := hu
  obtain ⟨p, hp, -⟩ := h.legal.leaf n hn
  rw [hp] at hu
  obtain ⟨i, -, hlt, hi⟩ := Slots.mem_segment.mp hu
  exact ⟨n, hn, i, p, hp, hlt, (p.of_tuple? hi).2, hi⟩

/-- A scan of a tree with a row ends with the stored tuples, and the pool keeps the same pages. -/
theorem FollowsFile.scan (h : FollowsFile F objects rows s t) (hsome : rows ≠ []) :
    ∃ us s₁, ScanGives s t rows us ∧ FollowsFile F (us ++ objects) rows s₁ t ∧
      ∀ fuel vs s', BTreeFile.scan none fuel { s with dirtypages := ∅ } = .ok vs s' →
        vs = us ∧ s' = s₁ := by
  cases h.holds with
  | unused _ _ hnil => exact absurd hnil hsome
  | @grown T rank root leaves hgrown hperm hnames =>
    have hcap := h.pageSize ▸ h.cap
    have hrows : t.leafRows leaves ≠ [] := by
      intro hnil
      rw [hnil] at hperm
      exact hsome hperm.symm.eq_nil
    obtain ⟨us, hscan, hfields, honce, hstored⟩ := hgrown.scan_tuples hcap hrows
    have hempty : PoolTree.Resident s.db ∅ t :=
      { h.resident with dirty := fun _ _ hl => by cases hl }
    have hagrees := PoolTree.residentSim.scan (s := { s with dirtypages := ∅ }) (us.length + 1)
      hempty none
    rw [hscan _ (Nat.lt_succ_self _)] at hagrees
    obtain ⟨vs, s₁, hrun, hs₁, -, hvs⟩ := hagrees.of_ok
    rw [show vs = us from hvs] at hrun
    refine ⟨us, s₁, ?_, ⟨hs₁, h.tableid, h.pageSize, h.cap, .grown hgrown hperm ?_⟩, ?_⟩
    · refine ⟨⟨s₁, fun fuel hfuel => scan_mono hfuel hrun⟩, fun u hu => ?_, honce, hfields ▸ hperm, ?_⟩
      · obtain ⟨n, -, i, p, hp, -, hu⟩ := hstored u hu
        exact ⟨n, i, p, hp, hu⟩
      · rw [hfields]
        exact hgrown.legal.leafRows_sorted
    · intro u hu
      rcases List.mem_append.mp hu with hu | hu
      · obtain ⟨n, hn, i, p, hp, hlt, hrid, -⟩ := hstored u hu
        rw [(hgrown.legal.legalLeaf hn hp).numSlots, h.pageSize] at hlt
        rw [(hgrown.legal.leaf_id hn hp).1, h.tableid] at hrid
        intro rid hrid'
        rw [hrid] at hrid'
        cases hrid'
        exact ⟨n, hn, i, hlt, rfl⟩
      · exact hnames u hu
    · intro fuel vs s' hvs
      have hmany := scan_mono (Nat.le_max_left (us.length + 1) fuel) hrun
      have hmany' := scan_mono (Nat.le_max_right (us.length + 1) fuel) hvs
      rw [hmany] at hmany'
      cases hmany'
      exact ⟨rfl, rfl⟩

end Runs

section Files

end Files

end PagedDb
