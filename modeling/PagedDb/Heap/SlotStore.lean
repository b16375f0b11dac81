import PagedDb.Foundation.FirstFit
import PagedDb.Heap.PoolRuns

/-!
# Heap tables as slots for rows

Without pages, pool and files a table is a number of shelves with rows on them. A
client inserts rows and deletes by the handles it got. As long as it uses a handle
once, no deletion fails, and every handle that is left has its own row.
-/

namespace PagedDb

open HeapFile

/-- What the clients of the tables ask for. A deletion is one with the `k`-th tuple object that an
insertion has given a record id. -/
inductive TableOp
  | pool (op : PoolOp)
  | delete (tid : TransactionId) (k : ℕ)

/-- A table as its clients see it. -/
structure SlotTable where
  td : TupleDesc
  rows : Shelves Row

/-- A row and the slot that it was put into. -/
structure Handle where
  table : Int32
  page : ℕ
  slot : ℕ
  row : Row

/-- The tables, and the handles that were given out. -/
structure SlotStore where
  tables : Int32 → Option SlotTable
  handles : List Handle

namespace SlotStore

def setRows (s : SlotStore) (tableId : Int32) (x : SlotTable) (rows : Shelves Row) : SlotStore :=
  { s with tables := Function.update s.tables tableId (some { x with rows }) }

/-- A row goes to the first free slot of its table. -/
def insert (s : SlotStore) (tableId : Int32) (row : Row) : Except Fault SlotStore :=
  match s.tables tableId with
  | none => .error (.runtimeError "Table not found")
  | some x =>
    let page := x.rows.freeShelf
    let slot := x.rows.freeSlot page
    .ok { s.setRows tableId x (x.rows.insert row) with
          handles := s.handles ++ [⟨tableId, page, slot, row⟩] }

/-- What is in the slot of a handle is taken out, whatever it is by now. -/
def delete (s : SlotStore) (h : Handle) : Except Fault SlotStore :=
  match s.tables h.table with
  | none => .error (.runtimeError "Table not found")
  | some x =>
    if (x.rows.at? h.page h.slot).isSome then
      .ok (s.setRows h.table x (x.rows.set h.page h.slot none))
    else .error (.runtimeError "Empty slot")

/-- What an operation does to the tables. -/
def apply (s : SlotStore) : TableOp → Except Fault SlotStore
  | .pool (.insertTuple _ tableId t) => s.insert tableId t.fields
  | .pool _ => .ok s
  | .delete _ k =>
    match s.handles[k]? with
    | none => .ok s
    | some h => s.delete h

def run (s : SlotStore) (ops : List TableOp) : Except Fault SlotStore := ops.foldlM apply s

def rows (s : SlotStore) (tableId : Int32) : Multiset Row :=
  match s.tables tableId with
  | none => 0
  | some x => x.rows.contents

end SlotStore

namespace TableOp

def Legal (schema : Int32 → Option (TupleDesc × ℕ)) : TableOp → Prop
  | .pool op => op.Legal schema
  | .delete _ _ => True

def added : TableOp → List (Int32 × Row)
  | .pool op => op.added
  | .delete _ _ => []

def deleted : TableOp → Finset ℕ
  | .pool _ => ∅
  | .delete _ k => {k}

/-- Each operation deletes with a handle that is there and was not used, where `count` handles were
given out and those in `dead` used. -/
def DeletesOnce : ℕ → Finset ℕ → List TableOp → Prop
  | _, _, [] => True
  | count, dead, op :: ops => (∀ k ∈ op.deleted, k < count ∧ k ∉ dead) ∧
      DeletesOnce (count + op.added.length) (op.deleted ∪ dead) ops

/-- The rows of a table among those inserted, without those of the handles in `dead`. -/
def leftRows (added : List (Int32 × Row)) (dead : Finset ℕ) (tableId : Int32) : Multiset Row :=
  ∑ k ∈ Finset.range added.length \ dead,
    (added[k]?.map fun x => if x.1 = tableId then {x.2} else 0).getD 0

def allDeleted (ops : List TableOp) : Finset ℕ := ops.foldr (fun op dead => op.deleted ∪ dead) ∅

end TableOp

namespace Handle

def inserted (h : Handle) : Int32 × Row := (h.table, h.row)

def rowIn (h : Handle) (tableId : Int32) : Multiset Row := if h.table = tableId then {h.row} else 0

end Handle

namespace SlotStore

/-- The handles that are left have their own rows, each in a slot of its own, and the tables hold
these rows beside those they had at first. -/
structure Ledger (s₀ s : SlotStore) (dead : Finset ℕ) : Prop where
  width : ∀ tableId x, s.tables tableId = some x → 0 < x.rows.width
  dead_lt : ∀ k ∈ dead, k < s.handles.length
  own : ∀ k h, s.handles[k]? = some h → k ∉ dead →
    ∃ x, s.tables h.table = some x ∧ x.rows.at? h.page h.slot = some h.row
  distinct : ∀ k h k' h', s.handles[k]? = some h → s.handles[k']? = some h' → k ∉ dead → k' ∉ dead →
    h.table = h'.table → h.page = h'.page → h.slot = h'.slot → k = k'
  rows : ∀ tableId, s.rows tableId = s₀.rows tableId +
    ∑ k ∈ Finset.range s.handles.length \ dead, (s.handles[k]?.map (Handle.rowIn · tableId)).getD 0

variable {s₀ s : SlotStore} {dead : Finset ℕ} {tableId : Int32} {x : SlotTable} {h : Handle} {k : ℕ}

theorem rows_of (hx : s.tables tableId = some x) : s.rows tableId = x.rows.contents := by
  rw [rows, hx]

theorem setRows_tables (x : SlotTable) (rows : Shelves Row) (id : Int32) :
    (s.setRows tableId x rows).tables id =
      if id = tableId then some { x with rows } else s.tables id := by
  rw [setRows]
  exact Function.update_apply ..

theorem rows_setRows (x : SlotTable) (rows : Shelves Row) (id : Int32) :
    (s.setRows tableId x rows).rows id = if id = tableId then rows.contents else s.rows id := by
  by_cases heq : id = tableId
  · rw [SlotStore.rows, setRows_tables, if_pos heq, if_pos heq]
  · rw [SlotStore.rows, setRows_tables, if_neg heq, if_neg heq, SlotStore.rows]

/-- An operation gives out a handle for each row it adds. -/
theorem apply_handles {s' : SlotStore} {op : TableOp} (h : s.apply op = .ok s') :
    s'.handles.map Handle.inserted = s.handles.map Handle.inserted ++ op.added := by
  have hsame : op.added = [] → s.handles = s'.handles →
      s'.handles.map Handle.inserted = s.handles.map Handle.inserted ++ op.added := by
    intro hnone heq
    rw [hnone, heq, List.append_nil]
  cases op with
  | delete tid k =>
    rw [SlotStore.apply] at h
    cases hk : s.handles[k]? with
    | none =>
      rw [hk] at h
      cases h
      exact hsame rfl rfl
    | some g =>
      rw [hk] at h
      change s.delete g = .ok s' at h
      rw [SlotStore.delete] at h
      split at h
      · cases h
      · split at h
        · cases h
          exact hsame rfl rfl
        · cases h
  | pool op =>
    cases op with
    | insertTuple tid tableId t =>
      rw [SlotStore.apply, SlotStore.insert] at h
      split at h
      · cases h
      · cases h
        rw [List.map_append]
        rfl
    | _ =>
      cases h
      exact hsame rfl rfl

theorem run_handles {s' : SlotStore} {ops : List TableOp} (h : s.run ops = .ok s') :
    s'.handles.map Handle.inserted =
      s.handles.map Handle.inserted ++ ops.flatMap TableOp.added := by
  induction ops generalizing s with
  | nil =>
    cases h
    exact (List.append_nil _).symm
  | cons op ops ih =>
    change (s.apply op >>= fun s => s.run ops) = .ok s' at h
    cases happly : s.apply op with
    | error e =>
      rw [happly] at h
      cases h
    | ok s₁ =>
      rw [happly] at h
      rw [ih h, apply_handles happly, List.flatMap_cons, List.append_assoc]

namespace Ledger

theorem start (s : SlotStore) (hwidth : ∀ tableId x, s.tables tableId = some x → 0 < x.rows.width)
    (hnone : s.handles = []) : Ledger s s ∅ := by
  refine ⟨hwidth, by simp, ?_, ?_, ?_⟩
  · simp [hnone]
  · simp [hnone]
  · simp [hnone]

/-- An insertion goes through and gives out a handle. -/
theorem insert (L : Ledger s₀ s dead) (hx : s.tables tableId = some x) (row : Row) :
    ∃ s', s.insert tableId row = .ok s' ∧ s'.handles.length = s.handles.length + 1 ∧
      Ledger s₀ s' dead ∧ ∀ id, (s'.tables id).map SlotTable.td = (s.tables id).map SlotTable.td := by
  let page := x.rows.freeShelf
  let slot := x.rows.freeSlot page
  obtain ⟨hslot, hfree⟩ := Shelves.place_free (L.width tableId x hx)
  have hnew : s.handles.length ∉ dead := fun hmem => (L.dead_lt _ hmem).false
  let s' : SlotStore := { s.setRows tableId x (x.rows.insert row) with
    handles := s.handles ++ [⟨tableId, page, slot, row⟩] }
  have htables : ∀ id, s'.tables id =
      if id = tableId then some { x with rows := x.rows.insert row } else s.tables id :=
    setRows_tables x _
  have hcases : ∀ {k h}, s'.handles[k]? = some h → s.handles[k]? = some h ∨
      k = s.handles.length ∧ h = ⟨tableId, page, slot, row⟩ := by
    intro k h hk
    rcases lt_trichotomy k s.handles.length with hlt | rfl | hgt
    · exact .inl ((List.getElem?_append_left hlt).symm.trans hk)
    · exact .inr ⟨rfl, (Option.some.inj (List.getElem?_concat_length.symm.trans hk)).symm⟩
    · rw [List.getElem?_eq_none (by simpa [s'] using hgt)] at hk
      cases hk
  -- no handle that is left has the slot, since the slot was free
  have hother : ∀ {k h}, s.handles[k]? = some h → k ∉ dead → h.table = tableId → h.page = page →
      h.slot ≠ slot := by
    rintro k h hk hdead rfl hpage hslot
    obtain ⟨y, hy, hat⟩ := L.own k h hk hdead
    rw [hx] at hy
    cases hy
    rw [hpage, hslot, hfree] at hat
    cases hat
  refine ⟨s', by rw [SlotStore.insert, hx], by simp [s'], ?_, ?_⟩
  · constructor
    case width =>
      intro id y hy
      rw [htables] at hy
      split at hy
      · cases hy
        exact L.width tableId x hx
      · exact L.width id y hy
    case dead_lt =>
      intro k hk
      exact (L.dead_lt k hk).trans (by simp [s'])
    case own =>
      intro k h hk hdead
      rw [htables]
      rcases hcases hk with hold | ⟨-, rfl⟩
      · obtain ⟨y, hy, hat⟩ := L.own k h hold hdead
        split
        · rename_i heq
          rw [heq, hx] at hy
          cases hy
          refine ⟨_, rfl, ?_⟩
          rw [← hat]
          exact Shelves.set_ne (fun hplace => hother hold hdead heq (congrArg Prod.fst hplace)
            (congrArg Prod.snd hplace)) _
        · exact ⟨y, hy, hat⟩
      · rw [if_pos rfl]
        exact ⟨_, rfl, Shelves.set_self hslot _⟩
    case distinct =>
      intro k h k' h' hk hk' hdead hdead' htable hpage hslot'
      rcases hcases hk with hold | ⟨rfl, rfl⟩
      · rcases hcases hk' with hold' | ⟨rfl, rfl⟩
        · exact L.distinct k h k' h' hold hold' hdead hdead' htable hpage hslot'
        · exact absurd hslot' (hother hold hdead htable hpage)
      · rcases hcases hk' with hold' | ⟨rfl, rfl⟩
        · exact absurd hslot'.symm (hother hold' hdead' htable.symm hpage.symm)
        · rfl
    case rows =>
      intro id
      have hset : Finset.range s'.handles.length \ dead =
          Insert.insert s.handles.length (Finset.range s.handles.length \ dead) := by
        rw [show s'.handles.length = s.handles.length + 1 by simp [s'], Finset.range_add_one,
          Finset.insert_sdiff_of_notMem _ hnew]
      have hsum : ∀ k ∈ Finset.range s.handles.length \ dead,
          (s'.handles[k]?.map (Handle.rowIn · id)).getD 0 =
            (s.handles[k]?.map (Handle.rowIn · id)).getD 0 := by
        intro k hk
        have hlt : k < s.handles.length := Finset.mem_range.mp (Finset.mem_sdiff.mp hk).1
        rw [show s'.handles[k]? = s.handles[k]? from List.getElem?_append_left hlt]
      have hlast : s'.handles[s.handles.length]? = some ⟨tableId, page, slot, row⟩ :=
        List.getElem?_concat_length
      rw [hset, Finset.sum_insert (by simp), Finset.sum_congr rfl hsum, hlast]
      have hrows : s'.rows id = if id = tableId then (x.rows.insert row).contents else s.rows id :=
        rows_setRows x _ id
      rw [hrows, add_left_comm, ← L.rows id]
      by_cases heq : id = tableId
      · rw [if_pos heq, heq, rows_of hx, Shelves.insert, Shelves.contents_set_some hslot hfree]
        simp [Handle.rowIn]
      · simp [heq, Handle.rowIn, Ne.symm heq]
  · intro id
    rw [htables]
    split
    · rename_i heq
      rw [heq, hx]
      rfl
    · rfl

/-- So does a deletion with a handle that is left. -/
theorem delete (L : Ledger s₀ s dead) (hk : s.handles[k]? = some h) (hdead : k ∉ dead) :
    ∃ s', s.delete h = .ok s' ∧ s'.handles = s.handles ∧ Ledger s₀ s' (Insert.insert k dead) ∧
      ∀ id, (s'.tables id).map SlotTable.td = (s.tables id).map SlotTable.td := by
  obtain ⟨x, hx, hat⟩ := L.own k h hk hdead
  let s' := s.setRows h.table x (x.rows.set h.page h.slot none)
  have htables : ∀ id, s'.tables id =
      if id = h.table then some { x with rows := x.rows.set h.page h.slot none } else s.tables id :=
    setRows_tables x _
  refine ⟨s', ?_, rfl, ?_, ?_⟩
  · rw [SlotStore.delete, hx]
    exact if_pos (by rw [hat]; rfl)
  · constructor
    case width =>
      intro id y hy
      rw [htables] at hy
      split at hy
      · cases hy
        exact L.width _ x hx
      · exact L.width id y hy
    case dead_lt =>
      intro j hj
      rcases Finset.mem_insert.mp hj with rfl | hj
      · exact (List.getElem?_eq_some_iff.mp hk).1
      · exact L.dead_lt j hj
    case own =>
      intro j g hj hlive
      obtain ⟨hjk, hlive⟩ := not_or.mp (fun hor => hlive (Finset.mem_insert.mpr hor))
      obtain ⟨y, hy, hat'⟩ := L.own j g hj hlive
      rw [htables]
      split
      · rename_i heq
        rw [heq, hx] at hy
        cases hy
        refine ⟨_, rfl, ?_⟩
        rw [← hat']
        exact Shelves.set_ne (fun hplace => hjk (L.distinct j g k h hj hk hlive hdead heq
          (congrArg Prod.fst hplace) (congrArg Prod.snd hplace))) none
      · exact ⟨y, hy, hat'⟩
    case distinct =>
      intro j g j' g' hj hj' hlive hlive'
      exact L.distinct j g j' g' hj hj' (fun hmem => hlive (Finset.mem_insert_of_mem hmem))
        fun hmem => hlive' (Finset.mem_insert_of_mem hmem)
    case rows =>
      intro id
      have hmem : k ∈ Finset.range s.handles.length \ dead :=
        Finset.mem_sdiff.mpr ⟨Finset.mem_range.mpr (List.getElem?_eq_some_iff.mp hk).1, hdead⟩
      have hbefore : s.rows id = h.rowIn id + s'.rows id := by
        rw [rows_setRows x _ id]
        by_cases heq : id = h.table
        · rw [if_pos heq, heq, rows_of hx, Shelves.contents_set_none hat]
          simp [Handle.rowIn]
        · simp [heq, Handle.rowIn, Ne.symm heq]
      have hall := L.rows id
      rw [hbefore, ← Finset.add_sum_erase _ _ hmem, hk, Option.map_some, Option.getD_some,
        add_left_comm] at hall
      rw [Finset.sdiff_insert]
      exact add_left_cancel hall
  · intro id
    rw [htables]
    split
    · rename_i heq
      rw [heq, hx]
      rfl
    · rfl

/-- So does every operation that deletes with a handle that is left, if at all. -/
theorem apply (L : Ledger s₀ s dead) {op : TableOp}
    (hknown : ∀ x ∈ op.added, (s.tables x.1).isSome)
    (honce : ∀ k ∈ op.deleted, k < s.handles.length ∧ k ∉ dead) :
    ∃ s', s.apply op = .ok s' ∧ s'.handles.length = s.handles.length + op.added.length ∧
      Ledger s₀ s' (op.deleted ∪ dead) ∧
      ∀ id, (s'.tables id).map SlotTable.td = (s.tables id).map SlotTable.td := by
  cases op with
  | delete tid k =>
    obtain ⟨hlt, hdead⟩ := honce k (Finset.mem_singleton_self k)
    have hk : s.handles[k]? = some s.handles[k] := List.getElem?_eq_getElem hlt
    obtain ⟨s', hrun, hhandles, hL, htd⟩ := L.delete hk hdead
    refine ⟨s', ?_, by rw [hhandles]; rfl, ?_, htd⟩
    · rw [SlotStore.apply, hk]
      exact hrun
    · rw [TableOp.deleted, ← Finset.insert_eq]
      exact hL
  | pool op =>
    rw [TableOp.deleted, Finset.empty_union]
    cases op with
    | insertTuple tid tableId t =>
      obtain ⟨x, hx⟩ := Option.isSome_iff_exists.mp (hknown _ List.mem_cons_self)
      exact L.insert hx t.fields
    | getPage id => exact ⟨s, rfl, rfl, L, fun _ => rfl⟩
    | flushPage id => exact ⟨s, rfl, rfl, L, fun _ => rfl⟩
    | flushPages tid => exact ⟨s, rfl, rfl, L, fun _ => rfl⟩
    | flushAllPages => exact ⟨s, rfl, rfl, L, fun _ => rfl⟩
    | evictPage => exact ⟨s, rfl, rfl, L, fun _ => rfl⟩

/-- A run that uses no handle twice never fails, and the ledger is right at its end. -/
theorem run (L : Ledger s₀ s dead) {ops : List TableOp}
    (hknown : ∀ op ∈ ops, ∀ x ∈ op.added, (s.tables x.1).isSome)
    (honce : TableOp.DeletesOnce s.handles.length dead ops) :
    ∃ s', s.run ops = .ok s' ∧ Ledger s₀ s' (TableOp.allDeleted ops ∪ dead) := by
  induction ops generalizing s dead with
  | nil =>
    refine ⟨s, rfl, ?_⟩
    rw [TableOp.allDeleted, List.foldr_nil, Finset.empty_union]
    exact L
  | cons op ops ih =>
    obtain ⟨hop, hops⟩ := honce
    obtain ⟨s₁, hrun₁, hcount, L₁, htd⟩ := L.apply (hknown op List.mem_cons_self) hop
    have hknown₁ : ∀ op ∈ ops, ∀ x ∈ op.added, (s₁.tables x.1).isSome := by
      intro op' hop' x hx
      have hsome := congrArg Option.isSome (htd x.1)
      rw [Option.isSome_map, Option.isSome_map] at hsome
      rw [hsome]
      exact hknown op' (List.mem_cons_of_mem op hop') x hx
    obtain ⟨s', hrun', L'⟩ := ih L₁ hknown₁ (hcount ▸ hops)
    refine ⟨s', ?_, ?_⟩
    · change (s.apply op >>= fun s => s.run ops) = .ok s'
      rw [hrun₁]
      exact hrun'
    · have hunion : TableOp.allDeleted (op :: ops) ∪ dead =
          TableOp.allDeleted ops ∪ (op.deleted ∪ dead) := by
        rw [TableOp.allDeleted, List.foldr_cons, Finset.union_comm op.deleted, Finset.union_assoc]
        rfl
      rw [hunion]
      exact L'

end Ledger

end SlotStore

end PagedDb
