import PagedDb.BTree.ObjectRuns

/-!
# Tuple objects as handles for deletion

An insertion writes the record id of its tuple into the caller's object. Later
insertions move records within a leaf and to new leaves, and the objects are not
told. As long as keys arrive in order and fit on one leaf no record moves, and
with every object its own record can be deleted.
-/

namespace PagedDb

open Exec LogicalTree BTreeFile

namespace BTreeLeafPage

variable {p q : BTreeLeafPage} {t u : Tuple} {k : ℕ}

/-- On a page whose first `k` slots are used, a tuple whose key is not less than the keys there goes
to slot `k`, and no record moves. -/
theorem insertTuple_last (hint : p.IntKeyed) (hk : k < p.numSlots)
    (hused : ∀ i < p.numSlots, p.isSlotUsed i = true ↔ i < k)
    (hle : ∀ row ∈ p.rows, intKey p.keyField row ≤ intKey p.keyField t.fields)
    (h : p.insertTuple t = .ok (q, u)) :
    u = t.setRecordId (some ⟨.btree p.pid, k⟩) ∧ q.SameFrame p ∧
      q.row? = Function.update p.row? k (some t.fields) := by
  obtain ⟨htd, -, hframe, -⟩ := of_insertTuple h
  rw [insertTuple, dif_pos htd] at h
  obtain ⟨_, -, h⟩ := of_except_bind h
  obtain ⟨key, hget, h⟩ := of_except_bind h
  obtain ⟨pos, hpos, h⟩ := of_except_bind h
  obtain ⟨v, hv, hkey⟩ := getField_int htd hint
  rw [hget] at hv
  cases hv
  rw [lessOrEqPos_eq hint] at hpos
  cases hpos
  -- the first empty slot
  have hsearch : Slots.search (fun i => !p.isSlotUsed i) p.numSlots 0 = k := by
    have hstop : (!p.isSlotUsed k) = true := by simpa using (hused k hk).not.mpr (lt_irrefl k)
    have hlt : Slots.search (fun i => !p.isSlotUsed i) p.numSlots 0 < 0 + p.numSlots :=
      Slots.search_lt (Nat.zero_le k) (by omega) hstop
    have hend := Slots.search_stop hlt
    rcases lt_trichotomy (Slots.search (fun i => !p.isSlotUsed i) p.numSlots 0) k with hless | heq | hgt
    · have hbit := (hused _ (by omega)).mpr hless
      rw [hbit] at hend
      cases hend
    · exact heq
    · rw [Slots.search_before (Nat.zero_le k) hgt] at hstop
      cases hstop
  -- the position behind the last row
  have hrow : ∀ i < p.numSlots, (p.row? i).isSome ↔ i < k := fun i hi => by
    rw [p.row?_isSome hi, hused i hi]
  generalize hbefore : (fun row => decide (intKey p.keyField row ≤ v.toInt)) = before at *
  have hat : Slots.scanPos p.row? before p.numSlots 0 0 = k := by
    obtain ⟨-, hmax, -, hdrop⟩ := @Slots.scanPos_split _ p.row? before p.numSlots 0 0
      le_rfl fun j _ hj => absurd hj (by omega)
    rw [Nat.zero_add] at hmax hdrop
    have hnil : Slots.segment p.row? (Slots.scanPos p.row? before p.numSlots 0 0) p.numSlots = [] := by
      rw [hdrop, ← hbefore]
      exact List.dropWhile_eq_nil_iff.mpr fun row hrow =>
        decide_eq_true (hkey ▸ hle row hrow)
    rcases lt_trichotomy (Slots.scanPos p.row? before p.numSlots 0 0) k with hless | heq | hgt
    · obtain ⟨row, hsome⟩ := Option.isSome_iff_exists.mp ((hrow _ (by omega)).mpr hless)
      have hmem : row ∈ Slots.segment p.row? (Slots.scanPos p.row? before p.numSlots 0 0) p.numSlots :=
        Slots.mem_segment.mpr ⟨_, le_rfl, by omega, hsome⟩
      rw [hnil] at hmem
      cases hmem
    · exact heq
    · have hsome := @Slots.scanPos_used _ p.row? before p.numSlots 0 0
        (fun hpos => absurd hpos (lt_irrefl 0)) (by omega)
      have hlast := (hrow _ (by omega)).mp hsome
      omega
  set pos := Slots.scanPos p.row? before p.numSlots 0 0 with hpos
  have hslot : Slots.roomSlot (Slots.search (fun i => !p.isSlotUsed i) p.numSlots 0) pos = k := by
    rw [hsearch, hat]
    exact if_neg (by omega)
  have hroom : Slots.makeRoom moveRecord p (Slots.search (fun i => !p.isSlotUsed i) p.numSlots 0)
      pos = p := by
    rw [hsearch, hat, Slots.makeRoom, if_neg (by omega), Nat.sub_self]
    rfl
  cases h
  refine ⟨by rw [hslot], hframe, ?_⟩
  have hlt : Slots.roomSlot (Slots.search (fun i => !p.isSlotUsed i) p.numSlots 0) pos <
      (Slots.makeRoom moveRecord p (Slots.search (fun i => !p.isSlotUsed i) p.numSlots 0)
        pos).numSlots := by
    rw [hslot, hroom]
    exact hk
  exact (TuplePage.put_row? _ t (htd.trans (p.makeRoom_td _ pos).symm) hlt).trans
    (by rw [hslot, hroom])

end BTreeLeafPage

/-- A file whose root is a leaf with the rows of these objects in its first slots. Each object names
the slot of its row. -/
structure OneLeaf (td : TupleDesc) (us : List Tuple) (p : BTreeLeafPage) (t : LogicalTree) : Prop
    where
  key : td.getFieldType t.keyField = some .intType
  rooted : t.Rooted ⟨t.tableid, 1, .leaf⟩
  node : t.HasNode ⟨t.tableid, 1, .leaf⟩
  page : t.pages 1 = some (.leaf p)
  pid : p.pid = ⟨t.tableid, 1, .leaf⟩
  schema : p.td = td
  keyField : p.keyField = t.keyField
  slots : p.numSlots = BTreeLeafPage.getMaxTuples t.pageSize td
  parent : p.parent = 0
  fits : us.length ≤ p.numSlots
  row : ∀ i, p.row? i = us[i]?.map Tuple.fields
  rid : ∀ (i : ℕ) (u : Tuple), us[i]? = some u → u.rid = some ⟨.btree p.pid, i⟩

namespace OneLeaf

variable {td : TupleDesc} {us : List Tuple} {p : BTreeLeafPage} {t t' : LogicalTree}
  {tuple u : Tuple}

theorem used (h : OneLeaf td us p t) {i : ℕ} (hi : i < p.numSlots) :
    p.isSlotUsed i = true ↔ i < us.length := by
  rw [← p.row?_isSome hi, h.row i, Option.isSome_map]
  simp

theorem rows (h : OneLeaf td us p t) : p.rows = us.map Tuple.fields :=
  Slots.segment_getElem? (by simpa using h.fits) fun i _ => by rw [h.row i, List.getElem?_map]

theorem intKeyed (h : OneLeaf td us p t) : p.IntKeyed := by
  rw [BTreeLeafPage.IntKeyed, h.schema, h.keyField]
  exact h.key

theorem insertTuple_eq (h : OneLeaf td us p t) {key : Field}
    (hkey : tuple.getField t.keyField = .ok key) :
    BTreeFile.insertTuple tuple t = insertAt 1 key tuple t := by
  have hfind : findLeafPage .readOnly (some key) (t.getNumPages + 1) ⟨t.tableid, 1, .leaf⟩ t =
      .ok 1 t := by
    rw [findLeafPage, if_pos rfl]
    exact h.node.has.getPage .readOnly
  exact insertTuple_reaches h.rooted hkey hfind h.page (h.pid ▸ h.node.has) (by rw [h.pid])

/-- Another page in its place, with the same frame and one row more. -/
theorem setPage (h : OneLeaf td us p t) {q : BTreeLeafPage} (hframe : q.SameFrame p)
    (hroom : us.length < p.numSlots)
    (hrow : q.row? = Function.update p.row? us.length (some u.fields))
    (hrid : u.rid = some ⟨.btree p.pid, us.length⟩) :
    OneLeaf td (us ++ [u]) q (t.setPage 1 (.leaf q)) := by
  have hid : (BTreeFilePage.leaf q).getId = (BTreeFilePage.leaf p).getId := hframe.pid
  constructor
  case key => exact h.key
  case rooted => exact h.rooted.setPage h.page hid rfl (by decide)
  case node => exact ⟨h.node.has.setPage h.page hid rfl, h.node.node⟩
  case page => exact setPage_self
  case pid => exact hframe.pid.trans h.pid
  case schema => exact hframe.td.trans h.schema
  case keyField => exact hframe.keyField.trans h.keyField
  case slots => exact hframe.numSlots.trans h.slots
  case parent => exact hframe.parent.trans h.parent
  case fits =>
    rw [List.length_append, List.length_singleton, hframe.numSlots]
    exact hroom
  case row =>
    intro i
    rw [hrow]
    rcases lt_trichotomy i us.length with hlt | rfl | hgt
    · rw [Function.update_of_ne hlt.ne, h.row i, List.getElem?_append_left hlt]
    · rw [Function.update_self, List.getElem?_concat_length]
      rfl
    · rw [Function.update_of_ne hgt.ne', h.row i, List.getElem?_eq_none hgt.le,
        List.getElem?_eq_none (by simpa using hgt)]
  case rid =>
    intro i v hv
    rw [hframe.pid]
    rcases lt_trichotomy i us.length with hlt | rfl | hgt
    · rw [List.getElem?_append_left hlt] at hv
      exact h.rid i v hv
    · rw [List.getElem?_concat_length] at hv
      cases hv
      exact hrid
    · rw [List.getElem?_eq_none (by simpa using hgt)] at hv
      cases hv

theorem hasSlot (h : OneLeaf td us p t) (hroom : us.length < p.numSlots) :
    0 < p.getNumEmptySlots := by
  refine TuplePage.getNumEmptySlots_pos.mpr ⟨us.length, hroom, ?_⟩
  rw [← Bool.not_eq_true, h.used hroom]
  exact lt_irrefl _

theorem leafWithRoom_run (h : OneLeaf td us p t) (hroom : us.length < p.numSlots) (key : Field) :
    leafWithRoom (TreeStore.getNumPages t + 1) 1 key t = .ok 1 t := by
  rw [leafWithRoom, bind_ok (leafAt_run h.page), if_neg (h.hasSlot hroom).ne']
  rfl

/-- A tuple with no smaller key goes behind the others on the leaf. -/
theorem insertLeaf (h : OneLeaf td us p t) {q : BTreeLeafPage} (hroom : us.length < p.numSlots)
    (hle : ∀ v ∈ us, intKey t.keyField v.fields ≤ intKey t.keyField tuple.fields)
    (hinsert : p.insertTuple tuple = .ok (q, u)) :
    u.fields = tuple.fields ∧ OneLeaf td (us ++ [u]) q (t.setPage 1 (.leaf q)) := by
  have hrows : ∀ row ∈ p.rows, intKey p.keyField row ≤ intKey p.keyField tuple.fields := by
    intro row hrow
    rw [h.rows] at hrow
    obtain ⟨v, hv, rfl⟩ := List.mem_map.mp hrow
    rw [h.keyField]
    exact hle v hv
  obtain ⟨rfl, hframe, hrow⟩ :=
    BTreeLeafPage.insertTuple_last h.intKeyed hroom (fun i hi => h.used hi) hrows hinsert
  exact ⟨rfl, h.setPage hframe hroom hrow rfl⟩

theorem insertTuple (h : OneLeaf td us p t) (hroom : us.length < p.numSlots)
    (hle : ∀ v ∈ us, intKey t.keyField v.fields ≤ intKey t.keyField tuple.fields)
    (hrun : BTreeFile.insertTuple tuple t = .ok u t') : ∃ q, OneLeaf td (us ++ [u]) q t' := by
  cases hkey : tuple.getField t.keyField with
  | error e =>
    rw [BTreeFile.insertTuple, bind_ok (getRoot_run h.rooted), bind_ok (get_run t),
      show TreeStore.keyField t = t.keyField from rfl, hkey, bind_error (lift_error e t)] at hrun
    cases hrun
  | ok key =>
    rw [h.insertTuple_eq hkey] at hrun
    obtain ⟨q, hinsert, rfl⟩ := of_insertAt (h.leafWithRoom_run hroom key) h.page hrun
    exact ⟨q, (h.insertLeaf hroom hle hinsert).2⟩

end OneLeaf

namespace Grown

variable {F : FileShape} {T : KeyTree Int32 Int} {rank : Int32 → ℕ} {root : BTreePageId}
  {leaves : List Int32} {t : LogicalTree} {p : BTreeLeafPage}

end Grown

namespace Serves

variable {F : FileShape} {us : List Tuple} {p : BTreeLeafPage} {t t' : LogicalTree}
  {tuple u : Tuple}

end Serves

/-- A file that nothing is inserted into yet, or one whose objects are in order on its only leaf. -/
inductive Tidy (F : FileShape) (us : List Tuple) (t : LogicalTree) : Prop
  | untouched (h : Untouched F.td t) (none : us = []) : Tidy F us t
  | leaf {p : BTreeLeafPage} (h : OneLeaf F.td us p t) : Tidy F us t

namespace Tidy

variable {F : FileShape} {us : List Tuple} {t t' : LogicalTree} {tuple u : Tuple}

theorem firstLeaf_oneLeaf {td : TupleDesc} (h : Untouched td t)
    (hkey : td.getFieldType t.keyField = some .intType) {r : BTreeRootPtrPage}
    (hpid : r.pid = BTreeRootPtrPage.getId t.tableid) (hheader : r.header = 0) :
    ∃ p, OneLeaf td [] p (firstLeaf t r) := by
  obtain ⟨p, hp, hppid, hptd, hpkey, hslots, hrows, -, -, hparent, hnode, -, hrooted, -⟩ :=
    h.firstLeaf_pages hpid hheader
  refine ⟨p, hkey, hrooted, hnode, hp, hppid, hptd, hpkey, hslots, hparent, Nat.zero_le _,
    fun i => ?_, nofun⟩
  rw [List.getElem?_nil, Option.map_none, ← Option.not_isSome_iff_eq_none, Option.isSome_iff_exists]
  rintro ⟨row, hrow⟩
  have hmem : row ∈ p.rows := by
    refine Slots.mem_segment.mpr ⟨i, Nat.zero_le i, ?_, hrow⟩
    by_contra hle
    rw [p.row?_of_le (Nat.le_of_not_lt hle)] at hrow
    cases hrow
  rw [hrows] at hmem
  cases hmem

/-- An insertion in key order, as long as the leaf has a slot left. -/
theorem insertTuple (h : Tidy F us t) (hserves : Serves F us t)
    (hroom : us.length < BTreeLeafPage.getMaxTuples F.pageSize F.td)
    (hle : ∀ v ∈ us, intKey F.keyField v.fields ≤ intKey F.keyField tuple.fields)
    (hrun : BTreeFile.insertTuple tuple t = .ok u t') : Tidy F (us ++ [u]) t' := by
  cases hserves.holding with
  | untouched hnew _ hkeyField hsize _ hnone =>
    subst hnone
    obtain ⟨r, hpid, hheader, hrun'⟩ := hnew.of_insertTuple hrun
    obtain ⟨p, hone⟩ := firstLeaf_oneLeaf hnew (by rw [hkeyField, hserves.key]) hpid hheader
    have hslots : p.numSlots = BTreeLeafPage.getMaxTuples F.pageSize F.td := by
      rw [hone.slots, ← hsize]
      rfl
    obtain ⟨q, hone'⟩ := hone.insertTuple (hslots ▸ hroom) (by simp) hrun'
    exact .leaf hone'
  | stocked hs =>
    cases h with
    | untouched hnew _ =>
      obtain ⟨r, hr, -⟩ := hs.grown.rooted.page
      rw [hnew.pages] at hr
      cases hr
    | leaf hone =>
      rw [← hs.connected.keyField] at hle
      obtain ⟨q, hone'⟩ := hone.insertTuple
        (by rw [hone.slots, hs.connected.pageSize]; exact hroom) hle hrun
      exact .leaf hone'

end Tidy

namespace TreeClient

variable {δ : Type} [IdealDisk δ] {F : FileShape} {c c' : TreeClient δ} {t : LogicalTree}
  {calls : List TreeCall} {file : δ} {pageSize : ℕ}

/-- Each object is a handle: the slot that it names has its own row, as the pool and the file have the
page, and `deleteTuple` with it returns. -/
def Handles (c : TreeClient δ) : Prop :=
  ∀ k u, c.objects[k]? = some u → ∃ id i p, u.rid = some ⟨.btree id, i⟩ ∧
    PoolTree.content c.tree id = .leaf p ∧ p.row? i = some u.fields ∧
    ∀ call : TreeCall, call.op = .delete k → ∃ c', c.step call = .ok c'

end TreeClient

end PagedDb
