import PagedDb.BTree.DeleteLegal
import PagedDb.BTree.TreeGrowth

/-!
# Tuple objects of a tree that grows and shrinks

A client inserts tuples and later deletes with the same objects. Splits and moves
change where a tuple is, but no page that an object names ever stops being a leaf
of the tree. So every call that returns leaves a legal tree: an insertion with
one row more, a deletion with one row less.
-/

namespace PagedDb

open Exec LogicalTree BTreeFile KeyTree

section Rewrites

variable {F : FileShape} {t t' : LogicalTree} {root : BTreePageId}

theorem Points.setKey {n : Int32} {q : BTreeInternalPage} (h : Points F t n (.internal q)) (slot : ℕ)
    (key : Option Field) : Points F t n (.internal (q.setKey slot key)) := by
  refine ⟨h.1, h.2.1, fun i key' c hc => ?_⟩
  unfold BTreeInternalPage.slot? at hc
  split at hc
  · rename_i hi
    obtain ⟨-, rfl⟩ := Prod.mk.inj (Option.some.inj hc)
    exact h.2.2 i (q.keyAt i) _ (if_pos hi)
  · cases hc

theorem LogicalTree.Rewrites.placed (h : Rewrites t t') (ht : t.Placed) : t'.Placed := by
  induction h with
  | refl => exact ht
  | leaf h hp hframe ih =>
    refine ih.setPage hp ?_ rfl
    exact hframe.pid
  | key slot key h hq ih => exact ih.setPage hq rfl rfl

theorem LogicalTree.Rewrites.rooted (h : Rewrites t t') (ht : t.Rooted root) : t'.Rooted root := by
  have hne : ∀ {t' : LogicalTree} {n : Int32} {page : BTreeFilePage}, t'.Rooted root →
      t'.pages n = some page → page.kind ≠ .rootPtr → n ≠ 0 := by
    rintro t' n page ⟨-, r, hr, -⟩ hpage hkind rfl
    rw [hr] at hpage
    cases hpage
    exact hkind rfl
  induction h with
  | refl => exact ht
  | leaf h hp hframe ih =>
    refine ih.setPage hp ?_ rfl (hne ih hp nofun)
    exact hframe.pid
  | key slot key h hq ih => exact ih.setPage hq rfl rfl (hne ih hq nofun)

theorem LogicalTree.Rewrites.connected (h : Rewrites t t') (ht : Connected F t) :
    Connected F t' := by
  induction h with
  | refl => exact ht
  | leaf h hp hframe ih =>
    refine ih.setPage hp ?_ rfl ((ih.points _ _ hp).sameFrame hframe)
    exact hframe.pid
  | key slot key h hq ih => exact ih.setPage hq rfl rfl ((ih.points _ _ hq).setKey slot key)

theorem Untouched.of_insertTuple {td : TupleDesc} {tuple u : Tuple} (h : Untouched td t)
    (hrun : BTreeFile.insertTuple tuple t = .ok u t') :
    ∃ r, r.pid = BTreeRootPtrPage.getId t.tableid ∧ r.header = 0 ∧
      BTreeFile.insertTuple tuple (firstLeaf t r) = .ok u t' := by
  obtain ⟨r, hblank, hpid, hzero, hheader⟩ := h.rootPtr
  refine ⟨r, hpid, hheader, ?_⟩
  cases hkey : tuple.getField t.keyField with
  | ok key => rw [← h.insertTuple_eq hblank hpid hzero hheader hkey, hrun]
  | error e =>
    set t₁ := (created t).setPage 0 (.rootPtr { r with root := 1, rootCategory := .leaf }) with ht₁
    have hlift : (lift (tuple.getField (TreeStore.keyField t₁)) : EStateM Fault LogicalTree Field)
        t₁ = .error e t₁ := by
      rw [show TreeStore.keyField t₁ = t.keyField from rfl, hkey, lift_error]
    rw [BTreeFile.insertTuple, bind_ok (h.getRoot hblank hpid hzero), bind_ok (get_run t₁),
      bind_error hlift] at hrun
    cases hrun

end Rewrites

theorem fields_set {objects : List Tuple} {u : Tuple} {k : ℕ} (hk : objects[k]? = some u)
    (rid : Option RecordId) :
    (objects.set k (u.setRecordId rid)).map Tuple.fields = objects.map Tuple.fields := by
  obtain ⟨hlt, rfl⟩ := List.getElem?_eq_some_iff.mp hk
  have hlt' : k < (objects.map Tuple.fields).length := by rwa [List.length_map]
  have hat : (objects[k].setRecordId rid).fields = (objects.map Tuple.fields)[k] :=
    (List.getElem_map Tuple.fields).symm
  rw [List.map_set, hat, List.set_getElem_self hlt']

def Names (F : FileShape) (leaves : List Int32) (u : Tuple) : Prop :=
  ∀ rid, u.rid = some rid → ∃ n ∈ leaves, ∃ i < BTreeLeafPage.getMaxTuples F.pageSize F.td,
    rid = ⟨.btree ⟨F.tableid, n, .leaf⟩, i⟩

theorem Names.mono {F : FileShape} {leaves leaves' : List Int32} {u : Tuple}
    (h : Names F leaves u) (hsub : leaves ⊆ leaves') : Names F leaves' u := by
  intro rid hrid
  obtain ⟨n, hn, hslot⟩ := h rid hrid
  exact ⟨n, hsub hn, hslot⟩

def LogicalTree.Deletable (t : LogicalTree) (u : Tuple) (row : Row) : Prop :=
  ∃ n i p, u.rid = some ⟨.btree ⟨t.tableid, n, .leaf⟩, i⟩ ∧ t.pages n = some (.leaf p) ∧
    p.row? i = some row ∧ CanLose t n p

/-- The object that an insertion leaves names the slot of its row. -/
theorem Stores.names {F : FileShape} {leaves leaves' : List Int32} {tuple u : Tuple}
    {t t' t₁ : LogicalTree} {T' : KeyTree Int32 Int} {rank' : Int32 → ℕ} {root' : BTreePageId}
    {C : Int32} {l q : BTreeLeafPage}
    (h : Stores F.td leaves tuple u t t' T' rank' root' leaves' t₁ C l q)
    (htable : t.tableid = F.tableid) (hsize : t.pageSize = F.pageSize) :
    u.fields = tuple.fields ∧ u.rid.isSome ∧ Names F leaves' u := by
  obtain ⟨j, k, -, -, -, hby⟩ := h.grownBy
  have hlegal := h.divided.legal
  have hleaf := hlegal.legalLeaf h.mem h.page
  obtain ⟨htd, hempty, -⟩ := BTreeLeafPage.of_insertTuple h.insert
  have hint : l.IntKeyed := by
    rw [BTreeLeafPage.IntKeyed, hleaf.schema, hleaf.keyField]
    exact hlegal.key
  obtain ⟨q', slot, hinsert', hframe, -, hrow⟩ := l.insertTuple_spec htd hint hempty
  rw [h.insert] at hinsert'
  cases hinsert'
  refine ⟨rfl, rfl, fun rid hrid => ?_⟩
  cases hrid
  have hslot : slot < q.numSlots := by
    by_contra hle
    rw [q.row?_of_le (Nat.le_of_not_lt hle)] at hrow
    cases hrow
  rw [hframe.numSlots, hleaf.numSlots, hby.pageSize, hsize] at hslot
  exact ⟨C, h.mem, slot, hslot, by rw [(hlegal.leaf_id h.mem h.page).1, hby.tableid, htable]⟩

namespace Grown

variable {F : FileShape} {T : KeyTree Int32 Int} {rank : Int32 → ℕ} {root : BTreePageId}
  {leaves : List Int32} {t t' : LogicalTree} {tuple u : Tuple}

theorem leaves_eq_root (h : Grown F.td T rank root leaves t) (hroot : root.pgNo ∈ leaves) :
    leaves = [root.pgNo] := by
  have hsub : leaves ⊆ [root.pgNo] := by
    intro n hn
    by_contra hne
    obtain ⟨m, hm⟩ := (h.legal.top n (.inr hn)).resolve_left (by simpa using hne)
    obtain ⟨first, es, hnode, -⟩ := hm
    have hflat := h.flat m (by rw [hnode]; rfl)
    rw [hflat, h.legal.node_leaf hroot] at hnode
    cases hnode
  have hlength : [root.pgNo].length ≤ leaves.length := List.length_pos_of_mem hroot
  exact ((h.legal.nodup.subperm hsub).perm_of_length_le hlength).eq_singleton

theorem inserted (h : Grown F.td T rank root leaves t) (hc : Connected F t) (hroom : t.Roomy 3)
    (hrun : BTreeFile.insertTuple tuple t = .ok u t') :
    ∃ T' rank' root' leaves', Grown F.td T' rank' root' leaves' t' ∧ leaves ⊆ leaves' ∧
      (t'.leafRows leaves').Perm (tuple.fields :: t.leafRows leaves) ∧
      u.fields = tuple.fields ∧ u.rid.isSome ∧ Names F leaves' u ∧
      ∃ j k, leaves'.length = leaves.length + j ∧ k ≤ 2 * j ∧ GrownBy k t t' := by
  obtain ⟨T', rank', root', leaves', t₁, C, l, q, hstores⟩ := h.chosen hc hroom hrun
  obtain ⟨hfields, hsome, hnames⟩ := hstores.names hc.tableid hc.pageSize
  obtain ⟨j, k, hlength, -, hk, hby⟩ := hstores.grownBy
  have hperm := hstores.perm
  obtain rfl := hstores.result
  exact ⟨T', rank', root', leaves', hstores.grown, hstores.kept, hperm, hfields, hsome, hnames, j, k,
    hlength, hk, hby.setPage _ _⟩

theorem rewritten {T' : KeyTree Int32 Int} (h : Grown F.td T rank root leaves t)
    (hr : t.Rewrites t') (hlegal : Legal F.td T' rank root leaves t')
    (hnodes : ∀ m, (T'.node m).isSome ↔ (T.node m).isSome) (hhalf : HalfFull t' root leaves) :
    Grown F.td T' rank root leaves t' :=
  ⟨hlegal, hr.placed h.placed, hr.rooted h.rooted, h.fresh.grown hr.grown,
    fun n hn => h.flat n ((hnodes n).mp hn), hhalf⟩

theorem deleteRow (h : Grown F.td T rank root leaves t) {n : Int32} {p : BTreeLeafPage} {i : ℕ}
    {row : Row} (hn : n ∈ leaves) (hp : t.pages n = some (.leaf p))
    (hrid : u.rid = some ⟨.btree p.pid, i⟩) (hrow : p.row? i = some row) :
    (CanLose t n p ∧ ∃ T' t', BTreeFile.deleteTuple u t = .ok (u.setRecordId none) t' ∧
      Grown F.td T' rank root leaves t' ∧ t.Rewrites t' ∧
      (t.leafRows leaves).Perm (row :: t'.leafRows leaves)) ∨
    (¬ CanLose t n p ∧ Avoids stuck (fun _ _ => False) (BTreeFile.deleteTuple u t)) := by
  apply (h.legal.deleteTuple_cases h.half hn hp hrid hrow).imp_left
  rintro ⟨hcan, T', t', hrun, hlegal, hnodes, hhalf, hr, hperm⟩
  exact ⟨hcan, T', t', hrun, h.rewritten hr hlegal hnodes hhalf, hr, hperm⟩

/-- A deletion with any object of a client: it returns exactly where the object's slot can be given
back, and then only that row is gone. -/
theorem delete_cases (h : Grown F.td T rank root leaves t) (htable : t.tableid = F.tableid)
    (hsize : t.pageSize = F.pageSize) (hnames : Names F leaves u) :
    (∃ row T' t', t.Deletable u row ∧ BTreeFile.deleteTuple u t = .ok (u.setRecordId none) t' ∧
      Grown F.td T' rank root leaves t' ∧ t.Rewrites t' ∧
      (t.leafRows leaves).Perm (row :: t'.leafRows leaves)) ∨
    ((∀ row, ¬ t.Deletable u row) ∧
      Avoids stuck (fun _ _ => False) (BTreeFile.deleteTuple u t)) := by
  cases hrid : u.rid with
  | none =>
    right
    constructor
    · rintro row ⟨n, i, p, hsome, -⟩
      rw [hrid] at hsome
      cases hsome
    · rw [BTreeFile.deleteTuple, hrid]
      simp [Avoids, stuck]
  | some rid =>
    obtain ⟨n, hn, i, hi, rfl⟩ := hnames rid hrid
    rw [← htable] at hrid
    obtain ⟨p, hp, hleaf⟩ := h.legal.leaf n hn
    obtain ⟨hpid, hnode⟩ := h.legal.leaf_id hn hp
    have hplace : ∀ row, t.Deletable u row → p.row? i = some row ∧ CanLose t n p := by
      rintro row ⟨m, j, q, hsome, hq, hrow, hcan⟩
      rw [hrid] at hsome
      cases hsome
      rw [hp] at hq
      cases hq
      exact ⟨hrow, hcan⟩
    cases hrow : p.row? i with
    | some row =>
      rw [← hpid] at hrid
      rcases h.deleteRow hn hp hrid hrow with ⟨hcan, T', t', hrun, hgrown⟩ | ⟨hcannot, hfails⟩
      · exact .inl ⟨row, T', t', ⟨n, i, p, hpid ▸ hrid, hp, hrow, hcan⟩, hrun, hgrown⟩
      · exact .inr ⟨fun row hdel => hcannot (hplace row hdel).2, hfails⟩
    | none =>
      right
      constructor
      · intro row hdel
        rw [(hplace row hdel).1] at hrow
        cases hrow
      have hunused : p.isSlotUsed i = false := by
        rw [← Bool.not_eq_true, ← p.row?_isSome (by rwa [hleaf.numSlots, hsize]), hrow]
        simp
      have hget : TreeStore.getPage ⟨TreeStore.tableid t, n, .leaf⟩ .readWrite t = .ok n t :=
        hnode.has.getPage .readWrite
      rw [BTreeFile.deleteTuple, hrid]
      simp only [PageId.pageNumber]
      rw [bind_ok (get_run t), bind_ok hget, bind_ok (leafAt_run hp)]
      apply Avoids.bind_lift BTreeLeafPage.deleteTuple_ne_stuck
      rintro ⟨q, v⟩ hdelete
      rw [BTreeLeafPage.deleteTuple, hrid] at hdelete
      simp [hpid, hunused] at hdelete

end Grown

/-- A grown tree whose rows are those of objects of a client: every object that still names a slot
stands for one row. -/
structure Stocked (F : FileShape) (objects : List Tuple) (T : KeyTree Int32 Int) (rank : Int32 → ℕ)
    (root : BTreePageId) (leaves : List Int32) (t : LogicalTree) : Prop where
  grown : Grown F.td T rank root leaves t
  connected : Connected F t
  pages : t.getNumPages + 1 ≤ 2 * leaves.length
  names : ∀ u ∈ objects, Names F leaves u
  rows : (t.leafRows leaves).Subperm (objects.map Tuple.fields)
  count : (t.leafRows leaves).length = objects.countP (·.rid.isSome)

/-- A file that nothing is inserted into yet, or such a tree. -/
inductive Holding (F : FileShape) (objects : List Tuple) (t : LogicalTree) : Prop
  | untouched (h : Untouched F.td t) (tableid : t.tableid = F.tableid)
      (keyField : t.keyField = F.keyField) (pageSize : t.pageSize = F.pageSize)
      (clearGrowth : t.clearGrowth = 0) (none : objects = []) : Holding F objects t
  | stocked {T : KeyTree Int32 Int} {rank : Int32 → ℕ} {root : BTreePageId} {leaves : List Int32}
      (h : Stocked F objects T rank root leaves t) : Holding F objects t

/-- The tree of a client that holds these objects: keys are integers and the file has no limit. -/
structure Serves (F : FileShape) (objects : List Tuple) (t : LogicalTree) : Prop where
  key : F.td.getFieldType F.keyField = some .intType
  limit : t.limit = ⊤
  pos : 0 < F.pageSize
  small : F.pageSize < 2 ^ 31
  holding : Holding F objects t

namespace Serves

variable {F : FileShape} {objects : List Tuple} {T : KeyTree Int32 Int} {rank : Int32 → ℕ}
  {root : BTreePageId} {leaves : List Int32} {t t' : LogicalTree} {tuple u : Tuple} {k : ℕ}

theorem live (h : Serves F objects t) : Live F t := by
  refine ⟨h.limit, h.pos, h.small, ?_⟩
  cases h.holding with
  | untouched hnew htable hkeyField hsize hclear _ =>
    exact .untouched hnew htable hkeyField hsize hclear
  | stocked hstocked => exact .grown hstocked.grown hstocked.connected hstocked.pages

theorem insert_stocked (h : Serves F objects t) (hs : Stocked F objects T rank root leaves t)
    (hrun : BTreeFile.insertTuple tuple t = .ok u t') :
    tuple.td = F.td ∧ u.fields = tuple.fields ∧ Serves F (objects ++ [u]) t' := by
  have hroom := h.live.grown_roomy hs.grown hs.connected hs.pages
  have hend := hs.connected.insertTuple hroom tuple
  rw [hrun] at hend
  obtain ⟨hc, -, hfound⟩ := hend.of_ok
  obtain ⟨T', rank', root', leaves', hgrown, hsub, hperm, hfields, hsome, hnames, j, k, hlength, hk,
    hby⟩ := hs.grown.inserted hs.connected hroom hrun
  have hpages := hby.numPages (hs.connected.pageSize ▸ h.pos) hs.connected.rooted.1.1
    hs.connected.clearGrowth
  have hs' := hs.pages
  refine ⟨hfound.schema, hfields, h.key, hby.limit.trans h.limit, h.pos, h.small,
    .stocked ⟨hgrown, hc, by omega, ?_, ?_, ?_⟩⟩
  · intro v hv
    rcases List.mem_append.mp hv with hv | hv
    · exact (hs.names v hv).mono hsub
    · obtain rfl := List.mem_singleton.mp hv
      exact hnames
  · rw [List.map_append, List.map_singleton, hfields]
    exact hperm.subperm.trans (((List.subperm_cons _).mpr hs.rows).trans
      (List.perm_append_singleton _ _).symm.subperm)
  · rw [hperm.length_eq, List.length_cons, hs.count, List.countP_append, List.countP_singleton,
      if_pos hsome]

theorem insert_untouched (h : Serves F [] t) (hnew : Untouched F.td t)
    (htable : t.tableid = F.tableid) (hkeyField : t.keyField = F.keyField)
    (hsize : t.pageSize = F.pageSize) (hclear : t.clearGrowth = 0)
    (hrun : BTreeFile.insertTuple tuple t = .ok u t') :
    tuple.td = F.td ∧ u.fields = tuple.fields ∧ Serves F [u] t' := by
  obtain ⟨r, hpid, hheader, hrun'⟩ := hnew.of_insertTuple hrun
  obtain ⟨-, -, -, -, -, -, -, -, -, -, -, -, -, hpages⟩ := hnew.firstLeaf_pages hpid hheader
  have hc := hnew.connected htable hkeyField hsize hclear hpid hheader
  obtain ⟨p, hp, -, hrows, hgrown⟩ :=
    (Unused.mk hnew (by rw [hkeyField, h.key])).grown hpid hheader
  have hnil : (firstLeaf t r).leafRows [1] = [] := by
    rw [leafRows_cons hp, hrows]
    rfl
  have hs : Stocked F [] noNodes (fun _ => 0) ⟨t.tableid, 1, .leaf⟩ [1] (firstLeaf t r) :=
    ⟨hgrown, hc, by rw [hpages]; rfl, by simp, by rw [hnil]; exact List.nil_subperm, by rw [hnil]; rfl⟩
  have hfirst : Serves F [] (firstLeaf t r) :=
    ⟨h.key, (firstLeaf_limit r).trans h.limit, h.pos, h.small, .stocked hs⟩
  exact hfirst.insert_stocked hs hrun'

/-- An insertion never asks for a missing page, and its object is one of the client from then on. -/
theorem insert (h : Serves F objects t) (tuple : Tuple) :
    Avoids stuck (fun u t' => tuple.td = F.td ∧ u.fields = tuple.fields ∧
        Serves F (objects ++ [u]) t')
      (BTreeFile.insertTuple tuple t) := by
  have hend := h.live.insertTuple tuple
  cases hrun : BTreeFile.insertTuple tuple t with
  | error e t' =>
    rw [hrun] at hend
    exact hend
  | ok u t' =>
    change tuple.td = F.td ∧ u.fields = tuple.fields ∧ Serves F (objects ++ [u]) t'
    cases h.holding with
    | untouched hnew htable hkeyField hsize hclear hnone =>
      subst hnone
      exact h.insert_untouched hnew htable hkeyField hsize hclear hrun
    | stocked hs => exact h.insert_stocked hs hrun

/-- An object that stands for a row of a tree that has one gives its row back. -/
theorem delete_stocked (h : Serves F objects t) (hs : Stocked F objects T rank root leaves t)
    {T' : KeyTree Int32 Int} {row : Row} (hk : objects[k]? = some u) (hsome : u.rid.isSome)
    (hgrown : Grown F.td T' rank root leaves t') (hc : Connected F t') (hby : GrownBy 0 t t')
    (hperm : (t.leafRows leaves).Perm (row :: t'.leafRows leaves)) :
    Stocked F (objects.set k (u.setRecordId none)) T' rank root leaves t' := by
  obtain ⟨hlt, hget⟩ := List.getElem?_eq_some_iff.mp hk
  have hpages := hby.numPages (hs.connected.pageSize ▸ h.pos) hs.connected.rooted.1.1
    hs.connected.clearGrowth
  constructor
  case grown => exact hgrown
  case connected => exact hc
  case pages =>
    have := hs.pages
    omega
  case names =>
    intro v hv
    rcases List.mem_or_eq_of_mem_set hv with hv | rfl
    · exact hs.names v hv
    · exact fun rid hrid => by cases hrid
  case rows =>
    rw [fields_set hk none]
    exact ((List.sublist_cons_self row _).subperm.trans hperm.symm.subperm).trans hs.rows
  case count =>
    have hcount := hs.count
    rw [hperm.length_eq, List.length_cons] at hcount
    rw [List.countP_set hlt, hget, if_pos hsome, if_neg (by simp [Tuple.setRecordId])]
    omega

theorem delete_cases (h : Serves F objects t) (hk : objects[k]? = some u) :
    (∃ row T T' rank root leaves t', t.Deletable u row ∧
      BTreeFile.deleteTuple u t = .ok (u.setRecordId none) t' ∧
      Stocked F objects T rank root leaves t ∧
      Stocked F (objects.set k (u.setRecordId none)) T' rank root leaves t' ∧
      GrownBy 0 t t' ∧ (t.leafRows leaves).Perm (row :: t'.leafRows leaves)) ∨
    ((∀ row, ¬ t.Deletable u row) ∧
      Avoids stuck (fun _ _ => False) (BTreeFile.deleteTuple u t)) := by
  have hmem : u ∈ objects := List.mem_of_getElem? hk
  cases h.holding with
  | untouched hnew htable hkeyField hsize hclear hnone =>
    subst hnone
    cases hmem
  | stocked hs =>
    apply (hs.grown.delete_cases hs.connected.tableid hs.connected.pageSize
      (hs.names u hmem)).imp_left
    rintro ⟨row, T', t', hdel, hrun, hgrown, hr, hperm⟩
    have hsome : u.rid.isSome := by
      obtain ⟨n, i, p, hrid, -⟩ := hdel
      rw [hrid]
      rfl
    exact ⟨row, _, T', _, _, _, t', hdel, hrun, hs,
      h.delete_stocked hs hk hsome hgrown (hr.connected hs.connected) hr.grown hperm, hr.grown, hperm⟩

theorem delete (h : Serves F objects t) (hk : objects[k]? = some u) :
    Avoids stuck (fun v t' => v = u.setRecordId none ∧ Serves F (objects.set k v) t')
      (BTreeFile.deleteTuple u t) := by
  rcases h.delete_cases hk with ⟨row, T, T', rank, root, leaves, t', -, hrun, -, hs, hby, -⟩ | ⟨-, hfails⟩
  · rw [hrun]
    exact ⟨rfl, h.key, hby.limit.trans h.limit, h.pos, h.small, .stocked hs⟩
  · exact hfails.mono fun _ _ => False.elim

end Serves

end PagedDb
