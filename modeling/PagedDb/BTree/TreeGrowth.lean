import PagedDb.BTree.InsertRuns
import PagedDb.BTree.SafeRuns

/-!
# States that insertions lead to

A call that returns leaves a state in which the next call does not ask for a
missing page either. For keys that are integers the root stays the only internal
page, so the number of pages is bounded by its entries and the numbers do not
run out; for keys that are strings no call but the first returns.
-/

namespace PagedDb

open Exec LogicalTree BTreeFile

variable {F : FileShape} {t t' : LogicalTree} {tuple u : Tuple}

namespace Grown

variable {T : KeyTree Int32 Int} {rank : Int32 → ℕ} {root : BTreePageId} {leaves : List Int32}

/-- The leaves are children of one page, or the root is a leaf. -/
theorem leaves_length_le (h : Grown F.td T rank root leaves t) (hc : Connected F t) :
    leaves.length ≤ BTreeInternalPage.maxEntries F.pageSize F.td F.keyField + 1 := by
  have hchild : ∀ n ∈ leaves, n ≠ root.pgNo → T.Child root.pgNo n := by
    intro n hn hne
    obtain ⟨m, hm⟩ := (h.legal.top n (.inr hn)).resolve_left hne
    obtain rfl : m = root.pgNo := by
      obtain ⟨first, es, hnode, -⟩ := hm
      exact h.flat m (by rw [hnode]; rfl)
    exact hm
  cases hnode : T.node root.pgNo with
  | none =>
    have hsub : leaves ⊆ [root.pgNo] := by
      intro n hn
      by_contra hne
      obtain ⟨first, es, hsome, -⟩ := hchild n hn (by simpa using hne)
      rw [hnode] at hsome
      cases hsome
    exact (h.legal.nodup.subperm hsub).length_le.trans (Nat.le_add_left _ _)
  | some x =>
    obtain ⟨first, es⟩ := x
    obtain ⟨q, entries, rfl, hq, hint⟩ := h.legal.internal _ first es hnode
    have hsub : leaves ⊆ BTreeInternalPage.childList first entries := by
      intro n hn
      have hne : n ≠ root.pgNo := by
        rintro rfl
        rw [h.legal.node_leaf hn] at hnode
        cases hnode
      obtain ⟨first', es', hnode', hmem⟩ := hchild n hn hne
      rw [hnode] at hnode'
      cases hnode'
      rwa [intEntries_snd] at hmem
    have hlength := (h.legal.nodup.subperm hsub).length_le
    have hslots := hint.filled.slots
    obtain ⟨hsize, -⟩ := hc.points _ _ hq
    rw [BTreeInternalPage.childList, List.length_cons, List.length_map] at hlength
    omega

/-- An insertion that returns has stored the row. -/
theorem chosen (h : Grown F.td T rank root leaves t) (hc : Connected F t) (hroom : t.Roomy 3)
    (hrun : BTreeFile.insertTuple tuple t = .ok u t') :
    ∃ T' rank' root' leaves' t₁ C l q,
      Stores F.td leaves tuple u t t' T' rank' root' leaves' t₁ C l q := by
  have hend := hc.insertTuple hroom tuple
  rw [hrun] at hend
  obtain ⟨-, -, htd, hslots, hsplit⟩ := hend.of_ok
  rw [← hc.pageSize] at hslots
  have hroom' : RoomFor t tuple := by
    intro L p hreaches hp hfull
    obtain ⟨⟨habove, -⟩, -⟩ := hsplit L p hreaches hp hfull
    by_cases hzero : p.parent = 0
    · exact .inl ⟨hzero, hroom.of_le (by omega)⟩
    · exact .inr ⟨hroom.of_le (by omega), habove hzero⟩
  rcases h.insertTuple_stores (Nat.one_le_iff_ne_zero.mpr hslots) htd hroom' (fun L p hreaches hp
      hfull hzero => by
        obtain ⟨⟨-, hmake⟩, -⟩ := hsplit L p hreaches hp hfull
        rw [hc.pageSize, hc.keyField]
        exact Nat.one_le_iff_ne_zero.mpr (hmake hzero)) with
    ⟨u₁, t₁, T', rank', root', leaves', t₂, C, l, q, hrun', hstores⟩ | ⟨-, hfails⟩
  · rw [hrun] at hrun'
    cases hrun'
    exact ⟨T', rank', root', leaves', t₂, C, l, q, hstores⟩
  · exact absurd hrun (hfails u t')

theorem of_insertTuple (h : Grown F.td T rank root leaves t) (hc : Connected F t)
    (hroom : t.Roomy 3) (hrun : BTreeFile.insertTuple tuple t = .ok u t') :
    ∃ T' rank' root' leaves', Grown F.td T' rank' root' leaves' t' ∧
      ∃ j k, leaves'.length = leaves.length + j ∧ k ≤ 2 * j ∧ GrownBy k t t' := by
  obtain ⟨T', rank', root', leaves', t₁, C, l, q, hstores⟩ := h.chosen hc hroom hrun
  obtain ⟨j, k, hlength, -, hk, hby⟩ := hstores.grownBy
  obtain rfl := hstores.result
  exact ⟨T', rank', root', leaves', hstores.grown, j, k, hlength, hk, hby.setPage _ _⟩

end Grown

/-- A new file as the code finds it. -/
theorem Untouched.connected (h : Untouched F.td t) (htable : t.tableid = F.tableid)
    (hkey : t.keyField = F.keyField) (hsize : t.pageSize = F.pageSize) (hclear : t.clearGrowth = 0)
    {r : BTreeRootPtrPage} (hpid : r.pid = BTreeRootPtrPage.getId t.tableid)
    (hheader : r.header = 0) : Connected F (firstLeaf t r) := by
  obtain ⟨p, hp, hppid, hptd, hpkey, hslots, -, -, hright, hparent, hnode, hplaced, hrooted,
    hpages⟩ := h.firstLeaf_pages hpid hheader
  have hhas : (firstLeaf t r).Has (BTreeRootPtrPage.getId t.tableid) := hrooted.has
  rw [htable] at hhas hnode hpid
  refine
    { tableid := (firstLeaf_tableid r).trans htable, keyField := (firstLeaf_keyField r).trans hkey
      pageSize := (firstLeaf_pageSize r).trans hsize
      clearGrowth := (firstLeaf_clearGrowth r).trans hclear, placed := hplaced, rooted := hhas, points := ?_, fresh := firstLeaf_fresh h.fresh r
      complete := ?_ }
  · intro n page hpage
    by_cases h₀ : n = 0
    · subst h₀
      rw [firstLeaf_root] at hpage
      cases hpage
      refine ⟨hheader, ⟨F.tableid, 1, .leaf⟩, ?_, hnode⟩
      rw [BTreeRootPtrPage.getRootId, if_neg (show (1 : Int32) ≠ 0 by decide), hpid]
      rfl
    · by_cases h₁ : n = 1
      · subst h₁
        rw [hp] at hpage
        cases hpage
        refine ⟨hptd, hpkey.trans hkey, hsize ▸ hslots, fun hne => absurd hparent hne,
          fun hne => absurd hright hne, ?_⟩
        rw [hright]
        decide
      · rw [firstLeaf_ne h₀ h₁, h.pages n] at hpage
        cases hpage
  · intro n hpos hle
    rw [hpages] at hle
    have hone : n = 1 := Int32.toInt_inj.mp (le_antisymm hle hpos)
    rw [hone, hp]
    rfl

theorem LogicalTree.roomy_of_numPages (hpos : 0 < t.pageSize) (hsize : BTreeRootPtrPage.size ≤ t.size)
    (hlimit : t.limit = ⊤) (hclear : t.clearGrowth = 0) {k : ℕ}
    (hpages : t.getNumPages + k < 2 ^ 31) : t.Roomy k := by
  refine ⟨hpos, hsize, by simp [hlimit], ?_⟩
  rw [hclear, Nat.add_zero, Nat.sub_add_comm hsize, Nat.add_mul_div_right _ _ hpos]
  exact hpages

theorem LogicalTree.GrownBy.numPages {k : ℕ} (h : GrownBy k t t') (hpos : 0 < t.pageSize)
    (hsize : BTreeRootPtrPage.size ≤ t.size) (hclear : t.clearGrowth = 0) :
    t'.getNumPages = t.getNumPages + k := by
  rw [getNumPages, h.size, h.pageSize, hclear, Nat.add_zero, Nat.sub_add_comm hsize,
    Nat.add_mul_div_right _ _ hpos]
  rfl

/-- A file in which keys are strings and the root is a leaf that is not empty. -/
structure Halted (F : FileShape) (t : LogicalTree) : Prop where
  key : F.td.getFieldType F.keyField = some .stringType
  connected : Connected F t
  rooted : t.Rooted ⟨F.tableid, 1, .leaf⟩
  room : t.Roomy 3
  leaf : ∃ p, t.pages 1 = some (.leaf p) ∧ ∃ i < p.numSlots, p.isSlotUsed i = true

/-- A state of a file that calls of `insertTuple` lead to. -/
inductive Stage (F : FileShape) (t : LogicalTree) : Prop
  | untouched (h : Untouched F.td t) (tableid : t.tableid = F.tableid)
      (keyField : t.keyField = F.keyField) (pageSize : t.pageSize = F.pageSize)
      (clearGrowth : t.clearGrowth = 0) : Stage F t
  | grown {T : KeyTree Int32 Int} {rank : Int32 → ℕ} {root : BTreePageId} {leaves : List Int32}
      (h : Grown F.td T rank root leaves t) (connected : Connected F t)
      (pages : t.getNumPages + 1 ≤ 2 * leaves.length) : Stage F t
  | halted (h : Halted F t) : Stage F t

/-- A state of a file without a limit whose page size is an `int`. -/
structure Live (F : FileShape) (t : LogicalTree) : Prop where
  limit : t.limit = ⊤
  pos : 0 < F.pageSize
  small : F.pageSize < 2 ^ 31
  stage : Stage F t

theorem Tuple.getField_type {i : ℕ} {f : Field} (h : tuple.getField i = .ok f) :
    tuple.td.getFieldType i = some f.getType := by
  unfold Tuple.getField at h
  split at h
  · rename_i hf
    cases h
    rw [TupleDesc.getFieldType, ← tuple.typed, List.getElem?_map, hf]
    rfl
  · cases h

/-- No call returns in a file whose keys are strings, if it is not the first one. -/
theorem Halted.never (h : Halted F t) (tuple : Tuple) :
    Avoids stuck (fun _ _ => False) (BTreeFile.insertTuple tuple t) := by
  have hend := h.connected.insertTuple h.room tuple
  cases hrun : BTreeFile.insertTuple tuple t with
  | error e t' =>
    rw [hrun] at hend
    exact hend
  | ok u t' =>
    rw [hrun] at hend
    obtain ⟨-, -, htd, -, hsplit⟩ := hend.of_ok
    obtain ⟨p, hp, hused⟩ := h.leaf
    obtain ⟨hnum, hhas⟩ := h.connected.placed 1 _ hp
    obtain ⟨hptd, hpkey, -⟩ := h.connected.points 1 _ hp
    cases hkey : tuple.getField t.keyField with
    | error e =>
      rw [BTreeFile.insertTuple, bind_ok (getRoot_run h.rooted), bind_ok (get_run t),
        show TreeStore.keyField t = t.keyField from rfl, hkey, bind_error (lift_error e t)] at hrun
      cases hrun
    | ok key =>
      have hfind : findLeafPage .readOnly (some key) (t.getNumPages + 1) ⟨F.tableid, 1, .leaf⟩ t =
          .ok 1 t := by
        rw [findLeafPage, if_pos rfl]
        obtain ⟨r, root, hr, -, -, hroot, hnode⟩ := h.connected.root
        obtain ⟨r', hr', -, hroot'⟩ := h.rooted.page
        rw [hr] at hr'
        cases hr'
        rw [hroot] at hroot'
        cases hroot'
        exact hnode.has.getPage .readOnly
      rw [insertTuple_reaches h.rooted hkey hfind hp hhas hnum] at hrun
      obtain ⟨r, hr, -, hroot⟩ := h.rooted.page
      have hreaches : Reaches t tuple 1 := ⟨r, _, key, hr, hroot, hkey, hfind⟩
      by_cases hfull : p.getNumEmptySlots = 0
      · obtain ⟨-, v, hv⟩ := hsplit 1 p hreaches hp hfull
        have htype := Tuple.getField_type hv
        rw [htd, h.key] at htype
        cases htype
      · have hwith : leafWithRoom (TreeStore.getNumPages t + 1) 1 key t = .ok 1 t := by
          rw [leafWithRoom, bind_ok (leafAt_run hp), if_neg hfull]
          rfl
        obtain ⟨q, hinsert, -⟩ := of_insertAt hwith hp hrun
        exact BTreeLeafPage.insertTuple_string (by rw [hptd, hpkey, h.key]) hused hinsert

namespace Live

theorem grown_roomy {T : KeyTree Int32 Int} {rank : Int32 → ℕ} {root : BTreePageId}
    {leaves : List Int32} (h : Live F t) (hgrown : Grown F.td T rank root leaves t)
    (hc : Connected F t) (hpages : t.getNumPages + 1 ≤ 2 * leaves.length) : t.Roomy 3 := by
  have hle := hgrown.leaves_length_le hc
  have hsmall := h.small
  have hentries : BTreeInternalPage.maxEntries F.pageSize F.td F.keyField ≤ 2 ^ 31 * 8 / 33 :=
    (Nat.div_le_div_left (show 33 ≤ _ by omega) (by omega)).trans (Nat.div_le_div_right (by omega))
  exact LogicalTree.roomy_of_numPages (hc.pageSize ▸ h.pos) hc.rooted.1.1 h.limit hc.clearGrowth
    (by omega)

theorem insert_grown {T : KeyTree Int32 Int} {rank : Int32 → ℕ} {root : BTreePageId}
    {leaves : List Int32} (h : Live F t) (hgrown : Grown F.td T rank root leaves t)
    (hc : Connected F t) (hpages : t.getNumPages + 1 ≤ 2 * leaves.length) (tuple : Tuple) :
    Avoids stuck (fun _ t' => Live F t' ∧ Connected F t') (BTreeFile.insertTuple tuple t) := by
  have hroom := h.grown_roomy hgrown hc hpages
  have hend := hc.insertTuple hroom tuple
  cases hrun : BTreeFile.insertTuple tuple t with
  | error e t' =>
    rw [hrun] at hend
    exact hend
  | ok u t' =>
    rw [hrun] at hend
    obtain ⟨hc', -⟩ := hend.of_ok
    obtain ⟨T', rank', root', leaves', hgrown', j, k, hlength, hk, hby⟩ :=
      hgrown.of_insertTuple hc hroom hrun
    have hpages' := hby.numPages (hc.pageSize ▸ h.pos) hc.rooted.1.1 hc.clearGrowth
    exact ⟨⟨hby.limit.trans h.limit, h.pos, h.small, .grown hgrown' hc' (by omega)⟩, hc'⟩

/-- The first call, for keys that are strings. -/
theorem insert_string (h : Live F t) {r : BTreeRootPtrPage} (hnew : Untouched F.td t)
    (hpid : r.pid = BTreeRootPtrPage.getId t.tableid) (hheader : r.header = 0)
    (hc : Connected F (firstLeaf t r)) (hroom : (firstLeaf t r).Roomy 3)
    (htype : F.td.getFieldType F.keyField = some .stringType) {key : Field}
    (hkey : tuple.getField t.keyField = .ok key) :
    Avoids stuck (fun _ t' => Live F t' ∧ Connected F t') (BTreeFile.insertTuple tuple (firstLeaf t r)) := by
  obtain ⟨p, hp, hppid, -, -, hslots, hrows, -, -, -, hnode, -, hrooted, -⟩ :=
    hnew.firstLeaf_pages hpid hheader
  have hend := hc.insertTuple hroom tuple
  have hfind : findLeafPage .readOnly (some key) ((firstLeaf t r).getNumPages + 1)
      ⟨t.tableid, 1, .leaf⟩ (firstLeaf t r) = .ok 1 (firstLeaf t r) := by
    rw [findLeafPage, if_pos rfl]
    exact hnode.has.getPage .readOnly
  have heq := insertTuple_reaches hrooted hkey hfind hp (hppid ▸ hnode.has) (by rw [hppid])
  cases hrun : BTreeFile.insertTuple tuple (firstLeaf t r) with
  | error e t' =>
    rw [hrun] at hend
    exact hend
  | ok u t' =>
    rw [hrun] at hend
    obtain ⟨hc', ⟨⟨k, hk, hby⟩, -⟩, htd, hcap, -⟩ := hend.of_ok
    -- the leaf is empty
    have hfull : p.getNumEmptySlots ≠ 0 := by
      have hcount := p.rows_length_add_empty
      have hsize : t.pageSize = F.pageSize := hc.pageSize
      rw [hrows, List.length_nil, hslots, hsize] at hcount
      omega
    have hwith : leafWithRoom (TreeStore.getNumPages (firstLeaf t r) + 1) 1 key (firstLeaf t r) =
        .ok 1 (firstLeaf t r) := by
      rw [leafWithRoom, bind_ok (leafAt_run hp), if_neg hfull]
      rfl
    obtain ⟨q, hinsert, rfl⟩ := of_insertAt hwith hp (heq.symm.trans hrun)
    obtain ⟨-, -, hframe, i, hi, hused⟩ := BTreeLeafPage.of_insertTuple hinsert
    have hid : (BTreeFilePage.leaf q).getId = (BTreeFilePage.leaf p).getId := hframe.pid
    have htable : t.tableid = F.tableid := hc.tableid
    have hrooted' := hrooted.setPage hp hid rfl (show (1 : Int32) ≠ 0 by decide)
    rw [htable] at hrooted'
    refine ⟨⟨(hby.limit.trans (firstLeaf_limit r)).trans h.limit, h.pos, h.small,
      .halted ⟨htype, hc', hrooted', ?_, q, setPage_self, i, ?_, hused⟩⟩, hc'⟩
    · exact ⟨hroom.pageSize, hroom.size, hroom.limit, hroom.number⟩
    · rwa [hframe.numSlots]

/-- The first call. -/
theorem insert_first (h : Live F t) (hnew : Untouched F.td t) (htable : t.tableid = F.tableid)
    (hkeyField : t.keyField = F.keyField) (hsize : t.pageSize = F.pageSize)
    (hclear : t.clearGrowth = 0) (tuple : Tuple) :
    Avoids stuck (fun _ t' => Live F t' ∧ Connected F t') (BTreeFile.insertTuple tuple t) := by
  obtain ⟨r, hblank, hpid, hzero, hheader⟩ := hnew.rootPtr
  cases hkey : tuple.getField t.keyField with
  | error e =>
    set t₁ := (created t).setPage 0 (.rootPtr { r with root := 1, rootCategory := .leaf }) with ht₁
    have hlift : (lift (tuple.getField (TreeStore.keyField t₁)) : EStateM Fault LogicalTree Field)
        t₁ = .error e t₁ := by
      rw [show TreeStore.keyField t₁ = t.keyField from rfl, hkey, lift_error]
    rw [BTreeFile.insertTuple, bind_ok (hnew.getRoot hblank hpid hzero), bind_ok (get_run t₁),
      bind_error hlift]
    rintro rfl
    exact Tuple.getField_ne_stuck _ _ hkey
  | ok key =>
    rw [hnew.insertTuple_eq hblank hpid hzero hheader hkey]
    obtain ⟨-, -, -, -, -, -, -, -, -, -, -, -, -, hpages⟩ := hnew.firstLeaf_pages hpid hheader
    have hc := hnew.connected htable hkeyField hsize hclear hpid hheader
    have hpos : 0 < (firstLeaf t r).pageSize := hnew.pageSize
    have hlimit := (firstLeaf_limit r).trans h.limit
    have hroom : (firstLeaf t r).Roomy 3 :=
      LogicalTree.roomy_of_numPages hpos hc.rooted.1.1 hlimit hc.clearGrowth (by omega)
    cases htype : F.td.getFieldType F.keyField with
    | none =>
      have hend := hc.insertTuple hroom tuple
      apply Avoids.mono hend
      rintro u t' ⟨-, -, hfound⟩
      have hkey' := Tuple.getField_type hkey
      rw [hfound.schema, hkeyField, htype] at hkey'
      cases hkey'
    | some type =>
      cases type with
      | intType =>
        obtain ⟨p, -, -, -, hgrown⟩ :=
          (Unused.mk hnew (by rw [hkeyField, htype])).grown hpid hheader
        have hlive : Live F (firstLeaf t r) :=
          ⟨hlimit, h.pos, h.small, .grown hgrown hc (by rw [hpages]; rfl)⟩
        exact hlive.insert_grown hgrown hc (by rw [hpages]; rfl) tuple
      | stringType => exact h.insert_string hnew hpid hheader hc hroom htype hkey

theorem insertTuple (h : Live F t) (tuple : Tuple) :
    Avoids stuck (fun _ t' => Live F t' ∧ Connected F t') (BTreeFile.insertTuple tuple t) := by
  cases h.stage with
  | untouched hnew htable hkeyField hsize hclear =>
    exact h.insert_first hnew htable hkeyField hsize hclear tuple
  | grown hgrown hc hpages => exact h.insert_grown hgrown hc hpages tuple
  | halted hhalted => exact (hhalted.never tuple).mono fun _ _ => False.elim

end Live

end PagedDb
