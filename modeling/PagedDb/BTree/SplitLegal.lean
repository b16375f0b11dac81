import PagedDb.BTree.LeafSplit

/-!
# A split keeps the tree legal

The parent of the new leaf is the one of the old leaf, if that has room, or a
new root that has the old leaf as its only child before it gets the entry.
-/

namespace PagedDb

open Exec LogicalTree BTreeFile

variable {td : TupleDesc} {T T' : KeyTree Int32 Int} {rank : Int32 → ℕ} {root : BTreePageId}
  {leaves : List Int32} {t t' : LogicalTree} {L : Int32} {p p' r' : BTreeLeafPage}

theorem sorted_entry {α : Type} {R : α → α → Prop} {pre post : List α} {e : α}
    (h : (pre ++ post).Pairwise R) (hle : ∀ a ∈ pre, R a e) (hge : ∀ b ∈ post, R e b) :
    (pre ++ e :: post).Pairwise R := by
  obtain ⟨hpre, hpost, hbetween⟩ := List.pairwise_append.mp h
  refine List.pairwise_append.mpr ⟨hpre, List.pairwise_cons.mpr ⟨hge, hpost⟩, ?_⟩
  intro a ha b hb
  rcases List.mem_cons.mp hb with rfl | hb
  · exact hle a ha
  · exact hbetween a ha b hb

/-- The inner nodes with an entry for `R` in the node `P`. -/
def enterNode (T : KeyTree Int32 Int) (P first v R : Int32) (pre post : List (Int32 × Int32)) :
    KeyTree Int32 Int :=
  ⟨Function.update T.node P (some (first, intEntries (pre ++ (v, R) :: post)))⟩

section Places

variable {v : Int32}

theorem rowsMoved_spec (hgrow : t.Grows) (hp : t.pages L = some (.leaf p))
    (hhalves : Halves t L t.newNumber v p p' r') (hnL : p.rightSibling ≠ L)
    (hplaced : (rowsMoved t L p p' r').Placed)
    (hhas : ∀ id, t.Has id → (rowsMoved t L p p' r').Has id) :
    RowsMoved t (rowsMoved t L p p' r') L t.newNumber p p' r' where
  tableid := rowsMoved_grown.tableid
  keyField := rowsMoved_grown.keyField
  pageSize := rowsMoved_grown.pageSize
  has := hhas
  has_right := by
    have hright := (hplaced _ _ rowsMoved_right).2
    rwa [show (BTreeFilePage.leaf r').getId = _ from hhalves.right_pid] at hright
  fresh := hgrow.fresh
  left := rowsMoved_left hgrow hp
  right := rowsMoved_right
  next n hn := rowsMoved_next hgrow hnL hn
  other n page hn _ hL hnext := by
    rw [rowsMoved_other hL (ne_newNumber hgrow hn), hn]
    intro heq q hq
    rw [hn] at hq
    exact hnext heq q (Option.some.inj hq)

theorem Legal.not_node (h : Legal td T rank root leaves t) {n : Int32} (hn : t.pages n = none) :
    T.node n = none ∧ (∀ m, ¬ T.Child m n) ∧ n ∉ leaves := by
  refine ⟨?_, ?_, ?_⟩
  · cases hnode : T.node n with
    | none => rfl
    | some x =>
      obtain ⟨q, -, -, hq, -⟩ := h.internal n x.1 x.2 hnode
      rw [hn] at hq
      cases hq
  · intro m hchild
    obtain ⟨-, page, -, -, hpage, -⟩ := h.child_page hchild
    rw [hn] at hpage
    cases hpage
  · intro hmem
    obtain ⟨q, hq, -⟩ := h.leaf n hmem
    rw [hn] at hq
    cases hq

theorem Halves.key_mem {R : Int32} (h : Halves t L R v p p' r') :
    ∃ row ∈ p.rows, v.toInt = intKey p.keyField row := by
  obtain ⟨keep, row, moved, hrows, -, hv, -⟩ := h.rows
  exact ⟨row, by simp [hrows], hv⟩

end Places

section Child

variable {v R : Int32} {q : BTreeInternalPage} {t₃ : LogicalTree}

/-- The second part of a split under an old parent. -/
theorem Legal.split_child (h : Legal td T rank root leaves t) (hrooted : t.Rooted root)
    (hL : L ∈ leaves) (hp : t.pages L = some (.leaf p)) (hhalves : Halves t L R v p p' r')
    (hm : RowsMoved t t₃ L R p p' r') (hparent : p.parent ≠ 0)
    (hq : t.pages p.parent = some (.internal q)) (hroom : q.getNumEmptySlots ≠ 0) :
    ∃ first pre post q' t₅,
      LeafSplit t t₅ L R p.parent v first pre post p { p' with parent := p.parent }
        { r' with parent := p.parent } q' ∧
      q.Filled first (pre ++ post) ∧
      T.Splits (enterNode T p.parent first v R pre post) rank p.parent L R first v.toInt
        (intEntries pre) (intEntries post) ∧
      q'.pid = q.pid ∧ t₅ = (t₃.setPage p.parent (.internal q')).adopt p.parent
        (BTreeInternalPage.childList first (pre ++ (v, R) :: post)) ∧
      ∀ fuel, getParentWithEmptySlots (fuel + 1) (BTreePage.getParentId t.tableid p.parent)
          (some (.int v)) t₃ = .ok p.parent t₃ ∧
        enterSplit p.parent (some (.int v)) ⟨t.tableid, L, .leaf⟩ ⟨t.tableid, R, .leaf⟩ t₃ =
          .ok () t₅ := by
  obtain ⟨q₀, first, pre, post, hq₀, hint, hlast, hcat⟩ := h.leaf_parent hL hp hparent
  rw [hq] at hq₀
  cases hq₀
  have hleaf := h.legalLeaf hL hp
  obtain ⟨hpid, hnode⟩ : q.pid = ⟨t.tableid, p.parent, .internal⟩ ∧
      t.HasNode ⟨t.tableid, p.parent, .internal⟩ := h.pageId (.inl (by rw [hint.node]; rfl)) hq
  obtain ⟨hRnode, hRchild, -⟩ := h.not_node hm.fresh
  have hPL : p.parent ≠ L := ((h.leaf_has hL).has.ne_internal hq).symm
  obtain ⟨-, hnL⟩ := h.sibling hrooted hL hp
  have hq₃ : t₃.pages p.parent = some (.internal q) :=
    hm.other _ _ hq hparent hPL fun _ _ => by simp
  -- the key of the entry is between those around the leaf
  have hnode' : T.node p.parent = some (first, intEntries pre ++ intEntries post) := by
    rw [hint.node, intEntries_append]
  obtain ⟨row, hrow, hv⟩ := hhalves.key_mem
  have hrange : T.InRange (KeyTree.lastChild first (intEntries pre)) v.toInt := by
    rw [lastChild_intEntries, hlast, hv]
    exact hleaf.range row hrow
  obtain ⟨hle, hge⟩ := hrange.entries hnode'
  have hle' : ∀ e ∈ pre, e.1.toInt ≤ v.toInt := fun e he => hle _ (mem_intEntries he)
  have hge' : ∀ e ∈ post, v.toInt ≤ e.1.toInt := fun e he => hge _ (mem_intEntries he)
  have hnodup : (BTreeInternalPage.childList first (pre ++ post)).Nodup := by
    have := h.balanced.nodup _ _ _ hint.node
    rwa [intEntries_snd] at this
  have hright : R ∉ BTreeInternalPage.childList first (pre ++ post) := by
    intro hR
    refine hRchild p.parent ⟨first, _, hint.node, ?_⟩
    rwa [intEntries_snd]
  have hempty := hint.filled.numEmptySlots
  have hget : (BTreeInternalPage.childList first (pre ++ post))[pre.length]? = some L := by
    rw [← hlast]
    exact KeyTree.getElem?_lastChild first pre post
  obtain ⟨q', hentry, hframe, hcat', hfilled⟩ := BTreeInternalPage.insertEntry_more hint.filled
    hint.ne_nil (by rw [hint.schema, hint.keyField]; exact h.key) hcat (by omega) hget hnodup hright
    hle' hge'
  rw [hpid] at hentry
  have hchildren : ∀ c ∈ BTreeInternalPage.childList first (pre ++ post),
      t.HasNode ⟨t.tableid, c, .leaf⟩ := by
    intro c hc
    have hhas := hint.children c hc
    rwa [BTreeInternalPage.childId, hpid, hcat] at hhas
  have hold : ∀ page, t.pages p.parent = some page →
      page.parent? = some q.parent ∧ page.kind = .internal := by
    intro page hpage
    rw [hq] at hpage
    cases hpage
    exact ⟨rfl, rfl⟩
  refine ⟨first, pre, post, q', _, ?_, hint.filled, ?_, hframe.pid, rfl, ?_⟩
  · exact LeafSplit.enter hm hhalves hnL hq₃ hframe hpid (hint.schema.trans hleaf.schema.symm)
      (hint.keyField.trans hleaf.keyField.symm) hcat' hfilled hlast
      (fun c hc => ⟨hchildren c hc, fun _ => hint.parents c hc⟩)
      (sorted_entry hint.sorted hle' hge') hold
  · exact
      { balanced := h.balanced, before := hnode'
        after := by simp [enterNode]
        others := fun n hn => Function.update_of_ne hn _ _
        left := by rw [lastChild_intEntries, hlast]
        left_leaf := h.node_leaf hL, right_leaf := hRnode, fresh := hRchild }
  · intro fuel
    have hhas := hm.has _ hnode.has
    have hleaves := fun c => hm.children (c := c) (v := v) hq₃ hchildren
    rw [← hm.tableid] at hhas hpid hentry ⊢
    exact ⟨getParent_room hparent hhas hq₃ hroom,
      enterSplit_run hparent hq₃ hpid hentry hframe hfilled (by simp) hcat' hleaves⟩

end Child

section Root

variable {v R : Int32} {t₃ : LogicalTree}

theorem Legal.root_leaf (h : Legal td T rank root leaves t) (hL : L ∈ leaves)
    (hp : t.pages L = some (.leaf p)) (hparent : p.parent = 0) :
    root = ⟨t.tableid, L, .leaf⟩ ∧ ∀ n, ¬ T.Child n L := by
  obtain ⟨hid, -⟩ := h.leaf_id hL hp
  have htop : ∀ n, ¬ T.Child n L := by
    intro n hchild
    obtain ⟨q, page, hq, -, hpage, hn, -⟩ := h.child_page hchild
    rw [hp] at hpage
    cases hpage
    have hnode : (T.node n).isSome := by
      obtain ⟨first, es, hnode, -⟩ := hchild
      rw [hnode]
      rfl
    obtain ⟨-, hhas⟩ := h.pageId (.inl hnode) hq
    exact Legal.ne_zero_of_has hhas ((Option.some.inj hn).symm.trans hparent)
  refine ⟨?_, htop⟩
  rcases h.top L (.inr hL) with heq | ⟨m, hchild⟩
  · obtain ⟨-, page, hpage, hroot, -⟩ := h.root_node.has
    rw [← heq, hp] at hpage
    cases hpage
    exact hroot.symm.trans hid
  · exact absurd hchild (htop m)

theorem maxEntries_pos {pageSize key : ℕ} (hkey : td.getFieldType key = some .intType)
    (hcap : 2 ≤ BTreeLeafPage.getMaxTuples pageSize td) :
    1 ≤ BTreeInternalPage.maxEntries pageSize td key := by
  have hlen : BTreeInternalPage.keyLen td key = 4 := by
    rw [BTreeInternalPage.keyLen, hkey]
    rfl
  have hmem : FieldType.intType.getLen ∈ td.types.map FieldType.getLen :=
    List.mem_map_of_mem (List.mem_of_getElem? hkey)
  have hsize : 4 ≤ td.getSize := List.le_sum_of_mem hmem
  rw [BTreeLeafPage.getMaxTuples, Nat.le_div_iff_mul_le (by omega)] at hcap
  rw [BTreeInternalPage.maxEntries, hlen, Nat.le_div_iff_mul_le (by omega)]
  omega

/-- The root pointer page behind `makeRoot`. -/
def toNewRoot (t : LogicalTree) (r : BTreeRootPtrPage) : BTreeRootPtrPage :=
  { r with root := t.newNumber, rootCategory := .internal }

/-- The pages behind `makeRoot`, where the leaf `L` was the root. -/
def rootMade (t : LogicalTree) (r : BTreeRootPtrPage) (L : Int32) (p : BTreeLeafPage) :
    LogicalTree :=
  ((t.extend .internal).setPage 0 (.rootPtr (toNewRoot t r))).setPage L
    (.leaf { p with parent := t.newNumber })

section

variable {r : BTreeRootPtrPage}

theorem rootMade_keeps (hgrow : t.Grows) {n : Int32} {page : BTreeFilePage}
    (hn : t.pages n = some page) (hn₀ : n ≠ 0) (hne : n ≠ L) :
    (rootMade t r L p).pages n = some page := by
  rw [rootMade, setPage_ne hne, setPage_ne hn₀, extend_of_ne (ne_newNumber hgrow hn), hn]

theorem rootMade_new (hgrow : t.Grows) (hr : t.pages 0 = some (.rootPtr r))
    (hp : t.pages L = some (.leaf p)) : (rootMade t r L p).pages t.newNumber =
      some (t.blank t.reads ⟨t.tableid, t.newNumber, .internal⟩) := by
  rw [rootMade, setPage_ne (ne_newNumber hgrow hp).symm, setPage_ne (ne_newNumber hgrow hr).symm,
    extend_new]

theorem rootMade_old (hgrow : t.Grows) (hr : t.pages 0 = some (.rootPtr r))
    (hp : t.pages L = some (.leaf p)) (hL : L ≠ 0) :
    (t.extend .internal).pages 0 = some (.rootPtr r) ∧
      ((t.extend .internal).setPage 0 (.rootPtr (toNewRoot t r))).pages L = some (.leaf p) := by
  constructor
  · rw [extend_of_ne (ne_newNumber hgrow hr), hr]
  · rw [setPage_ne hL, extend_of_ne (ne_newNumber hgrow hp), hp]

theorem rootMade_has (hgrow : t.Grows) (hr : t.pages 0 = some (.rootPtr r))
    (hp : t.pages L = some (.leaf p)) (hL : L ≠ 0) {id : BTreePageId} (hid : t.Has id) :
    (rootMade t r L p).Has id := by
  obtain ⟨hroot, hleaf⟩ := rootMade_old hgrow hr hp hL
  have hid₁ : ((t.extend .internal).setPage 0 (.rootPtr (toNewRoot t r))).Has id :=
    (hid.extend hgrow).setPage hroot rfl rfl
  exact hid₁.setPage hleaf rfl rfl

theorem rootMade_placed (hplaced : t.Placed) (hgrow : t.Grows)
    (hr : t.pages 0 = some (.rootPtr r)) (hp : t.pages L = some (.leaf p)) (hL : L ≠ 0)
    {q : BTreeInternalPage}
    (hblank : t.blank t.reads ⟨t.tableid, t.newNumber, .internal⟩ = .internal q)
    (hqid : q.pid = ⟨t.tableid, t.newNumber, .internal⟩) : (rootMade t r L p).Placed := by
  obtain ⟨hroot, hleaf⟩ := rootMade_old hgrow hr hp hL
  have hplaced₁ : ((t.extend .internal).setPage 0 (.rootPtr (toNewRoot t r))).Placed :=
    (hplaced.extend hgrow (show BTreePageType.internal ≠ .rootPtr by decide) hblank hqid
      rfl).setPage hroot rfl rfl
  exact hplaced₁.setPage hleaf rfl rfl

theorem rootMade_rooted (hrooted : t.Rooted root) (hgrow : t.Grows)
    (hr : t.pages 0 = some (.rootPtr r)) (hheader : r.header = 0)
    (hp : t.pages L = some (.leaf p)) (hL : L ≠ 0) :
    (rootMade t r L p).Rooted ⟨t.tableid, t.newNumber, .internal⟩ := by
  have hN : t.newNumber ≠ 0 := (ne_newNumber hgrow hr).symm
  have hrtable : r.pid.tableId = t.tableid := by
    obtain ⟨-, x, hx, hid, -⟩ := hrooted.has
    rw [show t.pages 0 = some x from hx] at hr
    cases hr
    exact congrArg BTreePageId.tableId hid
  refine ⟨rootMade_has hgrow hr hp hL hrooted.has, toNewRoot t r, ?_, hheader, ?_⟩
  · rw [rootMade, setPage_ne hL.symm, setPage_self]
  · rw [toNewRoot, BTreeRootPtrPage.getRootId, if_neg hN, hrtable]

theorem rootMade_grown : GrownBy 1 t (rootMade t r L p) :=
  ((GrownBy.extend t .internal).setPage 0 _).setPage L _

theorem RowsMoved.makeRoot (hm : RowsMoved t t₃ L R p p' r') (hgrow : t₃.Grows)
    (hr : t₃.pages 0 = some (.rootPtr r)) (hp : t.pages L = some (.leaf p)) (hL : L ≠ 0)
    (hnL : p.rightSibling ≠ L) :
    RowsMoved t (rootMade t₃ r L p') L R p { p' with parent := t₃.newNumber } r' where
  tableid := hm.tableid
  keyField := hm.keyField
  pageSize := hm.pageSize
  has id hid := rootMade_has hgrow hr hm.left hL (hm.has id hid)
  has_right := rootMade_has hgrow hr hm.left hL hm.has_right
  fresh := hm.fresh
  left := setPage_self
  right := by
    have hRL : R ≠ L := by
      rintro rfl
      rw [hm.fresh] at hp
      cases hp
    exact rootMade_keeps hgrow hm.right (HasNode.ne_zero ⟨hm.has_right, .inl rfl⟩) hRL
  next n hn := by
    refine rootMade_keeps hgrow (hm.next n hn) (fun h₀ => ?_) hnL
    have := hm.next n hn
    rw [h₀, hr] at this
    cases this
  other n page hn hn₀ hne hnext :=
    rootMade_keeps hgrow (hm.other n page hn hn₀ hne hnext) hn₀ hne

theorem RowsMoved.new_fresh (hm : RowsMoved t t₃ L R p p' r') (hplaced : t.Placed)
    (hgrow : t₃.Grows) : t.pages t₃.newNumber = none := by
  cases hpage : t.pages t₃.newNumber with
  | none => rfl
  | some page =>
    obtain ⟨hnum, hhas⟩ := hplaced _ page hpage
    obtain ⟨-, page', hpage', -⟩ := hm.has _ hhas
    rw [hnum, hgrow.fresh] at hpage'
    cases hpage'

end

/-- The second part of a split of the root. -/
theorem Legal.split_root (h : Legal td T rank root leaves t) (hL : L ∈ leaves)
    (hp : t.pages L = some (.leaf p)) (hnL : p.rightSibling ≠ L) (hhalves : Halves t L R v p p' r')
    (hm : RowsMoved t t₃ L R p p' r') (hplaced : t.Placed) (hplaced₃ : t₃.Placed)
    (hrooted : t₃.Rooted root) (hgrow : t₃.Grows) (hfresh : t₃.FreshPages td)
    (hparent : p.parent = 0)
    (hentries : 1 ≤ BTreeInternalPage.maxEntries t.pageSize td t.keyField) :
    ∃ P q' t₅, LeafSplit t t₅ L R P v L [] [] p { p' with parent := P } { r' with parent := P } q' ∧
      t.pages P = none ∧ q'.parent = 0 ∧ t₅.Placed ∧ t₅.Rooted ⟨t.tableid, P, .internal⟩ ∧
      GrownBy 1 t₃ t₅ ∧ ∀ fuel, ∃ t₄, getParentWithEmptySlots (fuel + 1) (BTreePage.getParentId t.tableid p.parent)
          (some (.int v)) t₃ = .ok P t₄ ∧
        enterSplit P (some (.int v)) ⟨t.tableid, L, .leaf⟩ ⟨t.tableid, R, .leaf⟩ t₄ =
          .ok () t₅ := by
  obtain ⟨hroot, -⟩ := h.root_leaf hL hp hparent
  have hleaf := h.legalLeaf hL hp
  have htable := hm.tableid
  obtain ⟨r, hr, hheader, hrootId⟩ := hrooted.page
  rw [hroot, ← htable] at hrootId
  obtain ⟨q, hblank, hqid, hqtd, hqkey, hqslots, hunused, hqparent, hqcat⟩ :=
    hfresh.internal t₃.reads ⟨t₃.tableid, t₃.newNumber, .internal⟩ rfl
  have hL₀ := Legal.ne_zero_of_has (h.leaf_has hL)
  have hhasL : t₃.Has ⟨t₃.tableid, L, .leaf⟩ := htable ▸ hm.has _ (h.leaf_has hL).has
  have hN₀ : t₃.newNumber ≠ 0 := (ne_newNumber hgrow hr).symm
  have hmake : BTreeFile.makeRoot t₃ = .ok t₃.newNumber (rootMade t₃ r L p') :=
    makeRoot_run hrooted.has hr hheader hrootId hhasL hm.left hgrow hblank hqid hL₀
  have hplaced₄ := rootMade_placed hplaced₃ hgrow hr hm.left hL₀ hblank hqid
  have hrooted₄ := rootMade_rooted hrooted hgrow hr hheader hm.left hL₀
  have hm₄ := hm.makeRoot hgrow hr hp hL₀ hnL
  have hq₄ : (rootMade t₃ r L p').pages t₃.newNumber = some (.internal q) :=
    (rootMade_new hgrow hr hm.left).trans (congrArg some hblank)
  have hslots : 2 ≤ q.numSlots := by
    rw [hqslots, hm.pageSize, hm.keyField]
    omega
  have hempty := BTreeInternalPage.numEmptySlots_of_unused hunused
  rw [BTreeInternalPage.getMaxEntries] at hempty
  obtain ⟨q', hentry, hframe, hcat', hfilled⟩ : ∃ q', q.insertEntry
      (BTreeInternalPage.splitEntry q.pid.tableId v L R .leaf) = .ok q' ∧ q'.SameFrame q ∧
        q'.childCategory = .leaf ∧ q'.Filled L ([] ++ (v, R) :: []) :=
    BTreeInternalPage.insertEntry_first (by rw [hqtd, hqkey, hm.keyField]; exact h.key) hqcat hslots
      hunused
  have hqid' : q.pid = ⟨(rootMade t₃ r L p').tableid, t₃.newNumber, .internal⟩ := hqid
  rw [hqid'] at hentry
  have hchild : ∀ c ∈ BTreeInternalPage.childList L ([] ++ []),
      t.HasNode ⟨t.tableid, c, .leaf⟩ := by
    intro c hc
    obtain rfl := List.mem_singleton.mp hc
    exact h.leaf_has hL
  have hfreshN := hm.new_fresh hplaced hgrow
  have hsplit := LeafSplit.enter hm₄ hhalves hnL hq₄ hframe
    (hqid.trans (by rw [htable])) (hqtd.trans hleaf.schema.symm)
    (hqkey.trans (hm.keyField.trans hleaf.keyField.symm)) hcat' hfilled rfl
    (fun c hc => ⟨hchild c hc, fun hne => absurd (List.mem_singleton.mp hc) hne⟩)
    (List.pairwise_singleton _ _) (fun page hpage => by rw [hfreshN] at hpage; cases hpage)
  have hid : (BTreeFilePage.internal q').getId = (BTreeFilePage.internal q).getId := hframe.pid
  refine ⟨t₃.newNumber, q', _, hsplit, hfreshN, hframe.parent.trans hqparent,
    (hplaced₄.setPage hq₄ hid rfl).adopt _ _, ?_, (rootMade_grown.setPage _ _).adopt _ _, ?_⟩
  · rw [← htable]
    exact (hrooted₄.setPage hq₄ hid rfl hN₀).adopt _ _
  · intro fuel
    refine ⟨rootMade t₃ r L p', ?_, ?_⟩
    · have hpage : parentPage (BTreePage.getParentId t.tableid p.parent) t₃ =
          .ok t₃.newNumber (rootMade t₃ r L p') := by
        rw [parentPage, hparent, BTreePage.getParentId, if_pos rfl, if_pos rfl, hmake]
      rw [getParentWithEmptySlots, bind_ok hpage, bind_ok (internalAt_run hq₄), if_neg (by omega)]
      rfl
    · have hleaves := fun c => hm₄.children (c := c) (v := v) hq₄ hchild
      have hrun := enterSplit_run hN₀ hq₄ hqid' hentry hframe hfilled (by simp) hcat' hleaves
      rw [← htable]
      exact hrun

end Root

section Whole

variable {v R P first f : Int32} {pre post : List (Int32 × Int32)} {q' : BTreeInternalPage}
  {T₁ : KeyTree Int32 Int} {rank₁ : Int32 → ℕ} {root' : BTreePageId}

/-- The rows of a full leaf in its two halves, which are in order and whose record ids name their
slots; the key of the entry is that of the first row of the new leaf. -/
structure Divided (p p' r' : BTreeLeafPage) (v : Int32) : Prop where
  left : p'.rows = p.rows.take (p.numSlots / 2)
  left_length : p'.rows.length = p.numSlots / 2
  right : r'.rows.Perm (p.rows.drop (p.numSlots / 2))
  right_length : r'.rows.length = (p.numSlots + 1) / 2
  left_ordered : KeyOrdered p.keyField p'.rows
  right_ordered : KeyOrdered p.keyField r'.rows
  first : ∃ row rest, r'.rows = row :: rest ∧ v.toInt = intKey p.keyField row
  left_rid : ∀ i tuple, p'.tuple? i = some tuple → tuple.rid = some ⟨.btree p'.pid, i⟩
  right_rid : ∀ i tuple, r'.tuple? i = some tuple → tuple.rid = some ⟨.btree r'.pid, i⟩

/-- The parent before the entry: the old one with what it has, or a new root with the old leaf. -/
def OldParent (t : LogicalTree) (root root' : BTreePageId) (L P first : Int32)
    (pre post : List (Int32 × Int32)) (p : BTreeLeafPage) : Prop :=
  (p.parent = P ∧ root' = root ∧
      ∃ q, t.pages P = some (.internal q) ∧ q.Filled first (pre ++ post)) ∨
    (p.parent = 0 ∧ root' = ⟨t.tableid, P, .internal⟩ ∧ t.pages P = none ∧ first = L ∧ pre = [] ∧
      post = [])

theorem LeafSplit.divided (hs : LeafSplit t t' L R P v first pre post p p' r' q')
    (hordered : KeyOrdered p.keyField p.rows) (hfull : p.getNumEmptySlots = 0) :
    Divided p p' r' v := by
  have hcount := p.rows_length_add_empty
  have hn : p.rows.length = p.numSlots := by omega
  obtain ⟨hl, hr, -, -, hhigh⟩ := hs.keys hordered
  obtain ⟨keep, row, moved, hrows, hkeep, hv, hleft, hright⟩ := hs.halves.rows
  have hrows : p.rows = keep ++ row :: moved := hrows
  have hkeep : keep.length = p.numSlots / 2 := hn ▸ hkeep
  have hperm : r'.rows.Perm (row :: moved) := by
    have := insertRows_perm p.keyField (row :: moved) []
    rw [List.append_nil] at this
    exact hright ▸ this
  have hlen : keep.length + (row :: moved).length = p.numSlots := by
    rw [← hn, hrows, List.length_append]
  refine
    { left := ?_, left_length := by rw [hleft, hkeep], right := ?_, right_length := ?_
      left_ordered := hl, right_ordered := hr, first := ?_
      left_rid := fun i tuple h => (p'.of_tuple? h).2
      right_rid := fun i tuple h => (r'.of_tuple? h).2 }
  · rw [hleft, hrows, ← hkeep, List.take_left]
  · rw [hrows, ← hkeep, List.drop_left]
    exact hperm
  · rw [hperm.length_eq]
    omega
  · -- no row of the new leaf is before the one with the key of the entry
    have hrow : row ∈ r'.rows := hperm.mem_iff.mpr List.mem_cons_self
    cases hrest : r'.rows with
    | nil =>
      rw [hrest] at hrow
      cases hrow
    | cons x rest =>
      refine ⟨x, rest, rfl, le_antisymm (hhigh x (by rw [hrest]; exact List.mem_cons_self)).2 ?_⟩
      rw [show v.toInt = intKey p.keyField row from hv]
      rw [hrest] at hr hrow
      rcases List.mem_cons.mp hrow with rfl | hrow
      · exact le_rfl
      · exact (List.pairwise_cons.mp hr).1 row hrow

theorem LeafSplit.chosen_inRange (hs : LeafSplit t t' L R P v first pre post p p' r' q')
    (hleaf : LegalLeaf td T t L p) (hpar : Parented T T₁ P root' leaves)
    (hsplit : T₁.Splits T' rank₁ P L R first v.toInt (intEntries pre) (intEntries post))
    (hf : T.InRange L f.toInt) : T'.InRange (if f.toInt < v.toInt then L else R) f.toInt := by
  have hk := hs.key_inRange hleaf hpar
  have hf₁ := hpar.range L _ hf
  split
  · exact hsplit.inRange_left hk hf₁ (le_of_lt ‹_›)
  · exact hsplit.inRange_right hk hf₁ (not_lt.mp ‹_›)

theorem Legal.parented (h : Legal td T rank root leaves t) (P : Int32) :
    Parented T T P root leaves where
  node _ _ := rfl
  range _ _ hw := hw
  before _ _ hab := hab
  root_mem := h.root_mem
  root_top := h.root_top
  top := h.top
  child := h.child

def raise (T : KeyTree Int32 Int) (Q L : Int32) : KeyTree Int32 Int :=
  ⟨Function.update T.node Q (some (L, []))⟩

theorem Legal.raises (h : Legal td T rank root leaves t) (hL : L ∈ leaves)
    (htop : ∀ n, ¬ T.Child n L) (hP : t.pages P = none) : T.Raises (raise T P L) rank P L := by
  obtain ⟨hnode, hchild, hmem⟩ := h.not_node hP
  exact
    { balanced := h.balanced, node := by simp [raise]
      others := fun n hn => Function.update_of_ne hn _ _
      new_leaf := hnode, fresh := hchild, top := htop
      ne := fun heq => hmem (heq ▸ hL) }

theorem Legal.parented_raise (h : Legal td T rank root leaves t) (hL : L ∈ leaves)
    (hroot : root = ⟨t.tableid, L, .leaf⟩) (hraise : T.Raises T₁ rank P L) (tableid : Int32)
    (type : BTreePageType) : Parented T T₁ P ⟨tableid, P, type⟩ leaves where
  node n hn := hraise.others n hn
  range _ _ hw := hraise.inRange_iff.mpr hw
  before _ _ hab := hraise.before_iff.mpr hab
  root_mem := .inl (by rw [hraise.node]; rfl)
  root_top n hchild := by
    rcases hraise.child_iff.mp hchild with hchild | ⟨-, heq⟩
    · exact hraise.fresh n hchild
    · exact hraise.ne heq.symm
  top n hn := by
    by_cases heq : n = P
    · exact .inl heq
    · rw [hraise.others n heq] at hn
      rcases h.top n hn with hroot' | ⟨m, hchild⟩
      · rw [hroot] at hroot'
        exact .inr ⟨P, hraise.child_iff.mpr (.inr ⟨rfl, hroot'⟩)⟩
      · exact .inr ⟨m, hraise.child_iff.mpr (.inl hchild)⟩
  child n c hchild := by
    rcases hraise.child_iff.mp hchild with hchild | ⟨-, rfl⟩
    · have hc : c ≠ P := fun heq => hraise.fresh n (heq ▸ hchild)
      rw [hraise.others c hc]
      exact h.child n c hchild
    · exact .inr hL

theorem Legal.raise_splits (h : Legal td T rank root leaves t) (hL : L ∈ leaves)
    (hraise : T.Raises (raise T P L) rank P L) (hR : t.pages R = none) (hRL : R ≠ L) (hRP : R ≠ P)
    (v : Int32) :
    (raise T P L).Splits (enterNode T P L v R [] []) (Function.update rank P (rank L + 1)) P L R L
      v.toInt (intEntries []) (intEntries []) := by
  obtain ⟨hRnode, hRchild, -⟩ := h.not_node hR
  exact
    { balanced := hraise.balanced_after, before := hraise.node
      after := by simp [enterNode, intEntries]
      others := fun n hn => (Function.update_of_ne hn _ _).trans (hraise.others n hn).symm
      left := rfl
      left_leaf := (hraise.others L hraise.ne).trans (h.node_leaf hL)
      right_leaf := (hraise.others R hRP).trans hRnode
      fresh := fun n hchild => by
        rcases hraise.child_iff.mp hchild with hchild | ⟨-, heq⟩
        · exact hRchild n hchild
        · exact hRL heq }

theorem rowsMoved_rooted (hrooted : t.Rooted root) (hgrow : t.Grows)
    (hhas : ∀ id, t.Has id → (rowsMoved t L p p' r').Has id) (hL : (0 : Int32) ≠ L) :
    (rowsMoved t L p p' r').Rooted root := by
  obtain ⟨r, hr, hroot⟩ := hrooted.page
  refine ⟨hhas _ hrooted.has, r, ?_, hroot⟩
  rw [rowsMoved_other hL (ne_newNumber hgrow hr), hr]
  intro _ q hq
  rw [hr] at hq
  cases hq

/-- A split whose parent has room, or is a new root: the run, the pages and the tree. -/
theorem Legal.splitLeaf {A B : List Int32} (h : Legal td T rank root (A ++ L :: B) t)
    (hplaced : t.Placed) (hrooted : t.Rooted root) (hfresh : t.FreshPages td) (hroom : t.Roomy 1)
    (hroom₂ : p.parent = 0 → t.Roomy 2) (hp : t.pages L = some (.leaf p))
    (hfull : p.getNumEmptySlots = 0) (hcap : 1 ≤ p.numSlots)
    (hentries : p.parent = 0 → 1 ≤ BTreeInternalPage.maxEntries t.pageSize td t.keyField)
    (hparent : p.parent = 0 ∨
      ∃ q, t.pages p.parent = some (.internal q) ∧ q.getNumEmptySlots ≠ 0) (fuel : ℕ) (f : Int32) :
    ∃ t' R P v first pre post p' r' q' T' rank' root',
      splitLeafPage (fuel + 1) L (.int f) t = .ok (if f.toInt < v.toInt then L else R) t' ∧
      LeafSplit t t' L R P v first pre post p p' r' q' ∧
      OldParent t root root' L P first pre post p ∧
      Legal td T' rank' root' (A ++ L :: R :: B) t' ∧ t'.Placed ∧ t'.Rooted root' ∧
      (T.InRange L f.toInt → T'.InRange (if f.toInt < v.toInt then L else R) f.toInt) ∧
      (∀ n, n ≠ P → T'.node n = T.node n) ∧ ∃ k ≤ 2, GrownBy k t t' := by
  have hL : L ∈ A ++ L :: B := by simp
  have hleaf := h.legalLeaf hL hp
  have hL₀ := Legal.ne_zero_of_has (h.leaf_has hL)
  have hgrow := hplaced.grows (k := 0) hroom
  have hne : p.rows ≠ [] := by
    have hcount := p.rows_length_add_empty
    rintro hnil
    rw [hnil, List.length_nil] at hcount
    omega
  obtain ⟨-, hnL⟩ := h.sibling hrooted hL hp
  obtain ⟨p', r', v, hhalves, -, hplaced₃, hhas, hrun⟩ :=
    h.split_rows hplaced hrooted hfresh hgrow hL hp hne
  have hm := rowsMoved_spec hgrow hp hhalves hnL hplaced₃ hhas
  have hrooted₃ := rowsMoved_rooted hrooted hgrow hhas hL₀.symm
  by_cases hzero : p.parent = 0
  · obtain ⟨hroot, htop⟩ := h.root_leaf hL hp hzero
    have hgrow₃ : (rowsMoved t L p p' r').Grows :=
      hplaced₃.grows (k := 0) ((hroom₂ hzero).grown rowsMoved_grown)
    obtain ⟨P, q', t₅, hs, hfreshP, hzero', hplaced₅, hrooted₅, hgrown, hend⟩ := h.split_root hL hp hnL
      hhalves hm hplaced hplaced₃ hrooted₃ hgrow₃ (hfresh.grown rowsMoved_grown) hzero
      (hentries hzero)
    obtain ⟨t₄, hget, henter⟩ := hend fuel
    have hraise := h.raises hL htop hfreshP
    have hpar := h.parented_raise hL hroot hraise t.tableid .internal
    have hRL : t.newNumber ≠ L := fun heq => by rw [← heq, hm.fresh] at hp; cases hp
    have hRP : t.newNumber ≠ P := fun heq => by
      have := hs.right
      rw [heq, hs.parent] at this
      cases this
    have hsplit := h.raise_splits hL hraise hm.fresh hRL hRP v
    have hroot₅ : t₅.HasNode ⟨t.tableid, P, .internal⟩ := by
      obtain ⟨-, hhasP⟩ := hplaced₅ P _ hs.parent
      rw [show (BTreeFilePage.internal q').getId = _ from hs.parent_pid] at hhasP
      exact ⟨hhasP, .inr rfl⟩
    refine ⟨t₅, _, P, v, L, [], [], _, _, q', _, _, _, hrun _ f P t₄ t₅ hget henter, hs,
      .inr ⟨hzero, rfl, hfreshP, rfl, rfl, rfl⟩,
      hs.legal h hp hpar hsplit hroot₅ ⟨_, hs.parent, congrArg some hzero'⟩, hplaced₅, hrooted₅,
      hs.chosen_inRange hleaf hpar hsplit, ?_, 2, le_rfl, rowsMoved_grown.trans hgrown⟩
    exact fun n hn => (hsplit.others n hn).trans (hpar.node n hn)
  · obtain ⟨q, hq, hempty⟩ := hparent.resolve_left hzero
    obtain ⟨first, pre, post, q', t₅, hs, hfilled, hsplit, hpid, ht₅, hend⟩ :=
      h.split_child hrooted hL hp hhalves hm hzero hq hempty
    obtain ⟨hget, henter⟩ := hend fuel
    have hpar := h.parented p.parent
    have hrootL : root.pgNo ≠ L := by
      intro heq
      obtain ⟨page, hpage, hparent₀⟩ := h.root_parent
      rw [heq, hp] at hpage
      cases hpage
      exact hzero (Option.some.inj hparent₀)
    have hroot₅ : t₅.HasNode root := ⟨hs.has _ h.root_node.has, h.root_node.node⟩
    have hrootpage : ∃ page, t₅.pages root.pgNo = some page ∧ page.parent? = some 0 := by
      obtain ⟨page, hpage, hparent₀⟩ := h.root_parent
      obtain ⟨page', hpage', hsame⟩ := hs.kept hpage h.root_node.ne_zero hrootL
      exact ⟨page', hpage', hsame.trans hparent₀⟩
    have hPL : p.parent ≠ L := ((h.leaf_has hL).has.ne_internal hq).symm
    have hq₃ := hm.other _ _ hq hzero hPL fun _ _ => by simp
    have hid : (BTreeFilePage.internal q').getId = (BTreeFilePage.internal q).getId := hpid
    refine ⟨t₅, _, p.parent, v, first, pre, post, _, _, q', _, _, _,
      hrun _ f p.parent _ t₅ hget henter, hs, .inl ⟨rfl, rfl, q, hq, hfilled⟩,
      hs.legal h hp hpar hsplit hroot₅ hrootpage, ?_, ?_, hs.chosen_inRange hleaf hpar hsplit,
      hsplit.others, 1, by omega, ?_⟩
    · rw [ht₅]
      exact (hplaced₃.setPage hq₃ hid rfl).adopt _ _
    · rw [ht₅]
      exact (hrooted₃.setPage hq₃ hid rfl hzero).adopt _ _
    · rw [ht₅]
      exact (rowsMoved_grown.setPage _ _).adopt _ _

/-- A split of a full leaf keeps the tree legal. The old leaf has the first half of its rows and the
new one the others, the parent has one entry more, and the chain runs through the new leaf. A tuple
with the key of the split can go into the leaf that is returned. -/
theorem splitLeafPage_legal {A B : List Int32} (h : Legal td T rank root (A ++ L :: B) t)
    (hplaced : t.Placed) (hrooted : t.Rooted root) (hfresh : t.FreshPages td) (hroom : t.Roomy 2)
    (hp : t.pages L = some (.leaf p)) (hfull : p.getNumEmptySlots = 0) (hcap : 2 ≤ p.numSlots)
    (hparent : p.parent = 0 ∨
      ∃ q, t.pages p.parent = some (.internal q) ∧ q.getNumEmptySlots ≠ 0)
    (hf : T.InRange L f.toInt) (fuel : ℕ) :
    ∃ t' R P v first pre post p' r' q' T' rank' root',
      splitLeafPage (fuel + 1) L (.int f) t = .ok (if f.toInt < v.toInt then L else R) t' ∧
      LeafSplit t t' L R P v first pre post p p' r' q' ∧
      OldParent t root root' L P first pre post p ∧
      Divided p p' r' v ∧
      Legal td T' rank' root' (A ++ L :: R :: B) t' ∧ t'.Placed ∧ t'.Rooted root' ∧
      ∀ tuple : Tuple, tuple.td = td → tuple.getField t.keyField = .ok (.int f) →
        ∃ l q slot, t'.pages (if f.toInt < v.toInt then L else R) = some (.leaf l) ∧
          l.insertTuple tuple = .ok (q, tuple.setRecordId (some ⟨.btree l.pid, slot⟩)) ∧
          Legal td T' rank' root' (A ++ L :: R :: B)
            (t'.setPage (if f.toInt < v.toInt then L else R) (.leaf q)) := by
  obtain ⟨t', R, P, v, first, pre, post, p', r', q', T', rank', root', hrun, hs, hold, hlegal,
    hplaced', hrooted', hchosen, -, -⟩ := h.splitLeaf hplaced hrooted hfresh
      (hroom.of_le one_le_two) (fun _ => hroom) hp hfull (one_le_two.trans hcap)
      (fun _ => maxEntries_pos h.key ((h.legalLeaf (by simp) hp).numSlots ▸ hcap)) hparent fuel f
  have hdivided := hs.divided (h.legalLeaf (by simp) hp).ordered hfull
  refine ⟨t', R, P, v, first, pre, post, p', r', q', T', rank', root', hrun, hs, hold, hdivided,
    hlegal, hplaced', hrooted', ?_⟩
  intro tuple htd hkey
  rw [← hs.keyField] at hkey
  have hin := hchosen hf
  by_cases hlt : f.toInt < v.toInt
  · simp only [if_pos hlt] at hin ⊢
    have hroom' : 0 < p'.getNumEmptySlots := by
      have hcount := p'.rows_length_add_empty
      rw [hdivided.left_length, hs.halves.left.numSlots] at hcount
      change _ = p.numSlots at hcount
      omega
    obtain ⟨q, slot, hinsert, -, hlegal'⟩ :=
      hlegal.insertTuple (by simp) hs.left hroom' htd hkey hin
    exact ⟨p', q, slot, hs.left, hinsert, hlegal'⟩
  · simp only [if_neg hlt] at hin ⊢
    have hroom' : 0 < r'.getNumEmptySlots := by
      have hcount := r'.rows_length_add_empty
      rw [hdivided.right_length, hs.halves.right_numSlots] at hcount
      change _ = p.numSlots at hcount
      omega
    obtain ⟨q, slot, hinsert, -, hlegal'⟩ :=
      hlegal.insertTuple (by simp) hs.right hroom' htd hkey hin
    exact ⟨r', q, slot, hs.right, hinsert, hlegal'⟩

end Whole

section Example

/-- A leaf for two integers without any. -/
def blankLeaf (id : BTreePageId) : BTreeLeafPage where
  pid := id
  td := .ofInts 1
  header := [0]
  tuples := [.empty, .empty]
  numSlots := 2
  header_bits := two_in_byte
  tuples_length := rfl
  stored := by
    intro i u _ hbit
    simp [Bitmap.get] at hbit
  keyField := 0
  parent := 0
  leftSibling := 0
  rightSibling := 0

/-- The leaf with the key 5 twice. -/
def fullLeaf : BTreeLeafPage :=
  let t (i : ℕ) : Tuple := ⟨.ofInts 1, [.int 5], some ⟨.btree ⟨7, 1, .leaf⟩, i⟩, typed_int 5⟩
  { blankLeaf ⟨7, 1, .leaf⟩ with
    header := [3]
    tuples := [t 0, t 1]
    header_bits := two_in_byte
    tuples_length := rfl
    stored := by
      intro i u hu _
      match i with
      | 0 =>
        cases hu
        exact ⟨rfl, rfl⟩
      | 1 =>
        cases hu
        exact ⟨rfl, rfl⟩
      | i + 2 => cases hu }

/-- An internal page for one entry without any. -/
def blankInternal (id : BTreePageId) : BTreeInternalPage where
  pid := id
  td := .ofInts 1
  keyField := 0
  parent := 0
  childCategory := .rootPtr
  header := [0]
  keys := [none, none]
  children := [0, 0]
  numSlots := 2
  header_bits := two_in_byte
  keys_length := rfl
  children_length := rfl

/-- A tree whose root is a full leaf. -/
def fullRoot : LogicalTree where
  tableid := 7
  keyField := 0
  pageSize := 21
  limit := ⊤
  clearGrowth := 0
  blank _ id := if id.type = .leaf then .leaf (blankLeaf id) else .internal (blankInternal id)
  reads := 0
  size := 30
  pages n :=
    if n = 0 then some (.rootPtr ⟨⟨7, 0, .rootPtr⟩, 1, 0, .leaf⟩)
    else if n = 1 then some (.leaf fullLeaf) else none

theorem fullRoot_hasNode : fullRoot.HasNode ⟨7, 1, .leaf⟩ :=
  ⟨⟨⟨by decide, le_top, by decide⟩, _, rfl, rfl, rfl⟩, .inl rfl⟩

theorem fullRoot_legal : Legal (.ofInts 1) noNodes (fun _ => 0) ⟨7, 1, .leaf⟩ [1] fullRoot := by
  have hrows : fullLeaf.rows = [[.int 5], [.int 5]] := by decide
  have hordered : KeyOrdered fullLeaf.keyField fullLeaf.rows := by
    rw [hrows, KeyOrdered, List.pairwise_pair]
  exact Legal.leafRoot rfl fullRoot_hasNode rfl rfl rfl rfl rfl rfl rfl hordered

theorem fullRoot_placed : fullRoot.Placed := by
  intro n page hpage
  change (if n = 0 then _ else if n = 1 then _ else none) = some page at hpage
  split at hpage
  · cases hpage
    subst n
    exact ⟨rfl, ⟨by decide, le_top, by decide⟩, _, rfl, rfl, rfl⟩
  · split at hpage
    · cases hpage
      subst n
      exact ⟨rfl, fullRoot_hasNode.has⟩
    · cases hpage

theorem fullRoot_rooted : fullRoot.Rooted ⟨7, 1, .leaf⟩ :=
  ⟨⟨⟨by decide, le_top, by decide⟩, _, rfl, rfl, rfl⟩, _, rfl, rfl, rfl⟩

theorem fullRoot_fresh : fullRoot.FreshPages (.ofInts 1) := by
  constructor
  · intro k id htype
    have hrows : (blankLeaf id).rows = [] := by
      have hnone : ∀ i, (blankLeaf id).row? i = none := fun i =>
        if_neg (show ¬ Bitmap.get [0] i = true by simp [Bitmap.get])
      change [0, 1].filterMap (blankLeaf id).row? = _
      simp [hnone]
    exact ⟨blankLeaf id, if_pos htype, rfl, rfl, rfl, rfl, hrows, rfl, rfl, rfl⟩
  · intro k id htype
    have hne : id.type ≠ .leaf := by rw [htype]; decide
    have hunused : ∀ i < 2, (blankInternal id).isSlotUsed i = false :=
      fun i _ => show Bitmap.get [0] i = false by simp [Bitmap.get]
    exact ⟨blankInternal id, if_neg hne, rfl, rfl, rfl, rfl, hunused, rfl, .inl rfl⟩

theorem fullRoot_roomy : fullRoot.Roomy 2 := ⟨by decide, by decide, le_top, by decide⟩

/-- The split of a root with the key 5 twice. -/
theorem fullRoot_split : ∃ (t' : LogicalTree) (R v : Int32) (T' : KeyTree Int32 Int)
    (rank' : Int32 → ℕ) (root' : BTreePageId),
    splitLeafPage 1 1 (.int 5) fullRoot = .ok (if (5 : Int32).toInt < v.toInt then 1 else R) t' ∧
      Legal (.ofInts 1) T' rank' root' [1, R] t' := by
  obtain ⟨t', R, P, v, first, pre, post, p', r', q', T', rank', root', hrun, -, -, -, hlegal, -⟩ :=
    splitLeafPage_legal (A := []) (B := []) (f := 5) fullRoot_legal fullRoot_placed fullRoot_rooted
      fullRoot_fresh fullRoot_roomy rfl (show fullLeaf.getNumEmptySlots = 0 by decide) le_rfl
      (.inl rfl) noNodes_inRange 0
  exact ⟨t', R, v, T', rank', root', hrun, hlegal⟩

end Example

end PagedDb
