import PagedDb.BTree.DeleteFails
import PagedDb.BTree.HoledPages
import PagedDb.BTree.MinOccupancy
import PagedDb.BTree.SafeRuns

/-!
# Deletions from legal trees

A deletion from a leaf that stays half full, or from the root, takes out one row
and nothing else. From another leaf it returns only where the leaf is the first
child of its parent and the next one can spare tuples; everywhere else the code
fails, at an assertion or in a loop without end.
-/

namespace PagedDb

open Exec LogicalTree BTreeFile KeyTree

section Merge

/-- Internal pages are the same, and leaves have the siblings they had. -/
structure OnlyTuples (t t' : LogicalTree) : Prop where
  has : ∀ id, t.Has id → t'.Has id
  internal : ∀ n q, t.pages n = some (.internal q) → t'.pages n = some (.internal q)
  leaf : ∀ n p, t.pages n = some (.leaf p) → ∃ p', t'.pages n = some (.leaf p') ∧ p'.SameFrame p

namespace OnlyTuples

variable {t t' t'' : LogicalTree} {n : Int32}

theorem refl (t : LogicalTree) : OnlyTuples t t :=
  ⟨fun _ h => h, fun _ _ h => h, fun _ p h => ⟨p, h, rfl, rfl, rfl, rfl, rfl, rfl, rfl⟩⟩

theorem trans (h : OnlyTuples t t') (h' : OnlyTuples t' t'') : OnlyTuples t t'' := by
  refine ⟨fun id hid => h'.has id (h.has id hid), fun n q hq => h'.internal n q (h.internal n q hq),
    fun n p hp => ?_⟩
  obtain ⟨p', hp', hframe⟩ := h.leaf n p hp
  obtain ⟨p'', hp'', hframe'⟩ := h'.leaf n p' hp'
  exact ⟨p'', hp'', hframe'.trans hframe⟩

theorem setLeaf {p q : BTreeLeafPage} (hp : t.pages n = some (.leaf p)) (hframe : q.SameFrame p) :
    OnlyTuples t (t.setPage n (.leaf q)) := by
  have hid : (BTreeFilePage.leaf q).getId = (BTreeFilePage.leaf p).getId := hframe.pid
  refine ⟨fun id h => h.setPage hp hid rfl, (SameAbove.setLeaf hp hframe.parent).internal, ?_⟩
  intro m r hr
  by_cases hm : m = n
  · subst hm
    rw [hp] at hr
    cases hr
    exact ⟨q, setPage_self, hframe⟩
  · exact ⟨r, by rw [setPage_ne hm, hr], rfl, rfl, rfl, rfl, rfl, rfl, rfl⟩

end OnlyTuples

variable {t : LogicalTree} {L R P : Int32} {l r : BTreeLeafPage} {q : BTreeInternalPage}

theorem moveTuple_onlyTuples (hl : t.pages L = some (.leaf l)) (hr : t.pages R = some (.leaf r))
    (tuple : Tuple) : Avoids stuck (fun _ t' => OnlyTuples t t') (moveTuple L R tuple t) := by
  rw [moveTuple, bind_ok (leafAt_run hl)]
  apply Avoids.bind_lift BTreeLeafPage.deleteTuple_ne_stuck
  rintro ⟨l', tuple'⟩ hdelete
  have hframe := BTreeLeafPage.of_deleteTuple hdelete
  have hid : (BTreeFilePage.leaf l').getId = (BTreeFilePage.leaf l).getId := hframe.pid
  have h₁ := OnlyTuples.setLeaf hl hframe
  obtain ⟨r₁, hr₁, -⟩ := h₁.leaf R r hr
  dsimp only
  rw [bind_ok (store_run hl hid.symm), modifyLeaf, bind_ok (leafAt_run hr₁)]
  refine Avoids.bind_lift (map_ne_error BTreeLeafPage.insertTuple_ne_stuck _) fun r' hmap => ?_
  obtain ⟨⟨r', u⟩, hinsert, rfl⟩ := of_except_map hmap
  obtain ⟨-, -, hframe', -⟩ := BTreeLeafPage.of_insertTuple hinsert
  have hid' : (BTreeFilePage.leaf r').getId = (BTreeFilePage.leaf r₁).getId := hframe'.pid
  rw [store_run hr₁ hid'.symm]
  exact h₁.trans (.setLeaf hr₁ hframe')

theorem mergeTuples_onlyTuples (hl : t.pages L = some (.leaf l)) (hr : t.pages R = some (.leaf r))
    (fuel : ℕ) (it : BTreeLeafPageIterator) :
    Avoids stuck (fun _ t' => OnlyTuples t t') (mergeTuples L R fuel it t) := by
  induction fuel generalizing t l r it with
  | zero => exact nofun
  | succ fuel ih =>
    rw [mergeTuples, bind_ok (leafAt_run hr)]
    split
    · apply Avoids.bind_lift BTreeLeafPageIterator.get_ne_stuck
      intro tuple _
      apply (moveTuple_onlyTuples hr hl tuple).bind
      intro _ t₁ h₁
      obtain ⟨l₁, hl₁, -⟩ := h₁.leaf L l hl
      obtain ⟨r₁, hr₁, -⟩ := h₁.leaf R r hr
      rw [bind_ok (leafAt_run hr₁)]
      exact (ih hl₁ hr₁ _).mono fun _ _ => h₁.trans
    · exact .refl t

theorem siblingNumber_ne_stuck (tableId : Int32) (id : Option BTreePageId) :
    BTreeLeafPage.siblingNumber tableId id ≠ .error stuck := by
  unfold BTreeLeafPage.siblingNumber
  split
  · exact nofun
  · split
    · exact nofun
    · simp [stuck]

theorem modifyLeaf_above {f : BTreeLeafPage → Except Fault BTreeLeafPage}
    (hl : t.pages L = some (.leaf l)) (hf : f l ≠ .error stuck)
    (hsame : ∀ l', f l = .ok l' → l'.pid = l.pid ∧ l'.parent = l.parent) :
    Avoids stuck (fun _ t' => (∀ id, t.Has id → t'.Has id) ∧ SameAbove t t')
      (modifyLeaf L f t) := by
  rw [modifyLeaf, bind_ok (leafAt_run hl)]
  apply Avoids.bind_lift hf
  intro l' hl'
  obtain ⟨hpid, hparent⟩ := hsame l' hl'
  have hid : (BTreeFilePage.leaf l').getId = (BTreeFilePage.leaf l).getId := hpid
  rw [store_run hl hid.symm]
  exact ⟨fun id h => h.setPage hl hid rfl, .setLeaf hl hparent⟩

theorem setRightSibling_above (hl : t.pages L = some (.leaf l)) (id : Option BTreePageId) :
    Avoids stuck (fun _ t' => (∀ id, t.Has id → t'.Has id) ∧ SameAbove t t')
      (modifyLeaf L (fun p => p.setRightSiblingId id) t) := by
  apply modifyLeaf_above hl
  · exact bind_ne_error (siblingNumber_ne_stuck _ _) fun _ _ => pure_ne_error _ _
  · intro l' hl'
    obtain ⟨_, -, heq⟩ := of_except_bind hl'
    cases heq
    exact ⟨rfl, rfl⟩

theorem linkNext_above (hr : r.rightSibling ≠ 0 → t.Has ⟨r.pid.tableId, r.rightSibling, .leaf⟩)
    (id : BTreePageId) :
    Avoids stuck (fun _ t' => SameAbove t t') (linkNext r.getRightSiblingId id t) := by
  rw [BTreeLeafPage.getRightSiblingId, BTreeLeafPage.siblingId]
  by_cases hzero : r.rightSibling = 0
  · rw [if_pos hzero]
    exact .refl t
  · rw [if_neg hzero]
    obtain ⟨hin, page, hpage, hid, hkind⟩ := hr hzero
    cases page with
    | leaf next =>
      simp only [linkNext]
      rw [bind_ok ((hr hzero).getPage .readWrite)]
      apply (modifyLeaf_above hpage _ _).mono fun _ _ h => h.2
      · exact bind_ne_error (siblingNumber_ne_stuck _ _) fun _ _ => pure_ne_error _ _
      · intro l' hl'
        obtain ⟨_, -, heq⟩ := of_except_bind hl'
        cases heq
        exact ⟨rfl, rfl⟩
    | rootPtr p => cases hkind
    | header p => cases hkind
    | internal p => cases hkind

/-- A merge of leaves fails where it takes the entry out of the parent, not at a page. -/
theorem mergeLeafPages_fails {handleParent : Int32 → EStateM Fault LogicalTree Unit}
    {entry : BTreeEntry} {slot : ℕ} (hl : t.pages L = some (.leaf l))
    (hr : t.pages R = some (.leaf r)) (hq : t.pages P = some (.internal q))
    (hrid : entry.rid = some ⟨.btree q.pid, slot⟩)
    (hnext : r.rightSibling ≠ 0 → t.Has ⟨r.pid.tableId, r.rightSibling, .leaf⟩) :
    Avoids stuck (fun _ _ => False) (mergeLeafPages handleParent L R P entry t) := by
  rw [mergeLeafPages, bind_ok (leafAt_run hr)]
  apply (mergeTuples_onlyTuples hl hr _ _).bind
  intro _ t₁ h₁
  obtain ⟨l₁, hl₁, -⟩ := h₁.leaf L l hl
  obtain ⟨r₁, hr₁, hframe⟩ := h₁.leaf R r hr
  rw [bind_ok (leafAt_run hr₁)]
  apply (setRightSibling_above hl₁ r₁.getRightSiblingId).bind
  rintro _ t₂ ⟨hhas₂, habove₂⟩
  obtain ⟨l₂, hl₂, -⟩ := habove₂.leaf L l₁ hl₁
  rw [bind_ok (leafAt_run hl₂)]
  have hnext₂ : r₁.rightSibling ≠ 0 → t₂.Has ⟨r₁.pid.tableId, r₁.rightSibling, .leaf⟩ := by
    rw [hframe.pid, hframe.rightSibling]
    exact fun hne => hhas₂ _ (h₁.has _ (hnext hne))
  apply (linkNext_above hnext₂ l₂.pid).bind
  intro _ t₃ habove₃
  have hq₃ := habove₃.internal P q (habove₂.internal P q (h₁.internal P q hq))
  have hfail : deleteParentEntry handleParent L P entry t₃ = .error .assertion t₃ := by
    rw [deleteParentEntry, bind_ok (internalAt_run hq₃)]
    apply bind_error
    rw [show q.deleteKeyAndRightChild entry = .error .assertion from
      BTreeInternalPage.deleteEntry_own hrid true, lift_error]
  rw [bind_error hfail]
  simp [Avoids, stuck]

end Merge

section Occupancy

variable {td : TupleDesc} {T : KeyTree Int32 Int} {rank : Int32 → ℕ} {root : BTreePageId}
  {leaves : List Int32} {t : LogicalTree} {n : Int32} {p : BTreeLeafPage}
  {handleParent : Int32 → EStateM Fault LogicalTree Unit}

theorem pageIdAt_leaf (hp : t.pages n = some (.leaf p)) : pageIdAt n t = .ok p.pid t := by
  rw [pageIdAt, bind_ok (load_run hp)]
  rfl

theorem handlePage_root (hp : t.pages n = some (.leaf p)) (hzero : p.parent = 0)
    (hpid : p.pid = ⟨t.tableid, n, .leaf⟩) : handlePage handleParent n t = .ok () t := by
  have hid : getParentId n t = .ok (BTreePage.getParentId t.tableid p.parent) t :=
    getParentId_run hp rfl (by rw [BTreeFilePage.getId, hpid])
  rw [handlePage, bind_ok (pageIdAt_leaf hp), bind_ok hid, hzero, BTreePage.getParentId, if_pos rfl,
    if_neg (by simp), hpid, if_pos rfl, handleMinOccupancyLeafPage, bind_ok (leafAt_run hp)]
  rfl

/-- Below a parent, what happens is decided by what the search for the siblings finds. -/
theorem Holed.handlePage_eq (h : Holed td T rank root leaves t) (hn : n ∈ leaves)
    (hp : t.pages n = some (.leaf p)) (hparent : p.parent ≠ 0) :
    ∃ q first e es, t.pages p.parent = some (.internal q) ∧
      LegalInternal td T t.compact p.parent q.compact first (e :: es) ∧ q.isSlotUsed 0 = true ∧
      (∀ c, q.childId c = ⟨t.tableid, c, .leaf⟩) ∧
      ∀ handleParent, handlePage handleParent n t = (do
        let siblings ← lift
          (if q.isSlotUsed 1 = true then
            if n = q.childAt 0 then .ok (none, some q.firstEntry) else .error .outOfFuel
          else .ok (none, none))
        handleMinOccupancyLeafPage handleParent n (some p.parent) siblings.1 siblings.2 :
          EStateM Fault LogicalTree Unit) t := by
  obtain ⟨q', first, pre, post, hq', hint, hlast, hcategory⟩ :=
    h.compact.leaf_parent hn (compact_leaf.mpr hp) hparent
  obtain ⟨q, hq, rfl⟩ := compact_internal.mp hq'
  obtain ⟨e, es, hentries⟩ := List.exists_cons_of_ne_nil hint.ne_nil
  rw [hentries] at hint
  have hsome : (T.node p.parent).isSome := by rw [hint.node]; rfl
  have hzero := h.zeroth p.parent q hsome hq
  obtain ⟨hpid, -⟩ := h.leaf_id hn hp
  obtain ⟨hqid, hqnode⟩ := h.compact.pageId (.inl hsome) hq'
  have hget : TreeStore.getPage ⟨t.tableid, p.parent, .internal⟩ .readWrite t = .ok p.parent t :=
    (compact_hasNode.mp hqnode).has.getPage .readWrite
  have hchildId : ∀ c, q.childId c = ⟨t.tableid, c, .leaf⟩ := by
    intro c
    rw [BTreeInternalPage.childId, show q.childCategory = _ from hcategory,
      show q.pid = _ from hqid]
    rfl
  have hid : getParentId n t = .ok ⟨t.tableid, p.parent, .internal⟩ t := by
    rw [getParentId_run hp rfl (by rw [BTreeFilePage.getId, hpid]), BTreePage.getParentId,
      if_neg hparent]
  have hslots := hint.filled.slots
  rw [List.length_cons, BTreeInternalPage.compact_numSlots] at hslots
  obtain ⟨it, hbegin, hsiblings⟩ := siblingEntries_eq (q := q) (by omega) hzero n
  refine ⟨q, first, e, es, hq, hint, hzero, hchildId, fun handleParent => ?_⟩
  rw [← hsiblings q.numSlots, hchildId n, ← hpid, handlePage, bind_ok (pageIdAt_leaf hp),
    bind_ok hid, if_pos (show BTreePageType.internal ≠ .rootPtr by decide), bind_ok hget,
    bind_ok (internalAt_run hq), bind_ok (lift_run hbegin t), hpid]
  rfl

/-- The second child of a parent of leaves is a leaf. -/
theorem Holed.secondLeaf (h : Holed td T rank root leaves t) {P first : Int32} {q : BTreeInternalPage}
    {e : Int32 × Int32} {es : List (Int32 × Int32)}
    (hint : LegalInternal td T t.compact P q.compact first (e :: es)) (hzero : q.isSlotUsed 0 = true)
    (hone : q.isSlotUsed 1 = true) (hchildId : ∀ c, q.childId c = ⟨t.tableid, c, .leaf⟩) :
    q.childAt 1 ∈ leaves ∧ t.HasNode ⟨t.tableid, q.childAt 1, .leaf⟩ := by
  obtain ⟨-, -, hsecond⟩ := hint.filled.first_entry hzero hone
  have hmem : q.childAt 1 ∈ BTreeInternalPage.childList first (e :: es) := by
    simp [BTreeInternalPage.childList, hsecond]
  have hhas := compact_hasNode.mp (hint.children _ hmem)
  rw [show q.compact.childId _ = q.childId _ from rfl, hchildId] at hhas
  refine ⟨(h.compact.child P _ ⟨first, _, hint.node, by simp [hsecond]⟩).resolve_left
    fun hsome => ?_, hhas⟩
  obtain ⟨⟨f, es'⟩, hnode⟩ := Option.isSome_iff_exists.mp hsome
  obtain ⟨q', _, -, hq', -⟩ := h.compact.internal _ f es' hnode
  obtain ⟨q₀, hq₀, -⟩ := compact_internal.mp hq'
  obtain ⟨-, page, hpage, -, hkind⟩ := hhas.has
  change t.pages (q.childAt 1) = some page at hpage
  rw [hq₀] at hpage
  cases hpage
  cases hkind

theorem Holed.maxEmptySlots_le_iff (h : Holed td T rank root leaves t) {m : Int32}
    {r : BTreeLeafPage} (hn : n ∈ leaves) (hp : t.pages n = some (.leaf p)) (hm : m ∈ leaves)
    (hr : t.pages m = some (.leaf r)) :
    maxEmptySlots p.numSlots ≤ r.getNumEmptySlots ↔ r.rows.length ≤ p.numSlots / 2 := by
  have hslots : r.numSlots = p.numSlots := by
    rw [(h.legalLeaf hm hr).numSlots, (h.legalLeaf hn hp).numSlots]
  have hle := getNumTuples_le r
  rw [getNumEmptySlots_leaf, ← BTreeLeafPage.getNumTuples_eq, hslots]
  rw [hslots] at hle
  exact BTreeFile.maxEmptySlots_le_iff hle

/-- For a leaf with a parent the code looks at the first two slots of the parent. -/
theorem Holed.handlePage_child (h : Holed td T rank root leaves t) (hn : n ∈ leaves)
    (hp : t.pages n = some (.leaf p)) (hparent : p.parent ≠ 0) :
    ∃ q first e es, t.pages p.parent = some (.internal q) ∧
      LegalInternal td T t.compact p.parent q.compact first (e :: es) ∧ q.isSlotUsed 0 = true ∧
      (q.isSlotUsed 1 = false → ∀ handleParent, handlePage handleParent n t = .ok () t) ∧
      (q.isSlotUsed 1 = true → n ≠ q.childAt 0 →
        ∀ handleParent, handlePage handleParent n t = .error .outOfFuel t) ∧
      (q.isSlotUsed 1 = true → n = q.childAt 0 →
        ∃ r, q.childAt 1 ∈ leaves ∧ t.pages (q.childAt 1) = some (.leaf r) ∧
          ∀ handleParent, handlePage handleParent n t = if r.rows.length ≤ p.numSlots / 2 then
              mergeLeafPages handleParent n (q.childAt 1) p.parent q.firstEntry t
            else stealFromLeafPage n (q.childAt 1) p.parent q.firstEntry true t) := by
  obtain ⟨q, first, e, es, hq, hint, hzero, hchildId, hrun⟩ := h.handlePage_eq hn hp hparent
  refine ⟨q, first, e, es, hq, hint, hzero, ?_, ?_, ?_⟩
  · intro hnone handleParent
    rw [hrun, if_neg (by simp [hnone]), bind_ok (lift_ok _ t)]
    dsimp only
    rw [handleMinOccupancyLeafPage, bind_ok (leafAt_run hp)]
    rfl
  · intro hone hne handleParent
    rw [hrun, if_pos hone, if_neg hne]
    rfl
  · intro hone heq
    obtain ⟨hmem, hhas⟩ := h.secondLeaf hint hzero hone hchildId
    obtain ⟨r, hr⟩ := h.leaf hmem
    refine ⟨r, hmem, hr, fun handleParent => ?_⟩
    have hget : TreeStore.getPage (q.childId (q.childAt 1)) .readWrite t = .ok (q.childAt 1) t := by
      rw [hchildId]
      exact hhas.has.getPage .readWrite
    rw [hrun, if_pos hone, if_pos heq, bind_ok (lift_ok _ t)]
    dsimp only
    rw [handleMinOccupancyLeafPage, bind_ok (leafAt_run hp)]
    simp only [BTreeInternalPage.firstEntry]
    rw [bind_ok hget, bind_ok (leafAt_run hr)]
    by_cases hle : r.rows.length ≤ p.numSlots / 2
    · rw [if_pos hle, if_pos ((h.maxEmptySlots_le_iff hn hp hmem hr).mpr hle)]
    · rw [if_neg hle, if_neg ((h.maxEmptySlots_le_iff hn hp hmem hr).not.mpr hle)]

end Occupancy

section Refill

variable {td : TupleDesc} {T : KeyTree Int32 Int} {rank : Int32 → ℕ} {root : BTreePageId}
  {leaves : List Int32} {t : LogicalTree} {P first : Int32} {q : BTreeInternalPage}
  {e : Int32 × Int32} {es : List (Int32 × Int32)} {l r l' r' : BTreeLeafPage}
  {after after₀ : List BTreeEntry} {key : Option Field}

def HalfFull (t : LogicalTree) (root : BTreePageId) (leaves : List Int32) : Prop :=
  ∀ n ∈ leaves, n ≠ root.pgNo → ∀ p, t.pages n = some (.leaf p) → p.numSlots / 2 ≤ p.rows.length

theorem Legal.firstNeighbours (h : Legal td T rank root leaves t)
    (hq : t.pages P = some (.internal q)) (hint : LegalInternal td T t P q first (e :: es))
    (hleft : first ∈ leaves) (hright : e.2 ∈ leaves) :
    ∃ l r after, Neighbours t first e.2 P l r q q.firstEntry [] after := by
  have hnode : T.node P = some (first, [] ++ (e.1.toInt, e.2) :: intEntries es) := hint.node
  obtain ⟨l, r, q', entry, before, after, hn⟩ := h.neighbours hnode hleft hright
  obtain rfl : q' = q := by
    have hparent := hn.parent_page
    rw [hq] at hparent
    cases hparent
    rfl
  have hnodup : (BTreeInternalPage.childList first ([] ++ e :: es)).Nodup := by
    have := h.balanced.nodup P first _ hint.node
    rwa [intEntries_snd] at this
  obtain ⟨j, d, hj, hlt, hused, heq, hbefore, -⟩ := BTreeInternalPage.entriesBehind_split hn.entries
  have hleft' := hn.left_child
  have hright' := hn.right_child
  rw [heq] at hleft' hright'
  have hslots := hint.filled.slots
  have hchild := BTreeInternalPage.childId_inj (Option.some.inj hright')
  obtain rfl : j = 1 + ([] : List (Int32 × Int32)).length :=
    BTreeInternalPage.Filled.slot_eq (a := []) hint.filled hnodup rfl (by omega) hused hchild
  -- slot 1 is the first with an entry
  obtain rfl : before = [] := hbefore
  suffices hentry : entry = q'.firstEntry from ⟨l, r, after, hentry ▸ hn⟩
  rw [heq, BTreeInternalPage.firstEntry, Option.some.inj hleft', hint.filled.first_child]
  rfl

/-- What separates the first two leaves of a page does so wherever the other entries are. -/
theorem Holed.firstNeighbours (h : Holed td T rank root leaves t)
    (hq : t.pages P = some (.internal q))
    (hint : LegalInternal td T t.compact P q.compact first (e :: es))
    (hzero : q.isSlotUsed 0 = true) (hone : q.isSlotUsed 1 = true)
    (hleft : first ∈ leaves) (hright : e.2 ∈ leaves) :
    ∃ l r after after₀, Neighbours t first e.2 P l r q q.firstEntry [] after ∧
      Neighbours t.compact first e.2 P l r q.compact q.compact.firstEntry [] after₀ := by
  obtain ⟨l, r, after₀, hn⟩ :=
    h.compact.firstNeighbours (compact_internal.mpr ⟨q, hq, rfl⟩) hint hleft hright
  have hslots := hint.filled.slots
  rw [List.length_cons, BTreeInternalPage.compact_numSlots] at hslots
  obtain ⟨hfirst, hkey, hsecond⟩ := hint.filled.first_entry hzero hone
  have hsame : q.compact.firstEntry.key = q.firstEntry.key := by
    rw [BTreeInternalPage.firstEntry, BTreeInternalPage.firstEntry, hkey]
    exact (hint.filled.entry 0 e rfl).1
  obtain ⟨after, hlist⟩ := BTreeInternalPage.entryList_eq_cons (by omega) hone
  have hkeys := q.compact_keys hzero (by omega)
  have hafter : after.map BTreeEntry.key = after₀.map BTreeEntry.key := by
    rw [hlist, hn.entries] at hkeys
    exact (List.cons.inj hkeys).2.symm
  refine ⟨l, r, after, after₀, ?_, hn⟩
  constructor
  case left_page => exact compact_leaf.mp hn.left_page
  case right_page => exact compact_leaf.mp hn.right_page
  case parent_page => exact hq
  case ne => exact hn.ne
  case schema => exact hn.schema
  case numSlots => exact hn.numSlots
  case left_key => exact hn.left_key
  case right_key => exact hn.right_key
  case left_sorted => exact hn.left_sorted
  case right_sorted => exact hn.right_sorted
  case entries => exact hlist
  case left_child => rw [← hfirst]; rfl
  case right_child => rw [← hsecond]; rfl
  case keys =>
    rw [← List.pairwise_map (f := BTreeEntry.key) (R := KeyLe), ← hkeys, List.pairwise_map]
    exact hn.keys
  case left_lower => exact fun e' he' => by cases he'
  case left_upper => exact fun row hrow => hsame ▸ hn.left_upper row hrow
  case right_lower => exact fun row hrow => hsame ▸ hn.right_lower row hrow
  case right_upper =>
    intro e' he' row hrow
    have hmem : e'.key ∈ after₀.map BTreeEntry.key := hafter ▸ List.mem_map_of_mem he'
    obtain ⟨e₀, he₀, heq⟩ := List.mem_map.mp hmem
    exact heq ▸ hn.right_upper e₀ he₀ row hrow

/-- Tuples between the first two leaves of a page, seen with its entries at the front. -/
theorem BTreeFile.Rebalanced.compact {left right : Int32} {q' : BTreeInternalPage}
    (hb : Rebalanced t l r q q.firstEntry [] after l' r' q')
    (hn : Neighbours t.compact left right P l r q.compact q.compact.firstEntry [] after₀)
    (hslots : 1 < q.numSlots) (hzero : q.isSlotUsed 0 = true) (hone : q.isSlotUsed 1 = true) :
    q'.isSlotUsed 0 = q.isSlotUsed 0 ∧
      Rebalanced t.compact l r q.compact q.compact.firstEntry [] after₀ l' r' q'.compact := by
  obtain ⟨slot, key, row, rest, hrid, hfirst, hkey, rfl, -⟩ := hb.parent
  cases hrid
  have heq := BTreeInternalPage.compact_setKey hslots hzero hone (some key)
  refine ⟨rfl, ?_⟩
  constructor
  case left_frame => exact hb.left_frame
  case right_frame => exact hb.right_frame
  case perm => exact hb.perm
  case left_sorted => exact hb.left_sorted
  case right_sorted => exact hb.right_sorted
  case left_right => exact hb.left_right
  case left_rids => exact hb.left_rids
  case right_rids => exact hb.right_rids
  case parent =>
    refine ⟨1, key, row, rest, rfl, hfirst, hkey, heq, ?_⟩
    rw [heq]
    exact BTreeInternalPage.entriesBehind_update hn.entries rfl hslots
  case keys =>
    have hkeys := (q.setKey 1 (some key)).compact_keys hzero (Nat.zero_lt_of_lt hslots)
    rw [← List.pairwise_map (f := BTreeEntry.key) (R := KeyLe), hkeys, List.pairwise_map]
    exact hb.keys

/-- The first child of a node takes tuples from the second one. -/
theorem Holed.refillFirst (h : Holed td T rank root leaves t)
    (hhalf : ∀ m ∈ leaves, m ≠ first → m ≠ root.pgNo → ∀ p, t.pages m = some (.leaf p) →
      p.numSlots / 2 ≤ p.rows.length)
    (hq : t.pages P = some (.internal q))
    (hint : LegalInternal td T t.compact P q.compact first (e :: es))
    (hzero : q.isSlotUsed 0 = true) (hone : q.isSlotUsed 1 = true)
    (hleft : first ∈ leaves) (hright : e.2 ∈ leaves) (hl : t.pages first = some (.leaf l))
    (hr : t.pages e.2 = some (.leaf r)) (hfew : l.rows.length + 1 = l.numSlots / 2)
    (hmany : l.numSlots / 2 < r.rows.length) :
    ∃ T' t', stealFromLeafPage first e.2 P q.firstEntry true t = .ok () t' ∧
      Holed td T' rank root leaves t' ∧ (∀ m, (T'.node m).isSome ↔ (T.node m).isSome) ∧
      HalfFull t' root leaves ∧ t.Rewrites t' ∧ (t'.leafRows leaves).Perm (t.leafRows leaves) := by
  obtain ⟨l₀, r₀, after, after₀, hn, hn₀⟩ := h.firstNeighbours hq hint hzero hone hleft hright
  obtain rfl : l₀ = l := by
    have hpage := hn.left_page
    rw [hl] at hpage
    cases hpage
    rfl
  obtain rfl : r₀ = r := by
    have hpage := hn.right_page
    rw [hr] at hpage
    cases hpage
    rfl
  obtain ⟨l', r', q', hrun, hb, hlen⟩ := stealFromRight_spec hn (by omega)
  have hslots := hint.filled.slots
  rw [List.length_cons, BTreeInternalPage.compact_numSlots] at hslots
  obtain ⟨hused, hb₀⟩ := hb.compact hn₀ (by omega) hzero hone
  have hnode : T.node P = some (first, [] ++ (e.1.toInt, e.2) :: intEntries es) := hint.node
  obtain ⟨v, hlegal⟩ := h.compact.rebalanced hnode hleft hright hn₀ hb₀
  have hP : ∀ m ∈ leaves, m ≠ P := by
    rintro m hm rfl
    rw [h.compact.node_leaf hm] at hnode
    cases hnode
  have hnodes := fun m => (setNode_rekeys h.compact.balanced hnode v.toInt).node_isSome_iff (n := m)
  refine ⟨_, _, hrun, ⟨?_, ?_⟩, hnodes, ?_, hb.rewrites hn,
    hb.leafRows_perm hn h.compact.nodup hleft hright fun hm => hP P hm rfl⟩
  · rw [compact_setPage, compact_setPage, compact_setPage]
    exact hlegal
  · intro m q₁ hsome hq₁
    by_cases hmP : m = P
    · subst hmP
      rw [setPage_self] at hq₁
      cases hq₁
      rw [hused, hzero]
    · have hnot : m ∉ leaves := by
        intro hm
        rw [hnodes, h.compact.node_leaf hm] at hsome
        cases hsome
      rw [setPage_ne hmP, setPage_ne (ne_of_mem_of_not_mem hright hnot).symm,
        setPage_ne (ne_of_mem_of_not_mem hleft hnot).symm] at hq₁
      exact h.zeroth m q₁ ((hnodes m).mp hsome) hq₁
  -- the tuples are shared out evenly
  · have htotal := hb.perm.length_eq
    rw [List.length_append, List.length_append] at htotal
    have hslots := hb.left_frame.numSlots
    have hslots' := hb.right_frame.numSlots.trans hn.numSlots
    intro m hm hne p hp
    rw [setPage_ne (hP m hm)] at hp
    by_cases hmr : m = e.2
    · subst hmr
      rw [setPage_self] at hp
      cases hp
      omega
    · rw [setPage_ne hmr] at hp
      by_cases hml : m = first
      · subst hml
        rw [setPage_self] at hp
        cases hp
        omega
      · rw [setPage_ne hml] at hp
        exact hhalf m hm hml hne p hp

end Refill

section Delete

variable {td : TupleDesc} {T : KeyTree Int32 Int} {rank : Int32 → ℕ} {root : BTreePageId}
  {leaves : List Int32} {t : LogicalTree} {n : Int32} {p q : BTreeLeafPage} {u : Tuple} {i : ℕ}
  {row : Row}

/-- The leaf is the first child of its parent, and the next slot there is used and names a leaf with
more than half of its slots used. -/
def HasSpare (t : LogicalTree) (n : Int32) (p : BTreeLeafPage) : Prop :=
  ∃ q r, t.pages p.parent = some (.internal q) ∧ q.isSlotUsed 1 = true ∧ q.childAt 0 = n ∧
    t.pages (q.childAt 1) = some (.leaf r) ∧ p.numSlots / 2 < r.rows.length

/-- A leaf that the code can take a tuple from: it is the root, or it stays half full, or the leaf
behind it can spare one. -/
inductive CanLose (t : LogicalTree) (n : Int32) (p : BTreeLeafPage) : Prop
  | root (h : p.parent = 0) : CanLose t n p
  | full (h : p.numSlots / 2 < p.rows.length) : CanLose t n p
  | spare (h : HasSpare t n p) : CanLose t n p

theorem HasSpare.setLeaf_iff (hp : t.pages n = some (.leaf p)) (hframe : q.SameFrame p)
    (hfew : p.rows.length ≤ p.numSlots / 2) (hfew' : q.rows.length ≤ p.numSlots / 2) :
    HasSpare (t.setPage n (.leaf q)) n q ↔ HasSpare t n p := by
  unfold HasSpare
  rw [hframe.parent, hframe.numSlots]
  constructor
  · rintro ⟨P, r, hP, hone, hfirst, hr, hmany⟩
    have hPn : p.parent ≠ n := by
      intro heq
      rw [heq, setPage_self] at hP
      cases hP
    have hrn : P.childAt 1 ≠ n := by
      intro heq
      rw [heq, setPage_self] at hr
      cases hr
      omega
    rw [setPage_ne hPn] at hP
    rw [setPage_ne hrn] at hr
    exact ⟨P, r, hP, hone, hfirst, hr, hmany⟩
  · rintro ⟨P, r, hP, hone, hfirst, hr, hmany⟩
    have hPn : p.parent ≠ n := by
      intro heq
      rw [heq, hp] at hP
      cases hP
    have hrn : P.childAt 1 ≠ n := by
      intro heq
      rw [heq, hp] at hr
      cases hr
      omega
    exact ⟨P, r, by rw [setPage_ne hPn, hP], hone, hfirst, by rw [setPage_ne hrn, hr], hmany⟩

theorem Legal.rightSibling_has (h : Legal td T rank root leaves t) (hn : n ∈ leaves)
    (hp : t.pages n = some (.leaf p)) (hne : p.rightSibling ≠ 0) :
    t.Has ⟨p.pid.tableId, p.rightSibling, .leaf⟩ := by
  obtain ⟨pre, post, rfl⟩ := List.append_of_mem hn
  obtain ⟨p', hp', -, hright⟩ := h.linked.siblings
  rw [hp] at hp'
  cases hp'
  rw [(h.leaf_id hn hp).1]
  cases post with
  | nil => exact absurd hright hne
  | cons m post =>
    rw [hright]
    exact (h.leaf_has (n := m) (by simp)).has

/-- The leaf without the row, before the tree is looked at. -/
theorem Holed.removeRow (h : Holed td T rank root leaves t) (hn : n ∈ leaves)
    (hp : t.pages n = some (.leaf p)) (hrid : u.rid = some ⟨.btree p.pid, i⟩)
    (hrow : p.row? i = some row) (hi : i < p.numSlots) :
    ∃ q, q.SameFrame p ∧ q.rows.length + 1 = p.rows.length ∧
      Holed td T rank root leaves (t.setPage n (.leaf q)) ∧
      (t.leafRows leaves).Perm (row :: (t.setPage n (.leaf q)).leafRows leaves) ∧
      BTreeFile.deleteTuple u t =
        if q.rows.length < q.numSlots / 2 then
          (handleMinOccupancyPage (t.getNumPages + 1) n >>= fun _ => pure (u.setRecordId none))
            (t.setPage n (.leaf q))
        else .ok (u.setRecordId none) (t.setPage n (.leaf q)) := by
  have hleaf := h.legalLeaf hn hp
  obtain ⟨q, hdelete, hframe, -, hprows, hqrows⟩ := p.deleteTuple_spec hrid hrow hi
  have hsub : q.rows.Sublist p.rows := by
    rw [hprows, hqrows]
    exact (List.sublist_cons_self _ _).append_left _
  have hlen : q.rows.length + 1 = p.rows.length := by
    rw [hprows, hqrows, List.length_append, List.length_append, List.length_cons]
    omega
  refine ⟨q, hframe, hlen, h.setLeaf hn hp hframe ?_ ?_, ?_, ?_⟩
  · rw [hframe.keyField]
    exact hleaf.ordered.sublist hsub
  · intro row' hrow'
    rw [hframe.keyField]
    exact hleaf.range row' (hsub.subset hrow')
  · have hself := leafRows_erase hn (setPage_self (t := t) (n := n) (p := .leaf q))
    rw [leafRows_setPage h.compact.nodup.not_mem_erase] at hself
    refine (leafRows_erase hn hp).trans (.trans ?_ (hself.cons row).symm)
    rw [hprows, hqrows]
    exact List.perm_middle.append_right _
  · obtain ⟨hpid, hnode⟩ := h.leaf_id hn hp
    have hid : (BTreeFilePage.leaf q).getId = (BTreeFilePage.leaf p).getId := hframe.pid
    have hget : TreeStore.getPage ⟨TreeStore.tableid t, p.pid.pgNo, .leaf⟩ .readWrite t =
        .ok n t := by
      rw [hpid]
      exact hnode.has.getPage .readWrite
    rw [deleteTuple_test hrid hget (leafAt_run hp) hdelete (store_run hp hid.symm),
      BTreeLeafPage.getNumTuples_eq]
    rfl

theorem HalfFull.setLeaf {q : BTreeLeafPage} (hhalf : HalfFull t root leaves)
    (hq : n ≠ root.pgNo → q.numSlots / 2 ≤ q.rows.length) :
    HalfFull (t.setPage n (.leaf q)) root leaves := by
  intro m hm hne r hr
  by_cases hmn : m = n
  · subst hmn
    rw [setPage_self] at hr
    cases hr
    exact hq hne
  · rw [setPage_ne hmn] at hr
    exact hhalf m hm hne r hr

theorem Legal.root_iff (h : Legal td T rank root leaves t) (hn : n ∈ leaves)
    (hp : t.pages n = some (.leaf p)) : n = root.pgNo ↔ p.parent = 0 := by
  constructor
  · rintro rfl
    obtain ⟨page, hpage, hzero⟩ := h.root_parent
    rw [hp] at hpage
    cases hpage
    exact Option.some.inj hzero
  · intro hzero
    rcases h.top n (.inr hn) with heq | ⟨m, hchild⟩
    · exact heq
    · obtain ⟨q, page, hq, -, hpage, hparent, -⟩ := h.child_page hchild
      rw [hp] at hpage
      cases hpage
      obtain rfl : m = 0 := (Option.some.inj hparent).symm.trans hzero
      obtain ⟨first, es, hnode, -⟩ := hchild
      exact absurd rfl (h.pageId (.inl (by rw [hnode]; rfl)) hq).2.ne_zero

/-- What happens to a leaf one tuple below half: it is refilled from a leaf that can spare some,
or the search for its siblings finds nothing, or the code fails. -/
theorem Holed.handlePage_cases (h : Holed td T rank root leaves t)
    (hhalf : ∀ m ∈ leaves, m ≠ n → m ≠ root.pgNo → ∀ r, t.pages m = some (.leaf r) →
      r.numSlots / 2 ≤ r.rows.length)
    (hn : n ∈ leaves) (hp : t.pages n = some (.leaf p)) (hparent : p.parent ≠ 0)
    (hfew : p.rows.length + 1 = p.numSlots / 2)
    (handleParent : Int32 → EStateM Fault LogicalTree Unit) :
    (HasSpare t n p ∧ ∃ T' t', handlePage handleParent n t = .ok () t' ∧
      Holed td T' rank root leaves t' ∧ (∀ m, (T'.node m).isSome ↔ (T.node m).isSome) ∧
      HalfFull t' root leaves ∧ t.Rewrites t' ∧ (t'.leafRows leaves).Perm (t.leafRows leaves)) ∨
    (¬ HasSpare t n p ∧ Avoids stuck (fun _ t' => t' = t ∧
      ∃ q, t.pages p.parent = some (.internal q) ∧ q.isSlotUsed 1 = false)
        (handlePage handleParent n t)) := by
  obtain ⟨q, first, e, es, hq, hint, hzero, hhole, hloops, htakes⟩ :=
    h.handlePage_child hn hp hparent
  have hparentPage : ∀ {q'}, t.pages p.parent = some (.internal q') → q' = q := by
    intro q' hq'
    rw [hq] at hq'
    cases hq'
    rfl
  by_cases hone : q.isSlotUsed 1 = true
  · by_cases hchild : n = q.childAt 0
    · obtain ⟨r, hright, hr, hhandle⟩ := htakes hone hchild
      by_cases hmany : r.rows.length ≤ p.numSlots / 2
      · right
        constructor
        · rintro ⟨q', r', hq', -, -, hr', hspare⟩
          obtain rfl := hparentPage hq'
          rw [hr] at hr'
          cases hr'
          omega
        · rw [hhandle, if_pos hmany]
          have hnext : r.rightSibling ≠ 0 → t.Has ⟨r.pid.tableId, r.rightSibling, .leaf⟩ :=
            fun hne => compact_has.mp (h.compact.rightSibling_has hright (compact_leaf.mpr hr) hne)
          exact (mergeLeafPages_fails hp hr hq rfl hnext).mono fun _ _ => False.elim
      · left
        obtain ⟨hfirst, -, hsecond⟩ := hint.filled.first_entry hzero hone
        refine ⟨⟨q, r, hq, hone, hchild.symm, hr, by omega⟩, ?_⟩
        rw [hhandle, if_neg hmany]
        rw [hfirst] at hchild
        subst hchild
        rw [hsecond] at hright hr ⊢
        exact h.refillFirst hhalf hq hint hzero hone hn hright hp hr hfew (by omega)
    · right
      constructor
      · rintro ⟨q', -, hq', -, hfirst, -⟩
        obtain rfl := hparentPage hq'
        exact hchild hfirst.symm
      · rw [hloops hone hchild]
        simp [Avoids, stuck]
  · right
    constructor
    · rintro ⟨q', -, hq', hused, -⟩
      obtain rfl := hparentPage hq'
      exact hone hused
    · have hnone : q.isSlotUsed 1 = false := by simpa using hone
      rw [hhole hnone]
      exact ⟨rfl, q, hq, hnone⟩

/-- A leaf below half, where its parent has nothing in slot 1. -/
structure LeftShort (t : LogicalTree) (root : BTreePageId) (n : Int32) (p : BTreeLeafPage)
    (t' : LogicalTree) : Prop where
  ne_root : n ≠ root.pgNo
  hole : ∃ q, t.pages p.parent = some (.internal q) ∧ q.isSlotUsed 1 = false
  leaf : ∃ q, t' = t.setPage n (.leaf q) ∧ q.rows.length < q.numSlots / 2

/-- A deletion that returns has taken out the one row and keeps the tree legal exactly if the leaf
can lose a tuple. Otherwise it fails, but not at an access to a page, or leaves the leaf short. -/
theorem Holed.deleteTuple_cases (h : Holed td T rank root leaves t) (hhalf : HalfFull t root leaves)
    (hn : n ∈ leaves) (hp : t.pages n = some (.leaf p)) (hrid : u.rid = some ⟨.btree p.pid, i⟩)
    (hrow : p.row? i = some row) :
    (CanLose t n p ∧ ∃ T' t', BTreeFile.deleteTuple u t = .ok (u.setRecordId none) t' ∧
      Holed td T' rank root leaves t' ∧ (∀ m, (T'.node m).isSome ↔ (T.node m).isSome) ∧
      HalfFull t' root leaves ∧ t.Rewrites t' ∧
      (t.leafRows leaves).Perm (row :: t'.leafRows leaves)) ∨
    (¬ CanLose t n p ∧
      Avoids stuck (fun _ t' => LeftShort t root n p t') (BTreeFile.deleteTuple u t)) := by
  have hi : i < p.numSlots := by
    by_contra hle
    rw [p.row?_of_le (Nat.le_of_not_lt hle)] at hrow
    cases hrow
  obtain ⟨q, hframe, hlen, hholed, hperm, hrun⟩ := h.removeRow hn hp hrid hrow hi
  have hslots := hframe.numSlots
  have hrewrites : t.Rewrites (t.setPage n (.leaf q)) := Rewrites.refl.leaf hp hframe
  rw [hrun]
  by_cases hfew : q.rows.length < q.numSlots / 2
  · have hq : (t.setPage n (.leaf q)).pages n = some (.leaf q) := setPage_self
    rw [if_pos hfew, handleMinOccupancyPage]
    by_cases hzero : p.parent = 0
    · -- the root may have any number of tuples
      left
      have hroot := (h.compact.root_iff hn (compact_leaf.mpr hp)).mpr hzero
      refine ⟨.root hzero, T, _, ?_, hholed, fun _ => Iff.rfl,
        hhalf.setLeaf fun hne => absurd hroot hne, hrewrites, hperm⟩
      rw [bind_ok (handlePage_root hq (hframe.parent.trans hzero) (hholed.leaf_id hn hq).1)]
      rfl
    · have hne : n ≠ root.pgNo := (h.compact.root_iff hn (compact_leaf.mpr hp)).not.mpr hzero
      have hhalfp := hhalf n hn hne p hp
      have hother : ∀ m ∈ leaves, m ≠ n → m ≠ root.pgNo → ∀ r,
          (t.setPage n (.leaf q)).pages m = some (.leaf r) → r.numSlots / 2 ≤ r.rows.length := by
        intro m hm hmn hne r hr
        rw [setPage_ne hmn] at hr
        exact hhalf m hm hne r hr
      have hspare := HasSpare.setLeaf_iff hp hframe (by omega) (by omega)
      rcases hholed.handlePage_cases hother hn hq (hframe.parent ▸ hzero) (by omega)
          (handleMinOccupancyPage t.getNumPages) with
        ⟨hhas, T', t', hhandle, hholed', hnodes, hhalf', hrewrites', hperm'⟩ | ⟨hnone, hfails⟩
      · left
        refine ⟨.spare (hspare.mp hhas), T', t', ?_, hholed', hnodes, hhalf',
          hrewrites.trans hrewrites', hperm.trans (hperm'.symm.cons row)⟩
        rw [bind_ok hhandle]
        rfl
      · right
        constructor
        · rintro (hroot | hfull | hhas)
          · exact hzero hroot
          · omega
          · exact hnone (hspare.mpr hhas)
        · apply hfails.bind
          rintro _ _ ⟨rfl, P, hP, hused⟩
          have hPn : p.parent ≠ n := by
            rintro heq
            rw [hframe.parent, heq, hq] at hP
            cases hP
          rw [hframe.parent, setPage_ne hPn] at hP
          exact ⟨hne, ⟨P, hP, hused⟩, q, rfl, hfew⟩
  · left
    rw [if_neg hfew]
    exact ⟨.full (by omega), T, _, rfl, hholed, fun _ => Iff.rfl,
      hhalf.setLeaf fun _ => Nat.le_of_not_lt hfew, hrewrites, hperm⟩

/-- A deletion from a legal tree returns exactly if the leaf can lose a tuple. Then it has taken
out the one row, and the tree is legal; otherwise the code fails, but not at an access to a page. -/
theorem Legal.deleteTuple_cases (h : Legal td T rank root leaves t) (hhalf : HalfFull t root leaves)
    (hn : n ∈ leaves) (hp : t.pages n = some (.leaf p)) (hrid : u.rid = some ⟨.btree p.pid, i⟩)
    (hrow : p.row? i = some row) :
    (CanLose t n p ∧ ∃ T' t', BTreeFile.deleteTuple u t = .ok (u.setRecordId none) t' ∧
      Legal td T' rank root leaves t' ∧ (∀ m, (T'.node m).isSome ↔ (T.node m).isSome) ∧
      HalfFull t' root leaves ∧ t.Rewrites t' ∧
      (t.leafRows leaves).Perm (row :: t'.leafRows leaves)) ∨
    (¬ CanLose t n p ∧ Avoids stuck (fun _ _ => False) (BTreeFile.deleteTuple u t)) := by
  refine (h.holed.deleteTuple_cases hhalf hn hp hrid hrow).imp ?_ ?_
  · rintro ⟨hcan, T', t', hrun, hholed, hnodes, hhalf', hrewrites, hperm⟩
    refine ⟨hcan, T', t', hrun, hholed.compact.of_compact fun m q' hsome hq' => ?_, hnodes, hhalf',
      hrewrites, hperm⟩
    obtain ⟨q, hq, hheader, hslots⟩ := hrewrites.internal hq'
    exact (h.fromFront ((hnodes m).mp hsome) hq).congr hheader hslots
  · rintro ⟨hcannot, hfails⟩
    refine ⟨hcannot, hfails.mono fun _ t' hshort => ?_⟩
    obtain ⟨P, hP, hnone⟩ := hshort.hole
    have hzero : p.parent ≠ 0 :=
      fun hzero => hshort.ne_root ((h.root_iff hn hp).mpr hzero)
    obtain ⟨q, first, pre, post, hq, hint, -, -⟩ := h.leaf_parent hn hp hzero
    rw [hP] at hq
    cases hq
    have hlen : 0 < (pre ++ post).length := List.length_pos_iff.mpr hint.ne_nil
    have hslots := hint.filled.slots
    rw [hint.filled.used 1 (by omega), decide_eq_false_iff_not] at hnone
    exact hnone hlen

/-- A deletion from a legal tree of any height, with an object that names the slot of a row: it
returns exactly if the leaf can lose a tuple, and then the tree is legal, its leaves are the same and
half full, and that row is all that is gone. -/
theorem Legal.losesRow_iff (h : Legal td T rank root leaves t) (hhalf : HalfFull t root leaves)
    (hn : n ∈ leaves) (hp : t.pages n = some (.leaf p)) (hrid : u.rid = some ⟨.btree p.pid, i⟩)
    (hrow : p.row? i = some row) :
    ((∃ v t', BTreeFile.deleteTuple u t = .ok v t') ↔ CanLose t n p) ∧
      ∀ v t', BTreeFile.deleteTuple u t = .ok v t' → v = u.setRecordId none ∧
        (∃ T', Legal td T' rank root leaves t') ∧ HalfFull t' root leaves ∧
        (t.leafRows leaves).Perm (row :: t'.leafRows leaves) := by
  rcases h.deleteTuple_cases hhalf hn hp hrid hrow with
    ⟨hcan, T', t₁, hrun, hlegal, -, hhalf', -, hperm⟩ | ⟨hcannot, hfails⟩
  · refine ⟨⟨fun _ => hcan, fun _ => ⟨_, _, hrun⟩⟩, fun v t' hrun' => ?_⟩
    rw [hrun] at hrun'
    cases hrun'
    exact ⟨rfl, ⟨T', hlegal⟩, hhalf', hperm⟩
  · have hnever : ∀ v t', BTreeFile.deleteTuple u t ≠ .ok v t' := by
      intro v t' hrun
      rw [hrun] at hfails
      exact hfails
    exact ⟨⟨fun ⟨v, t', hrun⟩ => absurd hrun (hnever v t'), fun hcan => absurd hcan hcannot⟩,
      fun v t' hrun => absurd hrun (hnever v t')⟩

end Delete

section Example

theorem intsLeaves_halfFull : HalfFull (intsLeaves 3) ⟨7, 1, .internal⟩ [2, 3] := by
  intro n hn _ p hp
  obtain rfl | rfl : n = 2 ∨ n = 3 := by simpa using hn
  · cases hp
    decide
  · cases hp
    decide

/-- The left leaf gets below half, and takes a tuple of the right one. -/
theorem intsLeaves_losesRow : ∃ t', BTreeFile.deleteTuple
      ⟨.ofInts 1, [.int 5], some ⟨.btree ⟨7, 2, .leaf⟩, 0⟩, rfl⟩ (intsLeaves 3) =
        .ok ⟨.ofInts 1, [.int 5], none, rfl⟩ t' ∧
      ((intsLeaves 3).leafRows [2, 3]).Perm ([.int 5] :: t'.leafRows [2, 3]) := by
  have hiff := Legal.losesRow_iff (n := 2) (p := intsLeaf 2 3 (fun _ => 5) 0 3) (i := 0)
    (u := ⟨.ofInts 1, [.int 5], some ⟨.btree ⟨7, 2, .leaf⟩, 0⟩, rfl⟩)
    intsLeaves_legal intsLeaves_halfFull (by decide) rfl rfl
    (show (intsLeaf 2 3 (fun _ => 5) 0 3).row? 0 = some [.int 5] from rfl)
  obtain ⟨v, t', hrun⟩ := hiff.1.mpr
    (.spare ⟨twoChildren, intsLeaf 3 13 ![5, 0, 5, 7] 2 0, rfl, rfl, rfl, rfl, by decide⟩)
  obtain ⟨rfl, -, -, hperm⟩ := hiff.2 v t' hrun
  exact ⟨t', hrun, hperm⟩

end Example

end PagedDb
