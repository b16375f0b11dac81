import PagedDb.BTree.Connected
import PagedDb.BTree.TreeInsert

/-!
# Insertions into connected files

One statement for each function on the way of an insertion: what it needs of the
file, and what it leaves where it returns.
-/

namespace PagedDb

open Exec LogicalTree BTreeFile

/-- What stands above a leaf while its tuples move: the internal pages, and the parents that the
leaves name. -/
structure SameAbove (t t' : LogicalTree) : Prop where
  internal : ∀ n q, t.pages n = some (.internal q) → t'.pages n = some (.internal q)
  leaf : ∀ n p, t.pages n = some (.leaf p) → ∃ p', t'.pages n = some (.leaf p') ∧
    p'.parent = p.parent

namespace SameAbove

variable {t t' t'' : LogicalTree} {n : Int32}

theorem refl (t : LogicalTree) : SameAbove t t := ⟨fun _ _ h => h, fun _ p h => ⟨p, h, rfl⟩⟩

theorem trans (h : SameAbove t t') (h' : SameAbove t' t'') : SameAbove t t'' := by
  refine ⟨fun n q hq => h'.internal n q (h.internal n q hq), fun n p hp => ?_⟩
  obtain ⟨p', hp', hparent⟩ := h.leaf n p hp
  obtain ⟨p'', hp'', hparent'⟩ := h'.leaf n p' hp'
  exact ⟨p'', hp'', hparent'.trans hparent⟩

theorem setLeaf {p q : BTreeLeafPage} (hp : t.pages n = some (.leaf p))
    (hparent : q.parent = p.parent) : SameAbove t (t.setPage n (.leaf q)) := by
  constructor
  · intro m r hr
    have hm : m ≠ n := by
      rintro rfl
      rw [hp] at hr
      cases hr
    rw [setPage_ne hm, hr]
  · intro m r hr
    by_cases hm : m = n
    · subst hm
      rw [hp] at hr
      cases hr
      exact ⟨q, setPage_self, hparent⟩
    · exact ⟨r, by rw [setPage_ne hm, hr], rfl⟩

theorem extend (hgrow : t.Grows) (type : BTreePageType) : SameAbove t (t.extend type) := by
  have hne : ∀ {m page}, t.pages m = some page → (t.extend type).pages m = some page := by
    intro m page hm
    rw [extend_of_ne, hm]
    rintro rfl
    rw [hgrow.fresh] at hm
    cases hm
  exact ⟨fun m q hq => hne hq, fun m p hp => ⟨p, hne hp, rfl⟩⟩

end SameAbove

variable {F : FileShape} {t t' : LogicalTree} {n L R P : Int32}

namespace Connected

section Leaves

theorem getEmptyPage (h : Connected F t) (hroom : t.Roomy 1) {type : BTreePageType}
    (htype : type = .leaf ∨ type = .internal) :
    t.Grows ∧ BTreeFile.getEmptyPage type t = .ok t.newNumber (t.extend type) := by
  obtain ⟨r, root, hr, -, hheader, -⟩ := h.root
  have hgrow := h.placed.grows (k := 0) hroom
  have hne : type ≠ .rootPtr := by rcases htype with rfl | rfl <;> decide
  refine ⟨hgrow, getEmptyPage_run ?_ hr hheader hgrow hne⟩
  rw [h.tableid]
  exact h.rooted

theorem storeLeaf {p q : BTreeLeafPage} (h : Connected F t) (hp : t.pages n = some (.leaf p))
    (hframe : q.SameFrame p) : Safe F 0 t (fun _ t' => t' = t.setPage n (.leaf q))
      ((TreeStore.store n (.leaf q) : EStateM Fault LogicalTree Unit) t) := by
  have hid : (BTreeFilePage.leaf q).getId = (BTreeFilePage.leaf p).getId := hframe.pid
  rw [store_run hp hid.symm]
  have hpoints := Points.sameFrame (h.points n _ hp) hframe
  exact Safe.ok (h.setPage hp hid rfl hpoints) (.setPage hp hid rfl) rfl

theorem moveTuple (h : Connected F t) (hL : t.Has ⟨F.tableid, L, .leaf⟩)
    (hR : t.Has ⟨F.tableid, R, .leaf⟩) (tuple : Tuple) :
    Safe F 0 t (fun _ t' => SameAbove t t') (BTreeFile.moveTuple L R tuple t) := by
  obtain ⟨p, hp, -⟩ := h.leaf hL
  rw [BTreeFile.moveTuple, bind_ok (leafAt_run hp)]
  apply Avoids.bind_lift BTreeLeafPage.deleteTuple_ne_stuck
  rintro ⟨p', tuple'⟩ hdelete
  have hframe := BTreeLeafPage.of_deleteTuple hdelete
  refine (h.storeLeaf hp hframe).bind (k := 0) ?_
  rintro - t₁ h₁ hl₁ rfl
  obtain ⟨r, hr, -⟩ := h₁.leaf (hl₁.has _ hR)
  rw [BTreeFile.modifyLeaf, bind_ok (leafAt_run hr)]
  refine Avoids.bind_lift (map_ne_error BTreeLeafPage.insertTuple_ne_stuck _) fun r' hmap => ?_
  obtain ⟨⟨r', u⟩, hinsert, rfl⟩ := of_except_map hmap
  obtain ⟨-, -, hframe', -⟩ := BTreeLeafPage.of_insertTuple hinsert
  refine (h₁.storeLeaf hr hframe').mono le_rfl ?_
  rintro - t₂ - - rfl
  exact (SameAbove.setLeaf hp hframe.parent).trans (.setLeaf hr hframe'.parent)

theorem moveTuples (h : Connected F t) (hL : t.Has ⟨F.tableid, L, .leaf⟩)
    (hR : t.Has ⟨F.tableid, R, .leaf⟩) (k : ℕ) (it : BTreeLeafPageIterator) :
    Safe F 0 t (fun _ t' => SameAbove t t') (BTreeFile.moveTuples L R k it t) := by
  induction k generalizing t it with
  | zero => exact Safe.ok h (.refl t) (.refl t)
  | succ k ih =>
    obtain ⟨p, hp, -⟩ := h.leaf hL
    rw [BTreeFile.moveTuples, bind_ok (leafAt_run hp)]
    refine Avoids.bind_lift BTreeLeafPageIterator.get_ne_stuck fun tuple _ => ?_
    refine (h.moveTuple hL hR tuple).bind (k := 0) ?_
    intro _ t₁ h₁ hl₁ habove
    obtain ⟨p₁, hp₁, -⟩ := h₁.leaf (hl₁.has _ hL)
    rw [bind_ok (leafAt_run hp₁)]
    exact (ih h₁ (hl₁.has _ hL) (hl₁.has _ hR) _).mono le_rfl fun _ _ _ _ => habove.trans

/-- The new leaf in the chain. -/
theorem linkRight (h : Connected F t) (hL : t.Has ⟨F.tableid, L, .leaf⟩)
    (hR : t.Has ⟨F.tableid, R, .leaf⟩) (hne : L ≠ R)
    (hnext : ∀ n p, t.pages n = some (.leaf p) → p.rightSibling ≠ R) :
    Safe F 0 t (fun _ t' => SameAbove t t') (BTreeFile.linkRight L R t) := by
  obtain ⟨p, hp, hpid, hpoints⟩ := h.leaf hL
  obtain ⟨r, hr, hrid, hrpoints⟩ := h.leaf hR
  obtain ⟨htd, hkey, hslots, hparent, hright, hnL⟩ := hpoints
  obtain ⟨rp, -, hrp, -⟩ := h.root
  have hsibling : Sibling t p.rightSibling := by
    by_cases hzero : p.rightSibling = 0
    · refine .inl ⟨hzero, fun n hn => ?_⟩
      rw [hrp] at hn
      cases hn
    · obtain ⟨next, hn, -⟩ := h.leaf (hright hzero)
      exact .inr ⟨hzero, h.tableid ▸ hright hzero, next, hn⟩
  have hnR := hnext L p hp
  rw [linkRight_run hp hr hne (by rw [hpid, h.tableid]) (by rw [hrid, h.tableid]) hsibling hnL hnR]
  -- the right sibling, then the two leaves
  obtain ⟨h₁, hl₁, habove₁⟩ : Connected F (relinkLeft t p.rightSibling R) ∧
      Later 0 t (relinkLeft t p.rightSibling R) ∧
        SameAbove t (relinkLeft t p.rightSibling R) := by
    rcases hsibling with ⟨heq, hnone⟩ | ⟨-, -, next, hn⟩
    · rw [heq, relinkLeft_none hnone]
      exact ⟨h, .refl t, .refl t⟩
    · rw [relinkLeft_leaf hn]
      exact ⟨h.setPage hn rfl rfl (h.points _ _ hn : Points F t _ (.leaf next)), .setPage hn rfl rfl,
        .setLeaf hn rfl⟩
  set t₁ := relinkLeft t p.rightSibling R
  have hp₁ : t₁.pages L = some (.leaf p) := by rw [relinkLeft_of_ne hnL.symm, hp]
  have hr₁ : t₁.pages R = some (.leaf r) := by rw [relinkLeft_of_ne hnR.symm, hr]
  have hpoints₁ : Points F t₁ L (.leaf { p with rightSibling := R }) :=
    ⟨htd, hkey, hslots, fun h₀ => hl₁.node (hparent h₀), fun _ => hl₁.has _ hR, hne.symm⟩
  have h₂ : Connected F (t₁.setPage L (.leaf { p with rightSibling := R })) :=
    h₁.setPage hp₁ rfl rfl hpoints₁
  have hl₂ : Later 0 t₁ (t₁.setPage L (.leaf { p with rightSibling := R })) := .setPage hp₁ rfl rfl
  set t₂ := t₁.setPage L (.leaf { p with rightSibling := R })
  have hr₂ : t₂.pages R = some (.leaf r) := by rw [setPage_ne hne.symm, hr₁]
  obtain ⟨htd', hkey', hslots', hparent', -, -⟩ := hrpoints
  have hpoints₂ : Points F t₂ R
      (.leaf { r with rightSibling := p.rightSibling, leftSibling := L }) :=
    ⟨htd', hkey', hslots', fun h₀ => hl₂.node (hl₁.node (hparent' h₀)),
      fun h₀ => hl₂.has _ (hl₁.has _ (hright h₀)), hnR⟩
  have habove₂ : SameAbove t₁ t₂ := .setLeaf hp₁ rfl
  refine Safe.ok ?_ ?_ ?_
  · exact h₂.setPage hr₂ rfl rfl hpoints₂
  · have hl₃ : Later 0 t₂ (t₂.setPage R
        (.leaf { r with rightSibling := p.rightSibling, leftSibling := L })) :=
      .setPage hr₂ rfl rfl
    exact (hl₁.trans hl₂).trans hl₃
  · exact (habove₁.trans habove₂).trans (.setLeaf hr₂ rfl)

end Leaves

section Parents

theorem updateParentPointer (h : Connected F t) (hP : t.HasNode ⟨F.tableid, P, .internal⟩)
    {child : Option BTreePageId} (hchild : ∀ id, child = some id → t.HasNode id) :
    Safe F 0 t (fun _ _ => True)
      (BTreeFile.updateParentPointer ⟨F.tableid, P, .internal⟩ child t) := by
  cases child with
  | none => exact Avoids.throw (show Fault.nullDeref ≠ stuck by simp [stuck])
  | some id =>
    obtain ⟨page, hpage, -, hrun⟩ := updateParentPointer_node hP.ne_zero (hchild id rfl)
    rw [h.tableid] at hrun
    rw [hrun]
    have hpoints := Points.withParent (h.points _ _ hpage) hP
    exact Safe.ok (h.setPage hpage (by simp) (by simp) hpoints)
      (.setPage hpage (by simp) (by simp)) trivial

def Follows (t : LogicalTree) (it : BTreeInternalPageIterator) : Prop :=
  (∀ id, it.prevChildId = some id → t.HasNode id) ∧ ∀ id, it.currChildId = some id → t.HasNode id

theorem follows_next {it it' : BTreeInternalPageIterator} {p : BTreeInternalPage}
    (hpid : p.pid.tableId = F.tableid) (hp : Points F t n (.internal p)) (hit : Follows t it)
    (hnext : it.next p = .ok it') : Follows t it' := by
  simp only [BTreeInternalPageIterator.next] at hnext
  split at hnext
  · obtain ⟨child, hchild, hnext⟩ := of_except_bind hnext
    cases hnext
    exact ⟨hit.2, hp.child hpid hchild⟩
  · cases hnext
    exact ⟨hit.2, hit.2⟩

theorem follows_begin {it : BTreeInternalPageIterator} {p : BTreeInternalPage}
    (hpid : p.pid.tableId = F.tableid) (hp : Points F t n (.internal p))
    (hbegin : p.begin = .ok it) : Follows t it := by
  unfold BTreeInternalPage.begin BTreeInternalPageIterator.new at hbegin
  split at hbegin
  · cases hbegin
    exact ⟨fun _ => nofun, fun _ => nofun⟩
  · obtain ⟨prev, hprev, hbegin⟩ := of_except_bind hbegin
    obtain ⟨curr, hcurr, hbegin⟩ := of_except_bind hbegin
    cases hbegin
    exact ⟨hp.child hpid hprev, hp.child hpid hcurr⟩

theorem Follows.later {k : ℕ} {it : BTreeInternalPageIterator} (h : Follows t it)
    (hl : Later k t t') : Follows t' it :=
  ⟨fun id hid => hl.node (h.1 id hid), fun id hid => hl.node (h.2 id hid)⟩

theorem updateChildren (h : Connected F t) (hP : t.HasNode ⟨F.tableid, P, .internal⟩) (k : ℕ)
    {it : BTreeInternalPageIterator} (hit : Follows t it) {e : Option BTreeEntry}
    (he : ∀ entry id, e = some entry → entry.rightChild = some id → t.HasNode id) :
    Safe F 0 t (fun e t' => ∀ entry id, e = some entry → entry.rightChild = some id → t'.HasNode id)
      (BTreeFile.updateChildren P ⟨F.tableid, P, .internal⟩ k it e t) := by
  induction k generalizing t it e with
  | zero => exact Safe.ok h (.refl t) he
  | succ k ih =>
    obtain ⟨p, hp, hpid, hpoints⟩ := h.internal hP.has
    rw [BTreeFile.updateChildren, bind_ok (internalAt_run hp)]
    split
    · refine Avoids.bind_lift BTreeInternalPageIterator.get_ne_stuck fun item hitem => ?_
      obtain ⟨key, -, hitem⟩ := of_except_bind hitem
      cases hitem
      refine (h.updateParentPointer hP hit.1).bind (k := 0) ?_
      intro _ t₁ h₁ hl₁ _
      have hP₁ := hl₁.node hP
      obtain ⟨p₁, hp₁, hpid₁, hpoints₁⟩ := h₁.internal hP₁.has
      rw [bind_ok (internalAt_run hp₁)]
      refine Avoids.bind_lift BTreeInternalPageIterator.next_ne_stuck fun it' hnext => ?_
      have hit' := follows_next (congrArg BTreePageId.tableId hpid₁) hpoints₁ (hit.later hl₁) hnext
      refine ih h₁ hP₁ hit' ?_
      rintro entry id hentry hid
      cases hentry
      exact hl₁.node (hit.2 id hid)
    · exact Safe.ok h (.refl t) he

theorem updateParentPointers (h : Connected F t) (hP : t.HasNode ⟨F.tableid, P, .internal⟩) :
    Safe F 0 t (fun _ _ => True) (BTreeFile.updateParentPointers P t) := by
  obtain ⟨p, hp, hpid, hpoints⟩ := h.internal hP.has
  rw [BTreeFile.updateParentPointers, bind_ok (internalAt_run hp)]
  refine Avoids.bind_lift BTreeInternalPageIterator.begin_ne_stuck fun it hbegin => ?_
  have hit := follows_begin (congrArg BTreePageId.tableId hpid) hpoints hbegin
  rw [hpid]
  refine (h.updateChildren hP _ hit (e := none) (by simp)).bind (k := 0) ?_
  intro e t₁ h₁ hl₁ he
  cases e with
  | none => exact Safe.ok h₁ (.refl t₁) trivial
  | some entry => exact h₁.updateParentPointer (hl₁.node hP) fun id hid => he entry id rfl hid

theorem enterSplit (h : Connected F t) (hP : t.HasNode ⟨F.tableid, P, .internal⟩)
    (index : Option Field) {left right : BTreePageId} (hleft : t.HasNode left)
    (hright : t.HasNode right) : Safe F 0 t (fun _ _ => True)
      (BTreeFile.enterSplit P index left right t) := by
  obtain ⟨q, hq, -, hpoints⟩ := h.internal hP.has
  have hmodify : Safe F 0 t (fun _ _ => True)
      (modifyInternal P (fun q => q.insertEntry ⟨index, some left, some right, none⟩) t) := by
    rw [modifyInternal, bind_ok (internalAt_run hq)]
    refine Avoids.bind_lift BTreeInternalPage.insertEntry_ne_stuck fun q' hinsert => ?_
    obtain ⟨_, _, hl, hr, henters⟩ := BTreeInternalPage.of_insertEntry hinsert
    cases hl
    cases hr
    have hid : (BTreeFilePage.internal q').getId = (BTreeFilePage.internal q).getId :=
      henters.frame.pid
    have htable : ∀ {id}, t.HasNode id → id.tableId = F.tableid :=
      fun hid => hid.has.1.2.2.1.trans h.tableid
    have hpoints' := hpoints.enters henters hleft hright (htable hleft) (htable hright)
    rw [store_run hq hid.symm]
    exact Safe.ok (h.setPage hq hid rfl hpoints') (.setPage hq hid rfl) trivial
  refine hmodify.bind (k := 0) ?_
  intro _ t₁ h₁ hl₁ _
  exact h₁.updateParentPointers (hl₁.node hP)

end Parents

section Split

/-- A new root above the old one. -/
theorem makeRoot (h : Connected F t) (hroom : t.Roomy 1) :
    Safe F 1 t (fun P t' => t'.HasNode ⟨F.tableid, P, .internal⟩ ∧ ∃ q,
        t'.pages P = some (.internal q) ∧ q.getNumEmptySlots =
          BTreeInternalPage.maxEntries F.pageSize F.td F.keyField) (BTreeFile.makeRoot t) := by
  obtain ⟨hgrow, hempty⟩ := h.getEmptyPage hroom (.inr rfl)
  obtain ⟨r, prev, hr, hrid, hheader, hprev, hnode⟩ := h.root
  obtain ⟨q, hblank, hqid, -, -, hslots, hunused, -, -⟩ :=
    h.fresh.internal t.reads ⟨t.tableid, t.newNumber, .internal⟩ rfl
  have hne : ∀ {m page}, t.pages m = some page → m ≠ t.newNumber := by
    rintro m page hm rfl
    rw [hgrow.fresh] at hm
    cases hm
  have hne₀ := hne hr
  -- the new page
  have h₁ := h.extend hgrow (.inr rfl)
  have hl₁ := Later.extend hgrow .internal
  have hr₁ : (t.extend .internal).pages 0 = some (.rootPtr r) := by rw [extend_of_ne hne₀, hr]
  have hq₁ : (t.extend .internal).pages t.newNumber = some (.internal q) := by
    rw [extend_new, hblank]
  have hnew : (t.extend .internal).HasNode ⟨F.tableid, t.newNumber, .internal⟩ := by
    have hhas := (h₁.placed _ _ hq₁).2
    rw [show (BTreeFilePage.internal q).getId = _ from hqid, h.tableid] at hhas
    exact ⟨hhas, .inr rfl⟩
  have hget₁ : TreeStore.getPage (BTreeRootPtrPage.getId (t.extend .internal).tableid) .readWrite
      (t.extend .internal) = .ok (0 : Int32) (t.extend .internal) := by
    rw [h₁.tableid]
    exact h₁.rooted.getPage .readWrite
  -- the root pointer
  have hset : r.setRootId (some q.pid) =
      .ok { r with root := t.newNumber, rootCategory := .internal } := by
    simp [BTreeRootPtrPage.setRootId, hqid, hrid, h.tableid, BTreeRootPtrPage.getId]
  have hmodify := modifyRootPtr_run (f := fun p => p.setRootId (some q.pid)) hr₁ hset rfl
  set t₁ := t.extend .internal
  have hl₂ : Later 0 t₁ (t₁.setPage 0
      (.rootPtr { r with root := t.newNumber, rootCategory := .internal })) := .setPage hr₁ rfl rfl
  have hpoints : Points F t₁ 0
      (.rootPtr { r with root := t.newNumber, rootCategory := .internal }) := by
    refine ⟨hheader, _, if_neg hne₀.symm, ?_⟩
    rw [hrid]
    exact hnew
  have h₂ : Connected F (t₁.setPage 0
      (.rootPtr { r with root := t.newNumber, rootCategory := .internal })) :=
    h₁.setPage hr₁ rfl rfl hpoints
  set t₂ := t₁.setPage 0 (.rootPtr { r with root := t.newNumber, rootCategory := .internal })
  have hq₂ : t₂.pages t.newNumber = some (.internal q) := by rw [setPage_ne hne₀.symm, hq₁]
  -- the old root
  have hnode₂ := hl₂.node (hl₁.node hnode)
  obtain ⟨page, hpage, hid, hparent⟩ := hnode₂.exists_page
  have hprevnew : prev.pgNo ≠ t.newNumber := by
    obtain ⟨x, hx, -⟩ := hnode.exists_page
    exact hne hx
  have htable : page.getId.tableId = t₂.tableid := by rw [hid, hnode₂.has.1.2.2.1]
  have hrun := setParentId_run (P := t.newNumber) hpage hparent htable
  have hpid : q.pid = ⟨t₂.tableid, t.newNumber, .internal⟩ := hqid
  have hend : BTreeFile.makeRoot t =
      .ok t.newNumber (t₂.setPage prev.pgNo (page.withParent t.newNumber)) := by
    rw [BTreeFile.makeRoot, bind_ok hempty, bind_ok rootPtrId_run, bind_ok hget₁,
      bind_ok (rootPtrAt_run hr₁), bind_ok (internalAt_run hq₁), bind_ok hmodify, hprev]
    simp only
    rw [bind_ok (hnode₂.has.getPage .readWrite), hpid]
    exact (bind_ok hrun).trans rfl
  have hpoints₂ := Points.withParent (h₂.points _ _ hpage) (hl₂.node hnew)
  have hl₃ : Later 0 t₂ (t₂.setPage prev.pgNo (page.withParent t.newNumber)) :=
    .setPage hpage (by simp) (by simp)
  rw [hend]
  refine Safe.ok (h₂.setPage hpage (by simp) (by simp) hpoints₂) ((hl₁.trans hl₂).trans hl₃)
    ⟨hl₃.node (hl₂.node hnew), q, ?_, ?_⟩
  · rw [setPage_ne hprevnew.symm, hq₂]
  · rw [BTreeInternalPage.numEmptySlots_of_unused hunused, BTreeInternalPage.getMaxEntries, hslots,
      h.pageSize, h.keyField, Nat.add_sub_cancel]

/-- A split of an internal page never comes to an end, and does not fail at a missing page. -/
theorem splitInternal_never (h : Connected F t) (hroom : t.Roomy 1)
    (hn : t.Has ⟨F.tableid, n, .internal⟩)
    (getParent : BTreePageId → Option Field → EStateM Fault LogicalTree Int32)
    (field : Option Field) :
    Avoids stuck (fun _ _ => False) (splitInternalWith getParent n field t) := by
  obtain ⟨hgrow, hempty⟩ := h.getEmptyPage hroom (.inr rfl)
  have h₁ := h.extend hgrow (.inr rfl)
  obtain ⟨q, hq, -⟩ := h₁.internal ((Later.extend hgrow .internal).has _ hn)
  have hown : ∀ {it : BTreeInternalPageReverseIterator} {e}, it.get q = .ok e →
      q.deleteKeyAndRightChild e = .error .assertion := by
    intro it e he
    obtain ⟨slot, hrid⟩ := BTreeInternalPage.reverse_get_rid he
    exact BTreeInternalPage.deleteEntry_own hrid true
  have hassert : Fault.assertion ≠ stuck := by simp [stuck]
  rw [splitInternalWith, bind_ok hempty, bind_ok (internalAt_run hq)]
  refine Avoids.bind_lift BTreeInternalPage.rbegin_ne_stuck fun it _ => ?_
  cases (q.getNumEntries + 1) / 2 - 1 with
  | zero =>
    rw [bind_ok (show moveEntries n t.newNumber 0 it _ = .ok it _ from rfl),
      bind_ok (internalAt_run hq)]
    refine Avoids.bind_lift BTreeInternalPageReverseIterator.get_ne_stuck fun e he => ?_
    have hfail : modifyInternal n (fun p => Prod.fst <$> p.deleteKeyAndRightChild e)
        (t.extend .internal) = .error .assertion (t.extend .internal) := by
      rw [modifyInternal, bind_ok (internalAt_run hq), hown he]
      rfl
    rw [bind_error hfail]
    exact hassert
  | succ k =>
    have hmove : Avoids stuck (fun _ _ => False)
        (moveEntries n t.newNumber (k + 1) it (t.extend .internal)) := by
      rw [moveEntries, bind_ok (internalAt_run hq)]
      refine Avoids.bind_lift BTreeInternalPageReverseIterator.get_ne_stuck fun e he => ?_
      rw [hown he]
      exact hassert
    exact hmove.bind fun _ _ => False.elim

/-- The parent with the number `parent` can take an entry; one that is made for the root could. -/
def RoomAbove (F : FileShape) (t : LogicalTree) (parent : Int32) : Prop :=
  (parent ≠ 0 → ∃ q, t.pages parent = some (.internal q) ∧ q.getNumEmptySlots ≠ 0) ∧
    (parent = 0 → BTreeInternalPage.maxEntries F.pageSize F.td F.keyField ≠ 0)

theorem getParentWithEmptySlots (h : Connected F t) (hroom : t.Roomy 2) {parent : Int32}
    (hparent : parent ≠ 0 → t.HasNode ⟨F.tableid, parent, .internal⟩) (fuel : ℕ)
    (field : Option Field) :
    Safe F 1 t (fun P t' => t'.HasNode ⟨F.tableid, P, .internal⟩ ∧ RoomAbove F t parent)
      (BTreeFile.getParentWithEmptySlots fuel (BTreePage.getParentId F.tableid parent) field t) := by
  cases fuel with
  | zero => exact Avoids.throw (show Fault.outOfFuel ≠ stuck by simp [stuck])
  | succ fuel =>
    have hpage : Safe F 1 t (fun P t' => ∃ q, t'.HasNode ⟨F.tableid, P, .internal⟩ ∧
        t'.pages P = some (.internal q) ∧ (q.getNumEmptySlots ≠ 0 → RoomAbove F t parent))
        (parentPage (BTreePage.getParentId F.tableid parent) t) := by
      by_cases hzero : parent = 0
      · rw [parentPage, BTreePage.getParentId, if_pos hzero, if_pos rfl]
        refine (h.makeRoot (hroom.of_le one_le_two)).mono le_rfl ?_
        rintro P t' - - ⟨hnode, q, hq, hslots⟩
        exact ⟨q, hnode, hq, fun hne => ⟨fun hne₀ => absurd hzero hne₀, fun _ => hslots ▸ hne⟩⟩
      · obtain ⟨q, hq, -⟩ := h.internal (hparent hzero).has
        rw [parentPage, BTreePage.getParentId, if_neg hzero,
          if_neg (show BTreePageType.internal ≠ .rootPtr by decide),
          (hparent hzero).has.getPage .readWrite]
        exact Safe.ok h ((Later.refl t).mono zero_le_one) ⟨q, hparent hzero, hq, fun hne =>
          ⟨fun _ => ⟨q, hq, hne⟩, fun hzero' => absurd hzero' hzero⟩⟩
    refine hpage.bind (k := 0) ?_
    rintro P t₁ h₁ hl₁ ⟨q, hnode, hq, habove⟩
    rw [bind_ok (internalAt_run hq)]
    split
    · exact Safe.of_never (h₁.splitInternal_never (hl₁.roomy hroom) hnode.has _ field)
    · exact Safe.ok h₁ (.refl t₁) ⟨hnode, habove ‹_›⟩

/-- What can be said about a leaf that has been split. -/
theorem splitLeafPage (h : Connected F t) (hroom : t.Roomy 3)
    (hL : t.Has ⟨F.tableid, L, .leaf⟩) (fuel : ℕ) (field : Field) :
    Safe F 2 t (fun C t' => t'.Has ⟨F.tableid, C, .leaf⟩ ∧ field.getType = .intType ∧
        ∀ p, t.pages L = some (.leaf p) → RoomAbove F t p.parent)
      (BTreeFile.splitLeafPage fuel L field t) := by
  obtain ⟨hgrow, hempty⟩ := h.getEmptyPage (hroom.of_le (by omega)) (.inl rfl)
  have h₁ := h.extend hgrow (.inl rfl)
  have hl₁ := Later.extend hgrow .leaf
  obtain ⟨r, hblank, hrid, -, -, -, -, -, hright, -⟩ :=
    h.fresh.leaf t.reads ⟨t.tableid, t.newNumber, .leaf⟩ rfl
  have hr₁ : (t.extend .leaf).pages t.newNumber = some (.leaf r) := by rw [extend_new, hblank]
  have hne : ∀ {m page}, t.pages m = some page → m ≠ t.newNumber := by
    rintro m page hm rfl
    rw [hgrow.fresh] at hm
    cases hm
  have hR₁ : (t.extend .leaf).Has ⟨F.tableid, t.newNumber, .leaf⟩ := by
    have hhas := (h₁.placed _ _ hr₁).2
    rwa [show (BTreeFilePage.leaf r).getId = _ from hrid, h.tableid] at hhas
  obtain ⟨p, hp, -, hpoints⟩ := h.leaf hL
  have hnext : ∀ n p, (t.extend .leaf).pages n = some (.leaf p) → p.rightSibling ≠ t.newNumber := by
    intro n q hq
    obtain ⟨rp, -, hrp, -⟩ := h.root
    by_cases hn : n = t.newNumber
    · rw [hn, hr₁] at hq
      cases hq
      rw [hright]
      exact hne hrp
    · rw [extend_of_ne hn] at hq
      obtain ⟨-, -, -, -, hhas, -⟩ := h.points n _ hq
      by_cases hzero : q.rightSibling = 0
      · rw [hzero]
        exact hne hrp
      · obtain ⟨-, x, hx, -⟩ := hhas hzero
        exact hne hx
  rw [BTreeFile.splitLeafPage, bind_ok hempty]
  refine Safe.after (k := 1) hl₁ ?_
  refine (h₁.linkRight (hl₁.has _ hL) hR₁ (hne hp) hnext).bind (k := 1) ?_
  intro _ t₂ h₂ hl₂ habove₂
  have hL₂ := hl₂.has _ (hl₁.has _ hL)
  obtain ⟨p₂, hp₂, -⟩ := h₂.leaf hL₂
  rw [bind_ok (leafAt_run hp₂)]
  refine (h₂.moveTuples hL₂ (hl₂.has _ hR₁) _ _).bind (k := 1) ?_
  intro it t₃ h₃ hl₃ habove₃
  have hL₃ := hl₃.has _ hL₂
  obtain ⟨p₃, hp₃, -⟩ := h₃.leaf hL₃
  rw [bind_ok (leafAt_run hp₃)]
  refine Avoids.bind_lift BTreeLeafPageIterator.get_ne_stuck fun tuple _ => ?_
  rw [bind_ok (get_run t₃)]
  refine Avoids.bind_lift (Tuple.getField_ne_stuck _ _) fun index _ => ?_
  have hR₃ := hl₃.has _ (hl₂.has _ hR₁)
  refine (h₃.moveTuple hL₃ hR₃ tuple).bind (k := 1) ?_
  intro _ t₄ h₄ hl₄ habove₄
  obtain ⟨p₄, hp₄, hpid₄, hpoints₄⟩ := h₄.leaf (hl₄.has _ hL₃)
  obtain ⟨r₄, hr₄, hrid₄, -⟩ := h₄.leaf (hl₄.has _ hR₃)
  have hparentId : p₄.getParentId = BTreePage.getParentId F.tableid p₄.parent := by
    rw [BTreeLeafPage.getParentId, hpid₄]
  obtain ⟨-, -, -, hparent₄, -⟩ := hpoints₄
  have hroom₄ : t₄.Roomy 2 := (((hl₁.trans hl₂).trans hl₃).trans hl₄).roomy hroom
  rw [bind_ok (leafAt_run hp₄), bind_ok (leafAt_run hr₄), hparentId, hpid₄, hrid₄]
  refine (h₄.getParentWithEmptySlots hroom₄ hparent₄ fuel (some index)).bind (k := 0) ?_
  rintro P t₅ h₅ hl₅ ⟨hP, hroomAbove⟩
  have hleaf : ∀ {m}, t₄.Has ⟨F.tableid, m, .leaf⟩ → t₅.HasNode ⟨F.tableid, m, .leaf⟩ :=
    fun hm => ⟨hl₅.has _ hm, .inl rfl⟩
  refine (h₅.enterSplit hP (some index) (hleaf (hl₄.has _ hL₃)) (hleaf (hl₄.has _ hR₃))).bind
    (k := 0) ?_
  intro _ t₆ h₆ hl₆ _
  refine Avoids.bind_lift (Field.compare_ne_stuck _ _ _) fun less hless => ?_
  have hint : field.getType = .intType := by
    cases field with
    | int v => rfl
    | string v => cases hless
  -- the parent of the leaf is the one it had before
  have habove := (((SameAbove.extend hgrow .leaf).trans habove₂).trans habove₃).trans habove₄
  have hroom' : ∀ p, t.pages L = some (.leaf p) → RoomAbove F t p.parent := by
    intro q hq
    rw [hp] at hq
    cases hq
    obtain ⟨q₄, hq₄, hparent⟩ := habove.leaf L p hp
    rw [hp₄] at hq₄
    cases hq₄
    rw [hparent] at hroomAbove
    refine ⟨fun hne₀ => ?_, hroomAbove.2⟩
    obtain ⟨-, -, -, hnode, -⟩ := hpoints
    obtain ⟨x, hx, -⟩ := h.internal (hnode hne₀).has
    obtain ⟨y, hy, hslots⟩ := hroomAbove.1 hne₀
    rw [habove.internal _ _ hx] at hy
    cases hy
    exact ⟨x, hx, hslots⟩
  have hhas : ∀ {m}, t₄.Has ⟨F.tableid, m, .leaf⟩ → t₆.Has ⟨F.tableid, m, .leaf⟩ :=
    fun hm => hl₆.has _ (hl₅.has _ hm)
  split
  · exact Safe.ok h₆ (.refl t₆) ⟨hhas (hl₄.has _ hL₃), hint, hroom'⟩
  · exact Safe.ok h₆ (.refl t₆) ⟨hhas (hl₄.has _ hR₃), hint, hroom'⟩

end Split

section Insertion

/-- The child that the search goes on with is a node. -/
theorem chooseChild_node {p : BTreeInternalPage} {f : Option Field} {child : BTreePageId}
    (hpid : p.pid.tableId = F.tableid) (hp : Points F t n (.internal p))
    (hchild : chooseChild p f = .ok (some child)) : t.HasNode child := by
  have hfind : ∀ k it, Follows t it → BTreeFile.findChild p f k it = .ok (some child) →
      t.HasNode child := by
    intro k
    induction k with
    | zero => exact fun _ _ => nofun
    | succ k ih =>
      intro it hit hrun
      obtain ⟨entry, hentry, hrun⟩ := of_except_bind hrun
      obtain ⟨hleft, hright⟩ : entry.leftChild = it.prevChildId ∧
          entry.rightChild = it.currChildId := by
        obtain ⟨key, -, hentry⟩ := of_except_bind hentry
        cases hentry
        exact ⟨rfl, rfl⟩
      have hgo : ∀ here : Bool, (if here then pure entry.leftChild
          else do
            let it ← it.next p
            if it.ne p.ending then BTreeFile.findChild p f k it else pure entry.rightChild :
              Except Fault (Option BTreePageId)) = .ok (some child) → t.HasNode child := by
        intro here hrun
        split at hrun
        · exact hit.1 child (hleft.symm.trans (Except.ok.inj hrun))
        · obtain ⟨it', hnext, hrun⟩ := of_except_bind hrun
          split at hrun
          · exact ih it' (follows_next hpid hp hit hnext) hrun
          · exact hit.2 child (hright.symm.trans (Except.ok.inj hrun))
      cases f with
      | none => exact hgo true hrun
      | some f =>
        obtain ⟨here, -, hrun⟩ := of_except_bind hrun
        exact hgo here hrun
  unfold chooseChild at hchild
  obtain ⟨it, hbegin, hchild⟩ := of_except_bind hchild
  split at hchild
  · exact hfind _ it (follows_begin hpid hp hbegin) hchild
  · cases hchild

theorem findLeafPage (h : Connected F t) (f : Option Field) (fuel : ℕ) {pid : BTreePageId}
    (hpid : t.HasNode pid) :
    Avoids stuck (fun L t' => t' = t ∧ t.Has ⟨F.tableid, L, .leaf⟩)
      (BTreeFile.findLeafPage .readOnly f fuel pid t) := by
  induction fuel generalizing pid with
  | zero => exact Avoids.throw (show Fault.outOfFuel ≠ stuck by simp [stuck])
  | succ fuel ih =>
    have htable : pid.tableId = F.tableid := hpid.has.1.2.2.1.trans h.tableid
    obtain ⟨tableId, m, type⟩ := pid
    obtain rfl : tableId = F.tableid := htable
    rw [BTreeFile.findLeafPage]
    rcases hpid.node with hleaf | hinternal
    · obtain rfl : type = .leaf := hleaf
      rw [if_pos rfl, hpid.has.getPage .readOnly]
      exact ⟨rfl, hpid.has⟩
    · obtain rfl : type = .internal := hinternal
      obtain ⟨q, hq, hqid, hpoints⟩ := h.internal hpid.has
      rw [if_neg (show BTreePageType.internal ≠ .leaf by decide), if_neg (not_not.mpr rfl),
        bind_ok (hpid.has.getPage .readOnly), bind_ok (internalAt_run hq)]
      refine Avoids.bind_lift chooseChild_ne_stuck fun child hchild => ?_
      cases child with
      | none => exact Avoids.throw (show Fault.nullDeref ≠ stuck by simp [stuck])
      | some child =>
        exact ih (chooseChild_node (congrArg BTreePageId.tableId hqid) hpoints hchild)

/-- What a call of `insertTuple` that returns has found. -/
structure Found (F : FileShape) (t : LogicalTree) (tuple : Tuple) : Prop where
  schema : tuple.td = F.td
  slots : BTreeLeafPage.getMaxTuples F.pageSize F.td ≠ 0
  /-- A full leaf was split. -/
  split : ∀ L p, Reaches t tuple L → t.pages L = some (.leaf p) → p.getNumEmptySlots = 0 →
    RoomAbove F t p.parent ∧ ∃ v, tuple.getField F.keyField = .ok (.int v)

theorem insertTuple (h : Connected F t) (hroom : t.Roomy 3) (tuple : Tuple) :
    Safe F 2 t (fun _ _ => Found F t tuple) (BTreeFile.insertTuple tuple t) := by
  obtain ⟨r, root, hr, hrid, hheader, hrootid, hnode⟩ := h.root
  have hrooted : t.Rooted root := ⟨h.tableid ▸ h.rooted, r, hr, hheader, hrootid⟩
  rw [BTreeFile.insertTuple, bind_ok (getRoot_run hrooted), bind_ok (get_run t)]
  refine Avoids.bind_lift (Tuple.getField_ne_stuck _ _) fun key hkey => ?_
  cases hfind : BTreeFile.findLeafPage .readOnly (some key) (TreeStore.getNumPages t + 1) root t with
  | error e t' =>
    have hne := h.findLeafPage (some key) (TreeStore.getNumPages t + 1) hnode
    rw [hfind] at hne
    rw [bind_error hfind]
    exact hne
  | ok L t' =>
    have hend := h.findLeafPage (some key) (TreeStore.getNumPages t + 1) hnode
    rw [hfind] at hend
    obtain ⟨rfl, hL⟩ := hend.of_ok
    obtain ⟨p, hp, hpid, -⟩ := h.leaf hL
    have hget : TreeStore.getPage p.pid .readWrite t' = .ok L t' := by
      rw [hpid]
      exact hL.getPage .readWrite
    have hreaches : Reaches t' tuple L := ⟨r, root, key, hr, hrootid, hkey, hfind⟩
    rw [bind_ok hfind, bind_ok (leafAt_run hp), bind_ok hget]
    have hwith : Safe F 2 t' (fun C t₁ => t₁.Has ⟨F.tableid, C, .leaf⟩ ∧
        (p.getNumEmptySlots = 0 → RoomAbove F t' p.parent ∧ key.getType = .intType))
        (leafWithRoom (TreeStore.getNumPages t' + 1) L key t') := by
      rw [leafWithRoom, bind_ok (leafAt_run hp)]
      split
      · refine (h.splitLeafPage hroom hL _ key).mono le_rfl ?_
        rintro C t₁ - - ⟨hC, hint, habove⟩
        exact ⟨hC, fun _ => ⟨habove p hp, hint⟩⟩
      · exact Safe.ok h ((Later.refl t').mono (Nat.zero_le 2)) ⟨hL, fun hfull => absurd hfull ‹_›⟩
    refine hwith.bind (k := 0) ?_
    rintro C t₁ h₁ hl₁ ⟨hC, hsplit⟩
    obtain ⟨l, hl, -, hpoints⟩ := h₁.leaf hC
    rw [bind_ok (leafAt_run hl)]
    apply Avoids.bind_lift BTreeLeafPage.insertTuple_ne_stuck
    rintro ⟨q, u⟩ hinsert
    obtain ⟨htd, -, hframe, i, hi, -⟩ := BTreeLeafPage.of_insertTuple hinsert
    have hfound : Found F t' tuple := by
      refine ⟨htd.trans hpoints.1, ?_, ?_⟩
      · have hslots := hpoints.2.2.1
        omega
      · intro L' p' hL' hp' hfull
        obtain rfl := hreaches.unique hL'
        rw [hp] at hp'
        cases hp'
        obtain ⟨habove, hint⟩ := hsplit hfull
        obtain ⟨v, rfl⟩ := Field.exists_int hint
        exact ⟨habove, v, h.keyField ▸ hkey⟩
    refine (h₁.storeLeaf hl hframe).bind (k := 0) ?_
    rintro - t₂ h₂ - -
    exact Safe.ok h₂ (.refl t₂) hfound

end Insertion

end Connected

end PagedDb
