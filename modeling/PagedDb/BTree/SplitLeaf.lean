import PagedDb.BTree.TreeRuns

/-!
# Splitting a leaf

What `splitLeafPage` does to the map of pages: the upper half of the rows goes
to a new leaf behind the old one, and the parent gets an entry for it.
-/

namespace PagedDb

open Exec

namespace LogicalTree

variable {t : LogicalTree} {R : Int32}

def relinkLeft (t : LogicalTree) (next R : Int32) : LogicalTree :=
  { t with pages :=
      match t.pages next with
      | some (.leaf n) => Function.update t.pages next (some (.leaf { n with leftSibling := R }))
      | _ => t.pages }

@[simp] theorem relinkLeft_keyField {next : Int32} :
    (relinkLeft t next R).keyField = t.keyField := rfl

@[simp] theorem relinkLeft_tableid {next : Int32} :
    (relinkLeft t next R).tableid = t.tableid := rfl

@[simp] theorem relinkLeft_pageSize {next : Int32} :
    (relinkLeft t next R).pageSize = t.pageSize := rfl

theorem relinkLeft_leaf {next : Int32} {n : BTreeLeafPage} (h : t.pages next = some (.leaf n)) :
    relinkLeft t next R = t.setPage next (.leaf { n with leftSibling := R }) := by
  simp only [relinkLeft, h]
  rfl

theorem relinkLeft_none {next : Int32} (h : ∀ n, t.pages next ≠ some (.leaf n)) :
    relinkLeft t next R = t := by
  unfold relinkLeft
  split
  · exact absurd ‹_› (h _)
  · rfl

theorem relinkLeft_of_ne {next n : Int32} (h : n ≠ next) :
    (relinkLeft t next R).pages n = t.pages n := by
  by_cases hleaf : ∃ q, t.pages next = some (.leaf q)
  · obtain ⟨q, hq⟩ := hleaf
    rw [relinkLeft_leaf hq, setPage_ne h]
  · rw [relinkLeft_none (not_exists.mp hleaf)]

theorem Has.relinkLeft {id : BTreePageId} {next : Int32} (h : t.Has id) :
    (relinkLeft t next R).Has id := by
  by_cases hleaf : ∃ q, t.pages next = some (.leaf q)
  · obtain ⟨q, hq⟩ := hleaf
    rw [relinkLeft_leaf hq]
    exact h.setPage hq rfl rfl
  · rw [relinkLeft_none (not_exists.mp hleaf)]
    exact h

theorem Placed.relinkLeft {next : Int32} (h : t.Placed) : (relinkLeft t next R).Placed := by
  by_cases hleaf : ∃ q, t.pages next = some (.leaf q)
  · obtain ⟨q, hq⟩ := hleaf
    rw [relinkLeft_leaf hq]
    exact h.setPage hq rfl rfl
  · rw [relinkLeft_none (not_exists.mp hleaf)]
    exact h

end LogicalTree

namespace BTreeFile

open LogicalTree

variable {t : LogicalTree} {L R : Int32} {p r : BTreeLeafPage}

section Moving

theorem moveTuple_start {forward : Bool} {rows : List Row} {row : Row}
    (hp : t.pages L = some (.leaf p)) (hr : t.pages R = some (.leaf r)) (hne : L ≠ R)
    (hrows : p.rows = BTreeLeafPage.attach forward row rows) (htd : r.td = p.td)
    (hkey : r.keyField = p.keyField) (hint : p.IntKeyed) (hroom : r.rows.length < r.numSlots) :
    ∃ tuple p' r', (p.start forward).get p = .ok tuple ∧ tuple.td = p.td ∧ tuple.fields = row ∧
      moveTuple L R tuple t = .ok () ((t.setPage L (.leaf p')).setPage R (.leaf r')) ∧
      p'.SameFrame p ∧ p'.rows = rows ∧ (p.start forward).next p' = p'.start forward ∧
      r'.SameFrame r ∧ r'.rows = insertRow p.keyField row r.rows := by
  obtain ⟨tuple, p', hget, htd', hfields, hdelete, hframe, hrest, hnext⟩ :=
    BTreeLeafPage.start_spec hrows
  have hint' : r.IntKeyed := by rwa [BTreeLeafPage.IntKeyed, htd, hkey]
  have hempty := r.rows_length_add_empty
  obtain ⟨r', slot, hinsert, hframe', hrows', -⟩ := r.insertTuple_spec
    (t := tuple.setRecordId none) (htd'.trans htd.symm) hint' (by omega)
  refine ⟨tuple, p', r', hget, htd', hfields, ?_, hframe, hrest, hnext, hframe', ?_⟩
  · have hstore := store_run (t := t) (n := L) (p := .leaf p') hp hframe.pid.symm
    have hr' : (t.setPage L (.leaf p')).pages R = some (.leaf r) := by rw [setPage_ne hne.symm, hr]
    have hmodify := modifyLeaf_run hr' (f := fun r => Prod.fst <$> r.insertTuple
      (tuple.setRecordId none)) (q := r') (by simp [hinsert]) hframe'.pid
    rw [moveTuple, bind_ok (leafAt_run hp), bind_ok (lift_run hdelete t)]
    exact (bind_ok hstore).trans hmodify
  · rw [hrows', hkey, ← hfields]
    rfl

theorem moveTuple_run {rows : List Row} {row : Row} (hp : t.pages L = some (.leaf p))
    (hr : t.pages R = some (.leaf r)) (hne : L ≠ R) (hrows : p.rows = rows ++ [row])
    (htd : r.td = p.td) (hkey : r.keyField = p.keyField) (hint : p.IntKeyed)
    (hroom : r.rows.length < r.numSlots) :
    ∃ tuple p' r', p.rbegin.get p = .ok tuple ∧ tuple.td = p.td ∧ tuple.fields = row ∧
      moveTuple L R tuple t = .ok () ((t.setPage L (.leaf p')).setPage R (.leaf r')) ∧
      p'.SameFrame p ∧ p'.rows = rows ∧ p.rbegin.next p' = p'.rbegin ∧ r'.SameFrame r ∧
      r'.rows = insertRow p.keyField row r.rows :=
  moveTuple_start hp hr hne (show p.rows = BTreeLeafPage.attach false row rows from hrows) htd hkey
    hint hroom

/-- The loop moves the rows at the end of the page. -/
theorem moveTuples_run {keep moved : List Row} (hp : t.pages L = some (.leaf p))
    (hr : t.pages R = some (.leaf r)) (hne : L ≠ R) (hrows : p.rows = keep ++ moved)
    (htd : r.td = p.td) (hkey : r.keyField = p.keyField) (hint : p.IntKeyed)
    (hroom : r.rows.length + moved.length ≤ r.numSlots) :
    ∃ p' r', moveTuples L R moved.length p.rbegin t =
        .ok p'.rbegin ((t.setPage L (.leaf p')).setPage R (.leaf r')) ∧
      p'.SameFrame p ∧ p'.rows = keep ∧ r'.SameFrame r ∧
      r'.rows = insertRows p.keyField moved r.rows := by
  induction moved using List.reverseRecOn generalizing t p r with
  | nil =>
    refine ⟨p, r, ?_, ⟨rfl, rfl, rfl, rfl, rfl, rfl, rfl⟩, by simpa using hrows,
      ⟨rfl, rfl, rfl, rfl, rfl, rfl, rfl⟩, rfl⟩
    rw [setPage_eq_self hp, setPage_eq_self hr]
    rfl
  | append_singleton moved row ih =>
    rw [List.length_append, List.length_singleton] at hroom ⊢
    rw [← List.append_assoc] at hrows
    obtain ⟨tuple, p₁, r₁, hget, -, -, hmove, hframe, hrest, hnext, hframe', hrows'⟩ :=
      moveTuple_run hp hr hne hrows htd hkey hint (by omega)
    have hp₁ : ((t.setPage L (.leaf p₁)).setPage R (.leaf r₁)).pages L = some (.leaf p₁) := by
      rw [setPage_ne hne, setPage_self]
    have hlen : r₁.rows.length = r.rows.length + 1 := by
      rw [hrows', (insertRow_perm _ _ _).length_eq, List.length_cons]
    obtain ⟨p', r', hrun, hframe₂, hkeep, hframe₂', hall⟩ := ih hp₁ setPage_self hrest
      (by rw [hframe.td, hframe'.td, htd]) (by rw [hframe.keyField, hframe'.keyField, hkey])
      (by rwa [BTreeLeafPage.IntKeyed, hframe.td, hframe.keyField])
      (by rw [hlen, hframe'.numSlots]; omega)
    refine ⟨p', r', ?_, hframe₂.trans hframe, hkeep, hframe₂'.trans hframe', ?_⟩
    · rw [moveTuples, bind_ok (leafAt_run hp), bind_ok (lift_run hget t), bind_ok hmove,
        bind_ok (leafAt_run hp₁), hnext, hrun]
      rw [setPage_comm (t := t.setPage L _) hne.symm, setPage_setPage, setPage_setPage]
    · rw [hall, hrows', hframe.keyField, insertRows, insertRows, List.foldr_append]
      rfl

end Moving

section Linking

/-- What `splitLeafPage` asks of the right sibling. -/
def Sibling (t : LogicalTree) (next : Int32) : Prop :=
  (next = 0 ∧ ∀ n, t.pages 0 ≠ some (.leaf n)) ∨
    (next ≠ 0 ∧ t.Has ⟨t.tableid, next, .leaf⟩ ∧ ∃ n, t.pages next = some (.leaf n))

theorem linkNext_run {next : Int32} (h : Sibling t next) :
    linkNext (BTreeLeafPage.siblingId t.tableid next) ⟨t.tableid, R, .leaf⟩ t =
      .ok () (relinkLeft t next R) := by
  rcases h with ⟨rfl, hnone⟩ | ⟨hne, hhas, n, hn⟩
  · rw [relinkLeft_none hnone, BTreeLeafPage.siblingId, if_pos rfl]
    rfl
  · have htable : n.pid.tableId = t.tableid := by
      obtain ⟨-, q, hq, hid, -⟩ := hhas
      rw [hn] at hq
      cases hq
      exact congrArg BTreePageId.tableId hid
    have hset : n.setLeftSiblingId (some ⟨t.tableid, R, .leaf⟩) =
        .ok { n with leftSibling := R } := by
      simp [BTreeLeafPage.setLeftSiblingId, BTreeLeafPage.siblingNumber, htable, bind, Except.bind,
        pure, Except.pure]
    rw [relinkLeft_leaf hn, BTreeLeafPage.siblingId, if_neg hne]
    simp only [linkNext]
    rw [bind_ok (hhas.getPage .readWrite)]
    exact modifyLeaf_run hn hset rfl

/-- The new page comes behind the old one in the chain. -/
theorem linkRight_run (hp : t.pages L = some (.leaf p)) (hr : t.pages R = some (.leaf r))
    (hne : L ≠ R) (hpid : p.pid = ⟨t.tableid, L, .leaf⟩) (hrid : r.pid = ⟨t.tableid, R, .leaf⟩)
    (hnext : Sibling t p.rightSibling) (hnL : p.rightSibling ≠ L) (hnR : p.rightSibling ≠ R) :
    linkRight L R t = .ok () (((relinkLeft t p.rightSibling R).setPage L
      (.leaf { p with rightSibling := R })).setPage R
        (.leaf { r with rightSibling := p.rightSibling, leftSibling := L })) := by
  have hp₁ : (relinkLeft t p.rightSibling R).pages L = some (.leaf p) := by
    rw [relinkLeft_of_ne hnL.symm, hp]
  have hr₁ : (relinkLeft t p.rightSibling R).pages R = some (.leaf r) := by
    rw [relinkLeft_of_ne hnR.symm, hr]
  have hnum : BTreeLeafPage.siblingNumber t.tableid p.getRightSiblingId = .ok p.rightSibling := by
    rw [BTreeLeafPage.getRightSiblingId, BTreeLeafPage.siblingId, hpid]
    split
    · rename_i h₀
      rw [h₀]
      rfl
    · simp [BTreeLeafPage.siblingNumber]
  have hset₁ : r.setRightSiblingId p.getRightSiblingId =
      .ok { r with rightSibling := p.rightSibling } := by
    rw [BTreeLeafPage.setRightSiblingId, hrid, hnum]
    rfl
  have hset₂ : ({ r with rightSibling := p.rightSibling } : BTreeLeafPage).setLeftSiblingId
      (some p.pid) = .ok { r with rightSibling := p.rightSibling, leftSibling := L } := by
    simp [BTreeLeafPage.setLeftSiblingId, BTreeLeafPage.siblingNumber, hrid, hpid, bind,
      Except.bind, pure, Except.pure]
  have hset₃ : p.setRightSiblingId (some r.pid) = .ok { p with rightSibling := R } := by
    simp [BTreeLeafPage.setRightSiblingId, BTreeLeafPage.siblingNumber, hrid, hpid, bind,
      Except.bind, pure, Except.pure]
  have hlink : linkNext p.getRightSiblingId r.pid t = .ok () (relinkLeft t p.rightSibling R) := by
    rw [BTreeLeafPage.getRightSiblingId, hpid, hrid]
    exact linkNext_run hnext
  have hstep₁ := modifyLeaf_run (q := { r with rightSibling := p.rightSibling })
    (f := fun r => r.setRightSiblingId p.getRightSiblingId) hr₁ hset₁ rfl
  have hstep₂ := modifyLeaf_run (t := (relinkLeft t p.rightSibling R).setPage R _)
    (q := { r with rightSibling := p.rightSibling, leftSibling := L })
    (f := fun r => r.setLeftSiblingId (some p.pid)) setPage_self hset₂ rfl
  have hp₂ : ((relinkLeft t p.rightSibling R).setPage R
      (.leaf { r with rightSibling := p.rightSibling, leftSibling := L })).pages L =
        some (.leaf p) := by
    rw [setPage_ne hne, hp₁]
  have hstep₃ := modifyLeaf_run (q := { p with rightSibling := R })
    (f := fun p => p.setRightSiblingId (some r.pid)) hp₂ hset₃ rfl
  rw [linkRight, bind_ok (leafAt_run hp), bind_ok (leafAt_run hr), bind_ok hlink, bind_ok hstep₁,
    bind_ok hstep₂, setPage_setPage, hstep₃, setPage_comm hne.symm]

end Linking

theorem exists_halves {α : Type} {rows : List α} (h : rows ≠ []) :
    ∃ keep row moved, rows = keep ++ row :: moved ∧ keep.length = rows.length / 2 ∧
      moved.length = (rows.length + 1) / 2 - 1 := by
  have hpos := List.length_pos_iff.mpr h
  have hlt : rows.length / 2 < rows.length := by omega
  refine ⟨rows.take (rows.length / 2), rows[rows.length / 2], rows.drop (rows.length / 2 + 1),
    ?_, ?_, ?_⟩
  · rw [← List.drop_eq_getElem_cons hlt, List.take_append_drop]
  · rw [List.length_take]
    omega
  · rw [List.length_drop]
    omega

/-- A split up to the parent: the new leaf is behind the old one, and has the upper half of its
rows. -/
theorem splitLeafPage_rows {t₁ : LogicalTree} {keep moved : List Row} {row : Row}
    (hempty : getEmptyPage .leaf t = .ok R t₁) (hp : t₁.pages L = some (.leaf p))
    (hr : t₁.pages R = some (.leaf r)) (hne : L ≠ R) (hpid : p.pid = ⟨t₁.tableid, L, .leaf⟩)
    (hrid : r.pid = ⟨t₁.tableid, R, .leaf⟩) (hkeyField : p.keyField = t₁.keyField)
    (hnext : Sibling t₁ p.rightSibling) (hnL : p.rightSibling ≠ L) (hnR : p.rightSibling ≠ R)
    (hrows : p.rows = keep ++ row :: moved) (hmoved : moved.length = (p.rows.length + 1) / 2 - 1)
    (hrnil : r.rows = []) (htd : r.td = p.td) (hkey : r.keyField = p.keyField)
    (hint : p.IntKeyed) (hroom : moved.length < r.numSlots) :
    ∃ p' r' v, p'.SameFrame { p with rightSibling := R } ∧ p'.rows = keep ∧
      r'.SameFrame { r with rightSibling := p.rightSibling, leftSibling := L } ∧
      r'.rows = insertRows p.keyField (row :: moved) [] ∧ v.toInt = intKey p.keyField row ∧
      ∀ fuel (f : Int32) P t₄ t₅,
        getParentWithEmptySlots fuel p'.getParentId (some (.int v))
          (((relinkLeft t₁ p.rightSibling R).setPage L (.leaf p')).setPage R (.leaf r')) =
            .ok P t₄ →
        enterSplit P (some (.int v)) p'.pid r'.pid t₄ = .ok () t₅ →
        splitLeafPage fuel L (.int f) t = .ok (if f.toInt < v.toInt then L else R) t₅ := by
  have hcount := p.rows_length_add_empty
  have hlen : p.rows.length = keep.length + moved.length + 1 := by
    rw [hrows, List.length_append, List.length_cons]
    omega
  have hlink := linkRight_run hp hr hne hpid hrid hnext hnL hnR
  set t₂ := ((relinkLeft t₁ p.rightSibling R).setPage L
    (.leaf { p with rightSibling := R })).setPage R
      (.leaf { r with rightSibling := p.rightSibling, leftSibling := L }) with ht₂
  have hp₂ : t₂.pages L = some (.leaf { p with rightSibling := R }) := by
    rw [ht₂, setPage_ne hne, setPage_self]
  have hr₂ : t₂.pages R = some (.leaf { r with rightSibling := p.rightSibling, leftSibling := L }) :=
    setPage_self
  -- the loop moves all but one of the upper rows
  obtain ⟨p₃, r₃, hloop, hframe₃, hkeep₃, hframe₃', hmoved₃⟩ := moveTuples_run hp₂ hr₂ hne
    (show p.rows = (keep ++ [row]) ++ moved from hrows.trans (by simp)) htd hkey hint
    (by change r.rows.length + _ ≤ r.numSlots; rw [hrnil, List.length_nil]; omega)
  have hrows₃ : r₃.rows = insertRows p.keyField moved [] := hrnil ▸ hmoved₃
  set t₃ := (t₂.setPage L (.leaf p₃)).setPage R (.leaf r₃) with ht₃
  have hp₃ : t₃.pages L = some (.leaf p₃) := by rw [ht₃, setPage_ne hne, setPage_self]
  have hr₃ : t₃.pages R = some (.leaf r₃) := setPage_self
  have hint₃ : p₃.IntKeyed := by rwa [BTreeLeafPage.IntKeyed, hframe₃.td, hframe₃.keyField]
  have hkey₃ : p₃.keyField = p.keyField := hframe₃.keyField
  -- the middle row gives the key of the entry
  obtain ⟨tuple, p₄, r₄, hget, htuple, hfields, hmove, hframe₄, hkeep₄, -, hframe₄', hrows₄⟩ :=
    moveTuple_run hp₃ hr₃ hne hkeep₃
      ((hframe₃'.td.trans htd).trans hframe₃.td.symm)
      ((hframe₃'.keyField.trans hkey).trans hframe₃.keyField.symm) hint₃ (by
        rw [hrows₃, (insertRows_perm _ _ _).length_eq, List.append_nil, hframe₃'.numSlots]
        exact hroom)
  obtain ⟨v, hindex, hv⟩ := BTreeLeafPage.getField_int htuple hint₃
  have ht₄ : (t₃.setPage L (.leaf p₄)).setPage R (.leaf r₄) =
      ((relinkLeft t₁ p.rightSibling R).setPage L (.leaf p₄)).setPage R (.leaf r₄) := by
    rw [ht₃, ht₂, setPage_comm (t := LogicalTree.setPage _ L _) hne.symm, setPage_setPage,
      setPage_setPage, setPage_comm (t := LogicalTree.setPage _ L _) hne.symm, setPage_setPage,
      setPage_setPage]
  refine ⟨p₄, r₄, v, hframe₄.trans hframe₃, hkeep₄, hframe₄'.trans hframe₃', ?_, ?_, ?_⟩
  · rw [hrows₄, hrows₃, hkey₃]
    rfl
  · rw [hv, hkey₃, hfields]
  · intro fuel f P t₄ t₅ hparent henter
    rw [← ht₄] at hparent
    have hnum : (({ p with rightSibling := R } : BTreeLeafPage).getNumTuples + 1) / 2 - 1 =
        moved.length := by
      change (p.numSlots - p.getNumEmptySlots + 1) / 2 - 1 = _
      rw [hmoved]
      congr 2
      omega
    have hp₄ : ((t₃.setPage L (.leaf p₄)).setPage R (.leaf r₄)).pages L = some (.leaf p₄) := by
      rw [setPage_ne hne, setPage_self]
    have hkeyt : TreeStore.keyField t₃ = t₁.keyField := by
      change t₃.keyField = _
      rw [ht₃, ht₂]
      simp only [setPage_keyField, relinkLeft_keyField]
    have hindex' : tuple.getField (TreeStore.keyField t₃) = .ok (.int v) := by
      rw [hkeyt, ← hkeyField, ← hkey₃, hindex]
    have hcompare : (Field.int f).compare .lessThan (.int v) = .ok (decide (f.toInt < v.toInt)) :=
      rfl
    rw [splitLeafPage, bind_ok hempty, bind_ok hlink, bind_ok (leafAt_run hp₂), hnum, bind_ok hloop,
      bind_ok (leafAt_run hp₃), bind_ok (lift_run hget t₃), bind_ok (get_run t₃),
      bind_ok (lift_run hindex' t₃), bind_ok hmove, bind_ok (leafAt_run hp₄),
      bind_ok (leafAt_run setPage_self), bind_ok hparent, bind_ok henter,
      bind_ok (lift_run hcompare t₅)]
    by_cases hlt : f.toInt < v.toInt
    · simp [hlt]
    · simp [hlt]

section Parent

variable {P : Int32} {q : BTreeInternalPage} {first v : Int32} {pre post : List (Int32 × Int32)}

theorem getParent_room {fuel : ℕ} {field : Option Field} (hP : P ≠ 0)
    (hhas : t.Has ⟨t.tableid, P, .internal⟩) (hq : t.pages P = some (.internal q))
    (hroom : q.getNumEmptySlots ≠ 0) :
    getParentWithEmptySlots (fuel + 1) (BTreePage.getParentId t.tableid P) field t = .ok P t := by
  have hpage : parentPage (BTreePage.getParentId t.tableid P) t = .ok P t := by
    rw [parentPage, BTreePage.getParentId, if_neg hP,
      if_neg (show BTreePageType.internal ≠ .rootPtr by decide)]
    exact hhas.getPage .readWrite
  rw [getParentWithEmptySlots, bind_ok hpage, bind_ok (internalAt_run hq), if_neg hroom]
  rfl

/-- The parent of the split leaf gets the entry, and all its children the parent. -/
theorem enterSplit_run {q' : BTreeInternalPage} (hP : P ≠ 0) (hq : t.pages P = some (.internal q))
    (hpid : q.pid = ⟨t.tableid, P, .internal⟩)
    (hentry : q.insertEntry (BTreeInternalPage.splitEntry t.tableid v L R .leaf) = .ok q')
    (hframe : q'.SameFrame q) {entries : List (Int32 × Int32)} (hfilled : q'.Filled first entries)
    (hne : entries ≠ []) (hcat : q'.childCategory = .leaf)
    (hchildren : ∀ c ∈ BTreeInternalPage.childList first entries,
      t.HasNode ⟨t.tableid, c, .leaf⟩ ∧ c ≠ P) :
    enterSplit P (some (.int v)) ⟨t.tableid, L, .leaf⟩ ⟨t.tableid, R, .leaf⟩ t =
      .ok () ((t.setPage P (.internal q')).adopt P
        (BTreeInternalPage.childList first entries)) := by
  have hpid' : q'.pid = ⟨t.tableid, P, .internal⟩ := hframe.pid.trans hpid
  have hmodify := modifyInternal_run (q := q') (f := fun q => q.insertEntry
    (BTreeInternalPage.splitEntry t.tableid v L R .leaf)) hq hentry hframe.pid
  rw [enterSplit]
  refine (bind_ok hmodify).trans
    (updateParentPointers_run (p := q') hP setPage_self hpid' hfilled hne ?_)
  intro c hc
  obtain ⟨⟨hhas, hnode⟩, hcP⟩ := hchildren c hc
  have hid : q'.childId c = ⟨t.tableid, c, .leaf⟩ := by
    rw [BTreeInternalPage.childId, hpid', hcat]
  rw [hid]
  exact ⟨⟨hhas.setPage hq hframe.pid rfl, hnode⟩, hcP⟩

/-- A leaf that is the root gets a new root above it. -/
theorem makeRoot_run {root : BTreeRootPtrPage} (h : t.Has (BTreeRootPtrPage.getId t.tableid))
    (hroot : t.pages 0 = some (.rootPtr root)) (hheader : root.header = 0)
    (hrootId : root.getRootId = some ⟨t.tableid, L, .leaf⟩)
    (hhas : t.Has ⟨t.tableid, L, .leaf⟩) (hp : t.pages L = some (.leaf p)) (hgrow : t.Grows)
    (hblank : t.blank t.reads ⟨t.tableid, t.newNumber, .internal⟩ = .internal q)
    (hpid : q.pid = ⟨t.tableid, t.newNumber, .internal⟩) (hL : L ≠ 0) :
    makeRoot t = .ok t.newNumber (((t.extend .internal).setPage 0
      (.rootPtr { root with root := t.newNumber, rootCategory := .internal })).setPage L
        (.leaf { p with parent := t.newNumber })) := by
  have htable : root.pid.tableId = t.tableid := by
    obtain ⟨-, x, hx, hid, -⟩ := h
    have hx : t.pages 0 = some x := hx
    rw [hroot] at hx
    cases hx
    exact congrArg BTreePageId.tableId hid
  have hN : t.newNumber ≠ 0 := by
    intro h₀
    have := hgrow.toInt_newNumber
    rw [h₀] at this
    change (0 : Int) = _ at this
    omega
  have hempty := getEmptyPage_run h hroot hheader hgrow
    (show BTreePageType.internal ≠ .rootPtr by decide)
  have h₁ : (t.extend .internal).Has _ := h.extend hgrow
  have hhas₁ : (t.extend .internal).Has _ := hhas.extend hgrow
  have hroot₁ : (t.extend .internal).pages 0 = some (.rootPtr root) := by
    rw [extend_of_ne hN.symm, hroot]
  have hq₁ : (t.extend .internal).pages t.newNumber = some (.internal q) := by
    rw [extend_new, hblank]
  have hLN : L ≠ t.newNumber := by
    rintro rfl
    rw [hgrow.fresh] at hp
    cases hp
  have hset : root.setRootId (some q.pid) =
      .ok { root with root := t.newNumber, rootCategory := .internal } := by
    simp [BTreeRootPtrPage.setRootId, hpid, htable]
  have hmodify := modifyRootPtr_run (f := fun p => p.setRootId (some q.pid)) hroot₁ hset rfl
  have hp₂ : ((t.extend .internal).setPage 0 (.rootPtr
      { root with root := t.newNumber, rootCategory := .internal })).pages L = some (.leaf p) := by
    rw [setPage_ne hL, extend_of_ne hLN, hp]
  have hhas₂ : ((t.extend .internal).setPage 0 (.rootPtr
      { root with root := t.newNumber, rootCategory := .internal })).Has _ :=
    hhas₁.setPage hroot₁ rfl rfl
  have hparent := setParentId_run (P := t.newNumber) hp₂ rfl (by
    obtain ⟨-, x, hx, hid, -⟩ := hhas
    have hx : t.pages L = some x := hx
    rw [hp] at hx
    cases hx
    rw [hid]
    rfl)
  have hget₁ : TreeStore.getPage (BTreeRootPtrPage.getId (t.extend .internal).tableid) .readWrite
      (t.extend .internal) = .ok (0 : Int32) (t.extend .internal) := h₁.getPage .readWrite
  have hget₂ : TreeStore.getPage ⟨t.tableid, L, .leaf⟩ .readWrite _ = .ok L _ :=
    hhas₂.getPage .readWrite
  rw [makeRoot, bind_ok hempty, bind_ok rootPtrId_run, bind_ok hget₁,
    bind_ok (rootPtrAt_run hroot₁), bind_ok (internalAt_run hq₁), bind_ok hmodify, hrootId]
  simp only
  rw [bind_ok hget₂, hpid]
  exact (bind_ok hparent).trans rfl

end Parent

end BTreeFile

end PagedDb
