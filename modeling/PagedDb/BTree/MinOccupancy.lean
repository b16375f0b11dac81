import PagedDb.BTree.DeleteFails
import PagedDb.BTree.StealLeaf

/-!
# Merging or stealing

A page that lost one tuple or entry too many is merged with a sibling or gets
some of the sibling's. The code decides by the empty slots of the sibling: where
it merges, both fit in one page, and where it steals, there is enough for both.
Between leaves the tuples are then moved; between internal pages no steal returns.
-/

namespace PagedDb

open Exec

namespace BTreeFile

section Counts

variable {N n₁ n₂ : ℕ}

/-- What the steal functions compute from the sizes of the sibling and of the page. -/
def itemsToMove (n₂ n₁ : ℕ) : Int := ((n₂ : Int) - n₁).tdiv 2

theorem maxEmptySlots_lt_iff (hn : n₁ ≤ N) : maxEmptySlots N < N - n₁ ↔ n₁ < N / 2 := by
  unfold maxEmptySlots
  omega

theorem maxEmptySlots_le_iff (hn : n₂ ≤ N) : maxEmptySlots N ≤ N - n₂ ↔ n₂ ≤ N / 2 := by
  unfold maxEmptySlots
  omega

theorem itemsToMove_bounds (h₁ : n₁ + 1 = N / 2) (h₂ : N / 2 < n₂) :
    0 < itemsToMove n₂ n₁ ∧ (itemsToMove n₂ n₁).toNat < n₂ := by
  have hitems : itemsToMove n₂ n₁ = ((n₂ - n₁) / 2 : ℕ) := by
    rw [itemsToMove, ← Nat.cast_sub (by omega), Int.tdiv_eq_ediv_of_nonneg (by omega)]
    rfl
  rw [hitems, Int.toNat_natCast]
  omega

end Counts

variable {σ H : Type} [TreeStore σ H]

section Behind

/-- What `stealFromLeafPage` does behind its test. -/
def takeTuples (page sibling parent : H) (entry : BTreeEntry) (isRightSibling : Bool)
    (s : BTreeLeafPage) (itemsToMove : ℕ) : EStateM Fault σ Unit := do
  let (it, tuple) ← stealTuples page sibling (itemsToMove - 1)
    (if isRightSibling then s.begin else s.rbegin)
  let s ← leafAt sibling
  let tuple ← if isRightSibling then lift (it.get s) else pure tuple
  let key ← lift (tuple.getField (TreeStore.keyField (← get)))
  modifyInternal parent fun q => q.updateEntry { entry with key := some key }

/-- What `stealFromLeftInternalPage` does behind its test. -/
def takeLeftEntries (page leftSibling parent : H) (parentEntry : BTreeEntry)
    (l p : BTreeInternalPage) (itemsToMove : ℕ) : EStateM Fault σ Unit := do
  let it ← lift l.rbegin
  let first ← lift p.begin
  let rightEntry ← lift (first.get p)
  stealLeft page leftSibling parent itemsToMove it rightEntry parentEntry
  updateParentPointers page

/-- What `stealFromRightInternalPage` does behind its test. -/
def takeRightEntries (page rightSibling parent : H) (parentEntry : BTreeEntry)
    (r p : BTreeInternalPage) (itemsToMove : ℕ) : EStateM Fault σ Unit := do
  let it ← lift r.begin
  let last ← lift p.rbegin
  let leftEntry ← lift (last.get p)
  stealRight page rightSibling parent itemsToMove it leftEntry parentEntry
  updateParentPointers page

variable {page sibling parent : H} {entry : BTreeEntry} {s : σ}

theorem stealFromLeafPage_take {p l : BTreeLeafPage} (hl : leafAt sibling s = .ok l s)
    (hp : leafAt page s = .ok p s) (hpos : 0 < itemsToMove l.getNumTuples p.getNumTuples)
    (isRightSibling : Bool) :
    stealFromLeafPage page sibling parent entry isRightSibling s =
      takeTuples page sibling parent entry isRightSibling l
        (itemsToMove l.getNumTuples p.getNumTuples).toNat s := by
  rw [stealFromLeafPage, bind_ok hl, bind_ok hp]
  exact congrFun (if_neg (Int.not_le.mpr hpos)) s

theorem stealFromLeftInternalPage_take {p l : BTreeInternalPage}
    (hl : internalAt sibling s = .ok l s) (hp : internalAt page s = .ok p s)
    (hpos : 0 < itemsToMove l.getNumEntries p.getNumEntries) :
    stealFromLeftInternalPage page sibling parent entry s =
      takeLeftEntries page sibling parent entry l p
        (itemsToMove l.getNumEntries p.getNumEntries).toNat s := by
  rw [stealFromLeftInternalPage, bind_ok hl, bind_ok hp]
  exact congrFun (if_neg (Int.not_le.mpr hpos)) s

theorem stealFromRightInternalPage_take {p r : BTreeInternalPage}
    (hr : internalAt sibling s = .ok r s) (hp : internalAt page s = .ok p s)
    (hpos : 0 < itemsToMove r.getNumEntries p.getNumEntries) :
    stealFromRightInternalPage page sibling parent entry s =
      takeRightEntries page sibling parent entry r p
        (itemsToMove r.getNumEntries p.getNumEntries).toNat s := by
  rw [stealFromRightInternalPage, bind_ok hr, bind_ok hp]
  exact congrFun (if_neg (Int.not_le.mpr hpos)) s

end Behind

section Decision

/-- A leaf with one tuple less than half and a sibling with at least half, which the code reaches
under `id`. -/
structure LeafPair (page sibling : H) (id : BTreePageId) (p l : BTreeLeafPage) (s s' : σ) :
    Prop where
  here : leafAt page s = .ok p s
  fetched : TreeStore.getPage id .readWrite s = .ok sibling s'
  there : leafAt sibling s' = .ok l s'
  same : leafAt page s' = .ok p s'
  capacity : l.numSlots = p.numSlots
  under : p.getNumTuples + 1 = p.numSlots / 2
  enough : p.numSlots / 2 ≤ l.getNumTuples

/-- An internal page with one entry less than half and a sibling with at least half. -/
structure InternalPair (page sibling : H) (id : BTreePageId) (p l : BTreeInternalPage) (s s' : σ) :
    Prop where
  here : internalAt page s = .ok p s
  fetched : TreeStore.getPage id .readWrite s = .ok sibling s'
  there : internalAt sibling s' = .ok l s'
  same : internalAt page s' = .ok p s'
  capacity : l.getMaxEntries = p.getMaxEntries
  under : p.getNumEntries + 1 = p.getMaxEntries / 2
  enough : p.getMaxEntries / 2 ≤ l.getNumEntries

/-- A run merges pages that fit in one, with `extra` entries, or it goes on behind the test of the
steal function with some but not all of what the sibling has; `empty` are its empty slots. -/
structure Decided (N n₁ n₂ extra empty : ℕ) (run merge : EStateM.Result Fault σ Unit)
    (take : ℕ → EStateM.Result Fault σ Unit) : Prop where
  merged : maxEmptySlots N ≤ empty → run = merge ∧ n₁ + n₂ + extra ≤ N
  moved : ¬ maxEmptySlots N ≤ empty → run = take (itemsToMove n₂ n₁).toNat ∧
    0 < itemsToMove n₂ n₁ ∧ (itemsToMove n₂ n₁).toNat < n₂

/-- Besides, where it steals, it returns and leaves both pages with half of their slots filled. -/
def Settled (N n₁ n₂ extra empty : ℕ) (run merge : EStateM.Result Fault σ Unit)
    (take : ℕ → EStateM.Result Fault σ Unit) (halved : σ → Prop) : Prop :=
  Decided N n₁ n₂ extra empty run merge take ∧
    (¬ maxEmptySlots N ≤ empty → ∃ s, run = .ok () s ∧ halved s)

/-- Both pages have at least `n` tuples. -/
def TuplesIn (n : ℕ) (page sibling : H) (s : σ) : Prop :=
  ∃ p l, leafAt page s = .ok p s ∧ leafAt sibling s = .ok l s ∧
    n ≤ p.getNumTuples ∧ n ≤ l.getNumTuples

/-- Both pages have at least `n` entries. -/
def EntriesIn (n : ℕ) (page sibling : H) (s : σ) : Prop :=
  ∃ p l, internalAt page s = .ok p s ∧ internalAt sibling s = .ok l s ∧
    n ≤ p.getNumEntries ∧ n ≤ l.getNumEntries

theorem getNumTuples_le (p : BTreeLeafPage) : p.getNumTuples ≤ p.numSlots := Nat.sub_le _ _

theorem getNumEmptySlots_leaf (p : BTreeLeafPage) :
    p.getNumEmptySlots = p.numSlots - p.getNumTuples := by
  have := p.rows_length_add_empty
  unfold BTreeLeafPage.getNumTuples
  omega

theorem getNumEmptySlots_internal (q : BTreeInternalPage) :
    q.getNumEmptySlots = q.getMaxEntries - q.getNumEntries ∧
      q.getNumEntries ≤ q.getMaxEntries := by
  have hle : q.getNumEmptySlots ≤ q.numSlots - 1 := by
    unfold BTreeInternalPage.getNumEmptySlots
    exact (List.length_filter_le _ _).trans_eq (List.length_range' ..)
  unfold BTreeInternalPage.getNumEntries BTreeInternalPage.getMaxEntries
  omega

variable {handleParent : H → EStateM Fault σ Unit} {page sibling parent : H} {s s' : σ}
  {id : BTreePageId}

/-- The test of the empty slots of the sibling decides rightly. -/
theorem decision {N n₁ n₂ empty extra : ℕ} (hunder : n₁ + 1 = N / 2) (hn : n₂ ≤ N)
    (hempty : empty = N - n₂) (hextra : extra ≤ 1) {merge steal : EStateM Fault σ Unit}
    {take : ℕ → EStateM Fault σ Unit}
    (htake : 0 < itemsToMove n₂ n₁ → steal s = take (itemsToMove n₂ n₁).toNat s) :
    Decided N n₁ n₂ extra empty ((if maxEmptySlots N ≤ empty then merge else steal) s) (merge s)
      fun items => take items s := by
  have htest := maxEmptySlots_le_iff hn
  rw [← hempty] at htest
  constructor
  · intro hfew
    have hhalf := htest.mp hfew
    rw [if_pos hfew]
    exact ⟨rfl, by omega⟩
  · intro hmany
    obtain ⟨hpos, hlt⟩ := itemsToMove_bounds hunder (Nat.lt_of_not_le (htest.not.mp hmany))
    rw [if_neg hmany]
    exact ⟨htake hpos, hpos, hlt⟩

theorem LeafPair.decision {p l : BTreeLeafPage} (h : LeafPair page sibling id p l s s')
    {merge steal : EStateM Fault σ Unit} {take : ℕ → EStateM Fault σ Unit}
    (htake : 0 < itemsToMove l.getNumTuples p.getNumTuples →
      steal s' = take (itemsToMove l.getNumTuples p.getNumTuples).toNat s') :
    Decided p.numSlots p.getNumTuples l.getNumTuples 0 l.getNumEmptySlots
      ((if maxEmptySlots p.numSlots ≤ l.getNumEmptySlots then merge else steal) s') (merge s')
      fun items => take items s' := by
  have hempty := getNumEmptySlots_leaf l
  have hle := getNumTuples_le l
  rw [h.capacity] at hempty hle
  exact BTreeFile.decision h.under hle hempty (Nat.zero_le 1) htake

theorem InternalPair.decision {p l : BTreeInternalPage} (h : InternalPair page sibling id p l s s')
    {merge steal : EStateM Fault σ Unit} {take : ℕ → EStateM Fault σ Unit}
    (htake : 0 < itemsToMove l.getNumEntries p.getNumEntries →
      steal s' = take (itemsToMove l.getNumEntries p.getNumEntries).toNat s') :
    Decided p.getMaxEntries p.getNumEntries l.getNumEntries 1 l.getNumEmptySlots
      ((if maxEmptySlots p.getMaxEntries ≤ l.getNumEmptySlots then merge else steal) s') (merge s')
      fun items => take items s' := by
  obtain ⟨hempty, hle⟩ := getNumEmptySlots_internal l
  rw [h.capacity] at hempty hle
  exact BTreeFile.decision h.under hle hempty le_rfl htake

theorem InternalPair.merges_iff {p l : BTreeInternalPage}
    (h : InternalPair page sibling id p l s s') :
    maxEmptySlots p.getMaxEntries ≤ l.getNumEmptySlots ↔
      l.getNumEntries = p.getMaxEntries / 2 := by
  obtain ⟨hempty, hle⟩ := getNumEmptySlots_internal l
  have hcapacity := h.capacity
  have henough := h.enough
  rw [hempty, hcapacity, maxEmptySlots_le_iff (hcapacity ▸ hle)]
  omega

theorem InternalPair.settled_iff {p l : BTreeInternalPage}
    (h : InternalPair page sibling id p l s s') {run merge : EStateM.Result Fault σ Unit}
    {take : ℕ → EStateM.Result Fault σ Unit} {halved : σ → Prop}
    (hdecided : Decided p.getMaxEntries p.getNumEntries l.getNumEntries 1 l.getNumEmptySlots run
      merge take)
    (hstuck : ¬ maxEmptySlots p.getMaxEntries ≤ l.getNumEmptySlots → ∀ s₁, run ≠ .ok () s₁) :
    Settled p.getMaxEntries p.getNumEntries l.getNumEntries 1 l.getNumEmptySlots run merge take
      halved ↔ l.getNumEntries = p.getMaxEntries / 2 := by
  rw [← h.merges_iff]
  constructor
  · rintro ⟨-, hreturns⟩
    by_contra hmany
    obtain ⟨s₁, hrun, -⟩ := hreturns hmany
    exact hstuck hmany s₁ hrun
  · exact fun hfew => ⟨hdecided, fun hmany => absurd hfew hmany⟩

/-- `deleteTuple` refills the page exactly if it has fewer tuples than half. -/
theorem deleteTuple_test {t t' : Tuple} {rid : RecordId} {p p' : BTreeLeafPage} {s₁ s₂ : σ}
    (hrid : t.rid = some rid)
    (hget : TreeStore.getPage ⟨TreeStore.tableid s, rid.pid.pageNumber, .leaf⟩ .readWrite s =
      .ok page s₁)
    (hp : leafAt page s₁ = .ok p s₁) (hdelete : p.deleteTuple t = .ok (p', t'))
    (hstore : TreeStore.store page (.leaf p') s₁ = .ok () s₂) :
    deleteTuple t s =
      if p'.getNumTuples < p'.numSlots / 2 then
        (handleMinOccupancyPage (TreeStore.getNumPages s + 1) page >>= fun _ => pure t') s₂
      else .ok t' s₂ := by
  have htest := maxEmptySlots_lt_iff (getNumTuples_le p')
  rw [← getNumEmptySlots_leaf] at htest
  rw [deleteTuple, hrid]
  simp only
  rw [bind_ok (get_run s), bind_ok hget, bind_ok hp, bind_ok (lift_run hdelete s₁)]
  simp only
  rw [bind_ok hstore]
  by_cases hfew : p'.getNumTuples < p'.numSlots / 2
  · rw [if_pos hfew, if_pos (htest.mpr hfew)]
  · rw [if_neg hfew, if_neg (htest.not.mpr hfew)]
    rfl

/-- `deleteParentEntry` refills a parent that keeps an entry exactly if it has fewer than half. -/
theorem deleteParentEntry_test {q q' : BTreeInternalPage} {entry entry' : BTreeEntry}
    (hq : internalAt parent s = .ok q s)
    (hdelete : q.deleteKeyAndRightChild entry = .ok (q', entry'))
    (hstore : TreeStore.store parent (.internal q') s = .ok () s') (hsome : q'.getNumEntries ≠ 0) :
    deleteParentEntry handleParent page parent entry s =
      if q'.getNumEntries < q'.getMaxEntries / 2 then
        (handleParent parent >>= fun _ => pure entry') s'
      else .ok entry' s' := by
  obtain ⟨hempty, hle⟩ := getNumEmptySlots_internal q'
  have htest := maxEmptySlots_lt_iff hle
  rw [← hempty] at htest
  rw [deleteParentEntry, bind_ok hq, bind_ok (lift_run hdelete s)]
  simp only
  rw [bind_ok hstore, if_neg (by omega)]
  by_cases hfew : q'.getNumEntries < q'.getMaxEntries / 2
  · rw [if_pos hfew, if_pos (htest.mpr hfew)]
  · rw [if_neg hfew, if_neg (htest.not.mpr hfew)]
    rfl

theorem handleMinOccupancyLeafPage_left {p l : BTreeLeafPage} {key : Option Field}
    {right : Option BTreePageId} {rid : Option RecordId} (h : LeafPair page sibling id p l s s')
    (rightEntry : Option BTreeEntry) :
    handleMinOccupancyLeafPage handleParent page (some parent) (some ⟨key, some id, right, rid⟩)
        rightEntry s =
      (if maxEmptySlots p.numSlots ≤ l.getNumEmptySlots then
        mergeLeafPages handleParent sibling page parent ⟨key, some id, right, rid⟩
      else stealFromLeafPage page sibling parent ⟨key, some id, right, rid⟩ false) s' := by
  rw [handleMinOccupancyLeafPage, bind_ok h.here]
  exact (bind_ok h.fetched).trans (bind_ok h.there)

theorem handleMinOccupancyLeafPage_right {p r : BTreeLeafPage} {key : Option Field}
    {left : Option BTreePageId} {rid : Option RecordId} (h : LeafPair page sibling id p r s s')
    {leftEntry : Option BTreeEntry} (hleft : leftEntry.bind BTreeEntry.leftChild = none) :
    handleMinOccupancyLeafPage handleParent page (some parent) leftEntry
        (some ⟨key, left, some id, rid⟩) s =
      (if maxEmptySlots p.numSlots ≤ r.getNumEmptySlots then
        mergeLeafPages handleParent page sibling parent ⟨key, left, some id, rid⟩
      else stealFromLeafPage page sibling parent ⟨key, left, some id, rid⟩ true) s' := by
  rw [handleMinOccupancyLeafPage, bind_ok h.here]
  rcases leftEntry with _ | ⟨_, _ | first, _, _⟩
  · exact (bind_ok h.fetched).trans (bind_ok h.there)
  · exact (bind_ok h.fetched).trans (bind_ok h.there)
  · cases hleft

theorem handleMinOccupancyInternalPage_left {p l : BTreeInternalPage} {key : Option Field}
    {right : Option BTreePageId} {rid : Option RecordId}
    (h : InternalPair page sibling id p l s s') (rightEntry : Option BTreeEntry) :
    handleMinOccupancyInternalPage handleParent page (some parent)
        (some ⟨key, some id, right, rid⟩) rightEntry s =
      (if maxEmptySlots p.getMaxEntries ≤ l.getNumEmptySlots then
        mergeInternalPages handleParent sibling page parent ⟨key, some id, right, rid⟩
      else stealFromLeftInternalPage page sibling parent ⟨key, some id, right, rid⟩) s' := by
  rw [handleMinOccupancyInternalPage, bind_ok h.here]
  exact (bind_ok h.fetched).trans (bind_ok h.there)

theorem handleMinOccupancyInternalPage_right {p r : BTreeInternalPage} {key : Option Field}
    {left : Option BTreePageId} {rid : Option RecordId}
    (h : InternalPair page sibling id p r s s') {leftEntry : Option BTreeEntry}
    (hleft : leftEntry.bind BTreeEntry.leftChild = none) :
    handleMinOccupancyInternalPage handleParent page (some parent) leftEntry
        (some ⟨key, left, some id, rid⟩) s =
      (if maxEmptySlots p.getMaxEntries ≤ r.getNumEmptySlots then
        mergeInternalPages handleParent page sibling parent ⟨key, left, some id, rid⟩
      else stealFromRightInternalPage page sibling parent ⟨key, left, some id, rid⟩) s' := by
  rw [handleMinOccupancyInternalPage, bind_ok h.here]
  rcases leftEntry with _ | ⟨_, _ | first, _, _⟩
  · exact (bind_ok h.fetched).trans (bind_ok h.there)
  · exact (bind_ok h.fetched).trans (bind_ok h.there)
  · cases hleft

theorem LeafPair.decided_left {p l : BTreeLeafPage} {key : Option Field}
    {right : Option BTreePageId} {rid : Option RecordId} (h : LeafPair page sibling id p l s s')
    (rightEntry : Option BTreeEntry) :
    Decided p.numSlots p.getNumTuples l.getNumTuples 0 l.getNumEmptySlots
      (handleMinOccupancyLeafPage handleParent page (some parent) (some ⟨key, some id, right, rid⟩)
        rightEntry s)
      (mergeLeafPages handleParent sibling page parent ⟨key, some id, right, rid⟩ s')
      fun items => takeTuples page sibling parent ⟨key, some id, right, rid⟩ false l items s' := by
  rw [handleMinOccupancyLeafPage_left h]
  exact h.decision fun hpos => stealFromLeafPage_take h.there h.same hpos false

theorem LeafPair.decided_right {p r : BTreeLeafPage} {key : Option Field}
    {left : Option BTreePageId} {rid : Option RecordId} (h : LeafPair page sibling id p r s s')
    {leftEntry : Option BTreeEntry} (hleft : leftEntry.bind BTreeEntry.leftChild = none) :
    Decided p.numSlots p.getNumTuples r.getNumTuples 0 r.getNumEmptySlots
      (handleMinOccupancyLeafPage handleParent page (some parent) leftEntry
        (some ⟨key, left, some id, rid⟩) s)
      (mergeLeafPages handleParent page sibling parent ⟨key, left, some id, rid⟩ s')
      fun items => takeTuples page sibling parent ⟨key, left, some id, rid⟩ true r items s' := by
  rw [handleMinOccupancyLeafPage_right h hleft]
  exact h.decision fun hpos => stealFromLeafPage_take h.there h.same hpos true

section Entries

variable [LawfulTreeStore σ H] {q : BTreeInternalPage} {it : BTreeInternalPageIterator}

theorem InternalPair.settled_left_iff {p l : BTreeInternalPage} {key : Option Field}
    {right : Option BTreePageId} {rid : Option RecordId}
    (h : InternalPair page sibling id p l s s') (hparent : Named parent q.pid s)
    (hentry : it.get q = .ok ⟨key, some id, right, rid⟩) (rightEntry : Option BTreeEntry) :
    Settled p.getMaxEntries p.getNumEntries l.getNumEntries 1 l.getNumEmptySlots
      (handleMinOccupancyInternalPage handleParent page (some parent)
        (some ⟨key, some id, right, rid⟩) rightEntry s)
      (mergeInternalPages handleParent sibling page parent ⟨key, some id, right, rid⟩ s')
      (fun items => takeLeftEntries page sibling parent ⟨key, some id, right, rid⟩ l p items s')
      (EntriesIn (p.getMaxEntries / 2) page sibling) ↔ l.getNumEntries = p.getMaxEntries / 2 := by
  have hparent' : Named parent q.pid s' :=
    (LawfulTreeStore.getPage_named parent q.pid id .readWrite).of_ok hparent h.fetched
  rw [handleMinOccupancyInternalPage_left h]
  apply h.settled_iff
  · exact h.decision fun hpos => stealFromLeftInternalPage_take h.there h.same hpos
  · intro hmany s₁
    rw [if_neg hmany]
    exact (stealInternal_not_ok hparent' hentry).1 s₁

theorem InternalPair.settled_right_iff {p r : BTreeInternalPage} {key : Option Field}
    {left : Option BTreePageId} {rid : Option RecordId}
    (h : InternalPair page sibling id p r s s') (hparent : Named parent q.pid s)
    (hentry : it.get q = .ok ⟨key, left, some id, rid⟩) {leftEntry : Option BTreeEntry}
    (hleft : leftEntry.bind BTreeEntry.leftChild = none) :
    Settled p.getMaxEntries p.getNumEntries r.getNumEntries 1 r.getNumEmptySlots
      (handleMinOccupancyInternalPage handleParent page (some parent) leftEntry
        (some ⟨key, left, some id, rid⟩) s)
      (mergeInternalPages handleParent page sibling parent ⟨key, left, some id, rid⟩ s')
      (fun items => takeRightEntries page sibling parent ⟨key, left, some id, rid⟩ r p items s')
      (EntriesIn (p.getMaxEntries / 2) page sibling) ↔ r.getNumEntries = p.getMaxEntries / 2 := by
  have hparent' : Named parent q.pid s' :=
    (LawfulTreeStore.getPage_named parent q.pid id .readWrite).of_ok hparent h.fetched
  rw [handleMinOccupancyInternalPage_right h hleft]
  apply h.settled_iff
  · exact h.decision fun hpos => stealFromRightInternalPage_take h.there h.same hpos
  · intro hmany s₁
    rw [if_neg hmany]
    exact (stealInternal_not_ok hparent' hentry).2 s₁

end Entries

section Leaves

variable {t : LogicalTree} {left right parent : Int32} {l r : BTreeLeafPage} {q : BTreeInternalPage}
  {entry : BTreeEntry} {pre post : List BTreeEntry}

/-- A leaf that steals leaves its sibling and itself with half of their slots or more. -/
theorem Neighbours.refilled (h : Neighbours t left right parent l r q entry pre post) :
    (l.getNumTuples + 1 = l.numSlots / 2 → l.numSlots / 2 < r.getNumTuples →
      ∃ t', stealFromLeafPage left right parent entry true t = .ok () t' ∧
        TuplesIn (l.numSlots / 2) left right t') ∧
    (r.getNumTuples + 1 = r.numSlots / 2 → r.numSlots / 2 < l.getNumTuples →
      ∃ t', stealFromLeafPage right left parent entry false t = .ok () t' ∧
        TuplesIn (r.numSlots / 2) right left t') := by
  have hslots := h.numSlots
  obtain ⟨hleft, hright⟩ := h.parent_ne
  have hpages : ∀ l' r' q',
      let t' := ((t.setPage left (.leaf l')).setPage right (.leaf r')).setPage parent (.internal q')
      t'.pages left = some (.leaf l') ∧ t'.pages right = some (.leaf r') := by
    intro l' r' q'
    constructor
    · exact (LogicalTree.setPage_ne hleft.symm).trans
        ((LogicalTree.setPage_ne h.ne).trans LogicalTree.setPage_self)
    · exact (LogicalTree.setPage_ne hright.symm).trans LogicalTree.setPage_self
  simp only [BTreeLeafPage.getNumTuples_eq]
  constructor
  · intro hunder hmore
    obtain ⟨l', r', q', hrun, hrebalanced, hlen⟩ := stealFromRight_spec h (by omega)
    have htotal := hrebalanced.perm.length_eq
    simp only [List.length_append] at htotal
    obtain ⟨hl, hr⟩ := hpages l' r' q'
    refine ⟨_, hrun, l', r', leafAt_run hl, leafAt_run hr, ?_, ?_⟩
    · rw [BTreeLeafPage.getNumTuples_eq]
      omega
    · rw [BTreeLeafPage.getNumTuples_eq]
      omega
  · intro hunder hmore
    obtain ⟨l', r', q', hrun, hrebalanced, hlen⟩ := stealFromLeft_spec h (by omega)
    have htotal := hrebalanced.perm.length_eq
    simp only [List.length_append] at htotal
    obtain ⟨hl, hr⟩ := hpages l' r' q'
    refine ⟨_, hrun, r', l', leafAt_run hr, leafAt_run hl, ?_, ?_⟩
    · rw [BTreeLeafPage.getNumTuples_eq]
      omega
    · rw [BTreeLeafPage.getNumTuples_eq]
      omega

/-- Leaves that are next to each other are settled whichever of them has too few tuples. -/
theorem Neighbours.settled (h : Neighbours t left right parent l r q entry pre post)
    (handleParent : Int32 → EStateM Fault LogicalTree Unit) (id : BTreePageId) :
    (∀ leftEntry : Option BTreeEntry, LeafPair left right id l r t t → entry.rightChild = some id →
      leftEntry.bind BTreeEntry.leftChild = none →
      Settled l.numSlots l.getNumTuples r.getNumTuples 0 r.getNumEmptySlots
        (handleMinOccupancyLeafPage handleParent left (some parent) leftEntry (some entry) t)
        (mergeLeafPages handleParent left right parent entry t)
        (fun items => takeTuples left right parent entry true r items t)
        (TuplesIn (l.numSlots / 2) left right)) ∧
    ∀ rightEntry : Option BTreeEntry, LeafPair right left id r l t t →
      entry.leftChild = some id →
      Settled r.numSlots r.getNumTuples l.getNumTuples 0 l.getNumEmptySlots
        (handleMinOccupancyLeafPage handleParent right (some parent) (some entry) rightEntry t)
        (mergeLeafPages handleParent left right parent entry t)
        (fun items => takeTuples right left parent entry false l items t)
        (TuplesIn (r.numSlots / 2) right left) := by
  have hempty := getNumEmptySlots_leaf
  have hle := getNumTuples_le
  constructor
  · intro leftEntry hpair hchild hleft
    obtain ⟨key, first, second, rid⟩ := entry
    obtain rfl : second = some id := hchild
    refine ⟨hpair.decided_right hleft, fun hmany => ?_⟩
    rw [hempty, h.numSlots, maxEmptySlots_le_iff (h.numSlots ▸ hle r), Nat.not_le] at hmany
    rw [handleMinOccupancyLeafPage_right hpair hleft, if_neg]
    · exact h.refilled.1 hpair.under hmany
    · rw [hempty, h.numSlots, maxEmptySlots_le_iff (h.numSlots ▸ hle r), Nat.not_le]
      exact hmany
  · intro rightEntry hpair hchild
    obtain ⟨key, first, second, rid⟩ := entry
    obtain rfl : first = some id := hchild
    refine ⟨hpair.decided_left rightEntry, fun hmany => ?_⟩
    rw [hempty, ← h.numSlots, maxEmptySlots_le_iff (h.numSlots.symm ▸ hle l), Nat.not_le] at hmany
    rw [handleMinOccupancyLeafPage_left hpair, if_neg]
    · exact h.refilled.2 hpair.under hmany
    · rw [hempty, ← h.numSlots, maxEmptySlots_le_iff (h.numSlots.symm ▸ hle l), Nat.not_le]
      exact hmany

end Leaves

/-- For a page that is one below half, whatever its capacity: leaves are merged where both fit in
one, and where tuples are moved, at least one but not all of the sibling's are, and leaves next to
each other have half of their slots filled then. Internal pages are settled exactly if the sibling
has half of its entries, so that they are merged: no steal between them returns. The callers test
exactly whether a page is below half, but an entry of the parent is never taken out of it, so that
its test is not reached. -/
theorem minOccupancy_settled_iff [LawfulTreeStore σ H] (handleParent : H → EStateM Fault σ Unit)
    (page sibling parent : H) (s s' : σ) (id : BTreePageId) (key : Option Field)
    (child : Option BTreePageId) (rid : Option RecordId) :
    (∀ p l rightEntry, LeafPair page sibling id p l s s' →
      Decided p.numSlots p.getNumTuples l.getNumTuples 0 l.getNumEmptySlots
        (handleMinOccupancyLeafPage handleParent page (some parent)
          (some ⟨key, some id, child, rid⟩) rightEntry s)
        (mergeLeafPages handleParent sibling page parent ⟨key, some id, child, rid⟩ s')
        fun items => takeTuples page sibling parent ⟨key, some id, child, rid⟩ false l items s') ∧
    (∀ p r leftEntry, LeafPair page sibling id p r s s' →
      leftEntry.bind BTreeEntry.leftChild = none →
      Decided p.numSlots p.getNumTuples r.getNumTuples 0 r.getNumEmptySlots
        (handleMinOccupancyLeafPage handleParent page (some parent) leftEntry
          (some ⟨key, child, some id, rid⟩) s)
        (mergeLeafPages handleParent page sibling parent ⟨key, child, some id, rid⟩ s')
        fun items => takeTuples page sibling parent ⟨key, child, some id, rid⟩ true r items s') ∧
    (∀ t left right parent l r q entry pre post, Neighbours t left right parent l r q entry pre post →
      ∀ handleParent id,
      (∀ leftEntry, LeafPair left right id l r t t → entry.rightChild = some id →
        leftEntry.bind BTreeEntry.leftChild = none →
        Settled l.numSlots l.getNumTuples r.getNumTuples 0 r.getNumEmptySlots
          (handleMinOccupancyLeafPage handleParent left (some parent) leftEntry (some entry) t)
          (mergeLeafPages handleParent left right parent entry t)
          (fun items => takeTuples left right parent entry true r items t)
          (TuplesIn (l.numSlots / 2) left right)) ∧
      ∀ rightEntry, LeafPair right left id r l t t → entry.leftChild = some id →
        Settled r.numSlots r.getNumTuples l.getNumTuples 0 l.getNumEmptySlots
          (handleMinOccupancyLeafPage handleParent right (some parent) (some entry) rightEntry t)
          (mergeLeafPages handleParent left right parent entry t)
          (fun items => takeTuples right left parent entry false l items t)
          (TuplesIn (r.numSlots / 2) right left)) ∧
    (∀ p l q it rightEntry, InternalPair page sibling id p l s s' → Named parent q.pid s →
      BTreeInternalPageIterator.get it q = .ok ⟨key, some id, child, rid⟩ →
      (Settled p.getMaxEntries p.getNumEntries l.getNumEntries 1 l.getNumEmptySlots
        (handleMinOccupancyInternalPage handleParent page (some parent)
          (some ⟨key, some id, child, rid⟩) rightEntry s)
        (mergeInternalPages handleParent sibling page parent ⟨key, some id, child, rid⟩ s')
        (fun items => takeLeftEntries page sibling parent ⟨key, some id, child, rid⟩ l p items s')
        (EntriesIn (p.getMaxEntries / 2) page sibling) ↔
          l.getNumEntries = p.getMaxEntries / 2)) ∧
    (∀ p r q it leftEntry, InternalPair page sibling id p r s s' → Named parent q.pid s →
      BTreeInternalPageIterator.get it q = .ok ⟨key, child, some id, rid⟩ →
      leftEntry.bind BTreeEntry.leftChild = none →
      (Settled p.getMaxEntries p.getNumEntries r.getNumEntries 1 r.getNumEmptySlots
        (handleMinOccupancyInternalPage handleParent page (some parent) leftEntry
          (some ⟨key, child, some id, rid⟩) s)
        (mergeInternalPages handleParent page sibling parent ⟨key, child, some id, rid⟩ s')
        (fun items => takeRightEntries page sibling parent ⟨key, child, some id, rid⟩ r p items s')
        (EntriesIn (p.getMaxEntries / 2) page sibling) ↔
          r.getNumEntries = p.getMaxEntries / 2)) ∧
    (∀ t t' r p p' s₁ s₂, t.rid = some r →
      TreeStore.getPage ⟨TreeStore.tableid s, r.pid.pageNumber, .leaf⟩ .readWrite s = .ok page s₁ →
      leafAt page s₁ = .ok p s₁ → p.deleteTuple t = .ok (p', t') →
      TreeStore.store page (.leaf p') s₁ = .ok () s₂ →
      deleteTuple t s =
        if p'.getNumTuples < p'.numSlots / 2 then
          (handleMinOccupancyPage (TreeStore.getNumPages s + 1) page >>= fun _ => pure t') s₂
        else .ok t' s₂) ∧
    (∀ q q' entry entry', internalAt parent s = .ok q s →
      q.deleteKeyAndRightChild entry = .ok (q', entry') →
      TreeStore.store parent (.internal q') s = .ok () s' → q'.getNumEntries ≠ 0 →
      deleteParentEntry handleParent page parent entry s =
        if q'.getNumEntries < q'.getMaxEntries / 2 then
          (handleParent parent >>= fun _ => pure entry') s'
        else .ok entry' s') ∧
    ∀ q it entry, internalAt parent s = .ok q s → BTreeInternalPageIterator.get it q = .ok entry →
      (∀ r, q.deleteKeyAndRightChild entry ≠ .ok r) ∧
        ∀ e s₁, deleteParentEntry handleParent page parent entry s ≠ .ok e s₁ := by
  refine ⟨?_, ?_, ?_, ?_, ?_, ?_, ?_, ?_⟩
  · exact fun p l rightEntry h => h.decided_left rightEntry
  · exact fun p r leftEntry h hleft => h.decided_right hleft
  · exact fun t left right parent l r q entry pre post h handleParent id =>
      h.settled handleParent id
  · exact fun p l q it rightEntry h hparent hentry => h.settled_left_iff hparent hentry rightEntry
  · exact fun p r q it leftEntry h hparent hentry hleft =>
      h.settled_right_iff hparent hentry hleft
  · exact fun t t' r p p' s₁ s₂ hrid hget hp hdelete hstore =>
      deleteTuple_test hrid hget hp hdelete hstore
  · exact fun q q' entry entry' hq hdelete hstore hsome =>
      deleteParentEntry_test hq hdelete hstore hsome
  · intro q it entry hq hentry
    obtain ⟨slot, hrid⟩ := BTreeInternalPage.get_rid hentry
    refine ⟨fun r hdelete => ?_, fun e s₁ => deleteParentEntry_not_ok (internalAt_ok hq).2 hrid⟩
    have hfail : q.deleteKeyAndRightChild entry = .error .assertion :=
      BTreeInternalPage.deleteEntry_own hrid true
    rw [hfail] at hdelete
    cases hdelete

end Decision

section Example

open LogicalTree

theorem unevenLeaves_pair : LeafPair (2 : Int32) 3 ⟨7, 3, .leaf⟩ (intsLeaf 2 1 (fun _ => 5) 0 3)
    (intsLeaf 3 13 ![5, 0, 5, 7] 2 0) unevenLeaves unevenLeaves := by
  constructor
  case here => rfl
  case fetched => exact LogicalTree.getPage_run .readWrite rfl rfl (by decide)
  case there => rfl
  case same => rfl
  case capacity => rfl
  case under => decide
  case enough => decide

theorem nine_le : [(9 : Int32)].length ≤ 4 := by decide

/-- The decision for the page 3 of the tree with three levels, which has one entry of four, when
the page 2 on its left is `l`. -/
def ThreeLevelsSettled (t : LogicalTree) (l : BTreeInternalPage) : Prop :=
  Settled 4 1 l.getNumEntries 1 l.getNumEmptySlots
    (handleMinOccupancyInternalPage (fun _ => pure ()) 3 (some 1) (some threeLevelsEntry) none t)
    (mergeInternalPages (fun _ => pure ()) 2 3 1 threeLevelsEntry t)
    (fun items => takeLeftEntries 3 2 1 threeLevelsEntry l (fivePage 3 1 .leaf 3 8 [9] nine_le)
      items t)
    (EntriesIn 2 3 2)

def evenLevels : LogicalTree :=
  { threeLevels with
    pages := fun n =>
      if n = 2 then some (.internal (fivePage 2 1 .leaf 7 4 [5, 6] (by decide)))
      else threeLevels.pages n }

theorem threeLevels_pair : InternalPair (3 : Int32) 2 ⟨7, 2, .internal⟩
    (fivePage 3 1 .leaf 3 8 [9] (by decide)) (fivePage 2 1 .leaf 15 4 [5, 6, 7] (by decide))
    threeLevels threeLevels := by
  constructor
  case here => rfl
  case fetched => exact LogicalTree.getPage_run .readWrite rfl rfl (by decide)
  case there => rfl
  case same => rfl
  case capacity => rfl
  case under => decide
  case enough => decide

theorem evenLevels_pair : InternalPair (3 : Int32) 2 ⟨7, 2, .internal⟩
    (fivePage 3 1 .leaf 3 8 [9] (by decide)) (fivePage 2 1 .leaf 7 4 [5, 6] (by decide))
    evenLevels evenLevels := by
  constructor
  case here => rfl
  case fetched => exact LogicalTree.getPage_run .readWrite rfl rfl (by decide)
  case there => rfl
  case same => rfl
  case capacity => rfl
  case under => decide
  case enough => decide

/-- A leaf of one tuple gets one of the three of its sibling. An internal page of one entry is
merged with a sibling of two, and gets none from a sibling of three. -/
theorem minOccupancy_settled_threeLevels :
    Settled 4 1 3 0 1
      (handleMinOccupancyLeafPage (fun _ => pure ()) 2 (some 1) none (some unevenEntry)
        unevenLeaves)
      (mergeLeafPages (fun _ => pure ()) 2 3 1 unevenEntry unevenLeaves)
      (fun items => takeTuples 2 3 1 unevenEntry true (intsLeaf 3 13 ![5, 0, 5, 7] 2 0) items
        unevenLeaves)
      (TuplesIn 2 2 3) ∧
    ThreeLevelsSettled evenLevels (fivePage 2 1 .leaf 7 4 [5, 6] (by decide)) ∧
    ¬ ThreeLevelsSettled threeLevels (fivePage 2 1 .leaf 15 4 [5, 6, 7] (by decide)) := by
  have hleaves := minOccupancy_settled_iff (σ := LogicalTree) (fun _ => pure ()) (2 : Int32) 3 1
    unevenLeaves unevenLeaves ⟨7, 3, .leaf⟩ none none none
  have hentries := fun t : LogicalTree => minOccupancy_settled_iff (fun _ => pure ()) (3 : Int32) 2
    1 t t ⟨7, 2, .internal⟩ threeLevelsEntry.key threeLevelsEntry.rightChild threeLevelsEntry.rid
  refine ⟨?_, ?_, ?_⟩
  · exact (hleaves.2.2.1 _ _ _ _ _ _ _ _ _ _ unevenLeaves_neighbours _ _).1 none
      unevenLeaves_pair rfl rfl
  · exact ((hentries evenLevels).2.2.2.1 _ _ _ _ none evenLevels_pair
      (named_iff.mpr ⟨_, rfl, rfl⟩) threeLevels_get).mpr (by decide)
  · intro hsettled
    have hhalf := ((hentries threeLevels).2.2.2.1 _ _ _ _ none threeLevels_pair
      (named_iff.mpr ⟨_, rfl, rfl⟩) threeLevels_get).mp hsettled
    exact absurd hhalf (by decide)

/-- In a legal tree an internal page with one entry too few is not settled. -/
theorem threeLevels_not_settled : ¬ ∀ (td : TupleDesc) (T : KeyTree Int32 Int) (rank : Int32 → ℕ)
    (root : BTreePageId) (leaves : List Int32) (t : LogicalTree) (page sibling parent : Int32)
    (id : BTreePageId) (p l q : BTreeInternalPage) (it : BTreeInternalPageIterator)
    (entry : BTreeEntry), Legal td T rank root leaves t → InternalPair page sibling id p l t t →
    t.pages parent = some (.internal q) → it.get q = .ok entry → entry.leftChild = some id →
    entry.rightChild = some (q.childId page) →
    Settled p.getMaxEntries p.getNumEntries l.getNumEntries 1 l.getNumEmptySlots
      (handleMinOccupancyInternalPage (fun _ => pure ()) page (some parent) (some entry) none t)
      (mergeInternalPages (fun _ => pure ()) sibling page parent entry t)
      (fun items => takeLeftEntries page sibling parent entry l p items t)
      (EntriesIn (p.getMaxEntries / 2) page sibling) := by
  intro hclaim
  have hsettled := hclaim _ _ _ _ _ _ 3 2 1 _ _ _ _ _ _ threeLevels_legal threeLevels_pair rfl
    threeLevels_get rfl rfl
  have hparent : Named (1 : Int32) ⟨7, 1, .internal⟩ threeLevels := named_iff.mpr ⟨_, rfl, rfl⟩
  have hhalf := (threeLevels_pair.settled_left_iff hparent threeLevels_get none).mp hsettled
  exact absurd hhalf (by decide)

end Example

end BTreeFile

end PagedDb
