import PagedDb.BTree.PoolInsert

/-!
# Splitting an internal page

The entries a split moves come from the page's own reverse iterator, so their
record ids name the page. `deleteEntry` asserts that the record id is of another
table, so no split of an internal page comes to an end.
-/

namespace PagedDb

open Exec

namespace BTreeInternalPage

theorem deleteEntry_own {p : BTreeInternalPage} {e : BTreeEntry} {slot : ℕ}
    (hrid : e.rid = some ⟨.btree p.pid, slot⟩) (deleteRightChild : Bool) :
    p.deleteEntry e deleteRightChild = .error .assertion := by
  simp [deleteEntry, hrid, PageId.getTableId]

theorem reverse_get_rid {p : BTreeInternalPage} {it : BTreeInternalPageReverseIterator}
    {e : BTreeEntry} (h : it.get p = .ok e) : ∃ slot, e.rid = some ⟨.btree p.pid, slot⟩ := by
  obtain ⟨key, -, heq⟩ := of_except_bind h
  cases heq
  exact ⟨_, rfl⟩

end BTreeInternalPage

namespace PoolTree

variable {δ : Type} [BTreeDisk δ] {s s' : PoolTree δ} {ref : Ref}

theorem load_run {obj : PageObject BTreeFilePage} (h : s.db.objects[ref]? = some obj) :
    (TreeStore.load ref : EStateM Fault (PoolTree δ) BTreeFilePage) s = .ok obj.page s := by
  have hrun : onDb (deref ref) s = .ok obj s := zoom_ok (deref_run h)
  change (onDb (deref ref) >>= fun obj => pure obj.page) s = _
  rw [bind_ok hrun]
  rfl

theorem of_load_ok {page : BTreeFilePage}
    (h : (TreeStore.load ref : EStateM Fault (PoolTree δ) BTreeFilePage) s = .ok page s') :
    s' = s ∧ ∃ obj, s.db.objects[ref]? = some obj ∧ obj.page = page := by
  cases hobj : s.db.objects[ref]? with
  | none =>
    have hfail : onDb (deref ref) s = .error .nullDeref s :=
      zoom_error (show deref ref s.db = .error .nullDeref s.db by rw [deref, hobj])
    change (onDb (deref ref) >>= fun obj => pure obj.page) s = _ at h
    rw [bind_error hfail] at h
    cases h
  | some obj =>
    rw [load_run hobj] at h
    cases h
    exact ⟨rfl, obj, rfl, rfl⟩

end PoolTree

namespace BTreeFile

open PoolTree

variable {δ : Type} [BTreeDisk δ] {s s' : PoolTree δ} {page : Ref} {p : BTreeInternalPage}

theorem of_internalAt_ok (h : internalAt page s = .ok p s') :
    s' = s ∧ internalAt page s = .ok p s := by
  obtain ⟨q, s₁, hload, hrest⟩ := of_bind_ok h
  obtain ⟨rfl, -⟩ := of_load_ok hload
  cases q with
  | internal q =>
    cases hrest
    exact ⟨rfl, h⟩
  | rootPtr q => cases hrest
  | header q => cases hrest
  | leaf q => cases hrest

theorem deleteMiddle_fails {it : BTreeInternalPageReverseIterator} {e : BTreeEntry}
    (hp : internalAt page s = .ok p s) (he : it.get p = .ok e) :
    modifyInternal page (fun p => Prod.fst <$> p.deleteKeyAndRightChild e) s =
      .error .assertion s := by
  obtain ⟨slot, hrid⟩ := BTreeInternalPage.reverse_get_rid he
  have hfail : p.deleteKeyAndRightChild e = .error .assertion :=
    BTreeInternalPage.deleteEntry_own hrid true
  rw [modifyInternal, bind_ok hp, hfail]
  rfl

theorem moveEntries_fails {rightPage : Ref} {it : BTreeInternalPageReverseIterator} {e : BTreeEntry}
    (hp : internalAt page s = .ok p s) (he : it.get p = .ok e) (n : ℕ) :
    moveEntries page rightPage (n + 1) it s = .error .assertion s := by
  obtain ⟨slot, hrid⟩ := BTreeInternalPage.reverse_get_rid he
  have hfail : p.deleteKeyAndRightChild e = .error .assertion :=
    BTreeInternalPage.deleteEntry_own hrid true
  rw [moveEntries, bind_ok hp, bind_ok (lift_run he s), hfail]
  rfl

theorem moveEntries_zero {rightPage : Ref} (it : BTreeInternalPageReverseIterator)
    (s : PoolTree δ) : moveEntries page rightPage 0 it s = .ok it s := rfl

theorem moveEntries_not_ok {rightPage : Ref} {it it' : BTreeInternalPageReverseIterator} (n : ℕ) :
    moveEntries page rightPage (n + 1) it s ≠ .ok it' s' := by
  intro h
  obtain ⟨p, s₁, hp, hrest⟩ := of_bind_ok h
  obtain ⟨rfl, hp⟩ := of_internalAt_ok hp
  obtain ⟨e, s₂, he, -⟩ := of_bind_ok hrest
  rw [moveEntries_fails hp (of_lift_ok he).1] at h
  cases h

theorem rbegin_get (hslots : 2 ≤ p.numSlots) : ∃ it e, p.rbegin = .ok it ∧ it.get p = .ok e := by
  have hlt := Slots.searchDown_lt p.isSlotUsed (p.numSlots - 1 + 1)
  have hleft : (max 0 (Slots.searchDown p.isSlotUsed (p.numSlots - 1 + 1))).toNat < p.numSlots := by
    omega
  have hkey : 0 < p.numSlots - 1 ∧ p.numSlots - 1 < p.numSlots := by omega
  simp only [BTreeInternalPage.rbegin, BTreeInternalPageReverseIterator.new,
    BTreeInternalPage.getChildId, if_pos hleft]
  split
  · exact ⟨_, _, rfl, by simp only [BTreeInternalPageReverseIterator.get,
      BTreeInternalPage.getKey, Int.toNat_natCast, if_pos hkey]; rfl⟩
  · exact ⟨_, _, rfl, by simp only [BTreeInternalPageReverseIterator.get,
      BTreeInternalPage.getKey, Int.toNat_natCast, if_pos hkey]; rfl⟩

theorem splitInternalWith_not_ok {getParent : BTreePageId → Option Field →
    EStateM Fault (PoolTree δ) Ref} {field : Option Field} {right : Ref} :
    splitInternalWith getParent page field s ≠ .ok right s' := by
  intro hrun
  obtain ⟨rightPage, s₁, -, hread⟩ := of_bind_ok hrun
  obtain ⟨p, s₂, hp, hstart⟩ := of_bind_ok hread
  obtain ⟨rfl, hp⟩ := of_internalAt_ok hp
  obtain ⟨it, s₃, hit, hloop⟩ := of_bind_ok hstart
  obtain ⟨-, rfl⟩ := of_lift_ok hit
  obtain ⟨it', s₄, hmoved, hrest⟩ := of_bind_ok hloop
  cases hn : (p.getNumEntries + 1) / 2 - 1 with
  | succ n =>
    rw [hn] at hmoved
    exact moveEntries_not_ok n hmoved
  | zero =>
    rw [hn] at hmoved
    cases hmoved
    obtain ⟨q, s₅, hq, hmiddle⟩ := of_bind_ok hrest
    obtain ⟨rfl, hq⟩ := of_internalAt_ok hq
    obtain ⟨entry, s₆, hentry, hend⟩ := of_bind_ok hmiddle
    obtain ⟨hget, rfl⟩ := of_lift_ok hentry
    obtain ⟨⟨⟩, s₇, hdelete, -⟩ := of_bind_ok hend
    rw [deleteMiddle_fails hq hget] at hdelete
    cases hdelete

/-- Once it has its new page, the split of an internal page fails at an assertion: it leaves the
page as it was. -/
theorem splitInternalWith_fails {getParent : BTreePageId → Option Field →
    EStateM Fault (PoolTree δ) Ref} {rightPage : Ref} (field : Option Field)
    (hempty : getEmptyPage .internal s = .ok rightPage s') (hp : internalAt page s' = .ok p s')
    (hslots : 2 ≤ p.numSlots) :
    splitInternalWith getParent page field s = .error .assertion s' := by
  obtain ⟨it, e, hit, he⟩ := rbegin_get hslots
  rw [splitInternalWith, bind_ok hempty, bind_ok hp, bind_ok (lift_run hit s')]
  cases (p.getNumEntries + 1) / 2 - 1 with
  | succ n => rw [bind_error (moveEntries_fails hp he n)]
  | zero =>
    rw [bind_ok (moveEntries_zero it s'), bind_ok hp, bind_ok (lift_run he s')]
    rw [bind_error (deleteMiddle_fails hp he)]

/-- A split of an internal page never completes: whatever the tree, the page, the parent and the
key are. With three entries or more on the page, the failure is that of an assertion. -/
theorem splitInternalPage_not_ok (fuel : ℕ) (page : Ref) (field : Option Field) (s : PoolTree δ) :
    (∀ right s', splitInternalPage fuel page field s ≠ .ok right s') ∧
      ∀ rightPage s₁ p, getEmptyPage .internal s = .ok rightPage s₁ →
        internalAt page s₁ = .ok p s₁ → 3 ≤ p.getNumEntries →
        splitInternalPage fuel page field s = .error .assertion s₁ := by
  constructor
  · intro right s'
    exact splitInternalWith_not_ok
  · intro rightPage s₁ p hempty hp hentries
    apply splitInternalWith_fails field hempty hp
    rw [BTreeInternalPage.getNumEntries] at hentries
    omega

section Example

/-- Five rows of three columns. A page of 37 bytes has room for two such rows or three entries. -/
def fiveRows : List InsertCall :=
  [1, 2, 3, 4, 5].map fun k => .inOrder ⟨.ofInts 3, [.int k, .int 0, .int 0], none, rfl⟩

def wideFile : BTreeFile :=
  .opened 7 0 (.ofInts 3) (fun _ _ => 0) (fun _ _ => 0) (fun _ => 0)

def buildFullRoot : EStateM.Result Fault (PoolTree BTreeFile) (List Tuple) :=
  PoolTree.insertAll fiveRows (.opened wideFile 37 50 fun _ => 0)

/-- The run built a full root of three entries behind the reference. -/
def builtFullRoot (page : Ref) : Bool :=
  match buildFullRoot with
  | .ok _ s =>
    match s.db.objects[page]? with
    | some ⟨.internal p, _⟩ =>
      p.getNumEmptySlots = 0 ∧ 3 ≤ p.getNumEntries ∧ p.getParentId.type = .rootPtr
    | _ => false
  | .error _ _ => false

/-- A root with three entries, made by insertions, is not split. -/
theorem fullRoot_not_split :
    ¬ ∀ (file : BTreeFile) (pageSize numPages : ℕ) (order : ℕ → ℕ) (calls : List InsertCall)
      (ts : List Tuple) (s : PoolTree BTreeFile) (page : Ref) (p : BTreeInternalPage)
      (field : Field),
      PoolTree.insertAll calls (.opened file pageSize numPages order) = .ok ts s →
      internalAt page s = .ok p s → p.getNumEmptySlots = 0 → 3 ≤ p.getNumEntries →
      p.getParentId.type = .rootPtr →
      ∃ fuel right s', splitInternalPage fuel page (some field) s = .ok right s' := by
  intro hclaim
  have hbuilt : builtFullRoot 3 = true := by decide +kernel
  unfold builtFullRoot at hbuilt
  split at hbuilt
  · rename_i ts s hrun
    split at hbuilt
    · rename_i p dirty hobj
      obtain ⟨hfull, hentries, hparent⟩ := of_decide_eq_true hbuilt
      have hp : internalAt 3 s = .ok p s := by
        rw [internalAt, bind_ok (load_run hobj)]
        rfl
      obtain ⟨fuel, right, s', hsplit⟩ :=
        hclaim wideFile 37 50 (fun _ => 0) fiveRows ts s 3 p (.int 6) hrun hp hfull hentries hparent
      exact splitInternalWith_not_ok hsplit
    · cases hbuilt
  · cases hbuilt

end Example

end BTreeFile

end PagedDb
