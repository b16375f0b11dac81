import PagedDb.BTree.InternalOps
import PagedDb.BTree.LeafOps
import PagedDb.BTree.LogicalTree

/-!
# Running the code of the tree on the map of pages

One rule for each step of the code: what it returns and which pages it changes,
given the pages it reads.
-/

namespace PagedDb

open Exec

namespace BTreeFilePage

def kind : BTreeFilePage → BTreePageType
  | .rootPtr _ => .rootPtr
  | .header _ => .header
  | .internal _ => .internal
  | .leaf _ => .leaf

def parent? : BTreeFilePage → Option Int32
  | .internal p => some p.parent
  | .leaf p => some p.parent
  | _ => none

def withParent (n : Int32) : BTreeFilePage → BTreeFilePage
  | .internal p => .internal { p with parent := n }
  | .leaf p => .leaf { p with parent := n }
  | p => p

@[simp] theorem withParent_id (n : Int32) (p : BTreeFilePage) :
    (p.withParent n).getId = p.getId := by
  cases p <;> rfl

@[simp] theorem withParent_kind (n : Int32) (p : BTreeFilePage) :
    (p.withParent n).kind = p.kind := by
  cases p <;> rfl

@[simp] theorem withParent_withParent (n m : Int32) (p : BTreeFilePage) :
    (p.withParent m).withParent n = p.withParent n := by
  cases p <;> rfl

theorem withParent_self {n : Int32} {p : BTreeFilePage} (h : p.parent? = some n) :
    p.withParent n = p := by
  cases p <;> cases h <;> rfl

end BTreeFilePage

namespace LogicalTree

variable {t t' : LogicalTree} {n m P : Int32} {id : BTreePageId} {page : BTreeFilePage}

def Has (t : LogicalTree) (id : BTreePageId) : Prop :=
  t.InFile id ∧ ∃ p, t.pages id.pgNo = some p ∧ p.getId = id ∧ p.kind = id.type

theorem Has.getPage (h : t.Has id) (perm : Permissions) :
    TreeStore.getPage id perm t = .ok id.pgNo t := by
  obtain ⟨hin, p, hp, hid, -⟩ := h
  exact getPage_run perm hp hid hin

theorem InFile.setPage (h : t.InFile id) : (t.setPage n page).InFile id := h

theorem Has.setPage {old : BTreeFilePage} (h : t.Has id) (hold : t.pages n = some old)
    (hid : page.getId = old.getId) (hkind : page.kind = old.kind) : (t.setPage n page).Has id := by
  obtain ⟨hin, p, hp, hpid, hpkind⟩ := h
  refine ⟨hin, ?_⟩
  by_cases heq : id.pgNo = n
  · rw [heq, hold] at hp
    cases hp
    exact ⟨page, by rw [heq, setPage_self], hid.trans hpid, hkind.trans hpkind⟩
  · exact ⟨p, by rw [setPage_ne heq, hp], hpid, hpkind⟩

/-- A page of the tree: a leaf or an internal page. -/
structure HasNode (t : LogicalTree) (id : BTreePageId) : Prop where
  has : t.Has id
  node : id.type = .leaf ∨ id.type = .internal

theorem HasNode.exists_page (h : t.HasNode id) :
    ∃ p, t.pages id.pgNo = some p ∧ p.getId = id ∧ p.parent?.isSome := by
  obtain ⟨⟨-, p, hp, hid, hkind⟩, htype⟩ := h
  refine ⟨p, hp, hid, ?_⟩
  cases p with
  | rootPtr p => exact absurd (show BTreePageType.rootPtr = id.type from hkind) (by
      rcases htype with h | h <;> rw [h] <;> decide)
  | header p => exact absurd (show BTreePageType.header = id.type from hkind) (by
      rcases htype with h | h <;> rw [h] <;> decide)
  | internal p => rfl
  | leaf p => rfl

def Placed (t : LogicalTree) : Prop :=
  ∀ n p, t.pages n = some p → p.getId.pgNo = n ∧ t.Has p.getId

theorem Placed.setPage {old : BTreeFilePage} (h : t.Placed) (hold : t.pages n = some old)
    (hid : page.getId = old.getId) (hkind : page.kind = old.kind) : (t.setPage n page).Placed := by
  intro m q hq
  by_cases hm : m = n
  · subst hm
    rw [setPage_self] at hq
    cases hq
    obtain ⟨hnum, hhas⟩ := h m old hold
    rw [hid]
    exact ⟨hnum, hhas.setPage hold hid hkind⟩
  · rw [setPage_ne hm] at hq
    obtain ⟨hnum, hhas⟩ := h m q hq
    exact ⟨hnum, hhas.setPage hold hid hkind⟩

/-- The pages with these numbers get the parent `P`. -/
def adopt (t : LogicalTree) (P : Int32) (children : List Int32) : LogicalTree :=
  { t with pages := fun m =>
      if m ∈ children then (t.pages m).map (BTreeFilePage.withParent P) else t.pages m }

theorem adopt_pages (P : Int32) (children : List Int32) (m : Int32) :
    (t.adopt P children).pages m =
      if m ∈ children then (t.pages m).map (BTreeFilePage.withParent P) else t.pages m := rfl

theorem adopt_cons (hn : t.pages n = some page) (children : List Int32) :
    (t.setPage n (page.withParent P)).adopt P children = t.adopt P (n :: children) := by
  have hpages : ((t.setPage n (page.withParent P)).adopt P children).pages =
      (t.adopt P (n :: children)).pages := by
    funext m
    rw [adopt_pages, adopt_pages]
    by_cases hm : m = n
    · subst hm
      rw [setPage_self, hn, if_pos List.mem_cons_self]
      split
      · simp
      · rfl
    · simp [hm]
  exact congrArg (fun pages => { t with pages }) hpages

theorem adopt_nil : t.adopt P [] = t := by
  simp [adopt]

theorem adopt_adopt (children children' : List Int32) :
    (t.adopt P children).adopt P children' = t.adopt P (children ++ children') := by
  have hpages : ((t.adopt P children).adopt P children').pages =
      (t.adopt P (children ++ children')).pages := by
    funext m
    simp only [adopt_pages, List.mem_append]
    by_cases hm : m ∈ children
    · cases hpage : t.pages m <;> simp [hm]
    · simp [hm]
  exact congrArg (fun pages => { t with pages }) hpages

theorem Has.adopt (h : t.Has id) (P : Int32) (children : List Int32) :
    (t.adopt P children).Has id := by
  obtain ⟨hin, p, hp, hid, hkind⟩ := h
  refine ⟨hin, ?_⟩
  rw [adopt_pages, hp]
  split
  · exact ⟨p.withParent P, rfl, by simpa using hid, by simpa using hkind⟩
  · exact ⟨p, rfl, hid, hkind⟩

theorem HasNode.adopt (h : t.HasNode id) (P : Int32) (children : List Int32) :
    (t.adopt P children).HasNode id := ⟨h.has.adopt P children, h.node⟩

theorem Placed.adopt (h : t.Placed) (P : Int32) (children : List Int32) :
    (t.adopt P children).Placed := by
  intro m q hq
  rw [adopt_pages] at hq
  split at hq
  · obtain ⟨p, hp, rfl⟩ := Option.map_eq_some_iff.mp hq
    obtain ⟨hnum, hhas⟩ := h m p hp
    rw [BTreeFilePage.withParent_id]
    exact ⟨hnum, hhas.adopt P children⟩
  · obtain ⟨hnum, hhas⟩ := h m q hq
    exact ⟨hnum, hhas.adopt P children⟩

def newNumber (t : LogicalTree) : Int32 := Int32.ofNat (t.getNumPages + 1)

/-- The file can take another page, under a number nobody has asked for. -/
structure Grows (t : LogicalTree) : Prop where
  pageSize : 0 < t.pageSize
  size : BTreeRootPtrPage.size ≤ t.size
  limit : ((t.size + t.pageSize + t.clearGrowth : ℕ) : ℕ∞) ≤ t.limit
  number : t.getNumPages + 1 < 2 ^ 31
  fresh : t.pages t.newNumber = none

def extend (t : LogicalTree) (type : BTreePageType) : LogicalTree :=
  { t with size := t.size + t.pageSize + t.clearGrowth }.touch ⟨t.tableid, t.newNumber, type⟩

theorem Grows.toInt_newNumber (h : t.Grows) : t.newNumber.toInt = t.getNumPages + 1 := by
  rw [newNumber, Int32.toInt_ofNat_of_lt h.number]
  rfl

theorem Grows.inFile (hgrow : t.Grows) {type : BTreePageType} (htype : type ≠ .rootPtr) :
    { t with size := t.size + t.pageSize + t.clearGrowth }.InFile
      ⟨t.tableid, t.newNumber, type⟩ := by
  have hsize := hgrow.size
  have hnumber := hgrow.toInt_newNumber
  refine ⟨?_, hgrow.limit, rfl, ?_⟩
  · change _ ≤ t.size + t.pageSize + t.clearGrowth
    omega
  · rw [if_neg htype, hnumber]
    refine ⟨by omega, ?_⟩
    have hle : (t.size + t.pageSize - BTreeRootPtrPage.size) / t.pageSize ≤
        (t.size + t.pageSize + t.clearGrowth - BTreeRootPtrPage.size) / t.pageSize :=
      Nat.div_le_div_right (by omega)
    rw [Nat.sub_add_comm hsize, Nat.add_div_right _ hgrow.pageSize] at hle
    exact_mod_cast hle

section Extend

variable {type : BTreePageType}

theorem extend_new (t : LogicalTree) (type : BTreePageType) :
    (t.extend type).pages t.newNumber =
      some (t.blank t.reads ⟨t.tableid, t.newNumber, type⟩) := setPage_self

theorem extend_of_ne (h : n ≠ t.newNumber) : (t.extend type).pages n = t.pages n := setPage_ne h

theorem Grows.numPages_le (hgrow : t.Grows) (type : BTreePageType) :
    t.getNumPages ≤ (t.extend type).getNumPages := by
  have hsize := hgrow.size
  exact Nat.div_le_div_right
    (show t.size - _ ≤ t.size + t.pageSize + t.clearGrowth - BTreeRootPtrPage.size by omega)

theorem Has.extend (h : t.Has id) (hgrow : t.Grows) : (t.extend type).Has id := by
  obtain ⟨⟨hsize, hlimit, htable, hnum⟩, p, hp, hid, hkind⟩ := h
  have hle := hgrow.numPages_le type
  have hne : id.pgNo ≠ t.newNumber := by
    intro heq
    rw [heq, hgrow.fresh] at hp
    cases hp
  refine ⟨⟨?_, hgrow.limit, htable, ?_⟩, p, by rw [extend_of_ne hne, hp], hid, hkind⟩
  · change _ ≤ t.size + t.pageSize + t.clearGrowth
    omega
  · split
    · rwa [if_pos ‹_›] at hnum
    · rw [if_neg ‹_›] at hnum
      exact ⟨hnum.1, by omega⟩

theorem Placed.extend (h : t.Placed) (hgrow : t.Grows) (htype : type ≠ .rootPtr)
    (hblank : t.blank t.reads ⟨t.tableid, t.newNumber, type⟩ = page)
    (hid : page.getId = ⟨t.tableid, t.newNumber, type⟩) (hkind : page.kind = type) :
    (t.extend type).Placed := by
  intro m q hq
  by_cases hm : m = t.newNumber
  · subst hm
    rw [extend_new, hblank] at hq
    cases hq
    rw [hid]
    exact ⟨rfl, hgrow.inFile htype, page, by rw [extend_new, hblank], hid, hkind⟩
  · rw [extend_of_ne hm] at hq
    obtain ⟨hnum, hhas⟩ := h m q hq
    exact ⟨hnum, hhas.extend hgrow⟩

end Extend

/-- The file has grown by `k` pages, and else only pages have changed. -/
structure GrownBy (k : ℕ) (t t' : LogicalTree) : Prop where
  tableid : t'.tableid = t.tableid
  keyField : t'.keyField = t.keyField
  pageSize : t'.pageSize = t.pageSize
  limit : t'.limit = t.limit
  clearGrowth : t'.clearGrowth = t.clearGrowth
  blank : t'.blank = t.blank
  size : t'.size = t.size + k * (t.pageSize + t.clearGrowth)

namespace GrownBy

variable {j k : ℕ} {type : BTreePageType} {t'' : LogicalTree}

theorem refl (t : LogicalTree) : GrownBy 0 t t := ⟨rfl, rfl, rfl, rfl, rfl, rfl, by simp⟩

theorem trans (h : GrownBy j t t') (h' : GrownBy k t' t'') : GrownBy (j + k) t t'' := by
  refine ⟨h'.tableid.trans h.tableid, h'.keyField.trans h.keyField, h'.pageSize.trans h.pageSize,
    h'.limit.trans h.limit, h'.clearGrowth.trans h.clearGrowth, h'.blank.trans h.blank, ?_⟩
  rw [h'.size, h.size, h.pageSize, h.clearGrowth]
  ring

theorem setPage (h : GrownBy k t t') (n : Int32) (page : BTreeFilePage) :
    GrownBy k t (t'.setPage n page) :=
  ⟨h.tableid, h.keyField, h.pageSize, h.limit, h.clearGrowth, h.blank, h.size⟩

theorem adopt (h : GrownBy k t t') (P : Int32) (children : List Int32) :
    GrownBy k t (t'.adopt P children) :=
  ⟨h.tableid, h.keyField, h.pageSize, h.limit, h.clearGrowth, h.blank, h.size⟩

theorem extend (t : LogicalTree) (type : BTreePageType) : GrownBy 1 t (t.extend type) :=
  ⟨rfl, rfl, rfl, rfl, rfl, rfl, by
    change t.size + t.pageSize + t.clearGrowth = _
    ring⟩

end GrownBy

end LogicalTree

namespace BTreeFile

open LogicalTree

variable {t t' : LogicalTree} {n m P : Int32} {id : BTreePageId} {page : BTreeFilePage}

section Pointers

theorem rootPtrAt_run {p : BTreeRootPtrPage} (h : t.pages n = some (.rootPtr p)) :
    rootPtrAt n t = .ok p t := by
  rw [rootPtrAt, bind_ok (load_run h)]
  rfl

theorem internalAt_run {p : BTreeInternalPage} (h : t.pages n = some (.internal p)) :
    internalAt n t = .ok p t := by
  rw [internalAt, bind_ok (load_run h)]
  rfl

theorem leafAt_run {p : BTreeLeafPage} (h : t.pages n = some (.leaf p)) :
    leafAt n t = .ok p t := by
  rw [leafAt, bind_ok (load_run h)]
  rfl

theorem modifyRootPtr_run {p q : BTreeRootPtrPage} (h : t.pages n = some (.rootPtr p))
    {f : BTreeRootPtrPage → Except Fault BTreeRootPtrPage} (hf : f p = .ok q)
    (hid : q.pid = p.pid) : modifyRootPtr n f t = .ok () (t.setPage n (.rootPtr q)) := by
  rw [modifyRootPtr, bind_ok (rootPtrAt_run h), bind_ok (lift_run hf t)]
  exact store_run h hid.symm

theorem modifyInternal_run {p q : BTreeInternalPage} (h : t.pages n = some (.internal p))
    {f : BTreeInternalPage → Except Fault BTreeInternalPage} (hf : f p = .ok q)
    (hid : q.pid = p.pid) : modifyInternal n f t = .ok () (t.setPage n (.internal q)) := by
  rw [modifyInternal, bind_ok (internalAt_run h), bind_ok (lift_run hf t)]
  exact store_run h hid.symm

theorem modifyLeaf_run {p q : BTreeLeafPage} (h : t.pages n = some (.leaf p))
    {f : BTreeLeafPage → Except Fault BTreeLeafPage} (hf : f p = .ok q)
    (hid : q.pid = p.pid) : modifyLeaf n f t = .ok () (t.setPage n (.leaf q)) := by
  rw [modifyLeaf, bind_ok (leafAt_run h), bind_ok (lift_run hf t)]
  exact store_run h hid.symm

theorem rootPtrId_run : rootPtrId t = .ok (BTreeRootPtrPage.getId t.tableid) t := rfl

end Pointers

section Parents

theorem setParentId_number (tableId P : Int32) :
    BTreePage.setParentId tableId ⟨tableId, P, .internal⟩ = .ok P := by
  rw [BTreePage.setParentId, if_neg (by simp),
    if_neg (show BTreePageType.internal ≠ .rootPtr by decide), if_pos rfl]

theorem setParentId_run (hn : t.pages n = some page) (hparent : page.parent?.isSome)
    (htable : page.getId.tableId = t.tableid) :
    setParentId n ⟨t.tableid, P, .internal⟩ t = .ok () (t.setPage n (page.withParent P)) := by
  rw [setParentId, bind_ok (load_run hn)]
  cases page with
  | rootPtr p => cases hparent
  | header p => cases hparent
  | internal p =>
    have hset : p.setParentId ⟨t.tableid, P, .internal⟩ = .ok { p with parent := P } := by
      rw [BTreeInternalPage.setParentId, show p.pid.tableId = t.tableid from htable,
        setParentId_number]
      rfl
    exact (bind_ok (lift_run hset t)).trans (store_run hn rfl)
  | leaf p =>
    have hset : p.setParentId ⟨t.tableid, P, .internal⟩ = .ok { p with parent := P } := by
      rw [BTreeLeafPage.setParentId, show p.pid.tableId = t.tableid from htable,
        setParentId_number]
      rfl
    exact (bind_ok (lift_run hset t)).trans (store_run hn rfl)

theorem getParentId_run (hn : t.pages n = some page) {parent : Int32}
    (hparent : page.parent? = some parent) (htable : page.getId.tableId = t.tableid) :
    getParentId n t = .ok (BTreePage.getParentId t.tableid parent) t := by
  rw [getParentId, bind_ok (load_run hn)]
  cases page with
  | rootPtr p => cases hparent
  | header p => cases hparent
  | internal p => cases hparent; rw [← htable]; rfl
  | leaf p => cases hparent; rw [← htable]; rfl

/-- A child gets its parent, whether it has it already or not. -/
theorem updateParentPointer_run (hP : P ≠ 0) (hhas : t.Has id) (hn : t.pages id.pgNo = some page)
    (hparent : page.parent?.isSome) :
    updateParentPointer ⟨t.tableid, P, .internal⟩ (some id) t =
      .ok () (t.setPage id.pgNo (page.withParent P)) := by
  obtain ⟨parent, hp⟩ := Option.isSome_iff_exists.mp hparent
  have htable : page.getId.tableId = t.tableid := by
    obtain ⟨⟨-, -, hnum⟩, q, hq, hid, -⟩ := hhas
    rw [hn] at hq
    cases hq
    rw [hid]
    exact hnum.1
  simp only [updateParentPointer]
  rw [bind_ok (hhas.getPage .readOnly), bind_ok (getParentId_run hn hp htable)]
  by_cases heq : parent = P
  · have hsame : BTreePage.getParentId t.tableid parent = ⟨t.tableid, P, .internal⟩ := by
      rw [heq, BTreePage.getParentId, if_neg hP]
    rw [if_neg (by simp [hsame]), BTreeFilePage.withParent_self (heq ▸ hp), setPage_eq_self hn]
    rfl
  · have hne : BTreePage.getParentId t.tableid parent ≠ ⟨t.tableid, P, .internal⟩ := by
      unfold BTreePage.getParentId
      split
      · exact fun h => absurd (congrArg BTreePageId.type h) (by simp; decide)
      · exact fun h => heq (congrArg BTreePageId.pgNo h)
    rw [if_pos hne, bind_ok (hhas.getPage .readWrite)]
    exact setParentId_run hn hparent htable

theorem updateParentPointer_node (hP : P ≠ 0) (h : t.HasNode id) :
    ∃ page, t.pages id.pgNo = some page ∧ page.getId = id ∧
      updateParentPointer ⟨t.tableid, P, .internal⟩ (some id) t =
        .ok () (t.setPage id.pgNo (page.withParent P)) := by
  obtain ⟨page, hp, hid, hparent⟩ := h.exists_page
  exact ⟨page, hp, hid, updateParentPointer_run hP h.has hp hparent⟩

theorem setParent_hasNode (h : t.HasNode id) (hn : t.pages n = some page) :
    (t.setPage n (page.withParent P)).HasNode id :=
  ⟨h.has.setPage hn (by simp) (by simp), h.node⟩

variable {p : BTreeInternalPage} {first left : Int32} {pre post : List (Int32 × Int32)}
  {e : Int32 × Int32}

theorem updateChildren_step (hP : P ≠ 0) (hp : t.pages P = some (.internal p))
    (hfilled : p.Filled first (pre ++ e :: post)) (hleft : t.HasNode (p.childId left))
    (hne : left ≠ P) {it : BTreeInternalPageIterator}
    (hnext : (p.entryAt pre.length left e.2).next p = .ok it) (k : ℕ) (acc : Option BTreeEntry) :
    ∃ page, t.pages left = some page ∧ page.getId = p.childId left ∧
      (t.setPage left (page.withParent P)).pages P = some (.internal p) ∧
      updateChildren P ⟨t.tableid, P, .internal⟩ (k + 1) (p.entryAt pre.length left e.2) acc t =
        updateChildren P ⟨t.tableid, P, .internal⟩ k it (some ⟨some (.int e.1),
          some (p.childId left), some (p.childId e.2), some ⟨.btree p.pid, pre.length + 1⟩⟩)
          (t.setPage left (page.withParent P)) := by
  have hslots := hfilled.slots
  have hlen : (pre ++ e :: post).length = pre.length + post.length + 1 := by simp; omega
  obtain ⟨page, hpage, hid, hrun⟩ := updateParentPointer_node hP hleft
  have hmore : (p.entryAt pre.length left e.2).ne p.ending = true :=
    decide_eq_true (show pre.length + 1 ≠ p.numSlots by omega)
  have hp' : (t.setPage left (page.withParent P)).pages P = some (.internal p) := by
    rw [setPage_ne hne.symm, hp]
  refine ⟨page, hpage, hid, hp', ?_⟩
  rw [updateChildren, bind_ok (internalAt_run hp), if_pos hmore,
    bind_ok (lift_run hfilled.get_eq t), bind_ok hrun]
  exact (bind_ok (internalAt_run hp')).trans (bind_ok (lift_run hnext _))

/-- The loop over the entries gives every child but the last one its parent. -/
theorem updateChildren_run (hP : P ≠ 0) (hp : t.pages P = some (.internal p))
    (hfilled : p.Filled first (pre ++ e :: post))
    (hchildren : ∀ c ∈ left :: (e :: post).map Prod.snd, t.HasNode (p.childId c) ∧ c ≠ P)
    {k : ℕ} (hk : post.length < k) (acc : Option BTreeEntry) :
    ∃ entry last, (e :: post).map Prod.snd = ((e :: post).map Prod.snd).dropLast ++ [last] ∧
      entry.rightChild = some (p.childId last) ∧
      updateChildren P ⟨t.tableid, P, .internal⟩ k (p.entryAt pre.length left e.2) acc t =
        .ok (some entry) (t.adopt P (left :: ((e :: post).map Prod.snd).dropLast)) := by
  induction post generalizing pre e left k t acc with
  | nil =>
    obtain ⟨k, rfl⟩ : ∃ l, k = l + 1 := ⟨k - 1, by omega⟩
    obtain ⟨hleft, hne⟩ := hchildren left List.mem_cons_self
    obtain ⟨page, hpage, hid, hp', hstep⟩ :=
      updateChildren_step hP hp hfilled hleft hne hfilled.next_last k acc
    refine ⟨⟨some (.int e.1), some (p.childId left), some (p.childId e.2),
      some ⟨.btree p.pid, pre.length + 1⟩⟩, e.2, rfl, rfl, hstep.trans ?_⟩
    rw [show ([e].map Prod.snd).dropLast = [] from rfl, ← adopt_cons hpage, adopt_nil]
    cases k with
    | zero => rfl
    | succ k =>
      rw [updateChildren, bind_ok (internalAt_run hp'), if_neg]
      · rfl
      · simp [BTreeInternalPageIterator.ne, BTreeInternalPage.ending]
  | cons e' post ih =>
    rw [List.length_cons] at hk
    obtain ⟨k, rfl⟩ : ∃ l, k = l + 1 := ⟨k - 1, by omega⟩
    obtain ⟨hleft, hne⟩ := hchildren left List.mem_cons_self
    obtain ⟨page, hpage, hid, hp', hstep⟩ :=
      updateChildren_step hP hp hfilled hleft hne hfilled.next_eq k acc
    have hcons : pre ++ e :: e' :: post = (pre ++ [e]) ++ e' :: post := by simp
    have hchildren' : ∀ c ∈ e.2 :: (e' :: post).map Prod.snd,
        (t.setPage left (page.withParent P)).HasNode (p.childId c) ∧ c ≠ P := by
      intro c hc
      obtain ⟨hnode, hcP⟩ := hchildren c (List.mem_cons_of_mem left hc)
      exact ⟨setParent_hasNode hnode hpage, hcP⟩
    have hlen : (pre ++ [e]).length = pre.length + 1 := by simp
    obtain ⟨entry, last, hlast, hright, hrun⟩ := ih hp'
      (show p.Filled first ((pre ++ [e]) ++ e' :: post) from hcons ▸ hfilled) hchildren'
      (show post.length < k by omega) (some ⟨some (.int e.1), some (p.childId left),
        some (p.childId e.2), some ⟨.btree p.pid, pre.length + 1⟩⟩)
    refine ⟨entry, last, ?_, hright, hstep.trans ?_⟩
    · rw [List.map_cons, List.map_cons, List.dropLast_cons_cons, List.cons_append]
      exact congrArg (e.2 :: ·) hlast
    · rw [hlen] at hrun
      rw [List.map_cons, List.map_cons, List.dropLast_cons_cons, ← adopt_cons hpage]
      exact hrun

theorem updateParentPointers_run (hP : P ≠ 0) (hp : t.pages P = some (.internal p))
    (hpid : p.pid = ⟨t.tableid, P, .internal⟩) {entries : List (Int32 × Int32)}
    (hfilled : p.Filled first entries) (hne : entries ≠ [])
    (hchildren : ∀ c ∈ BTreeInternalPage.childList first entries,
      t.HasNode (p.childId c) ∧ c ≠ P) :
    updateParentPointers P t =
      .ok () (t.adopt P (BTreeInternalPage.childList first entries)) := by
  obtain ⟨e, post, rfl⟩ := List.exists_cons_of_ne_nil hne
  have hslots := hfilled.slots
  rw [List.length_cons] at hslots
  obtain ⟨entry, last, hlast, hright, hrun⟩ := updateChildren_run hP hp
    (show p.Filled first ([] ++ e :: post) from hfilled) hchildren
    (show post.length < p.numSlots by omega) none
  rw [List.length_nil] at hrun
  have hmem : last ∈ first :: (e :: post).map Prod.snd := by
    rw [hlast]
    simp
  obtain ⟨page, hpage, -, hlastrun⟩ := updateParentPointer_node hP
    ((hchildren last hmem).1.adopt P (first :: ((e :: post).map Prod.snd).dropLast))
  have hall : BTreeInternalPage.childList first (e :: post) =
      (first :: ((e :: post).map Prod.snd).dropLast) ++ [last] := congrArg (first :: ·) hlast
  rw [updateParentPointers, bind_ok (internalAt_run hp), bind_ok (lift_run hfilled.begin_eq t), hpid,
    bind_ok hrun]
  simp only [hright]
  have hset := adopt_cons (P := P) (n := last) hpage []
  rw [adopt_nil] at hset
  exact hlastrun.trans (by rw [hall, ← adopt_adopt, ← hset]; rfl)

end Parents

section Allocation

variable {r : BTreeRootPtrPage} {type : BTreePageType}

theorem getRootPtrPage_run (h : t.Has (BTreeRootPtrPage.getId t.tableid)) (hsize : t.size ≠ 0) :
    getRootPtrPage t = .ok (0 : Int32) t := by
  have hempty : ¬ TreeStore.isEmpty t = true := by simpa [TreeStore.isEmpty] using hsize
  rw [getRootPtrPage, bind_ok (get_run t), if_neg hempty]
  exact h.getPage .readOnly

def created (t : LogicalTree) : LogicalTree :=
  { t with size := BTreeRootPtrPage.size + t.pageSize }.touch (BTreeRootPtrPage.getId t.tableid)

theorem created_root {r : BTreeRootPtrPage}
    (hblank : t.blank t.reads (BTreeRootPtrPage.getId t.tableid) = .rootPtr r) :
    (created t).pages 0 = some (.rootPtr r) := by
  simpa [created, touch, setPage, BTreeRootPtrPage.getId] using hblank

theorem created_of_ne (hn : n ≠ 0) : (created t).pages n = t.pages n := setPage_ne hn

theorem created_numPages (hpos : 0 < t.pageSize) : (created t).getNumPages = 1 := by
  change (BTreeRootPtrPage.size + t.pageSize - BTreeRootPtrPage.size) / t.pageSize = 1
  rw [Nat.add_sub_cancel_left, Nat.div_self hpos]

theorem created_has {r : BTreeRootPtrPage}
    (hblank : t.blank t.reads (BTreeRootPtrPage.getId t.tableid) = .rootPtr r)
    (hpid : r.pid = BTreeRootPtrPage.getId t.tableid)
    (hlimit : ((BTreeRootPtrPage.size + t.pageSize : ℕ) : ℕ∞) ≤ t.limit) :
    (created t).Has (BTreeRootPtrPage.getId t.tableid) :=
  ⟨⟨Nat.le_add_right _ _, hlimit, rfl, rfl⟩, _, created_root hblank, hpid, rfl⟩

theorem getRootPtrPage_created (hsize : t.size = 0) (hroot : t.pages 0 = none)
    (hlimit : ((BTreeRootPtrPage.size + t.pageSize : ℕ) : ℕ∞) ≤ t.limit) :
    getRootPtrPage t = .ok (0 : Int32) (created t) := by
  have hempty : TreeStore.isEmpty t = true := by simpa [TreeStore.isEmpty] using hsize
  have hcreate : TreeStore.createFile t =
      .ok () { t with size := BTreeRootPtrPage.size + t.pageSize } := by
    change LogicalTree.createFile t = _
    rw [LogicalTree.createFile, if_pos hsize]
  have hin : ({ t with size := BTreeRootPtrPage.size + t.pageSize } : LogicalTree).InFile
      (BTreeRootPtrPage.getId t.tableid) := ⟨Nat.le_add_right _ _, hlimit, rfl, rfl⟩
  rw [getRootPtrPage, bind_ok (get_run t), if_pos hempty, bind_ok hcreate]
  exact getPage_touch .readOnly hroot hin

theorem appendPage_run (hsize : BTreeRootPtrPage.size ≤ t.size) :
    TreeStore.appendPage t = .ok () { t with size := t.size + t.pageSize } := by
  change LogicalTree.appendPage t = _
  rw [LogicalTree.appendPage, if_pos hsize]

/-- Without a free number a new page goes behind the last one. -/
theorem getEmptyPageNo_append (h : t.Has (BTreeRootPtrPage.getId t.tableid))
    (hroot : t.pages 0 = some (.rootPtr r)) (hfind : findEmptyHeader r t = .ok none t)
    (hgrow : t.Grows) :
    getEmptyPageNo t = .ok t.newNumber { t with size := t.size + t.pageSize } := by
  have hsize := hgrow.size
  have hsize' : t.size ≠ 0 := by
    unfold BTreeRootPtrPage.size at hsize
    omega
  have hnumber : (t.size + t.pageSize - BTreeRootPtrPage.size) / t.pageSize =
      t.getNumPages + 1 := by
    rw [Nat.sub_add_comm hsize, Nat.add_div_right _ hgrow.pageSize]
    rfl
  rw [getEmptyPageNo, bind_ok (getRootPtrPage_run h hsize'), bind_ok (rootPtrAt_run hroot),
    bind_ok hfind]
  simp only
  rw [bind_ok (appendPage_run hsize)]
  change EStateM.Result.ok (Int32.ofNat ((t.size + t.pageSize - _) / t.pageSize)) _ = _
  rw [hnumber]
  rfl

theorem findEmptyHeader_none (hheader : r.header = 0) : findEmptyHeader r t = .ok none t := by
  rw [findEmptyHeader, BTreeRootPtrPage.getHeaderId, if_pos hheader]
  rfl

theorem getEmptyPageNo_run (h : t.Has (BTreeRootPtrPage.getId t.tableid))
    (hroot : t.pages 0 = some (.rootPtr r)) (hheader : r.header = 0) (hgrow : t.Grows) :
    getEmptyPageNo t = .ok t.newNumber { t with size := t.size + t.pageSize } :=
  getEmptyPageNo_append h hroot (findEmptyHeader_none hheader) hgrow

theorem getEmptyPage_run (h : t.Has (BTreeRootPtrPage.getId t.tableid))
    (hroot : t.pages 0 = some (.rootPtr r)) (hheader : r.header = 0) (hgrow : t.Grows)
    (htype : type ≠ .rootPtr) : getEmptyPage type t = .ok t.newNumber (t.extend type) := by
  have hsize := hgrow.size
  have hnumber := hgrow.toInt_newNumber
  have hclear : TreeStore.clearPage t.newNumber { t with size := t.size + t.pageSize } =
      .ok () { t with size := t.size + t.pageSize + t.clearGrowth } := by
    change LogicalTree.clearPage _ _ = _
    rw [LogicalTree.clearPage, if_pos]
    refine ⟨hgrow.fresh, ?_, by omega, ?_⟩
    · exact le_trans (by exact_mod_cast Nat.le_add_right _ _) hgrow.limit
    change _ ≤ (((t.size + t.pageSize - BTreeRootPtrPage.size) / t.pageSize : ℕ) : Int)
    rw [Nat.sub_add_comm hsize, Nat.add_div_right _ hgrow.pageSize, hnumber]
    exact le_rfl
  have hdiscard : TreeStore.discardPage ⟨t.tableid, t.newNumber, type⟩
      { t with size := t.size + t.pageSize + t.clearGrowth } =
        .ok () { t with size := t.size + t.pageSize + t.clearGrowth } := by
    change LogicalTree.discardPage _ _ = _
    rw [LogicalTree.discardPage, if_pos hgrow.fresh]
  rw [getEmptyPage, bind_ok (getEmptyPageNo_run h hroot hheader hgrow)]
  exact (bind_ok hclear).trans ((bind_ok hdiscard).trans
    (getPage_touch .readWrite hgrow.fresh (hgrow.inFile htype)))

end Allocation

end BTreeFile

end PagedDb
