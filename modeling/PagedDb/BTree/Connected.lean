import PagedDb.BTree.LegalTree
import PagedDb.BTree.PagePointers
import PagedDb.Foundation.Relate

/-!
# No insertion asks for a missing page

A file is connected if every id on its pages leads to a page of the file. An
insertion into a connected file fails, if it does, at an assertion, a comparison
or a null pointer, but not at an access to a page, and leaves the file connected
where it returns. Nothing about the order of keys is needed for that.
-/

namespace PagedDb

open Exec LogicalTree BTreeFile

/-- What is the same for all pages of a file. -/
structure FileShape where
  tableid : Int32
  td : TupleDesc
  keyField : ℕ
  pageSize : ℕ

/-- Where a page with the number `n` points. -/
def Points (F : FileShape) (t : LogicalTree) (n : Int32) : BTreeFilePage → Prop
  | .rootPtr r => r.header = 0 ∧ ∃ root, r.getRootId = some root ∧ t.HasNode root
  | .header _ => True
  | .internal q => q.numSlots = BTreeInternalPage.maxEntries F.pageSize F.td F.keyField + 1 ∧
      (q.parent ≠ 0 → t.HasNode ⟨F.tableid, q.parent, .internal⟩) ∧
      ∀ i key c, q.slot? i = some (key, c) → t.HasNode ⟨F.tableid, c, q.childCategory⟩
  | .leaf p => p.td = F.td ∧ p.keyField = F.keyField ∧
      p.numSlots = BTreeLeafPage.getMaxTuples F.pageSize F.td ∧
      (p.parent ≠ 0 → t.HasNode ⟨F.tableid, p.parent, .internal⟩) ∧
      (p.rightSibling ≠ 0 → t.Has ⟨F.tableid, p.rightSibling, .leaf⟩) ∧ p.rightSibling ≠ n

/-- Every id on a page leads to a page of the file, and every page of the file has been asked
for. -/
structure Connected (F : FileShape) (t : LogicalTree) : Prop where
  tableid : t.tableid = F.tableid
  keyField : t.keyField = F.keyField
  pageSize : t.pageSize = F.pageSize
  clearGrowth : t.clearGrowth = 0
  placed : t.Placed
  rooted : t.Has (BTreeRootPtrPage.getId F.tableid)
  points : ∀ n page, t.pages n = some page → Points F t n page
  fresh : t.FreshPages F.td
  complete : ∀ n : Int32, 0 < n.toInt → n.toInt ≤ t.getNumPages → (t.pages n).isSome

/-- A later state of a run that has added at most `k` pages: every page is still there. -/
structure Later (k : ℕ) (t t' : LogicalTree) : Prop where
  grown : ∃ j ≤ k, GrownBy j t t'
  has : ∀ id, t.Has id → t'.Has id

/-- A run that starts in `t`, adds at most `k` pages and keeps the file connected, if it returns,
and that does not ask for a missing page. -/
def Safe {α : Type} (F : FileShape) (k : ℕ) (t : LogicalTree) (Q : α → LogicalTree → Prop) :
    EStateM.Result Fault LogicalTree α → Prop :=
  Avoids stuck fun a t' => Connected F t' ∧ Later k t t' ∧ Q a t'

section Basics

variable {F : FileShape} {t t' t'' : LogicalTree} {n : Int32} {page : BTreeFilePage} {j k : ℕ}

theorem Later.refl (t : LogicalTree) : Later 0 t t := ⟨⟨0, le_rfl, .refl t⟩, fun _ h => h⟩

theorem Later.trans (h : Later j t t') (h' : Later k t' t'') : Later (j + k) t t'' := by
  obtain ⟨a, ha, hgrown⟩ := h.grown
  obtain ⟨b, hb, hgrown'⟩ := h'.grown
  exact ⟨⟨a + b, Nat.add_le_add ha hb, hgrown.trans hgrown'⟩, fun id hid => h'.has id (h.has id hid)⟩

theorem Later.mono (h : Later j t t') (hjk : j ≤ k) : Later k t t' := by
  obtain ⟨a, ha, hgrown⟩ := h.grown
  exact ⟨⟨a, ha.trans hjk, hgrown⟩, h.has⟩

theorem Later.node (h : Later k t t') {id : BTreePageId} (hid : t.HasNode id) : t'.HasNode id :=
  ⟨h.has id hid.has, hid.node⟩

theorem Later.roomy (h : Later j t t') (hroom : t.Roomy (j + k)) : t'.Roomy k := by
  obtain ⟨a, ha, hgrown⟩ := h.grown
  exact (hroom.of_le (Nat.add_le_add_right ha k)).grown hgrown

theorem Later.setPage {old : BTreeFilePage} (hold : t.pages n = some old)
    (hid : page.getId = old.getId) (hkind : page.kind = old.kind) :
    Later 0 t (t.setPage n page) :=
  ⟨⟨0, le_rfl, (GrownBy.refl t).setPage n page⟩, fun _ h => h.setPage hold hid hkind⟩

theorem Later.extend (hgrow : t.Grows) (type : BTreePageType) : Later 1 t (t.extend type) :=
  ⟨⟨1, le_rfl, .extend t type⟩, fun _ h => h.extend hgrow⟩

theorem Points.later (h : Points F t n page) (hl : Later k t t') : Points F t' n page := by
  cases page with
  | rootPtr r =>
    obtain ⟨hheader, root, hroot, hnode⟩ := h
    exact ⟨hheader, root, hroot, hl.node hnode⟩
  | header r => trivial
  | internal q =>
    obtain ⟨hsize, hparent, hslots⟩ := h
    exact ⟨hsize, fun h₀ => hl.node (hparent h₀), fun i key c hc => hl.node (hslots i key c hc)⟩
  | leaf p =>
    obtain ⟨htd, hkey, hslots, hparent, hright, hne⟩ := h
    exact ⟨htd, hkey, hslots, fun h₀ => hl.node (hparent h₀), fun h₀ => hl.has _ (hright h₀), hne⟩

theorem Points.sameFrame {p q : BTreeLeafPage} (h : Points F t n (.leaf p))
    (hframe : q.SameFrame p) : Points F t n (.leaf q) := by
  obtain ⟨htd, hkey, hslots, hparent, hright, hne⟩ := h
  refine ⟨hframe.td.trans htd, hframe.keyField.trans hkey, hframe.numSlots.trans hslots, ?_, ?_, ?_⟩
  · rwa [hframe.parent]
  · rwa [hframe.rightSibling]
  · rwa [hframe.rightSibling]

theorem Points.withParent {P : Int32} (h : Points F t n page)
    (hP : t.HasNode ⟨F.tableid, P, .internal⟩) : Points F t n (page.withParent P) := by
  cases page with
  | rootPtr r => exact h
  | header r => exact h
  | internal q => exact ⟨h.1, fun _ => hP, h.2.2⟩
  | leaf p =>
    obtain ⟨htd, hkey, hslots, -, hright, hne⟩ := h
    exact ⟨htd, hkey, hslots, fun _ => hP, hright, hne⟩

theorem Points.child {q : BTreeInternalPage} {i : ℕ} {child : Option BTreePageId}
    (h : Points F t n (.internal q)) (hpid : q.pid.tableId = F.tableid)
    (hchild : q.getChildId i = .ok child) : ∀ id, child = some id → t.HasNode id := by
  rintro id rfl
  obtain ⟨key, c, hslot, rfl⟩ := BTreeInternalPage.getChildId_some hchild
  rw [hpid]
  exact h.2.2 i key c hslot

theorem Points.enters {q q' : BTreeInternalPage} {left right : BTreePageId}
    (h : Points F t n (.internal q)) (henters : q.Enters q' left right)
    (hleft : t.HasNode left) (hright : t.HasNode right) (hl : left.tableId = F.tableid)
    (hr : right.tableId = F.tableid) : Points F t n (.internal q') := by
  refine ⟨henters.frame.numSlots.trans h.1, ?_, ?_⟩
  · rw [henters.frame.parent]
    exact h.2.1
  · intro i key c hc
    rw [henters.category]
    rcases henters.slots i key c hc with rfl | rfl | ⟨j, key', hj⟩
    · rwa [← hl]
    · rwa [← hr, ← henters.sameType]
    · have hnode := h.2.2 j key' c hj
      rcases henters.before with hcat | hcat
      · rw [hcat] at hnode
        rcases hnode.node with htype | htype <;> cases htype
      · rwa [hcat] at hnode

namespace Safe

variable {α β : Type} {Q : α → LogicalTree → Prop} {R : β → LogicalTree → Prop}

theorem bind {x : EStateM Fault LogicalTree α} {f : α → EStateM Fault LogicalTree β}
    (hx : Safe F j t Q (x t)) (hf : ∀ a t', Connected F t' → Later j t t' → Q a t' →
      Safe F k t' R (f a t')) : Safe F (j + k) t R ((x >>= f) t) := by
  apply Avoids.bind hx
  rintro a t' ⟨hc, hl, hq⟩
  apply (hf a t' hc hl hq).mono
  rintro b t'' ⟨hc', hl', hr⟩
  exact ⟨hc', hl.trans hl', hr⟩

theorem mono {Q' : α → LogicalTree → Prop} {r : EStateM.Result Fault LogicalTree α}
    (h : Safe F j t Q r) (hjk : j ≤ k)
    (hq : ∀ a t', Connected F t' → Later j t t' → Q a t' → Q' a t') : Safe F k t Q' r :=
  Avoids.mono h fun a t' ⟨hc, hl, h⟩ => ⟨hc, hl.mono hjk, hq a t' hc hl h⟩

theorem after {r : EStateM.Result Fault LogicalTree α} (hl : Later j t t') (h : Safe F k t' Q r) :
    Safe F (j + k) t Q r := Avoids.mono h fun _ _ ⟨hc, hl', hq⟩ => ⟨hc, hl.trans hl', hq⟩

theorem ok {a : α} (hc : Connected F t') (hl : Later k t t') (hq : Q a t') :
    Safe F k t Q (.ok a t') := ⟨hc, hl, hq⟩

theorem of_never {r : EStateM.Result Fault LogicalTree α}
    (h : Avoids stuck (fun _ _ => False) r) : Safe F k t Q r := Avoids.mono h fun _ _ => False.elim

end Safe

namespace Connected

theorem leaf (h : Connected F t) (hn : t.Has ⟨F.tableid, n, .leaf⟩) :
    ∃ p, t.pages n = some (.leaf p) ∧ p.pid = ⟨F.tableid, n, .leaf⟩ ∧ Points F t n (.leaf p) := by
  obtain ⟨-, page, hpage, hid, hkind⟩ := hn
  cases page with
  | leaf p => exact ⟨p, hpage, hid, h.points n _ hpage⟩
  | rootPtr p => cases hkind
  | header p => cases hkind
  | internal p => cases hkind

theorem internal (h : Connected F t) (hn : t.Has ⟨F.tableid, n, .internal⟩) :
    ∃ q, t.pages n = some (.internal q) ∧ q.pid = ⟨F.tableid, n, .internal⟩ ∧
      Points F t n (.internal q) := by
  obtain ⟨-, page, hpage, hid, hkind⟩ := hn
  cases page with
  | internal p => exact ⟨p, hpage, hid, h.points n _ hpage⟩
  | rootPtr p => cases hkind
  | header p => cases hkind
  | leaf p => cases hkind

theorem root (h : Connected F t) : ∃ r root, t.pages 0 = some (.rootPtr r) ∧
    r.pid = BTreeRootPtrPage.getId F.tableid ∧ r.header = 0 ∧ r.getRootId = some root ∧
      t.HasNode root := by
  obtain ⟨-, page, hpage, hid, hkind⟩ := h.rooted
  cases page with
  | rootPtr r =>
    obtain ⟨hheader, root, hroot, hnode⟩ := h.points 0 _ hpage
    exact ⟨r, root, hpage, hid, hheader, hroot, hnode⟩
  | header p => cases hkind
  | internal p => cases hkind
  | leaf p => cases hkind

theorem setPage {old : BTreeFilePage} (h : Connected F t) (hold : t.pages n = some old)
    (hid : page.getId = old.getId) (hkind : page.kind = old.kind) (hpoints : Points F t n page) :
    Connected F (t.setPage n page) := by
  have hl := Later.setPage hold hid hkind
  refine
    { tableid := h.tableid, keyField := h.keyField, pageSize := h.pageSize
      clearGrowth := h.clearGrowth, placed := h.placed.setPage hold hid hkind
      rooted := hl.has _ h.rooted, points := ?_
      fresh := h.fresh.grown ((GrownBy.refl t).setPage n page), complete := ?_ }
  · intro m q hq
    by_cases hm : m = n
    · subst hm
      rw [setPage_self] at hq
      cases hq
      exact hpoints.later hl
    · rw [setPage_ne hm] at hq
      exact (h.points m q hq).later hl
  · intro m hpos hle
    by_cases hm : m = n
    · rw [hm, setPage_self]
      rfl
    · rw [setPage_ne hm]
      exact h.complete m hpos hle

/-- A new page points nowhere. -/
theorem extend (h : Connected F t) (hgrow : t.Grows) {type : BTreePageType}
    (htype : type = .leaf ∨ type = .internal) : Connected F (t.extend type) := by
  have hl := Later.extend hgrow type
  have hnumber : (t.extend type).getNumPages = t.getNumPages + 1 := by
    change (t.size + t.pageSize + t.clearGrowth - BTreeRootPtrPage.size) / t.pageSize = _
    rw [h.clearGrowth, Nat.add_zero, Nat.sub_add_comm hgrow.size,
      Nat.add_div_right _ hgrow.pageSize]
    rfl
  have hnew : (0 : Int32) ≠ t.newNumber := by
    intro heq
    have := hgrow.toInt_newNumber
    rw [← heq] at this
    exact absurd this (by simp; omega)
  obtain ⟨page, hblank, hid, hkind, hpoints⟩ : ∃ page,
      t.blank t.reads ⟨t.tableid, t.newNumber, type⟩ = page ∧
        page.getId = ⟨t.tableid, t.newNumber, type⟩ ∧ page.kind = type ∧
        Points F (t.extend type) t.newNumber page := by
    rcases htype with rfl | rfl
    · obtain ⟨p, hp, hpid, htd, hkey, hslots, -, -, hright, hparent⟩ :=
        h.fresh.leaf t.reads ⟨t.tableid, t.newNumber, .leaf⟩ rfl
      exact ⟨.leaf p, hp, hpid, rfl, htd, hkey.trans h.keyField, h.pageSize ▸ hslots,
        fun h₀ => absurd hparent h₀, fun h₀ => absurd hright h₀, hright.trans_ne hnew⟩
    · obtain ⟨q, hq, hqid, -, -, hslots, hunused, hparent, -⟩ :=
        h.fresh.internal t.reads ⟨t.tableid, t.newNumber, .internal⟩ rfl
      rw [h.pageSize, h.keyField] at hslots
      refine ⟨.internal q, hq, hqid, rfl, hslots, fun h₀ => absurd hparent h₀, fun i key c hc => ?_⟩
      obtain ⟨hi, hused, -⟩ := (BTreeInternalPage.slot?_eq_some q).mp hc
      rw [hunused i hi] at hused
      cases hused
  refine
    { tableid := h.tableid, keyField := h.keyField, pageSize := h.pageSize
      clearGrowth := h.clearGrowth
      placed := h.placed.extend hgrow (by rcases htype with rfl | rfl <;> decide) hblank hid hkind
      rooted := hl.has _ h.rooted, points := ?_
      fresh := h.fresh.grown (.extend t type), complete := ?_ }
  · intro m q hq
    by_cases hm : m = t.newNumber
    · subst hm
      rw [extend_new, hblank] at hq
      cases hq
      exact hpoints
    · rw [extend_of_ne hm] at hq
      exact (h.points m q hq).later hl
  · intro m hpos hle
    by_cases hm : m = t.newNumber
    · rw [hm, extend_new]
      rfl
    · rw [extend_of_ne hm]
      refine h.complete m hpos ?_
      have hne : m.toInt ≠ t.newNumber.toInt := fun heq => hm (Int32.toInt_inj.mp heq)
      have := hgrow.toInt_newNumber
      rw [hnumber] at hle
      push_cast at hle
      omega

end Connected

end Basics

end PagedDb
