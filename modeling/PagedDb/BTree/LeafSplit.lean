import PagedDb.BTree.LegalTree
import PagedDb.BTree.SplitLeaf

/-!
# The pages and the tree after a split

The rows of the upper half are on the new leaf, which is behind the old one in
the chain and in the parent, with the key of its first row between them. From
the pages it follows that the tree is legal.
-/

namespace PagedDb

open Exec LogicalTree BTreeFile

variable {td : TupleDesc} {T T' : KeyTree Int32 Int} {rank : Int32 → ℕ} {root : BTreePageId}
  {leaves : List Int32} {t t' : LogicalTree} {L : Int32} {p p' r' : BTreeLeafPage}

namespace Legal

theorem siblings (h : Legal td T rank root leaves t) (hL : L ∈ leaves)
    (hp : t.pages L = some (.leaf p)) : ∃ pre post, leaves = pre ++ L :: post ∧
      p.leftSibling = pre.getLast?.getD 0 ∧ p.rightSibling = post.head?.getD 0 := by
  obtain ⟨pre, post, hsplit⟩ := List.append_of_mem hL
  obtain ⟨q, hq, hleft, hright⟩ := (hsplit ▸ h.linked).siblings
  rw [hp] at hq
  cases hq
  exact ⟨pre, post, hsplit, hleft, hright⟩

theorem sibling (h : Legal td T rank root leaves t) (hrooted : t.Rooted root) (hL : L ∈ leaves)
    (hp : t.pages L = some (.leaf p)) : Sibling t p.rightSibling ∧ p.rightSibling ≠ L := by
  obtain ⟨pre, post, hsplit, -, hright⟩ := h.siblings hL hp
  obtain ⟨r, hr, -⟩ := hrooted.page
  cases post with
  | nil =>
    have hzero : p.rightSibling = 0 := hright
    rw [hzero]
    refine ⟨.inl ⟨rfl, fun n hn => ?_⟩, (ne_zero_of_has (h.leaf_has hL)).symm⟩
    rw [hr] at hn
    cases hn
  | cons m post =>
    have hm : p.rightSibling = m := hright
    have hmem : m ∈ leaves := by simp [hsplit]
    obtain ⟨n, hn, -⟩ := h.leaf m hmem
    rw [hm]
    refine ⟨.inr ⟨ne_zero_of_has (h.leaf_has hmem), (h.leaf_has hmem).has, n, hn⟩, ?_⟩
    rintro rfl
    have hnodup := h.nodup
    rw [hsplit] at hnodup
    exact (List.nodup_cons.mp (List.nodup_append.mp hnodup).2.1).1 List.mem_cons_self

end Legal

def rowsMoved (t : LogicalTree) (L : Int32) (p p' r' : BTreeLeafPage) : LogicalTree :=
  ((relinkLeft (t.extend .leaf) p.rightSibling t.newNumber).setPage L (.leaf p')).setPage
    t.newNumber (.leaf r')

section RowsMoved

theorem rowsMoved_grown : GrownBy 1 t (rowsMoved t L p p' r') := by
  have hrelink : GrownBy 1 t (relinkLeft (t.extend .leaf) p.rightSibling t.newNumber) := by
    have h := GrownBy.extend t .leaf
    exact ⟨h.tableid, h.keyField, h.pageSize, h.limit, h.clearGrowth, h.blank, h.size⟩
  exact (hrelink.setPage _ _).setPage _ _

theorem ne_newNumber (hgrow : t.Grows) {n : Int32} {page : BTreeFilePage}
    (hn : t.pages n = some page) : n ≠ t.newNumber := by
  rintro rfl
  rw [hgrow.fresh] at hn
  cases hn

theorem rowsMoved_right : (rowsMoved t L p p' r').pages t.newNumber = some (.leaf r') :=
  setPage_self

theorem rowsMoved_left (hgrow : t.Grows) (hp : t.pages L = some (.leaf p)) :
    (rowsMoved t L p p' r').pages L = some (.leaf p') := by
  rw [rowsMoved, setPage_ne (ne_newNumber hgrow hp), setPage_self]

theorem rowsMoved_next (hgrow : t.Grows) (hne : p.rightSibling ≠ L) {n : BTreeLeafPage}
    (hn : t.pages p.rightSibling = some (.leaf n)) :
    (rowsMoved t L p p' r').pages p.rightSibling =
      some (.leaf { n with leftSibling := t.newNumber }) := by
  have hn₁ : (t.extend .leaf).pages p.rightSibling = some (.leaf n) := by
    rw [extend_of_ne (ne_newNumber hgrow hn), hn]
  rw [rowsMoved, setPage_ne (ne_newNumber hgrow hn), setPage_ne hne, relinkLeft_leaf hn₁,
    setPage_self]

theorem rowsMoved_other {n : Int32} (hL : n ≠ L) (hR : n ≠ t.newNumber)
    (hnext : n = p.rightSibling → ∀ q, t.pages n ≠ some (.leaf q)) :
    (rowsMoved t L p p' r').pages n = t.pages n := by
  rw [rowsMoved, setPage_ne hR, setPage_ne hL]
  by_cases hn : n = p.rightSibling
  · have hnone : ∀ q, (t.extend .leaf).pages p.rightSibling ≠ some (.leaf q) := by
      rw [← hn, extend_of_ne hR]
      exact hnext hn
    rw [relinkLeft_none hnone, extend_of_ne hR]
  · rw [relinkLeft_of_ne hn, extend_of_ne hR]

end RowsMoved

/-- What moving the rows to the new leaf `R` has done to the pages. -/
structure RowsMoved (t t₃ : LogicalTree) (L R : Int32) (p p' r' : BTreeLeafPage) : Prop where
  tableid : t₃.tableid = t.tableid
  keyField : t₃.keyField = t.keyField
  pageSize : t₃.pageSize = t.pageSize
  has : ∀ id, t.Has id → t₃.Has id
  has_right : t₃.Has ⟨t.tableid, R, .leaf⟩
  fresh : t.pages R = none
  left : t₃.pages L = some (.leaf p')
  right : t₃.pages R = some (.leaf r')
  next : ∀ n, t.pages p.rightSibling = some (.leaf n) →
    t₃.pages p.rightSibling = some (.leaf { n with leftSibling := R })
  other : ∀ n page, t.pages n = some page → n ≠ 0 → n ≠ L →
    (n = p.rightSibling → ∀ q, page ≠ .leaf q) → t₃.pages n = some page

/-- How a split divides a leaf `p` at the key `v` into `p'` and the new leaf `r'`, with the number
`R`. -/
structure Halves (t : LogicalTree) (L R v : Int32) (p p' r' : BTreeLeafPage) : Prop where
  left : p'.SameFrame { p with rightSibling := R }
  right_pid : r'.pid = ⟨t.tableid, R, .leaf⟩
  right_td : r'.td = p.td
  right_keyField : r'.keyField = p.keyField
  right_numSlots : r'.numSlots = p.numSlots
  right_left : r'.leftSibling = L
  right_right : r'.rightSibling = p.rightSibling
  rows : ∃ keep row moved, p.rows = keep ++ row :: moved ∧ keep.length = p.rows.length / 2 ∧
    v.toInt = intKey p.keyField row ∧ p'.rows = keep ∧
      r'.rows = insertRows p.keyField (row :: moved) []

/-- The first part of a split, up to the parent. -/
theorem Legal.split_rows (h : Legal td T rank root leaves t) (hplaced : t.Placed)
    (hrooted : t.Rooted root) (hfresh : t.FreshPages td) (hgrow : t.Grows) (hL : L ∈ leaves)
    (hp : t.pages L = some (.leaf p)) (hne : p.rows ≠ []) :
    ∃ p' r' v, Halves t L t.newNumber v p p' r' ∧ r'.parent = 0 ∧
      (rowsMoved t L p p' r').Placed ∧
      (∀ id, t.Has id → (rowsMoved t L p p' r').Has id) ∧
      ∀ fuel f P t₄ t₅,
        getParentWithEmptySlots fuel (BTreePage.getParentId t.tableid p.parent) (some (.int v))
          (rowsMoved t L p p' r') = .ok P t₄ →
        enterSplit P (some (.int v)) ⟨t.tableid, L, .leaf⟩ ⟨t.tableid, t.newNumber, .leaf⟩ t₄ =
          .ok () t₅ →
        splitLeafPage fuel L (.int f) t =
          .ok (if f.toInt < v.toInt then L else t.newNumber) t₅ := by
  have hleaf := h.legalLeaf hL hp
  obtain ⟨hid, hhas⟩ := h.leaf_id hL hp
  obtain ⟨r, hblank, hrid, hrtd, hrkey, hrslots, hrrows, -, -, hrparent⟩ :=
    hfresh.leaf t.reads ⟨t.tableid, t.newNumber, .leaf⟩ rfl
  obtain ⟨hsibling, hnL⟩ := h.sibling hrooted hL hp
  obtain ⟨root, hroot, hheader, -⟩ := hrooted.page
  have hempty := getEmptyPage_run hrooted.has hroot hheader hgrow
    (show BTreePageType.leaf ≠ .rootPtr by decide)
  have hLR := ne_newNumber hgrow hp
  have hp₁ : (t.extend .leaf).pages L = some (.leaf p) := by rw [extend_of_ne hLR, hp]
  have hr₁ : (t.extend .leaf).pages t.newNumber = some (.leaf r) := by rw [extend_new, hblank]
  have h₀ : (0 : Int32) ≠ t.newNumber := ne_newNumber hgrow hroot
  have hnR : p.rightSibling ≠ t.newNumber := by
    rcases hsibling with ⟨heq, -⟩ | ⟨-, -, n, hn⟩
    · rwa [heq]
    · exact ne_newNumber hgrow hn
  have hsibling₁ : Sibling (t.extend .leaf) p.rightSibling := by
    rcases hsibling with ⟨heq, hnone⟩ | ⟨hne₀, hhas', n, hn⟩
    · exact .inl ⟨heq, fun n => by rw [extend_of_ne h₀]; exact hnone n⟩
    · exact .inr ⟨hne₀, hhas'.extend hgrow, n, by rw [extend_of_ne hnR, hn]⟩
  obtain ⟨keep, row, moved, hrows, hkeep, hmoved⟩ := exists_halves hne
  have hcount := p.rows_length_add_empty
  have hlen : p.rows.length = keep.length + moved.length + 1 := by
    rw [hrows, List.length_append, List.length_cons]
    omega
  have hint : p.IntKeyed := by
    rw [BTreeLeafPage.IntKeyed, hleaf.schema, hleaf.keyField]
    exact h.key
  have hslots : r.numSlots = p.numSlots := hrslots.trans hleaf.numSlots.symm
  have hrtd' := hrtd.trans hleaf.schema.symm
  have hrkey' := hrkey.trans hleaf.keyField.symm
  obtain ⟨p', r', v, hleft, hkeep', hright, hmoved', hv, hrun⟩ := splitLeafPage_rows
    hempty hp₁ hr₁ hLR hid hrid hleaf.keyField hsibling₁ hnL hnR hrows hmoved hrrows hrtd' hrkey'
    hint
    (by rw [hslots]; omega)
  have hpid' : p'.pid = ⟨t.tableid, L, .leaf⟩ := hleft.pid.trans hid
  have hrid' : r'.pid = ⟨t.tableid, t.newNumber, .leaf⟩ := hright.pid.trans hrid
  have hplaced₁ := hplaced.extend hgrow (show BTreePageType.leaf ≠ .rootPtr by decide) hblank hrid
    rfl
  have hplaced₂ : (relinkLeft (t.extend .leaf) p.rightSibling t.newNumber).Placed :=
    hplaced₁.relinkLeft
  have hL₂ : (relinkLeft (t.extend .leaf) p.rightSibling t.newNumber).pages L = some (.leaf p) := by
    rw [relinkLeft_of_ne hnL.symm, hp₁]
  have hR₂ : ((relinkLeft (t.extend .leaf) p.rightSibling t.newNumber).setPage L
      (.leaf p')).pages t.newNumber = some (.leaf r) := by
    rw [setPage_ne hLR.symm, relinkLeft_of_ne hnR.symm, hr₁]
  have hidL : (BTreeFilePage.leaf p').getId = (BTreeFilePage.leaf p).getId := hleft.pid
  have hidR : (BTreeFilePage.leaf r').getId = (BTreeFilePage.leaf r).getId := hright.pid
  refine ⟨p', r', v, ⟨hleft, hrid', hright.td.trans hrtd', hright.keyField.trans hrkey',
    hright.numSlots.trans hslots, hright.leftSibling, hright.rightSibling, keep, row, moved, hrows,
    hkeep, hv, hkeep', hmoved'⟩, hright.parent.trans hrparent, ?_, ?_, ?_⟩
  · exact (hplaced₂.setPage hL₂ hidL rfl).setPage hR₂ hidR rfl
  · intro id hid'
    exact ((hid'.extend hgrow).relinkLeft.setPage hL₂ hidL rfl).setPage hR₂ hidR rfl
  · intro fuel f P t₄ t₅ hparent henter
    have hparentId : p'.getParentId = BTreePage.getParentId t.tableid p.parent := by
      rw [BTreeLeafPage.getParentId, hpid', hleft.parent]
    rw [← hpid', ← hrid'] at henter
    rw [rowsMoved, ← hparentId] at hparent
    exact hrun fuel f P t₄ t₅ hparent henter

theorem mem_childList_entry {first c v R : Int32} {pre post : List (Int32 × Int32)} :
    c ∈ BTreeInternalPage.childList first (pre ++ (v, R) :: post) ↔
      c = R ∨ c ∈ BTreeInternalPage.childList first (pre ++ post) := by
  simp only [BTreeInternalPage.childList, List.map_append, List.map_cons, List.mem_cons,
    List.mem_append]
  tauto

theorem LogicalTree.Has.ne_internal {n P tableid : Int32} {q : BTreeInternalPage}
    (h : t.Has ⟨tableid, n, .leaf⟩) (hq : t.pages P = some (.internal q)) : n ≠ P := by
  rintro rfl
  obtain ⟨-, page, hpage, -, hkind⟩ := h
  rw [show t.pages n = some page from hpage] at hq
  cases hq
  cases hkind

section Children

variable {P R v first : Int32} {pre post : List (Int32 × Int32)} {t₄ : LogicalTree}

theorem adopt_child {children : List Int32} {c : Int32} {page : BTreeFilePage}
    (hc : c ∈ children) (hp : t.pages c = some page) :
    (t.adopt P children).pages c = some (page.withParent P) := by
  rw [adopt_pages, if_pos hc, hp, Option.map_some]

theorem adopt_kept {children : List Int32} {c : Int32} {page : BTreeFilePage}
    (hp : t.pages c = some page) (hparent : c ∈ children → page.parent? = some P) :
    (t.adopt P children).pages c = some page := by
  rw [adopt_pages, hp]
  split
  · rw [Option.map_some, BTreeFilePage.withParent_self (hparent ‹_›)]
  · rfl

theorem RowsMoved.children {p₁ : BTreeLeafPage} (hm : RowsMoved t t₄ L R p p₁ r')
    {q : BTreeInternalPage} (hq : t₄.pages P = some (.internal q))
    (hchildren : ∀ c ∈ BTreeInternalPage.childList first (pre ++ post),
      t.HasNode ⟨t.tableid, c, .leaf⟩) {c : Int32}
    (hc : c ∈ BTreeInternalPage.childList first (pre ++ (v, R) :: post)) :
    t₄.HasNode ⟨t₄.tableid, c, .leaf⟩ ∧ c ≠ P := by
  have hhas : t₄.Has ⟨t₄.tableid, c, .leaf⟩ := by
    rw [hm.tableid]
    rcases mem_childList_entry.mp hc with rfl | hc
    · exact hm.has_right
    · exact hm.has _ (hchildren c hc).has
  exact ⟨⟨hhas, .inl rfl⟩, hhas.ne_internal hq⟩

theorem halves_withParent (h : Halves t L R v p p' r') (P : Int32) :
    Halves t L R v { p with parent := P } { p' with parent := P } { r' with parent := P } :=
  ⟨⟨h.left.pid, h.left.td, h.left.numSlots, h.left.keyField, rfl, h.left.leftSibling,
    h.left.rightSibling⟩, h.right_pid, h.right_td, h.right_keyField, h.right_numSlots,
    h.right_left, h.right_right, h.rows⟩

end Children

/-- What a split of the leaf `L` has done to the pages: `R` is the new leaf and `P` its parent, with
the entry for it behind those in `pre`. -/
structure LeafSplit (t t' : LogicalTree) (L R P v first : Int32) (pre post : List (Int32 × Int32))
    (p p' r' : BTreeLeafPage) (q' : BTreeInternalPage) : Prop where
  tableid : t'.tableid = t.tableid
  keyField : t'.keyField = t.keyField
  pageSize : t'.pageSize = t.pageSize
  has : ∀ id, t.Has id → t'.Has id
  has_right : t'.Has ⟨t.tableid, R, .leaf⟩
  fresh : t.pages R = none
  left : t'.pages L = some (.leaf p')
  right : t'.pages R = some (.leaf r')
  halves : Halves t L R v { p with parent := P } p' r'
  right_parent : r'.parent = P
  next : ∀ n, t.pages p.rightSibling = some (.leaf n) →
    t'.pages p.rightSibling = some (.leaf { n with leftSibling := R })
  other : ∀ n page, t.pages n = some page → n ≠ 0 → n ≠ L → n ≠ P →
    (n = p.rightSibling → ∀ q, page ≠ .leaf q) → t'.pages n = some page
  parent : t'.pages P = some (.internal q')
  parent_pid : q'.pid = ⟨t.tableid, P, .internal⟩
  parent_td : q'.td = p.td
  parent_keyField : q'.keyField = p.keyField
  parent_category : q'.childCategory = .leaf
  filled : q'.Filled first (pre ++ (v, R) :: post)
  left_child : KeyTree.lastChild first pre = L
  children : ∀ c ∈ BTreeInternalPage.childList first (pre ++ post),
    t.HasNode ⟨t.tableid, c, .leaf⟩ ∧
      (c ≠ L → ∃ page, t.pages c = some page ∧ page.parent? = some P)
  sorted : (pre ++ (v, R) :: post).Pairwise fun a b => a.1.toInt ≤ b.1.toInt
  old_parent : ∀ page, t.pages P = some page → page.parent? = some q'.parent ∧ page.kind = .internal

/-- The inner nodes of a tree in front of the entry for a new leaf: those of `T`, and the parent. -/
structure Parented (T T₁ : KeyTree Int32 Int) (P : Int32) (root : BTreePageId)
    (leaves : List Int32) : Prop where
  node : ∀ n, n ≠ P → T₁.node n = T.node n
  range : ∀ n w, T.InRange n w → T₁.InRange n w
  before : ∀ a b, T.Before a b → T₁.Before a b
  root_mem : (T₁.node root.pgNo).isSome ∨ root.pgNo ∈ leaves
  root_top : ∀ n, ¬ T₁.Child n root.pgNo
  top : ∀ n, (T₁.node n).isSome ∨ n ∈ leaves → n = root.pgNo ∨ ∃ m, T₁.Child m n
  child : ∀ n c, T₁.Child n c → (T₁.node c).isSome ∨ c ∈ leaves

namespace LeafSplit

variable {R P v first : Int32} {pre post : List (Int32 × Int32)} {q' : BTreeInternalPage}

theorem ne_right (hs : LeafSplit t t' L R P v first pre post p p' r' q') {n : Int32}
    {page : BTreeFilePage} (hn : t.pages n = some page) : n ≠ R := by
  rintro rfl
  rw [hs.fresh] at hn
  cases hn

theorem kept (hs : LeafSplit t t' L R P v first pre post p p' r' q') {n : Int32}
    {page : BTreeFilePage} (hn : t.pages n = some page) (h₀ : n ≠ 0) (hL : n ≠ L) :
    ∃ page', t'.pages n = some page' ∧ page'.parent? = page.parent? := by
  by_cases hP : n = P
  · subst hP
    exact ⟨_, hs.parent, (hs.old_parent page hn).1.symm⟩
  · by_cases hnext : n = p.rightSibling ∧ ∃ q, page = .leaf q
    · obtain ⟨rfl, q, rfl⟩ := hnext
      exact ⟨_, hs.next q hn, rfl⟩
    · refine ⟨page, hs.other n page hn h₀ hL hP ?_, rfl⟩
      intro heq q hq
      exact hnext ⟨heq, q, hq⟩

theorem kept_leaf (hs : LeafSplit t t' L R P v first pre post p p' r' q') {n : Int32}
    {q : BTreeLeafPage} (hn : t.pages n = some (.leaf q)) (h₀ : n ≠ 0) (hL : n ≠ L) :
    ∃ left, t'.pages n = some (.leaf { q with leftSibling := left }) := by
  have hP : n ≠ P := by
    rintro rfl
    cases (hs.old_parent _ hn).2
  by_cases hnext : n = p.rightSibling
  · subst hnext
    exact ⟨R, hs.next q hn⟩
  · exact ⟨q.leftSibling, hs.other n _ hn h₀ hL hP fun heq => absurd heq hnext⟩

theorem keys (hs : LeafSplit t t' L R P v first pre post p p' r' q')
    (hordered : KeyOrdered p.keyField p.rows) :
    KeyOrdered p.keyField p'.rows ∧ KeyOrdered p.keyField r'.rows ∧
      (∃ row ∈ p.rows, v.toInt = intKey p.keyField row) ∧
      (∀ row ∈ p'.rows, row ∈ p.rows ∧ intKey p.keyField row ≤ v.toInt) ∧
      ∀ row ∈ r'.rows, row ∈ p.rows ∧ v.toInt ≤ intKey p.keyField row := by
  obtain ⟨keep, row, moved, hrows, -, hv, hleft, hright⟩ := hs.halves.rows
  have hrows : p.rows = keep ++ row :: moved := hrows
  have hv : v.toInt = intKey p.keyField row := hv
  rw [KeyOrdered, hrows, List.pairwise_append] at hordered
  obtain ⟨hkeep, hmoved, hbetween⟩ := hordered
  rw [hleft, hright, hrows, hv]
  have hnil : KeyOrdered p.keyField [] := .nil
  refine ⟨hkeep, hnil.insertRows _, ⟨row, by simp, rfl⟩, ?_, ?_⟩
  · intro x hx
    exact ⟨List.mem_append_left _ hx, hbetween x hx row List.mem_cons_self⟩
  · intro x hx
    have hx := (insertRows_perm p.keyField (row :: moved) []).mem_iff.mp hx
    rw [List.append_nil] at hx
    refine ⟨List.mem_append_right _ hx, ?_⟩
    rcases List.mem_cons.mp hx with rfl | hx
    · exact le_rfl
    · exact (List.pairwise_cons.mp hmoved).1 x hx

section Legal

variable {T₁ : KeyTree Int32 Int} {rank₁ : Int32 → ℕ} {root' : BTreePageId} {A B : List Int32}

theorem key_inRange (hs : LeafSplit t t' L R P v first pre post p p' r' q')
    (hleaf : LegalLeaf td T t L p) (hpar : Parented T T₁ P root' leaves) :
    T₁.InRange L v.toInt := by
  obtain ⟨-, -, ⟨row, hrow, hv⟩, -⟩ := hs.keys hleaf.ordered
  rw [hv]
  exact hpar.range L _ (hleaf.range row hrow)

theorem legal_halves (hs : LeafSplit t t' L R P v first pre post p p' r' q')
    (hleaf : LegalLeaf td T t L p) (hpar : Parented T T₁ P root' leaves)
    (hsplit : T₁.Splits T' rank₁ P L R first v.toInt (intEntries pre) (intEntries post)) :
    LegalLeaf td T' t' L p' ∧ LegalLeaf td T' t' R r' := by
  obtain ⟨hleft, hright, -, hlow, hhigh⟩ := hs.keys hleaf.ordered
  have hk := hs.key_inRange hleaf hpar
  have hframe := hs.halves.left
  have hkey : p'.keyField = p.keyField := hframe.keyField
  have hkey' : r'.keyField = p.keyField := hs.halves.right_keyField
  constructor
  · refine ⟨hframe.td.trans hleaf.schema, ?_, ?_, by rwa [hkey], ?_⟩
    · rw [hkey, hleaf.keyField, hs.keyField]
    · rw [hs.pageSize]
      exact hframe.numSlots.trans hleaf.numSlots
    · intro row hrow
      obtain ⟨hmem, hle⟩ := hlow row hrow
      rw [hkey]
      exact hsplit.inRange_left hk (hpar.range L _ (hleaf.range row hmem)) hle
  · refine ⟨hs.halves.right_td.trans hleaf.schema, ?_, ?_, by rwa [hkey'], ?_⟩
    · rw [hkey', hleaf.keyField, hs.keyField]
    · rw [hs.pageSize]
      exact hs.halves.right_numSlots.trans hleaf.numSlots
    · intro row hrow
      obtain ⟨hmem, hle⟩ := hhigh row hrow
      rw [hkey']
      exact hsplit.inRange_right hk (hpar.range L _ (hleaf.range row hmem)) hle

theorem legal_leaf (hs : LeafSplit t t' L R P v first pre post p p' r' q')
    (h : Legal td T rank root leaves t) (hL : L ∈ leaves) (hp : t.pages L = some (.leaf p))
    (hpar : Parented T T₁ P root' leaves)
    (hsplit : T₁.Splits T' rank₁ P L R first v.toInt (intEntries pre) (intEntries post))
    {n : Int32} (hn : n ∈ leaves ∨ n = R) :
    ∃ q, t'.pages n = some (.leaf q) ∧ LegalLeaf td T' t' n q := by
  have hleaf := h.legalLeaf hL hp
  obtain ⟨hl, hr⟩ := hs.legal_halves hleaf hpar hsplit
  rcases hn with hn | rfl
  · by_cases hnL : n = L
    · subst hnL
      exact ⟨p', hs.left, hl⟩
    · obtain ⟨q, hq, hlegal⟩ := h.leaf n hn
      obtain ⟨left, hq'⟩ := hs.kept_leaf hq (Legal.ne_zero_of_has (h.leaf_has hn)) hnL
      refine ⟨_, hq', hlegal.schema, ?_, ?_, hlegal.ordered, ?_⟩
      · rw [hs.keyField]
        exact hlegal.keyField
      · rw [hs.pageSize]
        exact hlegal.numSlots
      · intro row hrow
        exact hsplit.inRange_other (hs.key_inRange hleaf hpar)
          (hpar.range n _ (hlegal.range row hrow)) hnL (hs.ne_right hq)
  · exact ⟨r', hs.right, hr⟩

theorem legal_parent (hs : LeafSplit t t' L R P v first pre post p p' r' q')
    (hleaf : LegalLeaf td T t L p)
    (hsplit : T₁.Splits T' rank₁ P L R first v.toInt (intEntries pre) (intEntries post)) :
    LegalInternal td T' t' P q' first (pre ++ (v, R) :: post) := by
  have hid : ∀ c, q'.childId c = ⟨t.tableid, c, .leaf⟩ := by
    intro c
    rw [BTreeInternalPage.childId, hs.parent_pid, hs.parent_category]
  refine ⟨hs.parent_td.trans hleaf.schema, ?_, ?_, hs.filled, by simp, hs.sorted, ?_, ?_⟩
  · rw [hs.parent_keyField, hleaf.keyField, hs.keyField]
  · simpa using hsplit.after
  · intro c hc
    rw [hid]
    rcases mem_childList_entry.mp hc with rfl | hc
    · exact ⟨hs.has_right, .inl rfl⟩
    · exact ⟨hs.has _ (hs.children c hc).1.has, .inl rfl⟩
  · intro c hc
    rcases mem_childList_entry.mp hc with rfl | hc
    · exact ⟨_, hs.right, congrArg some hs.right_parent⟩
    · by_cases hcL : c = L
      · subst hcL
        exact ⟨_, hs.left, congrArg some hs.halves.left.parent⟩
      · obtain ⟨hnode, hparent⟩ := hs.children c hc
        obtain ⟨page, hpage, hP⟩ := hparent hcL
        obtain ⟨page', hpage', hsame⟩ :=
          hs.kept hpage (Legal.ne_zero_of_has hnode) hcL
        exact ⟨page', hpage', hsame.trans hP⟩

/-- The other internal pages stay legal. -/
theorem legal_other (hs : LeafSplit t t' L R P v first pre post p p' r' q')
    (h : Legal td T rank root leaves t) (hL : L ∈ leaves)
    (hpar : Parented T T₁ P root' leaves)
    (hsplit : T₁.Splits T' rank₁ P L R first v.toInt (intEntries pre) (intEntries post))
    {n f : Int32} {es : List (Int × Int32)} (hnP : n ≠ P) (hnode : T'.node n = some (f, es)) :
    ∃ q entries, es = intEntries entries ∧ t'.pages n = some (.internal q) ∧
      LegalInternal td T' t' n q f entries := by
  have hT : T.node n = some (f, es) := by rw [← hpar.node n hnP, ← hsplit.others n hnP, hnode]
  obtain ⟨q, entries, rfl, hq, hint⟩ := h.internal n f es hT
  obtain ⟨-, hhas⟩ := h.pageId (.inl (by rw [hT]; rfl)) hq
  have hnL : n ≠ L := by
    rintro rfl
    rw [h.node_leaf hL] at hT
    cases hT
  have hq' := hs.other n _ hq (Legal.ne_zero_of_has hhas) hnL hnP fun _ _ => by simp
  refine ⟨q, entries, rfl, hq', hint.schema, ?_, hnode, hint.filled, hint.ne_nil, hint.sorted, ?_,
    ?_⟩
  · rw [hs.keyField]
    exact hint.keyField
  · intro c hc
    exact ⟨hs.has _ (hint.children c hc).has, (hint.children c hc).node⟩
  · intro c hc
    obtain ⟨page, hpage, hparent⟩ := hint.parents c hc
    have hcL : c ≠ L := by
      rintro rfl
      have hchild : T₁.Child n c :=
        ⟨f, intEntries entries, by rw [hpar.node n hnP, hT], by rw [intEntries_snd]; exact hc⟩
      exact hnP (hsplit.balanced.parent n P c hchild hsplit.child_left)
    have hc₀ : c ≠ 0 := (hint.children c hc).ne_zero
    obtain ⟨page', hpage', hsame⟩ := hs.kept hpage hc₀ hcL
    exact ⟨page', hpage', hsame.trans hparent⟩

/-- The chain runs through the new leaf. -/
theorem linked (hs : LeafSplit t t' L R P v first pre post p p' r' q')
    (h : Legal td T rank root (A ++ L :: B) t) (hp : t.pages L = some (.leaf p)) :
    Linked t' 0 (A ++ L :: R :: B) := by
  have hmem : ∀ n ∈ A ++ B, n ∈ A ++ L :: B := by
    intro n hn
    rcases List.mem_append.mp hn with hn | hn
    · exact List.mem_append_left _ hn
    · exact List.mem_append_right _ (List.mem_cons_of_mem L hn)
  have hne : ∀ n ∈ A ++ B, n ≠ L := by
    rintro n hn rfl
    have hnodup := h.nodup
    rw [List.nodup_middle] at hnodup
    exact (List.nodup_cons.mp hnodup).1 hn
  refine h.linked.insert h.nodup hp hs.left hs.right hs.halves.left.leftSibling
    hs.halves.left.rightSibling hs.halves.right_left hs.halves.right_right ?_ ?_
  · intro n hn _
    exact hs.next n hn
  · intro n hn hcase
    obtain ⟨q, hq, -⟩ := h.leaf n (hmem n hn)
    have h₀ := Legal.ne_zero_of_has (h.leaf_has (hmem n hn))
    have hP : n ≠ P := by
      rintro rfl
      cases (hs.old_parent _ hq).2
    rw [hq]
    apply hs.other n _ hq h₀ (hne n hn) hP
    intro hnext
    exfalso
    -- the right sibling of `L` is in `B`, and so not in `A`
    rcases hcase with hcase | hA
    · exact hcase hnext
    · obtain ⟨p₂, hp₂, -, hright⟩ := h.linked.siblings
      rw [hp] at hp₂
      cases hp₂
      have hnodup := h.nodup
      cases B with
      | nil => exact h₀ (hnext.trans hright)
      | cons m B =>
        have hm : n = m := hnext.trans hright
        exact (List.nodup_append.mp hnodup).2.2 n hA n (by simp [hm]) rfl

theorem order (hpar : Parented T T₁ P root' leaves)
    (hsplit : T₁.Splits T' rank₁ P L R first v.toInt (intEntries pre) (intEntries post))
    (horder : (A ++ L :: B).Pairwise T.Before) : (A ++ L :: R :: B).Pairwise T'.Before := by
  have hmono : ∀ a b, T.Before a b → T'.Before a b :=
    fun a b hab => hsplit.before_mono (hpar.before a b hab)
  obtain ⟨hA, hLB, hbetween⟩ := List.pairwise_append.mp horder
  obtain ⟨hfirst, hB⟩ := List.pairwise_cons.mp hLB
  rw [List.pairwise_append]
  refine ⟨hA.imp (hmono _ _), ?_, ?_⟩
  · refine List.pairwise_cons.mpr ⟨?_, List.pairwise_cons.mpr ⟨?_, hB.imp (hmono _ _)⟩⟩
    · intro b hb
      rcases List.mem_cons.mp hb with rfl | hb
      · exact hsplit.before_right
      · exact hmono _ _ (hfirst b hb)
    · intro b hb
      exact hsplit.new_before (hpar.before _ _ (hfirst b hb))
  · intro a ha b hb
    rcases List.mem_cons.mp hb with rfl | hb
    · exact hmono _ _ (hbetween a ha b List.mem_cons_self)
    · rcases List.mem_cons.mp hb with rfl | hb
      · exact hsplit.before_new (hpar.before _ _ (hbetween a ha L List.mem_cons_self))
      · exact hmono _ _ (hbetween a ha b (List.mem_cons_of_mem L hb))

/-- The tree is legal after the split. -/
theorem legal (hs : LeafSplit t t' L R P v first pre post p p' r' q')
    (h : Legal td T rank root (A ++ L :: B) t) (hp : t.pages L = some (.leaf p))
    (hpar : Parented T T₁ P root' (A ++ L :: B))
    (hsplit : T₁.Splits T' rank₁ P L R first v.toInt (intEntries pre) (intEntries post))
    (hroot : t'.HasNode root')
    (hparent : ∃ page, t'.pages root'.pgNo = some page ∧ page.parent? = some 0) :
    Legal td T' rank₁ root' (A ++ L :: R :: B) t' := by
  have hL : L ∈ A ++ L :: B := by simp
  have hmem : ∀ n, n ∈ A ++ L :: R :: B ↔ n ∈ A ++ L :: B ∨ n = R := by
    intro n
    simp only [List.mem_append, List.mem_cons]
    tauto
  have hgrown : ∀ n, (T₁.node n).isSome → (T'.node n).isSome := by
    intro n hn
    by_cases hP : n = P
    · rw [hP, hsplit.after]
      rfl
    · rwa [hsplit.others n hP]
  have hback : ∀ n, (T'.node n).isSome → (T₁.node n).isSome := by
    intro n hn
    by_cases hP : n = P
    · rw [hP, hsplit.before]
      rfl
    · rwa [hsplit.others n hP] at hn
  have hRA : R ∉ A ++ L :: B := by
    intro hR
    obtain ⟨q, hq, -⟩ := h.leaf R hR
    exact hs.ne_right hq rfl
  refine
    { key := ?_, root_node := hroot, root_parent := hparent, root_mem := ?_, root_top := ?_,
      top := ?_, balanced := hsplit.balanced_after, internal := ?_, child := ?_, leaf := ?_,
      linked := hs.linked h hp, nodup := ?_, order := order hpar hsplit h.order }
  · rw [hs.keyField]
    exact h.key
  · exact hpar.root_mem.imp (hgrown _) fun hroot => (hmem _).mpr (.inl hroot)
  · intro n hchild
    rcases hsplit.child_iff.mp hchild with hchild | ⟨-, hR⟩
    · exact hpar.root_top n hchild
    · rcases hpar.root_mem with hnode | hleaf
      · rw [hR, hsplit.right_leaf] at hnode
        cases hnode
      · exact hRA (hR ▸ hleaf)
  · intro n hn
    rw [hmem] at hn
    by_cases hR : n = R
    · exact .inr ⟨P, hsplit.child_iff.mpr (.inr ⟨rfl, hR⟩)⟩
    · have hn' : (T₁.node n).isSome ∨ n ∈ A ++ L :: B :=
        hn.imp (hback n) fun hn => hn.resolve_right hR
      refine (hpar.top n hn').imp_right ?_
      rintro ⟨m, hm⟩
      exact ⟨m, hsplit.child_iff.mpr (.inl hm)⟩
  · intro n f es hnode
    by_cases hP : n = P
    · subst hP
      obtain ⟨rfl, rfl⟩ := Prod.mk.inj (Option.some.inj (hsplit.after.symm.trans hnode))
      exact ⟨q', pre ++ (v, R) :: post, by simp, hs.parent,
        hs.legal_parent (h.legalLeaf hL hp) hsplit⟩
    · exact hs.legal_other h hL hpar hsplit hP hnode
  · intro n c hchild
    rw [hmem]
    rcases hsplit.child_iff.mp hchild with hchild | ⟨-, hc⟩
    · exact (hpar.child n c hchild).imp (hgrown c) .inl
    · exact .inr (.inr hc)
  · intro n hn
    exact hs.legal_leaf h hL hp hpar hsplit ((hmem n).mp hn)
  · have hnodup := h.nodup
    rw [← List.singleton_append, ← List.append_assoc, List.nodup_middle]
    rw [List.append_assoc, List.singleton_append]
    exact List.nodup_cons.mpr ⟨hRA, hnodup⟩

end Legal

section Enter

variable {t₄ : LogicalTree}

/-- The pages when the parent has got the entry, and all its children the parent. -/
theorem enter {x : Int32} (hm : RowsMoved t t₄ L R p { p' with parent := x } r')
    (hhalves : Halves t L R v p p' r') (hnL : p.rightSibling ≠ L)
    {q : BTreeInternalPage} (hq : t₄.pages P = some (.internal q)) (hframe : q'.SameFrame q)
    (hpid : q.pid = ⟨t.tableid, P, .internal⟩) (htd : q.td = p.td) (hqkey : q.keyField = p.keyField)
    (hcat : q'.childCategory = .leaf) (hfilled : q'.Filled first (pre ++ (v, R) :: post))
    (hchild : KeyTree.lastChild first pre = L)
    (hchildren : ∀ c ∈ BTreeInternalPage.childList first (pre ++ post),
      t.HasNode ⟨t.tableid, c, .leaf⟩ ∧
        (c ≠ L → ∃ page, t.pages c = some page ∧ page.parent? = some P))
    (hsorted : (pre ++ (v, R) :: post).Pairwise fun a b => a.1.toInt ≤ b.1.toInt)
    (hold : ∀ page, t.pages P = some page → page.parent? = some q.parent ∧ page.kind = .internal) :
    LeafSplit t ((t₄.setPage P (.internal q')).adopt P
      (BTreeInternalPage.childList first (pre ++ (v, R) :: post))) L R P v first pre post p
      { p' with parent := P } { r' with parent := P } q' := by
  set children := BTreeInternalPage.childList first (pre ++ (v, R) :: post)
  have hmem : ∀ c, c ∈ children ↔ c = R ∨ c ∈ BTreeInternalPage.childList first (pre ++ post) :=
    fun c => mem_childList_entry
  have hP : ∀ c ∈ children, c ≠ P :=
    fun c hc => (hm.children hq (fun c hc => (hchildren c hc).1) hc).2
  have hLmem : L ∈ BTreeInternalPage.childList first (pre ++ post) :=
    hchild ▸ KeyTree.mem_children_left post (KeyTree.lastChild_mem first pre)
  have hLc : L ∈ children := (hmem L).mpr (.inr hLmem)
  have hRc : R ∈ children := (hmem R).mpr (.inl rfl)
  have hid : (BTreeFilePage.internal q').getId = (BTreeFilePage.internal q).getId := hframe.pid
  have hmoved : ∀ id, t₄.Has id → ((t₄.setPage P (.internal q')).adopt P children).Has id :=
    fun id h => (h.setPage hq hid rfl).adopt P children
  have hset : ∀ {n page}, n ≠ P → t₄.pages n = some page →
      (t₄.setPage P (.internal q')).pages n = some page := by
    intro n page hn hpage
    rw [setPage_ne hn, hpage]
  -- an old child has its parent already
  have hparents : ∀ n page, t.pages n = some page → n ≠ L → n ∈ children →
      page.parent? = some P := by
    intro n page hpage hn hc
    rcases (hmem n).mp hc with rfl | hc
    · rw [hm.fresh] at hpage
      cases hpage
    · obtain ⟨page', hpage', hparent⟩ := (hchildren n hc).2 hn
      rw [hpage] at hpage'
      cases hpage'
      exact hparent
  refine
    { tableid := hm.tableid, keyField := hm.keyField, pageSize := hm.pageSize
      has := fun id h => hmoved id (hm.has id h)
      has_right := hmoved _ hm.has_right
      fresh := hm.fresh
      left := adopt_child hLc (hset (hP L hLc) hm.left)
      right := adopt_child hRc (hset (hP R hRc) hm.right)
      halves := halves_withParent hhalves P
      right_parent := rfl
      next := ?_, other := ?_, parent := ?_
      parent_pid := hframe.pid.trans hpid
      parent_td := hframe.td.trans htd
      parent_keyField := hframe.keyField.trans hqkey
      parent_category := hcat
      filled := hfilled
      left_child := hchild
      children := hchildren
      sorted := hsorted
      old_parent := ?_ }
  · intro n hn
    have hnP : p.rightSibling ≠ P := by
      intro heq
      have := hm.next n hn
      rw [heq, hq] at this
      cases this
    exact adopt_kept (hset hnP (hm.next n hn)) (hparents _ (.leaf n) hn hnL)
  · intro n page hpage h₀ hL hnP hnext'
    exact adopt_kept (hset hnP (hm.other n page hpage h₀ hL hnext')) (hparents n page hpage hL)
  · exact adopt_kept setPage_self fun hc => absurd rfl (hP P hc)
  · intro page hpage
    rw [hframe.parent]
    exact hold page hpage

end Enter

end LeafSplit

end PagedDb
