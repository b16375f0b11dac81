import PagedDb.BTree.TreeRuns
import PagedDb.Foundation.KeyTree

/-!
# Legal B+ trees

A map of pages that is a search tree: the internal pages are filled from the
front and make up a key tree, every page in the tree names its parent, the rows
of a leaf are in order and between the separators above it, and the leaves are
linked in tree order.
-/

namespace PagedDb

open LogicalTree

def intEntries (entries : List (Int32 × Int32)) : List (Int × Int32) :=
  entries.map fun e => (e.1.toInt, e.2)

@[simp] theorem intEntries_snd (entries : List (Int32 × Int32)) :
    (intEntries entries).map Prod.snd = entries.map Prod.snd := by
  rw [intEntries, List.map_map]
  rfl

@[simp] theorem intEntries_append (a b : List (Int32 × Int32)) :
    intEntries (a ++ b) = intEntries a ++ intEntries b := List.map_append

@[simp] theorem intEntries_cons (e : Int32 × Int32) (es : List (Int32 × Int32)) :
    intEntries (e :: es) = (e.1.toInt, e.2) :: intEntries es := rfl

@[simp] theorem lastChild_intEntries (first : Int32) (entries : List (Int32 × Int32)) :
    KeyTree.lastChild first (intEntries entries) = KeyTree.lastChild first entries := by
  simp only [KeyTree.lastChild, intEntries_snd]

theorem mem_intEntries {entries : List (Int32 × Int32)} {e : Int32 × Int32} (h : e ∈ entries) :
    (e.1.toInt, e.2) ∈ intEntries entries := List.mem_map_of_mem h

theorem LogicalTree.HasNode.ne_zero {t : LogicalTree} {id : BTreePageId} (h : t.HasNode id) :
    id.pgNo ≠ 0 := by
  intro hzero
  obtain ⟨⟨⟨-, -, -, hnum⟩, -⟩, htype⟩ := h
  have hne : id.type ≠ .rootPtr := by rcases htype with h | h <;> rw [h] <;> decide
  rw [if_neg hne, hzero] at hnum
  exact absurd hnum.1 (show ¬ (0 : Int) < (0 : Int32).toInt by decide)

/-- A page that `getEmptyPage` hands out has no used slots and null pointers. -/
structure LogicalTree.FreshPages (td : TupleDesc) (t : LogicalTree) : Prop where
  leaf : ∀ k id, id.type = .leaf → ∃ p, t.blank k id = .leaf p ∧ p.pid = id ∧ p.td = td ∧
    p.keyField = t.keyField ∧ p.numSlots = BTreeLeafPage.getMaxTuples t.pageSize td ∧ p.rows = [] ∧
    p.leftSibling = 0 ∧ p.rightSibling = 0 ∧ p.parent = 0
  internal : ∀ k id, id.type = .internal → ∃ p, t.blank k id = .internal p ∧ p.pid = id ∧
    p.td = td ∧ p.keyField = t.keyField ∧
    p.numSlots = BTreeInternalPage.maxEntries t.pageSize td t.keyField + 1 ∧
    (∀ i < p.numSlots, p.isSlotUsed i = false) ∧ p.parent = 0 ∧
    (p.childCategory = .rootPtr ∨ p.childCategory = .leaf)

/-- The file can take `k` more pages, which have numbers. -/
structure LogicalTree.Roomy (t : LogicalTree) (k : ℕ) : Prop where
  pageSize : 0 < t.pageSize
  size : BTreeRootPtrPage.size ≤ t.size
  limit : ((t.size + k * (t.pageSize + t.clearGrowth) : ℕ) : ℕ∞) ≤ t.limit
  number : (t.size + k * (t.pageSize + t.clearGrowth) - BTreeRootPtrPage.size) / t.pageSize <
    2 ^ 31

instance (t : LogicalTree) (k : ℕ) : Decidable (t.Roomy k) :=
  decidable_of_iff (0 < t.pageSize ∧ BTreeRootPtrPage.size ≤ t.size ∧
      ((t.size + k * (t.pageSize + t.clearGrowth) : ℕ) : ℕ∞) ≤ t.limit ∧
      (t.size + k * (t.pageSize + t.clearGrowth) - BTreeRootPtrPage.size) / t.pageSize < 2 ^ 31)
    ⟨fun h => ⟨h.1, h.2.1, h.2.2.1, h.2.2.2⟩, fun h => ⟨h.pageSize, h.size, h.limit, h.number⟩⟩

theorem LogicalTree.FreshPages.grown {td : TupleDesc} {t t' : LogicalTree} {k : ℕ}
    (h : t.FreshPages td) (hgrown : GrownBy k t t') : t'.FreshPages td := by
  constructor
  case leaf =>
    rw [hgrown.blank, hgrown.keyField, hgrown.pageSize]
    exact h.leaf
  case internal =>
    rw [hgrown.blank, hgrown.keyField, hgrown.pageSize]
    exact h.internal

theorem LogicalTree.Roomy.of_le {t : LogicalTree} {j k : ℕ} (h : t.Roomy k) (hjk : j ≤ k) :
    t.Roomy j := by
  have hle : t.size + j * (t.pageSize + t.clearGrowth) ≤
      t.size + k * (t.pageSize + t.clearGrowth) :=
    Nat.add_le_add_left (Nat.mul_le_mul_right _ hjk) _
  exact ⟨h.pageSize, h.size, le_trans (by exact_mod_cast hle) h.limit,
    (Nat.div_le_div_right (Nat.sub_le_sub_right hle _)).trans_lt h.number⟩

theorem LogicalTree.Roomy.grown {t t' : LogicalTree} {j k : ℕ} (h : t.Roomy (j + k))
    (hgrown : GrownBy j t t') : t'.Roomy k := by
  have hsum : t.size + (j + k) * (t.pageSize + t.clearGrowth) =
      t'.size + k * (t'.pageSize + t'.clearGrowth) := by
    rw [hgrown.size, hgrown.pageSize, hgrown.clearGrowth]
    ring
  have hlimit := h.limit
  have hnumber := h.number
  rw [hsum] at hlimit hnumber
  refine ⟨hgrown.pageSize ▸ h.pageSize, ?_, hgrown.limit ▸ hlimit, ?_⟩
  · rw [hgrown.size]
    exact Nat.le_add_right_of_le h.size
  · rwa [hgrown.pageSize] at hnumber ⊢

/-- No page has the number of a page that is not in the file yet. -/
theorem LogicalTree.Placed.grows {t : LogicalTree} {k : ℕ} (h : t.Placed)
    (hroom : t.Roomy (k + 1)) : t.Grows := by
  have hsize := hroom.size
  have hle : t.size + t.pageSize + t.clearGrowth ≤
      t.size + (k + 1) * (t.pageSize + t.clearGrowth) := by
    rw [Nat.succ_mul]
    omega
  have hnumber : t.getNumPages + 1 < 2 ^ 31 := by
    have hdiv : (t.size + t.pageSize - BTreeRootPtrPage.size) / t.pageSize ≤
        (t.size + (k + 1) * (t.pageSize + t.clearGrowth) - BTreeRootPtrPage.size) / t.pageSize :=
      Nat.div_le_div_right (by omega)
    rw [Nat.sub_add_comm hsize, Nat.add_div_right _ hroom.pageSize] at hdiv
    exact hdiv.trans_lt hroom.number
  refine ⟨hroom.pageSize, hsize, le_trans ?_ hroom.limit, hnumber, ?_⟩
  · exact_mod_cast hle
  · have hnew : t.newNumber.toInt = t.getNumPages + 1 := by
      rw [newNumber, Int32.toInt_ofNat_of_lt hnumber]
      rfl
    cases hp : t.pages t.newNumber with
    | none => rfl
    | some page =>
      exfalso
      obtain ⟨hid, ⟨-, -, -, hnum⟩, -⟩ := h _ page hp
      rw [hid] at hnum
      split at hnum
      · rw [hnum] at hnew
        change (0 : Int) = _ at hnew
        omega
      · omega

/-- The root pointer page names the root, and no page was freed. -/
structure LogicalTree.Rooted (t : LogicalTree) (root : BTreePageId) : Prop where
  has : t.Has (BTreeRootPtrPage.getId t.tableid)
  page : ∃ r, t.pages 0 = some (.rootPtr r) ∧ r.header = 0 ∧ r.getRootId = some root

namespace LogicalTree.Rooted

variable {t : LogicalTree} {root : BTreePageId} {n : Int32} {page old : BTreeFilePage}

theorem setPage (h : t.Rooted root) (hold : t.pages n = some old) (hid : page.getId = old.getId)
    (hkind : page.kind = old.kind) (hn : n ≠ 0) : (t.setPage n page).Rooted root := by
  obtain ⟨r, hr, hroot⟩ := h.page
  exact ⟨h.has.setPage hold hid hkind, r, by rw [setPage_ne hn.symm, hr], hroot⟩

theorem adopt (h : t.Rooted root) (P : Int32) (children : List Int32) :
    (t.adopt P children).Rooted root := by
  obtain ⟨r, hr, hroot⟩ := h.page
  refine ⟨h.has.adopt P children, r, ?_, hroot⟩
  rw [adopt_pages, hr]
  split
  · rfl
  · rfl

end LogicalTree.Rooted

/-- An internal page as a node of the tree. -/
structure LegalInternal (td : TupleDesc) (T : KeyTree Int32 Int) (t : LogicalTree) (n : Int32)
    (p : BTreeInternalPage) (first : Int32) (entries : List (Int32 × Int32)) : Prop where
  schema : p.td = td
  keyField : p.keyField = t.keyField
  node : T.node n = some (first, intEntries entries)
  filled : p.Filled first entries
  ne_nil : entries ≠ []
  sorted : entries.Pairwise fun a b => a.1.toInt ≤ b.1.toInt
  children : ∀ c ∈ BTreeInternalPage.childList first entries, t.HasNode (p.childId c)
  parents : ∀ c ∈ BTreeInternalPage.childList first entries,
    ∃ page, t.pages c = some page ∧ page.parent? = some n

/-- A leaf of the tree. -/
structure LegalLeaf (td : TupleDesc) (T : KeyTree Int32 Int) (t : LogicalTree) (n : Int32)
    (p : BTreeLeafPage) : Prop where
  schema : p.td = td
  keyField : p.keyField = t.keyField
  numSlots : p.numSlots = BTreeLeafPage.getMaxTuples t.pageSize td
  ordered : KeyOrdered p.keyField p.rows
  range : ∀ row ∈ p.rows, T.InRange n (intKey p.keyField row)

/-- The leaves are linked in both directions, behind a leaf `left`. -/
def Linked (t : LogicalTree) : Int32 → List Int32 → Prop
  | _, [] => True
  | left, n :: ns =>
    (∃ p, t.pages n = some (.leaf p) ∧ p.leftSibling = left ∧ p.rightSibling = ns.head?.getD 0) ∧
      Linked t n ns

theorem Linked.siblings {t : LogicalTree} {left n : Int32} {pre post : List Int32}
    (h : Linked t left (pre ++ n :: post)) : ∃ p, t.pages n = some (.leaf p) ∧
      p.leftSibling = pre.getLast?.getD left ∧ p.rightSibling = post.head?.getD 0 := by
  induction pre generalizing left with
  | nil => exact h.1
  | cons m pre ih =>
    obtain ⟨p, hp, hleft, hright⟩ := ih h.2
    exact ⟨p, hp, by rw [hleft, List.getLast?_cons, Option.getD_some], hright⟩

theorem Linked.suffix {t : LogicalTree} {left : Int32} {pre post : List Int32}
    (h : Linked t left (pre ++ post)) : ∃ left', Linked t left' post := by
  induction pre generalizing left with
  | nil => exact ⟨left, h⟩
  | cons m pre ih => exact ih h.2

theorem Linked.congr {t t' : LogicalTree} {left : Int32} {ns : List Int32} (h : Linked t left ns)
    (hsame : ∀ n ∈ ns, t'.pages n = t.pages n) : Linked t' left ns := by
  induction ns generalizing left with
  | nil => trivial
  | cons n ns ih =>
    obtain ⟨⟨p, hp, hleft, hright⟩, hrest⟩ := h
    exact ⟨⟨p, by rw [hsame n List.mem_cons_self, hp], hleft, hright⟩,
      ih hrest fun m hm => hsame m (List.mem_cons_of_mem n hm)⟩

/-- A leaf `R` behind `L`: only the links around them change. -/
theorem Linked.insert {t t' : LogicalTree} {left L R : Int32} {pre post : List Int32}
    {p p' r' : BTreeLeafPage} (h : Linked t left (pre ++ L :: post))
    (hnodup : (pre ++ L :: post).Nodup) (hp : t.pages L = some (.leaf p))
    (hp' : t'.pages L = some (.leaf p')) (hr' : t'.pages R = some (.leaf r'))
    (hleft : p'.leftSibling = p.leftSibling) (hright : p'.rightSibling = R)
    (hleft' : r'.leftSibling = L) (hright' : r'.rightSibling = p.rightSibling)
    (hnext : ∀ n, t.pages p.rightSibling = some (.leaf n) → p.rightSibling ∈ post →
      t'.pages p.rightSibling = some (.leaf { n with leftSibling := R }))
    (hother : ∀ n ∈ pre ++ post, n ≠ p.rightSibling ∨ n ∈ pre → t'.pages n = t.pages n) :
    Linked t' left (pre ++ L :: R :: post) := by
  induction pre generalizing left with
  | cons m pre ih =>
    obtain ⟨⟨q, hq, hqleft, hqright⟩, hrest⟩ := h
    refine ⟨⟨q, ?_, hqleft, ?_⟩, ih hrest (List.nodup_cons.mp hnodup).2 fun n hn hn' =>
      hother n (List.mem_cons_of_mem m hn) (hn'.imp_right (List.mem_cons_of_mem m))⟩
    · rw [hother m List.mem_cons_self (.inr List.mem_cons_self), hq]
    · rw [hqright]
      cases pre <;> rfl
  | nil =>
    obtain ⟨⟨q, hq, hqleft, hqright⟩, hrest⟩ := h
    obtain rfl : q = p := by
      rw [hp] at hq
      cases hq
      rfl
    refine ⟨⟨p', hp', hleft.trans hqleft, hright⟩, ⟨r', hr', hleft', hright'.trans hqright⟩, ?_⟩
    cases post with
    | nil => trivial
    | cons m post =>
      obtain ⟨⟨n, hn, -, hnright⟩, htail⟩ := hrest
      have hm : q.rightSibling = m := hqright
      have hnot : m ∉ post := (List.nodup_cons.mp (List.nodup_cons.mp hnodup).2).1
      refine ⟨⟨{ n with leftSibling := R }, ?_, rfl, hnright⟩, htail.congr ?_⟩
      · rw [← hm]
        exact hnext n (hm ▸ hn) (hm ▸ List.mem_cons_self)
      · intro n' hn'
        apply hother n' (List.mem_cons_of_mem m hn') (.inl ?_)
        rw [hm]
        rintro rfl
        exact hnot hn'

def noNodes : KeyTree Int32 Int := ⟨fun _ => none⟩

theorem noNodes_child {n c : Int32} : ¬ noNodes.Child n c := by
  rintro ⟨first, es, hnode, -⟩
  cases hnode

theorem noNodes_inRange {n : Int32} {w : Int} : noNodes.InRange n w := by
  intro k b
  constructor
  · rintro ⟨m, first, pre, c, post, hnode, -⟩
    cases hnode
  · rintro ⟨m, first, pre, c, post, hnode, -⟩
    cases hnode

/-- The pages are a B+ tree under `root` with the inner nodes `T` and these leaves. -/
structure Legal (td : TupleDesc) (T : KeyTree Int32 Int) (rank : Int32 → ℕ) (root : BTreePageId)
    (leaves : List Int32) (t : LogicalTree) : Prop where
  key : td.getFieldType t.keyField = some .intType
  root_node : t.HasNode root
  root_parent : ∃ page, t.pages root.pgNo = some page ∧ page.parent? = some 0
  root_mem : (T.node root.pgNo).isSome ∨ root.pgNo ∈ leaves
  root_top : ∀ n, ¬ T.Child n root.pgNo
  top : ∀ n, (T.node n).isSome ∨ n ∈ leaves → n = root.pgNo ∨ ∃ m, T.Child m n
  balanced : T.Balanced rank
  internal : ∀ n first es, T.node n = some (first, es) → ∃ p entries, es = intEntries entries ∧
    t.pages n = some (.internal p) ∧ LegalInternal td T t n p first entries
  child : ∀ n c, T.Child n c → (T.node c).isSome ∨ c ∈ leaves
  leaf : ∀ n ∈ leaves, ∃ p, t.pages n = some (.leaf p) ∧ LegalLeaf td T t n p
  linked : Linked t 0 leaves
  nodup : leaves.Nodup
  order : leaves.Pairwise T.Before

namespace Legal

variable {td : TupleDesc} {T : KeyTree Int32 Int} {rank : Int32 → ℕ} {root : BTreePageId}
  {leaves : List Int32} {t : LogicalTree} {n m L : Int32} {p : BTreeLeafPage}

theorem legalLeaf (h : Legal td T rank root leaves t) (hn : n ∈ leaves)
    (hp : t.pages n = some (.leaf p)) : LegalLeaf td T t n p := by
  obtain ⟨q, hq, hleaf⟩ := h.leaf n hn
  rw [hp] at hq
  cases hq
  exact hleaf

theorem node_leaf (h : Legal td T rank root leaves t) (hn : n ∈ leaves) : T.node n = none := by
  cases hnode : T.node n with
  | none => rfl
  | some x =>
    obtain ⟨first, es⟩ := x
    obtain ⟨p, hp, -⟩ := h.leaf n hn
    obtain ⟨q, _, -, hq, -⟩ := h.internal n first es hnode
    rw [hp] at hq
    cases hq

theorem child_page (h : Legal td T rank root leaves t) (hchild : T.Child m n) :
    ∃ q page, t.pages m = some (.internal q) ∧ t.HasNode (q.childId n) ∧
      t.pages n = some page ∧ page.parent? = some m ∧ page.getId = q.childId n ∧
      page.kind = q.childCategory := by
  obtain ⟨first, es, hnode, hmem⟩ := hchild
  obtain ⟨q, entries, rfl, hq, hint⟩ := h.internal m first es hnode
  rw [intEntries_snd] at hmem
  obtain ⟨page, hpage, hparent⟩ := hint.parents n hmem
  have hhas := hint.children n hmem
  obtain ⟨-, page', hpage', hid, hkind⟩ := hhas.has
  have hpage' : t.pages n = some page' := hpage'
  rw [hpage] at hpage'
  cases hpage'
  exact ⟨q, page, hq, hhas, hpage, hparent, hid, hkind⟩

theorem pageId (h : Legal td T rank root leaves t) (hn : (T.node n).isSome ∨ n ∈ leaves)
    {page : BTreeFilePage} (hp : t.pages n = some page) :
    page.getId = ⟨t.tableid, n, page.kind⟩ ∧ t.HasNode ⟨t.tableid, n, page.kind⟩ := by
  obtain ⟨id, hnode, hnum⟩ : ∃ id, t.HasNode id ∧ id.pgNo = n := by
    rcases h.top n hn with rfl | ⟨m, hchild⟩
    · exact ⟨root, h.root_node, rfl⟩
    · obtain ⟨q, -, -, hhas, -⟩ := h.child_page hchild
      exact ⟨q.childId n, hhas, rfl⟩
  have heq : page.getId = ⟨t.tableid, n, page.kind⟩ ∧ id = page.getId := by
    obtain ⟨⟨-, -, hplace⟩, q, hq, hid, hkind⟩ := hnode.has
    rw [hnum, hp] at hq
    cases hq
    rw [hid, hkind, ← hplace.1, ← hnum]
    exact ⟨rfl, rfl⟩
  rw [← heq.1, ← heq.2]
  exact ⟨rfl, hnode⟩

theorem leaf_id (h : Legal td T rank root leaves t) (hn : n ∈ leaves)
    (hp : t.pages n = some (.leaf p)) :
    p.pid = ⟨t.tableid, n, .leaf⟩ ∧ t.HasNode ⟨t.tableid, n, .leaf⟩ := h.pageId (.inr hn) hp

theorem leaf_has (h : Legal td T rank root leaves t) (hn : n ∈ leaves) :
    t.HasNode ⟨t.tableid, n, .leaf⟩ := by
  obtain ⟨p, hp, -⟩ := h.leaf n hn
  exact (h.leaf_id hn hp).2

theorem ne_zero_of_has {type : BTreePageType} (h : t.HasNode ⟨t.tableid, n, type⟩) : n ≠ 0 :=
  h.ne_zero

/-- The parent of a leaf that is not the root, and the entries on both sides of the leaf. -/
theorem leaf_parent (h : Legal td T rank root leaves t) (hn : n ∈ leaves)
    (hp : t.pages n = some (.leaf p)) (hparent : p.parent ≠ 0) :
    ∃ q first pre post, t.pages p.parent = some (.internal q) ∧
      LegalInternal td T t p.parent q first (pre ++ post) ∧ KeyTree.lastChild first pre = n ∧
      q.childCategory = .leaf := by
  rcases h.top n (.inr hn) with rfl | ⟨m, hchild⟩
  · obtain ⟨page, hpage, hzero⟩ := h.root_parent
    rw [hp] at hpage
    cases hpage
    exact absurd (Option.some.inj hzero) hparent
  · obtain ⟨q, page, hq, -, hpage, hm, -, hkind⟩ := h.child_page hchild
    rw [hp] at hpage
    cases hpage
    obtain rfl : p.parent = m := Option.some.inj hm
    obtain ⟨first, es, hnode, hmem⟩ := hchild
    obtain ⟨q', entries, rfl, hq', hint⟩ := h.internal _ first es hnode
    rw [hq] at hq'
    cases hq'
    rw [intEntries_snd] at hmem
    obtain ⟨pre, post, rfl, hlast⟩ := KeyTree.exists_lastChild hmem
    exact ⟨q, first, pre, post, hq, hint, hlast, hkind.symm⟩

/-- A leaf without siblings and parent is a tree. -/
theorem leafRoot (hkey : td.getFieldType t.keyField = some .intType) (hnode : t.HasNode root)
    (hp : t.pages root.pgNo = some (.leaf p)) (hparent : p.parent = 0) (hleft : p.leftSibling = 0)
    (hright : p.rightSibling = 0) (hschema : p.td = td) (hkeyField : p.keyField = t.keyField)
    (hslots : p.numSlots = BTreeLeafPage.getMaxTuples t.pageSize td)
    (hordered : KeyOrdered p.keyField p.rows) :
    Legal td noNodes (fun _ => 0) root [root.pgNo] t := by
  constructor
  case key => exact hkey
  case root_node => exact hnode
  case root_parent => exact ⟨_, hp, congrArg some hparent⟩
  case root_mem => exact .inr List.mem_cons_self
  case root_top => exact fun n => noNodes_child
  case top =>
    rintro n (hn | hn)
    · cases hn
    · exact .inl (List.mem_singleton.mp hn)
  case balanced =>
    constructor
    case nodup => exact fun n first es hnode => by cases hnode
    case parent => exact fun m n c hm => absurd hm noNodes_child
    case rank_child => exact fun n c hc => absurd hc noNodes_child
    case rank_leaf => exact fun n _ => rfl
  case internal => exact fun n first es hnode => by cases hnode
  case child => exact fun n c hc => absurd hc noNodes_child
  case leaf =>
    intro n hn
    obtain rfl := List.mem_singleton.mp hn
    exact ⟨p, hp, hschema, hkeyField, hslots, hordered, fun row _ => noNodes_inRange⟩
  case linked => exact ⟨⟨p, hp, hleft, hright⟩, trivial⟩
  case nodup => exact List.nodup_singleton _
  case order => exact List.pairwise_singleton _ _

section SetLeaf

variable {q : BTreeLeafPage}

theorem setLeaf_page (hp : t.pages n = some (.leaf p)) (hframe : q.SameFrame p) {m : Int32}
    {page : BTreeFilePage} (hm : t.pages m = some page) :
    ∃ page', (t.setPage n (.leaf q)).pages m = some page' ∧ page'.parent? = page.parent? := by
  by_cases hmn : m = n
  · subst hmn
    rw [hp] at hm
    cases hm
    exact ⟨.leaf q, setPage_self, congrArg some hframe.parent⟩
  · exact ⟨page, by rw [setPage_ne hmn, hm], rfl⟩

theorem setLeaf_linked {left : Int32} {ns : List Int32} (h : Linked t left ns)
    (hp : t.pages n = some (.leaf p)) (hframe : q.SameFrame p) :
    Linked (t.setPage n (.leaf q)) left ns := by
  induction ns generalizing left with
  | nil => trivial
  | cons m ns ih =>
    obtain ⟨⟨r, hr, hleft, hright⟩, hrest⟩ := h
    refine ⟨?_, ih hrest⟩
    by_cases hmn : m = n
    · subst hmn
      rw [hp] at hr
      cases hr
      exact ⟨q, setPage_self, hframe.leftSibling.trans hleft, hframe.rightSibling.trans hright⟩
    · exact ⟨r, by rw [setPage_ne hmn, hr], hleft, hright⟩

/-- Other rows in a leaf, in order and between the separators above it. -/
theorem setLeaf (h : Legal td T rank root leaves t) (hn : n ∈ leaves)
    (hp : t.pages n = some (.leaf p)) (hframe : q.SameFrame p)
    (hordered : KeyOrdered q.keyField q.rows)
    (hrange : ∀ row ∈ q.rows, T.InRange n (intKey q.keyField row)) :
    Legal td T rank root leaves (t.setPage n (.leaf q)) := by
  have hleaf := h.legalLeaf hn hp
  have hid : (BTreeFilePage.leaf q).getId = (BTreeFilePage.leaf p).getId := hframe.pid
  have hnode : ∀ id, t.HasNode id → (t.setPage n (.leaf q)).HasNode id :=
    fun id hid' => ⟨hid'.has.setPage hp hid rfl, hid'.node⟩
  refine
    { h with
      root_node := hnode _ h.root_node, root_parent := ?_, internal := ?_, leaf := ?_
      linked := setLeaf_linked h.linked hp hframe }
  · obtain ⟨page, hpage, hroot⟩ := h.root_parent
    obtain ⟨page', hpage', hsame⟩ := setLeaf_page hp hframe hpage
    exact ⟨page', hpage', hsame.trans hroot⟩
  · intro m first es hm
    obtain ⟨r, entries, hes, hr, hint⟩ := h.internal m first es hm
    have hmn : m ≠ n := by
      rintro rfl
      rw [h.node_leaf hn] at hm
      cases hm
    refine ⟨r, entries, hes, by rw [setPage_ne hmn, hr],
      { hint with children := ?_, parents := ?_ }⟩
    · exact fun c hc => hnode _ (hint.children c hc)
    · intro c hc
      obtain ⟨page, hpage, hparent⟩ := hint.parents c hc
      obtain ⟨page', hpage', hsame⟩ := setLeaf_page hp hframe hpage
      exact ⟨page', hpage', hsame.trans hparent⟩
  · intro m hm
    by_cases hmn : m = n
    · subst hmn
      exact ⟨q, setPage_self, hframe.td.trans hleaf.schema, hframe.keyField.trans hleaf.keyField,
        hframe.numSlots.trans hleaf.numSlots, hordered, hrange⟩
    · obtain ⟨r, hr, hlegal⟩ := h.leaf m hm
      exact ⟨r, by rw [setPage_ne hmn, hr],
        ⟨hlegal.schema, hlegal.keyField, hlegal.numSlots, hlegal.ordered, hlegal.range⟩⟩

/-- A tuple goes into a leaf with room whose separators allow its key. -/
theorem insertTuple (h : Legal td T rank root leaves t) (hn : n ∈ leaves)
    (hp : t.pages n = some (.leaf p)) (hroom : 0 < p.getNumEmptySlots) {tuple : Tuple}
    (htd : tuple.td = td) {f : Int32} (hkey : tuple.getField t.keyField = .ok (.int f))
    (hf : T.InRange n f.toInt) :
    ∃ q slot, p.insertTuple tuple = .ok (q, tuple.setRecordId (some ⟨.btree p.pid, slot⟩)) ∧
      q.rows = insertRow t.keyField tuple.fields p.rows ∧
      Legal td T rank root leaves (t.setPage n (.leaf q)) := by
  have hleaf := h.legalLeaf hn hp
  have htd' := htd.trans hleaf.schema.symm
  have hint : p.IntKeyed := by
    rw [BTreeLeafPage.IntKeyed, hleaf.schema, hleaf.keyField]
    exact h.key
  obtain ⟨v, hv, hvkey⟩ := BTreeLeafPage.getField_int htd' hint
  obtain rfl : v = f := by
    rw [hleaf.keyField, hkey] at hv
    cases hv
    rfl
  obtain ⟨q, slot, hinsert, hframe, hrows, -⟩ := p.insertTuple_spec htd' hint hroom
  refine ⟨q, slot, hinsert, by rw [hrows, hleaf.keyField], h.setLeaf hn hp hframe ?_ ?_⟩
  · rw [hframe.keyField, hrows]
    exact hleaf.ordered.insertRow _
  · intro row hrow
    rw [hrows, (insertRow_perm _ _ _).mem_iff, List.mem_cons] at hrow
    rw [hframe.keyField]
    rcases hrow with rfl | hrow
    · rwa [← hvkey]
    · exact hleaf.range row hrow

end SetLeaf

end Legal

end PagedDb
