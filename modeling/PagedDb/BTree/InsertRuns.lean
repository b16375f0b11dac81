import PagedDb.BTree.LeafRuns
import PagedDb.BTree.PageReuse
import PagedDb.BTree.ResidentSim
import PagedDb.BTree.TreeInsert

/-!
# Sequences of insertions into a new file

From an empty file on, every insertion whose leaf has room, or can be split below
a parent with room, returns and leaves a legal tree with one row more. The root
is the only internal page a tree can have: where it is full, the code fails.
-/

namespace PagedDb

open Exec LogicalTree BTreeFile

/-- An empty file whose new pages have no used slots and null pointers. -/
structure Untouched (td : TupleDesc) (t : LogicalTree) : Prop where
  pageSize : 0 < t.pageSize
  limit : ((BTreeRootPtrPage.size + t.pageSize : ℕ) : ℕ∞) ≤ t.limit
  size : t.size = 0
  pages : ∀ n, t.pages n = none
  rootPtr : ∃ r, t.blank t.reads (BTreeRootPtrPage.getId t.tableid) = .rootPtr r ∧
    r.pid = BTreeRootPtrPage.getId t.tableid ∧ r.root = 0 ∧ r.header = 0
  fresh : t.FreshPages td

/-- One for keys that are integers. -/
structure Unused (td : TupleDesc) (t : LogicalTree) : Prop extends Untouched td t where
  key : td.getFieldType t.keyField = some .intType

section First

variable {td : TupleDesc} {t : LogicalTree} {tuple : Tuple}

def firstLeaf (t : LogicalTree) (r : BTreeRootPtrPage) : LogicalTree :=
  ((created t).setPage 0 (.rootPtr { r with root := 1, rootCategory := .leaf })).touch
    ⟨t.tableid, 1, .leaf⟩

section

variable (r : BTreeRootPtrPage)

@[simp] theorem firstLeaf_tableid : (firstLeaf t r).tableid = t.tableid := rfl

@[simp] theorem firstLeaf_keyField : (firstLeaf t r).keyField = t.keyField := rfl

@[simp] theorem firstLeaf_pageSize : (firstLeaf t r).pageSize = t.pageSize := rfl

@[simp] theorem firstLeaf_limit : (firstLeaf t r).limit = t.limit := rfl

@[simp] theorem firstLeaf_clearGrowth : (firstLeaf t r).clearGrowth = t.clearGrowth := rfl

@[simp] theorem firstLeaf_blank : (firstLeaf t r).blank = t.blank := rfl

end

theorem firstLeaf_fresh (h : t.FreshPages td) (r : BTreeRootPtrPage) :
    (firstLeaf t r).FreshPages td := by
  constructor
  case leaf => simpa using h.leaf
  case internal => simpa using h.internal

theorem firstLeaf_leaf {r : BTreeRootPtrPage} {p : BTreeLeafPage}
    (hp : t.blank (t.reads + 1) ⟨t.tableid, 1, .leaf⟩ = .leaf p) :
    (firstLeaf t r).pages 1 = some (.leaf p) := by
  simpa [firstLeaf, touch, setPage, created] using hp

theorem firstLeaf_root (r : BTreeRootPtrPage) :
    (firstLeaf t r).pages 0 = some (.rootPtr { r with root := 1, rootCategory := .leaf }) := by
  simp [firstLeaf, touch, setPage]

theorem firstLeaf_ne {r : BTreeRootPtrPage} {n : Int32} (h₀ : n ≠ 0) (h₁ : n ≠ 1) :
    (firstLeaf t r).pages n = t.pages n := by
  simp [firstLeaf, touch, setPage, created, BTreeRootPtrPage.getId, h₀, h₁]

/-- The pages of the file with one empty leaf. -/
theorem Untouched.firstLeaf_pages (h : Untouched td t) {r : BTreeRootPtrPage}
    (hpid : r.pid = BTreeRootPtrPage.getId t.tableid) (hheader : r.header = 0) :
    ∃ p, (firstLeaf t r).pages 1 = some (.leaf p) ∧ p.pid = ⟨t.tableid, 1, .leaf⟩ ∧ p.td = td ∧
      p.keyField = t.keyField ∧ p.numSlots = BTreeLeafPage.getMaxTuples t.pageSize td ∧
      p.rows = [] ∧ p.leftSibling = 0 ∧ p.rightSibling = 0 ∧ p.parent = 0 ∧
      (firstLeaf t r).HasNode ⟨t.tableid, 1, .leaf⟩ ∧ (firstLeaf t r).Placed ∧
      (firstLeaf t r).Rooted ⟨t.tableid, 1, .leaf⟩ ∧ (firstLeaf t r).getNumPages = 1 := by
  obtain ⟨p, hp, hppid, hptd, hpkey, hslots, hrows, hleft, hright, hparent⟩ :=
    h.fresh.leaf (t.reads + 1) ⟨t.tableid, 1, .leaf⟩ rfl
  have hleaf := firstLeaf_leaf (r := r) hp
  have hpages : (firstLeaf t r).getNumPages = 1 := created_numPages h.pageSize
  have hroot : (firstLeaf t r).Has (BTreeRootPtrPage.getId t.tableid) :=
    ⟨⟨Nat.le_add_right _ _, h.limit, rfl, rfl⟩, _, firstLeaf_root r, hpid, rfl⟩
  have hnode : (firstLeaf t r).HasNode ⟨t.tableid, 1, .leaf⟩ := by
    refine ⟨⟨⟨Nat.le_add_right _ _, h.limit, rfl, ?_⟩, _, hleaf, hppid, rfl⟩, .inl rfl⟩
    rw [if_neg (show BTreePageType.leaf ≠ .rootPtr by decide), hpages]
    exact ⟨show (0 : Int) < (1 : Int32).toInt by decide, show (1 : Int32).toInt ≤ (1 : ℕ) by decide⟩
  refine ⟨p, hleaf, hppid, hptd, hpkey, hslots, hrows, hleft, hright, hparent, hnode, ?_, ?_, hpages⟩
  · intro n q hq
    by_cases h₀ : n = 0
    · subst h₀
      rw [firstLeaf_root] at hq
      cases hq
      change r.pid.pgNo = 0 ∧ (firstLeaf t r).Has r.pid
      rw [hpid]
      exact ⟨rfl, hroot⟩
    · by_cases h₁ : n = 1
      · subst h₁
        rw [hleaf] at hq
        cases hq
        change p.pid.pgNo = 1 ∧ (firstLeaf t r).Has p.pid
        rw [hppid]
        exact ⟨rfl, hnode.has⟩
      · rw [firstLeaf_ne h₀ h₁, h.pages n] at hq
        cases hq
  · have hone : (1 : Int32) ≠ 0 := by decide
    refine ⟨(firstLeaf_tableid r).symm ▸ hroot, _, firstLeaf_root r, hheader, ?_⟩
    rw [BTreeRootPtrPage.getRootId, if_neg hone, hpid]
    rfl

theorem Unused.grown (h : Unused td t) {r : BTreeRootPtrPage}
    (hpid : r.pid = BTreeRootPtrPage.getId t.tableid) (hheader : r.header = 0) :
    ∃ p, (firstLeaf t r).pages 1 = some (.leaf p) ∧
      p.numSlots = BTreeLeafPage.getMaxTuples t.pageSize td ∧ p.rows = [] ∧
      Grown td noNodes (fun _ => 0) ⟨t.tableid, 1, .leaf⟩ [1] (firstLeaf t r) := by
  obtain ⟨p, hleaf, -, hptd, hpkey, hslots, hrows, hleft, hright, hparent, hnode, hplaced, hrooted,
    -⟩ := h.firstLeaf_pages hpid hheader
  have hkey : td.getFieldType (firstLeaf t r).keyField = some .intType := h.key
  refine ⟨p, hleaf, hslots, hrows, ?_, hplaced, hrooted, firstLeaf_fresh h.fresh r,
    nofun, fun n hn hne => absurd (List.mem_singleton.mp hn) hne⟩
  refine Legal.leafRoot hkey hnode hleaf hparent hleft hright hptd hpkey hslots ?_
  rw [hrows]
  exact List.Pairwise.nil

/-- The root of an empty file is a leaf that no page is read for yet. -/
theorem Untouched.getRoot (h : Untouched td t) {r : BTreeRootPtrPage}
    (hblank : t.blank t.reads (BTreeRootPtrPage.getId t.tableid) = .rootPtr r)
    (hpid : r.pid = BTreeRootPtrPage.getId t.tableid) (hzero : r.root = 0) :
    BTreeFile.getRoot t = .ok ⟨t.tableid, 1, .leaf⟩
      ((created t).setPage 0 (.rootPtr { r with root := 1, rootCategory := .leaf })) := by
  have hpages : (created t).getNumPages = 1 := created_numPages h.pageSize
  have hset : modifyRootPtr (0 : Int32) (fun q => q.setRootId (some ⟨t.tableid, 1, .leaf⟩))
      (created t) = .ok ()
        ((created t).setPage 0 (.rootPtr { r with root := 1, rootCategory := .leaf })) := by
    refine modifyRootPtr_run (created_root hblank) ?_ rfl
    rw [BTreeRootPtrPage.setRootId, if_pos ⟨by rw [hpid]; rfl, .inr rfl⟩]
  have hget : TreeStore.getPage (BTreeRootPtrPage.getId (created t).tableid) .readWrite
      (created t) = .ok 0 (created t) := (created_has hblank hpid h.limit).getPage .readWrite
  rw [BTreeFile.getRoot, bind_ok (getRootPtrPage_created h.size (h.pages 0) h.limit),
    bind_ok (rootPtrAt_run (created_root hblank)), BTreeRootPtrPage.getRootId, if_pos hzero]
  simp only
  rw [bind_ok (get_run _), bind_ok rootPtrId_run, bind_ok hget,
    show TreeStore.getNumPages (created t) = 1 from hpages]
  exact (bind_ok hset).trans rfl

theorem Untouched.insertTuple_eq (h : Untouched td t) {r : BTreeRootPtrPage}
    (hblank : t.blank t.reads (BTreeRootPtrPage.getId t.tableid) = .rootPtr r)
    (hpid : r.pid = BTreeRootPtrPage.getId t.tableid) (hzero : r.root = 0) (hheader : r.header = 0)
    {key : Field} (hkey : tuple.getField t.keyField = .ok key) :
    BTreeFile.insertTuple tuple t = BTreeFile.insertTuple tuple (firstLeaf t r) := by
  obtain ⟨p, hleaf, hppid, -, -, -, -, -, -, -, hnode, -, hrooted, -⟩ := h.firstLeaf_pages hpid hheader
  let t₁ := (created t).setPage 0 (.rootPtr { r with root := 1, rootCategory := .leaf })
  have hfind : findLeafPage .readOnly (some key) (TreeStore.getNumPages t₁ + 1)
      ⟨t.tableid, 1, .leaf⟩ t₁ = .ok 1 (firstLeaf t r) := by
    rw [findLeafPage, if_pos rfl]
    refine getPage_touch .readOnly ?_ hnode.has.1
    change ((created t).setPage 0 _).pages 1 = none
    rw [setPage_ne (show (1 : Int32) ≠ 0 by decide), created_of_ne (by decide), h.pages]
  have hlift : lift (tuple.getField (TreeStore.keyField t₁)) t₁ = .ok key t₁ := lift_run hkey t₁
  have hget : TreeStore.getPage p.pid .readWrite (firstLeaf t r) =
      .ok 1 (firstLeaf t r) := by
    rw [hppid]
    exact hnode.has.getPage .readWrite
  have hfirst : BTreeFile.insertTuple tuple t = insertAt 1 key tuple (firstLeaf t r) := by
    rw [BTreeFile.insertTuple, bind_ok (h.getRoot hblank hpid hzero), bind_ok (get_run t₁),
      bind_ok hlift, bind_ok hfind, bind_ok (leafAt_run hleaf), bind_ok hget]
    rfl
  have hfind' : findLeafPage .readOnly (some key) ((firstLeaf t r).getNumPages + 1)
      ⟨t.tableid, 1, .leaf⟩ (firstLeaf t r) = .ok 1 (firstLeaf t r) := by
    rw [findLeafPage, if_pos rfl]
    exact hnode.has.getPage .readOnly
  rw [hfirst, insertTuple_reaches hrooted hkey hfind' hleaf (hppid ▸ hnode.has) (by rw [hppid])]

theorem Unused.insertTuple (h : Unused td t)
    (hcap : 2 ≤ BTreeLeafPage.getMaxTuples t.pageSize td) (htd : tuple.td = td) :
    ∃ r u t' T rank root leaves t₁ C l q, BTreeFile.insertTuple tuple t = .ok u t' ∧
      Stores td [1] tuple u (firstLeaf t r) t' T rank root leaves t₁ C l q ∧
      (firstLeaf t r).leafRows [1] = [] := by
  obtain ⟨r, hblank, hpid, hzero, hheader⟩ := h.rootPtr
  obtain ⟨p, hleaf, hslots, hrows, hgrown⟩ := h.grown hpid hheader
  obtain ⟨f, A, L, B, q, hAB, hkey, -, hreaches, hq, -, -⟩ := hgrown.reaches htd
  obtain rfl : L = 1 := List.mem_singleton.mp (hAB ▸ by simp : L ∈ [1])
  have hempty : 0 < p.getNumEmptySlots := by
    have hcount := p.rows_length_add_empty
    rw [hrows, hslots, List.length_nil] at hcount
    omega
  have hroom : RoomFor (firstLeaf t r) tuple := by
    intro L' q' hL' hq' hfull
    obtain rfl := hreaches.unique hL'
    rw [hleaf] at hq'
    cases hq'
    omega
  obtain ⟨u, t', T, rank, root, leaves, t₁, C, l, q, hrun, hstores⟩ :=
    hgrown.insertTuple (show 2 ≤ BTreeLeafPage.getMaxTuples (firstLeaf t r).pageSize td from hcap)
      htd hroom
  refine ⟨r, u, t', T, rank, root, leaves, t₁, C, l, q, ?_, hstores, ?_⟩
  · rw [h.insertTuple_eq hblank hpid hzero hheader hkey, hrun]
  · rw [leafRows_cons hleaf, hrows]
    rfl

end First

/-- A legal tree over the pages `t`, with the inner nodes `T` and these leaves under `root`: the
rules in terms of the pages. -/
structure Lawful (T : KeyTree Int32 Int) (root : BTreePageId) (leaves : List Int32)
    (rows : List Row) (t : LogicalTree) : Prop where
  /-- The root pointer page names the root. -/
  rooted : t.Rooted root
  /-- The nodes are the internal pages, with the keys and children in their slots. -/
  nodes : ∀ n first es, T.node n = some (first, es) → ∃ p entries, es = intEntries entries ∧
    t.pages n = some (.internal p) ∧ p.Filled first entries
  /-- What hangs below a node is a node or a leaf. -/
  child : ∀ n c, T.Child n c → (T.node c).isSome ∨ c ∈ leaves
  top : ∀ n, (T.node n).isSome ∨ n ∈ leaves → n = root.pgNo ∨ ∃ m, T.Child m n
  parents : ∀ n c, T.Child n c → ∃ page, t.pages c = some page ∧ page.parent? = some n
  siblings : Linked t 0 leaves
  nodup : leaves.Nodup
  rids : ∀ n ∈ leaves, ∃ p, t.pages n = some (.leaf p) ∧
    ∀ i u, p.tuple? i = some u → u.rid = some ⟨.btree p.pid, i⟩
  /-- A key is between the keys on both sides of it, down to the leaves. -/
  separators : ∀ k a b p, T.Separates k a b →
    (a ∈ leaves → t.pages a = some (.leaf p) → ∀ row ∈ p.rows, intKey p.keyField row ≤ k) ∧
      (b ∈ leaves → t.pages b = some (.leaf p) → ∀ row ∈ p.rows, k ≤ intKey p.keyField row)
  kinds : ∀ n c c' page page', T.Child n c → T.Child n c' → t.pages c = some page →
    t.pages c' = some page' → page.kind = page'.kind
  leaf_half : ∀ n ∈ leaves, n ≠ root.pgNo → ∀ p, t.pages n = some (.leaf p) →
    p.numSlots / 2 ≤ p.getNumTuples
  node_half : ∀ n, (T.node n).isSome → n ≠ root.pgNo → ∀ p, t.pages n = some (.internal p) →
    p.getMaxEntries / 2 ≤ p.getNumEntries
  rows : (t.leafRows leaves).Perm rows

section Runs

variable {td : TupleDesc} {T : KeyTree Int32 Int} {rank : Int32 → ℕ} {root : BTreePageId}
  {leaves : List Int32} {t : LogicalTree} {rows : List Row} {tuple : Tuple}

theorem Grown.lawful (h : Grown td T rank root leaves t) (hrows : (t.leafRows leaves).Perm rows) :
    Lawful T root leaves rows t := by
  constructor
  case rooted => exact h.rooted
  case nodes =>
    intro n first es hnode
    obtain ⟨p, entries, hes, hp, hint⟩ := h.legal.internal n first es hnode
    exact ⟨p, entries, hes, hp, hint.filled⟩
  case child => exact h.legal.child
  case top => exact h.legal.top
  case parents =>
    intro n c hchild
    obtain ⟨-, page, -, -, hpage, hparent, -⟩ := h.legal.child_page hchild
    exact ⟨page, hpage, hparent⟩
  case siblings => exact h.legal.linked
  case nodup => exact h.legal.nodup
  case rids =>
    intro n hn
    obtain ⟨p, hp, -⟩ := h.legal.leaf n hn
    exact ⟨p, hp, fun i u hu => (p.of_tuple? hu).2⟩
  case separators =>
    intro k a b p hseparates
    exact ⟨fun ha hp row hrow => ((h.legal.legalLeaf ha hp).range row hrow k b).1 hseparates,
      fun hb hp row hrow => ((h.legal.legalLeaf hb hp).range row hrow k a).2 hseparates⟩
  case kinds =>
    intro n c c' page page' hc hc' hpage hpage'
    obtain ⟨q, _, hq, -, hpage₁, -, -, hkind⟩ := h.legal.child_page hc
    obtain ⟨q', _, hq', -, hpage₂, -, -, hkind'⟩ := h.legal.child_page hc'
    rw [hq] at hq'
    cases hq'
    rw [hpage] at hpage₁
    rw [hpage'] at hpage₂
    cases hpage₁
    cases hpage₂
    exact hkind.trans hkind'.symm
  case leaf_half =>
    intro n hn hne p hp
    rw [BTreeLeafPage.getNumTuples_eq]
    exact h.half n hn hne p hp
  case node_half => exact fun n hn hne => absurd (h.flat n hn) hne
  case rows => exact hrows

def UnusedOrGrown (td : TupleDesc) (rows : List Row) (t : LogicalTree) : Prop :=
  Unused td t ∧ rows = [] ∨
    ∃ T rank root leaves, Grown td T rank root leaves t ∧ (t.leafRows leaves).Perm rows

theorem UnusedOrGrown.insertTuple (h : UnusedOrGrown td rows t)
    (hcap : 2 ≤ BTreeLeafPage.getMaxTuples t.pageSize td) (htd : tuple.td = td)
    (hroom : RoomFor t tuple) :
    ∃ u t' T rank root leaves, BTreeFile.insertTuple tuple t = .ok u t' ∧
      Grown td T rank root leaves t' ∧ (t'.leafRows leaves).Perm (tuple.fields :: rows) ∧
      t'.pageSize = t.pageSize := by
  rcases h with ⟨hunused, rfl⟩ | ⟨T, rank, root, leaves, hgrown, hperm⟩
  · obtain ⟨r, u, t', T, rank, root, leaves, t₁, C, l, q, hrun, hstores, hnil⟩ :=
      hunused.insertTuple hcap htd
    have hperm := hstores.perm
    rw [hnil] at hperm
    exact ⟨u, t', T, rank, root, leaves, hrun, hstores.grown, hperm, hstores.pageSize⟩
  · obtain ⟨u, t', T', rank', root', leaves', t₁, C, l, q, hrun, hstores⟩ :=
      hgrown.insertTuple hcap htd hroom
    exact ⟨u, t', T', rank', root', leaves', hrun, hstores.grown, hstores.perm.trans (hperm.cons _),
      hstores.pageSize⟩

/-- As long as each call finds room, it returns, and what it leaves in the pool is a legal tree
with the rows that were inserted. The map of pages goes along for what the pool contains. -/
def Inserts : List InsertCall → List Row → PoolTree BTreeFile → LogicalTree → Prop
  | [], _, _, _ => True
  | call :: calls, rows, s, t => RoomFor t call.tuple →
      ∃ u s' t', PoolTree.insertTuple call s = .ok u s' ∧
        PoolTree.Resident s'.db s'.dirtypages t' ∧
        (∃ T root leaves, Lawful T root leaves (call.tuple.fields :: rows) t') ∧
        Inserts calls (call.tuple.fields :: rows) s' t'

theorem inserts_of_unusedOrGrown (calls : List InsertCall) {s : PoolTree BTreeFile}
    (hs : PoolTree.Resident s.db s.dirtypages t) (h : UnusedOrGrown td rows t)
    (hcap : 2 ≤ BTreeLeafPage.getMaxTuples t.pageSize td) (htd : ∀ c ∈ calls, c.tuple.td = td) :
    Inserts calls rows s t := by
  induction calls generalizing rows s t with
  | nil => trivial
  | cons call calls ih =>
    intro hroom
    obtain ⟨u, t', T, rank, root, leaves, hrun, hgrown, hperm, hsize⟩ :=
      h.insertTuple hcap (htd call List.mem_cons_self) hroom
    obtain ⟨s', hrun', hs'⟩ := PoolTree.insertTuple_resident hs call hrun
    exact ⟨u, s', t', hrun', hs', ⟨T, root, leaves, hgrown.lawful hperm⟩,
      ih hs' (.inr ⟨T, rank, root, leaves, hgrown, hperm⟩) (hsize ▸ hcap)
        fun c hc => htd c (List.mem_cons_of_mem call hc)⟩

/-- A run whose calls all return. -/
def Inserted : List InsertCall → List Row → PoolTree BTreeFile → Prop
  | [], _, _ => True
  | call :: calls, rows, s =>
      ∃ u s' t', PoolTree.insertTuple call s = .ok u s' ∧
        PoolTree.Resident s'.db s'.dirtypages t' ∧
        (∃ T root leaves, Lawful T root leaves (call.tuple.fields :: rows) t') ∧
        Inserted calls (call.tuple.fields :: rows) s'

/-- The leaf that the search for the key of a tuple ends at. -/
def leafFor (t : LogicalTree) (tuple : Tuple) : Option Int32 :=
  match t.pages 0, tuple.getField t.keyField with
  | some (.rootPtr r), .ok key =>
    r.getRootId.bind fun root =>
      match findLeafPage .readOnly (some key) (t.getNumPages + 1) root t with
      | .ok L _ => some L
      | .error _ _ => none
  | _, _ => none

theorem Reaches.leafFor {L : Int32} (h : Reaches t tuple L) : leafFor t tuple = some L := by
  obtain ⟨r, root, key, hr, hroot, hkey, hfind⟩ := h
  simp only [PagedDb.leafFor, hr, hkey, hroot, hfind, Option.bind_some]

/-- The check of `RoomFor`. -/
def hasRoom (t : LogicalTree) (tuple : Tuple) : Bool :=
  match (leafFor t tuple).bind t.pages with
  | some (.leaf p) =>
    p.getNumEmptySlots ≠ 0 || (p.parent = 0 && t.Roomy 2) || (t.Roomy 1 &&
      match t.pages p.parent with
      | some (.internal q) => q.getNumEmptySlots ≠ 0
      | _ => false)
  | _ => true

theorem roomFor_of_hasRoom (h : hasRoom t tuple = true) : RoomFor t tuple := by
  intro L p hreaches hp hfull
  simp only [hasRoom, hreaches.leafFor, Option.bind_some, hp, hfull, ne_eq, not_true_eq_false,
    decide_false, Bool.false_or, Bool.or_eq_true, Bool.and_eq_true, decide_eq_true_eq] at h
  refine h.imp id fun ⟨hroomy, hparent⟩ => ⟨hroomy, ?_⟩
  split at hparent
  case h_1 q hq => exact ⟨q, hq, of_decide_eq_true hparent⟩
  case h_2 => cases hparent

def findRoom : List InsertCall → LogicalTree → Bool
  | [], _ => true
  | call :: calls, t => hasRoom t call.tuple &&
      match BTreeFile.insertTuple call.tuple t with
      | .ok _ t' => findRoom calls t'
      | .error _ _ => false

theorem Inserts.inserted {calls : List InsertCall} {s : PoolTree BTreeFile}
    (h : Inserts calls rows s t) (hs : PoolTree.Resident s.db s.dirtypages t)
    (hroom : findRoom calls t = true) : Inserted calls rows s := by
  induction calls generalizing rows s t with
  | nil => trivial
  | cons call calls ih =>
    obtain ⟨hfirst, hrest⟩ := Bool.and_eq_true_iff.mp hroom
    obtain ⟨u, s', t', hins, hs', hlawful, hnext⟩ := h (roomFor_of_hasRoom hfirst)
    refine ⟨u, s', t', hins, hs', hlawful, ih hnext hs' ?_⟩
    -- the pool that the call leaves contains the map that it makes of `t`
    split at hrest
    case h_1 u₁ t₁ hrun =>
      obtain ⟨s₁, hins₁, hs₁⟩ := PoolTree.insertTuple_resident hs call hrun
      rw [hins] at hins₁
      cases hins₁
      rwa [hs'.unique hs₁]
    case h_2 => cases hrest

end Runs

section Files

variable {pageSize : ℕ}

/-- A file is fresh if the data that its pages are made of has no used slots and no pointers. -/
theorem freshPages_of_isEmpty {td : TupleDesc} {t : LogicalTree}
    (hleaf : ∀ k id, id.type = .leaf → ∃ data stack : Memory.Buffer,
      t.blank k id = .leaf (.ofData t.pageSize td id t.keyField data stack) ∧
        (t.blank k id).IsEmpty)
    (hinternal : ∀ k id, id.type = .internal → ∃ data stack : Memory.Buffer,
      t.blank k id = .internal (.ofData t.pageSize td id t.keyField data stack) ∧
        (t.blank k id).IsEmpty) : t.FreshPages td := by
  constructor
  case leaf =>
    intro k id hid
    obtain ⟨data, stack, hblank, hempty⟩ := hleaf k id hid
    rw [hblank] at hempty
    obtain ⟨hparent, hleft, hright, hunused⟩ := hempty
    refine ⟨_, hblank, rfl, rfl, rfl, rfl, ?_, hleft, hright, hparent⟩
    apply Slots.segment_eq_nil
    intro i _ hi
    exact (BTreeLeafPage.row?_eq_none hi).mpr (hunused i hi)
  case internal =>
    intro k id hid
    obtain ⟨data, stack, hblank, hempty⟩ := hinternal k id hid
    rw [hblank] at hempty
    exact ⟨_, hblank, rfl, rfl, rfl, rfl, hempty.2, hempty.1, .inr rfl⟩

/-- An empty file with pages for a tuple or more. -/
theorem emptyTree_unused (file : BTreeFile)
    (hkey : file.td.getFieldType file.keyField = some .intType)
    (hcap : 1 ≤ BTreeLeafPage.getMaxTuples pageSize file.td) {numPages : ℕ} (hpool : 2 ≤ numPages)
    (hsmall : BTreeRootPtrPage.size + pageSize < 2 ^ 31) (order : ℕ → ℕ) :
    Unused file.td (PoolTree.emptyTree file pageSize numPages order) := by
  have hsize : 12 < pageSize := by
    by_contra hle
    unfold BTreeLeafPage.getMaxTuples at hcap
    rw [Nat.sub_eq_zero_of_le (Nat.le_of_not_lt hle), Nat.zero_mul, Nat.zero_div] at hcap
    omega
  have hzero : ∀ (k : Ref) {i : ℕ}, i < pageSize → Memory.zeroed pageSize (file.heap k) i = 0 :=
    fun k i hi => Memory.zeroed_lt hi
  refine ⟨⟨Nat.zero_lt_of_lt hsize, ?_, rfl, fun _ => rfl, ?_, freshPages_of_isEmpty ?_ ?_⟩, hkey⟩
  · change ((BTreeRootPtrPage.size + pageSize : ℕ) : ℕ∞) ≤
      ((min 2147483647 (BTreeRootPtrPage.size + pageSize * numPages - 1) : ℕ) : ℕ∞)
    have hmul : pageSize * 2 ≤ pageSize * numPages := Nat.mul_le_mul_left _ hpool
    exact_mod_cast (by omega)
  · have hblank : file.blankPage pageSize 0 (BTreeRootPtrPage.getId file.tableid) =
        .rootPtr (.ofData (BTreeRootPtrPage.getId file.tableid)
          (Memory.zeroed BTreeRootPtrPage.size (file.heap 0))) := if_pos rfl
    refine ⟨_, hblank, rfl, ?_, ?_⟩
    · refine Memory.loadWord_eq_zero fun i _ hi => Memory.zeroed_lt ?_
      unfold BTreeRootPtrPage.size
      omega
    · refine Memory.loadWord_eq_zero fun i _ hi => Memory.zeroed_lt ?_
      unfold BTreeRootPtrPage.size
      omega
  · intro k id hid
    have hblank : file.blankPage pageSize k id = .leaf (.ofData pageSize file.td id file.keyField
        (Memory.zeroed pageSize (file.heap k)) (file.stack k)) := by
      rw [BTreeFile.blankPage, hid, if_neg (by decide)]
      rfl
    refine ⟨_, _, hblank, ?_⟩
    change (file.blankPage pageSize k id).IsEmpty
    rw [hblank]
    refine BTreeLeafPage.ofData_isEmpty_iff.mpr ⟨fun i hi => hzero k (by omega), ?_⟩
    intro i hi
    have hfits := BTreeLeafPage.layout pageSize file.td
    rw [hzero k (by omega)]
    exact Nat.zero_testBit _
  · intro k id hid
    have hblank : file.blankPage pageSize k id = .internal (.ofData pageSize file.td id
        file.keyField (Memory.zeroed pageSize (file.heap k)) (file.stack k)) := by
      rw [BTreeFile.blankPage, hid, if_neg (by decide)]
      rfl
    refine ⟨_, _, hblank, ?_⟩
    change (file.blankPage pageSize k id).IsEmpty
    rw [hblank]
    refine BTreeInternalPage.ofData_isEmpty_iff.mpr ⟨fun i hi => hzero k (by omega), ?_⟩
    intro i hi
    rw [hzero k (PositionalFile.internal_bits_inside hsize.le hi)]
    exact Nat.zero_testBit _

/-- Insertions into a new file through a pool of `numPages` pages: as long as the root is not full
where it would have to be split, and the file and the pool take the new pages, every call returns
and keeps the tree legal. -/
theorem inserts_legal (tableid : Int32) {keyField : ℕ} {td : TupleDesc}
    (hkey : td.getFieldType keyField = some .intType) {pageSize : ℕ}
    (hcap : 2 ≤ BTreeLeafPage.getMaxTuples pageSize td) {numPages : ℕ} (hpool : 2 ≤ numPages)
    (hsmall : BTreeRootPtrPage.size + pageSize < 2 ^ 31) (order : ℕ → ℕ)
    (heap stack : Ref → Memory.Buffer) (scratch : Memory.Buffer) (calls : List InsertCall)
    (htd : ∀ c ∈ calls, c.tuple.td = td) :
    Inserts calls []
      (.opened (BTreeFile.opened tableid keyField td heap stack scratch) pageSize numPages order)
      (PoolTree.emptyTree (.opened tableid keyField td heap stack scratch) pageSize numPages
        order) := by
  let file : BTreeFile := .opened tableid keyField td heap stack scratch
  let t := PoolTree.emptyTree file pageSize numPages order
  have hunused : Unused td t := emptyTree_unused file hkey (one_le_two.trans hcap) hpool hsmall order
  have hresident : PoolTree.Resident (PoolTree.opened file pageSize numPages order).db ∅ t :=
    PoolTree.opened_resident rfl (fun _ => rfl) pageSize numPages order
  have hcap' : 2 ≤ BTreeLeafPage.getMaxTuples t.pageSize td := hcap
  exact inserts_of_unusedOrGrown calls hresident (.inl ⟨hunused, rfl⟩) hcap' htd

def threeInts : BTreeFile :=
  .opened 7 0 (.ofInts 3) (fun _ _ => 0) (fun _ _ => 0) fun _ => 0

theorem row_typed (k : Int32) :
    [Field.int k, .int 0, .int 0].map Field.getType = (TupleDesc.ofInts 3).types := rfl

def rowCall (k : Int32) : InsertCall :=
  .inOrder ⟨.ofInts 3, [.int k, .int 0, .int 0], none, row_typed k⟩

theorem threeInts_resident :
    PoolTree.Resident (PoolTree.opened threeInts 37 50 fun _ => 0).db ∅
      (PoolTree.emptyTree threeInts 37 50 fun _ => 0) :=
  PoolTree.opened_resident rfl (fun _ => rfl) 37 50 fun _ => 0

/-- Five rows in pages of 37 bytes, after which the root is full. -/
theorem threeInts_inserts : Inserted ([1, 2, 3, 4, 5].map rowCall) []
    (.opened threeInts 37 50 fun _ => 0) := by
  refine Inserts.inserted ?_ threeInts_resident (by decide +kernel)
  apply inserts_legal 7 rfl (by decide) (by decide) (by decide)
  simp [rowCall, InsertCall.inOrder]

def insertFault (calls : List InsertCall) (s : PoolTree BTreeFile) : Option Fault :=
  match PoolTree.insertAll calls s with
  | .ok _ _ => none
  | .error e _ => some e

/-- A page of 37 bytes has room for two of these rows or for three entries. After five rows the
root is full, and the sixth one needs a fifth leaf. -/
theorem sixth_row_fails :
    BTreeLeafPage.getMaxTuples 37 threeInts.td = 2 ∧
    BTreeInternalPage.maxEntries 37 threeInts.td threeInts.keyField = 3 ∧
    insertFault ([1, 2, 3, 4, 5].map rowCall) (.opened threeInts 37 50 fun _ => 0) = none ∧
    insertFault ([1, 2, 3, 4, 5, 6].map rowCall) (.opened threeInts 37 50 fun _ => 0) =
      some .assertion := by
  decide +kernel

end Files

end PagedDb
