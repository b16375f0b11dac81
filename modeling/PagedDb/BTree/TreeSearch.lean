import PagedDb.BTree.LegalTree

/-!
# The search in a legal tree

`findLeafPage` goes down to the first leaf that may have the key: the keys of
the leaves before it are smaller, and so is every separator before it. Without
a key it goes to the first leaf of the chain.
-/

namespace PagedDb

open Exec LogicalTree BTreeFile

def LogicalTree.leafRows (t : LogicalTree) (leaves : List Int32) : List Row :=
  leaves.flatMap fun n =>
    match t.pages n with
    | some (.leaf p) => p.rows
    | _ => []

theorem findLeafPage_leaf (perm : Permissions) (f : Option Field) (fuel : ℕ) {t : LogicalTree}
    {n : Int32} (h : t.Has ⟨t.tableid, n, .leaf⟩) :
    findLeafPage perm f (fuel + 1) ⟨t.tableid, n, .leaf⟩ t = .ok n t := by
  rw [findLeafPage]
  exact h.getPage perm

theorem findLeafPage_internal (perm : Permissions) {f : Option Field} (fuel : ℕ) {t : LogicalTree}
    {n : Int32} {p : BTreeInternalPage} {child : BTreePageId}
    (h : t.Has ⟨t.tableid, n, .internal⟩) (hp : t.pages n = some (.internal p))
    (hchoose : chooseChild p f = .ok (some child)) :
    findLeafPage perm f (fuel + 1) ⟨t.tableid, n, .internal⟩ t =
      findLeafPage perm f fuel child t := by
  have hget : TreeStore.getPage ⟨t.tableid, n, .internal⟩ perm t = .ok n t := h.getPage perm
  rw [findLeafPage]
  exact (bind_ok hget).trans ((bind_ok (internalAt_run hp)).trans (bind_ok (lift_run hchoose t)))

namespace Legal

variable {td : TupleDesc} {T : KeyTree Int32 Int} {rank : Int32 → ℕ} {root : BTreePageId}
  {leaves : List Int32} {t : LogicalTree} {n L : Int32}

/-- The way down: what the choice of a child keeps, the search establishes for a leaf. -/
theorem findLeafPage_descends (h : Legal td T rank root leaves t) {I : Int32 → Prop}
    {f : Option Field} (hstep : ∀ n p first entries, LegalInternal td T t n p first entries →
      I n → ∃ c ∈ BTreeInternalPage.childList first entries,
        chooseChild p f = .ok (some (p.childId c)) ∧ I c) (perm : Permissions) {fuel : ℕ}
    (hn : (T.node n).isSome ∨ n ∈ leaves) {page : BTreeFilePage} (hp : t.pages n = some page)
    (hI : I n) (hfuel : rank n < fuel) :
    ∃ L ∈ leaves, findLeafPage perm f fuel ⟨t.tableid, n, page.kind⟩ t = .ok L t ∧ I L := by
  induction fuel generalizing n page with
  | zero => omega
  | succ fuel ih =>
    obtain ⟨-, hnode⟩ := h.pageId hn hp
    by_cases hleaf : n ∈ leaves
    · obtain ⟨p, hp', -⟩ := h.leaf n hleaf
      rw [hp] at hp'
      cases hp'
      exact ⟨n, hleaf, findLeafPage_leaf perm f fuel hnode.has, hI⟩
    · obtain ⟨⟨first, es⟩, hx⟩ := Option.isSome_iff_exists.mp (hn.resolve_right hleaf)
      obtain ⟨p, entries, rfl, hp', hint⟩ := h.internal n first es hx
      rw [hp] at hp'
      cases hp'
      obtain ⟨c, hc, hchoose, hIc⟩ := hstep n p first entries hint hI
      have hchild : T.Child n c := ⟨first, _, hx, by rwa [intEntries_snd]⟩
      obtain ⟨q, page, hq, -, hpage, -, hid, hkind⟩ := h.child_page hchild
      rw [hp] at hq
      cases hq
      have hcid : p.childId c = ⟨t.tableid, c, page.kind⟩ := by
        rw [← hid]
        exact (h.pageId (h.child n c hchild) hpage).1
      have hrank := h.balanced.rank_child n c hchild
      obtain ⟨L, hL, hrun, hIL⟩ := ih (h.child n c hchild) hpage hIc (by omega)
      refine ⟨L, hL, (findLeafPage_internal perm fuel hnode.has hp hchoose).trans ?_, hIL⟩
      rw [hcid]
      exact hrun

/-- A way down from a node, one level at a time. -/
theorem exists_descent (h : Legal td T rank root leaves t) (hn : (T.node n).isSome ∨ n ∈ leaves) :
    ∃ path : List Int32, path.length = rank n + 1 ∧ (∀ m ∈ path, rank m ≤ rank n) ∧
      (path.map rank).Nodup ∧ ∀ m ∈ path, 0 < m.toInt ∧ m.toInt ≤ t.getNumPages := by
  have hnumber : ∀ m, (T.node m).isSome ∨ m ∈ leaves → 0 < m.toInt ∧ m.toInt ≤ t.getNumPages := by
    intro m hm
    obtain ⟨page, hpage⟩ : ∃ page, t.pages m = some page := by
      rcases hm with hm | hm
      · obtain ⟨⟨first, es⟩, hx⟩ := Option.isSome_iff_exists.mp hm
        obtain ⟨q, -, -, hq, -⟩ := h.internal m first es hx
        exact ⟨_, hq⟩
      · obtain ⟨p, hp, -⟩ := h.leaf m hm
        exact ⟨_, hp⟩
    obtain ⟨-, ⟨⟨-, -, -, hnum⟩, -⟩, hkind⟩ := h.pageId hm hpage
    rwa [if_neg (by rcases hkind with hk | hk <;> rw [hk] <;> decide)] at hnum
  induction hr : rank n generalizing n with
  | zero => exact ⟨[n], rfl, by simp [hr], by simp, by simpa using hnumber n hn⟩
  | succ r ih =>
    have hinner : (T.node n).isSome := by
      rcases hn with hn | hn
      · exact hn
      · rw [h.balanced.rank_leaf n (h.node_leaf hn)] at hr
        cases hr
    obtain ⟨⟨first, es⟩, hx⟩ := Option.isSome_iff_exists.mp hinner
    have hchild : T.Child n first := ⟨first, es, hx, List.mem_cons_self⟩
    have hrank := h.balanced.rank_child n first hchild
    obtain ⟨path, hlen, hle, hnodup, hin⟩ := ih (h.child n first hchild) (by omega)
    refine ⟨n :: path, by rw [List.length_cons, hlen], ?_, ?_, ?_⟩
    · intro m hm
      rcases List.mem_cons.mp hm with rfl | hm
      · exact hr.le
      · exact (hle m hm).trans (Nat.le_succ r)
    · rw [List.map_cons, List.nodup_cons]
      refine ⟨fun hmem => ?_, hnodup⟩
      obtain ⟨m, hm, heq⟩ := List.mem_map.mp hmem
      have := hle m hm
      omega
    · intro m hm
      rcases List.mem_cons.mp hm with rfl | hm
      · exact hnumber m hn
      · exact hin m hm

theorem rank_lt (h : Legal td T rank root leaves t) : rank root.pgNo < t.getNumPages + 1 := by
  obtain ⟨path, hlen, -, hnodup, hin⟩ := h.exists_descent h.root_mem
  have hdistinct : (path.map Int32.toInt).Nodup :=
    (hnodup.of_map rank).map fun a b hab => Int32.toInt_inj.mp hab
  have hsub : (path.map Int32.toInt).toFinset ⊆ Finset.Icc 1 (t.getNumPages : Int) := by
    intro x hx
    obtain ⟨m, hm, rfl⟩ := List.mem_map.mp (List.mem_toFinset.mp hx)
    have := hin m hm
    exact Finset.mem_Icc.mpr ⟨by omega, by omega⟩
  have hcard := Finset.card_le_card hsub
  rw [List.toFinset_card_of_nodup hdistinct, List.length_map, hlen, Int.card_Icc] at hcard
  omega

theorem before_of_chain {pre post : List Int32} (h : Legal td T rank root (pre ++ L :: post) t)
    {m : Int32} : (m ∈ pre → T.Before m L) ∧ (m ∈ post → T.Before L m) := by
  obtain ⟨-, hpost, hpre⟩ := List.pairwise_append.mp h.order
  exact ⟨fun hm => hpre m hm L List.mem_cons_self,
    fun hm => (List.pairwise_cons.mp hpost).1 m hm⟩

theorem leafRows_sorted (h : Legal td T rank root leaves t) :
    KeyOrdered t.keyField (t.leafRows leaves) := by
  rw [KeyOrdered, LogicalTree.leafRows, List.pairwise_flatMap]
  constructor
  · intro n hn
    obtain ⟨p, hp, hleaf⟩ := h.leaf n hn
    rw [hp, ← hleaf.keyField]
    exact hleaf.ordered
  · have hmem : ∀ n ∈ leaves, n ∈ leaves := fun _ hn => hn
    refine h.order.imp_of_mem ?_
    intro a b ha hb hab x hx y hy
    obtain ⟨p, hp, hleaf⟩ := h.leaf a ha
    obtain ⟨q, hq, hleaf'⟩ := h.leaf b hb
    rw [hp] at hx
    rw [hq] at hy
    have hx' := hleaf.range x hx
    have hy' := hleaf'.range y hy
    rw [hleaf.keyField] at hx'
    rw [hleaf'.keyField] at hy'
    exact hab.le hx' hy'

/-- What the search with a key keeps on its way down. -/
theorem leftmost_step (h : Legal td T rank root leaves t) (f : Int32) (n : Int32)
    (p : BTreeInternalPage) (first : Int32) (entries : List (Int32 × Int32))
    (hint : LegalInternal td T t n p first entries) (hI : T.Leftmost n f.toInt) :
    ∃ c ∈ BTreeInternalPage.childList first entries,
      chooseChild p (some (.int f)) = .ok (some (p.childId c)) ∧ T.Leftmost c f.toInt := by
  obtain ⟨pre, post, rfl, hc, hpre, hpost⟩ :=
    BTreeInternalPage.pickChild_split f.toInt first entries
  have hnode := hint.node
  rw [intEntries_append] at hnode
  have hlast : KeyTree.lastChild first (intEntries pre) =
      BTreeInternalPage.pickChild f.toInt first (pre ++ post) := by
    have hget := KeyTree.getElem?_lastChild first (intEntries pre) (intEntries post)
    rw [List.map_append, intEntries_snd, intEntries_snd, ← List.map_append,
      show (intEntries pre).length = pre.length from List.length_map _] at hget
    exact Option.some.inj (hget.symm.trans hc)
  refine ⟨_, List.mem_of_getElem? hc, hint.filled.chooseChild_eq hint.ne_nil, ?_⟩
  rw [← hlast]
  apply hI.child h.balanced hnode
  · intro e he
    obtain ⟨e', he', rfl⟩ := List.mem_map.mp he
    exact hpre e' he'
  · intro e he
    obtain ⟨e', he', rfl⟩ := List.mem_map.mp he
    cases post with
    | nil => cases he'
    | cons e₀ post =>
      have hfirst := hpost e₀ rfl
      rcases List.mem_cons.mp he' with rfl | he'
      · exact hfirst
      · have hsorted := (List.pairwise_append.mp hint.sorted).2.1
        exact hfirst.trans ((List.pairwise_cons.mp hsorted).1 e' he')

theorem root_id (h : Legal td T rank root leaves t) :
    ∃ page, t.pages root.pgNo = some page ∧ root = ⟨t.tableid, root.pgNo, page.kind⟩ := by
  obtain ⟨-, page, hp, hid, -⟩ := h.root_node.has
  exact ⟨page, hp, hid.symm.trans (h.pageId h.root_mem hp).1⟩

theorem leafRows_mem {ns : List Int32} {row : Row} (hrow : row ∈ t.leafRows ns) :
    ∃ n ∈ ns, ∃ p, t.pages n = some (.leaf p) ∧ row ∈ p.rows := by
  obtain ⟨n, hn, hrow⟩ := List.mem_flatMap.mp hrow
  split at hrow
  · exact ⟨n, hn, _, ‹_›, hrow⟩
  · cases hrow

theorem findLeafPage_key (h : Legal td T rank root leaves t) (perm : Permissions) {fuel : ℕ}
    (hfuel : rank root.pgNo < fuel) (f : Int32) : ∃ pre L post, leaves = pre ++ L :: post ∧
      findLeafPage perm (some (.int f)) fuel root t = .ok L t ∧ T.Leftmost L f.toInt := by
  obtain ⟨page, hp, hroot⟩ := h.root_id
  have htop : T.Leftmost root.pgNo f.toInt := fun k b =>
    ⟨fun hs => absurd hs (KeyTree.not_separates_top h.root_top).1,
      fun hs => absurd hs (KeyTree.not_separates_top h.root_top).2⟩
  obtain ⟨L, hL, hrun, hleft⟩ :=
    h.findLeafPage_descends (h.leftmost_step f) perm h.root_mem hp htop hfuel
  obtain ⟨pre, post, hsplit⟩ := List.append_of_mem hL
  exact ⟨pre, L, post, hsplit, hroot ▸ hrun, hleft⟩

theorem findLeafPage_none (h : Legal td T rank root leaves t) (perm : Permissions) {fuel : ℕ}
    (hfuel : rank root.pgNo < fuel) : ∃ L post, leaves = L :: post ∧
      findLeafPage perm none fuel root t = .ok L t := by
  obtain ⟨page, hp, hroot⟩ := h.root_id
  have hstep : ∀ n p first entries, LegalInternal td T t n p first entries →
      (∀ k b, ¬ T.Separates k b n) → ∃ c ∈ BTreeInternalPage.childList first entries,
        chooseChild p none = .ok (some (p.childId c)) ∧ ∀ k b, ¬ T.Separates k b c := by
    intro n p first entries hint hI
    refine ⟨first, List.mem_cons_self, hint.filled.chooseChild_none hint.ne_nil, ?_⟩
    intro k b hs
    have hs' : T.Separates k b (KeyTree.lastChild first ([] : List (Int × Int32))) := hs
    have hnode : T.node n = some (first, [] ++ intEntries entries) := hint.node
    rcases hs'.of_right h.balanced hnode with hs | ⟨e, he, -⟩
    · exact hI k b hs
    · cases he
  obtain ⟨L, hL, hrun, hfirst⟩ := h.findLeafPage_descends hstep perm h.root_mem hp
    (fun k b => (KeyTree.not_separates_top h.root_top).2) hfuel
  obtain ⟨pre, post, hsplit⟩ := List.append_of_mem hL
  cases pre with
  | nil => exact ⟨L, post, hsplit, hroot ▸ hrun⟩
  | cons m pre =>
    obtain ⟨k, hk⟩ := (before_of_chain (hsplit ▸ h)).1 (List.mem_cons_self (a := m) (l := pre))
    exact absurd hk (hfirst k m)

/-- `findLeafPage` on a legal tree. With a key it returns a leaf that splits the chain: the rows
before it and the separators before it are smaller, the rows behind it are not, and a row with the
key comes in the chain from that leaf on before any greater one. Without a key it returns the
first leaf. -/
theorem findLeafPage_candidates (h : Legal td T rank root leaves t) (perm : Permissions)
    {fuel : ℕ} (hfuel : rank root.pgNo < fuel) :
    (∀ f : Int32, ∃ pre L post, leaves = pre ++ L :: post ∧
      findLeafPage perm (some (.int f)) fuel root t = .ok L t ∧
      (∀ row ∈ t.leafRows pre, intKey t.keyField row < f.toInt) ∧
      (pre = [] ∨ ∃ k m, T.Separates k m L) ∧ (∀ k m, T.Separates k m L → k < f.toInt) ∧
      (∀ row ∈ t.leafRows post, f.toInt ≤ intKey t.keyField row) ∧
      (∃ left, Linked t left (L :: post)) ∧
      (∀ row ∈ t.leafRows leaves, intKey t.keyField row = f.toInt →
        row ∈ t.leafRows (L :: post) ∧ ∀ a b, t.leafRows (L :: post) = a ++ row :: b →
          ∀ x ∈ a, intKey t.keyField x ≤ f.toInt)) ∧
    ∃ L post, leaves = L :: post ∧ findLeafPage perm none fuel root t = .ok L t := by
  refine ⟨fun f => ?_, h.findLeafPage_none perm hfuel⟩
  obtain ⟨pre, L, post, rfl, hrun, hleft⟩ := h.findLeafPage_key perm hfuel f
  have hbefore : ∀ row ∈ t.leafRows pre, intKey t.keyField row < f.toInt := by
    intro row hrow
    obtain ⟨m, hm, p, hp, hmem⟩ := leafRows_mem hrow
    have hleaf := h.legalLeaf (List.mem_append_left _ hm) hp
    obtain ⟨k, hk⟩ := h.before_of_chain.1 hm
    have hle := (hleaf.range row hmem k L).1 hk
    rw [hleaf.keyField] at hle
    exact hle.trans_lt ((hleft k m).2 hk)
  have hafter : ∀ row ∈ t.leafRows post, f.toInt ≤ intKey t.keyField row := by
    intro row hrow
    obtain ⟨m, hm, p, hp, hmem⟩ := leafRows_mem hrow
    have hleaf := h.legalLeaf (List.mem_append_right _ (List.mem_cons_of_mem L hm)) hp
    obtain ⟨k, hk⟩ := h.before_of_chain.2 hm
    have hle := (hleaf.range row hmem k L).2 hk
    rw [hleaf.keyField] at hle
    exact ((hleft k m).1 hk).trans hle
  have hall : t.leafRows (pre ++ L :: post) = t.leafRows pre ++ t.leafRows (L :: post) :=
    List.flatMap_append
  have hsorted := h.leafRows_sorted
  rw [hall, KeyOrdered, List.pairwise_append] at hsorted
  refine ⟨pre, L, post, rfl, hrun, hbefore, ?_, fun k m => (hleft k m).2, hafter, ?_, ?_⟩
  · cases pre with
    | nil => exact .inl rfl
    | cons m pre =>
      obtain ⟨k, hk⟩ := h.before_of_chain.1 (List.mem_cons_self (a := m) (l := pre))
      exact .inr ⟨k, m, hk⟩
  · exact h.linked.suffix
  · intro row hrow hkey
    rw [hall] at hrow
    refine ⟨(List.mem_append.mp hrow).resolve_left fun hmem => ?_, ?_⟩
    · have := hbefore row hmem
      omega
    · intro a b hab x hx
      have hpair := hsorted.2.1
      rw [hab] at hpair
      exact hkey ▸ (List.pairwise_append.mp hpair).2.2 x hx row List.mem_cons_self

end Legal

section Example

/-- A leaf for two integers that has one. -/
def oneIntLeaf (n k left right : Int32) : BTreeLeafPage :=
  let t : Tuple := ⟨.ofInts 1, [.int k], some ⟨.btree ⟨7, n, .leaf⟩, 0⟩, typed_int k⟩
  { pid := ⟨7, n, .leaf⟩
    td := .ofInts 1
    header := [1]
    tuples := [t, .empty]
    numSlots := 2
    header_bits := two_in_byte
    tuples_length := rfl
    stored := by
      intro i u hu hbit
      match i with
      | 0 =>
        cases hu
        exact ⟨rfl, rfl⟩
      | 1 => exact absurd hbit (by decide)
      | i + 2 => cases hu
    keyField := 0
    parent := 1
    leftSibling := left
    rightSibling := right }

/-- A root with two children. -/
def twoChildren : BTreeInternalPage where
  pid := ⟨7, 1, .internal⟩
  td := .ofInts 1
  keyField := 0
  parent := 0
  childCategory := .leaf
  header := [3]
  keys := [none, some (.int 5)]
  children := [2, 3]
  numSlots := 2
  header_bits := by decide
  keys_length := rfl
  children_length := rfl

/-- The key 5 is in both leaves and separates them. -/
def twoLeaves : LogicalTree where
  tableid := 7
  keyField := 0
  pageSize := 21
  limit := ⊤
  clearGrowth := 0
  blank _ id := .leaf (oneIntLeaf id.pgNo 0 0 0)
  reads := 0
  size := 72
  pages n :=
    if n = 1 then some (.internal twoChildren)
    else if n = 2 then some (.leaf (oneIntLeaf 2 5 0 3))
    else if n = 3 then some (.leaf (oneIntLeaf 3 5 2 0)) else none

def twoLeavesTree : KeyTree Int32 Int := ⟨fun n => if n = 1 then some (2, [(5, 3)]) else none⟩

def twoLeavesRank (n : Int32) : ℕ := if n = 1 then 1 else 0

theorem twoLeaves_node {n first : Int32} {es : List (Int × Int32)}
    (h : twoLeavesTree.node n = some (first, es)) : n = 1 ∧ first = 2 ∧ es = [(5, 3)] := by
  change (if n = 1 then _ else none) = some (first, es) at h
  split at h
  · cases h
    exact ⟨‹_›, rfl, rfl⟩
  · cases h

theorem twoLeaves_child {n c : Int32} (h : twoLeavesTree.Child n c) : n = 1 ∧ (c = 2 ∨ c = 3) := by
  obtain ⟨first, es, hnode, hmem⟩ := h
  obtain ⟨rfl, rfl, rfl⟩ := twoLeaves_node hnode
  exact ⟨rfl, by simpa using hmem⟩

theorem twoLeaves_under {a b : Int32} (ha : a = 2 ∨ a = 3) (h : twoLeavesTree.Under a b) :
    b = a := by
  apply h.of_leaf
  rcases ha with rfl | rfl <;> rfl

theorem twoLeaves_separates {k : Int} {a b : Int32} (h : twoLeavesTree.Separates k a b) :
    k = 5 ∧ a = 2 ∧ b = 3 := by
  obtain ⟨n, first, pre, m, post, hnode, ⟨c, hc, hca⟩, d, hd, hdb⟩ := h
  obtain ⟨rfl, rfl, hes⟩ := twoLeaves_node hnode
  cases pre with
  | nil =>
    cases hes
    simp only [List.map_nil, List.mem_singleton] at hc hd
    subst hc hd
    exact ⟨rfl, twoLeaves_under (.inl rfl) hca, twoLeaves_under (.inr rfl) hdb⟩
  | cons e pre =>
    have hlen := congrArg List.length hes
    simp at hlen

theorem twoLeaves_filled : twoChildren.Filled 2 [(5, 3)] := by
  refine ⟨by decide, by decide, rfl, ?_⟩
  intro i e he
  cases i with
  | zero =>
    cases he
    exact ⟨rfl, rfl⟩
  | succ i => cases he

theorem twoLeaves_hasNode : twoLeaves.HasNode ⟨7, 1, .internal⟩ ∧
    twoLeaves.HasNode ⟨7, 2, .leaf⟩ ∧ twoLeaves.HasNode ⟨7, 3, .leaf⟩ := by
  have hin : ∀ id : BTreePageId, Numbered 7 3 id → twoLeaves.InFile id := fun id hid =>
    ⟨by decide, le_top, hid⟩
  exact ⟨⟨⟨hin _ (by decide), _, rfl, rfl, rfl⟩, .inr rfl⟩,
    ⟨⟨hin _ (by decide), _, rfl, rfl, rfl⟩, .inl rfl⟩,
    ⟨hin _ (by decide), _, rfl, rfl, rfl⟩, .inl rfl⟩

theorem twoLeaves_inRange {n : Int32} : twoLeavesTree.InRange n 5 := by
  intro k m
  constructor
  · intro hs
    rw [(twoLeaves_separates hs).1]
  · intro hs
    rw [(twoLeaves_separates hs).1]

theorem twoLeaves_leaf {n left right : Int32} :
    LegalLeaf (.ofInts 1) twoLeavesTree twoLeaves n (oneIntLeaf n 5 left right) := by
  have hzero : (oneIntLeaf n 5 left right).row? 0 = some [.int 5] :=
    if_pos (show Bitmap.get [1] 0 = true by decide)
  have hone : (oneIntLeaf n 5 left right).row? 1 = none :=
    if_neg (show ¬ Bitmap.get [1] 1 = true by decide)
  have hrows : (oneIntLeaf n 5 left right).rows = [[.int 5]] := by
    change [0, 1].filterMap (oneIntLeaf n 5 left right).row? = _
    simp [hzero, hone]
  refine ⟨rfl, rfl, rfl, ?_, ?_⟩
  · rw [hrows]
    exact List.pairwise_singleton _ _
  · rw [hrows]
    intro row hrow
    rw [List.mem_singleton.mp hrow]
    exact twoLeaves_inRange

theorem twoLeaves_legal : Legal (.ofInts 1) twoLeavesTree twoLeavesRank ⟨7, 1, .internal⟩ [2, 3]
    twoLeaves := by
  obtain ⟨hroot, htwo, hthree⟩ := twoLeaves_hasNode
  constructor
  case key => rfl
  case root_node => exact hroot
  case root_parent => exact ⟨_, rfl, rfl⟩
  case root_mem => exact .inl rfl
  case root_top =>
    intro n h
    rcases (twoLeaves_child h).2 with h | h <;> exact absurd h (by decide)
  case top =>
    intro n hn
    rcases hn with hn | hn
    · obtain ⟨⟨first, es⟩, hx⟩ := Option.isSome_iff_exists.mp hn
      exact .inl (twoLeaves_node hx).1
    · exact .inr ⟨1, 2, [(5, 3)], rfl, hn⟩
  case balanced =>
    constructor
    case nodup =>
      intro n first es hnode
      obtain ⟨rfl, rfl, rfl⟩ := twoLeaves_node hnode
      decide
    case parent =>
      intro m n c hm hn
      rw [(twoLeaves_child hm).1, (twoLeaves_child hn).1]
    case rank_child =>
      intro n c h
      obtain ⟨rfl, rfl | rfl⟩ := twoLeaves_child h <;> rfl
    case rank_leaf =>
      intro n hn
      change (if n = 1 then _ else none) = none at hn
      split at hn
      · cases hn
      · exact if_neg ‹_›
  case internal =>
    intro n first es hnode
    obtain ⟨rfl, rfl, rfl⟩ := twoLeaves_node hnode
    refine ⟨twoChildren, [(5, 3)], rfl, rfl, rfl, rfl, rfl, twoLeaves_filled, by simp, by simp,
      ?_, ?_⟩
    · intro c hc
      obtain rfl | rfl : c = 2 ∨ c = 3 := by simpa [BTreeInternalPage.childList] using hc
      · exact htwo
      · exact hthree
    · intro c hc
      obtain rfl | rfl : c = 2 ∨ c = 3 := by simpa [BTreeInternalPage.childList] using hc
      · exact ⟨_, rfl, rfl⟩
      · exact ⟨_, rfl, rfl⟩
  case child =>
    intro n c h
    exact .inr (by simpa using (twoLeaves_child h).2)
  case leaf =>
    intro n hn
    obtain rfl | rfl : n = 2 ∨ n = 3 := by simpa using hn
    · exact ⟨_, rfl, twoLeaves_leaf⟩
    · exact ⟨_, rfl, twoLeaves_leaf⟩
  case linked => exact ⟨⟨_, rfl, rfl, rfl⟩, ⟨_, rfl, rfl, rfl⟩, trivial⟩
  case nodup => decide
  case order =>
    rw [List.pairwise_pair]
    exact ⟨5, 1, 2, [], 3, [], rfl, ⟨2, List.mem_cons_self, .refl⟩, 3, List.mem_cons_self, .refl⟩

/-- The search for the key 5 in the tree with two leaves. -/
theorem twoLeaves_candidates : ∃ pre L post, [2, 3] = pre ++ L :: post ∧
    findLeafPage .readOnly (some (.int 5)) 2 ⟨7, 1, .internal⟩ twoLeaves = .ok L twoLeaves ∧
    ∀ row ∈ twoLeaves.leafRows pre, intKey 0 row < 5 := by
  obtain ⟨pre, L, post, hsplit, hrun, hbefore, -⟩ :=
    (Legal.findLeafPage_candidates twoLeaves_legal .readOnly (show 1 < 2 by decide)).1 5
  exact ⟨pre, L, post, hsplit, hrun, hbefore⟩

end Example

end PagedDb
