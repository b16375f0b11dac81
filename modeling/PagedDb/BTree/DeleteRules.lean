import PagedDb.BTree.DeleteLegal

/-!
# Deletion and the rules of a B+ tree

The rules that every legal tree is to satisfy, for any use of the slots of its
internal pages: `deleteTuple` takes out one row and keeps them exactly where the
leaf stays half full, is the root, or has a sibling behind it that can spare a
tuple and that the code finds.
-/

namespace PagedDb

open Exec LogicalTree BTreeFile KeyTree

variable {td : TupleDesc} {T T' : KeyTree Int32 Int} {rank rank' : Int32 → ℕ}
  {root root' : BTreePageId} {leaves leaves' : List Int32} {t t' : LogicalTree} {n : Int32}

/-- The rules of a legal tree. That tuples name the slots they are in is part of what a page is; the
entries of an internal page may be in any slots behind the first child. -/
structure Rules (td : TupleDesc) (T : KeyTree Int32 Int) (rank : Int32 → ℕ) (root : BTreePageId)
    (leaves : List Int32) (t : LogicalTree) : Prop where
  holed : Holed td T rank root leaves t
  named : ∃ r, t.pages 0 = some (.rootPtr r) ∧ r.getRootId = some root
  half : HalfFull t root leaves
  internal_half : ∀ n q, (T.node n).isSome → n ≠ root.pgNo → t.pages n = some (.internal q) →
    q.getMaxEntries / 2 ≤ q.getNumEntries

section Reach

/-- Page numbers are finitely many, and so are the levels of a tree. -/
theorem exists_rank_le (rank : Int32 → ℕ) : ∃ b, ∀ n, rank n ≤ b := by
  have hfinite : Finite Int32 := by
    apply Finite.of_injective fun n : Int32 => n.toBitVec.toFin
    intro a b hab
    exact Int32.toBitVec_inj.mp (BitVec.toFin_inj.mp hab)
  obtain ⟨b, hb⟩ := (Set.finite_range rank).bddAbove
  exact ⟨b, fun n => hb ⟨n, rfl⟩⟩

theorem Legal.under_root (h : Legal td T rank root leaves t)
    (hn : (T.node n).isSome ∨ n ∈ leaves) : T.Under root.pgNo n := by
  obtain ⟨b, hb⟩ := exists_rank_le rank
  -- one level up at a time
  induction hd : b - rank n generalizing n with
  | zero =>
    rcases h.top n hn with rfl | ⟨m, hchild⟩
    · exact .refl
    · have := h.balanced.rank_child m n hchild
      have := hb m
      omega
  | succ d ih =>
    rcases h.top n hn with rfl | ⟨m, hchild⟩
    · exact .refl
    · have := h.balanced.rank_child m n hchild
      have habove : (T.node m).isSome := by
        obtain ⟨first, es, hnode, -⟩ := hchild
        rw [hnode]
        rfl
      exact (ih (.inl habove) (by omega)).tail hchild

/-- Two trees under one root with the same internal pages have the same nodes. -/
theorem Holed.same_nodes (h : Holed td T rank root leaves t)
    (h' : Holed td T' rank' root leaves' t')
    (hsame : ∀ m q, t.pages m = some (.internal q) → t'.pages m = some (.internal q))
    (hn : (T.node n).isSome ∨ n ∈ leaves) : (T'.node n).isSome ∨ n ∈ leaves' := by
  induction h.compact.under_root hn with
  | refl => exact h'.compact.root_mem
  | @tail m c _ hchild ih =>
    obtain ⟨first, es, hnode, hmem⟩ := hchild
    obtain ⟨q₁, entries, rfl, hq₁, hint⟩ := h.compact.internal m first es hnode
    obtain ⟨q, hq, rfl⟩ := compact_internal.mp hq₁
    have hq' := hsame m q hq
    have hsome : (T'.node m).isSome := by
      refine (ih (.inl (by rw [hnode]; rfl))).resolve_right fun hleaf => ?_
      obtain ⟨p, hp⟩ := h'.leaf hleaf
      rw [hq'] at hp
      cases hp
    obtain ⟨⟨first', es'⟩, hnode'⟩ := Option.isSome_iff_exists.mp hsome
    obtain ⟨q₂, entries', rfl, hq₂, hint'⟩ := h'.compact.internal m first' es' hnode'
    obtain rfl : q.compact = q₂ := by
      rw [compact_internal.mpr ⟨q, hq', rfl⟩] at hq₂
      cases hq₂
      rfl
    rw [intEntries_snd] at hmem
    have hmem' : c ∈ BTreeInternalPage.childList first' entries' :=
      hint.filled.childList_eq hint'.filled ▸ hmem
    exact h'.compact.child m c ⟨first', _, hnode', by rwa [intEntries_snd]⟩

end Reach

section Delete

variable {p : BTreeLeafPage} {u : Tuple} {i : ℕ} {row : Row}

theorem LogicalTree.Rewrites.rootPtr {r : BTreeRootPtrPage} (h : t.Rewrites t')
    (hr : t.pages n = some (.rootPtr r)) : t'.pages n = some (.rootPtr r) := by
  induction h with
  | refl => exact hr
  | @leaf t' m p q _ hp _ ih =>
    have hm : n ≠ m := by
      rintro rfl
      rw [ih] at hp
      cases hp
    rw [setPage_ne hm, ih]
  | @key t' m q _ _ _ hq ih =>
    have hm : n ≠ m := by
      rintro rfl
      rw [ih] at hq
      cases hq
    rw [setPage_ne hm, ih]

/-- Tuples and keys may change in a tree that follows the rules. -/
theorem Rules.rewritten (h : Rules td T rank root leaves t) (hr : t.Rewrites t')
    (hholed : Holed td T' rank root leaves t')
    (hnodes : ∀ m, (T'.node m).isSome ↔ (T.node m).isSome) (hhalf : HalfFull t' root leaves) :
    Rules td T' rank root leaves t' where
  holed := hholed
  named := by
    obtain ⟨r, hr₀, hroot⟩ := h.named
    exact ⟨r, hr.rootPtr hr₀, hroot⟩
  half := hhalf
  internal_half m q' hsome hne hq' := by
    obtain ⟨q, hq, hheader, hslots⟩ := hr.internal hq'
    have hle := h.internal_half m q ((hnodes m).mp hsome) hne hq
    unfold BTreeInternalPage.getMaxEntries BTreeInternalPage.getNumEntries
      BTreeInternalPage.getNumEmptySlots BTreeInternalPage.isSlotUsed at hle ⊢
    rwa [hheader, hslots]

/-- A deletion returns, one row is gone, and the tree follows the rules again. -/
def Removes (td : TupleDesc) (leaves : List Int32) (u : Tuple) (row : Row) (t : LogicalTree) :
    Prop :=
  ∃ v t', BTreeFile.deleteTuple u t = .ok v t' ∧ ∃ T' rank' root' leaves',
    Rules td T' rank' root' leaves' t' ∧ (t.leafRows leaves).Perm (row :: t'.leafRows leaves')

/-- A deletion from a tree that follows the rules, with an object that names the slot of a row. -/
theorem Rules.removes_iff (h : Rules td T rank root leaves t) (hn : n ∈ leaves)
    (hp : t.pages n = some (.leaf p)) (hrid : u.rid = some ⟨.btree p.pid, i⟩)
    (hrow : p.row? i = some row) : Removes td leaves u row t ↔ CanLose t n p := by
  rcases h.holed.deleteTuple_cases h.half hn hp hrid hrow with
    ⟨hcan, T', t', hrun, hholed, hnodes, hhalf, hrewrites, hperm⟩ | ⟨hcannot, hfails⟩
  · exact iff_of_true ⟨_, t', hrun, T', rank, root, leaves,
      h.rewritten hrewrites hholed hnodes hhalf, hperm⟩ hcan
  · refine iff_of_false ?_ hcannot
    rintro ⟨v, t', hrun, T', rank', root', leaves', hrules, -⟩
    rw [hrun] at hfails
    obtain ⟨hne, -, q, rfl, hfew⟩ := hfails
    -- the leaf is under the same root as before, and below half
    have hroot : root' = root := by
      obtain ⟨r, hr, hname⟩ := h.named
      obtain ⟨r', hr', hname'⟩ := hrules.named
      have hzero : (0 : Int32) ≠ n := by
        rintro rfl
        rw [hr] at hp
        cases hp
      rw [setPage_ne hzero, hr] at hr'
      cases hr'
      exact Option.some.inj (hname'.symm.trans hname)
    subst hroot
    have hleaf : n ∈ leaves' := by
      refine (h.holed.same_nodes hrules.holed (fun m q' hq' => ?_) (.inr hn)).resolve_left
        fun hsome => ?_
      · have hmn : m ≠ n := by
          rintro rfl
          rw [hp] at hq'
          cases hq'
        rw [setPage_ne hmn, hq']
      · obtain ⟨⟨first, es⟩, hnode⟩ := Option.isSome_iff_exists.mp hsome
        obtain ⟨q₁, -, -, hq₁, -⟩ := hrules.holed.compact.internal n first es hnode
        obtain ⟨q₂, hq₂, -⟩ := compact_internal.mp hq₁
        rw [setPage_self] at hq₂
        cases hq₂
    have hhalf := hrules.half n hleaf hne q setPage_self
    omega

end Delete

section Example

/-- A root over the leaves 2 and 3, with room for two entries. -/
def pairRoot (header : UInt8) (one two : Option Field × Int32) : BTreeInternalPage where
  pid := ⟨7, 1, .internal⟩
  td := .ofInts 1
  keyField := 0
  parent := 0
  childCategory := .leaf
  header := [header]
  keys := [none, one.1, two.1]
  children := [2, one.2, two.2]
  numSlots := 3
  header_bits := show 3 ≤ 8 * 1 by decide
  keys_length := rfl
  children_length := rfl

/-- The left leaf has the key 5 twice; the right one has 5, 5 and 7 in the slots of a bitmap. -/
def pairTree (root : BTreeInternalPage) (right : UInt8) : LogicalTree :=
  { unevenLeaves with
    pages := fun n =>
      if n = 0 then some (.rootPtr ⟨⟨7, 0, .rootPtr⟩, 1, 0, .internal⟩)
      else if n = 1 then some (.internal root)
      else if n = 2 then some (.leaf (intsLeaf 2 3 (fun _ => 5) 0 3))
      else if n = 3 then some (.leaf (intsLeaf 3 right ![5, 0, 5, 7] 2 0)) else none }

variable {header right : UInt8} {one two : Option Field × Int32}

theorem pairTree_reframed : Reframed ((intsLeaves 3).setPage 3
    (.leaf (intsLeaf 3 right ![5, 0, 5, 7] 2 0)))
    (pairTree (pairRoot header one two) right).compact := by
  refine Reframed.of_pages rfl rfl rfl (fun id hin => hin) fun n page hpage => ?_
  by_cases h₃ : n = 3
  · subst h₃
    exact ⟨page, hpage, rfl, rfl, rfl, fun p hp => hp⟩
  rw [setPage_ne h₃] at hpage
  by_cases h₂ : n = 2
  · subst h₂
    exact ⟨page, hpage, rfl, rfl, rfl, fun p hp => hp⟩
  by_cases h₁ : n = 1
  · subst h₁
    cases hpage
    exact ⟨_, rfl, rfl, rfl, rfl, fun p hp => by cases hp⟩
  · simp [intsLeaves, unevenLeaves, h₁, h₂, h₃] at hpage

theorem pairTree_holed (hslots : (pairRoot header one two).slots = twoChildren.slots)
    (hzero : (pairRoot header one two).isSlotUsed 0 = true)
    (hsub : (intsLeaf 3 right ![5, 0, 5, 7] 2 0).rows.Sublist
      (intsLeaf 3 13 ![5, 0, 5, 7] 2 0).rows) :
    Holed (.ofInts 1) twoLeavesTree twoLeavesRank ⟨7, 1, .internal⟩ [2, 3]
      (pairTree (pairRoot header one two) right) := by
  have hlegal : Legal (.ofInts 1) twoLeavesTree twoLeavesRank ⟨7, 1, .internal⟩ [2, 3]
      ((intsLeaves 3).setPage 3 (.leaf (intsLeaf 3 right ![5, 0, 5, 7] 2 0))) := by
    have hleaf := @intsLeaves_right 3
    exact intsLeaves_legal.setLeaf (by decide) rfl ⟨rfl, rfl, rfl, rfl, rfl, rfl, rfl⟩
      (hleaf.ordered.sublist hsub) fun row hrow => hleaf.range row (hsub.subset hrow)
  constructor
  case compact =>
    apply hlegal.reframed pairTree_reframed
    · intro n q first entries hq hint
      obtain ⟨rfl, -, -⟩ := twoLeaves_node hint.node
      cases hq
      obtain ⟨key, hkey⟩ := hint.filled.fromFront.filled_iff.mp hint.filled
      refine ⟨_, rfl, hint.reframed pairTree_reframed rfl rfl rfl (fun _ => rfl) ?_⟩
      exact (BTreeInternalPage.compact_fromFront _).filled_iff.mpr
        ⟨key, (BTreeInternalPage.compact_slots _).trans (hslots.trans hkey)⟩
    · intro n hn p hp
      obtain rfl | rfl : n = 2 ∨ n = 3 := by simpa using hn
      · exact hp
      · exact hp
  case zeroth =>
    intro n q hsome hq
    obtain ⟨⟨first, es⟩, hnode⟩ := Option.isSome_iff_exists.mp hsome
    obtain ⟨rfl, -, -⟩ := twoLeaves_node hnode
    cases hq
    exact hzero

theorem pairTree_rules (hslots : (pairRoot header one two).slots = twoChildren.slots)
    (hzero : (pairRoot header one two).isSlotUsed 0 = true)
    (hsub : (intsLeaf 3 right ![5, 0, 5, 7] 2 0).rows.Sublist
      (intsLeaf 3 13 ![5, 0, 5, 7] 2 0).rows)
    (hhalf : 2 ≤ (intsLeaf 3 right ![5, 0, 5, 7] 2 0).rows.length) :
    Rules (.ofInts 1) twoLeavesTree twoLeavesRank ⟨7, 1, .internal⟩ [2, 3]
      (pairTree (pairRoot header one two) right) where
  holed := pairTree_holed hslots hzero hsub
  named := ⟨_, rfl, rfl⟩
  half := by
    intro n hn _ p hp
    obtain rfl | rfl : n = 2 ∨ n = 3 := by simpa using hn
    · cases hp
      decide
    · cases hp
      exact show 4 / 2 ≤ _ from hhalf
  internal_half := by
    intro n q hsome hne _
    obtain ⟨⟨first, es⟩, hnode⟩ := Option.isSome_iff_exists.mp hsome
    exact absurd (twoLeaves_node hnode).1 hne

/-- The tuple with one key in slot 0 of a leaf. -/
def intAt (n k : Int32) : Tuple := ⟨.ofInts 1, [.int k], some ⟨.btree ⟨7, n, .leaf⟩, 0⟩, typed_int k⟩

/-- With the entry in slot 2 of the root, the right leaf gives a tuple back, as it stays half full;
the left one does not, as its sibling is not found. -/
theorem holedPair_removes :
    Removes (.ofInts 1) [2, 3] (intAt 3 5) [.int 5]
      (pairTree (pairRoot 5 (none, 0) (some (.int 5), 3)) 13) ∧
    ¬ Removes (.ofInts 1) [2, 3] (intAt 2 5) [.int 5]
      (pairTree (pairRoot 5 (none, 0) (some (.int 5), 3)) 13) := by
  have hrules := @pairTree_rules 5 13 (none, 0) (some (.int 5), 3) (by decide) (by decide)
    (by decide) (by decide)
  constructor
  · exact (Rules.removes_iff hrules (n := 3) (p := intsLeaf 3 13 ![5, 0, 5, 7] 2 0) (i := 0)
      (by decide) rfl rfl rfl).mpr (.full (by decide))
  · rw [Rules.removes_iff hrules (n := 2) (p := intsLeaf 2 3 (fun _ => 5) 0 3) (i := 0)
      (by decide) rfl rfl rfl]
    rintro (hroot | hfull | ⟨q, -, hq, hone, -⟩)
    · exact absurd hroot (by decide)
    · exact absurd hfull (by decide)
    · cases hq
      exact absurd hone (by decide)

/-- Two leaves that are half full: the right one can not lose a tuple. -/
theorem frontPair_keeps : ¬ ∀ (td : TupleDesc) (T : KeyTree Int32 Int) (rank : Int32 → ℕ)
    (root : BTreePageId) (leaves : List Int32) (t : LogicalTree) (n : Int32) (p : BTreeLeafPage)
    (u : Tuple) (i : ℕ) (row : Row), Rules td T rank root leaves t → n ∈ leaves →
    t.pages n = some (.leaf p) → u.rid = some ⟨.btree p.pid, i⟩ → p.row? i = some row →
    Removes td leaves u row t := by
  intro hclaim
  have hrules := @pairTree_rules 3 5 (some (.int 5), 3) (none, 0) (by decide) (by decide)
    (by decide) (by decide)
  obtain ⟨v, t', hrun, -⟩ := hclaim _ _ _ _ _ _ 3 (intsLeaf 3 5 ![5, 0, 5, 7] 2 0) (intAt 3 5) 0 _
    hrules (by decide) rfl rfl rfl
  rcases hrules.holed.deleteTuple_cases hrules.half (n := 3) (u := intAt 3 5) (i := 0)
    (p := intsLeaf 3 5 ![5, 0, 5, 7] 2 0) (by decide) rfl rfl rfl with ⟨hcan, -⟩ | ⟨-, hfails⟩
  · rcases hcan with hroot | hfull | ⟨q, -, hq, -, hfirst, -⟩
    · exact absurd hroot (by decide)
    · exact absurd hfull (by decide)
    · cases hq
      exact absurd hfirst (by decide)
  · rw [hrun] at hfails
    obtain ⟨q, hq, hnone⟩ := hfails.hole
    cases hq
    exact absurd hnone (by decide)

end Example

end PagedDb
