import PagedDb.BTree.PagePointers
import PagedDb.BTree.SplitLegal
import PagedDb.BTree.TreeSearch

/-!
# Runs of insertions

An insertion whose leaf has room, or whose full leaf has a parent with room or
none, keeps the tree legal and its leaves half full, and adds one row. A full
parent is not split by the code, so the root stays the only internal page.
-/

namespace PagedDb

open Exec LogicalTree BTreeFile

section Rows

variable {t t' : LogicalTree} {n : Int32} {ns : List Int32} {p q : BTreeLeafPage}

theorem leafRows_cons (hp : t.pages n = some (.leaf p)) :
    t.leafRows (n :: ns) = p.rows ++ t.leafRows ns := by
  rw [leafRows, List.flatMap_cons, hp]
  rfl

theorem leafRows_append (t : LogicalTree) (a b : List Int32) :
    t.leafRows (a ++ b) = t.leafRows a ++ t.leafRows b := List.flatMap_append

theorem leafRows_congr (hleaf : ∀ n ∈ ns, ∃ p q, t.pages n = some (.leaf p) ∧
    t'.pages n = some (.leaf q) ∧ q.rows = p.rows) : t'.leafRows ns = t.leafRows ns := by
  induction ns with
  | nil => rfl
  | cons n ns ih =>
    obtain ⟨p, q, hp, hq, hrows⟩ := hleaf n List.mem_cons_self
    rw [leafRows_cons hp, leafRows_cons hq, hrows,
      ih fun m hm => hleaf m (List.mem_cons_of_mem n hm)]

end Rows

/-- A legal tree as the code can grow it: no page but the root is an internal page, and every leaf
but the root is half full. -/
structure Grown (td : TupleDesc) (T : KeyTree Int32 Int) (rank : Int32 → ℕ) (root : BTreePageId)
    (leaves : List Int32) (t : LogicalTree) : Prop where
  legal : Legal td T rank root leaves t
  placed : t.Placed
  rooted : t.Rooted root
  fresh : t.FreshPages td
  flat : ∀ n, (T.node n).isSome → n = root.pgNo
  half : ∀ n ∈ leaves, n ≠ root.pgNo → ∀ p, t.pages n = some (.leaf p) →
    p.numSlots / 2 ≤ p.rows.length

/-- The search for the key of a tuple ends at the leaf `L`. -/
def Reaches (t : LogicalTree) (tuple : Tuple) (L : Int32) : Prop :=
  ∃ r root key, t.pages 0 = some (.rootPtr r) ∧ r.getRootId = some root ∧
    tuple.getField t.keyField = .ok key ∧
    findLeafPage .readOnly (some key) (t.getNumPages + 1) root t = .ok L t

/-- The leaf for a tuple has an empty slot, or it is the root, or its parent has an empty slot; and
the file can take the pages of a split. -/
def RoomFor (t : LogicalTree) (tuple : Tuple) : Prop :=
  ∀ L p, Reaches t tuple L → t.pages L = some (.leaf p) → p.getNumEmptySlots = 0 →
    (p.parent = 0 ∧ t.Roomy 2) ∨
      (t.Roomy 1 ∧ ∃ q, t.pages p.parent = some (.internal q) ∧ q.getNumEmptySlots ≠ 0)

/-- What an insertion has done: the tree in `t₁` is the old one or what a split has made of it, and in a
slot of its leaf `C` is the row. -/
structure Stores (td : TupleDesc) (leaves : List Int32) (tuple u : Tuple) (t t' : LogicalTree)
    (T' : KeyTree Int32 Int) (rank' : Int32 → ℕ) (root' : BTreePageId) (leaves' : List Int32)
    (t₁ : LogicalTree) (C : Int32) (l q : BTreeLeafPage) : Prop where
  divided : Grown td T' rank' root' leaves' t₁
  kept : leaves ⊆ leaves'
  divided_rows : (t₁.leafRows leaves').Perm (t.leafRows leaves)
  mem : C ∈ leaves'
  page : t₁.pages C = some (.leaf l)
  insert : l.insertTuple tuple = .ok (q, u)
  result : t' = t₁.setPage C (.leaf q)
  grown : Grown td T' rank' root' leaves' t'
  rows : (t'.leafRows leaves').Perm (tuple.fields :: t₁.leafRows leaves')
  grownBy : ∃ j k, leaves'.length = leaves.length + j ∧ j ≤ 1 ∧ k ≤ 2 * j ∧ GrownBy k t t₁

namespace Stores

variable {td : TupleDesc} {leaves leaves' : List Int32} {tuple u : Tuple} {t t' t₁ : LogicalTree}
  {T' : KeyTree Int32 Int} {rank' : Int32 → ℕ} {root' : BTreePageId} {C : Int32}
  {l q : BTreeLeafPage}

theorem perm (h : Stores td leaves tuple u t t' T' rank' root' leaves' t₁ C l q) :
    (t'.leafRows leaves').Perm (tuple.fields :: t.leafRows leaves) :=
  h.rows.trans (h.divided_rows.cons _)

theorem pageSize (h : Stores td leaves tuple u t t' T' rank' root' leaves' t₁ C l q) :
    t'.pageSize = t.pageSize := by
  obtain ⟨j, k, -, -, -, hby⟩ := h.grownBy
  rw [h.result]
  exact hby.pageSize

theorem tableid (h : Stores td leaves tuple u t t' T' rank' root' leaves' t₁ C l q) :
    t'.tableid = t.tableid := by
  obtain ⟨j, k, -, -, -, hby⟩ := h.grownBy
  rw [h.result]
  exact hby.tableid

end Stores

/-- The part of `insertTuple` behind the search. -/
def insertAt (L : Int32) (key : Field) (tuple : Tuple) : EStateM Fault LogicalTree Tuple := do
  let s ← get
  let leafPage ← leafWithRoom (TreeStore.getNumPages s + 1) L key
  let l ← leafAt leafPage
  let (l, t) ← lift (l.insertTuple tuple)
  TreeStore.store leafPage (.leaf l)
  pure t

section Search

variable {t t' t₁ : LogicalTree} {root : BTreePageId} {tuple u : Tuple} {L C : Int32} {p l : BTreeLeafPage}
  {key : Field}

theorem getRoot_run (h : t.Rooted root) : getRoot t = .ok root t := by
  obtain ⟨r, hr, -, hroot⟩ := h.page
  have hsize : t.size ≠ 0 := by
    have hle := h.has.1.1
    unfold BTreeRootPtrPage.size at hle
    omega
  rw [getRoot, bind_ok (getRootPtrPage_run h.has hsize), bind_ok (rootPtrAt_run hr), hroot]
  rfl

theorem Reaches.unique (h : Reaches t tuple L) {L' : Int32} (h' : Reaches t tuple L') :
    L' = L := by
  obtain ⟨r, root, key, hr, hroot, hkey, hfind⟩ := h
  obtain ⟨r', root', key', hr', hroot', hkey', hfind'⟩ := h'
  rw [hr] at hr'
  cases hr'
  rw [hroot] at hroot'
  cases hroot'
  rw [hkey] at hkey'
  cases hkey'
  rw [hfind] at hfind'
  exact (EStateM.Result.ok.inj hfind').1.symm

theorem insertTuple_reaches (h : t.Rooted root) {key : Field}
    (hkey : tuple.getField t.keyField = .ok key)
    (hfind : findLeafPage .readOnly (some key) (t.getNumPages + 1) root t = .ok L t)
    (hp : t.pages L = some (.leaf p)) (hhas : t.Has p.pid) (hpid : p.pid.pgNo = L) :
    BTreeFile.insertTuple tuple t = insertAt L key tuple t := by
  have hget : TreeStore.getPage p.pid .readWrite t = .ok L t := hpid ▸ hhas.getPage .readWrite
  rw [BTreeFile.insertTuple, bind_ok (getRoot_run h), bind_ok (get_run t)]
  have hkey' : lift (tuple.getField (TreeStore.keyField t)) t = .ok key t := lift_run hkey t
  have hfind' : findLeafPage .readOnly (some key) (TreeStore.getNumPages t + 1) root t = .ok L t :=
    hfind
  rw [bind_ok hkey', bind_ok hfind', bind_ok (leafAt_run hp), bind_ok hget]
  rfl

theorem of_insertAt
    (hwith : leafWithRoom (TreeStore.getNumPages t + 1) L key t = .ok C t₁)
    (hl : t₁.pages C = some (.leaf l)) (hrun : insertAt L key tuple t = .ok u t') :
    ∃ q, l.insertTuple tuple = .ok (q, u) ∧ t' = t₁.setPage C (.leaf q) := by
  rw [insertAt, bind_ok (get_run t), bind_ok hwith, bind_ok (leafAt_run hl)] at hrun
  obtain ⟨⟨q, u'⟩, s, hlift, hrest⟩ := of_bind_ok hrun
  obtain ⟨hinsert, rfl⟩ := of_lift_ok hlift
  obtain ⟨-, -, hframe, -⟩ := BTreeLeafPage.of_insertTuple hinsert
  have hid : (BTreeFilePage.leaf l).getId = (BTreeFilePage.leaf q).getId := hframe.pid.symm
  have hstore : (TreeStore.store C (.leaf q) >>= fun _ => pure u' :
      EStateM Fault LogicalTree Tuple) s = .ok u t' := hrest
  rw [bind_ok (store_run hl hid)] at hstore
  cases hstore
  exact ⟨q, hinsert, rfl⟩

end Search

namespace Grown

variable {td : TupleDesc} {T : KeyTree Int32 Int} {rank : Int32 → ℕ} {root : BTreePageId}
  {leaves A B : List Int32} {t : LogicalTree} {tuple : Tuple} {L f : Int32} {p : BTreeLeafPage}

theorem reaches (h : Grown td T rank root leaves t) (htd : tuple.td = td) :
    ∃ f A L B p, leaves = A ++ L :: B ∧ tuple.getField t.keyField = .ok (.int f) ∧
      f.toInt = intKey t.keyField tuple.fields ∧ Reaches t tuple L ∧
      t.pages L = some (.leaf p) ∧ T.InRange L f.toInt ∧
      BTreeFile.insertTuple tuple t = insertAt L (.int f) tuple t := by
  obtain ⟨f, hf, hkey⟩ : ∃ f, tuple.getField t.keyField = .ok (.int f) ∧
      f.toInt = intKey t.keyField tuple.fields := by
    have htype : (tuple.fields.map Field.getType)[t.keyField]? = some .intType := by
      rw [tuple.typed, htd]
      exact h.legal.key
    obtain ⟨x, hx, hxt⟩ := (List.getElem?_map ..).symm.trans htype |> Option.map_eq_some_iff.mp
    obtain ⟨f, rfl⟩ := Field.exists_int hxt
    exact ⟨f, by rw [Tuple.getField, hx], by rw [intKey, hx]⟩
  obtain ⟨A, L, B, rfl, hfind, hleft⟩ := h.legal.findLeafPage_key .readOnly h.legal.rank_lt f
  have hmem : L ∈ A ++ L :: B := by simp
  obtain ⟨p, hp, -⟩ := h.legal.leaf L hmem
  obtain ⟨hpid, hnode⟩ := h.legal.leaf_id hmem hp
  obtain ⟨r, hr, -, hroot⟩ := h.rooted.page
  refine ⟨f, A, L, B, p, rfl, hf, hkey, ⟨r, root, .int f, hr, hroot, hf, hfind⟩, hp, hleft.inRange,
    insertTuple_reaches h.rooted hf hfind hp (hpid ▸ hnode.has) (by rw [hpid])⟩

/-- A tuple goes into a leaf with room. -/
theorem insertLeaf (h : Grown td T rank root (A ++ L :: B) t) (htd : tuple.td = td)
    (hkey : tuple.getField t.keyField = .ok (.int f)) (hp : t.pages L = some (.leaf p))
    (hroom : 0 < p.getNumEmptySlots) (hf : T.InRange L f.toInt) :
    ∃ q u, p.insertTuple tuple = .ok (q, u) ∧ q.pid = p.pid ∧
      Grown td T rank root (A ++ L :: B) (t.setPage L (.leaf q)) ∧
      ((t.setPage L (.leaf q)).leafRows (A ++ L :: B)).Perm
        (tuple.fields :: t.leafRows (A ++ L :: B)) := by
  have hL : L ∈ A ++ L :: B := by simp
  obtain ⟨q, slot, hinsert, hrows, hlegal⟩ := h.legal.insertTuple hL hp hroom htd hkey hf
  have hleaf := h.legal.legalLeaf hL hp
  have hleaf' := hlegal.legalLeaf hL setPage_self
  have hpid : q.pid = p.pid :=
    (hlegal.leaf_id hL setPage_self).1.trans (h.legal.leaf_id hL hp).1.symm
  have hid : (BTreeFilePage.leaf q).getId = (BTreeFilePage.leaf p).getId := hpid
  have hL₀ := Legal.ne_zero_of_has (h.legal.leaf_has hL)
  have hperm := insertRow_perm t.keyField tuple.fields p.rows
  have hgrown : GrownBy 0 t (t.setPage L (.leaf q)) := (GrownBy.refl t).setPage L _
  refine ⟨q, _, hinsert, hpid, ⟨hlegal, h.placed.setPage hp hid rfl,
    h.rooted.setPage hp hid rfl hL₀, h.fresh.grown hgrown, h.flat, ?_⟩, ?_⟩
  · intro n hn hne r hr
    by_cases hnL : n = L
    · subst hnL
      rw [setPage_self] at hr
      cases hr
      have hhalf := h.half n hn hne p hp
      rw [hleaf'.numSlots, hrows, hperm.length_eq, List.length_cons]
      rw [hleaf.numSlots] at hhalf
      exact Nat.le_succ_of_le hhalf
    · rw [setPage_ne hnL] at hr
      exact h.half n hn hne r hr
  · have hsame : ∀ ns, L ∉ ns → (∀ n ∈ ns, n ∈ A ++ L :: B) →
        (t.setPage L (.leaf q)).leafRows ns = t.leafRows ns := by
      intro ns hnot hsub
      apply leafRows_congr
      intro n hn
      obtain ⟨r, hr, -⟩ := h.legal.leaf n (hsub n hn)
      have hne : n ≠ L := fun heq => hnot (heq ▸ hn)
      exact ⟨r, r, hr, by rw [setPage_ne hne, hr], rfl⟩
    obtain ⟨-, hB, hdisjoint⟩ := List.nodup_append.mp h.legal.nodup
    have hA : L ∉ A := fun hmem => hdisjoint L hmem L List.mem_cons_self rfl
    rw [leafRows_append, leafRows_append, leafRows_cons hp, leafRows_cons setPage_self,
      hsame A hA (fun n hn => List.mem_append_left _ hn),
      hsame B (List.nodup_cons.mp hB).1 (fun n hn =>
        List.mem_append_right _ (List.mem_cons_of_mem L hn)), hrows]
    exact ((hperm.append_right _).append_left _).trans List.perm_middle

section Split

variable {t' : LogicalTree} {R P v first : Int32} {pre post : List (Int32 × Int32)}
  {p' r' : BTreeLeafPage} {q' : BTreeInternalPage} {T' : KeyTree Int32 Int} {rank' : Int32 → ℕ}
  {root' : BTreePageId}

theorem parent_ne_zero (h : Grown td T rank root leaves t) {q : BTreeInternalPage}
    (hq : t.pages p.parent = some (.internal q)) : p.parent ≠ 0 := by
  intro hzero
  obtain ⟨r, hr, -⟩ := h.rooted.page
  rw [hzero, hr] at hq
  cases hq

theorem flat_split (h : Grown td T rank root (A ++ L :: B) t) (hp : t.pages L = some (.leaf p))
    (hold : OldParent t root root' L P first pre post p)
    (hnodes : ∀ n, n ≠ P → T'.node n = T.node n) {n : Int32} (hn : (T'.node n).isSome) :
    n = root'.pgNo := by
  have hL : L ∈ A ++ L :: B := by simp
  rcases hold with ⟨rfl, rfl, q, hq, -⟩ | ⟨hzero, rfl, -⟩
  · by_cases hnP : n = p.parent
    · obtain ⟨q₀, first₀, pre₀, post₀, -, hint, -⟩ :=
        h.legal.leaf_parent hL hp (h.parent_ne_zero hq)
      rw [hnP]
      exact h.flat _ (by rw [hint.node]; rfl)
    · exact h.flat n (hnodes n hnP ▸ hn)
  · by_contra hnP
    have hinner := hnodes n hnP ▸ hn
    obtain ⟨hroot, -⟩ := h.legal.root_leaf hL hp hzero
    have heq := h.flat n hinner
    rw [hroot] at heq
    rw [show n = L from heq, h.legal.node_leaf hL] at hinner
    cases hinner

theorem kept_split (h : Grown td T rank root (A ++ L :: B) t)
    (hs : LeafSplit t t' L R P v first pre post p p' r' q') {n : Int32} (hn : n ∈ A ++ B) :
    ∃ q q', t.pages n = some (.leaf q) ∧ t'.pages n = some (.leaf q') ∧ q'.rows = q.rows ∧
      q'.numSlots = q.numSlots := by
  have hmem : n ∈ A ++ L :: B := by
    rcases List.mem_append.mp hn with hn | hn <;> simp [hn]
  have hnL : n ≠ L := by
    rintro rfl
    exact (List.nodup_middle.mp h.legal.nodup |> List.nodup_cons.mp).1 hn
  obtain ⟨q, hq, -⟩ := h.legal.leaf n hmem
  obtain ⟨left, hq'⟩ := hs.kept_leaf hq (Legal.ne_zero_of_has (h.legal.leaf_has hmem)) hnL
  exact ⟨q, _, hq, hq', rfl, rfl⟩

/-- The halves of a full leaf are half full, and so are the leaves that were. -/
theorem half_split (h : Grown td T rank root (A ++ L :: B) t) (hp : t.pages L = some (.leaf p))
    (hs : LeafSplit t t' L R P v first pre post p p' r' q') (hdivided : Divided p p' r' v)
    (hold : OldParent t root root' L P first pre post p) {n : Int32}
    (hn : n ∈ A ++ L :: R :: B) (hnroot : n ≠ root'.pgNo) {r : BTreeLeafPage}
    (hr : t'.pages n = some (.leaf r)) : r.numSlots / 2 ≤ r.rows.length := by
  by_cases hnL : n = L
  · subst hnL
    rw [hs.left] at hr
    cases hr
    have hslots : p'.numSlots = p.numSlots := hs.halves.left.numSlots
    rw [hdivided.left_length, hslots]
  by_cases hnR : n = R
  · subst hnR
    rw [hs.right] at hr
    cases hr
    have hslots : r'.numSlots = p.numSlots := hs.halves.right_numSlots
    rw [hdivided.right_length, hslots]
    omega
  have hmem : n ∈ A ++ B := by
    simpa [hnL, hnR] using hn
  obtain ⟨q, q', hq, hq', hrows, hslots⟩ := h.kept_split hs hmem
  rw [hr] at hq'
  cases hq'
  rw [hrows, hslots]
  refine h.half n ?_ ?_ q hq
  · rcases List.mem_append.mp hmem with hn | hn <;> simp [hn]
  · rcases hold with ⟨-, rfl, -⟩ | ⟨hzero, -⟩
    · exact hnroot
    · obtain ⟨hroot, -⟩ := h.legal.root_leaf (by simp) hp hzero
      rwa [hroot]

theorem rows_split (h : Grown td T rank root (A ++ L :: B) t) (hp : t.pages L = some (.leaf p))
    (hs : LeafSplit t t' L R P v first pre post p p' r' q') (hdivided : Divided p p' r' v) :
    (t'.leafRows (A ++ L :: R :: B)).Perm (t.leafRows (A ++ L :: B)) := by
  have hsame : ∀ ns, (∀ n ∈ ns, n ∈ A ++ B) → t'.leafRows ns = t.leafRows ns := by
    intro ns hsub
    apply leafRows_congr
    intro n hn
    obtain ⟨q, q', hq, hq', hrows, -⟩ := h.kept_split hs (hsub n hn)
    exact ⟨q, q', hq, hq', hrows⟩
  have hhalves : (p'.rows ++ r'.rows).Perm p.rows := by
    rw [hdivided.left]
    exact (hdivided.right.append_left _).trans (.of_eq (List.take_append_drop _ _))
  rw [leafRows_append, leafRows_append, leafRows_cons hp, leafRows_cons hs.left,
    leafRows_cons hs.right, hsame A fun n hn => List.mem_append_left _ hn,
    hsame B fun n hn => List.mem_append_right _ hn, ← List.append_assoc p'.rows]
  exact (hhalves.append_right _).append_left _

end Split

/-- A full leaf with room above it is split. One of the halves has room, unless a leaf is full
with one tuple. -/
theorem splitLeaf (h : Grown td T rank root (A ++ L :: B) t)
    (hcap : 1 ≤ BTreeLeafPage.getMaxTuples t.pageSize td)
    (hentries : p.parent = 0 → 1 ≤ BTreeInternalPage.maxEntries t.pageSize td t.keyField)
    (hp : t.pages L = some (.leaf p)) (hfull : p.getNumEmptySlots = 0)
    (hroom : (p.parent = 0 ∧ t.Roomy 2) ∨
      (t.Roomy 1 ∧ ∃ q, t.pages p.parent = some (.internal q) ∧ q.getNumEmptySlots ≠ 0))
    (hf : T.InRange L f.toInt) (fuel : ℕ) :
    ∃ t' R C l T' rank' root' A' B', splitLeafPage (fuel + 1) L (.int f) t = .ok C t' ∧
      Grown td T' rank' root' (A' ++ C :: B') t' ∧ A' ++ C :: B' = A ++ L :: R :: B ∧
      (t'.leafRows (A ++ L :: R :: B)).Perm (t.leafRows (A ++ L :: B)) ∧
      t'.pages C = some (.leaf l) ∧
      (2 ≤ BTreeLeafPage.getMaxTuples t.pageSize td → 0 < l.getNumEmptySlots) ∧
      T'.InRange C f.toInt ∧ ∃ k ≤ 2, GrownBy k t t' := by
  have hleaf := h.legal.legalLeaf (by simp) hp
  have hroom₁ : t.Roomy 1 := by
    rcases hroom with ⟨-, h₂⟩ | ⟨h₁, -⟩
    · exact h₂.of_le one_le_two
    · exact h₁
  have hparent : p.parent = 0 ∨
      ∃ q, t.pages p.parent = some (.internal q) ∧ q.getNumEmptySlots ≠ 0 :=
    hroom.imp And.left And.right
  have hroom₂ : p.parent = 0 → t.Roomy 2 := by
    intro hzero
    rcases hroom with ⟨-, h₂⟩ | ⟨-, q, hq, -⟩
    · exact h₂
    · exact absurd hzero (h.parent_ne_zero hq)
  have hslots := hleaf.numSlots
  have hcap' : 1 ≤ p.numSlots := hslots ▸ hcap
  obtain ⟨t', R, P, v, first, pre, post, p', r', q', T', rank', root', hrun, hs, hold, hlegal,
    hplaced, hrooted, hchosen, hnodes, k, hk, hgrown⟩ := h.legal.splitLeaf h.placed h.rooted h.fresh
      hroom₁ hroom₂ hp hfull hcap' hentries hparent fuel f
  have hdivided := hs.divided hleaf.ordered hfull
  have hgrown' : Grown td T' rank' root' (A ++ L :: R :: B) t' :=
    ⟨hlegal, hplaced, hrooted, h.fresh.grown hgrown, fun _ => h.flat_split hp hold hnodes,
      fun _ hn hne _ => h.half_split hp hs hdivided hold hn hne⟩
  have hperm := h.rows_split hp hs hdivided
  have hin := hchosen hf
  -- where the key belongs there is an empty slot
  by_cases hlt : f.toInt < v.toInt
  · rw [if_pos hlt] at hrun hin
    have hcount := p'.rows_length_add_empty
    have hleft : p'.numSlots = p.numSlots := hs.halves.left.numSlots
    rw [hdivided.left_length, hleft] at hcount
    exact ⟨t', R, L, p', T', rank', root', A, R :: B, hrun, hgrown', rfl, hperm, hs.left,
      fun hcap₂ => by omega, hin, k, hk, hgrown⟩
  · rw [if_neg hlt] at hrun hin
    have hcount := r'.rows_length_add_empty
    have hright : r'.numSlots = p.numSlots := hs.halves.right_numSlots
    rw [hdivided.right_length, hright] at hcount
    have hsnoc : (A ++ [L]) ++ R :: B = A ++ L :: R :: B := by simp
    exact ⟨t', R, R, r', T', rank', root', A ++ [L], B, hrun, hsnoc ▸ hgrown', hsnoc, hperm,
      hs.right, fun hcap₂ => by omega, hin, k, hk, hgrown⟩

/-- The leaf that a tuple goes into, once a full leaf is split. It has room, unless a leaf is full with
one tuple. -/
theorem leafWithRoom (h : Grown td T rank root leaves t)
    (hcap : 1 ≤ BTreeLeafPage.getMaxTuples t.pageSize td) (htd : tuple.td = td)
    (hroom : RoomFor t tuple)
    (hentries : ∀ L p, Reaches t tuple L → t.pages L = some (.leaf p) → p.getNumEmptySlots = 0 →
      p.parent = 0 → 1 ≤ BTreeInternalPage.maxEntries t.pageSize td t.keyField) :
    ∃ L f C l t₁ T' rank' root' A B, tuple.getField t.keyField = .ok (.int f) ∧
      BTreeFile.insertTuple tuple t = insertAt L (.int f) tuple t ∧
      BTreeFile.leafWithRoom (TreeStore.getNumPages t + 1) L (.int f) t = .ok C t₁ ∧
      Grown td T' rank' root' (A ++ C :: B) t₁ ∧ leaves ⊆ A ++ C :: B ∧
      (t₁.leafRows (A ++ C :: B)).Perm (t.leafRows leaves) ∧ t₁.pages C = some (.leaf l) ∧
      (2 ≤ BTreeLeafPage.getMaxTuples t.pageSize td → 0 < l.getNumEmptySlots) ∧
      T'.InRange C f.toInt ∧
      ∃ j k, (A ++ C :: B).length = leaves.length + j ∧ j ≤ 1 ∧ k ≤ 2 * j ∧ GrownBy k t t₁ := by
  obtain ⟨f, A, L, B, p, rfl, hkey, -, hreaches, hp, hin, hrun⟩ := h.reaches htd
  by_cases hfull : p.getNumEmptySlots = 0
  · obtain ⟨t₁, R, C, l, T', rank', root', A', B', hsplit, hgrown, hleaves, hperm, hl, hempty, hin',
      k, hk, hby⟩ := h.splitLeaf hcap (hentries L p hreaches hp hfull) hp hfull
        (hroom L p hreaches hp hfull) hin t.getNumPages
    have hwith : BTreeFile.leafWithRoom (TreeStore.getNumPages t + 1) L (.int f) t = .ok C t₁ := by
      rw [BTreeFile.leafWithRoom, bind_ok (leafAt_run hp), if_pos hfull]
      exact hsplit
    rw [← hleaves] at hperm
    refine ⟨L, f, C, l, t₁, T', rank', root', A', B', hkey, hrun, hwith, hgrown, ?_, hperm, hl,
      hempty, hin', 1, k, ?_, le_rfl, hk, hby⟩
    · rw [hleaves]
      intro n hn
      simp only [List.mem_append, List.mem_cons] at hn ⊢
      tauto
    · simp only [hleaves, List.length_append, List.length_cons]
      omega
  · have hwith : BTreeFile.leafWithRoom (TreeStore.getNumPages t + 1) L (.int f) t = .ok L t := by
      rw [BTreeFile.leafWithRoom, bind_ok (leafAt_run hp), if_neg hfull]
      rfl
    exact ⟨L, f, L, p, t, T, rank, root, A, B, hkey, hrun, hwith, h, List.Subset.refl _, .refl _, hp,
      fun _ => Nat.pos_of_ne_zero hfull, hin, 0, 0, rfl, zero_le_one, le_rfl, GrownBy.refl t⟩

/-- A call of `insertTuple` that finds room stores the row, unless a leaf has only one slot. -/
theorem insertTuple_stores (h : Grown td T rank root leaves t)
    (hcap : 1 ≤ BTreeLeafPage.getMaxTuples t.pageSize td) (htd : tuple.td = td)
    (hroom : RoomFor t tuple)
    (hentries : ∀ L p, Reaches t tuple L → t.pages L = some (.leaf p) → p.getNumEmptySlots = 0 →
      p.parent = 0 → 1 ≤ BTreeInternalPage.maxEntries t.pageSize td t.keyField) :
    (∃ u t' T' rank' root' leaves' t₁ C l q, BTreeFile.insertTuple tuple t = .ok u t' ∧
        Stores td leaves tuple u t t' T' rank' root' leaves' t₁ C l q) ∨
      (BTreeLeafPage.getMaxTuples t.pageSize td < 2 ∧
        ∀ u t', BTreeFile.insertTuple tuple t ≠ .ok u t') := by
  obtain ⟨L, f, C, l, t₁, T', rank', root', A, B, hkey, hrun, hwith, hgrown, hsub, hperm, hl, hempty,
    hin, j, k, hlength, hj, hk, hby⟩ := h.leafWithRoom hcap htd hroom hentries
  by_cases hslot : 0 < l.getNumEmptySlots
  · obtain ⟨q, u, hinsert, hpid, hgrown', hperm'⟩ :=
      hgrown.insertLeaf htd (by rwa [hby.keyField]) hl hslot hin
    refine .inl ⟨u, _, T', rank', root', _, t₁, C, l, q, ?_, hgrown, hsub, hperm, by simp, hl,
      hinsert, rfl, hgrown', hperm', j, k, hlength, hj, hk, hby⟩
    rw [hrun, insertAt, bind_ok (get_run t), bind_ok hwith, bind_ok (leafAt_run hl),
      bind_ok (lift_run hinsert t₁)]
    exact bind_ok (store_run hl hpid.symm)
  · refine .inr ⟨Nat.lt_of_not_le fun hcap₂ => hslot (hempty hcap₂), fun u t' hok => ?_⟩
    rw [hrun] at hok
    obtain ⟨q, hinsert, -⟩ := of_insertAt hwith hl hok
    exact hslot (BTreeLeafPage.of_insertTuple hinsert).2.1

/-- A call of `insertTuple` that finds room keeps the tree, and adds the row. -/
theorem insertTuple (h : Grown td T rank root leaves t)
    (hcap : 2 ≤ BTreeLeafPage.getMaxTuples t.pageSize td) (htd : tuple.td = td)
    (hroom : RoomFor t tuple) :
    ∃ u t' T' rank' root' leaves' t₁ C l q, BTreeFile.insertTuple tuple t = .ok u t' ∧
      Stores td leaves tuple u t t' T' rank' root' leaves' t₁ C l q :=
  (h.insertTuple_stores (one_le_two.trans hcap) htd hroom fun _ _ _ _ _ _ =>
    maxEntries_pos h.legal.key hcap).resolve_right fun hless => absurd hless.1 (by omega)

end Grown

end PagedDb
