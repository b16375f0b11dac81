import PagedDb.BTree.SiblingLookup
import PagedDb.BTree.StealLeaf
import PagedDb.BTree.TreeInsert
import PagedDb.Foundation.KeyChange

/-!
# Legal trees after tuples moved between neighbours

Two leaves of a legal tree next to each other exchange tuples, and the key of
their parent between them moves along. No page gets another place in the tree,
and every key in it stays between the keys above.
-/

namespace PagedDb

open Exec LogicalTree BTreeFile KeyTree

/-- Only tuples in leaves and keys in internal pages differ. -/
structure LogicalTree.Reframed (t t' : LogicalTree) : Prop where
  tableid : t'.tableid = t.tableid
  keyField : t'.keyField = t.keyField
  pageSize : t'.pageSize = t.pageSize
  node : ∀ id, t.HasNode id → t'.HasNode id
  page : ∀ n page, t.pages n = some page →
    ∃ page', t'.pages n = some page' ∧ page'.parent? = page.parent?
  linked : ∀ left ns, Linked t left ns → Linked t' left ns

namespace LogicalTree.Reframed

variable {t t' t'' : LogicalTree} {n : Int32}

theorem trans (h : Reframed t t') (h' : Reframed t' t'') : Reframed t t'' where
  tableid := h'.tableid.trans h.tableid
  keyField := h'.keyField.trans h.keyField
  pageSize := h'.pageSize.trans h.pageSize
  node id hid := h'.node id (h.node id hid)
  page n page hpage := by
    obtain ⟨page', hpage', hparent⟩ := h.page n page hpage
    obtain ⟨page'', hpage'', hparent'⟩ := h'.page n page' hpage'
    exact ⟨page'', hpage'', hparent'.trans hparent⟩
  linked left ns hns := h'.linked left ns (h.linked left ns hns)

theorem setLeaf {p q : BTreeLeafPage} (hp : t.pages n = some (.leaf p)) (hframe : q.SameFrame p) :
    Reframed t (t.setPage n (.leaf q)) := by
  have hid : (BTreeFilePage.leaf q).getId = (BTreeFilePage.leaf p).getId := hframe.pid
  exact ⟨rfl, rfl, rfl, fun id hnode => ⟨hnode.has.setPage hp hid rfl, hnode.node⟩,
    fun m page hm => Legal.setLeaf_page hp hframe hm,
    fun left ns hns => Legal.setLeaf_linked hns hp hframe⟩

theorem setInternal {p q : BTreeInternalPage} (hp : t.pages n = some (.internal p))
    (hframe : q.SameFrame p) : Reframed t (t.setPage n (.internal q)) := by
  have hid : (BTreeFilePage.internal q).getId = (BTreeFilePage.internal p).getId := hframe.pid
  refine ⟨rfl, rfl, rfl, fun id hnode => ⟨hnode.has.setPage hp hid rfl, hnode.node⟩, ?_, ?_⟩
  · intro m page hm
    by_cases hmn : m = n
    · subst hmn
      rw [hp] at hm
      cases hm
      exact ⟨.internal q, setPage_self, congrArg some hframe.parent⟩
    · exact ⟨page, by rw [setPage_ne hmn, hm], rfl⟩
  · intro left ns hns
    induction ns generalizing left with
    | nil => trivial
    | cons m ns ih =>
      obtain ⟨⟨r, hr, hleft, hright⟩, hrest⟩ := hns
      have hmn : m ≠ n := by
        rintro rfl
        rw [hp] at hr
        cases hr
      exact ⟨⟨r, by rw [setPage_ne hmn, hr], hleft, hright⟩, ih _ hrest⟩

end LogicalTree.Reframed

/-- A state that tuples in leaves and keys in internal pages lead to. -/
inductive LogicalTree.Rewrites (t : LogicalTree) : LogicalTree → Prop
  | refl : Rewrites t t
  | leaf {t' : LogicalTree} {n : Int32} {p q : BTreeLeafPage} (h : Rewrites t t')
      (hp : t'.pages n = some (.leaf p)) (hframe : q.SameFrame p) :
      Rewrites t (t'.setPage n (.leaf q))
  | key {t' : LogicalTree} {n : Int32} {q : BTreeInternalPage} (slot : ℕ) (key : Option Field)
      (h : Rewrites t t') (hq : t'.pages n = some (.internal q)) :
      Rewrites t (t'.setPage n (.internal (q.setKey slot key)))

namespace LogicalTree.Rewrites

variable {t t' : LogicalTree}

theorem reframed (h : Rewrites t t') : Reframed t t' := by
  induction h with
  | refl => exact ⟨rfl, rfl, rfl, fun _ h => h, fun n page hp => ⟨page, hp, rfl⟩, fun _ _ h => h⟩
  | leaf h hp hframe ih => exact ih.trans (.setLeaf hp hframe)
  | key slot key h hq ih => exact ih.trans (.setInternal hq ⟨rfl, rfl, rfl, rfl, rfl⟩)

theorem grown (h : Rewrites t t') : GrownBy 0 t t' := by
  induction h with
  | refl => exact .refl t
  | leaf h hp hframe ih => exact ih.setPage _ _
  | key slot key h hq ih => exact ih.setPage _ _

theorem trans {t'' : LogicalTree} (h : Rewrites t t') (h' : Rewrites t' t'') : Rewrites t t'' := by
  induction h' with
  | refl => exact h
  | leaf _ hp hframe ih => exact ih.leaf hp hframe
  | key slot key _ hq ih => exact ih.key slot key hq

end LogicalTree.Rewrites

section Rekeyed

variable {td : TupleDesc} {T T' : KeyTree Int32 Int} {rank : Int32 → ℕ} {root : BTreePageId}
  {leaves : List Int32} {t t' : LogicalTree} {P R first : Int32} {k k' : Int}
  {pre post : List (Int × Int32)}

theorem LegalInternal.reframed {n : Int32} {q q' : BTreeInternalPage}
    {entries : List (Int32 × Int32)} (h : LegalInternal td T t n q first entries)
    (hr : Reframed t t') (hnode : T'.node n = T.node n) (htd : q'.td = q.td)
    (hkey : q'.keyField = q.keyField) (hid : ∀ c, q'.childId c = q.childId c)
    (hfilled : q'.Filled first entries) : LegalInternal td T' t' n q' first entries where
  schema := htd.trans h.schema
  keyField := hkey.trans (h.keyField.trans hr.keyField.symm)
  node := hnode.trans h.node
  filled := hfilled
  ne_nil := h.ne_nil
  sorted := h.sorted
  children c hc := hid c ▸ hr.node _ (h.children c hc)
  parents c hc := by
    obtain ⟨page, hpage, hparent⟩ := h.parents c hc
    obtain ⟨page', hpage', hsame⟩ := hr.page c page hpage
    exact ⟨page', hpage', hsame.trans hparent⟩

/-- A tree with another key in one node is legal, if this node and the leaves are. -/
theorem Legal.rekeyed (h : Legal td T rank root leaves t) (hr : Reframed t t')
    (hkey : T.Rekeys T' rank P R first k k' pre post)
    (hother : ∀ n, n ≠ P → (T.node n).isSome → t'.pages n = t.pages n)
    (hnode : ∃ p entries, pre ++ (k', R) :: post = intEntries entries ∧
      t'.pages P = some (.internal p) ∧ LegalInternal td T' t' P p first entries)
    (hleaf : ∀ n ∈ leaves, ∃ p, t'.pages n = some (.leaf p) ∧ LegalLeaf td T' t' n p) :
    Legal td T' rank root leaves t' := by
  constructor
  case key => exact hr.keyField.symm ▸ h.key
  case root_node => exact hr.node root h.root_node
  case root_parent =>
    obtain ⟨page, hpage, hzero⟩ := h.root_parent
    obtain ⟨page', hpage', hparent⟩ := hr.page _ page hpage
    exact ⟨page', hpage', hparent.trans hzero⟩
  case root_mem => exact h.root_mem.imp_left hkey.node_isSome_iff.mpr
  case root_top => exact fun n hn => h.root_top n (hkey.child_iff.mp hn)
  case top =>
    intro n hn
    rcases h.top n (hn.imp_left hkey.node_isSome_iff.mp) with heq | ⟨m, hm⟩
    · exact .inl heq
    · exact .inr ⟨m, hkey.child_iff.mpr hm⟩
  case balanced => exact hkey.balanced_after
  case internal =>
    intro n f es hn
    by_cases hnP : n = P
    · subst hnP
      obtain ⟨rfl, rfl⟩ := Prod.mk.inj (Option.some.inj (hkey.after.symm.trans hn))
      exact hnode
    · rw [hkey.others n hnP] at hn
      obtain ⟨p, entries, hes, hp, hint⟩ := h.internal n f es hn
      refine ⟨p, entries, hes, by rw [hother n hnP (by rw [hn]; rfl), hp], ?_⟩
      exact hint.reframed hr (hkey.others n hnP) rfl rfl (fun _ => rfl) hint.filled
  case child =>
    intro n c hc
    exact (h.child n c (hkey.child_iff.mp hc)).imp_left hkey.node_isSome_iff.mpr
  case leaf => exact hleaf
  case linked => exact hr.linked 0 leaves h.linked
  case nodup => exact h.nodup
  case order => exact h.order.imp hkey.before_iff.mpr

end Rekeyed

namespace BTreeInternalPage

variable {p : BTreeInternalPage} {first c : Int32} {a b entries : List (Int32 × Int32)} {j : ℕ}

theorem Filled.slot_eq (h : p.Filled first (a ++ b)) (hnodup : (childList first (a ++ b)).Nodup)
    (hb : b.head?.map Prod.snd = some c) (hj : j < p.numSlots)
    (hused : p.isSlotUsed j = true) (hchild : p.childAt j = c) : j = 1 + a.length := by
  rw [h.used j hj, decide_eq_true_eq] at hused
  obtain ⟨e, b, rfl⟩ : ∃ e b', b = e :: b' := by
    cases b with
    | nil => cases hb
    | cons e b => exact ⟨e, b, rfl⟩
  obtain rfl : e.2 = c := Option.some.inj hb
  have hlt : j < (childList first (a ++ e :: b)).length := by
    rw [childList, List.length_cons, List.length_map]
    omega
  have hat := h.childAt (List.getElem?_eq_getElem hlt)
  rw [hchild] at hat
  have hlt' : 1 + a.length < (childList first (a ++ e :: b)).length := by
    rw [childList, List.length_cons, List.length_map, List.length_append, List.length_cons]
    omega
  refine (@List.Nodup.getElem_inj_iff _ _ hnodup _ hlt _ hlt').mp ?_
  rw [← hat]
  simp [childList, Nat.add_comm 1]

/-- Another key in a filled page. -/
theorem Filled.setKey {e : Int32 × Int32} (h : p.Filled first (a ++ e :: b)) (v : Int32) :
    (p.setKey (1 + a.length) (some (.int v))).Filled first (a ++ (v, e.2) :: b) := by
  have hslots := h.slots
  rw [List.length_append, List.length_cons] at hslots
  constructor
  case slots =>
    rw [List.length_append, List.length_cons]
    exact hslots
  case used =>
    intro i hi
    have hused := h.used i hi
    rw [List.length_append, List.length_cons] at hused ⊢
    exact hused
  case first_child => exact h.first_child
  case entry =>
    intro i x hx
    rcases Nat.lt_trichotomy i a.length with hlt | rfl | hgt
    · have hold := h.entry i x (by rwa [List.getElem?_append_left hlt] at hx ⊢)
      refine ⟨?_, hold.2⟩
      rw [← hold.1]
      simp [keyAt, BTreeInternalPage.setKey, List.getElem?_set_ne (show 1 + a.length ≠ i + 1 by omega)]
    · obtain rfl : x = (v, e.2) := by simpa using hx.symm
      have hold := h.entry a.length e (by simp)
      refine ⟨?_, hold.2⟩
      simp only [keyAt, BTreeInternalPage.setKey]
      rw [Nat.add_comm 1, List.getD_eq_getElem?_getD,
        List.getElem?_set_self (by rw [p.keys_length]; omega)]
      rfl
    · have hold := h.entry i x (by
        rw [List.getElem?_append_right hgt.le] at hx ⊢
        obtain ⟨d, hd⟩ : ∃ d, i - a.length = d + 1 := ⟨i - a.length - 1, by omega⟩
        rwa [hd] at hx ⊢)
      refine ⟨?_, hold.2⟩
      rw [← hold.1]
      simp [keyAt, BTreeInternalPage.setKey, List.getElem?_set_ne (show 1 + a.length ≠ i + 1 by omega)]

end BTreeInternalPage

section Rebalanced

variable {td : TupleDesc} {T T' : KeyTree Int32 Int} {rank : Int32 → ℕ} {root : BTreePageId}
  {leaves : List Int32} {t t' : LogicalTree} {P R first : Int32} {k : Int} {pre post : List (Int × Int32)}
  {l r l' r' : BTreeLeafPage} {q q' : BTreeInternalPage} {entry : BTreeEntry}
  {before after : List BTreeEntry}

/-- The rows of both leaves are on the two sides of the new key. -/
theorem BTreeFile.Rebalanced.sides (hb : Rebalanced t l r q entry before after l' r' q')
    (hkeyField : l.keyField = t.keyField) (hkeyField' : r.keyField = t.keyField)
    (hint : l.IntKeyed) (hint' : r.IntKeyed) : ∃ slot v, entry.rid = some ⟨.btree q.pid, slot⟩ ∧
      q' = q.setKey slot (some (.int v)) ∧
      (∃ row ∈ l.rows ++ r.rows, intKey t.keyField row = v.toInt) ∧
      (∀ row ∈ l'.rows, intKey t.keyField row ≤ v.toInt) ∧
      ∀ row ∈ r'.rows, v.toInt ≤ intKey t.keyField row := by
  obtain ⟨slot, key, row, rest, hrid, hfirst, hkey, hq, -⟩ := hb.parent
  have hmem : row ∈ r'.rows := hfirst ▸ List.mem_cons_self
  have hin : row ∈ l.rows ++ r.rows := hb.perm.mem_iff.mp (List.mem_append_right _ hmem)
  obtain ⟨v, hv⟩ : ∃ v : Int32, row[t.keyField]? = some (.int v) := by
    rcases List.mem_append.mp hin with hin | hin
    · exact hkeyField ▸ hint.intRows row hin
    · exact hkeyField' ▸ hint'.intRows row hin
  obtain rfl : key = .int v := by
    rw [hv] at hkey
    exact (Option.some.inj hkey).symm
  have hrow : intKey t.keyField row = v.toInt := by rw [intKey, hv]
  refine ⟨slot, v, hrid, hq, ⟨row, hin, hrow⟩, ?_, ?_⟩
  · intro row' hrow'
    exact hrow ▸ (hb.left_right row' hrow' row hmem).intKey
  · intro row' hrow'
    have hsorted := hb.right_sorted.keyOrdered
    rw [hfirst] at hsorted hrow'
    rcases List.mem_cons.mp hrow' with rfl | hrow'
    · exact hrow.ge
    · exact hrow ▸ List.rel_of_pairwise_cons hsorted hrow'

theorem BTreeFile.Rebalanced.rewrites {left right parent : Int32}
    (hb : Rebalanced t l r q entry before after l' r' q')
    (hn : Neighbours t left right parent l r q entry before after) :
    t.Rewrites (((t.setPage left (.leaf l')).setPage right (.leaf r')).setPage parent
      (.internal q')) := by
  obtain ⟨hparentl, hparentr⟩ := hn.parent_ne
  obtain ⟨slot, key, _, _, -, -, -, rfl, -⟩ := hb.parent
  have hr : (t.setPage left (.leaf l')).pages right = some (.leaf r) := by
    rw [setPage_ne hn.ne.symm, hn.right_page]
  have hq : ((t.setPage left (.leaf l')).setPage right (.leaf r')).pages parent =
      some (.internal q) := by
    rw [setPage_ne hparentr, setPage_ne hparentl, hn.parent_page]
  exact ((Rewrites.refl.leaf hn.left_page hb.left_frame).leaf hr hb.right_frame).key slot _ hq

theorem leafRows_setPage {n : Int32} {page : BTreeFilePage} {ns : List Int32} (hn : n ∉ ns) :
    (t.setPage n page).leafRows ns = t.leafRows ns := by
  apply List.flatMap_congr
  intro m hm
  rw [setPage_ne (ne_of_mem_of_not_mem hm hn)]

theorem leafRows_erase {n : Int32} {p : BTreeLeafPage} (hn : n ∈ leaves)
    (hp : t.pages n = some (.leaf p)) :
    (t.leafRows leaves).Perm (p.rows ++ t.leafRows (leaves.erase n)) :=
  ((List.perm_cons_erase hn).flatMap_right _).trans (.of_eq (leafRows_cons hp))

theorem BTreeFile.Rebalanced.leafRows_perm {left right parent : Int32}
    (hb : Rebalanced t l r q entry before after l' r' q')
    (hn : Neighbours t left right parent l r q entry before after) (hnodup : leaves.Nodup)
    (hleft : left ∈ leaves) (hright : right ∈ leaves) (hparent : parent ∉ leaves) :
    ((((t.setPage left (.leaf l')).setPage right (.leaf r')).setPage parent
      (.internal q')).leafRows leaves).Perm (t.leafRows leaves) := by
  have hright' : right ∈ leaves.erase left :=
    (List.mem_erase_of_ne hn.ne.symm).mpr hright
  have hl : ∀ ns ⊆ leaves.erase left, left ∉ ns := fun ns hns hmem =>
    hnodup.not_mem_erase (hns hmem)
  have hr := (hnodup.erase left).not_mem_erase (a := right)
  rw [leafRows_setPage hparent]
  have hlp : ((t.setPage left (.leaf l')).setPage right (.leaf r')).pages left = some (.leaf l') := by
    rw [setPage_ne hn.ne, setPage_self]
  refine ((leafRows_erase hleft hlp).trans
    ((leafRows_erase hright' setPage_self).append_left _)).trans ?_
  refine .trans ?_ ((leafRows_erase hleft hn.left_page).trans
    ((leafRows_erase hright' hn.right_page).append_left _)).symm
  rw [leafRows_setPage hr, leafRows_setPage (hl _ List.erase_subset), ← List.append_assoc,
    ← List.append_assoc]
  exact hb.perm.append_right _

/-- Another key in a node, between its neighbours. -/
theorem LegalInternal.setKey {a c : List (Int32 × Int32)} {e : Int32 × Int32} {v : Int32}
    (h : LegalInternal td T t P q first (a ++ e :: c)) (hr : Reframed t t')
    (hnode : T'.node P = some (first, intEntries (a ++ (v, e.2) :: c)))
    (hlower : ∀ x ∈ intEntries a, x.1 ≤ v.toInt) (hupper : ∀ x ∈ intEntries c, v.toInt ≤ x.1) :
    LegalInternal td T' t' P (q.setKey (1 + a.length) (some (.int v))) first
      (a ++ (v, e.2) :: c) := by
  have hsnd : BTreeInternalPage.childList first (a ++ (v, e.2) :: c) =
      BTreeInternalPage.childList first (a ++ e :: c) := by
    simp [BTreeInternalPage.childList]
  constructor
  case schema => exact h.schema
  case keyField => exact h.keyField.trans hr.keyField.symm
  case node => exact hnode
  case filled => exact h.filled.setKey v
  case ne_nil => simp
  case sorted =>
    obtain ⟨hsa, hsc, hcross⟩ := List.pairwise_append.mp h.sorted
    have hlower' : ∀ x ∈ a, x.1.toInt ≤ v.toInt := fun x hx => hlower _ (mem_intEntries hx)
    have hupper' : ∀ x ∈ c, v.toInt ≤ x.1.toInt := fun x hx => hupper _ (mem_intEntries hx)
    refine List.pairwise_append.mpr ⟨hsa, .cons hupper' (List.pairwise_cons.mp hsc).2, ?_⟩
    intro x hx y hy
    rcases List.mem_cons.mp hy with rfl | hy
    · exact hlower' x hx
    · exact hcross x hx y (List.mem_cons_of_mem _ hy)
  case children =>
    rw [hsnd]
    exact fun x hx => hr.node _ (h.children x hx)
  case parents =>
    rw [hsnd]
    intro x hx
    obtain ⟨page, hpage, hparent⟩ := h.parents x hx
    obtain ⟨page', hpage', hsame⟩ := hr.page x page hpage
    exact ⟨page', hpage', hsame.trans hparent⟩

theorem LegalLeaf.refilled {n : Int32} (h : LegalLeaf td T t n l) (hr : Reframed t t')
    (hframe : l'.SameFrame l) (hsorted : KeyOrdered t.keyField l'.rows)
    (hrange : ∀ row ∈ l'.rows, T'.InRange n (intKey t.keyField row)) :
    LegalLeaf td T' t' n l' := by
  have hkey : l'.keyField = t.keyField := hframe.keyField.trans h.keyField
  constructor
  case schema => exact hframe.td.trans h.schema
  case keyField => exact hkey.trans hr.keyField.symm
  case numSlots => exact (hframe.numSlots.trans h.numSlots).trans (by rw [hr.pageSize])
  case ordered => exact hkey ▸ hsorted
  case range => exact hkey ▸ hrange

theorem Legal.inRange_either {left right : Int32} (h : Legal td T rank root leaves t)
    (hn : Neighbours t left right P l r q entry before after) (hleft : left ∈ leaves)
    (hright : right ∈ leaves) {row : Row} (hrow : row ∈ l.rows ++ r.rows) :
    T.InRange left (intKey t.keyField row) ∨ T.InRange right (intKey t.keyField row) := by
  rcases List.mem_append.mp hrow with hrow | hrow
  · exact .inl (hn.left_key ▸ (h.legalLeaf hleft hn.left_page).range row hrow)
  · exact .inr (hn.right_key ▸ (h.legalLeaf hright hn.right_page).range row hrow)

theorem BTreeFile.Neighbours.slot_eq {left : Int32} {a c : List (Int32 × Int32)}
    {e : Int32 × Int32} {slot : ℕ} (hn : Neighbours t left e.2 P l r q entry before after)
    (hfilled : q.Filled first (a ++ e :: c))
    (hnodup : (BTreeInternalPage.childList first (a ++ e :: c)).Nodup)
    (hrid : entry.rid = some ⟨.btree q.pid, slot⟩) : slot = 1 + a.length := by
  obtain ⟨j, d, hj, hlt, hused, heq, -⟩ := BTreeInternalPage.entriesBehind_split hn.entries
  have hchild := hn.right_child
  rw [heq] at hrid hchild
  cases hrid
  have hslots := hfilled.slots
  exact hfilled.slot_eq hnodup rfl (by omega) hused
    (BTreeInternalPage.childId_inj (Option.some.inj hchild))

/-- The leaves of a tree in which two of them have exchanged rows around a new key. -/
theorem Legal.rebalanced_leaf {left : Int32} {v : Int} (h : Legal td T rank root leaves t)
    (hkey : T.Rekeys T' rank P R first k v pre post) (hlast : lastChild first pre = left)
    (hleft : left ∈ leaves) (hright : R ∈ leaves)
    (hn : Neighbours t left R P l r q entry before after)
    (hb : Rebalanced t l r q entry before after l' r' q')
    (hlower : ∀ x ∈ pre, x.1 ≤ v) (hupper : ∀ x ∈ post, v ≤ x.1)
    (hlow : ∀ row ∈ l'.rows, intKey t.keyField row ≤ v)
    (hhigh : ∀ row ∈ r'.rows, v ≤ intKey t.keyField row) {n : Int32} (hm : n ∈ leaves) :
    let t' := ((t.setPage left (.leaf l')).setPage R (.leaf r')).setPage P (.internal q')
    ∃ p, t'.pages n = some (.leaf p) ∧ LegalLeaf td T' t' n p := by
  intro t'
  have hreframed : Reframed t t' := (hb.rewrites hn).reframed
  have hnP : n ≠ P := by
    rintro rfl
    have hnode := hkey.before
    rw [h.node_leaf hm] at hnode
    cases hnode
  have hin : ∀ row ∈ l.rows ++ r.rows, T.InRange (lastChild first pre) (intKey t.keyField row) ∨
      T.InRange R (intKey t.keyField row) :=
    fun row hrow => hlast ▸ h.inRange_either hn hleft hright hrow
  rw [show t'.pages n = _ from setPage_ne hnP]
  by_cases hnr : n = R
  · subst hnr
    refine ⟨r', setPage_self, ?_⟩
    refine (h.legalLeaf hright hn.right_page).refilled hreframed hb.right_frame
      hb.right_sorted.keyOrdered fun row hrow => ?_
    exact hkey.inRange_right (hin row (hb.perm.mem_iff.mp (List.mem_append_right _ hrow)))
      (hhigh row hrow)
  · rw [setPage_ne hnr]
    by_cases hnl : n = left
    · subst hnl
      refine ⟨l', setPage_self, ?_⟩
      refine (h.legalLeaf hleft hn.left_page).refilled hreframed hb.left_frame
        hb.left_sorted.keyOrdered fun row hrow => ?_
      exact hlast ▸ hkey.inRange_left
        (hin row (hb.perm.mem_iff.mp (List.mem_append_left _ hrow))) (hlow row hrow)
    · rw [setPage_ne hnl]
      obtain ⟨p, hp, hleaf⟩ := h.leaf n hm
      refine ⟨p, hp, hleaf.refilled hreframed ⟨rfl, rfl, rfl, rfl, rfl, rfl, rfl⟩
        (hleaf.keyField ▸ hleaf.ordered) ?_⟩
      intro row hrow
      refine hkey.inRange_other hlower hupper ?_ ?_ (hleaf.keyField ▸ hleaf.range row hrow)
      · rw [hlast]
        exact fun hunder => hnl (hunder.of_leaf (h.node_leaf hleft))
      · exact fun hunder => hnr (hunder.of_leaf (h.node_leaf hright))

/-- A legal tree stays legal where tuples go from a leaf to its neighbour. -/
theorem Legal.rebalanced (h : Legal td T rank root leaves t)
    (hnode : T.node P = some (first, pre ++ (k, R) :: post))
    (hleft : lastChild first pre ∈ leaves) (hright : R ∈ leaves)
    (hn : Neighbours t (lastChild first pre) R P l r q entry before after)
    (hb : Rebalanced t l r q entry before after l' r' q') :
    ∃ v : Int32, Legal td (T.setNode P first (pre ++ (v.toInt, R) :: post)) rank root leaves
      (((t.setPage (lastChild first pre) (.leaf l')).setPage R (.leaf r')).setPage P
        (.internal q')) := by
  obtain ⟨q₀, a, e, c, hq, hlegal, rfl, rfl, rfl, rfl⟩ := h.node_entries hnode
  obtain rfl : q = q₀ := by
    rw [hn.parent_page] at hq
    cases hq
    rfl
  have hint : ∀ {n p}, LegalLeaf td T t n p → p.IntKeyed := by
    intro n p hleaf
    rw [BTreeLeafPage.IntKeyed, hleaf.schema, hleaf.keyField, h.key]
  obtain ⟨slot, v, hrid, rfl, ⟨row, hrow, hkey⟩, hlow, hhigh⟩ :=
    hb.sides hn.left_key hn.right_key (hint (h.legalLeaf hleft hn.left_page))
      (hint (h.legalLeaf hright hn.right_page))
  refine ⟨v, ?_⟩
  have hrekeys := setNode_rekeys h.balanced hnode v.toInt
  obtain ⟨-, hlower, hupper⟩ := hrekeys.inRange_node (h.inRange_either hn hleft hright hrow)
  rw [hkey] at hlower hupper
  have hnodup : (BTreeInternalPage.childList first (a ++ e :: c)).Nodup := by
    have := h.balanced.nodup P first _ hlegal.node
    rwa [intEntries_snd] at this
  obtain rfl := hn.slot_eq hlegal.filled hnodup hrid
  have hreframed := (hb.rewrites hn).reframed
  apply h.rekeyed hreframed hrekeys
  · intro n hnP hsome
    have hnot : ∀ m ∈ leaves, n ≠ m := by
      rintro m hm rfl
      rw [h.node_leaf hm] at hsome
      cases hsome
    rw [setPage_ne hnP, setPage_ne (hnot _ hright), setPage_ne (hnot _ hleft)]
  · refine ⟨_, a ++ (v, e.2) :: c, by simp, setPage_self, ?_⟩
    exact hlegal.setKey hreframed (by simpa using hrekeys.after) hlower hupper
  · exact fun n hm => h.rebalanced_leaf hrekeys rfl hleft hright hn hb hlower hupper hlow hhigh hm

/-- Two leaves next to each other under one page, in a legal tree of any height: `stealFromLeafPage`
makes up a difference of two tuples or more in either direction, with the parent's entry between them.
The tree stays legal, with another key in that entry and the rows it had. -/
theorem Legal.redistributes (h : Legal td T rank root leaves t)
    (hnode : T.node P = some (first, pre ++ (k, R) :: post))
    (hleft : lastChild first pre ∈ leaves) (hright : R ∈ leaves) :
    ∃ l r q entry before after,
      Neighbours t (lastChild first pre) R P l r q entry before after ∧
      (l.rows.length + 2 ≤ r.rows.length → ∃ t', ∃ v : Int32,
        stealFromLeafPage (lastChild first pre) R P entry true t = .ok () t' ∧
        Legal td (T.setNode P first (pre ++ (v.toInt, R) :: post)) rank root leaves t' ∧
        (t'.leafRows leaves).Perm (t.leafRows leaves)) ∧
      (r.rows.length + 2 ≤ l.rows.length → ∃ t', ∃ v : Int32,
        stealFromLeafPage R (lastChild first pre) P entry false t = .ok () t' ∧
        Legal td (T.setNode P first (pre ++ (v.toInt, R) :: post)) rank root leaves t' ∧
        (t'.leafRows leaves).Perm (t.leafRows leaves)) := by
  obtain ⟨l, r, q, entry, before, after, hn⟩ := h.neighbours hnode hleft hright
  have hparent : P ∉ leaves := by
    intro hP
    rw [h.node_leaf hP] at hnode
    cases hnode
  refine ⟨l, r, q, entry, before, after, hn, fun hmore => ?_, fun hmore => ?_⟩
  · obtain ⟨l', r', q', hrun, hb, -⟩ := stealFromRight_spec hn hmore
    obtain ⟨v, hlegal⟩ := h.rebalanced hnode hleft hright hn hb
    exact ⟨_, v, hrun, hlegal, hb.leafRows_perm hn h.nodup hleft hright hparent⟩
  · obtain ⟨l', r', q', hrun, hb, -⟩ := stealFromLeft_spec hn hmore
    obtain ⟨v, hlegal⟩ := h.rebalanced hnode hleft hright hn hb
    exact ⟨_, v, hrun, hlegal, hb.leafRows_perm hn h.nodup hleft hright hparent⟩

end Rebalanced

section Example

/-- Two leaves under one root: the left one has the key 5 in the slots of a bitmap, the right one has
5, 5 and 7. -/
def intsLeaves (header : UInt8) : LogicalTree :=
  { unevenLeaves with
    pages := fun n =>
      if n = 2 then some (.leaf (intsLeaf 2 header (fun _ => 5) 0 3)) else unevenLeaves.pages n }

variable {header : UInt8}

theorem intsLeaves_hasNode : (intsLeaves header).HasNode ⟨7, 1, .internal⟩ ∧
    (intsLeaves header).HasNode ⟨7, 2, .leaf⟩ ∧ (intsLeaves header).HasNode ⟨7, 3, .leaf⟩ := by
  have hcount : (intsLeaves header).getNumPages = 3 :=
    show (96 - BTreeRootPtrPage.size) / 29 = 3 from rfl
  have hin : ∀ id : BTreePageId, Numbered 7 3 id → (intsLeaves header).InFile id := fun id hid =>
    ⟨show BTreeRootPtrPage.size ≤ 96 by decide, le_top, hcount.symm ▸ hid⟩
  exact ⟨⟨⟨hin _ (by decide), _, rfl, rfl, rfl⟩, .inr rfl⟩,
    ⟨⟨hin _ (by decide), _, rfl, rfl, rfl⟩, .inl rfl⟩,
    ⟨hin _ (by decide), _, rfl, rfl, rfl⟩, .inl rfl⟩

theorem intsLeaves_left : LegalLeaf (.ofInts 1) twoLeavesTree (intsLeaves header) 2
    (intsLeaf 2 header (fun _ => 5) 0 3) := by
  have hrows : ∀ row ∈ (intsLeaf 2 header (fun _ => 5) 0 3).rows, intKey 0 row = 5 := by
    intro row hrow
    obtain ⟨i, -, -, hi⟩ := Slots.mem_segment.mp hrow
    unfold TuplePage.row? at hi
    split at hi
    · obtain ⟨u, hu, rfl⟩ := Option.map_eq_some_iff.mp hi
      obtain ⟨k, rfl⟩ := List.mem_ofFn.mp (List.mem_of_getElem? hu)
      rfl
    · cases hi
  refine ⟨rfl, rfl, show 4 = BTreeLeafPage.getMaxTuples 29 (.ofInts 1) from rfl, ?_, ?_⟩
  · refine List.pairwise_of_forall_mem_list fun x hx y hy => ?_
    rw [show (intsLeaf 2 header (fun _ => 5) 0 3).keyField = 0 from rfl, hrows x hx, hrows y hy]
  · intro row hrow
    rw [show (intsLeaf 2 header (fun _ => 5) 0 3).keyField = 0 from rfl, hrows row hrow]
    exact twoLeaves_inRange

theorem intsLeaves_right : LegalLeaf (.ofInts 1) twoLeavesTree (intsLeaves header) 3
    (intsLeaf 3 13 ![5, 0, 5, 7] 2 0) := by
  have hrows : (intsLeaf 3 13 ![5, 0, 5, 7] 2 0).rows = [[.int 5], [.int 5], [.int 7]] := by decide
  refine ⟨rfl, rfl, show 4 = BTreeLeafPage.getMaxTuples 29 (.ofInts 1) from rfl, ?_, ?_⟩
  · rw [hrows, KeyOrdered]
    decide
  · rw [hrows]
    intro row hrow k m
    constructor
    · intro hs
      exact absurd (twoLeaves_separates hs).2.1 (by decide)
    · intro hs
      rw [(twoLeaves_separates hs).1]
      revert row
      decide

theorem intsLeaves_legal : Legal (.ofInts 1) twoLeavesTree twoLeavesRank ⟨7, 1, .internal⟩ [2, 3]
    (intsLeaves header) := by
  obtain ⟨hroot, htwo, hthree⟩ := intsLeaves_hasNode 
  constructor
  case key => rfl
  case root_node => exact hroot
  case root_parent => exact ⟨_, rfl, rfl⟩
  case root_mem => exact twoLeaves_legal.root_mem
  case root_top => exact twoLeaves_legal.root_top
  case top => exact twoLeaves_legal.top
  case balanced => exact twoLeaves_legal.balanced
  case internal =>
    intro n first es hnode
    obtain ⟨rfl, rfl, rfl⟩ := twoLeaves_node hnode
    refine ⟨twoChildren, [(5, 3)], rfl, rfl, rfl, rfl, rfl, twoLeaves_filled, by simp, by simp,
      ?_, ?_⟩
    · intro c hc
      obtain rfl | rfl : c = 2 ∨ c = 3 := by simpa [BTreeInternalPage.childList] using hc
      · exact htwo
      · exact hthree
    · intro c hc
      obtain rfl | rfl : c = 2 ∨ c = 3 := by simpa [BTreeInternalPage.childList] using hc
      · exact ⟨_, rfl, rfl⟩
      · exact ⟨_, rfl, rfl⟩
  case child => exact twoLeaves_legal.child
  case leaf =>
    intro n hn
    obtain rfl | rfl : n = 2 ∨ n = 3 := by simpa using hn
    · exact ⟨_, rfl, intsLeaves_left⟩
    · exact ⟨_, rfl, intsLeaves_right⟩
  case linked => exact ⟨⟨_, rfl, rfl, rfl⟩, ⟨_, rfl, rfl, rfl⟩, trivial⟩
  case nodup => decide
  case order => exact twoLeaves_legal.order

/-- The left leaf has the key 5 once and takes one from the right leaf. -/
theorem intsLeaves_redistributes : ∃ entry t', ∃ v : Int32,
    stealFromLeafPage 2 3 1 entry true (intsLeaves 1) = .ok () t' ∧
      Legal (.ofInts 1) (twoLeavesTree.setNode 1 2 [(v.toInt, 3)]) twoLeavesRank
        ⟨7, 1, .internal⟩ [2, 3] t' := by
  obtain ⟨l, r, q, entry, before, after, hn, hsteal, -⟩ :=
    Legal.redistributes (@intsLeaves_legal 1)
      (show twoLeavesTree.node 1 = some (2, [] ++ (5, 3) :: []) from rfl) (by decide) (by decide)
  obtain rfl : l = intsLeaf 2 1 (fun _ => 5) 0 3 := by
    have hpage := hn.left_page
    cases hpage
    rfl
  obtain rfl : r = intsLeaf 3 13 ![5, 0, 5, 7] 2 0 := by
    have hpage := hn.right_page
    cases hpage
    rfl
  obtain ⟨t', v, hrun, hlegal, -⟩ := hsteal (by decide)
  exact ⟨entry, t', v, hrun, hlegal⟩

end Example

end PagedDb
