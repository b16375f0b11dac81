import PagedDb.BTree.EntryUpdate
import PagedDb.BTree.LeafRuns
import PagedDb.BTree.LegalTree
import PagedDb.BTree.SplitLeaf
import PagedDb.BTree.TreeDelete
import PagedDb.BTree.TreeSearch
import PagedDb.BTree.TreeSim

/-!
# Moving tuples between neighbouring leaves

A leaf with too few tuples takes some from a sibling under the same parent: the
first ones of a right sibling, the last ones of a left sibling. The tuples of
both leaves stay in key order, and the parent's key between them becomes the
first key on the right.
-/

namespace PagedDb

open Exec

def Sorted (k : ℕ) (rows : List Row) : Prop := rows.Pairwise fun a b => KeyLe a[k]? b[k]?

section Rows

variable {k : ℕ} {rows : List Row} {row : Row}

/-- All rows have an integer in column `k`. -/
def IntRows (k : ℕ) (rows : List Row) : Prop := ∀ row ∈ rows, ∃ v : Int32, row[k]? = some (.int v)

theorem intKey_le_iff {a b : Row} (ha : ∃ v : Int32, a[k]? = some (.int v))
    (hb : ∃ v : Int32, b[k]? = some (.int v)) :
    KeyLe a[k]? b[k]? ↔ intKey k a ≤ intKey k b := by
  obtain ⟨x, hx⟩ := ha
  obtain ⟨y, hy⟩ := hb
  simp [keyLe_iff, intKey, hx, hy]

theorem keyLe_row {x : Int32} (h : ∃ v : Int32, row[k]? = some (.int v)) :
    (KeyLe (some (.int x)) row[k]? ↔ x.toInt ≤ intKey k row) ∧
      (KeyLe row[k]? (some (.int x)) ↔ intKey k row ≤ x.toInt) := by
  obtain ⟨v, hv⟩ := h
  simp [keyLe_iff, intKey, hv]

theorem intKey_inj {a b : Row} (ha : ∃ v : Int32, a[k]? = some (.int v))
    (hb : ∃ v : Int32, b[k]? = some (.int v)) (h : intKey k a = intKey k b) : a[k]? = b[k]? := by
  obtain ⟨x, hx⟩ := ha
  obtain ⟨y, hy⟩ := hb
  simp only [intKey, hx, hy] at h
  rw [hx, hy, Int32.toInt_inj.mp h]

theorem KeyLe.intKey {a b : Row} (h : KeyLe a[k]? b[k]?) : intKey k a ≤ intKey k b := by
  obtain ⟨x, y, hx, hy, hle⟩ := keyLe_iff.mp h
  simpa [PagedDb.intKey, hx, hy] using hle

theorem Sorted.keyOrdered (h : Sorted k rows) : KeyOrdered k rows := h.imp KeyLe.intKey

theorem KeyOrdered.sorted (h : KeyOrdered k rows) (hint : IntRows k rows) : Sorted k rows :=
  h.imp_of_mem fun ha hb hle => (intKey_le_iff (hint _ ha) (hint _ hb)).mpr hle

theorem Sorted.intRows (h : Sorted k rows) (hlen : 2 ≤ rows.length) : IntRows k rows := by
  intro row hrow
  obtain ⟨pre, post, rfl⟩ := List.append_of_mem hrow
  rw [Sorted, List.pairwise_append, List.pairwise_cons] at h
  obtain ⟨-, ⟨hpost, -⟩, hpre⟩ := h
  cases post with
  | cons b post =>
    obtain ⟨x, _, hx, -, -⟩ := keyLe_iff.mp (hpost b List.mem_cons_self)
    exact ⟨x, hx⟩
  | nil =>
    cases pre with
    | nil => simp at hlen
    | cons a pre =>
      obtain ⟨_, y, -, hy, -⟩ := keyLe_iff.mp (hpre a List.mem_cons_self row List.mem_cons_self)
      exact ⟨y, hy⟩

theorem foldr_attach_true (moved keep : List Row) :
    moved.foldr (BTreeLeafPage.attach true) keep = moved ++ keep := by
  induction moved with
  | nil => rfl
  | cons row moved ih => rw [List.foldr_cons, ih]; rfl

theorem foldr_attach_false (moved keep : List Row) :
    moved.foldr (BTreeLeafPage.attach false) keep = keep ++ moved.reverse := by
  induction moved with
  | nil => simp
  | cons row moved ih =>
    rw [List.foldr_cons, ih, List.reverse_cons, ← List.append_assoc]
    rfl

theorem exists_taken (forward : Bool) (rows : List Row) {n : ℕ} (hn : n + 1 < rows.length) :
    ∃ moved row keep, moved.length = n ∧ keep ≠ [] ∧
      rows = (moved ++ [row]).foldr (BTreeLeafPage.attach forward) keep := by
  have htake : ∀ l : List Row, l.length = n + 1 → ∃ moved row, l = moved ++ [row] ∧
      moved.length = n := by
    intro l hl
    obtain ⟨moved, row, rfl⟩ := List.eq_nil_or_concat l |>.resolve_left fun h => by simp [h] at hl
    exact ⟨moved, row, List.concat_eq_append, by simpa using hl⟩
  cases forward with
  | true =>
    obtain ⟨moved, row, hmoved, hlen⟩ := htake (rows.take (n + 1)) (by simp; omega)
    refine ⟨moved, row, rows.drop (n + 1), hlen, ?_, ?_⟩
    · exact List.ne_nil_of_length_pos (by rw [List.length_drop]; omega)
    · rw [foldr_attach_true, ← hmoved, List.take_append_drop]
  | false =>
    obtain ⟨moved, row, hmoved, hlen⟩ := htake (rows.drop (rows.length - (n + 1))).reverse
      (by simp; omega)
    refine ⟨moved, row, rows.take (rows.length - (n + 1)), hlen, ?_, ?_⟩
    · exact List.ne_nil_of_length_pos (by rw [List.length_take]; omega)
    · rw [foldr_attach_false, ← hmoved, List.reverse_reverse, List.take_append_drop]

theorem KeyOrdered.move_left {taken taken' keep : List Row}
    (h : KeyOrdered k (rows ++ (taken ++ keep))) (hperm : taken'.Perm taken) :
    KeyOrdered k (PagedDb.insertRows k taken' rows ++ keep) := by
  rw [← List.append_assoc, KeyOrdered, List.pairwise_append] at h
  obtain ⟨hleft, hkeep, hcross⟩ := h
  have hrows : KeyOrdered k rows := (List.pairwise_append.mp hleft).1
  apply List.pairwise_append.mpr ⟨hrows.insertRows taken', hkeep, ?_⟩
  intro a ha b hb
  rcases List.mem_append.mp ((insertRows_perm k taken' rows).mem_iff.mp ha) with ha | ha
  · exact hcross a (List.mem_append_right _ (hperm.mem_iff.mp ha)) b hb
  · exact hcross a (List.mem_append_left _ ha) b hb

theorem KeyOrdered.move_right {taken taken' keep : List Row}
    (h : KeyOrdered k ((keep ++ taken) ++ rows)) (hperm : taken'.Perm taken) :
    KeyOrdered k (keep ++ PagedDb.insertRows k taken' rows) := by
  rw [List.append_assoc, KeyOrdered, List.pairwise_append] at h
  obtain ⟨hkeep, hright, hcross⟩ := h
  have hrows : KeyOrdered k rows := (List.pairwise_append.mp hright).2.1
  apply List.pairwise_append.mpr ⟨hkeep, hrows.insertRows taken', ?_⟩
  intro a ha b hb
  rcases List.mem_append.mp ((insertRows_perm k taken' rows).mem_iff.mp hb) with hb | hb
  · exact hcross a ha b (List.mem_append_left _ (hperm.mem_iff.mp hb))
  · exact hcross a ha b (List.mem_append_right _ hb)

theorem KeyOrdered.first_key {rows' : List Row} (h : KeyOrdered k (row :: rows))
    (h' : KeyOrdered k rows') (hperm : rows'.Perm (row :: rows)) :
    ∃ first rest, rows' = first :: rest ∧ intKey k first = intKey k row := by
  cases rows' with
  | nil => exact absurd hperm.symm (List.not_perm_cons_nil (l := rows) (a := row))
  | cons first rest =>
    refine ⟨first, rest, rfl, le_antisymm ?_ ?_⟩
    · rcases List.mem_cons.mp (hperm.mem_iff.mpr List.mem_cons_self) with heq | hmem
      · rw [heq]
      · exact (List.pairwise_cons.mp h').1 row hmem
    · rcases List.mem_cons.mp (hperm.mem_iff.mp (List.mem_cons_self (a := first))) with heq | hmem
      · rw [heq]
      · exact (List.pairwise_cons.mp h).1 first hmem

end Rows

namespace BTreeLeafPage

variable {p : BTreeLeafPage}

theorem row_mem {row : Row} (h : row ∈ p.rows) :
    row[p.keyField]?.map Field.getType = p.td.getFieldType p.keyField := by
  obtain ⟨i, -, -, hrow⟩ := Slots.mem_segment.mp h
  rw [← List.getElem?_map, (p.row_types hrow).1]
  rfl

theorem IntKeyed.intRows (h : p.IntKeyed) : IntRows p.keyField p.rows := by
  intro row hrow
  have htype := p.row_mem hrow
  rw [h, Option.map_eq_some_iff] at htype
  obtain ⟨f, hf, hft⟩ := htype
  obtain ⟨v, rfl⟩ := Field.exists_int hft
  exact ⟨v, hf⟩

theorem intKeyed_of_rows (h : IntRows p.keyField p.rows) (hne : p.rows ≠ []) : p.IntKeyed := by
  obtain ⟨row, hrow⟩ := List.exists_mem_of_ne_nil _ hne
  obtain ⟨v, hv⟩ := h row hrow
  rw [IntKeyed, ← p.row_mem hrow, hv]
  rfl

end BTreeLeafPage

namespace BTreeFile

open LogicalTree

variable {t : LogicalTree} {P S : Int32} {p s : BTreeLeafPage}

/-- The loop moves the rows at the end where it starts, one after the other. -/
theorem stealTuples_run {forward : Bool} {moved keep : List Row} {row : Row}
    (hs : t.pages S = some (.leaf s)) (hp : t.pages P = some (.leaf p)) (hne : S ≠ P)
    (hrows : s.rows = (moved ++ [row]).foldr (BTreeLeafPage.attach forward) keep)
    (htd : p.td = s.td) (hkey : p.keyField = s.keyField) (hint : s.IntKeyed)
    (hroom : p.rows.length + moved.length < p.numSlots) :
    ∃ s' p' tuple, stealTuples P S moved.length (s.start forward) t =
        .ok (s'.start forward, tuple) ((t.setPage S (.leaf s')).setPage P (.leaf p')) ∧
      tuple.td = s.td ∧ tuple.fields = row ∧ s'.SameFrame s ∧ s'.rows = keep ∧ p'.SameFrame p ∧
      p'.rows = insertRows s.keyField (moved ++ [row]).reverse p.rows := by
  induction moved generalizing t s p with
  | nil =>
    obtain ⟨tuple, s', p', hget, htd', hfields, hmove, hframe, hkeep, hnext, hframe', hrows'⟩ :=
      moveTuple_start hs hp hne hrows htd hkey hint (by omega)
    refine ⟨s', p', tuple, ?_, htd', hfields, hframe, hkeep, hframe', hrows'⟩
    have hs' : ((t.setPage S (.leaf s')).setPage P (.leaf p')).pages S = some (.leaf s') := by
      rw [setPage_ne hne, setPage_self]
    rw [List.length_nil, stealTuples, bind_ok (leafAt_run hs), bind_ok (lift_run hget t),
      bind_ok hmove, bind_ok (leafAt_run hs'), hnext]
    rfl
  | cons m moved ih =>
    rw [List.length_cons] at hroom
    obtain ⟨first, s₁, p₁, hget, -, -, hmove, hframe, hkeep, hnext, hframe', hrows'⟩ :=
      moveTuple_start hs hp hne hrows htd hkey hint (by omega)
    have hs₁ : ((t.setPage S (.leaf s₁)).setPage P (.leaf p₁)).pages S = some (.leaf s₁) := by
      rw [setPage_ne hne, setPage_self]
    have hlen : p₁.rows.length = p.rows.length + 1 := by
      rw [hrows', (insertRow_perm _ _ _).length_eq, List.length_cons]
    obtain ⟨s', p', tuple, hrun, htd', hfields, hframe₂, hkeep₂, hframe₂', hrows₂⟩ :=
      ih hs₁ setPage_self hkeep (by rw [hframe.td, hframe'.td, htd])
        (by rw [hframe.keyField, hframe'.keyField, hkey])
        (by rwa [BTreeLeafPage.IntKeyed, hframe.td, hframe.keyField])
        (by rw [hlen, hframe'.numSlots]; omega)
    refine ⟨s', p', tuple, ?_, htd'.trans hframe.td, hfields, hframe₂.trans hframe, hkeep₂,
      hframe₂'.trans hframe', ?_⟩
    · rw [List.length_cons, stealTuples, bind_ok (leafAt_run hs), bind_ok (lift_run hget t),
        bind_ok hmove, bind_ok (leafAt_run hs₁), hnext]
      simp only
      rw [hrun, setPage_comm (t := t.setPage S _) hne.symm, setPage_setPage, setPage_setPage]
    · rw [hrows₂, hrows', hframe.keyField, insertRows, insertRows, List.cons_append,
        List.reverse_cons, List.foldr_append]
      rfl

variable {Q : Int32} {q q' : BTreeInternalPage} {entry : BTreeEntry}

/-- A leaf takes tuples from its sibling; the row `sep` gives the parent's key between them. -/
theorem stealFromLeafPage_run {isRight : Bool} {moved keep : List Row} {row : Row} (sep : Row)
    {key : Field} (hs : t.pages S = some (.leaf s)) (hp : t.pages P = some (.leaf p))
    (hq : t.pages Q = some (.internal q)) (hne : S ≠ P) (hQS : Q ≠ S) (hQP : Q ≠ P)
    (hrows : s.rows = (moved ++ [row]).foldr (BTreeLeafPage.attach isRight) keep)
    (hmoved : moved.length + 1 = (s.rows.length - p.rows.length) / 2)
    (htd : p.td = s.td) (hkey : p.keyField = s.keyField) (hkeyt : s.keyField = t.keyField)
    (hint : s.IntKeyed) (hroom : p.rows.length + moved.length < p.numSlots)
    (hsep : if isRight then keep.head? = some sep else sep = row)
    (hsepKey : sep[t.keyField]? = some key)
    (hupdate : q.updateEntry { entry with key := some key } = .ok q') (hid : q'.pid = q.pid) :
    ∃ s' p', stealFromLeafPage P S Q entry isRight t = .ok ()
        (((t.setPage S (.leaf s')).setPage P (.leaf p')).setPage Q (.internal q')) ∧
      s'.SameFrame s ∧ s'.rows = keep ∧ p'.SameFrame p ∧
      p'.rows = insertRows t.keyField (moved ++ [row]).reverse p.rows := by
  obtain ⟨s', p', tuple, hloop, htuple, hfields, hframe, hkeep, hframe', hrows'⟩ :=
    stealTuples_run hs hp hne hrows htd hkey hint hroom
  rw [hkeyt] at hrows'
  refine ⟨s', p', ?_, hframe, hkeep, hframe', hrows'⟩
  have hitems : ((s.getNumTuples : Int) - p.getNumTuples).tdiv 2 = (moved.length + 1 : ℕ) := by
    rw [BTreeLeafPage.getNumTuples_eq, BTreeLeafPage.getNumTuples_eq, hmoved,
      Int.tdiv_eq_ediv_of_nonneg (by omega)]
    omega
  set t₁ := (t.setPage S (.leaf s')).setPage P (.leaf p') with ht₁
  have hs₁ : t₁.pages S = some (.leaf s') := by rw [ht₁, setPage_ne hne, setPage_self]
  have hq₁ : t₁.pages Q = some (.internal q) := by rw [ht₁, setPage_ne hQP, setPage_ne hQS, hq]
  have hstart : (if isRight then s.begin else s.rbegin) = s.start isRight := rfl
  have hmodify := modifyInternal_run
    (f := fun q => q.updateEntry { entry with key := some key }) hq₁ hupdate hid
  have hkeyRun : ∀ u : Tuple, u.fields = sep → u.getField (TreeStore.keyField t₁) = .ok key := by
    intro u hu
    rw [Tuple.getField, hu, show TreeStore.keyField t₁ = t.keyField from rfl, hsepKey]
  rw [stealFromLeafPage, bind_ok (leafAt_run hs), bind_ok (leafAt_run hp)]
  simp only [hitems]
  rw [if_neg (by omega), Int.toNat_natCast, Nat.add_sub_cancel, hstart, bind_ok hloop]
  simp only
  rw [bind_ok (leafAt_run hs₁)]
  -- the tuple that gives the key
  cases isRight with
  | false =>
    obtain rfl : sep = row := hsep
    have hpure : (pure tuple : EStateM Fault LogicalTree Tuple) t₁ = .ok tuple t₁ := rfl
    rw [if_neg Bool.false_ne_true, bind_ok hpure, bind_ok (get_run t₁),
      bind_ok (lift_run (hkeyRun tuple hfields) t₁)]
    exact hmodify
  | true =>
    obtain ⟨rest, hrest⟩ : ∃ rest, keep = sep :: rest := List.head?_eq_some_iff.mp hsep
    obtain ⟨u, _, hget, -, hufields, -⟩ := BTreeLeafPage.begin_spec (hkeep.trans hrest)
    have hget : (s'.start true).get s' = .ok u := hget
    rw [if_pos rfl, bind_ok (lift_run hget t₁), bind_ok (get_run t₁),
      bind_ok (lift_run (hkeyRun u hufields) t₁)]
    exact hmodify

/-- Two leaves next to each other under one parent with the entry between them, as they are in a
legal tree: the rows of both are in order, and between the keys of the parent around each. Slots
may be empty in all three pages. -/
structure Neighbours (t : LogicalTree) (left right parent : Int32) (l r : BTreeLeafPage)
    (q : BTreeInternalPage) (entry : BTreeEntry) (pre post : List BTreeEntry) : Prop where
  left_page : t.pages left = some (.leaf l)
  right_page : t.pages right = some (.leaf r)
  parent_page : t.pages parent = some (.internal q)
  ne : left ≠ right
  schema : r.td = l.td
  numSlots : r.numSlots = l.numSlots
  left_key : l.keyField = t.keyField
  right_key : r.keyField = t.keyField
  left_sorted : Sorted t.keyField l.rows
  right_sorted : Sorted t.keyField r.rows
  entries : q.entryList = pre ++ entry :: post
  left_child : entry.leftChild = some (q.childId left)
  right_child : entry.rightChild = some (q.childId right)
  keys : q.entryList.Pairwise fun a b => KeyLe a.key b.key
  left_lower : ∀ e ∈ pre, ∀ row ∈ l.rows, KeyLe e.key row[t.keyField]?
  left_upper : ∀ row ∈ l.rows, KeyLe row[t.keyField]? entry.key
  right_lower : ∀ row ∈ r.rows, KeyLe entry.key row[t.keyField]?
  right_upper : ∀ e ∈ post, ∀ row ∈ r.rows, KeyLe row[t.keyField]? e.key

/-- The two leaves and their parent after tuples went from one leaf to the other. -/
structure Rebalanced (t : LogicalTree) (l r : BTreeLeafPage) (q : BTreeInternalPage)
    (entry : BTreeEntry) (pre post : List BTreeEntry) (l' r' : BTreeLeafPage)
    (q' : BTreeInternalPage) : Prop where
  left_frame : l'.SameFrame l
  right_frame : r'.SameFrame r
  perm : (l'.rows ++ r'.rows).Perm (l.rows ++ r.rows)
  left_sorted : Sorted t.keyField l'.rows
  right_sorted : Sorted t.keyField r'.rows
  left_right : ∀ a ∈ l'.rows, ∀ b ∈ r'.rows, KeyLe a[t.keyField]? b[t.keyField]?
  left_rids : ∀ i u, l'.tuple? i = some u → u.rid = some ⟨.btree l.pid, i⟩
  right_rids : ∀ i u, r'.tuple? i = some u → u.rid = some ⟨.btree r.pid, i⟩
  parent : ∃ slot key row rest, entry.rid = some ⟨.btree q.pid, slot⟩ ∧ r'.rows = row :: rest ∧
    row[t.keyField]? = some key ∧ q' = q.setKey slot (some key) ∧
    q'.entryList = pre ++ { entry with key := some key } :: post
  keys : q'.entryList.Pairwise fun a b => KeyLe a.key b.key

/-- The rows of both leaves in order again, whichever of them are on the left. -/
theorem rebalanced_of_rows {l r l' r' : BTreeLeafPage}
    {pre post : List BTreeEntry} {row : Row} {rest : List Row} {slot : ℕ} {v : Int32}
    (hint : IntRows t.keyField (l.rows ++ r.rows)) (hleft : l'.SameFrame l)
    (hright : r'.SameFrame r) (hperm : (l'.rows ++ r'.rows).Perm (l.rows ++ r.rows))
    (hordered : KeyOrdered t.keyField (l'.rows ++ r'.rows)) (hfirst : r'.rows = row :: rest)
    (hrid : entry.rid = some ⟨.btree q.pid, slot⟩) (hv : row[t.keyField]? = some (.int v))
    (hlist : (q.setKey slot (some (.int v))).entryList =
      pre ++ { entry with key := some (.int v) } :: post)
    (hkeys : (q.setKey slot (some (.int v))).entryList.Pairwise fun a b => KeyLe a.key b.key) :
    Rebalanced t l r q entry pre post l' r' (q.setKey slot (some (.int v))) := by
  have hint' : IntRows t.keyField (l'.rows ++ r'.rows) :=
    fun row hrow => hint row (hperm.mem_iff.mp hrow)
  have hsorted := hordered.sorted hint'
  rw [Sorted, List.pairwise_append] at hsorted
  obtain ⟨hl, hr, hcross⟩ := hsorted
  constructor
  case left_frame => exact hleft
  case right_frame => exact hright
  case perm => exact hperm
  case left_sorted => exact hl
  case right_sorted => exact hr
  case left_right => exact hcross
  case left_rids => exact fun i u hu => hleft.pid ▸ (l'.of_tuple? hu).2
  case right_rids => exact fun i u hu => hright.pid ▸ (r'.of_tuple? hu).2
  case parent => exact ⟨slot, .int v, row, rest, hrid, hfirst, hv, rfl, hlist⟩
  case keys => exact hkeys

namespace Neighbours

variable {left right parent : Int32} {l r : BTreeLeafPage} {pre post : List BTreeEntry}
  (h : Neighbours t left right parent l r q entry pre post)

include h

theorem entry_keys : (∀ e ∈ pre, KeyLe e.key entry.key) ∧ ∀ e ∈ post, KeyLe entry.key e.key := by
  have hkeys := h.keys
  rw [h.entries, List.pairwise_append, List.pairwise_cons] at hkeys
  exact ⟨fun e he => hkeys.2.2 e he entry List.mem_cons_self, hkeys.2.1.1⟩

theorem bounds {row : Row} (hrow : row ∈ l.rows ++ r.rows) :
    (∀ e ∈ pre, KeyLe e.key row[t.keyField]?) ∧ ∀ e ∈ post, KeyLe row[t.keyField]? e.key := by
  obtain ⟨hpre, hpost⟩ := h.entry_keys
  rcases List.mem_append.mp hrow with hrow | hrow
  · exact ⟨fun e he => h.left_lower e he row hrow,
      fun e he => (h.left_upper row hrow).trans (hpost e he)⟩
  · exact ⟨fun e he => (hpre e he).trans (h.right_lower row hrow),
      fun e he => h.right_upper e he row hrow⟩

theorem keyOrdered : KeyOrdered t.keyField (l.rows ++ r.rows) := by
  apply List.pairwise_append.mpr ⟨h.left_sorted.keyOrdered, h.right_sorted.keyOrdered, ?_⟩
  intro a ha b hb
  exact ((h.left_upper a ha).trans (h.right_lower b hb)).intKey

theorem update {row : Row} {v : Int32} (hrow : row ∈ l.rows ++ r.rows)
    (hv : row[t.keyField]? = some (.int v)) :
    ∃ slot, entry.rid = some ⟨.btree q.pid, slot⟩ ∧
      q.updateEntry { entry with key := some (.int v) } = .ok (q.setKey slot (some (.int v))) ∧
      (q.setKey slot (some (.int v))).entryList =
        pre ++ { entry with key := some (.int v) } :: post ∧
      (q.setKey slot (some (.int v))).entryList.Pairwise fun a b => KeyLe a.key b.key := by
  obtain ⟨slot, _, -, -, -, he, -⟩ := BTreeInternalPage.entriesBehind_split h.entries
  have hrid : entry.rid = some ⟨.btree q.pid, slot⟩ := by rw [he]
  obtain ⟨hpre, hpost⟩ := h.bounds hrow
  rw [hv] at hpre hpost
  obtain ⟨hrun, hlist⟩ := BTreeInternalPage.updateEntry_spec h.entries hrid hpre hpost
  refine ⟨slot, hrid, hrun, hlist, ?_⟩
  have hkeys := h.keys
  rw [h.entries, List.pairwise_append, List.pairwise_cons] at hkeys
  obtain ⟨hleft, ⟨-, hright⟩, hcross⟩ := hkeys
  rw [hlist, List.pairwise_append, List.pairwise_cons]
  refine ⟨hleft, ⟨hpost, hright⟩, fun a ha b hb => ?_⟩
  rcases List.mem_cons.mp hb with rfl | hb
  · exact hpre a ha
  · exact hcross a ha b (List.mem_cons_of_mem _ hb)

end Neighbours

section Spec

variable {left right parent : Int32} {l r : BTreeLeafPage} {pre post : List BTreeEntry}

theorem Neighbours.parent_ne (h : Neighbours t left right parent l r q entry pre post) :
    parent ≠ left ∧ parent ≠ right := by
  have hparent := h.parent_page
  constructor
  · rintro rfl
    rw [h.left_page] at hparent
    cases hparent
  · rintro rfl
    rw [h.right_page] at hparent
    cases hparent

/-- Two leaves with two rows or more in one of them have integer keys. -/
theorem Neighbours.int (h : Neighbours t left right parent l r q entry pre post)
    (htwo : 2 ≤ l.rows.length ∨ 2 ≤ r.rows.length) :
    l.IntKeyed ∧ r.IntKeyed ∧ IntRows t.keyField (l.rows ++ r.rows) := by
  have hiff : r.IntKeyed ↔ l.IntKeyed := by
    rw [BTreeLeafPage.IntKeyed, BTreeLeafPage.IntKeyed, h.schema, h.left_key, h.right_key]
  have hint : l.IntKeyed := by
    rcases htwo with htwo | htwo
    · apply BTreeLeafPage.intKeyed_of_rows
      · exact h.left_key ▸ h.left_sorted.intRows htwo
      · exact List.ne_nil_of_length_pos (by omega)
    · apply hiff.mp
      apply BTreeLeafPage.intKeyed_of_rows
      · exact h.right_key ▸ h.right_sorted.intRows htwo
      · exact List.ne_nil_of_length_pos (by omega)
  refine ⟨hint, hiff.mpr hint, fun row hrow => ?_⟩
  rcases List.mem_append.mp hrow with hrow | hrow
  · exact h.left_key ▸ hint.intRows row hrow
  · exact h.right_key ▸ (hiff.mpr hint).intRows row hrow

/-- The left leaf takes the first tuples of the right one. -/
theorem stealFromRight_spec (h : Neighbours t left right parent l r q entry pre post)
    (hmore : l.rows.length + 2 ≤ r.rows.length) :
    ∃ l' r' q', stealFromLeafPage left right parent entry true t = .ok ()
        (((t.setPage left (.leaf l')).setPage right (.leaf r')).setPage parent (.internal q')) ∧
      Rebalanced t l r q entry pre post l' r' q' ∧
      l'.rows.length = l.rows.length + (r.rows.length - l.rows.length) / 2 := by
  obtain ⟨hintl, hintr, hint⟩ := h.int (.inr (by omega))
  obtain ⟨hparentl, hparentr⟩ := h.parent_ne
  have hcount := r.rows_length_add_empty
  have hslots := h.numSlots
  obtain ⟨moved, row, keep, hlen, hne, hrows⟩ := exists_taken true r.rows
    (n := (r.rows.length - l.rows.length) / 2 - 1) (by omega)
  have hsplit : r.rows = (moved ++ [row]) ++ keep := hrows.trans (foldr_attach_true _ _)
  obtain ⟨sep, rest, rfl⟩ := List.exists_cons_of_ne_nil hne
  have hsep : sep ∈ l.rows ++ r.rows := by
    rw [hsplit]
    simp
  obtain ⟨v, hv⟩ := hint sep hsep
  obtain ⟨slot, hrid, hupdate, hlist, hkeys⟩ := h.update hsep hv
  obtain ⟨r', l', hrun, hframe, hkeep, hframe', hrows'⟩ := stealFromLeafPage_run sep
    h.right_page h.left_page h.parent_page h.ne.symm hparentr hparentl hrows (by omega) h.schema.symm
    (h.left_key.trans h.right_key.symm) h.right_key hintr (by omega) rfl hv hupdate rfl
  have hperm : l'.rows.Perm ((moved ++ [row]) ++ l.rows) := by
    rw [hrows']
    exact (insertRows_perm _ _ _).trans ((List.reverse_perm _).append_right _)
  refine ⟨l', r', _, ?_, rebalanced_of_rows hint hframe' hframe ?_ ?_ hkeep hrid hv hlist hkeys, ?_⟩
  · rw [hrun, setPage_comm h.ne.symm]
  · rw [hkeep, hsplit, ← List.append_assoc]
    exact (hperm.trans List.perm_append_comm).append_right _
  · have hordered := h.keyOrdered
    rw [hsplit] at hordered
    rw [hkeep, hrows']
    exact hordered.move_left (List.reverse_perm _)
  · rw [hperm.length_eq, List.length_append, List.length_append, List.length_singleton]
    omega

/-- The right leaf takes the last tuples of the left one. -/
theorem stealFromLeft_spec (h : Neighbours t left right parent l r q entry pre post)
    (hmore : r.rows.length + 2 ≤ l.rows.length) :
    ∃ l' r' q', stealFromLeafPage right left parent entry false t = .ok ()
        (((t.setPage left (.leaf l')).setPage right (.leaf r')).setPage parent (.internal q')) ∧
      Rebalanced t l r q entry pre post l' r' q' ∧
      r'.rows.length = r.rows.length + (l.rows.length - r.rows.length) / 2 := by
  obtain ⟨hintl, hintr, hint⟩ := h.int (.inl (by omega))
  obtain ⟨hparentl, hparentr⟩ := h.parent_ne
  have hcount := l.rows_length_add_empty
  have hslots := h.numSlots
  obtain ⟨moved, row, keep, hlen, hne, hrows⟩ := exists_taken false l.rows
    (n := (l.rows.length - r.rows.length) / 2 - 1) (by omega)
  have hsplit : l.rows = keep ++ (moved ++ [row]).reverse := hrows.trans (foldr_attach_false _ _)
  have hreverse : (moved ++ [row]).reverse = row :: moved.reverse := by simp
  have hrow : row ∈ l.rows ++ r.rows := by
    rw [hsplit]
    simp
  obtain ⟨v, hv⟩ := hint row hrow
  obtain ⟨slot, hrid, hupdate, hlist, hkeys⟩ := h.update hrow hv
  obtain ⟨l', r', hrun, hframe, hkeep, hframe', hrows'⟩ := stealFromLeafPage_run row
    h.left_page h.right_page h.parent_page h.ne hparentl hparentr hrows (by omega) h.schema
    (h.right_key.trans h.left_key.symm) h.left_key hintl (by omega) rfl hv hupdate rfl
  have hperm : r'.rows.Perm ((moved ++ [row]).reverse ++ r.rows) := by
    rw [hrows']
    exact insertRows_perm _ _ _
  have hordered := h.keyOrdered
  rw [hsplit] at hordered
  have hordered' : KeyOrdered t.keyField (l'.rows ++ r'.rows) := by
    rw [hkeep, hrows']
    exact hordered.move_right (.refl _)
  -- the row moved last has the first key on the right
  have hmin : KeyOrdered t.keyField (row :: (moved.reverse ++ r.rows)) := by
    rw [List.append_assoc, hreverse] at hordered
    exact (List.pairwise_append.mp hordered).2.1
  obtain ⟨first, rest, hfirst, hkey⟩ := hmin.first_key (List.pairwise_append.mp hordered').2.1
    (by rw [← List.cons_append, ← hreverse]; exact hperm)
  have hperm' : (l'.rows ++ r'.rows).Perm (l.rows ++ r.rows) := by
    rw [hkeep, hsplit, List.append_assoc]
    exact hperm.append_left _
  have hfirstMem : first ∈ l.rows ++ r.rows := by
    apply hperm'.mem_iff.mp
    rw [hfirst]
    exact List.mem_append_right _ List.mem_cons_self
  have hv' : first[t.keyField]? = some (.int v) := by
    rw [intKey_inj (hint first hfirstMem) (hint row hrow) hkey, hv]
  refine ⟨l', r', _, hrun, rebalanced_of_rows hint hframe hframe' hperm' hordered' hfirst hrid hv'
    hlist hkeys, ?_⟩
  rw [hperm.length_eq, List.length_append, List.length_reverse, List.length_append,
    List.length_singleton]
  omega

/-- Tuples moved between neighbouring leaves, in both directions: half the difference of the
sizes. -/
theorem stealFromLeafPage_spec (h : Neighbours t left right parent l r q entry pre post) :
    (l.getNumTuples + 2 ≤ r.getNumTuples → ∃ l' r' q',
      stealFromLeafPage left right parent entry true t = .ok ()
        (((t.setPage left (.leaf l')).setPage right (.leaf r')).setPage parent (.internal q')) ∧
      Rebalanced t l r q entry pre post l' r' q' ∧
      l'.getNumTuples = l.getNumTuples + (r.getNumTuples - l.getNumTuples) / 2 ∧
      l'.getNumTuples ≤ r'.getNumTuples ∧ r'.getNumTuples ≤ l'.getNumTuples + 1) ∧
    (r.getNumTuples + 2 ≤ l.getNumTuples → ∃ l' r' q',
      stealFromLeafPage right left parent entry false t = .ok ()
        (((t.setPage left (.leaf l')).setPage right (.leaf r')).setPage parent (.internal q')) ∧
      Rebalanced t l r q entry pre post l' r' q' ∧
      r'.getNumTuples = r.getNumTuples + (l.getNumTuples - r.getNumTuples) / 2 ∧
      r'.getNumTuples ≤ l'.getNumTuples ∧ l'.getNumTuples ≤ r'.getNumTuples + 1) := by
  simp only [BTreeLeafPage.getNumTuples_eq]
  constructor
  · intro hmore
    obtain ⟨l', r', q', hrun, hrebalanced, hlen⟩ := stealFromRight_spec h hmore
    have htotal := hrebalanced.perm.length_eq
    rw [List.length_append, List.length_append] at htotal
    exact ⟨l', r', q', hrun, hrebalanced, hlen, by omega, by omega⟩
  · intro hmore
    obtain ⟨l', r', q', hrun, hrebalanced, hlen⟩ := stealFromLeft_spec h hmore
    have htotal := hrebalanced.perm.length_eq
    rw [List.length_append, List.length_append] at htotal
    exact ⟨l', r', q', hrun, hrebalanced, hlen, by omega, by omega⟩

end Spec

end BTreeFile

namespace TreeSim

variable {σ H : Type} [TreeStore σ H] (S : TreeSim σ H) {s : σ} {t : LogicalTree} {h h' h'' : H}
  {n n' n'' : Int32}

theorem stealTuples (hinv : S.Inv s t) (hh : S.Held h n s t) (hh' : S.Held h' n' s t) (k : ℕ)
    (it : BTreeLeafPageIterator) :
    Agrees S.toCoupling s t (fun a b _ _ => a = b)
      (BTreeFile.stealTuples h h' k it s) (BTreeFile.stealTuples n n' k it t) := by
  induction k generalizing s t it with
  | zero =>
    apply (S.leafAt hinv (S.seen_of_held hinv hh')).bind_same
    intro p
    apply Agrees.bind_lift
    intro tuple _
    apply (S.moveTuple hinv hh' hh tuple).bind
    rintro _ _ s₁ t₁ hinv₁ hev₁ -
    apply (S.leafAt hinv₁ (S.seen_of_held hinv₁ (S.held_evolves hev₁ hh'))).bind_same
    intro q
    exact Agrees.pure hinv₁ rfl
  | succ k ih =>
    apply (S.leafAt hinv (S.seen_of_held hinv hh')).bind_same
    intro p
    apply Agrees.bind_lift
    intro tuple _
    apply (S.moveTuple hinv hh' hh tuple).bind
    rintro _ _ s₁ t₁ hinv₁ hev₁ -
    have hh₁ := S.held_evolves hev₁ hh'
    apply (S.leafAt hinv₁ (S.seen_of_held hinv₁ hh₁)).bind_same
    intro q
    exact ih hinv₁ (S.held_evolves hev₁ hh) hh₁ _

/-- What holds of the map of pages holds of any store that follows it. -/
theorem stealFromLeafPage (hinv : S.Inv s t) (hh : S.Held h n s t) (hh' : S.Held h' n' s t)
    (hh'' : S.Held h'' n'' s t) (entry : BTreeEntry) (isRight : Bool) :
    Agrees S.toCoupling s t (fun _ _ _ _ => True)
      (BTreeFile.stealFromLeafPage h h' h'' entry isRight s)
      (BTreeFile.stealFromLeafPage n n' n'' entry isRight t) := by
  apply (S.leafAt hinv (S.seen_of_held hinv hh')).bind_same
  intro p
  apply (S.leafAt hinv (S.seen_of_held hinv hh)).bind_same
  intro q
  dsimp only
  split
  · exact Agrees.throw _
  · apply (S.stealTuples hinv hh hh' _ _).bind
    rintro ⟨it, tuple⟩ _ s₁ t₁ hinv₁ hev₁ rfl
    apply (S.leafAt hinv₁ (S.seen_of_held hinv₁ (S.held_evolves hev₁ hh'))).bind_same
    intro p₁
    have hend : ∀ u : Tuple, Agrees S.toCoupling s₁ t₁ (fun _ _ _ _ => True)
        ((do
          let key ← lift (u.getField (TreeStore.keyField (← get)))
          BTreeFile.modifyInternal h'' fun q => q.updateEntry { entry with key := some key }) s₁)
        ((do
          let key ← lift (u.getField (TreeStore.keyField (← get)))
          BTreeFile.modifyInternal n'' fun q => q.updateEntry { entry with key := some key }) t₁) := by
      intro u
      apply Agrees.get
      rw [S.keyField hinv₁]
      apply Agrees.bind_lift
      intro key _
      exact S.modifyInternal hinv₁ (S.held_evolves hev₁ hh'') _
    cases isRight with
    | false => exact hend tuple
    | true =>
      apply Agrees.bind_lift
      intro u _
      exact hend u

end TreeSim

section Legal

open BTreeFile KeyTree

variable {td : TupleDesc} {T : KeyTree Int32 Int} {rank : Int32 → ℕ} {root : BTreePageId}
  {leaves : List Int32} {t : LogicalTree} {P R first : Int32} {k : Int} {pre post : List (Int × Int32)}

theorem Legal.node_entries (h : Legal td T rank root leaves t)
    (hnode : T.node P = some (first, pre ++ (k, R) :: post)) :
    ∃ q a e c, t.pages P = some (.internal q) ∧ LegalInternal td T t P q first (a ++ e :: c) ∧
      pre = intEntries a ∧ k = e.1.toInt ∧ R = e.2 ∧ post = intEntries c := by
  obtain ⟨q, entries, hentries, hq, hlegal⟩ := h.internal P first _ hnode
  obtain ⟨a, b, rfl, ha, hb⟩ := List.map_eq_append_iff.mp hentries.symm
  obtain ⟨e, c, rfl, he, hc⟩ := List.map_eq_cons_iff.mp hb
  obtain ⟨hk, hR⟩ := Prod.mk.inj he
  exact ⟨q, a, e, c, hq, hlegal, ha.symm, hk.symm, hR.symm, hc.symm⟩

/-- Two leaves of a legal tree with a key between them. -/
theorem Legal.neighbours (h : Legal td T rank root leaves t)
    (hnode : T.node P = some (first, pre ++ (k, R) :: post))
    (hleft : lastChild first pre ∈ leaves) (hright : R ∈ leaves) :
    ∃ l r q entry before after,
      Neighbours t (lastChild first pre) R P l r q entry before after := by
  obtain ⟨q, a, e, c, hq, hlegal, rfl, rfl, rfl, rfl⟩ := h.node_entries hnode
  obtain ⟨l, hl, hleafl⟩ := h.leaf _ hleft
  obtain ⟨r, hr, hleafr⟩ := h.leaf _ hright
  have hlast : lastChild first (intEntries a) = lastChild first a := lastChild_intEntries first a
  rw [hlast] at hl ⊢
  -- what the keys of the parent separate
  have hmid : T.Separates e.1.toInt (lastChild first a) e.2 :=
    ⟨P, first, _, e.2, _, hnode, ⟨_, hlast ▸ lastChild_mem _ _, .refl⟩, _, List.mem_cons_self, .refl⟩
  have hbefore : ∀ x ∈ a, T.Separates x.1.toInt first (lastChild first a) := by
    intro x hx
    obtain ⟨a₁, a₂, rfl⟩ := List.append_of_mem hx
    rw [intEntries_append, intEntries_cons, List.append_assoc, List.cons_append] at hnode
    refine ⟨P, first, _, x.2, _, hnode, ⟨first, List.mem_cons_self, .refl⟩, _, ?_, .refl⟩
    have hmem := lastChild_behind first a₁ a₂ x
    rw [List.map_append, intEntries_snd, ← List.cons_append]
    exact List.mem_append_left _ hmem
  have hafter : ∀ x ∈ c, T.Separates x.1.toInt e.2 x.2 := by
    intro x hx
    obtain ⟨c₁, c₂, rfl⟩ := List.append_of_mem hx
    rw [intEntries_append, intEntries_cons, ← List.cons_append, ← List.append_assoc] at hnode
    exact ⟨P, first, _, x.2, _, hnode, ⟨e.2, by simp, .refl⟩, _, List.mem_cons_self, .refl⟩
  have hint : ∀ p : BTreeLeafPage, p.td = td → p.keyField = t.keyField →
      IntRows t.keyField p.rows := by
    intro p htd hkey
    have hkeyed : p.IntKeyed := by rw [BTreeLeafPage.IntKeyed, htd, hkey, h.key]
    exact hkey ▸ hkeyed.intRows
  have hintl := hint l hleafl.schema hleafl.keyField
  have hintr := hint r hleafr.schema hleafr.keyField
  have hlist := hlegal.filled.entryList_eq
  have hrangel := hleafl.range
  have hranger := hleafr.range
  rw [hleafl.keyField, hlast] at hrangel
  rw [hleafr.keyField] at hranger
  rw [BTreeInternalPage.filledEntries_append, BTreeInternalPage.filledEntries] at hlist
  refine ⟨l, r, q, ⟨some (.int e.1), some (q.childId (lastChild first a)), some (q.childId e.2),
    some ⟨.btree q.pid, 1 + a.length⟩⟩, q.filledEntries first 1 a,
    q.filledEntries e.2 (1 + a.length + 1) c, ?_⟩
  constructor
  case left_page => exact hl
  case right_page => exact hr
  case parent_page => exact hq
  case ne =>
    intro heq
    have hnodup := h.balanced.nodup P first _ hnode
    exact not_mem_both hnodup (hlast ▸ lastChild_mem first _) (heq ▸ List.mem_cons_self)
  case schema => rw [hleafl.schema, hleafr.schema]
  case numSlots => rw [hleafl.numSlots, hleafr.numSlots]
  case left_key => exact hleafl.keyField
  case right_key => exact hleafr.keyField
  case left_sorted =>
    have hordered : KeyOrdered t.keyField l.rows := hleafl.keyField ▸ hleafl.ordered
    exact hordered.sorted hintl
  case right_sorted =>
    have hordered : KeyOrdered t.keyField r.rows := hleafr.keyField ▸ hleafr.ordered
    exact hordered.sorted hintr
  case entries => exact hlist
  case left_child => rfl
  case right_child => rfl
  case keys =>
    rw [hlegal.filled.entryList_eq]
    exact BTreeInternalPage.filledEntries_sorted hlegal.sorted
  case left_lower =>
    intro e' he' row hrow
    obtain ⟨x, hx, hkey⟩ := BTreeInternalPage.filledEntries_key he'
    rw [hkey, (keyLe_row (hintl row hrow)).1]
    exact (hrangel row hrow _ _).2 (hbefore x hx)
  case left_upper =>
    intro row hrow
    exact (keyLe_row (hintl row hrow)).2.mpr ((hrangel row hrow _ _).1 hmid)
  case right_lower =>
    intro row hrow
    exact (keyLe_row (hintr row hrow)).1.mpr ((hranger row hrow _ _).2 hmid)
  case right_upper =>
    intro e' he' row hrow
    obtain ⟨x, hx, hkey⟩ := BTreeInternalPage.filledEntries_key he'
    rw [hkey, (keyLe_row (hintr row hrow)).2]
    exact (hranger row hrow _ _).1 (hafter x hx)

end Legal

section Example

open BTreeFile

/-- A leaf with four slots for one integer each. -/
def intsLeaf (n : Int32) (header : UInt8) (keys : Fin 4 → Int32) (left right : Int32) :
    BTreeLeafPage where
  pid := ⟨7, n, .leaf⟩
  td := .ofInts 1
  header := [header]
  tuples := List.ofFn fun i => ⟨.ofInts 1, [.int (keys i)], some ⟨.btree ⟨7, n, .leaf⟩, i⟩, rfl⟩
  numSlots := 4
  header_bits := show 4 ≤ 8 * 1 by decide
  tuples_length := List.length_ofFn
  stored := by
    intro i u hu _
    obtain ⟨hi, rfl⟩ := List.getElem?_eq_some_iff.mp hu
    rw [List.getElem_ofFn]
    exact ⟨rfl, rfl⟩
  keyField := 0
  parent := 1
  leftSibling := left
  rightSibling := right

/-- A leaf with the key 5 and its right sibling with the keys 5, 5 and 7, around a hole. -/
def unevenLeaves : LogicalTree where
  tableid := 7
  keyField := 0
  pageSize := 29
  limit := ⊤
  clearGrowth := 0
  blank _ id := .leaf (intsLeaf id.pgNo 0 (fun _ => 0) 0 0)
  reads := 0
  size := 96
  pages n :=
    if n = 1 then some (.internal twoChildren)
    else if n = 2 then some (.leaf (intsLeaf 2 1 (fun _ => 5) 0 3))
    else if n = 3 then some (.leaf (intsLeaf 3 13 ![5, 0, 5, 7] 2 0)) else none

def unevenEntry : BTreeEntry :=
  ⟨some (.int 5), some ⟨7, 2, .leaf⟩, some ⟨7, 3, .leaf⟩, some ⟨.btree ⟨7, 1, .internal⟩, 1⟩⟩

theorem unevenLeaves_neighbours : Neighbours unevenLeaves 2 3 1 (intsLeaf 2 1 (fun _ => 5) 0 3)
    (intsLeaf 3 13 ![5, 0, 5, 7] 2 0) twoChildren unevenEntry [] [] := by
  have hl : (intsLeaf 2 1 (fun _ => 5) 0 3).rows = [[.int 5]] := by decide
  have hr : (intsLeaf 3 13 ![5, 0, 5, 7] 2 0).rows = [[.int 5], [.int 5], [.int 7]] := by decide
  have hle : ∀ x y : Int32, x.toInt ≤ y.toInt → KeyLe [Field.int x][0]? [Field.int y][0]? :=
    fun x y hxy => keyLe_iff.mpr ⟨x, y, rfl, rfl, hxy⟩
  have hkey : ∀ x y : Int32, x.toInt ≤ y.toInt → KeyLe (some (.int x)) [Field.int y][0]? :=
    fun x y hxy => keyLe_iff.mpr ⟨x, y, rfl, rfl, hxy⟩
  constructor
  case left_page => rfl
  case right_page => rfl
  case parent_page => rfl
  case ne => decide
  case schema => rfl
  case numSlots => rfl
  case left_key => rfl
  case right_key => rfl
  case left_sorted =>
    rw [hl]
    exact List.pairwise_singleton _ _
  case right_sorted =>
    rw [hr]
    refine .cons ?_ (.cons ?_ (List.pairwise_singleton _ _))
    · simp only [List.forall_mem_cons, List.not_mem_nil, false_imp_iff, implies_true, and_true]
      exact ⟨hle 5 5 (by decide), hle 5 7 (by decide)⟩
    · simp only [List.forall_mem_cons, List.not_mem_nil, false_imp_iff, implies_true, and_true]
      exact hle 5 7 (by decide)
  case entries => rfl
  case left_child => rfl
  case right_child => rfl
  case keys => exact List.pairwise_singleton _ _
  case left_lower => simp
  case left_upper =>
    rw [hl]
    simp only [List.forall_mem_cons, List.not_mem_nil, false_imp_iff, implies_true, and_true]
    exact hle 5 5 (by decide)
  case right_lower =>
    rw [hr]
    simp only [List.forall_mem_cons, List.not_mem_nil, false_imp_iff, implies_true, and_true]
    exact ⟨hkey 5 5 (by decide), hkey 5 5 (by decide), hkey 5 7 (by decide)⟩
  case right_upper => simp

/-- One tuple goes to the left. -/
theorem unevenLeaves_steal : ∃ l' r' q', stealFromLeafPage 2 3 1 unevenEntry true unevenLeaves =
      .ok () (((unevenLeaves.setPage 2 (.leaf l')).setPage 3 (.leaf r')).setPage 1 (.internal q')) ∧
    Rebalanced unevenLeaves (intsLeaf 2 1 (fun _ => 5) 0 3) (intsLeaf 3 13 ![5, 0, 5, 7] 2 0)
      twoChildren unevenEntry [] [] l' r' q' ∧ l'.getNumTuples = 2 := by
  obtain ⟨l', r', q', hrun, hrebalanced, hlen, -⟩ :=
    (stealFromLeafPage_spec unevenLeaves_neighbours).1 (by decide)
  exact ⟨l', r', q', hrun, hrebalanced, hlen⟩

end Example

end PagedDb
