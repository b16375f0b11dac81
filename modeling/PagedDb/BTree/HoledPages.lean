import PagedDb.BTree.Refill

/-!
# Internal pages with empty slots

The rules of a tree speak of the keys and children of a page, and not of the
slots they are in. A page with empty slots between its entries follows them where
the page with the same entries at the front does.
-/

namespace PagedDb

open Exec LogicalTree BTreeFile KeyTree

namespace BTreeInternalPage

variable {p q : BTreeInternalPage} {first : Int32} {es : List (Int32 × Int32)} {i : ℕ}

theorem slots_length_le (p : BTreeInternalPage) : p.slots.length ≤ p.numSlots :=
  (Slots.segment_length _ _).trans_le ((List.length_filter_le _ _).trans_eq List.length_range)

/-- The page with its used slots at the front. -/
def compact (p : BTreeInternalPage) : BTreeInternalPage :=
  { p with
    header := Bitmap.front p.header.length p.slots.length
    keys := p.slots.map Prod.fst ++ List.replicate (p.numSlots - p.slots.length) none
    children := p.slots.map Prod.snd ++ List.replicate (p.numSlots - p.slots.length) 0
    header_bits := by simpa using p.header_bits
    keys_length := by simp [Nat.add_sub_of_le p.slots_length_le]
    children_length := by simp [Nat.add_sub_of_le p.slots_length_le] }

@[simp] theorem compact_pid (p : BTreeInternalPage) : p.compact.pid = p.pid := rfl

@[simp] theorem compact_numSlots (p : BTreeInternalPage) : p.compact.numSlots = p.numSlots := rfl

theorem compact_isSlotUsed (p : BTreeInternalPage) (i : ℕ) :
    p.compact.isSlotUsed i = decide (i < p.slots.length) := by
  apply Bitmap.get_front
  exact p.slots_length_le.trans p.header_bits

theorem compact_slot? (p : BTreeInternalPage) (i : ℕ) : p.compact.slot? i = p.slots[i]? := by
  have hle := p.slots_length_le
  by_cases hi : i < p.numSlots
  · rw [slot?, compact_isSlotUsed]
    by_cases hlt : i < p.slots.length
    · rw [if_pos ⟨decide_eq_true hlt, hi⟩, List.getElem?_eq_getElem hlt]
      simp [keyAt, childAt, compact, hlt, List.getElem?_append_left]
    · rw [if_neg (by simp [hlt]), List.getElem?_eq_none (by omega)]
  · rw [p.compact.slot?_eq_none.mpr (.inl (Nat.le_of_not_lt hi)), List.getElem?_eq_none (by omega)]

@[simp] theorem compact_slots (p : BTreeInternalPage) : p.compact.slots = p.slots := by
  exact Slots.segment_getElem? p.slots_length_le fun i _ => p.compact_slot? i

/-- No used slot is behind an empty one. -/
def FromFront (p : BTreeInternalPage) : Prop :=
  ∀ i < p.numSlots, p.isSlotUsed i = true → ∀ j < i, p.isSlotUsed j = true

theorem compact_fromFront (p : BTreeInternalPage) : p.compact.FromFront := by
  intro i _ hused j hj
  rw [compact_isSlotUsed, decide_eq_true_eq] at hused
  rw [compact_isSlotUsed]
  exact decide_eq_true (hj.trans hused)

theorem FromFront.getElem?_slots (h : p.FromFront) (hi : i < p.numSlots) :
    p.slots[i]? = p.slot? i := by
  apply Slots.getElem?_segment _ hi
  intro j hj hused k hk
  rw [p.slot?_isSome (hk.trans hj)]
  rw [p.slot?_isSome hj] at hused
  exact h j hj hused k hk

theorem FromFront.congr (h : p.FromFront) (hheader : q.header = p.header)
    (hslots : q.numSlots = p.numSlots) : q.FromFront := by
  unfold FromFront isSlotUsed at h ⊢
  rwa [hheader, hslots]

theorem Filled.fromFront (h : p.Filled first es) : p.FromFront := by
  intro i hi hused j hj
  rw [h.used i hi, decide_eq_true_eq] at hused
  rw [h.used j (hj.trans hi)]
  exact decide_eq_true (hj.le.trans hused)

/-- The first child and the entries, as slots. -/
def entrySlots (key : Option Field) (first : Int32) (es : List (Int32 × Int32)) :
    List (Option Field × Int32) :=
  (key, first) :: es.map fun e => (some (.int e.1), e.2)

/-- A page with nothing behind an empty slot is filled with what its used slots hold. -/
theorem FromFront.filled_iff (h : p.FromFront) :
    p.Filled first es ↔ ∃ key, p.slots = entrySlots key first es := by
  constructor
  · intro hfilled
    refine ⟨p.keyAt 0, List.ext_getElem? fun i => ?_⟩
    have hslots := hfilled.slots
    by_cases hi : i < p.numSlots
    · rw [h.getElem?_slots hi]
      by_cases hle : i ≤ es.length
      · rw [p.slot?_of_used hi (by rw [hfilled.used i hi]; exact decide_eq_true hle)]
        cases i with
        | zero => rw [hfilled.first_child]; rfl
        | succ i =>
          obtain ⟨hkey, hchild⟩ := hfilled.entry i _ (List.getElem?_eq_getElem (by omega))
          rw [hkey, hchild]
          simp [entrySlots, Nat.lt_of_succ_le hle]
      · rw [p.slot?_eq_none.mpr (.inr (by rw [hfilled.used i hi]; exact decide_eq_false hle)),
          List.getElem?_eq_none (by simp [entrySlots]; omega)]
    · have hle := p.slots_length_le
      rw [List.getElem?_eq_none (by omega), List.getElem?_eq_none (by simp [entrySlots]; omega)]
  · rintro ⟨key, hslots⟩
    have hlength : p.slots.length = es.length + 1 := by simp [hslots, entrySlots]
    have hle := p.slots_length_le
    have hat : ∀ {i x}, (entrySlots key first es)[i]? = some x →
        p.isSlotUsed i = true ∧ p.keyAt i = x.1 ∧ p.childAt i = x.2 := by
      intro i x hx
      have hi : i < p.numSlots := by
        have := (List.getElem?_eq_some_iff.mp hx).1
        rw [← hslots] at this
        omega
      rw [← hslots, h.getElem?_slots hi] at hx
      obtain ⟨-, hu, hkey, hchild⟩ := p.slot?_eq_some.mp hx
      exact ⟨hu, hkey, hchild⟩
    constructor
    case slots => omega
    case used =>
      intro i hi
      have hsome := p.slot?_isSome hi
      rw [← h.getElem?_slots hi] at hsome
      rw [← hsome, Bool.eq_iff_iff, decide_eq_true_eq, isSome_getElem?, hlength]
      exact Nat.lt_succ_iff
    case first_child => exact (hat (i := 0) (x := (key, first)) rfl).2.2
    case entry =>
      intro i e he
      have hx : (entrySlots key first es)[i + 1]? = some (some (.int e.1), e.2) := by
        simp [entrySlots, he]
      exact (hat hx).2

theorem Filled.childList_eq {first' : Int32} {es' : List (Int32 × Int32)} (h : p.Filled first es)
    (h' : p.Filled first' es') : childList first es = childList first' es' := by
  obtain ⟨key, hslots⟩ := h.fromFront.filled_iff.mp h
  obtain ⟨key', hslots'⟩ := h'.fromFront.filled_iff.mp h'
  have hsnd : ∀ (key : Option Field) (first : Int32) (es : List (Int32 × Int32)),
      (entrySlots key first es).map Prod.snd = childList first es := by
    intro key first es
    simp [entrySlots, childList]
  rw [← hsnd key, ← hslots, hslots', hsnd]

theorem Filled.compact (h : p.Filled first es) : p.compact.Filled first es := by
  obtain ⟨key, hslots⟩ := h.fromFront.filled_iff.mp h
  exact p.compact_fromFront.filled_iff.mpr ⟨key, p.compact_slots.trans hslots⟩

theorem slots_eq_two (hslots : 1 < p.numSlots) (hzero : p.isSlotUsed 0 = true)
    (hone : p.isSlotUsed 1 = true) : p.slots = (p.keyAt 0, p.childAt 0) ::
      (p.keyAt 1, p.childAt 1) :: Slots.segment p.slot? 2 p.numSlots := by
  rw [slots, Slots.segment_cons _ (Nat.zero_lt_of_lt hslots), Slots.segment_cons _ hslots,
    p.slot?_of_used (Nat.zero_lt_of_lt hslots) hzero, p.slot?_of_used hslots hone]
  rfl

/-- The first entry of a page with its first two slots used. -/
theorem Filled.first_entry {e : Int32 × Int32} (h : p.compact.Filled first (e :: es))
    (hzero : p.isSlotUsed 0 = true) (hone : p.isSlotUsed 1 = true) :
    p.childAt 0 = first ∧ p.keyAt 1 = some (.int e.1) ∧ p.childAt 1 = e.2 := by
  obtain ⟨key, hslots⟩ := p.compact_fromFront.filled_iff.mp h
  have hlt := h.slots
  rw [List.length_cons, compact_numSlots] at hlt
  rw [compact_slots, slots_eq_two (by omega) hzero hone, entrySlots, List.map_cons] at hslots
  obtain ⟨hfirst, hrest⟩ := List.cons.inj hslots
  obtain ⟨hkey, hchild⟩ := Prod.mk.inj (List.cons.inj hrest).1
  exact ⟨(Prod.mk.inj hfirst).2, hkey, hchild⟩

/-- Another key in slot 1, where that is the second used slot. -/
theorem compact_setKey (hslots : 1 < p.numSlots) (hzero : p.isSlotUsed 0 = true)
    (hone : p.isSlotUsed 1 = true) (key : Option Field) :
    (p.setKey 1 key).compact = p.compact.setKey 1 key := by
  have hrest : ∀ i, 2 ≤ i → (p.setKey 1 key).slot? i = p.slot? i := by
    intro i hi
    have hkey : (p.setKey 1 key).keyAt i = p.keyAt i := by
      simp [keyAt, setKey, List.getElem?_set_ne (show 1 ≠ i by omega)]
    rw [slot?, slot?, hkey]
    rfl
  have hp := slots_eq_two hslots hzero hone
  have hnew : (p.setKey 1 key).keyAt 1 = key := by
    simp [keyAt, setKey, p.keys_length, hslots]
  have hold : (p.setKey 1 key).keyAt 0 = p.keyAt 0 := by
    simp [keyAt, setKey]
  have hq : (p.setKey 1 key).slots = (p.keyAt 0, p.childAt 0) :: (key, p.childAt 1) ::
      Slots.segment p.slot? 2 p.numSlots := by
    rw [slots_eq_two (p := p.setKey 1 key) hslots hzero hone, hnew, hold,
      Slots.segment_congr fun i hi _ => hrest i hi]
    rfl
  have hlength : (p.setKey 1 key).slots.length = p.slots.length := by rw [hp, hq]; rfl
  apply BTreeInternalPage.ext
  all_goals try rfl
  · exact congrArg (Bitmap.front p.header.length) hlength
  · change (p.setKey 1 key).slots.map Prod.fst ++ List.replicate (p.numSlots - _) none =
      (p.slots.map Prod.fst ++ List.replicate (p.numSlots - _) none).set 1 key
    rw [hlength, hq, hp]
    rfl
  · change (p.setKey 1 key).slots.map Prod.snd ++ List.replicate (p.numSlots - _) 0 =
      p.slots.map Prod.snd ++ List.replicate (p.numSlots - _) 0
    rw [hlength, hq, hp]
    rfl

/-- The keys of the entries are those of the used slots behind the first. -/
theorem entriesBehind_keys (p : BTreeInternalPage) (left : Int32) (n i : ℕ)
    (hn : i + n ≤ p.numSlots) : (p.entriesBehind left n i).map BTreeEntry.key =
      (Slots.segment p.slot? i (i + n)).map Prod.fst := by
  induction n generalizing i left with
  | zero =>
    rw [Nat.add_zero, Slots.segment_of_le _ le_rfl]
    rfl
  | succ n ih =>
    have hnext : ∀ left, (p.entriesBehind left n (i + 1)).map BTreeEntry.key =
        (Slots.segment p.slot? (i + 1) (i + (n + 1))).map Prod.fst := by
      intro left
      rw [ih left (i + 1) (by omega), Nat.add_right_comm, Nat.add_assoc]
    rw [entriesBehind, Slots.segment_cons _ (show i < i + (n + 1) by omega)]
    by_cases hu : p.isSlotUsed i = true
    · rw [if_pos hu, p.slot?_of_used (by omega) hu, List.map_cons, hnext]
      rfl
    · rw [if_neg hu, p.slot?_eq_none.mpr (.inr (by simpa using hu)), hnext]
      rfl

theorem entryList_keys (p : BTreeInternalPage) (hzero : p.isSlotUsed 0 = true)
    (hslots : 0 < p.numSlots) :
    p.entryList.map BTreeEntry.key = p.slots.tail.map Prod.fst := by
  rw [entryList, p.entriesBehind_keys _ _ _ (by omega), slots_eq hzero hslots,
    show 1 + (p.numSlots - 1) = p.numSlots by omega]
  rfl

theorem compact_keys (p : BTreeInternalPage) (hzero : p.isSlotUsed 0 = true)
    (hslots : 0 < p.numSlots) :
    p.compact.entryList.map BTreeEntry.key = p.entryList.map BTreeEntry.key := by
  have hzero' : p.compact.isSlotUsed 0 = true := by
    rw [compact_isSlotUsed, slots_eq hzero hslots]
    exact decide_eq_true (Nat.succ_pos _)
  rw [p.compact.entryList_keys hzero' hslots, p.entryList_keys hzero hslots, compact_slots]

end BTreeInternalPage

/-- The page with its entries at the front, if it is an internal one. -/
def BTreeFilePage.compact : BTreeFilePage → BTreeFilePage
  | .internal p => .internal p.compact
  | page => page

namespace BTreeFilePage

@[simp] theorem compact_getId (page : BTreeFilePage) : page.compact.getId = page.getId := by
  cases page <;> rfl

@[simp] theorem compact_kind (page : BTreeFilePage) : page.compact.kind = page.kind := by
  cases page <;> rfl

@[simp] theorem compact_parent? (page : BTreeFilePage) : page.compact.parent? = page.parent? := by
  cases page <;> rfl

end BTreeFilePage

namespace LogicalTree

variable {t t' : LogicalTree} {n : Int32} {p : BTreeLeafPage} {q : BTreeInternalPage}
  {id : BTreePageId}

/-- Every page has the same id and parent, and the leaves are the same. -/
theorem Reframed.of_pages (htable : t'.tableid = t.tableid) (hkey : t'.keyField = t.keyField)
    (hsize : t'.pageSize = t.pageSize) (hfile : ∀ id, t.InFile id → t'.InFile id)
    (hpages : ∀ n page, t.pages n = some page → ∃ page', t'.pages n = some page' ∧
      page'.getId = page.getId ∧ page'.kind = page.kind ∧ page'.parent? = page.parent? ∧
      ∀ p, page = .leaf p → page' = .leaf p) : Reframed t t' where
  tableid := htable
  keyField := hkey
  pageSize := hsize
  node id hid := by
    obtain ⟨⟨hin, page, hpage, hid, hkind⟩, htype⟩ := hid
    obtain ⟨page', hpage', hid', hkind', -⟩ := hpages _ page hpage
    exact ⟨⟨hfile id hin, page', hpage', hid'.trans hid, hkind'.trans hkind⟩, htype⟩
  page n page hpage := by
    obtain ⟨page', hpage', -, -, hparent, -⟩ := hpages n page hpage
    exact ⟨page', hpage', hparent⟩
  linked left ns hns := by
    induction ns generalizing left with
    | nil => trivial
    | cons m ns ih =>
      obtain ⟨⟨p, hp, hleft, hright⟩, hrest⟩ := hns
      obtain ⟨page', hpage', -, -, -, hleaf⟩ := hpages m _ hp
      exact ⟨⟨p, hleaf p rfl ▸ hpage', hleft, hright⟩, ih m hrest⟩

/-- The tree with the entries of every internal page at the front. -/
def compact (t : LogicalTree) : LogicalTree :=
  { t with pages := fun n => (t.pages n).map BTreeFilePage.compact }

theorem compact_pages (t : LogicalTree) (n : Int32) :
    t.compact.pages n = (t.pages n).map BTreeFilePage.compact := rfl

theorem compact_leaf : t.compact.pages n = some (.leaf p) ↔ t.pages n = some (.leaf p) := by
  rw [compact_pages]
  cases t.pages n with
  | none => simp
  | some page => cases page <;> simp [BTreeFilePage.compact]

theorem compact_internal : t.compact.pages n = some (.internal q) ↔
    ∃ q₀, t.pages n = some (.internal q₀) ∧ q₀.compact = q := by
  rw [compact_pages]
  cases t.pages n with
  | none => simp
  | some page => cases page <;> simp [BTreeFilePage.compact]

theorem compact_setPage (page : BTreeFilePage) :
    (t.setPage n page).compact = t.compact.setPage n page.compact := by
  have hpages : (t.setPage n page).compact.pages = (t.compact.setPage n page.compact).pages := by
    funext m
    by_cases hm : m = n
    · subst hm
      rw [compact_pages, setPage_self, setPage_self]
      rfl
    · rw [compact_pages, setPage_ne hm, setPage_ne hm, compact_pages]
  exact congrArg (fun pages => { t with pages }) hpages

theorem compact_has : t.compact.Has id ↔ t.Has id := by
  constructor
  · rintro ⟨hin, page, hpage, hid, hkind⟩
    obtain ⟨page₀, hpage₀, rfl⟩ := Option.map_eq_some_iff.mp hpage
    exact ⟨hin, page₀, hpage₀, page₀.compact_getId ▸ hid, page₀.compact_kind ▸ hkind⟩
  · rintro ⟨hin, page, hpage, hid, hkind⟩
    exact ⟨hin, page.compact, by rw [compact_pages, hpage]; rfl, page.compact_getId.trans hid,
      page.compact_kind.trans hkind⟩

theorem compact_hasNode : t.compact.HasNode id ↔ t.HasNode id :=
  ⟨fun h => ⟨compact_has.mp h.has, h.node⟩, fun h => ⟨compact_has.mpr h.has, h.node⟩⟩

theorem compact_reframed (t : LogicalTree) : Reframed t t.compact := by
  refine Reframed.of_pages rfl rfl rfl (fun id hin => hin) fun n page hpage => ?_
  refine ⟨page.compact, by rw [compact_pages, hpage]; rfl, page.compact_getId, page.compact_kind,
    page.compact_parent?, ?_⟩
  rintro p rfl
  rfl

theorem reframed_compact (t : LogicalTree) : Reframed t.compact t := by
  refine Reframed.of_pages rfl rfl rfl (fun id hin => hin) fun n page hpage => ?_
  obtain ⟨page₀, hpage₀, rfl⟩ := Option.map_eq_some_iff.mp hpage
  refine ⟨page₀, hpage₀, page₀.compact_getId.symm, page₀.compact_kind.symm,
    page₀.compact_parent?.symm, fun p hp => ?_⟩
  cases page₀ with
  | leaf p₀ => exact hp
  | _ => cases hp

end LogicalTree

/-- Other keys and tuples are in the slots that were used. -/
theorem LogicalTree.Rewrites.internal {t t' : LogicalTree} {n : Int32} {q' : BTreeInternalPage}
    (h : t.Rewrites t') (hq' : t'.pages n = some (.internal q')) :
    ∃ q, t.pages n = some (.internal q) ∧ q'.header = q.header ∧ q'.numSlots = q.numSlots := by
  induction h generalizing q' with
  | refl => exact ⟨q', hq', rfl, rfl⟩
  | @leaf t' m p q h hp hframe ih =>
    by_cases hm : n = m
    · subst hm
      rw [setPage_self] at hq'
      cases hq'
    · rw [setPage_ne hm] at hq'
      exact ih hq'
  | @key t' m q slot key h hq ih =>
    by_cases hm : n = m
    · subst hm
      rw [setPage_self] at hq'
      cases hq'
      obtain ⟨q₀, hq₀, hheader, hslots⟩ := ih hq
      exact ⟨q₀, hq₀, hheader, hslots⟩
    · rw [setPage_ne hm] at hq'
      exact ih hq'

section Reframe

variable {td : TupleDesc} {T : KeyTree Int32 Int} {rank : Int32 → ℕ} {root : BTreePageId}
  {leaves : List Int32} {t t' : LogicalTree}

/-- The same entries in other slots. -/
theorem Legal.reframed (h : Legal td T rank root leaves t) (hr : Reframed t t')
    (hinternal : ∀ n q first entries, t.pages n = some (.internal q) →
      LegalInternal td T t n q first entries →
      ∃ q', t'.pages n = some (.internal q') ∧ LegalInternal td T t' n q' first entries)
    (hleaf : ∀ n ∈ leaves, ∀ p, t.pages n = some (.leaf p) → t'.pages n = some (.leaf p)) :
    Legal td T rank root leaves t' := by
  refine
    { h with
      key := hr.keyField.symm ▸ h.key, root_node := hr.node root h.root_node, root_parent := ?_
      internal := ?_, leaf := ?_, linked := hr.linked 0 leaves h.linked }
  · obtain ⟨page, hpage, hzero⟩ := h.root_parent
    obtain ⟨page', hpage', hparent⟩ := hr.page _ page hpage
    exact ⟨page', hpage', hparent.trans hzero⟩
  · intro n first es hnode
    obtain ⟨q, entries, hes, hq, hint⟩ := h.internal n first es hnode
    obtain ⟨q', hq', hint'⟩ := hinternal n q first entries hq hint
    exact ⟨q', entries, hes, hq', hint'⟩
  · intro n hn
    obtain ⟨p, hp, hlegal⟩ := h.leaf n hn
    exact ⟨p, hleaf n hn p hp, hlegal.refilled hr ⟨rfl, rfl, rfl, rfl, rfl, rfl, rfl⟩
      (hlegal.keyField ▸ hlegal.ordered) (hlegal.keyField ▸ hlegal.range)⟩

theorem Legal.fromFront {n : Int32} {q : BTreeInternalPage} (h : Legal td T rank root leaves t)
    (hsome : (T.node n).isSome) (hq : t.pages n = some (.internal q)) : q.FromFront := by
  obtain ⟨⟨first, es⟩, hnode⟩ := Option.isSome_iff_exists.mp hsome
  obtain ⟨q', entries, -, hq', hint⟩ := h.internal n first es hnode
  rw [hq] at hq'
  cases hq'
  exact hint.filled.fromFront

theorem Legal.compact (h : Legal td T rank root leaves t) :
    Legal td T rank root leaves t.compact := by
  apply h.reframed t.compact_reframed
  · intro n q first entries hq hint
    exact ⟨q.compact, compact_internal.mpr ⟨q, hq, rfl⟩,
      hint.reframed t.compact_reframed rfl rfl rfl (fun _ => rfl) hint.filled.compact⟩
  · exact fun n _ p hp => compact_leaf.mpr hp

/-- A tree whose pages have their entries at the front already. -/
theorem Legal.of_compact (h : Legal td T rank root leaves t.compact)
    (hfront : ∀ n q, (T.node n).isSome → t.pages n = some (.internal q) → q.FromFront) :
    Legal td T rank root leaves t := by
  apply h.reframed t.reframed_compact
  · intro n q first entries hq hint
    obtain ⟨q₀, hq₀, rfl⟩ := compact_internal.mp hq
    refine ⟨q₀, hq₀, hint.reframed t.reframed_compact rfl rfl rfl (fun _ => rfl) ?_⟩
    obtain ⟨key, hslots⟩ := q₀.compact_fromFront.filled_iff.mp hint.filled
    refine (hfront n q₀ (by rw [hint.node]; rfl) hq₀).filled_iff.mpr ⟨key, ?_⟩
    rw [← hslots, q₀.compact_slots]
  · exact fun n _ p hp => compact_leaf.mp hp

end Reframe

/-- A tree that is legal but for empty slots in its internal pages, which are behind the first
child. -/
structure Holed (td : TupleDesc) (T : KeyTree Int32 Int) (rank : Int32 → ℕ) (root : BTreePageId)
    (leaves : List Int32) (t : LogicalTree) : Prop where
  compact : Legal td T rank root leaves t.compact
  zeroth : ∀ n q, (T.node n).isSome → t.pages n = some (.internal q) → q.isSlotUsed 0 = true

theorem Legal.holed {td : TupleDesc} {T : KeyTree Int32 Int} {rank : Int32 → ℕ}
    {root : BTreePageId} {leaves : List Int32} {t : LogicalTree}
    (h : Legal td T rank root leaves t) : Holed td T rank root leaves t := by
  refine ⟨h.compact, fun n q hsome hq => ?_⟩
  obtain ⟨⟨first, es⟩, hnode⟩ := Option.isSome_iff_exists.mp hsome
  obtain ⟨q', entries, -, hq', hint⟩ := h.internal n first es hnode
  rw [hq] at hq'
  cases hq'
  rw [hint.filled.used 0 (by have := hint.filled.slots; omega)]
  exact decide_eq_true (Nat.zero_le _)

namespace Holed

variable {td : TupleDesc} {T : KeyTree Int32 Int} {rank : Int32 → ℕ} {root : BTreePageId}
  {leaves : List Int32} {t : LogicalTree} {n P : Int32} {p : BTreeLeafPage}

theorem legalLeaf (h : Holed td T rank root leaves t) (hn : n ∈ leaves)
    (hp : t.pages n = some (.leaf p)) : LegalLeaf td T t.compact n p :=
  h.compact.legalLeaf hn (compact_leaf.mpr hp)

theorem leaf_id (h : Holed td T rank root leaves t) (hn : n ∈ leaves)
    (hp : t.pages n = some (.leaf p)) :
    p.pid = ⟨t.tableid, n, .leaf⟩ ∧ t.HasNode ⟨t.tableid, n, .leaf⟩ := by
  obtain ⟨hpid, hnode⟩ := h.compact.leaf_id hn (compact_leaf.mpr hp)
  exact ⟨hpid, compact_hasNode.mp hnode⟩

theorem leaf (h : Holed td T rank root leaves t) (hn : n ∈ leaves) :
    ∃ p, t.pages n = some (.leaf p) := by
  obtain ⟨p, hp, -⟩ := h.compact.leaf n hn
  exact ⟨p, compact_leaf.mp hp⟩

/-- Other rows in a leaf, in order and between the separators above it. -/
theorem setLeaf {q : BTreeLeafPage} (h : Holed td T rank root leaves t) (hn : n ∈ leaves)
    (hp : t.pages n = some (.leaf p)) (hframe : q.SameFrame p)
    (hordered : KeyOrdered q.keyField q.rows)
    (hrange : ∀ row ∈ q.rows, T.InRange n (intKey q.keyField row)) :
    Holed td T rank root leaves (t.setPage n (.leaf q)) := by
  refine ⟨?_, fun m q' hsome hq' => ?_⟩
  · rw [compact_setPage]
    exact h.compact.setLeaf hn (compact_leaf.mpr hp) hframe hordered hrange
  · have hmn : m ≠ n := by
      rintro rfl
      rw [h.compact.node_leaf hn] at hsome
      cases hsome
    rw [setPage_ne hmn] at hq'
    exact h.zeroth m q' hsome hq'

end Holed

end PagedDb
