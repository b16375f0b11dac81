import PagedDb.BTree.TreeOps

/-!
# What the operations of an internal page do

As long as entries are only inserted, the used slots of an internal page are its
first ones, and the page is a first child and a list of keys with the child
behind each. An insertion puts its key and its right child behind its left one.
-/

namespace PagedDb

namespace Slots

variable {α : Type*}

theorem insertAt_before {f : ℕ → Option α} {e p : ℕ} {x : α} (hole : f e = none) (hp : p ≤ e)
    (j : ℕ) :
    insertAt f e p x j = if j < p then f j else if j = p then some x
      else if j ≤ e then f (j - 1) else f j := by
  have hole' : f (p + (e - p)) = none := by rwa [Nat.add_sub_of_le hp]
  rw [insertAt, if_neg (by omega)]
  split_ifs with h₁ h₂ h₃
  · rw [Function.update_of_ne (by omega), shiftUp_outside hole' (by omega)]
  · rw [h₂, Function.update_self]
  · rw [Function.update_of_ne h₂, shiftUp_inside hole' (by omega) (by omega)]
  · rw [Function.update_of_ne h₂, shiftUp_outside hole' (by omega)]

end Slots

namespace BTreeInternalPage

/-- The page has this first child and these keys, each with the child behind it, and nothing in
its other slots. -/
structure Filled (p : BTreeInternalPage) (first : Int32) (entries : List (Int32 × Int32)) :
    Prop where
  slots : entries.length < p.numSlots
  used : ∀ i < p.numSlots, p.isSlotUsed i = decide (i ≤ entries.length)
  first_child : p.childAt 0 = first
  entry : ∀ (i : ℕ) (e : Int32 × Int32), entries[i]? = some e →
    p.keyAt (i + 1) = some (.int e.1) ∧ p.childAt (i + 1) = e.2

/-- Pages that differ in what their slots hold only. -/
structure SameFrame (q p : BTreeInternalPage) : Prop where
  pid : q.pid = p.pid
  td : q.td = p.td
  keyField : q.keyField = p.keyField
  parent : q.parent = p.parent
  numSlots : q.numSlots = p.numSlots

variable {p q : BTreeInternalPage} {first left right : Int32} {entries : List (Int32 × Int32)}

namespace Filled

theorem numEmptySlots (h : p.Filled first entries) :
    p.getNumEmptySlots = p.numSlots - 1 - entries.length := by
  have hslots := h.slots
  have hsplit : List.range' 1 (p.numSlots - 1) = List.range' 1 entries.length ++
      List.range' (1 + entries.length) (p.numSlots - 1 - entries.length) := by
    rw [List.range'_append_1]
    congr 1
    omega
  have hnone : (List.range' 1 entries.length).filter (fun i => !p.isSlotUsed i) = [] := by
    apply List.filter_eq_nil_iff.mpr
    intro i hi
    have := List.mem_range'_1.mp hi
    simp [h.used i (by omega)]
    omega
  have hall : (List.range' (1 + entries.length) (p.numSlots - 1 - entries.length)).filter
      (fun i => !p.isSlotUsed i) =
      List.range' (1 + entries.length) (p.numSlots - 1 - entries.length) := by
    apply List.filter_eq_self.mpr
    intro i hi
    have := List.mem_range'_1.mp hi
    simp [h.used i (by omega)]
    omega
  rw [getNumEmptySlots, hsplit, List.filter_append, hnone, hall]
  simp

end Filled

def childList (first : Int32) (entries : List (Int32 × Int32)) : List Int32 :=
  first :: entries.map Prod.snd

theorem Filled.childAt (h : p.Filled first entries) {i : ℕ} {c : Int32}
    (hc : (childList first entries)[i]? = some c) : p.childAt i = c := by
  cases i with
  | zero => exact h.first_child.trans (Option.some.inj hc)
  | succ i =>
    rw [childList, List.getElem?_cons_succ, List.getElem?_map] at hc
    obtain ⟨e, he, rfl⟩ := Option.map_eq_some_iff.mp hc
    exact (h.entry i e he).2

/-- The loop of `insertEntry` passes over slots with other children. -/
theorem matchChild_skip {key : Field} {n i k : ℕ}
    (h : ∀ j, i ≤ j → j < i + k → p.isSlotUsed j = true →
      p.childAt j ≠ left ∧ p.childAt j ≠ right) :
    p.matchChild key left right (n + k) i 0 = p.matchChild key left right n (i + k) 0 := by
  induction k generalizing i with
  | zero => rfl
  | succ k ih =>
    have hrest : p.matchChild key left right (n + k) (i + 1) 0 =
        p.matchChild key left right n (i + (k + 1)) 0 := by
      rw [ih fun j h₁ h₂ => h j (by omega) (by omega), show i + 1 + k = i + (k + 1) by omega]
    rw [← Nat.add_assoc, matchChild]
    split
    · rename_i hu
      obtain ⟨hl, hr⟩ := h i (le_refl i) (by omega) hu
      rw [if_neg (by simp [hl, hr]), if_neg (by simp)]
      exact hrest
    · exact hrest

/-- Behind the child it has found, the loop ends at the next used slot. -/
theorem matchChild_end {key : Field} {n i pos : ℕ} (hpos : pos ≠ 0)
    (h : ∀ j, i ≤ j → j < i + n → p.isSlotUsed j = true →
      (p.childAt j ≠ left ∧ p.childAt j ≠ right) ∧
        p.assertKey j .greaterThanOrEq (some key) = .ok ()) :
    p.matchChild key left right n i pos = .ok (p, pos) := by
  induction n generalizing i with
  | zero => rfl
  | succ n ih =>
    rw [matchChild]
    split
    · rename_i hu
      obtain ⟨⟨hl, hr⟩, hkey⟩ := h i (le_refl i) (by omega) hu
      rw [if_neg (by simp [hl, hr])]
      rw [Exec.except_bind hkey]
      rfl
    · exact ih fun j h₁ h₂ => h j (by omega) (by omega)

/-- The loop of `insertEntry` on a page that has the left child and not the right one. -/
theorem matchChild_spec {key : Field} {j n : ℕ} (hj : p.isSlotUsed j = true)
    (hchild : p.childAt j = left) (hne : left ≠ right)
    (hkey : p.assertKeyBehind j .lessThanOrEq (some key) = .ok ())
    (hbefore : ∀ i < j, p.isSlotUsed i = true → p.childAt i ≠ left ∧ p.childAt i ≠ right)
    (hafter : ∀ i, j < i → i < j + 1 + n → p.isSlotUsed i = true →
      (p.childAt i ≠ left ∧ p.childAt i ≠ right) ∧
        p.assertKey i .greaterThanOrEq (some key) = .ok ()) :
    p.matchChild key left right (n + 1 + j) 0 0 = .ok (p, j + 1) := by
  have hskip := @matchChild_skip p left right key (n + 1) 0 j fun i _ hi => hbefore i (by omega)
  rw [hskip, Nat.zero_add, matchChild, if_pos hj, if_pos (.inl hchild), Exec.except_bind hkey]
  simp only [hchild, if_neg hne]
  exact matchChild_end (by omega) fun i h₁ h₂ => hafter i (by omega) (by omega)

theorem assertKey_int {i : ℕ} {a b : Int32} {op : Op} (hkey : p.keyAt i = some (.int a))
    (hop : Field.compareInt op a b = true) : p.assertKey i op (some (.int b)) = .ok () := by
  simp [assertKey, hkey, Field.compare, hop, assertThat, bind, Except.bind]

theorem SameFrame.trans {p q r : BTreeInternalPage} (h : SameFrame r q) (h' : SameFrame q p) :
    SameFrame r p :=
  ⟨h.pid.trans h'.pid, h.td.trans h'.td, h.keyField.trans h'.keyField, h.parent.trans h'.parent,
    h.numSlots.trans h'.numSlots⟩

theorem put_frame (p : BTreeInternalPage) (i : ℕ) (key : Option Field) (child : Int32) :
    SameFrame (p.put i key child) p ∧ (p.put i key child).childCategory = p.childCategory :=
  ⟨⟨rfl, rfl, rfl, rfl, rfl⟩, rfl⟩

theorem makeRoom_frame (p : BTreeInternalPage) (e pos : ℕ) :
    SameFrame (Slots.makeRoom moveEntry p e pos) p ∧
      (Slots.makeRoom moveEntry p e pos).childCategory = p.childCategory := by
  have hkeeps : ∀ {τ : Type} (part : BTreeInternalPage → τ),
      (∀ p a b, part (moveEntry p a b) = part p) →
      part (Slots.makeRoom moveEntry p e pos) = part p :=
    fun part h => @Slots.makeRoom_keeps _ moveEntry _ part h p e pos
  refine ⟨⟨hkeeps (·.pid) ?_, hkeeps (·.td) ?_, hkeeps (·.keyField) ?_, hkeeps (·.parent) ?_,
    hkeeps (·.numSlots) ?_⟩, hkeeps (·.childCategory) ?_⟩
  all_goals
    intro p a b
    obtain ⟨hnum, -, hpid, htd, hkey, hparent, hcat⟩ := p.moveEntry_keeps a b
    assumption

/-- What a page shows in its slots. -/
theorem filled_iff_slot? : p.Filled first entries ↔
    entries.length < p.numSlots ∧
      (∃ key, p.slot? 0 = some (key, first)) ∧
      (∀ i e, entries[i]? = some e → p.slot? (i + 1) = some (some (.int e.1), e.2)) ∧
      ∀ i, entries.length < i → p.slot? i = none := by
  constructor
  · intro h
    have hslots := h.slots
    refine ⟨hslots, ⟨p.keyAt 0, ?_⟩, ?_, ?_⟩
    · rw [p.slot?_of_used (by omega) (by simp [h.used 0 (by omega)]), h.first_child]
    · intro i e he
      have hi := (List.getElem?_eq_some_iff.mp he).1
      rw [p.slot?_of_used (by omega) (by simp [h.used (i + 1) (by omega)]; omega),
        (h.entry i e he).1, (h.entry i e he).2]
    · intro i hi
      rw [p.slot?_eq_none]
      rcases Nat.lt_or_ge i p.numSlots with hlt | hge
      · right
        simp [h.used i hlt]
        omega
      · exact .inl hge
  · rintro ⟨hslots, ⟨key, h₀⟩, hentry, hrest⟩
    refine ⟨hslots, ?_, ?_, ?_⟩
    · intro i hi
      rw [← p.slot?_isSome hi]
      rcases Nat.lt_or_ge entries.length i with hlt | hle
      · simp [hrest i hlt]
        omega
      · cases i with
        | zero => simp [h₀]
        | succ i =>
          have he : entries[i]? = some entries[i] := List.getElem?_eq_getElem (by omega)
          simp [hentry i _ he]
          omega
    · exact (p.slot?_eq_some.mp h₀).2.2.2
    · intro i e he
      exact ⟨(p.slot?_eq_some.mp (hentry i e he)).2.2.1, (p.slot?_eq_some.mp (hentry i e he)).2.2.2⟩

theorem Filled.search_empty (h : p.Filled first entries) (hroom : entries.length + 1 < p.numSlots) :
    Slots.search (fun i => !p.isSlotUsed i) (p.numSlots - 1) 1 = entries.length + 1 := by
  have hempty : (!p.isSlotUsed (entries.length + 1)) = true := by
    simp [h.used (entries.length + 1) hroom]
  have hlt : Slots.search (fun i => !p.isSlotUsed i) (p.numSlots - 1) 1 < 1 + (p.numSlots - 1) :=
    Slots.search_lt (j := entries.length + 1) (by omega) (by omega) hempty
  have hstop := Slots.search_stop hlt
  have hle : entries.length + 1 ≤ Slots.search (fun i => !p.isSlotUsed i) (p.numSlots - 1) 1 := by
    by_contra hlow
    rw [h.used _ (by omega)] at hstop
    simp at hstop
    omega
  by_contra hne
  have hbefore := @Slots.search_before (fun i => !p.isSlotUsed i) (p.numSlots - 1) 1
    (entries.length + 1) (by omega) (by omega)
  rw [hempty] at hbefore
  cases hbefore

theorem Filled.child_ne (h : p.Filled first entries) {i j : ℕ}
    (hleft : (childList first entries)[j]? = some left) (hnodup : (childList first entries).Nodup)
    (hright : right ∉ childList first entries) (hi : i ≤ entries.length) (hne : i ≠ j) :
    p.childAt i ≠ left ∧ p.childAt i ≠ right := by
  have hlt : i < (childList first entries).length := by
    simp only [childList, List.length_cons, List.length_map]
    omega
  have hget : (childList first entries)[i]? = some (childList first entries)[i] :=
    List.getElem?_eq_getElem hlt
  rw [h.childAt hget]
  constructor
  · intro heq
    rw [heq] at hget
    exact hne ((List.getElem?_inj hlt hnodup).mp (hget.trans hleft.symm))
  · intro heq
    exact hright (heq ▸ List.getElem_mem _)

/-- The loop of `insertEntry` ends behind the left child. -/
theorem Filled.matchChild {k : Int32} {pre post : List (Int32 × Int32)}
    (h : p.Filled first (pre ++ post))
    (hleft : (childList first (pre ++ post))[pre.length]? = some left)
    (hnodup : (childList first (pre ++ post)).Nodup)
    (hright : right ∉ childList first (pre ++ post))
    (hle : ∀ e ∈ pre, e.1.toInt ≤ k.toInt) (hge : ∀ e ∈ post, k.toInt ≤ e.1.toInt) :
    p.matchChild (.int k) left right p.numSlots 0 0 = .ok (p, pre.length + 1) := by
  have hslots := h.slots
  have hlen : (pre ++ post).length = pre.length + post.length := List.length_append
  rw [show p.numSlots = p.numSlots - (pre.length + 1) + 1 + pre.length by omega]
  apply matchChild_spec
  · rw [h.used _ (by omega)]
    simp
  · exact h.childAt hleft
  · rintro rfl
    exact hright (List.mem_of_getElem? hleft)
  · unfold assertKeyBehind
    split
    · rfl
    · rename_i hpos
      obtain ⟨i, hi⟩ : ∃ i, pre.length = i + 1 := ⟨pre.length - 1, by omega⟩
      have hget : pre[i]? = some pre[i] := List.getElem?_eq_getElem (by omega)
      rw [hi]
      apply assertKey_int (h.entry i pre[i] (by rw [List.getElem?_append_left (by omega), hget])).1
      simpa [Field.compareInt] using hle _ (List.getElem_mem _)
  · intro i hi _
    exact h.child_ne hleft hnodup hright (by omega) (by omega)
  · intro i h₁ h₂ hu
    rw [h.used i (by omega)] at hu
    have hi : i ≤ (pre ++ post).length := of_decide_eq_true hu
    refine ⟨h.child_ne hleft hnodup hright hi (by omega), ?_⟩
    obtain ⟨l, rfl⟩ : ∃ l, i = pre.length + l + 1 := ⟨i - pre.length - 1, by omega⟩
    have hget : post[l]? = some post[l] := List.getElem?_eq_getElem (by omega)
    apply assertKey_int (h.entry (pre.length + l) post[l] ?_).1
    · simpa [Field.compareInt] using hge _ (List.getElem_mem _)
    · rw [List.getElem?_append_right (by omega), Nat.add_sub_cancel_left, hget]

/-- A page that shows the entries with one more between them. -/
theorem Filled.of_insertAt {k : Int32} {pre post : List (Int32 × Int32)}
    (h : p.Filled first (pre ++ post)) (hroom : (pre ++ post).length + 1 < q.numSlots)
    (hview : q.slot? = Slots.insertAt p.slot? ((pre ++ post).length + 1) (pre.length + 1)
      (some (.int k), right)) : q.Filled first (pre ++ (k, right) :: post) := by
  obtain ⟨-, ⟨key, hzero⟩, hentry, hrest⟩ := filled_iff_slot?.mp h
  have hlen : (pre ++ post).length = pre.length + post.length := List.length_append
  have hlen' : (pre ++ (k, right) :: post).length = pre.length + post.length + 1 := by
    rw [List.length_append, List.length_cons]
    omega
  have hat := Slots.insertAt_before (x := (some (Field.int k), right))
    (hrest ((pre ++ post).length + 1) (by omega))
    (show pre.length + 1 ≤ (pre ++ post).length + 1 by omega)
  rw [filled_iff_slot?, hview]
  refine ⟨by omega, ⟨key, ?_⟩, ?_, ?_⟩
  · rw [hat, if_pos (by omega)]
    exact hzero
  · intro i e he
    rw [hat]
    rcases Nat.lt_trichotomy i pre.length with hlt | rfl | hgt
    · rw [if_pos (by omega)]
      rw [List.getElem?_append_left hlt] at he
      exact hentry i e (by rw [List.getElem?_append_left hlt, he])
    · rw [if_neg (by omega), if_pos rfl]
      rw [List.getElem?_append_right (le_refl _), Nat.sub_self] at he
      cases he
      rfl
    · have hi := (List.getElem?_eq_some_iff.mp he).1
      rw [if_neg (by omega), if_neg (by omega), if_pos (by omega)]
      obtain ⟨l, rfl⟩ : ∃ l, i = pre.length + l + 1 := ⟨i - pre.length - 1, by omega⟩
      rw [List.getElem?_append_right (by omega),
        show pre.length + l + 1 - pre.length = l + 1 by omega, List.getElem?_cons_succ] at he
      exact hentry (pre.length + l) e
        (by rw [List.getElem?_append_right (by omega), Nat.add_sub_cancel_left, he])
  · intro i hi
    rw [hat, if_neg (by omega), if_neg (by omega)]
    split
    · exact hrest _ (by omega)
    · exact hrest _ (by omega)

theorem Filled.insertMore {k : Int32} {pre post : List (Int32 × Int32)}
    (h : p.Filled first (pre ++ post)) (hroom : (pre ++ post).length + 1 < p.numSlots)
    (hleft : (childList first (pre ++ post))[pre.length]? = some left)
    (hnodup : (childList first (pre ++ post)).Nodup)
    (hright : right ∉ childList first (pre ++ post))
    (hle : ∀ e ∈ pre, e.1.toInt ≤ k.toInt) (hge : ∀ e ∈ post, k.toInt ≤ e.1.toInt) :
    ∃ q, p.insertMore (.int k) left right = .ok q ∧ SameFrame q p ∧
      q.childCategory = p.childCategory ∧ q.Filled first (pre ++ (k, right) :: post) := by
  have hlen : (pre ++ post).length = pre.length + post.length := List.length_append
  have hmatch := h.matchChild hleft hnodup hright hle hge
  have hsearch := h.search_empty hroom
  have hview := p.makeRoom_put_slot? hroom (show pre.length + 1 ≤ p.numSlots by omega) (by omega)
    (some (.int k)) right
  obtain ⟨hframe, hcat⟩ := p.makeRoom_frame ((pre ++ post).length + 1) (pre.length + 1)
  obtain ⟨hput, hcat'⟩ := (Slots.makeRoom moveEntry p ((pre ++ post).length + 1)
    (pre.length + 1)).put_frame (Slots.roomSlot ((pre ++ post).length + 1) (pre.length + 1))
    (some (.int k)) right
  refine ⟨_, ?_, hput.trans hframe, hcat'.trans hcat, h.of_insertAt ?_ hview⟩
  · rw [BTreeInternalPage.insertMore]
    simp only [hsearch]
    rw [Exec.except_bind (assertThat_ok (by omega)), Exec.except_bind hmatch]
    rfl
  · rw [(hput.trans hframe).numSlots]
    exact hroom

def splitEntry (tableId k left right : Int32) (category : BTreePageType) : BTreeEntry :=
  ⟨some (.int k), some ⟨tableId, left, category⟩, some ⟨tableId, right, category⟩, none⟩

theorem insertEntry_checked {k : Int32} {category : BTreePageType}
    (hint : p.td.getFieldType p.keyField = some .intType)
    (hcat : p.childCategory = .rootPtr ∨ p.childCategory = category) :
    p.insertEntry (splitEntry p.pid.tableId k left right category) =
      ({ p with childCategory := category } : BTreeInternalPage).insertChecked (.int k) left
        right := by
  have hcheck : p.checkCategory ⟨p.pid.tableId, left, category⟩ ⟨p.pid.tableId, right, category⟩ =
      .ok { p with childCategory := category } := by
    unfold checkCategory
    split
    · simp
    · rename_i hne
      have heq := hcat.resolve_left hne
      simp [← heq]
  simp only [insertEntry, splitEntry]
  rw [if_neg (by simp [hint, Field.getType]), Exec.except_bind (assertThat_ok ⟨trivial, trivial⟩),
    Exec.except_bind hcheck]

theorem numEmptySlots_of_unused (h : ∀ i < p.numSlots, p.isSlotUsed i = false) :
    p.getNumEmptySlots = p.getMaxEntries := by
  have hall : (List.range' 1 (p.numSlots - 1)).filter (fun i => !p.isSlotUsed i) =
      List.range' 1 (p.numSlots - 1) := by
    apply List.filter_eq_self.mpr
    intro i hi
    have := List.mem_range'_1.mp hi
    simp [h i (by omega)]
  rw [getNumEmptySlots, hall, List.length_range', getMaxEntries]

/-- The first entry of a page. -/
theorem insertEntry_first {k : Int32} {category : BTreePageType}
    (hint : p.td.getFieldType p.keyField = some .intType)
    (hcat : p.childCategory = .rootPtr ∨ p.childCategory = category) (hslots : 2 ≤ p.numSlots)
    (hempty : ∀ i < p.numSlots, p.isSlotUsed i = false) :
    ∃ q, p.insertEntry (splitEntry p.pid.tableId k left right category) = .ok q ∧ SameFrame q p ∧
      q.childCategory = category ∧ q.Filled left [(k, right)] := by
  let p₁ : BTreeInternalPage := { p with childCategory := category }
  have hnum : p₁.getNumEmptySlots = p₁.getMaxEntries := numEmptySlots_of_unused hempty
  have hrun : p₁.insertChecked (.int k) left right = .ok (p₁.insertFirst (.int k) left right) := by
    rw [insertChecked, if_neg (by simp only [not_lt]; exact hslots), if_pos hnum]
  refine ⟨_, (insertEntry_checked hint hcat).trans hrun, ⟨rfl, rfl, rfl, rfl, rfl⟩, rfl, ?_⟩
  refine ⟨hslots, ?_, ?_, ?_⟩
  · intro i hi
    have hbit : (p₁.insertFirst (.int k) left right).isSlotUsed i =
        Bitmap.get (Bitmap.set (Bitmap.set p.header 0 true) 1 true) i := rfl
    have hfree : Bitmap.get p.header i = false := hempty i hi
    have hlen : 1 / 8 < (Bitmap.set p.header 0 true).length := by
      rw [Bitmap.set_length]
      exact p.slot_in_header hslots
    rw [hbit, Bitmap.get_set hlen, Bitmap.get_set (p.slot_in_header (by omega)), hfree]
    rcases i with _ | _ | i
    · rfl
    · rfl
    · simp
  · have h₀ : 0 < p.children.length := by rw [p.children_length]; omega
    simp [childAt, insertFirst, setChild, setKey, markSlotUsed, p₁, h₀]
  · intro i e he
    have h₁ : 1 < p.children.length := by rw [p.children_length]; omega
    have h₂ : 1 < p.keys.length := by rw [p.keys_length]; omega
    cases i with
    | zero =>
      cases he
      simp [keyAt, childAt, insertFirst, setChild, setKey, markSlotUsed, p₁, h₁, h₂]
    | succ i => simp at he

theorem insertEntry_more {k : Int32} {pre post : List (Int32 × Int32)} {category : BTreePageType}
    (h : p.Filled first (pre ++ post)) (hne : pre ++ post ≠ [])
    (hint : p.td.getFieldType p.keyField = some .intType) (hcat : p.childCategory = category)
    (hroom : (pre ++ post).length + 1 < p.numSlots)
    (hleft : (childList first (pre ++ post))[pre.length]? = some left)
    (hnodup : (childList first (pre ++ post)).Nodup)
    (hright : right ∉ childList first (pre ++ post))
    (hle : ∀ e ∈ pre, e.1.toInt ≤ k.toInt) (hge : ∀ e ∈ post, k.toInt ≤ e.1.toInt) :
    ∃ q, p.insertEntry (splitEntry p.pid.tableId k left right category) = .ok q ∧ SameFrame q p ∧
      q.childCategory = category ∧ q.Filled first (pre ++ (k, right) :: post) := by
  obtain ⟨q, hrun, hframe, hcat', hfilled⟩ := h.insertMore hroom hleft hnodup hright hle hge
  refine ⟨q, ?_, hframe, hcat'.trans hcat, hfilled⟩
  have hsame : ({ p with childCategory := category } : BTreeInternalPage) = p := by rw [← hcat]
  have hpos : 0 < (pre ++ post).length := List.length_pos_iff.mpr hne
  have hempty := h.numEmptySlots
  rw [insertEntry_checked hint (.inr hcat), hsame, insertChecked, if_neg (by omega), if_neg, hrun]
  rw [getMaxEntries, hempty]
  omega

def childId (p : BTreeInternalPage) (c : Int32) : BTreePageId :=
  ⟨p.pid.tableId, c, p.childCategory⟩

theorem Filled.getChildId (h : p.Filled first entries) {i : ℕ} {c : Int32}
    (hc : (childList first entries)[i]? = some c) : p.getChildId i = .ok (some (p.childId c)) := by
  have hslots := h.slots
  have hi : i < (childList first entries).length := (List.getElem?_eq_some_iff.mp hc).1
  simp only [childList, List.length_cons, List.length_map] at hi
  have hu : p.isSlotUsed i = true := by
    rw [h.used i (by omega)]
    exact decide_eq_true (by omega)
  rw [BTreeInternalPage.getChildId, if_pos (by omega), if_pos hu, h.childAt hc]
  rfl

section Iteration

variable {pre post : List (Int32 × Int32)} {e e' : Int32 × Int32}

/-- The iterator at the entry behind `pre`. -/
def entryAt (p : BTreeInternalPage) (i : ℕ) (left right : Int32) : BTreeInternalPageIterator :=
  ⟨i + 1, some (p.childId left), some (p.childId right)⟩

theorem Filled.begin_eq (h : p.Filled first (e :: post)) :
    p.begin = .ok (p.entryAt 0 first e.2) := by
  have hslots := h.slots
  have hlen : (e :: post).length = post.length + 1 := rfl
  have hprev := h.getChildId (i := 0) rfl
  have hcurr := h.getChildId (i := 1) rfl
  rw [BTreeInternalPage.begin, BTreeInternalPageIterator.new, if_neg (by omega), if_pos (by omega)]
  rw [Exec.except_bind hprev]
  simp only [hcurr]
  rfl

theorem Filled.get_eq (h : p.Filled first (pre ++ e :: post)) :
    (p.entryAt pre.length left e.2).get p = .ok ⟨some (.int e.1), some (p.childId left),
      some (p.childId e.2), some ⟨.btree p.pid, pre.length + 1⟩⟩ := by
  have hslots := h.slots
  have hlen : (pre ++ e :: post).length = pre.length + post.length + 1 := by simp; omega
  have hu : p.isSlotUsed (pre.length + 1) = true := by
    rw [h.used _ (by omega)]
    exact decide_eq_true (by omega)
  have hkey : p.getKey (pre.length + 1) = .ok (some (.int e.1)) := by
    rw [getKey, if_pos (by omega), if_pos hu, (h.entry pre.length e (by simp)).1]
  rw [BTreeInternalPageIterator.get, entryAt, Exec.except_bind hkey]
  rfl

theorem Filled.next_last (h : p.Filled first (pre ++ [e])) :
    (p.entryAt pre.length left e.2).next p =
      .ok ⟨p.numSlots, some (p.childId e.2), some (p.childId e.2)⟩ := by
  have hslots := h.slots
  have hlen : (pre ++ [e]).length = pre.length + 1 := by simp
  have hend : Slots.search p.isSlotUsed (p.numSlots - (pre.length + 2)) (pre.length + 2) =
      p.numSlots := by
    by_contra hne
    have hle := Slots.search_le p.isSlotUsed (p.numSlots - (pre.length + 2)) (pre.length + 2)
    have hge := Slots.le_search p.isSlotUsed (p.numSlots - (pre.length + 2)) (pre.length + 2)
    have hstop : p.isSlotUsed (Slots.search p.isSlotUsed (p.numSlots - (pre.length + 2))
        (pre.length + 2)) = true := Slots.search_stop (by omega)
    rw [h.used _ (by omega)] at hstop
    have := of_decide_eq_true hstop
    omega
  rw [BTreeInternalPageIterator.next, entryAt]
  simp only [hend, lt_irrefl, if_false]

theorem Filled.next_eq (h : p.Filled first (pre ++ e :: e' :: post)) :
    (p.entryAt pre.length left e.2).next p = .ok (p.entryAt (pre.length + 1) e.2 e'.2) := by
  have hslots := h.slots
  have hlen : (pre ++ e :: e' :: post).length = pre.length + post.length + 2 := by simp; omega
  have hu : p.isSlotUsed (pre.length + 2) = true := by
    rw [h.used _ (by omega)]
    exact decide_eq_true (by omega)
  have hfound : Slots.search p.isSlotUsed (p.numSlots - (pre.length + 2)) (pre.length + 2) =
      pre.length + 2 := by
    obtain ⟨n, hn⟩ : ∃ n, p.numSlots - (pre.length + 2) = n + 1 :=
      ⟨p.numSlots - (pre.length + 2) - 1, by omega⟩
    rw [hn, Slots.search, if_pos hu]
  have hcurr : p.getChildId (pre.length + 2) = .ok (some (p.childId e'.2)) := by
    apply h.getChildId
    simp [childList]
  rw [BTreeInternalPageIterator.next, entryAt]
  simp only [hfound]
  rw [if_pos (by omega), Exec.except_bind hcurr]
  rfl

/-- The child to search for a key: the one in front of the first entry that is not smaller. -/
def pickChild (v : Int) : Int32 → List (Int32 × Int32) → Int32
  | c, [] => c
  | c, e :: es => if v ≤ e.1.toInt then c else pickChild v e.2 es

theorem pickChild_split (v : Int) (first : Int32) (entries : List (Int32 × Int32)) :
    ∃ pre post, entries = pre ++ post ∧
      (childList first entries)[pre.length]? = some (pickChild v first entries) ∧
      (∀ e ∈ pre, e.1.toInt < v) ∧ ∀ e ∈ post.head?, v ≤ e.1.toInt := by
  induction entries generalizing first with
  | nil => exact ⟨[], [], rfl, rfl, by simp, by simp⟩
  | cons e es ih =>
    rw [pickChild]
    split
    · exact ⟨[], e :: es, rfl, rfl, by simp, by simpa⟩
    · obtain ⟨pre, post, rfl, hc, hpre, hpost⟩ := ih e.2
      refine ⟨e :: pre, post, rfl, ?_, ?_, hpost⟩
      · exact hc
      · intro e' he'
        rcases List.mem_cons.mp he' with rfl | he'
        · omega
        · exact hpre e' he'

theorem Filled.findChild_eq {v : Int32} {n : ℕ} (h : p.Filled first (pre ++ e :: post))
    (hn : post.length < n) :
    BTreeFile.findChild p (some (.int v)) n (p.entryAt pre.length left e.2) =
      .ok (some (p.childId (pickChild v.toInt left (e :: post)))) := by
  have hslots := h.slots
  have hlen : (pre ++ e :: post).length = pre.length + post.length + 1 := by simp; omega
  induction post generalizing pre e left n with
  | nil =>
    obtain ⟨n, rfl⟩ : ∃ m, n = m + 1 := ⟨n - 1, by omega⟩
    rw [BTreeFile.findChild, Exec.except_bind h.get_eq, pickChild]
    by_cases hle : v.toInt ≤ e.1.toInt
    · simp [BTreeFile.compareKey, Field.compare, Field.compareInt, hle, bind, Except.bind, pure,
        Except.pure]
    · simp only [BTreeFile.compareKey, Field.compare, Field.compareInt, decide_eq_false hle, bind,
        Except.bind, if_neg hle, Bool.false_eq_true, if_false]
      rw [h.next_last]
      simp [BTreeInternalPageIterator.ne, BTreeInternalPage.ending, pickChild, pure, Except.pure]
  | cons e' post ih =>
    obtain ⟨n, rfl⟩ : ∃ m, n = m + 1 := ⟨n - 1, by omega⟩
    have hcons : pre ++ e :: e' :: post = (pre ++ [e]) ++ e' :: post := by simp
    rw [BTreeFile.findChild, Exec.except_bind h.get_eq, pickChild]
    by_cases hle : v.toInt ≤ e.1.toInt
    · simp [BTreeFile.compareKey, Field.compare, Field.compareInt, hle, bind, Except.bind, pure,
        Except.pure]
    · have hfilled : p.Filled first ((pre ++ [e]) ++ e' :: post) := hcons ▸ h
      have hrest := @ih e.2 (pre ++ [e]) e' n hfilled (by simpa using hn) (by rwa [← hcons])
        (by simp; omega)
      rw [List.length_append, List.length_singleton] at hrest
      simp only [BTreeFile.compareKey, Field.compare, Field.compareInt, decide_eq_false hle, bind,
        Except.bind, if_neg hle, Bool.false_eq_true, if_false]
      rw [h.next_eq]
      have hmore : (p.entryAt (pre.length + 1) e.2 e'.2).ne p.ending = true := by
        rw [List.length_cons] at hlen
        exact decide_eq_true (show pre.length + 1 + 1 ≠ p.numSlots by omega)
      simp only [hmore, if_true]
      exact hrest

theorem Filled.chooseChild_eq {v : Int32} (h : p.Filled first entries) (hne : entries ≠ []) :
    BTreeFile.chooseChild p (some (.int v)) =
      .ok (some (p.childId (pickChild v.toInt first entries))) := by
  obtain ⟨e, post, rfl⟩ := List.exists_cons_of_ne_nil hne
  have hslots := h.slots
  have hlen : (e :: post).length = post.length + 1 := rfl
  rw [BTreeFile.chooseChild, Exec.except_bind h.begin_eq, if_pos]
  · have hfilled : p.Filled first ([] ++ e :: post) := h
    exact hfilled.findChild_eq (by omega)
  · simp [BTreeInternalPageIterator.ne, BTreeInternalPage.ending, entryAt]
    omega

theorem Filled.chooseChild_none (h : p.Filled first entries) (hne : entries ≠ []) :
    BTreeFile.chooseChild p none = .ok (some (p.childId first)) := by
  obtain ⟨e, post, rfl⟩ := List.exists_cons_of_ne_nil hne
  have hslots := h.slots
  have hlen : (e :: post).length = post.length + 1 := rfl
  obtain ⟨n, hn⟩ : ∃ n, p.numSlots = n + 1 := ⟨p.numSlots - 1, by omega⟩
  have hmore : (p.entryAt 0 first e.2).ne p.ending = true :=
    decide_eq_true (show 1 ≠ p.numSlots by omega)
  have hfilled : p.Filled first ([] ++ e :: post) := h
  have hget : (p.entryAt 0 first e.2).get p = _ := hfilled.get_eq
  rw [BTreeFile.chooseChild, Exec.except_bind h.begin_eq, if_pos hmore, hn, BTreeFile.findChild,
    Exec.except_bind hget]
  rfl

end Iteration

end BTreeInternalPage

end PagedDb
