import PagedDb.BTree.LeafPage
import PagedDb.Foundation.Exec

/-!
# What the operations of a leaf page do

The rows of a leaf are a sequence in key order. An insertion puts its row behind
the last one whose key is not greater, a deletion takes out the row of its slot,
and the reverse iterator starts at the last row.
-/

namespace PagedDb

/-- The key of a row with an integer in column `k`. -/
def intKey (k : ℕ) (row : Row) : Int :=
  match row[k]? with
  | some (.int v) => v.toInt
  | _ => 0

def KeyOrdered (k : ℕ) (rows : List Row) : Prop :=
  rows.Pairwise fun a b => intKey k a ≤ intKey k b

def insertRow (k : ℕ) (row : Row) (rows : List Row) : List Row :=
  rows.orderedInsert (fun a b => intKey k a < intKey k b) row

theorem insertRow_perm (k : ℕ) (row : Row) (rows : List Row) :
    (insertRow k row rows).Perm (row :: rows) := List.perm_orderedInsert _ _ _

theorem insertRow_eq (k : ℕ) (row : Row) (rows : List Row) :
    insertRow k row rows = rows.takeWhile (fun r => decide (intKey k r ≤ intKey k row)) ++
      row :: rows.dropWhile (fun r => decide (intKey k r ≤ intKey k row)) := by
  rw [insertRow, List.orderedInsert_eq_take_drop]
  simp only [not_lt]

theorem KeyOrdered.insertRow {k : ℕ} {rows : List Row} (h : KeyOrdered k rows) (row : Row) :
    KeyOrdered k (insertRow k row rows) := by
  induction rows with
  | nil => simp [PagedDb.insertRow, KeyOrdered]
  | cons r rows ih =>
    obtain ⟨hfirst, hrest⟩ := List.pairwise_cons.mp h
    rw [PagedDb.insertRow, List.orderedInsert_cons]
    split
    · rename_i hlt
      apply List.pairwise_cons.mpr ⟨?_, h⟩
      intro r' hr'
      rcases List.mem_cons.mp hr' with rfl | hr'
      · exact hlt.le
      · exact hlt.le.trans (hfirst r' hr')
    · rename_i hle
      apply List.pairwise_cons.mpr ⟨?_, ih hrest⟩
      intro r' hr'
      rcases (List.mem_orderedInsert _).mp hr' with rfl | hr'
      · exact not_lt.mp hle
      · exact hfirst r' hr'

def insertRows (k : ℕ) (moved rows : List Row) : List Row := moved.foldr (insertRow k) rows

theorem insertRows_perm (k : ℕ) (moved rows : List Row) :
    (insertRows k moved rows).Perm (moved ++ rows) := by
  induction moved with
  | nil => exact .refl _
  | cons row moved ih => exact (insertRow_perm k row _).trans (ih.cons row)

theorem KeyOrdered.insertRows {k : ℕ} {rows : List Row} (h : KeyOrdered k rows)
    (moved : List Row) : KeyOrdered k (PagedDb.insertRows k moved rows) := by
  induction moved with
  | nil => exact h
  | cons row moved ih => exact ih.insertRow row

namespace BTreeLeafPage

def IntKeyed (p : BTreeLeafPage) : Prop := p.td.getFieldType p.keyField = some .intType

/-- Pages that differ in their rows only. -/
structure SameFrame (q p : BTreeLeafPage) : Prop where
  pid : q.pid = p.pid
  td : q.td = p.td
  numSlots : q.numSlots = p.numSlots
  keyField : q.keyField = p.keyField
  parent : q.parent = p.parent
  leftSibling : q.leftSibling = p.leftSibling
  rightSibling : q.rightSibling = p.rightSibling

theorem SameFrame.trans {p q r : BTreeLeafPage} (h : SameFrame r q) (h' : SameFrame q p) :
    SameFrame r p :=
  ⟨h.pid.trans h'.pid, h.td.trans h'.td, h.numSlots.trans h'.numSlots,
    h.keyField.trans h'.keyField, h.parent.trans h'.parent, h.leftSibling.trans h'.leftSibling,
    h.rightSibling.trans h'.rightSibling⟩

variable {p q : BTreeLeafPage} {t : Tuple} {i : ℕ}

theorem getField_int (htd : t.td = p.td) (hint : p.IntKeyed) :
    ∃ v, t.getField p.keyField = .ok (.int v) ∧ v.toInt = intKey p.keyField t.fields := by
  have htype : (t.fields.map Field.getType)[p.keyField]? = some .intType := by
    rw [t.typed, htd]
    exact hint
  obtain ⟨f, hf, hft⟩ := (List.getElem?_map ..).symm.trans htype |> Option.map_eq_some_iff.mp
  obtain ⟨v, rfl⟩ := Field.exists_int hft
  exact ⟨v, by rw [Tuple.getField, hf], by rw [intKey, hf]⟩

theorem row?_eq_none (hi : i < p.numSlots) : p.row? i = none ↔ p.isSlotUsed i = false := by
  rw [← p.row?_isSome hi]
  simp

theorem moveRecord_row? {src dst : ℕ} (hsrc : src < p.numSlots) (hdst : dst < p.numSlots) :
    (p.moveRecord src dst).row? = Slots.move p.row? src dst := by
  unfold moveRecord Slots.move
  by_cases hd : p.isSlotUsed dst = true
  · have hused : p.row? dst ≠ none := by simp [row?_eq_none hdst, hd]
    rw [if_pos hd, if_neg hused]
  · have hempty : p.row? dst = none := by simpa [row?_eq_none hdst] using hd
    rw [if_neg hd, if_pos hempty]
    split
    · rename_i hnone
      have hsrc' : p.row? src = none := by rw [p.row?_eq_map, hnone, Option.map_none]
      rw [hsrc', ← hempty, Function.update_eq_self, hempty, ← hsrc', Function.update_eq_self]
    · rename_i t ht
      have hsrc' : p.row? src = some t.fields := by rw [p.row?_eq_map, ht, Option.map_some]
      rw [hsrc']
      have hsrc'' : src < (p.put dst t (p.of_tuple? ht).1).numSlots := hsrc
      change (((p.put dst t (p.of_tuple? ht).1).free src).row?) = _
      rw [TuplePage.free_row? _ hsrc'', TuplePage.put_row? _ _ _ hdst]

theorem moveRecord_frame (src dst : ℕ) : SameFrame (p.moveRecord src dst) p := by
  unfold moveRecord
  split
  · exact ⟨rfl, rfl, rfl, rfl, rfl, rfl, rfl⟩
  · split
    · exact ⟨rfl, rfl, rfl, rfl, rfl, rfl, rfl⟩
    · exact ⟨rfl, rfl, rfl, rfl, rfl, rfl, rfl⟩

theorem makeRoom_frame (p : BTreeLeafPage) (e pos : ℕ) :
    SameFrame (Slots.makeRoom moveRecord p e pos) p := by
  have hkeeps : ∀ {τ : Type} (part : BTreeLeafPage → τ),
      (∀ p a b, part (moveRecord p a b) = part p) →
      part (Slots.makeRoom moveRecord p e pos) = part p :=
    fun part h => @Slots.makeRoom_keeps _ moveRecord _ part h p e pos
  exact ⟨hkeeps (·.pid) fun p a b => (p.moveRecord_frame a b).pid,
    hkeeps (·.td) fun p a b => (p.moveRecord_frame a b).td,
    hkeeps (·.numSlots) fun p a b => (p.moveRecord_frame a b).numSlots,
    hkeeps (·.keyField) fun p a b => (p.moveRecord_frame a b).keyField,
    hkeeps (·.parent) fun p a b => (p.moveRecord_frame a b).parent,
    hkeeps (·.leftSibling) fun p a b => (p.moveRecord_frame a b).leftSibling,
    hkeeps (·.rightSibling) fun p a b => (p.moveRecord_frame a b).rightSibling⟩

theorem put_frame (p : BTreeLeafPage) (i : ℕ) (t : Tuple) (htd : t.td = p.td) :
    SameFrame (p.setSlots (p.put i t htd)) p := ⟨rfl, rfl, rfl, rfl, rfl, rfl, rfl⟩

theorem free_frame (p : BTreeLeafPage) (i : ℕ) : SameFrame (p.setSlots (p.free i)) p :=
  ⟨rfl, rfl, rfl, rfl, rfl, rfl, rfl⟩

theorem lessOrEqPos_eq (hint : p.IntKeyed) (v : Int32) (n i pos : ℕ) :
    p.lessOrEqPos (.int v) n i pos =
      .ok (Slots.scanPos p.row? (fun r => decide (intKey p.keyField r ≤ v.toInt)) n i pos) := by
  induction n generalizing i pos with
  | zero => rfl
  | succ n ih =>
    rw [lessOrEqPos, Slots.scanPos, p.row?_eq_map]
    cases ht : p.tuple? i with
    | none => exact ih (i + 1) pos
    | some t =>
      obtain ⟨w, hw, hkey⟩ := getField_int (p.of_tuple? ht).1 hint
      by_cases hle : w.toInt ≤ v.toInt
      · simpa [hw, ← hkey, hle, Field.compare, Field.compareInt, bind, Except.bind] using
          ih (i + 1) (i + 1)
      · simp [hw, ← hkey, hle, Field.compare, Field.compareInt, bind, Except.bind, pure,
          Except.pure]

/-- Carrying the empty slot `e` to the position and storing the tuple there. -/
theorem makeRoom_put {e pos : ℕ} (he : e < p.numSlots) (hpos : pos ≤ p.numSlots)
    (hne : e + 1 ≠ pos) (htd : t.td = (Slots.makeRoom moveRecord p e pos).td) :
    ((Slots.makeRoom moveRecord p e pos).put (Slots.roomSlot e pos) t htd).row? =
        Slots.insertAt p.row? e pos t.fields ∧
      ((Slots.makeRoom moveRecord p e pos).put (Slots.roomSlot e pos) t htd).row?
        (Slots.roomSlot e pos) = some t.fields := by
  have hslot : Slots.roomSlot e pos < (Slots.makeRoom moveRecord p e pos).numSlots := by
    rw [(makeRoom_frame p e pos).numSlots, Slots.roomSlot]
    split
    · omega
    · omega
  have hput := TuplePage.put_row? (Slots.makeRoom moveRecord p e pos).toTuplePage t htd hslot
  constructor
  · have hsize : ∀ (q : BTreeLeafPage) a b, (q.moveRecord a b).numSlots = q.numSlots :=
      fun q a b => (q.moveRecord_frame a b).numSlots
    have hmove : ∀ (q : BTreeLeafPage) a b, a < q.numSlots → b < q.numSlots →
        (q.moveRecord a b).row? = Slots.move q.row? a b := fun q a b ha hb => moveRecord_row? ha hb
    rw [hput]
    exact @Slots.view_makeRoom _ _ moveRecord (fun q => q.row?) (fun q => q.numSlots) hsize hmove p
      e pos t.fields he hpos hne
  · rw [hput, Function.update_self]

theorem scan_spec (p : BTreeLeafPage) (before : Row → Bool) {e : ℕ} (hempty : p.row? e = none) :
    ∃ pos, Slots.scanPos p.row? before p.numSlots 0 0 = pos ∧ pos ≤ p.numSlots ∧ e + 1 ≠ pos ∧
      Slots.segment p.row? 0 pos = p.rows.takeWhile before ∧
      Slots.segment p.row? pos p.numSlots = p.rows.dropWhile before := by
  obtain ⟨-, hle, hleft, hright⟩ := @Slots.scanPos_split _ p.row? before p.numSlots 0 0 (le_refl 0)
    fun j h₁ h₂ => absurd h₂ (by omega)
  rw [Nat.zero_add] at hle hleft hright
  refine ⟨_, rfl, by simpa using hle, ?_, hleft, hright⟩
  intro heq
  have hused := @Slots.scanPos_used _ p.row? before p.numSlots 0 0 (by simp) (by omega)
  rw [← heq, Nat.add_sub_cancel, hempty] at hused
  cases hused

/-- Insertion into a page with room, for a scan that stops at the first row not `before`. -/
theorem insertTuple_scan {key : Field} {before : Row → Bool} (htd : t.td = p.td)
    (hroom : 0 < p.getNumEmptySlots) (hget : t.getField p.keyField = .ok key)
    (hscan : p.lessOrEqPos key p.numSlots 0 0 =
      .ok (Slots.scanPos p.row? before p.numSlots 0 0)) :
    ∃ q slot, p.insertTuple t = .ok (q, t.setRecordId (some ⟨.btree p.pid, slot⟩)) ∧
      SameFrame q p ∧ q.rows = p.rows.takeWhile before ++ t.fields :: p.rows.dropWhile before ∧
      q.row? slot = some t.fields := by
  obtain ⟨i, hi, hunused⟩ := TuplePage.getNumEmptySlots_pos.mp hroom
  have hsearch : Slots.search (fun i => !p.isSlotUsed i) p.numSlots 0 < 0 + p.numSlots :=
    Slots.search_lt (Nat.zero_le i) (by omega) (by simp [hunused])
  have hstop := Slots.search_stop hsearch
  generalize he : Slots.search (fun i => !p.isSlotUsed i) p.numSlots 0 = e at hsearch hstop
  rw [Nat.zero_add] at hsearch
  have hempty : p.row? e = none := by
    rw [row?_eq_none hsearch]
    simpa using hstop
  obtain ⟨pos, hpos', hpos, hne, hleft, hright⟩ := p.scan_spec before hempty
  have hframe := makeRoom_frame p e pos
  have htd' := htd.trans hframe.td.symm
  obtain ⟨hview, hself⟩ := makeRoom_put hsearch hpos hne htd'
  refine ⟨_, Slots.roomSlot e pos, ?_, (put_frame _ _ t htd').trans hframe, ?_, hself⟩
  · rw [insertTuple, dif_pos htd]
    simp only [he]
    rw [Exec.except_bind (assertThat_ok (show e ≠ p.numSlots by omega)), Exec.except_bind hget,
      Exec.except_bind hscan, hpos']
    rfl
  · change Slots.segment ((Slots.makeRoom moveRecord p e pos).put _ t htd').row? 0
      (Slots.makeRoom moveRecord p e pos).numSlots = _
    rw [hframe.numSlots, hview, Slots.segment_insertAt hempty hsearch hpos, hleft, hright]

/-- Insertion into a page with room: the row goes to its place in the sequence, and the caller's
tuple names the slot it is in. -/
theorem insertTuple_spec (htd : t.td = p.td) (hint : p.IntKeyed) (hroom : 0 < p.getNumEmptySlots) :
    ∃ q slot, p.insertTuple t = .ok (q, t.setRecordId (some ⟨.btree p.pid, slot⟩)) ∧
      SameFrame q p ∧ q.rows = insertRow p.keyField t.fields p.rows ∧
      q.row? slot = some t.fields := by
  obtain ⟨v, hget, hkey⟩ := getField_int htd hint
  rw [insertRow_eq, ← hkey]
  exact insertTuple_scan htd hroom hget (lessOrEqPos_eq hint v p.numSlots 0 0)

theorem deleteTuple_spec {row : Row} (hrid : t.rid = some ⟨.btree p.pid, i⟩)
    (hrow : p.row? i = some row) (hi : i < p.numSlots) :
    ∃ q, p.deleteTuple t = .ok (q, t.setRecordId none) ∧ SameFrame q p ∧
      q.row? = Function.update p.row? i none ∧
      p.rows = Slots.segment p.row? 0 i ++ row :: Slots.segment p.row? (i + 1) p.numSlots ∧
      q.rows = Slots.segment p.row? 0 i ++ Slots.segment p.row? (i + 1) p.numSlots := by
  have hused : p.isSlotUsed i = true := by
    rw [← p.row?_isSome hi, hrow]
    rfl
  have hfree := TuplePage.free_row? p.toTuplePage hi
  refine ⟨_, ?_, free_frame p i, hfree, Slots.segment_at hi hrow, ?_⟩
  · rw [deleteTuple, hrid]
    simp [PageId.pageNumber, PageId.getTableId, hused]
  · change Slots.segment (p.free i).row? 0 p.numSlots = _
    rw [hfree, Slots.segment_update_none hi]

/-- The reverse iterator of a page with rows is at the last one; once that is deleted, the next
position is the reverse iterator of the page that is left. -/
theorem rbegin_spec {rows : List Row} {row : Row} (hrows : p.rows = rows ++ [row]) :
    ∃ t q, p.rbegin.get p = .ok t ∧ t.td = p.td ∧ t.fields = row ∧
      p.deleteTuple t = .ok (q, t.setRecordId none) ∧ SameFrame q p ∧ q.rows = rows ∧
      p.rbegin.next q = q.rbegin := by
  obtain ⟨hnone, hall⟩ | ⟨j, hj, hsearch, hused, hall⟩ :=
    Slots.searchDown_cases p.isSlotUsed p.numSlots
  · have hnil : p.rows = [] := by
      apply Slots.segment_eq_nil
      intro i _ hi
      rw [row?_eq_none hi]
      exact hall i hi
    rw [hnil] at hrows
    simp at hrows
  · have hrbegin : p.rbegin = ⟨j, true⟩ := by rw [rbegin, hsearch]
    obtain ⟨t, ht, htd, hrid, hrow⟩ := p.tuple_of_used hj hused
    obtain ⟨q, hdelete, hframe, hview, hp, hq⟩ := deleteTuple_spec hrid hrow hj
    have htail : Slots.segment p.row? (j + 1) p.numSlots = [] := by
      apply Slots.segment_eq_nil
      intro i h₁ h₂
      rw [row?_eq_none h₂]
      exact hall i (by omega) h₂
    rw [htail, hrows] at hp
    obtain ⟨hinit, hlast⟩ := List.append_inj' hp rfl
    refine ⟨t, q, ?_, htd, ?_, hdelete, hframe, ?_, ?_⟩
    · rw [hrbegin, BTreeLeafPageIterator.get, if_neg (by simp)]
      have htuple : p.tuple? j = some t := by rw [TuplePage.tuple?, if_pos hused, ht]
      simp [getTuple, hj, htuple]
    · simpa using hlast.symm
    · rw [hq, htail, List.append_nil, hinit]
    · have hskip : Slots.searchDown q.isSlotUsed q.numSlots = Slots.searchDown q.isSlotUsed j := by
        apply Slots.searchDown_skip (by rw [hframe.numSlots]; exact hj.le)
        intro i h₁ h₂
        rw [← row?_eq_none h₂, hview]
        rw [hframe.numSlots] at h₂
        rcases Nat.eq_or_lt_of_le h₁ with rfl | hlt
        · exact Function.update_self ..
        · rw [Function.update_of_ne (by omega), row?_eq_none h₂]
          exact hall i hlt h₂
      rw [hrbegin, rbegin, hskip, BTreeLeafPageIterator.next, if_pos rfl]
      cases j with
      | zero => rfl
      | succ j => rw [if_neg (by simp)]; rfl

/-- The iterator of a page with rows is at the first one; once that is deleted, the next position
is the iterator of the page that is left. -/
theorem begin_spec {rows : List Row} {row : Row} (hrows : p.rows = row :: rows) :
    ∃ t q, p.begin.get p = .ok t ∧ t.td = p.td ∧ t.fields = row ∧
      p.deleteTuple t = .ok (q, t.setRecordId none) ∧ SameFrame q p ∧ q.rows = rows ∧
      p.begin.next q = q.begin := by
  generalize hsearch : Slots.search p.isSlotUsed p.numSlots 0 = j
  have hbefore : ∀ i < j, p.isSlotUsed i = false := fun i hi =>
    Slots.search_before (Nat.zero_le i) (hsearch ▸ hi)
  have hle : j ≤ p.numSlots := by simpa [hsearch] using Slots.search_le p.isSlotUsed p.numSlots 0
  have hempty : ∀ i < p.numSlots, i < j → p.row? i = none := fun i h₁ h₂ =>
    (row?_eq_none h₁).mpr (hbefore i h₂)
  have hj : j < p.numSlots := by
    refine hle.lt_of_ne ?_
    rintro rfl
    have hnil : p.rows = [] := Slots.segment_eq_nil fun i _ hi => hempty i hi hi
    rw [hnil] at hrows
    cases hrows
  have hused : p.isSlotUsed j = true := by
    have hstop := @Slots.search_stop p.isSlotUsed p.numSlots 0
    rw [hsearch] at hstop
    exact hstop (by omega)
  have hbegin : p.begin = ⟨j, false⟩ := by rw [begin, hsearch]
  obtain ⟨t, ht, htd, hrid, hrow⟩ := p.tuple_of_used hj hused
  obtain ⟨q, hdelete, hframe, hview, hp, hq⟩ := deleteTuple_spec hrid hrow hj
  have hhead : Slots.segment p.row? 0 j = [] :=
    Slots.segment_eq_nil fun i _ hi => hempty i (hi.trans hj) hi
  rw [hhead, List.nil_append, hrows] at hp
  obtain ⟨hfirst, hrest⟩ := List.cons.inj hp
  refine ⟨t, q, ?_, htd, hfirst.symm, hdelete, hframe, ?_, ?_⟩
  · have htuple : p.tuple? j = some t := by rw [TuplePage.tuple?, if_pos hused, ht]
    rw [hbegin, BTreeLeafPageIterator.get, if_neg (by simp)]
    simp [getTuple, hj, htuple]
  · rw [hq, hhead, List.nil_append, hrest]
  · have hskip : Slots.search q.isSlotUsed q.numSlots 0 =
        Slots.search q.isSlotUsed (q.numSlots - (j + 1)) (j + 1) := by
      rw [Slots.search_skip (Nat.zero_le (j + 1)) (by rw [hframe.numSlots]; omega) ?_, Nat.zero_add]
      intro i _ hi
      rw [← row?_eq_none (by rw [hframe.numSlots]; omega), hview]
      rcases Nat.eq_or_lt_of_le (Nat.le_of_lt_succ hi) with rfl | hlt
      · exact Function.update_self ..
      · rw [Function.update_of_ne (by omega), hempty i (by omega) hlt]
    rw [hbegin, begin, hskip]
    rfl

def start (p : BTreeLeafPage) (forward : Bool) : BTreeLeafPageIterator :=
  if forward then p.begin else p.rbegin

def attach (forward : Bool) (row : Row) (rows : List Row) : List Row :=
  if forward then row :: rows else rows ++ [row]

theorem start_spec {forward : Bool} {rows : List Row} {row : Row}
    (hrows : p.rows = attach forward row rows) :
    ∃ t q, (p.start forward).get p = .ok t ∧ t.td = p.td ∧ t.fields = row ∧
      p.deleteTuple t = .ok (q, t.setRecordId none) ∧ SameFrame q p ∧ q.rows = rows ∧
      (p.start forward).next q = q.start forward := by
  cases forward with
  | false => exact rbegin_spec hrows
  | true => exact begin_spec hrows

end BTreeLeafPage

end PagedDb
