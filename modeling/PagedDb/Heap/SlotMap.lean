import PagedDb.Heap.PageFetch

/-!
# A heap page is a finite map from slots to tuples

The two calls that change a page are run here statement by statement on its
arrays and on the caller's tuple, so that what a throwing call has done until
then can be seen. The map of a page is `tuple?`; an insertion extends it at the
lowest free slot, a deletion takes one slot out of it.
-/

namespace PagedDb

open Exec

/-- The arrays of a page and the tuple object of the caller. -/
structure PageCells where
  header : List UInt8
  tuples : List Tuple
  t : Tuple

abbrev CellM (α : Type) := EStateM Fault PageCells α

namespace HeapPage

def cells (p : HeapPage) (t : Tuple) : PageCells := ⟨p.header, p.tuples, t⟩

def markSlotUsed (i : ℕ) (value : Bool) : CellM Unit :=
  modify fun s => { s with header := Bitmap.set s.header i value }

/-- `while (isSlotUsed(slotIndex)) slotIndex++`, at most `fuel` rounds. -/
def firstFree : ℕ → ℕ → CellM ℕ
  | 0, _ => throw .outOfFuel
  | fuel + 1, slotIndex => do
    let s ← get
    if Bitmap.get s.header slotIndex then firstFree fuel (slotIndex + 1) else pure slotIndex

/-- The statements of `insertTuple`. -/
def insertCall (p : HeapPage) : CellM Unit := do
  let s ← get
  if ((List.range p.numSlots).filter fun i => !Bitmap.get s.header i).length = 0 then
    throw (.runtimeError "No space")
  else if p.td ≠ s.t.td then throw (.runtimeError "Wrong tuple description")
  else
    let slotIndex ← firstFree (p.numSlots + 1) 0
    markSlotUsed slotIndex true
    modify fun s => { s with t := s.t.setRecordId (some ⟨.heap p.pid, slotIndex⟩) }
    modify fun s => { s with tuples := s.tuples.set slotIndex s.t }

/-- The statements of `deleteTuple`. -/
def deleteCall (p : HeapPage) : CellM Unit := do
  let s ← get
  match s.t.rid with
  | none => throw .nullDeref
  | some rid =>
    if rid.pid ≠ .heap p.pid then throw (.runtimeError "Wrong page")
    else if Bitmap.get s.header rid.tupleno then markSlotUsed rid.tupleno false
    else throw (.runtimeError "Empty slot")

/-- The slot of the loop in `insertTuple`. -/
structure LowestFree (p : HeapPage) (i : ℕ) : Prop where
  lt : i < p.numSlots
  free : p.isSlotUsed i = false
  below : ∀ j < i, p.isSlotUsed j = true

/-- Two pages differ at one slot at most; every other bit of the header counts, those that
belong to no slot included. -/
structure SameBut (i : ℕ) (p p' : HeapPage) : Prop where
  pid : p'.pid = p.pid
  td : p'.td = p.td
  numSlots : p'.numSlots = p.numSlots
  header_length : p'.header.length = p.header.length
  bits : ∀ j, j ≠ i → Bitmap.get p'.header j = Bitmap.get p.header j
  tuples : ∀ j, j ≠ i → p'.tuples[j]? = p.tuples[j]?

theorem put_sameBut (p : HeapPage) (i : ℕ) (t : Tuple) (htd : t.td = p.td) :
    SameBut i p (p.put i t htd) where
  pid := rfl
  td := rfl
  numSlots := rfl
  header_length := p.put_header_length i t htd
  bits := fun _ hj => Bitmap.get_set_ne (Ne.symm hj)
  tuples := fun _ hj => List.getElem?_set_ne (Ne.symm hj)

theorem free_sameBut (p : HeapPage) (i : ℕ) : SameBut i p (p.free i) where
  pid := rfl
  td := rfl
  numSlots := rfl
  header_length := Bitmap.set_length p.header i false
  bits := fun _ hj => Bitmap.get_set_ne (Ne.symm hj)
  tuples := fun _ _ => rfl

theorem lowestFree_exists {p : HeapPage} (h : ∃ i < p.numSlots, p.isSlotUsed i = false) :
    ∃ i, LowestFree p i := by
  refine ⟨Nat.find h, (Nat.find_spec h).1, (Nat.find_spec h).2, ?_⟩
  intro j hj
  have hnot := Nat.find_min h hj
  have hlt := hj.trans (Nat.find_spec h).1
  simpa [hlt] using hnot

theorem firstFree_run {p : HeapPage} {i : ℕ} (h : LowestFree p i) (t : Tuple) {fuel j : ℕ}
    (hj : j ≤ i) (hfuel : i < j + fuel) : firstFree fuel j (cells p t) = .ok i (cells p t) := by
  induction fuel generalizing j with
  | zero => omega
  | succ fuel ih =>
    rw [firstFree, bind_ok (get_run _)]
    rcases Nat.eq_or_lt_of_le hj with rfl | hlt
    · have hfree : Bitmap.get (cells p t).header j = false := h.free
      simp [hfree]
    · have hused : Bitmap.get (cells p t).header j = true := h.below j hlt
      simp only [hused, if_true]
      exact ih hlt (by omega)

theorem LowestFree.unique {p : HeapPage} {i j : ℕ} (hi : LowestFree p i) (hj : LowestFree p j) :
    i = j := by
  rcases lt_trichotomy i j with hlt | heq | hgt
  · have hused := hj.below i hlt
    rw [hi.free] at hused
    cases hused
  · exact heq
  · have hused := hi.below j hgt
    rw [hj.free] at hused
    cases hused

theorem insertTuple_lowest {p : HeapPage} {t : Tuple} {i : ℕ} (h : LowestFree p i)
    (htd : t.td = p.td) :
    insertTuple p t = .ok (p.put i t htd, t.setRecordId (some ⟨.heap p.pid, i⟩)) := by
  have hroom : 0 < p.getNumEmptySlots := TuplePage.getNumEmptySlots_pos.mpr ⟨i, h.lt, h.free⟩
  obtain ⟨j, hj, hrow, hbelow, hput⟩ := insertTuple_ok hroom htd
  have hfree : p.isSlotUsed j = false := by
    rw [← p.row?_isSome hj, hrow]
    rfl
  rw [h.unique ⟨hj, hfree, hbelow⟩]
  exact hput

theorem insertCall_ok {p : HeapPage} {t : Tuple} {i : ℕ} (h : LowestFree p i) (htd : t.td = p.td) :
    insertCall p (cells p t) =
      .ok () (cells (p.put i t htd) (t.setRecordId (some ⟨.heap p.pid, i⟩))) := by
  have hroom : 0 < p.getNumEmptySlots := TuplePage.getNumEmptySlots_pos.mpr ⟨i, h.lt, h.free⟩
  have hcount : ((List.range p.numSlots).filter fun i =>
      !Bitmap.get (cells p t).header i).length ≠ 0 := Nat.ne_of_gt hroom
  have hsame : ¬ p.td ≠ (cells p t).t.td := not_not.mpr htd.symm
  rw [insertCall, bind_ok (get_run _), if_neg hcount, if_neg hsame,
    bind_ok (firstFree_run h t (Nat.zero_le i) (by have := h.lt; omega))]
  rfl

/-- Without room, or with another schema, the call throws before it touches anything. -/
theorem insertCall_error {p : HeapPage} {t : Tuple}
    (h : ¬ ((∃ i < p.numSlots, p.isSlotUsed i = false) ∧ t.td = p.td)) :
    ∃ e, insertTuple p t = .error e ∧ insertCall p (cells p t) = .error e (cells p t) := by
  rw [insertCall, bind_ok (get_run _), insertTuple]
  by_cases hfull : p.getNumEmptySlots = 0
  · have hcount : ((List.range p.numSlots).filter fun i =>
        !Bitmap.get (cells p t).header i).length = 0 := hfull
    exact ⟨_, if_pos hfull, by rw [if_pos hcount]; rfl⟩
  · have hcount : ((List.range p.numSlots).filter fun i =>
        !Bitmap.get (cells p t).header i).length ≠ 0 := hfull
    have hroom : 0 < p.getNumEmptySlots := Nat.pos_of_ne_zero hfull
    have htd : t.td ≠ p.td := fun htd => h ⟨TuplePage.getNumEmptySlots_pos.mp hroom, htd⟩
    have htd' : p.td ≠ (cells p t).t.td := htd.symm
    refine ⟨.runtimeError "Wrong tuple description", ?_, ?_⟩
    · rw [if_neg hfull, dif_neg htd]
    · rw [if_neg hcount, if_pos htd']
      rfl

theorem insertCall_insertTuple (p : HeapPage) (t : Tuple) :
    (∀ out, insertTuple p t = .ok out → insertCall p (cells p t) = .ok () (cells out.1 out.2)) ∧
      ∀ e, insertTuple p t = .error e → insertCall p (cells p t) = .error e (cells p t) := by
  by_cases h : (∃ i < p.numSlots, p.isSlotUsed i = false) ∧ t.td = p.td
  · obtain ⟨i, hi⟩ := lowestFree_exists h.1
    rw [insertTuple_lowest hi h.2, insertCall_ok hi h.2]
    exact ⟨fun out hout => (by cases hout; rfl), fun e he => by cases he⟩
  · obtain ⟨e, herror, hcall⟩ := insertCall_error h
    rw [herror, hcall]
    exact ⟨fun out hout => (by cases hout), fun e' he => by cases he; rfl⟩

theorem deleteCall_deleteTuple (p : HeapPage) (t : Tuple) :
    (∀ p', deleteTuple p t = .ok p' → deleteCall p (cells p t) = .ok () (cells p' t)) ∧
      ∀ e, deleteTuple p t = .error e → deleteCall p (cells p t) = .error e (cells p t) := by
  rw [deleteCall, bind_ok (get_run _), deleteTuple]
  simp only [show (cells p t).t = t from rfl]
  cases t.rid with
  | none => exact ⟨fun p' h => (by cases h), fun e h => by cases h; rfl⟩
  | some rid =>
    simp only
    split
    · exact ⟨fun p' h => (by cases h), fun e h => by cases h; rfl⟩
    · cases hu : p.isSlotUsed rid.tupleno with
      | false =>
        have hbit : Bitmap.get (cells p t).header rid.tupleno = false := hu
        simp only [hbit]
        exact ⟨fun p' h => (by cases h), fun e h => by cases h; rfl⟩
      | true =>
        have hbit : Bitmap.get (cells p t).header rid.tupleno = true := hu
        simp only [hbit, if_true]
        exact ⟨fun p' h => (by cases h; rfl), fun e h => by cases h⟩

/-- `insertTuple` as an operation of the map: the call succeeds if there is a free slot and the
schema is right, and extends the map at the lowest free slot. -/
structure InsertRefines (p : HeapPage) (t : Tuple) : Prop where
  succeeds : (∃ s, insertCall p (cells p t) = .ok () s) ↔
    (∃ i < p.numSlots, p.isSlotUsed i = false) ∧ t.td = p.td
  stores : ∀ s, insertCall p (cells p t) = .ok () s → ∃ (p' : HeapPage) (i : ℕ),
    s = cells p' (t.setRecordId (some ⟨.heap p.pid, i⟩)) ∧ LowestFree p i ∧ SameBut i p p' ∧
    p'.isSlotUsed i = true ∧
    p'.tuple? = Function.update p.tuple? i (some (t.setRecordId (some ⟨.heap p.pid, i⟩)))
  fails : ∀ e s, insertCall p (cells p t) = .error e s → s = cells p t

/-- `deleteTuple` as an operation of the map: for a tuple stored under a slot, the call succeeds
if the page is right and the slot used, and takes the slot out of the map. -/
structure DeleteRefines (p : HeapPage) (t : Tuple) : Prop where
  succeeds : ∀ rid, t.rid = some rid → rid.tupleno < p.numSlots →
    ((∃ s, deleteCall p (cells p t) = .ok () s) ↔
      rid.pid = .heap p.pid ∧ p.isSlotUsed rid.tupleno = true)
  frees : ∀ rid s, t.rid = some rid → rid.tupleno < p.numSlots →
    deleteCall p (cells p t) = .ok () s → ∃ p' : HeapPage, s = cells p' t ∧
      SameBut rid.tupleno p p' ∧ p'.isSlotUsed rid.tupleno = false ∧
      p'.tuple? = Function.update p.tuple? rid.tupleno none
  fails : ∀ e s, deleteCall p (cells p t) = .error e s → s = cells p t

theorem insertRefines (p : HeapPage) (t : Tuple) : InsertRefines p t := by
  by_cases h : (∃ i < p.numSlots, p.isSlotUsed i = false) ∧ t.td = p.td
  · obtain ⟨i, hi⟩ := lowestFree_exists h.1
    have hcall := insertCall_ok hi h.2
    refine ⟨⟨fun _ => h, fun _ => ⟨_, hcall⟩⟩, ?_, ?_⟩
    · intro s hs
      rw [hcall] at hs
      cases hs
      exact ⟨_, i, rfl, hi, put_sameBut p i t h.2, by simp [p.put_isSlotUsed t h.2 hi.lt],
        p.put_tuple? t h.2 hi.lt⟩
    · intro e s hs
      rw [hcall] at hs
      cases hs
  · obtain ⟨e, -, hcall⟩ := insertCall_error h
    refine ⟨⟨?_, fun h' => absurd h' h⟩, ?_, ?_⟩
    · rintro ⟨s, hs⟩
      rw [hcall] at hs
      cases hs
    · intro s hs
      rw [hcall] at hs
      cases hs
    · intro e' s hs
      rw [hcall] at hs
      cases hs
      rfl

theorem deleteTuple_ok_iff {p p' : HeapPage} {t : Tuple} : deleteTuple p t = .ok p' ↔
    ∃ rid, t.rid = some rid ∧ rid.pid = .heap p.pid ∧ p.isSlotUsed rid.tupleno = true ∧
      p' = p.free rid.tupleno := by
  constructor
  · intro h
    unfold deleteTuple at h
    split at h
    · cases h
    · rename_i rid hrid
      split at h
      · cases h
      · rename_i hpid
        split at h
        · rename_i hused
          cases h
          exact ⟨rid, hrid, not_not.mp hpid, hused, rfl⟩
        · cases h
  · rintro ⟨rid, hrid, hpid, hused, rfl⟩
    simp [deleteTuple, hrid, hpid, hused]

theorem deleteRefines (p : HeapPage) (t : Tuple) : DeleteRefines p t := by
  obtain ⟨hok, herror⟩ := deleteCall_deleteTuple p t
  cases hrun : deleteTuple p t with
  | ok p' =>
    obtain ⟨rid', hrid', hpid, hused, rfl⟩ := deleteTuple_ok_iff.mp hrun
    have hcall := hok _ hrun
    refine ⟨?_, ?_, ?_⟩
    · intro rid hrid hlt
      rw [hrid', Option.some.injEq] at hrid
      subst hrid
      exact ⟨fun _ => ⟨hpid, hused⟩, fun _ => ⟨_, hcall⟩⟩
    · intro rid s hrid hlt hs
      rw [hrid', Option.some.injEq] at hrid
      subst hrid
      rw [hcall] at hs
      cases hs
      exact ⟨_, rfl, free_sameBut p _, by simp [p.free_isSlotUsed hlt], p.free_tuple? hlt⟩
    · intro e s hs
      rw [hcall] at hs
      cases hs
  | error e =>
    have hcall := herror e hrun
    refine ⟨?_, ?_, ?_⟩
    · intro rid hrid hlt
      constructor
      · rintro ⟨s, hs⟩
        rw [hcall] at hs
        cases hs
      · rintro ⟨hpid, hused⟩
        have hsucc := deleteTuple_ok_iff.mpr ⟨rid, hrid, hpid, hused, rfl⟩
        rw [hrun] at hsucc
        cases hsucc
    · intro rid s hrid hlt hs
      rw [hcall] at hs
      cases hs
    · intro e' s hs
      rw [hcall] at hs
      cases hs
      rfl

end HeapPage

namespace HeapPageIterator

/-- `for (auto it = page.begin(); it != page.end(); ++it)`, at most `fuel` rounds: the tuples that
`*it` gives. -/
def visit (last : HeapPageIterator) : ℕ → HeapPageIterator → HeapM (List Tuple)
  | 0, _ => throw .outOfFuel
  | fuel + 1, it =>
    if it = last then pure []
    else do
      let t ← it.get
      let it ← it.next
      let rest ← visit last fuel it
      pure (t :: rest)

/-- The whole loop, with `begin()` and `end()`. -/
def visited (page : Ref) : HeapM (List Tuple) := do
  let obj ← deref page
  let first ← new 0 page
  let last ← new obj.page.numSlots page
  visit last (obj.page.numSlots + 1) first

variable {db : HeapDb} {ref : Ref} {obj : PageObject HeapPage}

/-- From a used slot on, or from the end, the loop visits the tuples of the rest of the page. -/
theorem visit_run (hobj : db.objects[ref]? = some obj) {fuel s : ℕ} (hs : s ≤ obj.page.numSlots)
    (hused : s < obj.page.numSlots → obj.page.isSlotUsed s = true)
    (hfuel : obj.page.numSlots < s + fuel) :
    visit ⟨obj.page.numSlots, ref⟩ fuel ⟨s, ref⟩ db =
      .ok (Slots.segment obj.page.tuple? s obj.page.numSlots) db := by
  induction fuel generalizing s with
  | zero => omega
  | succ fuel ih =>
    rcases Nat.eq_or_lt_of_le hs with rfl | hlt
    · simp [visit, Slots.segment_of_le]
    · obtain ⟨t, ht, hsegment⟩ := obj.page.segment_used hlt (hused hlt)
      obtain ⟨hge, hle, hused', hskip⟩ := obj.page.search_used (Nat.succ_le_of_lt hlt) rfl
      have hne : (⟨s, ref⟩ : HeapPageIterator) ≠ ⟨obj.page.numSlots, ref⟩ := by
        simp [Nat.ne_of_lt hlt]
      have hget : HeapPageIterator.get ⟨s, ref⟩ db = .ok t db := by
        have htuple : obj.page.tuples[s]? = some t := by
          rwa [TuplePage.tuple?, if_pos (hused hlt)] at ht
        rw [HeapPageIterator.get, bind_ok (deref_run hobj)]
        simp [htuple]
      have hnext : HeapPageIterator.next ⟨s, ref⟩ db =
          .ok ⟨Slots.search obj.page.isSlotUsed (obj.page.numSlots - (s + 1)) (s + 1), ref⟩ db := by
        rw [HeapPageIterator.next, bind_ok (deref_run hobj)]
        rfl
      rw [visit, if_neg hne, bind_ok hget, bind_ok hnext, bind_ok (ih hle hused' (by omega)),
        hsegment, hskip]
      rfl

theorem visited_run (hobj : db.objects[ref]? = some obj) :
    visited ref db = .ok obj.page.storedTuples db := by
  have hnew : ∀ i, new i ref db =
      .ok ⟨Slots.search obj.page.isSlotUsed (obj.page.numSlots - i) i, ref⟩ db := by
    intro i
    rw [new, bind_ok (deref_run hobj)]
    rfl
  have hlast : Slots.search obj.page.isSlotUsed (obj.page.numSlots - obj.page.numSlots)
      obj.page.numSlots = obj.page.numSlots := by
    rw [Nat.sub_self]
    rfl
  obtain ⟨-, hle, hused, hskip⟩ := obj.page.search_used (Nat.zero_le _) rfl
  rw [visited, bind_ok (deref_run hobj), bind_ok (hnew 0), bind_ok (hnew obj.page.numSlots), hlast,
    visit_run hobj hle hused (by omega), TuplePage.storedTuples, hskip]

end HeapPageIterator

namespace HeapPage

/-- The count of a page, and what its iterator visits. -/
structure CountRefines (p : HeapPage) : Prop where
  empty : p.getNumEmptySlots = p.numSlots - ((List.range p.numSlots).filter p.isSlotUsed).length
  visited : ∀ (db : HeapDb) (ref : Ref) (dirty : Option TransactionId),
    db.objects[ref]? = some ⟨p, dirty⟩ →
      HeapPageIterator.visited ref db = .ok p.storedTuples db ∧
      p.getNumEmptySlots = p.numSlots - p.storedTuples.length

theorem countRefines (p : HeapPage) : CountRefines p := by
  have hcount := p.rows_length_add_empty
  have hrows := p.rows_length
  have hstored : p.storedTuples.length = p.rows.length := by
    rw [← p.storedTuples_fields, List.length_map]
  have hempty : p.getNumEmptySlots =
      p.numSlots - ((List.range p.numSlots).filter p.isSlotUsed).length := by
    omega
  have hleft : p.getNumEmptySlots = p.numSlots - p.storedTuples.length := by
    omega
  refine ⟨hempty, ?_⟩
  intro db ref dirty hobj
  have hvisited := HeapPageIterator.visited_run hobj
  exact ⟨hvisited, hleft⟩

/-- A heap page is a finite map from slots to tuples, for every bitmap in its header. -/
theorem refines_map (p : HeapPage) :
    (∀ t, InsertRefines p t ∧ DeleteRefines p t) ∧ CountRefines p :=
  ⟨fun t => ⟨insertRefines p t, deleteRefines p t⟩, countRefines p⟩

end HeapPage

end PagedDb
