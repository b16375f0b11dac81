import PagedDb.Heap.SlotMap

/-!
# Tuples that were deleted and kept

`HeapPage::deleteTuple` clears the slot but leaves the record id in the tuple of
its caller. A second deletion of the tuple is caught as long as the slot is
empty; when an insertion has taken the slot, it deletes what is there now.
-/

namespace PagedDb

/-- A page and the tuple objects of its clients. `stale` holds the clients whose tuple was deleted
and has not been inserted again. -/
structure PageClients where
  page : HeapPage
  tuples : ℕ → Tuple
  stale : Finset ℕ

/-- The calls of the clients. -/
inductive ClientCall
  | insert (c : ℕ)
  | delete (c : ℕ)

namespace PageClients

open HeapFile

/-- One call; one that throws leaves everything as it is. -/
def call (s : PageClients) : ClientCall → PageClients
  | .insert c =>
    match s.page.insertTuple (s.tuples c) with
    | .ok (page, t) => ⟨page, Function.update s.tuples c t, s.stale.erase c⟩
    | .error _ => s
  | .delete c =>
    match s.page.deleteTuple (s.tuples c) with
    | .ok page => { s with page, stale := insert c s.stale }
    | .error _ => s

def run (s : PageClients) (calls : List ClientCall) : PageClients := calls.foldl call s

def Safe (s : PageClients) : Prop :=
  ∀ c ∈ s.stale, ∃ e, s.page.deleteTuple (s.tuples c) = .error e

/-- If the call is an insertion that finds room, then the lowest free slot is not the one that
another stale tuple names. -/
def AvoidsStale (s : PageClients) : ClientCall → Prop
  | .insert c => ∀ i, s.page.LowestFree i → (s.tuples c).td = s.page.td →
      ∀ c' ∈ s.stale, c' ≠ c → (s.tuples c').rid ≠ some ⟨.heap s.page.pid, i⟩
  | .delete _ => True

/-- A deletion throws exactly if the slot of this page that the tuple names is empty. -/
theorem deleteTuple_fails_iff {p : HeapPage} {t : Tuple} :
    (∃ e, p.deleteTuple t = .error e) ↔
      ∀ i, t.rid = some ⟨.heap p.pid, i⟩ → p.isSlotUsed i = false := by
  constructor
  · rintro ⟨e, he⟩ i hrid
    by_contra hused
    have hok := HeapPage.deleteTuple_ok_iff.mpr
      ⟨⟨.heap p.pid, i⟩, hrid, rfl, by simpa using hused, rfl⟩
    rw [he] at hok
    cases hok
  · intro hempty
    cases hrun : p.deleteTuple t with
    | error e => exact ⟨e, rfl⟩
    | ok p' =>
      obtain ⟨⟨pid, i⟩, hrid, hpid, hused, -⟩ := HeapPage.deleteTuple_ok_iff.mp hrun
      cases hpid
      rw [hempty i hrid] at hused
      cases hused

variable {s : PageClients} {c : ℕ}

theorem call_insert_ok {i : ℕ} (hi : s.page.LowestFree i) (htd : (s.tuples c).td = s.page.td) :
    s.call (.insert c) = ⟨s.page.put i (s.tuples c) htd, Function.update s.tuples c
      ((s.tuples c).setRecordId (some ⟨.heap s.page.pid, i⟩)), s.stale.erase c⟩ := by
  simp only [call, HeapPage.insertTuple_lowest hi htd]

theorem call_insert_error
    (h : ¬ ((∃ i < s.page.numSlots, s.page.isSlotUsed i = false) ∧ (s.tuples c).td = s.page.td)) :
    s.call (.insert c) = s := by
  obtain ⟨e, herror, -⟩ := HeapPage.insertCall_error h
  simp only [call, herror]

/-- A deletion keeps the stale tuples from being deleted: it empties a slot. -/
theorem safe_delete (h : s.Safe) (c : ℕ) : (s.call (.delete c)).Safe := by
  cases hrun : s.page.deleteTuple (s.tuples c) with
  | error e => simpa only [call, hrun] using h
  | ok p' =>
    obtain ⟨rid, hrid, hpid, hused, rfl⟩ := HeapPage.deleteTuple_ok_iff.mp hrun
    have hself : (s.page.free rid.tupleno).isSlotUsed rid.tupleno = false := by
      cases hfree : (s.page.free rid.tupleno).isSlotUsed rid.tupleno with
      | false => rfl
      | true =>
        -- a bit that is set lies inside the header, so clearing it works
        have hin : rid.tupleno / 8 < s.page.header.length := by
          by_contra hge
          have hzero : s.page.isSlotUsed rid.tupleno = false :=
            Bitmap.get_eq_false (List.getD_eq_default _ _ (Nat.le_of_not_lt hge))
          rw [hzero] at hused
          cases hused
        exact hfree.symm.trans (Bitmap.get_set_self hin)
    have hother : ∀ i, i ≠ rid.tupleno →
        (s.page.free rid.tupleno).isSlotUsed i = s.page.isSlotUsed i :=
      fun i hi => Bitmap.get_set_ne (Ne.symm hi)
    intro c' hc'
    simp only [call, hrun, Finset.mem_insert] at hc' ⊢
    rw [deleteTuple_fails_iff]
    intro i hi
    by_cases heq : i = rid.tupleno
    · rw [heq]
      exact hself
    · rw [hother i heq]
      rcases hc' with rfl | hc'
      · rw [hrid, Option.some.injEq] at hi
        exact absurd (congrArg RecordId.tupleno hi).symm heq
      · exact deleteTuple_fails_iff.mp (h c' hc') i hi

/-- What an insertion does to the stale tuples of the other clients. -/
theorem safe_insert_iff (h : s.Safe) (c : ℕ) :
    (s.call (.insert c)).Safe ↔ s.AvoidsStale (.insert c) := by
  by_cases hroom : (∃ i < s.page.numSlots, s.page.isSlotUsed i = false) ∧
      (s.tuples c).td = s.page.td
  · obtain ⟨hfree, htd⟩ := hroom
    obtain ⟨i, hi⟩ := HeapPage.lowestFree_exists hfree
    rw [call_insert_ok hi htd]
    constructor
    · intro hsafe j hj _ c' hc' hne hrid
      rw [← hi.unique hj] at hrid
      have hfails := hsafe c' (Finset.mem_erase.mpr ⟨hne, hc'⟩)
      simp only [Function.update_of_ne hne] at hfails
      have hempty := deleteTuple_fails_iff.mp hfails i hrid
      simp [s.page.put_isSlotUsed _ htd hi.lt] at hempty
    · intro havoids c' hc'
      obtain ⟨hne, hmem⟩ := Finset.mem_erase.mp hc'
      simp only [Function.update_of_ne hne]
      rw [deleteTuple_fails_iff]
      intro j hj
      have hji : i ≠ j := by
        rintro rfl
        exact havoids i hi htd c' hmem hne hj
      rw [s.page.put_isSlotUsed _ htd hi.lt, if_neg hji]
      exact deleteTuple_fails_iff.mp (h c' hmem) j hj
  · rw [call_insert_error hroom]
    refine ⟨fun _ i hi htd => absurd ⟨⟨i, hi.lt, hi.free⟩, htd⟩ hroom, fun _ => h⟩

theorem safe_call_iff (h : s.Safe) (x : ClientCall) : (s.call x).Safe ↔ s.AvoidsStale x := by
  cases x with
  | insert c => exact safe_insert_iff h c
  | delete c => exact ⟨fun _ => trivial, fun _ => safe_delete h c⟩

theorem run_snoc (s : PageClients) (pre : List ClientCall) (x : ClientCall) :
    s.run (pre ++ [x]) = (s.run pre).call x := by
  simp [run]

/-- In a run, no tuple that was deleted and not inserted since can ever be deleted once more
exactly if no insertion takes a slot that such a tuple names. -/
theorem stale_deletions_fail_iff (page : HeapPage) (tuples : ℕ → Tuple)
    (calls : List ClientCall) :
    (∀ pre, pre <+: calls → (run ⟨page, tuples, ∅⟩ pre).Safe) ↔
      ∀ pre x, pre ++ [x] <+: calls → (run ⟨page, tuples, ∅⟩ pre).AvoidsStale x := by
  constructor
  · intro hsafe pre x hpre
    have hbefore := hsafe pre ((List.prefix_append pre [x]).trans hpre)
    have hafter := hsafe _ hpre
    rw [run_snoc] at hafter
    exact (safe_call_iff hbefore x).mp hafter
  · intro havoids pre
    induction pre using List.reverseRecOn with
    | nil =>
      intro _ c hc
      simp [run] at hc
    | append_singleton pre x ih =>
      intro hpre
      have hbefore := ih ((List.prefix_append pre [x]).trans hpre)
      rw [run_snoc]
      exact (safe_call_iff hbefore x).mpr (havoids pre x hpre)

theorem two_empty : [Tuple.empty, Tuple.empty].length = 2 := rfl

theorem stored_of_no_bits (i : ℕ) (t : Tuple) (_ : [Tuple.empty, Tuple.empty][i]? = some t)
    (hbit : Bitmap.get [0] i = true) :
    t.td = oneInt ∧ t.rid = some ⟨.heap ⟨7, 0⟩, i⟩ := by
  simp [Bitmap.get] at hbit

/-- A page of two empty slots. -/
def twoSlots : HeapPage where
  pid := ⟨7, 0⟩
  td := oneInt
  header := [0]
  tuples := [.empty, .empty]
  numSlots := 2
  header_bits := two_in_byte
  tuples_length := two_empty
  stored := stored_of_no_bits

/-- Client 0 inserts and deletes, client 1 inserts: client 0 can delete the row of client 1. -/
theorem second_deletion_succeeds :
    ¬ ∀ (page : HeapPage) (tuples : ℕ → Tuple) (calls : List ClientCall) (pre : List ClientCall),
      pre <+: calls → (run ⟨page, tuples, ∅⟩ pre).Safe := by
  intro hclaim
  let calls : List ClientCall := [.insert 0, .delete 0, .insert 1]
  obtain ⟨e, he⟩ := hclaim twoSlots (fun c => intTuple (Int32.ofNat c)) calls calls
    (List.prefix_refl calls) 0 (by decide)
  have hok : (run ⟨twoSlots, fun c => intTuple (Int32.ofNat c), ∅⟩ calls).page.deleteTuple
      ((run ⟨twoSlots, fun c => intTuple (Int32.ofNat c), ∅⟩ calls).tuples 0) =
        .ok (((twoSlots.put 0 (intTuple 0) rfl).free 0).put 0 (intTuple 1) rfl |>.free 0) := by
    decide
  rw [hok] at he
  cases he

end PageClients

end PagedDb
