import PagedDb.BTree.EntryWalk
import PagedDb.BTree.TreeDelete

/-!
# The siblings of a page

`handleMinOccupancyPage` looks for the entries of the parent on both sides of a
page. Its loop never steps to the next entry: it comes to an end only where the
first entry already decides, or where there seems to be none.
-/

namespace PagedDb

namespace BTreeInternalPage

variable {p : BTreeInternalPage} {left c : Int32} {i j n : ℕ} {e : BTreeEntry}

theorem childId_inj {c d : Int32} (h : p.childId c = p.childId d) : c = d :=
  congrArg BTreePageId.pgNo h

/-- The entry in front of a child. -/
theorem exists_entry_before (h₁ : i ≤ j) (h₂ : j < i + n) (hu : p.isSlotUsed j = true) :
    ∃ e ∈ p.entriesBehind left n i, e.rightChild = some (p.childId (p.childAt j)) := by
  induction n generalizing i left with
  | zero => omega
  | succ n ih =>
    rw [entriesBehind]
    rcases Nat.eq_or_lt_of_le h₁ with rfl | hlt
    · rw [if_pos hu]
      exact ⟨_, List.mem_cons_self, rfl⟩
    · split
      · obtain ⟨e, he, hright⟩ := ih hlt (by omega)
        exact ⟨e, List.mem_cons_of_mem _ he, hright⟩
      · exact ih hlt (by omega)

theorem entry_rightChild (h : e ∈ p.entriesBehind left n i) :
    ∃ j, i ≤ j ∧ j < i + n ∧ p.isSlotUsed j = true ∧
      e.rightChild = some (p.childId (p.childAt j)) := by
  induction n generalizing i left with
  | zero => cases h
  | succ n ih =>
    rw [entriesBehind] at h
    split at h
    · rcases List.mem_cons.mp h with rfl | h
      · exact ⟨i, le_refl i, by omega, ‹_›, rfl⟩
      · obtain ⟨j, h₁, h₂, hj⟩ := ih h
        exact ⟨j, by omega, by omega, hj⟩
    · obtain ⟨j, h₁, h₂, hj⟩ := ih h
      exact ⟨j, by omega, by omega, hj⟩

theorem first_leftChild {es : List BTreeEntry} (h : p.entriesBehind left n i = e :: es) :
    e.leftChild = some (p.childId left) := by
  induction n generalizing i with
  | zero => cases h
  | succ n ih =>
    rw [entriesBehind] at h
    split at h
    · cases h
      rfl
    · exact ih h

theorem child_cases (hc : c ∈ p.slots.map Prod.snd) :
    ∃ j < p.numSlots, p.isSlotUsed j = true ∧ p.childAt j = c := by
  obtain ⟨⟨key, d⟩, hx, rfl⟩ := List.mem_map.mp hc
  obtain ⟨j, -, hj, hslot⟩ := Slots.mem_segment.mp hx
  obtain ⟨-, hu, -, hchild⟩ := p.slot?_eq_some.mp hslot
  exact ⟨j, hj, hu, hchild⟩

theorem childAt_ne_first (hzero : p.isSlotUsed 0 = true) (hnodup : (p.slots.map Prod.snd).Nodup)
    (hpos : 0 < j) (hj : j < p.numSlots) (hu : p.isSlotUsed j = true) :
    p.childAt j ≠ p.childAt 0 := by
  rw [slots_eq hzero (by omega), List.map_cons] at hnodup
  intro heq
  apply (List.nodup_cons.mp hnodup).1
  rw [← heq]
  exact List.mem_map.mpr
    ⟨_, Slots.mem_segment.mpr ⟨j, hpos, hj, p.slot?_of_used hj hu⟩, rfl⟩

/-- The entry in slot 1, where that is used. -/
def firstEntry (p : BTreeInternalPage) : BTreeEntry :=
  ⟨p.keyAt 1, some (p.childId (p.childAt 0)), some (p.childId (p.childAt 1)), some ⟨.btree p.pid, 1⟩⟩

theorem entryList_eq_cons (hslots : 1 < p.numSlots) (hone : p.isSlotUsed 1 = true) :
    ∃ es, p.entryList = p.firstEntry :: es := by
  obtain ⟨n, hn⟩ : ∃ n, p.numSlots - 1 = n + 1 := ⟨p.numSlots - 2, by omega⟩
  rw [entryList, hn, entriesBehind, if_pos hone]
  exact ⟨_, rfl⟩

def leftEntryOf (p : BTreeInternalPage) (c : Int32) : Option BTreeEntry :=
  p.entryList.find? fun e => e.rightChild = some (p.childId c)

def rightEntryOf (p : BTreeInternalPage) (c : Int32) : Option BTreeEntry :=
  p.entryList.find? fun e => e.leftChild = some (p.childId c)

theorem leftEntryOf_isSome (hj : 0 < j) (hlt : j < p.numSlots) (hu : p.isSlotUsed j = true) :
    (p.leftEntryOf (p.childAt j)).isSome := by
  obtain ⟨e, he, hright⟩ := @exists_entry_before p (p.childAt 0) 1 j (p.numSlots - 1) hj (by omega) hu
  rw [leftEntryOf, List.find?_isSome]
  exact ⟨e, he, by simp [hright]⟩

end BTreeInternalPage

namespace BTreeFile

open BTreeInternalPage Exec

variable {q : BTreeInternalPage} {id : BTreePageId} {it : BTreeInternalPageIterator}
  {e : BTreeEntry} {left right : BTreePageId}

theorem siblingEntries_stays (hne : it.ne q.ending = true) (hget : it.get q = .ok e)
    (hleft : e.leftChild = some left) (hright : e.rightChild = some right) (hother : left ≠ id)
    (fuel : ℕ) (leftEntry : Option BTreeEntry) :
    siblingEntries q id fuel it leftEntry = .error .outOfFuel := by
  induction fuel generalizing leftEntry with
  | zero => rfl
  | succ fuel ih =>
    rw [siblingEntries, if_pos hne, except_bind hget]
    simp only [hleft, hright, if_neg hother]
    exact ih _

/-- The loop only ever looks at slot 1. -/
theorem siblingEntries_eq (hslots : 1 < q.numSlots) (hzero : q.isSlotUsed 0 = true) (c : Int32) :
    ∃ it, q.begin = .ok it ∧ ∀ fuel, siblingEntries q (q.childId c) (fuel + 1) it none =
      if q.isSlotUsed 1 = true then
        if c = q.childAt 0 then .ok (none, some q.firstEntry) else .error .outOfFuel
      else .ok (none, none) := by
  have hprev := getChildId_used (p := q) (i := 0) (by omega) hzero
  by_cases hone : q.isSlotUsed 1 = true
  · have hcurr := getChildId_used (p := q) (i := 1) hslots hone
    have hget : (⟨1, some (q.childId (q.childAt 0)), some (q.childId (q.childAt 1))⟩ :
        BTreeInternalPageIterator).get q = .ok q.firstEntry := by
      have hkey : q.getKey 1 = .ok (q.keyAt 1) := by
        rw [getKey, if_pos ⟨Nat.one_pos, hslots⟩, if_pos hone]
      rw [BTreeInternalPageIterator.get, except_bind hkey]
      rfl
    have hgo : (⟨1, some (q.childId (q.childAt 0)), some (q.childId (q.childAt 1))⟩ :
        BTreeInternalPageIterator).ne q.ending = true :=
      decide_eq_true (show 1 ≠ q.numSlots by omega)
    refine ⟨⟨1, some (q.childId (q.childAt 0)), some (q.childId (q.childAt 1))⟩, ?_, fun fuel => ?_⟩
    · rw [BTreeInternalPage.begin, BTreeInternalPageIterator.new, if_neg (by omega),
        if_pos Nat.one_pos, except_bind hprev]
      simp only [hcurr]
      rfl
    · rw [if_pos hone]
      by_cases hc : c = q.childAt 0
      · subst hc
        rw [if_pos rfl, siblingEntries, if_pos hgo, except_bind hget]
        simp only [firstEntry, if_true]
        rfl
      · rw [if_neg hc]
        exact siblingEntries_stays hgo hget rfl rfl (fun heq => hc (childId_inj heq).symm) _ _
  · have hcurr : q.getChildId 1 = .ok none := by rw [getChildId, if_pos hslots, if_neg hone]
    refine ⟨⟨q.numSlots, some (q.childId (q.childAt 0)), none⟩, ?_, fun fuel => ?_⟩
    · rw [BTreeInternalPage.begin, BTreeInternalPageIterator.new, if_neg (by omega),
        if_pos Nat.one_pos, except_bind hprev]
      simp only [hcurr]
      rfl
    · rw [if_neg hone, siblingEntries,
        if_neg (by simp [BTreeInternalPageIterator.ne, ending])]
      rfl

def FindsSiblings (q : BTreeInternalPage) (c : Int32) : Prop :=
  ∃ fuel it, q.begin = .ok it ∧ siblingEntries q (q.childId c) fuel it none =
    .ok (q.leftEntryOf c, q.rightEntryOf c)

/-- The loop ends with the entries on both sides of a child exactly when slot 1 is used and the
child is the first one. -/
theorem findsSiblings_iff {c : Int32} (hzero : q.isSlotUsed 0 = true)
    (hentries : q.entries ≠ []) (hnodup : (q.slots.map Prod.snd).Nodup)
    (hc : c ∈ q.slots.map Prod.snd) :
    FindsSiblings q c ↔ q.isSlotUsed 1 = true ∧ c = q.childAt 0 := by
  have hcount := q.entries_length_add_empty
  have hlen : 0 < q.entries.length := List.length_pos_iff.mpr hentries
  have hslots : 1 < q.numSlots := by omega
  obtain ⟨it, hbegin, hrun⟩ := siblingEntries_eq hslots hzero c
  constructor
  · rintro ⟨fuel, it', hit, hrun'⟩
    rw [hbegin] at hit
    cases hit
    cases fuel with
    | zero => cases hrun'
    | succ fuel =>
      rw [hrun fuel] at hrun'
      by_cases hone : q.isSlotUsed 1 = true
      · rw [if_pos hone] at hrun'
        by_cases hfirst : c = q.childAt 0
        · exact ⟨hone, hfirst⟩
        · rw [if_neg hfirst] at hrun'
          cases hrun'
      · -- a child of the page is on some side of some entry
        rw [if_neg hone] at hrun'
        exfalso
        obtain ⟨j, hj, hu, rfl⟩ := child_cases hc
        rcases Nat.eq_zero_or_pos j with rfl | hpos
        · obtain ⟨e, es, hlist⟩ := List.exists_cons_of_ne_nil
            ((entryList_eq_nil (by omega)).not.mpr hentries)
          have hright : q.rightEntryOf (q.childAt 0) = some e := by
            rw [rightEntryOf, hlist, List.find?_cons_of_pos (by simp [first_leftChild hlist])]
          have hnone : none = q.rightEntryOf (q.childAt 0) :=
            congrArg Prod.snd (Except.ok.inj hrun')
          rw [hright] at hnone
          cases hnone
        · have hleft := leftEntryOf_isSome hpos hj hu
          have hnone : none = q.leftEntryOf (q.childAt j) :=
            congrArg Prod.fst (Except.ok.inj hrun')
          rw [← hnone] at hleft
          cases hleft
  · rintro ⟨hone, rfl⟩
    have hleft : q.leftEntryOf (q.childAt 0) = none := by
      rw [leftEntryOf, List.find?_eq_none]
      intro e' he'
      obtain ⟨j, h₁, h₂, hu, hright⟩ := entry_rightChild he'
      have hne := childAt_ne_first hzero hnodup (show 0 < j by omega) (by omega) hu
      simp only [hright, Option.some.injEq, decide_eq_true_eq]
      exact fun heq => hne (childId_inj heq)
    obtain ⟨es, hlist⟩ := entryList_eq_cons hslots hone
    have hright : q.rightEntryOf (q.childAt 0) = some q.firstEntry := by
      rw [rightEntryOf, hlist, List.find?_cons_of_pos (by simp [firstEntry])]
    exact ⟨1, it, hbegin, by rw [hrun 0, if_pos hone, if_pos rfl, hleft, hright]⟩

section Example

/-- The sibling of the second child of a page with one key is not found. -/
theorem secondChild_not_found : ¬ ∀ (q : BTreeInternalPage) (c : Int32), q.isSlotUsed 0 = true →
    q.entries ≠ [] → (q.slots.map Prod.snd).Nodup → c ∈ q.slots.map Prod.snd →
    FindsSiblings q c := by
  intro hclaim
  obtain ⟨fuel, it, hit, hrun⟩ := hclaim oneKey 3 (by decide) (by decide) (by decide) (by decide)
  have hbegin : oneKey.begin = .ok ⟨1, some ⟨7, 2, .leaf⟩, some ⟨7, 3, .leaf⟩⟩ := by decide
  rw [hbegin] at hit
  cases hit
  have hget : (⟨1, some ⟨7, 2, .leaf⟩, some ⟨7, 3, .leaf⟩⟩ : BTreeInternalPageIterator).get oneKey =
      .ok ⟨some (.int 5), some ⟨7, 2, .leaf⟩, some ⟨7, 3, .leaf⟩,
        some ⟨.btree ⟨7, 1, .internal⟩, 1⟩⟩ := by decide
  rw [siblingEntries_stays (by decide) hget rfl rfl (by decide)] at hrun
  cases hrun

/-- The sibling of the first child is. -/
theorem firstChild_found : FindsSiblings oneKey 2 :=
  (findsSiblings_iff (by decide) (by decide) (by decide) (by decide)).mpr (by decide)

end Example

end BTreeFile

end PagedDb
