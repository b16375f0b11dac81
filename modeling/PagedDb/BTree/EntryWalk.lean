import PagedDb.BTree.EntrySequence
import PagedDb.BTree.SplitInternal

/-!
# Walks over the entries of an internal page

The iterators give the keys of a page with the children on both sides. The
forward one ends at once when slot 1 is empty; the reverse one starts with an
entry that has no right child. The entries that an iterator gives name their own
page, and `deleteEntry` refuses exactly those.
-/

namespace PagedDb

namespace BTreeInternalPage

variable {p q : BTreeInternalPage} {left : Int32} {i n : ℕ}

section Walks

/-- The entries of the `n` slots from `i` on, behind the child `left`. -/
def entriesBehind (p : BTreeInternalPage) : Int32 → ℕ → ℕ → List BTreeEntry
  | _, 0, _ => []
  | left, n + 1, i =>
    if p.isSlotUsed i then
      ⟨p.keyAt i, some (p.childId left), some (p.childId (p.childAt i)), some ⟨.btree p.pid, i⟩⟩ ::
        p.entriesBehind (p.childAt i) n (i + 1)
    else p.entriesBehind left n (i + 1)

/-- Every key of the sequence with the children on both sides and the slot it is in. -/
def entryList (p : BTreeInternalPage) : List BTreeEntry :=
  p.entriesBehind (p.childAt 0) (p.numSlots - 1) 1

/-- The entries the iterator gives until it is `end()`. -/
def walkFrom (p : BTreeInternalPage) : ℕ → BTreeInternalPageIterator → Except Fault (List BTreeEntry)
  | 0, _ => .error .outOfFuel
  | fuel + 1, it =>
    if it.ne p.ending then do
      let entry ← it.get p
      let it ← it.next p
      let entries ← p.walkFrom fuel it
      pure (entry :: entries)
    else .ok []

/-- The walk from `begin()` to `end()`. -/
def walk (p : BTreeInternalPage) : Except Fault (List BTreeEntry) := do
  let it ← p.begin
  p.walkFrom (p.numSlots + 1) it

def rend (p : BTreeInternalPage) : Except Fault BTreeInternalPageReverseIterator :=
  BTreeInternalPageReverseIterator.new 0 p

/-- The entries the reverse iterator gives until it is at `last`. -/
def rwalkFrom (p : BTreeInternalPage) (last : BTreeInternalPageReverseIterator) :
    ℕ → BTreeInternalPageReverseIterator → Except Fault (List BTreeEntry)
  | 0, _ => .error .outOfFuel
  | fuel + 1, it =>
    if it.ne last then do
      let entry ← it.get p
      let it ← it.next p
      let entries ← p.rwalkFrom last fuel it
      pure (entry :: entries)
    else .ok []

/-- The walk from `rbegin()` to `rend()`. -/
def rwalk (p : BTreeInternalPage) : Except Fault (List BTreeEntry) := do
  let it ← p.rbegin
  let last ← p.rend
  p.rwalkFrom last (p.numSlots + 1) it

theorem entriesBehind_alternate (hn : i + n ≤ p.numSlots) :
    (p.entriesBehind left n i).map (fun e => (e.key, e.rightChild.map BTreePageId.pgNo)) =
      (Slots.segment p.slot? i (i + n)).map fun x => (x.1, some x.2) := by
  induction n generalizing i left with
  | zero => rw [entriesBehind, Nat.add_zero, Slots.segment_of_le _ (le_refl i)]; rfl
  | succ n ih =>
    rw [Slots.segment_cons _ (show i < i + (n + 1) by omega), entriesBehind,
      show i + (n + 1) = i + 1 + n by omega]
    split
    · rename_i hu
      rw [p.slot?_of_used (by omega) hu, Option.toList_some, List.map_cons, ih (by omega)]
      rfl
    · rename_i hu
      rw [p.slot?_eq_none.mpr (.inr (by simpa using hu)), ih (by omega)]
      rfl

theorem entryList_alternate (hslots : 0 < p.numSlots) :
    p.entryList.map (fun e => (e.key, e.rightChild.map BTreePageId.pgNo)) =
      p.entries.map fun x => (x.1, some x.2) := by
  rw [entryList, entriesBehind_alternate (by omega), entries,
    show 1 + (p.numSlots - 1) = p.numSlots by omega]

theorem entryList_eq_nil (hslots : 0 < p.numSlots) : p.entryList = [] ↔ p.entries = [] := by
  have h := congrArg List.length (entryList_alternate hslots)
  rw [List.length_map, List.length_map] at h
  rw [← List.length_eq_zero_iff, h, List.length_eq_zero_iff]

theorem entriesBehind_right {e : BTreeEntry} (h : e ∈ p.entriesBehind left n i) :
    e.rightChild.isSome := by
  induction n generalizing i left with
  | zero => cases h
  | succ n ih =>
    rw [entriesBehind] at h
    split at h
    · rcases List.mem_cons.mp h with rfl | h
      · rfl
      · exact ih h
    · exact ih h

theorem entriesBehind_search (p : BTreeInternalPage) (left : Int32) (n i : ℕ) :
    p.entriesBehind left n i = p.entriesBehind left (i + n - Slots.search p.isSlotUsed n i)
      (Slots.search p.isSlotUsed n i) := by
  induction n generalizing i with
  | zero => rw [Slots.search, Nat.add_zero, Nat.sub_self]
  | succ n ih =>
    rw [Slots.search]
    split
    · rw [Nat.add_sub_cancel_left]
    · rename_i hu
      rw [entriesBehind, if_neg hu, ih (i + 1), show i + (n + 1) = i + 1 + n by omega]

theorem getChildId_used (hi : i < p.numSlots) (hu : p.isSlotUsed i = true) :
    p.getChildId i = .ok (some (p.childId (p.childAt i))) := by
  rw [getChildId, if_pos hi, if_pos hu]
  rfl

/-- The walk from an iterator at a used slot on. -/
theorem walkFrom_eq {fuel : ℕ} (hpos : 0 < i) (hi : i < p.numSlots) (hu : p.isSlotUsed i = true)
    (hfuel : p.numSlots - i < fuel) :
    p.walkFrom fuel ⟨i, some (p.childId left), some (p.childId (p.childAt i))⟩ =
      .ok (p.entriesBehind left (p.numSlots - i) i) := by
  induction fuel generalizing i left with
  | zero => omega
  | succ fuel ih =>
    have hget : (⟨i, some (p.childId left), some (p.childId (p.childAt i))⟩ :
        BTreeInternalPageIterator).get p = .ok ⟨p.keyAt i, some (p.childId left),
          some (p.childId (p.childAt i)), some ⟨.btree p.pid, i⟩⟩ := by
      have hkey : p.getKey i = .ok (p.keyAt i) := by rw [getKey, if_pos ⟨hpos, hi⟩, if_pos hu]
      rw [BTreeInternalPageIterator.get, Exec.except_bind hkey]
      rfl
    have hne : (⟨i, some (p.childId left), some (p.childId (p.childAt i))⟩ :
        BTreeInternalPageIterator).ne p.ending = true :=
      decide_eq_true (show i ≠ p.numSlots by omega)
    have hskip := p.entriesBehind_search (p.childAt i) (p.numSlots - (i + 1)) (i + 1)
    have hle := Slots.search_le p.isSlotUsed (p.numSlots - (i + 1)) (i + 1)
    have hge := Slots.le_search p.isSlotUsed (p.numSlots - (i + 1)) (i + 1)
    have hstop : Slots.search p.isSlotUsed (p.numSlots - (i + 1)) (i + 1) < p.numSlots →
        p.isSlotUsed (Slots.search p.isSlotUsed (p.numSlots - (i + 1)) (i + 1)) = true := by
      intro hlt
      exact Slots.search_stop (by omega)
    generalize hs : Slots.search p.isSlotUsed (p.numSlots - (i + 1)) (i + 1) = s
      at hskip hle hge hstop
    rw [show i + 1 + (p.numSlots - (i + 1)) - s = p.numSlots - s by omega] at hskip
    rw [walkFrom, if_pos hne, Exec.except_bind hget, show p.numSlots - i = (p.numSlots - (i + 1)) + 1 by omega,
      entriesBehind, if_pos hu, hskip]
    rcases Nat.lt_or_ge s p.numSlots with hlt | hend
    · have hnext : (⟨i, some (p.childId left), some (p.childId (p.childAt i))⟩ :
          BTreeInternalPageIterator).next p =
            .ok ⟨s, some (p.childId (p.childAt i)), some (p.childId (p.childAt s))⟩ := by
        rw [BTreeInternalPageIterator.next]
        simp only [hs]
        rw [if_pos hlt, Exec.except_bind (getChildId_used hlt (hstop hlt))]
        rfl
      rw [Exec.except_bind hnext, Exec.except_bind (ih (by omega) hlt (hstop hlt) (by omega))]
      rfl
    · obtain rfl : s = p.numSlots := by omega
      have hnext : (⟨i, some (p.childId left), some (p.childId (p.childAt i))⟩ :
          BTreeInternalPageIterator).next p =
            .ok ⟨p.numSlots, some (p.childId (p.childAt i)), some (p.childId (p.childAt i))⟩ := by
        rw [BTreeInternalPageIterator.next]
        simp only [hs, lt_irrefl, if_false]
      have hdone : p.walkFrom fuel ⟨p.numSlots, some (p.childId (p.childAt i)),
          some (p.childId (p.childAt i))⟩ = .ok [] := by
        obtain ⟨fuel, rfl⟩ : ∃ f, fuel = f + 1 := ⟨fuel - 1, by omega⟩
        rw [walkFrom, if_neg (by simp [BTreeInternalPageIterator.ne, ending])]
      rw [Exec.except_bind hnext, Exec.except_bind hdone, Nat.sub_self]
      rfl

/-- The forward walk gives all entries, or none if slot 1 is empty. -/
theorem walk_eq (hslots : 0 < p.numSlots) (hzero : p.isSlotUsed 0 = true) :
    p.walk = .ok (if p.isSlotUsed 1 then p.entryList else []) := by
  by_cases hone : 1 = p.numSlots
  · have hbegin : p.begin = .ok ⟨1, none, none⟩ := by
      rw [begin, BTreeInternalPageIterator.new, if_pos hone]
    rw [walk, Exec.except_bind hbegin, walkFrom,
      if_neg (by simp [BTreeInternalPageIterator.ne, ending, hone]), entryList, ← hone]
    simp [entriesBehind]
  · have hprev := getChildId_used hslots hzero
    by_cases hu : p.isSlotUsed 1 = true
    · have hcurr := getChildId_used (show 1 < p.numSlots by omega) hu
      have hbegin : p.begin =
          .ok ⟨1, some (p.childId (p.childAt 0)), some (p.childId (p.childAt 1))⟩ := by
        rw [begin, BTreeInternalPageIterator.new, if_neg hone, if_pos Nat.one_pos,
          Exec.except_bind hprev]
        simp only [hcurr]
        rfl
      rw [walk, Exec.except_bind hbegin, if_pos hu]
      exact walkFrom_eq Nat.one_pos (by omega) hu (by omega)
    · have hcurr : p.getChildId 1 = .ok none := by rw [getChildId, if_pos (by omega), if_neg hu]
      have hbegin : p.begin = .ok ⟨p.numSlots, some (p.childId (p.childAt 0)), none⟩ := by
        rw [begin, BTreeInternalPageIterator.new, if_neg hone, if_pos Nat.one_pos,
          Exec.except_bind hprev]
        simp only [hcurr]
        rfl
      rw [walk, Exec.except_bind hbegin, if_neg hu, walkFrom,
        if_neg (by simp [BTreeInternalPageIterator.ne, ending])]

theorem rend_eq (p : BTreeInternalPage) : p.rend = .ok ⟨0, 0, none, none⟩ := by
  have hleft : max 0 (Slots.searchDown p.isSlotUsed 1) = 0 := by
    have := Slots.searchDown_lt p.isSlotUsed 1
    omega
  rw [rend, BTreeInternalPageReverseIterator.new, Nat.zero_add]
  simp only [hleft]
  rfl

/-- Without keys the reverse walk is at its end at once; otherwise its first entry, if it gives
any, has no right child. -/
theorem rwalk_cases (hslots : 0 < p.numSlots) :
    (p.entries = [] → p.rwalk = .ok []) ∧
      (p.entries ≠ [] → ∀ es, p.rwalk = .ok es → ∃ e ∈ es, e.rightChild = none) := by
  have hlast : p.numSlots - 1 + 1 = p.numSlots := by omega
  obtain ⟨hnone, hall⟩ | ⟨j, hj, hsearch, hu, hall⟩ :=
    Slots.searchDown_cases p.isSlotUsed p.numSlots
  · have hbegin : p.rbegin = .ok ⟨0, (p.numSlots - 1 : ℕ), none, none⟩ := by
      rw [rbegin, BTreeInternalPageReverseIterator.new, hlast]
      simp only [hnone]
      rfl
    have hempty : p.entries = [] := by
      apply Slots.segment_eq_nil
      intro i _ hi
      exact p.slot?_eq_none.mpr (.inr (hall i hi))
    refine ⟨fun _ => ?_, fun hne => absurd hempty hne⟩
    rw [rwalk, Exec.except_bind hbegin, Exec.except_bind p.rend_eq]
    rfl
  · rcases Nat.eq_zero_or_pos j with rfl | hpos
    · have hbegin : p.rbegin = .ok ⟨0, (p.numSlots - 1 : ℕ), none, none⟩ := by
        rw [rbegin, BTreeInternalPageReverseIterator.new, hlast]
        simp only [hsearch]
        rfl
      have hempty : p.entries = [] := by
        apply Slots.segment_eq_nil
        intro i h₁ hi
        exact p.slot?_eq_none.mpr (.inr (hall i (by omega) hi))
      refine ⟨fun _ => ?_, fun hne => absurd hempty hne⟩
      rw [rwalk, Exec.except_bind hbegin, Exec.except_bind p.rend_eq]
      rfl
    · have hbegin : p.rbegin =
          .ok ⟨j, (p.numSlots - 1 : ℕ), some (p.childId (p.childAt j)), none⟩ := by
        have hmax : max 0 (Slots.searchDown p.isSlotUsed p.numSlots) = j := by omega
        rw [rbegin, BTreeInternalPageReverseIterator.new, hlast]
        simp only [hmax]
        rw [if_pos (by omega), Int.toNat_natCast, Exec.except_bind (getChildId_used hj hu)]
        rfl
      have hne : p.entries ≠ [] := by
        apply List.ne_nil_of_mem (a := (p.keyAt j, p.childAt j))
        exact Slots.mem_segment.mpr ⟨j, hpos, hj, p.slot?_of_used hj hu⟩
      have hgo : (⟨j, (p.numSlots - 1 : ℕ), some (p.childId (p.childAt j)), none⟩ :
          BTreeInternalPageReverseIterator).ne ⟨0, 0, none, none⟩ = true :=
        decide_eq_true (show (j : Int) ≠ 0 by omega)
      refine ⟨fun h => absurd h hne, fun _ es hes => ?_⟩
      rw [rwalk, Exec.except_bind hbegin, Exec.except_bind p.rend_eq, rwalkFrom, if_pos hgo] at hes
      obtain ⟨e, he, hes⟩ := Exec.of_except_bind hes
      obtain ⟨it, -, hes⟩ := Exec.of_except_bind hes
      obtain ⟨rest, -, hes⟩ := Exec.of_except_bind hes
      cases hes
      obtain ⟨key, -, hkey⟩ := Exec.of_except_bind he
      cases hkey
      exact ⟨_, List.mem_cons_self, rfl⟩

/-- Both walks give the entries of the page, the reverse one in reverse, exactly when the page has
no key. -/
theorem walks_iff (hslots : 0 < p.numSlots) (hzero : p.isSlotUsed 0 = true) :
    p.walk = .ok p.entryList ∧ p.rwalk = .ok p.entryList.reverse ↔ p.entries = [] := by
  obtain ⟨hempty, hfirst⟩ := p.rwalk_cases hslots
  constructor
  · rintro ⟨-, hback⟩
    by_contra hne
    obtain ⟨e, he, hnone⟩ := hfirst hne _ hback
    have hright := entriesBehind_right (List.mem_reverse.mp he)
    rw [hnone] at hright
    cases hright
  · intro hnil
    have hlist := (entryList_eq_nil hslots).mpr hnil
    refine ⟨?_, ?_⟩
    · rw [walk_eq hslots hzero, hlist, ite_self]
    · rw [hempty hnil, hlist]
      rfl

end Walks

section Deletion

variable {e : BTreeEntry} {rid : RecordId}

/-- Pages that insertions and deletions of entries make of an empty one. -/
inductive Built : BTreeInternalPage → Prop
  | empty {p : BTreeInternalPage} (h : ∀ i < p.numSlots, p.isSlotUsed i = false) : Built p
  | insert {p q : BTreeInternalPage} {e : BTreeEntry} (h : Built p) (hrun : p.insertEntry e = .ok q) :
    Built q
  | delete {p q : BTreeInternalPage} {e e' : BTreeEntry} {right : Bool} (h : Built p)
    (hrun : p.deleteEntry e right = .ok (q, e')) : Built q

/-- What the deletion of an entry is to do: an entry of the page goes, with the child on the side
asked for, and any other is refused. -/
structure Deletes (p : BTreeInternalPage) (e : BTreeEntry) (rid : RecordId) : Prop where
  own : rid.pid.pageNumber = p.pid.pgNo → rid.pid.getTableId = p.pid.tableId →
    ∀ pre key c k c' post, p.slot? rid.tupleno = some (k, c') →
      Slots.segment p.slot? 0 rid.tupleno = pre ++ [(key, c)] →
      Slots.segment p.slot? (rid.tupleno + 1) p.numSlots = post →
      (∃ q, p.deleteKeyAndRightChild e = .ok (q, { e with rid := none }) ∧
        q.slots = pre ++ (key, c) :: post) ∧
      ∃ q, p.deleteKeyAndLeftChild e = .ok (q, { e with rid := none }) ∧
        q.slots = pre ++ (key, c') :: post
  foreign : rid.pid.pageNumber ≠ p.pid.pgNo ∨ rid.pid.getTableId ≠ p.pid.tableId →
    ∀ right, p.deleteEntry e right = .error .assertion

/-- The guard of `deleteEntry`: it asks for an entry of the same page number and another table. -/
theorem deleteEntry_guard (hrid : e.rid = some rid) (right : Bool) :
    (p.deleteEntry e right = .error .assertion ↔
      ¬ (rid.pid.pageNumber = p.pid.pgNo ∧ rid.pid.getTableId ≠ p.pid.tableId ∧
        p.isSlotUsed rid.tupleno = true)) := by
  rw [deleteEntry, hrid]
  by_cases hguard : rid.pid.pageNumber = p.pid.pgNo ∧ rid.pid.getTableId ≠ p.pid.tableId
  · by_cases hu : p.isSlotUsed rid.tupleno = true
    · simp [hguard, hu]
    · simp [hguard, hu]
  · simp only [if_pos hguard, true_iff]
    exact fun h => hguard ⟨h.1, h.2.1⟩

/-- Deletion does what it is to do exactly for the entries of another page number and those whose
slot is empty, or has no key of the page they name. -/
theorem deletes_iff (hrid : e.rid = some rid) (hzero : p.isSlotUsed 0 = true) :
    Deletes p e rid ↔
      ¬ (rid.pid.pageNumber = p.pid.pgNo ∧ p.isSlotUsed rid.tupleno = true ∧
        (rid.pid.getTableId = p.pid.tableId → 0 < rid.tupleno ∧ rid.tupleno < p.numSlots)) := by
  constructor
  · rintro ⟨hown, hforeign⟩ ⟨hnum, hu, hkey⟩
    by_cases htable : rid.pid.getTableId = p.pid.tableId
    · -- an entry of this page
      obtain ⟨hpos, hlt⟩ := hkey htable
      have hne : Slots.segment p.slot? 0 rid.tupleno ≠ [] := by
        apply List.ne_nil_of_mem (a := (p.keyAt 0, p.childAt 0))
        exact Slots.mem_segment.mpr ⟨0, le_refl 0, hpos, p.slot?_of_used (by omega) hzero⟩
      obtain ⟨pre, ⟨key, c⟩, hpre⟩ := List.eq_nil_or_concat _ |>.resolve_left hne
      rw [List.concat_eq_append] at hpre
      obtain ⟨⟨q, hq, -⟩, -⟩ := hown hnum htable pre key c _ _ _ (p.slot?_of_used hlt hu) hpre rfl
      have hfail := (deleteEntry_guard (p := p) hrid true).mpr fun h => h.2.1 htable
      rw [deleteKeyAndRightChild, hfail] at hq
      cases hq
    · exact (deleteEntry_guard hrid true).mp (hforeign (.inr htable) true) ⟨hnum, htable, hu⟩
  · intro hgood
    constructor
    case own =>
      intro hnum htable pre key c k c' post hslot hpre _
      obtain ⟨hlt, hu, -⟩ := p.slot?_eq_some.mp hslot
      refine absurd ⟨hnum, hu, fun _ => ⟨?_, hlt⟩⟩ hgood
      rcases Nat.eq_zero_or_pos rid.tupleno with hzero' | hpos
      · rw [hzero', Slots.segment_of_le _ (le_refl 0)] at hpre
        simp at hpre
      · exact hpos
    case foreign =>
      intro hother right
      apply (deleteEntry_guard hrid right).mpr
      rintro ⟨hnum, htable, hu⟩
      exact hgood ⟨hnum, hu, fun h => absurd h htable⟩

end Deletion

section Example

/-- A page for two integer keys. -/
def emptyKeys : BTreeInternalPage where
  pid := ⟨7, 1, .internal⟩
  td := .ofInts 1
  keyField := 0
  parent := 0
  childCategory := .leaf
  header := [0]
  keys := [none, none, none]
  children := [0, 0, 0]
  numSlots := 3
  header_bits := by decide
  keys_length := rfl
  children_length := rfl

def oneKey : BTreeInternalPage := emptyKeys.insertFirst (.int 5) 2 3

theorem oneKey_built : Built oneKey := by
  have hempty : Built emptyKeys := .empty (by decide)
  exact .insert hempty (e := ⟨some (.int 5), some ⟨7, 2, .leaf⟩, some ⟨7, 3, .leaf⟩, none⟩)
    (by decide)

/-- An entry that was just inserted can not be deleted. -/
theorem oneKey_not_deleted : ¬ ∀ (p : BTreeInternalPage) (e : BTreeEntry) (rid : RecordId),
    Built p → p.isSlotUsed 0 = true → e.rid = some rid → Deletes p e rid := by
  intro hclaim
  obtain ⟨hown, -⟩ := hclaim oneKey ⟨some (.int 5), some ⟨7, 2, .leaf⟩, some ⟨7, 3, .leaf⟩,
    some ⟨.btree ⟨7, 1, .internal⟩, 1⟩⟩ ⟨.btree ⟨7, 1, .internal⟩, 1⟩ oneKey_built (by decide) rfl
  obtain ⟨⟨q, hq, -⟩, -⟩ :=
    hown rfl rfl [] none 2 (some (.int 5)) 3 [] (by decide) (by decide) (by decide)
  have hfail : oneKey.deleteKeyAndRightChild ⟨some (.int 5), some ⟨7, 2, .leaf⟩,
      some ⟨7, 3, .leaf⟩, some ⟨.btree ⟨7, 1, .internal⟩, 1⟩⟩ = .error .assertion := by decide
  rw [hfail] at hq
  cases hq

/-- The same entry of another page is refused. -/
theorem oneKey_foreign : Deletes oneKey ⟨some (.int 5), some ⟨7, 2, .leaf⟩, some ⟨7, 3, .leaf⟩,
    some ⟨.btree ⟨7, 9, .internal⟩, 1⟩⟩ ⟨.btree ⟨7, 9, .internal⟩, 1⟩ :=
  (deletes_iff rfl (by decide)).mpr fun h => absurd h.1 (by decide)

/-- The iterators of the page with one key do not both give it. -/
theorem oneKey_not_walked : ¬ ∀ p : BTreeInternalPage, 0 < p.numSlots → p.isSlotUsed 0 = true →
    p.walk = .ok p.entryList ∧ p.rwalk = .ok p.entryList.reverse := by
  intro hclaim
  exact absurd (hclaim oneKey (by decide) (by decide)).2 (by decide)

/-- Without a key there is nothing to walk over. -/
theorem firstChild_walked : ∃ p : BTreeInternalPage, p.sequence = [.inl 2] ∧
    p.walk = .ok p.entryList ∧ p.rwalk = .ok p.entryList.reverse :=
  ⟨oneKey.markSlotUsed 1 false, by decide,
    (walks_iff (by decide) (by decide)).mpr (by decide)⟩

end Example

end BTreeInternalPage

end PagedDb
