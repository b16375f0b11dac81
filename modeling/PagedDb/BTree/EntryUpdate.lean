import PagedDb.Foundation.KeyTree
import PagedDb.BTree.EntryWalk

/-!
# Updating an entry of an internal page

`updateEntry` puts another key into the slot of an entry. It writes both child
pointers as well and compares the key with the ones next to it; for an entry of
the page nothing but the key changes.
-/

namespace PagedDb

def KeyLe (a b : Option Field) : Prop :=
  ∃ x y, a = some x ∧ b = some y ∧ x.compare .lessThanOrEq y = .ok true

theorem keyLe_iff {a b : Option Field} :
    KeyLe a b ↔ ∃ x y : Int32, a = some (.int x) ∧ b = some (.int y) ∧ x.toInt ≤ y.toInt := by
  constructor
  · rintro ⟨x, y, rfl, rfl, hle⟩
    cases x with
    | string s => cases hle
    | int x =>
      cases y with
      | string s => cases hle
      | int y => exact ⟨x, y, rfl, rfl, of_decide_eq_true (Except.ok.inj hle)⟩
  · rintro ⟨x, y, rfl, rfl, hle⟩
    exact ⟨_, _, rfl, rfl, congrArg Except.ok (decide_eq_true hle)⟩

theorem KeyLe.trans {a b c : Option Field} (hab : KeyLe a b) (hbc : KeyLe b c) : KeyLe a c := by
  obtain ⟨x, y, rfl, rfl, hxy⟩ := keyLe_iff.mp hab
  obtain ⟨y', z, hy, rfl, hyz⟩ := keyLe_iff.mp hbc
  cases hy
  exact keyLe_iff.mpr ⟨x, z, rfl, rfl, hxy.trans hyz⟩

namespace BTreeInternalPage

variable {p : BTreeInternalPage} {left : Int32} {i j n : ℕ} {key : Option Field} {e : BTreeEntry}
  {pre post : List BTreeEntry}

section Position

/-- Where an entry of the sequence is, and which child is in front of it. -/
theorem entriesBehind_split (h : p.entriesBehind left n i = pre ++ e :: post) :
    ∃ j c, i ≤ j ∧ j < i + n ∧ p.isSlotUsed j = true ∧
      e = ⟨p.keyAt j, some (p.childId c), some (p.childId (p.childAt j)), some ⟨.btree p.pid, j⟩⟩ ∧
      pre = p.entriesBehind left (j - i) i ∧
      post = p.entriesBehind (p.childAt j) (i + n - (j + 1)) (j + 1) ∧
      (∀ k, i ≤ k → k < j → p.isSlotUsed k = true →
        (∀ m, k < m → m < j → p.isSlotUsed m = false) → c = p.childAt k) ∧
      ((∀ m, i ≤ m → m < j → p.isSlotUsed m = false) → c = left) := by
  induction n generalizing i left pre with
  | zero => simp [entriesBehind] at h
  | succ n ih =>
    rw [entriesBehind] at h
    split at h
    · rename_i hu
      cases pre with
      | nil =>
        obtain ⟨rfl, rfl⟩ := List.cons.inj h
        refine ⟨i, left, le_rfl, by omega, hu, rfl, ?_, ?_, fun k _ _ => by omega, fun _ => rfl⟩
        · rw [Nat.sub_self]
          rfl
        · rw [show i + (n + 1) - (i + 1) = n by omega]
      | cons e₀ pre =>
        obtain ⟨rfl, hrest⟩ := List.cons.inj h
        obtain ⟨j, c, hij, hjn, huj, he, hpre, hpost, hnear, hfirst⟩ := ih hrest
        refine ⟨j, c, by omega, by omega, huj, he, ?_, ?_, ?_, ?_⟩
        · rw [show j - i = (j - (i + 1)) + 1 by omega, entriesBehind, if_pos hu, hpre]
        · rw [hpost, show i + 1 + n = i + (n + 1) by omega]
        · intro k hik hkj huk hbetween
          rcases Nat.eq_or_lt_of_le hik with rfl | hlt
          · exact hfirst fun m hm => hbetween m hm
          · exact hnear k hlt hkj huk hbetween
        · intro hnone
          have := hnone i le_rfl (by omega)
          rw [hu] at this
          cases this
    · rename_i hu
      obtain ⟨j, c, hij, hjn, huj, he, hpre, hpost, hnear, hfirst⟩ := ih h
      refine ⟨j, c, by omega, by omega, huj, he, ?_, ?_, ?_, ?_⟩
      · rw [show j - i = (j - (i + 1)) + 1 by omega, entriesBehind, if_neg hu, hpre]
      · rw [hpost, show i + 1 + n = i + (n + 1) by omega]
      · intro k hik hkj huk hbetween
        rcases Nat.eq_or_lt_of_le hik with rfl | hlt
        · exact absurd huk hu
        · exact hnear k hlt hkj huk hbetween
      · exact fun hnone => hfirst fun m hm => hnone m (by omega)

theorem exists_entry (left : Int32) {k : ℕ} (hik : i ≤ k) (hkn : k < i + n) (hu : p.isSlotUsed k = true) :
    ∃ e ∈ p.entriesBehind left n i, e.key = p.keyAt k := by
  induction n generalizing i left with
  | zero => omega
  | succ n ih =>
    rw [entriesBehind]
    rcases Nat.eq_or_lt_of_le hik with rfl | hlt
    · rw [if_pos hu]
      exact ⟨_, List.mem_cons_self, rfl⟩
    · split
      · obtain ⟨e, he, hkey⟩ := ih (p.childAt i) hlt (by omega)
        exact ⟨e, List.mem_cons_of_mem _ he, hkey⟩
      · exact ih left hlt (by omega)

theorem entriesBehind_setKey (hj : j < i ∨ i + n ≤ j) :
    (p.setKey j key).entriesBehind left n i = p.entriesBehind left n i := by
  induction n generalizing i left with
  | zero => rfl
  | succ n ih =>
    have hkey : (p.setKey j key).keyAt i = p.keyAt i := by
      simp [keyAt, setKey, List.getElem?_set_ne (show j ≠ i by omega)]
    rw [entriesBehind, entriesBehind, hkey]
    simp only [show (p.setKey j key).isSlotUsed i = p.isSlotUsed i from rfl,
      show (p.setKey j key).childAt i = p.childAt i from rfl, ih (i := i + 1) (by omega)]
    rfl

/-- Another key in the slot of an entry. -/
theorem entriesBehind_update (h : p.entriesBehind left n i = pre ++ e :: post)
    (hrid : e.rid = some ⟨.btree p.pid, j⟩) (hj : j < p.numSlots) :
    (p.setKey j key).entriesBehind left n i = pre ++ { e with key := key } :: post := by
  induction n generalizing i left pre with
  | zero => simp [entriesBehind] at h
  | succ n ih =>
    have hslot : ∀ {pre left i}, p.entriesBehind left n i = pre ++ e :: post → i ≤ j := by
      intro pre left i hsplit
      obtain ⟨j', c, hij, -, -, he, -⟩ := entriesBehind_split hsplit
      rw [he] at hrid
      cases hrid
      exact hij
    rw [entriesBehind] at h
    split at h
    · rename_i hu
      have hused : (p.setKey j key).isSlotUsed i = true := hu
      rw [entriesBehind, if_pos hused]
      cases pre with
      | nil =>
        obtain ⟨rfl, rfl⟩ := List.cons.inj h
        cases hrid
        have hkey : (p.setKey j key).keyAt j = key := by
          simp [keyAt, setKey, p.keys_length, hj]
        rw [hkey]
        exact congrArg _ (entriesBehind_setKey (.inl (Nat.lt_succ_self j)))
      | cons e₀ pre =>
        obtain ⟨rfl, hrest⟩ := List.cons.inj h
        have hne : j ≠ i := (Nat.lt_of_succ_le (hslot hrest)).ne'
        have hkey : (p.setKey j key).keyAt i = p.keyAt i := by
          simp [keyAt, setKey, List.getElem?_set_ne hne]
        rw [hkey]
        exact congrArg _ (ih hrest)
    · rename_i hu
      have hused : ¬ (p.setKey j key).isSlotUsed i = true := hu
      rw [entriesBehind, if_neg hused]
      exact ih h

end Position

section Update

theorem setChild_eq_self {c : Int32} (hi : i < p.numSlots) (hc : p.childAt i = c) :
    p.setChild i c = p := by
  have hlen : i < p.children.length := by rwa [p.children_length]
  have hsame : p.children.set i c = p.children := by
    rw [← hc, childAt, List.getD_eq_getElem _ _ hlen, List.set_getElem_self]
  unfold setChild
  congr


theorem checkRight_ok (h : ∀ k, i ≤ k → k < i + n → p.isSlotUsed k = true →
    KeyLe key (p.keyAt k)) : p.checkRight key n i = .ok () := by
  induction n generalizing i with
  | zero => rfl
  | succ n ih =>
    rw [checkRight]
    split
    · rename_i hu
      obtain ⟨x, y, rfl, hy, hle⟩ := keyLe_iff.mp (h i le_rfl (by omega) hu)
      simp [assertKey, hy, Field.compare, Field.compareInt, hle, bind, Except.bind, assertThat]
    · exact ih fun k hik hkn => h k (by omega) (by omega)

/-- The check against the next key on the left, which also writes the child there. -/
theorem updateLeft_ok {id : BTreePageId} (hkeys : ∀ k, 0 < k → k < i → p.isSlotUsed k = true →
    KeyLe (p.keyAt k) key) (hchild : ∀ k < i, p.isSlotUsed k = true →
      (∀ m, k < m → m < i → p.isSlotUsed m = false) → p.childAt k = id.pgNo)
    (hi : i ≤ p.numSlots) : p.updateLeft key (some id) i = .ok p := by
  induction i with
  | zero => rfl
  | succ i ih =>
    rw [updateLeft]
    split
    · rename_i hu
      have hcheck : p.assertKeyBehind i .lessThanOrEq key = .ok () := by
        rw [assertKeyBehind]
        split
        · rfl
        · obtain ⟨x, y, hx, rfl, hle⟩ := keyLe_iff.mp (hkeys i (by omega) (by omega) hu)
          simp [assertKey, hx, Field.compare, Field.compareInt, hle, bind, Except.bind, assertThat]
      have hsame : p.setChild i id.pgNo = p := by
        have hc := hchild i (by omega) hu fun m _ _ => by omega
        exact setChild_eq_self hi hc
      rw [Exec.except_bind hcheck]
      simp only [hsame]
      rfl
    · rename_i hu
      refine ih (fun k h₀ hk => hkeys k h₀ (by omega)) (fun k hk huk hbetween => ?_) (by omega)
      refine hchild k (by omega) huk fun m h₁ h₂ => ?_
      rcases Nat.eq_or_lt_of_le (Nat.le_of_lt_succ h₂) with rfl | hlt
      · simpa using hu
      · exact hbetween m h₁ hlt

/-- Another key for an entry of the page, between the keys next to it. -/
theorem updateEntry_spec {rid : RecordId} (h : p.entryList = pre ++ e :: post)
    (hrid : e.rid = some rid) (hpre : ∀ e' ∈ pre, KeyLe e'.key key)
    (hpost : ∀ e' ∈ post, KeyLe key e'.key) :
    p.updateEntry { e with key := key } = .ok (p.setKey rid.tupleno key) ∧
      (p.setKey rid.tupleno key).entryList = pre ++ { e with key := key } :: post := by
  obtain ⟨j, c, hij, hjn, hu, rfl, rfl, rfl, hnear, hfirst⟩ := entriesBehind_split h
  cases hrid
  have hj : j < p.numSlots := by omega
  refine ⟨?_, entriesBehind_update h rfl hj⟩
  have hright : p.checkRight key (p.numSlots - (j + 1)) (j + 1) = .ok () := by
    apply checkRight_ok
    intro k hjk hkn huk
    obtain ⟨e', he', hkey⟩ := exists_entry (p.childAt j)
      (n := 1 + (p.numSlots - 1) - (j + 1)) hjk (by omega) huk
    exact hkey ▸ hpost e' he'
  have hleft : p.updateLeft key (some (p.childId c)) j = .ok p := by
    apply updateLeft_ok _ _ hj.le
    · intro k h₀ hkj huk
      obtain ⟨e', he', hkey⟩ := exists_entry (p.childAt 0) (n := j - 1) h₀ (by omega) huk
      exact hkey ▸ hpre e' he'
    · intro k hkj huk hbetween
      rcases Nat.eq_zero_or_pos k with rfl | hpos
      · exact (hfirst fun m hm => hbetween m hm).symm
      · exact (hnear k hpos hkj huk hbetween).symm
  have hown : (PageId.btree p.pid).pageNumber = p.pid.pgNo ∧
      (PageId.btree p.pid).getTableId = p.pid.tableId := ⟨rfl, rfl⟩
  rw [updateEntry]
  simp only [hown, hu, and_self, not_true_eq_false, if_false, Bool.not_true, Bool.false_eq_true]
  rw [Exec.except_bind hright, Exec.except_bind hleft]
  have hsame : p.setChild j (p.childAt j) = p := setChild_eq_self hj rfl
  change Except.ok ((p.setChild j (p.childAt j)).setKey j key) = _
  rw [hsame]

end Update

section FromTheFront

variable {first : Int32} {a b es : List (Int32 × Int32)}

/-- The entries of a page filled from the front, from slot `i` on. -/
def filledEntries (p : BTreeInternalPage) : Int32 → ℕ → List (Int32 × Int32) → List BTreeEntry
  | _, _, [] => []
  | left, i, e :: es =>
    ⟨some (.int e.1), some (p.childId left), some (p.childId e.2), some ⟨.btree p.pid, i⟩⟩ ::
      p.filledEntries e.2 (i + 1) es

theorem entriesBehind_eq_nil (h : ∀ k, i ≤ k → k < i + n → p.isSlotUsed k = false) :
    p.entriesBehind left n i = [] := by
  induction n generalizing i with
  | zero => rfl
  | succ n ih =>
    rw [entriesBehind, if_neg (by simp [h i le_rfl (by omega)])]
    exact ih fun k hik hkn => h k (by omega) (by omega)

theorem Filled.entriesBehind_eq (h : p.Filled first (a ++ es)) :
    p.entriesBehind left (p.numSlots - (a.length + 1)) (a.length + 1) =
      p.filledEntries left (a.length + 1) es := by
  have hslots := h.slots
  rw [List.length_append] at hslots
  induction es generalizing a left with
  | nil =>
    apply entriesBehind_eq_nil
    intro k hak hkn
    rw [h.used k (by omega), List.append_nil]
    exact decide_eq_false (by omega)
  | cons e es ih =>
    rw [List.length_cons] at hslots
    obtain ⟨hkey, hchild⟩ := h.entry a.length e (by simp)
    have hu : p.isSlotUsed (a.length + 1) = true := by
      rw [h.used _ (by omega), List.length_append, List.length_cons]
      exact decide_eq_true (by omega)
    have hrest := @ih e.2 (a ++ [e]) (by simpa using h) (by simp; omega)
    rw [List.length_append, List.length_singleton] at hrest
    rw [show p.numSlots - (a.length + 1) = (p.numSlots - (a.length + 1 + 1)) + 1 by omega,
      entriesBehind, if_pos hu, hkey, hchild, hrest]
    rfl

theorem Filled.entryList_eq (h : p.Filled first es) :
    p.entryList = p.filledEntries first 1 es := by
  rw [entryList, h.first_child]
  exact Filled.entriesBehind_eq (a := []) h

theorem filledEntries_append (p : BTreeInternalPage) (left : Int32) (i : ℕ)
    (a b : List (Int32 × Int32)) : p.filledEntries left i (a ++ b) =
      p.filledEntries left i a ++ p.filledEntries (KeyTree.lastChild left a) (i + a.length) b := by
  induction a generalizing left i with
  | nil => rfl
  | cons e a ih =>
    have hlast : KeyTree.lastChild left (e :: a) = KeyTree.lastChild e.2 a := by
      simp [KeyTree.lastChild]
    rw [hlast, List.cons_append, filledEntries, ih, filledEntries, List.length_cons,
      show i + (a.length + 1) = i + 1 + a.length by omega]
    rfl

theorem filledEntries_key (h : e ∈ p.filledEntries left i es) :
    ∃ x ∈ es, e.key = some (.int x.1) := by
  induction es generalizing left i with
  | nil => cases h
  | cons x es ih =>
    rcases List.mem_cons.mp h with rfl | h
    · exact ⟨x, List.mem_cons_self, rfl⟩
    · obtain ⟨y, hy, hkey⟩ := ih h
      exact ⟨y, List.mem_cons_of_mem x hy, hkey⟩

theorem filledEntries_sorted (h : es.Pairwise fun a b => a.1.toInt ≤ b.1.toInt) :
    (p.filledEntries left i es).Pairwise fun a b => KeyLe a.key b.key := by
  induction es generalizing left i with
  | nil => exact .nil
  | cons x es ih =>
    obtain ⟨hfirst, hrest⟩ := List.pairwise_cons.mp h
    refine .cons (fun e he => ?_) (ih hrest)
    obtain ⟨y, hy, hkey⟩ := filledEntries_key he
    exact keyLe_iff.mpr ⟨x.1, y.1, rfl, hkey, hfirst y hy⟩

end FromTheFront

end BTreeInternalPage

end PagedDb
