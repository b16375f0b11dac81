import PagedDb.Foundation.Slots

/-!
# Values on shelves, first fit

Values lie in the slots of numbered shelves of one width. A new value goes to the
first free slot of the first shelf that has one, or to a new shelf behind the last
one. A value is taken out of its slot, and nothing ever moves.
-/

namespace PagedDb

open Slots

/-- Shelves of `width` slots each; there is nothing outside. -/
@[ext] structure Shelves (α : Type*) where
  width : ℕ
  count : ℕ
  at? : ℕ → ℕ → Option α
  behind : ∀ n i, count ≤ n → at? n i = none
  beyond : ∀ n i, width ≤ i → at? n i = none

namespace Shelves

variable {α : Type*} (S : Shelves α) {n m i j : ℕ} {a : α}

/-- The first free slot of a shelf, `width` if there is none. -/
def freeSlot (n : ℕ) : ℕ := search (fun i => (S.at? n i).isNone) S.width 0

/-- The first shelf with a free slot, `count` if there is none. -/
def freeShelf : ℕ := search (fun n => decide (S.freeSlot n < S.width)) S.count 0

/-- Put a value, or nothing, into a slot. -/
def set (n i : ℕ) (a : Option α) : Shelves α where
  width := S.width
  count := max S.count (n + 1)
  at? m j := if m = n ∧ j = i ∧ j < S.width then a else S.at? m j
  behind := by
    intro m j hm
    rw [if_neg (by omega), S.behind m j (by omega)]
  beyond := by
    intro m j hj
    rw [if_neg (by omega), S.beyond m j hj]

def insert (a : α) : Shelves α := S.set S.freeShelf (S.freeSlot S.freeShelf) (some a)

def contents : Multiset α := ∑ n ∈ Finset.range S.count, ↑(segment (S.at? n) 0 S.width)

variable {S}

theorem lt_of_at? (h : S.at? n i = some a) : n < S.count ∧ i < S.width := by
  constructor
  · by_contra hle
    rw [S.behind n i (Nat.le_of_not_lt hle)] at h
    cases h
  · by_contra hle
    rw [S.beyond n i (Nat.le_of_not_lt hle)] at h
    cases h

theorem set_self (hi : i < S.width) (a : Option α) : (S.set n i a).at? n i = a :=
  if_pos ⟨rfl, rfl, hi⟩

theorem set_ne (h : (m, j) ≠ (n, i)) (a : Option α) : (S.set n i a).at? m j = S.at? m j :=
  if_neg fun heq => h (Prod.ext heq.1 heq.2.1)

theorem set_shelf (hi : i < S.width) (a : Option α) :
    (S.set n i a).at? n = Function.update (S.at? n) i a := by
  funext j
  rcases eq_or_ne j i with rfl | hne
  · rw [set_self hi, Function.update_self]
  · rw [set_ne (fun heq => hne (congrArg Prod.snd heq)), Function.update_of_ne hne]

theorem set_other_shelf (h : m ≠ n) (a : Option α) : (S.set n i a).at? m = S.at? m := by
  funext j
  exact set_ne (fun heq => h (congrArg Prod.fst heq)) a

theorem freeSlot_eq (h : i < S.width) (hfree : S.at? n i = none)
    (hbefore : ∀ j < i, (S.at? n j).isSome) : S.freeSlot n = i := by
  have hlt : S.freeSlot n < 0 + S.width := search_lt (Nat.zero_le i) (by omega) (by rw [hfree]; rfl)
  have hstop := search_stop hlt
  rcases lt_trichotomy (S.freeSlot n) i with hless | heq | hgt
  · have hused := hbefore _ hless
    rw [Option.isNone_iff_eq_none] at hstop
    rw [freeSlot, hstop] at hused
    cases hused
  · exact heq
  · have hnone := search_before (Nat.zero_le i) hgt
    rw [hfree] at hnone
    cases hnone

theorem freeSlot_lt_iff : S.freeSlot n < S.width ↔ ∃ i < S.width, S.at? n i = none := by
  constructor
  · intro hlt
    have hstop := search_stop (show S.freeSlot n < 0 + S.width by omega)
    exact ⟨_, hlt, Option.isNone_iff_eq_none.mp hstop⟩
  · rintro ⟨i, hi, hfree⟩
    have hlt : S.freeSlot n < 0 + S.width :=
      search_lt (Nat.zero_le i) (by omega) (by rw [hfree]; rfl)
    omega

theorem freeShelf_le : S.freeShelf ≤ S.count := by
  have hle := search_le (fun n => decide (S.freeSlot n < S.width)) S.count 0
  rwa [Nat.zero_add] at hle

theorem full_before (h : n < S.freeShelf) (hi : i < S.width) : (S.at? n i).isSome := by
  have hnone := search_before (Nat.zero_le n) h
  rw [← Option.not_isNone]
  refine Bool.not_eq_true' _ |>.mpr ?_
  by_contra hfree
  refine absurd (freeSlot_lt_iff.mpr ⟨i, hi, ?_⟩) (of_decide_eq_false hnone)
  exact Option.isNone_iff_eq_none.mp (by simpa using hfree)

theorem place_free (hpos : 0 < S.width) :
    S.freeSlot S.freeShelf < S.width ∧ S.at? S.freeShelf (S.freeSlot S.freeShelf) = none := by
  have hlt : S.freeSlot S.freeShelf < S.width := by
    rcases (freeShelf_le (S := S)).lt_or_eq with hlt | heq
    · exact of_decide_eq_true (search_stop (show S.freeShelf < 0 + S.count by omega))
    · exact freeSlot_lt_iff.mpr ⟨0, hpos, S.behind _ _ heq.ge⟩
  refine ⟨hlt, ?_⟩
  exact Option.isNone_iff_eq_none.mp (search_stop (show S.freeSlot _ < 0 + S.width by omega))

theorem contents_eq (h : S.count ≤ m) :
    S.contents = ∑ n ∈ Finset.range m, ↑(segment (S.at? n) 0 S.width) := by
  refine Finset.sum_subset (Finset.range_subset_range.mpr h) fun n _ hn => ?_
  rw [Finset.mem_range, not_lt] at hn
  rw [segment_eq_nil fun i _ _ => S.behind n i hn]
  rfl

theorem contents_set_some (hi : i < S.width) (hfree : S.at? n i = none) :
    (S.set n i (some a)).contents = a ::ₘ S.contents := by
  have hmem : n ∈ Finset.range (max S.count (n + 1)) := Finset.mem_range.mpr (by omega)
  have hrest : ∀ m ∈ (Finset.range (max S.count (n + 1))).erase n,
      (segment ((S.set n i (some a)).at? m) 0 S.width : Multiset α) =
        segment (S.at? m) 0 S.width := by
    intro m hm
    rw [set_other_shelf (Finset.ne_of_mem_erase hm)]
  have hshelf : (segment ((S.set n i (some a)).at? n) 0 S.width : Multiset α) =
      a ::ₘ segment (S.at? n) 0 S.width := by
    have hback : S.at? n = Function.update ((S.set n i (some a)).at? n) i none := by
      rw [set_shelf hi, Function.update_idem, ← hfree, Function.update_eq_self]
    rw [segment_at hi (set_self hi _), hback, segment_update_none hi, Multiset.cons_coe,
      Multiset.coe_eq_coe]
    exact List.perm_middle
  have hfull : (S.set n i (some a)).contents = ∑ m ∈ Finset.range (max S.count (n + 1)),
      ↑(segment ((S.set n i (some a)).at? m) 0 S.width) := rfl
  rw [hfull, contents_eq (Nat.le_max_left S.count (n + 1)), ← Finset.add_sum_erase _ _ hmem,
    ← Finset.add_sum_erase _ _ hmem, Finset.sum_congr rfl hrest, hshelf, Multiset.cons_add]

theorem contents_set_none (h : S.at? n i = some a) :
    S.contents = a ::ₘ (S.set n i none).contents := by
  obtain ⟨hn, hi⟩ := lt_of_at? h
  have hback : (S.set n i none).set n i (some a) = S := by
    ext1
    case width => rfl
    case count =>
      change max (max S.count (n + 1)) (n + 1) = S.count
      omega
    case at? =>
      funext m j
      rcases eq_or_ne (m, j) (n, i) with heq | hne
      · obtain ⟨rfl, rfl⟩ := Prod.mk.inj heq
        rw [set_self (S := S.set m j none) hi, h]
      · rw [set_ne hne, set_ne hne]
  rw [← contents_set_some (S := S.set n i none) hi (set_self hi none), hback]

end Shelves

end PagedDb
