import Mathlib

/-!
# Sequences stored in slots with holes

A page keeps a sequence in numbered slots, some of them empty; the sequence is
what the used slots hold in slot order. Moving one value into an empty
neighbouring slot does not change the sequence, so a run of such moves carries
a hole to where a new value belongs.
-/

namespace PagedDb.Slots

variable {α : Type*}

/-- The values of slots `a, …, b - 1`, in slot order. -/
def segment (f : ℕ → Option α) (a b : ℕ) : List α := (List.range' a (b - a)).filterMap f

theorem segment_of_le (f : ℕ → Option α) {a b : ℕ} (h : b ≤ a) : segment f a b = [] := by
  simp [segment, Nat.sub_eq_zero_of_le h]

theorem segment_append (f : ℕ → Option α) {a b c : ℕ} (hab : a ≤ b) (hbc : b ≤ c) :
    segment f a b ++ segment f b c = segment f a c := by
  have hlen : c - a = (b - a) + (c - b) := by omega
  have hstart : b = a + 1 * (b - a) := by omega
  unfold segment
  rw [hlen, ← List.range'_append, List.filterMap_append, ← hstart]

theorem segment_cons (f : ℕ → Option α) {a b : ℕ} (h : a < b) :
    segment f a b = (f a).toList ++ segment f (a + 1) b := by
  rw [← segment_append f (Nat.le_succ a) h]
  cases ha : f a <;> simp [segment, ha]

theorem segment_snoc (f : ℕ → Option α) {a b : ℕ} (h : a ≤ b) :
    segment f a (b + 1) = segment f a b ++ (f b).toList := by
  rw [← segment_append f h (Nat.le_succ b), segment_cons f (Nat.lt_succ_self b),
    segment_of_le f (Nat.le_refl _), List.append_nil]

theorem segment_congr {f g : ℕ → Option α} {a b : ℕ} (h : ∀ i, a ≤ i → i < b → f i = g i) :
    segment f a b = segment g a b := by
  apply List.filterMap_congr
  intro i hi
  have := List.mem_range'_1.mp hi
  exact h i this.1 (by omega)

theorem mem_segment {f : ℕ → Option α} {a b : ℕ} {x : α} :
    x ∈ segment f a b ↔ ∃ i, a ≤ i ∧ i < b ∧ f i = some x := by
  unfold segment
  simp only [List.mem_filterMap, List.mem_range'_1]
  constructor
  · rintro ⟨i, hi, hx⟩
    exact ⟨i, hi.1, by omega, hx⟩
  · rintro ⟨i, ha, hb, hx⟩
    exact ⟨i, by omega, hx⟩

theorem segment_eq_nil {f : ℕ → Option α} {a b : ℕ} (h : ∀ i, a ≤ i → i < b → f i = none) :
    segment f a b = [] := by
  apply List.eq_nil_iff_forall_not_mem.mpr
  intro x hx
  obtain ⟨i, ha, hb, hi⟩ := mem_segment.mp hx
  simp [h i ha hb] at hi

/-- Move the value of slot `src` into slot `dst`, if that one is empty. -/
def move (f : ℕ → Option α) (src dst : ℕ) : ℕ → Option α :=
  if f dst = none then Function.update (Function.update f dst (f src)) src none else f

/-- Carry the hole at `lo` up by `k` slots, moving each value down by one. -/
def shiftDown (f : ℕ → Option α) (lo : ℕ) : ℕ → ℕ → Option α
  | 0 => f
  | k + 1 => shiftDown (move f (lo + 1) lo) (lo + 1) k

/-- Carry the hole at `lo + k` down to `lo`, moving each value up by one. -/
def shiftUp (f : ℕ → Option α) (lo : ℕ) : ℕ → ℕ → Option α
  | 0 => f
  | k + 1 => shiftUp (move f (lo + k) (lo + k + 1)) lo k

theorem move_of_hole {f : ℕ → Option α} {src dst : ℕ} (h : f dst = none) :
    move f src dst = Function.update (Function.update f dst (f src)) src none := by
  simp [move, h]

theorem shiftDown_outside {f : ℕ → Option α} {lo k j : ℕ} (hole : f lo = none)
    (hj : j < lo ∨ lo + k < j) : shiftDown f lo k j = f j := by
  induction k generalizing f lo with
  | zero => rfl
  | succ k ih =>
    rw [shiftDown, move_of_hole hole, ih (by simp) (by omega)]
    rw [Function.update_of_ne (by omega), Function.update_of_ne (by omega)]

theorem shiftDown_inside {f : ℕ → Option α} {lo k j : ℕ} (hole : f lo = none)
    (h₁ : lo ≤ j) (h₂ : j < lo + k) : shiftDown f lo k j = f (j + 1) := by
  induction k generalizing f lo with
  | zero => omega
  | succ k ih =>
    rw [shiftDown, move_of_hole hole]
    rcases Nat.eq_or_lt_of_le h₁ with rfl | hlt
    · rw [shiftDown_outside (by simp) (by omega), Function.update_of_ne (by omega),
        Function.update_self]
    · rw [ih (by simp) (by omega) (by omega), Function.update_of_ne (by omega),
        Function.update_of_ne (by omega)]

theorem shiftUp_outside {f : ℕ → Option α} {lo k j : ℕ} (hole : f (lo + k) = none)
    (hj : j < lo ∨ lo + k < j) : shiftUp f lo k j = f j := by
  induction k generalizing f with
  | zero => rfl
  | succ k ih =>
    rw [shiftUp, move_of_hole (show f (lo + k + 1) = none from hole), ih (by simp) (by omega)]
    rw [Function.update_of_ne (by omega), Function.update_of_ne (by omega)]

theorem shiftUp_inside {f : ℕ → Option α} {lo k j : ℕ} (hole : f (lo + k) = none)
    (h₁ : lo < j) (h₂ : j ≤ lo + k) : shiftUp f lo k j = f (j - 1) := by
  induction k generalizing f with
  | zero => omega
  | succ k ih =>
    rw [shiftUp, move_of_hole (show f (lo + k + 1) = none from hole)]
    rcases Nat.eq_or_lt_of_le h₂ with rfl | hlt
    · rw [shiftUp_outside (by simp) (by omega), Function.update_of_ne (by omega),
        show lo + (k + 1) = lo + k + 1 by omega, Function.update_self, Nat.add_sub_cancel]
    · rw [ih (by simp) (by omega), Function.update_of_ne (by omega),
        Function.update_of_ne (by omega)]

theorem segment_shift {f g : ℕ → Option α} {a b : ℕ} (h : ∀ i, a ≤ i → i < b → g i = f (i + 1)) :
    segment g a b = segment f (a + 1) (b + 1) := by
  rcases Nat.lt_or_ge b a with hlt | hle
  · rw [segment_of_le g hlt.le, segment_of_le f (by omega)]
  · induction b, hle using Nat.le_induction with
    | base => rw [segment_of_le g (Nat.le_refl _), segment_of_le f (Nat.le_refl _)]
    | succ b hab ih =>
      rw [segment_snoc g hab, segment_snoc f (by omega), h b hab (Nat.lt_succ_self b),
        ih fun i hi hib => h i hi (by omega)]

/-- Put `x` into the sequence at position `p`, using up the hole at slot `e`: the
values between the two are shifted by one slot towards the hole. -/
def insertAt (f : ℕ → Option α) (e p : ℕ) (x : α) : ℕ → Option α :=
  if e < p then Function.update (shiftDown f e (p - 1 - e)) (p - 1) (some x)
  else Function.update (shiftUp f p (e - p)) p (some x)

/-- The slot a value inserted at position `p` ends up in. -/
def goodSlot (e p : ℕ) : ℕ := if e < p then p - 1 else p

theorem insertAt_goodSlot (f : ℕ → Option α) (e p : ℕ) (x : α) :
    insertAt f e p x (goodSlot e p) = some x := by
  unfold insertAt goodSlot
  split_ifs <;> simp

theorem insertAt_outside {f : ℕ → Option α} {e p j : ℕ} {x : α} (hole : f e = none)
    (hj : (j < e ∧ j < p) ∨ (e < j ∧ p ≤ j)) : insertAt f e p x j = f j := by
  unfold insertAt
  split_ifs with h
  · rw [Function.update_of_ne (by omega), shiftDown_outside hole (by omega)]
  · have hole' : f (p + (e - p)) = none := by rwa [Nat.add_sub_of_le (Nat.le_of_not_lt h)]
    rw [Function.update_of_ne (by omega), shiftUp_outside hole' (by omega)]

/-- Every value after an insertion is the new one or was there, in the same slot or in one that
the insertion may move. -/
theorem insertAt_eq_some {f : ℕ → Option α} {e p j : ℕ} {x y : α} (hole : f e = none)
    (h : insertAt f e p x j = some y) : y = x ∨ ∃ i, (i = j ∨ min e p ≤ i) ∧ f i = some y := by
  unfold insertAt at h
  split_ifs at h with hlt
  · by_cases hj : j = p - 1
    · subst hj
      rw [Function.update_self] at h
      exact .inl (Option.some.inj h).symm
    · rw [Function.update_of_ne hj] at h
      by_cases hin : e ≤ j ∧ j < e + (p - 1 - e)
      · rw [shiftDown_inside hole hin.1 hin.2] at h
        exact .inr ⟨j + 1, by omega, h⟩
      · rw [shiftDown_outside hole (by omega)] at h
        exact .inr ⟨j, .inl rfl, h⟩
  · have hole' : f (p + (e - p)) = none := by rwa [Nat.add_sub_of_le (Nat.le_of_not_lt hlt)]
    by_cases hj : j = p
    · subst hj
      rw [Function.update_self] at h
      exact .inl (Option.some.inj h).symm
    · rw [Function.update_of_ne hj] at h
      by_cases hin : p < j ∧ j ≤ p + (e - p)
      · rw [shiftUp_inside hole' hin.1 hin.2] at h
        exact .inr ⟨j - 1, by omega, h⟩
      · rw [shiftUp_outside hole' (by omega)] at h
        exact .inr ⟨j, .inl rfl, h⟩

/-- The sequence gains exactly `x`, between the values below `p` and those from `p` on. -/
theorem segment_insertAt {f : ℕ → Option α} {e p n : ℕ} {x : α} (hole : f e = none)
    (he : e < n) (hp : p ≤ n) :
    segment (insertAt f e p x) 0 n = segment f 0 p ++ x :: segment f p n := by
  have hgood := insertAt_goodSlot f e p x
  unfold goodSlot at hgood
  by_cases h : e < p
  · -- the values of slots `e + 1, …, p - 1` moved down, so they now end before slot `p - 1`
    rw [if_pos h] at hgood
    have hmid : segment (insertAt f e p x) e (p - 1) = segment f (e + 1) p := by
      rw [segment_shift (f := f), Nat.sub_add_cancel (by omega)]
      intro i h₁ h₂
      rw [insertAt, if_pos h, Function.update_of_ne (by omega),
        shiftDown_inside hole h₁ (by omega)]
    have hlow : segment (insertAt f e p x) 0 e = segment f 0 e :=
      segment_congr fun i _ hi => insertAt_outside hole (by omega)
    have hhigh : segment (insertAt f e p x) p n = segment f p n :=
      segment_congr fun i hi _ => insertAt_outside hole (by omega)
    have hold : segment f 0 p = segment f 0 e ++ segment f (e + 1) p := by
      rw [← segment_append f (Nat.zero_le e) h.le, segment_cons f h, hole]
      rfl
    rw [← segment_append _ (Nat.zero_le e) he.le, ← segment_append _ (show e ≤ p - 1 by omega)
      (show p - 1 ≤ n by omega), segment_cons _ (show p - 1 < n by omega), hgood, hlow, hmid,
      Nat.sub_add_cancel (by omega), hhigh, hold]
    simp
  · -- the values of slots `p, …, e - 1` moved up, leaving slot `p` for `x`
    rw [if_neg h] at hgood
    have hpe : p ≤ e := Nat.le_of_not_lt h
    have hole' : f (p + (e - p)) = none := by rwa [Nat.add_sub_of_le hpe]
    have hmid : segment f p e = segment (insertAt f e p x) (p + 1) (e + 1) := by
      apply segment_shift
      intro i h₁ h₂
      rw [insertAt, if_neg h, Function.update_of_ne (by omega),
        shiftUp_inside hole' (by omega) (by omega), Nat.add_sub_cancel]
    have hlow : segment (insertAt f e p x) 0 p = segment f 0 p :=
      segment_congr fun i _ hi => insertAt_outside hole (by omega)
    have hhigh : segment (insertAt f e p x) (e + 1) n = segment f (e + 1) n :=
      segment_congr fun i hi _ => insertAt_outside hole (by omega)
    have hold : segment f p n = segment f p e ++ segment f (e + 1) n := by
      rw [← segment_append f hpe he.le, segment_cons f he, hole]
      rfl
    rw [← segment_append _ (Nat.zero_le p) hp, segment_cons _ (show p < n by omega), hgood, hlow,
      ← segment_append _ (show p + 1 ≤ e + 1 by omega) (show e + 1 ≤ n by omega), ← hmid, hhigh,
      hold]
    rfl

section Carry

variable {σ : Type*} (mv : σ → ℕ → ℕ → σ)

/-- Carry an empty slot from `lo` up by `k` slots, by moves on a page. -/
def carryDown (s : σ) (lo : ℕ) : ℕ → σ
  | 0 => s
  | k + 1 => carryDown (mv s (lo + 1) lo) (lo + 1) k

/-- Carry an empty slot from `lo + k` down to `lo`, by moves on a page. -/
def carryUp (s : σ) (lo : ℕ) : ℕ → σ
  | 0 => s
  | k + 1 => carryUp (mv s (lo + k) (lo + k + 1)) lo k

/-- Carry the empty slot `e` to where a value inserted at position `p` belongs. -/
def makeRoom (s : σ) (e p : ℕ) : σ :=
  if e + 1 < p then carryDown mv s e (p - 1 - e) else carryUp mv s p (e - p)

def roomSlot (e p : ℕ) : ℕ := if e + 1 < p then p - 1 else p

theorem roomSlot_lt {e p n : ℕ} (he : e < n) (hp : p ≤ n) (hne : e + 1 ≠ p) :
    roomSlot e p < n := by
  unfold roomSlot
  split
  · omega
  · omega

variable {mv}

theorem carryDown_keeps {τ : Type*} {part : σ → τ} (h : ∀ s a b, part (mv s a b) = part s) (s : σ)
    (lo k : ℕ) : part (carryDown mv s lo k) = part s := by
  induction k generalizing s lo with
  | zero => rfl
  | succ k ih => rw [carryDown, ih, h]

theorem carryUp_keeps {τ : Type*} {part : σ → τ} (h : ∀ s a b, part (mv s a b) = part s) (s : σ)
    (lo k : ℕ) : part (carryUp mv s lo k) = part s := by
  induction k generalizing s with
  | zero => rfl
  | succ k ih => rw [carryUp, ih, h]

theorem makeRoom_keeps {τ : Type*} {part : σ → τ} (h : ∀ s a b, part (mv s a b) = part s) (s : σ)
    (e p : ℕ) : part (makeRoom mv s e p) = part s := by
  unfold makeRoom
  split
  · exact carryDown_keeps h s _ _
  · exact carryUp_keeps h s _ _

variable {view : σ → ℕ → Option α} {size : σ → ℕ}
  (hsize : ∀ s a b, size (mv s a b) = size s)
  (hmove : ∀ s a b, a < size s → b < size s → view (mv s a b) = move (view s) a b)

include hsize hmove

theorem view_carryDown (s : σ) {lo k : ℕ} (h : lo + k < size s) :
    view (carryDown mv s lo k) = shiftDown (view s) lo k := by
  induction k generalizing s lo with
  | zero => rfl
  | succ k ih =>
    rw [carryDown, shiftDown, ih, hmove s _ _ (by omega) (by omega)]
    rw [hsize]
    omega

theorem view_carryUp (s : σ) {lo k : ℕ} (h : lo + k < size s) :
    view (carryUp mv s lo k) = shiftUp (view s) lo k := by
  induction k generalizing s with
  | zero => rfl
  | succ k ih =>
    rw [carryUp, shiftUp, ih, hmove s _ _ (by omega) (by omega)]
    rw [hsize]
    omega

theorem view_makeRoom (s : σ) {e p : ℕ} (x : α) (he : e < size s) (hp : p ≤ size s)
    (hne : e + 1 ≠ p) :
    Function.update (view (makeRoom mv s e p)) (roomSlot e p) (some x) =
      insertAt (view s) e p x := by
  unfold makeRoom roomSlot insertAt
  by_cases h : e + 1 < p
  · rw [if_pos h, if_pos h, if_pos (by omega), view_carryDown hsize hmove s (by omega)]
  · rw [if_neg h, if_neg h, if_neg (by omega), view_carryUp hsize hmove s (by omega)]

end Carry

theorem segment_update_none {f : ℕ → Option α} {i n : ℕ} (hi : i < n) :
    segment (Function.update f i none) 0 n = segment f 0 i ++ segment f (i + 1) n := by
  rw [← segment_append _ (Nat.zero_le i) hi.le, segment_cons _ hi, Function.update_self,
    segment_congr (g := f) fun j _ hj => Function.update_of_ne (by omega) _ _,
    segment_congr (f := Function.update f i none) (g := f)
      fun j hj _ => Function.update_of_ne (by omega) _ _]
  rfl

theorem segment_at {f : ℕ → Option α} {i n : ℕ} {x : α} (hi : i < n) (hx : f i = some x) :
    segment f 0 n = segment f 0 i ++ x :: segment f (i + 1) n := by
  rw [← segment_append _ (Nat.zero_le i) hi.le, segment_cons _ hi, hx]
  rfl

theorem segment_split {f : ℕ → Option α} {n : ℕ} {x : α} {pre post : List α}
    (h : segment f 0 n = pre ++ x :: post) :
    ∃ i < n, f i = some x ∧ segment f 0 i = pre ∧ segment f (i + 1) n = post := by
  induction n generalizing post with
  | zero =>
    rw [segment_of_le f (Nat.le_refl 0)] at h
    simp at h
  | succ n ih =>
    rw [segment_snoc f (Nat.zero_le n)] at h
    cases hn : f n with
    | none =>
      rw [hn, Option.toList_none, List.append_nil] at h
      obtain ⟨i, hi, hx, hpre, hpost⟩ := ih h
      refine ⟨i, by omega, hx, hpre, ?_⟩
      rw [segment_snoc f (by omega), hn, Option.toList_none, List.append_nil, hpost]
    | some y =>
      rw [hn, Option.toList_some] at h
      rcases List.eq_nil_or_concat post with rfl | ⟨post, z, rfl⟩
      · obtain ⟨hpre, hy⟩ := List.append_inj' h rfl
        cases hy
        exact ⟨n, Nat.lt_succ_self n, hn, hpre, segment_of_le f (Nat.le_refl _)⟩
      · rw [List.concat_eq_append, ← List.cons_append, ← List.append_assoc] at h
        obtain ⟨hrest, hy⟩ := List.append_inj' h rfl
        cases hy
        obtain ⟨i, hi, hx, hpre, hpost⟩ := ih hrest
        refine ⟨i, by omega, hx, hpre, ?_⟩
        rw [segment_snoc f (by omega), hn, hpost, List.concat_eq_append, Option.toList_some]

theorem segment_length (f : ℕ → Option α) (n : ℕ) :
    (segment f 0 n).length = ((List.range n).filter fun i => (f i).isSome).length := by
  rw [segment, List.length_filterMap_eq_countP, List.countP_eq_length_filter, Nat.sub_zero,
    List.range_eq_range']

/-- Where no used slot is behind an empty one, the sequence has every value at its slot. -/
theorem getElem?_segment {f : ℕ → Option α} {n i : ℕ}
    (h : ∀ j < n, (f j).isSome → ∀ k < j, (f k).isSome) (hi : i < n) :
    (segment f 0 n)[i]? = f i := by
  induction n generalizing i with
  | zero => omega
  | succ n ih =>
    have hprefix : ∀ j < n, (segment f 0 n)[j]? = f j :=
      fun j hj => ih (fun k hk => h k (by omega)) hj
    have hlength := segment_length f n
    rw [segment_snoc f (Nat.zero_le n)]
    cases hn : f n with
    | none =>
      rw [Option.toList_none, List.append_nil]
      rcases Nat.lt_succ_iff_lt_or_eq.mp hi with hlt | rfl
      · exact hprefix i hlt
      · rw [hn]
        apply List.getElem?_eq_none
        rw [hlength]
        exact (List.length_filter_le _ _).trans_eq List.length_range
    | some x =>
      have hall : (segment f 0 n).length = n := by
        rw [hlength, List.filter_eq_self.mpr, List.length_range]
        intro j hj
        exact h n (Nat.lt_succ_self n) (by rw [hn]; rfl) j (List.mem_range.mp hj)
      rcases Nat.lt_succ_iff_lt_or_eq.mp hi with hlt | rfl
      · rw [List.getElem?_append_left (by omega), hprefix i hlt]
      · rw [List.getElem?_append_right (by omega), hall, hn, Nat.sub_self]
        rfl

theorem segment_getElem? {f : ℕ → Option α} {l : List α} {n : ℕ}
    (hn : l.length ≤ n) (hf : ∀ i < n, f i = l[i]?) : segment f 0 n = l := by
  induction n generalizing l with
  | zero => rw [segment_of_le f le_rfl, List.length_eq_zero_iff.mp (Nat.le_zero.mp hn)]
  | succ n ih =>
    rw [segment_snoc f (Nat.zero_le n), hf n (Nat.lt_succ_self n)]
    have htake : segment f 0 n = l.take n := by
      apply ih (l.length_take_le n)
      intro i hi
      rw [hf i (by omega), List.getElem?_take_of_lt hi]
    rw [htake]
    rcases Nat.lt_or_ge n l.length with hlt | hge
    · rw [List.getElem?_eq_getElem hlt]
      exact (List.take_concat_get' l n hlt).trans (List.take_of_length_le hn)
    · rw [List.getElem?_eq_none hge, List.take_of_length_le hge]
      exact List.append_nil l

/-- The first of the slots `i, …, i + n - 1` at which the scan stops, else `i + n`. -/
def search (stop : ℕ → Bool) : ℕ → ℕ → ℕ
  | 0, i => i
  | n + 1, i => if stop i then i else search stop n (i + 1)

theorem le_search (stop : ℕ → Bool) (n i : ℕ) : i ≤ search stop n i := by
  induction n generalizing i with
  | zero => exact Nat.le_refl _
  | succ n ih =>
    rw [search]
    split
    · exact Nat.le_refl _
    · exact Nat.le_of_succ_le (ih (i + 1))

theorem search_le (stop : ℕ → Bool) (n i : ℕ) : search stop n i ≤ i + n := by
  induction n generalizing i with
  | zero => exact Nat.le_refl _
  | succ n ih =>
    rw [search]
    split
    · exact Nat.le_add_right _ _
    · have := ih (i + 1)
      omega

theorem search_before {stop : ℕ → Bool} {n i j : ℕ} (h₁ : i ≤ j) (h₂ : j < search stop n i) :
    stop j = false := by
  induction n generalizing i with
  | zero =>
    rw [search] at h₂
    omega
  | succ n ih =>
    rw [search] at h₂
    split at h₂
    · omega
    · rename_i hi
      rcases Nat.eq_or_lt_of_le h₁ with rfl | hlt
      · simpa using hi
      · exact ih hlt h₂

theorem search_stop {stop : ℕ → Bool} {n i : ℕ} (h : search stop n i < i + n) :
    stop (search stop n i) = true := by
  induction n generalizing i with
  | zero =>
    rw [search] at h
    omega
  | succ n ih =>
    rw [search] at h ⊢
    split
    · assumption
    · rename_i hi
      rw [if_neg hi] at h
      exact ih (by omega)

theorem search_lt {stop : ℕ → Bool} {n i j : ℕ} (h₁ : i ≤ j) (h₂ : j < i + n)
    (hj : stop j = true) : search stop n i < i + n := by
  by_contra hle
  have := search_before h₁ (show j < search stop n i by omega)
  simp [hj] at this

theorem search_skip {stop : ℕ → Bool} {n i m : ℕ} (him : i ≤ m) (hm : m ≤ i + n)
    (h : ∀ j, i ≤ j → j < m → stop j = false) : search stop n i = search stop (i + n - m) m := by
  induction n generalizing i with
  | zero =>
    obtain rfl : i = m := by omega
    rw [Nat.add_zero, Nat.sub_self]
  | succ n ih =>
    rcases Nat.eq_or_lt_of_le him with rfl | hlt
    · rw [Nat.add_sub_cancel_left]
    · rw [search, if_neg (by simp [h i (le_refl i) hlt]),
        ih hlt (by omega) fun j h₁ h₂ => h j (by omega) h₂]
      congr 1
      omega

/-- From slot `i` on, a sequence starts with what the scan for a used slot finds. -/
theorem segment_search {f : ℕ → Option α} {stop : ℕ → Bool} {n i : ℕ}
    (h : ∀ j < i + n, stop j = (f j).isSome) : segment f i (i + n) = segment f (search stop n i) (i + n) := by
  rw [← segment_append f (le_search stop n i) (search_le stop n i), segment_eq_nil, List.nil_append]
  intro j h₁ h₂
  have hj := search_before h₁ h₂
  rw [h j (lt_of_lt_of_le h₂ (search_le stop n i))] at hj
  simpa using hj

/-- The position behind the last value that a scan over slots `i, …, i + n - 1` puts before a new
one; the scan stops at the first value that belongs behind it. -/
def scanPos (f : ℕ → Option α) (before : α → Bool) : ℕ → ℕ → ℕ → ℕ
  | 0, _, pos => pos
  | n + 1, i, pos =>
    match f i with
    | none => scanPos f before n (i + 1) pos
    | some x => if before x then scanPos f before n (i + 1) (i + 1) else pos

/-- The scan splits the sequence where its longest prefix of such values ends. -/
theorem scanPos_split {f : ℕ → Option α} {before : α → Bool} (n i pos : ℕ) (hpos : pos ≤ i)
    (hgap : ∀ j, pos ≤ j → j < i → f j = none) :
    pos ≤ scanPos f before n i pos ∧ scanPos f before n i pos ≤ max pos (i + n) ∧
      segment f pos (scanPos f before n i pos) = (segment f i (i + n)).takeWhile before ∧
      segment f (scanPos f before n i pos) (i + n) = (segment f i (i + n)).dropWhile before := by
  induction n generalizing i pos with
  | zero =>
    rw [Nat.add_zero, scanPos, segment_of_le f (Nat.le_refl pos), segment_of_le f (Nat.le_refl i)]
    refine ⟨Nat.le_refl _, Nat.le_max_left _ _, rfl, ?_⟩
    exact segment_eq_nil hgap
  | succ n ih =>
    have hlen : i + (n + 1) = i + 1 + n := by omega
    rw [hlen, segment_cons f (show i < i + 1 + n by omega)]
    cases hi : f i with
    | none =>
      have hgap' : ∀ j, pos ≤ j → j < i + 1 → f j = none := by
        intro j h₁ h₂
        rcases Nat.lt_succ_iff_lt_or_eq.mp h₂ with hlt | rfl
        · exact hgap j h₁ hlt
        · exact hi
      have := ih (i + 1) pos (by omega) hgap'
      simp only [scanPos, hi]
      exact this
    | some x =>
      have hold : segment f pos (i + 1) = [x] := by
        rw [segment_snoc f hpos, segment_eq_nil hgap, hi]
        rfl
      by_cases hx : before x = true
      · have hgap' : ∀ j, i + 1 ≤ j → j < i + 1 → f j = none := by
          intro j h₁ h₂
          omega
        obtain ⟨h₁, h₂, h₃, h₄⟩ := ih (i + 1) (i + 1) (Nat.le_refl _) hgap'
        simp only [scanPos, hi, hx, if_true]
        refine ⟨by omega, by omega, ?_, ?_⟩
        · rw [← segment_append f (show pos ≤ i + 1 by omega) h₁, hold, h₃]
          simp [hx]
        · rw [h₄]
          simp [hx]
      · simp only [scanPos, hi, hx, Bool.false_eq_true, if_false]
        refine ⟨Nat.le_refl _, Nat.le_max_left _ _, ?_, ?_⟩
        · rw [segment_of_le f (Nat.le_refl pos)]
          simp [hx]
        · rw [← segment_append f (show pos ≤ i + 1 by omega) (show i + 1 ≤ i + 1 + n by omega), hold]
          simp [hx]

/-- Right before a position the scan moved to there is a value. -/
theorem scanPos_used {f : ℕ → Option α} {before : α → Bool} (n i pos : ℕ)
    (hpos : 0 < pos → (f (pos - 1)).isSome) (h : 0 < scanPos f before n i pos) :
    (f (scanPos f before n i pos - 1)).isSome := by
  induction n generalizing i pos with
  | zero => exact hpos h
  | succ n ih =>
    cases hi : f i with
    | none =>
      simp only [scanPos, hi] at h ⊢
      exact ih (i + 1) pos hpos h
    | some x =>
      simp only [scanPos, hi] at h ⊢
      split at h
      · rename_i hx
        simp only [hx, if_true]
        exact ih (i + 1) (i + 1) (by simp [hi]) h
      · rename_i hx
        simp only [hx]
        exact hpos h

/-- The last of the slots below `n` at which the scan downwards stops, else `-1`. -/
def searchDown (stop : ℕ → Bool) : ℕ → Int
  | 0 => -1
  | n + 1 => if stop n then n else searchDown stop n

theorem searchDown_cases (stop : ℕ → Bool) (n : ℕ) :
    (searchDown stop n = -1 ∧ ∀ i < n, stop i = false) ∨
      ∃ j < n, searchDown stop n = j ∧ stop j = true ∧ ∀ i, j < i → i < n → stop i = false := by
  induction n with
  | zero => exact .inl ⟨rfl, fun i hi => absurd hi (Nat.not_lt_zero i)⟩
  | succ n ih =>
    rw [searchDown]
    cases hn : stop n with
    | true => exact .inr ⟨n, Nat.lt_succ_self n, rfl, hn, fun i h₁ h₂ => absurd h₂ (by omega)⟩
    | false =>
      have hlast : ∀ i, i < n + 1 → (i < n → stop i = false) → stop i = false := by
        intro i hi hlt
        rcases Nat.lt_or_ge i n with h | h
        · exact hlt h
        · rwa [show i = n by omega]
      rcases ih with ⟨heq, hall⟩ | ⟨j, hj, heq, hstop, hall⟩
      · exact .inl ⟨heq, fun i hi => hlast i hi (hall i)⟩
      · exact .inr ⟨j, by omega, heq, hstop, fun i h₁ h₂ => hlast i h₂ (hall i h₁)⟩

theorem searchDown_skip {stop : ℕ → Bool} {m n : ℕ} (hmn : m ≤ n)
    (h : ∀ i, m ≤ i → i < n → stop i = false) : searchDown stop n = searchDown stop m := by
  induction n, hmn using Nat.le_induction with
  | base => rfl
  | succ n hmn ih =>
    rw [searchDown, h n hmn (Nat.lt_succ_self n)]
    exact ih fun i h₁ h₂ => h i h₁ (by omega)

theorem searchDown_lt (stop : ℕ → Bool) (n : ℕ) : searchDown stop n < n := by
  induction n with
  | zero => simp [searchDown]
  | succ n ih =>
    rw [searchDown]
    split
    · omega
    · omega

end PagedDb.Slots
