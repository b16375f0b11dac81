import PagedDb.Foundation.Memory

/-!
# Writing consecutive records

A writer keeps a running offset and fills one record of a fixed size after the
other. If each step stays inside its own record, what a record holds in the end
is what its own step put there.
-/

namespace PagedDb.Layout

open Memory

abbrev Cursor := Buffer × ℕ

/-- Run the writer for the records `0, …, n - 1`. -/
def walk (step : Cursor → ℕ → Cursor) (n : ℕ) (start : Cursor) : Cursor :=
  (List.range n).foldl step start

/-- Step `i` advances by `size` and touches no other byte. -/
structure Fills (step : Cursor → ℕ → Cursor) (size i : ℕ) : Prop where
  advance : ∀ c, (step c i).2 = c.2 + size
  frame : ∀ c j, (j < c.2 ∨ c.2 + size ≤ j) → (step c i).1 j = c.1 j

variable {step : Cursor → ℕ → Cursor} {size n : ℕ}

theorem walk_succ (step : Cursor → ℕ → Cursor) (n : ℕ) (start : Cursor) :
    walk step (n + 1) start = step (walk step n start) n := by
  simp [walk, List.range_succ]

theorem walk_offset (h : ∀ i < n, Fills step size i) (start : Cursor) :
    (walk step n start).2 = start.2 + n * size := by
  induction n with
  | zero => simp [walk]
  | succ n ih =>
    rw [walk_succ, (h n (Nat.lt_succ_self n)).advance, ih fun i hi => h i (by omega)]
    ring

theorem walk_outside (h : ∀ i < n, Fills step size i) {start : Cursor} {j : ℕ}
    (hj : j < start.2 ∨ start.2 + n * size ≤ j) : (walk step n start).1 j = start.1 j := by
  induction n with
  | zero => rfl
  | succ n ih =>
    have hbefore : ∀ i < n, Fills step size i := fun i hi => h i (by omega)
    have hend : start.2 + (n + 1) * size = start.2 + n * size + size := by ring
    rw [walk_succ, (h n (Nat.lt_succ_self n)).frame, ih hbefore]
    · omega
    · rw [walk_offset hbefore]
      omega

/-- Record `i` holds what step `i` wrote: the later steps are all above it. -/
theorem walk_inside (h : ∀ i < n, Fills step size i) {start : Cursor} {i j : ℕ} (hi : i < n)
    (hj : j < start.2 + i * size + size) :
    (walk step n start).1 j = (step (walk step i start) i).1 j := by
  induction n with
  | zero => omega
  | succ n ih =>
    have hbefore : ∀ k < n, Fills step size k := fun k hk => h k (by omega)
    rcases Nat.lt_succ_iff_lt_or_eq.mp hi with hlt | rfl
    · have hle : i * size + size ≤ n * size := by
        have := Nat.mul_le_mul_right size hlt
        rwa [Nat.succ_mul] at this
      rw [walk_succ, (h n (Nat.lt_succ_self n)).frame, ih hbefore hlt]
      rw [walk_offset hbefore]
      omega
    · rw [walk_succ]

end PagedDb.Layout
