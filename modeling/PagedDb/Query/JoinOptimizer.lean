import Mathlib

/-!
# The subsets of the joins

The optimizer asks for the sets of joins of one size. The recursion takes one
element out and then the rest of the set from what is left, so a set comes up once
for every order in which its elements can be taken out.
-/

namespace PagedDb

open Nat

namespace Draws

variable {α : Type*}

/-- One element, and then `k` of the others: every choice of `k + 1` elements comes up `k + 1` times. -/
theorem sum_eraseIdx (v : List α) (k : ℕ) :
    ((List.finRange v.length).map fun i : Fin v.length =>
      ((v.eraseIdx i : Multiset α).powersetCard k).map (v.get i ::ₘ ·)).sum =
      (k + 1) • (v : Multiset α).powersetCard (k + 1) := by
  induction v generalizing k with
  | nil => simp [Multiset.powersetCard_zero_right]
  | cons a v ih =>
    have hrest : ((List.finRange v.length).map fun i : Fin v.length =>
        ((a :: v.eraseIdx i : Multiset α).powersetCard k).map (v.get i ::ₘ ·)).sum =
        (k + 1) • (v : Multiset α).powersetCard (k + 1) +
          k • ((v : Multiset α).powersetCard k).map (a ::ₘ ·) := by
      cases k with
      | zero => simpa using ih 0
      | succ k =>
        -- the element `a` is among the others or not
        have hterm : ∀ i : Fin v.length,
            ((a :: v.eraseIdx i : Multiset α).powersetCard (k + 1)).map (v.get i ::ₘ ·) =
              ((v.eraseIdx i : Multiset α).powersetCard (k + 1)).map (v.get i ::ₘ ·) +
              Multiset.mapAddMonoidHom (a ::ₘ ·)
                (((v.eraseIdx i : Multiset α).powersetCard k).map (v.get i ::ₘ ·)) := by
          intro i
          rw [← Multiset.cons_coe, Multiset.powersetCard_cons, Multiset.map_add, Multiset.map_map,
            Multiset.coe_mapAddMonoidHom, Multiset.map_map]
          refine congrArg _ (Multiset.map_congr rfl fun m _ => ?_)
          exact Multiset.cons_swap ..
        have hsum := congrArg (Multiset.mapAddMonoidHom (a ::ₘ ·)) (ih k)
        rw [map_list_sum, List.map_map, map_nsmul, Multiset.coe_mapAddMonoidHom] at hsum
        rw [List.map_congr_left fun i _ => hterm i, List.sum_map_add, ih (k + 1)]
        exact congrArg _ hsum
    change ((List.finRange (v.length + 1)).map fun i : Fin (v.length + 1) =>
      (((a :: v).eraseIdx i : Multiset α).powersetCard k).map ((a :: v).get i ::ₘ ·)).sum = _
    rw [List.finRange_succ, List.map_cons, List.sum_cons, List.map_map]
    refine (congrArg (((v : Multiset α).powersetCard k).map (a ::ₘ ·) + ·) hrest).trans ?_
    rw [← Multiset.cons_coe, Multiset.powersetCard_cons, nsmul_add, add_left_comm,
      succ_nsmul' (Multiset.map _ _)]

end Draws

namespace JoinOptimizer

variable {α : Type*} [DecidableEq α]

def enumerateSubsets (v : List α) (size : Int) : List (Finset α) :=
  if size = 0 then [∅]
  else (List.finRange v.length).flatMap fun i : Fin v.length =>
    (enumerateSubsets (v.eraseIdx i) (size - 1)).map fun s => insert (v.get i) s
termination_by v.length
decreasing_by
  rw [List.length_eraseIdx_of_lt i.isLt]
  have hpos := i.isLt
  omega

theorem enumerateSubsets_neg (v : List α) {size : Int} (h : size < 0) : enumerateSubsets v size = [] := by
  fun_induction enumerateSubsets v size with
  | case1 v => omega
  | case2 v size hne ih =>
    refine List.flatMap_eq_nil_iff.mpr fun i _ => ?_
    rw [ih i (by omega), List.map_nil]

/-- Each choice of elements comes up once for every order of them. -/
theorem enumerateSubsets_coe (v : List α) (k : ℕ) :
    (enumerateSubsets v k : Multiset (Finset α)) =
      k ! • ((v : Multiset α).powersetCard k).map Multiset.toFinset := by
  induction k generalizing v with
  | zero =>
    rw [enumerateSubsets, if_pos (by rfl)]
    simp
  | succ k ih =>
    have hsize : ((k + 1 : ℕ) : Int) - 1 = k := by omega
    have hterm : ∀ i : Fin v.length,
        (((enumerateSubsets (v.eraseIdx i) k).map fun s => insert (v.get i) s : List (Finset α)) :
          Multiset (Finset α)) = k ! • Multiset.mapAddMonoidHom Multiset.toFinset
            (((v.eraseIdx i : Multiset α).powersetCard k).map (v.get i ::ₘ ·)) := by
      intro i
      rw [← Multiset.map_coe, ih, Multiset.map_nsmul, Multiset.map_map, Multiset.coe_mapAddMonoidHom,
        Multiset.map_map]
      refine congrArg _ (Multiset.map_congr rfl fun m _ => ?_)
      exact (Multiset.toFinset_cons ..).symm
    rw [enumerateSubsets, if_neg (by omega), ← Multiset.coe_bind, hsize, Multiset.bind,
      Multiset.map_congr rfl fun i _ => hterm i]
    have hsum := congrArg (Multiset.mapAddMonoidHom Multiset.toFinset) (Draws.sum_eraseIdx v k)
    rw [map_list_sum, List.map_map, map_nsmul, Multiset.coe_mapAddMonoidHom] at hsum
    rw [Multiset.join, Multiset.sum_map_nsmul, Multiset.map_coe, Multiset.sum_coe, factorial_succ,
      mul_comm, ← smul_smul]
    exact congrArg _ hsum

/-- The choices of `k` of some distinct values are their subsets of that size. -/
theorem map_toFinset_powersetCard {v : List α} (hv : v.Nodup) (k : ℕ) :
    ((v : Multiset α).powersetCard k).map Multiset.toFinset = (v.toFinset.powersetCard k).val := by
  have hval : v.toFinset.val = v := by rw [List.toFinset_val, hv.dedup]
  have hself : (v.toFinset.powersetCard k).val.map Finset.val = (v : Multiset α).powersetCard k := by
    rw [← hval]
    exact Finset.map_val_val_powersetCard ..
  rw [← hself, Multiset.map_map]
  exact (Multiset.map_congr rfl fun s _ => s.val_toFinset).trans (Multiset.map_id _)

/-- For a size that is not negative the result has the subsets of that size, with repetition: in any
vector each choice of elements, and so of distinct elements each subset, comes up once for every
order in which it can be taken out. For a negative size there is none. -/
theorem enumerateSubsets_spec (v : List α) (size : Int) :
    (size < 0 → enumerateSubsets v size = []) ∧ ∀ k : ℕ, size = k →
      (enumerateSubsets v size : Multiset (Finset α)) =
        k ! • ((v : Multiset α).powersetCard k).map Multiset.toFinset ∧
      (v.Nodup → ∀ s, (enumerateSubsets v size).count s =
        if s ⊆ v.toFinset ∧ s.card = k then k ! else 0) := by
  refine ⟨enumerateSubsets_neg v, ?_⟩
  rintro k rfl
  refine ⟨enumerateSubsets_coe v k, fun hv s => ?_⟩
  rw [← Multiset.coe_count, enumerateSubsets_coe, Multiset.count_nsmul, map_toFinset_powersetCard hv,
    Multiset.count_eq_of_nodup (Finset.nodup _), mul_ite, mul_one, mul_zero]
  exact if_congr (by rw [Finset.mem_val, Finset.mem_powersetCard]) rfl rfl

/-- The two elements of a set can be taken out in either order. -/
example : enumerateSubsets [1, 2, 3] 2 = [{1, 2}, {1, 3}, {1, 2}, {2, 3}, {1, 3}, {2, 3}] := by
  simp [enumerateSubsets, List.finRange]
  decide

end JoinOptimizer

end PagedDb
