import Mathlib

/-!
# Records filed under two keys

Two partial maps file the same records, each under its own key. They are
inverse if a record found in one of them carries the key it was found under
and is what the other map has under its second key. The two operations that
keep this are to file a record under keys nobody uses and to take a record
out of both maps.
-/

namespace PagedDb.TwoIndexes

variable {ρ α β : Type*}

/-- Each map finds a record under its own key, and the other map has the same record. -/
structure Inverse (fst : ρ → α) (snd : ρ → β) (m : α → Option ρ) (n : β → Option ρ) : Prop where
  left : ∀ {a r}, m a = some r → fst r = a ∧ n (snd r) = some r
  right : ∀ {b r}, n b = some r → snd r = b ∧ m (fst r) = some r

namespace Inverse

variable {fst : ρ → α} {snd : ρ → β} {m : α → Option ρ} {n : β → Option ρ} {r s : ρ}

theorem empty (fst : ρ → α) (snd : ρ → β) : Inverse fst snd (fun _ => none) fun _ => none where
  left h := by cases h
  right h := by cases h

theorem filed_iff (h : Inverse fst snd m n) : m (fst r) = some r ↔ n (snd r) = some r :=
  ⟨fun hr => (h.left hr).2, fun hr => (h.right hr).2⟩

theorem eq_of_snd (h : Inverse fst snd m n) (hr : m (fst r) = some r) (hs : m (fst s) = some s)
    (heq : snd r = snd s) : r = s := by
  have hr' := h.filed_iff.mp hr
  have hs' := h.filed_iff.mp hs
  rw [heq, hs'] at hr'
  exact (Option.some.inj hr').symm

theorem eq_of_fst (h : Inverse fst snd m n) (hr : n (snd r) = some r) (hs : n (snd s) = some s)
    (heq : fst r = fst s) : r = s := by
  have hr' := h.filed_iff.mpr hr
  have hs' := h.filed_iff.mpr hs
  rw [heq, hs'] at hr'
  exact (Option.some.inj hr').symm

variable [DecidableEq α] [DecidableEq β]

theorem erase (h : Inverse fst snd m n) (hr : m (fst r) = some r) :
    Inverse fst snd (Function.update m (fst r) none) (Function.update n (snd r) none) where
  left {a s} hs := by
    have hne : a ≠ fst r := by
      rintro rfl
      simp at hs
    rw [Function.update_of_ne hne] at hs
    obtain ⟨rfl, hs'⟩ := h.left hs
    refine ⟨rfl, ?_⟩
    rwa [Function.update_of_ne]
    intro heq
    exact hne (congrArg fst (h.eq_of_snd hs hr heq))
  right {b s} hs := by
    have hne : b ≠ snd r := by
      rintro rfl
      simp at hs
    rw [Function.update_of_ne hne] at hs
    obtain ⟨rfl, hs'⟩ := h.right hs
    refine ⟨rfl, ?_⟩
    rwa [Function.update_of_ne]
    intro heq
    exact hne (congrArg snd (h.eq_of_fst hs (h.filed_iff.mp hr) heq))

theorem insert (h : Inverse fst snd m n) (hm : m (fst r) = none) (hn : n (snd r) = none) :
    Inverse fst snd (Function.update m (fst r) (some r))
      (Function.update n (snd r) (some r)) where
  left {a s} hs := by
    by_cases ha : a = fst r
    · subst ha
      obtain rfl : r = s := by simpa using hs
      simp
    · rw [Function.update_of_ne ha] at hs
      obtain ⟨hkey, hs'⟩ := h.left hs
      have hne : snd s ≠ snd r := by
        intro heq
        simp [← heq, hs'] at hn
      simp [hkey, hne, hs']
  right {b s} hs := by
    by_cases hb : b = snd r
    · subst hb
      obtain rfl : r = s := by simpa using hs
      simp
    · rw [Function.update_of_ne hb] at hs
      obtain ⟨hkey, hs'⟩ := h.right hs
      have hne : fst s ≠ fst r := by
        intro heq
        simp [← heq, hs'] at hm
      simp [hkey, hne, hs']

end Inverse

end PagedDb.TwoIndexes
