import Mathlib

/-!
# Write-back caches

A store is a cache of contents, each clean or dirty, over a disk. What a reader
sees is the cached content, or the disk's where nothing is cached. Loading,
flushing and dropping clean entries never change what a reader sees of the live
keys; only a write does, and only at its own key.
-/

namespace PagedDb.WriteBack

variable {κ γ : Type*}

/-- Cached contents with their dirty bits, over what the disk holds. -/
structure Store (κ γ : Type*) where
  cache : κ → Option (γ × Bool)
  disk : κ → Option γ

def Store.view (s : Store κ γ) (k : κ) : Option γ :=
  match s.cache k with
  | some (c, _) => some c
  | none => s.disk k

/-- A cache entry and the disk under it: only live keys are dirty, and the disk has the
content of a live key that is not. -/
def Backed (live : Prop) : Option (γ × Bool) → Option γ → Prop
  | some (_, true), _ => live
  | some (c, false), d => live → d = some c
  | none, d => live → ∃ c, d = some c

def Coherent (live : Set κ) (s : Store κ γ) : Prop :=
  ∀ k, Backed (k ∈ live) (s.cache k) (s.disk k)

def SameView (live : Set κ) (s t : Store κ γ) : Prop := ∀ k ∈ live, t.view k = s.view k

variable {live : Set κ} {s t u : Store κ γ} {k : κ} {c : γ}

theorem SameView.refl (live : Set κ) (s : Store κ γ) : SameView live s s := fun _ _ => rfl

theorem SameView.trans (h : SameView live s t) (h' : SameView live t u) :
    SameView live s u := fun j hj => (h' j hj).trans (h j hj)

theorem Coherent.view_isSome (h : Coherent live s) (hk : k ∈ live) : ∃ c, s.view k = some c := by
  have hb := h k
  unfold Store.view
  cases hc : s.cache k with
  | none => rw [hc] at hb; exact hb hk
  | some e => exact ⟨e.1, rfl⟩

theorem Coherent.view_eq_disk (h : Coherent live s) (hk : k ∈ live)
    (hclean : ∀ c, s.cache k ≠ some (c, true)) : s.view k = s.disk k := by
  have hb := h k
  unfold Store.view
  cases hc : s.cache k with
  | none => rfl
  | some e =>
    obtain ⟨c, d⟩ := e
    cases d with
    | false => rw [hc] at hb; exact (hb hk).symm
    | true => exact absurd hc (hclean c)

theorem Coherent.live_of_dirty (h : Coherent live s) (hk : s.cache k = some (c, true)) :
    k ∈ live := by
  have hb := h k
  rwa [hk] at hb

/-- A step that touches one entry has to keep only that entry backed, as long as the disk
loses nothing it had. -/
theorem Coherent.step {live' : Set κ} (h : Coherent live s)
    (hlive : ∀ j, j ≠ k → (j ∈ live' ↔ j ∈ live)) (hcache : ∀ j, j ≠ k → t.cache j = s.cache j)
    (hdisk : ∀ j ∈ live, j ≠ k → ∀ d, s.disk j = some d → t.disk j = some d)
    (hself : Backed (k ∈ live') (t.cache k) (t.disk k)) :
    Coherent live' t ∧ ∀ j ∈ live, j ≠ k → t.view j = s.view j := by
  constructor
  · intro j
    rcases eq_or_ne j k with rfl | hjk
    · exact hself
    · have hb := h j
      rw [hcache j hjk]
      cases hc : s.cache j with
      | none =>
        rw [hc] at hb
        intro hj
        obtain ⟨d, hd⟩ := hb ((hlive j hjk).mp hj)
        exact ⟨d, hdisk j ((hlive j hjk).mp hj) hjk d hd⟩
      | some e =>
        obtain ⟨d, dirty⟩ := e
        rw [hc] at hb
        cases dirty with
        | false =>
          intro hj
          exact hdisk j ((hlive j hjk).mp hj) hjk d (hb ((hlive j hjk).mp hj))
        | true => exact (hlive j hjk).mpr hb
  · intro j hj hjk
    have hb := h j
    unfold Store.view
    rw [hcache j hjk]
    cases hc : s.cache j with
    | none =>
      rw [hc] at hb
      obtain ⟨d, hd⟩ := hb hj
      simp only [hd, hdisk j hj hjk d hd]
    | some e => rfl

theorem Coherent.load (h : Coherent live s) (hk : s.cache k = none)
    (hcache : ∀ j, j ≠ k → t.cache j = s.cache j) (hdisk : t.disk = s.disk)
    (hself : t.cache k = some (c, false)) (hcontent : k ∈ live → s.disk k = some c) :
    Coherent live t ∧ SameView live s t := by
  have hb : Backed (k ∈ live) (t.cache k) (t.disk k) := by
    rw [hself, hdisk]
    exact hcontent
  obtain ⟨hcoh, hview⟩ := h.step (fun _ _ => Iff.rfl) hcache (fun _ _ _ _ hd => hdisk ▸ hd) hb
  refine ⟨hcoh, fun j hj => ?_⟩
  rcases eq_or_ne j k with rfl | hjk
  · rw [Store.view, Store.view, hself, hk]
    exact (hcontent hj).symm
  · exact hview j hj hjk

theorem Coherent.flush (h : Coherent live s) (hk : s.cache k = some (c, true))
    (hcache : ∀ j, j ≠ k → t.cache j = s.cache j) (hself : t.cache k = some (c, false))
    (hdisk : t.disk k = some c)
    (hframe : ∀ j ∈ live, j ≠ k → ∀ d, s.disk j = some d → t.disk j = some d) :
    Coherent live t ∧ SameView live s t := by
  have hb : Backed (k ∈ live) (t.cache k) (t.disk k) := by
    rw [hself]
    exact fun _ => hdisk
  obtain ⟨hcoh, hview⟩ := h.step (fun _ _ => Iff.rfl) hcache hframe hb
  refine ⟨hcoh, fun j hj => ?_⟩
  rcases eq_or_ne j k with rfl | hjk
  · rw [Store.view, Store.view, hself, hk]
  · exact hview j hj hjk

theorem Coherent.drop (h : Coherent live s) (hk : ∀ c, s.cache k ≠ some (c, true))
    (hcache : ∀ j, j ≠ k → t.cache j = s.cache j) (hdisk : t.disk = s.disk)
    (hself : t.cache k = none) : Coherent live t ∧ SameView live s t := by
  have hb : Backed (k ∈ live) (t.cache k) (t.disk k) := by
    rw [hself, hdisk]
    intro hk'
    obtain ⟨c, hc⟩ := h.view_isSome hk'
    exact ⟨c, by rwa [h.view_eq_disk hk' hk] at hc⟩
  obtain ⟨hcoh, hview⟩ := h.step (fun _ _ => Iff.rfl) hcache (fun _ _ _ _ hd => hdisk ▸ hd) hb
  refine ⟨hcoh, fun j hj => ?_⟩
  rcases eq_or_ne j k with rfl | hjk
  · rw [h.view_eq_disk hj hk, Store.view, hself, hdisk]
  · exact hview j hj hjk

theorem Coherent.write (h : Coherent live s) (hcache : ∀ j, j ≠ k → t.cache j = s.cache j)
    (hdisk : t.disk = s.disk) (hself : t.cache k = some (c, true)) :
    Coherent (insert k live) t ∧ t.view k = some c ∧
      ∀ j ∈ live, j ≠ k → t.view j = s.view j := by
  have hb : Backed (k ∈ insert k live) (t.cache k) (t.disk k) := by
    rw [hself]
    exact Set.mem_insert k live
  have hlive : ∀ j, j ≠ k → (j ∈ insert k live ↔ j ∈ live) := fun j hjk => by
    rw [Set.mem_insert_iff, or_iff_right hjk]
  obtain ⟨hcoh, hview⟩ := h.step hlive hcache (fun _ _ _ _ hd => hdisk ▸ hd) hb
  exact ⟨hcoh, by rw [Store.view, hself], hview⟩

end PagedDb.WriteBack
