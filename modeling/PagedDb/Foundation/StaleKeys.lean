import Mathlib

/-!
# Caches with stale keys

A cache of bounded size files its entries under codes of their keys. The key of an
entry may have gone stale and must not be read any more. A request reads the keys
under its own code, and an eviction those under the code of its victim. Where it is
open which entry an eviction takes, requests are safe if no choice goes wrong.
-/

namespace PagedDb.StaleKeys

variable {κ χ : Type*} {code : κ → χ} {c : ℕ} {L : List (κ × Bool)} {r : κ × Bool}
  {rs : List (κ × Bool)} {k : κ}

/-- No key under the code of `k` is stale. -/
def Readable (code : κ → χ) (L : List (κ × Bool)) (k : κ) : Prop :=
  ∀ e ∈ L, e.2 = true → code e.1 ≠ code k

def Resident (L : List (κ × Bool)) (k : κ) : Prop := k ∈ L.map Prod.fst

instance [DecidableEq κ] (L : List (κ × Bool)) (k : κ) : Decidable (Resident L k) :=
  inferInstanceAs (Decidable (_ ∈ _))

theorem readable_cons : Readable code (r :: L) k ↔ (r.2 = true → code r.1 ≠ code k) ∧
    Readable code L k :=
  List.forall_mem_cons

theorem resident_cons : Resident (r :: L) k ↔ k = r.1 ∨ Resident L k := List.mem_cons

def Fresh (L : List (κ × Bool)) : Prop := ∀ e ∈ L, e.2 = false

theorem Fresh.readable (h : Fresh L) (k : κ) : Readable code L k := by
  intro e he hstale
  rw [h e he] at hstale
  cases hstale

theorem Fresh.eraseIdx (h : Fresh L) (i : ℕ) : Fresh (L.eraseIdx i) :=
  fun e he => h e (List.mem_of_mem_eraseIdx he)

theorem not_fresh : ¬ Fresh L ↔ ∃ e ∈ L, e.2 = true := by
  simp [Fresh]

section Serve

variable [DecidableEq κ]

/-- Serving the requests in turn reads no stale key, whatever the evictions take. A request comes
with the flag that its key has from then on, if its entry is new. -/
def Safe (code : κ → χ) (c : ℕ) : List (κ × Bool) → List (κ × Bool) → Prop
  | _, [] => True
  | L, r :: rs => Readable code L r.1 ∧
      if Resident L r.1 then Safe code c L rs
      else if L.length < c then Safe code c (r :: L) rs
      else ∀ i v, L[i]? = some v → Readable code L v.1 ∧ Safe code c (r :: L.eraseIdx i) rs

/-- Serving one request reads no stale key, where `order` chooses what an eviction takes. -/
def Reads (code : κ → χ) (c : ℕ) (L : List (κ × Bool)) (k : κ) (order : ℕ → ℕ) : Prop :=
  Readable code L k ∧ (Resident L k ∨ L.length < c ∨
    ∃ v, L[order 0 % L.length]? = some v ∧ Readable code L v.1)

def serve (c : ℕ) (L : List (κ × Bool)) (r : κ × Bool) (order : ℕ → ℕ) :
    List (κ × Bool) × (ℕ → ℕ) :=
  if Resident L r.1 then (L, order)
  else if L.length < c then (r :: L, order)
  else (r :: L.eraseIdx (order 0 % L.length), fun n => order (n + 1))

theorem serve_resident (h : Resident L r.1) (order : ℕ → ℕ) : serve c L r order = (L, order) :=
  if_pos h

theorem serve_room (h : ¬ Resident L r.1) (hroom : L.length < c) (order : ℕ → ℕ) :
    serve c L r order = (r :: L, order) := by
  rw [serve, if_neg h, if_pos hroom]

theorem serve_full (h : ¬ Resident L r.1) (hfull : ¬ L.length < c) (order : ℕ → ℕ) :
    serve c L r order = (r :: L.eraseIdx (order 0 % L.length), fun n => order (n + 1)) := by
  rw [serve, if_neg h, if_neg hfull]

theorem serve_absent (h : ¬ Resident L k) (order : ℕ → ℕ) : ∃ M order', ∀ stale,
    serve c L (k, stale) order = ((k, stale) :: M, order') := by
  by_cases hroom : L.length < c
  · exact ⟨L, order, fun stale => serve_room (r := (k, stale)) h hroom order⟩
  · exact ⟨_, _, fun stale => serve_full (r := (k, stale)) h hroom order⟩

/-- Serving the requests in turn with the choices of `order`. -/
def Survives (code : κ → χ) (c : ℕ) :
    List (κ × Bool) → List (κ × Bool) → (ℕ → ℕ) → Prop
  | _, [], _ => True
  | L, r :: rs, order => Reads code c L r.1 order ∧
      Survives code c (serve c L r order).1 rs (serve c L r order).2

/-- Safe requests are those that survive every order. -/
theorem survives_all_iff (hc : 0 < c) (rs L : List (κ × Bool)) :
    (∀ order, Survives code c L rs order) ↔ Safe code c L rs := by
  induction rs generalizing L with
  | nil => simp [Survives, Safe]
  | cons r rs ih =>
    rw [Safe]
    by_cases hres : Resident L r.1
    · rw [if_pos hres, ← ih]
      simp only [Survives, serve_resident hres, Reads, hres, true_or, and_true, forall_and,
        forall_const]
    by_cases hroom : L.length < c
    · rw [if_neg hres, if_pos hroom, ← ih]
      simp only [Survives, serve_room hres hroom, Reads, hroom, true_or, or_true, and_true,
        forall_and, forall_const]
    rw [if_neg hres, if_neg hroom]
    simp only [Survives, serve_full hres hroom, Reads, hres, hroom, false_or, ← ih]
    have hpos : 0 < L.length := by omega
    constructor
    · intro h
      refine ⟨(h fun _ => 0).1.1, fun i v hv => ?_⟩
      have hi : i % L.length = i := Nat.mod_eq_of_lt (List.getElem?_eq_some_iff.mp hv).1
      -- an order that takes entry `i` first
      have hfirst : ∀ order : ℕ → ℕ, Readable code L v.1 ∧
          Survives code c (r :: L.eraseIdx i) rs order := by
        intro order
        obtain ⟨⟨-, w, hw, hread⟩, hrest⟩ := h fun n => n.casesOn i order
        change L[i % L.length]? = some w at hw
        change Survives code c (r :: L.eraseIdx (i % L.length)) rs order at hrest
        rw [hi] at hw hrest
        rw [hv] at hw
        cases hw
        exact ⟨hread, hrest⟩
      exact ⟨(hfirst fun _ => 0).1, fun order => (hfirst order).2⟩
    · rintro ⟨hread, hall⟩ order
      have hi : order 0 % L.length < L.length := Nat.mod_lt _ hpos
      obtain ⟨hvread, hrest⟩ := hall _ _ (List.getElem?_eq_getElem hi)
      exact ⟨⟨hread, _, List.getElem?_eq_getElem hi, hvread⟩, hrest _⟩

def missing (L rs : List (κ × Bool)) : ℕ := rs.countP fun r => ¬ Resident L r.1

theorem missing_resident (h : Resident L r.1) : missing L (r :: rs) = missing L rs := by
  simp [missing, h]

theorem missing_absent (h : ¬ Resident L r.1) : missing L (r :: rs) = missing L rs + 1 := by
  simp [missing, h]

theorem missing_cons (h : ∀ s ∈ rs, r.1 ≠ s.1) : missing (r :: L) rs = missing L rs := by
  refine List.countP_congr fun s hs => ?_
  have hne : s.1 ≠ r.1 := (h s hs).symm
  simp [resident_cons, hne]

theorem missing_pos (h : r ∈ rs) (hres : ¬ Resident L r.1) : 0 < missing L rs :=
  List.countP_pos_iff.mpr ⟨r, h, by simpa using hres⟩

/-- Where the missing entries fit in, requests only have to read their own codes. -/
theorem safe_of_room (hcodes : rs.Pairwise fun r s => code r.1 ≠ code s.1)
    (hroom : L.length + missing L rs ≤ c) :
    Safe code c L rs ↔ ∀ r ∈ rs, Readable code L r.1 := by
  induction rs generalizing L with
  | nil => simp [Safe]
  | cons r rs ih =>
    obtain ⟨hr, hrs⟩ := List.pairwise_cons.mp hcodes
    rw [Safe, List.forall_mem_cons]
    apply and_congr_right
    intro _
    by_cases hres : Resident L r.1
    · rw [missing_resident hres] at hroom
      rw [if_pos hres, ih hrs hroom]
    · rw [missing_absent hres] at hroom
      have hkeys : ∀ s ∈ rs, r.1 ≠ s.1 := fun s hs heq => hr s hs (congrArg code heq)
      rw [if_neg hres, if_pos (by omega), ih hrs (by rw [missing_cons hkeys, List.length_cons]; omega)]
      refine forall₂_congr fun s hs => ?_
      rw [readable_cons]
      exact and_iff_right fun _ => hr s hs

/-- Where they do not fit in, a stale key may be the one that is evicted. -/
theorem not_safe_of_stale (hkeys : rs.Pairwise fun r s => r.1 ≠ s.1) (hlen : L.length ≤ c)
    (hfull : c < L.length + missing L rs) (hstale : ¬ Fresh L) : ¬ Safe code c L rs := by
  induction rs generalizing L with
  | nil =>
    have hnone : missing L ([] : List (κ × Bool)) = 0 := rfl
    omega
  | cons r rs ih =>
    obtain ⟨hr, hrs⟩ := List.pairwise_cons.mp hkeys
    rw [Safe]
    rintro ⟨-, hserve⟩
    by_cases hres : Resident L r.1
    · rw [missing_resident hres] at hfull
      rw [if_pos hres] at hserve
      exact ih hrs hlen hfull hstale hserve
    rw [if_neg hres] at hserve
    rw [missing_absent hres] at hfull
    by_cases hroom : L.length < c
    · rw [if_pos hroom] at hserve
      have hlen' : (r :: L).length ≤ c := hroom
      refine ih hrs hlen' ?_ (fun h => hstale fun e he => h e (List.mem_cons_of_mem _ he)) hserve
      rw [missing_cons hr, List.length_cons]
      omega
    · -- the stale entry is the victim
      rw [if_neg hroom] at hserve
      obtain ⟨e, he, heq⟩ := not_fresh.mp hstale
      obtain ⟨i, hi⟩ := List.getElem?_of_mem he
      exact (hserve i e hi).1 e he heq rfl

theorem exists_absent (hkeys : (L.map Prod.fst).Nodup) (hne : L ≠ []) (k : κ) :
    ∃ i v, L[i]? = some v ∧ ¬ Resident (L.eraseIdx i) k := by
  by_cases hres : Resident L k
  · obtain ⟨e, he, rfl⟩ := List.mem_map.mp hres
    obtain ⟨i, hi⟩ := List.getElem?_of_mem he
    refine ⟨i, e, hi, ?_⟩
    intro hmem
    obtain ⟨hlt, rfl⟩ := List.getElem?_eq_some_iff.mp hi
    rw [Resident, ← List.eraseIdx_map] at hmem
    obtain ⟨j, hj, hij, heq⟩ := List.mem_eraseIdx_iff_getElem.mp hmem
    have hlt' : i < (L.map Prod.fst).length := by rwa [List.length_map]
    have hget : (L.map Prod.fst)[j] = (L.map Prod.fst)[i] := by rw [heq, List.getElem_map]
    exact hij ((List.Nodup.getElem_inj_iff hkeys).mp hget)
  · obtain ⟨e, L, rfl⟩ := List.exists_cons_of_ne_nil hne
    exact ⟨0, e, rfl, fun hmem => hres (List.mem_cons_of_mem _ hmem)⟩

/-- Some entry can be replaced by `r` so that `s` is absent afterwards. -/
theorem exists_replaced (hL : (L.map Prod.fst).Nodup) (hne : L ≠ []) {s : κ × Bool} (hrs : r.1 ≠ s.1) :
    ∃ i v, L[i]? = some v ∧ (r :: L.eraseIdx i).length = L.length ∧
      ¬ Resident (r :: L.eraseIdx i) s.1 := by
  obtain ⟨i, v, hv, habsent⟩ := exists_absent hL hne s.1
  have hi : i < L.length := (List.getElem?_eq_some_iff.mp hv).1
  refine ⟨i, v, hv, ?_, ?_⟩
  · rw [List.length_cons, List.length_eraseIdx_of_lt hi]
    omega
  · rw [resident_cons]
    rintro (heq | hmem)
    · exact hrs heq.symm
    · exact habsent hmem

/-- Where they do not fit in and each new entry goes stale, only the last request may load. -/
theorem safe_iff_of_fresh (hkeys : rs.Pairwise fun r s => r.1 ≠ s.1)
    (hgo : ∀ r ∈ rs, r.2 = true) (hL : (L.map Prod.fst).Nodup) (hlen : L.length ≤ c)
    (hfull : c < L.length + missing L rs) (hpos : 0 < c) (hfresh : Fresh L) :
    Safe code c L rs ↔ ∀ r ∈ rs.dropLast, Resident L r.1 := by
  induction rs with
  | nil => simp [Safe]
  | cons r rs ih =>
    obtain ⟨hr, hrs⟩ := List.pairwise_cons.mp hkeys
    have hgo' : ∀ s ∈ rs, s.2 = true := fun s hs => hgo s (List.mem_cons_of_mem _ hs)
    rw [Safe, and_iff_right (hfresh.readable r.1)]
    by_cases hres : Resident L r.1
    · rw [missing_resident hres] at hfull
      have hne : rs ≠ [] := by
        rintro rfl
        have hnone : missing L ([] : List (κ × Bool)) = 0 := rfl
        omega
      rw [if_pos hres, ih hrs hgo' hfull, List.dropLast_cons_of_ne_nil hne, List.forall_mem_cons,
        and_iff_right hres]
    rw [missing_absent hres] at hfull
    have hstale : ∀ M, ¬ Fresh (r :: M) := fun M h => by
      have := h r List.mem_cons_self
      rw [hgo r List.mem_cons_self] at this
      cases this
    rw [if_neg hres]
    cases rs with
    | nil => simp [Safe, hfresh.readable]
    | cons s rs =>
      refine iff_of_false ?_ fun h => hres (h r (by simp))
      intro hserve
      by_cases hroom : L.length < c
      · rw [if_pos hroom] at hserve
        refine not_safe_of_stale hrs hroom ?_ (hstale L) hserve
        rw [missing_cons hr, List.length_cons]
        omega
      · -- whatever was resident, the next request may have to be loaded
        rw [if_neg hroom] at hserve
        obtain ⟨i, v, hv, hlength, habsent⟩ := exists_replaced hL
          (List.ne_nil_of_length_pos (by omega)) (hr s List.mem_cons_self)
        have hmiss : 0 < missing (r :: L.eraseIdx i) (s :: rs) :=
          missing_pos List.mem_cons_self habsent
        exact not_safe_of_stale hrs (by omega) (by omega) (hstale _) (hserve i v hv).2

theorem safe_single (h : Fresh L) (r : κ × Bool) : Safe code c L [r] := by
  simp [Safe, h.readable]

/-- Requests whose first entry stays fresh and whose other new entries go stale. They are safe if
all missing entries fit in and no key under their codes is stale, or if no key is stale at all, no
request between the first and the last one loads, and the first one evicts nothing that is still
asked for twice. -/
theorem safe_iff (hcodes : (r :: rs).Pairwise fun r s => code r.1 ≠ code s.1) (hstay : r.2 = false)
    (hgo : ∀ s ∈ rs, s.2 = true) (hL : (L.map Prod.fst).Nodup) (hlen : L.length ≤ c)
    (hpos : 0 < c) :
    Safe code c L (r :: rs) ↔
      (L.length + missing L (r :: rs) ≤ c ∧ ∀ s ∈ r :: rs, Readable code L s.1) ∨
      (Fresh L ∧ (∀ s ∈ rs.dropLast, Resident L s.1) ∧
        (Resident L r.1 ∨ L.length < c ∨ rs.length ≤ 1)) := by
  have hkeys : (r :: rs).Pairwise fun r s => r.1 ≠ s.1 :=
    hcodes.imp fun hne heq => hne (congrArg code heq)
  obtain ⟨hr, hrs⟩ := List.pairwise_cons.mp hkeys
  by_cases hroom : L.length + missing L (r :: rs) ≤ c
  · rw [safe_of_room hcodes hroom, and_iff_right hroom]
    constructor
    · exact .inl
    · rintro (h | ⟨hfresh, -⟩)
      · exact h
      · exact fun s _ => hfresh.readable s.1
  have hfull := Nat.lt_of_not_le hroom
  rw [or_iff_right fun h => hroom h.1]
  by_cases hfresh : Fresh L
  swap
  · exact iff_of_false (not_safe_of_stale hkeys hlen hfull hfresh) fun h => hfresh h.1
  have hfresh' : ∀ {M}, Fresh M → Fresh (r :: M) := fun hM => List.forall_mem_cons.mpr ⟨hstay, hM⟩
  rw [Safe, and_iff_right (hfresh.readable r.1), and_iff_right hfresh]
  by_cases hres : Resident L r.1
  · rw [missing_resident hres] at hfull
    rw [if_pos hres, safe_iff_of_fresh hrs hgo hL hlen hfull hpos hfresh]
    exact (and_iff_left (.inl hres)).symm
  rw [missing_absent hres] at hfull
  have hcons : ∀ {M : List (κ × Bool)}, (M.map Prod.fst).Nodup → ¬ Resident M r.1 →
      ((r :: M).map Prod.fst).Nodup := fun hM hnew => List.nodup_cons.mpr ⟨hnew, hM⟩
  rw [if_neg hres, or_iff_right hres]
  by_cases hspace : L.length < c
  · have hfull' : c < (r :: L).length + missing (r :: L) rs := by
      rw [missing_cons hr, List.length_cons]
      omega
    rw [if_pos hspace, safe_iff_of_fresh hrs hgo (hcons hL hres) hspace hfull' hpos
      (hfresh' hfresh), and_iff_left (.inl hspace)]
    refine forall₂_congr fun s hs => ?_
    rw [resident_cons, or_iff_right (hr s (List.mem_of_mem_dropLast hs)).symm]
  rw [if_neg hspace, or_iff_right hspace]
  by_cases hshort : rs.length ≤ 1
  · refine iff_of_true (fun i v _ => ⟨hfresh.readable v.1, ?_⟩) ⟨?_, hshort⟩
    · match rs, hshort with
      | [], _ => trivial
      | [s], _ => exact safe_single (hfresh' (hfresh.eraseIdx i)) s
    · match rs, hshort with
      | [], _ => simp
      | [s], _ => simp
  · -- the first request may evict the entry of the second one
    refine iff_of_false ?_ fun h => hshort h.2
    intro hserve
    obtain ⟨s, t, rs, rfl⟩ : ∃ s t rs', rs = s :: t :: rs' := by
      match rs, hshort with
      | [], h => exact absurd (Nat.zero_le 1) h
      | [s], h => exact absurd (le_refl 1) h
      | s :: t :: rs', _ => exact ⟨s, t, rs', rfl⟩
    obtain ⟨i, v, hv, hlength, hs⟩ := exists_replaced hL (List.ne_nil_of_length_pos (by omega))
      (hr s List.mem_cons_self)
    have herased : ((L.eraseIdx i).map Prod.fst).Sublist (L.map Prod.fst) :=
      (List.eraseIdx_sublist ..).map _
    have hiff := @safe_iff_of_fresh _ _ code _ _ _ _ hrs hgo
      (hcons (hL.sublist herased) fun hmem => hres (herased.subset hmem)) (by omega)
      (by have := missing_pos (List.mem_cons_self (a := s) (l := t :: rs)) hs; omega) hpos
      (hfresh' (hfresh.eraseIdx i))
    exact hs (hiff.mp (hserve i v hv).2 s (by simp))

end Serve

end PagedDb.StaleKeys
