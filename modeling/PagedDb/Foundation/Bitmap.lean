import PagedDb.Foundation.Memory

/-!
# Bitmaps stored in bytes

Bit `i` lives in byte `i / 8` under the mask `1 <<< (i % 8)`. Setting one bit
leaves every other bit of the map alone, padding bits included.
-/

namespace PagedDb.Bitmap

/-- Bit `i` of the map; bytes past its end read as zero. -/
def get (h : List UInt8) (i : ℕ) : Bool :=
  (h.getD (i / 8) 0 &&& (1 <<< UInt8.ofNat (i % 8))) != 0

/-- The byte `b` with bit `k` set or cleared. -/
def setBit (b : UInt8) (k : ℕ) (value : Bool) : UInt8 :=
  if value then b ||| (1 <<< UInt8.ofNat k) else b &&& ((0xFF : UInt8) ^^^ (1 <<< UInt8.ofNat k))

/-- Set or clear bit `i`. -/
def set (h : List UInt8) (i : ℕ) (value : Bool) : List UInt8 :=
  h.set (i / 8) (setBit (h.getD (i / 8) 0) (i % 8) value)

@[simp] theorem set_length (h : List UInt8) (i : ℕ) (value : Bool) :
    (set h i value).length = h.length := by
  simp [set]

theorem mask_toNat {k : ℕ} (hk : k < 8) : ((1 : UInt8) <<< UInt8.ofNat k).toNat = 2 ^ k := by
  interval_cases k <;> rfl

theorem and_mask_ne_zero {b : UInt8} {k : ℕ} (hk : k < 8) :
    (b &&& (1 <<< UInt8.ofNat k)) ≠ 0 ↔ b.toNat.testBit k = true := by
  rw [Ne, ← UInt8.toNat_inj, UInt8.toNat_and, mask_toNat hk, Nat.and_two_pow]
  cases b.toNat.testBit k <;> simp

theorem get_eq_testBit (h : List UInt8) (i : ℕ) :
    get h i = (h.getD (i / 8) 0).toNat.testBit (i % 8) := by
  have hk : i % 8 < 8 := Nat.mod_lt _ (by norm_num)
  apply Bool.eq_iff_iff.mpr
  rw [← and_mask_ne_zero hk, get, bne_iff_ne]

theorem setBit_testBit {b : UInt8} {k j : ℕ} {value : Bool} (hk : k < 8) (hj : j < 8) :
    (setBit b k value).toNat.testBit j = if k = j then value else b.toNat.testBit j := by
  have hfull : (255 : ℕ).testBit j = true := by interval_cases j <;> rfl
  cases value
  · simp only [setBit, Bool.false_eq_true, if_false, UInt8.toNat_and, UInt8.toNat_xor,
      mask_toNat hk, Nat.testBit_and, Nat.testBit_xor, Nat.testBit_two_pow]
    rw [show (0xFF : UInt8).toNat = 255 from rfl, hfull]
    by_cases h : k = j <;> simp [h]
  · simp only [setBit, if_true, UInt8.toNat_or, mask_toNat hk, Nat.testBit_or, Nat.testBit_two_pow]
    by_cases h : k = j <;> simp [h]

theorem get_set {h : List UInt8} {i j : ℕ} {value : Bool} (hi : i / 8 < h.length) :
    get (set h i value) j = if i = j then value else get h j := by
  have hk : i % 8 < 8 := Nat.mod_lt _ (by norm_num)
  have hk' : j % 8 < 8 := Nat.mod_lt _ (by norm_num)
  rw [get_eq_testBit, get_eq_testBit, set]
  by_cases hbyte : i / 8 = j / 8
  · have hget : (h.set (i / 8) (setBit (h.getD (i / 8) 0) (i % 8) value)).getD (j / 8) 0 =
        setBit (h.getD (j / 8) 0) (i % 8) value := by
      rw [← hbyte, List.getD_eq_getElem _ _ (by simpa using hi), List.getElem_set_self]
    rw [hget, setBit_testBit hk hk']
    by_cases hij : i = j
    · simp [hij]
    · have : i % 8 ≠ j % 8 := by omega
      simp [hij, this]
  · have hget : (h.set (i / 8) (setBit (h.getD (i / 8) 0) (i % 8) value)).getD (j / 8) 0 =
        h.getD (j / 8) 0 := by
      simp [List.getD_eq_getElem?_getD, List.getElem?_set_ne hbyte]
    have hij : i ≠ j := fun e => hbyte (by rw [e])
    rw [hget, if_neg hij]

theorem get_set_self {h : List UInt8} {i : ℕ} {value : Bool} (hi : i / 8 < h.length) :
    get (set h i value) i = value := by
  rw [get_set hi, if_pos rfl]

theorem get_set_ne {h : List UInt8} {i j : ℕ} {value : Bool} (hij : i ≠ j) :
    get (set h i value) j = get h j := by
  by_cases hi : i / 8 < h.length
  · rw [get_set hi, if_neg hij]
  · rw [set, List.set_eq_of_length_le (Nat.le_of_not_lt hi)]

theorem exists_bits (bits : ℕ → Bool) (len : ℕ) :
    ∃ h : List UInt8, h.length = len ∧ ∀ i < 8 * len, get h i = bits i := by
  have hprefix : ∀ n ≤ 8 * len, ∃ h : List UInt8, h.length = len ∧ ∀ i < n, get h i = bits i := by
    intro n
    induction n with
    | zero => exact fun _ => ⟨List.replicate len 0, by simp, by simp⟩
    | succ n ih =>
      intro hn
      obtain ⟨h, hlen, hbits⟩ := ih (by omega)
      refine ⟨set h n (bits n), by simp [hlen], ?_⟩
      intro i hi
      rcases Nat.lt_succ_iff_lt_or_eq.mp hi with hlt | rfl
      · rw [get_set_ne (by omega), hbits i hlt]
      · exact get_set_self (by omega)
  exact hprefix (8 * len) (Nat.le_refl _)

theorem get_eq_false {h : List UInt8} {i : ℕ} (hz : h.getD (i / 8) 0 = 0) : get h i = false := by
  rw [get_eq_testBit, hz]
  exact Nat.zero_testBit _

theorem get_read {m : Memory.Buffer} {off n i : ℕ} (hi : i < 8 * n) :
    get (Memory.read m off n) i = (m (off + i / 8)).toNat.testBit (i % 8) := by
  have hbyte : i / 8 < n := by omega
  simp [get_eq_testBit, Memory.read, hbyte]

/-- A map of `len` bytes with the first bits set. -/
def front (len : ℕ) : ℕ → List UInt8
  | 0 => List.replicate len 0
  | n + 1 => set (front len n) n true

@[simp] theorem front_length (len n : ℕ) : (front len n).length = len := by
  induction n with
  | zero => exact List.length_replicate
  | succ n ih => rw [front, set_length, ih]

theorem get_front {len n i : ℕ} (hn : n ≤ 8 * len) : get (front len n) i = decide (i < n) := by
  induction n with
  | zero =>
    rw [front, decide_eq_false (Nat.not_lt_zero i)]
    apply get_eq_false
    rw [List.getD_eq_getElem?_getD, List.getElem?_replicate]
    split <;> rfl
  | succ n ih =>
    rw [front, get_set (by rw [front_length]; omega), ih (by omega)]
    by_cases hi : n = i
    · rw [if_pos hi, decide_eq_true (by omega)]
    · rw [if_neg hi]
      exact decide_eq_decide.mpr (by omega)

end PagedDb.Bitmap
