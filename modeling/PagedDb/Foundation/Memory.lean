import Mathlib

/-!
# Byte memory and little-endian words

A pointer is modelled by the bytes behind it, with no end: what lies past the
allocation is simply memory nobody promised anything about. A routine that
stays inside its buffer is one whose result does not depend on those bytes.
-/

namespace PagedDb.Memory

abbrev Buffer := ℕ → UInt8

def wordBytes (v : Int32) : List UInt8 :=
  let n := v.toUInt32.toNat
  [UInt8.ofNat n, UInt8.ofNat (n / 256), UInt8.ofNat (n / 65536), UInt8.ofNat (n / 16777216)]

def wordOf (b₀ b₁ b₂ b₃ : UInt8) : Int32 :=
  (UInt32.ofNat (b₀.toNat + 256 * b₁.toNat + 65536 * b₂.toNat + 16777216 * b₃.toNat)).toInt32

@[simp] theorem wordBytes_length (v : Int32) : (wordBytes v).length = 4 := rfl

theorem wordOf_bytes (v : Int32) :
    wordOf (UInt8.ofNat v.toUInt32.toNat) (UInt8.ofNat (v.toUInt32.toNat / 256))
      (UInt8.ofNat (v.toUInt32.toNat / 65536)) (UInt8.ofNat (v.toUInt32.toNat / 16777216)) = v := by
  have hlt : v.toUInt32.toNat < 4294967296 := v.toUInt32.toNat_lt
  have hsum : UInt32.ofNat ((UInt8.ofNat v.toUInt32.toNat).toNat +
      256 * (UInt8.ofNat (v.toUInt32.toNat / 256)).toNat +
      65536 * (UInt8.ofNat (v.toUInt32.toNat / 65536)).toNat +
      16777216 * (UInt8.ofNat (v.toUInt32.toNat / 16777216)).toNat) = v.toUInt32 := by
    apply UInt32.toNat_inj.mp
    simp only [UInt8.toNat_ofNat', UInt32.toNat_ofNat']
    omega
  rw [wordOf, hsum]
  rfl

def loadWord (m : Buffer) (off : ℕ) : Int32 :=
  wordOf (m off) (m (off + 1)) (m (off + 2)) (m (off + 3))

/-- The `n` bytes from an offset on. -/
def read (m : Buffer) (off n : ℕ) : List UInt8 :=
  (List.range n).map fun i => m (off + i)

/-- Copy `bytes` to an offset; every other byte keeps its value. -/
def write (m : Buffer) (off : ℕ) (bytes : List UInt8) : Buffer :=
  fun i => if off ≤ i ∧ i < off + bytes.length then bytes.getD (i - off) 0 else m i

def storeWord (m : Buffer) (off : ℕ) (v : Int32) : Buffer := write m off (wordBytes v)

/-- A buffer whose first `n` bytes are zero, with whatever the memory behind it held. -/
def zeroed (n : ℕ) (fresh : Buffer) : Buffer := fun i => if i < n then 0 else fresh i

@[simp] theorem read_length (m : Buffer) (off n : ℕ) : (read m off n).length = n := by
  simp [read]

theorem write_outside {m : Buffer} {off i : ℕ} {bytes : List UInt8}
    (h : i < off ∨ off + bytes.length ≤ i) : write m off bytes i = m i := by
  have : ¬ (off ≤ i ∧ i < off + bytes.length) := by omega
  simp [write, this]

theorem write_inside {m : Buffer} {off i : ℕ} {bytes : List UInt8} (h : i < bytes.length) :
    write m off bytes (off + i) = bytes.getD i 0 := by
  have hin : off ≤ off + i ∧ off + i < off + bytes.length := by omega
  simp [write, hin]

theorem read_congr {m m' : Buffer} {off n : ℕ} (h : ∀ i, off ≤ i → i < off + n → m i = m' i) :
    read m off n = read m' off n := by
  apply List.map_congr_left
  intro i hi
  exact h _ (Nat.le_add_right _ _) (Nat.add_lt_add_left (List.mem_range.mp hi) _)

theorem loadWord_congr {m m' : Buffer} {off : ℕ} (h : ∀ i, off ≤ i → i < off + 4 → m i = m' i) :
    loadWord m off = loadWord m' off := by
  unfold loadWord
  rw [h off (by omega) (by omega), h (off + 1) (by omega) (by omega),
    h (off + 2) (by omega) (by omega), h (off + 3) (by omega) (by omega)]

theorem read_write_self (m : Buffer) (off : ℕ) (bytes : List UInt8) :
    read (write m off bytes) off bytes.length = bytes := by
  apply List.ext_getElem
  · simp
  · intro i h₁ h₂
    simp only [read, List.getElem_map, List.getElem_range]
    rw [write_inside h₂, List.getD_eq_getElem _ _ h₂]

theorem loadWord_write_outside {m : Buffer} {off off' : ℕ} {bytes : List UInt8}
    (h : off' + 4 ≤ off ∨ off + bytes.length ≤ off') :
    loadWord (write m off bytes) off' = loadWord m off' := by
  apply loadWord_congr
  intro i h₁ h₂
  exact write_outside (by omega)

theorem storeWord_outside {m : Buffer} {off i : ℕ} {v : Int32} (h : i < off ∨ off + 4 ≤ i) :
    storeWord m off v i = m i :=
  write_outside (by simpa using h)

@[simp] theorem loadWord_storeWord (m : Buffer) (off : ℕ) (v : Int32) :
    loadWord (storeWord m off v) off = v := by
  have hb : ∀ i, i < 4 → write m off (wordBytes v) (off + i) = (wordBytes v).getD i 0 :=
    fun i hi => write_inside hi
  have h₀ := hb 0 (by norm_num)
  rw [Nat.add_zero] at h₀
  simp only [loadWord, storeWord]
  rw [h₀, hb 1 (by norm_num), hb 2 (by norm_num), hb 3 (by norm_num)]
  exact wordOf_bytes v

theorem loadWord_of_read {m : Buffer} {off : ℕ} {v : Int32} (h : read m off 4 = wordBytes v) :
    loadWord m off = v := by
  rw [← loadWord_storeWord m off v]
  apply loadWord_congr
  intro i h₁ h₂
  obtain ⟨k, rfl⟩ := Nat.exists_eq_add_of_le h₁
  have hk : k < 4 := by omega
  have hget := congrArg (fun l => l.getD k 0) h
  rw [storeWord, write_inside (by simpa using hk), ← hget]
  simp [read, hk]

theorem loadWord_inj {m m' : Buffer} {off off' : ℕ} (h : loadWord m off = loadWord m' off') :
    m off = m' off' ∧ m (off + 1) = m' (off' + 1) ∧ m (off + 2) = m' (off' + 2) ∧
      m (off + 3) = m' (off' + 3) := by
  have hnum := congrArg (fun v => v.toUInt32.toNat) h
  have hval : ∀ b₀ b₁ b₂ b₃ : UInt8, (wordOf b₀ b₁ b₂ b₃).toUInt32.toNat =
      b₀.toNat + 256 * b₁.toNat + 65536 * b₂.toNat + 16777216 * b₃.toNat := by
    intro b₀ b₁ b₂ b₃
    have h₀ := b₀.toNat_lt
    have h₁ := b₁.toNat_lt
    have h₂ := b₂.toNat_lt
    have h₃ := b₃.toNat_lt
    change (UInt32.ofNat _).toNat = _
    rw [UInt32.toNat_ofNat']
    omega
  simp only [loadWord, hval] at hnum
  have h₀ := (m off).toNat_lt
  have h₁ := (m (off + 1)).toNat_lt
  have h₂ := (m (off + 2)).toNat_lt
  have h₀' := (m' off').toNat_lt
  have h₁' := (m' (off' + 1)).toNat_lt
  have h₂' := (m' (off' + 2)).toNat_lt
  simp only [← UInt8.toNat_inj]
  omega

theorem loadWord_top {m m' : Buffer} {off off' : ℕ} (h : loadWord m off = loadWord m' off') :
    m (off + 3) = m' (off' + 3) :=
  (loadWord_inj h).2.2.2

theorem loadWord_storeWord_outside {m : Buffer} {off off' : ℕ} {v : Int32}
    (h : off' + 4 ≤ off ∨ off + 4 ≤ off') :
    loadWord (storeWord m off v) off' = loadWord m off' :=
  loadWord_write_outside (by simpa using h)

theorem loadWord_eq_zero {m : Buffer} {off : ℕ} (h : ∀ i, off ≤ i → i < off + 4 → m i = 0) :
    loadWord m off = 0 := by
  have hz : loadWord m off = loadWord (fun _ => 0) off := loadWord_congr h
  rw [hz]
  change wordOf 0 0 0 0 = 0
  decide

theorem loadWord_eq_zero_iff {m : Buffer} {off : ℕ} :
    loadWord m off = 0 ↔ ∀ i < 4, m (off + i) = 0 := by
  constructor
  · intro h
    have hzero : loadWord m off = loadWord (fun _ => 0) 0 :=
      h.trans (loadWord_eq_zero fun _ _ _ => rfl).symm
    obtain ⟨h₀, h₁, h₂, h₃⟩ := loadWord_inj hzero
    intro i hi
    interval_cases i <;> assumption
  · intro h
    apply loadWord_eq_zero
    intro i hi hlt
    obtain ⟨k, rfl⟩ := Nat.exists_eq_add_of_le hi
    exact h k (by omega)

end PagedDb.Memory
