import PagedDb.Heap.HeapFile
import PagedDb.BTree.FilePages

/-!
# Page offsets in `int`

Both files compute the offset of a page in `int` and then widen it. With pages
of 4096 bytes the product leaves the range of `int` at page `2 ^ 19`, and from
page `2 ^ 20` on the offsets come round.
-/

namespace PagedDb

def Apart (a b : Int) : Prop := a + 4096 ≤ b ∨ b + 4096 ≤ a

/-- Two pages of a file are at the offsets they should be at, and share no byte. -/
structure OffsetsRight (offset : Int32 → Int) (exact : Int → Int) (m n : Int32) : Prop where
  first : offset m = exact m.toInt
  second : offset n = exact n.toInt
  apart : m ≠ n → Apart (offset m) (offset n)

/-- The offset `HeapFile` passes to `pread` and `pwrite` for page `n`. -/
def heapOffset (tableId n : Int32) : Int := HeapFile.pageOffset 4096 ⟨tableId, n⟩

/-- The offset `BTreeFile` passes for page `n`. -/
def bTreeOffset (n : Int32) : Int := BTreeFile.pageOffset 4096 n

variable {tableId m n : Int32}

theorem toInt_inj (h : m ≠ n) : m.toInt ≠ n.toInt := fun heq => h (Int32.toInt_inj.mp heq)

theorem heapOffset_mod (tableId n : Int32) :
    heapOffset tableId n = (n.toInt * 4096).bmod 4294967296 := by
  change (n * Int32.ofNat 4096).toInt = _
  rw [Int32.toInt_mul]
  rfl

theorem bTreeOffset_mod (n : Int32) :
    bTreeOffset n = (9 + (n.toInt - 1) * 4096).bmod 4294967296 := by
  change (9 + (n - 1) * Int32.ofNat 4096).toInt = _
  rw [Int32.toInt_add, Int32.toInt_mul, Int32.toInt_sub, Int.bmod_mul_bmod, Int.add_bmod_bmod]
  rfl

theorem heapOffset_eq_iff (hn : 0 ≤ n.toInt) :
    heapOffset tableId n = n.toInt * 4096 ↔ n.toInt < 524288 := by
  have hlt := n.toInt_lt
  rw [heapOffset_mod, Int.bmod_def]
  split <;> omega

theorem bTreeOffset_eq_iff (hn : 1 ≤ n.toInt) :
    bTreeOffset n = 9 + (n.toInt - 1) * 4096 ↔ n.toInt ≤ 524288 := by
  have hlt := n.toInt_lt
  rw [bTreeOffset_mod, Int.bmod_def]
  split <;> omega

/-- Two pages of a heap file share bytes exactly if their numbers agree modulo `2 ^ 20`. -/
theorem heap_apart_iff (tableId m n : Int32) :
    Apart (heapOffset tableId m) (heapOffset tableId n) ↔
      m.toInt % 1048576 ≠ n.toInt % 1048576 := by
  have hm' := m.toInt_lt
  have hn' := n.toInt_lt
  rw [heapOffset_mod, heapOffset_mod, Int.bmod_def, Int.bmod_def, Apart]
  split <;> split <;> omega

theorem bTree_apart_iff (m n : Int32) :
    Apart (bTreeOffset m) (bTreeOffset n) ↔ m.toInt % 1048576 ≠ n.toInt % 1048576 := by
  have hm' := m.toInt_lt
  have hn' := n.toInt_lt
  rw [bTreeOffset_mod, bTreeOffset_mod, Int.bmod_def, Int.bmod_def, Apart]
  split <;> split <;> omega

/-- The pages of two numbers of a heap file are where they should be exactly if both numbers are
below `2 ^ 19`; in a B+ tree file, whose pages are numbered from 1, if both are at most that. -/
theorem offsetsRight_iff (tableId m n : Int32) (hm : 0 ≤ m.toInt) (hn : 0 ≤ n.toInt) :
    (OffsetsRight (heapOffset tableId) (fun i => i * 4096) m n ↔
        m.toInt < 524288 ∧ n.toInt < 524288) ∧
      (1 ≤ m.toInt → 1 ≤ n.toInt →
        (OffsetsRight bTreeOffset (fun i => 9 + (i - 1) * 4096) m n ↔
          m.toInt ≤ 524288 ∧ n.toInt ≤ 524288)) := by
  constructor
  · constructor
    · intro h
      exact ⟨(heapOffset_eq_iff hm).mp h.first, (heapOffset_eq_iff hn).mp h.second⟩
    · rintro ⟨hm', hn'⟩
      refine ⟨(heapOffset_eq_iff hm).mpr hm', (heapOffset_eq_iff hn).mpr hn', ?_⟩
      intro hne
      have hne' := toInt_inj hne
      rw [heap_apart_iff]
      omega
  · intro hm₁ hn₁
    constructor
    · intro h
      exact ⟨(bTreeOffset_eq_iff hm₁).mp h.first, (bTreeOffset_eq_iff hn₁).mp h.second⟩
    · rintro ⟨hm', hn'⟩
      refine ⟨(bTreeOffset_eq_iff hm₁).mpr hm', (bTreeOffset_eq_iff hn₁).mpr hn', ?_⟩
      intro hne
      have hne' := toInt_inj hne
      rw [bTree_apart_iff]
      omega

theorem offsetsRight_small :
    (OffsetsRight (heapOffset 7) (fun i => i * 4096) 1 2 ↔
        (1 : Int32).toInt < 524288 ∧ (2 : Int32).toInt < 524288) ∧
      ((1 : Int) ≤ (1 : Int32).toInt → (1 : Int) ≤ (2 : Int32).toInt →
        (OffsetsRight bTreeOffset (fun i => 9 + (i - 1) * 4096) 1 2 ↔
          (1 : Int32).toInt ≤ 524288 ∧ (2 : Int32).toInt ≤ 524288)) :=
  offsetsRight_iff 7 1 2 (by decide) (by decide)

/-- Page `2 ^ 20` of a heap file is stored over page 0. -/
theorem large_page_overlaps : ¬ ∀ tableId m n : Int32, 0 ≤ m.toInt → 0 ≤ n.toInt →
    OffsetsRight (heapOffset tableId) (fun i => i * 4096) m n := by
  intro hclaim
  have hapart := (hclaim 7 0 1048576 (by decide) (by decide)).apart (by decide)
  rw [heap_apart_iff] at hapart
  exact hapart (by decide)

end PagedDb
