import PagedDb.Foundation.Memory

/-!
# Files

A file is a size and the bytes below it. `pread` and the positional `pwrite`
take the offset the program computed; a descriptor opened with `O_APPEND` sends
the data of every `write`, and on Linux of every `pwrite`, to the end instead.
-/

namespace PagedDb

open Memory

/-- The content of a file; past its size there is nothing, which reads as zero. -/
structure File where
  size : ℕ
  byte : Buffer
  byte_of_size_le : ∀ i, size ≤ i → byte i = 0

namespace File

def empty : File := ⟨0, fun _ => 0, fun _ _ => rfl⟩

/-- Store `n` bytes of `data` at an offset, extending the file where needed. -/
def put (f : File) (data : Buffer) (n off : ℕ) : File where
  size := max f.size (off + n)
  byte := fun i => if off ≤ i ∧ i < off + n then data (i - off) else f.byte i
  byte_of_size_le := by
    intro i hi
    have hout : ¬ (off ≤ i ∧ i < off + n) := by omega
    rw [if_neg hout]
    exact f.byte_of_size_le i (by omega)

/-- Positional `pwrite`; a negative offset is rejected and nothing is written. -/
def pwrite (f : File) (data : Buffer) (n : ℕ) (off : Int) : File :=
  if off < 0 then f else f.put data n off.toNat

def append (f : File) (data : Buffer) (n : ℕ) : File := f.put data n f.size

/-- `pwrite` to a descriptor opened with `O_APPEND`: the offset is checked and then ignored. -/
def pwriteAppend (f : File) (data : Buffer) (n : ℕ) (off : Int) : File :=
  if off < 0 then f else f.append data n

/-- How many bytes `pread` delivers; `none` stands for the return value `-1`. -/
def preadCount (f : File) (n : ℕ) (off : Int) : Option ℕ :=
  if off < 0 then none else some (min n (f.size - off.toNat))

/-- The buffer `pread` was given, with the bytes it delivered. -/
def pread (f : File) (buf : Buffer) (n : ℕ) (off : Int) : Buffer := fun i =>
  match f.preadCount n off with
  | none => buf i
  | some count => if i < count then f.byte (off.toNat + i) else buf i

@[simp] theorem append_size (f : File) (data : Buffer) (n : ℕ) :
    (f.append data n).size = f.size + n := by
  simp [append, put]

theorem append_byte_of_lt {f : File} {data : Buffer} {n i : ℕ} (h : i < f.size) :
    (f.append data n).byte i = f.byte i := by
  simp only [append, put]
  rw [if_neg (by omega)]

theorem put_byte_inside {f : File} {data : Buffer} {n off i : ℕ} (h : i < n) :
    (f.put data n off).byte (off + i) = data i := by
  simp [put, h]

theorem put_byte_outside {f : File} {data : Buffer} {n off i : ℕ} (h : i < off ∨ off + n ≤ i) :
    (f.put data n off).byte i = f.byte i := by
  simp only [put]
  rw [if_neg (by omega)]

theorem pwrite_apart {f : File} {data : Buffer} {n lo len : ℕ} {off : Int}
    (h : off + n ≤ lo ∨ (lo : Int) + len ≤ off) :
    f.size ≤ (f.pwrite data n off).size ∧
      ∀ i < len, (f.pwrite data n off).byte (lo + i) = f.byte (lo + i) := by
  unfold pwrite
  split
  · exact ⟨le_refl _, fun _ _ => rfl⟩
  · refine ⟨le_max_left _ _, ?_⟩
    intro i hi
    exact put_byte_outside (by omega)

theorem pread_eq {f : File} {buf : Buffer} {n off i : ℕ} (hi : i < n) (h : off + n ≤ f.size) :
    f.pread buf n off i = f.byte (off + i) := by
  have hc : f.preadCount n off = some n := by
    simp only [preadCount, Int.toNat_natCast]
    rw [if_neg (by omega), Nat.min_eq_left (by omega)]
  simp [pread, hc, hi]

end File

end PagedDb
