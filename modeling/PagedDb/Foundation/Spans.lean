import PagedDb.Foundation.Memory

/-!
# The bytes a routine touches

A routine that copies to or from a buffer touches a list of spans. It stays
inside a buffer of some size if every span does, and what it reads is decided
by the bytes of its spans.
-/

namespace PagedDb.Memory

/-- `len` bytes from an offset on. -/
structure Span where
  off : ℕ
  len : ℕ
  deriving DecidableEq

namespace Span

def Covers (s : Span) (i : ℕ) : Prop := s.off ≤ i ∧ i < s.off + s.len

/-- Every byte of the span is one of the first `size` bytes. -/
def Inside (s : Span) (size : ℕ) : Prop := ∀ i, s.Covers i → i < size

variable {s : Span} {size : ℕ}

theorem inside_of_le (h : s.off + s.len ≤ size) : s.Inside size := by
  rintro i ⟨-, hi⟩
  omega

theorem Inside.le (h : s.Inside size) (hlen : 0 < s.len) : s.off + s.len ≤ size := by
  have hlast := h (s.off + s.len - 1) ⟨by omega, by omega⟩
  omega

end Span

def Agree (spans : List Span) (m m' : Buffer) : Prop := ∀ s ∈ spans, ∀ i, s.Covers i → m i = m' i

def AgreeOutside (spans : List Span) (m m' : Buffer) : Prop :=
  ∀ i, (∀ s ∈ spans, ¬ s.Covers i) → m i = m' i

variable {spans spans' : List Span} {m m' m'' : Buffer} {off n : ℕ}

theorem Agree.loadWord (h : Agree spans m m') (hs : ⟨off, 4⟩ ∈ spans) :
    loadWord m off = loadWord m' off :=
  loadWord_congr fun i h₁ h₂ => h _ hs i ⟨h₁, h₂⟩

theorem Agree.read (h : Agree spans m m') (hs : ⟨off, n⟩ ∈ spans) :
    read m off n = read m' off n :=
  read_congr fun i h₁ h₂ => h _ hs i ⟨h₁, h₂⟩

theorem Agree.subset (h : Agree spans m m') (hsub : spans' ⊆ spans) : Agree spans' m m' :=
  fun s hs => h s (hsub hs)

theorem AgreeOutside.refl (m : Buffer) : AgreeOutside [] m m := fun _ _ => rfl

theorem AgreeOutside.trans (h : AgreeOutside spans m m') (h' : AgreeOutside spans' m' m'') :
    AgreeOutside (spans ++ spans') m m'' := by
  intro i hi
  rw [h i fun s hs => hi s (List.mem_append_left _ hs),
    h' i fun s hs => hi s (List.mem_append_right _ hs)]

theorem agreeOutside_write (m : Buffer) (off : ℕ) {bytes : List UInt8} {n : ℕ}
    (hlen : bytes.length ≤ n) : AgreeOutside [⟨off, n⟩] m (write m off bytes) := by
  intro i hi
  have hout : ¬ (off ≤ i ∧ i < off + n) := hi ⟨off, n⟩ (List.mem_singleton_self _)
  exact (write_outside (by omega)).symm

end PagedDb.Memory
