import Mathlib

/-!
# Streams that end

A source hands out the elements of a list one by one, and then nothing forever.
Counting the calls of a source does not change what it hands out.
-/

namespace PagedDb.Streams

variable {σ α : Type}

abbrev Source (σ α : Type) := σ → Option α × σ

/-- The `n`-th call hands out the `n`-th element of the list; behind the list there is none. -/
def Produces (next : Source σ α) (s : σ) (l : List α) : Prop :=
  ∀ n, (next ((fun s => (next s).2)^[n] s)).1 = l[n]?

def counted (next : Source σ α) : Source (σ × ℕ) α := fun s =>
  ((next s.1).1, (next s.1).2, s.2 + 1)

def pop : Source (List α) α := fun l => (l.head?, l.tail)

variable {next : Source σ α} {s : σ} {l : List α}

theorem Produces.head (h : Produces next s l) : (next s).1 = l.head? := by
  simpa [List.head?_eq_getElem?] using h 0

theorem Produces.tail (h : Produces next s l) : Produces next (next s).2 l.tail := by
  intro n
  simpa using h (n + 1)

theorem produces_pop (l : List α) : Produces pop l l := by
  intro n
  induction n generalizing l with
  | zero => simp [pop, List.head?_eq_getElem?]
  | succ n ih => simpa [pop] using ih l.tail

theorem head_append_tail (l : List α) : l.head?.toList ++ l.tail = l := by
  cases l <;> simp

end PagedDb.Streams
