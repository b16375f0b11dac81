import PagedDb.Foundation.Exec
import PagedDb.Foundation.Streams
import PagedDb.Storage.Values

/-!
# The operator protocol

An operator keeps one tuple ahead of what its subclass fetches. `hasNext` fills
this buffer, `next` empties it and `close` drops it. `hasNext` asks first whether
the operator is open and `next` does not, so the protocol holds in exactly those
runs in which `next` is called on an open operator only.
-/

namespace PagedDb

open Exec Streams

/-- `Operator`, with what its subclass keeps. -/
structure Operator (σ : Type) where
  tup : Option Tuple
  isOpen : Bool
  subclass : σ

namespace Operator

variable {σ : Type}

def new (subclass : σ) : Operator σ := ⟨none, false, subclass⟩

def «open» (o : Operator σ) : Operator σ := { o with isOpen := true }

/-- `close` drops the tuple in the buffer. -/
def close (o : Operator σ) : Operator σ := { o with tup := none, isOpen := false }

def rewind (o : Operator σ) : Operator σ := o.close.open

variable (fetchNext : Source σ Tuple)

/-- `if (!tup.has_value()) tup = fetchNext();`. -/
def fill (o : Operator σ) : Operator σ :=
  if o.tup.isNone then
    { o with tup := (fetchNext o.subclass).1, subclass := (fetchNext o.subclass).2 }
  else o

def hasNext : EStateM Fault (Operator σ) Bool := do
  if !(← get).isOpen then throw (.runtimeError "Operator not open")
  modify (fill fetchNext)
  pure (← get).tup.isSome

/-- The end of `next`: hand out the tuple in the buffer, which is empty if the subclass had none. -/
def take : EStateM Fault (Operator σ) Tuple := fun o =>
  match o.tup with
  | some result => .ok result { o with tup := none }
  | none => .error (.runtimeError "No more tuples") o

def next : EStateM Fault (Operator σ) Tuple := do
  modify (fill fetchNext)
  take

/-- A call on an operator. -/
inductive Call
  | «open»
  | hasNext
  | next
  | close
  deriving DecidableEq

/-- How a call ends. -/
inductive Outcome
  | done
  | answer (b : Bool)
  | tuple (t : Tuple)
  | threw (e : Fault)
  deriving DecidableEq

/-- The caller of an operator sees the result or the exception, and the operator stays. -/
def outcome {α : Type} (f : α → Outcome) :
    EStateM.Result Fault (Operator σ) α → Outcome × Operator σ
  | .ok a o => (f a, o)
  | .error e o => (.threw e, o)

def Call.run : Call → Operator σ → Outcome × Operator σ
  | .open, o => (.done, o.open)
  | .hasNext, o => outcome .answer (Operator.hasNext fetchNext o)
  | .next, o => outcome .tuple (Operator.next fetchNext o)
  | .close, o => (.done, o.close)

def after (cs : List Call) (o : Operator σ) : Operator σ :=
  cs.foldl (fun o c => (c.run fetchNext o).2) o

def outcomes : List Call → Operator σ → List Outcome
  | [], _ => []
  | c :: cs, o => (c.run fetchNext o).1 :: outcomes cs (c.run fetchNext o).2

def returned (rs : List Outcome) : List Tuple :=
  rs.filterMap fun
    | .tuple t => some t
    | _ => none

def Call.isOpen (before : Bool) : Call → Bool
  | .open => true
  | .close => false
  | _ => before

/-- The last call of `open` or `close` in a sequence was one of `open`. -/
def isOpenAfter (cs : List Call) : Bool := cs.foldl Call.isOpen false

/-- The part of the stream that an operator has not handed out or dropped: the tuple in the buffer,
and what is left behind the calls of `fetchNext` so far. -/
def pending (l : List Tuple) (o : Operator (σ × ℕ)) : List Tuple :=
  o.tup.toList ++ l.drop o.subclass.2

/-- The operator protocol over a run, where the subclass counts the calls of `fetchNext`. -/
structure Protocol (fetchNext : Source (σ × ℕ) Tuple) (l : List Tuple) (cs : List Call)
    (o : Operator (σ × ℕ)) : Prop where
  /-- Between an `open` and the next `close` the tuples come as they do in the stream. -/
  inOrder : ∀ pre mid post, cs = pre ++ .open :: mid ++ post → .close ∉ mid →
    returned (outcomes fetchNext mid (after fetchNext (pre ++ [.open]) o)) <+:
      pending l (after fetchNext (pre ++ [.open]) o)
  /-- On an open operator `hasNext` tells whether the next call of `next` returns a tuple, also
  behind more calls of `hasNext`. -/
  lookAhead : ∀ pre post, cs = pre ++ .hasNext :: post → isOpenAfter pre = true →
    ∃ b o', Call.hasNext.run fetchNext (after fetchNext pre o) = (.answer b, o') ∧
      ∀ k, b = true ↔ ∃ t o'',
        Call.next.run fetchNext (after fetchNext (List.replicate k .hasNext) o') = (.tuple t, o'')
  /-- Otherwise both throw, without a call of `fetchNext`. -/
  closed : ∀ pre c post, cs = pre ++ c :: post → c = .hasNext ∨ c = .next →
    isOpenAfter pre = false →
    (∃ e, (c.run fetchNext (after fetchNext pre o)).1 = .threw e) ∧
      (after fetchNext (pre ++ [c]) o).subclass.2 = (after fetchNext pre o).subclass.2

/-- No call of `next` on an operator that is not open. -/
def NextsOpen (cs : List Call) : Prop :=
  ∀ pre post, cs = pre ++ .next :: post → isOpenAfter pre = true

theorem after_snoc (cs : List Call) (c : Call) (o : Operator σ) :
    after fetchNext (cs ++ [c]) o = (c.run fetchNext (after fetchNext cs o)).2 := by
  simp [after]

theorem rewind_eq (o : Operator σ) : o.rewind = after fetchNext [.close, .open] o := rfl

section Steps

variable {fetchNext} {l : List Tuple} {o : Operator (σ × ℕ)}

/-- What every run keeps: the subclass hands out the rest of the stream, and the buffer of an
operator that is not open is empty. -/
structure Sound (fetchNext : Source σ Tuple) (l : List Tuple) (o : Operator (σ × ℕ)) : Prop where
  produces : Produces fetchNext o.subclass.1 (l.drop o.subclass.2)
  empty : o.isOpen = false → o.tup = none

theorem new_sound {s : σ} (h : Produces fetchNext s l) : Sound fetchNext l (new (s, 0)) :=
  ⟨h, fun _ => rfl⟩

theorem Sound.fill (h : Sound fetchNext l o) :
    (o.fill (counted fetchNext)).tup = (pending l o).head? ∧
      pending l (o.fill (counted fetchNext)) = pending l o ∧
      Produces fetchNext (o.fill (counted fetchNext)).subclass.1
        (l.drop (o.fill (counted fetchNext)).subclass.2) := by
  cases htup : o.tup with
  | some t => simp [Operator.fill, pending, htup, h.produces]
  | none =>
    have hhead : (fetchNext o.subclass.1).1 = (l.drop o.subclass.2).head? := h.produces.head
    have hsplit := head_append_tail (l.drop o.subclass.2)
    refine ⟨?_, ?_, ?_⟩
    · simp [Operator.fill, counted, pending, htup, hhead]
    · simpa [Operator.fill, counted, pending, htup, hhead] using hsplit
    · simpa [Operator.fill, counted, htup] using h.produces.tail

theorem fill_isOpen : (o.fill (counted fetchNext)).isOpen = o.isOpen := by
  unfold Operator.fill
  split <;> rfl

theorem hasNext_closed (hopen : o.isOpen = false) :
    Call.hasNext.run (counted fetchNext) o = (.threw (.runtimeError "Operator not open"), o) := by
  rw [Call.run, Operator.hasNext, bind_ok (get_run o), hopen]
  rfl

theorem hasNext_open (h : Sound fetchNext l o) (hopen : o.isOpen = true) :
    ∃ o', Call.hasNext.run (counted fetchNext) o = (.answer (pending l o).head?.isSome, o') ∧
      Sound fetchNext l o' ∧ o'.isOpen = true ∧ pending l o' = pending l o := by
  obtain ⟨htup, hpending, hproduces⟩ := h.fill
  have hopen' : (o.fill (counted fetchNext)).isOpen = true := fill_isOpen.trans hopen
  refine ⟨o.fill (counted fetchNext), ?_, ⟨hproduces, by simp [hopen']⟩, hopen', hpending⟩
  rw [← htup, Call.run, Operator.hasNext, bind_ok (get_run o), hopen]
  rfl

/-- `next` returns the first tuple of the rest of the stream, on an open operator or another. -/
theorem next_run (h : Sound fetchNext l o) :
    ∃ r o', Call.next.run (counted fetchNext) o = (r, o') ∧ Sound fetchNext l o' ∧
      o'.isOpen = o.isOpen ∧ pending l o = returned [r] ++ pending l o' ∧
      ((∃ t, r = .tuple t) ↔ (pending l o).head?.isSome = true) := by
  obtain ⟨htup, hpending, hproduces⟩ := h.fill
  have hopen' : (o.fill (counted fetchNext)).isOpen = o.isOpen := fill_isOpen
  have hrun : Call.next.run (counted fetchNext) o =
      outcome .tuple (take (o.fill (counted fetchNext))) := rfl
  cases hhead : (pending l o).head? with
  | none =>
    rw [hhead] at htup
    have htake : take (o.fill (counted fetchNext)) =
        .error (.runtimeError "No more tuples") (o.fill (counted fetchNext)) := by
      rw [take, htup]
    rw [htake] at hrun
    exact ⟨_, _, hrun, ⟨hproduces, fun _ => htup⟩, hopen', by simp [returned, hpending], by simp⟩
  | some t =>
    rw [hhead] at htup
    have htake : take (o.fill (counted fetchNext)) =
        .ok t { o.fill (counted fetchNext) with tup := none } := by
      rw [take, htup]
    rw [htake] at hrun
    refine ⟨_, _, hrun, ⟨hproduces, fun _ => rfl⟩, hopen', ?_, by simp⟩
    rw [← hpending]
    simp [returned, pending, htup]

theorem next_closed (h : Sound fetchNext l o) (hopen : o.isOpen = false) :
    (Call.next.run (counted fetchNext) o).2.subclass.2 = o.subclass.2 + 1 := by
  have htup := h.empty hopen
  cases hfetch : (fetchNext o.subclass.1).1 <;>
    simp [Call.run, Operator.next, bind_ok (modify_run _ o), take, outcome, Operator.fill, counted,
      htup, hfetch]

theorem returned_cons (r : Outcome) (rs : List Outcome) :
    returned (r :: rs) = returned [r] ++ returned rs :=
  List.filterMap_append (l := [r])

theorem step (h : Sound fetchNext l o) (c : Call) :
    Sound fetchNext l (c.run (counted fetchNext) o).2 ∧
      (c.run (counted fetchNext) o).2.isOpen = c.isOpen o.isOpen ∧
      (c ≠ .close → pending l o = returned [(c.run (counted fetchNext) o).1] ++
        pending l (c.run (counted fetchNext) o).2) := by
  cases c with
  | «open» => exact ⟨⟨h.produces, nofun⟩, rfl, fun _ => rfl⟩
  | hasNext =>
    cases hopen : o.isOpen with
    | false =>
      rw [hasNext_closed hopen]
      exact ⟨h, hopen, fun _ => rfl⟩
    | true =>
      obtain ⟨o', hrun, hsound, hopen', hpending⟩ := hasNext_open h hopen
      rw [hrun]
      exact ⟨hsound, hopen', fun _ => hpending.symm⟩
  | next =>
    obtain ⟨r, o', hrun, hsound, hopen', hpending, -⟩ := next_run h
    rw [hrun]
    exact ⟨hsound, hopen', fun _ => hpending⟩
  | close => exact ⟨⟨h.produces, fun _ => rfl⟩, rfl, fun hne => absurd rfl hne⟩

theorem after_sound (h : Sound fetchNext l o) (cs : List Call) :
    Sound fetchNext l (after (counted fetchNext) cs o) ∧
      (after (counted fetchNext) cs o).isOpen = cs.foldl Call.isOpen o.isOpen := by
  induction cs generalizing o with
  | nil => exact ⟨h, rfl⟩
  | cons c cs ih =>
    obtain ⟨hsound, hopen, -⟩ := step h c
    have hrest := ih hsound
    rwa [hopen] at hrest

/-- While the operator is not closed, what calls return is gone from the rest of the stream, and
nothing else. -/
theorem returned_append_pending (h : Sound fetchNext l o) {cs : List Call} (hclose : .close ∉ cs) :
    returned (outcomes (counted fetchNext) cs o) ++ pending l (after (counted fetchNext) cs o) =
      pending l o := by
  induction cs generalizing o with
  | nil => rfl
  | cons c cs ih =>
    obtain ⟨hc, hcs⟩ := not_or.mp (List.mem_cons.not.mp hclose)
    obtain ⟨hsound, -, hpending⟩ := step h c
    rw [outcomes, returned_cons, List.append_assoc, hpending (Ne.symm hc)]
    exact congrArg _ (ih hsound hcs)

theorem after_hasNext (h : Sound fetchNext l o) (hopen : o.isOpen = true) (k : ℕ) :
    pending l (after (counted fetchNext) (List.replicate k .hasNext) o) = pending l o := by
  induction k generalizing o with
  | zero => rfl
  | succ k ih =>
    obtain ⟨o', hrun, hsound, hopen', hpending⟩ := hasNext_open h hopen
    rw [List.replicate_succ, after, List.foldl_cons, hrun, ← hpending]
    exact ih hsound hopen'

end Steps

/-- A run keeps the operator protocol exactly if it calls `next` on an open operator only. -/
theorem protocol_iff {fetchNext : Source σ Tuple} {s : σ} {l : List Tuple}
    (hstream : Produces fetchNext s l) (cs : List Call) :
    Protocol (counted fetchNext) l cs (new (s, 0)) ↔ NextsOpen cs := by
  have hsound := fun cs => after_sound (new_sound hstream) cs
  constructor
  · intro h pre post hcs
    by_contra hopen
    have hclosed : isOpenAfter pre = false := by simpa using hopen
    obtain ⟨hs, hopen'⟩ := hsound pre
    have hfetched := next_closed hs (hopen'.trans hclosed)
    have hkept := (h.closed pre .next post hcs (.inr rfl) hclosed).2
    rw [after_snoc] at hkept
    exact absurd (hfetched.symm.trans hkept) (Nat.succ_ne_self _)
  · intro hnexts
    constructor
    case inOrder =>
      intro pre mid post _ hclose
      exact ⟨_, returned_append_pending (hsound (pre ++ [.open])).1 hclose⟩
    case lookAhead =>
      intro pre post _ hopen
      obtain ⟨hs, hopen'⟩ := hsound pre
      obtain ⟨o', hrun, hs', hopen'', hpending⟩ := hasNext_open hs (hopen'.trans hopen)
      refine ⟨_, o', hrun, fun k => ?_⟩
      obtain ⟨r, o'', hnext, -, -, -, htuple⟩ := next_run (after_sound hs' (.replicate k .hasNext)).1
      rw [after_hasNext hs' hopen'' k, hpending] at htuple
      rw [← htuple, hnext]
      constructor
      · rintro ⟨t, rfl⟩
        exact ⟨t, o'', rfl⟩
      · rintro ⟨t, _, heq⟩
        exact ⟨t, congrArg Prod.fst heq⟩
    case closed =>
      intro pre c post hcs hc hclosed
      obtain ⟨hs, hopen'⟩ := hsound pre
      rcases hc with rfl | rfl
      · rw [after_snoc, hasNext_closed (hopen'.trans hclosed)]
        exact ⟨⟨_, rfl⟩, rfl⟩
      · rw [hnexts pre post hcs] at hclosed
        cases hclosed

def oneRow : List Tuple := [⟨.ofInts 1, [.int 7], none, rfl⟩]

theorem oneRow_protocol :
    Protocol (counted pop) oneRow [.open, .hasNext, .next, .close, .hasNext] (new (oneRow, 0)) ↔
      NextsOpen [.open, .hasNext, .next, .close, .hasNext] :=
  protocol_iff (produces_pop oneRow) [.open, .hasNext, .next, .close, .hasNext]

/-- A new operator that nobody opened returns the row. -/
theorem next_before_open : ¬ ∀ (σ : Type) (fetchNext : Source σ Tuple) (s : σ) (l : List Tuple),
    Produces fetchNext s l → ∀ cs, Protocol (counted fetchNext) l cs (new (s, 0)) := by
  intro hclaim
  have h := hclaim _ pop oneRow oneRow (produces_pop oneRow) [.next]
  obtain ⟨⟨e, he⟩, -⟩ := h.closed [] .next [] rfl (.inr rfl) rfl
  cases he

end Operator

end PagedDb
