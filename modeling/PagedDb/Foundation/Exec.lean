import Mathlib

/-!
# Running stateful programs step by step

`EStateM ε σ` keeps the state also where a program fails, so what a failed call
leaves behind can be stated. These are the rules the proofs run programs with:
one step forward from a known result, and back from a successful end.
-/

namespace PagedDb.Exec

variable {ε σ τ α β : Type}

def lift (x : Except ε α) : EStateM ε σ α := fun s =>
  match x with
  | .ok a => .ok a s
  | .error e => .error e s

def zoom (getPart : τ → σ) (setPart : σ → τ → τ) (x : EStateM ε σ α) : EStateM ε τ α := fun t =>
  match x (getPart t) with
  | .ok a s => .ok a (setPart s t)
  | .error e s => .error e (setPart s t)

@[simp] theorem lift_ok (a : α) (s : σ) : lift (.ok a : Except ε α) s = .ok a s := rfl

@[simp] theorem lift_error (e : ε) (s : σ) : lift (.error e : Except ε α) s = .error e s := rfl

theorem lift_run {x : Except ε α} {a : α} (h : x = .ok a) (s : σ) : lift x s = .ok a s := by
  rw [h, lift_ok]

@[simp] theorem pure_run (a : α) (s : σ) : (pure a : EStateM ε σ α) s = .ok a s := rfl

@[simp] theorem throw_run (e : ε) (s : σ) : (throw e : EStateM ε σ α) s = .error e s := rfl

@[simp] theorem get_run (s : σ) : (get : EStateM ε σ σ) s = .ok s s := rfl

@[simp] theorem set_run (s s' : σ) : (set s' : EStateM ε σ PUnit) s = .ok ⟨⟩ s' := rfl

@[simp] theorem modify_run (f : σ → σ) (s : σ) :
    (modify f : EStateM ε σ PUnit) s = .ok ⟨⟩ (f s) := rfl

theorem bind_ok {x : EStateM ε σ α} {f : α → EStateM ε σ β} {a : α} {s s' : σ}
    (h : x s = .ok a s') : (x >>= f) s = f a s' := by
  change EStateM.bind x f s = _
  simp [EStateM.bind, h]

theorem bind_error {x : EStateM ε σ α} {f : α → EStateM ε σ β} {e : ε} {s s' : σ}
    (h : x s = .error e s') : (x >>= f) s = .error e s' := by
  change EStateM.bind x f s = _
  simp [EStateM.bind, h]

theorem of_bind_ok {x : EStateM ε σ α} {f : α → EStateM ε σ β} {b : β} {s s'' : σ}
    (h : (x >>= f) s = .ok b s'') : ∃ a s', x s = .ok a s' ∧ f a s' = .ok b s'' := by
  cases hx : x s with
  | ok a s' => exact ⟨a, s', rfl, by rwa [bind_ok hx] at h⟩
  | error e s' => rw [bind_error hx] at h; cases h

theorem of_lift_ok {x : Except ε α} {a : α} {s s' : σ} (h : lift x s = .ok a s') :
    x = .ok a ∧ s' = s := by
  cases x with
  | ok b => simp only [lift_ok, EStateM.Result.ok.injEq] at h; exact ⟨by rw [h.1], h.2.symm⟩
  | error e => simp at h

theorem of_except_bind {x : Except ε α} {f : α → Except ε β} {b : β} (h : (x >>= f) = .ok b) :
    ∃ a, x = .ok a ∧ f a = .ok b := by
  cases x with
  | ok a => exact ⟨a, rfl, h⟩
  | error e => cases h

theorem of_except_map {x : Except ε α} {f : α → β} {b : β} (h : f <$> x = .ok b) :
    ∃ a, x = .ok a ∧ f a = b := by
  cases x with
  | ok a => exact ⟨a, rfl, Except.ok.inj h⟩
  | error e => cases h

theorem map_ne_error {x : Except ε α} {e : ε} (h : x ≠ .error e) (f : α → β) :
    f <$> x ≠ .error e := by
  cases x with
  | ok a => exact nofun
  | error e' => exact fun heq => h (congrArg Except.error (Except.error.inj heq))

theorem except_bind {x : Except ε α} {f : α → Except ε β} {a : α} (h : x = .ok a) :
    (x >>= f) = f a := by
  rw [h]
  rfl

theorem pure_ne_error (a : α) (e : ε) : (pure a : Except ε α) ≠ .error e := nofun

theorem bind_ne_error {x : Except ε α} {f : α → Except ε β} {e : ε} (hx : x ≠ .error e)
    (hf : ∀ a, x = .ok a → f a ≠ .error e) : (x >>= f) ≠ .error e := by
  cases x with
  | ok a => exact hf a rfl
  | error e' => exact fun h => hx (congrArg Except.error (Except.error.inj h))

theorem zoom_ok {getPart : τ → σ} {setPart : σ → τ → τ} {x : EStateM ε σ α} {a : α} {t : τ}
    {s : σ} (h : x (getPart t) = .ok a s) : zoom getPart setPart x t = .ok a (setPart s t) := by
  simp [zoom, h]

theorem zoom_error {getPart : τ → σ} {setPart : σ → τ → τ} {x : EStateM ε σ α} {e : ε} {t : τ}
    {s : σ} (h : x (getPart t) = .error e s) :
    zoom getPart setPart x t = .error e (setPart s t) := by
  simp [zoom, h]

theorem forM_invariant {I : σ → Prop} {body : α → EStateM ε σ PUnit} {xs : List α}
    (step : ∀ x ∈ xs, ∀ s, I s → ∃ s', body x s = .ok ⟨⟩ s' ∧ I s') {s : σ} (hs : I s) :
    ∃ s', xs.forM body s = .ok ⟨⟩ s' ∧ I s' := by
  induction xs generalizing s with
  | nil => exact ⟨s, rfl, hs⟩
  | cons x xs ih =>
    obtain ⟨s₁, hx, h₁⟩ := step x List.mem_cons_self s hs
    obtain ⟨s₂, hxs, h₂⟩ := ih (fun y hy => step y (List.mem_cons_of_mem x hy)) h₁
    refine ⟨s₂, ?_, h₂⟩
    change (body x >>= fun _ => xs.forM body) s = _
    rw [bind_ok hx]
    exact hxs

def stateOf : EStateM.Result ε σ α → σ
  | .ok _ s => s
  | .error _ s => s

@[simp] theorem stateOf_ok (a : α) (s : σ) : stateOf (.ok a s : EStateM.Result ε σ α) = s := rfl

@[simp] theorem stateOf_error (e : ε) (s : σ) :
    stateOf (.error e s : EStateM.Result ε σ α) = s := rfl

theorem stateOf_zoom (getPart : τ → σ) (setPart : σ → τ → τ) (x : EStateM ε σ α) (t : τ) :
    stateOf (zoom getPart setPart x t) = setPart (stateOf (x (getPart t))) t := by
  unfold zoom
  cases x (getPart t) <;> rfl

def Keeps (I : σ → Prop) (x : EStateM ε σ α) : Prop := ∀ s, I s → I (stateOf (x s))

namespace Keeps

variable {I : σ → Prop}

theorem pure (a : α) : Keeps I (Pure.pure a : EStateM ε σ α) := fun _ hs => hs

theorem throw (e : ε) : Keeps I (MonadExcept.throw e : EStateM ε σ α) := fun _ hs => hs

theorem lift (x : Except ε α) : Keeps I (Exec.lift x : EStateM ε σ α) := by
  intro s hs
  cases x <;> exact hs

theorem of_ok {x : EStateM ε σ α} {a : α} {s s' : σ} (hx : Keeps I x) (hs : I s)
    (hrun : x s = .ok a s') : I s' := by
  have h := hx s hs
  rw [hrun] at h
  exact h

theorem run {x : EStateM ε σ α} {f : α → EStateM ε σ β} {s : σ} (hx : I (stateOf (x s)))
    (hf : ∀ a, Keeps I (f a)) : I (stateOf ((x >>= f) s)) := by
  cases hrun : x s with
  | ok a s' =>
    rw [hrun] at hx
    rw [bind_ok hrun]
    exact hf a s' hx
  | error e s' =>
    rw [hrun] at hx
    rw [bind_error hrun]
    exact hx

theorem bind {x : EStateM ε σ α} {f : α → EStateM ε σ β} (hx : Keeps I x)
    (hf : ∀ a, Keeps I (f a)) : Keeps I (x >>= f) := fun s hs => run (hx s hs) hf

theorem get {f : σ → EStateM ε σ β} (hf : ∀ s, Keeps I (f s)) :
    Keeps I (MonadState.get >>= f) := fun s hs => hf s s hs

theorem modify {f : σ → σ} (hf : ∀ s, I s → I (f s)) :
    Keeps I (modify f : EStateM ε σ PUnit) := fun s hs => hf s hs

theorem ite {c : Prop} [Decidable c] {x y : EStateM ε σ α} (hx : Keeps I x) (hy : Keeps I y) :
    Keeps I (if c then x else y) := by
  split
  · exact hx
  · exact hy

theorem forM {body : β → EStateM ε σ PUnit} (h : ∀ b, Keeps I (body b)) (bs : List β) :
    Keeps I (bs.forM body) := by
  induction bs with
  | nil => exact pure _
  | cons b bs ih => exact (h b).bind fun _ => ih

end Keeps

end PagedDb.Exec
