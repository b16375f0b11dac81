import PagedDb.Foundation.Exec

/-!
# Programs that carry a ghost component

A program may run on a richer state than the one it is a copy of, for instance
to keep a log of its calls. It erases to the original if forgetting the extra
component of the states turns every run of the copy into the run of the
original, failed runs included.
-/

namespace PagedDb.Exec

variable {ε σ τ α β : Type}

def mapState (f : τ → σ) : EStateM.Result ε τ α → EStateM.Result ε σ α
  | .ok a t => .ok a (f t)
  | .error e t => .error e (f t)

theorem stateOf_mapState (f : τ → σ) (r : EStateM.Result ε τ α) :
    stateOf (mapState f r) = f (stateOf r) := by
  cases r <;> rfl

/-- Forgetting by `f` turns the runs of `x` into the runs of `y`. -/
def Erases (f : τ → σ) (x : EStateM ε τ α) (y : EStateM ε σ α) : Prop :=
  ∀ t, mapState f (x t) = y (f t)

namespace Erases

variable {f : τ → σ}

theorem pure (a : α) : Erases f (Pure.pure a : EStateM ε τ α) (Pure.pure a) := fun _ => rfl

theorem throw (e : ε) : Erases f (MonadExcept.throw e : EStateM ε τ α) (MonadExcept.throw e) :=
  fun _ => rfl

theorem lift (x : Except ε α) : Erases f (Exec.lift x) (Exec.lift x) := by
  intro t
  cases x <;> rfl

theorem modify {g : τ → τ} {h : σ → σ} (hg : ∀ t, f (g t) = h (f t)) :
    Erases f (modify g : EStateM ε τ PUnit) (modify h) := by
  intro t
  exact congrArg (EStateM.Result.ok PUnit.unit) (hg t)

theorem bind {x : EStateM ε τ α} {y : EStateM ε σ α} {k : α → EStateM ε τ β}
    {l : α → EStateM ε σ β} (h : Erases f x y) (hk : ∀ a, Erases f (k a) (l a)) :
    Erases f (x >>= k) (y >>= l) := by
  intro t
  have ht := h t
  cases hx : x t with
  | ok a t' =>
    rw [hx] at ht
    rw [bind_ok hx, bind_ok ht.symm]
    exact hk a t'
  | error e t' =>
    rw [hx] at ht
    rw [bind_error hx, bind_error ht.symm]
    rfl

theorem get {k : τ → EStateM ε τ β} {l : σ → EStateM ε σ β} (h : ∀ t, Erases f (k t) (l (f t))) :
    Erases f (MonadState.get >>= k) (MonadState.get >>= l) := fun t => h t t

theorem ite {c d : Prop} [Decidable c] [Decidable d] (hcd : c ↔ d) {x x' : EStateM ε τ α}
    {y y' : EStateM ε σ α} (h : Erases f x y) (h' : Erases f x' y') :
    Erases f (if c then x else x') (if d then y else y') := by
  by_cases hc : c
  · rwa [if_pos hc, if_pos (hcd.mp hc)]
  · rwa [if_neg hc, if_neg (hc ∘ hcd.mpr)]

theorem forM {body : β → EStateM ε τ PUnit} {body' : β → EStateM ε σ PUnit} (xs : List β)
    (h : ∀ x, Erases f (body x) (body' x)) : Erases f (xs.forM body) (xs.forM body') := by
  induction xs with
  | nil => exact pure _
  | cons x xs ih => exact (h x).bind fun _ => ih

end Erases

end PagedDb.Exec
