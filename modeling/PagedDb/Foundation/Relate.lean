import PagedDb.Foundation.Exec

/-!
# Relating two runs of a program

A program written over an interface runs on an implementation and on a
specification of it. The specification may get stuck, which asks nothing of the
implementation there; otherwise both runs end alike, in related states, and what
the implementation's state has promised before still holds. That a specification
is never stuck is a property of its own runs.
-/

namespace PagedDb.Exec

variable {ε σ τ α β α' β' : Type}

/-- How the states of two runs are related: `Inv` holds between the calls of the interface, and
`Evolves` says how a pair of states can go on from an earlier pair. -/
structure Coupling (ε σ τ : Type) where
  stuck : ε
  Inv : σ → τ → Prop
  Evolves : σ → τ → σ → τ → Prop
  refl : ∀ s t, Evolves s t s t
  trans : ∀ {s t s' t' s'' t''}, Evolves s t s' t' → Evolves s' t' s'' t'' → Evolves s t s'' t''

/-- The two runs, started in `s` and `t`, end alike unless the second one is stuck. -/
def Agrees (C : Coupling ε σ τ) (s : σ) (t : τ) (Q : α → β → σ → τ → Prop) :
    EStateM.Result ε σ α → EStateM.Result ε τ β → Prop
  | .ok a s', .ok b t' => C.Inv s' t' ∧ C.Evolves s t s' t' ∧ Q a b s' t'
  | .error e _, .error e' _ => e' = C.stuck ∨ e = e'
  | .ok _ _, .error e' _ => e' = C.stuck
  | .error _ _, .ok _ _ => False

namespace Agrees

variable {C : Coupling ε σ τ} {s : σ} {t : τ} {Q : α → β → σ → τ → Prop}

theorem ok {a : α} {b : β} {s' : σ} {t' : τ} (hinv : C.Inv s' t') (hev : C.Evolves s t s' t')
    (hq : Q a b s' t') : Agrees C s t Q (.ok a s') (.ok b t') := ⟨hinv, hev, hq⟩

theorem pure {a : α} {b : β} (hinv : C.Inv s t) (hq : Q a b s t) :
    Agrees C s t Q ((Pure.pure a : EStateM ε σ α) s) ((Pure.pure b : EStateM ε τ β) t) :=
  ⟨hinv, C.refl s t, hq⟩

theorem throw (e : ε) :
    Agrees C s t Q ((MonadExcept.throw e : EStateM ε σ α) s)
      ((MonadExcept.throw e : EStateM ε τ β) t) := .inr rfl

theorem stuck (r : EStateM.Result ε σ α) (t' : τ) : Agrees C s t Q r (.error C.stuck t') := by
  cases r with
  | ok a s' => exact rfl
  | error e s' => exact .inl rfl

theorem mono {Q' : α → β → σ → τ → Prop} {r : EStateM.Result ε σ α} {r' : EStateM.Result ε τ β}
    (h : Agrees C s t Q r r') (hq : ∀ a b s' t', Q a b s' t' → Q' a b s' t') :
    Agrees C s t Q' r r' := by
  cases r with
  | ok a s' =>
    cases r' with
    | ok b t' => exact ⟨h.1, h.2.1, hq a b s' t' h.2.2⟩
    | error e' t' => exact h
  | error e s' =>
    cases r' with
    | ok b t' => exact h
    | error e' t' => exact h

theorem bind {x : EStateM ε σ α} {y : EStateM ε τ β} {f : α → EStateM ε σ α'}
    {g : β → EStateM ε τ β'} {Q' : α' → β' → σ → τ → Prop} (h : Agrees C s t Q (x s) (y t))
    (hrest : ∀ a b s' t', C.Inv s' t' → C.Evolves s t s' t' → Q a b s' t' →
      Agrees C s' t' Q' (f a s') (g b t')) :
    Agrees C s t Q' ((x >>= f) s) ((y >>= g) t) := by
  cases hx : x s with
  | error e s' =>
    rw [bind_error hx]
    cases hy : y t with
    | error e' t' =>
      rw [bind_error hy]
      rw [hx, hy] at h
      exact h
    | ok b t' =>
      rw [hx, hy] at h
      exact h.elim
  | ok a s' =>
    cases hy : y t with
    | error e' t' =>
      rw [hx, hy] at h
      rw [bind_error hy, show e' = C.stuck from h]
      exact stuck _ _
    | ok b t' =>
      rw [hx, hy] at h
      obtain ⟨hinv, hev, hq⟩ := h
      have hend := hrest a b s' t' hinv hev hq
      rw [bind_ok hx, bind_ok hy]
      cases hf : f a s' with
      | error e s'' =>
        rw [hf] at hend
        cases hg : g b t' with
        | error e' t'' => rwa [hg] at hend
        | ok b' t'' => rwa [hg] at hend
      | ok a' s'' =>
        rw [hf] at hend
        cases hg : g b t' with
        | error e' t'' => rwa [hg] at hend
        | ok b' t'' =>
          rw [hg] at hend
          exact ⟨hend.1, C.trans hev hend.2.1, hend.2.2⟩

theorem bind_same {x : EStateM ε σ α} {y : EStateM ε τ α} {f : α → EStateM ε σ α'}
    {g : α → EStateM ε τ β'} {Q' : α' → β' → σ → τ → Prop}
    (h : Agrees C s t (fun a b s' t' => a = b ∧ s' = s ∧ t' = t) (x s) (y t))
    (hrest : ∀ a, Agrees C s t Q' (f a s) (g a t)) :
    Agrees C s t Q' ((x >>= f) s) ((y >>= g) t) := by
  apply h.bind
  rintro a _ _ _ - - ⟨rfl, rfl, rfl⟩
  exact hrest a

theorem bind_lift {x : Except ε α} {f : α → EStateM ε σ α'} {g : α → EStateM ε τ β'}
    {Q' : α' → β' → σ → τ → Prop} (hrest : ∀ a, x = .ok a → Agrees C s t Q' (f a s) (g a t)) :
    Agrees C s t Q' ((lift x >>= f) s) ((lift x >>= g) t) := by
  cases x with
  | ok a => exact hrest a rfl
  | error e => exact .inr rfl

theorem get {f : σ → EStateM ε σ α'} {g : τ → EStateM ε τ β'} {Q' : α' → β' → σ → τ → Prop}
    (h : Agrees C s t Q' (f s s) (g t t)) :
    Agrees C s t Q' ((MonadState.get >>= f) s) ((MonadState.get >>= g) t) := h

theorem of_ok {r : EStateM.Result ε σ α} {b : β} {t' : τ} (h : Agrees C s t Q r (.ok b t')) :
    ∃ a s', r = .ok a s' ∧ C.Inv s' t' ∧ C.Evolves s t s' t' ∧ Q a b s' t' := by
  cases r with
  | ok a s' => exact ⟨a, s', rfl, h⟩
  | error e s' => exact h.elim

theorem of_error {r : EStateM.Result ε σ α} {e : ε} {t' : τ} (h : Agrees C s t Q r (.error e t'))
    (hstuck : e ≠ C.stuck) : ∃ s', r = .error e s' := by
  cases r with
  | ok a s' => exact absurd h hstuck
  | error e' s' =>
    obtain rfl := h.resolve_left hstuck
    exact ⟨s', rfl⟩

end Agrees

/-- A run that does not fail with `bad`; where it returns, `Q` holds. -/
def Avoids (bad : ε) (Q : α → σ → Prop) : EStateM.Result ε σ α → Prop
  | .ok a s => Q a s
  | .error e _ => e ≠ bad

namespace Avoids

variable {bad : ε} {s : σ} {Q Q' : α → σ → Prop} {r : EStateM.Result ε σ α}

theorem throw {e : ε} (h : e ≠ bad) :
    Avoids bad Q ((MonadExcept.throw e : EStateM ε σ α) s) := h

theorem mono (h : Avoids bad Q r) (hq : ∀ a s, Q a s → Q' a s) : Avoids bad Q' r := by
  cases r with
  | ok a s => exact hq a s h
  | error e s => exact h

theorem bind {x : EStateM ε σ α} {f : α → EStateM ε σ β} {R : β → σ → Prop}
    (hx : Avoids bad Q (x s)) (hf : ∀ a s', Q a s' → Avoids bad R (f a s')) :
    Avoids bad R ((x >>= f) s) := by
  cases hrun : x s with
  | ok a s' =>
    rw [hrun] at hx
    rw [bind_ok hrun]
    exact hf a s' hx
  | error e s' =>
    rw [hrun] at hx
    rw [bind_error hrun]
    exact hx

theorem bind_lift {x : Except ε α} {f : α → EStateM ε σ β} {R : β → σ → Prop}
    (hx : x ≠ .error bad) (hf : ∀ a, x = .ok a → Avoids bad R (f a s)) :
    Avoids bad R ((lift x >>= f) s) := by
  cases x with
  | ok a => exact hf a rfl
  | error e => exact fun h => hx (congrArg Except.error h)

theorem of_ok {a : α} {s' : σ} (h : Avoids bad Q (.ok a s')) : Q a s' := h

end Avoids

/-- A run that ends as a computation without a state does: it returns where that returns, with a
state that `R` relates to the value, and else fails in the same way. -/
structure Yields (y : Except ε β) (R : α → σ → β → Prop) (r : EStateM.Result ε σ α) : Prop where
  ok : ∀ b, y = .ok b → ∃ a s, r = .ok a s ∧ R a s b
  error : ∀ e, y = .error e → ∃ s, r = .error e s

namespace Yields

variable {R : α → σ → β → Prop} {s : σ}

theorem of_ok {a : α} {b : β} (h : R a s b) : Yields (.ok b : Except ε β) R (.ok a s) where
  ok := by
    rintro b' hb'
    cases hb'
    exact ⟨a, s, rfl, h⟩
  error := by
    intro e he
    cases he

theorem of_error (e : ε) (s : σ) : Yields (.error e) R (.error e s) where
  ok := by
    intro b hb
    cases hb
  error := by
    intro e' he'
    cases he'
    exact ⟨s, rfl⟩

theorem bind {x : EStateM ε σ α} {y : Except ε β} {f : α → EStateM ε σ α'} {g : β → Except ε β'}
    {Q : α' → σ → β' → Prop} (h : Yields y R (x s))
    (hrest : ∀ a s' b, R a s' b → Yields (g b) Q (f a s')) :
    Yields (y >>= g) Q ((x >>= f) s) := by
  cases y with
  | ok b =>
    obtain ⟨a, s', hx, hR⟩ := h.ok b rfl
    rw [bind_ok hx]
    exact hrest a s' b hR
  | error e =>
    obtain ⟨s', hx⟩ := h.error e rfl
    rw [bind_error hx]
    exact of_error e s'

end Yields

end PagedDb.Exec
