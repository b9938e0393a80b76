import Mathlib

/-! Loops without a bound in their text, given by one iteration and a measure that
every continuing iteration decreases. `run` is total and executable; its proofs go
through `run_eq` (one unfolding) and `run_induction`. -/
namespace TzzeroHttp.BoundedLoop

/-- One iteration either continues with a new state or leaves with a result. -/
structure Loop (σ ρ : Type*) where
  iteration : σ → σ ⊕ ρ
  measure : σ → ℕ
  decreases : ∀ s s', iteration s = .inl s' → measure s' < measure s

variable {σ ρ : Type*}

/-- At most `fuel` iterations; `none` when the loop has not left by then. -/
def iterate (f : σ → σ ⊕ ρ) : ℕ → σ → Option ρ
  | 0, _ => none
  | fuel + 1, s =>
    match f s with
    | .inl s' => iterate f fuel s'
    | .inr r => some r

theorem iterate_isSome (L : Loop σ ρ) (fuel : ℕ) (s : σ) (h : L.measure s < fuel) :
    (iterate L.iteration fuel s).isSome := by
  induction fuel generalizing s with
  | zero => omega
  | succ fuel ih =>
    simp only [iterate]
    cases hs : L.iteration s with
    | inl s' =>
      have := L.decreases s s' hs
      exact ih s' (by omega)
    | inr r => rfl

theorem iterate_mono (f : σ → σ ⊕ ρ) {n m : ℕ} (hnm : n ≤ m) {s : σ} {r : ρ}
    (h : iterate f n s = some r) : iterate f m s = some r := by
  induction n generalizing m s with
  | zero => simp [iterate] at h
  | succ n ih =>
    obtain ⟨m, rfl⟩ := Nat.exists_eq_add_of_le' (show 1 ≤ m by omega)
    simp only [iterate] at h ⊢
    cases hs : f s with
    | inl s' =>
      rw [hs] at h
      exact ih (by omega) h
    | inr r' =>
      rw [hs] at h
      exact h

namespace Loop

/-- The loop's result. The measure of the start state is always enough fuel. -/
def run (L : Loop σ ρ) (s : σ) : ρ :=
  (iterate L.iteration (L.measure s + 1) s).get (iterate_isSome L _ s (Nat.lt_succ_self _))

theorem run_eq_of_iterate (L : Loop σ ρ) {n : ℕ} {s : σ} {r : ρ}
    (h : iterate L.iteration n s = some r) : L.run s = r := by
  have hrun : iterate L.iteration (L.measure s + 1) s = some (L.run s) := (Option.some_get _).symm
  have h₁ := iterate_mono L.iteration (le_max_left n (L.measure s + 1)) h
  have h₂ := iterate_mono L.iteration (le_max_right n (L.measure s + 1)) hrun
  exact Option.some.inj (h₂.symm.trans h₁)

theorem run_continue (L : Loop σ ρ) {s s' : σ} (h : L.iteration s = .inl s') :
    L.run s = L.run s' := by
  have hrun : iterate L.iteration (L.measure s' + 1) s' = some (L.run s') :=
    (Option.some_get _).symm
  apply L.run_eq_of_iterate (n := L.measure s' + 2)
  simp only [iterate, h]
  exact hrun

theorem run_leave (L : Loop σ ρ) {s : σ} {r : ρ} (h : L.iteration s = .inr r) : L.run s = r := by
  apply L.run_eq_of_iterate (n := 1)
  simp only [iterate, h]

/-- Induction along the loop: a relation between start states and results holds
when leaving establishes it and it carries back over one continuing iteration. -/
theorem run_induction (L : Loop σ ρ) {P : σ → ρ → Prop}
    (leave : ∀ s r, L.iteration s = .inr r → P s r)
    (step : ∀ s s', L.iteration s = .inl s' → P s' (L.run s') → P s (L.run s')) (s : σ) :
    P s (L.run s) := by
  induction hm : L.measure s using Nat.strong_induction_on generalizing s with
  | _ m ih =>
    subst hm
    cases hs : L.iteration s with
    | inl s' =>
      rw [L.run_continue hs]
      exact step s s' hs (ih _ (L.decreases s s' hs) s' rfl)
    | inr r =>
      rw [L.run_leave hs]
      exact leave s r hs

/-- Simulation: when one iteration commutes with a map of states, so does the whole loop. -/
theorem run_map {σ' ρ' : Type*} (L : Loop σ ρ) (L' : Loop σ' ρ') (f : σ → σ') (g : ρ → ρ')
    (h : ∀ s, L'.iteration (f s) = (L.iteration s).map f g) (s : σ) :
    L'.run (f s) = g (L.run s) := by
  refine L.run_induction (P := fun s r => L'.run (f s) = g r) ?_ ?_ s
  · intro s r hs
    exact L'.run_leave (by rw [h, hs]; rfl)
  · intro s s' hs ih
    have hnext : L'.iteration (f s) = .inl (f s') := by
      rw [h, hs]
      rfl
    rw [L'.run_continue hnext]
    exact ih

end Loop

end TzzeroHttp.BoundedLoop
