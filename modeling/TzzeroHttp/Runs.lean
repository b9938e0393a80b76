import Mathlib

/-! Runs of a labelled transition function, and the rule that carries an invariant
along a run whose steps all meet a condition. A label stands for one atomic step
together with what the environment answers in it; `none` says that the step is
not possible. -/
namespace TzzeroHttp.Runs

variable {σ L : Type*} (step : σ → L → Option σ)

def run : σ → List L → Option σ
  | s, [] => some s
  | s, l :: ls => (step s l).bind fun s' => run s' ls

/-- Every step of the run meets `ok` in the state it starts from. -/
def Guarded (ok : σ → L → Prop) : σ → List L → Prop
  | _, [] => True
  | s, l :: ls => ok s l ∧ ∀ s' ∈ step s l, Guarded ok s' ls

instance decidableGuarded (ok : σ → L → Prop) [∀ s l, Decidable (ok s l)] :
    ∀ s ls, Decidable (Guarded step ok s ls)
  | _, [] => .isTrue trivial
  | s, l :: ls =>
    have := fun s' => decidableGuarded ok s' ls
    inferInstanceAs (Decidable (ok s l ∧ ∀ s' ∈ step s l, Guarded step ok s' ls))

variable {step}

theorem run_cons {s s'' : σ} {l : L} {ls : List L} :
    run step s (l :: ls) = some s'' ↔ ∃ s', step s l = some s' ∧ run step s' ls = some s'' := by
  simp [run, Option.bind_eq_some_iff]

theorem run_append {s s'' : σ} {ls ms : List L} :
    run step s (ls ++ ms) = some s'' ↔ ∃ s', run step s ls = some s' ∧ run step s' ms = some s'' := by
  induction ls generalizing s with
  | nil => simp [run]
  | cons l ls ih =>
    simp only [List.cons_append, run_cons, ih]
    constructor
    · rintro ⟨s₁, h₁, s', h₂, h₃⟩
      exact ⟨s', ⟨s₁, h₁, h₂⟩, h₃⟩
    · rintro ⟨s', ⟨s₁, h₁, h₂⟩, h₃⟩
      exact ⟨s₁, h₁, s', h₂, h₃⟩

theorem guard_eq_some {p : Prop} [Decidable p] {s s' : σ} (h : (if p then some s else none) = some s') :
    p ∧ s = s' := by
  simpa using h

theorem guarded_of_forall {ok : L → Prop} {s : σ} {ls : List L} (h : ∀ l ∈ ls, ok l) :
    Guarded step (fun _ => ok) s ls := by
  induction ls generalizing s with
  | nil => trivial
  | cons l ls ih => exact ⟨h l (by simp), fun s' _ => ih fun k hk => h k (by simp [hk])⟩

theorem guarded_and_forall {ok : σ → L → Prop} {p : L → Prop} {s : σ} {ls : List L}
    (h : Guarded step ok s ls) (hp : ∀ l ∈ ls, p l) : Guarded step (fun s l => ok s l ∧ p l) s ls := by
  induction ls generalizing s with
  | nil => trivial
  | cons l ls ih =>
    exact ⟨⟨h.1, hp l (by simp)⟩, fun s' hs' => ih (h.2 s' hs') fun k hk => hp k (by simp [hk])⟩

/-- The invariant rule: what one guarded step preserves, every guarded run preserves. -/
theorem run_invariant {ok : σ → L → Prop} {inv : σ → Prop}
    (hstep : ∀ s l s', inv s → ok s l → step s l = some s' → inv s')
    {s s' : σ} {ls : List L} (hs : inv s) (hok : Guarded step ok s ls)
    (hrun : run step s ls = some s') : inv s' := by
  induction ls generalizing s with
  | nil =>
    obtain rfl := Option.some.inj hrun
    exact hs
  | cons l ls ih =>
    obtain ⟨s₁, h₁, h₂⟩ := run_cons.mp hrun
    exact ih (hstep s l s₁ hs hok.1 h₁) (hok.2 s₁ h₁) h₂

theorem run_preserves {inv : σ → Prop} (hstep : ∀ s l s', inv s → step s l = some s' → inv s')
    {s s' : σ} {ls : List L} (hs : inv s) (hrun : run step s ls = some s') : inv s' :=
  run_invariant (fun s l s' h _ => hstep s l s' h) hs (guarded_of_forall fun _ _ => trivial) hrun

theorem guarded_cons {ok : σ → L → Prop} {s s₁ : σ} {l : L} {ls : List L} (h : step s l = some s₁) :
    Guarded step ok s (l :: ls) ↔ ok s l ∧ Guarded step ok s₁ ls := by
  simp [Guarded, h]

/-- The rule for a run that is not guarded: its first bad step leaves a mark that stays. -/
theorem run_not_guarded {ok : σ → L → Prop} {inv mark : σ → Prop}
    (hstep : ∀ s l s', inv s → ok s l → step s l = some s' → inv s')
    (hbad : ∀ s l s', inv s → ¬ ok s l → step s l = some s' → mark s')
    (hmark : ∀ s l s', mark s → step s l = some s' → mark s')
    {s s' : σ} {ls : List L} (hs : inv s) (hnot : ¬ Guarded step ok s ls)
    (hrun : run step s ls = some s') : mark s' := by
  induction ls generalizing s with
  | nil => exact absurd trivial hnot
  | cons l ls ih =>
    obtain ⟨s₁, h₁, h₂⟩ := run_cons.mp hrun
    rw [guarded_cons h₁, not_and_or] at hnot
    by_cases hok : ok s l
    · exact ih (hstep s l s₁ hs hok h₁) (hnot.resolve_left (not_not.mpr hok)) h₂
    · exact run_preserves hmark (hbad s l s₁ hs hok h₁) h₂

theorem guarded_append {ok : σ → L → Prop} {s s₁ : σ} {ls ms : List L} (h : run step s ls = some s₁) :
    Guarded step ok s (ls ++ ms) ↔ Guarded step ok s ls ∧ Guarded step ok s₁ ms := by
  induction ls generalizing s with
  | nil =>
    obtain rfl := Option.some.inj h
    simp [Guarded]
  | cons l ls ih =>
    obtain ⟨s', hstep, hrest⟩ := run_cons.mp h
    rw [List.cons_append, guarded_cons hstep, guarded_cons hstep, ih hrest, and_assoc]

/-- Two conditions that agree on every step from an invariant state agree on a whole run. -/
theorem guarded_iff {ok ok' : σ → L → Prop} {inv : σ → Prop}
    (hinv : ∀ s l s', inv s → step s l = some s' → inv s')
    (hiff : ∀ s l s', inv s → step s l = some s' → (ok s l ↔ ok' s l))
    {s s' : σ} {ls : List L} (hs : inv s) (hrun : run step s ls = some s') :
    Guarded step ok s ls ↔ Guarded step ok' s ls := by
  induction ls generalizing s with
  | nil => exact Iff.rfl
  | cons l ls ih =>
    obtain ⟨s₁, h₁, h₂⟩ := run_cons.mp hrun
    rw [guarded_cons h₁, guarded_cons h₁, hiff s l s₁ hs h₁, ih (hinv s l s₁ hs h₁) h₂]

variable (step) in
/-- The largest value of a measure in the states of a run. -/
def peak (measure : σ → ℕ) : σ → List L → ℕ
  | s, [] => measure s
  | s, l :: ls => max (measure s) ((step s l).elim 0 fun s' => peak measure s' ls)

theorem peak_cons {measure : σ → ℕ} {s s₁ : σ} {l : L} {ls : List L} (h : step s l = some s₁) :
    peak step measure s (l :: ls) = max (measure s) (peak step measure s₁ ls) := by
  simp [peak, h]

theorem le_peak (measure : σ → ℕ) (s : σ) (ls : List L) : measure s ≤ peak step measure s ls := by
  cases ls with
  | nil => exact le_rfl
  | cons l ls => exact le_max_left _ _

/-- The rule for an invariant about the largest value of a measure so far. -/
theorem run_peak {measure : σ → ℕ} {inv : σ → ℕ → Prop} (hle : ∀ s p, inv s p → measure s ≤ p)
    (hstep : ∀ s l s' p, inv s p → step s l = some s' → inv s' (max p (measure s')))
    {s s' : σ} {ls : List L} {p : ℕ} (hs : inv s p) (hrun : run step s ls = some s') :
    inv s' (max p (peak step measure s ls)) := by
  induction ls generalizing s p with
  | nil =>
    obtain rfl := Option.some.inj hrun
    rwa [peak, max_eq_left (hle _ _ hs)]
  | cons l ls ih =>
    obtain ⟨s₁, h₁, h₂⟩ := run_cons.mp hrun
    have hend := ih (hstep s l s₁ p hs h₁) h₂
    have hfirst : measure s₁ ≤ peak step measure s₁ ls := le_peak measure s₁ ls
    rw [max_assoc, max_eq_right hfirst] at hend
    rwa [peak_cons h₁, ← max_assoc, max_eq_left (hle _ _ hs)]

/-- The rule for a measure that pays for the steps: a run costs at most what it takes from it. -/
theorem run_decreases {ok : σ → L → Prop} {inv : σ → Prop} {measure : σ → ℕ} {cost : L → ℕ}
    (hstep : ∀ s l s', inv s → ok s l → step s l = some s' →
      inv s' ∧ measure s' + cost l ≤ measure s)
    {s s' : σ} {ls : List L} (hs : inv s) (hok : Guarded step ok s ls)
    (hrun : run step s ls = some s') : inv s' ∧ measure s' + (ls.map cost).sum ≤ measure s := by
  induction ls generalizing s with
  | nil =>
    obtain rfl := Option.some.inj hrun
    exact ⟨hs, by simp⟩
  | cons l ls ih =>
    obtain ⟨s₁, h₁, h₂⟩ := run_cons.mp hrun
    have hfirst := hstep s l s₁ hs hok.1 h₁
    have hrest := ih hfirst.1 (hok.2 s₁ h₁) h₂
    have hsum : ((l :: ls).map cost).sum = cost l + (ls.map cost).sum := by simp
    exact ⟨hrest.1, by omega⟩

end TzzeroHttp.Runs
