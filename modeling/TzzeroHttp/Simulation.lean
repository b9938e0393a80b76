import TzzeroHttp.Runs

/-! Forward simulation between two labelled transition functions. A step of the first is matched
by a run of the second, whose labels may depend on the state and may be none at all; a whole run
is then matched by the concatenation of these labels, its trace. -/
namespace TzzeroHttp.Simulation
open Runs

variable {σ L τ M : Type*} {step : σ → L → Option σ} {astep : τ → M → Option τ}
  {labels : σ → L → List M}

/-- The labels that match a run, step by step. -/
def trace (step : σ → L → Option σ) (labels : σ → L → List M) : σ → List L → List M
  | _, [] => []
  | s, l :: ls => labels s l ++ (step s l).elim [] fun s' => trace step labels s' ls

theorem trace_cons {s s' : σ} {l : L} {ls : List L} (h : step s l = some s') :
    trace step labels s (l :: ls) = labels s l ++ trace step labels s' ls := by
  simp [trace, h]

theorem mem_trace {m : M} {s : σ} {ls : List L} (h : m ∈ trace step labels s ls) :
    ∃ t, ∃ l ∈ ls, m ∈ labels t l := by
  induction ls generalizing s with
  | nil => simp [trace] at h
  | cons l ls ih =>
    rcases List.mem_append.mp h with h | h
    · exact ⟨s, l, List.mem_cons_self, h⟩
    · cases hs : step s l with
      | none => simp [hs] at h
      | some s' =>
        obtain ⟨t, k, hk, hm⟩ := ih (s := s') (by simpa [hs] using h)
        exact ⟨t, k, List.mem_cons_of_mem l hk, hm⟩

/-- A log to which every step adds its labels is the trace. -/
theorem log_trace {log : σ → List M}
    (hstep : ∀ s l s', step s l = some s' → log s' = log s ++ labels s l)
    {s s' : σ} {ls : List L} (hrun : run step s ls = some s') :
    log s' = log s ++ trace step labels s ls := by
  induction ls generalizing s with
  | nil =>
    obtain rfl := Option.some.inj hrun
    simp [trace]
  | cons l ls ih =>
    obtain ⟨s₁, h₁, h₂⟩ := run_cons.mp hrun
    rw [trace_cons h₁, ih h₂, hstep s l s₁ h₁, List.append_assoc]

/-- Labels that come out of certain steps, one out of each, are as many as these steps. -/
theorem countP_trace {p : M → Bool} {q : L → Bool} (h : ∀ s l, (labels s l).countP p = (q l).toNat)
    {s s' : σ} {ls : List L} (hrun : run step s ls = some s') :
    (trace step labels s ls).countP p = ls.countP q := by
  induction ls generalizing s with
  | nil => rfl
  | cons l ls ih =>
    obtain ⟨s₁, h₁, h₂⟩ := run_cons.mp hrun
    rw [trace_cons h₁, List.countP_append, h, ih h₂, List.countP_cons, add_comm]
    cases q l <;> rfl

/-- The simulation rule: what matches every single step matches every run. -/
theorem run_simulates {rel : σ → τ → Prop}
    (hstep : ∀ s t l s', rel s t → step s l = some s' →
      ∃ t', run astep t (labels s l) = some t' ∧ rel s' t')
    {s s' : σ} {t : τ} {ls : List L} (hs : rel s t) (hrun : run step s ls = some s') :
    ∃ t', run astep t (trace step labels s ls) = some t' ∧ rel s' t' := by
  induction ls generalizing s t with
  | nil =>
    obtain rfl := Option.some.inj hrun
    exact ⟨t, rfl, hs⟩
  | cons l ls ih =>
    obtain ⟨s₁, h₁, h₂⟩ := run_cons.mp hrun
    obtain ⟨t₁, ha, hrel⟩ := hstep s t l s₁ hs h₁
    obtain ⟨t', hrest, hend⟩ := ih hrel h₂
    rw [trace_cons h₁]
    exact ⟨t', run_append.mpr ⟨t₁, ha, hrest⟩, hend⟩

end TzzeroHttp.Simulation
