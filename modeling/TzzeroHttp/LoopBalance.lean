import TzzeroHttp.Runs

/-! The pool of event loops and how it hands them out. A loop is the pointer that `start_loop`
returns for a new thread. -/
namespace TzzeroHttp.LoopBalance
open Runs

abbrev LoopId := ℕ

/-- `picked` records what `get_next_loop` has returned. -/
structure EventLoopThreadPool where
  baseLoop : LoopId
  started : Bool := false
  numThreads : ℤ := 0
  next : ℕ := 0
  loops : List LoopId := []
  picked : List LoopId := []

inductive Label
  | setThreadNum (numThreads : ℤ)
  | start (loops : List LoopId)
  | getNextLoop
  deriving DecidableEq

namespace EventLoopThreadPool

/-- Nothing keeps a second call from starting more threads. -/
def start (p : EventLoopThreadPool) (loops : List LoopId) : EventLoopThreadPool :=
  { p with started := true, loops := p.loops ++ loops }

/-- `loops_[next_]` is undefined beyond the end. -/
def getNextLoop (p : EventLoopThreadPool) : Option EventLoopThreadPool :=
  if p.loops = [] then some { p with picked := p.picked ++ [p.baseLoop] }
  else (p.loops[p.next]?).map fun loop =>
    let next := p.next + 1
    { p with next := if p.loops.length ≤ next then 0 else next, picked := p.picked ++ [loop] }

end EventLoopThreadPool

/-- The loops of a `start` are as many as threads were asked for, and new ones. -/
def step (p : EventLoopThreadPool) : Label → Option EventLoopThreadPool
  | .setThreadNum n => some { p with numThreads := n }
  | .start loops =>
    if loops.length = p.numThreads.toNat ∧ (p.baseLoop :: (p.loops ++ loops)).Nodup then
      some (p.start loops)
    else none
  | .getNextLoop => p.getNextLoop

structure Ranged (p : EventLoopThreadPool) : Prop where
  next : p.loops ≠ [] → p.next < p.loops.length
  fresh : p.loops = [] → p.next = 0
  nodup : p.loops.Nodup

variable {p p' : EventLoopThreadPool}

theorem getNextLoop_cases (h : Ranged p) :
    (p.loops = [] ∧ p.getNextLoop = some { p with picked := p.picked ++ [p.baseLoop] }) ∨
    ∃ hlt : p.next < p.loops.length, p.getNextLoop = some { p with
      next := (p.next + 1) % p.loops.length, picked := p.picked ++ [p.loops[p.next]] } := by
  by_cases hnil : p.loops = []
  · exact .inl ⟨hnil, by rw [EventLoopThreadPool.getNextLoop, if_pos hnil]⟩
  · have hlt := h.next hnil
    refine .inr ⟨hlt, ?_⟩
    have hnext : (if p.loops.length ≤ p.next + 1 then 0 else p.next + 1) = (p.next + 1) % p.loops.length := by
      split_ifs with hend
      · rw [show p.next + 1 = p.loops.length by omega, Nat.mod_self]
      · rw [Nat.mod_eq_of_lt (by omega)]
    simp only [EventLoopThreadPool.getNextLoop, if_neg hnil, List.getElem?_eq_getElem hlt, Option.map_some, hnext]

theorem step_ranged {l : Label} (h : Ranged p) (hstep : step p l = some p') : Ranged p' := by
  cases l with
  | setThreadNum n =>
    obtain rfl := Option.some.inj hstep
    exact ⟨h.next, h.fresh, h.nodup⟩
  | start loops =>
    obtain ⟨⟨-, hnodup⟩, rfl⟩ := guard_eq_some hstep
    refine ⟨fun hne => ?_, fun hnil => ?_, (List.nodup_cons.mp hnodup).2⟩
    · simp only [EventLoopThreadPool.start, List.length_append] at hne ⊢
      by_cases hold : p.loops = []
      · have hzero := h.fresh hold
        have hpos := List.length_pos_of_ne_nil hne
        rw [List.length_append] at hpos
        omega
      · have hlt := h.next hold
        omega
    · exact h.fresh (List.append_eq_nil_iff.mp hnil).1
  | getNextLoop =>
    rcases getNextLoop_cases h with ⟨hnil, hget⟩ | ⟨hlt, hget⟩
    · obtain rfl := Option.some.inj (hget.symm.trans hstep)
      exact ⟨h.next, h.fresh, h.nodup⟩
    · obtain rfl := Option.some.inj (hget.symm.trans hstep)
      refine ⟨fun _ => Nat.mod_lt _ (by omega), fun hnil => ?_, h.nodup⟩
      simp only at hnil
      rw [hnil] at hlt
      cases hlt

def turn (p : EventLoopThreadPool) (k : ℕ) : List LoopId :=
  (List.range k).map fun j => (p.loops[(p.next + j) % p.loops.length]?).getD p.baseLoop

theorem turn_succ (h : Ranged p) (hstep : step p .getNextLoop = some p') (k : ℕ) :
    p'.loops = p.loops ∧ p'.baseLoop = p.baseLoop ∧
      p'.picked ++ turn p' k = p.picked ++ turn p (k + 1) := by
  have hsplit : turn p (k + 1) = (p.loops[p.next % p.loops.length]?).getD p.baseLoop ::
      (List.range k).map fun j => (p.loops[(p.next + (j + 1)) % p.loops.length]?).getD p.baseLoop := by
    rw [turn, List.range_succ_eq_map, List.map_cons, List.map_map]
    rfl
  rcases getNextLoop_cases h with ⟨hnil, hget⟩ | ⟨hlt, hget⟩
  · obtain rfl := Option.some.inj (hget.symm.trans hstep)
    refine ⟨rfl, rfl, ?_⟩
    rw [hsplit, turn]
    simp [hnil]
  · obtain rfl := Option.some.inj (hget.symm.trans hstep)
    refine ⟨rfl, rfl, ?_⟩
    rw [hsplit, turn, Nat.mod_eq_of_lt hlt, List.getElem?_eq_getElem hlt, Option.getD_some, List.append_assoc,
      List.singleton_append]
    congr 2
    refine List.map_congr_left fun j _ => ?_
    simp only [Nat.mod_add_mod]
    rw [show p.next + 1 + j = p.next + (j + 1) by omega]

/-- A part of a run without `start` hands the loops out in turn. -/
theorem run_turn {window : List Label} (h : Ranged p) (hstart : ∀ loops, .start loops ∉ window)
    (hrun : run step p window = some p') :
    p'.picked = p.picked ++ turn p (window.count .getNextLoop) := by
  induction window generalizing p with
  | nil =>
    obtain rfl := Option.some.inj hrun
    exact (List.append_nil _).symm
  | cons l window ih =>
    obtain ⟨p₁, hstep, hrest⟩ := run_cons.mp hrun
    have htail : ∀ loops, .start loops ∉ window := fun loops hin => hstart loops (List.mem_cons_of_mem l hin)
    rw [ih (step_ranged h hstep) htail hrest]
    cases l with
    | setThreadNum n =>
      obtain rfl := Option.some.inj hstep
      rw [List.count_cons_of_ne (by simp)]
      rfl
    | start loops => exact absurd List.mem_cons_self (hstart loops)
    | getNextLoop =>
      rw [List.count_cons_self]
      exact (turn_succ h hstep _).2.2

/-- The place of a loop in the turn. -/
theorem count_turn (h : Ranged p) {i : ℕ} (hi : i < p.loops.length) (k : ℕ) :
    ∃ v, (turn p k).count p.loops[i] = k / p.loops.length + if v % p.loops.length < k % p.loops.length then 1 else 0 := by
  have hpos : 0 < p.loops.length := by omega
  have hnext : p.next < p.loops.length := h.next (List.ne_nil_of_length_pos hpos)
  refine ⟨p.loops.length - p.next + i, ?_⟩
  rw [← Nat.count_modEq_card _ hpos, turn, List.count, List.countP_map]
  refine List.countP_congr fun j _ => ?_
  have hrange : (p.next + j) % p.loops.length < p.loops.length := Nat.mod_lt _ hpos
  simp only [Function.comp_apply, List.getElem?_eq_getElem hrange, Option.getD_some, beq_iff_eq,
    h.nodup.getElem_inj_iff, decide_eq_true_eq]
  -- Both say that `next + j` and `i` have the same remainder.
  have hshift : (p.next + (p.loops.length - p.next + i)) % p.loops.length = i := by
    rw [show p.next + (p.loops.length - p.next + i) = i + p.loops.length by omega, Nat.add_mod_right,
      Nat.mod_eq_of_lt hi]
  constructor
  · intro hj
    exact Nat.ModEq.add_left_cancel' p.next (hj.trans hshift.symm)
  · intro hj
    have hsame : (p.next + j) % p.loops.length = (p.next + (p.loops.length - p.next + i)) % p.loops.length :=
      Nat.ModEq.add_left p.next hj
    exact hsame.trans hshift

theorem share_bounds {k n v : ℕ} (hn : 0 < n) :
    k / n ≤ k / n + (if v % n < k % n then 1 else 0) ∧
      k / n + (if v % n < k % n then 1 else 0) ≤ (k + n - 1) / n := by
  refine ⟨Nat.le_add_right _ _, ?_⟩
  rw [Nat.le_div_iff_mul_le hn, Nat.add_mul]
  have hdivision : k / n * n + k % n = k := by
    rw [Nat.mul_comm]
    exact Nat.div_add_mod k n
  split_ifs with hextra <;> omega

/-- The pool spreads the connections evenly. In every run the index stays in range, so no call is
undefined; and in every part of a run in which no threads are started, every loop of the pool is
handed out equally often, up to one, and without loops the base loop every time. -/
theorem loops_balanced (base : LoopId) (before window : List Label) (p p' : EventLoopThreadPool)
    (hbefore : run step { baseLoop := base } before = some p) (hwindow : run step p window = some p')
    (hstart : ∀ loops, .start loops ∉ window) :
    let k := window.count .getNextLoop
    let n := p.loops.length
    p.getNextLoop.isSome ∧ ∃ picked, p'.picked = p.picked ++ picked ∧ picked.length = k ∧
      (p.loops = [] → ∀ a ∈ picked, a = p.baseLoop) ∧ (p.loops ≠ [] → ∀ a ∈ picked, a ∈ p.loops) ∧
      ∀ a ∈ p.loops, k / n ≤ picked.count a ∧ picked.count a ≤ (k + n - 1) / n := by
  intro k n
  have hinitial : Ranged { baseLoop := base } := ⟨fun h => absurd rfl h, fun _ => rfl, List.nodup_nil⟩
  have hranged : Ranged p := run_preserves (fun _ _ _ h hs => step_ranged h hs) hinitial hbefore
  have hdefined : p.getNextLoop.isSome := by
    rcases getNextLoop_cases hranged with ⟨-, hget⟩ | ⟨_, hget⟩
    · rw [hget]
      rfl
    · rw [hget]
      rfl
  refine ⟨hdefined, turn p k, run_turn hranged hstart hwindow, ?_, ?_, ?_, ?_⟩
  · rw [turn, List.length_map, List.length_range]
  · intro hnil a ha
    obtain ⟨j, -, rfl⟩ := List.mem_map.mp ha
    simp [hnil]
  · intro hne a ha
    obtain ⟨j, -, rfl⟩ := List.mem_map.mp ha
    have hrange : (p.next + j) % p.loops.length < p.loops.length :=
      Nat.mod_lt _ (List.length_pos_of_ne_nil hne)
    rw [List.getElem?_eq_getElem hrange, Option.getD_some]
    exact List.getElem_mem hrange
  · intro a ha
    obtain ⟨i, hi, rfl⟩ := List.mem_iff_getElem.mp ha
    obtain ⟨v, hcount⟩ := count_turn hranged hi k
    rw [hcount]
    exact share_bounds (by omega)

/-- Three loops and five calls, with one call before them. -/
theorem loops_balanced_five :
    ∃ p p', run step { baseLoop := 9 } [.setThreadNum 3, .start [1, 2, 3], .getNextLoop] = some p ∧
      run step p (List.replicate 5 .getNextLoop) = some p' ∧ p'.picked = [1, 2, 3, 1, 2, 3] ∧
      ∃ picked, p'.picked = p.picked ++ picked ∧ ∀ a ∈ p.loops, 5 / 3 ≤ picked.count a ∧
        picked.count a ≤ (5 + 3 - 1) / 3 := by
  let p : EventLoopThreadPool := ⟨9, true, 3, 1, [1, 2, 3], [1]⟩
  let p' : EventLoopThreadPool := ⟨9, true, 3, 0, [1, 2, 3], [1, 2, 3, 1, 2, 3]⟩
  have hbefore : run step { baseLoop := 9 } [.setThreadNum 3, .start [1, 2, 3], .getNextLoop] = some p := by rfl
  have hwindow : run step p (List.replicate 5 .getNextLoop) = some p' := by rfl
  obtain ⟨-, picked, hpicked, -, -, -, hcount⟩ := loops_balanced 9 _ _ p p' hbefore hwindow (by simp)
  exact ⟨p, p', hbefore, hwindow, rfl, picked, hpicked, hcount⟩

end TzzeroHttp.LoopBalance
