import TzzeroHttp.ThreadPoolModel

/-! The tasks of a thread pool. What left the queue and what is still in it are together what
`submit` put into it, in that order. A worker exits only when the pool is stopped and the queue is
empty, and a stopped pool takes no more tasks, so once the workers are gone everything has run. -/
namespace TzzeroHttp.ThreadPoolTasks
open ThreadPoolModel Runs

variable {τ : Type*}

def taskOf : Worker τ → Option τ
  | .running task => some task
  | _ => none

def running (ws : List (Worker τ)) : List τ := ws.filterMap taskOf

theorem running_set {ws : List (Worker τ)} {i : ℕ} {a : Worker τ} (h : ws[i]? = some a) (b : Worker τ) :
    ∃ others, (running ws).Perm ((taskOf a).toList ++ others) ∧
      (running (ws.set i b)).Perm ((taskOf b).toList ++ others) := by
  obtain ⟨hlt, hget⟩ := List.getElem?_eq_some_iff.mp h
  have hsplit : ws = ws.take i ++ a :: ws.drop (i + 1) := by
    rw [← hget, ← List.drop_eq_getElem_cons hlt, List.take_append_drop]
  have hset : ws.set i b = ws.take i ++ b :: ws.drop (i + 1) := by
    rw [List.set_eq_take_append_cons_drop, if_pos hlt]
  have hperm : ∀ c : Worker τ, (running (ws.take i ++ c :: ws.drop (i + 1))).Perm
      ((taskOf c).toList ++ (running (ws.take i) ++ running (ws.drop (i + 1)))) := by
    intro c
    simp only [running, List.filterMap_append, List.filterMap_cons]
    cases taskOf c <;> simp
  refine ⟨_, ?_, hset ▸ hperm b⟩
  have ha := hperm a
  rwa [← hsplit] at ha

structure Accounted (n : ℕ) (p : ThreadPool τ) : Prop where
  order : p.taken ++ p.tasks = p.enqueued
  run : (p.finished ++ running p.workers).Perm p.taken
  size : p.workers.length = n
  drained : .exited ∈ p.workers → p.stopFlag = true ∧ p.tasks = []
  joined : ∀ k ∈ p.joining, p.stopFlag = true ∧ ∀ i < k, p.workers[i]? = some .exited
  returned : 0 < p.returns → ∀ w ∈ p.workers, w = .exited

variable {n : ℕ} {p p' : ThreadPool τ} {i : ℕ} {a b : Worker τ}

theorem exited_set (hi : p.workers[i]? = some a) (ha : a ≠ .exited) {j : ℕ}
    (hj : p.workers[j]? = some .exited) : (p.workers.set i b)[j]? = some .exited := by
  have hne : i ≠ j := by
    intro heq
    rw [heq, hj] at hi
    exact ha (Option.some.inj hi).symm
  rw [List.getElem?_set_ne hne]
  exact hj

theorem Accounted.not_returned (h : Accounted n p) (hi : p.workers[i]? = some a) (ha : a ≠ .exited) :
    ¬ 0 < p.returns :=
  fun hpos => ha (h.returned hpos a (List.mem_of_getElem? hi))

/-- A worker's step, from what it does to its task and to the queue. -/
theorem Accounted.setWorker {taken finished tasks : List τ} (h : Accounted n p)
    (hi : p.workers[i]? = some a) (ha : a ≠ .exited) (horder : taken ++ tasks = p.enqueued)
    (hrun : (finished ++ running (p.workers.set i b)).Perm taken)
    (hdrained : b = .exited → p.stopFlag = true ∧ tasks = [])
    (hempty : p.tasks = [] → tasks = []) :
    Accounted n { p with
      workers := p.workers.set i b, taken := taken, finished := finished, tasks := tasks } where
  order := horder
  run := hrun
  size := by simp [h.size]
  drained hmem := by
    rcases List.mem_or_eq_of_mem_set hmem with hold | hnew
    · obtain ⟨hstop, hnil⟩ := h.drained hold
      exact ⟨hstop, hempty hnil⟩
    · exact hdrained hnew.symm
  joined k hk := by
    obtain ⟨hstop, hexited⟩ := h.joined k hk
    exact ⟨hstop, fun j hj => exited_set hi ha (hexited j hj)⟩
  returned hpos := absurd hpos (h.not_returned hi ha)

theorem submit_accounted (h : Accounted n p) (task : τ) : Accounted n (p.submit task) := by
  unfold ThreadPool.submit
  split_ifs with hstop
  · exact ⟨h.order, h.run, h.size, h.drained, h.joined, h.returned⟩
  · refine ⟨?_, h.run, h.size, fun hexited => ?_, h.joined, h.returned⟩
    · rw [← List.append_assoc, h.order]
    · exact absurd (h.drained hexited).1 hstop

theorem check_accounted (h : Accounted n p) (hi : p.workers[i]? = some .ready) :
    Accounted n (p.check i) := by
  have hready : (Worker.ready : Worker τ) ≠ .exited := by simp
  have hidle : ∀ b : Worker τ, taskOf b = none →
      (p.finished ++ running (p.workers.set i b)).Perm p.taken := by
    intro b hb
    obtain ⟨others, hbefore, hafter⟩ := running_set hi b
    rw [hb] at hafter
    exact ((hafter.trans hbefore.symm).append_left _).trans h.run
  unfold ThreadPool.check
  split
  · next hnil =>
    split_ifs with hstop
    · exact h.setWorker hi hready h.order (hidle _ rfl) (fun _ => ⟨hstop, hnil⟩) id
    · exact h.setWorker hi hready h.order (hidle _ rfl) (by simp) id
  · next task tasks htasks =>
    have horder := h.order
    rw [htasks] at horder
    refine h.setWorker hi hready (by simpa using horder) ?_ (by simp) (by simp [htasks])
    obtain ⟨others, hbefore, hafter⟩ := running_set hi (.running task)
    have hrest : (p.finished ++ others).Perm p.taken := (hbefore.symm.append_left _).trans h.run
    have hmiddle : (p.finished ++ running (p.workers.set i (.running task))).Perm
        (task :: (p.finished ++ others)) := (hafter.append_left _).trans List.perm_middle
    exact (hmiddle.trans (hrest.cons task)).trans (List.perm_append_singleton task p.taken).symm

theorem finish_accounted (h : Accounted n p) {task : τ} (hi : p.workers[i]? = some (.running task)) :
    Accounted n { p with workers := p.workers.set i .ready, finished := p.finished ++ [task] } := by
  refine h.setWorker hi (by simp) h.order ?_ (by simp) id
  obtain ⟨others, hbefore, hafter⟩ := running_set hi .ready
  have hmoved : (p.finished ++ [task] ++ running (p.workers.set i .ready)).Perm
      (p.finished ++ running p.workers) := by
    rw [List.append_assoc]
    exact ((hafter.append_left [task]).trans hbefore.symm).append_left _
  exact hmoved.trans h.run

theorem step_accounted {l : Label τ} (h : Accounted n p) (hstep : step p l = some p') :
    Accounted n p' := by
  cases step_move hstep with
  | submit task => exact submit_accounted h task
  | check i hi => exact check_accounted h hi
  | wake i hi =>
    obtain ⟨others, hbefore, hafter⟩ := running_set hi .ready
    have hsame := hafter.trans hbefore.symm
    exact h.setWorker hi (by simp) h.order ((hsame.append_left _).trans h.run) (by simp) id
  | finish i task hi => exact finish_accounted h hi
  | stop hjoining =>
    refine ⟨h.order, h.run, h.size, fun hexited => ⟨rfl, (h.drained hexited).2⟩, ?_, h.returned⟩
    intro k hk
    obtain rfl := Option.some.inj hk
    exact ⟨rfl, by simp⟩
  | join k hjoining hk =>
    obtain ⟨hstop, hexited⟩ := h.joined k hjoining
    refine ⟨h.order, h.run, h.size, h.drained, ?_, h.returned⟩
    intro k' hk'
    obtain rfl := Option.some.inj hk'
    refine ⟨hstop, fun i hi => ?_⟩
    by_cases heq : i = k
    · rw [heq]
      exact hk
    · exact hexited i (by omega)
  | stopReturns hjoining =>
    obtain ⟨-, hexited⟩ := h.joined _ hjoining
    refine ⟨h.order, h.run, h.size, h.drained, by simp, fun _ w hw => ?_⟩
    obtain ⟨j, hj⟩ := List.getElem?_of_mem hw
    have hlt := (List.getElem?_eq_some_iff.mp hj).1
    rw [hexited j hlt] at hj
    exact (Option.some.inj hj).symm

theorem new_accounted (τ : Type*) (n : ℕ) : Accounted n (ThreadPool.new τ n) := by
  refine ⟨rfl, ?_, by simp [ThreadPool.new], ?_, by simp [ThreadPool.new], by simp [ThreadPool.new]⟩
  · have hnone : running (ThreadPool.new τ n).workers = [] := by
      simp only [running, ThreadPool.new, List.filterMap_replicate, taskOf]
    rw [hnone]
    exact .nil
  · intro h
    have hready := List.eq_of_mem_replicate h
    cases hready

theorem step_stopped {l : Label τ} (hstep : step p l = some p') (hstop : p.stopFlag = true) :
    p'.stopFlag = true ∧ p'.enqueued = p.enqueued := by
  cases step_move hstep with
  | submit task => simp [ThreadPool.submit, hstop]
  | check i hi =>
    unfold ThreadPool.check
    split
    · rw [if_pos hstop]
      exact ⟨hstop, rfl⟩
    · exact ⟨hstop, rfl⟩
  | wake i hi => exact ⟨hstop, rfl⟩
  | finish i task hi => exact ⟨hstop, rfl⟩
  | stop hjoining => exact ⟨rfl, rfl⟩
  | join k hjoining hk => exact ⟨hstop, rfl⟩
  | stopReturns hjoining => exact ⟨hstop, rfl⟩

theorem run_stopped {labels : List (Label τ)} (hrun : run step p labels = some p')
    (hstop : p.stopFlag = true) : p'.enqueued = p.enqueued := by
  have hkeeps : ∀ (q : ThreadPool τ) (l : Label τ) (q' : ThreadPool τ),
      q.stopFlag = true ∧ q.enqueued = p.enqueued → step q l = some q' →
        q'.stopFlag = true ∧ q'.enqueued = p.enqueued := by
    intro q l q' hq hstep
    obtain ⟨hstop', henqueued⟩ := step_stopped hstep hq.1
    exact ⟨hstop', henqueued.trans hq.2⟩
  exact (run_preserves hkeeps ⟨hstop, rfl⟩ hrun).2

/-- With no worker left nothing is queued and nothing is being run. -/
theorem Accounted.all_run (h : Accounted n p) (hn : 0 < n) (hexited : ∀ w ∈ p.workers, w = .exited) :
    p.finished.Perm p.enqueued := by
  obtain ⟨w, hw⟩ := List.exists_mem_of_length_pos (h.size ▸ hn)
  have htasks := (h.drained (hexited w hw ▸ hw)).2
  have hnone : running p.workers = [] := by
    simp only [running, List.filterMap_eq_nil_iff]
    intro v hv
    rw [hexited v hv]
    rfl
  have horder := h.order
  rw [htasks, List.append_nil] at horder
  have hrun := h.run
  rwa [hnone, List.append_nil, horder] at hrun

end TzzeroHttp.ThreadPoolTasks
