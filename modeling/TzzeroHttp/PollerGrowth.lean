import TzzeroHttp.PollerBatch

/-! The array that `epoll_wait` fills. Only a poll that fills it can have left ready descriptors
out, and it doubles the array; so this happens a logarithmic number of times in the life of a
poller, whatever the descriptors registered and removed in between. -/
namespace TzzeroHttp.PollerGrowth
open ConnectionModel hiding step Call
open PollerModel Runs

variable {C : Type*} {l l' : EventLoop C}

def Within (n : ℕ) (l : EventLoop C) : Prop :=
  ∃ fds : List Fd, fds.length ≤ n ∧ ∀ fd, (l.poller.interest fd).isSome → fd ∈ fds

def fills (l : EventLoop C) : Label C → Bool
  | .poll ready => ready.length = l.poller.capacity
  | _ => false

def fullPolls (l : EventLoop C) : List (Label C) → ℕ
  | [] => 0
  | a :: as => (fills l a).toNat + (step l a).elim 0 fun l' => fullPolls l' as

theorem fullPolls_cons {a : Label C} {as : List (Label C)} (h : step l a = some l') :
    fullPolls l (a :: as) = (fills l a).toNat + fullPolls l' as := by
  simp [fullPolls, h]

def Matched (p : EpollPoller C) : Prop := ∀ fd, (p.interest fd).isSome ↔ (p.fdCallbacks fd).isSome

theorem perform_ok {p p' : EpollPoller C} {c : Call C} (hp : p.perform c = .ok p') :
    (∃ fd events callback, (c = .addFd fd events callback ∨ c = .modifyFd fd events callback) ∧
      p' = p.setFd fd events callback) ∨
    ∃ fd, c = .removeFd fd ∧ p' = { p with
      interest := Function.update p.interest fd none
      fdCallbacks := Function.update p.fdCallbacks fd none } := by
  cases c with
  | addFd fd events callback =>
    simp only [EpollPoller.perform] at hp
    split_ifs at hp
    exact .inl ⟨fd, events, callback, .inl rfl, (Except.ok.inj hp).symm⟩
  | modifyFd fd events callback =>
    simp only [EpollPoller.perform] at hp
    split_ifs at hp
    exact .inl ⟨fd, events, callback, .inr rfl, (Except.ok.inj hp).symm⟩
  | removeFd fd =>
    simp only [EpollPoller.perform] at hp
    split_ifs at hp
    exact .inr ⟨fd, rfl, (Except.ok.inj hp).symm⟩

theorem perform_matched {p p' : EpollPoller C} {c : Call C} (h : Matched p) (hp : p.perform c = .ok p') :
    Matched p' ∧ p'.capacity = p.capacity := by
  rcases perform_ok hp with ⟨fd, events, callback, -, rfl⟩ | ⟨fd, -, rfl⟩
  · refine ⟨fun fd' => ?_, rfl⟩
    by_cases hfd : fd' = fd
    · simp [EpollPoller.setFd, hfd]
    · simpa [EpollPoller.setFd, Function.update_of_ne hfd] using h fd'
  · refine ⟨fun fd' => ?_, rfl⟩
    by_cases hfd : fd' = fd
    · simp [hfd]
    · simpa [Function.update_of_ne hfd] using h fd'

/-- Of all steps only a full poll changes the size of the array. -/
theorem step_capacity {a : Label C} (hmatched : Matched l.poller) (hstep : step l a = some l') :
    Matched l'.poller ∧ l'.poller.capacity = l.poller.capacity * 2 ^ (fills l a).toNat := by
  cases a with
  | poll ready =>
    obtain ⟨-, rfl⟩ := guard_eq_some hstep
    refine ⟨hmatched, ?_⟩
    simp only [EpollPoller.poll, fills]
    split_ifs with hfull <;> simp [hfull]
  | call c =>
    obtain ⟨-, rfl⟩ := guard_eq_some hstep
    unfold EventLoop.call
    simp only
    split
    · next p hp =>
      obtain ⟨hnext, hcapacity⟩ := perform_matched hmatched hp
      exact ⟨hnext, by simp [hcapacity, fills]⟩
    · exact ⟨hmatched, by simp [fills]⟩
  | next =>
    obtain ⟨e, rest, -, rfl⟩ := PollerBatch.step_next hstep
    have hpoller : ({ l with activeEvents := rest }.invoke e).poller = l.poller := by
      unfold EventLoop.invoke
      split_ifs <;> rfl
    rw [hpoller]
    exact ⟨hmatched, by simp [fills]⟩

/-- A full poll reports as many descriptors as there is room for, and these are registered. -/
theorem fills_le {n : ℕ} {a : Label C} (hwithin : Within n l) (hstep : step l a = some l')
    (hfull : fills l a = true) : l.poller.capacity ≤ n := by
  cases a with
  | poll ready =>
    obtain ⟨⟨-, -, hreports⟩, -⟩ := guard_eq_some hstep
    obtain ⟨fds, hlength, hfds⟩ := hwithin
    have hsub : ready.map Prod.fst ⊆ fds := by
      intro fd hfd
      obtain ⟨r, hr, rfl⟩ := List.mem_map.mp hfd
      exact hfds r.1 (hreports.2.2 r hr)
    have hle := (List.subperm_of_subset hreports.2.1 hsub).length_le
    have hcapacity : ready.length = l.poller.capacity := by simpa [fills] using hfull
    rw [List.length_map] at hle
    omega
  | call c => simp [fills] at hfull
  | next => simp [fills] at hfull

theorem run_capacity {n : ℕ} {labels : List (Label C)} (hmatched : Matched l.poller)
    (hle : l.poller.capacity ≤ max 16 (2 * n)) (hwithin : Guarded step (fun l _ => Within n l) l labels)
    (hrun : run step l labels = some l') :
    Matched l'.poller ∧ l'.poller.capacity = l.poller.capacity * 2 ^ fullPolls l labels ∧
      l'.poller.capacity ≤ max 16 (2 * n) := by
  induction labels generalizing l with
  | nil =>
    obtain rfl := Option.some.inj hrun
    exact ⟨hmatched, by simp [fullPolls], hle⟩
  | cons a labels ih =>
    obtain ⟨l₁, h₁, h₂⟩ := run_cons.mp hrun
    obtain ⟨hmatched₁, hcapacity⟩ := step_capacity hmatched h₁
    have hle₁ : l₁.poller.capacity ≤ max 16 (2 * n) := by
      cases hfull : fills l a with
      | false => simpa [hcapacity, hfull] using hle
      | true =>
        have hroom := fills_le hwithin.1 h₁ hfull
        simp only [hcapacity, hfull, Bool.toNat_true, pow_one]
        omega
    obtain ⟨hmatched', hcapacity', hle'⟩ := ih hmatched₁ hle₁ (hwithin.2 l₁ h₁) h₂
    refine ⟨hmatched', ?_, hle'⟩
    rw [hcapacity', hcapacity, fullPolls_cons h₁, pow_add, mul_assoc]

theorem poll_fds {p : EpollPoller C} (h : Matched p) {ready : List (Fd × EpollBits)}
    (hready : ∀ r ∈ ready, (p.interest r.1).isSome) : (p.poll ready).2.map PollEvent.fd = ready.map Prod.fst := by
  induction ready with
  | nil => rfl
  | cons r ready ih =>
    obtain ⟨callback, hcallback⟩ := Option.isSome_iff_exists.mp ((h r.1).mp (hready r List.mem_cons_self))
    have hrest := ih fun r' hr' => hready r' (List.mem_cons_of_mem r hr')
    simp only [EpollPoller.poll] at hrest ⊢
    rw [List.filterMap_cons, hcallback, List.map_cons, ← hrest]
    rfl

/-- In every run in which never more than `n` descriptors are registered, and none of them is
closed: the array has doubled with each poll that it was too small for and has at most twice the
room ever needed, so that at most `log₂ (n / 8)` polls can have left a ready descriptor out if `n`
is 8 or more, and none if it is less; the two tables of the poller have the same descriptors, and
no descriptor that the kernel reports is lost between them. -/
theorem few_polls_truncated (n : ℕ) (labels : List (Label C)) (l : EventLoop C)
    (hwithin : Guarded step (fun l _ => Within n l) { poller := {} } labels)
    (hrun : run step { poller := {} } labels = some l) :
    l.poller.capacity = 16 * 2 ^ fullPolls { poller := {} } labels ∧
      16 * 2 ^ fullPolls { poller := {} } labels ≤ max 16 (2 * n) ∧ Matched l.poller ∧
      ∀ ready, l.poller.Reports ready → (l.poller.poll ready).2.map PollEvent.fd = ready.map Prod.fst := by
  have hmatched : Matched ({} : EpollPoller C) := fun fd => by simp
  obtain ⟨hmatched', hcapacity, hle⟩ := run_capacity hmatched (le_max_left _ _) hwithin hrun
  exact ⟨hcapacity, hcapacity ▸ hle, hmatched', fun ready hready => poll_fds hmatched' hready.2.2⟩

def Among (fds : List Fd) : Label C → Prop
  | .call (.addFd fd _ _) | .call (.modifyFd fd _ _) => fd ∈ fds
  | _ => True

theorem guarded_within {fds : List Fd} {labels : List (Label C)} (h : ∀ a ∈ labels, Among fds a)
    (hl : ∀ fd, (l.poller.interest fd).isSome → fd ∈ fds) :
    Guarded step (fun l _ => Within fds.length l) l labels := by
  induction labels generalizing l with
  | nil => trivial
  | cons a labels ih =>
    refine ⟨⟨fds, le_rfl, hl⟩, fun l' hstep => ih (fun b hb => h b (List.mem_cons_of_mem a hb)) fun fd hfd => ?_⟩
    have hamong := h a List.mem_cons_self
    cases a with
    | poll ready =>
      obtain ⟨-, rfl⟩ := guard_eq_some hstep
      exact hl fd hfd
    | next =>
      obtain ⟨e, rest, -, rfl⟩ := PollerBatch.step_next hstep
      exact hl fd (by unfold EventLoop.invoke at hfd; split_ifs at hfd <;> exact hfd)
    | call c =>
      obtain ⟨-, rfl⟩ := guard_eq_some hstep
      unfold EventLoop.call at hfd
      simp only at hfd
      split at hfd
      · next p hp =>
        rcases perform_ok hp with ⟨fd', events, callback, hc, rfl⟩ | ⟨fd', rfl, rfl⟩
        · have hin : fd' ∈ fds := by
            rcases hc with rfl | rfl <;> exact hamong
          by_cases heq : fd = fd'
          · exact heq ▸ hin
          · exact hl fd (by simpa [EpollPoller.setFd, Function.update_of_ne heq] using hfd)
        · by_cases heq : fd = fd'
          · simp [heq] at hfd
          · exact hl fd (by simpa [Function.update_of_ne heq] using hfd)
      · exact hl fd hfd

/-- Sixteen descriptors, all of them ready at once: the array doubles, and never again. -/
theorem few_polls_truncated_once :
    let fds := List.range 16
    let labels : List (Label Unit) := fds.map (fun fd => .call (.addFd fd { read := true } none)) ++
      [.poll (fds.map fun fd => (fd, { epollin := true }))] ++ fds.map (fun _ => .next) ++
      [.poll (fds.map fun fd => (fd, { epollin := true }))]
    ∃ l, run step { poller := {} } labels = some l ∧
      l.poller.capacity = 16 * 2 ^ fullPolls { poller := {} } labels ∧
      16 * 2 ^ fullPolls { poller := {} } labels ≤ 32 ∧ l.poller.capacity = 32 := by
  intro fds labels
  have hamong : ∀ a ∈ labels, Among fds a := by
    intro a ha
    simp only [labels, List.mem_append, List.mem_map, List.mem_singleton] at ha
    obtain ((⟨fd, hfd, rfl⟩ | rfl) | ⟨fd, hfd, rfl⟩) | rfl := ha
    · exact hfd
    · trivial
    · trivial
    · trivial
  have hend : (run step { poller := {} } labels).map (fun l => l.poller.capacity) = some 32 := by decide +kernel
  obtain ⟨l, hl, hcapacity⟩ := Option.map_eq_some_iff.mp hend
  have hwithin := guarded_within (l := { poller := ({} : EpollPoller Unit) }) hamong (by simp)
  obtain ⟨hexact, hle, -⟩ := few_polls_truncated 16 labels l hwithin hl
  exact ⟨l, hl, hexact, hle, hcapacity⟩

end TzzeroHttp.PollerGrowth
