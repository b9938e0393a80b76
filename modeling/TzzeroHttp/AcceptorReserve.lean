import TzzeroHttp.AcceptorModel

/-! What `handle_read` of the acceptor achieves. Connections leave the backlog in the order in
which they came, a bounded number in each call. While the reserve is there, a call that finds
somebody waiting takes somebody, even with a full table; but the reserve is gone for as long as
the table stays full once another thread opens a descriptor between its close and its reopening. -/
namespace TzzeroHttp.AcceptorReserve
open AcceptorModel Runs

variable {Peer : Type*} {s s' : Acceptor Peer}

structure Orderly (s : Acceptor Peer) : Prop where
  order : s.taken.map Prod.fst ++ s.point.inHand ++ s.backlog = s.arrived
  entered_le : s.entered ≤ s.taken.length
  burst : s.taken.length + s.point.inHand.length ≤ s.entered + maxAcceptPerLoop
  turn : ∀ i, s.point = .accepting i → s.taken.length = s.entered + i ∧ i < maxAcceptPerLoop
  room : s.point = .saturated ∨ s.point = .retrying → s.taken.length < s.entered + maxAcceptPerLoop

theorem new_orderly (Peer : Type*) (limit others : ℕ) (hasCallback : Bool) :
    Orderly (.new Peer limit others hasCallback) := by
  constructor <;> simp [Acceptor.new, Point.inHand]

theorem take_orderly (h : Orderly s) {i : ℕ} {peer : Peer} {rest : List Peer} (hp : s.point = .accepting i)
    (hbacklog : s.backlog = peer :: rest) : Orderly (s.take i peer rest) := by
  obtain ⟨hturn, hi⟩ := h.turn i hp
  have horder := h.order
  have hentered := h.entered_le
  rw [hp, hbacklog] at horder
  have hlength : (s.take i peer rest).taken.length = s.taken.length + 1 := by simp [Acceptor.take]
  have hhand : (s.take i peer rest).point.inHand = [] := by
    unfold Acceptor.take
    simp only
    split_ifs <;> rfl
  refine ⟨?_, ?_, ?_, fun j hj => ?_, fun hsat => ?_⟩
  · rw [hhand]
    simpa [Acceptor.take, Point.inHand] using horder
  · rw [hlength]
    exact Nat.le_succ_of_le hentered
  · rw [hlength, hhand]
    show s.taken.length + 1 + 0 ≤ s.entered + maxAcceptPerLoop
    omega
  · rw [hlength]
    show s.taken.length + 1 = s.entered + j ∧ j < maxAcceptPerLoop
    simp only [Acceptor.take] at hj
    split_ifs at hj with hlt
    obtain rfl := Point.accepting.inj hj
    omega
  · simp only [Acceptor.take] at hsat
    split_ifs at hsat <;> simp at hsat

theorem retry_orderly (h : Orderly s) (hp : s.point = .retrying) (failed : Bool) :
    Orderly (s.retry failed) := by
  have horder := h.order
  have hroom := h.room (.inr hp)
  have hreopening : Orderly { s with point := Point.reopening } := by
    rw [hp] at horder
    refine ⟨horder, h.entered_le, ?_, by simp, by simp⟩
    simp only [Point.inHand, List.length_nil]
    omega
  unfold Acceptor.retry
  split
  · exact hreopening
  · next peer rest hbacklog =>
    split_ifs
    · rw [hp, hbacklog] at horder
      refine ⟨by simpa [Point.inHand] using horder, h.entered_le, ?_, by simp, by simp⟩
      simp only [Point.inHand, List.length_singleton]
      omega
    · exact hreopening

theorem step_orderly {l : Label Peer} (h : Orderly s) (hstep : step s l = some s') : Orderly s' := by
  have horder := h.order
  have hentered := h.entered_le
  have hburst := h.burst
  cases step_move hstep with
  | arrive peer hbound =>
    refine ⟨?_, hentered, hburst, h.turn, h.room⟩
    simp only [← horder, List.append_assoc]
  | openOther hroom => exact ⟨horder, hentered, hburst, h.turn, h.room⟩
  | closeOther hpos => exact ⟨horder, hentered, hburst, h.turn, h.room⟩
  | listenAgain hlistening => exact h
  | listen hp hbound => exact ⟨horder, hentered, hburst, h.turn, h.room⟩
  | disableListening hp => exact ⟨horder, hentered, hburst, h.turn, h.room⟩
  | poll readable hp => exact ⟨horder, hentered, hburst, h.turn, h.room⟩
  | handleRead hp hcollected =>
    rw [hp] at horder
    refine ⟨horder, le_rfl, by simp [Point.inHand], fun i hi => ?_, by simp⟩
    obtain rfl := Point.accepting.inj hi
    exact ⟨rfl, by decide⟩
  | take i peer rest hp hbacklog hroom => exact take_orderly h hp hbacklog
  | wouldBlock i hp hbacklog =>
    rw [hp] at horder hburst
    exact ⟨horder, hentered, hburst, by simp, by simp⟩
  | tooManyFiles i hp hfull =>
    obtain ⟨hturn, hi⟩ := h.turn i hp
    rw [hp] at horder hburst
    refine ⟨horder, hentered, hburst, by simp, fun _ => ?_⟩
    show s.taken.length < s.entered + maxAcceptPerLoop
    omega
  | otherError i hp =>
    rw [hp] at horder hburst
    exact ⟨horder, hentered, hburst, by simp, by simp⟩
  | closeIdle hp =>
    rw [hp] at horder hburst
    exact ⟨horder, hentered, hburst, by simp, fun _ => h.room (.inl hp)⟩
  | retry failed hp => exact retry_orderly h hp failed
  | closeRejected peer hp =>
    rw [hp] at horder hburst
    refine ⟨by simpa [Point.inHand] using horder, ?_, by simpa [Point.inHand] using hburst, by simp, by simp⟩
    simp only [List.length_append, List.length_singleton]
    omega
  | reopen hp =>
    rw [hp] at horder hburst
    exact ⟨horder, hentered, hburst, by simp, by simp⟩

def Waits (s : Acceptor Peer) : Prop := s.collected = true → s.point = .outside

theorem retry_keeps (s : Acceptor Peer) (failed : Bool) :
    (s.retry failed).listening = s.listening ∧ (s.retry failed).bound = s.bound ∧
      (s.retry failed).entered = s.entered ∧ (s.retry failed).collected = s.collected ∧
        (s.retry failed).taken = s.taken := by
  unfold Acceptor.retry
  split
  · exact ⟨rfl, rfl, rfl, rfl, rfl⟩
  · split_ifs <;> exact ⟨rfl, rfl, rfl, rfl, rfl⟩

theorem step_waits {l : Label Peer} (h : Waits s) (hstep : step s l = some s') : Waits s' := by
  cases step_move hstep with
  | poll readable hp => exact fun _ => hp
  | handleRead hp hcollected => exact fun hon => by cases hon
  | take i peer rest hp hbacklog hroom => exact fun hon => absurd (h hon) (by simp [hp])
  | wouldBlock i hp hbacklog => exact fun _ => rfl
  | tooManyFiles i hp hfull => exact fun hon => absurd (h hon) (by simp [hp])
  | otherError i hp => exact fun _ => rfl
  | closeIdle hp => exact fun hon => absurd (h hon) (by simp [hp])
  | retry failed hp => exact fun hon => absurd (h ((retry_keeps s failed).2.2.2.1 ▸ hon)) (by simp [hp])
  | closeRejected peer hp => exact fun hon => absurd (h hon) (by simp [hp])
  | reopen hp => exact fun _ => rfl
  | _ => exact h

theorem step_taken {l : Label Peer} (hstep : step s l = some s') : s.taken <+: s'.taken := by
  cases step_move hstep with
  | take i peer rest hp hbacklog hroom => exact List.prefix_append _ _
  | retry failed hp => rw [(retry_keeps s failed).2.2.2.2]
  | closeRejected peer hp => exact List.prefix_append _ _
  | _ => exact List.prefix_rfl

theorem step_inside {l : Label Peer} (hp : s.point ≠ .outside) (hlistening : s.listening = false)
    (hbound : s.bound = true) (hstep : step s l = some s') :
    s'.listening = false ∧ s'.bound = true ∧ s'.entered = s.entered ∧ s'.collected = s.collected := by
  cases step_move hstep with
  | listen hcallable hunbound => simp [hbound] at hunbound
  | disableListening hcallable => exact ⟨rfl, hbound, rfl, rfl⟩
  | poll readable hout => exact absurd hout hp
  | handleRead hout hcollected => exact absurd hout hp
  | retry failed hretrying =>
    obtain ⟨hlistening', hbound', hentered, hcollected, -⟩ := retry_keeps s failed
    exact ⟨hlistening'.trans hlistening, hbound'.trans hbound, hentered, hcollected⟩
  | _ => exact ⟨hlistening, hbound, rfl, rfl⟩

/-- The socket has been unregistered for good, when `n` connections had been taken; `pressing` says
that `handle_read` was under way then, or still to be called for an event in the batch. -/
structure Winding (n : ℕ) (pressing : Bool) (s : Acceptor Peer) : Prop where
  listening : s.listening = false
  bound : s.bound = true
  waits : Waits s
  entered : s.entered ≤ n
  reached : n ≤ s.taken.length
  collected : s.collected = true → s.taken.length = n
  outside : pressing = false → s.point = .outside ∧ s.collected = false ∧ s.taken.length = n

/-- A second `listen()` throws, and no poll reports the socket any more. -/
theorem step_winding {n : ℕ} {pressing : Bool} {l : Label Peer} (h : Winding n pressing s)
    (hstep : step s l = some s') : Winding n pressing s' := by
  have hwaits := step_waits h.waits hstep
  have hreached := h.reached.trans (step_taken hstep).length_le
  by_cases hp : s.point = .outside
  · cases step_move hstep with
    | arrive peer hbound => exact ⟨h.listening, h.bound, hwaits, h.entered, hreached, h.collected, h.outside⟩
    | openOther hroom => exact ⟨h.listening, h.bound, hwaits, h.entered, hreached, h.collected, h.outside⟩
    | closeOther hpos => exact ⟨h.listening, h.bound, hwaits, h.entered, hreached, h.collected, h.outside⟩
    | listenAgain hlistening => exact h
    | listen hcallable hunbound => simp [h.bound] at hunbound
    | disableListening hcallable => exact ⟨rfl, h.bound, hwaits, h.entered, hreached, h.collected, h.outside⟩
    | poll readable hout =>
      have hoff : (readable && s.listening) = false := by simp [h.listening]
      rw [hoff] at hwaits ⊢
      exact ⟨h.listening, h.bound, hwaits, h.entered, hreached, by simp,
        fun hidle => ⟨hout, rfl, (h.outside hidle).2.2⟩⟩
    | handleRead hout hon =>
      refine ⟨h.listening, h.bound, hwaits, (h.collected hon).le, hreached, by simp, fun hidle => ?_⟩
      simp [(h.outside hidle).2.1] at hon
    | take i peer rest hat hbacklog hroom => simp [hp] at hat
    | wouldBlock i hat hbacklog => simp [hp] at hat
    | tooManyFiles i hat hfull => simp [hp] at hat
    | otherError i hat => simp [hp] at hat
    | closeIdle hat => simp [hp] at hat
    | retry failed hat => simp [hp] at hat
    | closeRejected peer hat => simp [hp] at hat
    | reopen hat => simp [hp] at hat
  · obtain ⟨hlistening, hbound, hentered, hcollected⟩ := step_inside hp h.listening h.bound hstep
    refine ⟨hlistening, hbound, hwaits, hentered.trans_le h.entered, hreached, fun hon => ?_, fun hidle => ?_⟩
    · exact absurd (h.waits (hcollected ▸ hon)) hp
    · exact absurd (h.outside hidle).1 hp

theorem winding_taken {n : ℕ} {pressing : Bool} (h : Winding n pressing s) (horderly : Orderly s) :
    s.taken.length ≤ n + if pressing then maxAcceptPerLoop else 0 := by
  cases pressing with
  | false => exact (h.outside rfl).2.2.le
  | true =>
    have hburst := horderly.burst
    have hentered := h.entered
    simp only [if_true]
    omega

/-- Over every run, whatever other threads do to the descriptor table: connections are taken from
the backlog in the order of their arrival, each of them once and either for the callback or to be
closed, and at most `kMaxAcceptPerLoop` in one call of `handle_read`. Once `disable_listening()`
has been executed, at most as many are ever taken again, in the call that was under way or in the
one for which the batch already held an event; without either, none. -/
theorem accepts_in_order (limit others : ℕ) (hasCallback : Bool) (labels : List (Label Peer))
    (s : Acceptor Peer) (hrun : run step (.new Peer limit others hasCallback) labels = some s) :
    s.taken.map Prod.fst ++ s.point.inHand ++ s.backlog = s.arrived ∧
      s.taken.length + s.point.inHand.length ≤ s.entered + maxAcceptPerLoop ∧
      (s.listening = false → s.bound = true → ∀ more s', run step s more = some s' →
        s'.taken.length ≤ s.taken.length + maxAcceptPerLoop ∧
          (s.point = .outside → s.collected = false → s'.taken = s.taken)) := by
  have hstep : ∀ (t : Acceptor Peer) l t', Orderly t ∧ Waits t → step t l = some t' → Orderly t' ∧ Waits t' :=
    fun _ _ _ h hl => ⟨step_orderly h.1 hl, step_waits h.2 hl⟩
  have hnew : Orderly (.new Peer limit others hasCallback) ∧ Waits (.new Peer limit others hasCallback) :=
    ⟨new_orderly Peer limit others hasCallback, fun hon => by cases hon⟩
  obtain ⟨h, hwaits⟩ := run_preserves hstep hnew hrun
  refine ⟨h.order, h.burst, fun hlistening hbound more s' hmore => ?_⟩
  have hend : ∀ pressing, Winding s.taken.length pressing s →
      Winding s.taken.length pressing s' ∧ s.taken <+: s'.taken := by
    intro pressing hw
    have hgrow : ∀ (t : Acceptor Peer) l t', Winding s.taken.length pressing t ∧ s.taken <+: t.taken →
        step t l = some t' → Winding s.taken.length pressing t' ∧ s.taken <+: t'.taken :=
      fun _ _ _ ht hl => ⟨step_winding ht.1 hl, ht.2.trans (step_taken hl)⟩
    exact run_preserves hgrow ⟨hw, List.prefix_rfl⟩ hmore
  constructor
  · obtain ⟨hw, -⟩ := hend true
      ⟨hlistening, hbound, hwaits, h.entered_le, le_rfl, fun _ => rfl, fun hidle => by cases hidle⟩
    exact winding_taken hw (run_preserves (fun _ _ _ => step_orderly) h hmore)
  · intro hpoint hcollected
    obtain ⟨hw, hgrown⟩ := hend false
      ⟨hlistening, hbound, hwaits, h.entered_le, le_rfl, fun _ => rfl, fun _ => ⟨hpoint, hcollected, rfl⟩⟩
    exact (hgrown.eq_of_length (hw.outside rfl).2.2.symm).symm

/-- A full table: the first peer is rejected through the reserve, the second stays where it is. -/
theorem accepts_in_order_full :
    let labels : List (Label ℕ) := [.listen, .arrive 7, .arrive 8, .poll true, .handleRead,
      .accept (some .tooManyFiles), .closeIdle, .retry false, .closeRejected, .reopen, .disableListening]
    let s : Acceptor ℕ :=
      { limit := 2, others := 1, bound := true, backlog := [8], arrived := [7, 8], taken := [(7, false)],
        pressed := true }
    run step (.new ℕ 2 1 true) labels = some s ∧
      ∀ more s', run step s more = some s' → s'.taken = s.taken := by
  intro labels s
  have hrun : run step (.new ℕ 2 1 true) labels = some s := rfl
  exact ⟨hrun, fun more s' hmore =>
    ((accepts_in_order 2 1 true labels s hrun).2.2 rfl rfl more s' hmore).2 rfl rfl⟩

/-- No other thread opens a descriptor while `handle_read` is in its branch for a full table, and
`accept` fails in no other way than for want of a connection or of a descriptor. -/
def Calm (s : Acceptor Peer) : Label Peer → Prop
  | .openOther => s.point.callable = true
  | .accept (some .other) => False
  | .retry failed => failed = false
  | _ => True

instance decidableCalm (s : Acceptor Peer) : ∀ l, Decidable (Calm s l)
  | .openOther => inferInstanceAs (Decidable (s.point.callable = true))
  | .accept (some .other) => .isFalse id
  | .accept none | .accept (some .wouldBlock) | .accept (some .tooManyFiles) => .isTrue trivial
  | .retry failed => inferInstanceAs (Decidable (failed = false))
  | .arrive _ | .closeOther | .listen | .disableListening | .poll _ | .handleRead | .closeIdle
  | .closeRejected | .reopen => .isTrue trivial

def seeking : Point Peer → Bool
  | .accepting _ | .saturated | .retrying => true
  | _ => false

def reserved : Point Peer → Bool
  | .outside | .accepting _ | .saturated => true
  | _ => false

structure Guarding (s : Acceptor Peer) : Prop where
  orderly : Orderly s
  files_le : s.files ≤ s.limit
  idle : s.idle = reserved s.point
  spare : s.point = .retrying ∨ s.point = .reopening → s.files < s.limit
  progress : s.pressed = true →
    s.entered < s.taken.length + s.point.inHand.length ∨ (seeking s.point = true ∧ s.backlog ≠ [])

theorem new_guarding (Peer : Type*) {limit others : ℕ} (hasCallback : Bool) (h : others < limit) :
    Guarding (.new Peer limit others hasCallback) where
  orderly := new_orderly Peer limit others hasCallback
  files_le := by simp [Acceptor.new, Acceptor.files, Point.inHand, h]
  idle := by simp [Acceptor.new, reserved, h]
  spare := by simp [Acceptor.new]
  progress := by simp [Acceptor.new]

theorem take_guarding (h : Guarding s) {i : ℕ} {peer : Peer} {rest : List Peer} (hp : s.point = .accepting i)
    (hbacklog : s.backlog = peer :: rest) (hroom : s.files < s.limit) : Guarding (s.take i peer rest) where
  orderly := take_orderly h.orderly hp hbacklog
  files_le := by
    simp only [Acceptor.files, hp, Point.inHand] at hroom
    simp only [Acceptor.take, Acceptor.files]
    split_ifs <;> simp only [Point.inHand, List.length_nil] at hroom ⊢ <;> omega
  idle := by
    have hidle := h.idle
    simp only [hp, reserved] at hidle
    simp only [Acceptor.take, hidle]
    split_ifs <;> rfl
  spare := by
    simp only [Acceptor.take]
    split_ifs <;> simp
  progress _ := by
    have hentered := h.orderly.entered_le
    refine .inl ?_
    simp only [Acceptor.take, List.length_append, List.length_singleton]
    omega

theorem retry_guarding (h : Guarding s) (hp : s.point = .retrying) : Guarding (s.retry false) := by
  have horderly := retry_orderly h.orderly hp false
  have hidle := h.idle
  have hspare := h.spare (.inl hp)
  have hprogress := h.progress
  simp only [hp, reserved] at hidle
  simp only [Acceptor.files, hp, Point.inHand, List.length_nil] at hspare
  cases hbacklog : s.backlog with
  | nil =>
    have hretry : s.retry false = { s with point := .reopening } := by simp [Acceptor.retry, hbacklog]
    rw [hretry] at horderly ⊢
    refine ⟨horderly, ?_, hidle, fun _ => ?_, fun hpressed => .inl ?_⟩
    · exact Nat.le_of_lt (by simpa [Acceptor.files, Point.inHand] using hspare)
    · simpa [Acceptor.files, Point.inHand] using hspare
    · simpa [hp, Point.inHand, hbacklog] using hprogress hpressed
  | cons peer rest =>
    have hentered := h.orderly.entered_le
    have hretry : s.retry false = { s with backlog := rest, point := .rejecting peer } := by
      simp only [Acceptor.retry, hbacklog]
      rw [if_pos (by simpa [Acceptor.files, hp, Point.inHand] using hspare)]
    rw [hretry] at horderly ⊢
    refine ⟨horderly, ?_, hidle, by simp, fun _ => .inl ?_⟩
    · simp only [Acceptor.files, Point.inHand, List.length_singleton]
      omega
    · simp only [Point.inHand, List.length_singleton]
      omega

theorem step_guarding {l : Label Peer} (h : Guarding s) (hcalm : Calm s l) (hstep : step s l = some s') :
    Guarding s' := by
  have horderly := step_orderly h.orderly hstep
  have hfiles := h.files_le
  have hidle := h.idle
  have hprogress := h.progress
  cases step_move hstep with
  | arrive peer hbound =>
    refine ⟨horderly, hfiles, hidle, h.spare, fun hpressed => ?_⟩
    exact (hprogress hpressed).imp_right fun ⟨hseek, _⟩ => ⟨hseek, by simp⟩
  | openOther hroom =>
    have hcallable : s.point.callable = true := hcalm
    refine ⟨horderly, ?_, hidle, fun hp => ?_, hprogress⟩
    · simp only [Acceptor.files] at hroom ⊢
      omega
    · rcases hp with hp | hp <;> simp [show s.point = _ from hp, Point.callable] at hcallable
  | closeOther hpos =>
    have hless : { s with others := s.others - 1 }.files ≤ s.files := by
      simp only [Acceptor.files]
      omega
    exact ⟨horderly, hless.trans hfiles, hidle, fun hp => hless.trans_lt (h.spare hp), hprogress⟩
  | listenAgain hlistening => exact h
  | listen hp hbound => exact ⟨horderly, hfiles, hidle, h.spare, hprogress⟩
  | disableListening hp => exact ⟨horderly, hfiles, hidle, h.spare, hprogress⟩
  | poll readable hp => exact ⟨horderly, hfiles, hidle, h.spare, hprogress⟩
  | handleRead hp hcollected =>
    simp only [hp, reserved] at hidle
    refine ⟨horderly, ?_, hidle, by simp, fun hpressed => .inr ⟨rfl, ?_⟩⟩
    · simpa only [Acceptor.files, hp, Point.inHand] using hfiles
    · simpa using hpressed
  | take i peer rest hp hbacklog hroom => exact take_guarding h hp hbacklog hroom
  | wouldBlock i hp hbacklog =>
    simp only [hp, reserved] at hidle
    refine ⟨horderly, ?_, hidle, by simp, fun hpressed => .inl ?_⟩
    · simpa only [Acceptor.files, hp, Point.inHand] using hfiles
    · simpa [hp, Point.inHand, hbacklog] using hprogress hpressed
  | tooManyFiles i hp hfull =>
    simp only [hp, reserved] at hidle
    refine ⟨horderly, ?_, hidle, by simp, fun hpressed => ?_⟩
    · simpa only [Acceptor.files, hp, Point.inHand] using hfiles
    · simpa only [hp, Point.inHand, seeking] using hprogress hpressed
  | otherError i hp => exact hcalm.elim
  | closeIdle hp =>
    simp only [hp, reserved] at hidle
    have hless : { s with idle := false, point := Point.retrying }.files < s.limit := by
      simp only [Acceptor.files, hp, hidle, Point.inHand, Bool.toNat_true, Bool.toNat_false] at hfiles ⊢
      omega
    refine ⟨horderly, hless.le, rfl, fun _ => hless, fun hpressed => ?_⟩
    simpa only [hp, Point.inHand, seeking] using hprogress hpressed
  | retry failed hp =>
    obtain rfl : failed = false := hcalm
    exact retry_guarding h hp
  | closeRejected peer hp =>
    simp only [hp, reserved] at hidle
    have hless : { s with taken := s.taken ++ [(peer, false)], point := Point.reopening }.files < s.limit := by
      simp only [Acceptor.files, hp, Point.inHand, List.length_singleton, List.length_nil] at hfiles ⊢
      omega
    have hentered := h.orderly.entered_le
    refine ⟨horderly, hless.le, hidle, fun _ => hless, fun _ => .inl ?_⟩
    simp only [List.length_append, List.length_singleton]
    omega
  | reopen hp =>
    have hspare := h.spare (.inr hp)
    simp only [hp, reserved] at hidle
    refine ⟨horderly, ?_, by simp [hspare, reserved], by simp, fun hpressed => .inl ?_⟩
    · simp only [Acceptor.files, hp, hidle, Point.inHand, List.length_nil, Bool.toNat_false] at hspare ⊢
      simp only [hspare, decide_true, Bool.toNat_true]
      omega
    · simpa [hp, Point.inHand, seeking] using hprogress hpressed

/-- As long as the table only fills up outside the branch for a full one, the reserve is there
between two calls of `handle_read`, no more descriptors are open than the table holds, and a call
that found a peer waiting has taken one from the backlog, also with a table that was full. -/
theorem overload_progress (limit others : ℕ) (hasCallback : Bool) (labels : List (Label Peer))
    (s : Acceptor Peer) (hothers : others < limit)
    (hcalm : Guarded step Calm (.new Peer limit others hasCallback) labels)
    (hrun : run step (.new Peer limit others hasCallback) labels = some s) :
    s.files ≤ s.limit ∧ (s.point = .outside →
      s.idle = true ∧ (s.pressed = true → s.entered < s.taken.length)) := by
  have h : Guarding s :=
    run_invariant (fun _ _ _ => step_guarding) (new_guarding Peer hasCallback hothers) hcalm hrun
  refine ⟨h.files_le, fun hp => ⟨?_, fun hpressed => ?_⟩⟩
  · simpa only [hp, reserved] using h.idle
  · simpa [hp, Point.inHand, seeking] using h.progress hpressed

/-- The last descriptor goes to a connection; the next peer is rejected and the reserve reopened. -/
theorem overload_progress_full :
    let labels : List (Label ℕ) := [.listen, .arrive 7, .arrive 8, .poll true, .handleRead, .accept none,
      .accept (some .tooManyFiles), .closeIdle, .retry false, .closeRejected, .reopen]
    let s : Acceptor ℕ :=
      { limit := 3, others := 2, bound := true, listening := true, arrived := [7, 8],
        taken := [(7, true), (8, false)], pressed := true }
    run step (.new ℕ 3 1 true) labels = some s ∧ s.files ≤ s.limit ∧ s.idle = true ∧
      s.entered < s.taken.length := by
  intro labels s
  have hrun : run step (.new ℕ 3 1 true) labels = some s := rfl
  have hcalm : Guarded step Calm (.new ℕ 3 1 true) labels := by decide
  obtain ⟨hfiles, hidle⟩ := overload_progress 3 1 true labels s (by decide) hcalm hrun
  exact ⟨hrun, hfiles, (hidle rfl).1, (hidle rfl).2 rfl⟩

/-- Nobody closes a descriptor while `handle_read` is in its branch for a full table. -/
def Undisturbed (s : Acceptor Peer) : Label Peer → Prop
  | .closeOther => s.point.callable = true
  | _ => True

instance decidableUndisturbed (s : Acceptor Peer) : ∀ l, Decidable (Undisturbed s l)
  | .closeOther => inferInstanceAs (Decidable (s.point.callable = true))
  | .arrive _ | .openOther | .listen | .disableListening | .poll _ | .handleRead | .accept _ | .closeIdle
  | .retry _ | .closeRejected | .reopen => .isTrue trivial

/-- The reserve is gone, and with it the rejections; `before` is what had been taken. -/
structure Bare (before : List (Peer × Bool)) (callback : Bool) (s : Acceptor Peer) : Prop where
  idle : s.idle = false
  hand : s.point.inHand = []
  full : s.point.callable = false → s.limit ≤ s.others
  hasCallback : s.hasCallback = callback
  taken : ∃ more, s.taken = before ++ more ∧ ∀ entry ∈ more, entry.2 = callback

variable {before : List (Peer × Bool)} {callback : Bool}

theorem files_bare (hidle : s.idle = false) (hhand : s.point.inHand = []) : s.files = s.others := by
  simp [Acceptor.files, hidle, hhand]

theorem step_bare {l : Label Peer} (h : Bare before callback s) (hun : Undisturbed s l)
    (hstep : step s l = some s') : Bare before callback s' := by
  have hidle := h.idle
  have hfiles := files_bare hidle h.hand
  have hfull := h.full
  cases step_move hstep with
  | arrive peer hbound => exact ⟨hidle, h.hand, hfull, h.hasCallback, h.taken⟩
  | openOther hroom => exact ⟨hidle, h.hand, fun hp => (hfull hp).trans (Nat.le_succ _), h.hasCallback, h.taken⟩
  | closeOther hpos =>
    have hcallable : s.point.callable = true := hun
    exact ⟨hidle, h.hand, fun hp => by simp [hcallable] at hp, h.hasCallback, h.taken⟩
  | listenAgain hlistening => exact h
  | listen hp hbound => exact ⟨hidle, h.hand, hfull, h.hasCallback, h.taken⟩
  | disableListening hp => exact ⟨hidle, h.hand, hfull, h.hasCallback, h.taken⟩
  | poll readable hp => exact ⟨hidle, h.hand, hfull, h.hasCallback, h.taken⟩
  | handleRead hp hcollected => exact ⟨hidle, rfl, by simp [Point.callable], h.hasCallback, h.taken⟩
  | take i peer rest hp hbacklog hroom =>
    obtain ⟨more, htaken, hmore⟩ := h.taken
    have hnext : (s.take i peer rest).point.inHand = [] ∧ (s.take i peer rest).point.callable = true := by
      simp only [Acceptor.take]
      split_ifs <;> exact ⟨rfl, rfl⟩
    refine ⟨hidle, hnext.1, by simp [hnext.2], h.hasCallback, more ++ [(peer, callback)], ?_, ?_⟩
    · simp [Acceptor.take, htaken, h.hasCallback]
    · intro entry hentry
      rcases List.mem_append.mp hentry with hentry | hentry
      · exact hmore entry hentry
      · rw [List.mem_singleton.mp hentry]
  | wouldBlock i hp hbacklog => exact ⟨hidle, rfl, by simp [Point.callable], h.hasCallback, h.taken⟩
  | tooManyFiles i hp hlimit => exact ⟨hidle, rfl, fun _ => hfiles ▸ hlimit, h.hasCallback, h.taken⟩
  | otherError i hp => exact ⟨hidle, rfl, by simp [Point.callable], h.hasCallback, h.taken⟩
  | closeIdle hp => exact ⟨rfl, rfl, fun _ => hfull (by simp [hp, Point.callable]), h.hasCallback, h.taken⟩
  | retry failed hp =>
    have hlimit := hfull (by simp [hp, Point.callable])
    have hretry : s.retry failed = { s with point := .reopening } := by
      unfold Acceptor.retry
      cases s.backlog with
      | nil => rfl
      | cons peer rest => simp [hfiles, Nat.not_lt.mpr hlimit]
    rw [hretry]
    exact ⟨hidle, rfl, fun _ => hlimit, h.hasCallback, h.taken⟩
  | closeRejected peer hp => simpa [hp, Point.inHand] using h.hand
  | reopen hp =>
    have hlimit := hfull (by simp [hp, Point.callable])
    exact ⟨by simp [hfiles, hlimit], rfl, by simp [Point.callable], h.hasCallback, h.taken⟩

/-- Nothing is taken while the table stays full. -/
theorem step_starved {l : Label Peer} (hidle : s.idle = false) (hhand : s.point.inHand = [])
    (hlimit : s.limit ≤ s.others) (hl : l ≠ .closeOther) (hstep : step s l = some s') :
    s'.limit ≤ s'.others ∧ s'.taken = s.taken := by
  have hfiles := files_bare hidle hhand
  cases step_move hstep with
  | closeOther hpos => exact absurd rfl hl
  | openOther hroom => exact ⟨hlimit.trans (Nat.le_succ _), rfl⟩
  | take i peer rest hp hbacklog hroom => omega
  | retry failed hp =>
    unfold Acceptor.retry
    cases s.backlog with
    | nil => exact ⟨hlimit, rfl⟩
    | cons peer rest =>
      rw [apply_ite Acceptor.limit, apply_ite Acceptor.others, apply_ite Acceptor.taken]
      split_ifs <;> exact ⟨hlimit, rfl⟩
  | closeRejected peer hp => simp [hp, Point.inHand] at hhand
  | _ => exact ⟨hlimit, rfl⟩

/-- Once the reserve is gone, it is gone for good, unless a descriptor happens to be closed while
`handle_read` is in its branch for a full table: no later overload rejects anybody, however much
room there was in between. And while the table stays full, no connection is taken at all, though
the listening socket is readable and `handle_read` is called again and again. -/
theorem reserve_never_regained (s s' : Acceptor Peer) (labels : List (Label Peer)) (hidle : s.idle = false)
    (hcallable : s.point.callable = true) (hun : Guarded step Undisturbed s labels)
    (hrun : run step s labels = some s') :
    s'.idle = false ∧
      (∃ more, s'.taken = s.taken ++ more ∧ ∀ entry ∈ more, entry.2 = s.hasCallback) ∧
      (s.limit ≤ s.others → .closeOther ∉ labels → s'.taken = s.taken) := by
  have hhand : s.point.inHand = [] := by
    cases hp : s.point with
    | rejecting peer => simp [hp, Point.callable] at hcallable
    | _ => rfl
  have hstart : Bare s.taken s.hasCallback s :=
    ⟨hidle, hhand, by simp [hcallable], rfl, [], by simp, by simp⟩
  have hend := run_invariant (fun _ _ _ => step_bare) hstart hun hrun
  refine ⟨hend.idle, hend.taken, fun hlimit hclose => ?_⟩
  have hboth : Guarded step (fun t l => Undisturbed t l ∧ l ≠ .closeOther) s labels :=
    guarded_and_forall hun fun l hl heq => hclose (heq ▸ hl)
  have hstep : ∀ (t : Acceptor Peer) l t',
      (Bare s.taken s.hasCallback t ∧ t.limit ≤ t.others ∧ t.taken = s.taken) →
        (Undisturbed t l ∧ l ≠ .closeOther) → step t l = some t' →
          Bare s.taken s.hasCallback t' ∧ t'.limit ≤ t'.others ∧ t'.taken = s.taken := by
    intro t l t' ht hl hstep
    obtain ⟨hbare, hfull, htaken⟩ := ht
    obtain ⟨hfull', htaken'⟩ := step_starved hbare.idle hbare.hand hfull hl.2 hstep
    exact ⟨step_bare hbare hl.1 hstep, hfull', htaken'.trans htaken⟩
  exact (run_invariant hstep ⟨hstart, hlimit, rfl⟩ hboth hrun).2.2

/-- Room for one connection and none for the reserve: the second peer is neither taken nor
rejected. -/
theorem reserve_never_regained_one :
    let s : Acceptor ℕ :=
      { limit := 2, others := 1, bound := true, listening := true, idle := false, backlog := [7, 8],
        arrived := [7, 8] }
    let labels : List (Label ℕ) := [.poll true, .handleRead, .accept none, .accept (some .tooManyFiles),
      .closeIdle, .retry false, .reopen]
    let s' : Acceptor ℕ := { s with others := 2, backlog := [8], taken := [(7, true)], pressed := true }
    run step s labels = some s' ∧ s'.idle = false ∧
      ∃ more, s'.taken = s.taken ++ more ∧ ∀ entry ∈ more, entry.2 = s.hasCallback := by
  intro s labels s'
  have hrun : run step s labels = some s' := rfl
  have hun : Guarded step Undisturbed s labels := by decide
  have hgone := reserve_never_regained s s' labels rfl rfl hun hrun
  exact ⟨hrun, hgone.1, hgone.2.1⟩

end TzzeroHttp.AcceptorReserve
