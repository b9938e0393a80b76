import TzzeroHttp.ConnectionFrame
import TzzeroHttp.ConnectionOutput

/-! A sender that is paced by `write_complete_callback_`: it sends once, and from then on once in
each call of that callback. What it has to wait for is in one place at a time: its message in the
functor queue, the bytes of it in the output buffer, or the notice that they are gone. -/
namespace TzzeroHttp.ConnectionPacing
open ByteText BufferModel ConnectionModel ConnectionSending ConnectionOutput Runs
open BufferQueue (ByteBuffer)
open ConnectionInterest (stepAny stepAny_cases)

def isToken : Functor → Bool
  | .sendInLoop _ _ | .writeComplete => true
  | _ => false

def tokens (w : World) : ℕ :=
  (w.batch ++ w.pending).countP isToken + if w.output.readable = [] then 0 else 1

def lastMessage (w : World) : Bytes := (w.executed.getLast?.map Prod.snd).getD []

structure Live (n : ℕ) (w : World) : Prop where
  calm : w.thrown = none
  registered : ∃ e ∈ w.interest, e.write = true ↔ w.output.readable ≠ []
  tokens : tokens w = n
  last : w.output.readable <:+ lastMessage w
  messages : ∀ x ∈ sends (w.batch ++ w.pending), x.2 ≠ []

/-- What is said of a connection ends with CONNECTED. -/
def Holding (n : ℕ) (w : World) : Prop := w.state = .connected → Live n w

def isSend : Call → Bool
  | .send _ _ => true
  | _ => false

/-- What is sent is not empty, and the write does not fail with EPIPE or ECONNRESET. -/
def Proper : Call → Prop
  | .send m r => m ≠ [] ∧ Harmless r
  | _ => True

instance : ∀ c, Decidable (Proper c)
  | .send m r =>
    inferInstanceAs (Decidable (m ≠ [] ∧ r ≠ .failed .brokenPipe ∧ r ≠ .failed .connectionReset))
  | .shutdown | .forceClose | .retrieve _ => .isTrue trivial

/-- No call but those of the write-complete callbacks is a `send`, and each of them makes one. -/
def Paced (w : World) : Act → Prop
  | .call _ c => isSend c = false
  | .runFunctor r cs => Harmless r ∧ (∀ c ∈ cs, Proper c) ∧
      cs.countP isSend = if w.batch.head? = some .writeComplete then 1 else 0
  | .dispatch _ _ cs r => Harmless r ∧ cs.countP isSend = 0
  | _ => True

instance (w : World) : ∀ a, Decidable (Paced w a)
  | .call _ c => inferInstanceAs (Decidable (isSend c = false))
  | .runFunctor r cs =>
    inferInstanceAs (Decidable ((r ≠ .failed .brokenPipe ∧ r ≠ .failed .connectionReset) ∧
      (∀ c ∈ cs, Proper c) ∧ cs.countP isSend = if w.batch.head? = some .writeComplete then 1 else 0))
  | .dispatch _ _ cs r =>
    inferInstanceAs (Decidable ((r ≠ .failed .brokenPipe ∧ r ≠ .failed .connectionReset) ∧ cs.countP isSend = 0))
  | .swapFunctors | .connectionDestroyed | .removeInLoop => .isTrue trivial

variable {cfg : Config} {w v : World} {n : ℕ}

theorem proper_of_silent {c : Call} (h : isSend c = false) : Proper c := by
  cases c with
  | send m r => cases h
  | _ => trivial

theorem holding_of_closed (h : w.state ≠ .connected) : Holding n w := fun hconnected => absurd hconnected h

theorem Holding.keep (h : Holding n w) (hstate : v.state = w.state) (hthrown : v.thrown = w.thrown)
    (hinterest : v.interest = w.interest) (houtput : v.output = w.output) (hexecuted : v.executed = w.executed)
    (hqueue : (v.batch ++ v.pending).countP isToken = (w.batch ++ w.pending).countP isToken)
    (hsends : sends (v.batch ++ v.pending) = sends (w.batch ++ w.pending)) : Holding n v := by
  intro hconnected
  obtain ⟨hcalm, hregistered, htokens, hlast, hmessages⟩ := h (hstate ▸ hconnected)
  refine ⟨hthrown.trans hcalm, ?_, ?_, ?_, ?_⟩
  · rw [hinterest, houtput]
    exact hregistered
  · rw [tokens, hqueue, houtput]
    exact htokens
  · rw [lastMessage, hexecuted, houtput]
    exact hlast
  · rw [hsends]
    exact hmessages

theorem handleClose_state : (w.handleClose cfg).state = .disconnected := by
  have hremove : ({ w with state := .disconnected, closes := w.closes + 1 }.removeFd).state = .disconnected := by
    unfold World.removeFd
    cases w.interest <;> rfl
  have hcallback : ∀ u : World, (u.closeCallback cfg).state = u.state := by
    intro u
    unfold World.closeCallback
    cases cfg.closeCallback <;> rfl
  unfold World.handleClose World.andThen
  split_ifs
  · exact hremove
  · exact (hcallback _).trans hremove

theorem handleClose_holding : Holding n (w.handleClose cfg) :=
  holding_of_closed (by rw [handleClose_state]; decide)

theorem Holding.andThen {m : ℕ} {f : World → World} (h : Holding n w) (hf : Holding n w → Holding m (f w)) :
    Holding m (w.andThen f) := by
  unfold World.andThen
  split_ifs with hthrown
  · intro hconnected
    rw [(h hconnected).calm] at hthrown
    cases hthrown
  · exact hf h

theorem countP_queueInLoop (f : Functor) :
    ((w.queueInLoop f).batch ++ (w.queueInLoop f).pending).countP isToken =
      (w.batch ++ w.pending).countP isToken + (isToken f).toNat := by
  rw [World.queueInLoop, ← List.append_assoc, List.countP_append, List.countP_singleton]
  cases isToken f <;> rfl

theorem sends_queueInLoop (f : Functor) :
    sends ((w.queueInLoop f).batch ++ (w.queueInLoop f).pending) = sends (w.batch ++ w.pending) ++ sends [f] := by
  rw [World.queueInLoop, ← List.append_assoc, sends_append]

theorem queueInLoop_live (h : Live n w) {f : Functor} (hf : ∀ x ∈ sends [f], x.2 ≠ []) :
    Live (n + (isToken f).toNat) (w.queueInLoop f) := by
  obtain ⟨hcalm, hregistered, htokens, hlast, hmessages⟩ := h
  refine ⟨hcalm, hregistered, ?_, hlast, ?_⟩
  · rw [← htokens, tokens, tokens, countP_queueInLoop]
    exact Nat.add_right_comm _ _ _
  · rw [sends_queueInLoop]
    exact List.forall_mem_append.mpr ⟨hmessages, hf⟩

structure Clear (w : World) : Prop where
  calm : w.thrown = none
  interest : ∃ e ∈ w.interest, e.write = false
  empty : w.output.readable = []
  queue : (w.batch ++ w.pending).countP isToken = 0
  messages : ∀ x ∈ sends (w.batch ++ w.pending), x.2 ≠ []

theorem clear_of_live (h : Live 0 w) : Clear w := by
  obtain ⟨hqueue, hbuffer⟩ := Nat.add_eq_zero_iff.mp h.tokens
  have hempty : w.output.readable = [] := by
    by_contra hne
    rw [if_neg hne] at hbuffer
    cases hbuffer
  obtain ⟨e, he, hwrite⟩ := h.registered
  exact ⟨h.calm, ⟨e, he, by simpa [hempty] using hwrite⟩, hempty, hqueue, h.messages⟩

theorem live_of_clear (h : Clear w) : Live 0 w := by
  obtain ⟨e, he, hwrite⟩ := h.interest
  refine ⟨h.calm, ⟨e, he, by simp [hwrite, h.empty]⟩, ?_, ?_, h.messages⟩
  · rw [tokens, h.queue, if_pos h.empty]
  · rw [h.empty]
    exact List.nil_suffix

theorem append_live {rest : Bytes} (h : Clear w) (hnil : rest ≠ []) (hrest : rest <:+ lastMessage w) :
    Live 1 ({ w with output := w.output.append rest }.modifyFd { read := true, write := true }) := by
  have hreadable : (w.output.append rest).readable = rest := by simp [h.empty]
  obtain ⟨e, he, -⟩ := h.interest
  simp only [World.modifyFd, Option.mem_def.mp he]
  constructor
  · exact h.calm
  · exact ⟨_, rfl, by simp [hreadable, hnil]⟩
  · simp [tokens, h.queue, hreadable, hnil]
  · rw [hreadable]
    exact hrest
  · exact h.messages

/-- The end of `send_in_loop` for a message that has nothing in front of it. -/
theorem bufferRemaining_live {rest : Bytes} (h : Clear w) (hnil : rest ≠ []) (hrest : rest <:+ lastMessage w) :
    Live 1 (w.bufferRemaining cfg rest) := by
  unfold World.bufferRemaining
  rw [if_neg hnil]
  simp only
  split_ifs with hmark
  · refine append_live ⟨h.calm, h.interest, h.empty, ?_, ?_⟩ hnil hrest
    · rw [countP_queueInLoop, h.queue]
      rfl
    · rw [sends_queueInLoop]
      exact List.forall_mem_append.mpr ⟨h.messages, by simp [sends]⟩
  · exact append_live h hnil hrest

/-- A message that nothing is waiting for becomes the one thing to wait for. -/
theorem sendInLoop_live (hcfg : cfg.writeCompleteCallback = true) (h : Clear w) (hconnected : w.state = .connected)
    (t : ThreadId) {m : Bytes} (hm : m ≠ []) {r : WriteResult} (hr : Harmless r) :
    Live 1 (w.sendInLoop cfg t m r) := by
  have hdirect : w.state = .connected ∧ w.output.readableBytes = 0 := ⟨hconnected, by simpa using h.empty⟩
  have hlast : ∀ u : World, u.executed = w.executed ++ [(t, m)] → lastMessage u = m := by
    intro u hu
    simp [lastMessage, hu]
  have hnothing : ∀ u : World, u.bufferRemaining cfg [] = u := fun u => if_pos rfl
  unfold World.sendInLoop
  simp only [if_pos hdirect]
  cases r with
  | wrote k =>
    simp only [hcfg, and_true]
    by_cases hk : m.drop k = []
    · rw [if_pos hk, hk, hnothing]
      have hclear : Clear { w with
          executed := w.executed ++ [(t, m)], socket := w.socket ++ [.wrote (m.take k)] } :=
        ⟨h.calm, h.interest, h.empty, h.queue, h.messages⟩
      exact queueInLoop_live (live_of_clear hclear) (f := .writeComplete) (by simp [sends])
    · rw [if_neg hk]
      refine bufferRemaining_live ⟨h.calm, h.interest, h.empty, h.queue, h.messages⟩ hk ?_
      rw [hlast _ rfl]
      exact List.drop_suffix k m
  | failed e =>
    have hkeep : ¬ (e = .brokenPipe ∨ e = .connectionReset) := by
      rintro (rfl | rfl)
      · exact hr.1 rfl
      · exact hr.2 rfl
    simp only [if_neg hkeep]
    refine bufferRemaining_live ⟨h.calm, h.interest, h.empty, h.queue, h.messages⟩ hm ?_
    rw [hlast _ rfl]

theorem sameState_sending : AllowsSending fun w v : World => v.state = w.state where
  refl w := rfl
  trans h g := g.trans h
  fields w output socket issued executed := rfl
  modifyFd w e := by
    unfold World.modifyFd
    cases w.interest <;> rfl
  queueInLoop w f hf := rfl

theorem sendInLoop_holding (hcfg : cfg.writeCompleteCallback = true) (h : Holding 0 w) (t : ThreadId) {m : Bytes}
    (hm : m ≠ []) {r : WriteResult} (hr : Harmless r) : Holding 1 (w.sendInLoop cfg t m r) := by
  intro hconnected
  rw [sameState_sending.sendInLoop cfg w t m r] at hconnected
  exact sendInLoop_live hcfg (clear_of_live (h hconnected)) hconnected t hm hr

theorem send_holding (hcfg : cfg.writeCompleteCallback = true) (h : Holding 0 w) (t : ThreadId) {m : Bytes}
    (hm : m ≠ []) {r : WriteResult} (hr : Harmless r) : Holding 1 (w.send cfg t m r) := by
  have hissued : Holding 0 { w with issued := w.issued ++ [(t, m)] } := h.keep rfl rfl rfl rfl rfl rfl rfl
  unfold World.send
  simp only
  split_ifs with hconnected ht
  · exact sendInLoop_holding hcfg hissued t hm hr
  · exact fun hstate => queueInLoop_live (hissued hstate) (f := .sendInLoop t m) (by simpa [sends] using hm)
  · exact holding_of_closed hconnected

theorem shutdownInLoop_holding (h : Holding n w) : Holding n w.shutdownInLoop := by
  unfold World.shutdownInLoop
  split_ifs
  · exact h.keep rfl rfl rfl rfl rfl rfl rfl
  · exact h

theorem forceCloseInLoop_holding (h : Holding n w) : Holding n (w.forceCloseInLoop cfg) := by
  unfold World.forceCloseInLoop
  split_ifs
  · exact handleClose_holding
  · exact h

theorem connectionDestroyed_holding (h : Holding n w) : Holding n (w.connectionDestroyed cfg) := by
  unfold World.connectionDestroyed
  split_ifs
  · exact handleClose_holding
  · exact h

theorem shutdown_holding (h : Holding n w) (t : ThreadId) : Holding n (w.shutdown cfg t) := by
  unfold World.shutdown
  simp only
  split_ifs
  · exact shutdownInLoop_holding (holding_of_closed (by simp))
  · exact holding_of_closed (by simp [World.queueInLoop])
  · exact h

theorem forceClose_holding (h : Holding n w) (t : ThreadId) : Holding n (w.forceClose cfg t) := by
  unfold World.forceClose
  simp only
  split_ifs
  · exact forceCloseInLoop_holding (holding_of_closed (by simp))
  · exact holding_of_closed (by simp [World.queueInLoop])
  · exact h

/-- A call adds a token if it sends, for which there must be none before. -/
theorem doCall_holding (hcfg : cfg.writeCompleteCallback = true) (h : Holding n w) (t : ThreadId) {c : Call}
    (hc : Proper c) (hone : n + (isSend c).toNat ≤ 1) :
    Holding (n + (isSend c).toNat) (w.doCall cfg t c) := by
  cases c with
  | send m r =>
    obtain rfl : n = 0 := by
      simp only [isSend, Bool.toNat_true] at hone
      omega
    exact send_holding hcfg h t hc.1 hc.2
  | shutdown => exact shutdown_holding h t
  | forceClose => exact forceClose_holding h t
  | retrieve len => exact h.keep rfl rfl rfl rfl rfl rfl rfl

theorem doCalls_holding (hcfg : cfg.writeCompleteCallback = true) {cs : List Call} (h : Holding n w)
    (hcs : ∀ c ∈ cs, Proper c) (hone : n + cs.countP isSend ≤ 1) :
    Holding (n + cs.countP isSend) (w.doCalls cfg cs) := by
  induction cs generalizing n w with
  | nil => exact h
  | cons c cs ih =>
    have hcount : (c :: cs).countP isSend = (isSend c).toNat + cs.countP isSend := by
      rw [List.countP_cons, add_comm]
      cases isSend c <;> rfl
    rw [hcount, ← add_assoc] at hone ⊢
    have hfirst := doCall_holding hcfg h cfg.loopThread (hcs c List.mem_cons_self) (by omega)
    exact hfirst.andThen fun hnext => ih hnext (fun c' hc' => hcs c' (List.mem_cons_of_mem c hc')) hone

theorem handleRead_holding (hcfg : cfg.writeCompleteCallback = true) (h : Holding n w) (r : ReadResult)
    {cs : List Call} (hcs : ∀ c ∈ cs, Proper c) (hnone : cs.countP isSend = 0) (hone : n ≤ 1) :
    Holding n (w.handleRead cfg r cs) := by
  have hinput : Holding n { w with input := w.input.readFd r } := h.keep rfl rfl rfl rfl rfl rfl rfl
  cases r with
  | failed e => exact handleClose_holding
  | received data =>
    cases data with
    | nil => exact handleClose_holding
    | cons b data =>
      have hcalls := doCalls_holding hcfg hinput hcs (by omega)
      rw [hnone] at hcalls
      exact hcalls

/-- The buffer has been emptied: its token becomes the notice. -/
theorem outputDrained_holding (hcfg : cfg.writeCompleteCallback = true) (hconnected : w.state = .connected)
    (hcalm : w.thrown = none) (hinterest : w.interest.isSome) (hempty : w.output.readable = [])
    (hqueue : (w.batch ++ w.pending).countP isToken + 1 = n)
    (hmessages : ∀ x ∈ sends (w.batch ++ w.pending), x.2 ≠ []) : Holding n (w.outputDrained cfg) := by
  obtain ⟨e, he⟩ := Option.isSome_iff_exists.mp hinterest
  have hlive : Live ((w.batch ++ w.pending).countP isToken) { w with interest := some { read := true } } := by
    refine ⟨hcalm, ⟨_, rfl, by simp [hempty]⟩, ?_, ?_, hmessages⟩
    · rw [tokens, if_pos hempty]
      rfl
    · rw [hempty]
      exact List.nil_suffix
  have hnotice := queueInLoop_live hlive (f := .writeComplete) (by simp [sends])
  have hdrained : w.outputDrained cfg = { w with interest := some { read := true } }.queueInLoop .writeComplete := by
    simp [World.outputDrained, World.modifyFd, he, World.andThen, hcalm, hcfg, hconnected, World.queueInLoop]
  rw [hdrained, ← hqueue]
  exact fun _ => hnotice

theorem handleWrite_holding (hcfg : cfg.writeCompleteCallback = true) (h : Holding n w) (r : WriteResult) :
    Holding n (w.handleWrite cfg r) := by
  unfold World.handleWrite
  split_ifs with hconnected
  · obtain ⟨hcalm, ⟨e, he, hwrite⟩, htokens, hlast, hmessages⟩ := h hconnected
    cases r with
    | failed e => exact h
    | wrote k =>
      simp only
      split_ifs with hdata hempty
      · exact h
      · have hfull : w.output.readable ≠ [] := fun hnil => hdata (by simp [hnil])
        rw [tokens, if_neg hfull] at htokens
        exact outputDrained_holding hcfg hconnected hcalm (Option.isSome_of_mem he) (by simpa using hempty)
          htokens hmessages
      · have hfull : w.output.readable ≠ [] := fun hnil => hdata (by simp [hnil])
        have hrest : (w.output.writeFd (.wrote (w.output.readable.take k).length)).readable ≠ [] := by
          simpa using hempty
        refine fun _ => ⟨hcalm, ⟨e, he, iff_of_true (hwrite.mpr hfull) hrest⟩, ?_, ?_, hmessages⟩
        · rw [tokens, if_neg hfull] at htokens
          rw [tokens, if_neg hrest]
          exact htokens
        · rw [ByteBuffer.writeFd, ByteBuffer.readable_retrieve]
          exact (List.drop_suffix _ _).trans hlast
  · exact h

theorem dispatch_holding (hcfg : cfg.writeCompleteCallback = true) (h : Holding n w) (e : Events) (r : ReadResult)
    {cs : List Call} (hcs : cs.countP isSend = 0) (r' : WriteResult) (hone : n ≤ 1) :
    Holding n (w.dispatch cfg e r cs r') := by
  have hproper : ∀ c ∈ cs, Proper c := fun c hc =>
    proper_of_silent (by simpa using List.countP_eq_zero.mp hcs c hc)
  have hread : Holding n (if e.read then w.handleRead cfg r cs else w) := by
    split_ifs
    · exact handleRead_holding hcfg h r hproper hcs hone
    · exact h
  have hwrite : ∀ {v}, Holding n v → Holding n (if e.write then World.handleWrite cfg r' v else v) := by
    intro v hv
    split_ifs
    · exact handleWrite_holding hcfg hv r'
    · exact hv
  have herror : ∀ {v}, Holding n v → Holding n (if e.error then World.handleError cfg v else v) := by
    intro v hv
    split_ifs
    · exact handleClose_holding
    · exact hv
  exact (hread.andThen hwrite).andThen herror

/-- A functor that is a token is used up, and what it does or has done makes the next one. -/
theorem runFunctor_holding (hcfg : cfg.writeCompleteCallback = true) {f : Functor} {fs : List Functor}
    (hbatch : w.batch = f :: fs) (h : Holding 1 w) {r : WriteResult} {cs : List Call}
    (hpaced : Paced w (.runFunctor r cs)) : Holding 1 ({ w with batch := fs }.runFunctor cfg r cs f) := by
  obtain ⟨hr, hcs, hsends⟩ := hpaced
  have hqueue : (w.batch ++ w.pending).countP isToken = (isToken f).toNat + (fs ++ w.pending).countP isToken := by
    rw [hbatch, List.cons_append, List.countP_cons, add_comm]
    cases isToken f <;> rfl
  have hrest : Holding (1 - (isToken f).toNat) { w with batch := fs } := by
    intro hconnected
    obtain ⟨hcalm, hregistered, htokens, hlast, hmessages⟩ := h hconnected
    refine ⟨hcalm, hregistered, ?_, hlast, fun x hx => hmessages x ?_⟩
    · rw [tokens, hqueue] at htokens
      rw [tokens]
      simp only at htokens ⊢
      omega
    · rw [hbatch, List.cons_append, ← List.singleton_append, sends_append]
      exact List.mem_append_right _ hx
  rw [hbatch, List.head?_cons] at hsends
  cases f with
  | sendInLoop t m =>
    intro hconnected
    have hsame := sameState_sending.sendInLoop cfg { w with batch := fs } t m r
    have hmessages := (h (hsame.symm.trans hconnected)).messages
    have hm : m ≠ [] := hmessages (t, m) (by simp [hbatch, sends])
    exact sendInLoop_holding hcfg hrest t hm hr hconnected
  | shutdownInLoop => exact shutdownInLoop_holding hrest
  | forceCloseInLoop => exact forceCloseInLoop_holding hrest
  | writeComplete =>
    have hcalls := doCalls_holding hcfg hrest hcs (by rw [hsends]; rfl)
    rw [hsends] at hcalls
    exact hcalls
  | highWaterMark size =>
    have hcalls := doCalls_holding hcfg hrest hcs (by rw [hsends]; rfl)
    rw [hsends] at hcalls
    exact hcalls
  | connectionDestroyed => exact connectionDestroyed_holding hrest

theorem step_holding (hcfg : cfg.writeCompleteCallback = true) {a : Act} (h : Holding 1 w) (hpaced : Paced w a)
    (hstep : step cfg w a = some v) : Holding 1 v := by
  cases (step_move hstep).2 with
  | call t c =>
    have hsilent : isSend c = false := hpaced
    have hnone : (isSend c).toNat = 0 := by rw [hsilent, Bool.toNat_false]
    have hcall := doCall_holding hcfg h t (proper_of_silent hsilent) (by omega)
    rw [hnone] at hcall
    exact hcall
  | swapFunctors hbatch => exact h.keep rfl rfl rfl rfl rfl (by simp [hbatch]) (by simp [hbatch])
  | runFunctor r cs f fs hbatch => exact runFunctor_holding hcfg hbatch h hpaced
  | dispatch e r cs r' => exact dispatch_holding hcfg h e r hpaced.2 r' le_rfl
  | connectionDestroyed => exact connectionDestroyed_holding h
  | removeInLoop =>
    have hbooks : Holding 1 { w with
        removals := w.removals - 1, entries := 0, erasures := w.erasures ++ [w.entries] } :=
      h.keep rfl rfl rfl rfl rfl rfl rfl
    exact fun hstate => queueInLoop_live (hbooks hstate) (f := .connectionDestroyed) (by simp [sends])

theorem stepAny_holding (hcfg : cfg.writeCompleteCallback = true) {a : Act} (h : Holding 1 w) (hpaced : Paced w a)
    (hstep : stepAny cfg w a = some v) : Holding 1 v := by
  rcases stepAny_cases hstep with hplain | ⟨e, r, cs, r', rfl, -, -, rfl⟩
  · exact step_holding hcfg h hpaced hplain
  · exact dispatch_holding hcfg h e r hpaced.2 r' le_rfl

theorem harmless_of_proper {c : Call} (h : Proper c) : HarmlessCall c := by
  cases c with
  | send m r => exact h.2
  | _ => trivial

theorem harmless_of_paced {a : Act} (h : Paced w a) : HarmlessAct a := by
  cases a with
  | call t c => exact harmless_of_proper (proper_of_silent h)
  | runFunctor r cs => exact ⟨h.1, fun c hc => harmless_of_proper (h.2.1 c hc)⟩
  | dispatch e r cs r' =>
    refine ⟨h.1, fun c hc => harmless_of_proper (proper_of_silent ?_)⟩
    simpa using List.countP_eq_zero.mp h.2 c hc
  | _ => trivial

theorem established_clear (initial : ℕ) : Clear (established initial) := by
  refine ⟨?_, ⟨{ read := true }, ?_, rfl⟩, ?_, ?_, ?_⟩ <;>
    simp [established, World.connectionEstablished, World.addFd, sends]

/-- A sender paced by the write-complete callback never stalls and never runs ahead. In every
run in which it sends once, on any thread, and then once in each call of the callback, and as
long as the connection is CONNECTED, exactly one thing is in flight: its queued message, the rest
of it in the output buffer, for which the poller is asked to write, or the notice. So the buffer
never holds more than a part of the last message, and with a notice everything is on the socket. -/
theorem paced_sender (cfg : Config) (hcfg : cfg.writeCompleteCallback = true) (initial : ℕ) (t : ThreadId)
    (m : Bytes) (hm : m ≠ []) (r : WriteResult) (hr : Harmless r) (acts : List Act) (w : World)
    (hpaced : Guarded (stepAny cfg) Paced ((established initial).send cfg t m r) acts)
    (hrun : run (stepAny cfg) (established initial) (.call t (.send m r) :: acts) = some w)
    (hconnected : w.state = .connected) :
    w.thrown = none ∧ tokens w = 1 ∧ (∃ e ∈ w.interest, e.write = true ↔ w.output.readable ≠ []) ∧
      w.output.readable <:+ lastMessage w ∧
      (.writeComplete ∈ w.batch ++ w.pending → wire w.socket = (w.executed.map Prod.snd).flatten) := by
  obtain ⟨w₁, hsend, hrest⟩ := run_cons.mp hrun
  obtain rfl : (established initial).send cfg t m r = w₁ := by
    have hcalm : ¬ (established initial).thrown.isSome := by
      simp [(established_clear initial).calm]
    have hplain : step cfg (established initial) (.call t (.send m r)) = some w₁ := hsend
    rw [step, if_neg hcalm] at hplain
    exact Option.some.inj hplain
  have hstep : ∀ w a v, (Holding 1 w ∧ InStep cfg.loopThread (traffic w)) → Paced w a →
      stepAny cfg w a = some v → Holding 1 v ∧ InStep cfg.loopThread (traffic v) := by
    rintro w a v ⟨hholding, hin⟩ ha hv
    exact ⟨stepAny_holding hcfg hholding ha hv, stepAny_inStep hin (harmless_of_paced ha) hv⟩
  have hfirst : Holding 1 ((established initial).send cfg t m r) :=
    send_holding hcfg (fun _ => live_of_clear (established_clear initial)) t hm hr
  obtain ⟨hholding, hin⟩ := run_invariant hstep
    ⟨hfirst, send_inStep (established_inStep initial) t m hr⟩ hpaced hrest
  obtain ⟨hcalm, hregistered, htokens, hlast, -⟩ := hholding hconnected
  refine ⟨hcalm, htokens, hregistered, hlast, fun hnotice => ?_⟩
  have hpos : 0 < (w.batch ++ w.pending).countP isToken := List.countP_pos_iff.mpr ⟨_, hnotice, rfl⟩
  have hempty : w.output.readable = [] := by
    by_contra hne
    rw [tokens, if_neg hne] at htokens
    omega
  have hstream : wire w.socket ++ w.output.readable = (w.executed.map Prod.snd).flatten := hin.stream
  rw [hempty, List.append_nil] at hstream
  exact hstream

/-- The first message is sent by another thread and goes out in two parts; the callback sends the
second one, of which a byte is left. -/
theorem paced_sender_parts :
    let cfg : Config := { writeCompleteCallback := true }
    let acts : List Act := [.swapFunctors, .runFunctor (.wrote 1) [],
      .dispatch { write := true } (.received []) [] (.wrote 2), .swapFunctors,
      .runFunctor (.wrote 0) [.retrieve 0, .send [4, 5] (.wrote 1)]]
    ∃ w, run (stepAny cfg) (established 4) (.call 1 (.send [1, 2, 3] (.wrote 0)) :: acts) = some w ∧
      tokens w = 1 ∧ w.output.readable = [5] ∧ w.output.readable <:+ lastMessage w := by
  intro cfg acts
  have hruns : (run (stepAny cfg) (established 4) (.call 1 (.send [1, 2, 3] (.wrote 0)) :: acts)).map
      (fun w => (w.state, w.output.readable)) = some (.connected, [5]) := by
    decide
  obtain ⟨w, hw, hstate⟩ := Option.map_eq_some_iff.mp hruns
  obtain ⟨hconnected, hreadable⟩ := Prod.mk.inj hstate
  have hpaced : Guarded (stepAny cfg) Paced ((established 4).send cfg 1 [1, 2, 3] (.wrote 0)) acts := by decide
  obtain ⟨-, htokens, -, hlast, -⟩ := paced_sender cfg rfl 4 1 [1, 2, 3] (by decide) (.wrote 0)
    (by simp [Harmless]) acts w hpaced hw hconnected
  exact ⟨w, hw, htokens, hreadable, hlast⟩

end TzzeroHttp.ConnectionPacing
