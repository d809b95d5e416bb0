import Mathlib.Data.List.Basic
import Caimr.Net.MessageOrder

/-! What `shutdown` cuts off. The half-close comes when `shutdown_in_loop` finds no write
interest. It waits for what is buffered, but not for what is queued or about to be
queued, so that a message whose `send` is over may never be accepted. -/
namespace Caimr.Net.Sys
open Transition

/-- The act ends in `shutdown_write`. -/
def HalfCloses (s : Sys) : Act → Prop
  | .runShutdown t => t = s.loop.threadId ∧ s.conn.ch.isWriting = false
  | .call .shutdownInLoop _ => s.conn.ch.isWriting = false
  | .finishWrite => s.conn.state = .disconnenting ∧ s.conn.ch.isWriting = false
  | _ => False

/-- Every message that was sent has been handed over, and written. -/
structure NothingLeft (s : Sys) : Prop where
  queued : s.waiting = []
  inHand : ∀ t, inHand (s.callers t) = []
  buffered : s.conn.outputBuf.readable = []

/-- The run half-closes the connection only when nothing is left to write, and no message
has come after the peer closed the connection. -/
def Orderly (tid : Tid) (c : TcpConn) (tr : List Act) : Prop :=
  ∀ a l b u, tr = a ++ l :: b → exec step (create tid c) a = some u → HalfCloses u l →
    u.NothingLeft ∧ Along step Delivers (create tid c) a

/-- Every `send` that was over when `shutdown` was called is accepted by the kernel whole,
in its place, before the write side is shut down; and nothing is written afterwards. The
bytes accepted by then are those of one list of messages, in which all these sends stand. -/
def Graceful (tid : Tid) (tr : List Act) (log : List Effect) : Prop :=
  ∀ front back, log = front ++ .shutdownWrite :: back →
    (∃ done, accepted front = flat done ∧ (∀ t, ofThread t done <+: sentBy t tr) ∧
      ∀ a t data w b u d, tr = a ++ .send t data w :: b ++ .shutdown u :: d →
        (t = tid ∨ Act.eloop (.endQueue t) ∈ b) → sentBy t a ++ [data] <+: ofThread t done) ∧
    ∀ e ∈ back, e.isWrite = false

/-! ### The way to a half-close -/

theorem shutdownInLoop_of {c : TcpConn} (h : c.ch.isWriting = false) : c.shutdownInLoop = [.shutdownWrite] := by
  rw [TcpConn.shutdownInLoop_eq, h]
  rfl

/-- A step half-closes the connection and does nothing else to the socket, or it does not. -/
theorem step_effects {s s' : Sys} {a : Act} (h : step s a = some s') :
    (HalfCloses s a ∧ s'.log = s.log ++ [.shutdownWrite]) ∨
      ∃ es, s'.log = s.log ++ es ∧ Effect.shutdownWrite ∉ es := by
  have hquiet : ∀ es : List Effect, (∀ e ∈ es, e.onSocket = false) → Effect.shutdownWrite ∉ es :=
    fun es hq he => by cases hq _ he
  have hshut : (s.conn.ch.isWriting = false → HalfCloses s a) → s'.log = s.log ++ s.conn.shutdownInLoop →
      (HalfCloses s a ∧ s'.log = s.log ++ [.shutdownWrite]) ∨
        ∃ es, s'.log = s.log ++ es ∧ Effect.shutdownWrite ∉ es := by
    intro hc hlog
    cases hw : s.conn.ch.isWriting with
    | false => exact .inl ⟨hc hw, by rw [hlog, shutdownInLoop_of hw]⟩
    | true =>
      refine .inr ⟨[], ?_, List.not_mem_nil⟩
      rw [hlog, TcpConn.shutdownInLoop_eq, if_pos hw]
  cases step_cases h with
  | establish => exact .inr ⟨_, rfl, hquiet _ (TcpConn.establishConn_quiet _)⟩
  | handleClose => exact .inr ⟨_, rfl, hquiet _ (TcpConn.handleClose_quiet _)⟩
  | handleRead r c es hr => exact .inr ⟨_, rfl, hquiet _ (TcpConn.handleRead_ok hr).2.1⟩
  | sendOwn data w c es _ _ hsend => exact .inr ⟨_, rfl, TcpConn.sendInLoop_silent hsend⟩
  | callSend m w l c es _ hsend => exact .inr ⟨_, rfl, TcpConn.sendInLoop_silent hsend⟩
  | handleWrite w c es drained hflush => exact .inr ⟨_, rfl, TcpConn.flush_silent hflush⟩
  | shutdownOwn hc => exact hshut (fun hw => ⟨rfl, hw⟩) rfl
  | callShutdown w l hl => exact hshut (fun hw => hw) rfl
  | finishWrite rest ha =>
    by_cases hst : s.conn.state = .disconnenting
    · have hlog : s.conn.finishWrite true = s.conn.shutdownInLoop := if_pos ⟨rfl, hst⟩
      exact hshut (fun hw => ⟨hst, hw⟩) (by rw [hlog])
    · have hlog : s.conn.finishWrite true = [] := if_neg fun hc => hst hc.2
      exact .inr ⟨[], by rw [hlog], List.not_mem_nil⟩
  | _ => exact .inr ⟨[], (List.append_nil _).symm, List.not_mem_nil⟩

/-- A `shutdown` on its way has set `state_`, and so has one that is queued. -/
structure ClosingInv (s : Sys) : Prop where
  closed : ∀ t, s.callers t = .closed → s.Past
  queued : .shutdownInLoop ∈ s.tasks → s.Past

/-- A functor is queued by a step or it was there. -/
theorem eloop_tasks {s : Sys} {l : Eloop Task} {b : Eloop.Label Task} {f : Task} (h : s.loop.step b = some l)
    (hf : f ∈ l.pc.batch ++ l.pendingFunctors) : f ∈ s.tasks ∨ f ∈ Eloop.queued [b] := by
  have hmem := List.mem_append_right (Eloop.executed [b]) hf
  rw [Eloop.step_conserves h] at hmem
  exact List.mem_append.mp hmem

theorem update_closed {callers : Tid → CallerPc} {t u : Tid} {p : CallerPc} (hp : p ≠ .closed)
    (h : Function.update callers t p u = .closed) : callers u = .closed := by
  rw [Function.update_apply] at h
  split at h
  · exact absurd h hp
  · exact h

theorem step_closing {s s' : Sys} {a : Act} (inv : ClosingInv s) (h : step s a = some s') : ClosingInv s' := by
  -- Once the state is set it stays set; so only what is new has to be looked at.
  have hpast := step_past h
  have hold : ∀ {l : Eloop Task} {b : Eloop.Label Task}, s.loop.step b = some l →
      .shutdownInLoop ∉ Eloop.queued [b] → .shutdownInLoop ∈ l.pc.batch ++ l.pendingFunctors → s'.Past := by
    intro l b hl hb hm
    rcases eloop_tasks hl hm with hm | hm
    · exact hpast (inv.queued hm)
    · exact absurd hm hb
  have hclosed : ∀ t, s.callers t = .closed → s'.Past := fun t ht => hpast (inv.closed t ht)
  have hqueued : .shutdownInLoop ∈ s.tasks → s'.Past := fun hm => hpast (inv.queued hm)
  cases step_cases h with
  | establish | sendOwn | handleRead | handleWrite | handleClose | finishWrite => exact ⟨hclosed, hqueued⟩
  | eloop b l hallow hl =>
    refine ⟨hclosed, hold hl ?_⟩
    cases b with
    | emplace t f => cases f <;> first | exact hallow.elim | exact fun hm => by cases List.mem_singleton.mp hm
    | _ => exact List.not_mem_nil
  | sendOther t data w _ _ _ =>
    have hne : CallerPc.sending data ≠ .closed := nofun
    exact ⟨fun u hu => hclosed u (update_closed hne hu), hqueued⟩
  | shutdown t _ _ => exact ⟨fun u hu => hclosed u (update_closed (by decide) hu), hqueued⟩
  | setState t _ => exact ⟨fun _ _ => .inl rfl, fun _ => .inl rfl⟩
  | shutdownOwn hc => exact ⟨fun u hu => hclosed u (update_closed (by decide) hu), hqueued⟩
  | queueSend t data l _ hl =>
    exact ⟨fun u hu => hclosed u (update_closed (by decide) hu),
      hold hl fun hm => by cases List.mem_singleton.mp hm⟩
  | shutdownOther t l hc hl => exact ⟨fun _ _ => hclosed t hc, fun _ => hclosed t hc⟩
  | callSend m w l c es hl _ => exact ⟨hclosed, hold hl List.not_mem_nil⟩
  | callShutdown w l hl => exact ⟨hclosed, hold hl List.not_mem_nil⟩
  | callOther f w l _ _ hl => exact ⟨hclosed, hold hl List.not_mem_nil⟩
  | queue i f rest l ha hf hl =>
    refine ⟨hclosed, hold hl fun hm => ?_⟩
    obtain rfl : .shutdownInLoop = f := List.mem_singleton.mp hm
    cases i <;> cases hf

theorem create_closing (tid : Tid) (c : TcpConn) : ClosingInv (create tid c) where
  closed t ht := by cases ht
  queued hm := by cases hm

theorem run_closing {tid : Tid} {c : TcpConn} {tr : List Act} {s : Sys}
    (h : exec step (create tid c) tr = some s) : ClosingInv s :=
  exec_preserves (fun _ _ _ => step_closing) (create_closing tid c) h

/-- A half-close comes after `shutdown` has set `state_`. -/
theorem halfCloses_past {s s' : Sys} {a : Act} (inv : ClosingInv s) (h : step s a = some s')
    (hc : HalfCloses s a) : s.Past := by
  cases step_cases h with
  | shutdownOwn hclosed => exact inv.closed _ hclosed
  | callShutdown w l hl =>
    apply inv.queued
    have hcons := Eloop.step_conserves hl
    rw [Eloop.queued, List.filterMap_cons_none rfl, List.filterMap_nil, List.append_nil] at hcons
    rw [tasks, ← hcons]
    exact List.mem_cons_self
  | shutdownOther t l hclosed => exact inv.closed t hclosed
  | finishWrite => exact .inl hc.1
  | callOther f w l _ hf hl =>
    cases f <;> first | exact absurd rfl hf | exact hc.elim
  | _ => exact hc.elim

/-! ### After a half-close -/

/-- Nothing is left to be written, and nothing more can come. -/
structure Closed (s : Sys) : Prop where
  past : s.Past
  queued : s.waiting = []
  inHand : ∀ t, Sys.inHand (s.callers t) = []
  quiet : s.conn.ch.isWriting = false

theorem Closed.no_send {s s' : Sys} {a : Act} (hc : Closed s) (h : step s a = some s') (t : Tid) :
    a.sent t = none := by
  have hnot : s.conn.state ≠ .connected := by
    intro hst
    rcases hc.past with hp | hp <;> rw [hst] at hp <;> cases hp
  cases step_cases h with
  | sendOwn data w c es _ hst => exact absurd hst hnot
  | sendOther u data w _ hst => exact absurd hst hnot
  | _ => rfl

/-- A closed connection stays closed, and writes nothing. -/
theorem step_closed {s s' : Sys} {a : Act} (hc : Closed s) (h : step s a = some s') :
    Closed s' ∧ ∃ es, s'.log = s.log ++ es ∧ ∀ e ∈ es, e.isWrite = false := by
  have hpast := step_past h hc.past
  have hstay : s'.waiting = [] ∧ ∀ t, Sys.inHand (s'.callers t) = [] := by
    cases step_moves h with
    | stay _ _ hw hh => exact ⟨hw.trans hc.queued, fun t => (hh t).trans (hc.inHand t)⟩
    | sendOwn data w ha =>
      have := hc.no_send h s.loop.threadId
      rw [ha, Act.sent, if_pos rfl] at this
      cases this
    | sendOther t data w ha =>
      have := hc.no_send h t
      rw [ha, Act.sent, if_pos rfl] at this
      cases this
    | queue t data _ hsending =>
      have := hc.inHand t
      rw [hsending] at this
      cases this
    | call m w _ hw =>
      rw [hc.queued] at hw
      cases hw
  have hquiet : ∀ es : List Effect, (∀ e ∈ es, e.onSocket = false) → ∀ e ∈ es, e.isWrite = false := by
    intro es hq e he
    have := hq e he
    cases e <;> first | rfl | cases this
  have hshut : ∀ c : TcpConn, ∀ e ∈ c.shutdownInLoop, e.isWrite = false := by
    intro c e he
    rw [TcpConn.shutdownInLoop_eq] at he
    split at he
    · cases he
    · rw [List.mem_singleton.mp he]
      rfl
  cases step_cases h with
  | establish hst => rcases hc.past with hp | hp <;> rw [hst] at hp <;> cases hp
  | sendOwn data w c es _ hst => rcases hc.past with hp | hp <;> rw [hst] at hp <;> cases hp
  | callSend m w l c es hl =>
    have hmsgs := eloop_messages hl
    rw [hc.queued] at hmsgs
    cases hmsgs
  | handleRead r c es hr =>
    obtain ⟨-, hes, hch⟩ := TcpConn.handleRead_ok hr
    refine ⟨⟨hpast, hstay.1, hstay.2, ?_⟩, es, rfl, hquiet es hes⟩
    rcases hch with ⟨-, hch⟩ | ⟨-, hch⟩
    · show c.ch.isWriting = false
      rw [hch]
      exact hc.quiet
    · exact hch
  | handleWrite w c es drained hflush =>
    rw [TcpConn.flush_idle w hc.quiet] at hflush
    cases hflush
    exact ⟨⟨hpast, hstay.1, hstay.2, hc.quiet⟩, [], rfl, List.forall_mem_nil _⟩
  | handleClose =>
    exact ⟨⟨hpast, hstay.1, hstay.2, Chan.disableAll_isWriting _⟩, _, rfl,
      hquiet _ (TcpConn.handleClose_quiet _)⟩
  | shutdownOwn | callShutdown => exact ⟨⟨hpast, hstay.1, hstay.2, hc.quiet⟩, _, rfl, hshut _⟩
  | finishWrite rest ha =>
    refine ⟨⟨hpast, hstay.1, hstay.2, hc.quiet⟩, _, rfl, ?_⟩
    unfold TcpConn.finishWrite
    split
    · exact hshut _
    · exact List.forall_mem_nil _
  | _ => exact ⟨⟨hpast, hstay.1, hstay.2, hc.quiet⟩, [], (List.append_nil _).symm, List.forall_mem_nil _⟩

/-! ### Orderly runs -/

theorem Orderly.of_append {tid : Tid} {c : TcpConn} {a b : List Act} (h : Orderly tid c (a ++ b)) :
    Orderly tid c a := by
  intro p l q u he hu hc
  exact h p l (q ++ b) u (by simp [he]) hu hc

theorem HalfCloses.no_send {s : Sys} {a : Act} (h : HalfCloses s a) (t : Tid) : a.sent t = none := by
  cases a with
  | send => exact h.elim
  | _ => rfl

/-- A half-close that leaves nothing behind closes the connection. -/
theorem halfCloses_closed {s s' : Sys} {a : Act} (inv : ClosingInv s) (h : step s a = some s')
    (hc : HalfCloses s a) (hn : NothingLeft s) : Closed s' := by
  have hpast := step_past h (halfCloses_past inv h hc)
  have hstay : s'.waiting = [] ∧ ∀ t, Sys.inHand (s'.callers t) = [] := by
    cases step_moves h with
    | stay _ _ hw hh => exact ⟨hw.trans hn.queued, fun t => (hh t).trans (hn.inHand t)⟩
    | sendOwn _ _ ha | sendOther _ _ _ ha | queue _ _ ha | call _ _ ha =>
      subst ha
      exact hc.elim
  have hquiet : s'.conn.ch.isWriting = false := by
    cases step_cases h with
    | shutdownOwn => exact hc.2
    | shutdownOther => exact hc.2
    | callShutdown => exact hc
    | finishWrite => exact hc.2
    | callOther f w l _ hf => cases f <;> first | exact absurd rfl hf | exact hc.elim
    | _ => exact hc.elim
  exact ⟨hpast, hstay.1, hstay.2, hquiet⟩

/-- What an orderly run leaves behind at a half-close. -/
structure Settled (tr : List Act) (front back : List Effect) : Prop where
  stream : ∃ done, accepted front = flat done ∧ ∀ t, ofThread t done = sentBy t tr
  silent : ∀ e ∈ back, e.isWrite = false

/-- At a half-close that leaves nothing behind, all that was sent is accepted. -/
theorem accounted_settled {me : Tid} {tr : List Act} {s : Sys} (inv : Accounted me tr s) (hn : NothingLeft s) :
    Settled tr s.log [] := by
  obtain ⟨done, hbytes, hsent⟩ := inv.stream
  refine ⟨⟨done, ?_, fun t => ?_⟩, nofun⟩
  · rw [← hbytes, bytes, hn.buffered, List.append_nil]
  · have ht := hsent t
    rwa [unsent, hn.queued, hn.inHand t, ofThread_nil, List.append_nil, List.append_nil] at ht

theorem Settled.step {tr : List Act} {a : Act} {front back es : List Effect} (h : Settled tr front back)
    (ha : ∀ t, a.sent t = none) (hes : ∀ e ∈ es, e.isWrite = false) : Settled (tr ++ [a]) front (back ++ es) := by
  obtain ⟨done, hbytes, hsent⟩ := h.stream
  refine ⟨⟨done, hbytes, fun t => ?_⟩, fun e he => ?_⟩
  · rw [hsent t, sentBy_append, sentBy, sentBy, List.filterMap_cons_none (ha t), List.filterMap_nil,
      List.append_nil]
  · rcases List.mem_append.mp he with he | he
    · exact h.silent e he
    · exact hes e he

/-- In an orderly run every half-close leaves nothing behind, and nothing follows. -/
theorem run_settled {tid : Tid} {c : TcpConn} {loop id mark : Nat} {cb : Callbacks}
    (hc : TcpConn.create loop id cb mark = .ok c) {tr : List Act} {s : Sys}
    (h : exec step (create tid c) tr = some s) (hf : NoFault s.log) (hr : Orderly tid c tr)
    {front back : List Effect} (hlog : s.log = front ++ .shutdownWrite :: back) :
    Closed s ∧ Settled tr front back := by
  refine run_induction (fun tr s => NoFault s.log → Orderly tid c tr →
    ∀ front back, s.log = front ++ .shutdownWrite :: back → Closed s ∧ Settled tr front back)
    (fun _ _ front back hlog => ?_) ?_ h hf hr front back hlog
  · exact absurd hlog.symm (by simp [create])
  intro tr s a s' hs ih ha hf hr front back hlog
  obtain ⟨es, hes⟩ := step_log ha
  have hf' : NoFault s.log := (hes ▸ hf).of_append.1
  -- A half-close that was there before: the step adds no write.
  have hbefore : ∀ back', s.log = front ++ .shutdownWrite :: back' → s'.log = front ++ .shutdownWrite :: back →
      Closed s' ∧ Settled (tr ++ [a]) front back := by
    intro back' hlog' hlog
    obtain ⟨hclosed, hset⟩ := ih hf' hr.of_append front back' hlog'
    obtain ⟨hclosed', es, hes, hquiet⟩ := step_closed hclosed ha
    rw [hes, hlog', List.append_assoc] at hlog
    cases List.append_cancel_left hlog
    exact ⟨hclosed', hset.step (hclosed.no_send ha) hquiet⟩
  rcases step_effects ha with ⟨hhalf, hlog'⟩ | ⟨es, hlog', hno⟩
  · have hlog'' := hlog
    rw [hlog'] at hlog''
    rcases append_eq_append_cons hlog'' with ⟨q, hq, hfront⟩ | ⟨back', hlog₀, -⟩
    · obtain ⟨hn, hd⟩ := hr tr a [] s rfl hs hhalf
      have hnil : q = [] ∧ back = [] := by
        cases q with
        | nil =>
          cases hq
          exact ⟨rfl, rfl⟩
        | cons x q =>
          injection hq with _ hq
          exact absurd hq.symm (by simp)
      rw [hnil.1, List.append_nil] at hfront
      rw [hnil.2, hfront]
      have hset := accounted_settled (run_accounted hc hs hf' hd) hn
      have hnone : ∀ e ∈ ([] : List Effect), e.isWrite = false := nofun
      exact ⟨halfCloses_closed (run_closing hs) ha hhalf hn, hset.step hhalf.no_send hnone⟩
    · exact hbefore back' hlog₀ hlog
  · have hlog'' := hlog
    rw [hlog'] at hlog''
    rcases append_eq_append_cons hlog'' with ⟨q, hq, -⟩ | ⟨back', hlog₀, -⟩
    · exact absurd (hq ▸ List.mem_append_right _ List.mem_cons_self) hno
    · exact hbefore back' hlog₀ hlog

/-- **A shutdown is graceful** in every run that half-closes the connection only when
nothing is left to write: what was sent before is accepted whole, and nothing is written
afterwards. -/
theorem shutdown_graceful_of_orderly {tid : Tid} {c : TcpConn} {loop id mark : Nat} {cb : Callbacks}
    (hc : TcpConn.create loop id cb mark = .ok c) {tr : List Act} {s : Sys}
    (h : exec step (create tid c) tr = some s) (hf : NoFault s.log) (hr : Orderly tid c tr) :
    Graceful tid tr s.log := by
  intro front back hlog
  obtain ⟨-, hset⟩ := run_settled hc h hf hr hlog
  obtain ⟨done, hbytes, hsent⟩ := hset.stream
  refine ⟨⟨done, hbytes, fun t => hsent t ▸ List.prefix_rfl, ?_⟩, hset.silent⟩
  rintro a t data w b u d rfl -
  rw [hsent t, List.append_assoc, sentBy_append]
  refine (List.prefix_append_right_inj _).mpr ⟨sentBy t (b ++ .shutdown u :: d), ?_⟩
  have hone : (Act.send t data w).sent t = some data := if_pos rfl
  exact (List.filterMap_cons_some hone).symm

/-- Another thread's message is written by its functor, and then the loop's thread calls
`shutdown`, up to its half-close. -/
def writtenThenShut : List Act :=
  [.establish, .send 1 [1, 2] (.accepts 0), .queueSend 1 [1, 2], .eloop (.testWakeup 1), .eloop (.wakeup 1),
    .eloop (.endQueue 1), .eloop .storeLooping, .eloop .clearQuit, .eloop .loadQuit, .eloop (.pollReturns true),
    .eloop .handleRead, .eloop .endEvents, .eloop .storeCalling, .eloop .swap,
    .call (.sendInLoop ⟨1, [1, 2]⟩) (.accepts 2), .queue, .eloop (.testWakeup 0), .eloop (.wakeup 0),
    .eloop (.endQueue 0), .shutdown 0, .setState 0]

theorem shutdown_graceful_of_orderly_written : ∃ c s,
    TcpConn.create 0 1 ⟨true, true, true, true, true⟩ 64 = .ok c ∧
      exec step (create 0 c) (writtenThenShut ++ [.runShutdown 0]) = some s ∧ accepted s.log = [1, 2] ∧
      s.log.getLast? = some .shutdownWrite ∧ Graceful 0 (writtenThenShut ++ [.runShutdown 0]) s.log := by
  refine ⟨_, _, rfl, (Option.some_get (by decide +kernel)).symm, by decide +kernel, by decide +kernel, ?_⟩
  apply shutdown_graceful_of_orderly rfl (Option.some_get (by decide +kernel)).symm (by decide +kernel)
  intro a l b u he hu hhalf
  have hl : l ∈ writtenThenShut ++ [.runShutdown 0] := by
    rw [he]
    exact List.mem_append_right _ List.mem_cons_self
  obtain rfl : l = .runShutdown 0 := by
    cases l with
    | runShutdown t => simpa [writtenThenShut] using hl
    | call f w =>
      cases f <;> first | exact hhalf.elim | simp [writtenThenShut] at hl
    | finishWrite => simp [writtenThenShut] at hl
    | _ => exact hhalf.elim
  obtain ⟨rfl, -, -⟩ := (List.append_cons_inj_of_notMem (by decide) (by decide)).mp he
  refine (and_iff_right_of_imp fun hd => ?_).mpr (by decide +kernel)
  have hread {o : Option Sys} (ho : o = some u)
      (hall : o.all (fun v => v.waiting = [] ∧ v.conn.outputBuf.readable = [] ∧ v.callers 1 = .idle ∧
        NoFault v.log) = true) :
      u.waiting = [] ∧ u.conn.outputBuf.readable = [] ∧ u.callers 1 = .idle ∧ NoFault u.log := by
    rw [ho] at hall
    exact of_decide_eq_true hall
  obtain ⟨hw, hb, hidle, hf⟩ := hread hu (by decide +kernel)
  refine ⟨hw, fun t => ?_, hb⟩
  by_cases ht : t = 1
  · rw [ht, hidle]
    rfl
  · -- Only the first thread has sent anything.
    obtain ⟨done, -, hsent⟩ := (run_accounted rfl hu hf hd).stream
    have hnone : sentBy t writtenThenShut = [] := by simp [sentBy, writtenThenShut, Act.sent, Ne.symm ht]
    have htail := (List.append_eq_nil_iff.mp ((hsent t).trans hnone)).2
    exact (List.append_eq_nil_iff.mp htail).2

/-- A message is queued when the loop's thread shuts the connection down from a callback:
its `send` is over, and at the half-close not a byte of it has been accepted. -/
theorem shutdown_overtakes_queued : ¬ ∀ (tid : Tid) (c : TcpConn) (loop id mark : Nat) (cb : Callbacks)
    (tr : List Act) (s : Sys), TcpConn.create loop id cb mark = .ok c → exec step (create tid c) tr = some s →
      NoFault s.log → Graceful tid tr s.log := by
  intro hall
  have hgraceful := hall 0 _ 0 1 64 ⟨true, true, true, true, true⟩ [.establish, .eloop .storeLooping,
    .eloop .clearQuit, .eloop .loadQuit, .send 1 [7] (.accepts 0), .queueSend 1 [7], .eloop (.testWakeup 1),
    .eloop (.wakeup 1), .eloop (.endQueue 1), .eloop (.pollReturns false), .shutdown 0, .setState 0,
    .runShutdown 0] _ rfl (Option.some_get (by decide +kernel)).symm (by decide +kernel)
  obtain ⟨⟨done, hbytes, -, hdone⟩, -⟩ := hgraceful [.connCallback] [] (by decide +kernel)
  have hsent := hdone [.establish, .eloop .storeLooping, .eloop .clearQuit, .eloop .loadQuit] 1 [7] (.accepts 0)
    [.queueSend 1 [7], .eloop (.testWakeup 1), .eloop (.wakeup 1), .eloop (.endQueue 1),
      .eloop (.pollReturns false)] 0 [.setState 0, .runShutdown 0] rfl (.inr (by decide))
  -- The message stands in `done`, of which nothing has been accepted.
  have hmem : [7] ∈ ofThread 1 done := hsent.subset (List.mem_append_right _ List.mem_cons_self)
  obtain ⟨m, hm, hdata⟩ := List.mem_filterMap.mp hmem
  have hnil : m.data = [] := List.flatMap_eq_nil_iff.mp hbytes.symm m hm
  rw [hnil] at hdata
  split at hdata <;> cases hdata

end Caimr.Net.Sys
