import Caimr.Net.CrossThread

/-! What happens to the messages that threads send: each one is in the hand of its sender,
in a queued functor, or handed over whole to the connection, and for each thread these
three are, in order, what it has sent. -/
namespace Caimr.Net.Sys
open Transition

/-! ### Where the messages are -/

def flat (ms : List Message) : Bytes := ms.flatMap Message.data

/-- The messages of one thread. -/
def ofThread (t : Tid) (ms : List Message) : List Bytes :=
  ms.filterMap fun m => if m.sender = t then some m.data else none

@[simp] theorem flat_append (a b : List Message) : flat (a ++ b) = flat a ++ flat b :=
  List.flatMap_append

@[simp] theorem ofThread_append (t : Tid) (a b : List Message) :
    ofThread t (a ++ b) = ofThread t a ++ ofThread t b :=
  List.filterMap_append

@[simp] theorem ofThread_nil (t : Tid) : ofThread t [] = [] := rfl

/-- The functors that are queued, in the batch or behind it. -/
def tasks (s : Sys) : List Task := s.loop.pc.batch ++ s.loop.pendingFunctors

/-- The messages in queued functors. -/
def waiting (s : Sys) : List Message := s.tasks.filterMap Task.message

/-- The message with which a thread is on the way to the queue. -/
def inHand : CallerPc → List Bytes
  | .sending data => [data]
  | _ => []

/-- What the kernel has accepted and what is buffered. -/
def bytes (s : Sys) : Bytes := accepted s.log ++ s.conn.outputBuf.readable

/-- What a thread sends in an act. -/
def Act.sent (t : Tid) : Act → Option Bytes
  | .send u data _ => if u = t then some data else none
  | _ => none

/-- The data of a thread's `send` calls that found the connection connected. -/
def sentBy (t : Tid) (tr : List Act) : List Bytes := tr.filterMap (Act.sent t)

@[simp] theorem sentBy_append (t : Tid) (a b : List Act) : sentBy t (a ++ b) = sentBy t a ++ sentBy t b :=
  List.filterMap_append

/-- The messages handed over to the connection in an act. -/
def Act.handed (me : Tid) : Act → List Message
  | .send t data _ => if t = me then [⟨t, data⟩] else []
  | .call f _ => f.message.toList
  | _ => []

/-- A functor that hands over a message finds the connection open. -/
def Delivers (s : Sys) : Act → Prop
  | .call (.sendInLoop _) _ => s.conn.state ≠ .disconnected
  | _ => True

instance (s : Sys) (a : Act) : Decidable (s.Delivers a) := by
  unfold Delivers
  split <;> infer_instance

/-! ### What a step keeps -/

theorem step_threadId {s s' : Sys} {a : Act} (h : step s a = some s') :
    s'.loop.threadId = s.loop.threadId := by
  cases step_cases h with
  | eloop b l _ hl => exact Eloop.step_threadId hl
  | queueSend t data l _ hl => exact Eloop.step_threadId hl
  | shutdownOther t l _ hl => exact Eloop.step_threadId hl
  | callSend m w l c es hl => exact Eloop.step_threadId hl
  | callShutdown w l hl => exact Eloop.step_threadId hl
  | callOther f w l _ _ hl => exact Eloop.step_threadId hl
  | queue i f rest l _ _ hl => exact Eloop.step_threadId hl
  | _ => rfl

theorem step_log {s s' : Sys} {a : Act} (h : step s a = some s') : ∃ es, s'.log = s.log ++ es := by
  cases step_cases h with
  | establish | sendOwn | shutdownOwn | callSend | callShutdown | handleRead | handleWrite | handleClose
  | finishWrite => exact ⟨_, rfl⟩
  | _ => exact ⟨[], (List.append_nil _).symm⟩

/-- The messages in some functors. -/
def messages (fs : List Task) : List Message := fs.filterMap Task.message

/-- The messages of the functors that a step of the eloop calls, leaves and queues. -/
theorem eloop_messages {s : Sys} {l : Eloop Task} {b : Eloop.Label Task} (h : s.loop.step b = some l) :
    messages (Eloop.executed [b]) ++ messages (l.pc.batch ++ l.pendingFunctors) =
      s.waiting ++ messages (Eloop.queued [b]) := by
  have hcons := congrArg messages (Eloop.step_conserves h)
  simpa only [messages, List.filterMap_append, waiting, tasks] using hcons

/-- The eloop's own steps leave the messages where they are. -/
theorem allowed_messages {s : Sys} {b : Eloop.Label Task} (h : s.Allows b) :
    messages (Eloop.executed [b]) = [] ∧ messages (Eloop.queued [b]) = [] := by
  cases b with
  | call f => exact h.elim
  | emplace t f => cases f <;> first | exact ⟨rfl, rfl⟩ | exact h.elim
  | _ => exact ⟨rfl, rfl⟩

/-- What a step does to the messages. -/
inductive Moves (s : Sys) (a : Act) (s' : Sys) : Prop where
  | stay : (∀ t, a.sent t = none) → a.handed s.loop.threadId = [] → s'.waiting = s.waiting →
      (∀ t, inHand (s'.callers t) = inHand (s.callers t)) → Moves s a s'
  | sendOwn (data : Bytes) (w : WriteResult) : a = .send s.loop.threadId data w → s'.waiting = s.waiting →
      s'.callers = s.callers → Moves s a s'
  | sendOther (t : Tid) (data : Bytes) (w : WriteResult) : a = .send t data w → t ≠ s.loop.threadId →
      inHand (s.callers t) = [] → s'.waiting = s.waiting →
      s'.callers = Function.update s.callers t (.sending data) → Moves s a s'
  | queue (t : Tid) (data : Bytes) : a = .queueSend t data → s.callers t = .sending data →
      s'.waiting = s.waiting ++ [⟨t, data⟩] → s'.callers = Function.update s.callers t .idle → Moves s a s'
  | call (m : Message) (w : WriteResult) : a = .call (.sendInLoop m) w → m :: s'.waiting = s.waiting →
      s'.callers = s.callers → Moves s a s'

theorem update_inHand {callers : Tid → CallerPc} {t : Tid} {p : CallerPc} (h : inHand p = inHand (callers t))
    (u : Tid) : inHand (Function.update callers t p u) = inHand (callers u) := by
  rw [Function.update_apply]
  split
  · rename_i hu
    rw [h, hu]
  · rfl

theorem step_moves {s s' : Sys} {a : Act} (h : step s a = some s') : Moves s a s' := by
  cases step_cases h with
  | eloop b l hallow hl =>
    have hmsgs := eloop_messages hl
    rw [(allowed_messages hallow).1, (allowed_messages hallow).2, List.append_nil] at hmsgs
    exact .stay (fun _ => rfl) rfl hmsgs fun _ => rfl
  | establish | handleRead | handleWrite | handleClose | finishWrite =>
    exact .stay (fun _ => rfl) rfl rfl fun _ => rfl
  | sendOwn data w c es hfree hst hsend => exact .sendOwn data w rfl rfl rfl
  | sendOther t data w hfree hst ht =>
    exact .sendOther t data w rfl ht (by rw [hfree.1]; rfl) rfl rfl
  | queueSend t data l hc hl => exact .queue t data rfl hc (eloop_messages hl) rfl
  | shutdown t hfree hst =>
    exact .stay (fun _ => rfl) rfl rfl (update_inHand (by rw [hfree.1]; rfl))
  | setState t hc => exact .stay (fun _ => rfl) rfl rfl (update_inHand (by rw [hc]; rfl))
  | shutdownOwn hc => exact .stay (fun _ => rfl) rfl rfl (update_inHand (by rw [hc]; rfl))
  | shutdownOther t l hc hl =>
    refine .stay (fun _ => rfl) rfl ?_ (update_inHand (by rw [hc]; rfl))
    exact (eloop_messages hl).trans (List.append_nil _)
  | callSend m w l c es hl hsend =>
    exact .call m w rfl ((eloop_messages hl).trans (List.append_nil _)) rfl
  | callShutdown w l hl =>
    exact .stay (fun _ => rfl) rfl ((eloop_messages hl).trans (List.append_nil _)) fun _ => rfl
  | callOther f w l hf hs hl =>
    have hmsgs := (eloop_messages hl).trans (List.append_nil _)
    refine .stay (fun _ => rfl) (by rw [Act.handed, hf]; rfl) ?_ fun _ => rfl
    have hnone : messages (Eloop.executed [Eloop.Label.call f]) = [] := by
      show List.filterMap Task.message [f] = []
      rw [List.filterMap_cons_none hf, List.filterMap_nil]
    rwa [hnone] at hmsgs
  | queue i f rest l ha hf hl =>
    refine .stay (fun _ => rfl) rfl ?_ fun _ => rfl
    have hnone : messages (Eloop.queued [Eloop.Label.emplace s.loop.threadId f]) = [] := by
      cases i <;> cases hf <;> rfl
    have hmsgs := eloop_messages hl
    rwa [hnone, List.append_nil] at hmsgs

/-- The loop's own thread never has a message on the way. -/
structure Own (s : Sys) : Prop where
  waiting : ∀ m ∈ s.waiting, m.sender ≠ s.loop.threadId
  inHand : inHand (s.callers s.loop.threadId) = []

theorem step_own {s s' : Sys} {a : Act} (own : Own s) (h : step s a = some s') : Own s' := by
  have hme := step_threadId h
  cases step_moves h with
  | stay _ _ hw hc => exact ⟨by rw [hw, hme]; exact own.waiting, by rw [hme, hc]; exact own.inHand⟩
  | sendOwn data w _ hw hc => exact ⟨by rw [hw, hme]; exact own.waiting, by rw [hme, hc]; exact own.inHand⟩
  | sendOther t data w _ ht _ hw hc =>
    refine ⟨by rw [hw, hme]; exact own.waiting, ?_⟩
    rw [hme, hc, Function.update_of_ne ht.symm]
    exact own.inHand
  | queue t data _ hsending hw hc =>
    have ht : s.loop.threadId ≠ t := by
      rintro rfl
      have := own.inHand
      rw [hsending] at this
      cases this
    refine ⟨?_, by rw [hme, hc, Function.update_of_ne ht]; exact own.inHand⟩
    rw [hw, hme]
    intro m hm
    rcases List.mem_append.mp hm with hm | hm
    · exact own.waiting m hm
    · rw [List.mem_singleton.mp hm]
      exact ht.symm
  | call m w _ hw hc =>
    refine ⟨fun k hk => ?_, by rw [hme, hc]; exact own.inHand⟩
    rw [hme]
    exact own.waiting k (hw ▸ List.mem_cons_of_mem m hk)

/-- What a thread has sent and is still not handed over. -/
def unsent (s : Sys) (t : Tid) : List Bytes := ofThread t s.waiting ++ inHand (s.callers t)

/-- Each thread's messages are handed over in the order in which it sent them. -/
theorem step_hands {s s' : Sys} {a : Act} (own : Own s) (h : step s a = some s') (t : Tid) :
    ofThread t (a.handed s.loop.threadId) ++ s'.unsent t = s.unsent t ++ sentBy t [a] := by
  cases step_moves h with
  | stay hs hh hw hc =>
    have hnone : sentBy t [a] = [] := by rw [sentBy, List.filterMap_cons_none (hs t), List.filterMap_nil]
    rw [hh, hnone, unsent, hw, hc, List.append_nil]
    rfl
  | sendOwn data w ha hw hc =>
    subst ha
    rw [unsent, hw, hc, Act.handed, if_pos rfl]
    by_cases ht : s.loop.threadId = t
    · subst ht
      have hnone : s.unsent s.loop.threadId = [] := by
        refine List.append_eq_nil_iff.mpr ⟨List.filterMap_eq_nil_iff.mpr fun m hm => ?_, own.inHand⟩
        rw [if_neg (own.waiting m hm)]
      rw [← unsent, hnone]
      simp [ofThread, sentBy, Act.sent]
    · simp [ofThread, sentBy, Act.sent, ht, unsent]
  | sendOther u data w ha hu hnone hw hc =>
    subst ha
    rw [unsent, hw, hc, Act.handed, if_neg hu, unsent, Function.update_apply]
    by_cases ht : t = u
    · subst ht
      rw [if_pos rfl, hnone]
      simp [sentBy, Act.sent, Sys.inHand]
    · rw [if_neg ht]
      simp [sentBy, Act.sent, Ne.symm ht]
  | queue u data ha hsending hw hc =>
    subst ha
    rw [unsent, hw, hc, unsent, Function.update_apply]
    by_cases ht : t = u
    · subst ht
      rw [if_pos rfl, hsending]
      simp [sentBy, Act.sent, Act.handed, Sys.inHand, ofThread]
    · rw [if_neg ht]
      simp [sentBy, Act.sent, Act.handed, ofThread, Ne.symm ht]
  | call m w ha hw hc =>
    subst ha
    rw [unsent, hc, unsent, ← hw]
    have hone : ofThread t (m :: s'.waiting) = ofThread t [m] ++ ofThread t s'.waiting :=
      ofThread_append t [m] s'.waiting
    rw [hone, List.append_assoc]
    simp [sentBy, Act.sent, Act.handed, Task.message]

/-- The bytes of a connection after one of its functions. -/
theorem after_bytes {s : Sys} {c : TcpConn} {es : List Effect} {drained : Bool} :
    (s.after c es drained).bytes = accepted s.log ++ (accepted es ++ c.outputBuf.readable) := by
  rw [bytes, after, accepted_append, List.append_assoc]

theorem after_quiet {s : Sys} {c : TcpConn} {es : List Effect} {drained : Bool} (hq : accepted es = [])
    (hb : c.outputBuf = s.conn.outputBuf) : (s.after c es drained).bytes = s.bytes ++ flat [] := by
  rw [after_bytes, hq, hb]
  exact (List.append_nil _).symm

/-- A message that is handed over goes whole to the end of the stream, and nothing else
gets there. -/
theorem step_bytes {s s' : Sys} {a : Act} (hwf : s.conn.outputBuf.Wf) (h : step s a = some s')
    (hf : NoFault s'.log) (hd : Delivers s a) :
    s'.conn.outputBuf.Wf ∧ s'.bytes = s.bytes ++ flat (a.handed s.loop.threadId) := by
  have hsame : ∀ x : Sys, x.bytes = x.bytes ++ flat [] := fun x => (List.append_nil _).symm
  cases step_cases h with
  | eloop | shutdown | setState | queueSend | shutdownOther | queue => exact ⟨hwf, hsame s⟩
  | sendOther t data w _ _ ht =>
    refine ⟨hwf, ?_⟩
    rw [Act.handed, if_neg ht]
    exact hsame s
  | establish =>
    exact ⟨hwf, after_quiet (accepted_quiet (TcpConn.establishConn_quiet _)) rfl⟩
  | handleClose =>
    exact ⟨hwf, after_quiet (accepted_quiet (TcpConn.handleClose_quiet _)) rfl⟩
  | handleRead r c es hr =>
    obtain ⟨hb, hquiet, -⟩ := TcpConn.handleRead_ok hr
    exact ⟨hb ▸ hwf, after_quiet (accepted_quiet hquiet) hb⟩
  | shutdownOwn hc => exact ⟨hwf, after_quiet (TcpConn.accepted_shutdownInLoop _) rfl⟩
  | callShutdown w l hl => exact ⟨hwf, after_quiet (TcpConn.accepted_shutdownInLoop _) rfl⟩
  | callOther f w l hmsg hs hl =>
    refine ⟨hwf, ?_⟩
    rw [Act.handed, hmsg]
    exact hsame s
  | finishWrite rest ha =>
    refine ⟨hwf, ?_⟩
    have hnone : accepted (s.conn.finishWrite true) = [] := by
      unfold TcpConn.finishWrite
      split
      · exact TcpConn.accepted_shutdownInLoop _
      · rfl
    show accepted (s.log ++ s.conn.finishWrite true) ++ _ = _
    rw [accepted_append, hnone, List.append_nil]
    exact hsame s
  | handleWrite w c es drained hflush =>
    obtain ⟨-, hwf', hstream, -⟩ := TcpConn.flush_ok hwf hflush
    refine ⟨hwf', ?_⟩
    rw [after_bytes, hstream]
    exact hsame s
  | sendOwn data w c es hfree hst hsend =>
    obtain ⟨-, hwf', hstream, -⟩ := TcpConn.sendInLoop_ok hwf (by rw [hst]; decide) hsend hf.of_append.2
    refine ⟨hwf', ?_⟩
    rw [after_bytes, hstream, Act.handed, if_pos rfl, ← List.append_assoc]
    simp [flat, bytes]
  | callSend m w l c es hl hsend =>
    obtain ⟨-, hwf', hstream, -⟩ := TcpConn.sendInLoop_ok hwf hd hsend hf.of_append.2
    refine ⟨hwf', ?_⟩
    rw [after_bytes, hstream, ← List.append_assoc]
    simp [flat, bytes, Act.handed, Task.message]

/-! ### Runs -/

/-- Where all that was sent has gone. -/
structure Accounted (me : Tid) (tr : List Act) (s : Sys) : Prop where
  threadId : s.loop.threadId = me
  wf : s.conn.outputBuf.Wf
  own : Own s
  stream : ∃ done, s.bytes = flat done ∧ ∀ t, ofThread t done ++ s.unsent t = sentBy t tr

theorem create_accounted {tid : Tid} {c : TcpConn} {loop id mark : Nat} {cb : Callbacks}
    (hc : TcpConn.create loop id cb mark = .ok c) : Accounted tid [] (create tid c) := by
  obtain ⟨b, hb, hwf, hread, -, -⟩ := Buffer.create_spec initialSize (by decide)
  simp only [TcpConn.create, hb, bind, Except.bind, pure, Except.pure, Except.ok.injEq] at hc
  subst hc
  exact ⟨rfl, hwf, ⟨nofun, rfl⟩, [], hread, fun t => rfl⟩

theorem step_accounted {me : Tid} {tr : List Act} {s s' : Sys} {a : Act} (inv : Accounted me tr s)
    (h : step s a = some s') (hf : NoFault s'.log) (hd : Delivers s a) : Accounted me (tr ++ [a]) s' := by
  obtain ⟨done, hbytes, hsent⟩ := inv.stream
  obtain ⟨hwf, hmore⟩ := step_bytes inv.wf h hf hd
  refine ⟨(step_threadId h).trans inv.threadId, hwf, step_own inv.own h,
    done ++ a.handed s.loop.threadId, ?_, fun t => ?_⟩
  · rw [hmore, hbytes, flat_append]
  · rw [ofThread_append, List.append_assoc, step_hands inv.own h t, ← List.append_assoc, hsent t, sentBy_append]

theorem run_accounted {tid : Tid} {c : TcpConn} {loop id mark : Nat} {cb : Callbacks}
    (hc : TcpConn.create loop id cb mark = .ok c) {tr : List Act} {s : Sys}
    (h : exec step (create tid c) tr = some s) (hf : NoFault s.log)
    (hd : Along step Delivers (create tid c) tr) : Accounted tid tr s := by
  refine rule_induction (fun tr s => NoFault s.log → Accounted tid tr s) (fun _ => create_accounted hc) ?_ h hd hf
  intro tr s a s' _ ih hdel ha hf
  obtain ⟨es, hes⟩ := step_log ha
  exact step_accounted (ih (hes ▸ hf).of_append.1) ha hf hdel

/-! ### Connections that stay connected -/

/-- The connection is closing or closed. -/
def Past (s : Sys) : Prop := s.conn.state = .disconnenting ∨ s.conn.state = .disconnected

/-- There is no way back. -/
theorem step_past {s s' : Sys} {a : Act} (h : step s a = some s') (hp : s.Past) : s'.Past := by
  cases step_cases h with
  | establish hst => rcases hp with hp | hp <;> rw [hst] at hp <;> cases hp
  | sendOwn data w c es hfree hst => rcases hp with hp | hp <;> rw [hst] at hp <;> cases hp
  | setState => exact .inl rfl
  | handleClose => exact .inr rfl
  | handleRead r c es hr =>
    obtain ⟨-, -, ⟨hst, -⟩ | ⟨hst, -⟩⟩ := TcpConn.handleRead_ok hr
    · rw [Past, after, hst]
      exact hp
    · exact .inr hst
  | handleWrite w c es drained hflush =>
    rw [Past, after, TcpConn.flush_state hflush]
    exact hp
  | callSend m w l c es hl hsend =>
    rw [Past, after, TcpConn.sendInLoop_state hsend]
    exact hp
  | _ => exact hp

/-- A connection that is connected has never been anything else since it was established. -/
theorem delivers_of_connected {tid : Tid} {c : TcpConn} {tr : List Act} {s : Sys}
    (h : exec step (create tid c) tr = some s) (hconn : s.conn.state = .connected) :
    Along step Delivers (create tid c) tr := by
  rintro a l b u rfl hu
  obtain ⟨v, hv, hrest⟩ := exec_split.mp h
  rw [hu, Option.some.injEq] at hv
  subst hv
  have hnot : ¬ u.Past := by
    intro hp
    have hpast : s.Past := exec_preserves (fun _ _ _ hx hstep => step_past hstep hx) hp hrest
    rcases hpast with hpast | hpast <;> rw [hconn] at hpast <;> cases hpast
  unfold Delivers
  split
  · exact fun hd => hnot (.inr hd)
  · trivial

/-- **Sends are atomic and in order.** While the connection is connected and no direct
write has failed for good: the bytes the kernel has accepted and the buffered ones are
a sequence of whole messages; and for each thread, its messages in this sequence, its
messages in queued functors and the one it may be about to queue are, in order, what it
has sent. -/
theorem messages_whole_and_in_order {tid : Tid} {c : TcpConn} {loop id mark : Nat} {cb : Callbacks}
    (hc : TcpConn.create loop id cb mark = .ok c) {tr : List Act} {s : Sys}
    (h : exec step (create tid c) tr = some s) (hconn : s.conn.state = .connected) (hf : NoFault s.log) :
    ∃ done : List Message, accepted s.log ++ s.conn.outputBuf.readable = flat done ∧
      ∀ t, ofThread t done ++ (ofThread t s.waiting ++ inHand (s.callers t)) = sentBy t tr :=
  (run_accounted hc h hf (delivers_of_connected h hconn)).stream

/-- Another thread's two messages wait while the loop's thread sends; the first is then
written in part, the second still waits. -/
theorem messages_whole_and_in_order_contended : ∃ c tr s,
    TcpConn.create 0 1 ⟨true, true, true, true, true⟩ 64 = .ok c ∧ exec step (create 0 c) tr = some s ∧
      accepted s.log = [9, 1] ∧ s.waiting = [⟨1, [3]⟩] ∧
      ∃ done, accepted s.log ++ s.conn.outputBuf.readable = flat done ∧
        ∀ t, ofThread t done ++ (ofThread t s.waiting ++ inHand (s.callers t)) = sentBy t tr := by
  refine ⟨_, [.establish, .send 1 [1, 2] (.accepts 0), .queueSend 1 [1, 2], .eloop (.testWakeup 1),
    .eloop (.wakeup 1), .eloop (.endQueue 1), .send 1 [3] (.accepts 0), .queueSend 1 [3], .eloop .storeLooping,
    .eloop .clearQuit, .eloop .loadQuit, .eloop (.pollReturns true), .eloop .handleRead, .send 0 [9] (.accepts 1),
    .queue, .eloop (.testWakeup 0), .eloop (.endQueue 0), .eloop .endEvents, .eloop .storeCalling, .eloop .swap,
    .call (.sendInLoop ⟨1, [1, 2]⟩) (.accepts 1)], _, rfl, (Option.some_get (by decide +kernel)).symm,
    by decide +kernel, by decide +kernel, ?_⟩
  exact messages_whole_and_in_order rfl (Option.some_get (by decide +kernel)).symm (by decide +kernel)
    (by decide +kernel)

end Caimr.Net.Sys
