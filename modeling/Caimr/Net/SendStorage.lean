import Caimr.Net.FunctorOrder
import Caimr.Net.Stream

/-! `send` on a thread that is not the loop's does not take the string along. It binds
`send_in_loop` to `data.data()` and `data.size()`, and the functor reads the caller's
storage when the loop gets round to it. Here that storage is part of the state: blocks
that belong to threads, which overwrite them, release them and get new ones at the same
address. A block that is gone reads as anything. -/
namespace Caimr.Net

namespace SendStorage
open Transition

/-- A string of a thread. -/
structure Block where
  owner : Tid
  bytes : Bytes
deriving DecidableEq, Repr

/-- The arguments of a queued `send_in_loop`; and, to compare, what the string held when `send`
was called. -/
structure Sent where
  ptr : Nat
  len : Nat
  said : Bytes
deriving DecidableEq, Repr

/-- The functors of the eloop. -/
inductive Job where
  | sendInLoop (d : Sent)
  | user (k : Nat)
deriving DecidableEq, Repr

def Job.sent : Job → Option Sent
  | .sendInLoop d => some d
  | .user _ => none

structure State where
  loop : Eloop Job
  conn : TcpConn
  storage : Nat → Option Block
  /-- The threads that are in `send`, having found the connection connected. -/
  sending : Tid → Option Sent
  log : List Effect

/-- A connection just established, on an eloop that has not started. -/
def start (tid : Tid) (c : TcpConn) : State :=
  ⟨.create tid, c.establishConn.1, fun _ => none, fun _ => none, c.establishConn.2⟩

inductive Act where
  /-- A step of the eloop that is none of the connection's. -/
  | eloop (a : Eloop.Label Job)
  /-- A `send` on another thread that finds the connection connected; any other does nothing. -/
  | send (t : Tid) (ptr : Nat)
  | queueSend (t : Tid)
  | overwrite (t : Tid) (ptr : Nat) (bytes : Bytes)
  | release (t : Tid) (ptr : Nat)
  | allocate (t : Tid) (ptr : Nat) (bytes : Bytes)
  /-- `do_pending_functors` calls a `send_in_loop`, which finds `garbage` where no string is. -/
  | callSend (d : Sent) (w : WriteResult) (garbage : Bytes)
  /-- A `send` on the loop's thread. -/
  | sendOwn (data : Bytes) (w : WriteResult)
  | setState
  | handleRead (r : ReadResult)
  | handleWrite (w : WriteResult)
  | handleClose
deriving DecidableEq, Repr

/-- The thread can go on with code of its own: it is in no call. -/
def MayCall (s : State) (t : Tid) : Prop := s.sending t = none ∧ s.loop.MayCall t

instance (s : State) (t : Tid) : Decidable (MayCall s t) := inferInstanceAs (Decidable (_ ∧ _))

/-- The block is there and belongs to the thread. -/
def Owns (s : State) (t : Tid) (ptr : Nat) : Prop := (s.storage ptr).map Block.owner = some t

instance (s : State) (t : Tid) (ptr : Nat) : Decidable (Owns s t ptr) := inferInstanceAs (Decidable (_ = _))

/-- The steps of the eloop that threads take for themselves. -/
def Allows (s : State) : Eloop.Label Job → Prop
  | .emplace t (.user _) | .storeQuit t => s.sending t = none
  | .emplace _ _ | .call (.sendInLoop _) => False
  | _ => True

instance (s : State) (a : Eloop.Label Job) : Decidable (Allows s a) := by
  unfold Allows
  split <;> infer_instance

/-- What a read of `len` bytes from `ptr` gives, if the storage is there. -/
def readAt (storage : Nat → Option Block) (d : Sent) : Option Bytes :=
  (storage d.ptr).bind fun b => if d.len ≤ b.bytes.length then some (b.bytes.take d.len) else none

def onLoop (s : State) (a : Eloop.Label Job) : Option State :=
  match s.loop.step a with
  | some l => some {s with loop := l}
  | none => none

/-- A call that returns leads on; for one that throws there is no step. -/
def perform (s : State) (r : Except Fault (TcpConn × List Effect)) : Option State :=
  match r with
  | .ok (c, es) => some {s with conn := c, log := s.log ++ es}
  | .error _ => none

def step (s : State) : Act → Option State
  | .eloop a => if Allows s a then onLoop s a else none
  | .send t ptr =>
    if MayCall s t ∧ t ≠ s.loop.threadId ∧ s.conn.state = .connected ∧ Owns s t ptr then
      (s.storage ptr).map fun b =>
        {s with sending := Function.update s.sending t (some ⟨ptr, b.bytes.length, b.bytes⟩)}
    else none
  | .queueSend t =>
    (s.sending t).bind fun d =>
      onLoop {s with sending := Function.update s.sending t none} (.emplace t (.sendInLoop d))
  | .overwrite t ptr bytes =>
    if MayCall s t ∧ Owns s t ptr then
      some {s with storage := Function.update s.storage ptr (some ⟨t, bytes⟩)}
    else none
  | .release t ptr =>
    if MayCall s t ∧ Owns s t ptr then some {s with storage := Function.update s.storage ptr none} else none
  | .allocate t ptr bytes =>
    if MayCall s t ∧ s.storage ptr = none then
      some {s with storage := Function.update s.storage ptr (some ⟨t, bytes⟩)}
    else none
  | .callSend d w garbage =>
    (onLoop s (.call (.sendInLoop d))).bind fun s =>
      perform s (s.conn.sendInLoop ((readAt s.storage d).getD garbage) w)
  | .sendOwn data w => if MayCall s s.loop.threadId then perform s (s.conn.send data w) else none
  | .setState =>
    if s.conn.state = .connected then some {s with conn := {s.conn with state := .disconnenting}} else none
  | .handleRead r => if MayCall s s.loop.threadId then perform s (s.conn.handleRead r) else none
  | .handleWrite w => if MayCall s s.loop.threadId then perform s (s.conn.handleWrite w) else none
  | .handleClose => if MayCall s s.loop.threadId then perform s (.ok s.conn.handleClose) else none

/-- The queued `send_in_loop`s, in order. -/
def waiting (s : State) : List Sent := (s.loop.pc.batch ++ s.loop.pendingFunctors).filterMap Job.sent

/-- No thread touches what a queued `send_in_loop` is going to read. -/
def Untouched (s : State) : Act → Prop
  | .overwrite _ ptr bytes => ∀ d ∈ waiting s, d.ptr = ptr → d.len ≤ bytes.length ∧ bytes.take d.len = d.said
  | .release _ ptr => ∀ d ∈ waiting s, d.ptr ≠ ptr
  | _ => True

instance (s : State) (l : Act) : Decidable (Untouched s l) := by
  unfold Untouched
  split <;> infer_instance

/-- Wherever a string is still to be read, it is as it was when it was sent. -/
structure Intact (s : State) : Prop where
  waiting : ∀ d ∈ waiting s, readAt s.storage d = some d.said
  sending : ∀ t d, s.sending t = some d → s.storage d.ptr = some ⟨t, d.said⟩ ∧ d.len = d.said.length

/-! ### One step -/

theorem onLoop_some {s t : State} {a : Eloop.Label Job} (h : onLoop s a = some t) :
    ∃ l, s.loop.step a = some l ∧ t = {s with loop := l} := by
  unfold onLoop at h
  split at h
  · rename_i l hl
    exact ⟨l, hl, (Option.some.inj h).symm⟩
  · cases h

theorem perform_some {s t : State} {r : Except Fault (TcpConn × List Effect)} (h : perform s r = some t) :
    ∃ c es, r = .ok (c, es) ∧ t = {s with conn := c, log := s.log ++ es} := by
  unfold perform at h
  split at h
  · exact ⟨_, _, rfl, (Option.some.inj h).symm⟩
  · cases h

/-- What the connection does leaves the strings alone. -/
theorem perform_intact {s t : State} {r : Except Fault (TcpConn × List Effect)} (inv : Intact s)
    (h : perform s r = some t) : Intact t := by
  obtain ⟨c, es, -, rfl⟩ := perform_some h
  exact ⟨inv.waiting, inv.sending⟩

theorem mem_waiting {s : State} {d : Sent} :
    d ∈ waiting s ↔ .sendInLoop d ∈ s.loop.pc.batch ++ s.loop.pendingFunctors := by
  unfold waiting
  rw [List.mem_filterMap]
  constructor
  · intro ⟨f, hf, hd⟩
    cases f with
    | sendInLoop d' =>
      cases hd
      exact hf
    | user k => cases hd
  · intro h
    exact ⟨_, h, rfl⟩

/-- A step of the eloop that queues no `send_in_loop`. -/
theorem onLoop_intact {s t : State} {a : Eloop.Label Job} (inv : Intact s) (h : onLoop s a = some t)
    (ha : ∀ d, Job.sendInLoop d ∉ Eloop.queued [a]) : Intact t := by
  obtain ⟨l, hl, rfl⟩ := onLoop_some h
  refine ⟨fun d hd => ?_, inv.sending⟩
  rcases Eloop.mem_functors hl (mem_waiting.mp hd) with hold | hnew
  · exact inv.waiting d (mem_waiting.mpr hold)
  · exact absurd hnew (ha d)

/-- Writing to one address, which no queued `send_in_loop` and no thread in `send` minds. -/
theorem update_intact {s : State} {ptr : Nat} {block : Option Block} (inv : Intact s)
    (hwaiting : ∀ d ∈ waiting s, d.ptr = ptr → readAt (Function.update s.storage ptr block) d = some d.said)
    (hsending : ∀ t d, s.sending t = some d → d.ptr ≠ ptr) :
    Intact {s with storage := Function.update s.storage ptr block} := by
  refine ⟨fun d hd => ?_, fun t d hd => ?_⟩
  · by_cases hp : d.ptr = ptr
    · exact hwaiting d hd hp
    · have hsame : (Function.update s.storage ptr block) d.ptr = s.storage d.ptr := Function.update_of_ne hp ..
      show readAt (Function.update s.storage ptr block) d = some d.said
      rw [readAt, hsame]
      exact inv.waiting d hd
  · obtain ⟨hblock, hlen⟩ := inv.sending t d hd
    refine ⟨?_, hlen⟩
    show (Function.update s.storage ptr block) d.ptr = _
    rw [Function.update_of_ne (hsending t d hd)]
    exact hblock

/-- A thread that can go on does not touch what another thread is sending. -/
theorem sending_ne {s : State} {t : Tid} {ptr : Nat} (inv : Intact s) (hmay : MayCall s t)
    (hown : Owns s t ptr) (u : Tid) (d : Sent) (hd : s.sending u = some d) : d.ptr ≠ ptr := by
  rintro rfl
  unfold Owns at hown
  rw [(inv.sending u d hd).1] at hown
  cases hown
  rw [hmay.1] at hd
  cases hd

theorem step_intact {s t : State} {l : Act} (inv : Intact s) (hl : Untouched s l) (h : step s l = some t) :
    Intact t := by
  cases l with
  | eloop a =>
    simp only [step, Option.ite_none_right_eq_some] at h
    refine onLoop_intact inv h.2 fun d hd => ?_
    obtain ⟨ha, -⟩ := h
    cases a with
    | emplace u f =>
      cases f with
      | sendInLoop d' => exact ha
      | user k => cases List.mem_singleton.mp hd
    | _ => cases hd
  | send u ptr =>
    simp only [step, Option.ite_none_right_eq_some, Option.map_eq_some_iff] at h
    obtain ⟨⟨-, -, -, hown⟩, b, hb, rfl⟩ := h
    refine ⟨inv.waiting, fun v d hd => ?_⟩
    by_cases hv : v = u
    · subst hv
      simp only [Function.update_self, Option.some.injEq] at hd
      subst hd
      unfold Owns at hown
      rw [hb] at hown
      cases hown
      exact ⟨hb, rfl⟩
    · simp only [Function.update_of_ne hv] at hd
      exact inv.sending v d hd
  | queueSend u =>
    obtain ⟨d, hd, h⟩ := Option.bind_eq_some_iff.mp h
    obtain ⟨l, hstep, rfl⟩ := onLoop_some h
    obtain ⟨hblock, hlen⟩ := inv.sending u d hd
    refine ⟨fun d' hd' => ?_, fun v d' hd' => ?_⟩
    · rcases Eloop.mem_functors hstep (mem_waiting.mp hd') with hold | hnew
      · exact inv.waiting d' (mem_waiting.mpr hold)
      · cases List.mem_singleton.mp hnew
        simp [readAt, hblock, hlen]
    · by_cases hv : v = u
      · subst hv
        simp at hd'
      · simp only [Function.update_of_ne hv] at hd'
        exact inv.sending v d' hd'
  | overwrite u ptr bytes =>
    simp only [step, Option.ite_none_right_eq_some, Option.some.injEq] at h
    obtain ⟨⟨hmay, hown⟩, rfl⟩ := h
    refine update_intact inv (fun d hd hp => ?_) (sending_ne inv hmay hown)
    obtain ⟨hlen, hsame⟩ := hl d hd hp
    simp [readAt, hp, hlen, hsame]
  | release u ptr =>
    simp only [step, Option.ite_none_right_eq_some, Option.some.injEq] at h
    obtain ⟨⟨hmay, hown⟩, rfl⟩ := h
    exact update_intact inv (fun d hd hp => absurd hp (hl d hd)) (sending_ne inv hmay hown)
  | allocate u ptr bytes =>
    simp only [step, Option.ite_none_right_eq_some, Option.some.injEq] at h
    obtain ⟨⟨-, hfree⟩, rfl⟩ := h
    refine update_intact inv (fun d hd hp => ?_) fun v d hd hp => ?_
    · have hread := inv.waiting d hd
      rw [readAt, hp, hfree] at hread
      cases hread
    · have hblock := (inv.sending v d hd).1
      rw [hp, hfree] at hblock
      cases hblock
  | callSend d w garbage =>
    obtain ⟨u, hu, h⟩ := Option.bind_eq_some_iff.mp h
    exact perform_intact (onLoop_intact inv hu nofun) h
  | setState =>
    simp only [step, Option.ite_none_right_eq_some, Option.some.injEq] at h
    obtain ⟨-, rfl⟩ := h
    exact ⟨inv.waiting, inv.sending⟩
  | sendOwn data w =>
    simp only [step, Option.ite_none_right_eq_some] at h
    exact perform_intact inv h.2
  | handleRead r =>
    simp only [step, Option.ite_none_right_eq_some] at h
    exact perform_intact inv h.2
  | handleWrite w =>
    simp only [step, Option.ite_none_right_eq_some] at h
    exact perform_intact inv h.2
  | handleClose =>
    simp only [step, Option.ite_none_right_eq_some] at h
    exact perform_intact inv h.2

/-! ### Whole runs -/

theorem start_intact (tid : Tid) (c : TcpConn) : Intact (start tid c) := by
  constructor
  · intro d hd
    cases hd
  · intro t d hd
    cases hd

theorem run_intact {tid : Tid} {c : TcpConn} {tr : List Act} {s : State}
    (h : exec step (start tid c) tr = some s) (hr : Along step Untouched (start tid c) tr) : Intact s :=
  rule_induction (fun _ s => Intact s) (start_intact tid c) (fun _ _ _ _ _ inv hl hs => step_intact inv hl hs)
    h hr

/-- A step that has done to the connection what `send_in_loop` does with what was said. -/
def Faithful (s t : State) (d : Sent) (w : WriteResult) : Prop :=
  ∃ es, s.conn.sendInLoop d.said w = .ok (t.conn, es) ∧ t.log = s.log ++ es

/-- What it has written and what it has buffered are the bytes that were said. -/
theorem Faithful.bytes {s t : State} {d : Sent} {w : WriteResult} (h : Faithful s t d w)
    (hwf : s.conn.outputBuf.Wf) (hs : s.conn.state ≠ .disconnected) :
    ∃ es, t.log = s.log ++ es ∧
      (NoFault es → accepted es ++ t.conn.outputBuf.readable = s.conn.outputBuf.readable ++ d.said) := by
  obtain ⟨es, hsend, hlog⟩ := h
  exact ⟨es, hlog, fun hf => (TcpConn.sendInLoop_ok hwf hs hsend hf).2.2.1⟩

/-- **What is sent.** If no thread overwrites or releases a string between its `send` and the call of
the functor that `send` has queued, then whatever else happens each `send_in_loop` does with the
connection what it does with the bytes the string held when `send` was called. -/
theorem send_faithful {tid : Tid} {c : TcpConn} {tr : List Act}
    (hr : Along step Untouched (start tid c) tr) :
    ∀ a b d w garbage s t, tr = a ++ .callSend d w garbage :: b → exec step (start tid c) a = some s →
      step s (.callSend d w garbage) = some t → Faithful s t d w := by
  rintro a b d w garbage s t rfl hs ht
  have inv := run_intact hs hr.of_append
  obtain ⟨v, hv, ht⟩ := Option.bind_eq_some_iff.mp ht
  obtain ⟨l, hl, rfl⟩ := onLoop_some hv
  have hread := inv.waiting d (mem_waiting.mpr (Eloop.mem_of_call hl))
  obtain ⟨c', es, hsend, rfl⟩ := perform_some ht
  rw [show readAt _ d = _ from hread, Option.getD_some] at hsend
  exact ⟨es, hsend, rfl⟩

/-- Thread 1 sends the string at 7, and does `after` before the loop comes to it. -/
def sendThen (after : List Act) : List Act :=
  List.flatten [[.allocate 1 7 [1, 2, 3], .send 1 7, .queueSend 1, .eloop (.testWakeup 1), .eloop (.wakeup 1),
    .eloop (.endQueue 1)], after, [.eloop .storeLooping, .eloop .clearQuit, .eloop .loadQuit,
    .eloop (.pollReturns true), .eloop .handleRead, .eloop .endEvents, .eloop .storeCalling, .eloop .swap]]

/-- The string is used again once the functor has run, and another one before. -/
theorem send_faithful_patient : ∃ c s t,
    TcpConn.create 0 1 ⟨true, true, true, true, true⟩ 4 = .ok c ∧
      exec step (start 0 c) (sendThen [.allocate 1 8 [5], .overwrite 1 8 [6]]) = some s ∧
      step s (.callSend ⟨7, 3, [1, 2, 3]⟩ (.accepts 2) []) = some t ∧
      Faithful s t ⟨7, 3, [1, 2, 3]⟩ (.accepts 2) := by
  refine ⟨_, _, _, rfl, (Option.some_get (by decide +kernel)).symm, (Option.some_get (by decide +kernel)).symm, ?_⟩
  exact send_faithful (by decide +kernel) (sendThen [.allocate 1 8 [5], .overwrite 1 8 [6]])
    [.overwrite 1 7 [9, 9, 9]] ⟨7, 3, [1, 2, 3]⟩ (.accepts 2) [] _ _ rfl (Option.some_get (by decide +kernel)).symm
    (Option.some_get (by decide +kernel)).symm

/-- Thread 1 overwrites its string when `send` has returned, and the loop sends the new bytes. -/
theorem send_unfaithful : ¬ ∀ (tid : Tid) (c : TcpConn) (loop id mark : Nat) (cb : Callbacks) (tr a b : List Act)
    (d : Sent) (w : WriteResult) (garbage : Bytes) (s t : State),
    TcpConn.create loop id cb mark = .ok c → tr = a ++ .callSend d w garbage :: b →
      exec step (start tid c) a = some s → step s (.callSend d w garbage) = some t → Faithful s t d w := by
  intro hclaim
  obtain ⟨es, hsend, hlog⟩ := hclaim 0 _ 0 1 4 ⟨true, true, true, true, true⟩ _
    (sendThen [.overwrite 1 7 [9, 9, 9]]) [] ⟨7, 3, [1, 2, 3]⟩ (.accepts 3) [] _ _ rfl rfl
    (Option.some_get (by decide +kernel)).symm (Option.some_get (by decide +kernel)).symm
  have hes := congrArg (List.drop 1) hlog
  rw [List.drop_left' (by decide +kernel)] at hes
  rw [← hes] at hsend
  exact absurd hsend (by decide +kernel)

end SendStorage

end Caimr.Net
