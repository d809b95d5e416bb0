import Caimr.Net.FunctorOrder
import Caimr.Net.Stream

/-! One connection, its eloop, and any number of threads that call `send` and `shutdown`.
A call on another thread is the test of `state_` and the push of a functor, with
whatever other threads do in between; on the loop's own thread it is carried out at
once. Of the connection only `state_` is shared: the functions that run on the loop's
thread are single steps up to where they read it again or queue something. -/
namespace Caimr.Net
open Transition

/-- The string a thread has passed to `send`. -/
structure Message where
  sender : Tid
  data : Bytes
deriving DecidableEq, Repr

/-- The functors in the eloop: those the connection queues, and those of the user. -/
inductive Task where
  | sendInLoop (m : Message)
  | shutdownInLoop
  | writeComplete
  | highWaterMark (len : Nat)
  | user (k : Nat)
deriving DecidableEq, Repr

def Task.message : Task → Option Message
  | .sendInLoop m => some m
  | _ => none

/-- Where a thread is in `send` or in `shutdown`. -/
inductive CallerPc where
  | idle
  /-- `send` has found the connection connected. -/
  | sending (data : Bytes)
  /-- `shutdown` has found the connection connected. -/
  | closing
  /-- `shutdown` has set `state_`. -/
  | closed
deriving DecidableEq, Repr

/-- What the loop's thread has still to do in a function of the connection. -/
inductive Sys.Instr where
  | queueWriteComplete
  | queueHighWaterMark (len : Nat)
  /-- The test of `state_` at the end of `handle_write`. -/
  | finishWrite
deriving DecidableEq, Repr

/-- The functor an instruction queues. -/
def Sys.Instr.task : Sys.Instr → Option Task
  | .queueWriteComplete => some .writeComplete
  | .queueHighWaterMark len => some (.highWaterMark len)
  | .finishWrite => none

def Effect.instr : Effect → Option Sys.Instr
  | .queueWriteComplete => some .queueWriteComplete
  | .queueHighWaterMark len => some (.queueHighWaterMark len)
  | _ => none

structure Sys where
  loop : Eloop Task
  conn : TcpConn
  callers : Tid → CallerPc
  agenda : List Sys.Instr
  /-- What the connection has done. -/
  log : List Effect

namespace Sys

/-- A connection just created, on an eloop that has not started. -/
def create (tid : Tid) (c : TcpConn) : Sys := ⟨.create tid, c, fun _ => .idle, [], []⟩

/-- The thread is in none of the connection's functions. -/
def Free (s : Sys) (t : Tid) : Prop := s.callers t = .idle ∧ (t = s.loop.threadId → s.agenda = [])

instance (s : Sys) (t : Tid) : Decidable (s.Free t) := inferInstanceAs (Decidable (_ ∧ _))

/-- The thread can call `send` or `shutdown`. -/
def MayCall (s : Sys) (t : Tid) : Prop := s.Free t ∧ s.loop.MayCall t

instance (s : Sys) (t : Tid) : Decidable (s.MayCall t) := inferInstanceAs (Decidable (_ ∧ _))

/-- The channel's callbacks are called while `loop` handles the active channels. -/
def Handling (s : Sys) : Prop :=
  s.MayCall s.loop.threadId ∧ (s.loop.pc = .handling true ∨ s.loop.pc = .handling false)

instance (s : Sys) : Decidable s.Handling := inferInstanceAs (Decidable (_ ∧ _))

inductive Act where
  /-- A step of the eloop that is none of the connection's. -/
  | eloop (a : Eloop.Label Task)
  | establish
  /-- A `send` that finds the connection connected; any other does nothing. -/
  | send (t : Tid) (data : Bytes) (w : WriteResult)
  | queueSend (t : Tid) (data : Bytes)
  /-- A `shutdown` that finds the connection connected; any other does nothing. -/
  | shutdown (t : Tid)
  /-- `set_state(DISCONNENTING)`. -/
  | setState (t : Tid)
  /-- `run_in_loop` with `shutdown_in_loop`. -/
  | runShutdown (t : Tid)
  /-- `do_pending_functors` calls a functor. -/
  | call (f : Task) (w : WriteResult)
  | handleRead (r : ReadResult)
  | handleWrite (w : WriteResult)
  | handleClose
  /-- The loop's thread queues the next functor on its agenda. -/
  | queue
  | finishWrite
deriving DecidableEq, Repr

/-- The steps of the eloop that threads take for themselves. -/
def Allows (s : Sys) : Eloop.Label Task → Prop
  | .emplace t (.user _) | .storeQuit t => s.Free t
  | .emplace _ _ | .call _ => False
  | .testWakeup _ | .wakeup _ | .endQueue _ | .wakeupQuit _ => True
  | _ => s.Free s.loop.threadId

instance (s : Sys) (a : Eloop.Label Task) : Decidable (s.Allows a) := by
  unfold Allows
  split <;> infer_instance

def setCaller (s : Sys) (t : Tid) (p : CallerPc) : Sys := {s with callers := Function.update s.callers t p}

/-- The connection after one of its functions on the loop's thread. -/
def after (s : Sys) (c : TcpConn) (effects : List Effect) (drained : Bool) : Sys :=
  {s with conn := c, log := s.log ++ effects,
          agenda := effects.filterMap Effect.instr ++ if drained then [.finishWrite] else []}

def onLoop (s : Sys) (a : Eloop.Label Task) : Option Sys :=
  match s.loop.step a with
  | some l => some {s with loop := l}
  | none => none

/-- A call that returns leads on; for one that throws there is no step. -/
def perform (s : Sys) (r : Except Fault (TcpConn × List Effect)) : Option Sys :=
  match r with
  | .ok (c, effects) => some (s.after c effects false)
  | .error _ => none

/-- What a functor does to the connection. What the user's own do, and the callbacks, are
further steps. -/
def body (s : Sys) (w : WriteResult) : Task → Option Sys
  | .sendInLoop m => s.perform (s.conn.sendInLoop m.data w)
  | .shutdownInLoop => s.perform (.ok (s.conn, s.conn.shutdownInLoop))
  | .writeComplete | .highWaterMark _ | .user _ => some s

def step (s : Sys) : Act → Option Sys
  | .eloop a => if s.Allows a then s.onLoop a else none
  | .establish =>
    if s.MayCall s.loop.threadId ∧ s.conn.state = .connenting then s.perform (.ok s.conn.establishConn) else none
  | .send t data w =>
    if s.MayCall t ∧ s.conn.state = .connected then
      if t = s.loop.threadId then s.perform (s.conn.sendInLoop data w) else some (s.setCaller t (.sending data))
    else none
  | .queueSend t data =>
    if s.callers t = .sending data then (s.setCaller t .idle).onLoop (.emplace t (.sendInLoop ⟨t, data⟩)) else none
  | .shutdown t => if s.MayCall t ∧ s.conn.state = .connected then some (s.setCaller t .closing) else none
  | .setState t =>
    if s.callers t = .closing then
      some (setCaller {s with conn := {s.conn with state := .disconnenting}} t .closed)
    else none
  | .runShutdown t =>
    if s.callers t = .closed then
      if t = s.loop.threadId then (s.setCaller t .idle).perform (.ok (s.conn, s.conn.shutdownInLoop))
      else (s.setCaller t .idle).onLoop (.emplace t .shutdownInLoop)
    else none
  | .call f w => if s.Free s.loop.threadId then (s.onLoop (.call f)).bind fun s => s.body w f else none
  | .handleRead r => if s.Handling then s.perform (s.conn.handleRead r) else none
  | .handleWrite w =>
    if s.Handling then
      match s.conn.flush w with
      | .ok (c, effects, drained) => some (s.after c effects drained)
      | .error _ => none
    else none
  | .handleClose => if s.Handling then s.perform (.ok s.conn.handleClose) else none
  | .queue =>
    match s.agenda with
    | [] => none
    | i :: rest => i.task.bind fun f => {s with agenda := rest}.onLoop (.emplace s.loop.threadId f)
  | .finishWrite =>
    match s.agenda with
    | .finishWrite :: rest =>
      if s.loop.AtRest then some {s with agenda := rest, log := s.log ++ s.conn.finishWrite true} else none
    | _ => none

/-- All that a step can do. -/
inductive Step (s : Sys) : Act → Sys → Prop where
  | eloop (a : Eloop.Label Task) (l : Eloop Task) : s.Allows a → s.loop.step a = some l →
      Step s (.eloop a) {s with loop := l}
  | establish : s.conn.state = .connenting →
      Step s .establish (s.after s.conn.establishConn.1 s.conn.establishConn.2 false)
  | sendOwn (data : Bytes) (w : WriteResult) (c : TcpConn) (es : List Effect) : s.Free s.loop.threadId →
      s.conn.state = .connected → s.conn.sendInLoop data w = .ok (c, es) →
      Step s (.send s.loop.threadId data w) (s.after c es false)
  | sendOther (t : Tid) (data : Bytes) (w : WriteResult) : s.Free t → s.conn.state = .connected →
      t ≠ s.loop.threadId → Step s (.send t data w) (s.setCaller t (.sending data))
  | queueSend (t : Tid) (data : Bytes) (l : Eloop Task) : s.callers t = .sending data →
      s.loop.step (.emplace t (.sendInLoop ⟨t, data⟩)) = some l →
      Step s (.queueSend t data) {s.setCaller t .idle with loop := l}
  | shutdown (t : Tid) : s.Free t → s.conn.state = .connected → Step s (.shutdown t) (s.setCaller t .closing)
  | setState (t : Tid) : s.callers t = .closing →
      Step s (.setState t) (setCaller {s with conn := {s.conn with state := .disconnenting}} t .closed)
  | shutdownOwn : s.callers s.loop.threadId = .closed →
      Step s (.runShutdown s.loop.threadId)
        ((s.setCaller s.loop.threadId .idle).after s.conn s.conn.shutdownInLoop false)
  | shutdownOther (t : Tid) (l : Eloop Task) : s.callers t = .closed →
      s.loop.step (.emplace t .shutdownInLoop) = some l →
      Step s (.runShutdown t) {s.setCaller t .idle with loop := l}
  | callSend (m : Message) (w : WriteResult) (l : Eloop Task) (c : TcpConn) (es : List Effect) :
      s.loop.step (.call (.sendInLoop m)) = some l → s.conn.sendInLoop m.data w = .ok (c, es) →
      Step s (.call (.sendInLoop m) w) (after {s with loop := l} c es false)
  | callShutdown (w : WriteResult) (l : Eloop Task) : s.loop.step (.call .shutdownInLoop) = some l →
      Step s (.call .shutdownInLoop w) (after {s with loop := l} s.conn s.conn.shutdownInLoop false)
  | callOther (f : Task) (w : WriteResult) (l : Eloop Task) : f.message = none → f ≠ .shutdownInLoop →
      s.loop.step (.call f) = some l → Step s (.call f w) {s with loop := l}
  | handleRead (r : ReadResult) (c : TcpConn) (es : List Effect) : s.conn.handleRead r = .ok (c, es) →
      Step s (.handleRead r) (s.after c es false)
  | handleWrite (w : WriteResult) (c : TcpConn) (es : List Effect) (drained : Bool) :
      s.conn.flush w = .ok (c, es, drained) → Step s (.handleWrite w) (s.after c es drained)
  | handleClose : Step s .handleClose (s.after s.conn.handleClose.1 s.conn.handleClose.2 false)
  | queue (i : Instr) (f : Task) (rest : List Instr) (l : Eloop Task) : s.agenda = i :: rest → i.task = some f →
      s.loop.step (.emplace s.loop.threadId f) = some l → Step s .queue {s with loop := l, agenda := rest}
  | finishWrite (rest : List Instr) : s.agenda = .finishWrite :: rest →
      Step s .finishWrite {s with agenda := rest, log := s.log ++ s.conn.finishWrite true}

theorem onLoop_some {s s' : Sys} {a : Eloop.Label Task} (h : s.onLoop a = some s') :
    ∃ l, s.loop.step a = some l ∧ s' = {s with loop := l} := by
  unfold onLoop at h
  split at h
  · rename_i l hl
    exact ⟨l, hl, (Option.some.inj h).symm⟩
  · cases h

theorem perform_some {s s' : Sys} {r : Except Fault (TcpConn × List Effect)} (h : s.perform r = some s') :
    ∃ c es, r = .ok (c, es) ∧ s' = s.after c es false := by
  unfold perform at h
  split at h
  · exact ⟨_, _, rfl, (Option.some.inj h).symm⟩
  · cases h

theorem step_call {s s' : Sys} {f : Task} {w : WriteResult} (h : (s.onLoop (.call f)).bind (·.body w f) = some s') :
    Step s (.call f w) s' := by
  obtain ⟨s₁, hs₁, h⟩ := Option.bind_eq_some_iff.mp h
  obtain ⟨l, hl, rfl⟩ := onLoop_some hs₁
  cases f with
  | sendInLoop m =>
    obtain ⟨c, es, hsend, rfl⟩ := perform_some h
    exact .callSend m w l c es hl hsend
  | shutdownInLoop =>
    cases h
    exact .callShutdown w l hl
  | writeComplete | highWaterMark | user =>
    cases h
    exact .callOther _ w l rfl nofun hl

theorem step_cases {s s' : Sys} {a : Act} (h : step s a = some s') : Step s a s' := by
  cases a with
  | eloop a =>
    simp only [step, Option.ite_none_right_eq_some] at h
    obtain ⟨l, hl, rfl⟩ := onLoop_some h.2
    exact .eloop a l h.1 hl
  | establish =>
    simp only [step, Option.ite_none_right_eq_some] at h
    obtain ⟨c, es, hr, rfl⟩ := perform_some h.2
    cases hr
    exact .establish h.1.2
  | send t data w =>
    simp only [step, Option.ite_none_right_eq_some] at h
    obtain ⟨⟨hmay, hst⟩, h⟩ := h
    by_cases ht : t = s.loop.threadId
    · rw [if_pos ht] at h
      obtain ⟨c, es, hr, rfl⟩ := perform_some h
      subst ht
      exact .sendOwn data w c es hmay.1 hst hr
    · rw [if_neg ht, Option.some.injEq] at h
      exact h ▸ .sendOther t data w hmay.1 hst ht
  | queueSend t data =>
    simp only [step, Option.ite_none_right_eq_some] at h
    obtain ⟨l, hl, rfl⟩ := onLoop_some h.2
    exact .queueSend t data l h.1 hl
  | shutdown t =>
    simp only [step, Option.ite_none_right_eq_some, Option.some.injEq] at h
    exact h.2 ▸ .shutdown t h.1.1.1 h.1.2
  | setState t =>
    simp only [step, Option.ite_none_right_eq_some, Option.some.injEq] at h
    exact h.2 ▸ .setState t h.1
  | runShutdown t =>
    simp only [step, Option.ite_none_right_eq_some] at h
    obtain ⟨hc, h⟩ := h
    by_cases ht : t = s.loop.threadId
    · rw [if_pos ht] at h
      obtain ⟨c, es, hr, rfl⟩ := perform_some h
      cases hr
      subst ht
      exact .shutdownOwn hc
    · rw [if_neg ht] at h
      obtain ⟨l, hl, rfl⟩ := onLoop_some h
      exact .shutdownOther t l hc hl
  | call f w =>
    simp only [step, Option.ite_none_right_eq_some] at h
    exact step_call h.2
  | handleRead r =>
    simp only [step, Option.ite_none_right_eq_some] at h
    obtain ⟨c, es, hr, rfl⟩ := perform_some h.2
    exact .handleRead r c es hr
  | handleWrite w =>
    simp only [step, Option.ite_none_right_eq_some] at h
    obtain ⟨-, h⟩ := h
    split at h
    · rename_i c es drained hr
      exact Option.some.inj h ▸ .handleWrite w c es drained hr
    · cases h
  | handleClose =>
    simp only [step, Option.ite_none_right_eq_some] at h
    obtain ⟨c, es, hr, rfl⟩ := perform_some h.2
    cases hr
    exact .handleClose
  | queue =>
    simp only [step] at h
    split at h
    · cases h
    · rename_i i rest ha
      obtain ⟨f, hf, h⟩ := Option.bind_eq_some_iff.mp h
      obtain ⟨l, hl, rfl⟩ := onLoop_some h
      exact .queue i f rest l ha hf hl
  | finishWrite =>
    simp only [step] at h
    split at h
    · rename_i rest ha
      simp only [Option.ite_none_right_eq_some, Option.some.injEq] at h
      exact h.2 ▸ .finishWrite rest ha
    · cases h

end Sys

end Caimr.Net
