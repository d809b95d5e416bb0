import Caimr.Net.Eloop
import Caimr.Net.TcpConn

/-! `net/tcp_server.cpp` over its loops: the main loop, which accepts connections and keeps
the map of them, and the io loops that own them. A loop's thread goes through `poll`, the
active channels and the queued functors; what a callback or a functor has still to do,
and what it queues on other loops, is on the loop's agenda. Between two steps of one
loop's thread the other loops do as they like. User code runs in a connection's callbacks,
and calls `send` and `shutdown` of that connection there and nowhere else. -/
namespace Caimr.Net
open Transition

/-- A loop, which is also its thread: 0 is the main loop, and the io loops of the thread
pool follow. -/
abbrev LoopId := Nat

/-- The connections, in the order in which they are accepted. -/
abbrev ConnNo := Nat

/-- The functors that the server and its connections queue. -/
inductive Functor where
  | establishConn (o : ConnNo)
  | destroyConn (o : ConnNo)
  | removeConnInLoop (o : ConnNo)
  | writeComplete (o : ConnNo)
  | highWaterMark (o : ConnNo) (len : Nat)
deriving DecidableEq, Repr

/-- What a loop's thread has still to do in a callback or in a functor. -/
inductive Instr where
  | connCallback (o : ConnNo)
  /-- A callback of the connection, which is the user's code, until it returns. -/
  | userCode (o : ConnNo)
  | closeCallback (o : ConnNo)
  /-- The test of `state_` at the end of `handle_write`. -/
  | finishWrite (o : ConnNo)
  /-- `ch_->remove()`, at the end of `destroy_conn`. -/
  | removeChan (o : ConnNo)
  | queue (l : LoopId) (f : Functor)
  /-- The rest of `queue_in_loop`, after the push. -/
  | endQueue (l : LoopId)
  /-- A functor that `run_in_loop` calls at once. -/
  | run (f : Functor)
  /-- The end of a functor. -/
  | running (f : Functor)
deriving DecidableEq, Repr

/-- What the thread of `l` does in `run_in_loop` of the loop `k`. -/
def runInLoop (l k : LoopId) (f : Functor) : Instr := if l = k then .run f else .queue k f

/-- What a connection's function leaves to do, on the loop `l`. -/
def Effect.instrs (l : LoopId) (o : ConnNo) : Effect → List Instr
  | .write .. | .shutdownWrite => []
  | .queueWriteComplete => [.queue l (.writeComplete o)]
  | .queueHighWaterMark len => [.queue l (.highWaterMark o len)]
  | .connCallback => [.connCallback o]
  | .msgCallback => [.userCode o]
  | .closeCallback => [.closeCallback o]
  | .removeChan => [.removeChan o]

/-! ### The server -/

/-- What is recorded of a run. -/
inductive Ev where
  /-- The connection callback, with the connection up or down. -/
  | connCallback (o : ConnNo) (up : Bool)
  | closeCallback (o : ConnNo)
  | queueDestroy (o : ConnNo)
deriving DecidableEq, Repr

structure TcpServer where
  numThreads : Nat
  callbacks : Callbacks
  highWaterMark : Nat
  conn : ConnNo → TcpConn
  accepted : Nat
  /-- `conns_`. -/
  conns : Nat → Option ConnNo
  nextConnId : Nat
  /-- `next_idx_` of the thread pool. -/
  nextIdx : Nat
  log : List Ev

namespace TcpServer

/-- A server just started. -/
def create (numThreads : Nat) (callbacks : Callbacks) (highWaterMark : Nat) : TcpServer :=
  { numThreads := numThreads
    callbacks := callbacks
    highWaterMark := highWaterMark
    conn := fun _ => default
    accepted := 0
    conns := fun _ => none
    nextConnId := 1
    nextIdx := 0
    log := [] }

/-- `get_next_loop`. -/
def getNextLoop (s : TcpServer) : LoopId := if s.numThreads = 0 then 0 else s.nextIdx + 1

/-- A connection after one of its functions, and what the function leaves to do. -/
def settle (s : TcpServer) (o : ConnNo) (r : TcpConn × List Effect) : TcpServer × List Instr :=
  ({s with conn := Function.update s.conn o r.1}, r.2.flatMap (Effect.instrs r.1.loop o))

/-- A call that throws leads nowhere. -/
def settle? (s : TcpServer) (o : ConnNo) (r : Except Fault (TcpConn × List Effect)) :
    Option (TcpServer × List Instr) :=
  match r with
  | .ok r => some (s.settle o r)
  | .error _ => none

def newConn (s : TcpServer) : Option (TcpServer × List Instr) :=
  let l := s.getNextLoop
  match TcpConn.create l s.nextConnId {s.callbacks with close := true} s.highWaterMark with
  | .ok c =>
    some ({s with conn := Function.update s.conn s.accepted c
                  accepted := s.accepted + 1
                  conns := Function.update s.conns s.nextConnId (some s.accepted)
                  nextConnId := (s.nextConnId + 1) % 2 ^ 32
                  nextIdx := if s.numThreads = 0 then s.nextIdx else (s.nextIdx + 1) % s.numThreads},
      [runInLoop 0 l (.establishConn s.accepted)])
  | .error _ => none

/-- `remove_conn`, on the thread of `l`. -/
def removeConn (l : LoopId) (o : ConnNo) : Instr := runInLoop l 0 (.removeConnInLoop o)

/-- The callbacks of a connection's channel, with the kernel's answers to the system calls
they may make. `handle_error` only reads the error and logs it. -/
def handle (s : TcpServer) (o : ConnNo) (r : ReadResult) (w : WriteResult) :
    Chan.Callback → Option (TcpServer × List Instr)
  | .close => some (s.settle o (s.conn o).handleClose)
  | .error => some (s, [])
  | .read => s.settle? o ((s.conn o).handleRead r)
  | .write =>
    match (s.conn o).flush w with
    | .ok (c, effects, drained) =>
      let (s, is) := s.settle o (c, effects)
      some (s, is ++ if drained then [.finishWrite o] else [])
    | .error _ => none

/-- The functors. -/
def body (s : TcpServer) : Functor → TcpServer × List Instr
  | .establishConn o => s.settle o (s.conn o).establishConn
  | .destroyConn o => s.settle o (s.conn o).destroyConn
  | .removeConnInLoop o =>
    ({s with conns := Function.update s.conns (s.conn o).id none}, [.queue (s.conn o).loop (.destroyConn o)])
  | .writeComplete o | .highWaterMark o _ => (s, [.userCode o])

/-- The instructions that do not concern another loop's queue. User code goes on until it
returns. -/
def exec (s : TcpServer) (l : LoopId) : Instr → Option (TcpServer × List Instr)
  | .connCallback o => some ({s with log := s.log ++ [.connCallback o (s.conn o).isConnected]}, [.userCode o])
  | .closeCallback o => some ({s with log := s.log ++ [.closeCallback o]}, [removeConn l o])
  | .finishWrite o => some (s.settle o (s.conn o, (s.conn o).finishWrite true))
  | .removeChan o => some (s.settle o ({s.conn o with ch := (s.conn o).ch.remove}, []))
  | .run f =>
    let (s, is) := s.body f
    some (s, is ++ [.running f])
  | .running _ => some (s, [])
  | .userCode _ | .queue .. | .endQueue _ => none

/-- What is recorded when a functor is queued. -/
def recordQueue (s : TcpServer) : Functor → TcpServer
  | .destroyConn o => {s with log := s.log ++ [.queueDestroy o]}
  | _ => s

end TcpServer

/-! ### The server and its loops -/

structure Loop where
  eloop : Eloop Functor
  /-- The channels of `active_chs_` that have not been handled yet, with their `revents_`. -/
  active : List (ConnNo × EpollMask)
  /-- The callbacks that the channel being handled has still to call. -/
  callbacks : List (ConnNo × Chan.Callback)
  agenda : List Instr

/-- The functors that are queued, in the batch or behind it. -/
def Loop.tasks (p : Loop) : List Functor := p.eloop.pc.batch ++ p.eloop.pendingFunctors

/-- The thread is in no callback and in no functor. -/
def Loop.Free (p : Loop) : Prop := p.agenda = [] ∧ p.callbacks = []

instance (p : Loop) : Decidable p.Free := inferInstanceAs (Decidable (_ ∧ _))

/-- The steps of an eloop that are not the server's. -/
def Loop.Allows (p : Loop) : Eloop.Label Functor → Prop
  | .emplace .. | .endQueue _ | .call _ | .pollReturns _ => False
  | .testWakeup _ | .wakeup _ | .storeQuit _ | .wakeupQuit _ => True
  | .handleRead => p.Free
  | _ => p.Free ∧ p.active = []

instance (p : Loop) (a : Eloop.Label Functor) : Decidable (p.Allows a) := by
  unfold Loop.Allows
  split <;> infer_instance

structure Host where
  server : TcpServer
  loops : LoopId → Loop

namespace Host

def create (numThreads : Nat) (callbacks : Callbacks) (highWaterMark : Nat) : Host :=
  ⟨.create numThreads callbacks highWaterMark, fun l => ⟨.create l, [], [], []⟩⟩

inductive Act where
  | eloop (l : LoopId) (a : Eloop.Label Functor)
  /-- `poll` returns with these channels active. -/
  | poll (l : LoopId) (woken : Bool) (active : List (ConnNo × EpollMask))
  /-- `handle_event` of the next active channel. -/
  | dispatch (l : LoopId)
  /-- The next callback of the channel. -/
  | callback (l : LoopId) (r : ReadResult) (w : WriteResult)
  /-- The listening socket is readable, and `accept` gives a connection. -/
  | accept
  | call (l : LoopId) (f : Functor)
  /-- The next instruction of the agenda. -/
  | exec (l : LoopId)
  /-- User code calls `send` of its connection. -/
  | send (l : LoopId) (data : Bytes) (w : WriteResult)
  | shutdown (l : LoopId)
  /-- User code returns. -/
  | endUserCode (l : LoopId)
deriving DecidableEq, Repr

/-- What epoll can report for a loop: for channels it holds, events they are registered
for, and errors and hang-ups in any case. -/
def Reports (h : Host) (l : LoopId) (active : List (ConnNo × EpollMask)) : Prop :=
  (active.map Prod.fst).Nodup ∧ ∀ e ∈ active, e.1 < h.server.accepted ∧ (h.server.conn e.1).loop = l ∧
    e.2 ≠ noneEvent ∧ ∃ mask ∈ (h.server.conn e.1).ch.registered, e.2.within (mask.union alwaysReported) = true

instance (o : Option EpollMask) (p : EpollMask → Prop) [DecidablePred p] : Decidable (∃ m ∈ o, p m) :=
  match o with
  | none => .isFalse (by simp)
  | some m => decidable_of_iff (p m) (by simp)

instance (h : Host) (l : LoopId) (active : List (ConnNo × EpollMask)) : Decidable (h.Reports l active) :=
  inferInstanceAs (Decidable (_ ∧ _))

def setServer (h : Host) (s : TcpServer) : Host := {h with server := s}

def setEloop (h : Host) (l : LoopId) (e : Eloop Functor) : Host :=
  {h with loops := Function.update h.loops l {h.loops l with eloop := e}}

def setActive (h : Host) (l : LoopId) (active : List (ConnNo × EpollMask)) : Host :=
  {h with loops := Function.update h.loops l {h.loops l with active := active}}

def setCallbacks (h : Host) (l : LoopId) (callbacks : List (ConnNo × Chan.Callback)) : Host :=
  {h with loops := Function.update h.loops l {h.loops l with callbacks := callbacks}}

def setAgenda (h : Host) (l : LoopId) (agenda : List Instr) : Host :=
  {h with loops := Function.update h.loops l {h.loops l with agenda := agenda}}

/-- A step of one of the eloops. -/
def onEloop (h : Host) (l : LoopId) (a : Eloop.Label Functor) : Option Host :=
  if l ≤ h.server.numThreads then ((h.loops l).eloop.step a).map (h.setEloop l) else none

/-- The thread of `l` has done something, and goes on with these instructions. -/
def resume (h : Host) (l : LoopId) (rest : List Instr) (r : TcpServer × List Instr) : Host :=
  (h.setServer r.1).setAgenda l (r.2 ++ rest)

/-- The first instruction of the agenda of `l`. -/
def perform (h : Host) (l : LoopId) (rest : List Instr) : Instr → Option Host
  | .queue k f =>
    (h.resume l rest (h.server.recordQueue f, [.endQueue k])).onEloop k (.emplace l f)
  | .endQueue k => (h.setAgenda l rest).onEloop k (.endQueue l)
  | i => (h.server.exec l i).map (h.resume l rest)

def step (h : Host) : Act → Option Host
  | .eloop l a => if (h.loops l).Allows a then h.onEloop l a else none
  | .poll l woken active =>
    if (h.loops l).Free ∧ h.Reports l active then (h.setActive l active).onEloop l (.pollReturns woken) else none
  | .dispatch l =>
    match (h.loops l).active with
    | (o, revents) :: rest =>
      if l ≤ h.server.numThreads ∧ (h.loops l).Free then
        some ((h.setActive l rest).setCallbacks l ((Chan.handleEventWithGuard revents).map (o, ·)))
      else none
    | [] => none
  | .callback l r w =>
    match (h.loops l).callbacks with
    | (o, cb) :: rest =>
      if l ≤ h.server.numThreads ∧ (h.loops l).agenda = [] then
        (h.server.handle o r w cb).map ((h.setCallbacks l rest).resume l [])
      else none
    | [] => none
  | .accept =>
    if (h.loops 0).eloop.pc.isHandling = true ∧ (h.loops 0).Free then h.server.newConn.map (h.resume 0 [])
    else none
  | .call l f =>
    if (h.loops l).agenda = [] then
      (h.resume l [] ((h.server.body f).1, (h.server.body f).2 ++ [.running f])).onEloop l (.call f)
    else none
  | .exec l =>
    match (h.loops l).agenda with
    | i :: rest => if l ≤ h.server.numThreads then h.perform l rest i else none
    | [] => none
  | .send l data w =>
    match (h.loops l).agenda with
    | .userCode o :: rest =>
      if l ≤ h.server.numThreads then
        (h.server.settle? o ((h.server.conn o).send data w)).map (h.resume l (.userCode o :: rest))
      else none
    | _ => none
  | .shutdown l =>
    match (h.loops l).agenda with
    | .userCode o :: rest =>
      if l ≤ h.server.numThreads then
        some (h.resume l (.userCode o :: rest) (h.server.settle o (h.server.conn o).shutdown))
      else none
    | _ => none
  | .endUserCode l =>
    match (h.loops l).agenda with
    | .userCode _ :: rest => if l ≤ h.server.numThreads then some (h.setAgenda l rest) else none
    | _ => none

/-- All that a step can do. -/
inductive Step (h : Host) : Act → Host → Prop where
  | eloop (l : LoopId) (a : Eloop.Label Functor) (e : Eloop Functor) : (h.loops l).Allows a →
      l ≤ h.server.numThreads → (h.loops l).eloop.step a = some e → Step h (.eloop l a) (h.setEloop l e)
  | poll (l : LoopId) (woken : Bool) (active : List (ConnNo × EpollMask)) (e : Eloop Functor) :
      (h.loops l).Free → h.Reports l active → l ≤ h.server.numThreads →
      (h.loops l).eloop.step (.pollReturns woken) = some e →
      Step h (.poll l woken active) ((h.setActive l active).setEloop l e)
  | dispatch (l : LoopId) (o : ConnNo) (revents : EpollMask) (rest : List (ConnNo × EpollMask)) :
      (h.loops l).active = (o, revents) :: rest → l ≤ h.server.numThreads → (h.loops l).Free →
      Step h (.dispatch l) ((h.setActive l rest).setCallbacks l ((Chan.handleEventWithGuard revents).map (o, ·)))
  | callback (l : LoopId) (r : ReadResult) (w : WriteResult) (o : ConnNo) (cb : Chan.Callback)
      (rest : List (ConnNo × Chan.Callback)) (x : TcpServer × List Instr) :
      (h.loops l).callbacks = (o, cb) :: rest → l ≤ h.server.numThreads → (h.loops l).agenda = [] →
      h.server.handle o r w cb = some x → Step h (.callback l r w) ((h.setCallbacks l rest).resume l [] x)
  | accept (x : TcpServer × List Instr) : (h.loops 0).eloop.pc.isHandling = true → (h.loops 0).Free →
      h.server.newConn = some x → Step h .accept (h.resume 0 [] x)
  | call (l : LoopId) (f : Functor) (e : Eloop Functor) : (h.loops l).agenda = [] → l ≤ h.server.numThreads →
      (h.loops l).eloop.step (.call f) = some e →
      Step h (.call l f) ((h.resume l [] ((h.server.body f).1, (h.server.body f).2 ++ [.running f])).setEloop l e)
  | exec (l : LoopId) (i : Instr) (rest : List Instr) (x : TcpServer × List Instr) :
      (h.loops l).agenda = i :: rest → l ≤ h.server.numThreads → h.server.exec l i = some x →
      Step h (.exec l) (h.resume l rest x)
  | queue (l k : LoopId) (f : Functor) (rest : List Instr) (e : Eloop Functor) :
      (h.loops l).agenda = .queue k f :: rest → l ≤ h.server.numThreads → k ≤ h.server.numThreads →
      (h.loops k).eloop.step (.emplace l f) = some e →
      Step h (.exec l) ((h.resume l rest (h.server.recordQueue f, [.endQueue k])).setEloop k e)
  | endQueue (l k : LoopId) (rest : List Instr) (e : Eloop Functor) :
      (h.loops l).agenda = .endQueue k :: rest → l ≤ h.server.numThreads → k ≤ h.server.numThreads →
      (h.loops k).eloop.step (.endQueue l) = some e → Step h (.exec l) ((h.setAgenda l rest).setEloop k e)
  | send (l : LoopId) (data : Bytes) (w : WriteResult) (o : ConnNo) (rest : List Instr)
      (x : TcpServer × List Instr) :
      (h.loops l).agenda = .userCode o :: rest → l ≤ h.server.numThreads →
      h.server.settle? o ((h.server.conn o).send data w) = some x →
      Step h (.send l data w) (h.resume l (.userCode o :: rest) x)
  | shutdown (l : LoopId) (o : ConnNo) (rest : List Instr) : (h.loops l).agenda = .userCode o :: rest →
      l ≤ h.server.numThreads →
      Step h (.shutdown l) (h.resume l (.userCode o :: rest) (h.server.settle o (h.server.conn o).shutdown))
  | endUserCode (l : LoopId) (o : ConnNo) (rest : List Instr) : (h.loops l).agenda = .userCode o :: rest →
      l ≤ h.server.numThreads → Step h (.endUserCode l) (h.setAgenda l rest)

/-! ### What the updates leave alone -/

section Updates
variable (h : Host) (l k : LoopId)

@[simp] theorem setServer_loops (s : TcpServer) : (h.setServer s).loops = h.loops := rfl
@[simp] theorem setServer_server (s : TcpServer) : (h.setServer s).server = s := rfl
@[simp] theorem setEloop_server (e : Eloop Functor) : (h.setEloop l e).server = h.server := rfl
@[simp] theorem setActive_server (a : List (ConnNo × EpollMask)) : (h.setActive l a).server = h.server := rfl
@[simp] theorem setCallbacks_server (c : List (ConnNo × Chan.Callback)) :
    (h.setCallbacks l c).server = h.server := rfl
@[simp] theorem setAgenda_server (a : List Instr) : (h.setAgenda l a).server = h.server := rfl

theorem setEloop_loops (e : Eloop Functor) :
    (h.setEloop l e).loops k = if k = l then {h.loops l with eloop := e} else h.loops k :=
  Function.update_apply ..

theorem setActive_loops (a : List (ConnNo × EpollMask)) :
    (h.setActive l a).loops k = if k = l then {h.loops l with active := a} else h.loops k :=
  Function.update_apply ..

theorem setCallbacks_loops (c : List (ConnNo × Chan.Callback)) :
    (h.setCallbacks l c).loops k = if k = l then {h.loops l with callbacks := c} else h.loops k :=
  Function.update_apply ..

theorem setAgenda_loops (a : List Instr) :
    (h.setAgenda l a).loops k = if k = l then {h.loops l with agenda := a} else h.loops k :=
  Function.update_apply ..

/-- No update but `setEloop` touches an eloop. -/
@[simp] theorem setAgenda_eloop (a : List Instr) : ((h.setAgenda l a).loops k).eloop = (h.loops k).eloop := by
  rw [setAgenda_loops]
  split
  · rename_i hk
    rw [hk]
  · rfl

@[simp] theorem setActive_eloop (a : List (ConnNo × EpollMask)) :
    ((h.setActive l a).loops k).eloop = (h.loops k).eloop := by
  rw [setActive_loops]
  split
  · rename_i hk
    rw [hk]
  · rfl

end Updates

theorem onEloop_some {h h' : Host} {l : LoopId} {a : Eloop.Label Functor} (hs : h.onEloop l a = some h') :
    l ≤ h.server.numThreads ∧ ∃ e, (h.loops l).eloop.step a = some e ∧ h' = h.setEloop l e := by
  simp only [onEloop, Option.ite_none_right_eq_some, Option.map_eq_some_iff] at hs
  obtain ⟨hl, e, he, rfl⟩ := hs
  exact ⟨hl, e, he, rfl⟩

/-- Queueing a functor changes nothing but the record. -/
@[simp] theorem recordQueue_numThreads (s : TcpServer) (f : Functor) :
    (s.recordQueue f).numThreads = s.numThreads := by
  cases f <;> rfl

@[simp] theorem body_numThreads (s : TcpServer) (f : Functor) : (s.body f).1.numThreads = s.numThreads := by
  cases f <;> rfl

theorem perform_cases {h h' : Host} {l : LoopId} {i : Instr} {rest : List Instr}
    (ha : (h.loops l).agenda = i :: rest) (hl : l ≤ h.server.numThreads) (hs : h.perform l rest i = some h') :
    Step h (.exec l) h' := by
  have hexec : ∀ {j : Instr}, (h.loops l).agenda = j :: rest →
      (h.server.exec l j).map (h.resume l rest) = some h' → Step h (.exec l) h' := by
    intro j hj hs
    obtain ⟨x, hx, rfl⟩ := Option.map_eq_some_iff.mp hs
    exact .exec l j rest x hj hl hx
  cases i with
  | queue k f =>
    obtain ⟨hk, e, he, rfl⟩ := onEloop_some hs
    rw [resume, setAgenda_eloop, setServer_loops] at he
    rw [resume, setAgenda_server, setServer_server, recordQueue_numThreads] at hk
    exact .queue l k f rest e ha hl hk he
  | endQueue k =>
    obtain ⟨hk, e, he, rfl⟩ := onEloop_some hs
    rw [setAgenda_eloop] at he
    exact .endQueue l k rest e ha hl hk he
  | connCallback | userCode | closeCallback | finishWrite | removeChan | run | running => exact hexec ha hs

theorem step_cases {h h' : Host} {a : Act} (hs : h.step a = some h') : Step h a h' := by
  cases a with
  | eloop l a =>
    simp only [step, Option.ite_none_right_eq_some] at hs
    obtain ⟨ha, hs⟩ := hs
    obtain ⟨hl, e, he, rfl⟩ := onEloop_some hs
    exact .eloop l a e ha hl he
  | poll l woken active =>
    simp only [step, Option.ite_none_right_eq_some] at hs
    obtain ⟨⟨hfree, hrep⟩, hs⟩ := hs
    obtain ⟨hl, e, he, rfl⟩ := onEloop_some hs
    rw [setActive_eloop] at he
    exact .poll l woken active e hfree hrep hl he
  | dispatch l =>
    simp only [step] at hs
    split at hs <;> simp only [Option.ite_none_right_eq_some, Option.some.injEq, reduceCtorEq] at hs
    rename_i o revents rest ha
    obtain ⟨⟨hl, hfree⟩, rfl⟩ := hs
    exact .dispatch l o revents rest ha hl hfree
  | callback l r w =>
    simp only [step] at hs
    split at hs <;> simp only [Option.ite_none_right_eq_some, Option.map_eq_some_iff, reduceCtorEq] at hs
    rename_i o cb rest hc
    obtain ⟨⟨hl, ha⟩, x, hx, rfl⟩ := hs
    exact .callback l r w o cb rest x hc hl ha hx
  | accept =>
    simp only [step, Option.ite_none_right_eq_some, Option.map_eq_some_iff] at hs
    obtain ⟨⟨hpc, hfree⟩, x, hx, rfl⟩ := hs
    exact .accept x hpc hfree hx
  | call l f =>
    simp only [step, Option.ite_none_right_eq_some] at hs
    obtain ⟨ha, hs⟩ := hs
    obtain ⟨hl, e, he, rfl⟩ := onEloop_some hs
    rw [resume, setAgenda_eloop, setServer_loops] at he
    rw [resume, setAgenda_server, setServer_server, body_numThreads] at hl
    exact .call l f e ha hl he
  | exec l =>
    simp only [step] at hs
    split at hs <;> simp only [Option.ite_none_right_eq_some, reduceCtorEq] at hs
    rename_i i rest ha
    exact perform_cases ha hs.1 hs.2
  | send l data w =>
    simp only [step] at hs
    split at hs <;> simp only [Option.ite_none_right_eq_some, Option.map_eq_some_iff, reduceCtorEq] at hs
    rename_i o rest ha
    obtain ⟨hl, x, hx, rfl⟩ := hs
    exact .send l data w o rest x ha hl hx
  | shutdown l =>
    simp only [step] at hs
    split at hs <;> simp only [Option.ite_none_right_eq_some, Option.some.injEq, reduceCtorEq] at hs
    rename_i o rest ha
    obtain ⟨hl, rfl⟩ := hs
    exact .shutdown l o rest ha hl
  | endUserCode l =>
    simp only [step] at hs
    split at hs <;> simp only [Option.ite_none_right_eq_some, Option.some.injEq, reduceCtorEq] at hs
    rename_i o rest ha
    obtain ⟨hl, rfl⟩ := hs
    exact .endUserCode l o rest ha hl

end Host

end Caimr.Net
