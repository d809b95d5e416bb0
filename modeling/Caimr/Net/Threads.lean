import Caimr.Net.ConnLife
import Caimr.Net.Stream
import Caimr.Net.TcpServer

/-! A `tcp_server` as its threads see it. A thread has its own list of what it has still to
do; the loops share nothing with it but their queues, and each knows the thread that
constructed it, `thread_id_`. So `run_in_loop` compares two threads, as the code does, and
who runs what is for the threads to decide, not for the model: an io loop runs on the
thread of `thread_func`, user code on any thread. Each access to `conns_` and
`next_conn_id_`, and each call of a connection's function, is recorded with its thread.
Waking a loop up is left out: `poll` may return at any time. -/
namespace Caimr.Net
open Transition

namespace Threads

/-- The functors on the queues of the loops. -/
inductive Job where
  | establishConn (o : ConnNo)
  | destroyConn (o : ConnNo)
  | removeConnInLoop (o : ConnNo)
  | sendInLoop (o : ConnNo) (data : Bytes)
  | shutdownInLoop (o : ConnNo)
  /-- `write_complete_callback_` or `high_water_mark_callback_`. -/
  | callback (o : ConnNo)
  /-- `acceptor::listen`. -/
  | listen
deriving DecidableEq, Repr

/-- The functions of a connection that must run on its loop's thread. -/
inductive Function where
  | establishConn
  | destroyConn
  | sendInLoop
  | shutdownInLoop
  | handleRead
  | handleWrite
  | handleClose
  | handleError
deriving DecidableEq, Repr

/-- What is recorded. -/
inductive Access where
  | call (o : ConnNo) (f : Function)
  | conns
  | nextConnId
deriving DecidableEq, Repr

/-- What a thread has still to do. -/
inductive Instr where
  | call (j : Job)
  | runInLoop (l : LoopId) (j : Job)
  | queueInLoop (l : LoopId) (j : Job)
  | doPendingFunctors (l : LoopId)
  | handle (o : ConnNo) (cb : Chan.Callback)
  /-- The test of `state_` at the end of `handle_write`. -/
  | finishWrite (o : ConnNo)
  | closeCallback (o : ConnNo)
  /-- `ch_->remove()`, at the end of `destroy_conn`. -/
  | removeChan (o : ConnNo)
  /-- `send`, after its load of `state_`. -/
  | send (o : ConnNo) (data : Bytes)
  /-- `shutdown`, after its load of `state_`. -/
  | shutdown (o : ConnNo)
  /-- User code, until it returns. -/
  | userCode
  /-- `acceptor::handle_read`. -/
  | accept
  /-- One round of the loop in `~tcp_server`. -/
  | destroyEntry (o : ConnNo)
  /-- `eloop_thread::start_loop`. -/
  | startLoop
  /-- The wait of `start_loop`, for the thread `u`. -/
  | awaitLoop (u : Tid)
  /-- `thread_func`, from its start. -/
  | threadFunc
  /-- `loop_ = &loop`. -/
  | publish (l : LoopId)
  | loop (l : LoopId)
deriving DecidableEq, Repr

/-- What of an eloop other threads use. -/
structure Site where
  threadId : Tid
  pendingFunctors : List Job
deriving DecidableEq, Repr

/-- The kernel's answers to the system calls of one instruction. -/
structure Answers where
  read : ReadResult
  write : WriteResult
  /-- Whether `accept` gives a connection. -/
  accept : Bool
deriving DecidableEq, Repr

/-- An active channel. -/
inductive Active where
  | acceptor
  | conn (o : ConnNo) (revents : EpollMask)
deriving DecidableEq, Repr

end Threads

open Threads in
structure Threads where
  numThreads : Nat
  callbacks : Callbacks
  highWaterMark : Nat
  conn : ConnNo → TcpConn
  accepted : Nat
  /-- `conns_`. -/
  conns : List (Nat × ConnNo)
  nextConnId : Nat
  started : Bool
  listening : Bool
  /-- The eloops, in the order in which they are constructed; the first is the server's own. -/
  sites : List Site
  /-- `loop_` of the `eloop_thread` that runs on a thread. -/
  published : Tid → Option LoopId
  /-- `loops_` of the thread pool. -/
  loops : List LoopId
  nextIdx : Nat
  /-- The loop that a thread is in `loop` of. -/
  looping : Tid → Option LoopId
  agenda : Tid → List Threads.Instr
  log : List (Tid × Access)

namespace Threads

/-- A server constructed on the thread `t`, on whose loop it will accept. -/
def create (t : Tid) (numThreads : Nat) (callbacks : Callbacks) (highWaterMark : Nat) : Threads :=
  { numThreads := numThreads
    callbacks := callbacks
    highWaterMark := highWaterMark
    conn := fun _ => default
    accepted := 0
    conns := []
    nextConnId := 1
    started := false
    listening := false
    sites := [⟨t, []⟩]
    published := fun _ => none
    loops := []
    nextIdx := 0
    looping := fun _ => none
    agenda := fun _ => []
    log := [(t, .conns), (t, .nextConnId)] }

/-- `thread_id_` of a loop. -/
def threadOf (s : Threads) (l : LoopId) : Option Tid := s.sites[l]?.map Site.threadId

def record (s : Threads) (t : Tid) (as : List Access) : Threads := {s with log := s.log ++ as.map (t, ·)}

def setAgenda (s : Threads) (t : Tid) (agenda : List Instr) : Threads :=
  {s with agenda := Function.update s.agenda t agenda}

def setConn (s : Threads) (o : ConnNo) (c : TcpConn) : Threads := {s with conn := Function.update s.conn o c}

def setPending (s : Threads) (l : LoopId) (jobs : List Job) : Threads :=
  {s with sites := s.sites.modify l fun site => {site with pendingFunctors := jobs}}

def pending (s : Threads) (l : LoopId) : List Job := s.sites[l]?.elim [] Site.pendingFunctors

/-- The push of `queue_in_loop`. -/
def push (s : Threads) (l : LoopId) (j : Job) : Threads := s.setPending l (s.pending l ++ [j])

/-! ### The connection's functions -/

/-- What a function of a connection leaves to do. -/
def instrs (o : ConnNo) (l : LoopId) : Effect → List Instr
  | .write .. | .shutdownWrite => []
  | .queueWriteComplete | .queueHighWaterMark _ => [.queueInLoop l (.callback o)]
  | .connCallback | .msgCallback => [.userCode]
  | .closeCallback => [.closeCallback o]
  | .removeChan => [.removeChan o]

/-- The functions `fs` of a connection have run. -/
def after (s : Threads) (t : Tid) (o : ConnNo) (fs : List Function) (r : TcpConn × List Effect) :
    Threads × List Instr :=
  ((s.record t (fs.map (.call o))).setConn o r.1, r.2.flatMap (instrs o (s.conn o).loop))

/-- A call that throws leads nowhere. -/
def after? (s : Threads) (t : Tid) (o : ConnNo) (fs : List Function) (r : Except Fault (TcpConn × List Effect)) :
    Option (Threads × List Instr) :=
  match r with
  | .ok r => some (s.after t o fs r)
  | .error _ => none

/-- The functions that `handle_read` comes to. -/
def readFunctions : ReadResult → List Function
  | .received [] => [.handleRead, .handleClose]
  | .received (_ :: _) => [.handleRead]
  | .fails _ => [.handleRead, .handleError]

def handle (s : Threads) (t : Tid) (k : Answers) (o : ConnNo) : Chan.Callback → Option (Threads × List Instr)
  | .close => some (s.after t o [.handleClose] (s.conn o).handleClose)
  | .error => some (s.record t [.call o .handleError], [])
  | .read => s.after? t o (readFunctions k.read) ((s.conn o).handleRead k.read)
  | .write =>
    match (s.conn o).flush k.write with
    | .ok (c, effects, drained) =>
      let (s, is) := s.after t o [.handleWrite] (c, effects)
      some (s, is ++ if drained then [.finishWrite o] else [])
    | .error _ => none

/-! ### The server's functions -/

/-- `get_next_loop`. -/
def getNextLoop (s : Threads) : Option LoopId := if s.loops = [] then some 0 else s.loops[s.nextIdx]?

def newConn (s : Threads) (t : Tid) : Option (Threads × List Instr) :=
  match s.getNextLoop with
  | some l =>
    match TcpConn.create l s.nextConnId {s.callbacks with close := true} s.highWaterMark with
    | .ok c =>
      some ({(s.record t [.nextConnId, .conns]).setConn s.accepted c with
                accepted := s.accepted + 1
                conns := (s.nextConnId, s.accepted) :: s.conns.filter fun e => e.1 ≠ s.nextConnId
                nextConnId := (s.nextConnId + 1) % 2 ^ 32
                nextIdx := if s.loops = [] then s.nextIdx else (s.nextIdx + 1) % s.loops.length},
        [.runInLoop l (.establishConn s.accepted)])
    | .error _ => none
  | none => none

/-- A functor is called. -/
def call (s : Threads) (t : Tid) (k : Answers) : Job → Option (Threads × List Instr)
  | .establishConn o => some (s.after t o [.establishConn] (s.conn o).establishConn)
  | .destroyConn o => some (s.after t o [.destroyConn] (s.conn o).destroyConn)
  | .removeConnInLoop o =>
    some ({s.record t [.conns] with conns := s.conns.filter fun e => e.1 ≠ (s.conn o).id},
      [.queueInLoop (s.conn o).loop (.destroyConn o)])
  | .sendInLoop o data => s.after? t o [.sendInLoop] ((s.conn o).sendInLoop data k.write)
  | .shutdownInLoop o => some (s.after t o [.shutdownInLoop] (s.conn o, (s.conn o).shutdownInLoop))
  | .callback _ => some (s, [.userCode])
  | .listen => some ({s with listening := true}, [])

/-! ### The threads -/

/-- The thread `t` does the first thing it has to do; what follows from it comes next. -/
def perform (s : Threads) (t : Tid) (k : Answers) : Instr → Option (Threads × List Instr)
  | .call j => s.call t k j
  | .runInLoop l j =>
    match s.threadOf l with
    | some u => some (if u = t then (s, [.call j]) else (s.push l j, []))
    | none => none
  | .queueInLoop l j => some (s.push l j, [])
  | .doPendingFunctors l => some (s.setPending l [], (s.pending l).map .call)
  | .handle o cb => s.handle t k o cb
  | .finishWrite o =>
    if (s.conn o).state = .disconnenting then
      some (s.after t o [.shutdownInLoop] (s.conn o, (s.conn o).shutdownInLoop))
    else some (s, [])
  | .closeCallback o => some (s, [.runInLoop 0 (.removeConnInLoop o)])
  | .removeChan o => some (s.setConn o {s.conn o with ch := (s.conn o).ch.remove}, [])
  | .send o data =>
    some (s, if s.threadOf (s.conn o).loop = some t then [.call (.sendInLoop o data)]
      else [.runInLoop (s.conn o).loop (.sendInLoop o data)])
  | .shutdown o =>
    some (s.setConn o {s.conn o with state := .disconnenting}, [.runInLoop (s.conn o).loop (.shutdownInLoop o)])
  | .userCode => some (s, [])
  | .accept => if k.accept then s.newConn t else some (s, [])
  | .destroyEntry o => some (s.record t [.conns], [.runInLoop (s.conn o).loop (.destroyConn o)])
  | .startLoop => none
  | .awaitLoop u => (s.published u).map fun l => ({s with loops := s.loops ++ [l]}, [])
  | .threadFunc =>
    some ({s with sites := s.sites ++ [⟨t, []⟩]}, [.userCode, .publish s.sites.length, .loop s.sites.length])
  | .publish l => some ({s with published := Function.update s.published t (some l)}, [])
  | .loop l => some ({s with looping := Function.update s.looping t (some l)}, [])

/-- The thread runs user code, in a callback or outside any loop. -/
def InUserCode (s : Threads) (t : Tid) : Prop :=
  (s.agenda t).head? = some .userCode ∨ s.agenda t = [] ∧ s.looping t = none

instance (s : Threads) (t : Tid) : Decidable (s.InUserCode t) := inferInstanceAs (Decidable (_ ∨ _))

/-- What epoll can report for the loop `l`: channels it holds, with events they are registered
for, and errors and hang-ups in any case. -/
def Reports (s : Threads) (l : LoopId) : Active → Prop
  | .acceptor => l = 0 ∧ s.listening = true
  | .conn o revents => o < s.accepted ∧ (s.conn o).loop = l ∧
    ∃ mask ∈ (s.conn o).ch.registered, revents.within (mask.union alwaysReported) = true

instance (s : Threads) (l : LoopId) (a : Active) : Decidable (s.Reports l a) := by
  cases a <;> exact inferInstanceAs (Decidable (_ ∧ _))

/-- The callbacks of an active channel. -/
def Active.instrs : Active → List Instr
  | .acceptor => [.accept]
  | .conn o revents => (Chan.handleEventWithGuard revents).map (.handle o)

inductive Act where
  /-- The thread does the next thing it has to do. -/
  | exec (t : Tid) (k : Answers)
  /-- The thread of a loop comes back from `poll`. -/
  | poll (t : Tid) (active : List Active)
  /-- It leaves the loop, after a `quit`. -/
  | leave (t : Tid)
  /-- User code calls `send`, which loads `state_`. -/
  | send (t : Tid) (o : ConnNo) (data : Bytes)
  | shutdown (t : Tid) (o : ConnNo)
  /-- User code calls `tcp_server::start`. -/
  | start (t : Tid)
  /-- `start_loop` starts the thread `u`. -/
  | spawn (t u : Tid)
  /-- The server's own loop is entered. -/
  | enter (t : Tid)
  /-- `~tcp_server`. -/
  | destruct (t : Tid)
deriving DecidableEq, Repr

def step (s : Threads) : Act → Option Threads
  | .exec t k =>
    match s.agenda t with
    | i :: rest => (s.perform t k i).map fun r => r.1.setAgenda t (r.2 ++ rest)
    | [] => none
  | .poll t active =>
    match s.looping t with
    | some l =>
      if s.agenda t = [] ∧ ∀ a ∈ active, s.Reports l a then
        some (s.setAgenda t (active.flatMap Active.instrs ++ [.doPendingFunctors l]))
      else none
    | none => none
  | .leave t =>
    if s.agenda t = [] ∧ s.looping t ≠ none then some {s with looping := Function.update s.looping t none} else none
  | .send t o data =>
    if s.InUserCode t ∧ o < s.accepted then
      some (if (s.conn o).state = .connected then s.setAgenda t (.send o data :: s.agenda t) else s)
    else none
  | .shutdown t o =>
    if s.InUserCode t ∧ o < s.accepted then
      some (if (s.conn o).state = .connected then s.setAgenda t (.shutdown o :: s.agenda t) else s)
    else none
  | .start t =>
    if s.InUserCode t ∧ s.started = false then
      some (setAgenda {s with started := true} t
        (List.replicate s.numThreads .startLoop ++ .runInLoop 0 .listen :: s.agenda t))
    else none
  | .spawn t u =>
    match s.agenda t with
    | .startLoop :: rest =>
      if s.agenda u = [] ∧ s.looping u = none ∧ u ∉ s.sites.map Site.threadId then
        some ((s.setAgenda t (.awaitLoop u :: rest)).setAgenda u [.threadFunc])
      else none
    | _ => none
  | .enter t =>
    if s.agenda t = [] ∧ s.looping t = none ∧ s.threadOf 0 = some t then some (s.setAgenda t [.loop 0]) else none
  | .destruct t =>
    if s.InUserCode t ∧ s.threadOf 0 = some t then
      some (setAgenda {s.record t [.conns] with conns := [], listening := false} t
        (s.conns.map (fun e => .destroyEntry e.2) ++ s.agenda t))
    else none

/-- All that a step can do. -/
inductive Step (s : Threads) : Act → Threads → Prop where
  | exec (t : Tid) (k : Answers) (i : Instr) (rest : List Instr) (r : Threads × List Instr) :
      s.agenda t = i :: rest → s.perform t k i = some r → Step s (.exec t k) (r.1.setAgenda t (r.2 ++ rest))
  | poll (t : Tid) (active : List Active) (l : LoopId) : s.looping t = some l → s.agenda t = [] →
      (∀ a ∈ active, s.Reports l a) →
      Step s (.poll t active) (s.setAgenda t (active.flatMap Active.instrs ++ [.doPendingFunctors l]))
  | leave (t : Tid) : s.agenda t = [] → s.looping t ≠ none →
      Step s (.leave t) {s with looping := Function.update s.looping t none}
  | send (t : Tid) (o : ConnNo) (data : Bytes) : s.InUserCode t → o < s.accepted → (s.conn o).state = .connected →
      Step s (.send t o data) (s.setAgenda t (.send o data :: s.agenda t))
  | noSend (t : Tid) (o : ConnNo) (data : Bytes) : s.InUserCode t → o < s.accepted → (s.conn o).state ≠ .connected →
      Step s (.send t o data) s
  | shutdown (t : Tid) (o : ConnNo) : s.InUserCode t → o < s.accepted → (s.conn o).state = .connected →
      Step s (.shutdown t o) (s.setAgenda t (.shutdown o :: s.agenda t))
  | noShutdown (t : Tid) (o : ConnNo) : s.InUserCode t → o < s.accepted → (s.conn o).state ≠ .connected →
      Step s (.shutdown t o) s
  | start (t : Tid) : s.InUserCode t → s.started = false →
      Step s (.start t) (setAgenda {s with started := true} t
        (List.replicate s.numThreads .startLoop ++ .runInLoop 0 .listen :: s.agenda t))
  | spawn (t u : Tid) (rest : List Instr) : s.agenda t = .startLoop :: rest → s.agenda u = [] → s.looping u = none →
      u ∉ s.sites.map Site.threadId →
      Step s (.spawn t u) ((s.setAgenda t (.awaitLoop u :: rest)).setAgenda u [.threadFunc])
  | enter (t : Tid) : s.agenda t = [] → s.looping t = none → s.threadOf 0 = some t →
      Step s (.enter t) (s.setAgenda t [.loop 0])
  | destruct (t : Tid) : s.InUserCode t → s.threadOf 0 = some t →
      Step s (.destruct t) (setAgenda {s.record t [.conns] with conns := [], listening := false} t
        (s.conns.map (fun e => .destroyEntry e.2) ++ s.agenda t))

theorem step_cases {s s' : Threads} {a : Act} (h : s.step a = some s') : Step s a s' := by
  cases a with
  | exec t k =>
    simp only [step] at h
    split at h
    · rename_i i rest ha
      obtain ⟨r, hr, rfl⟩ := Option.map_eq_some_iff.mp h
      exact .exec t k i rest r ha hr
    · cases h
  | poll t active =>
    simp only [step] at h
    split at h <;> simp only [Option.ite_none_right_eq_some, Option.some.injEq, reduceCtorEq] at h
    rename_i l hl
    obtain ⟨⟨ha, hreports⟩, rfl⟩ := h
    exact .poll t active l hl ha hreports
  | leave t =>
    simp only [step, Option.ite_none_right_eq_some, Option.some.injEq] at h
    obtain ⟨⟨ha, hl⟩, rfl⟩ := h
    exact .leave t ha hl
  | send t o data =>
    simp only [step, Option.ite_none_right_eq_some, Option.some.injEq] at h
    obtain ⟨⟨hu, ho⟩, rfl⟩ := h
    split
    · rename_i hst
      exact .send t o data hu ho hst
    · rename_i hst
      exact .noSend t o data hu ho hst
  | shutdown t o =>
    simp only [step, Option.ite_none_right_eq_some, Option.some.injEq] at h
    obtain ⟨⟨hu, ho⟩, rfl⟩ := h
    split
    · rename_i hst
      exact .shutdown t o hu ho hst
    · rename_i hst
      exact .noShutdown t o hu ho hst
  | start t =>
    simp only [step, Option.ite_none_right_eq_some, Option.some.injEq] at h
    obtain ⟨⟨hu, hs⟩, rfl⟩ := h
    exact .start t hu hs
  | spawn t u =>
    simp only [step] at h
    split at h <;> simp only [Option.ite_none_right_eq_some, Option.some.injEq, reduceCtorEq] at h
    rename_i rest ha
    obtain ⟨⟨hu, hl, hnew⟩, rfl⟩ := h
    exact .spawn t u rest ha hu hl hnew
  | enter t =>
    simp only [step, Option.ite_none_right_eq_some, Option.some.injEq] at h
    obtain ⟨⟨ha, hl, hmain⟩, rfl⟩ := h
    exact .enter t ha hl hmain
  | destruct t =>
    simp only [step, Option.ite_none_right_eq_some, Option.some.injEq] at h
    obtain ⟨⟨hu, hmain⟩, rfl⟩ := h
    exact .destruct t hu hmain

end Threads

end Caimr.Net
