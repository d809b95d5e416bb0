import Caimr.Lib.Batch
import Caimr.Net.TcpConn

/-! Who owns a connection. `refs` counts the `tcp_conn_ptr`s there are: the entry of `conns_`,
those of the user's threads, those that functors are bound to, and those that a function holds
while it runs. A functor lives until its whole batch has been called. `send_in_loop` and
`shutdown_in_loop` are bound to `this`, which owns nothing. -/
namespace Caimr.Net
open Transition

namespace Ownership

/-- The functors on the queue of the connection's loop. -/
inductive Task where
  | establishConn
  | sendInLoop
  | shutdownInLoop
  /-- `write_complete_callback_` or `high_water_mark_callback_`. -/
  | callback
  | destroyConn
deriving DecidableEq, Repr

/-- The functor is bound to a `tcp_conn_ptr`. -/
def Task.owns : Task → Bool
  | .sendInLoop | .shutdownInLoop => false
  | .establishConn | .callback | .destroyConn => true

/-- The functor is bound to `this`. -/
def Task.isBare (t : Task) : Bool := !t.owns

/-- Where a thread is that has a reference to the connection. -/
inductive UserPc where
  | idle
  /-- In `send`, in front of the push. -/
  | sending
  /-- In `shutdown`, in front of the store. -/
  | storing
  /-- In `shutdown`, in front of the push. -/
  | shuttingDown
deriving DecidableEq, Repr

/-- Where the connection's loop is; outside `idle` it holds the reference `self`. -/
inductive IoPc where
  | idle
  /-- In `handle_close`, in front of the close callback. -/
  | closing
  /-- In `remove_conn_in_loop`, in front of the push. -/
  | removing
deriving DecidableEq, Repr

/-- Where the main loop is, if it is not the connection's own. -/
inductive MainPc where
  | idle
  /-- In a `remove_conn_in_loop` of the batch, in front of the push. -/
  | removing
  /-- In `~tcp_server`, in front of the push, with the reference `conn_ptr`. -/
  | destructing
deriving DecidableEq, Repr

structure State where
  /-- The main loop is the connection's loop. -/
  single : Bool
  refs : Nat
  state : ConnState
  /-- The connection's channel is in its poller. -/
  registered : Bool
  /-- The connection is in `conns_`. -/
  inConns : Bool
  /-- The references of the user's threads, each with the call it is used for. -/
  users : List UserPc
  io : Batch.State Task
  ioPc : IoPc
  /-- The functors `remove_conn_in_loop` of the main loop. -/
  main : Batch.State Unit
  mainPc : MainPc

/-- A connection that `new_conn` has just made. -/
def start (single : Bool) : State :=
  { single := single
    refs := if single then 1 else 2
    state := if single then .connected else .connenting
    registered := single
    inConns := true
    users := []
    io := if single then .empty else Batch.State.empty.push .establishConn
    ioPc := .idle
    main := .empty
    mainPc := .idle }

inductive Act where
  /-- A copy of a `tcp_conn_ptr` comes to the user. -/
  | acquire
  | drop (i : Nat)
  | loadSend (i : Nat)
  | pushSend (i : Nat)
  | loadShutdown (i : Nat)
  | storeShutdown (i : Nat)
  | pushShutdown (i : Nat)
  /-- `shutdown` on the connection's loop. -/
  | shutdown
  /-- The connection's loop queues `write_complete_callback_` or `high_water_mark_callback_`. -/
  | queueCallback
  /-- `handle_close`, up to the close callback. -/
  | handleClose
  | closeCallback
  /-- `queue_in_loop` of `destroy_conn`, in `remove_conn_in_loop` on the connection's loop. -/
  | queueDestroy
  | swap
  /-- The next functor is called, and queues some callbacks if it is `send_in_loop`. -/
  | call (callbacks : Nat)
  | clear
  | mainSwap
  | mainCall
  | mainQueueDestroy
  | mainClear
  /-- `~tcp_server`, up to its `run_in_loop`; all of it if that calls `destroy_conn` at once. -/
  | destruct
  | destructQueue
deriving DecidableEq, Repr

namespace State

def setUser (s : State) (i : Nat) (pc : UserPc) : State := {s with users := s.users.set i pc}

/-- A functor is bound and queued on the connection's loop. -/
def queue (s : State) (t : Task) : State := {s with io := s.io.push t, refs := s.refs + t.owns.toNat}

def queueCallbacks (s : State) : Nat → State
  | 0 => s
  | n + 1 => (s.queueCallbacks n).queue .callback

/-- `conns_` gives up the connection, if it is there. -/
def erase (s : State) : State := {s with inConns := false, refs := s.refs - s.inConns.toNat}

def destroyConn (s : State) : State :=
  {s with state := if s.state = .connected then .disconnected else s.state, registered := false}

/-- The functors of the connection's loop, and how many callbacks `send_in_loop` queues. -/
def run (s : State) (callbacks : Nat) : Task → State
  | .establishConn => {s with state := .connected, registered := true}
  | .sendInLoop => if s.state = .disconnected then s else s.queueCallbacks callbacks
  | .shutdownInLoop | .callback => s
  | .destroyConn => s.destroyConn

end State

def step (s : State) : Act → Option State
  | .acquire => if 0 < s.refs then some {s with users := s.users ++ [.idle], refs := s.refs + 1} else none
  | .drop i =>
    if s.users[i]? = some .idle then some {s with users := s.users.eraseIdx i, refs := s.refs - 1} else none
  | .loadSend i =>
    if s.users[i]? = some .idle then some (if s.state = .connected then s.setUser i .sending else s) else none
  | .pushSend i =>
    if s.users[i]? = some .sending then some ((s.queue .sendInLoop).setUser i .idle) else none
  | .loadShutdown i =>
    if s.users[i]? = some .idle then some (if s.state = .connected then s.setUser i .storing else s) else none
  | .storeShutdown i =>
    if s.users[i]? = some .storing then some {s.setUser i .shuttingDown with state := .disconnenting} else none
  | .pushShutdown i =>
    if s.users[i]? = some .shuttingDown then some ((s.queue .shutdownInLoop).setUser i .idle) else none
  | .shutdown =>
    if 0 < s.refs then some (if s.state = .connected then {s with state := .disconnenting} else s) else none
  | .queueCallback => if 0 < s.refs then some (s.queue .callback) else none
  | .handleClose =>
    if s.ioPc = .idle ∧ s.registered = true ∧ 0 < s.refs then
      some {s with state := .disconnected, ioPc := .closing, refs := s.refs + 1}
    else none
  | .closeCallback =>
    if s.ioPc = .closing then
      if s.single then some {s.erase with ioPc := .removing} else some {s with main := s.main.push (), ioPc := .idle}
    else none
  | .queueDestroy =>
    if s.ioPc = .removing then some {s.queue .destroyConn with ioPc := .idle, refs := s.refs} else none
  | .swap => if s.ioPc = .idle ∧ s.io.taken = [] ∧ s.io.batch = [] then some {s with io := s.io.swap} else none
  | .call callbacks =>
    match s.io.batch with
    | t :: _ => if s.ioPc = .idle then some ({s with io := s.io.take}.run callbacks t) else none
    | [] => none
  | .clear =>
    if s.ioPc = .idle ∧ s.io.batch = [] then
      some {s with io := s.io.clear, refs := s.refs - s.io.taken.countP Task.owns}
    else none
  | .mainSwap =>
    if s.mainPc = .idle ∧ s.main.taken = [] ∧ s.main.batch = [] then some {s with main := s.main.swap} else none
  | .mainCall =>
    if s.mainPc = .idle ∧ s.main.batch ≠ [] then
      some {s.erase with main := s.main.take, mainPc := .removing}
    else none
  | .mainQueueDestroy =>
    if s.mainPc = .removing then some {s.queue .destroyConn with mainPc := .idle} else none
  | .mainClear =>
    if s.mainPc = .idle ∧ s.main.batch = [] then
      some {s with main := s.main.clear, refs := s.refs - s.main.taken.length}
    else none
  | .destruct =>
    if s.inConns = true ∧ s.ioPc = .idle ∧ s.mainPc = .idle then
      if s.single then some s.destroyConn.erase else some {s with inConns := false, mainPc := .destructing}
    else none
  | .destructQueue =>
    if s.mainPc = .destructing then some {s.queue .destroyConn with mainPc := .idle, refs := s.refs} else none

/-- All that a step can do. -/
inductive Step (s : State) : Act → State → Prop where
  | acquire : 0 < s.refs → Step s .acquire {s with users := s.users ++ [.idle], refs := s.refs + 1}
  | drop (i : Nat) : s.users[i]? = some .idle →
      Step s (.drop i) {s with users := s.users.eraseIdx i, refs := s.refs - 1}
  | loadSend (i : Nat) : s.users[i]? = some .idle → s.state = .connected →
      Step s (.loadSend i) (s.setUser i .sending)
  | noSend (i : Nat) : s.users[i]? = some .idle → s.state ≠ .connected → Step s (.loadSend i) s
  | pushSend (i : Nat) : s.users[i]? = some .sending →
      Step s (.pushSend i) ((s.queue .sendInLoop).setUser i .idle)
  | loadShutdown (i : Nat) : s.users[i]? = some .idle → s.state = .connected →
      Step s (.loadShutdown i) (s.setUser i .storing)
  | noShutdown (i : Nat) : s.users[i]? = some .idle → s.state ≠ .connected → Step s (.loadShutdown i) s
  | storeShutdown (i : Nat) : s.users[i]? = some .storing →
      Step s (.storeShutdown i) {s.setUser i .shuttingDown with state := .disconnenting}
  | pushShutdown (i : Nat) : s.users[i]? = some .shuttingDown →
      Step s (.pushShutdown i) ((s.queue .shutdownInLoop).setUser i .idle)
  | shutdown : 0 < s.refs → s.state = .connected → Step s .shutdown {s with state := .disconnenting}
  | noShutdownHere : 0 < s.refs → s.state ≠ .connected → Step s .shutdown s
  | queueCallback : 0 < s.refs → Step s .queueCallback (s.queue .callback)
  | handleClose : s.ioPc = .idle → s.registered = true → 0 < s.refs →
      Step s .handleClose {s with state := .disconnected, ioPc := .closing, refs := s.refs + 1}
  | removeHere : s.ioPc = .closing → s.single = true → Step s .closeCallback {s.erase with ioPc := .removing}
  | removeThere : s.ioPc = .closing → s.single = false →
      Step s .closeCallback {s with main := s.main.push (), ioPc := .idle}
  | queueDestroy : s.ioPc = .removing →
      Step s .queueDestroy {s.queue .destroyConn with ioPc := .idle, refs := s.refs}
  | swap : s.ioPc = .idle → s.io.taken = [] → s.io.batch = [] → Step s .swap {s with io := s.io.swap}
  | call (callbacks : Nat) (t : Task) (rest : List Task) : s.io.batch = t :: rest → s.ioPc = .idle →
      Step s (.call callbacks) ({s with io := s.io.take}.run callbacks t)
  | clear : s.ioPc = .idle → s.io.batch = [] →
      Step s .clear {s with io := s.io.clear, refs := s.refs - s.io.taken.countP Task.owns}
  | mainSwap : s.mainPc = .idle → s.main.taken = [] → s.main.batch = [] →
      Step s .mainSwap {s with main := s.main.swap}
  | mainCall : s.mainPc = .idle → s.main.batch ≠ [] →
      Step s .mainCall {s.erase with main := s.main.take, mainPc := .removing}
  | mainQueueDestroy : s.mainPc = .removing → Step s .mainQueueDestroy {s.queue .destroyConn with mainPc := .idle}
  | mainClear : s.mainPc = .idle → s.main.batch = [] →
      Step s .mainClear {s with main := s.main.clear, refs := s.refs - s.main.taken.length}
  | destroyHere : s.inConns = true → s.ioPc = .idle → s.mainPc = .idle → s.single = true →
      Step s .destruct s.destroyConn.erase
  | destroyThere : s.inConns = true → s.mainPc = .idle → s.single = false →
      Step s .destruct {s with inConns := false, mainPc := .destructing}
  | destructQueue : s.mainPc = .destructing →
      Step s .destructQueue {s.queue .destroyConn with mainPc := .idle, refs := s.refs}

theorem step_cases {s t : State} {a : Act} (h : step s a = some t) : Step s a t := by
  cases a <;> simp only [step, Option.ite_none_right_eq_some, Option.some.injEq] at h
  case acquire => exact h.2 ▸ .acquire h.1
  case drop i => exact h.2 ▸ .drop i h.1
  case loadSend i =>
    obtain ⟨hi, rfl⟩ := h
    split
    · exact .loadSend i hi ‹_›
    · exact .noSend i hi ‹_›
  case pushSend i => exact h.2 ▸ .pushSend i h.1
  case loadShutdown i =>
    obtain ⟨hi, rfl⟩ := h
    split
    · exact .loadShutdown i hi ‹_›
    · exact .noShutdown i hi ‹_›
  case storeShutdown i => exact h.2 ▸ .storeShutdown i h.1
  case pushShutdown i => exact h.2 ▸ .pushShutdown i h.1
  case shutdown =>
    obtain ⟨hr, rfl⟩ := h
    split
    · exact .shutdown hr ‹_›
    · exact .noShutdownHere hr ‹_›
  case queueCallback => exact h.2 ▸ .queueCallback h.1
  case handleClose => exact h.2 ▸ .handleClose h.1.1 h.1.2.1 h.1.2.2
  case closeCallback =>
    obtain ⟨hpc, h⟩ := h
    split at h <;> cases h
    · exact .removeHere hpc ‹_›
    · exact .removeThere hpc (by simpa using ‹¬ s.single = true›)
  case queueDestroy => exact h.2 ▸ .queueDestroy h.1
  case swap => exact h.2 ▸ .swap h.1.1 h.1.2.1 h.1.2.2
  case call callbacks =>
    split at h <;> simp only [Option.ite_none_right_eq_some, Option.some.injEq, reduceCtorEq] at h
    rename_i t rest hb
    exact h.2 ▸ .call callbacks t rest hb h.1
  case clear => exact h.2 ▸ .clear h.1.1 h.1.2
  case mainSwap => exact h.2 ▸ .mainSwap h.1.1 h.1.2.1 h.1.2.2
  case mainCall => exact h.2 ▸ .mainCall h.1.1 h.1.2
  case mainQueueDestroy => exact h.2 ▸ .mainQueueDestroy h.1
  case mainClear => exact h.2 ▸ .mainClear h.1.1 h.1.2
  case destruct =>
    obtain ⟨⟨hin, hpc, hmain⟩, h⟩ := h
    split at h <;> cases h
    · exact .destroyHere hin hpc hmain ‹_›
    · exact .destroyThere hin hmain (by simpa using ‹¬ s.single = true›)
  case destructQueue => exact h.2 ▸ .destructQueue h.1

/-! ### The count -/

/-- The references that the connection's loop holds while it is there. -/
def IoPc.refs : IoPc → Nat
  | .idle => 0
  | .closing | .removing => 1

def MainPc.refs : MainPc → Nat
  | .idle | .removing => 0
  | .destructing => 1

namespace State

/-- The `tcp_conn_ptr`s there are. -/
def owners (s : State) : Nat :=
  s.inConns.toNat + s.users.length + s.io.held.countP Task.owns + s.ioPc.refs + s.main.held.length + s.mainPc.refs

/-- `refs` counts them. -/
def Counted (s : State) : Prop := s.refs = s.owners

variable {s : State}

theorem Counted.queue (h : s.Counted) (t : Task) : (s.queue t).Counted := by
  unfold Counted owners at h ⊢
  simp only [State.queue, Batch.State.held_push, List.countP_append, List.countP_singleton, h]
  cases t.owns
  · rfl
  · simp only [Bool.toNat_true, if_true]
    omega

theorem Counted.queueCallbacks (h : s.Counted) (n : Nat) : (s.queueCallbacks n).Counted := by
  induction n with
  | zero => exact h
  | succ n ih => exact ih.queue .callback

theorem Counted.erase (h : s.Counted) : s.erase.Counted := by
  unfold Counted owners at h ⊢
  simp only [State.erase, h, Bool.toNat_false]
  omega

theorem Counted.setUser (h : s.Counted) (i : Nat) (pc : UserPc) : (s.setUser i pc).Counted := by
  unfold Counted owners at h ⊢
  simpa [State.setUser] using h

theorem Counted.run (h : s.Counted) (callbacks : Nat) (t : Task) : (s.run callbacks t).Counted := by
  cases t with
  | sendInLoop =>
    show (if s.state = .disconnected then s else s.queueCallbacks callbacks).Counted
    split
    · exact h
    · exact h.queueCallbacks callbacks
  | establishConn | shutdownInLoop | callback | destroyConn => exact h

end State

theorem step_counted {s t : State} {a : Act} (hc : s.Counted) (h : step s a = some t) : t.Counted := by
  cases step_cases h with
  | loadSend i | loadShutdown i | storeShutdown i => exact hc.setUser i _
  | pushSend i | pushShutdown i => exact (hc.queue _).setUser i _
  | queueCallback => exact hc.queue _
  | noSend | noShutdown | shutdown | noShutdownHere => exact hc
  | acquire =>
    unfold State.Counted State.owners at hc ⊢
    simp only [hc, List.length_append, List.length_singleton]
    omega
  | drop i hi =>
    have hlt := (List.getElem?_eq_some_iff.mp hi).1
    unfold State.Counted State.owners at hc ⊢
    simp only [hc, List.length_eraseIdx, if_pos hlt]
    omega
  | handleClose hpc =>
    unfold State.Counted State.owners at hc ⊢
    simp only [hc, hpc, IoPc.refs]
    omega
  | removeHere hpc =>
    have he := hc.erase
    unfold State.Counted State.owners at he ⊢
    simpa only [State.erase, hpc, IoPc.refs] using he
  | removeThere hpc =>
    unfold State.Counted State.owners at hc ⊢
    simp only [hc, hpc, IoPc.refs, Batch.State.held_push, List.length_append, List.length_singleton]
    omega
  | queueDestroy hpc =>
    have hq := hc.queue .destroyConn
    unfold State.Counted State.owners at hq ⊢
    simp only [State.queue, hpc, IoPc.refs, Task.owns, Bool.toNat_true] at hq ⊢
    omega
  | swap _ _ hb | mainSwap _ _ hb =>
    unfold State.Counted State.owners at hc ⊢
    rw [Batch.State.held_swap hb]
    exact hc
  | call callbacks t rest hb hpc =>
    refine State.Counted.run ?_ callbacks t
    unfold State.Counted State.owners at hc ⊢
    rw [Batch.State.held_take]
    exact hc
  | clear hpc hb =>
    unfold State.Counted State.owners at hc ⊢
    rw [Batch.State.held_clear hb, List.countP_append] at hc
    simp only [hc]
    omega
  | mainCall hpc =>
    have he := hc.erase
    unfold State.Counted State.owners at he ⊢
    rw [Batch.State.held_take]
    simpa only [State.erase, hpc, MainPc.refs] using he
  | mainQueueDestroy hpc =>
    have hq := hc.queue .destroyConn
    unfold State.Counted State.owners at hq ⊢
    simpa only [State.queue, hpc, MainPc.refs] using hq
  | mainClear hpc hb =>
    unfold State.Counted State.owners at hc ⊢
    rw [Batch.State.held_clear hb, List.length_append] at hc
    simp only [hc]
    omega
  | destroyHere => exact State.Counted.erase (s := s.destroyConn) hc
  | destroyThere hin hpc =>
    unfold State.Counted State.owners at hc ⊢
    simp only [hc, hin, hpc, MainPc.refs, Bool.toNat_true, Bool.toNat_false]
    omega
  | destructQueue hpc =>
    have hq := hc.queue .destroyConn
    unfold State.Counted State.owners at hq ⊢
    simp only [State.queue, hpc, MainPc.refs, Task.owns, Bool.toNat_true] at hq ⊢
    omega

/-! ### What outlives the queued calls -/

namespace State

/-- A `destroy_conn` will still be queued: the connection is in `conns_`, or a removal of it is
queued or running. -/
def OnItsWay (s : State) : Prop :=
  s.inConns = true ∨ s.main.batch ≠ [] ∨ s.main.pending ≠ [] ∨ s.ioPc ≠ .idle ∨ s.mainPc ≠ .idle

instance (s : State) : Decidable s.OnItsWay := inferInstanceAs (Decidable (_ ∨ _))

/-- Without the user's references, each queued `send_in_loop` and `shutdown_in_loop` still has
an owner when it is called: one in its batch or behind it, or one that is still to come. -/
def Covered (s : State) : Prop := s.OnItsWay ∨ s.io.Outlived Task.isBare Task.owns

instance (s : State) : Decidable s.Covered := inferInstanceAs (Decidable (_ ∨ _))

end State

/-- The last reference of the user, and that of `~tcp_server` where it calls `destroy_conn`
at once, is only given up when the queued calls are covered without it. -/
def Rule (s : State) : Act → Prop
  | .drop _ => s.users.length = 1 → s.Covered
  | .destruct => s.single = true → s.users = [] → State.Covered {s with inConns := false}
  | _ => True

instance (s : State) (a : Act) : Decidable (Rule s a) := by
  unfold Rule
  split <;> infer_instance

theorem queueCallbacks_covered {s : State} (h : s.Covered) (n : Nat) : (s.queueCallbacks n).Covered := by
  induction n with
  | zero => exact h
  | succ n ih => exact ih.imp id fun _ => Batch.State.outlived_push rfl

/-- A functor leaves the user, the main loop and `conns_` alone. -/
theorem run_frame (s : State) (callbacks : Nat) (t : Task) : ∃ refs state registered io,
    s.run callbacks t = {s with refs := refs, state := state, registered := registered, io := io} := by
  have hqueue : ∀ n, ∃ refs io, s.queueCallbacks n = {s with refs := refs, io := io} := by
    intro n
    induction n with
    | zero => exact ⟨_, _, rfl⟩
    | succ n ih =>
      obtain ⟨refs, io, h⟩ := ih
      rw [State.queueCallbacks, h]
      exact ⟨_, _, rfl⟩
  cases t with
  | sendInLoop =>
    simp only [State.run]
    split
    · exact ⟨_, _, _, _, rfl⟩
    · obtain ⟨refs, io, h⟩ := hqueue callbacks
      rw [h]
      exact ⟨_, _, _, _, rfl⟩
  | establishConn | shutdownInLoop | callback | destroyConn => exact ⟨_, _, _, _, rfl⟩

theorem run_covered {s : State} (h : s.Covered) (callbacks : Nat) (t : Task) : (s.run callbacks t).Covered := by
  cases t with
  | sendInLoop =>
    simp only [State.run]
    split
    · exact h
    · exact queueCallbacks_covered h callbacks
  | establishConn | shutdownInLoop | callback | destroyConn => exact h

/-- Without users, what is queued stays covered. -/
theorem step_covered {s t : State} {a : Act} (hc : s.users = [] → s.Covered) (hr : Rule s a)
    (h : step s a = some t) (hu : t.users = []) : t.Covered := by
  cases step_cases h with
  | acquire => exact absurd hu (by simp)
  | drop i hi =>
    have hlen : s.users.length = 1 := by
      have hlt := (List.getElem?_eq_some_iff.mp hi).1
      have hrest : (s.users.eraseIdx i).length = 0 := congrArg List.length hu
      rw [List.length_eraseIdx_of_lt hlt] at hrest
      omega
    exact hr hlen
  | loadSend i hi | loadShutdown i hi | storeShutdown i hi | pushSend i hi | pushShutdown i hi =>
    have hnil : s.users = [] := List.eq_nil_of_length_eq_zero ((List.length_set ..).symm.trans (congrArg List.length hu))
    rw [hnil] at hi
    cases hi
  | noSend | noShutdown | shutdown | noShutdownHere => exact hc hu
  | queueCallback => exact .inr (Batch.State.outlived_push rfl)
  | handleClose => exact .inl (.inr (.inr (.inr (.inl (by simp)))))
  | removeHere => exact .inl (.inr (.inr (.inr (.inl (by simp)))))
  | removeThere => exact .inl (.inr (.inr (.inl (by simp [Batch.State.push]))))
  | queueDestroy | mainQueueDestroy | destructQueue => exact .inr (Batch.State.outlived_push rfl)
  | swap => exact (hc hu).imp id Batch.State.Outlived.swap
  | call callbacks t =>
    obtain ⟨refs, state, registered, io, hrun⟩ := run_frame {s with io := s.io.take} callbacks t
    have hu' : s.users = [] := by
      rw [hrun] at hu
      exact hu
    exact run_covered (s := {s with io := s.io.take}) ((hc hu').imp id fun ho => ho.take) callbacks t
  | clear _ hb => exact (hc hu).imp id fun ho => ho.clear hb
  | mainSwap _ _ hb =>
    refine (hc hu).imp_left fun how => ?_
    obtain hin | hbatch | hpending | hrest := how
    · exact .inl hin
    · exact absurd hb hbatch
    · exact .inr (.inl hpending)
    · exact .inr (.inr (.inr hrest))
  | mainCall => exact .inl (.inr (.inr (.inr (.inr (by simp)))))
  | mainClear => exact hc hu
  | destroyHere _ _ _ hs => exact hr hs hu
  | destroyThere => exact .inl (.inr (.inr (.inr (.inr (by simp)))))

/-! ### Whole runs -/

/-- What holds on every run. -/
structure State.Inv (s : State) : Prop where
  counted : s.Counted
  removing : s.mainPc = .removing → s.main.taken ≠ []

theorem step_removing {s t : State} {a : Act} (hm : s.mainPc = .removing → s.main.taken ≠ [])
    (h : step s a = some t) (hpc : t.mainPc = .removing) : t.main.taken ≠ [] := by
  cases step_cases h with
  | mainCall _ hb =>
    cases hbatch : s.main.batch with
    | nil => exact absurd hbatch hb
    | cons u rest => simp [Batch.State.take, hbatch]
  | mainClear hidle =>
    rw [show s.mainPc = .removing from hpc] at hidle
    cases hidle
  | call callbacks t =>
    obtain ⟨refs, state, registered, io, hrun⟩ := run_frame {s with io := s.io.take} callbacks t
    rw [hrun] at hpc ⊢
    exact hm hpc
  | mainQueueDestroy | destroyThere | destructQueue => cases hpc
  | mainSwap | removeThere => exact hm hpc
  | acquire | drop | loadSend | noSend | pushSend | loadShutdown | noShutdown | storeShutdown | pushShutdown
  | shutdown | noShutdownHere | queueCallback | handleClose | removeHere | queueDestroy | swap | clear | destroyHere =>
    exact hm hpc

theorem step_inv {s t : State} {a : Act} (inv : s.Inv) (h : step s a = some t) : t.Inv :=
  ⟨step_counted inv.counted h, step_removing inv.removing h⟩

theorem start_inv (single : Bool) : (start single).Inv := by
  cases single <;> exact ⟨rfl, nofun⟩

theorem run_inv {single : Bool} {tr : List Act} {s : State} (h : exec step (start single) tr = some s) : s.Inv :=
  exec_preserves (fun _ _ _ inv hs => step_inv inv hs) (start_inv single) h

theorem run_covered_of_rule {single : Bool} {tr : List Act} {s : State} (h : exec step (start single) tr = some s)
    (hr : Along step Rule (start single) tr) : s.users = [] → s.Covered :=
  rule_induction (fun _ s => s.users = [] → s.Covered) (fun _ => .inl (.inl rfl))
    (fun _ _ _ _ _ hc hrule hs => step_covered hc hrule hs) h hr

/-- The call of a functor that is bound to `this`. -/
def CallsBare (s : State) : Act → Prop
  | .call _ => ∃ t rest, s.io.batch = t :: rest ∧ t.isBare = true
  | _ => False

theorem owners_pos {s : State} (inv : s.Inv) (hc : s.users = [] → s.Covered) (hb : s.io.batch.any Task.isBare = true) :
    0 < s.owners := by
  unfold State.owners
  cases hu : s.users with
  | cons u rest =>
    rw [List.length_cons]
    omega
  | nil =>
    rcases hc hu with (hin | hbatch | hpending | hio | hmain) | hout
    · rw [hin, Bool.toNat_true]
      omega
    · have hpos : 0 < s.main.held.length := by
        simp only [Batch.State.held, List.length_append]
        have := List.length_pos_iff.mpr hbatch
        omega
      omega
    · have hpos : 0 < s.main.held.length := by
        simp only [Batch.State.held, List.length_append]
        have := List.length_pos_iff.mpr hpending
        omega
      omega
    · have hpos : 0 < s.ioPc.refs := by
        cases hpc : s.ioPc with
        | idle => exact absurd hpc hio
        | closing | removing => exact Nat.one_pos
      omega
    · cases hpc : s.mainPc with
      | idle => exact absurd hpc hmain
      | destructing => exact Nat.succ_pos _
      | removing =>
        have hpos : 0 < s.main.held.length := by
          simp only [Batch.State.held, List.length_append]
          have := List.length_pos_iff.mpr (inv.removing hpc)
          omega
        omega
    · have hpos : 0 < s.io.held.countP Task.owns := by
        obtain ⟨t, ht, ho⟩ := List.any_eq_true.mp (hout.batch hb)
        exact List.countP_pos_iff.mpr ⟨t, ht, ho⟩
      omega

/-! ### The condition is needed -/

/-- Nothing is left that could own the connection once the batch is done with, and a call is queued. -/
structure Doomed (s : State) : Prop where
  inv : s.Inv
  users : s.users = []
  inConns : s.inConns = false
  main : s.main.held = []
  ioPc : s.ioPc = .idle
  mainPc : s.mainPc = .idle
  queued : s.io.pending.any Task.isBare = true
  unowned : s.io.pending.any Task.owns = false

/-- A `send_in_loop` or `shutdown_in_loop` can be called, and no `tcp_conn_ptr` is left. -/
def Dangling (s : State) : Prop := s.refs = 0 ∧ ∃ a t, step s a = some t ∧ CallsBare s a

theorem dangling {s : State} (inv : s.Inv) (hu : s.users = []) (hin : s.inConns = false) (hm : s.main.held = [])
    (hio : s.ioPc = .idle) (hmain : s.mainPc = .idle) (hb : s.io.batch.any Task.isBare = true)
    (ho : s.io.held.any Task.owns = false) : Dangling s := by
  have hcount : s.io.held.countP Task.owns = 0 := by
    rw [List.countP_eq_zero]
    exact fun t ht => by simpa using List.any_eq_false.mp ho t ht
  refine ⟨?_, .call 0, ?_⟩
  · rw [inv.counted, State.owners, hu, hin, hm, hio, hmain, hcount]
    rfl
  · cases hbatch : s.io.batch with
    | nil =>
      rw [hbatch] at hb
      cases hb
    | cons t rest =>
      have ht : t.owns = false := by
        have hmem : t ∈ s.io.held := by simp [Batch.State.held, hbatch]
        simpa using List.any_eq_false.mp ho t hmem
      have hcall : step s (.call 0) = some ({s with io := s.io.take}.run 0 t) := by
        simp [step, hio, hbatch]
      exact ⟨_, hcall, t, rest, hbatch, by rw [Task.isBare, ht]; rfl⟩

theorem run_io (s : State) (t : Task) : (s.run 0 t).io = s.io := by
  cases t with
  | sendInLoop =>
    simp only [State.run]
    split <;> rfl
  | establishConn | shutdownInLoop | callback | destroyConn => rfl

/-- The batch is done with, and the next one calls a function of a connection that is gone. -/
theorem Doomed.reaches {s : State} (h : Doomed s) : Reaches step s Dangling := by
  -- By induction on what is left of the batch.
  generalize hbatch : s.io.batch = batch
  induction batch generalizing s with
  | nil =>
    have hclear : step s .clear =
        some {s with io := s.io.clear, refs := s.refs - s.io.taken.countP Task.owns} := by
      simp [step, h.ioPc, hbatch]
    have hswap : step {s with io := s.io.clear, refs := s.refs - s.io.taken.countP Task.owns} .swap =
        some {s with io := s.io.clear.swap, refs := s.refs - s.io.taken.countP Task.owns} := by
      simp [step, h.ioPc, Batch.State.clear, hbatch]
    refine .next hclear (.next hswap (.here ?_))
    apply dangling (step_inv (step_inv h.inv hclear) hswap) h.users h.inConns h.main h.ioPc h.mainPc h.queued
    simpa [Batch.State.held, Batch.State.swap, Batch.State.clear] using h.unowned
  | cons t rest ih =>
    have hcall : step s (.call 0) = some ({s with io := s.io.take}.run 0 t) := by
      simp [step, h.ioPc, hbatch]
    have inv' := step_inv h.inv hcall
    obtain ⟨refs, state, registered, io, hrun⟩ := run_frame {s with io := s.io.take} 0 t
    have hio := run_io {s with io := s.io.take} t
    rw [hrun] at hio
    cases hio
    rw [hrun] at hcall inv'
    refine .next hcall (ih ⟨inv', h.users, h.inConns, h.main, h.ioPc, h.mainPc, h.queued, h.unowned⟩ ?_)
    simp [hbatch]

/-- If a queued call is not covered and the user has no reference, the connection can be gone
when it is called. -/
theorem reaches_dangling {s : State} (inv : s.Inv) (hu : s.users = []) (hc : ¬ s.Covered) :
    Reaches step s Dangling := by
  simp only [State.Covered, State.OnItsWay, not_or, Decidable.not_not, Bool.not_eq_true] at hc
  obtain ⟨⟨hin, hbatch, hpending, hio, hmain⟩, hout⟩ := hc
  have hclear : step s .mainClear = some {s with main := s.main.clear, refs := s.refs - s.main.taken.length} := by
    simp [step, hmain, hbatch]
  have inv' := step_inv inv hclear
  have hheld : s.main.clear.held = [] := by
    simp [Batch.State.held, Batch.State.clear, hbatch, hpending]
  refine .next hclear ?_
  by_cases hp : s.io.pending.any Task.isBare = true ∧ s.io.pending.any Task.owns = false
  · exact Doomed.reaches ⟨inv', hu, hin, hheld, hio, hmain, hp.1, hp.2⟩
  · refine .here (dangling inv' hu hin hheld hio hmain ?_ ?_)
    all_goals
      by_contra hno
      refine hout ⟨fun hb => ?_, fun hb => ?_⟩
    · exact absurd hb hno
    · by_contra ho
      exact hp ⟨hb, by simpa using ho⟩
    · simpa using hno
    · by_contra ho
      exact hp ⟨hb, by simpa using ho⟩

/-! ### The queued calls and their connection -/

/-- A step that breaks the rule leaves the user without a reference and a queued call uncovered. -/
theorem uncovered_of_not_rule {s t : State} {a : Act} (hr : ¬ Rule s a) (h : step s a = some t) :
    t.users = [] ∧ ¬ t.Covered := by
  cases step_cases h with
  | drop i hi =>
    obtain ⟨hlen, hc⟩ := Classical.not_imp.mp hr
    have hlt := (List.getElem?_eq_some_iff.mp hi).1
    refine ⟨List.eq_nil_of_length_eq_zero ?_, hc⟩
    rw [List.length_eraseIdx_of_lt hlt, hlen]
  | destroyHere _ _ _ hs =>
    obtain ⟨-, hr⟩ := Classical.not_imp.mp hr
    exact Classical.not_imp.mp hr
  | destroyThere _ _ hs =>
    obtain ⟨hs', -⟩ := Classical.not_imp.mp hr
    rw [hs] at hs'
    cases hs'
  | _ => exact absurd trivial hr

/-- **Queued calls and their connection.** In every run that obeys the rule, a `send_in_loop` or
`shutdown_in_loop` is only called while the connection has an owner. The rule is needed: a step
that breaks it can be followed by steps after which such a call finds no owner left. -/
theorem owned_when_called {single : Bool} {tr : List Act} {u : State} (h : exec step (start single) tr = some u) :
    (Along step Rule (start single) tr → Along step (fun s a => CallsBare s a → 0 < s.refs) (start single) tr) ∧
    ∀ a t, step u a = some t → ¬ Rule u a → Reaches step t Dangling := by
  refine ⟨?_, fun a t ht hr => ?_⟩
  · rintro hr a l b s rfl hs hbare
    have inv := run_inv hs
    rw [inv.counted]
    apply owners_pos inv (run_covered_of_rule hs hr.of_append)
    cases l with
    | call n =>
      obtain ⟨t, rest, hbatch, ht⟩ := hbare
      rw [hbatch, List.any_cons, ht, Bool.true_or]
    | _ => exact hbare.elim
  · obtain ⟨hu, hc⟩ := uncovered_of_not_rule hr ht
    exact reaches_dangling (step_inv (run_inv h) ht) hu hc

/-- The connection is closed, removed and destroyed while a thread has its reference, from before
its load of `state_` to after the call of what it has queued. -/
def lateSend : List Act :=
  [.swap, .call 0, .clear, .acquire, .loadSend 0, .handleClose, .closeCallback, .mainSwap, .mainCall,
    .mainQueueDestroy, .mainClear, .swap, .call 0, .clear, .pushSend 0]

theorem owned_when_called_kept : ∃ u, exec step (start false) (lateSend ++ [.swap, .call 0, .drop 0]) = some u ∧
    Along step (fun s a => CallsBare s a → 0 < s.refs) (start false) (lateSend ++ [.swap, .call 0, .drop 0]) := by
  refine ⟨_, (Option.some_get (by decide +kernel)).symm, ?_⟩
  exact (owned_when_called (Option.some_get (by decide +kernel)).symm).1 (by decide +kernel)

/-- The thread gives up its reference, which is the last, as soon as `send` returns. -/
theorem dangling_when_called : ¬ ∀ (single : Bool) (tr : List Act) (u : State),
    exec step (start single) tr = some u →
      Along step (fun s a => CallsBare s a → 0 < s.refs) (start single) tr := by
  intro hall
  have halong := hall false (lateSend ++ [.drop 0, .swap, .call 0]) _ (Option.some_get (by decide +kernel)).symm
  have hpos := halong (lateSend ++ [.drop 0, .swap]) (.call 0) [] _ rfl (Option.some_get (by decide +kernel)).symm
    ⟨.sendInLoop, [], by decide +kernel, rfl⟩
  exact absurd hpos (by decide +kernel)

end Ownership

end Caimr.Net
