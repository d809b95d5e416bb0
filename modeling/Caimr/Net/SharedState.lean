import Mathlib.Data.List.Basic
import Mathlib.Logic.Function.Basic
import Caimr.Lib.Transition
import Caimr.Net.ConnLife
import Caimr.Net.Stream

/-! `state_` of a connection, which its loop's thread writes and every thread that calls
`shutdown`. The accesses to it are the steps: what a function does between two of them no
other thread can see. So `shutdown` is a load and, if that finds `CONNECTED`, a store,
and `destroy_conn` a load, a store if that finds `CONNECTED`, and the removal of the
channel; the other functions on the loop's thread touch `state_` once. -/
namespace Caimr.Net

namespace SharedState
open Transition

/-- What the loop's thread runs of a connection that is established. -/
inductive LoopCall where
  | send (data : Bytes) (w : WriteResult)
  /-- What a `send` on another thread has queued. -/
  | sendInLoop (data : Bytes) (w : WriteResult)
  | readable (r : ReadResult)
  | writable (w : WriteResult)
  | close
deriving DecidableEq, Repr

def LoopCall.run (c : TcpConn) : LoopCall → Except Fault (TcpConn × List Effect)
  | .send data w => c.send data w
  | .sendInLoop data w => c.sendInLoop data w
  | .readable r => c.handleRead r
  | .writable w => c.handleWrite w
  | .close => .ok c.handleClose

/-- The calls that come to `handle_close`. -/
def LoopCall.Closes : LoopCall → Prop
  | .close => True
  | .readable r => r.IsEof
  | _ => False

instance (f : LoopCall) : Decidable f.Closes := by
  cases f <;> unfold LoopCall.Closes <;> infer_instance

/-- Where the loop's thread is with the connection: between the load and the store of
`shutdown`, in front of the store of `destroy_conn`, or in front of its `ch_->remove()`. -/
inductive LoopPc where
  | idle
  | shutdown
  | destroy
  | remove
deriving DecidableEq, Repr

structure State where
  conn : TcpConn
  /-- What `is_connected()` told the connection callback, each time it was invoked. -/
  reports : List Bool
  /-- The other threads that are in `shutdown` and have found `CONNECTED`. -/
  inShutdown : Nat → Bool
  pc : LoopPc
  established : Bool
  destroyed : Bool

inductive Act where
  | establish
  | call (f : LoopCall)
  | loopLoad
  | loopStore
  | load (thread : Nat)
  | store (thread : Nat)
  | destroyLoad
  | destroyStore
  | destroyRemove
deriving DecidableEq, Repr

/-- What the connection callback is told if it is among the effects. -/
def told (c : TcpConn) (es : List Effect) : List Bool :=
  if .connCallback ∈ es then [c.isConnected] else []

/-- A function has returned the connection `r.1` and asks for the effects `r.2`. -/
def State.after (s : State) (r : TcpConn × List Effect) : State :=
  {s with conn := r.1, reports := s.reports ++ told r.1 r.2}

/-- `set_state(DISCONNENTING)`. -/
def setDisconnenting (c : TcpConn) : TcpConn := {c with state := .disconnenting}

/-- What `destroy_conn` does to a connection it has found connected. -/
def finish (c : TcpConn) : TcpConn × List Effect :=
  ({c with state := .disconnected, ch := c.ch.disableAll}, if c.callbacks.conn then [.connCallback] else [])

def step (s : State) : Act → Option State
  | .establish =>
    if s.pc = .idle ∧ s.established = false then
      some {s.after s.conn.establishConn with established := true}
    else none
  | .call f =>
    if s.pc = .idle ∧ s.established = true then
      match f.run s.conn with
      | .ok r => some (s.after r)
      | .error _ => none
    else none
  | .loopLoad =>
    if s.pc = .idle then some (if s.conn.state = .connected then {s with pc := .shutdown} else s) else none
  | .loopStore =>
    if s.pc = .shutdown then some {s with conn := setDisconnenting s.conn, pc := .idle} else none
  | .load t =>
    if s.inShutdown t = false then
      some (if s.conn.state = .connected then {s with inShutdown := Function.update s.inShutdown t true} else s)
    else none
  | .store t =>
    if s.inShutdown t = true then
      some {s with conn := setDisconnenting s.conn, inShutdown := Function.update s.inShutdown t false}
    else none
  | .destroyLoad =>
    if s.pc = .idle ∧ s.established = true then
      some {s with pc := if s.conn.state = .connected then .destroy else .remove}
    else none
  | .destroyStore =>
    if s.pc = .destroy then some {s.after (finish s.conn) with pc := .remove} else none
  | .destroyRemove =>
    if s.pc = .remove then
      some {s with conn := {s.conn with ch := s.conn.ch.remove}, pc := .idle, destroyed := true}
    else none

/-- A connection that has just been made. -/
def start (c : TcpConn) : State := ⟨c, [], fun _ => false, .idle, false, false⟩

/-- Undisturbed, the steps of `destroy_conn` are `destroy_conn` and the removal it ends in. -/
theorem destroy_undisturbed {s : State} (hpc : s.pc = .idle) (he : s.established = true) :
    ∃ acts t, exec step s acts = some t ∧
      t.conn = {s.conn.destroyConn.1 with ch := s.conn.destroyConn.1.ch.remove} ∧
      t.reports = s.reports ++ told s.conn.destroyConn.1 s.conn.destroyConn.2 := by
  by_cases hs : s.conn.state = .connected
  · refine ⟨[.destroyLoad, .destroyStore, .destroyRemove], _,
      by simp [exec_cons, step, hpc, he, hs]; rfl, ?_, ?_⟩
    · simp [State.after, finish, TcpConn.destroyConn, hs]
    · simp [State.after, finish, TcpConn.destroyConn, hs, told, TcpConn.isConnected]
  · refine ⟨[.destroyLoad, .destroyRemove], _, by simp [exec_cons, step, hpc, he, hs]; rfl, ?_, ?_⟩
    · simp [TcpConn.destroyConn, hs]
    · simp [TcpConn.destroyConn, hs, told]

/-! ### What the calls do to `state_` -/

/-- Short of `handle_close`, nothing on the loop's thread writes `state_`, and of a connection that
is disconnected and not writing the channel is left alone. -/
theorem LoopCall.run_open {c c' : TcpConn} {f : LoopCall} {es : List Effect} (hf : ¬ f.Closes)
    (h : f.run c = .ok (c', es)) :
    c'.state = c.state ∧ c'.callbacks = c.callbacks ∧
      (c.state = .disconnected → c.ch.isWriting = false → c'.ch = c.ch) := by
  cases f with
  | send data w =>
    simp only [LoopCall.run, TcpConn.send] at h
    split at h
    · rename_i hs
      have hframe := TcpConn.sendInLoop_frame h
      refine ⟨by rw [hframe], by rw [hframe], fun hd => ?_⟩
      rw [hs] at hd
      cases hd
    · cases h
      exact ⟨rfl, rfl, fun _ _ => rfl⟩
  | sendInLoop data w =>
    have hframe := TcpConn.sendInLoop_frame h
    refine ⟨by rw [hframe], by rw [hframe], fun hd _ => ?_⟩
    rw [LoopCall.run, TcpConn.sendInLoop, if_pos hd] at h
    cases h
    rfl
  | readable r =>
    have hframe := TcpConn.handleRead_more hf h
    exact ⟨by rw [hframe], by rw [hframe], fun _ _ => by rw [hframe]⟩
  | writable w =>
    obtain ⟨front, drained, hflush, -⟩ := TcpConn.handleWrite_ok h
    have hframe := TcpConn.flush_frame hflush
    refine ⟨by rw [hframe], by rw [hframe], fun _ hw => ?_⟩
    rw [TcpConn.flush_idle w hw] at hflush
    cases hflush
    rfl
  | close => exact absurd trivial hf

/-- The other calls close the connection and report it. -/
theorem LoopCall.run_closes {c c' : TcpConn} {f : LoopCall} {es : List Effect} (hf : f.Closes)
    (h : f.run c = .ok (c', es)) :
    c'.state = .disconnected ∧ c'.callbacks = c.callbacks ∧ c'.ch.events = noneEvent ∧
      (c.callbacks.conn = true → told c' es = [false]) := by
  have hclose : ∃ b, (c', es) = TcpConn.handleClose {c with inputBuf := b} := by
    cases f with
    | send data w => exact hf.elim
    | sendInLoop data w => exact hf.elim
    | readable r => exact TcpConn.handleRead_eof hf h
    | writable w => exact hf.elim
    | close =>
      cases h
      exact ⟨c.inputBuf, rfl⟩
  obtain ⟨b, hclose⟩ := hclose
  cases hclose
  refine ⟨rfl, rfl, Chan.disableAll_events _, fun hcb => ?_⟩
  simp [told, hcb, TcpConn.isConnected]

/-! ### One step -/

/-- How far `state_` has come. -/
def rank : ConnState → Nat
  | .connenting => 0
  | .connected => 1
  | .disconnenting => 2
  | .disconnected => 3

/-- The store of another thread's `shutdown` finds the connection not yet disconnected. -/
def Unraced (s : State) : Act → Prop
  | .store _ => s.conn.state ≠ .disconnected
  | _ => True

instance (s : State) (l : Act) : Decidable (Unraced s l) := by
  cases l <;> unfold Unraced <;> infer_instance

/-- What holds on every run: nothing has happened before `establish_conn`, and on the loop's own
thread nothing comes between the load and the store of `shutdown`. -/
structure Inv (s : State) : Prop where
  fresh : s.established = false → s.conn.state = .connenting ∧ s.pc = .idle ∧ ∀ t, s.inShutdown t = false
  opened : s.established = true → s.conn.state ≠ .connenting
  shutdown : s.pc = .shutdown → s.conn.state ≠ .disconnected

theorem start_inv {c : TcpConn} (hc : c.state = .connenting) : Inv (start c) :=
  ⟨fun _ => ⟨hc, rfl, fun _ => rfl⟩, nofun, nofun⟩

/-- A call of the loop's thread, and what it returned. -/
theorem step_call {s t : State} {f : LoopCall} (h : step s (.call f) = some t) :
    s.pc = .idle ∧ s.established = true ∧ ∃ c es, f.run s.conn = .ok (c, es) ∧ t = s.after (c, es) := by
  simp only [step] at h
  split at h
  · rename_i hg
    split at h <;> simp only [Option.some.injEq, reduceCtorEq] at h
    rename_i r hrun
    exact ⟨hg.1, hg.2, r.1, r.2, hrun, h.symm⟩
  · cases h

/-- A label that is guarded by a test. -/
theorem guarded {P : Prop} [Decidable P] {s t : State} (h : (if P then some s else none) = some t) :
    P ∧ t = s := by
  split at h
  · rename_i hp
    cases h
    exact ⟨hp, rfl⟩
  · cases h

theorem step_inv {s t : State} {l : Act} (inv : Inv s) (h : step s l = some t) : Inv t := by
  have hbusy : s.pc ≠ .idle → s.established ≠ false := fun hpc he => hpc (inv.fresh he).2.1
  cases l with
  | establish =>
    obtain ⟨⟨hpc, -⟩, rfl⟩ := guarded h
    refine ⟨nofun, fun _ => nofun, fun hpc' => ?_⟩
    rw [show s.pc = _ from hpc'] at hpc
    cases hpc
  | call f =>
    obtain ⟨hpc, he, c, es, hrun, rfl⟩ := step_call h
    refine ⟨fun he' => ?_, fun _ => ?_, fun hpc' => ?_⟩
    · rw [show s.established = _ from he'] at he
      cases he
    · show c.state ≠ .connenting
      by_cases hf : f.Closes
      · rw [(LoopCall.run_closes hf hrun).1]
        decide
      · rw [(LoopCall.run_open hf hrun).1]
        exact inv.opened he
    · rw [show s.pc = _ from hpc'] at hpc
      cases hpc
  | loopLoad =>
    obtain ⟨hpc, rfl⟩ := guarded h
    by_cases hs : s.conn.state = .connected
    · rw [if_pos hs]
      refine ⟨fun he => ?_, inv.opened, fun _ => by rw [show _ = _ from hs]; decide⟩
      rw [(inv.fresh he).1] at hs
      cases hs
    · rw [if_neg hs]
      exact inv
  | loopStore =>
    obtain ⟨hpc, rfl⟩ := guarded h
    exact ⟨fun he => absurd he (hbusy (by rw [hpc]; decide)), fun _ => nofun, nofun⟩
  | load u =>
    obtain ⟨hu, rfl⟩ := guarded h
    by_cases hs : s.conn.state = .connected
    · rw [if_pos hs]
      refine ⟨fun he => ?_, inv.opened, inv.shutdown⟩
      rw [(inv.fresh he).1] at hs
      cases hs
    · rw [if_neg hs]
      exact inv
  | store u =>
    obtain ⟨hu, rfl⟩ := guarded h
    refine ⟨fun he => ?_, fun _ => nofun, fun _ => nofun⟩
    rw [(inv.fresh he).2.2 u] at hu
    cases hu
  | destroyLoad =>
    obtain ⟨⟨-, he⟩, rfl⟩ := guarded h
    refine ⟨fun he' => ?_, inv.opened, fun hpc => ?_⟩
    · rw [show s.established = false from he'] at he
      cases he
    · simp only at hpc
      split at hpc <;> cases hpc
  | destroyStore =>
    obtain ⟨hpc, rfl⟩ := guarded h
    exact ⟨fun he => absurd he (hbusy (by rw [hpc]; decide)), fun _ => nofun, nofun⟩
  | destroyRemove =>
    obtain ⟨hpc, rfl⟩ := guarded h
    exact ⟨fun he => absurd he (hbusy (by rw [hpc]; decide)), inv.opened, nofun⟩

theorem rank_le_disconnected (st : ConnState) : rank st ≤ rank .disconnected := by
  cases st <;> decide

/-- A step takes `state_` forward unless it is a store that comes too late. -/
theorem step_forward {s t : State} {l : Act} (inv : Inv s) (h : step s l = some t) :
    rank s.conn.state ≤ rank t.conn.state ↔ Unraced s l := by
  cases l with
  | establish =>
    obtain ⟨hg, rfl⟩ := guarded h
    refine iff_of_true ?_ trivial
    rw [(inv.fresh hg.2).1]
    exact Nat.zero_le _
  | call f =>
    obtain ⟨-, -, c, es, hrun, rfl⟩ := step_call h
    refine iff_of_true ?_ trivial
    show rank s.conn.state ≤ rank c.state
    by_cases hf : f.Closes
    · rw [(LoopCall.run_closes hf hrun).1]
      exact rank_le_disconnected _
    · exact Nat.le_of_eq (congrArg rank (LoopCall.run_open hf hrun).1.symm)
  | loopLoad =>
    obtain ⟨-, rfl⟩ := guarded h
    refine iff_of_true ?_ trivial
    split <;> exact Nat.le_refl _
  | loopStore =>
    obtain ⟨hpc, rfl⟩ := guarded h
    refine iff_of_true ?_ trivial
    have hs := inv.shutdown hpc
    show rank s.conn.state ≤ rank .disconnenting
    cases hst : s.conn.state with
    | disconnected => exact absurd hst hs
    | connenting => decide
    | connected => decide
    | disconnenting => decide
  | load u =>
    obtain ⟨-, rfl⟩ := guarded h
    refine iff_of_true ?_ trivial
    split <;> exact Nat.le_refl _
  | store u =>
    obtain ⟨-, rfl⟩ := guarded h
    show rank s.conn.state ≤ rank .disconnenting ↔ s.conn.state ≠ .disconnected
    cases s.conn.state <;> decide
  | destroyLoad =>
    obtain ⟨-, rfl⟩ := guarded h
    exact iff_of_true (Nat.le_refl _) trivial
  | destroyStore =>
    obtain ⟨-, rfl⟩ := guarded h
    exact iff_of_true (rank_le_disconnected _) trivial
  | destroyRemove =>
    obtain ⟨-, rfl⟩ := guarded h
    exact iff_of_true (Nat.le_refl _) trivial

/-! ### Whole runs -/

theorem run_inv {c : TcpConn} (hc : c.state = .connenting) {tr : List Act} {s : State}
    (h : exec step (start c) tr = some s) : Inv s :=
  exec_preserves (fun _ _ _ inv hl => step_inv inv hl) (start_inv hc) h

theorem create_connenting {c : TcpConn} {loop id mark : Nat} {cb : Callbacks}
    (hc : TcpConn.create loop id cb mark = .ok c) : c.state = .connenting := by
  obtain ⟨b, -, hc⟩ := bind_ok.mp hc
  obtain ⟨b', -, hc⟩ := bind_ok.mp hc
  cases hc
  rfl

/-- Along the run `state_` only moves forward. -/
def Forward (c : TcpConn) (tr : List Act) : Prop :=
  ∀ a l b s t, tr = a ++ l :: b → exec step (start c) a = some s → step s l = some t →
    rank s.conn.state ≤ rank t.conn.state

/-- **The order of the states.** On a run of a connection, whatever other threads do in `shutdown`,
`state_` only moves forward exactly if no `shutdown` of another thread stores `DISCONNENTING`
after the connection was disconnected behind its load. -/
theorem forward_iff_unraced {c : TcpConn} {loop id mark : Nat} {cb : Callbacks}
    (hc : TcpConn.create loop id cb mark = .ok c) {tr : List Act} {u : State}
    (h : exec step (start c) tr = some u) : Forward c tr ↔ Along step Unraced (start c) tr := by
  have hnew := create_connenting hc
  constructor
  · intro hforward a l b s he hs
    rw [he] at h
    obtain ⟨s', t, hs', hl, -⟩ := exec_at h
    rw [hs] at hs'
    cases hs'
    exact (step_forward (run_inv hnew hs) hl).mp (hforward a l b s t he hs hl)
  · intro halong a l b s t he hs hl
    exact (step_forward (run_inv hnew hs) hl).mpr (halong a l b s he hs)

/-- A `shutdown` on another thread that stores before the peer closes. -/
theorem forward_iff_unraced_timely : ∃ c u,
    TcpConn.create 0 1 ⟨true, true, true, true, true⟩ 4 = .ok c ∧
      exec step (start c) [.establish, .load 1, .store 1, .call .close] = some u ∧
      Forward c [.establish, .load 1, .store 1, .call .close] := by
  refine ⟨_, _, rfl, (Option.some_get (by decide +kernel)).symm, ?_⟩
  exact (forward_iff_unraced rfl (Option.some_get (by decide +kernel)).symm).mpr (by decide +kernel)

/-- The peer closes between the load and the store, and the store brings the connection back. -/
theorem goes_backwards : ¬ ∀ (c : TcpConn) (loop id mark : Nat) (cb : Callbacks) (tr : List Act) (u : State),
    TcpConn.create loop id cb mark = .ok c → exec step (start c) tr = some u → Forward c tr := by
  intro hclaim
  have hforward := hclaim _ 0 1 4 ⟨true, true, true, true, true⟩
    [.establish, .load 1, .call .close, .store 1] _ rfl (Option.some_get (by decide +kernel)).symm
  exact absurd (hforward [.establish, .load 1, .call .close] (.store 1) [] _ _ rfl
    (Option.some_get (by decide +kernel)).symm (Option.some_get (by decide +kernel)).symm) (by decide +kernel)

end SharedState

end Caimr.Net
