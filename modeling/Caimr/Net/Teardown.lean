import Caimr.Net.SharedState

/-! What `destroy_conn` leaves of a connection. It cleans up after one that it finds
connected and trusts that whatever else it finds has been cleaned up already. That is
true of a connection the peer has closed, and of one that is still in `shutdown` it is not. -/
namespace Caimr.Net

namespace SharedState
open Transition

/-- The connection is over, out of the poller, and its callback has been told. -/
structure Finished (s : State) : Prop where
  state : s.conn.state = .disconnected
  events : s.conn.ch.events = noneEvent
  registered : s.conn.ch.registered = none
  told : s.conn.callbacks.conn = true → false ∈ s.reports

/-- Steps after which `destroy_conn` finishes what it begins: it does not find a connection in
`shutdown`, no `shutdown` of another thread stores after the connection was disconnected, and
`handle_close` does not follow `destroy_conn`. -/
def Clean (s : State) : Act → Prop
  | .store _ => s.conn.state ≠ .disconnected
  | .destroyLoad => s.conn.state ≠ .disconnenting
  | .call f => f.Closes → s.destroyed = false
  | _ => True

instance (s : State) : (l : Act) → Decidable (Clean s l)
  | .store _ => inferInstanceAs (Decidable (s.conn.state ≠ .disconnected))
  | .destroyLoad => inferInstanceAs (Decidable (s.conn.state ≠ .disconnenting))
  | .call f => inferInstanceAs (Decidable (f.Closes → s.destroyed = false))
  | .establish | .loopLoad | .loopStore | .load _ | .destroyStore | .destroyRemove => inferInstanceAs (Decidable True)

/-- What holds on every run with such steps. A connection that is disconnected has been cleaned up,
and stays so. -/
structure Settled (s : State) : Prop where
  inv : Inv s
  closed : s.conn.state = .disconnected →
    s.conn.ch.events = noneEvent ∧ (s.conn.callbacks.conn = true → false ∈ s.reports)
  destroying : s.pc = .destroy → s.destroyed = false
  removing : s.pc = .remove → s.conn.state = .disconnected
  destroyed : s.destroyed = true → s.conn.state = .disconnected ∧ s.conn.ch.registered = none

theorem told_after {s : State} {r : TcpConn × List Effect} (h : false ∈ s.reports) :
    false ∈ (s.after r).reports :=
  List.mem_append_left _ h

/-- A call that does not close the connection leaves it as settled as it was. -/
theorem call_settled {s : State} {f : LoopCall} {c : TcpConn} {es : List Effect} (h : Settled s)
    (hinv : Inv (s.after (c, es))) (hf : ¬ f.Closes) (hrun : f.run s.conn = .ok (c, es)) :
    Settled (s.after (c, es)) := by
  obtain ⟨hstate, hcb, hch⟩ := LoopCall.run_open hf hrun
  have hkept : s.conn.state = .disconnected → c.ch = s.conn.ch := by
    intro hs
    apply hch hs
    rw [Chan.isWriting, (h.closed hs).1]
    rfl
  refine ⟨hinv, fun hs => ?_, h.destroying, fun hpc => hstate.trans (h.removing hpc), fun hd => ?_⟩
  · have hs' : s.conn.state = .disconnected := hstate.symm.trans hs
    obtain ⟨hev, htold⟩ := h.closed hs'
    refine ⟨?_, fun hconn => told_after (htold ?_)⟩
    · show c.ch.events = noneEvent
      rw [hkept hs', hev]
    · rw [← hcb]
      exact hconn
  · obtain ⟨hs, hreg⟩ := h.destroyed hd
    refine ⟨hstate.trans hs, ?_⟩
    show c.ch.registered = none
    rw [hkept hs, hreg]

/-- Closing cleans up. -/
theorem close_settled {s : State} {f : LoopCall} {c : TcpConn} {es : List Effect} (h : Settled s)
    (hinv : Inv (s.after (c, es))) (hd : s.destroyed = false) (hf : f.Closes)
    (hrun : f.run s.conn = .ok (c, es)) : Settled (s.after (c, es)) := by
  obtain ⟨hstate, hcb, hev, htold⟩ := LoopCall.run_closes hf hrun
  refine ⟨hinv, fun _ => ⟨hev, fun hconn => ?_⟩, h.destroying, fun _ => hstate, fun hd' => ?_⟩
  · have hself := htold (by rw [← hcb]; exact hconn)
    apply List.mem_append_right
    show false ∈ told c es
    rw [hself]
    exact List.mem_singleton_self _
  · rw [show s.destroyed = true from hd'] at hd
    cases hd

theorem step_settled {s t : State} {l : Act} (h : Settled s) (hl : Clean s l) (ht : step s l = some t) :
    Settled t := by
  have hinv := step_inv h.inv ht
  cases l with
  | establish =>
    obtain ⟨⟨hpc, he⟩, rfl⟩ := guarded ht
    refine ⟨hinv, nofun, h.destroying, fun hpc' => ?_, fun hd => ?_⟩
    · rw [show s.pc = _ from hpc'] at hpc
      cases hpc
    · have hs := (h.destroyed hd).1
      rw [(h.inv.fresh he).1] at hs
      cases hs
  | call f =>
    obtain ⟨-, -, c, es, hrun, rfl⟩ := step_call ht
    by_cases hf : f.Closes
    · exact close_settled h hinv (hl hf) hf hrun
    · exact call_settled h hinv hf hrun
  | loopLoad =>
    obtain ⟨hpc, rfl⟩ := guarded ht
    by_cases hs : s.conn.state = .connected
    · rw [if_pos hs] at hinv ⊢
      exact ⟨hinv, h.closed, nofun, nofun, h.destroyed⟩
    · rw [if_neg hs]
      exact h
  | loopStore =>
    obtain ⟨hpc, rfl⟩ := guarded ht
    refine ⟨hinv, nofun, nofun, nofun, fun hd => ?_⟩
    exact absurd (h.destroyed hd).1 (h.inv.shutdown hpc)
  | load u =>
    obtain ⟨-, rfl⟩ := guarded ht
    by_cases hs : s.conn.state = .connected
    · rw [if_pos hs] at hinv ⊢
      exact ⟨hinv, h.closed, h.destroying, h.removing, h.destroyed⟩
    · rw [if_neg hs]
      exact h
  | store u =>
    obtain ⟨-, rfl⟩ := guarded ht
    refine ⟨hinv, nofun, h.destroying, fun hpc => absurd (h.removing hpc) hl, fun hd => ?_⟩
    exact absurd (h.destroyed hd).1 hl
  | destroyLoad =>
    obtain ⟨⟨-, he⟩, rfl⟩ := guarded ht
    refine ⟨hinv, h.closed, fun hpc => ?_, fun hpc => ?_, h.destroyed⟩
    · by_contra hd
      have hs := (h.destroyed (by simpa using hd)).1
      simp [hs] at hpc
    · have hopen := h.inv.opened he
      by_contra hs
      have hs' : s.conn.state = .connected := by
        cases hst : s.conn.state with
        | disconnected => exact absurd hst hs
        | connenting => exact absurd hst hopen
        | connected => rfl
        | disconnenting => exact absurd hst hl
      simp [hs'] at hpc
  | destroyStore =>
    obtain ⟨hpc, rfl⟩ := guarded ht
    refine ⟨hinv, fun _ => ⟨Chan.disableAll_events _, fun hcb => ?_⟩, nofun, fun _ => rfl, fun hd => ?_⟩
    · apply List.mem_append_right
      have hcb' : s.conn.callbacks.conn = true := hcb
      simp [told, finish, hcb', TcpConn.isConnected]
    · have hd' : s.destroyed = true := hd
      rw [h.destroying hpc] at hd'
      cases hd'
  | destroyRemove =>
    obtain ⟨hpc, rfl⟩ := guarded ht
    have hs := h.removing hpc
    exact ⟨hinv, h.closed, by simp, by simp, fun _ => ⟨hs, rfl⟩⟩

theorem start_settled {c : TcpConn} (hc : c.state = .connenting) : Settled (start c) := by
  refine ⟨start_inv hc, fun hs => ?_, nofun, nofun, nofun⟩
  rw [show c.state = _ from hs] at hc
  cases hc

theorem run_settled {c : TcpConn} (hc : c.state = .connenting) {tr : List Act} {s : State}
    (h : exec step (start c) tr = some s) (hr : Along step Clean (start c) tr) : Settled s :=
  rule_induction (fun _ s => Settled s) (start_settled hc)
    (fun _ _ _ _ _ hs hl ht => step_settled hs hl ht) h hr

/-- **The end of a connection.** If `destroy_conn` does not find the connection in `shutdown`, if
no `shutdown` of another thread stores after the connection was disconnected, and if
`handle_close` does not follow: once `destroy_conn` has run, the connection is disconnected, its
channel wants nothing and is out of the poller, and the connection callback has seen it down. -/
theorem destroyed_finished {c : TcpConn} {loop id mark : Nat} {cb : Callbacks}
    (hc : TcpConn.create loop id cb mark = .ok c) {tr : List Act} {s : State}
    (h : exec step (start c) tr = some s) (hr : Along step Clean (start c) tr)
    (hd : s.destroyed = true) : Finished s := by
  have hs := run_settled (create_connenting hc) h hr
  obtain ⟨hstate, hreg⟩ := hs.destroyed hd
  obtain ⟨hev, htold⟩ := hs.closed hstate
  exact ⟨hstate, hev, hreg, htold⟩

/-- A server that goes down while the connection is open and a message waits. -/
theorem destroyed_finished_backlog : ∃ c s,
    TcpConn.create 0 1 ⟨true, true, true, true, true⟩ 4 = .ok c ∧
      exec step (start c) [.establish, .call (.send [1, 2, 3] (.accepts 1)), .destroyLoad, .load 1,
        .destroyStore, .destroyRemove] = some s ∧ Finished s := by
  refine ⟨_, _, rfl, (Option.some_get (by decide +kernel)).symm, ?_⟩
  exact destroyed_finished rfl (Option.some_get (by decide +kernel)).symm (by decide +kernel) (by decide +kernel)

/-- A connection that is shut down and then destroyed stays as it was, out of the poller. -/
theorem destroyed_unfinished : ¬ ∀ (c : TcpConn) (loop id mark : Nat) (cb : Callbacks) (tr : List Act) (s : State),
    TcpConn.create loop id cb mark = .ok c → exec step (start c) tr = some s → s.destroyed = true →
      Finished s := by
  intro hclaim
  have h := hclaim _ 0 1 4 ⟨true, true, true, true, true⟩
    [.establish, .loopLoad, .loopStore, .destroyLoad, .destroyRemove] _ rfl
    (Option.some_get (by decide +kernel)).symm (by decide +kernel)
  exact absurd h.state (by decide +kernel)

end SharedState

end Caimr.Net
