import Mathlib.Data.List.Basic
import Caimr.Lib.Transition
import Caimr.Net.ConnLife
import Caimr.Net.Stream

/-! The backlog of a connection that is driven from its loop's thread. From
`establish_conn` on, epoll watches for room to write exactly while something waits to be
written; and when `handle_close` has run, nothing is written any more. Neither needs the
writes to succeed. -/
namespace Caimr.Net

namespace TcpConn

/-! ### What the functions do to the backlog -/

/-- The channel and the output buffer of a connection, at every stage of its life. -/
structure Watched (c : TcpConn) : Prop where
  wf : c.outputBuf.Wf
  fresh : c.state = .connenting → c.ch = .create ∧ c.outputBuf.readable = []
  live : c.state = .connected ∨ c.state = .disconnenting → c.ch.InStep ∧ c.Armed
  dead : c.state = .disconnected → c.ch.isWriting = false

/-- A connection that is open, before and after. -/
theorem Watched.open {c : TcpConn} (hs : c.state = .connected ∨ c.state = .disconnenting)
    (hwf : c.outputBuf.Wf) (hin : c.ch.InStep) (ha : c.Armed) : c.Watched := by
  refine ⟨hwf, fun h => ?_, fun _ => ⟨hin, ha⟩, fun h => ?_⟩
  · rcases hs with hs | hs <;> rw [h] at hs <;> cases hs
  · rcases hs with hs | hs <;> rw [h] at hs <;> cases hs

theorem create_watched {c : TcpConn} {loop id mark : Nat} {cb : Callbacks}
    (hc : TcpConn.create loop id cb mark = .ok c) : c.Watched ∧ c.state = .connenting := by
  obtain ⟨b, hb, hwf, hread, -, -⟩ := Buffer.create_spec initialSize (by decide)
  simp only [TcpConn.create, hb, bind, Except.bind, pure, Except.pure, Except.ok.injEq] at hc
  subst hc
  exact ⟨⟨hwf, fun _ => ⟨rfl, hread⟩, (by rintro (h | h) <;> cases h), nofun⟩, rfl⟩

theorem establishConn_watched {c : TcpConn} (h : c.Watched) (hs : c.state = .connenting) :
    c.establishConn.1.Watched := by
  obtain ⟨hch, hnil⟩ := h.fresh hs
  refine .open (.inl rfl) h.wf ?_ ?_
  · show c.ch.enableReading.InStep
    rw [hch]
    exact Chan.create_inStep
  · show c.ch.enableReading.isWriting = true ↔ c.outputBuf.readable ≠ []
    rw [hch, hnil]
    decide

/-- What is not handed over waits in the buffer of an armed channel, or is dropped. -/
theorem sendInLoop_watched {c c' : TcpConn} {data : Bytes} {w : WriteResult} {es : List Effect}
    (h : c.Watched) (hs : c.state = .connected) (hsend : c.sendInLoop data w = .ok (c', es)) :
    c'.Watched := by
  obtain ⟨hin, ha⟩ := h.live (.inl hs)
  rw [sendInLoop, hs, if_neg nofun] at hsend
  have hfits := writeNow_fits h.wf data w
  generalize c.writeNow data w = d at hsend hfits
  unfold writeLater at hsend
  split at hsend
  · rename_i hmore
    simp only [Bool.and_eq_true, decide_eq_true_eq] at hmore
    obtain ⟨⟨c₁, es₁⟩, hk, hret⟩ := bind_ok.mp hsend
    cases hret
    obtain ⟨hframe, hwf, hread, hw, -⟩ := keepRemaining_ok h.wf hk
    have hst : c'.state = c.state := by rw [hframe]
    refine .open (.inl (hst.trans hs)) hwf ?_ ⟨fun _ => ?_, fun _ => hw⟩
    · obtain ⟨b, -, hk⟩ := bind_ok.mp hk
      cases hk
      show (if c.ch.isWriting = true then c.ch else c.ch.enableWriting).InStep
      split
      · exact hin
      · exact hin.update _
    · rw [hread]
      intro hnil
      have hlen := congrArg List.length (List.append_eq_nil_iff.mp hnil).2
      rw [List.length_drop, List.length_nil] at hlen
      omega
  · cases hsend
    exact h

theorem send_watched {c c' : TcpConn} {data : Bytes} {w : WriteResult} {es : List Effect}
    (h : c.Watched) (hsend : c.send data w = .ok (c', es)) : c'.Watched := by
  unfold send at hsend
  split at hsend
  · rename_i hs
    exact sendInLoop_watched h hs hsend
  · cases hsend
    exact h

theorem shutdown_watched {c : TcpConn} (h : c.Watched) : c.shutdown.1.Watched := by
  unfold shutdown
  split
  · rename_i hs
    obtain ⟨hin, ha⟩ := h.live (.inl hs)
    exact .open (.inr rfl) h.wf hin ha
  · exact h

/-- Only an armed channel is written from, and that of a closed connection is not. -/
theorem flush_watched {c c' : TcpConn} {w : WriteResult} {es : List Effect} {drained : Bool}
    (h : c.Watched) (hf : c.flush w = .ok (c', es, drained)) : c'.Watched := by
  by_cases hw : c.ch.isWriting = true
  · have hs : c.state = .connected ∨ c.state = .disconnenting := by
      cases hs : c.state with
      | disconnected =>
        rw [h.dead hs] at hw
        cases hw
      | connenting =>
        rw [(h.fresh hs).1] at hw
        cases hw
      | connected => exact .inl rfl
      | disconnenting => exact .inr rfl
    obtain ⟨hin, ha⟩ := h.live hs
    obtain ⟨-, hwf, -, -, -, harmed, -⟩ := flush_ok h.wf hf
    have ha' := harmed ha
    obtain ⟨rfl, -⟩ | ⟨n, -, -, -, rfl, -⟩ | ⟨n, -, -, -, -, rfl, -⟩ := flush_taken h.wf hw hf
    · exact h
    · exact .open hs hwf hin ha'
    · exact .open hs hwf (hin.update _) ha'
  · rw [flush_idle w (by simpa using hw)] at hf
    cases hf
    exact h

theorem handleClose_watched {c : TcpConn} (h : c.Watched) : c.handleClose.1.Watched :=
  ⟨h.wf, nofun, (by rintro (hs | hs) <;> cases hs), fun _ => Chan.disableAll_isWriting _⟩

theorem handleRead_watched {c c' : TcpConn} {r : ReadResult} {es : List Effect}
    (h : c.Watched) (hr : c.handleRead r = .ok (c', es)) : c'.Watched := by
  obtain ⟨hout, -, ⟨hs, hch⟩ | ⟨hs, hw⟩⟩ := handleRead_ok hr
  · refine ⟨?_, ?_, ?_, ?_⟩
    · rw [hout]
      exact h.wf
    · rw [hs, hch, hout]
      exact h.fresh
    · rw [hs, hch, Armed, hch, hout]
      exact h.live
    · rw [hs, hch]
      exact h.dead
  · refine ⟨by rw [hout]; exact h.wf, ?_, ?_, fun _ => hw⟩
    · rw [hs]
      intro he
      cases he
    · rw [hs]
      rintro (hs | hs) <;> cases hs

end TcpConn

/-! ### The connection under its loop -/

namespace Backlog
open Transition

/-- What reaches a connection on its loop's thread, with the kernel's answers. -/
inductive Call where
  | establish
  | send (data : Bytes) (w : WriteResult)
  | shutdown
  | readable (r : ReadResult)
  | writable (w : WriteResult)
  | close
deriving DecidableEq, Repr

/-- A connection, all it has done so far, and whether `handle_close` has run. -/
structure State where
  conn : TcpConn
  log : List Effect
  closed : Bool
deriving DecidableEq, Repr

def Call.run (c : TcpConn) : Call → Except Fault (TcpConn × List Effect)
  | .establish => .ok c.establishConn
  | .send data w => c.send data w
  | .shutdown => .ok c.shutdown
  | .readable r => c.handleRead r
  | .writable w => c.handleWrite w
  | .close => .ok c.handleClose

/-- Whether the call comes to `handle_close`. -/
def Call.closes (c : TcpConn) : Call → Bool
  | .close => true
  | .readable r =>
    match c.inputBuf.readFd r with
    | .ok (_, .ok 0) => true
    | _ => false
  | _ => false

/-- A server establishes each of its connections once. -/
def step (s : State) (l : Call) : Option State :=
  if l = .establish ∧ s.conn.state ≠ .connenting then none
  else
    match l.run s.conn with
    | .ok (c, es) => some ⟨c, s.log ++ es, s.closed || l.closes s.conn⟩
    | .error _ => none

/-- A connection that has just been made. -/
def start (c : TcpConn) : State := ⟨c, [], false⟩

theorem step_some {s t : State} {l : Call} (h : step s l = some t) :
    (l = .establish → s.conn.state = .connenting) ∧
      ∃ es, l.run s.conn = .ok (t.conn, es) ∧ t.log = s.log ++ es ∧
        t.closed = (s.closed || l.closes s.conn) := by
  unfold step at h
  split at h
  · cases h
  · rename_i hl
    split at h <;> simp only [Option.some.injEq, reduceCtorEq] at h
    rename_i c es hrun
    subst h
    refine ⟨fun he => ?_, es, hrun, rfl, rfl⟩
    by_contra hs
    exact hl ⟨he, hs⟩

theorem step_watched {s t : State} {l : Call} (hw : s.conn.Watched) (h : step s l = some t) :
    t.conn.Watched := by
  obtain ⟨hfresh, es, hrun, -, -⟩ := step_some h
  cases l with
  | establish =>
    have := TcpConn.establishConn_watched hw (hfresh rfl)
    simp only [Call.run, Except.ok.injEq] at hrun
    rw [hrun] at this
    exact this
  | send data w => exact TcpConn.send_watched hw hrun
  | shutdown =>
    have := TcpConn.shutdown_watched hw
    simp only [Call.run, Except.ok.injEq] at hrun
    rw [hrun] at this
    exact this
  | readable r => exact TcpConn.handleRead_watched hw hrun
  | writable w =>
    obtain ⟨front, drained, hflush, -⟩ := TcpConn.handleWrite_ok hrun
    exact TcpConn.flush_watched hw hflush
  | close =>
    have := TcpConn.handleClose_watched hw
    simp only [Call.run, Except.ok.injEq] at hrun
    rw [hrun] at this
    exact this

/-! ### After the end -/

theorem isWrite_of_quiet {e : Effect} (h : e.onSocket = false) : e.isWrite = false := by
  cases e <;> first | rfl | cases h

theorem step_closes {s t : State} {l : Call} (h : step s l = some t) (hc : l.closes s.conn = true) :
    t.conn.state = .disconnected := by
  obtain ⟨-, es, hrun, -, -⟩ := step_some h
  cases l with
  | close =>
    simp only [Call.run, TcpConn.handleClose, Except.ok.injEq, Prod.mk.injEq] at hrun
    rw [← hrun.1]
  | readable r =>
    simp only [Call.closes] at hc
    split at hc
    · rename_i b hb
      simp only [Call.run, TcpConn.handleRead, hb, bind, Except.bind, pure, Except.pure, TcpConn.handleClose,
        Nat.lt_irrefl, if_false, Except.ok.injEq, Prod.mk.injEq] at hrun
      rw [← hrun.1]
    · cases hc
  | establish => cases hc
  | send data w => cases hc
  | shutdown => cases hc
  | writable w => cases hc

/-- A closed connection stays closed, and writes nothing. -/
theorem step_closed {s t : State} {l : Call} (hw : s.conn.Watched) (hd : s.conn.state = .disconnected)
    (h : step s l = some t) :
    t.conn.state = .disconnected ∧ ∃ es, t.log = s.log ++ es ∧ ∀ e ∈ es, e.isWrite = false := by
  obtain ⟨hfresh, es, hrun, hlog, -⟩ := step_some h
  suffices hes : t.conn.state = .disconnected ∧ ∀ e ∈ es, e.onSocket = false by
    exact ⟨hes.1, es, hlog, fun e he => isWrite_of_quiet (hes.2 e he)⟩
  cases l with
  | establish =>
    rw [hfresh rfl] at hd
    cases hd
  | send data w =>
    simp only [Call.run, TcpConn.send, hd, reduceCtorEq, if_false, Except.ok.injEq, Prod.mk.injEq] at hrun
    rw [← hrun.1, ← hrun.2]
    exact ⟨hd, nofun⟩
  | shutdown =>
    simp only [Call.run, TcpConn.shutdown, hd, reduceCtorEq, if_false, Except.ok.injEq, Prod.mk.injEq] at hrun
    rw [← hrun.1, ← hrun.2]
    exact ⟨hd, nofun⟩
  | readable r =>
    obtain ⟨-, hes, ⟨hs, -⟩ | ⟨hs, -⟩⟩ := TcpConn.handleRead_ok hrun
    · exact ⟨hs.trans hd, hes⟩
    · exact ⟨hs, hes⟩
  | writable w =>
    obtain ⟨front, drained, hflush, rfl⟩ := TcpConn.handleWrite_ok hrun
    rw [TcpConn.flush_idle w (hw.dead hd)] at hflush
    simp only [Except.ok.injEq, Prod.mk.injEq] at hflush
    obtain ⟨hconn, rfl, rfl⟩ := hflush
    rw [← hconn]
    exact ⟨hd, nofun⟩
  | close =>
    simp only [Call.run, Except.ok.injEq] at hrun
    have hes := TcpConn.handleClose_quiet s.conn
    rw [hrun] at hes
    exact ⟨congrArg (fun r => r.1.state) hrun.symm, hes⟩

/-- Nothing makes a connection new again. -/
theorem step_connenting {s t : State} {l : Call} (h : step s l = some t) (ht : t.conn.state = .connenting) :
    s.conn.state = .connenting ∧ l ≠ .establish := by
  obtain ⟨-, es, hrun, -, -⟩ := step_some h
  cases l with
  | establish =>
    simp only [Call.run, TcpConn.establishConn, Except.ok.injEq, Prod.mk.injEq] at hrun
    rw [← hrun.1] at ht
    cases ht
  | send data w => exact ⟨(TcpConn.send_quiet hrun).connenting.mp ht, by simp⟩
  | shutdown =>
    simp only [Call.run, Except.ok.injEq] at hrun
    have hq := TcpConn.shutdown_quiet s.conn
    rw [hrun] at hq
    exact ⟨hq.connenting.mp ht, by simp⟩
  | readable r =>
    obtain ⟨-, -, ⟨hs, -⟩ | ⟨hs, -⟩⟩ := TcpConn.handleRead_ok hrun
    · exact ⟨hs.symm.trans ht, by simp⟩
    · rw [hs] at ht
      cases ht
  | writable w =>
    obtain ⟨front, drained, hflush, -⟩ := TcpConn.handleWrite_ok hrun
    exact ⟨(TcpConn.flush_state hflush).symm.trans ht, by simp⟩
  | close =>
    simp only [Call.run, TcpConn.handleClose, Except.ok.injEq, Prod.mk.injEq] at hrun
    rw [← hrun.1] at ht
    cases ht

/-! ### Any sequence of calls -/

/-- What holds on every run. -/
structure Inv (tr : List Call) (s : State) : Prop where
  watched : s.conn.Watched
  closed : s.closed = true → s.conn.state = .disconnected
  established : .establish ∈ tr → s.conn.state ≠ .connenting

theorem run_inv {c : TcpConn} {loop id mark : Nat} {cb : Callbacks}
    (hc : TcpConn.create loop id cb mark = .ok c) {tr : List Call} {s : State}
    (h : exec step (start c) tr = some s) : Inv tr s := by
  refine run_induction Inv ⟨(TcpConn.create_watched hc).1, fun h => absurd h Bool.false_ne_true, nofun⟩ ?_ h
  intro tr s l t _ inv hl
  obtain ⟨-, es, -, -, hclosed⟩ := step_some hl
  refine ⟨step_watched inv.watched hl, fun ht => ?_, fun he ht => ?_⟩
  · rw [hclosed, Bool.or_eq_true] at ht
    rcases ht with ht | ht
    · exact (step_closed inv.watched (inv.closed ht) hl).1
    · exact step_closes hl ht
  · obtain ⟨hs, hne⟩ := step_connenting hl ht
    rcases List.mem_append.mp he with he | he
    · exact inv.established he hs
    · exact hne (List.mem_singleton.mp he).symm

theorem run_closed {s t : State} {tr : List Call} (hw : s.conn.Watched) (hd : s.conn.state = .disconnected)
    (h : exec step s tr = some t) : ∃ es, t.log = s.log ++ es ∧ ∀ e ∈ es, e.isWrite = false := by
  suffices hrun : t.conn.Watched ∧ t.conn.state = .disconnected ∧
      ∃ es, t.log = s.log ++ es ∧ ∀ e ∈ es, e.isWrite = false from hrun.2.2
  refine run_induction (fun _ t => t.conn.Watched ∧ t.conn.state = .disconnected ∧
    ∃ es, t.log = s.log ++ es ∧ ∀ e ∈ es, e.isWrite = false) ⟨hw, hd, [], by simp, nofun⟩ ?_ h
  rintro _ u l t - ⟨hw, hd, es, hlog, hes⟩ hl
  obtain ⟨hd', es', hlog', hes'⟩ := step_closed hw hd hl
  refine ⟨step_watched hw hl, hd', es ++ es', by rw [hlog', hlog, List.append_assoc], fun e he => ?_⟩
  exact (List.mem_append.mp he).elim (hes e) (hes' e)

/-- **The backlog.** Once a connection is established and until it is disconnected, the
kernel's mask for it has `EPOLLOUT` exactly while bytes wait in its output buffer. Once
`handle_close` has run, whatever is called writes nothing. -/
theorem backlog_armed {c : TcpConn} {loop id mark : Nat} {cb : Callbacks}
    (hc : TcpConn.create loop id cb mark = .ok c) {tr : List Call} {s : State}
    (h : exec step (start c) tr = some s) :
    (.establish ∈ tr → s.conn.state ≠ .disconnected →
      ∃ mask, s.conn.ch.registered = some mask ∧
        (mask.pollOut = true ↔ 0 < s.conn.outputBuf.readableBytes)) ∧
      (s.closed = true → ∀ rest t, exec step s rest = some t →
        ∃ es, t.log = s.log ++ es ∧ ∀ e ∈ es, e.isWrite = false) := by
  have inv := run_inv hc h
  refine ⟨fun he hd => ?_, fun hclosed rest t ht => run_closed inv.watched (inv.closed hclosed) ht⟩
  have hlive : s.conn.state = .connected ∨ s.conn.state = .disconnenting := by
    have hnew := inv.established he
    cases hs : s.conn.state with
    | disconnected => exact absurd hs hd
    | connenting => exact absurd hs hnew
    | connected => exact .inl rfl
    | disconnenting => exact .inr rfl
  obtain ⟨hin, ha⟩ := inv.watched.live hlive
  refine ⟨s.conn.ch.events, hin.2, ?_⟩
  rw [Nat.pos_iff_ne_zero, ← TcpConn.readable_ne_nil inv.watched.wf]
  exact ha

/-- A backlog that is armed, and the end of the connection before it is written. -/
theorem backlog_armed_closed : ∃ c s t,
    TcpConn.create 0 1 ⟨true, true, true, true, true⟩ 4 = .ok c ∧
      exec step (start c) [.establish, .send [1, 2, 3] (.accepts 1), .shutdown,
        .writable (.fails .wouldBlock)] = some s ∧
      (∃ mask, s.conn.ch.registered = some mask ∧
        (mask.pollOut = true ↔ 0 < s.conn.outputBuf.readableBytes)) ∧
      exec step (start c) [.establish, .send [1, 2, 3] (.accepts 1), .readable (.received [])] = some t ∧
      ∀ u, exec step t [.writable (.accepts 2), .send [4] (.accepts 1)] = some u →
        ∃ es, u.log = t.log ++ es ∧ ∀ e ∈ es, e.isWrite = false := by
  refine ⟨_, _, _, rfl, (Option.some_get (by decide +kernel)).symm, ?_,
    (Option.some_get (by decide +kernel)).symm, ?_⟩
  · exact (backlog_armed rfl (Option.some_get (by decide +kernel)).symm).1 (by decide) (by decide +kernel)
  · exact (backlog_armed rfl (Option.some_get (by decide +kernel)).symm).2 (by decide +kernel) _

end Backlog

end Caimr.Net
