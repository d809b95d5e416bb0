import Mathlib.Data.List.Basic
import Caimr.Lib.Transition
import Caimr.Net.Stream

/-! The outgoing stream of a connection that is driven from its loop's thread. Whatever
the user sends and the kernel accepts, what the kernel has and what the output buffer
holds make up, in order, what was sent while the connection was open; and the write
side is shut down once, behind the last of these bytes. -/
namespace Caimr.Net

/-! ### The connection under its loop -/

namespace OutgoingStream
open Transition

/-- What reaches a connection on its loop's thread, with the kernel's answer to the
`::write` it may lead to. -/
inductive Call where
  | send (data : Bytes) (w : WriteResult)
  | shutdown
  | writable (w : WriteResult)
deriving DecidableEq, Repr

/-- A connection, all it has done so far, and the data of the `send` calls that found it
connected. -/
structure State where
  conn : TcpConn
  log : List Effect
  promised : Bytes
deriving DecidableEq, Repr

def step (s : State) : Call → Option State
  | .send data w =>
    match s.conn.send data w with
    | .ok (c, es) => some ⟨c, s.log ++ es, s.promised ++ if s.conn.state = .connected then data else []⟩
    | .error _ => none
  | .shutdown => some ⟨s.conn.shutdown.1, s.log ++ s.conn.shutdown.2, s.promised⟩
  | .writable w =>
    match s.conn.handleWrite w with
    | .ok (c, es) => some ⟨c, s.log ++ es, s.promised⟩
    | .error _ => none

/-- A connection just established. -/
def start (c : TcpConn) : State := ⟨c.establishConn.1, [], []⟩

/-- How far closing has come. Once the write side is shut down, everything has been
handed over and the socket is left alone. -/
inductive Phase (s : State) : Prop where
  | opened : s.conn.state = .connected → Effect.shutdownWrite ∉ s.log → Phase s
  | closing : s.conn.state = .disconnenting → s.conn.ch.isWriting = true →
      Effect.shutdownWrite ∉ s.log → Phase s
  | closed : s.conn.state = .disconnenting → s.conn.ch.isWriting = false →
      (∃ front back, s.log = front ++ .shutdownWrite :: back ∧ Effect.shutdownWrite ∉ front ∧
        (∀ e ∈ back, e.onSocket = false) ∧ accepted front = s.promised) → Phase s

/-- What holds on every run without a fault. -/
structure Inv (s : State) : Prop where
  wf : s.conn.outputBuf.Wf
  armed : s.conn.Armed
  stream : accepted s.log ++ s.conn.outputBuf.readable = s.promised
  phase : Phase s

/-! ### One call -/

theorem log_grows {s t : State} {l : Call} (h : step s l = some t) : ∃ es, t.log = s.log ++ es := by
  cases l with
  | send data w =>
    simp only [step] at h
    split at h <;> simp only [Option.some.injEq, reduceCtorEq] at h
    exact ⟨_, by rw [← h]⟩
  | shutdown =>
    simp only [step, Option.some.injEq] at h
    exact ⟨_, by rw [← h]⟩
  | writable w =>
    simp only [step] at h
    split at h <;> simp only [Option.some.injEq, reduceCtorEq] at h
    exact ⟨_, by rw [← h]⟩

/-- An open connection takes the data in; any other ignores it. -/
theorem send_keeps {s t : State} {data : Bytes} {w : WriteResult} (inv : Inv s)
    (h : step s (.send data w) = some t) (hf : NoFault t.log) : Inv t := by
  simp only [step, TcpConn.send] at h
  by_cases hst : s.conn.state = .connected
  · rw [if_pos hst, if_pos hst] at h
    split at h <;> simp only [Option.some.injEq, reduceCtorEq] at h
    rename_i c es hsend
    subst h
    obtain ⟨hframe, hwf, hstream, hno, harmed⟩ :=
      TcpConn.sendInLoop_ok inv.wf (by rw [hst]; decide) hsend hf.of_append.2
    have hst' : c.state = .connected := by
      rw [hframe]
      exact hst
    refine ⟨hwf, harmed inv.armed, ?_, ?_⟩
    · rw [accepted_append, List.append_assoc, hstream, ← List.append_assoc, inv.stream]
    · cases inv.phase with
      | opened _ hlog =>
        refine .opened hst' ?_
        rw [List.mem_append, not_or]
        exact ⟨hlog, hno⟩
      | closing h' => rw [hst] at h'; cases h'
      | closed h' => rw [hst] at h'; cases h'
  · rw [if_neg hst, if_neg hst] at h
    simp only [Option.some.injEq, List.append_nil] at h
    exact h ▸ inv

/-- The write side is shut down at once if nothing is buffered. -/
theorem shutdown_keeps {s t : State} (inv : Inv s) (h : step s .shutdown = some t) : Inv t := by
  simp only [step, Option.some.injEq, TcpConn.shutdown] at h
  by_cases hst : s.conn.state = .connected
  · rw [if_pos hst] at h
    have hlog : Effect.shutdownWrite ∉ s.log := by
      cases inv.phase with
      | opened _ hlog => exact hlog
      | closing h' => rw [hst] at h'; cases h'
      | closed h' => rw [hst] at h'; cases h'
    simp only [TcpConn.shutdownInLoop_eq] at h
    by_cases hw : s.conn.ch.isWriting = true
    · rw [if_pos hw, List.append_nil] at h
      subst h
      exact ⟨inv.wf, inv.armed, inv.stream, .closing rfl hw hlog⟩
    · rw [if_neg hw] at h
      subst h
      have hnil : s.conn.outputBuf.readable = [] := by
        by_contra hne
        exact hw (inv.armed.mpr hne)
      have hall : accepted s.log = s.promised := by
        rw [← inv.stream, hnil, List.append_nil]
      refine ⟨inv.wf, inv.armed, ?_, .closed rfl (by simpa using hw) ?_⟩
      · simp only [accepted_append, accepted_cons, accepted_nil, Effect.taken, List.append_nil]
        exact inv.stream
      · exact ⟨s.log, [], rfl, hlog, fun e he => (List.not_mem_nil he).elim, hall⟩
  · rw [if_neg hst, List.append_nil] at h
    exact h ▸ inv

theorem writable_keeps {s t : State} {w : WriteResult} (inv : Inv s)
    (h : step s (.writable w) = some t) : Inv t := by
  simp only [step] at h
  split at h <;> simp only [Option.some.injEq, reduceCtorEq] at h
  rename_i c es hwrite
  subst h
  obtain ⟨front, drained, hflush, rfl⟩ := TcpConn.handleWrite_ok hwrite
  obtain ⟨hframe, hwf, hstream, -, hno, harmed, hend⟩ := TcpConn.flush_ok inv.wf hflush
  have hst : c.state = s.conn.state := by rw [hframe]
  rw [TcpConn.finishWrite_eq fun hd => by rw [hd] at hend; exact hend.1, hst]
  have hall : accepted (s.log ++ front) ++ c.outputBuf.readable = s.promised := by
    rw [accepted_append, List.append_assoc, hstream, inv.stream]
  by_cases hfin : drained = true ∧ s.conn.state = .disconnenting
  · rw [if_pos hfin, ← List.append_assoc]
    rw [hfin.1] at hend
    obtain ⟨hw, hnil⟩ := hend
    rw [hnil, List.append_nil] at hall
    refine ⟨hwf, harmed inv.armed, ?_, ?_⟩
    · simpa [hnil, Effect.taken] using hall
    · cases inv.phase with
      | opened hopen =>
        rw [hfin.2] at hopen
        cases hopen
      | closing hclosing _ hlog =>
        refine .closed (hst.trans hclosing) hw ⟨s.log ++ front, [], rfl, ?_, List.forall_mem_nil _, hall⟩
        rw [List.mem_append, not_or]
        exact ⟨hlog, hno⟩
      | closed _ hw' =>
        -- Write interest is gone for good, so nothing can have been drained.
        rw [TcpConn.flush_idle w hw'] at hflush
        cases hflush
        cases hfin.1
  · rw [if_neg hfin, List.append_nil]
    refine ⟨hwf, harmed inv.armed, hall, ?_⟩
    cases inv.phase with
    | opened hopen hlog =>
      refine .opened (hst.trans hopen) ?_
      rw [List.mem_append, not_or]
      exact ⟨hlog, hno⟩
    | closing hclosing hw hlog =>
      have hd : drained = false := by
        by_contra hd
        exact hfin ⟨by simpa using hd, hclosing⟩
      rw [hd] at hend
      refine .closing (hst.trans hclosing) (Eq.trans hend hw) ?_
      rw [List.mem_append, not_or]
      exact ⟨hlog, hno⟩
    | closed hclosed hw hlog =>
      rw [TcpConn.flush_idle w hw] at hflush
      cases hflush
      rw [List.append_nil]
      exact .closed hclosed hw hlog

theorem step_keeps {s t : State} {l : Call} (inv : Inv s) (h : step s l = some t) (hf : NoFault t.log) :
    Inv t := by
  cases l with
  | send data w => exact send_keeps inv h hf
  | shutdown => exact shutdown_keeps inv h
  | writable w => exact writable_keeps inv h

/-! ### Any sequence of calls -/

theorem start_inv {c : TcpConn} {loop id mark : Nat} {cb : Callbacks}
    (hc : TcpConn.create loop id cb mark = .ok c) : Inv (start c) := by
  obtain ⟨b, hb, hwf, hread, -, -⟩ := Buffer.create_spec initialSize (by decide)
  simp only [TcpConn.create, hb, bind, Except.bind, pure, Except.pure, Except.ok.injEq] at hc
  subst hc
  refine ⟨hwf, ?_, ?_, .opened rfl List.not_mem_nil⟩
  · have hidle : Chan.create.enableReading.isWriting = false := rfl
    simp [start, TcpConn.establishConn, TcpConn.Armed, hread, hidle]
  · simp [start, TcpConn.establishConn, hread]

theorem run_inv {c : TcpConn} {loop id mark : Nat} {cb : Callbacks}
    (hc : TcpConn.create loop id cb mark = .ok c) {tr : List Call} {s : State}
    (h : exec step (start c) tr = some s) (hf : NoFault s.log) : Inv s := by
  refine run_induction (fun _ s => NoFault s.log → Inv s) (fun _ => start_inv hc) ?_ h hf
  intro _ s l t _ ih hl hf
  obtain ⟨es, hes⟩ := log_grows hl
  exact step_keeps (ih (hes ▸ hf).of_append.1) hl hf

/-- **The outgoing stream.** In every state an established connection reaches under its
loop before a direct write fails for good: the bytes the kernel has accepted and the
bytes still buffered are, in order, what was sent while the connection was open; the
write side is shut down at most once, when the kernel has accepted all of it, and
nothing is written afterwards. -/
theorem outgoing_stream_intact {c : TcpConn} {loop id mark : Nat} {cb : Callbacks}
    (hc : TcpConn.create loop id cb mark = .ok c) {tr : List Call} {s : State}
    (h : exec step (start c) tr = some s) (hf : NoFault s.log) :
    accepted s.log ++ s.conn.outputBuf.readable = s.promised ∧
      s.log.count .shutdownWrite ≤ 1 ∧
      ∀ front back, s.log = front ++ .shutdownWrite :: back →
        accepted front = s.promised ∧ ∀ e ∈ back, e.isWrite = false := by
  have inv := run_inv hc h hf
  refine ⟨inv.stream, ?_⟩
  have hnone : Effect.shutdownWrite ∉ s.log → s.log.count .shutdownWrite ≤ 1 ∧
      ∀ front back, s.log = front ++ .shutdownWrite :: back →
        accepted front = s.promised ∧ ∀ e ∈ back, e.isWrite = false := by
    intro hlog
    refine ⟨by rw [List.count_eq_zero.mpr hlog]; decide, fun front back he => ?_⟩
    exact absurd (he ▸ List.mem_append_right front List.mem_cons_self) hlog
  cases inv.phase with
  | opened _ hlog => exact hnone hlog
  | closing _ _ hlog => exact hnone hlog
  | closed _ _ hlog =>
    obtain ⟨f, b, hlog, hf', hb, hall⟩ := hlog
    have hb' : Effect.shutdownWrite ∉ b := fun he => by cases hb _ he
    refine ⟨?_, fun front back he => ?_⟩
    · have hcount : s.log.count .shutdownWrite = 0 + (0 + 1) := by
        rw [hlog, List.count_append, List.count_cons_self, List.count_eq_zero.mpr hf', List.count_eq_zero.mpr hb']
      omega
    · rw [hlog] at he
      obtain ⟨rfl, -, rfl⟩ := (List.append_cons_inj_of_notMem hf' hb').mp he
      refine ⟨hall, fun e he => ?_⟩
      have := hb e he
      cases e <;> first | rfl | cases this

/-- A direct write that takes one byte, a second message behind the rest, a shutdown that
has to wait, and the drain that ends in it. -/
theorem outgoing_stream_intact_deferred : ∃ c s,
    TcpConn.create 0 1 ⟨true, true, true, true, true⟩ 4 = .ok c ∧
      exec step (start c) [.send [1, 2, 3] (.accepts 1), .send [4, 5] (.accepts 9), .shutdown,
        .send [6] (.accepts 9), .writable (.accepts 2), .writable (.fails .wouldBlock),
        .writable (.accepts 9)] = some s ∧
      s.log.count .shutdownWrite ≤ 1 ∧ accepted s.log = [1, 2, 3, 4, 5] := by
  refine ⟨_, _, rfl, (Option.some_get (by decide +kernel)).symm, ?_, by decide +kernel⟩
  exact (outgoing_stream_intact rfl (Option.some_get (by decide +kernel)).symm (by decide +kernel)).2.1

end OutgoingStream

end Caimr.Net
