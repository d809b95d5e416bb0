import Mathlib.Data.List.Basic
import Caimr.Lib.Transition
import Caimr.Net.Stream

/-! The echo server of `test/tcp_server_test.cpp`. Its message callback takes all that
has been read and sends it back on the same connection. Whatever the kernel makes of the
reads and the writes, what it has accepted and what still waits in the output buffer make
up, in order, what has been read. -/
namespace Caimr.Net

namespace Echo
open Transition

/-- `echo_server::on_message`, with the kernel's answer to the `::write` it may lead to. -/
def onMessage (c : TcpConn) (w : WriteResult) : Except Fault (TcpConn × List Effect) := do
  let (msg, inputBuf) ← c.inputBuf.retrieveAllAsString
  {c with inputBuf := inputBuf}.send msg w

/-- What epoll reports of the connection, with the kernel's answers. -/
inductive Event where
  | readable (r : ReadResult) (w : WriteResult)
  | writable (w : WriteResult)
  | hangUp
deriving DecidableEq, Repr

def Event.run (c : TcpConn) : Event → Except Fault (TcpConn × List Effect)
  | .readable r w => do
    let (c, es) ← c.handleRead r
    if .msgCallback ∈ es then
      let (c, es') ← onMessage c w
      return (c, es ++ es')
    else return (c, es)
  | .writable w => c.handleWrite w
  | .hangUp => .ok c.handleClose

/-- The bytes the event takes off the socket. -/
def Event.received (c : TcpConn) : Event → Bytes
  | .readable r _ => c.inputBuf.received r
  | _ => []

/-- A connection, all it has done so far, and the bytes it has read. -/
structure State where
  conn : TcpConn
  log : List Effect
  read : Bytes
deriving DecidableEq, Repr

def step (s : State) (e : Event) : Option State :=
  match e.run s.conn with
  | .ok (c, es) => some ⟨c, s.log ++ es, s.read ++ e.received s.conn⟩
  | .error _ => none

/-- A connection just established; `on_connnect` only writes to the log. -/
def start (c : TcpConn) : State := ⟨c.establishConn.1, [], []⟩

/-- Nothing is lost between the stream that comes in and the one that goes out. -/
inductive Balance (c : TcpConn) (sent read : Bytes) : Prop where
  | connected : c.state = .connected → c.inputBuf.readable = [] → sent ++ c.outputBuf.readable = read →
      Balance c sent read
  | closed : c.state = .disconnected → c.ch.isWriting = false → sent <+: read → Balance c sent read

/-- What holds on every run without a fault. -/
structure Inv (c : TcpConn) (sent read : Bytes) : Prop where
  callbacks : c.callbacks.msg = true
  input : c.inputBuf.Wf
  output : c.outputBuf.Wf
  balance : Balance c sent read

theorem Balance.front {c : TcpConn} {sent read : Bytes} (h : Balance c sent read) : sent <+: read := by
  cases h with
  | connected _ _ hstream => exact ⟨_, hstream⟩
  | closed _ _ hfront => exact hfront

/-! ### One event -/

theorem step_some {s t : State} {e : Event} (h : step s e = some t) :
    ∃ es, e.run s.conn = .ok (t.conn, es) ∧ t.log = s.log ++ es ∧ t.read = s.read ++ e.received s.conn := by
  unfold step at h
  split at h <;> simp only [Option.some.injEq, reduceCtorEq] at h
  rename_i c es hrun
  subst h
  exact ⟨es, hrun, rfl, rfl⟩

variable {c c' : TcpConn} {sent read : Bytes} {es : List Effect}

/-- A `handle_read` that returns has asked for the message callback, or there was nothing to read,
or the stream has ended. -/
theorem handleRead_ok {r : ReadResult} (hwf : c.inputBuf.Wf) (hcb : c.callbacks.msg = true)
    (h : c.handleRead r = .ok (c', es)) :
    ∃ b : Buffer, b.Wf ∧ b.readable = c.inputBuf.readable ++ c.inputBuf.received r ∧
      (c' = {c with inputBuf := b} ∧ (es = [.msgCallback] ∨ es = [] ∧ c.inputBuf.received r = []) ∨
        (c', es) = {c with inputBuf := b}.handleClose ∧ c.inputBuf.received r = []) := by
  obtain ⟨⟨b, answer⟩, hb, h⟩ := bind_ok.mp h
  obtain ⟨hwf', hread, hlen, hnone⟩ := Buffer.readFd_ok hwf hb
  refine ⟨b, hwf', hread, ?_⟩
  dsimp only at h
  split at h
  · rename_i n
    split at h
    · simp only [pure, Except.pure, Except.ok.injEq, Prod.mk.injEq] at h
      obtain ⟨rfl, rfl⟩ := h
      exact .inl ⟨rfl, .inl rfl⟩
    · cases h
      refine .inr ⟨rfl, List.length_eq_zero_iff.mp ?_⟩
      rw [hlen n rfl]
      omega
  · rename_i e
    cases h
    exact .inl ⟨rfl, .inr ⟨rfl, hnone e rfl⟩⟩

/-- `on_message` empties the input buffer and sends what was in it. -/
theorem onMessage_ok {w : WriteResult} (hwf : c.inputBuf.Wf) (h : onMessage c w = .ok (c', es)) :
    ∃ b : Buffer, b.Wf ∧ b.readable = [] ∧
      {c with inputBuf := b}.send c.inputBuf.readable w = .ok (c', es) := by
  have hall := Buffer.retrieveAsString_spec hwf (Nat.le_refl _)
  have hfull : c.inputBuf.readable.length ≤ c.inputBuf.readableBytes :=
    Nat.le_of_eq (Buffer.length_readable hwf)
  rw [List.take_of_length_le hfull] at hall
  rw [onMessage, Buffer.retrieveAllAsString, hall] at h
  refine ⟨_, Buffer.retrieve_wf hwf _, ?_, h⟩
  rw [Buffer.retrieve_readable hwf, List.drop_of_length_le hfull]

/-- An event that reads nothing leaves the balance alone, whatever room it makes for the input. -/
theorem Inv.idle {b : Buffer} (inv : Inv c sent read) (hb : b.Wf) (hread : b.readable = c.inputBuf.readable) :
    Inv {c with inputBuf := b} sent read := by
  refine ⟨inv.callbacks, hb, inv.output, ?_⟩
  cases inv.balance with
  | connected hst hempty hstream => exact .connected hst (hread.trans hempty) hstream
  | closed hst hidle hfront => exact .closed hst hidle hfront

/-- Bytes that have been read are on their way back when the message callback returns. -/
theorem Inv.message {got : Bytes} {w : WriteResult} (hcb : c.callbacks.msg = true) (hin : c.inputBuf.Wf)
    (hout : c.outputBuf.Wf)
    (hbalance : c.state = .connected ∧ c.inputBuf.readable = got ∧ sent ++ c.outputBuf.readable = read ∨
      c.state = .disconnected ∧ c.ch.isWriting = false ∧ sent <+: read)
    (h : onMessage c w = .ok (c', es)) (hf : NoFault es) :
    Inv c' (sent ++ accepted es) (read ++ got) := by
  obtain ⟨b, hb, hnil, hsend⟩ := onMessage_ok hin h
  unfold TcpConn.send at hsend
  obtain ⟨hst, hgot, hstream⟩ | ⟨hst, hidle, hfront⟩ := hbalance
  · have hopen : ¬ c.state = .disconnected := by
      rw [hst]
      decide
    rw [if_pos hst] at hsend
    obtain ⟨hframe, hout', hsent, -, -⟩ :=
      TcpConn.sendInLoop_ok (c := {c with inputBuf := b}) hout hopen hsend hf
    rw [hframe]
    refine ⟨hcb, hb, hout', .connected hst hnil ?_⟩
    rw [List.append_assoc, ← hstream, List.append_assoc]
    exact congrArg (sent ++ ·) (hsent.trans (congrArg (c.outputBuf.readable ++ ·) hgot))
  · have hclosed : ¬ c.state = .connected := by
      rw [hst]
      decide
    rw [if_neg hclosed] at hsend
    cases hsend
    rw [accepted_nil, List.append_nil]
    exact ⟨hcb, hb, hout, .closed hst hidle (hfront.trans (List.prefix_append ..))⟩

/-- Closing the connection leaves what was accepted a prefix of what was read. -/
theorem Inv.close (inv : Inv c sent read) : Inv c.handleClose.1 sent read :=
  ⟨inv.callbacks, inv.input, inv.output, .closed rfl (Chan.disableAll_isWriting _) inv.balance.front⟩

/-- Writing moves bytes from the output buffer to the kernel. -/
theorem Inv.write {w : WriteResult} (inv : Inv c sent read) (h : c.handleWrite w = .ok (c', es)) :
    Inv c' (sent ++ accepted es) read := by
  obtain ⟨front, drained, hflush, rfl⟩ := TcpConn.handleWrite_ok h
  have hfinish : accepted (c'.finishWrite drained) = [] := by
    unfold TcpConn.finishWrite
    split
    · exact TcpConn.accepted_shutdownInLoop c'
    · rfl
  rw [accepted_append, hfinish, List.append_nil]
  cases inv.balance with
  | connected hst hempty hstream =>
    obtain ⟨hframe, hout, hmoved, -⟩ := TcpConn.flush_ok inv.output hflush
    rw [hframe]
    refine ⟨inv.callbacks, inv.input, hout, .connected hst hempty ?_⟩
    rw [List.append_assoc, ← hstream]
    exact congrArg (sent ++ ·) hmoved
  | closed hst hidle hfront =>
    rw [TcpConn.flush_idle w hidle] at hflush
    cases hflush
    rw [accepted_nil, List.append_nil]
    exact inv

theorem readable_keeps {r : ReadResult} {w : WriteResult} (inv : Inv c sent read)
    (h : (Event.readable r w).run c = .ok (c', es)) (hf : NoFault es) :
    Inv c' (sent ++ accepted es) (read ++ c.inputBuf.received r) := by
  obtain ⟨⟨c₁, front⟩, hhr, h⟩ := bind_ok.mp h
  dsimp only at h
  obtain ⟨b, hb, hgot, ⟨rfl, rfl | ⟨rfl, hnone⟩⟩ | ⟨hclose, hnone⟩⟩ :=
    handleRead_ok inv.input inv.callbacks hhr
  · rw [if_pos (List.mem_singleton_self _)] at h
    obtain ⟨⟨c₂, back⟩, hmsg, h⟩ := bind_ok.mp h
    cases h
    rw [accepted_append, accepted_cons, accepted_nil]
    refine Inv.message (c := {c with inputBuf := b}) inv.callbacks hb inv.output ?_ hmsg hf.of_append.2
    cases inv.balance with
    | connected hst hempty hstream => exact .inl ⟨hst, by rw [hgot, hempty]; rfl, hstream⟩
    | closed hst hidle hfront => exact .inr ⟨hst, hidle, hfront⟩
  · cases h
    rw [hnone, List.append_nil] at hgot
    rw [hnone, accepted_nil, List.append_nil, List.append_nil]
    exact inv.idle hb hgot
  · have hes := TcpConn.handleClose_quiet {c with inputBuf := b}
    rw [← hclose] at hes
    have hno : Effect.msgCallback ∉ front := by
      have hfront : front = (TcpConn.handleClose {c with inputBuf := b}).2 := congrArg Prod.snd hclose
      rw [hfront]
      unfold TcpConn.handleClose
      split <;> split <;> simp
    rw [if_neg hno] at h
    cases h
    rw [hnone, List.append_nil] at hgot
    rw [hnone, accepted_quiet hes, List.append_nil, List.append_nil]
    have := (inv.idle hb hgot).close
    rw [← hclose] at this
    exact this

theorem step_keeps {s t : State} {e : Event} (inv : Inv s.conn (accepted s.log) s.read)
    (h : step s e = some t) (hf : NoFault t.log) : Inv t.conn (accepted t.log) t.read := by
  obtain ⟨es, hrun, hlog, hread⟩ := step_some h
  rw [hlog] at hf
  rw [hlog, accepted_append, hread]
  cases e with
  | readable r w => exact readable_keeps inv hrun hf.of_append.2
  | writable w =>
    show Inv t.conn _ (s.read ++ [])
    rw [List.append_nil]
    exact inv.write hrun
  | hangUp =>
    have hes := TcpConn.handleClose_quiet s.conn
    simp only [Event.run, Except.ok.injEq] at hrun
    rw [hrun] at hes
    show Inv t.conn _ (s.read ++ [])
    rw [accepted_quiet hes, List.append_nil, List.append_nil]
    have := inv.close
    rw [hrun] at this
    exact this

/-! ### Any order of events -/

theorem start_inv {loop id mark : Nat} {cb : Callbacks} (hc : TcpConn.create loop id cb mark = .ok c)
    (hcb : cb.msg = true) : Inv (start c).conn [] [] := by
  obtain ⟨b, hb, hwf, hread, -, -⟩ := Buffer.create_spec initialSize (by decide)
  simp only [TcpConn.create, hb, bind, Except.bind, pure, Except.pure, Except.ok.injEq] at hc
  subst hc
  exact ⟨hcb, hwf, hwf, .connected rfl hread hread⟩

theorem run_inv {loop id mark : Nat} {cb : Callbacks} (hc : TcpConn.create loop id cb mark = .ok c)
    (hcb : cb.msg = true) {tr : List Event} {s : State} (h : exec step (start c) tr = some s)
    (hf : NoFault s.log) : Inv s.conn (accepted s.log) s.read := by
  refine run_induction (fun _ s => NoFault s.log → Inv s.conn (accepted s.log) s.read)
    (fun _ => start_inv hc hcb) ?_ h hf
  intro _ s e t _ ih hl hf
  obtain ⟨es, -, hlog, -⟩ := step_some hl
  exact step_keeps (ih (hlog ▸ hf).of_append.1) hl hf

/-- **The echo.** However reads and writes are split, and in whatever order they come, before a
direct write fails for good: while the connection is open its input buffer is empty between
events, and the bytes the kernel has accepted and those still buffered are the bytes read.
What has been accepted is a prefix of what has been read, also when the connection is closed. -/
theorem echo_correct {loop id mark : Nat} {cb : Callbacks} (hc : TcpConn.create loop id cb mark = .ok c)
    (hcb : cb.msg = true) {tr : List Event} {s : State} (h : exec step (start c) tr = some s)
    (hf : NoFault s.log) :
    (s.conn.state = .connected →
      s.conn.inputBuf.readableBytes = 0 ∧ accepted s.log ++ s.conn.outputBuf.readable = s.read) ∧
      accepted s.log <+: s.read := by
  have inv := run_inv hc hcb h hf
  refine ⟨fun hst => ?_, inv.balance.front⟩
  cases inv.balance with
  | connected _ hempty hstream =>
    refine ⟨?_, hstream⟩
    rw [← Buffer.length_readable inv.input, hempty]
    rfl
  | closed hst' =>
    rw [hst] at hst'
    cases hst'

/-- A message that is taken back in parts, one that has to wait behind it, and the end of the stream. -/
theorem echo_correct_split : ∃ c s,
    TcpConn.create 0 1 ⟨true, true, false, true, false⟩ 4 = .ok c ∧
      exec step (start c) [.readable (.received [1, 2, 3]) (.accepts 1), .writable (.fails .wouldBlock),
        .readable (.received [4]) (.accepts 9), .writable (.accepts 2),
        .readable (.received []) (.accepts 9)] = some s ∧
      accepted s.log <+: s.read ∧ accepted s.log = [1, 2, 3] ∧ s.read = [1, 2, 3, 4] := by
  refine ⟨_, _, rfl, (Option.some_get (by decide +kernel)).symm, ?_, by decide +kernel, by decide +kernel⟩
  exact (echo_correct rfl rfl (Option.some_get (by decide +kernel)).symm (by decide +kernel)).2

end Echo

end Caimr.Net
