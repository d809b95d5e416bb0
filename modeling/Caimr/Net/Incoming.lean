import Caimr.Net.BufferHistory
import Caimr.Net.Served

/-! A connection with the user code that reads from it. The message callback is handed the
input buffer, takes out of it what it likes, and leaves the rest for later. Whatever it
leaves, it gets the stream in order, and it is called whenever there is more of it. -/
namespace Caimr.Net

namespace Incoming
open Transition

/-- What user code does to the input buffer. -/
def isTaking : BufferQueue.Op → Bool
  | .retrieve _ | .retrieveAll | .retrieveAsString _ | .retrieveAllAsString => true
  | .append _ | .ensureWritableBytes _ => false

/-- The bytes that it takes. -/
def taken (b : Buffer) : BufferQueue.Op → Bytes
  | .retrieve len | .retrieveAsString len => b.readable.take len
  | .retrieveAll | .retrieveAllAsString => b.readable
  | .append _ | .ensureWritableBytes _ => []

/-- The bytes that a call takes off the socket. -/
def received (c : TcpConn) : Served.Call → Bytes
  | .readable r => c.inputBuf.received r
  | _ => []

inductive Act where
  | call (k : Served.Call)
  | take (op : BufferQueue.Op)
deriving DecidableEq, Repr

/-- A connection, the bytes that have come from the socket, those that user code has taken, and
how many reads have got any. -/
structure State where
  served : Served.State
  read : Bytes
  taken : Bytes
  reads : Nat

def State.setInput (s : State) (b : Buffer) : State :=
  {s with served := {s.served with conn := {s.served.conn with inputBuf := b}}}

def step (s : State) : Act → Option State
  | .call k =>
    (Served.step s.served k).map fun v =>
      ⟨v, s.read ++ received s.served.conn k, s.taken,
        if received s.served.conn k = [] then s.reads else s.reads + 1⟩
  | .take op =>
    if isTaking op = true ∧ op.allowed s.served.conn.inputBuf = true then
      match BufferQueue.onBuffer s.served.conn.inputBuf op with
      | .ok (b, _) => some {s.setInput b with taken := s.taken ++ taken s.served.conn.inputBuf op}
      | .error _ => none
    else none

/-- A connection that has just been made. -/
def start (c : TcpConn) : State := ⟨Served.start c, [], [], 0⟩

/-! ### What a call does to the input buffer -/

variable {c c' : TcpConn} {k : Served.Call} {es : List Effect} {next : Option Served.Call}

/-- The message callback, if it is asked for. -/
def messages (es : List Effect) : Nat := es.count .msgCallback

theorem messages_none {es : List Effect} (h : .msgCallback ∉ es) : messages es = 0 := List.count_eq_zero.mpr h

/-- A `handle_read` that returns has put what it got behind the readable bytes, and asks for
the message callback exactly if it got something. -/
theorem handleRead_input {r : ReadResult} (hwf : c.inputBuf.Wf) (h : c.handleRead r = .ok (c', es)) :
    c'.inputBuf.Wf ∧ c'.inputBuf.readable = c.inputBuf.readable ++ c.inputBuf.received r ∧
      (c.callbacks.msg = true → messages es = if c.inputBuf.received r = [] then 0 else 1) := by
  obtain ⟨⟨b, answer⟩, hb, h⟩ := bind_ok.mp h
  obtain ⟨hwf', hread, hlen, hnone⟩ := Buffer.readFd_ok hwf hb
  dsimp only at h
  split at h
  · rename_i n
    split at h
    · rename_i hn
      cases h
      refine ⟨hwf', hread, fun hcb => ?_⟩
      have hne : c.inputBuf.received r ≠ [] := by
        intro hnil
        rw [← hlen n rfl, hnil] at hn
        cases hn
      rw [if_neg hne, if_pos hcb]
      rfl
    · rename_i hn
      cases h
      have hnil : c.inputBuf.received r = [] := by
        rw [← List.length_eq_zero_iff, hlen n rfl]
        exact Nat.eq_zero_of_not_pos hn
      refine ⟨hwf', hread, fun _ => ?_⟩
      rw [if_pos hnil]
      refine messages_none ?_
      split <;> split <;> simp
  · rename_i e
    cases h
    exact ⟨hwf', hread, fun _ => by rw [if_pos (hnone e rfl)]; rfl⟩

theorem send_silent {data : Bytes} {w : WriteResult} (h : c.send data w = .ok (c', es)) :
    c'.inputBuf = c.inputBuf ∧ .msgCallback ∉ es := by
  have hnow : Effect.msgCallback ∉ (c.writeNow data w).effects := by
    unfold TcpConn.writeNow TcpConn.directWrite
    split
    · split
      · split <;> simp
      · simp
    · exact List.not_mem_nil
  unfold TcpConn.send at h
  split at h
  · refine ⟨by rw [TcpConn.sendInLoop_frame h], ?_⟩
    rcases TcpConn.sendInLoop_cases h with ⟨-, -, rfl⟩ | ⟨-, -, -, rfl⟩ | ⟨later, -, -, -, hk, rfl⟩
    · exact List.not_mem_nil
    · exact hnow
    · obtain ⟨b, -, hk⟩ := bind_ok.mp hk
      cases hk
      rw [List.mem_append, not_or]
      refine ⟨hnow, ?_⟩
      split <;> simp
  · cases h
    exact ⟨rfl, List.not_mem_nil⟩

theorem flush_silent {w : WriteResult} {drained : Bool} (h : c.flush w = .ok (c', es, drained)) :
    c'.inputBuf = c.inputBuf ∧ .msgCallback ∉ es := by
  refine ⟨by rw [TcpConn.flush_frame h], ?_⟩
  obtain ⟨-, -, rfl, -⟩ | ⟨_, _, -, -, -, -, rfl, -⟩ | ⟨_, _, -, -, -, -, -, rfl, -⟩ |
    ⟨_, _, -, -, -, -, -, rfl, -⟩ := TcpConn.flush_cases h
  · exact List.not_mem_nil
  · simp
  · simp
  · split <;> simp

theorem shutdownInLoop_silent (c : TcpConn) : .msgCallback ∉ c.shutdownInLoop := by
  unfold TcpConn.shutdownInLoop
  split <;> simp

/-- Only `handle_read` has to do with the input buffer. -/
theorem run_silent (hk : ∀ r, k ≠ .readable r) (h : k.run c = .ok (c', es, next)) :
    c'.inputBuf = c.inputBuf ∧ .msgCallback ∉ es := by
  cases k with
  | readable r => exact absurd rfl (hk r)
  | establish =>
    cases h
    refine ⟨rfl, ?_⟩
    unfold TcpConn.establishConn
    split <;> simp
  | close =>
    cases h
    refine ⟨rfl, ?_⟩
    simp only [TcpConn.handleClose]
    split <;> split <;> simp
  | removeChan =>
    cases h
    exact ⟨rfl, List.not_mem_nil⟩
  | finishWrite =>
    cases h
    refine ⟨rfl, ?_⟩
    unfold TcpConn.finishWrite
    split
    · exact shutdownInLoop_silent c
    · exact List.not_mem_nil
  | shutdown =>
    simp only [Served.Call.run, Except.ok.injEq, Prod.mk.injEq, TcpConn.shutdown] at h
    rw [← h.1, ← h.2.1]
    split
    · exact ⟨rfl, shutdownInLoop_silent _⟩
    · exact ⟨rfl, List.not_mem_nil⟩
  | destroy =>
    simp only [Served.Call.run, Except.ok.injEq, Prod.mk.injEq, TcpConn.destroyConn] at h
    rw [← h.1, ← h.2.1]
    split
    · refine ⟨rfl, ?_⟩
      split <;> simp
    · exact ⟨rfl, by simp⟩
  | send data w =>
    obtain ⟨_, hsend, h⟩ := bind_ok.mp h
    cases h
    exact send_silent hsend
  | flush w =>
    obtain ⟨_, hflush, h⟩ := bind_ok.mp h
    cases h
    exact flush_silent hflush

theorem run_input (hwf : c.inputBuf.Wf) (h : k.run c = .ok (c', es, next)) : c'.inputBuf.Wf ∧
    c'.inputBuf.readable = c.inputBuf.readable ++ received c k ∧
      (c.callbacks.msg = true → messages es = if received c k = [] then 0 else 1) := by
  by_cases hk : ∃ r, k = .readable r
  · obtain ⟨r, rfl⟩ := hk
    obtain ⟨_, hread, h⟩ := bind_ok.mp h
    cases h
    exact handleRead_input hwf hread
  · have hne : ∀ r, k ≠ .readable r := fun r he => hk ⟨r, he⟩
    obtain ⟨hbuf, hes⟩ := run_silent hne h
    have hnil : received c k = [] := by
      cases k <;> first | rfl | exact absurd rfl (hne _)
    rw [hbuf, hnil, List.append_nil, if_pos rfl]
    exact ⟨hwf, rfl, fun _ => messages_none hes⟩

/-! ### What user code takes -/

/-- What is taken and what stays is what there was; and a string that comes back is what was
taken. -/
theorem take_input {b b' : Buffer} {op : BufferQueue.Op} {reply : BufferQueue.Reply} (hwf : b.Wf)
    (ht : isTaking op = true) (ha : op.allowed b = true) (h : BufferQueue.onBuffer b op = .ok (b', reply)) :
    b'.Wf ∧ taken b op ++ b'.readable = b.readable ∧ ∀ s, reply = .string s → s = taken b op := by
  have hret : ∀ len, (b.retrieve len).Wf ∧ b.readable.take len ++ (b.retrieve len).readable = b.readable := by
    intro len
    rw [Buffer.retrieve_readable hwf, List.take_append_drop]
    exact ⟨Buffer.retrieve_wf hwf len, rfl⟩
  have hall : b.readable.take b.readableBytes = b.readable := by
    rw [← Buffer.length_readable hwf, List.take_length]
  cases op with
  | append data | ensureWritableBytes len => cases ht
  | retrieve len =>
    cases h
    exact ⟨(hret len).1, (hret len).2, nofun⟩
  | retrieveAll =>
    cases h
    refine ⟨Buffer.retrieveAll_wf hwf, ?_, nofun⟩
    rw [taken, Buffer.retrieveAll_readable, List.append_nil]
  | retrieveAsString len =>
    have hlen : len ≤ b.readableBytes := of_decide_eq_true ha
    rw [BufferQueue.onBuffer, Buffer.retrieveAsString_spec hwf hlen] at h
    cases h
    exact ⟨(hret len).1, (hret len).2, fun s hs => by cases hs; rfl⟩
  | retrieveAllAsString =>
    rw [BufferQueue.onBuffer, Buffer.retrieveAllAsString, Buffer.retrieveAsString_spec hwf (Nat.le_refl _)] at h
    cases h
    have hr := hret b.readableBytes
    rw [hall] at hr
    exact ⟨hr.1, hr.2, fun s hs => by cases hs; exact hall⟩

/-! ### Any sequence of calls -/

/-- What holds on every run. -/
structure Inv (cb : Callbacks) (s : State) : Prop where
  callbacks : s.served.conn.callbacks = cb
  wf : s.served.conn.inputBuf.Wf
  stream : s.taken ++ s.served.conn.inputBuf.readable = s.read
  messages : cb.msg = true → messages s.served.log = s.reads
  kept : Served.Kept s.served
  whole : NoFault s.served.log → Served.Whole s.served

/-- Nothing but `handle_read` looks at the input buffer. -/
theorem watched_input (hw : c.Watched) (b : Buffer) : {c with inputBuf := b}.Watched :=
  ⟨hw.wf, hw.fresh, hw.live, hw.dead⟩

theorem kept_input {s : State} (hk : Served.Kept s.served) (b : Buffer) : Served.Kept (s.setInput b).served :=
  ⟨watched_input hk.watched b, hk.rest, hk.drained, hk.due⟩

theorem whole_input {s : State} (hw : Served.Whole s.served) (b : Buffer) : Served.Whole (s.setInput b).served := by
  refine ⟨hw.stream, fun hm => ?_⟩
  obtain ⟨hdown, hidle, hthrough, hsplit⟩ := hw.half hm
  exact ⟨hdown, hidle, hthrough, hsplit⟩

theorem call_inv {cb : Callbacks} {s : State} {k : Served.Call} {v : Served.State} (hi : Inv cb s)
    (hv : Served.step s.served k = some v) :
    Inv cb ⟨v, s.read ++ received s.served.conn k, s.taken,
      if received s.served.conn k = [] then s.reads else s.reads + 1⟩ := by
  obtain ⟨-, -, es, hrun, hlog, -⟩ := Served.step_iff.mp hv
  obtain ⟨hwf, hread, hmsg⟩ := run_input hi.wf hrun
  refine ⟨(Served.run_same hrun).callbacks.trans hi.callbacks, hwf, ?_, fun hcb => ?_, Served.step_kept hi.kept hv,
    fun hf => ?_⟩
  · show s.taken ++ v.conn.inputBuf.readable = s.read ++ received s.served.conn k
    rw [hread, ← List.append_assoc, hi.stream]
  · show Incoming.messages v.log = if received s.served.conn k = [] then s.reads else s.reads + 1
    have hold := hi.messages hcb
    have hnew := hmsg (by rw [hi.callbacks]; exact hcb)
    unfold Incoming.messages at hold hnew
    rw [hlog, Incoming.messages, List.count_append, hold, hnew]
    split <;> rfl
  · have hf' : NoFault (s.served.log ++ es) := hlog ▸ hf
    exact Served.step_whole hi.kept (hi.whole hf'.of_append.1) hv hf

theorem step_inv {cb : Callbacks} {s t : State} {a : Act} (hi : Inv cb s) (h : step s a = some t) : Inv cb t := by
  cases a with
  | call k =>
    obtain ⟨v, hv, rfl⟩ := Option.map_eq_some_iff.mp h
    exact call_inv hi hv
  | take op =>
    simp only [step] at h
    split at h
    · rename_i hop
      split at h <;> cases h
      rename_i b reply hb
      obtain ⟨hwf, hread, -⟩ := take_input hi.wf hop.1 hop.2 hb
      refine ⟨hi.callbacks, hwf, ?_, hi.messages, kept_input hi.kept b, fun hf => whole_input (hi.whole hf) b⟩
      show (s.taken ++ taken s.served.conn.inputBuf op) ++ b.readable = s.read
      rw [List.append_assoc, hread, hi.stream]
    · cases h

theorem run_inv {loop id mark : Nat} {cb : Callbacks} (hc : TcpConn.create loop id cb mark = .ok c)
    {tr : List Act} {s : State} (h : exec step (start c) tr = some s) : Inv cb s := by
  refine exec_preserves (I := Inv cb) (fun _ _ _ => step_inv) ?_ h
  have hnew : c.callbacks = cb ∧ c.inputBuf.Wf ∧ c.inputBuf.readable = [] := by
    obtain ⟨b, hb, hwf, hread, -, -⟩ := Buffer.create_spec initialSize (by decide)
    simp only [TcpConn.create, hb, bind, Except.bind, pure, Except.pure, Except.ok.injEq] at hc
    subst hc
    exact ⟨rfl, hwf, hread⟩
  exact ⟨hnew.1, hnew.2.1, hnew.2.2, fun _ => rfl, Served.start_kept hc, fun _ => Served.start_whole hc⟩

/-- **Both streams of a connection.** Whatever the kernel hands over at once, whatever the
server does with a connection in between, and whatever user code takes out of the input
buffer when: what it has taken and what is still there for it is, in order, what has come
from the socket; the message callback was called once for each read that got something; and
short of a failed write the outgoing stream is whole. -/
theorem both_streams {loop id mark : Nat} {cb : Callbacks} (hc : TcpConn.create loop id cb mark = .ok c)
    {tr : List Act} {s : State} (h : exec step (start c) tr = some s) :
    s.taken ++ s.served.conn.inputBuf.readable = s.read ∧
      (cb.msg = true → s.served.log.count .msgCallback = s.reads) ∧
      (NoFault s.served.log →
        accepted s.served.log ++ s.served.conn.outputBuf.readable = s.served.promised) := by
  have hi := run_inv hc h
  exact ⟨hi.stream, hi.messages, fun hf => (hi.whole hf).stream⟩

/-- A message in two reads, of which user code leaves a byte the first time, and its answer. -/
def answered : List Act :=
  [.call .establish, .call (.readable (.received [1, 2, 3])), .take (.retrieveAsString 2),
    .call (.send [7, 8] (.accepts 1)), .call (.readable (.received [4])), .take .retrieveAllAsString,
    .call (.readable (.received []))]

theorem answered_run : ∃ c s, TcpConn.create 1 1 ⟨true, true, false, true, false⟩ 64 = .ok c ∧
    exec step (start c) answered = some s ∧ s.taken = [1, 2, 3, 4] ∧ NoFault s.served.log := by
  refine ⟨_, _, rfl, (Option.some_get (by decide +kernel)).symm, ?_⟩
  decide +kernel

theorem both_streams_answered : ∃ s : State, s.taken = [1, 2, 3, 4] ∧
    s.taken ++ s.served.conn.inputBuf.readable = s.read ∧ s.served.log.count .msgCallback = s.reads ∧
    accepted s.served.log ++ s.served.conn.outputBuf.readable = s.served.promised := by
  obtain ⟨c, s, hc, hs, htaken, hf⟩ := answered_run
  obtain ⟨hin, hmsg, hout⟩ := both_streams hc hs
  exact ⟨s, htaken, hin, hmsg rfl, hout hf⟩

end Incoming

end Caimr.Net
