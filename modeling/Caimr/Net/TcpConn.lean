import Caimr.Net.Buffer
import Caimr.Net.Chan

/-! `net/tcp_conn.cpp`. Each member function takes the connection and the answers of the
system calls it may make, and returns the connection it leaves and, in order, what it
does to the rest of the world: the calls on the socket, the callbacks it invokes and
the tasks it queues on its loop. A callback is user code and runs after the step that
asks for it, except where the code goes on after a callback: there what follows is
itself an effect (`closeCallback`, `removeChan`). -/
namespace Caimr.Net

/-- `tcp_conn::state`, in the source's spelling. -/
inductive ConnState where
  | disconnected
  | connenting
  | connected
  | disconnenting
deriving DecidableEq, Repr, Inhabited

/-- Which of the callbacks are set. -/
structure Callbacks where
  conn : Bool
  msg : Bool
  writeComplete : Bool
  close : Bool
  highWaterMark : Bool
deriving DecidableEq, Repr, Inhabited

structure TcpConn where
  /-- `loop_`, as the number of the loop. -/
  loop : Nat
  id : Nat
  state : ConnState
  ch : Chan
  callbacks : Callbacks
  highWaterMark : Nat
  inputBuf : Buffer
  outputBuf : Buffer
deriving DecidableEq, Repr, Inhabited

/-- What a connection does to the rest of the world. -/
inductive Effect where
  /-- `::write` of `data`, from `send_in_loop` (`direct`) or from `handle_write`. -/
  | write (direct : Bool) (data : Bytes) (answer : WriteResult)
  | shutdownWrite
  | queueWriteComplete
  | queueHighWaterMark (len : Nat)
  | connCallback
  | msgCallback
  | closeCallback
  | removeChan
deriving DecidableEq, Repr

namespace TcpConn

/-- `tcp_conn(loop, id, …)`, with the callbacks its creator sets. -/
def create (loop id : Nat) (callbacks : Callbacks) (highWaterMark : Nat) : Except Fault TcpConn := do
  let inputBuf ← Buffer.create initialSize
  let outputBuf ← Buffer.create initialSize
  return { loop := loop
           id := id
           state := .connenting
           ch := .create
           callbacks := callbacks
           highWaterMark := highWaterMark
           inputBuf := inputBuf
           outputBuf := outputBuf }

/-- `high_water_mark_` unless the user sets another. -/
def defaultHighWaterMark : Nat := 64 * 1024 * 1024

def isConnected (c : TcpConn) : Bool := c.state == .connected

/-! ### Sending -/

/-- What the first half of `send_in_loop` has done: `nwrote`, `fault_occurred`, and its
effects. -/
structure Wrote where
  nwrote : Nat
  fault : Bool
  effects : List Effect
deriving DecidableEq, Repr

/-- `errno` is `EPIPE` or `ECONNRESET`. -/
def isFault : Errno → Bool
  | .pipe | .connReset => true
  | .wouldBlock | .other _ => false

/-- The direct `::write` of `send_in_loop`. -/
def directWrite (c : TcpConn) (data : Bytes) (w : WriteResult) : Wrote :=
  match w.returned data.length with
  | .ok n =>
    ⟨n, false, .write true data w ::
      if data.length - n = 0 ∧ c.callbacks.writeComplete then [.queueWriteComplete] else []⟩
  | .error e => ⟨0, isFault e, [.write true data w]⟩

/-- The first half of `send_in_loop`: a write at once, if nothing is waiting to be written. -/
def writeNow (c : TcpConn) (data : Bytes) (w : WriteResult) : Wrote :=
  if !c.ch.isWriting && c.outputBuf.readableBytes == 0 then c.directWrite data w else ⟨0, false, []⟩

/-- The bytes that remain go to the buffer, and the channel is armed for writing. -/
def keepRemaining (c : TcpConn) (remaining : Bytes) : Except Fault (TcpConn × List Effect) := do
  let oldLen := c.outputBuf.readableBytes
  let crossed := c.highWaterMark ≤ sizeAdd oldLen remaining.length ∧ oldLen < c.highWaterMark ∧
    c.callbacks.highWaterMark
  let outputBuf ← c.outputBuf.append remaining
  let ch := if c.ch.isWriting then c.ch else c.ch.enableWriting
  return ({c with outputBuf := outputBuf, ch := ch},
    if crossed then [.queueHighWaterMark (sizeAdd oldLen remaining.length)] else [])

/-- The second half of `send_in_loop`. -/
def writeLater (c : TcpConn) (data : Bytes) (d : Wrote) : Except Fault (TcpConn × List Effect) :=
  if !d.fault && 0 < data.length - d.nwrote then do
    let (c, effects) ← c.keepRemaining (data.drop d.nwrote)
    return (c, d.effects ++ effects)
  else .ok (c, d.effects)

/-- `send_in_loop`, given the answer to its `::write` in case it makes one. -/
def sendInLoop (c : TcpConn) (data : Bytes) (w : WriteResult) : Except Fault (TcpConn × List Effect) :=
  if c.state = .disconnected then .ok (c, []) else c.writeLater data (c.writeNow data w)

/-- `send` on the loop's own thread. -/
def send (c : TcpConn) (data : Bytes) (w : WriteResult) : Except Fault (TcpConn × List Effect) :=
  if c.state = .connected then c.sendInLoop data w else .ok (c, [])

/-! ### Shutting down -/

def shutdownInLoop (c : TcpConn) : List Effect :=
  if !c.ch.isWriting then [.shutdownWrite] else []

/-- `shutdown` on the loop's own thread. -/
def shutdown (c : TcpConn) : TcpConn × List Effect :=
  if c.state = .connected then
    let c := {c with state := .disconnenting}
    (c, c.shutdownInLoop)
  else (c, [])

/-! ### The callbacks of the channel -/

/-- `handle_write` up to its test of `state_`, and whether it comes to that test: the
buffer has run empty. -/
def flush (c : TcpConn) (w : WriteResult) : Except Fault (TcpConn × List Effect × Bool) :=
  if c.ch.isWriting then do
    let (data, answer) ← c.outputBuf.writeFd w
    let written := Effect.write false data w
    match answer with
    | .ok n =>
      if 0 < n then
        let c := {c with outputBuf := c.outputBuf.retrieve n}
        if c.outputBuf.readableBytes = 0 then
          return ({c with ch := c.ch.disableWriting},
            written :: if c.callbacks.writeComplete then [.queueWriteComplete] else [], true)
        else return (c, [written], false)
      else return (c, [written], false)
    | .error _ => return (c, [written], false)
  else .ok (c, [], false)

/-- The end of `handle_write`, if it comes to it. -/
def finishWrite (c : TcpConn) (drained : Bool) : List Effect :=
  if drained ∧ c.state = .disconnenting then c.shutdownInLoop else []

def handleWrite (c : TcpConn) (w : WriteResult) : Except Fault (TcpConn × List Effect) := do
  let (c, effects, drained) ← c.flush w
  return (c, effects ++ c.finishWrite drained)

def handleClose (c : TcpConn) : TcpConn × List Effect :=
  ({c with state := .disconnected, ch := c.ch.disableAll},
    (if c.callbacks.conn then [.connCallback] else []) ++
    if c.callbacks.close then [.closeCallback] else [])

/-- `handle_read`. `handle_error` only reads the socket's error and logs it. -/
def handleRead (c : TcpConn) (r : ReadResult) : Except Fault (TcpConn × List Effect) := do
  let (inputBuf, answer) ← c.inputBuf.readFd r
  let c := {c with inputBuf := inputBuf}
  match answer with
  | .ok n =>
    if 0 < n then return (c, if c.callbacks.msg then [.msgCallback] else [])
    else return c.handleClose
  | .error _ => return (c, [])

/-! ### Beginning and end -/

def establishConn (c : TcpConn) : TcpConn × List Effect :=
  ({c with state := .connected, ch := c.ch.enableReading},
    if c.callbacks.conn then [.connCallback] else [])

def destroyConn (c : TcpConn) : TcpConn × List Effect :=
  if c.state = .connected then
    ({c with state := .disconnected, ch := c.ch.disableAll},
      (if c.callbacks.conn then [.connCallback] else []) ++ [.removeChan])
  else (c, [.removeChan])

/-! ### How they return -/

section Returns
variable {c c' : TcpConn} {data : Bytes} {w : WriteResult} {es : List Effect} {drained : Bool}

/-- `send_in_loop` keeps what remains, unless the connection is down, the write has failed for good or
nothing remains. -/
theorem sendInLoop_cases (h : c.sendInLoop data w = .ok (c', es)) :
    (c.state = .disconnected ∧ c' = c ∧ es = []) ∨
    (c.state ≠ .disconnected ∧ ((c.writeNow data w).fault = true ∨ data.length ≤ (c.writeNow data w).nwrote) ∧
      c' = c ∧ es = (c.writeNow data w).effects) ∨
    (∃ later, c.state ≠ .disconnected ∧ (c.writeNow data w).fault = false ∧
      (c.writeNow data w).nwrote < data.length ∧
      c.keepRemaining (data.drop (c.writeNow data w).nwrote) = .ok (c', later) ∧
      es = (c.writeNow data w).effects ++ later) := by
  unfold sendInLoop writeLater at h
  split at h
  · rename_i hs
    cases h
    exact .inl ⟨hs, rfl, rfl⟩
  rename_i hs
  split at h
  · rename_i hmore
    obtain ⟨⟨c₁, later⟩, hk, h⟩ := bind_ok.mp h
    cases h
    simp only [Bool.and_eq_true, Bool.not_eq_true', decide_eq_true_eq] at hmore
    exact .inr (.inr ⟨later, hs, hmore.1, by omega, hk, rfl⟩)
  · rename_i hdone
    cases h
    refine .inr (.inl ⟨hs, ?_, rfl, rfl⟩)
    cases hf : (c.writeNow data w).fault with
    | true => exact .inl rfl
    | false =>
      simp only [hf, Bool.not_false, Bool.true_and, decide_eq_true_eq] at hdone
      exact .inr (by omega)

/-- `flush` has nothing to write, or writes and takes nothing, a part or everything out of the buffer. -/
theorem flush_cases (h : c.flush w = .ok (c', es, drained)) :
    (c.ch.isWriting = false ∧ c' = c ∧ es = [] ∧ drained = false) ∨
    (∃ data answer, c.ch.isWriting = true ∧ c.outputBuf.writeFd w = .ok (data, answer) ∧
      (∀ n, answer = .ok n → n = 0) ∧ c' = c ∧ es = [.write false data w] ∧ drained = false) ∨
    (∃ data n, c.ch.isWriting = true ∧ c.outputBuf.writeFd w = .ok (data, .ok n) ∧ 0 < n ∧
      (c.outputBuf.retrieve n).readableBytes ≠ 0 ∧ c' = {c with outputBuf := c.outputBuf.retrieve n} ∧
      es = [.write false data w] ∧ drained = false) ∨
    (∃ data n, c.ch.isWriting = true ∧ c.outputBuf.writeFd w = .ok (data, .ok n) ∧ 0 < n ∧
      (c.outputBuf.retrieve n).readableBytes = 0 ∧
      c' = {c with outputBuf := c.outputBuf.retrieve n, ch := c.ch.disableWriting} ∧
      es = .write false data w :: (if c.callbacks.writeComplete then [.queueWriteComplete] else []) ∧
      drained = true) := by
  unfold flush at h
  by_cases hw : c.ch.isWriting = true
  · rw [if_pos hw] at h
    obtain ⟨⟨data, answer⟩, hfd, h⟩ := bind_ok.mp h
    cases answer with
    | error e =>
      cases h
      exact .inr (.inl ⟨data, .error e, hw, hfd, nofun, rfl, rfl, rfl⟩)
    | ok n =>
      dsimp only at h
      by_cases hn : 0 < n
      · rw [if_pos hn] at h
        by_cases hdone : (c.outputBuf.retrieve n).readableBytes = 0
        · rw [if_pos hdone] at h
          cases h
          exact .inr (.inr (.inr ⟨data, n, hw, hfd, hn, hdone, rfl, rfl, rfl⟩))
        · rw [if_neg hdone] at h
          cases h
          exact .inr (.inr (.inl ⟨data, n, hw, hfd, hn, hdone, rfl, rfl, rfl⟩))
      · rw [if_neg hn] at h
        cases h
        refine .inr (.inl ⟨data, .ok n, hw, hfd, ?_, rfl, rfl, rfl⟩)
        intro k hk
        cases hk
        exact Nat.eq_zero_of_not_pos hn
  · rw [if_neg hw] at h
    cases h
    exact .inl ⟨Bool.eq_false_iff.mpr hw, rfl, rfl, rfl⟩

end Returns

end TcpConn

end Caimr.Net
