import Caimr.Net.TcpConn

/-! The bytes a connection writes: what the kernel has accepted in a list of effects, and
what the functions that send and write do to it and to the output buffer. -/
namespace Caimr.Net

/-! ### Reading effects -/

namespace Effect

/-- A call on the socket. -/
def onSocket : Effect → Bool
  | .write .. | .shutdownWrite => true
  | _ => false

def isWrite : Effect → Bool
  | .write .. => true
  | _ => false

/-- A direct `::write` that failed with `EPIPE` or `ECONNRESET`: `send_in_loop` drops the data. -/
def directFault : Effect → Bool
  | .write true _ (.fails e) => TcpConn.isFault e
  | _ => false

/-- What the kernel takes over in an effect. -/
def taken : Effect → Bytes
  | .write _ data w => w.taken data
  | _ => []

end Effect

/-- The bytes the kernel has accepted. -/
def accepted (log : List Effect) : Bytes := log.flatMap Effect.taken

@[simp] theorem accepted_nil : accepted [] = [] := rfl

@[simp] theorem accepted_cons (e : Effect) (log : List Effect) :
    accepted (e :: log) = e.taken ++ accepted log := List.flatMap_cons

@[simp] theorem accepted_append (a b : List Effect) : accepted (a ++ b) = accepted a ++ accepted b :=
  List.flatMap_append

/-- Effects off the socket hand nothing to the kernel. -/
theorem accepted_quiet {log : List Effect} (h : ∀ e ∈ log, e.onSocket = false) : accepted log = [] := by
  apply List.flatMap_eq_nil_iff.mpr
  intro e he
  have := h e he
  cases e <;> first | rfl | cases this

/-- No direct write of these has failed for good. -/
def NoFault (log : List Effect) : Prop := ∀ e ∈ log, e.directFault = false

instance (log : List Effect) : Decidable (NoFault log) :=
  inferInstanceAs (Decidable (∀ e ∈ log, e.directFault = false))

theorem NoFault.of_append {a b : List Effect} (h : NoFault (a ++ b)) : NoFault a ∧ NoFault b :=
  ⟨fun e he => h e (List.mem_append_left b he), fun e he => h e (List.mem_append_right a he)⟩

namespace TcpConn

/-! ### What the functions do to the stream -/

/-- Write interest is registered exactly while something is buffered. -/
def Armed (c : TcpConn) : Prop := c.ch.isWriting = true ↔ c.outputBuf.readable ≠ []

theorem readable_ne_nil {b : Buffer} (h : b.Wf) : b.readable ≠ [] ↔ b.readableBytes ≠ 0 := by
  rw [← Buffer.length_readable h, ne_eq, ne_eq, List.length_eq_zero_iff]

theorem keepRemaining_ok {c c' : TcpConn} {remaining : Bytes} {es : List Effect}
    (hwf : c.outputBuf.Wf) (h : c.keepRemaining remaining = .ok (c', es)) :
    c' = {c with outputBuf := c'.outputBuf, ch := c'.ch} ∧ c'.outputBuf.Wf ∧
      c'.outputBuf.readable = c.outputBuf.readable ++ remaining ∧ c'.ch.isWriting = true ∧
      ∀ e ∈ es, e.onSocket = false := by
  obtain ⟨b, hb, h⟩ := bind_ok.mp h
  obtain ⟨hwf', hread⟩ := Buffer.append_ok hwf hb
  cases h
  refine ⟨rfl, hwf', hread, ?_, ?_⟩
  · show (if c.ch.isWriting = true then c.ch else c.ch.enableWriting).isWriting = true
    split
    · assumption
    · exact Chan.enableWriting_isWriting _
  · intro e he
    split at he
    · cases List.mem_singleton.mp he
      rfl
    · cases he

/-- What the first half of `send_in_loop` leaves to the second. -/
structure Wrote.Fits (d : Wrote) (c : TcpConn) (data : Bytes) : Prop where
  le : d.nwrote ≤ data.length
  taken : accepted d.effects = data.take d.nwrote
  front : d.nwrote = 0 ∨ c.outputBuf.readable = []
  silent : Effect.shutdownWrite ∉ d.effects
  fault : NoFault d.effects → d.fault = false

/-- The direct write hands over a prefix, which is empty if it fails. -/
theorem directWrite_fits {c : TcpConn} (h : c.outputBuf.readable = []) (data : Bytes) (w : WriteResult) :
    (c.directWrite data w).Fits c data := by
  unfold directWrite
  split
  · rename_i n hn
    have hle := WriteResult.returned_le hn
    have htaken := WriteResult.taken_of_ok hn
    exact ⟨hle, by split <;> simp [Effect.taken, htaken], .inr h, by split <;> simp, fun _ => rfl⟩
  · rename_i e he
    have htaken : w.taken data = [] := WriteResult.taken_of_error he
    refine ⟨Nat.zero_le _, by simp [Effect.taken, htaken], .inl rfl, by simp, ?_⟩
    intro hf
    have := hf _ (List.mem_singleton_self _)
    cases w with
    | accepts k => simp [WriteResult.returned] at he
    | fails e' =>
      cases he
      exact this

theorem writeNow_fits {c : TcpConn} (hwf : c.outputBuf.Wf) (data : Bytes) (w : WriteResult) :
    (c.writeNow data w).Fits c data := by
  unfold writeNow
  split
  · rename_i h
    simp only [Bool.and_eq_true, Bool.not_eq_true', beq_iff_eq] at h
    apply directWrite_fits
    rw [← List.length_eq_zero_iff, Buffer.length_readable hwf, h.2]
  · exact ⟨Nat.zero_le _, rfl, .inl rfl, by simp, fun _ => rfl⟩

/-- What a `send_in_loop` that returns has done: short of a fault, all the data has gone
to the kernel or to the end of the buffer, in this order, and the channel is still
armed exactly while something is buffered. -/
theorem sendInLoop_ok {c c' : TcpConn} {data : Bytes} {w : WriteResult} {es : List Effect}
    (hwf : c.outputBuf.Wf) (hs : c.state ≠ .disconnected) (h : c.sendInLoop data w = .ok (c', es))
    (hf : NoFault es) :
    c' = {c with outputBuf := c'.outputBuf, ch := c'.ch} ∧ c'.outputBuf.Wf ∧
      accepted es ++ c'.outputBuf.readable = c.outputBuf.readable ++ data ∧
      Effect.shutdownWrite ∉ es ∧ (c.Armed → c'.Armed) := by
  have hfits := writeNow_fits hwf data w
  obtain ⟨hdown, -, -⟩ | ⟨-, hdone, rfl, rfl⟩ | ⟨later, -, -, hmore, hk, rfl⟩ := sendInLoop_cases h
  · exact absurd hdown hs
  · have hall : data.length ≤ (c'.writeNow data w).nwrote := by
      rcases hdone with hfault | hall
      · rw [hfits.fault hf] at hfault
        cases hfault
      · exact hall
    refine ⟨rfl, hwf, ?_, hfits.silent, fun ha => ha⟩
    rw [hfits.taken, List.take_of_length_le hall]
    rcases hfits.front with h0 | h0
    · have hnil : data = [] := by
        rw [← List.length_eq_zero_iff]
        omega
      simp [hnil]
    · simp [h0]
  · obtain ⟨hframe, hwf', hread, hw, hquiet⟩ := keepRemaining_ok hwf hk
    refine ⟨hframe, hwf', ?_, ?_, fun _ => ⟨fun _ => ?_, fun _ => hw⟩⟩
    · rw [accepted_append, accepted_quiet hquiet, hfits.taken, hread]
      rcases hfits.front with h0 | h0
      · simp [h0]
      · simp [h0]
    · rw [List.mem_append, not_or]
      exact ⟨hfits.silent, fun he => by cases hquiet _ he⟩
    · rw [hread]
      intro hnil
      have hlen := congrArg List.length (List.append_eq_nil_iff.mp hnil).2
      rw [List.length_drop, List.length_nil] at hlen
      omega

theorem shutdownInLoop_eq (c : TcpConn) :
    c.shutdownInLoop = if c.ch.isWriting = true then [] else [.shutdownWrite] := by
  unfold shutdownInLoop
  cases c.ch.isWriting <;> rfl

theorem accepted_shutdownInLoop (c : TcpConn) : accepted c.shutdownInLoop = [] := by
  rw [shutdownInLoop_eq]
  split <;> rfl

/-- Without write interest `handle_write` does nothing. -/
theorem flush_idle {c : TcpConn} (w : WriteResult) (h : c.ch.isWriting = false) :
    c.flush w = .ok (c, [], false) := by
  simp [flush, h]

/-- The ways `flush` can return when it has something to write: the kernel took nothing,
or bytes from the front of the buffer, or all of it. -/
theorem flush_taken {c c' : TcpConn} {w : WriteResult} {es : List Effect} {drained : Bool}
    (hwf : c.outputBuf.Wf) (hw : c.ch.isWriting = true) (h : c.flush w = .ok (c', es, drained)) :
    (c' = c ∧ es = [.write false c.outputBuf.readable w] ∧ drained = false ∧
      w.taken c.outputBuf.readable = []) ∨
    (∃ n, 0 < n ∧ w.taken c.outputBuf.readable = c.outputBuf.readable.take n ∧
      (c.outputBuf.retrieve n).readableBytes ≠ 0 ∧ c' = {c with outputBuf := c.outputBuf.retrieve n} ∧
      es = [.write false c.outputBuf.readable w] ∧ drained = false) ∨
    (∃ n, 0 < n ∧ n ≤ c.outputBuf.readable.length ∧ w.taken c.outputBuf.readable = c.outputBuf.readable.take n ∧
      (c.outputBuf.retrieve n).readableBytes = 0 ∧
      c' = {c with outputBuf := c.outputBuf.retrieve n, ch := c.ch.disableWriting} ∧
      es = .write false c.outputBuf.readable w ::
        (if c.callbacks.writeComplete then [.queueWriteComplete] else []) ∧ drained = true) := by
  obtain ⟨hidle, -⟩ | ⟨data, answer, -, hfd, hzero, rfl, rfl, rfl⟩ | ⟨data, n, -, hfd, hn, hdone, rfl, rfl, rfl⟩ |
    ⟨data, n, -, hfd, hn, hdone, rfl, rfl, rfl⟩ := flush_cases h
  · rw [hw] at hidle
    cases hidle
  · obtain ⟨rfl, hr⟩ := Buffer.writeFd_ok hwf hfd
    refine .inl ⟨rfl, rfl, rfl, ?_⟩
    cases answer with
    | error e => exact WriteResult.taken_of_error hr.symm
    | ok n => rw [WriteResult.taken_of_ok hr.symm, hzero n rfl, List.take_zero]
  · obtain ⟨rfl, hr⟩ := Buffer.writeFd_ok hwf hfd
    exact .inr (.inl ⟨n, hn, WriteResult.taken_of_ok hr.symm, hdone, rfl, rfl, rfl⟩)
  · obtain ⟨rfl, hr⟩ := Buffer.writeFd_ok hwf hfd
    exact .inr (.inr ⟨n, hn, WriteResult.returned_le hr.symm, WriteResult.taken_of_ok hr.symm, hdone, rfl, rfl, rfl⟩)

/-- The effects of a write from the buffer: the write, and what is queued. -/
theorem buffered_effects (data : Bytes) (w : WriteResult) {quiet : List Effect}
    (h : ∀ e ∈ quiet, e.onSocket = false) :
    accepted (.write false data w :: quiet) = w.taken data ∧ NoFault (.write false data w :: quiet) ∧
      Effect.shutdownWrite ∉ Effect.write false data w :: quiet := by
  refine ⟨?_, ?_, ?_⟩
  · rw [accepted_cons, accepted_quiet h, List.append_nil]
    rfl
  · intro e he
    rcases List.mem_cons.mp he with rfl | he
    · rfl
    · have := h e he
      cases e <;> first | rfl | cases this
  · intro he
    rcases List.mem_cons.mp he with he | he
    · cases he
    · cases h _ he

/-- What a `flush` that returns has done: bytes have moved from the front of the buffer
to the kernel, and the channel is disarmed exactly if none are left. -/
theorem flush_ok {c c' : TcpConn} {w : WriteResult} {es : List Effect} {drained : Bool}
    (hwf : c.outputBuf.Wf) (h : c.flush w = .ok (c', es, drained)) :
    c' = {c with outputBuf := c'.outputBuf, ch := c'.ch} ∧ c'.outputBuf.Wf ∧
      accepted es ++ c'.outputBuf.readable = c.outputBuf.readable ∧ NoFault es ∧
      Effect.shutdownWrite ∉ es ∧ (c.Armed → c'.Armed) ∧
      (if drained then c'.ch.isWriting = false ∧ c'.outputBuf.readable = []
        else c'.ch.isWriting = c.ch.isWriting) := by
  by_cases hw : ¬ c.ch.isWriting = true
  · rw [flush_idle w (by simpa using hw)] at h
    cases h
    exact ⟨rfl, hwf, rfl, fun e he => (List.not_mem_nil he).elim, List.not_mem_nil, fun ha => ha, rfl⟩
  rw [Decidable.not_not] at hw
  have hnone : ∀ e ∈ ([] : List Effect), e.onSocket = false := nofun
  obtain ⟨rfl, rfl, rfl, htaken⟩ | ⟨n, -, htaken, hmore, rfl, rfl, rfl⟩ | ⟨n, -, -, htaken, hdone, rfl, rfl, rfl⟩ :=
    flush_taken hwf hw h
  · obtain ⟨hacc, hf, hno⟩ := buffered_effects c'.outputBuf.readable w hnone
    exact ⟨rfl, hwf, by rw [hacc, htaken]; rfl, hf, hno, fun ha => ha, rfl⟩
  · have hwf' := Buffer.retrieve_wf hwf n
    obtain ⟨hacc, hf, hno⟩ := buffered_effects c.outputBuf.readable w hnone
    refine ⟨rfl, hwf', ?_, hf, hno, fun _ => ⟨fun _ => (readable_ne_nil hwf').mpr hmore, fun _ => hw⟩, rfl⟩
    rw [hacc, htaken, Buffer.retrieve_readable hwf, List.take_append_drop]
  · have hwf' := Buffer.retrieve_wf hwf n
    have hnil : (c.outputBuf.retrieve n).readable = [] := by
      rw [← List.length_eq_zero_iff, Buffer.length_readable hwf', hdone]
    have hquiet : ∀ e ∈ (if c.callbacks.writeComplete then [Effect.queueWriteComplete] else []),
        e.onSocket = false := by
      intro e he
      split at he
      · cases List.mem_singleton.mp he
        rfl
      · cases he
    obtain ⟨hacc, hf, hno⟩ := buffered_effects c.outputBuf.readable w hquiet
    refine ⟨rfl, hwf', ?_, hf, hno, fun _ => ?_, Chan.disableWriting_isWriting _, hnil⟩
    · rw [hacc, htaken, Buffer.retrieve_readable hwf, List.take_append_drop]
    · simp [Armed, hnil]

theorem handleWrite_ok {c c' : TcpConn} {w : WriteResult} {es : List Effect}
    (h : c.handleWrite w = .ok (c', es)) :
    ∃ front drained, c.flush w = .ok (c', front, drained) ∧ es = front ++ c'.finishWrite drained := by
  obtain ⟨⟨c₁, front, drained⟩, hflush, h⟩ := bind_ok.mp h
  cases h
  exact ⟨front, drained, hflush, rfl⟩

/-- `handle_write` ends in a half-close if it has emptied the buffer of a connection that is closing. -/
theorem finishWrite_eq {c : TcpConn} {drained : Bool} (h : drained = true → c.ch.isWriting = false) :
    c.finishWrite drained = if drained ∧ c.state = .disconnenting then [.shutdownWrite] else [] := by
  unfold finishWrite
  split
  · rename_i hd
    rw [shutdownInLoop_eq, h hd.1]
    rfl
  · rfl

/-! ### What the functions leave alone -/

/-- No function that sends or writes closes the write side. -/
theorem sendInLoop_silent {c c' : TcpConn} {data : Bytes} {w : WriteResult} {es : List Effect}
    (h : c.sendInLoop data w = .ok (c', es)) : Effect.shutdownWrite ∉ es := by
  have hnow : Effect.shutdownWrite ∉ (c.writeNow data w).effects := by
    unfold writeNow
    split
    · unfold directWrite
      split
      · split <;> simp
      · simp
    · exact List.not_mem_nil
  obtain ⟨-, -, rfl⟩ | ⟨-, -, -, rfl⟩ | ⟨later, -, -, -, hk, rfl⟩ := sendInLoop_cases h
  · exact List.not_mem_nil
  · exact hnow
  · obtain ⟨b, -, hk⟩ := bind_ok.mp hk
    cases hk
    rw [List.mem_append, not_or]
    refine ⟨hnow, ?_⟩
    split <;> simp

theorem flush_silent {c c' : TcpConn} {w : WriteResult} {es : List Effect} {drained : Bool}
    (h : c.flush w = .ok (c', es, drained)) : Effect.shutdownWrite ∉ es := by
  obtain ⟨-, -, rfl, -⟩ | ⟨_, _, -, -, -, -, rfl, -⟩ | ⟨_, _, -, -, -, -, -, rfl, -⟩ |
    ⟨_, _, -, -, -, -, -, rfl, -⟩ := flush_cases h
  · exact List.not_mem_nil
  · simp
  · simp
  · split <;> simp

/-- Sending changes the output buffer and the channel, and nothing else. -/
theorem sendInLoop_frame {c c' : TcpConn} {data : Bytes} {w : WriteResult} {es : List Effect}
    (h : c.sendInLoop data w = .ok (c', es)) : c' = {c with outputBuf := c'.outputBuf, ch := c'.ch} := by
  obtain ⟨-, rfl, -⟩ | ⟨-, -, rfl, -⟩ | ⟨later, -, -, -, hk, -⟩ := sendInLoop_cases h
  · rfl
  · rfl
  · obtain ⟨b, -, hk⟩ := bind_ok.mp hk
    cases hk
    rfl

/-- So does writing what is buffered. -/
theorem flush_frame {c c' : TcpConn} {w : WriteResult} {es : List Effect} {drained : Bool}
    (h : c.flush w = .ok (c', es, drained)) : c' = {c with outputBuf := c'.outputBuf, ch := c'.ch} := by
  obtain ⟨-, rfl, -⟩ | ⟨_, _, -, -, -, rfl, -⟩ | ⟨_, _, -, -, -, -, rfl, -⟩ | ⟨_, _, -, -, -, -, rfl, -⟩ :=
    flush_cases h <;> rfl

theorem sendInLoop_state {c c' : TcpConn} {data : Bytes} {w : WriteResult} {es : List Effect}
    (h : c.sendInLoop data w = .ok (c', es)) : c'.state = c.state := by
  rw [sendInLoop_frame h]

theorem flush_state {c c' : TcpConn} {w : WriteResult} {es : List Effect} {drained : Bool}
    (h : c.flush w = .ok (c', es, drained)) : c'.state = c.state := by
  rw [flush_frame h]

theorem establishConn_quiet (c : TcpConn) : ∀ e ∈ c.establishConn.2, e.onSocket = false := by
  intro e he
  simp only [establishConn] at he
  split at he
  · cases List.mem_singleton.mp he
    rfl
  · cases he

theorem handleClose_quiet (c : TcpConn) : ∀ e ∈ c.handleClose.2, e.onSocket = false := by
  intro e he
  rcases List.mem_append.mp he with he | he <;> split at he
  · cases List.mem_singleton.mp he
    rfl
  · cases he
  · cases List.mem_singleton.mp he
    rfl
  · cases he

/-- A `handle_read` that returns has at most closed the connection; it writes nothing. -/
theorem handleRead_ok {c c' : TcpConn} {r : ReadResult} {es : List Effect} (h : c.handleRead r = .ok (c', es)) :
    c'.outputBuf = c.outputBuf ∧ (∀ e ∈ es, e.onSocket = false) ∧
      (c'.state = c.state ∧ c'.ch = c.ch ∨ c'.state = .disconnected ∧ c'.ch.isWriting = false) := by
  obtain ⟨⟨b, answer⟩, -, h⟩ := bind_ok.mp h
  dsimp only at h
  split at h
  · split at h
    · cases h
      refine ⟨rfl, fun e he => ?_, .inl ⟨rfl, rfl⟩⟩
      split at he
      · cases List.mem_singleton.mp he
        rfl
      · cases he
    · cases h
      exact ⟨rfl, handleClose_quiet _, .inr ⟨rfl, Chan.disableAll_isWriting _⟩⟩
  · cases h
    exact ⟨rfl, nofun, .inl ⟨rfl, rfl⟩⟩

end TcpConn

end Caimr.Net
