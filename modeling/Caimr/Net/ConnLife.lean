import Caimr.Net.TcpConn

/-! What the functions of a connection do to its life. Only `establish_conn` opens it and
only `handle_close` and `destroy_conn` close it. Everything else leaves it as open as it
was, and its channel in the poller. -/
namespace Caimr.Net

/-- The effects that are not steps of a connection's life. -/
def Effect.isQuiet : Effect → Bool
  | .connCallback | .closeCallback | .removeChan => false
  | _ => true

/-- The end of the stream: `::readv` returns 0. -/
def ReadResult.IsEof (r : ReadResult) : Prop := r = .received []

instance (r : ReadResult) : Decidable r.IsEof := inferInstanceAs (Decidable (_ = _))

theorem Buffer.readFd_eof {b b' : Buffer} {r : ReadResult} (h : b.readFd r = .ok (b', .ok 0)) : r.IsEof := by
  cases r with
  | fails e => simp [readFd] at h
  | received bytes =>
    obtain ⟨buf, -, h⟩ := bind_ok.mp h
    -- `::readv` is never offered less than `extrabuf`.
    have hpos : 0 < if b.writableBytes < extraSize then b.writableBytes + extraSize else b.writableBytes := by
      unfold extraSize
      split <;> omega
    generalize (if b.writableBytes < extraSize then b.writableBytes + extraSize else b.writableBytes) =
      offered at h hpos
    have hlen : (bytes.take offered).length = 0 → bytes = [] := by
      rw [List.length_take, ← List.length_eq_zero_iff]
      omega
    split at h
    · simp only [pure, Except.pure, Except.ok.injEq, Prod.mk.injEq] at h
      exact congrArg _ (hlen h.2)
    · obtain ⟨b₁, -, h⟩ := bind_ok.mp h
      simp only [pure, Except.pure, Except.ok.injEq, Prod.mk.injEq] at h
      exact congrArg _ (hlen h.2)

theorem Buffer.readFd_nil {b b' : Buffer} {answer : Except Errno Nat}
    (h : b.readFd (.received []) = .ok (b', answer)) : answer = .ok 0 := by
  obtain ⟨buf, -, h⟩ := bind_ok.mp h
  simp only [List.take_nil, List.length_nil, Nat.zero_le, if_true, pure, Except.pure, Except.ok.injEq,
    Prod.mk.injEq] at h
  exact h.2.symm

namespace TcpConn

/-- What a function does that neither opens nor closes the connection. -/
structure Quiet (c c' : TcpConn) (es : List Effect) : Prop where
  loop : c'.loop = c.loop
  id : c'.id = c.id
  state : c'.state = c.state ∨ c.state = .connected ∧ c'.state = .disconnenting
  kept : c.ch.registered ≠ none → c'.ch.registered ≠ none
  gained : c'.ch.registered ≠ none → c.ch.registered ≠ none ∨ c.state = .connected
  effects : ∀ e ∈ es, e.isQuiet = true

/-- The function only reads. -/
theorem Quiet.refl (c : TcpConn) {es : List Effect} (h : ∀ e ∈ es, e.isQuiet = true) : Quiet c c es :=
  ⟨rfl, rfl, .inl rfl, fun hr => hr, .inl, h⟩

theorem Quiet.disconnected {c c' : TcpConn} {es : List Effect} (h : Quiet c c' es) :
    c'.state = .disconnected ↔ c.state = .disconnected := by
  rcases h.state with hs | ⟨hs, hs'⟩
  · rw [hs]
  · simp [hs, hs']

theorem Quiet.connenting {c c' : TcpConn} {es : List Effect} (h : Quiet c c' es) :
    c'.state = .connenting ↔ c.state = .connenting := by
  rcases h.state with hs | ⟨hs, hs'⟩
  · rw [hs]
  · simp [hs, hs']

/-! ### Sending and shutting down -/

theorem writeNow_isQuiet (c : TcpConn) (data : Bytes) (w : WriteResult) :
    ∀ e ∈ (c.writeNow data w).effects, e.isQuiet = true := by
  unfold writeNow directWrite
  split
  · split
    · split <;> simp [Effect.isQuiet]
    · simp [Effect.isQuiet]
  · exact nofun

theorem sendInLoop_quiet {c c' : TcpConn} {data : Bytes} {w : WriteResult} {es : List Effect}
    (hs : c.state = .connected) (h : c.sendInLoop data w = .ok (c', es)) : Quiet c c' es := by
  have hnow := writeNow_isQuiet c data w
  obtain ⟨hdown, -, -⟩ | ⟨-, -, rfl, rfl⟩ | ⟨later, -, -, -, hk, rfl⟩ := sendInLoop_cases h
  · rw [hs] at hdown
    cases hdown
  · exact .refl _ hnow
  · obtain ⟨b, -, hk⟩ := bind_ok.mp hk
    cases hk
    refine ⟨rfl, rfl, .inl rfl, fun hr => ?_, fun _ => .inr hs, fun e he => ?_⟩
    · show (if c.ch.isWriting = true then c.ch else c.ch.enableWriting).registered ≠ none
      split
      · exact hr
      · exact Chan.updateChan_registered hr
    · rcases List.mem_append.mp he with he | he
      · exact hnow e he
      · split at he
        · cases List.mem_singleton.mp he
          rfl
        · cases he

theorem send_quiet {c c' : TcpConn} {data : Bytes} {w : WriteResult} {es : List Effect}
    (h : c.send data w = .ok (c', es)) : Quiet c c' es := by
  unfold send at h
  split at h
  · rename_i hs
    exact sendInLoop_quiet hs h
  · cases h
    exact .refl c nofun

theorem shutdownInLoop_isQuiet (c : TcpConn) : ∀ e ∈ c.shutdownInLoop, e.isQuiet = true := by
  unfold shutdownInLoop
  split <;> simp [Effect.isQuiet]

theorem shutdown_quiet (c : TcpConn) : Quiet c c.shutdown.1 c.shutdown.2 := by
  unfold shutdown
  split
  · rename_i hs
    exact ⟨rfl, rfl, .inr ⟨hs, rfl⟩, fun hr => hr, .inl, shutdownInLoop_isQuiet _⟩
  · exact .refl c nofun

/-! ### The callbacks of the channel -/

/-- `handle_write` is called for channels that are in the poller. -/
theorem flush_quiet {c c' : TcpConn} {w : WriteResult} {es : List Effect} {drained : Bool}
    (hr : c.ch.registered ≠ none) (h : c.flush w = .ok (c', es, drained)) : Quiet c c' es := by
  have hwrite : ∀ data, (Effect.write false data w).isQuiet = true := fun _ => rfl
  obtain ⟨-, rfl, rfl, -⟩ | ⟨_, _, -, -, -, rfl, rfl, -⟩ | ⟨_, _, -, -, -, -, rfl, rfl, -⟩ |
    ⟨_, _, -, -, -, -, rfl, rfl, -⟩ := flush_cases h
  · exact .refl _ nofun
  · exact .refl _ (by simp [hwrite])
  · exact ⟨rfl, rfl, .inl rfl, fun hr => hr, .inl, by simp [hwrite]⟩
  · refine ⟨rfl, rfl, .inl rfl, fun _ => Chan.updateChan_registered hr, fun _ => .inl hr, ?_⟩
    split <;> simp [Effect.isQuiet]

theorem finishWrite_isQuiet (c : TcpConn) (drained : Bool) : ∀ e ∈ c.finishWrite drained, e.isQuiet = true := by
  unfold finishWrite
  split
  · exact shutdownInLoop_isQuiet c
  · exact nofun

/-- `handle_read` closes the connection at the end of the stream and only there. -/
theorem handleRead_cases {c c' : TcpConn} {r : ReadResult} {es : List Effect}
    (h : c.handleRead r = .ok (c', es)) :
    Quiet c c' es ∨ r.IsEof ∧ ∃ inputBuf, (c', es) = {c with inputBuf := inputBuf}.handleClose := by
  obtain ⟨⟨b, answer⟩, hb, h⟩ := bind_ok.mp h
  dsimp only at h
  split at h
  · rename_i n
    split at h
    · cases h
      refine .inl ⟨rfl, rfl, .inl rfl, fun hr => hr, .inl, ?_⟩
      split <;> simp [Effect.isQuiet]
    · cases h
      have hn : n = 0 := by omega
      subst hn
      exact .inr ⟨Buffer.readFd_eof hb, b, rfl⟩
  · cases h
    exact .inl ⟨rfl, rfl, .inl rfl, fun hr => hr, .inl, nofun⟩

/-- Short of the end of the stream it changes the input buffer and nothing else. -/
theorem handleRead_more {c c' : TcpConn} {r : ReadResult} {es : List Effect} (hr : ¬ r.IsEof)
    (h : c.handleRead r = .ok (c', es)) : c' = {c with inputBuf := c'.inputBuf} := by
  obtain ⟨⟨b, answer⟩, hb, h⟩ := bind_ok.mp h
  dsimp only at h
  split at h
  · rename_i n
    split at h
    · cases h
      rfl
    · have hn : n = 0 := by omega
      subst hn
      exact absurd (Buffer.readFd_eof hb) hr
  · cases h
    rfl

theorem handleRead_eof {c c' : TcpConn} {r : ReadResult} {es : List Effect} (hr : r.IsEof)
    (h : c.handleRead r = .ok (c', es)) :
    ∃ inputBuf, (c', es) = {c with inputBuf := inputBuf}.handleClose := by
  obtain ⟨⟨b, answer⟩, hb, h⟩ := bind_ok.mp h
  rw [show r = .received [] from hr] at hb
  cases Buffer.readFd_nil hb
  cases h
  exact ⟨b, rfl⟩

end TcpConn

end Caimr.Net
