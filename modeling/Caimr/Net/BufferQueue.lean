import Caimr.Net.Buffer

/-! A buffer is a queue of bytes. What a caller may do with a buffer is done here to a
plain list as well: data is added at the end and taken from the front. Whatever the
caller does, the buffer returns what the list returns and holds what the list holds;
indices, free space and the moves inside the vector cannot be seen.

A prefix of a sequence of calls is such a sequence too, so that what is said of the
state after one holds in every state on the way. -/
namespace Caimr.Net.BufferQueue

/-- The calls of a user of a buffer. -/
inductive Op where
  | append (data : Bytes)
  | retrieve (len : Nat)
  | retrieveAll
  | retrieveAsString (len : Nat)
  | retrieveAllAsString
  | ensureWritableBytes (len : Nat)
deriving DecidableEq, Repr

/-- What a call lets its caller know: nothing, the string it returns, or whether the room
it was asked for is there now. -/
inductive Reply where
  | done
  | string (s : Bytes)
  | room (enough : Bool)
deriving DecidableEq, Repr

/-- A call on a buffer. -/
def onBuffer (b : Buffer) : Op → Except Fault (Buffer × Reply)
  | .append data => do
    let b ← b.append data
    return (b, .done)
  | .retrieve len => .ok (b.retrieve len, .done)
  | .retrieveAll => .ok (b.retrieveAll, .done)
  | .retrieveAsString len => do
    let (s, b) ← b.retrieveAsString len
    return (b, .string s)
  | .retrieveAllAsString => do
    let (s, b) ← b.retrieveAllAsString
    return (b, .string s)
  | .ensureWritableBytes len => do
    let b ← b.ensureWritableBytes len
    return (b, .room (decide (len ≤ b.writableBytes)))

/-- The same call on a queue of bytes. -/
def onQueue (q : Bytes) : Op → Bytes × Reply
  | .append data => (q ++ data, .done)
  | .retrieve len => (q.drop len, .done)
  | .retrieveAll => ([], .done)
  | .retrieveAsString len => (q.drop len, .string (q.take len))
  | .retrieveAllAsString => ([], .string q)
  | .ensureWritableBytes _ => (q, .room true)

/-- A sequence of calls on a buffer, with their replies. -/
def runBuffer : Buffer → List Op → Except Fault (Buffer × List Reply)
  | b, [] => .ok (b, [])
  | b, op :: rest => do
    let (b, reply) ← onBuffer b op
    let (b, replies) ← runBuffer b rest
    return (b, reply :: replies)

def runQueue : Bytes → List Op → Bytes × List Reply
  | q, [] => (q, [])
  | q, op :: rest =>
    let (q, reply) := onQueue q op
    let (q, replies) := runQueue q rest
    (q, reply :: replies)

/-- The room a call asks for. -/
def Op.size : Op → Nat
  | .append data => data.length
  | .ensureWritableBytes len => len
  | _ => 0

/-- `retrieve_as_string(len)` is only called with `len <= readable_bytes()`. -/
def Op.allowed (b : Buffer) : Op → Bool
  | .retrieveAsString len => len ≤ b.readableBytes
  | _ => true

/-- Every call of the sequence is allowed in the state it is made in. -/
def respects : Buffer → List Op → Bool
  | _, [] => true
  | b, op :: rest => op.allowed b &&
    match onBuffer b op with
    | .ok (b', _) => respects b' rest
    | .error _ => true

/-! ### One call -/

/-- One call on a buffer is the call on the queue of its readable bytes. The writer moves
by no more than the room asked for. -/
theorem onBuffer_spec {b : Buffer} (h : b.Wf) {op : Op} (ha : op.allowed b = true)
    (hsize : b.writerIndex + op.size ≤ maxSize) :
    ∃ b', onBuffer b op = .ok (b', (onQueue b.readable op).2) ∧ b'.Wf ∧
      b'.readable = (onQueue b.readable op).1 ∧ b'.writerIndex ≤ b.writerIndex + op.size := by
  cases op with
  | append data =>
    obtain ⟨b', hb, hwf, hread, hw, -⟩ := Buffer.append_spec h hsize
    refine ⟨b', ?_, hwf, hread, hw⟩
    rw [onBuffer, hb]
    rfl
  | retrieve len =>
    exact ⟨b.retrieve len, rfl, Buffer.retrieve_wf h len, Buffer.retrieve_readable h len,
      Nat.le_trans (Buffer.retrieve_writer h len) (Nat.le_add_right ..)⟩
  | retrieveAll =>
    have h₁ := h.prepend
    have h₂ := h.ordered
    exact ⟨b.retrieveAll, rfl, Buffer.retrieveAll_wf h, Buffer.retrieveAll_readable b,
      Nat.le_trans h₁ (Nat.le_trans h₂ (Nat.le_add_right ..))⟩
  | retrieveAsString len =>
    refine ⟨b.retrieve len, ?_, Buffer.retrieve_wf h len, Buffer.retrieve_readable h len,
      Nat.le_trans (Buffer.retrieve_writer h len) (Nat.le_add_right ..)⟩
    rw [onBuffer, Buffer.retrieveAsString_spec h (of_decide_eq_true ha)]
    rfl
  | retrieveAllAsString =>
    have hall : b.readable.take b.readableBytes = b.readable := by
      rw [← Buffer.length_readable h, List.take_length]
    have hnone : (b.retrieve b.readableBytes).readable = [] := by
      rw [Buffer.retrieve_readable h, ← Buffer.length_readable h, List.drop_length]
    refine ⟨b.retrieve b.readableBytes, ?_, Buffer.retrieve_wf h _, hnone,
      Nat.le_trans (Buffer.retrieve_writer h _) (Nat.le_add_right ..)⟩
    rw [onBuffer, Buffer.retrieveAllAsString, Buffer.retrieveAsString_spec h (Nat.le_refl _), hall]
    rfl
  | ensureWritableBytes len =>
    have hlen : b.writerIndex + len ≤ maxSize := hsize
    obtain ⟨b', hb, hwf, hread, hroom, hw, -⟩ := Buffer.ensureWritableBytes_spec h hlen
    refine ⟨b', ?_, hwf, hread, Nat.le_trans hw (Nat.le_add_right ..)⟩
    rw [onBuffer, hb]
    show Except.ok (b', Reply.room (decide (len ≤ b'.writableBytes))) = _
    rw [decide_eq_true hroom]
    rfl

/-! ### Any sequence of calls -/

/-- The room a sequence of calls asks for. -/
def total (ops : List Op) : Nat := (ops.map Op.size).sum

theorem runBuffer_spec {b : Buffer} (h : b.Wf) {ops : List Op} (hr : respects b ops = true)
    (hsize : b.writerIndex + total ops ≤ maxSize) :
    ∃ b', runBuffer b ops = .ok (b', (runQueue b.readable ops).2) ∧ b'.Wf ∧
      b'.readable = (runQueue b.readable ops).1 := by
  induction ops generalizing b with
  | nil => exact ⟨b, rfl, h, rfl⟩
  | cons op rest ih =>
    have htotal : total (op :: rest) = op.size + total rest := rfl
    rw [respects, Bool.and_eq_true] at hr
    obtain ⟨b', hb, hwf, hread, hw⟩ := onBuffer_spec h hr.1 (by omega)
    rw [hb] at hr
    obtain ⟨b'', hb', hwf', hread'⟩ := ih hwf hr.2 (by omega)
    refine ⟨b'', ?_, hwf', ?_⟩
    · rw [runBuffer, hb]
      show (runBuffer b' rest >>= _) = _
      rw [hb', hread]
      rfl
    · rw [hread', hread]
      rfl

/-- **A buffer refines a queue of bytes**: a new buffer, of any initial size, answers any
sequence of calls as an empty queue does, ends up holding the same bytes, and keeps its
indices in order; in particular no call throws or leaves the vector. -/
theorem buffer_refines_queue (initial : Nat) (ops : List Op)
    (hsize : cheapPrepend + initial + total ops < 2 ^ 63)
    (hr : ∀ b, Buffer.create initial = .ok b → respects b ops = true) :
    ∃ b₀ b, Buffer.create initial = .ok b₀ ∧ runBuffer b₀ ops = .ok (b, (runQueue [] ops).2) ∧
      b.Wf ∧ b.readable = (runQueue [] ops).1 := by
  have hmax : cheapPrepend + initial + total ops ≤ maxSize := by
    simp only [maxSize]
    omega
  obtain ⟨b₀, hb₀, hwf, hread, -, hw⟩ := Buffer.create_spec initial (by omega)
  obtain ⟨b, hb, hwf', hread'⟩ := runBuffer_spec hwf (hr b₀ hb₀) (by omega)
  rw [hread] at hb hread'
  exact ⟨b₀, b, hb₀, hb, hwf', hread'⟩

/-- A history that compacts the vector (the second `append`) and grows it (the third). -/
theorem buffer_refines_queue_moves :
    ∃ b₀ b, Buffer.create 10 = .ok b₀ ∧
      runBuffer b₀ [.append [1, 2, 3, 4, 5, 6, 7, 8], .retrieveAsString 7, .append [9, 10, 11, 12, 13],
        .retrieve 2, .append [14, 15, 16, 17, 18, 19, 20], .retrieveAllAsString] =
          .ok (b, [.done, .string [1, 2, 3, 4, 5, 6, 7], .done, .done, .done,
            .string [10, 11, 12, 13, 14, 15, 16, 17, 18, 19, 20]]) ∧
      b.Wf ∧ b.readable = [] :=
  buffer_refines_queue 10
    [.append [1, 2, 3, 4, 5, 6, 7, 8], .retrieveAsString 7, .append [9, 10, 11, 12, 13],
      .retrieve 2, .append [14, 15, 16, 17, 18, 19, 20], .retrieveAllAsString]
    (by decide) (by intro b hb; cases hb; decide)

end Caimr.Net.BufferQueue
