import Caimr.Lib.Transition
import Caimr.Net.BufferQueue
import Caimr.Net.ScatterRead

/-! Histories of a buffer: any calls in any order, reads from a socket among them, and calls that
throw and are caught. Reserving far too much can leave the writer index outside the vector,
so that not every buffer with a history is well-formed; what is left then is `Indexed`. -/
namespace Caimr.Net
open Transition Window

namespace BufferHistory

inductive Call where
  | op (op : BufferQueue.Op)
  | readFd (r : ReadResult)
deriving DecidableEq, Repr

/-- The buffer that a `read_fd` has filled before its append throws. -/
def filledBy (b : Buffer) : ReadResult → Buffer
  | .received bytes => b.filled (bytes.take b.offered)
  | .fails _ => b

/-- The buffer that a call leaves. `resize` throws before it changes anything, but after `read_fd` has
filled the buffer; an access outside the vector leads nowhere. -/
def step (b : Buffer) : Call → Option Buffer
  | .op op =>
    match BufferQueue.onBuffer b op with
    | .ok (b', _) => some b'
    | .error .lengthError => some b
    | .error .outOfBounds => none
  | .readFd r =>
    match b.readFd r with
    | .ok (b', _) => some b'
    | .error .lengthError => some (filledBy b r)
    | .error .outOfBounds => none

/-! ### What a call can do -/

section Cases
variable {b b' : Buffer}

theorem retrieveAsString_ok {len : Nat} {s : Bytes} :
    b.retrieveAsString len = .ok (s, b') ↔ b.readerIndex + len ≤ b.buf.length ∧
      s = window b.buf b.readerIndex (b.readerIndex + len) ∧ b' = b.retrieve len := by
  constructor
  · intro h
    obtain ⟨s, hs, h⟩ := bind_ok.mp h
    obtain ⟨hin, rfl⟩ := readSpan_ok.mp hs
    cases h
    exact ⟨hin, rfl, rfl⟩
  · intro ⟨hin, hs, hb⟩
    subst hs hb
    exact bind_ok.mpr ⟨_, readSpan_ok.mpr ⟨hin, rfl⟩, rfl⟩

theorem retrieveAll_eq (b : Buffer) : b.retrieveAll = b.retrieve b.readableBytes := by
  rw [Buffer.retrieve, if_neg (Nat.lt_irrefl _)]

/-- A call that returns has appended, reserved or retrieved. -/
theorem onBuffer_cases {op : BufferQueue.Op} {reply : BufferQueue.Reply}
    (hb : BufferQueue.onBuffer b op = .ok (b', reply)) :
    (∃ data, op = .append data ∧ b.append data = .ok b') ∨
    (∃ len, op = .ensureWritableBytes len ∧ b.ensureWritableBytes len = .ok b') ∨
    ∃ len, b' = b.retrieve len := by
  cases op with
  | append data =>
    obtain ⟨c, hc, hb⟩ := bind_ok.mp hb
    cases hb
    exact .inl ⟨data, rfl, hc⟩
  | ensureWritableBytes len =>
    obtain ⟨c, hc, hb⟩ := bind_ok.mp hb
    cases hb
    exact .inr (.inl ⟨len, rfl, hc⟩)
  | retrieve len =>
    cases hb
    exact .inr (.inr ⟨len, rfl⟩)
  | retrieveAll =>
    cases hb
    exact .inr (.inr ⟨b.readableBytes, retrieveAll_eq b⟩)
  | retrieveAsString len =>
    obtain ⟨⟨s, c⟩, hr, hb⟩ := bind_ok.mp hb
    obtain ⟨-, -, rfl⟩ := retrieveAsString_ok.mp hr
    cases hb
    exact .inr (.inr ⟨len, rfl⟩)
  | retrieveAllAsString =>
    obtain ⟨⟨s, c⟩, hr, hb⟩ := bind_ok.mp hb
    obtain ⟨-, -, rfl⟩ := retrieveAsString_ok.mp hr
    cases hb
    exact .inr (.inr ⟨b.readableBytes, rfl⟩)

theorem step_op {op : BufferQueue.Op} (hs : step b (.op op) = some b') :
    (∃ reply, BufferQueue.onBuffer b op = .ok (b', reply)) ∨
    (BufferQueue.onBuffer b op = .error .lengthError ∧ b' = b) := by
  simp only [step] at hs
  split at hs <;> cases hs
  · exact .inl ⟨_, ‹_›⟩
  · exact .inr ⟨‹_›, rfl⟩

theorem step_readFd {r : ReadResult} (hs : step b (.readFd r) = some b') :
    (∃ answer, b.readFd r = .ok (b', answer)) ∨
    (b.readFd r = .error .lengthError ∧ b' = filledBy b r) := by
  simp only [step] at hs
  split at hs <;> cases hs
  · exact .inl ⟨_, ‹_›⟩
  · exact .inr ⟨‹_›, rfl⟩

end Cases

/-! ### What every history keeps -/

/-- The indices are in order, though not always inside the vector. -/
structure Indexed (b : Buffer) : Prop where
  prepend : cheapPrepend ≤ b.readerIndex
  ordered : b.readerIndex ≤ b.writerIndex
  bounded : b.writerIndex ≤ maxSize
  small : b.buf.length ≤ maxSize

section Indexed
variable {b b' : Buffer}

theorem Indexed.wf (h : Indexed b) (hin : b.writerIndex ≤ b.buf.length) : b.Wf :=
  ⟨h.prepend, h.ordered, hin, h.small⟩

theorem indexed_of_wf (h : b.Wf) : Indexed b :=
  ⟨h.prepend, h.ordered, Nat.le_trans h.inside h.small, h.small⟩

theorem Indexed.readableBytes (h : Indexed b) : b.readableBytes = b.writerIndex - b.readerIndex := by
  have := h.bounded
  simp only [maxSize] at this
  exact sizeSub_eq h.ordered (by omega)

theorem cheapPrepend_le : cheapPrepend ≤ maxSize := by decide

theorem create_indexed {initial : Nat} (h : Buffer.create initial = .ok b) : Indexed b := by
  obtain ⟨v, hv, hb⟩ := bind_ok.mp h
  obtain ⟨hsize, rfl⟩ := resizeVector_ok.mp hv
  cases hb
  refine ⟨Nat.le_refl _, Nat.le_refl _, cheapPrepend_le, ?_⟩
  rw [length_resize]
  exact hsize

theorem retrieve_indexed (h : Indexed b) (len : Nat) : Indexed (b.retrieve len) := by
  have h₁ := h.prepend
  have h₂ := h.ordered
  have h₃ := h.bounded
  unfold Buffer.retrieve
  split
  · rename_i hlen
    rw [h.readableBytes] at hlen
    have hsum : sizeAdd b.readerIndex len = b.readerIndex + len := by
      apply sizeAdd_eq
      simp only [maxSize] at h₃
      omega
    refine ⟨?_, ?_, h₃, h.small⟩
    · simp only [hsum]
      omega
    · simp only [hsum]
      omega
  · exact ⟨Nat.le_refl _, Nat.le_refl _, cheapPrepend_le, h.small⟩

/-- Reserving keeps it, whatever the length. -/
theorem ensureWritableBytes_indexed (h : Indexed b) {len : Nat} (hb : b.ensureWritableBytes len = .ok b') :
    Indexed b' := by
  have h₁ := h.prepend
  have h₂ := h.ordered
  have h₃ := h.bounded
  unfold Buffer.ensureWritableBytes Buffer.makeSpace at hb
  split at hb
  · split at hb
    · obtain ⟨v, hv, hb⟩ := bind_ok.mp hb
      obtain ⟨hsize, rfl⟩ := resizeVector_ok.mp hv
      cases hb
      refine ⟨h₁, h₂, h₃, ?_⟩
      rw [length_resize]
      exact hsize
    · obtain ⟨moved, -, hb⟩ := bind_ok.mp hb
      obtain ⟨v, hv, hb⟩ := bind_ok.mp hb
      obtain ⟨hroom, rfl⟩ := writeSpan_ok.mp hv
      cases hb
      have hsum : sizeAdd cheapPrepend b.readableBytes ≤ b.writerIndex := by
        have hle := sizeAdd_le cheapPrepend b.readableBytes
        have hcount := h.readableBytes
        omega
      have hkeep : cheapPrepend ≤ sizeAdd cheapPrepend b.readableBytes := by
        have hcount := h.readableBytes
        simp only [maxSize] at h₃
        rw [sizeAdd_eq (by omega)]
        exact Nat.le_add_right ..
      refine ⟨Nat.le_refl _, hkeep, Nat.le_trans hsum h₃, ?_⟩
      simp only [length_splice hroom]
      exact h.small
  · cases hb
    exact h

/-- An append has written inside the vector. -/
theorem append_wf (h : Indexed b) {data : Bytes} (hb : b.append data = .ok b') : b'.Wf := by
  obtain ⟨c, hc, hb⟩ := bind_ok.mp hb
  obtain ⟨v, hv, hb⟩ := bind_ok.mp hb
  obtain ⟨hroom, rfl⟩ := writeSpan_ok.mp hv
  have hindexed := ensureWritableBytes_indexed h hc
  have hsmall := hindexed.small
  have hsum : sizeAdd c.writerIndex data.length = c.writerIndex + data.length := by
    apply sizeAdd_eq
    simp only [maxSize] at hsmall
    omega
  cases hb
  refine ⟨hindexed.prepend, ?_, ?_, ?_⟩
  · simp only [hsum]
    exact Nat.le_trans hindexed.ordered (Nat.le_add_right ..)
  · simp only [hsum, length_splice hroom]
    exact hroom
  · simp only [length_splice hroom]
    exact hsmall

/-- A read of anything takes a writer index inside the vector. -/
theorem readFd_inside {bytes : Bytes} (h : b.readFd (.received bytes) ≠ .error .outOfBounds) :
    b.writerIndex ≤ b.buf.length := by
  refine Nat.le_of_not_lt fun hout => h ?_
  rw [Buffer.readFd, writeSpan, if_neg (by omega)]
  rfl

theorem onBuffer_indexed (h : Indexed b) {op : BufferQueue.Op} {reply : BufferQueue.Reply}
    (hb : BufferQueue.onBuffer b op = .ok (b', reply)) : Indexed b' := by
  obtain ⟨data, rfl, hdo⟩ | ⟨len, rfl, hdo⟩ | ⟨len, rfl⟩ := onBuffer_cases hb
  · exact indexed_of_wf (append_wf h hdo)
  · exact ensureWritableBytes_indexed h hdo
  · exact retrieve_indexed h len

/-- A `read_fd` that throws has filled the buffer. -/
theorem throws_more (h : b.Wf) {bytes : Bytes} (hr : b.readFd (.received bytes) = .error .lengthError) :
    b.writableBytes < (bytes.take b.offered).length := by
  refine Nat.lt_of_not_le fun hfits => ?_
  rw [Buffer.readFd_fits h hfits] at hr
  cases hr

theorem filledBy_wf (h : b.Wf) {r : ReadResult} (hr : b.readFd r = .error .lengthError) : (filledBy b r).Wf := by
  cases r with
  | fails e => exact h
  | received bytes => exact (Buffer.filled_spec h (Nat.le_of_lt (throws_more h hr))).1

/-- A read that does not leave the vector finds the writer index inside it. -/
theorem readFd_indexed (h : Indexed b) {r : ReadResult} (hr : b.readFd r ≠ .error .outOfBounds) :
    b.Wf ∨ ∃ e, r = .fails e := by
  cases r with
  | fails e => exact .inr ⟨e, rfl⟩
  | received bytes => exact .inl (h.wf (readFd_inside hr))

theorem step_indexed {c : Call} (h : Indexed b) (hs : step b c = some b') : Indexed b' := by
  cases c with
  | op op =>
    obtain ⟨reply, hb⟩ | ⟨-, rfl⟩ := step_op hs
    · exact onBuffer_indexed h hb
    · exact h
  | readFd r =>
    have hin : b.readFd r ≠ .error .outOfBounds := by
      intro hout
      rw [step, hout] at hs
      cases hs
    rcases readFd_indexed h hin with hwf | ⟨e, rfl⟩
    · obtain ⟨answer, hread⟩ | ⟨hread, rfl⟩ := step_readFd hs
      · exact indexed_of_wf (Buffer.readFd_ok hwf hread).1
      · exact indexed_of_wf (filledBy_wf hwf hread)
    · cases hs
      exact h

end Indexed

/-! ### Bytes that were taken -/

/-- A buffer with a history. -/
def Reached (b : Buffer) : Prop :=
  ∃ initial b₀ tr, Buffer.create initial = .ok b₀ ∧ exec step b₀ tr = some b

theorem Reached.indexed {b : Buffer} (h : Reached b) : Indexed b := by
  obtain ⟨initial, b₀, tr, hc, htr⟩ := h
  exact exec_preserves (fun _ _ _ hi hs => step_indexed hi hs) (create_indexed hc) htr

/-- There are `len` readable bytes, and the vector has them. -/
def Holds (b : Buffer) (len : Nat) : Prop := len ≤ b.readableBytes ∧ b.readerIndex + len ≤ b.buf.length

instance (b : Buffer) (len : Nat) : Decidable (Holds b len) := inferInstanceAs (Decidable (_ ∧ _))

theorem holds_iff {b : Buffer} (h : b.Wf) {len : Nat} : Holds b len ↔ len ≤ b.readableBytes := by
  have hin := h.inside
  have hordered := h.ordered
  have hcount := Buffer.readableBytes_eq h
  unfold Holds
  omega

/-- `retrieve_as_string` returns readable bytes exactly if there are as many as it is asked for. -/
theorem retrieveAsString_iff {b : Buffer} (h : Indexed b) {len : Nat} :
    (∃ c, b.retrieveAsString len = .ok (b.readable.take len, c)) ↔ Holds b len := by
  have hcount := h.readableBytes
  have hordered := h.ordered
  constructor
  · rintro ⟨c, hc⟩
    obtain ⟨hin, hs, -⟩ := retrieveAsString_ok.mp hc
    have hlen := congrArg List.length hs
    rw [length_window hin, List.length_take, Buffer.readable, window, List.length_drop, List.length_take] at hlen
    exact ⟨by omega, hin⟩
  · rintro ⟨hlen, hin⟩
    refine ⟨b.retrieve len, retrieveAsString_ok.mpr ⟨hin, ?_, rfl⟩⟩
    exact window_take (by omega)

/-- **What a string is made of.** In any two buffers with the same readable bytes, whatever their
histories, `retrieve_as_string(len)` returns the first `len` of these and nothing else, exactly
if both have `len` of them. -/
theorem same_string_iff {b₁ b₂ : Buffer} (h₁ : Reached b₁) (h₂ : Reached b₂) (hsame : b₁.readable = b₂.readable)
    (len : Nat) :
    (∃ s c₁ c₂, b₁.retrieveAsString len = .ok (s, c₁) ∧ b₂.retrieveAsString len = .ok (s, c₂) ∧
      s = b₁.readable.take len) ↔ Holds b₁ len ∧ Holds b₂ len := by
  rw [← retrieveAsString_iff h₁.indexed, ← retrieveAsString_iff h₂.indexed]
  constructor
  · rintro ⟨s, c₁, c₂, hc₁, hc₂, rfl⟩
    exact ⟨⟨c₁, hc₁⟩, c₂, hsame ▸ hc₂⟩
  · intro ⟨⟨c₁, hc₁⟩, c₂, hc₂⟩
    exact ⟨_, c₁, c₂, hc₁, hsame ▸ hc₂, rfl⟩

/-- A buffer that has held nothing but `hi`. -/
def fresh : Buffer := ⟨[0, 0, 0, 0, 0, 0, 0, 0, 104, 105, 0, 0, 0, 0], 8, 10⟩

/-- One that has held `secret` before. -/
def reused : Buffer := ⟨[0, 0, 0, 0, 0, 0, 0, 0, 104, 105, 99, 114, 101, 116], 8, 10⟩

theorem fresh_reached : Reached fresh :=
  ⟨6, ⟨List.replicate 14 0, 8, 8⟩, [.op (.append [104, 105])], rfl, by decide +kernel⟩

theorem reused_reached : Reached reused :=
  ⟨6, ⟨List.replicate 14 0, 8, 8⟩,
    [.op (.append [115, 101, 99, 114, 101, 116]), .op .retrieveAll, .op (.append [104, 105])], rfl, by decide +kernel⟩

theorem same_string_reused :
    ∃ s c₁ c₂, fresh.retrieveAsString 2 = .ok (s, c₁) ∧ reused.retrieveAsString 2 = .ok (s, c₂) ∧
      s = fresh.readable.take 2 :=
  (same_string_iff fresh_reached reused_reached (by decide) 2).mpr ⟨by decide, by decide⟩

/-- Asked for six bytes, the two do not return the same, and the second returns `cret`. -/
theorem stale_bytes_return : ¬ ∀ b₁ b₂ len, Reached b₁ → Reached b₂ → b₁.readable = b₂.readable →
    ∃ s c₁ c₂, b₁.retrieveAsString len = .ok (s, c₁) ∧ b₂.retrieveAsString len = .ok (s, c₂) ∧
      s = b₁.readable.take len := by
  intro h
  obtain ⟨s, c₁, c₂, hc₁, hc₂, -⟩ := h fresh reused 6 fresh_reached reused_reached (by decide)
  obtain ⟨-, rfl, -⟩ := retrieveAsString_ok.mp hc₁
  obtain ⟨-, hs, -⟩ := retrieveAsString_ok.mp hc₂
  exact absurd hs (by decide)

end BufferHistory

end Caimr.Net
