import Caimr.Net.BufferHistory

/-! The space a buffer takes, over its whole history: when every reservation is safe, and how far
the vector grows. -/
namespace Caimr.Net
open Transition Window

namespace BufferHistory

/-! ### Reservations -/

/-- The lengths are `size_t`s. -/
def Call.Sized : Call → Prop
  | .op (.ensureWritableBytes len) => len < 2 ^ 64
  | _ => True

instance (c : Call) : Decidable c.Sized := by
  unfold Call.Sized
  split <;> infer_instance

/-- A reservation ends as it may. -/
def Safe (b : Buffer) : Call → Prop
  | .op (.ensureWritableBytes len) => b.SafeReserve len (b.ensureWritableBytes len)
  | _ => True

/-- The length of a reservation and the writer index add up to a `size_t`. -/
def Fits (b : Buffer) : Call → Prop
  | .op (.ensureWritableBytes len) => b.writerIndex + len < 2 ^ 64
  | _ => True

instance (b : Buffer) (c : Call) : Decidable (Fits b c) := by
  unfold Fits
  split <;> infer_instance

section Steps
variable {b b' : Buffer} {c : Call}

theorem safe_iff_fits (h : b.Wf) (hc : c.Sized) : Safe b c ↔ Fits b c := by
  cases c with
  | readFd r => exact Iff.rfl
  | op op =>
    cases op with
    | ensureWritableBytes len => exact Buffer.safeReserve_iff h hc
    | append | retrieve | retrieveAll | retrieveAsString | retrieveAllAsString => exact Iff.rfl

theorem ensureWritableBytes_wf (h : b.Wf) {len : Nat} (hf : b.writerIndex + len < 2 ^ 64)
    (hb : b.ensureWritableBytes len = .ok b') : b'.Wf := by
  have hroom : b.HasRoom len := by
    refine Decidable.not_not.mp fun hnone => ?_
    rw [Buffer.ensureWritableBytes_throws h hf hnone] at hb
    cases hb
  obtain ⟨c, hc, hwf, -, -⟩ := Buffer.ensureWritableBytes_room h hf hroom
  cases hb.symm.trans hc
  exact hwf

theorem onBuffer_wf (h : b.Wf) {op : BufferQueue.Op} {reply : BufferQueue.Reply} (hf : Fits b (.op op))
    (hb : BufferQueue.onBuffer b op = .ok (b', reply)) : b'.Wf := by
  obtain ⟨data, rfl, hdo⟩ | ⟨len, rfl, hdo⟩ | ⟨len, rfl⟩ := onBuffer_cases hb
  · exact (Buffer.append_ok h hdo).1
  · exact ensureWritableBytes_wf h hf hdo
  · exact Buffer.retrieve_wf h len

/-- Only a reservation that wraps around breaks a buffer. -/
theorem step_wf (h : b.Wf) (hf : Fits b c) (hs : step b c = some b') : b'.Wf := by
  cases c with
  | op op =>
    obtain ⟨reply, hb⟩ | ⟨-, rfl⟩ := step_op hs
    · exact onBuffer_wf h hf hb
    · exact h
  | readFd r =>
    obtain ⟨answer, hread⟩ | ⟨hread, rfl⟩ := step_readFd hs
    · exact (Buffer.readFd_ok h hread).1
    · exact filledBy_wf h hread

end Steps

theorem create_wf {initial : Nat} {b : Buffer} (h : Buffer.create initial = .ok b)
    (hinit : cheapPrepend + initial < 2 ^ 64) : b.Wf ∧ b.readable = [] ∧ b.buf.length = cheapPrepend + initial := by
  have hindexed := create_indexed h
  obtain ⟨v, hv, hb⟩ := bind_ok.mp h
  obtain ⟨hsize, rfl⟩ := resizeVector_ok.mp hv
  cases hb
  have hlength : (resize ([] : Bytes) (sizeAdd cheapPrepend initial) 0).length = cheapPrepend + initial := by
    rw [length_resize, sizeAdd_eq hinit]
  refine ⟨hindexed.wf ?_, window_self .., hlength⟩
  simp only [hlength]
  exact Nat.le_add_right ..

/-- **Reserving is safe, up to a wrap-around.** In any history of a buffer, every reservation ends
with the room it asks for or with an exception that leaves everything as it was, exactly if the
length of every reservation and the writer index it finds add up to a `size_t`. -/
theorem reserve_safe_iff {initial : Nat} {b₀ : Buffer} {tr : List Call} (hc : Buffer.create initial = .ok b₀)
    (hinit : cheapPrepend + initial < 2 ^ 64) (hsized : ∀ c ∈ tr, c.Sized) :
    Along step Safe b₀ tr ↔ Along step Fits b₀ tr := by
  refine along_iff_along (I := Buffer.Wf) (P := Call.Sized) ?_ ?_ (create_wf hc hinit).1 hsized
  · exact fun b c hwf hsize => safe_iff_fits hwf hsize
  · exact fun b c b' hwf hfits hs => step_wf hwf hfits hs

/-- Bytes come and go, and room for more of them is reserved. -/
theorem reserve_safe_reused :
    Along step Safe ⟨List.replicate 14 0, 8, 8⟩
      [.op (.append [1, 2, 3, 4]), .op (.retrieve 3), .op (.ensureWritableBytes 5),
        .op (.ensureWritableBytes (2 ^ 64 - 10))] := by
  have hc : Buffer.create 6 = .ok ⟨List.replicate 14 0, 8, 8⟩ := rfl
  exact (reserve_safe_iff hc (by decide) (by decide)).mpr (by decide +kernel)

/-- With one byte behind the eight in front, `2 ^ 64 - 9` more come to zero: the vector loses everything. -/
theorem reserve_shrinks : ¬ ∀ (initial : Nat) (b₀ b : Buffer) (tr : List Call) (len : Nat),
    Buffer.create initial = .ok b₀ → cheapPrepend + initial < 2 ^ 64 → exec step b₀ tr = some b →
    len < 2 ^ 64 → b.SafeReserve len (b.ensureWritableBytes len) := by
  intro h
  have hsafe := h 6 ⟨List.replicate 14 0, 8, 8⟩ ⟨[0, 0, 0, 0, 0, 0, 0, 0, 1, 0, 0, 0, 0, 0], 8, 9⟩
    [.op (.append [1])] (2 ^ 64 - 9) rfl (by decide) (by decide +kernel) (by decide)
  have hshrunk : Buffer.ensureWritableBytes ⟨[0, 0, 0, 0, 0, 0, 0, 0, 1, 0, 0, 0, 0, 0], 8, 9⟩ (2 ^ 64 - 9) =
      .ok ⟨[], 8, 9⟩ := by
    decide +kernel
  rw [hshrunk] at hsafe
  exact absurd hsafe.2.2.2.2 (by decide)

/-! ### The size of the vector -/

/-- The calls by which bytes pass through a buffer. -/
def Call.Passes : Call → Prop
  | .op (.ensureWritableBytes _) => False
  | _ => True

instance (c : Call) : Decidable c.Passes := by
  unfold Call.Passes
  split <;> infer_instance

/-- Such a call, after which no more than `M` bytes are readable. -/
def Within (M : Nat) (b : Buffer) (c : Call) : Prop := c.Passes ∧ ∀ b' ∈ step b c, b'.readableBytes ≤ M

instance (M : Nat) (b : Buffer) (c : Call) : Decidable (Within M b c) := inferInstanceAs (Decidable (_ ∧ _))

section Size
variable {b b' : Buffer}

/-- The vector grows only where the spent bytes in front are fewer than the bytes asked for. -/
theorem ensureWritableBytes_size (h : b.Wf) {len : Nat} (hb : b.ensureWritableBytes len = .ok b') :
    b'.buf.length ≤ max b.buf.length (cheapPrepend + 2 * (b.readableBytes + len)) := by
  have h₂ := h.ordered
  have h₃ := h.inside
  have h₄ := h.index_lt
  have hfree := Buffer.writableBytes_eq h
  have hcount := Buffer.readableBytes_eq h
  have hspace := Buffer.space_eq h
  unfold Buffer.ensureWritableBytes Buffer.makeSpace at hb
  split at hb
  · split at hb
    · rename_i hgrow
      obtain ⟨v, hv, hb⟩ := bind_ok.mp hb
      obtain ⟨-, rfl⟩ := resizeVector_ok.mp hv
      cases hb
      have hsize := sizeAdd_le b.writerIndex len
      have hneed := sizeAdd_le len cheapPrepend
      simp only [length_resize]
      omega
    · obtain ⟨c, hc, -, -, hsize, -⟩ := Buffer.compact_spec h
      cases hc.symm.trans hb
      omega
  · cases hb
    omega

/-- The bytes in the vector after an append bound its size. -/
theorem append_size (h : b.Wf) {data : Bytes} (hb : b.append data = .ok b') :
    b'.buf.length ≤ max b.buf.length (cheapPrepend + 2 * b'.readableBytes) := by
  obtain ⟨hwf, hread⟩ := Buffer.append_ok h hb
  have hcount : b'.readableBytes = b.readableBytes + data.length := by
    rw [← Buffer.length_readable hwf, hread, List.length_append, Buffer.length_readable h]
  obtain ⟨c, hc, hb⟩ := bind_ok.mp hb
  obtain ⟨v, hv, hb⟩ := bind_ok.mp hb
  obtain ⟨hroom, rfl⟩ := writeSpan_ok.mp hv
  have hsize := ensureWritableBytes_size h hc
  cases hb
  rw [hcount]
  simp only [length_splice hroom]
  exact hsize

theorem readFd_size (h : b.Wf) {r : ReadResult} {answer : Except Errno Nat} (hb : b.readFd r = .ok (b', answer)) :
    b'.buf.length ≤ max b.buf.length (cheapPrepend + 2 * b'.readableBytes) := by
  cases r with
  | fails e =>
    cases hb
    exact Nat.le_max_left ..
  | received bytes =>
    by_cases hfits : (bytes.take b.offered).length ≤ b.writableBytes
    · have hin := h.inside
      have hfree := Buffer.writableBytes_eq h
      rw [Buffer.readFd_fits h hfits] at hb
      cases hb
      simp only [length_splice (show b.writerIndex + (bytes.take b.offered).length ≤ b.buf.length by omega)]
      exact Nat.le_max_left ..
    · have hmore : b.writableBytes < (bytes.take b.offered).length := Nat.lt_of_not_le hfits
      obtain ⟨hwf, -, hsize⟩ := Buffer.filled_spec h (Nat.le_of_lt hmore)
      rw [Buffer.readFd_more h hmore] at hb
      obtain ⟨c, hc, hb⟩ := bind_ok.mp hb
      cases hb
      rw [← hsize]
      exact append_size hwf hc

theorem retrieve_buf (b : Buffer) (len : Nat) : (b.retrieve len).buf = b.buf := by
  unfold Buffer.retrieve
  split <;> rfl

theorem filledBy_size (h : b.Wf) {r : ReadResult} (hr : b.readFd r = .error .lengthError) :
    (filledBy b r).buf.length = b.buf.length := by
  cases r with
  | fails e => rfl
  | received bytes => exact (Buffer.filled_spec h (Nat.le_of_lt (throws_more h hr))).2.2

/-- What one call adds to the vector, what is readable after it accounts for. -/
theorem step_size {c : Call} (h : b.Wf) (hc : c.Passes) (hs : step b c = some b') :
    b'.buf.length ≤ max b.buf.length (cheapPrepend + 2 * b'.readableBytes) := by
  cases c with
  | op op =>
    obtain ⟨reply, hb⟩ | ⟨-, rfl⟩ := step_op hs
    · obtain ⟨data, rfl, hdo⟩ | ⟨len, rfl, -⟩ | ⟨len, rfl⟩ := onBuffer_cases hb
      · exact append_size h hdo
      · exact absurd hc id
      · rw [retrieve_buf]
        exact Nat.le_max_left ..
    · exact Nat.le_max_left ..
  | readFd r =>
    obtain ⟨answer, hread⟩ | ⟨hread, rfl⟩ := step_readFd hs
    · exact readFd_size h hread
    · rw [filledBy_size h hread]
      exact Nat.le_max_left ..

theorem passes_fits {c : Call} (hc : c.Passes) : Fits b c := by
  unfold Fits
  split
  · exact absurd hc id
  · trivial

end Size

/-- **A buffer's vector is bounded by its content at the highest.** However many bytes pass through,
the size of the vector never exceeds that of the new buffer or twice the most that was readable
after a call. -/
theorem size_bounded {initial M : Nat} {b₀ b : Buffer} {tr : List Call} (hc : Buffer.create initial = .ok b₀)
    (h : exec step b₀ tr = some b) (hwithin : Along step (Within M) b₀ tr) :
    b.buf.length ≤ max (cheapPrepend + initial) (cheapPrepend + 2 * M) := by
  by_cases hinit : cheapPrepend + initial < 2 ^ 64
  · obtain ⟨hwf, -, hsize⟩ := create_wf hc hinit
    have hrun : b.Wf ∧ b.buf.length ≤ max (cheapPrepend + initial) (cheapPrepend + 2 * M) := by
      refine rule_induction (fun _ u => u.Wf ∧ u.buf.length ≤ max (cheapPrepend + initial) (cheapPrepend + 2 * M))
        ⟨hwf, by omega⟩ ?_ h hwithin
      rintro - u c u' - ⟨huwf, hbound⟩ ⟨hpasses, hmost⟩ hs
      have hstep := step_size huwf hpasses hs
      have hu' := hmost u' hs
      exact ⟨step_wf huwf (passes_fits hpasses) hs, by omega⟩
    exact hrun.2
  · -- The bound is beyond any vector.
    have hindexed : Indexed b := exec_preserves (fun _ _ _ hi hs => step_indexed hi hs) (create_indexed hc) h
    have hsmall := hindexed.small
    simp only [maxSize] at hsmall
    omega

/-- Three bytes at a time through a buffer for none: it grows once, and then the bytes move. -/
theorem size_bounded_three : ∃ b,
    exec step ⟨List.replicate 8 0, 8, 8⟩ [.op (.append [1, 2, 3]), .op (.retrieve 3), .op (.append [4, 5, 6]),
      .op (.retrieve 2), .op (.append [7, 8]), .readFd (.fails .wouldBlock), .op .retrieveAllAsString] = some b ∧
      b.buf.length ≤ 14 := by
  obtain ⟨b, hb⟩ : ∃ b,
      exec step ⟨List.replicate 8 0, 8, 8⟩ [.op (.append [1, 2, 3]), .op (.retrieve 3), .op (.append [4, 5, 6]),
        .op (.retrieve 2), .op (.append [7, 8]), .readFd (.fails .wouldBlock), .op .retrieveAllAsString] = some b :=
    Option.isSome_iff_exists.mp (by decide +kernel)
  have hc : Buffer.create 0 = .ok ⟨List.replicate 8 0, 8, 8⟩ := rfl
  exact ⟨b, hb, size_bounded (M := 3) hc hb (by decide +kernel)⟩

end BufferHistory

end Caimr.Net
