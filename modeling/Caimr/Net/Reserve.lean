import Caimr.Net.Buffer

/-! When there is room. For a length that can be added to the writer index without wrapping
around, `ensure_writable_bytes` makes the room or throws, and which of the two it does can be
said in advance; for any other length it does neither. -/
namespace Caimr.Net.Buffer
open Window

/-- There is room for `len` bytes: free already, or free once the spent bytes in front are given
up, or within what a vector can grow to. -/
def HasRoom (b : Buffer) (len : Nat) : Prop :=
  len ≤ b.writableBytes ∨ len + cheapPrepend ≤ b.writableBytes + b.readerIndex ∨ b.writerIndex + len ≤ maxSize

instance (b : Buffer) (len : Nat) : Decidable (b.HasRoom len) := inferInstanceAs (Decidable (_ ∨ _))

/-- How a call `ensure_writable_bytes(len)` may end: with the room, the same readable bytes and
indices in order; or thrown by `resize`, which has then changed nothing. -/
def SafeReserve (b : Buffer) (len : Nat) : Except Fault Buffer → Prop
  | .ok b' => len ≤ b'.writableBytes ∧ b'.readable = b.readable ∧ cheapPrepend ≤ b'.readerIndex ∧
      b'.readerIndex ≤ b'.writerIndex ∧ b'.writerIndex ≤ b'.buf.length
  | .error .lengthError => True
  | .error .outOfBounds => False

section Lengths
variable {b : Buffer} {len : Nat}

/-- The comparison of `make_space`, on a well-formed buffer and a length that does not wrap around. -/
theorem makeSpace_eq (h : b.Wf) (hlen : b.writerIndex + len < 2 ^ 64) :
    b.makeSpace len =
      if b.writableBytes + b.readerIndex < len + cheapPrepend then b.grow len else b.compact := by
  have h₁ := h.prepend
  have h₂ := h.ordered
  have hneed : sizeAdd len cheapPrepend = len + cheapPrepend := by
    apply sizeAdd_eq
    omega
  rw [makeSpace, space_eq h, hneed]

/-- Where there is room, it is made. -/
theorem ensureWritableBytes_room (h : b.Wf) (hlen : b.writerIndex + len < 2 ^ 64) (hroom : b.HasRoom len) :
    ∃ b', b.ensureWritableBytes len = .ok b' ∧ b'.Wf ∧ b'.readable = b.readable ∧ len ≤ b'.writableBytes := by
  have h₁ := h.prepend
  have h₂ := h.ordered
  have h₃ := h.inside
  by_cases hmax : b.writerIndex + len ≤ maxSize
  · obtain ⟨b', hb, hwf, hread, hfree, -, -⟩ := ensureWritableBytes_spec h hmax
    exact ⟨b', hb, hwf, hread, hfree⟩
  rw [ensureWritableBytes]
  by_cases hfree : b.writableBytes < len
  · have hspent : len + cheapPrepend ≤ b.writableBytes + b.readerIndex := by
      rcases hroom with hroom | hroom | hroom
      · exact absurd hroom (by omega)
      · exact hroom
      · exact absurd hroom hmax
    rw [if_pos hfree, makeSpace_eq h hlen, if_neg (by omega)]
    obtain ⟨b', hb, hwf, hread, hsize, hw⟩ := compact_spec h
    have hcount := readableBytes_eq h
    have hbefore := writableBytes_eq h
    exact ⟨b', hb, hwf, hread, by rw [writableBytes_eq hwf]; omega⟩
  · rw [if_neg hfree]
    exact ⟨b, rfl, h, rfl, Nat.le_of_not_lt hfree⟩

/-- Where there is none, `resize` throws. -/
theorem ensureWritableBytes_throws (h : b.Wf) (hlen : b.writerIndex + len < 2 ^ 64) (hroom : ¬ b.HasRoom len) :
    b.ensureWritableBytes len = .error .lengthError := by
  simp only [HasRoom, not_or, Nat.not_le] at hroom
  obtain ⟨hfree, hspent, hmax⟩ := hroom
  have hsum : sizeAdd b.writerIndex len = b.writerIndex + len := sizeAdd_eq hlen
  have hthrow : resizeVector b.buf (b.writerIndex + len) = .error .lengthError := by
    rw [resizeVector, if_neg (by omega)]
  rw [ensureWritableBytes, if_pos hfree, makeSpace_eq h hlen, if_pos hspent, grow, hsum, hthrow]
  rfl

/-- From `2 ^ 64 - 8` on, `len + CHEAP_PREPEND` wraps around: the readable bytes move to the front,
whatever room that makes. -/
theorem ensureWritableBytes_need_wraps (h : b.Wf) (hlen : len < 2 ^ 64) (hwrap : 2 ^ 64 ≤ len + cheapPrepend) :
    ∃ b', b.ensureWritableBytes len = .ok b' ∧ b'.writableBytes < len := by
  have h₁ := h.prepend
  have h₂ := h.ordered
  have h₃ := h.inside
  have h₄ := h.index_lt
  have hfree := writableBytes_eq h
  have hneed : sizeAdd len cheapPrepend < cheapPrepend := by
    simp only [sizeAdd, cheapPrepend] at hwrap ⊢
    omega
  obtain ⟨b', hb, hwf, -, hsize, -⟩ := compact_spec h
  have hspace : b.makeSpace len = b.compact := by
    rw [makeSpace, space_eq h, if_neg (by omega)]
  have hsmall : b.writableBytes < len := by
    simp only [cheapPrepend] at hwrap
    omega
  refine ⟨b', ?_, ?_⟩
  · rw [ensureWritableBytes, if_pos hsmall, hspace, hb]
  · rw [writableBytes_eq hwf]
    simp only [cheapPrepend] at hwrap
    omega

/-- Below that, where `writer_index_ + len` wraps around, the vector shrinks to less than the writer
index. -/
theorem ensureWritableBytes_size_wraps (h : b.Wf) (hneed : len + cheapPrepend < 2 ^ 64)
    (hwrap : 2 ^ 64 ≤ b.writerIndex + len) :
    ∃ b', b.ensureWritableBytes len = .ok b' ∧ b'.buf.length < b'.writerIndex := by
  have h₁ := h.prepend
  have h₂ := h.ordered
  have h₃ := h.inside
  have h₄ := h.index_lt
  have hmax := h.small
  have hfree := writableBytes_eq h
  have hspace : b.makeSpace len = b.grow len := by
    rw [makeSpace, space_eq h, sizeAdd_eq hneed, if_pos (by omega)]
  have hsize : sizeAdd b.writerIndex len = b.writerIndex + len - 2 ^ 64 := by
    simp only [sizeAdd, cheapPrepend] at hneed ⊢
    omega
  have hv : resizeVector b.buf (sizeAdd b.writerIndex len) = .ok (resize b.buf (b.writerIndex + len - 2 ^ 64) 0) := by
    rw [hsize]
    exact resizeVector_ok.mpr ⟨by omega, rfl⟩
  refine ⟨{b with buf := resize b.buf (b.writerIndex + len - 2 ^ 64) 0}, ?_, ?_⟩
  · rw [ensureWritableBytes, if_pos (by omega), hspace, grow, hv]
    rfl
  · show (resize b.buf (b.writerIndex + len - 2 ^ 64) 0).length < b.writerIndex
    rw [length_resize]
    simp only [cheapPrepend] at hneed
    omega

/-- A call is safe exactly if the length and the writer index add up to a `size_t`. -/
theorem safeReserve_iff (h : b.Wf) (hlen : len < 2 ^ 64) :
    b.SafeReserve len (b.ensureWritableBytes len) ↔ b.writerIndex + len < 2 ^ 64 := by
  constructor
  · intro hsafe
    refine Nat.lt_of_not_le fun hwrap => ?_
    by_cases hneed : len + cheapPrepend < 2 ^ 64
    · obtain ⟨b', hb, hsize⟩ := ensureWritableBytes_size_wraps h hneed hwrap
      rw [hb] at hsafe
      exact absurd hsafe.2.2.2.2 (by omega)
    · obtain ⟨b', hb, hfree⟩ := ensureWritableBytes_need_wraps h hlen (by omega)
      rw [hb] at hsafe
      exact absurd hsafe.1 (by omega)
  · intro hwrap
    by_cases hroom : b.HasRoom len
    · obtain ⟨b', hb, hwf, hread, hfree⟩ := ensureWritableBytes_room h hwrap hroom
      rw [hb]
      exact ⟨hfree, hread, hwf.prepend, hwf.ordered, hwf.inside⟩
    · rw [ensureWritableBytes_throws h hwrap hroom]
      trivial

end Lengths

end Caimr.Net.Buffer
