import Caimr.Net.Reserve

/-! `read_fd` with its two vectors: the free end of the buffer, and `extrabuf` where that is
short. `::readv` fills one after the other, and what has come into `extrabuf` is appended
once the buffer is full. -/
namespace Caimr.Net
open Window

/-- Stretches of memory with `data` written over one after the other. -/
def scatter : List Bytes → Bytes → List Bytes
  | [], _ => []
  | v :: rest, data => splice v 0 (data.take v.length) :: scatter rest (data.drop v.length)

/-- `::readv`: what the stretches hold after it, and its result. -/
def readv (vec : List Bytes) : ReadResult → List Bytes × Except Errno Nat
  | .fails e => (vec, .error e)
  | .received bytes =>
    let got := bytes.take vec.flatten.length
    (scatter vec got, .ok got.length)

namespace Buffer

def extrabuf : Bytes := List.replicate extraSize 0

/-- `vec`, as far as `iovcnt` goes. -/
def vec (b : Buffer) : List Bytes :=
  if b.writableBytes < extraSize then [b.buf.drop b.writerIndex, extrabuf] else [b.buf.drop b.writerIndex]

/-- The space that `read_fd` offers. -/
def offered (b : Buffer) : Nat := b.vec.flatten.length

def readFdVectors (b : Buffer) (r : ReadResult) : Except Fault (Buffer × Except Errno Nat) :=
  let writable := b.writableBytes
  match readv b.vec r with
  | (_, .error e) => .ok (b, .error e)
  | (vec, .ok n) => do
    -- The first vector is memory of the buffer itself.
    let buf ← writeSpan b.buf b.writerIndex (vec.headD [])
    if n ≤ writable then
      return ({b with buf := buf, writerIndex := sizeAdd b.writerIndex n}, .ok n)
    else
      let extra ← readSpan (vec.getD 1 []) 0 (sizeSub n writable)
      let b ← append {b with buf := buf, writerIndex := buf.length} extra
      return (b, .ok n)

/-- Of `n` bytes read, those that come into `extrabuf` have room in the full buffer. -/
def TakesIn (b : Buffer) (n : Nat) : Prop :=
  n ≤ b.writableBytes ∨ n - b.writableBytes + cheapPrepend ≤ b.readerIndex ∨
    b.buf.length + (n - b.writableBytes) ≤ maxSize

instance (b : Buffer) (n : Nat) : Decidable (b.TakesIn n) := inferInstanceAs (Decidable (_ ∨ _))

section Vectors
variable {b : Buffer}

theorem length_extrabuf : extrabuf.length = extraSize := List.length_replicate

theorem length_free (h : b.Wf) : (b.buf.drop b.writerIndex).length = b.writableBytes := by
  rw [List.length_drop, writableBytes_eq h]

theorem offered_eq (h : b.Wf) :
    b.offered = if b.writableBytes < extraSize then b.writableBytes + extraSize else b.writableBytes := by
  unfold offered vec
  split
  · simp only [List.flatten_cons, List.flatten_nil, List.append_nil, List.length_append, length_free h,
      length_extrabuf]
  · simp only [List.flatten_cons, List.flatten_nil, List.append_nil, length_free h]

theorem received_eq (h : b.Wf) (bytes : Bytes) : b.received (.received bytes) = bytes.take b.offered := by
  rw [received, room, offered_eq h]

theorem extraSize_le_offered (h : b.Wf) : extraSize ≤ b.offered := by
  rw [offered_eq h]
  split <;> omega

/-- The first stretch has the first of the bytes. -/
theorem headD_scatter (data : Bytes) :
    (scatter b.vec data).headD [] =
      splice (b.buf.drop b.writerIndex) 0 (data.take (b.buf.drop b.writerIndex).length) := by
  unfold vec
  split <;> rfl

/-- The second has the others. -/
theorem getD_scatter (h : b.Wf) {data : Bytes} (hmore : b.writableBytes < data.length)
    (hdata : data.length ≤ b.offered) :
    readSpan ((scatter b.vec data).getD 1 []) 0 (data.length - b.writableBytes) = .ok (data.drop b.writableBytes) := by
  have hpair : b.writableBytes < extraSize := by
    rw [offered_eq h] at hdata
    split at hdata <;> omega
  rw [offered_eq h, if_pos hpair] at hdata
  have hrest : (data.drop b.writableBytes).length = data.length - b.writableBytes := List.length_drop
  have hall : (data.drop b.writableBytes).take extrabuf.length = data.drop b.writableBytes := by
    apply List.take_of_length_le
    rw [hrest, length_extrabuf]
    omega
  have hextra : (scatter b.vec data).getD 1 [] = splice extrabuf 0 (data.drop b.writableBytes) := by
    rw [vec, if_pos hpair, scatter, scatter, List.getD_cons_succ, List.getD_cons_zero, length_free h, hall]
  have hroom : 0 + (data.drop b.writableBytes).length ≤ extrabuf.length := by
    rw [hrest, length_extrabuf]
    omega
  rw [hextra]
  apply readSpan_ok.mpr
  rw [length_splice hroom, ← hrest, window_splice (Nat.zero_le _)]
  exact ⟨hroom, rfl⟩

/-- Between them the two vectors do what `readFd` does with the bytes as a whole. -/
theorem readFdVectors_eq (h : b.Wf) (r : ReadResult) : b.readFdVectors r = b.readFd r := by
  cases r with
  | fails e => rfl
  | received bytes =>
    have hinside := h.inside
    have hfree := writableBytes_eq h
    have hlt := h.index_lt
    obtain ⟨got, hgot⟩ : ∃ got, bytes.take b.offered = got := ⟨_, rfl⟩
    have hlen : got.length ≤ b.offered := by
      rw [← hgot, List.length_take]
      exact Nat.min_le_left ..
    have hfirst : (got.take b.writableBytes).length ≤ b.writableBytes := by
      rw [List.length_take]
      exact Nat.min_le_left ..
    have hfree' := length_free h
    have hsame : writeSpan b.buf b.writerIndex ((scatter b.vec got).headD []) =
        writeSpan b.buf b.writerIndex (got.take b.writableBytes) := by
      have hwhole : (splice (b.buf.drop b.writerIndex) 0 (got.take b.writableBytes)).length = b.writableBytes := by
        rw [length_splice (by omega), hfree']
      rw [headD_scatter, hfree', writeSpan, writeSpan, hwhole, if_pos (by omega), if_pos (by omega),
        splice_tail (by omega)]
    have hvectors : b.readFdVectors (.received bytes) =
        (writeSpan b.buf b.writerIndex ((scatter b.vec got).headD []) >>= fun buf =>
          if got.length ≤ b.writableBytes then
            .ok ({b with buf := buf, writerIndex := sizeAdd b.writerIndex got.length}, .ok got.length)
          else
            readSpan ((scatter b.vec got).getD 1 []) 0 (sizeSub got.length b.writableBytes) >>= fun extra =>
              append {b with buf := buf, writerIndex := buf.length} extra >>= fun b =>
                .ok (b, .ok got.length)) := by
      rw [← hgot]
      rfl
    have hread : b.readFd (.received bytes) =
        (writeSpan b.buf b.writerIndex (got.take b.writableBytes) >>= fun buf =>
          if got.length ≤ b.writableBytes then
            .ok ({b with buf := buf, writerIndex := sizeAdd b.writerIndex got.length}, .ok got.length)
          else
            append {b with buf := buf, writerIndex := buf.length} (got.drop b.writableBytes) >>= fun b =>
              .ok (b, .ok got.length)) := by
      rw [← hgot, offered_eq h]
      rfl
    rw [hvectors, hread, hsame]
    congr 1
    funext buf
    by_cases hfits : got.length ≤ b.writableBytes
    · rw [if_pos hfits, if_pos hfits]
    · have hmore : b.writableBytes < got.length := Nat.lt_of_not_le hfits
      have hsub : sizeSub got.length b.writableBytes = got.length - b.writableBytes := by
        apply sizeSub_eq (Nat.le_of_lt hmore)
        have hextra : extraSize = 65536 := rfl
        rw [offered_eq h] at hlen
        split at hlen <;> omega
      rw [if_neg hfits, if_neg hfits, hsub, getD_scatter h hmore hlen, ok_bind]

/-! ### What a read comes to -/

/-- The buffer with `data` put into its free space, as far as that goes. -/
def filled (b : Buffer) (data : Bytes) : Buffer :=
  {b with buf := splice b.buf b.writerIndex (data.take b.writableBytes), writerIndex := b.buf.length}

/-- A full buffer, with the first of the data. -/
theorem filled_spec (h : b.Wf) {data : Bytes} (hmore : b.writableBytes ≤ data.length) :
    (b.filled data).Wf ∧ (b.filled data).readable = b.readable ++ data.take b.writableBytes ∧
      (b.filled data).buf.length = b.buf.length := by
  have hinside := h.inside
  have hfree := writableBytes_eq h
  have hfirst : (data.take b.writableBytes).length = b.writableBytes := by
    rw [List.length_take]
    omega
  have hv : writeSpan b.buf b.writerIndex (data.take b.writableBytes) =
      .ok (splice b.buf b.writerIndex (data.take b.writableBytes)) := writeSpan_ok.mpr ⟨by omega, rfl⟩
  have hfill := fill_ok h hv
  rw [hfirst, show b.writerIndex + b.writableBytes = b.buf.length by omega] at hfill
  exact ⟨hfill.1, hfill.2, length_splice (by omega)⟩

/-- A read into the free space. -/
theorem readFd_fits (h : b.Wf) {bytes : Bytes} (hfits : (bytes.take b.offered).length ≤ b.writableBytes) :
    b.readFd (.received bytes) =
      .ok (⟨splice b.buf b.writerIndex (bytes.take b.offered), b.readerIndex,
        b.writerIndex + (bytes.take b.offered).length⟩, .ok (bytes.take b.offered).length) := by
  have hinside := h.inside
  have hfree := writableBytes_eq h
  have hlt := h.index_lt
  have hall : (bytes.take b.offered).take b.writableBytes = bytes.take b.offered := List.take_of_length_le hfits
  have hv : writeSpan b.buf b.writerIndex (bytes.take b.offered) =
      .ok (splice b.buf b.writerIndex (bytes.take b.offered)) := writeSpan_ok.mpr ⟨by omega, rfl⟩
  have hsum : sizeAdd b.writerIndex (bytes.take b.offered).length = b.writerIndex + (bytes.take b.offered).length :=
    sizeAdd_eq (by omega)
  rw [readFd, ← offered_eq h]
  rw [hall, hv, ok_bind, if_pos hfits, hsum]
  rfl

/-- A read beyond it fills the buffer and appends the rest. -/
theorem readFd_more (h : b.Wf) {bytes : Bytes} (hmore : b.writableBytes < (bytes.take b.offered).length) :
    b.readFd (.received bytes) =
      ((b.filled (bytes.take b.offered)).append ((bytes.take b.offered).drop b.writableBytes) >>= fun b' =>
        .ok (b', .ok (bytes.take b.offered).length)) := by
  have hinside := h.inside
  have hfree := writableBytes_eq h
  have hfirst : ((bytes.take b.offered).take b.writableBytes).length = b.writableBytes := by
    rw [List.length_take]
    omega
  have hv : writeSpan b.buf b.writerIndex ((bytes.take b.offered).take b.writableBytes) =
      .ok (splice b.buf b.writerIndex ((bytes.take b.offered).take b.writableBytes)) :=
    writeSpan_ok.mpr ⟨by omega, rfl⟩
  have hlength : (splice b.buf b.writerIndex ((bytes.take b.offered).take b.writableBytes)).length = b.buf.length :=
    length_splice (by omega)
  rw [readFd, ← offered_eq h]
  rw [hv, ok_bind, if_neg (Nat.not_le.mpr hmore), hlength]
  rfl

/-- An append where there is room. -/
theorem append_room (h : b.Wf) {data : Bytes} (hlen : b.writerIndex + data.length < 2 ^ 64)
    (hroom : b.HasRoom data.length) : ∃ b', b.append data = .ok b' := by
  obtain ⟨c, hc, hwf, -, hfree⟩ := ensureWritableBytes_room h hlen hroom
  have hinside := hwf.inside
  rw [writableBytes_eq hwf] at hfree
  have hv : writeSpan c.buf c.writerIndex data = .ok (splice c.buf c.writerIndex data) :=
    writeSpan_ok.mpr ⟨by omega, rfl⟩
  rw [append, hc, ok_bind, hv]
  exact ⟨_, rfl⟩

theorem append_throws (h : b.Wf) {data : Bytes} (hlen : b.writerIndex + data.length < 2 ^ 64)
    (hroom : ¬ b.HasRoom data.length) : b.append data = .error .lengthError := by
  rw [append, ensureWritableBytes_throws h hlen hroom]
  rfl

/-- What a full buffer takes. -/
theorem filled_hasRoom (h : b.Wf) {data : Bytes} (hmore : b.writableBytes < data.length) :
    (b.filled data).HasRoom (data.drop b.writableBytes).length ↔ b.TakesIn data.length := by
  obtain ⟨hwf, -, hsize⟩ := filled_spec h (Nat.le_of_lt hmore)
  have hnone : (b.filled data).writableBytes = 0 := by
    rw [writableBytes_eq hwf, hsize]
    exact Nat.sub_self _
  have hwriter : (b.filled data).writerIndex = b.buf.length := rfl
  have hreader : (b.filled data).readerIndex = b.readerIndex := rfl
  rw [HasRoom, TakesIn, hnone, hwriter, hreader, List.length_drop]
  omega

theorem filled_fits (h : b.Wf) {data : Bytes} (hmore : b.writableBytes < data.length)
    (hdata : data.length ≤ b.offered) :
    (b.filled data).writerIndex + (data.drop b.writableBytes).length < 2 ^ 64 := by
  have hlt := h.index_lt
  have hextra : extraSize = 65536 := rfl
  have hwriter : (b.filled data).writerIndex = b.buf.length := rfl
  rw [offered_eq h] at hdata
  rw [hwriter, List.length_drop]
  split at hdata <;> omega

/-- Where there is room for what was read, `read_fd` returns. -/
theorem readFd_returns (h : b.Wf) {bytes : Bytes} (htakes : b.TakesIn (bytes.take b.offered).length) :
    ∃ b', b.readFd (.received bytes) = .ok (b', .ok (bytes.take b.offered).length) := by
  by_cases hfits : (bytes.take b.offered).length ≤ b.writableBytes
  · exact ⟨_, readFd_fits h hfits⟩
  · have hmore : b.writableBytes < (bytes.take b.offered).length := Nat.lt_of_not_le hfits
    have hwf := (filled_spec h (Nat.le_of_lt hmore)).1
    obtain ⟨b', hb⟩ := append_room hwf (filled_fits h hmore (List.length_take_le ..))
      ((filled_hasRoom h hmore).mpr htakes)
    refine ⟨b', ?_⟩
    rw [readFd_more h hmore, hb, ok_bind]

theorem readFd_throws (h : b.Wf) {bytes : Bytes} (hfull : ¬ b.TakesIn (bytes.take b.offered).length) :
    b.readFd (.received bytes) = .error .lengthError := by
  have hmore : b.writableBytes < (bytes.take b.offered).length := Nat.lt_of_not_le fun hfits => hfull (.inl hfits)
  have hwf := (filled_spec h (Nat.le_of_lt hmore)).1
  rw [readFd_more h hmore, append_throws hwf (filled_fits h hmore (List.length_take_le ..))
    fun hroom => hfull ((filled_hasRoom h hmore).mp hroom)]
  rfl

end Vectors

/-- **`read_fd` is an append of what was read.** Whatever the kernel hands over of what it has: if
there is room, the bytes are behind the readable ones and the indices are in order; if not, `resize`
throws. An error leaves the buffer as it is, and no byte read is the end of the stream. -/
theorem readFdVectors_spec {b : Buffer} (h : b.Wf) :
    extraSize ≤ b.offered ∧ (∀ e, b.readFdVectors (.fails e) = .ok (b, .error e)) ∧
      ∀ bytes got, bytes.take b.offered = got →
        (b.TakesIn got.length → ∃ b', b.readFdVectors (.received bytes) = .ok (b', .ok got.length) ∧
          b'.readable = b.readable ++ got ∧ b'.Wf) ∧
        (¬ b.TakesIn got.length → b.readFdVectors (.received bytes) = .error .lengthError) ∧
        (got.length = 0 ↔ bytes = []) := by
  refine ⟨extraSize_le_offered h, fun _ => rfl, ?_⟩
  rintro bytes _ rfl
  refine ⟨fun htakes => ?_, fun hfull => ?_, ?_⟩
  · obtain ⟨b', hb⟩ := readFd_returns h htakes
    obtain ⟨hwf, hread, -, -⟩ := readFd_ok h hb
    rw [received_eq h] at hread
    exact ⟨b', (readFdVectors_eq h _).trans hb, hread, hwf⟩
  · rw [readFdVectors_eq h]
    exact readFd_throws h hfull
  · have hoffered := extraSize_le_offered h
    have hextra : extraSize = 65536 := rfl
    rw [List.length_take, ← List.length_eq_zero_iff]
    omega

/-- More than the free space and less than `extrabuf`: the vector grows by what has come into that. -/
theorem readFdVectors_spec_grows : ∃ b',
    readFdVectors ⟨[0, 0, 0, 0, 0, 0, 0, 0, 1, 2, 0], 8, 10⟩ (.received [3, 4, 5]) = .ok (b', .ok 3) ∧
      b'.readable = [1, 2, 3, 4, 5] ∧ b'.Wf := by
  have hwf : Wf ⟨[0, 0, 0, 0, 0, 0, 0, 0, 1, 2, 0], 8, 10⟩ := ⟨by decide, by decide, by decide, by decide⟩
  obtain ⟨hoffered, -, hread⟩ := readFdVectors_spec hwf
  have htaken : [3, 4, 5].take (offered ⟨[0, 0, 0, 0, 0, 0, 0, 0, 1, 2, 0], 8, 10⟩) = [(3 : UInt8), 4, 5] :=
    List.take_of_length_le (Nat.le_trans (by decide) hoffered)
  exact (hread [3, 4, 5] [3, 4, 5] htaken).1 (by decide)

/-- A buffer that is full of unread bytes up to `max_size` has no room for one more. -/
theorem read_without_room : ¬ ∀ (b : Buffer) (bytes : Bytes), b.Wf →
    ∃ b', b.readFdVectors (.received bytes) = .ok (b', .ok (bytes.take b.offered).length) := by
  intro h
  obtain ⟨b, hb⟩ : ∃ b : Buffer, b = ⟨List.replicate maxSize 0, cheapPrepend, maxSize⟩ := ⟨_, rfl⟩
  have hsize : b.buf.length = maxSize := by
    rw [hb]
    exact List.length_replicate
  have hreader : b.readerIndex = cheapPrepend := by rw [hb]
  have hwriter : b.writerIndex = maxSize := by rw [hb]
  have hwf : b.Wf := by
    refine ⟨Nat.le_of_eq hreader.symm, ?_, by omega, Nat.le_of_eq hsize⟩
    rw [hreader, hwriter]
    decide
  have hnone : b.writableBytes = 0 := by
    rw [writableBytes_eq hwf]
    omega
  have htaken : [1].take b.offered = [(1 : UInt8)] :=
    List.take_of_length_le (Nat.le_trans (by decide) (extraSize_le_offered hwf))
  have hfull : ¬ b.TakesIn ([1].take b.offered : Bytes).length := by
    rw [htaken, TakesIn, hnone, hsize, hreader]
    decide
  obtain ⟨b', hret⟩ := h b [1] hwf
  rw [readFdVectors_eq hwf, readFd_throws hwf hfull] at hret
  cases hret

end Buffer

end Caimr.Net
