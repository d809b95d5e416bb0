import Caimr.Lib.Window
import Caimr.Net.Syscall

/-! `net/buffer.h` and `net/buffer.cpp`. A vector with two indices into it: the bytes
between them are the readable ones, those in front are spent, those behind are
free. Every access to the vector is checked here, and an access outside it is a
fault; `append_ok` says that what an append that returns has done is an append. -/
namespace Caimr.Net
open Window

/-! ### Access to the vector -/

/-- The bytes `[i, i + len)` of a vector, as `std::string(p, len)` or `std::copy` read them. -/
def readSpan (v : Bytes) (i len : Nat) : Except Fault Bytes :=
  if i + len ≤ v.length then .ok (window v i (i + len)) else .error .outOfBounds

/-- `std::copy` of `data` into a vector at position `i`. -/
def writeSpan (v : Bytes) (i : Nat) (data : Bytes) : Except Fault Bytes :=
  if i + data.length ≤ v.length then .ok (splice v i data) else .error .outOfBounds

/-- `std::vector::resize`, new elements being zero. -/
def resizeVector (v : Bytes) (n : Nat) : Except Fault Bytes :=
  if n ≤ maxSize then .ok (resize v n 0) else .error .lengthError

theorem readSpan_ok {v r : Bytes} {i len : Nat} :
    readSpan v i len = .ok r ↔ i + len ≤ v.length ∧ r = window v i (i + len) := by
  unfold readSpan
  split
  · simp_all [eq_comm]
  · simp only [reduceCtorEq, false_iff, not_and]
    intro h
    contradiction

theorem writeSpan_ok {v r data : Bytes} {i : Nat} :
    writeSpan v i data = .ok r ↔ i + data.length ≤ v.length ∧ r = splice v i data := by
  unfold writeSpan
  split
  · simp_all [eq_comm]
  · simp only [reduceCtorEq, false_iff, not_and]
    intro h
    contradiction

theorem resizeVector_ok {v r : Bytes} {n : Nat} :
    resizeVector v n = .ok r ↔ n ≤ maxSize ∧ r = resize v n 0 := by
  unfold resizeVector
  split
  · simp_all [eq_comm]
  · simp only [reduceCtorEq, false_iff, not_and]
    intro h
    contradiction

/-! ### The buffer -/

structure Buffer where
  buf : Bytes
  readerIndex : Nat
  writerIndex : Nat
deriving DecidableEq, Repr, Inhabited

def cheapPrepend : Nat := 8
def initialSize : Nat := 1024

namespace Buffer

/-- `buffer(initial_size)`. -/
def create (initial : Nat) : Except Fault Buffer := do
  return ⟨← resizeVector [] (sizeAdd cheapPrepend initial), cheapPrepend, cheapPrepend⟩

def readableBytes (b : Buffer) : Nat := sizeSub b.writerIndex b.readerIndex
def writableBytes (b : Buffer) : Nat := sizeSub b.buf.length b.writerIndex
def prependableBytes (b : Buffer) : Nat := b.readerIndex

def retrieveAll (b : Buffer) : Buffer :=
  {b with readerIndex := cheapPrepend, writerIndex := cheapPrepend}

def retrieve (b : Buffer) (len : Nat) : Buffer :=
  if len < b.readableBytes then {b with readerIndex := sizeAdd b.readerIndex len}
  else b.retrieveAll

def retrieveAsString (b : Buffer) (len : Nat) : Except Fault (Bytes × Buffer) := do
  let result ← readSpan b.buf b.readerIndex len
  return (result, b.retrieve len)

def retrieveAllAsString (b : Buffer) : Except Fault (Bytes × Buffer) :=
  b.retrieveAsString b.readableBytes

/-- The first branch of `make_space`. -/
def grow (b : Buffer) (len : Nat) : Except Fault Buffer := do
  let buf ← resizeVector b.buf (sizeAdd b.writerIndex len)
  return {b with buf := buf}

/-- The second branch of `make_space`: the readable bytes move to the front. -/
def compact (b : Buffer) : Except Fault Buffer := do
  let readable := b.readableBytes
  let moved ← readSpan b.buf b.readerIndex readable
  let buf ← writeSpan b.buf cheapPrepend moved
  return ⟨buf, cheapPrepend, sizeAdd cheapPrepend readable⟩

def makeSpace (b : Buffer) (len : Nat) : Except Fault Buffer :=
  if sizeAdd b.writableBytes b.prependableBytes < sizeAdd len cheapPrepend then b.grow len
  else b.compact

def ensureWritableBytes (b : Buffer) (len : Nat) : Except Fault Buffer :=
  if b.writableBytes < len then b.makeSpace len else .ok b

def append (b : Buffer) (data : Bytes) : Except Fault Buffer := do
  let b ← b.ensureWritableBytes data.length
  let buf ← writeSpan b.buf b.writerIndex data
  return {b with buf := buf, writerIndex := sizeAdd b.writerIndex data.length}

/-- `sizeof(extrabuf)` in `read_fd`. -/
def extraSize : Nat := 65536

/-- `read_fd`, given what the kernel has for `::readv`. The kernel fills the free space
of the vector first and `extrabuf` with the rest; the second component is the result,
or what is stored in `*save_errno`. -/
def readFd (b : Buffer) (r : ReadResult) : Except Fault (Buffer × Except Errno Nat) :=
  let writable := b.writableBytes
  let offered := if writable < extraSize then writable + extraSize else writable
  match r with
  | .fails e => .ok (b, .error e)
  | .received bytes => do
    let got := bytes.take offered
    let buf ← writeSpan b.buf b.writerIndex (got.take writable)
    if got.length ≤ writable then
      return ({b with buf := buf, writerIndex := sizeAdd b.writerIndex got.length}, .ok got.length)
    else
      let b ← append {b with buf := buf, writerIndex := buf.length} (got.drop writable)
      return (b, .ok got.length)

/-- `write_fd`: the bytes offered to `::write`, and what it returns or leaves in
`*save_errno`. -/
def writeFd (b : Buffer) (w : WriteResult) : Except Fault (Bytes × Except Errno Nat) := do
  let data ← readSpan b.buf b.readerIndex b.readableBytes
  return (data, w.returned b.readableBytes)

/-! ### Well-formed buffers -/

/-- The readable bytes. -/
def readable (b : Buffer) : Bytes := window b.buf b.readerIndex b.writerIndex

/-- What the indices of a buffer satisfy, and what `std::vector` guarantees of its size. -/
structure Wf (b : Buffer) : Prop where
  prepend : cheapPrepend ≤ b.readerIndex
  ordered : b.readerIndex ≤ b.writerIndex
  inside : b.writerIndex ≤ b.buf.length
  small : b.buf.length ≤ maxSize

theorem Wf.index_lt {b : Buffer} (h : b.Wf) : b.buf.length < 2 ^ 63 := by
  have := h.small
  simp only [maxSize] at this
  omega

theorem readableBytes_eq {b : Buffer} (h : b.Wf) : b.readableBytes = b.writerIndex - b.readerIndex := by
  have := h.index_lt
  have := h.inside
  exact sizeSub_eq h.ordered (by omega)

theorem writableBytes_eq {b : Buffer} (h : b.Wf) : b.writableBytes = b.buf.length - b.writerIndex := by
  have := h.index_lt
  exact sizeSub_eq h.inside (by omega)

theorem length_readable {b : Buffer} (h : b.Wf) : b.readable.length = b.readableBytes := by
  rw [readableBytes_eq h]
  exact length_window h.inside

theorem create_spec (initial : Nat) (h : cheapPrepend + initial ≤ maxSize) :
    ∃ b, create initial = .ok b ∧ b.Wf ∧ b.readable = [] ∧ b.buf.length = cheapPrepend + initial ∧
      b.writerIndex = cheapPrepend := by
  have hsize : sizeAdd cheapPrepend initial = cheapPrepend + initial := by
    apply sizeAdd_eq
    simp only [maxSize] at h
    omega
  have hlen : (resize ([] : Bytes) (cheapPrepend + initial) 0).length = cheapPrepend + initial :=
    length_resize ..
  refine ⟨⟨resize [] (cheapPrepend + initial) 0, cheapPrepend, cheapPrepend⟩, ?_, ?_, ?_, hlen, rfl⟩
  · simp [create, hsize, resizeVector, h, pure, Except.pure, bind, Except.bind]
  · exact ⟨Nat.le_refl _, Nat.le_refl _, by simp only [hlen]; omega, by simp only [hlen]; exact h⟩
  · exact window_self ..

/-! ### Taking bytes out -/

theorem retrieveAll_wf {b : Buffer} (h : b.Wf) : b.retrieveAll.Wf := by
  have h₁ := h.prepend
  have h₂ := h.ordered
  have h₃ := h.inside
  exact ⟨Nat.le_refl _, Nat.le_refl _, by simp only [retrieveAll]; omega, h.small⟩

@[simp] theorem retrieveAll_readable (b : Buffer) : b.retrieveAll.readable = [] :=
  window_self ..

/-- Short of everything, `retrieve` moves the reader. -/
theorem retrieve_of_lt {b : Buffer} (h : b.Wf) {len : Nat} (hlen : len < b.readableBytes) :
    b.retrieve len = {b with readerIndex := b.readerIndex + len} := by
  have := h.index_lt
  have := h.inside
  unfold retrieve
  rw [readableBytes_eq h] at hlen ⊢
  rw [if_pos hlen, sizeAdd_eq (by omega)]

theorem retrieve_wf {b : Buffer} (h : b.Wf) (len : Nat) : (b.retrieve len).Wf := by
  by_cases hlen : len < b.readableBytes
  · have h₁ := h.prepend
    rw [retrieve_of_lt h hlen]
    rw [readableBytes_eq h] at hlen
    exact ⟨by simp only; omega, by simp only; omega, h.inside, h.small⟩
  · rw [retrieve, if_neg hlen]
    exact retrieveAll_wf h

/-- `retrieve` drops bytes from the front, all of them if it is asked for more. -/
theorem retrieve_readable {b : Buffer} (h : b.Wf) (len : Nat) :
    (b.retrieve len).readable = b.readable.drop len := by
  by_cases hlen : len < b.readableBytes
  · rw [retrieve_of_lt h hlen]
    exact (window_drop ..).symm
  · rw [retrieve, if_neg hlen, retrieveAll_readable, List.drop_of_length_le]
    rw [length_readable h]
    omega

theorem retrieve_writer {b : Buffer} (h : b.Wf) (len : Nat) :
    (b.retrieve len).writerIndex ≤ b.writerIndex := by
  have h₁ := h.prepend
  have h₂ := h.ordered
  unfold retrieve
  split
  · exact Nat.le_refl _
  · simp only [retrieveAll]
    omega

theorem retrieveAsString_spec {b : Buffer} (h : b.Wf) {len : Nat} (hlen : len ≤ b.readableBytes) :
    b.retrieveAsString len = .ok (b.readable.take len, b.retrieve len) := by
  have h₃ := h.inside
  rw [readableBytes_eq h] at hlen
  have hspan : readSpan b.buf b.readerIndex len = .ok (b.readable.take len) := by
    apply readSpan_ok.mpr
    have h₂ := h.ordered
    exact ⟨by omega, window_take (by omega)⟩
  simp [retrieveAsString, hspan, pure, Except.pure, bind, Except.bind]

theorem writeFd_ok {b : Buffer} (h : b.Wf) {w : WriteResult} {data : Bytes} {answer : Except Errno Nat}
    (hb : b.writeFd w = .ok (data, answer)) :
    data = b.readable ∧ answer = w.returned b.readable.length := by
  obtain ⟨data', hspan, hb⟩ := bind_ok.mp hb
  obtain ⟨-, rfl⟩ := readSpan_ok.mp hspan
  have h₂ := h.ordered
  cases hb
  refine ⟨?_, by rw [length_readable h]⟩
  rw [readableBytes_eq h, show b.readerIndex + (b.writerIndex - b.readerIndex) = b.writerIndex by omega]
  rfl

/-! ### Making room -/

/-- A growth that returns did not wrap around if it leaves the room it was asked for. -/
theorem grow_ok {b b' : Buffer} (h : b.Wf) {len : Nat} (hb : b.grow len = .ok b')
    (hroom : b'.writerIndex + len ≤ b'.buf.length) : b'.Wf ∧ b'.readable = b.readable := by
  obtain ⟨v, hv, hb⟩ := bind_ok.mp hb
  obtain ⟨hsize, rfl⟩ := resizeVector_ok.mp hv
  have hlength : (resize b.buf (sizeAdd b.writerIndex len) 0).length = sizeAdd b.writerIndex len :=
    length_resize ..
  cases hb
  simp only [hlength] at hroom
  have hstay : b.writerIndex ≤ sizeAdd b.writerIndex len := by omega
  refine ⟨⟨h.prepend, h.ordered, ?_, ?_⟩, window_resize 0 hstay h.inside⟩
  · simp only [hlength]
    exact hstay
  · simp only [hlength]
    exact hsize

theorem grow_spec {b : Buffer} {len : Nat} (hlen : b.writerIndex + len ≤ maxSize) :
    ∃ b', b.grow len = .ok b' ∧ b'.writerIndex = b.writerIndex ∧
      b'.buf.length = b.writerIndex + len := by
  have hsum : sizeAdd b.writerIndex len = b.writerIndex + len := by
    apply sizeAdd_eq
    simp only [maxSize] at hlen
    omega
  have hv : resizeVector b.buf (sizeAdd b.writerIndex len) = .ok (resize b.buf (b.writerIndex + len) 0) := by
    rw [hsum]
    exact resizeVector_ok.mpr ⟨hlen, rfl⟩
  refine ⟨{b with buf := resize b.buf (b.writerIndex + len) 0}, ?_, rfl, length_resize ..⟩
  rw [grow, hv]
  rfl

/-- Moving the readable bytes to the front always returns, keeps them and loses no room. -/
theorem compact_spec {b : Buffer} (h : b.Wf) :
    ∃ b', b.compact = .ok b' ∧ b'.Wf ∧ b'.readable = b.readable ∧ b'.buf.length = b.buf.length ∧
      b'.writerIndex = cheapPrepend + b.readableBytes := by
  have h₁ := h.prepend
  have h₂ := h.ordered
  have h₃ := h.inside
  have h₄ := h.index_lt
  have hcount := readableBytes_eq h
  have hlen := length_readable h
  have hsum : sizeAdd cheapPrepend b.readableBytes = cheapPrepend + b.readableBytes := by
    apply sizeAdd_eq
    simp only [cheapPrepend] at h₁ ⊢
    omega
  have hspan : readSpan b.buf b.readerIndex b.readableBytes = .ok b.readable := by
    apply readSpan_ok.mpr
    refine ⟨by omega, ?_⟩
    rw [show b.readerIndex + b.readableBytes = b.writerIndex by omega]
    rfl
  have hmove : writeSpan b.buf cheapPrepend b.readable = .ok (splice b.buf cheapPrepend b.readable) :=
    writeSpan_ok.mpr ⟨by omega, rfl⟩
  have hlength : (splice b.buf cheapPrepend b.readable).length = b.buf.length := length_splice (by omega)
  refine ⟨⟨splice b.buf cheapPrepend b.readable, cheapPrepend, cheapPrepend + b.readableBytes⟩,
    ?_, ⟨Nat.le_refl _, Nat.le_add_right .., ?_, ?_⟩, ?_, hlength, rfl⟩
  · rw [compact, hspan]
    show (writeSpan b.buf cheapPrepend b.readable >>= _) = _
    rw [hmove, hsum]
    rfl
  · simp only [hlength]
    omega
  · simp only [hlength]
    exact h.small
  · show window (splice b.buf cheapPrepend b.readable) cheapPrepend (cheapPrepend + b.readableBytes) = _
    rw [← hlen]
    exact window_splice (by omega)

/-- The free space and the spent bytes are bytes of the vector, so that their sum does not wrap around. -/
theorem space_eq {b : Buffer} (h : b.Wf) :
    sizeAdd b.writableBytes b.prependableBytes = b.writableBytes + b.readerIndex := by
  have h₂ := h.ordered
  have h₃ := h.inside
  have h₄ := h.index_lt
  have hfree := writableBytes_eq h
  apply sizeAdd_eq
  simp only [prependableBytes]
  omega

/-- With room to name in a `size_t`, `ensure_writable_bytes` returns, keeps the
readable bytes and makes the room. -/
theorem ensureWritableBytes_spec {b : Buffer} (h : b.Wf) {len : Nat}
    (hlen : b.writerIndex + len ≤ maxSize) :
    ∃ b', b.ensureWritableBytes len = .ok b' ∧ b'.Wf ∧ b'.readable = b.readable ∧
      len ≤ b'.writableBytes ∧ b'.writerIndex ≤ b.writerIndex ∧
      b'.buf.length ≤ max b.buf.length (b.writerIndex + len) := by
  have h₁ := h.prepend
  have h₂ := h.ordered
  have h₃ := h.inside
  have h₄ := h.index_lt
  have hfree := writableBytes_eq h
  have hlen' : b.writerIndex + len < 2 ^ 63 := by
    simp only [maxSize] at hlen
    omega
  have hneed : sizeAdd len cheapPrepend = len + cheapPrepend := by
    apply sizeAdd_eq
    simp only [cheapPrepend]
    omega
  rw [ensureWritableBytes]
  by_cases hroom : b.writableBytes < len
  · rw [if_pos hroom, makeSpace, space_eq h, hneed]
    by_cases hgrow : b.writableBytes + b.readerIndex < len + cheapPrepend
    · rw [if_pos hgrow]
      obtain ⟨b', hb, hw, hsize⟩ := grow_spec hlen
      obtain ⟨hwf, hread⟩ := grow_ok h hb (by omega)
      exact ⟨b', hb, hwf, hread, by rw [writableBytes_eq hwf]; omega, by omega, by omega⟩
    · rw [if_neg hgrow]
      obtain ⟨b', hb, hwf, hread, hsize, hw⟩ := compact_spec h
      have hcount := readableBytes_eq h
      exact ⟨b', hb, hwf, hread, by rw [writableBytes_eq hwf]; omega, by omega, by omega⟩
  · rw [if_neg hroom]
    exact ⟨b, rfl, h, rfl, by omega, Nat.le_refl _, by omega⟩

/-! ### Appending -/

/-- Whatever the length asked for, room that `ensure_writable_bytes` leaves inside the
vector is room behind the same readable bytes. -/
theorem ensureWritableBytes_ok {b b' : Buffer} (h : b.Wf) {len : Nat}
    (hb : b.ensureWritableBytes len = .ok b') (hroom : b'.writerIndex + len ≤ b'.buf.length) :
    b'.Wf ∧ b'.readable = b.readable := by
  unfold ensureWritableBytes makeSpace at hb
  split at hb
  · split at hb
    · exact grow_ok h hb hroom
    · obtain ⟨c, hc, hwf, hread, -, -⟩ := compact_spec h
      cases hc.symm.trans hb
      exact ⟨hwf, hread⟩
  · cases hb
    exact ⟨h, rfl⟩

/-- An append that returns has added the data behind the readable bytes. -/
theorem append_ok {b b' : Buffer} (h : b.Wf) {data : Bytes} (hb : b.append data = .ok b') :
    b'.Wf ∧ b'.readable = b.readable ++ data := by
  obtain ⟨c, hc, hb⟩ := bind_ok.mp hb
  obtain ⟨v, hv, hb⟩ := bind_ok.mp hb
  obtain ⟨hroom, rfl⟩ := writeSpan_ok.mp hv
  obtain ⟨hwf, hread⟩ := ensureWritableBytes_ok h hc hroom
  have hlen := hwf.index_lt
  have h₂ := hwf.ordered
  have h₃ := hwf.inside
  have hsum : sizeAdd c.writerIndex data.length = c.writerIndex + data.length := sizeAdd_eq (by omega)
  have hlength : (splice c.buf c.writerIndex data).length = c.buf.length := length_splice hroom
  cases hb
  refine ⟨⟨hwf.prepend, ?_, ?_, ?_⟩, ?_⟩
  · simp only [hsum]
    omega
  · simp only [hsum, hlength]
    exact hroom
  · simp only [hlength]
    exact hwf.small
  · show window _ c.readerIndex (sizeAdd c.writerIndex data.length) = _
    rw [hsum, ← window_append h₂ (Nat.le_add_right ..), window_splice h₃,
      window_splice_before (Nat.le_refl _) h₃, ← hread]
    rfl

theorem append_spec {b : Buffer} (h : b.Wf) {data : Bytes} (hlen : b.writerIndex + data.length ≤ maxSize) :
    ∃ b', b.append data = .ok b' ∧ b'.Wf ∧ b'.readable = b.readable ++ data ∧
      b'.writerIndex ≤ b.writerIndex + data.length ∧
      b'.buf.length ≤ max b.buf.length (b.writerIndex + data.length) := by
  obtain ⟨c, hc, hwf, -, hroom, hw, hsize⟩ := ensureWritableBytes_spec h hlen
  have hin : c.writerIndex + data.length ≤ c.buf.length := by
    have := hwf.inside
    rw [writableBytes_eq hwf] at hroom
    omega
  have hv : writeSpan c.buf c.writerIndex data = .ok (splice c.buf c.writerIndex data) :=
    writeSpan_ok.mpr ⟨hin, rfl⟩
  have happend : b.append data = .ok ⟨splice c.buf c.writerIndex data, c.readerIndex,
      sizeAdd c.writerIndex data.length⟩ := by
    rw [append, hc]
    show (writeSpan c.buf c.writerIndex data >>= _) = _
    rw [hv]
    rfl
  obtain ⟨hwf', hread⟩ := append_ok h happend
  refine ⟨_, happend, hwf', hread, ?_, ?_⟩
  · exact Nat.le_trans (sizeAdd_le ..) (by omega)
  · simp only [length_splice hin]
    exact hsize

/-! ### Reading from the socket -/

/-- The room that `read_fd` offers to `::readv`. -/
def room (b : Buffer) : Nat :=
  if b.writableBytes < extraSize then b.writableBytes + extraSize else b.writableBytes

/-- The bytes `::readv` hands over when it is called for `b`: the first of those the kernel has,
as many as it is offered room for. -/
def received (b : Buffer) : ReadResult → Bytes
  | .fails _ => []
  | .received bytes => bytes.take b.room

/-- A vector filled to its end. -/
theorem fill_ok {b : Buffer} (h : b.Wf) {data v : Bytes} (hv : writeSpan b.buf b.writerIndex data = .ok v) :
    Wf {b with buf := v, writerIndex := b.writerIndex + data.length} ∧
      readable {b with buf := v, writerIndex := b.writerIndex + data.length} = b.readable ++ data := by
  obtain ⟨hroom, rfl⟩ := writeSpan_ok.mp hv
  have h₂ := h.ordered
  have h₃ := h.inside
  have hlength : (splice b.buf b.writerIndex data).length = b.buf.length := length_splice hroom
  refine ⟨⟨h.prepend, by simp only; omega, ?_, ?_⟩, ?_⟩
  · simp only [hlength]
    exact hroom
  · simp only [hlength]
    exact h.small
  · show window _ b.readerIndex (b.writerIndex + data.length) = _
    rw [← window_append h₂ (Nat.le_add_right ..), window_splice h₃, window_splice_before (Nat.le_refl _) h₃]
    rfl

/-- A `read_fd` that returns has added what the kernel handed over behind the readable bytes,
whether it fitted into the vector or went through `extrabuf`. -/
theorem readFd_ok {b b' : Buffer} (h : b.Wf) {r : ReadResult} {answer : Except Errno Nat}
    (hb : b.readFd r = .ok (b', answer)) :
    b'.Wf ∧ b'.readable = b.readable ++ b.received r ∧
      (∀ n, answer = .ok n → (b.received r).length = n) ∧ (∀ e, answer = .error e → b.received r = []) := by
  cases r with
  | fails e =>
    simp only [readFd, Except.ok.injEq, Prod.mk.injEq] at hb
    obtain ⟨rfl, rfl⟩ := hb
    exact ⟨h, (List.append_nil _).symm, nofun, fun _ _ => rfl⟩
  | received bytes =>
    obtain ⟨v, hv, hret⟩ := bind_ok.mp hb
    rw [received, room]
    generalize bytes.take (if b.writableBytes < extraSize then b.writableBytes + extraSize
      else b.writableBytes) = got at hv hret ⊢
    obtain ⟨hwf, hread⟩ := fill_ok h hv
    have hlen := hwf.index_lt
    have hinside := hwf.inside
    have hfree := writableBytes_eq h
    obtain ⟨hroom, hsplice⟩ := writeSpan_ok.mp hv
    have hlength : v.length = b.buf.length := by
      rw [hsplice]
      exact length_splice hroom
    dsimp only at hlen hinside
    split at hret
    · rename_i hfits
      have hall : got.take b.writableBytes = got := List.take_of_length_le hfits
      rw [hall] at hwf hread hinside
      simp only [pure, Except.pure, Except.ok.injEq, Prod.mk.injEq] at hret
      obtain ⟨rfl, rfl⟩ := hret
      rw [sizeAdd_eq (by omega)]
      exact ⟨hwf, hread, fun n hn => by cases hn; rfl, nofun⟩
    · rename_i hmore
      have hfull : (got.take b.writableBytes).length = b.writableBytes := by
        rw [List.length_take]
        omega
      have hend : b.writerIndex + (got.take b.writableBytes).length = v.length := by
        have := h.inside
        omega
      rw [hend] at hwf hread
      obtain ⟨b₁, happ, hret⟩ := bind_ok.mp hret
      simp only [pure, Except.pure, Except.ok.injEq, Prod.mk.injEq] at hret
      obtain ⟨rfl, rfl⟩ := hret
      obtain ⟨hwf', hread'⟩ := append_ok hwf happ
      refine ⟨hwf', ?_, fun n hn => by cases hn; rfl, nofun⟩
      rw [hread', hread, List.append_assoc, List.take_append_drop]

end Buffer

end Caimr.Net
