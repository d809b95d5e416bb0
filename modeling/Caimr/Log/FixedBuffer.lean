import Mathlib.Algebra.Order.Ring.Int
import Caimr.Lib.Window

/-! `log/fixedbuffer.h`. An array and a pointer into it. An access outside the array and a pointer
behind its end have no result here, so that what returns has stayed inside. -/
namespace Caimr.Log
open Window

/-- The characters of a text. -/
abbrev Bytes := List UInt8

/-- `static_cast<size_t>` of an `int`. -/
def toSize (n : Int) : Nat := (n % 2 ^ 64).toNat

theorem toSize_ofNat {n : Nat} (h : n < 2 ^ 64) : toSize n = n := by
  unfold toSize
  omega

/-! ### Arrays -/

/-- `char[n]`. -/
@[ext] structure CharArray (n : Nat) where
  bytes : Bytes
  length_bytes : bytes.length = n
deriving DecidableEq, Repr

namespace CharArray
variable {n : Nat}

/-- The bytes `[i, i + len)`. -/
def load (m : CharArray n) (i len : Nat) : Option Bytes :=
  if i + len ≤ n then some (window m.bytes i (i + len)) else none

/-- `data` goes to the places from `i` on. -/
def store (m : CharArray n) (i : Nat) (data : Bytes) : Option (CharArray n) :=
  if h : i + data.length ≤ n then
    some ⟨splice m.bytes i data, by rw [length_splice (by rw [m.length_bytes]; exact h), m.length_bytes]⟩
  else none

theorem store_spec (m : CharArray n) (i : Nat) (data : Bytes) (h : i + data.length ≤ n) :
    ∃ m', m.store i data = some m' ∧ m'.bytes = splice m.bytes i data := by
  rw [store, dif_pos h]
  exact ⟨_, rfl, rfl⟩

theorem load_spec (m : CharArray n) {i len : Nat} (h : i + len ≤ n) :
    m.load i len = some (window m.bytes i (i + len)) := if_pos h

end CharArray

/-! ### The buffer -/

/-- `SIZE` is an `int`, so `SIZE < 2 ^ 31`; the pointer is within the array or at its end. -/
@[ext] structure FixedBuffer (SIZE : Nat) where
  data : CharArray SIZE
  cur : Nat
  cur_le : cur ≤ SIZE
deriving DecidableEq, Repr

namespace FixedBuffer
variable {SIZE : Nat}

/-- The constructor; what is in the array has not been initialized. -/
def create (data : CharArray SIZE) : FixedBuffer SIZE := ⟨data, 0, Nat.zero_le _⟩

def size (b : FixedBuffer SIZE) : Int := SIZE - b.cur
def used (b : FixedBuffer SIZE) : Int := b.cur

def add (b : FixedBuffer SIZE) (len : Nat) : Option (FixedBuffer SIZE) :=
  if h : b.cur + len ≤ SIZE then some ⟨b.data, b.cur + len, h⟩ else none

/-- `append` of the first `len` bytes at `buf`. -/
def append (b : FixedBuffer SIZE) (buf : Bytes) (len : Nat) : Option (FixedBuffer SIZE) :=
  if len < toSize b.size then do
    let src ← if len ≤ buf.length then some (buf.take len) else none
    let data ← b.data.store b.cur src
    add {b with data := data} len
  else some b

def reset (b : FixedBuffer SIZE) : FixedBuffer SIZE := ⟨b.data, 0, Nat.zero_le _⟩

def toString (b : FixedBuffer SIZE) : Option Bytes := b.data.load 0 (toSize b.used)

/-- What has been written. -/
def contents (b : FixedBuffer SIZE) : Bytes := b.data.bytes.take b.cur

section Spec
variable {b : FixedBuffer SIZE}

theorem length_contents (b : FixedBuffer SIZE) : b.contents.length = b.cur := by
  rw [contents, List.length_take, b.data.length_bytes]
  exact Nat.min_eq_left b.cur_le

/-- `static_cast<size_t>(size())`. -/
theorem toSize_size (hSIZE : SIZE < 2 ^ 31) : toSize b.size = SIZE - b.cur := by
  have hcur := b.cur_le
  have hsize : b.size = ((SIZE - b.cur : Nat) : Int) := by
    rw [size]
    omega
  rw [hsize]
  exact toSize_ofNat (by omega)

theorem toString_spec (hSIZE : SIZE < 2 ^ 31) : b.toString = some b.contents := by
  have hcur := b.cur_le
  have hused : toSize b.used = b.cur := toSize_ofNat (by omega)
  rw [toString, hused, CharArray.load_spec _ (by omega), Nat.zero_add, window, List.drop_zero, contents]

/-- What has been written behind the contents, and is counted, is added to them; a rest that is not
counted is not. -/
theorem add_spec {data : CharArray SIZE} {text rest : Bytes}
    (hbytes : data.bytes = splice b.data.bytes b.cur (text ++ rest)) (hfits : b.cur + text.length ≤ SIZE) :
    ∃ b', add {b with data := data} text.length = some b' ∧ b'.contents = b.contents ++ text := by
  refine ⟨⟨data, b.cur + text.length, hfits⟩, dif_pos hfits, ?_⟩
  show data.bytes.take (b.cur + text.length) = b.data.bytes.take b.cur ++ text
  rw [hbytes]
  exact take_splice_append (by rw [b.data.length_bytes]; exact b.cur_le)

/-- With more room than it takes, `append` adds the bytes. -/
theorem append_kept (hSIZE : SIZE < 2 ^ 31) {buf : Bytes} {len : Nat} (hlen : len ≤ buf.length)
    (hroom : len < SIZE - b.cur) :
    ∃ b', b.append buf len = some b' ∧ b'.contents = b.contents ++ buf.take len := by
  have htake : (buf.take len).length = len := by
    rw [List.length_take]
    exact Nat.min_eq_left hlen
  have hfits : b.cur + (buf.take len).length ≤ SIZE := by omega
  obtain ⟨data, hdata, hbytes⟩ := b.data.store_spec b.cur (buf.take len) hfits
  rw [← List.append_nil (buf.take len)] at hbytes
  obtain ⟨b', hb', hcontents⟩ := add_spec hbytes hfits
  rw [htake] at hb'
  refine ⟨b', ?_, hcontents⟩
  rw [append, if_pos (by rw [toSize_size hSIZE]; exact hroom), if_pos hlen]
  show ((b.data.store b.cur (buf.take len)) >>= _) = _
  rw [hdata]
  exact hb'

/-- Without, it does nothing. -/
theorem append_dropped (hSIZE : SIZE < 2 ^ 31) {buf : Bytes} {len : Nat} (hroom : ¬ len < SIZE - b.cur) :
    b.append buf len = some b := by
  rw [append, if_neg (by rw [toSize_size hSIZE]; exact hroom)]

end Spec

end FixedBuffer

end Caimr.Log
