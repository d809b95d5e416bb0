import Caimr.Lib.Decimal
import Caimr.Log.FixedBuffer

/-! `log/logstream.h` and `log/logstream.cpp`: what can be put into a stream, and how. Text goes
through `append`, which checks; a number is written behind the contents first and counted
then, and what is checked is that 48 bytes are left. -/
namespace Caimr.Log
open Window

def kbBufferSize : Nat := 1024
def maxNumSize : Nat := 48

/-! ### What is put in -/

/-- The integer types, as they are on a 64-bit Linux. -/
inductive IntType where
  | short
  | unsignedShort
  | int
  | unsignedInt
  | long
  | unsignedLong
  | longLong
  | unsignedLongLong
deriving DecidableEq, Repr

namespace IntType

def bits : IntType → Nat
  | short | unsignedShort => 16
  | int | unsignedInt => 32
  | long | unsignedLong | longLong | unsignedLongLong => 64

def signed : IntType → Bool
  | short | int | long | longLong => true
  | unsignedShort | unsignedInt | unsignedLong | unsignedLongLong => false

def min (t : IntType) : Int := if t.signed then -2 ^ (t.bits - 1) else 0
def max (t : IntType) : Int := if t.signed then 2 ^ (t.bits - 1) - 1 else 2 ^ t.bits - 1

/-- The values of the type. -/
def Value (t : IntType) : Type := {v : Int // t.min ≤ v ∧ v ≤ t.max}

/-- `static_cast` to the type. -/
def cast (t : IntType) (v : Int) : Int := (v - t.min) % 2 ^ t.bits + t.min

/-- The type that `operator<<` comes to. -/
def formatted : IntType → IntType
  | short => int
  | unsignedShort => unsignedInt
  | t => t

end IntType

/-- What a `const char*` points to, from there to the end of its array. -/
structure CString where
  memory : Bytes
  terminated : 0 ∈ memory

def strlen (str : CString) : Nat := str.memory.idxOf 0

/-- An insertion, for any types of `float`s and `double`s. -/
inductive Item (F D : Type) where
  | integer (t : IntType) (v : t.Value)
  | float (v : F)
  | double (v : D)
  | char (c : UInt8)
  /-- `const void*`; a null pointer is `none`. -/
  | pointer (data : Option CString)
  | cString (str : Option CString)
  | unsignedCString (str : Option CString)
  | string (str : Bytes)
  /-- The contents of another buffer. -/
  | fbuffer (buf : FixedBuffer kbBufferSize)
  /-- The contents of the stream's own buffer. -/
  | ownBuffer
  /-- A `gtemplate` of the first `len` bytes of `data`. -/
  | gtemplate (data : Bytes) (len : Int)
  /-- The member function `append`. -/
  | append (data : Bytes) (len : Int)

/-! ### Numbers -/

/-- `digits`. -/
def digits : Bytes := [57, 56, 55, 54, 53, 52, 51, 50, 49, 48, 49, 50, 51, 52, 53, 54, 55, 56, 57]

/-- `zero[remainder]`. -/
def zero (remainder : Int) : Option UInt8 := if 0 ≤ 9 + remainder then digits[(9 + remainder).toNat]? else none

theorem quotient_lt {num : Int} (h : num.tdiv 10 ≠ 0) : (num.tdiv 10).natAbs < num.natAbs := by
  have hne := Int.natAbs_ne_zero.mpr h
  rw [Int.natAbs_tdiv] at hne ⊢
  change num.natAbs / 10 < num.natAbs
  change num.natAbs / 10 ≠ 0 at hne
  omega

/-- The loop of `format_integer`, from `cur` on: where it has come to in the end. No step of it leaves
the range of its type. -/
def writeDigits {n : Nat} (m : CharArray n) (cur : Nat) (num : Int) : Option (CharArray n × Nat) := do
  let c ← zero (num.tmod 10)
  let m ← m.store cur [c]
  if num.tdiv 10 ≠ 0 then writeDigits m (cur + 1) (num.tdiv 10) else some (m, cur + 1)
termination_by num.natAbs
decreasing_by exact quotient_lt ‹_›

/-- The sign behind the digits. -/
def writeSign {n : Nat} (m : CharArray n) (cur : Nat) (negative : Bool) : Option (CharArray n × Nat) :=
  if negative then (m.store cur [Decimal.minus]).map fun m => (m, cur + 1) else some (m, cur)

/-- `std::reverse(start, stop)`. -/
def CharArray.reverse {n : Nat} (m : CharArray n) (start stop : Nat) : Option (CharArray n) := do
  let text ← m.load start (stop - start)
  m.store start text.reverse

structure LogStream where
  buffer : FixedBuffer kbBufferSize
deriving DecidableEq, Repr

namespace LogStream

/-- A stream that has just been constructed. -/
def create (data : CharArray kbBufferSize) : LogStream := ⟨.create data⟩

def reset (s : LogStream) : LogStream := ⟨s.buffer.reset⟩

def formatInteger (s : LogStream) (num : Int) : Option LogStream :=
  if (maxNumSize : Int) ≤ s.buffer.size then do
    let start := s.buffer.cur
    let (data, cur) ← writeDigits s.buffer.data start num
    let (data, cur) ← writeSign data cur (num < 0)
    let data ← data.reverse start cur
    let buffer ← FixedBuffer.add {s.buffer with data := data} (cur - start)
    return ⟨buffer⟩
  else some s

/-- `snprintf` of a text with room for 48 characters: what does not fit with the NUL behind it is cut
off, but counted. -/
def formatDouble (s : LogStream) (text : Bytes) : Option LogStream :=
  if (maxNumSize : Int) ≤ s.buffer.size then do
    let data ← s.buffer.data.store s.buffer.cur (text.take (maxNumSize - 1) ++ [0])
    let buffer ← FixedBuffer.add {s.buffer with data := data} text.length
    return ⟨buffer⟩
  else some s

/-! ### Text -/

def append (s : LogStream) (data : Bytes) (len : Nat) : Option LogStream := (s.buffer.append data len).map LogStream.mk

/-- `(null)`. -/
def nullText : Bytes := [40, 110, 117, 108, 108, 41]

def insertCString (s : LogStream) : Option CString → Option LogStream
  | some str => s.append str.memory (strlen str)
  | none => s.append nullText 6

def insertString (s : LogStream) (str : Bytes) : Option LogStream := s.append str str.length

section Doubles
variable {F D : Type} (widen : F → D) (text : D → Bytes)

/-- `operator<<`, where `text` is what `%.12g` makes of a `double`. -/
def insert (s : LogStream) : Item F D → Option LogStream
  | .integer t v => s.formatInteger (t.formatted.cast v.val)
  | .float v => s.formatDouble (text (widen v))
  | .double v => s.formatDouble (text v)
  | .char c => s.append [c] 1
  | .pointer str | .cString str | .unsignedCString str => s.insertCString str
  | .string str => s.insertString str
  | .fbuffer buf => buf.toString.bind s.insertString
  | .ownBuffer => s.buffer.toString.bind s.insertString
  | .gtemplate data len | .append data len => s.append data (toSize len)

/-- What is done with a stream. -/
inductive Op (F D : Type) where
  | insert (i : Item F D)
  | reset

def step (s : LogStream) : Op F D → Option LogStream
  | .insert i => s.insert widen text i
  | .reset => some s.reset

end Doubles

end LogStream

end Caimr.Log
