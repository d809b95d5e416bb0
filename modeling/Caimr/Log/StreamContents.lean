import Caimr.Lib.Transition
import Caimr.Log.FormatInteger

/-! What a stream contains: the texts of the items that were kept, one after the other, each whole.
Whether an item is kept depends on the room that is left and on nothing else, and however
many are put in, there is always at least one byte left. -/
namespace Caimr.Log
open Transition Window

/-! ### The text of an item -/

/-- The characters of a C string. -/
def CString.chars (str : CString) : Bytes := str.memory.take (strlen str)

def charsOrNull : Option CString → Bytes
  | some str => str.chars
  | none => LogStream.nullText

section Doubles
variable {F D : Type} (widen : F → D) (text : D → Bytes)

namespace Item

/-- An item is put in by way of `format_integer` or `snprintf`. -/
def isNumber : Item F D → Bool
  | integer .. | float _ | double _ => true
  | _ => false

/-- The whole text of an item, in a stream with these contents. -/
def rendering (contents : Bytes) : Item F D → Bytes
  | integer _ v => Decimal.decimal v.val
  | float v => text (widen v)
  | double v => text v
  | char c => [c]
  | pointer str | cString str | unsignedCString str => charsOrNull str
  | string str => str
  | fbuffer buf => buf.contents
  | ownBuffer => contents
  | gtemplate data len | append data len => data.take len.toNat

/-- A `double` has a text of less than 48 characters; a length is an `int`, not negative, and no more
than there is. -/
def Valid : Item F D → Prop
  | float v => (text (widen v)).length < maxNumSize
  | double v => (text v).length < maxNumSize
  | gtemplate data len | append data len => 0 ≤ len ∧ len < 2 ^ 31 ∧ len ≤ data.length
  | _ => True

/-- The same for a length that may be negative: it says nothing of the memory then. -/
def Sound : Item F D → Prop
  | float v => (text (widen v)).length < maxNumSize
  | double v => (text v).length < maxNumSize
  | gtemplate data len | append data len => -2 ^ 31 ≤ len ∧ len < 2 ^ 31 ∧ len ≤ data.length
  | _ => True

theorem Valid.sound {i : Item F D} (h : i.Valid widen text) : i.Sound widen text := by
  cases i with
  | float | double => exact h
  | gtemplate | append => exact ⟨Int.le_trans (by decide) h.1, h.2⟩
  | _ => trivial

/-- The item finds the room it needs. -/
def Kept (contents : Bytes) (i : Item F D) : Prop :=
  if i.isNumber = true then maxNumSize ≤ kbBufferSize - contents.length
  else (i.rendering widen text contents).length < kbBufferSize - contents.length

instance (contents : Bytes) (i : Item F D) : Decidable (i.Kept widen text contents) := by
  unfold Kept
  split <;> infer_instance

theorem kept_number {contents : Bytes} {i : Item F D} (h : i.isNumber = true) :
    i.Kept widen text contents ↔ maxNumSize ≤ kbBufferSize - contents.length := by
  rw [Kept, if_pos h]

theorem length_number (contents : Bytes) {i : Item F D} (h : i.isNumber = true) (hi : i.Sound widen text) :
    (i.rendering widen text contents).length < maxNumSize := by
  cases i with
  | integer t v => exact Nat.lt_of_le_of_lt (IntType.length_decimal v) (by decide)
  | float | double => exact hi
  | _ => cases h

/-- What is kept leaves at least one byte. -/
theorem Kept.room {contents : Bytes} {i : Item F D} (h : i.Kept widen text contents) (hi : i.Sound widen text) :
    contents.length + (i.rendering widen text contents).length < kbBufferSize := by
  by_cases hnum : i.isNumber = true
  · have hleft := (kept_number widen text hnum).mp h
    have hlen := length_number widen text contents hnum hi
    omega
  · rw [Kept, if_neg hnum] at h
    omega

end Item

namespace LogStream

theorem length_contents (s : LogStream) : s.contents.length = s.buffer.cur := s.buffer.length_contents

theorem left_eq (s : LogStream) : s.left = kbBufferSize - s.contents.length := by
  rw [length_contents, left]

/-! ### One insertion -/

theorem append_kept {s : LogStream} {data : Bytes} {len : Nat} (hlen : len ≤ data.length)
    (hroom : len < kbBufferSize - s.contents.length) :
    ∃ s', s.append data len = some s' ∧ s'.contents = s.contents ++ data.take len := by
  rw [length_contents] at hroom
  obtain ⟨b, hb, hcontents⟩ := s.buffer.append_kept (by decide) hlen hroom
  exact ⟨⟨b⟩, by rw [append, hb]; rfl, hcontents⟩

theorem append_dropped {s : LogStream} {data : Bytes} {len : Nat} (hroom : ¬ len < kbBufferSize - s.contents.length) :
    s.append data len = some s := by
  rw [length_contents] at hroom
  rw [append, s.buffer.append_dropped (by decide) hroom]
  rfl

/-- A text of less than 48 characters, with the NUL behind it, fits into the 48 bytes that are left. -/
theorem formatDouble_kept {s : LogStream} {str : Bytes} (hleft : maxNumSize ≤ s.left) (hlen : str.length < maxNumSize) :
    ∃ s', s.formatDouble str = some s' ∧ s'.contents = s.contents ++ str := by
  have hmax : maxNumSize = 48 := rfl
  rw [left] at hleft
  have hwhole : str.take (maxNumSize - 1) = str := List.take_of_length_le (by omega)
  have hfits : s.buffer.cur + str.length ≤ kbBufferSize := by omega
  obtain ⟨data, hdata, hbytes⟩ := s.buffer.data.store_spec s.buffer.cur (str ++ [0])
    (by rw [List.length_append, List.length_singleton]; omega)
  obtain ⟨b, hb, hcontents⟩ := FixedBuffer.add_spec hbytes hfits
  refine ⟨⟨b⟩, ?_, hcontents⟩
  rw [formatDouble, if_pos ((maxNumSize_le s).mpr hleft), hwhole]
  simp only [hdata, hb, Option.bind_eq_bind, Option.bind_some]
  rfl

theorem formatDouble_dropped {s : LogStream} {str : Bytes} (hleft : ¬ maxNumSize ≤ s.left) :
    s.formatDouble str = some s := by
  rw [formatDouble, if_neg ((maxNumSize_le s).not.mpr hleft)]

/-- Text is kept if there is more room than it takes. -/
theorem append_text {s : LogStream} (data : Bytes) (len : Nat) (hlen : len ≤ data.length) :
    ((data.take len).length < kbBufferSize - s.contents.length →
      ∃ s', s.append data len = some s' ∧ s'.contents = s.contents ++ data.take len) ∧
    (¬ (data.take len).length < kbBufferSize - s.contents.length → s.append data len = some s) := by
  rw [List.length_take, Nat.min_eq_left hlen]
  exact ⟨append_kept hlen, append_dropped⟩

theorem insertString_text {s : LogStream} {str : Bytes} :
    (str.length < kbBufferSize - s.contents.length →
      ∃ s', s.insertString str = some s' ∧ s'.contents = s.contents ++ str) ∧
    (¬ str.length < kbBufferSize - s.contents.length → s.insertString str = some s) := by
  have htext := append_text (s := s) str str.length (Nat.le_refl str.length)
  rwa [List.take_length] at htext

theorem insertCString_text {s : LogStream} {str : Option CString} :
    ((charsOrNull str).length < kbBufferSize - s.contents.length →
      ∃ s', s.insertCString str = some s' ∧ s'.contents = s.contents ++ charsOrNull str) ∧
    (¬ (charsOrNull str).length < kbBufferSize - s.contents.length → s.insertCString str = some s) := by
  cases str with
  | none => exact append_text nullText 6 (by decide)
  | some str => exact append_text str.memory (strlen str) (Nat.le_of_lt (List.idxOf_lt_length_of_mem str.terminated))

/-- A negative length is more than there is room for. -/
theorem append_negative {s : LogStream} {data : Bytes} {len : Int} (hneg : len < 0) (hint : -2 ^ 31 ≤ len) :
    s.append data (toSize len) = some s := by
  have hkb : kbBufferSize = 1024 := rfl
  apply append_dropped
  rw [toSize]
  omega

/-- **One insertion.** An item that finds its room adds its whole text, any other leaves the stream
as it is. -/
theorem insert_spec {s : LogStream} {i : Item F D} (hi : i.Sound widen text) :
    (i.Kept widen text s.contents →
      ∃ s', s.insert widen text i = some s' ∧ s'.contents = s.contents ++ i.rendering widen text s.contents) ∧
    (¬ i.Kept widen text s.contents → s.insert widen text i = some s) := by
  cases i with
  | integer t v =>
    have hlen := IntType.length_decimal v
    have hmax : maxNumSize = 48 := rfl
    rw [Item.kept_number widen text rfl, ← left_eq, insert, IntType.cast_formatted]
    exact ⟨fun hleft => formatInteger_kept v.val hleft (by omega), formatInteger_dropped⟩
  | float v | double v =>
    rw [Item.kept_number widen text rfl, ← left_eq]
    exact ⟨fun hleft => formatDouble_kept hleft hi, formatDouble_dropped⟩
  | char c => exact append_text [c] 1 (Nat.le_refl 1)
  | pointer str | cString str | unsignedCString str => exact insertCString_text
  | string str => exact insertString_text
  | fbuffer buf =>
    rw [insert, buf.toString_spec (by decide)]
    exact insertString_text
  | ownBuffer =>
    rw [insert, s.buffer.toString_spec (by decide)]
    exact insertString_text
  | gtemplate data len | append data len =>
    obtain ⟨hmin, hmax, hlen⟩ := hi
    by_cases hneg : len < 0
    · have hnone : data.take len.toNat = [] := by rw [Int.toNat_of_nonpos (Int.le_of_lt hneg), List.take_zero]
      have hsame : s.append data (toSize len) = some s := append_negative hneg hmin
      refine ⟨fun _ => ⟨s, hsame, ?_⟩, fun _ => hsame⟩
      rw [Item.rendering, hnone, List.append_nil]
    · have hsize : toSize len = len.toNat := by
        rw [toSize, Int.emod_eq_of_lt (Int.not_lt.mp hneg) (by omega)]
      rw [insert, hsize]
      exact append_text data len.toNat (by omega)

/-- The contents after one more step, seen on the text alone. -/
def logged (contents : Bytes) : Op F D → Bytes
  | .insert i => if i.Kept widen text contents then contents ++ i.rendering widen text contents else contents
  | .reset => []

def Op.Valid : Op F D → Prop
  | .insert i => i.Valid widen text
  | .reset => True

def Op.Sound : Op F D → Prop
  | .insert i => i.Sound widen text
  | .reset => True

theorem Op.Valid.sound {op : Op F D} (h : op.Valid widen text) : op.Sound widen text := by
  cases op with
  | insert i => exact Item.Valid.sound widen text h
  | reset => trivial

theorem logged_lt {contents : Bytes} (h : contents.length < kbBufferSize) {op : Op F D} (hop : op.Sound widen text) :
    (logged widen text contents op).length < kbBufferSize := by
  cases op with
  | reset => exact Nat.zero_lt_of_lt h
  | insert i =>
    rw [logged]
    split
    · rename_i hkept
      rw [List.length_append]
      exact hkept.room widen text hop
    · exact h

theorem step_spec {s : LogStream} {op : Op F D} (hop : op.Sound widen text) :
    ∃ s', step widen text s op = some s' ∧ s'.contents = logged widen text s.contents op := by
  cases op with
  | reset => exact ⟨s.reset, rfl, rfl⟩
  | insert i =>
    obtain ⟨hkept, hdropped⟩ := insert_spec widen text (s := s) hop
    rw [logged]
    split
    · rename_i h
      exact hkept h
    · rename_i h
      exact ⟨s, hdropped h, rfl⟩

/-! ### Any sequence -/

theorem run_spec {ops : List (Op F D)} (hsound : ∀ op ∈ ops, op.Sound widen text) {s : LogStream}
    (hroom : s.contents.length < kbBufferSize) :
    ∃ s', exec (step widen text) s ops = some s' ∧ s'.contents = ops.foldl (logged widen text) s.contents ∧
      s'.contents.length < kbBufferSize := by
  induction ops generalizing s with
  | nil => exact ⟨s, rfl, rfl, hroom⟩
  | cons op rest ih =>
    have hop := hsound op List.mem_cons_self
    obtain ⟨t, ht, hcontents⟩ := step_spec widen text (s := s) hop
    have hroom' : t.contents.length < kbBufferSize := by
      rw [hcontents]
      exact logged_lt widen text hroom hop
    obtain ⟨s', hs', hcontents', hleft⟩ := ih (fun op hop => hsound op (List.mem_cons_of_mem _ hop)) hroom'
    refine ⟨s', exec_cons_some.mpr ⟨t, ht, hs'⟩, ?_, hleft⟩
    rw [hcontents', hcontents, List.foldl_cons]

/-- **All or nothing.** After any sequence of insertions and resets of a new stream, whatever was in its
memory, nothing has been written outside, less than 1024 bytes are used, and the contents are the
texts of the items that found their room, in order; an item that does not find it changes nothing.
A prefix of a sequence is a sequence too, so that this holds in every state on the way. -/
theorem stream_contents (data : CharArray kbBufferSize) {ops : List (Op F D)}
    (hvalid : ∀ op ∈ ops, op.Valid widen text) :
    ∃ s, exec (step widen text) (create data) ops = some s ∧ s.buffer.used < 1024 ∧
      s.contents = ops.foldl (logged widen text) [] ∧
      ∀ i : Item F D, i.Valid widen text → ¬ i.Kept widen text s.contents → s.insert widen text i = some s := by
  have hempty : (create data).contents = [] := rfl
  have hsound : ∀ op ∈ ops, op.Sound widen text := fun op hop => (hvalid op hop).sound
  obtain ⟨s, hs, hcontents, hroom⟩ := run_spec widen text hsound (s := create data) (by rw [hempty]; decide)
  refine ⟨s, hs, ?_, by rw [hcontents, hempty], fun i hi => (insert_spec widen text hi.sound).2⟩
  have hkb : kbBufferSize = 1024 := rfl
  rw [length_contents] at hroom
  rw [FixedBuffer.used]
  omega

end LogStream

end Doubles

namespace LogStream

/-- `"pi: " << 3.1415926535 << ", count: " << 1234567890 << '!'`, where the only `double` is the one
between the texts. -/
def greeting : List (Op Unit Unit) :=
  [.insert (.string [112, 105, 58, 32]), .insert (.double ()),
    .insert (.string [44, 32, 99, 111, 117, 110, 116, 58, 32]), .insert (.integer .int ⟨1234567890, by decide⟩),
    .insert (.char 33)]

theorem stream_contents_greeting : ∃ s,
    exec (step id fun () => [51, 46, 49, 52, 49, 53, 57, 50, 54, 53, 51, 53])
      (create ⟨List.replicate kbBufferSize 0, List.length_replicate⟩) greeting = some s ∧
    s.contents = [112, 105, 58, 32, 51, 46, 49, 52, 49, 53, 57, 50, 54, 53, 51, 53, 44, 32, 99, 111, 117, 110, 116, 58,
      32, 49, 50, 51, 52, 53, 54, 55, 56, 57, 48, 33] := by
  have hvalid : ∀ op ∈ greeting, op.Valid id fun () => [51, 46, 49, 52, 49, 53, 57, 50, 54, 53, 51, 53] := by
    simp [greeting, Op.Valid, Item.Valid, maxNumSize]
  obtain ⟨s, hs, -, hcontents, -⟩ := stream_contents id (fun () => [51, 46, 49, 52, 49, 53, 57, 50, 54, 53, 51, 53])
    ⟨List.replicate kbBufferSize 0, List.length_replicate⟩ hvalid
  exact ⟨s, hs, hcontents.trans (by decide +kernel)⟩

end LogStream

end Caimr.Log
