import Caimr.Log.LogStream

/-! `format_integer` writes the canonical decimal text. The loop takes the digits from a table that
reads the same in both directions, so that a negative remainder finds the digit of its absolute
value; what it leaves is the text backwards. -/
namespace Caimr.Log
open Window

/-! ### The values of the types -/

namespace IntType

theorem range_formatted (t : IntType) : t.formatted.min ≤ t.min ∧ t.max ≤ t.formatted.max := by
  cases t <;> decide

/-- A cast to a type that has the value leaves it. -/
theorem cast_eq {t : IntType} {v : Int} (h : t.min ≤ v) (h' : v ≤ t.max) : t.cast v = v := by
  have hrange : t.max = t.min + 2 ^ t.bits - 1 := by cases t <;> rfl
  rw [cast, Int.emod_eq_of_lt (by omega) (by omega)]
  omega

theorem cast_formatted {t : IntType} (v : t.Value) : t.formatted.cast v.val = v.val :=
  cast_eq (Int.le_trans (range_formatted t).1 v.property.1) (Int.le_trans v.property.2 (range_formatted t).2)

theorem length_decimal {t : IntType} (v : t.Value) : (Decimal.decimal v.val).length ≤ 20 := by
  have hrange : -10 ^ 19 < t.min ∧ t.max < 10 ^ 20 := by cases t <;> decide
  exact Decimal.length_decimal_le (Int.lt_of_lt_of_le hrange.1 v.property.1) (Int.lt_of_le_of_lt v.property.2 hrange.2)

end IntType

/-! ### The digits -/

theorem zero_nat : ∀ k < 10,
    zero (k : Nat) = some (Decimal.digitChar k) ∧ zero (-(k : Nat)) = some (Decimal.digitChar k) := by
  decide

theorem zero_remainder (num : Int) : zero (num.tmod 10) = some (Decimal.digitChar (num.natAbs % 10)) := by
  have habs : (num.tmod 10).natAbs = num.natAbs % 10 := Int.natAbs_tmod num 10
  have hdigit := zero_nat (num.natAbs % 10) (Nat.mod_lt _ (by decide))
  rw [← habs] at hdigit ⊢
  rcases Int.natAbs_eq (num.tmod 10) with h | h
  · rw [h, Int.natAbs_natCast]
    exact hdigit.1
  · rw [h, Int.natAbs_neg, Int.natAbs_natCast]
    exact hdigit.2

/-- The loop writes the digits, the last one first. -/
theorem writeDigits_spec {n : Nat} (m : CharArray n) (cur : Nat) (num : Int)
    (h : cur + (Decimal.digits num.natAbs).length ≤ n) :
    ∃ m', writeDigits m cur num = some (m', cur + (Decimal.digits num.natAbs).length) ∧
      m'.bytes = splice m.bytes cur ((Decimal.digits num.natAbs).map Decimal.digitChar) := by
  induction hk : num.natAbs using Nat.strong_induction_on generalizing num m cur with
  | _ k ih =>
    subst hk
    have hquotient : (num.tdiv 10).natAbs = num.natAbs / 10 := Int.natAbs_tdiv num 10
    have hsize : m.bytes.length = n := m.length_bytes
    rw [Decimal.digits_eq, List.length_cons] at h ⊢
    obtain ⟨m₁, hm₁, hbytes⟩ := m.store_spec cur [Decimal.digitChar (num.natAbs % 10)]
      (by rw [List.length_singleton]; omega)
    rw [writeDigits, zero_remainder, Option.bind_eq_bind, Option.bind_some, hm₁, Option.bind_eq_bind, Option.bind_some]
    by_cases hq : num.tdiv 10 = 0
    · have hnone : num.natAbs / 10 = 0 := by rw [← hquotient, hq]; rfl
      rw [if_neg (not_not.mpr hq), if_pos hnone]
      exact ⟨m₁, rfl, hbytes⟩
    · have hmore : num.natAbs / 10 ≠ 0 := fun hz => hq (Int.natAbs_eq_zero.mp (hquotient.trans hz))
      rw [if_neg hmore] at h ⊢
      rw [if_pos hq]
      rw [← hquotient] at h ⊢
      obtain ⟨m', hm', hbytes'⟩ := ih (num.tdiv 10).natAbs (quotient_lt hq) m₁ (cur + 1) (num.tdiv 10) (by omega) rfl
      refine ⟨m', ?_, ?_⟩
      · rw [hm']
        congr 2
        omega
      · -- The digit, and behind it those of the quotient.
        rw [hbytes', hbytes, List.map_cons]
        exact splice_behind (by omega)

/-! ### The text -/

/-- What the loop and the sign leave, backwards, is the canonical text. -/
theorem decimal_backwards (num : Int) :
    ((Decimal.digits num.natAbs).map Decimal.digitChar ++ if num < 0 then [Decimal.minus] else []).reverse =
      Decimal.decimal num := by
  rw [Decimal.decimal, List.reverse_append]
  congr 1
  split <;> rfl

/-- The sign is written behind the digits. -/
theorem writeSign_spec {n : Nat} (m : CharArray n) {v low : Bytes} {start : Nat} (num : Int) (hv : v.length = n)
    (hbytes : m.bytes = splice v start low)
    (h : start + (low ++ if num < 0 then [Decimal.minus] else []).length ≤ n) :
    ∃ m', writeSign m (start + low.length) (num < 0) =
        some (m', start + (low ++ if num < 0 then [Decimal.minus] else []).length) ∧
      m'.bytes = splice v start (low ++ if num < 0 then [Decimal.minus] else []) := by
  by_cases hnum : num < 0
  · rw [if_pos hnum, List.length_append, List.length_singleton] at h
    obtain ⟨m', hm', hbytes'⟩ := m.store_spec (start + low.length) [Decimal.minus]
      (by rw [List.length_singleton]; omega)
    rw [writeSign, if_pos (decide_eq_true hnum), if_pos hnum, hm']
    refine ⟨m', ?_, ?_⟩
    · rw [List.length_append, List.length_singleton, ← Nat.add_assoc]
      rfl
    · rw [hbytes', hbytes]
      exact splice_behind (by omega)
  · rw [writeSign, if_neg (by simpa using hnum), if_neg hnum, List.append_nil]
    exact ⟨m, rfl, hbytes⟩

theorem CharArray.reverse_spec {n : Nat} (m : CharArray n) {v text : Bytes} {start : Nat} (hv : v.length = n)
    (hbytes : m.bytes = splice v start text) (h : start + text.length ≤ n) :
    ∃ m', m.reverse start (start + text.length) = some m' ∧ m'.bytes = splice v start text.reverse := by
  have hlen : start + text.length - start = text.length := by omega
  have htext : window m.bytes start (start + text.length) = text := by
    rw [hbytes]
    exact window_splice (by omega)
  obtain ⟨m', hm', hbytes'⟩ := m.store_spec start text.reverse (by rw [List.length_reverse]; exact h)
  refine ⟨m', ?_, ?_⟩
  · rw [reverse, hlen, CharArray.load_spec m h, htext, Option.bind_eq_bind, Option.bind_some, hm']
  · rw [hbytes', hbytes]
    exact splice_over (by omega) List.length_reverse

namespace LogStream

/-- The contents of the stream's buffer. -/
def contents (s : LogStream) : Bytes := s.buffer.contents

/-- The bytes that are left. -/
def left (s : LogStream) : Nat := kbBufferSize - s.buffer.cur

theorem maxNumSize_le (s : LogStream) : (maxNumSize : Int) ≤ s.buffer.size ↔ maxNumSize ≤ s.left := by
  have hcur := s.buffer.cur_le
  rw [FixedBuffer.size, left]
  omega

/-- With 48 bytes left, the canonical text is added. -/
theorem formatInteger_kept {s : LogStream} (num : Int) (hleft : maxNumSize ≤ s.left)
    (hlen : (Decimal.decimal num).length ≤ maxNumSize) :
    ∃ s', s.formatInteger num = some s' ∧ s'.contents = s.contents ++ Decimal.decimal num := by
  have hcur := s.buffer.cur_le
  have hsize := s.buffer.data.length_bytes
  have hroom : s.buffer.cur + maxNumSize ≤ kbBufferSize := by
    rw [left] at hleft
    have hmax : maxNumSize = 48 := rfl
    omega
  obtain ⟨low, hlow⟩ : ∃ low, (Decimal.digits num.natAbs).map Decimal.digitChar = low := ⟨_, rfl⟩
  have hbackwards := decimal_backwards num
  rw [hlow] at hbackwards
  obtain ⟨text, htext⟩ : ∃ text, (low ++ if num < 0 then [Decimal.minus] else []) = text := ⟨_, rfl⟩
  rw [htext] at hbackwards
  have hfits : s.buffer.cur + text.length ≤ kbBufferSize := by
    rw [← hbackwards, List.length_reverse] at hlen
    omega
  have hdigits : (Decimal.digits num.natAbs).length = low.length := by rw [← hlow, List.length_map]
  have hlowFits : low.length ≤ text.length := by
    rw [← htext, List.length_append]
    exact Nat.le_add_right ..
  obtain ⟨m₁, hm₁, hbytes₁⟩ := writeDigits_spec s.buffer.data s.buffer.cur num (by omega)
  rw [hlow] at hbytes₁
  rw [hdigits] at hm₁
  obtain ⟨m₂, hm₂, hbytes₂⟩ := writeSign_spec m₁ num hsize hbytes₁ (by rw [htext]; exact hfits)
  rw [htext] at hm₂ hbytes₂
  obtain ⟨m₃, hm₃, hbytes₃⟩ := m₂.reverse_spec hsize hbytes₂ hfits
  rw [hbackwards, ← List.append_nil (Decimal.decimal num)] at hbytes₃
  have hcount : s.buffer.cur + text.length - s.buffer.cur = (Decimal.decimal num).length := by
    rw [← hbackwards, List.length_reverse, Nat.add_sub_cancel_left]
  obtain ⟨b, hb, hcontents⟩ := FixedBuffer.add_spec hbytes₃ (by rw [← hbackwards, List.length_reverse]; exact hfits)
  refine ⟨⟨b⟩, ?_, hcontents⟩
  rw [formatInteger, if_pos ((maxNumSize_le s).mpr hleft)]
  simp only [hm₁, hm₂, hm₃, hcount, hb, Option.bind_eq_bind, Option.bind_some]
  rfl

theorem formatInteger_dropped {s : LogStream} {num : Int} (hleft : ¬ maxNumSize ≤ s.left) :
    s.formatInteger num = some s := by
  rw [formatInteger, if_neg ((maxNumSize_le s).not.mpr hleft)]

/-- **Integers are formatted in exact decimal.** Where 48 bytes are left, a value of any integer type
adds its canonical text, of at most 20 characters. -/
theorem insert_integer {F D : Type} (widen : F → D) (text : D → Bytes) {s : LogStream} (hleft : maxNumSize ≤ s.left)
    (t : IntType) (v : t.Value) :
    ∃ s', s.insert widen text (.integer t v) = some s' ∧ s'.contents = s.contents ++ Decimal.decimal v.val ∧
      Decimal.Canonical v.val (Decimal.decimal v.val) ∧ (Decimal.decimal v.val).length ≤ 20 := by
  have hlen := IntType.length_decimal v
  have hmax : maxNumSize = 48 := rfl
  obtain ⟨s', hs', hcontents⟩ := formatInteger_kept v.val hleft (by omega)
  refine ⟨s', ?_, hcontents, Decimal.decimal_canonical v.val, hlen⟩
  rw [insert, IntType.cast_formatted]
  exact hs'

/-- The most negative `long long`, at the beginning of a stream. -/
theorem insert_integer_min : ∃ s',
    (create ⟨List.replicate kbBufferSize 0, List.length_replicate⟩).insert (F := Empty) (D := Empty) nofun nofun
      (.integer .longLong ⟨-2 ^ 63, by decide⟩) = some s' ∧
    s'.contents = Decimal.decimal (-2 ^ 63) ∧ Decimal.readInt (Decimal.decimal (-2 ^ 63)) = some (-2 ^ 63) := by
  obtain ⟨s', hs', hcontents, hcanonical, -⟩ := insert_integer (F := Empty) (D := Empty) nofun nofun
    (s := create ⟨List.replicate kbBufferSize 0, List.length_replicate⟩) (by decide) .longLong ⟨-2 ^ 63, by decide⟩
  exact ⟨s', hs', hcontents, hcanonical.reads⟩

end LogStream

end Caimr.Log
