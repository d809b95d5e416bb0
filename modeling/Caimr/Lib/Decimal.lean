import Mathlib.Data.Nat.Digits.Lemmas

/-! Decimal text in ASCII: the canonical text of an integer, and how any text is read. The digits
are Mathlib's, with the last one first, as repeated division gives them. -/
namespace Caimr.Decimal

/-! ### Digits -/

/-- The decimal digits of a number from the last to the first; zero has one. -/
def digits (n : Nat) : List Nat := if n = 0 then [0] else Nat.digits 10 n

/-- The last digit, and those of the quotient if there are any left. -/
theorem digits_eq (n : Nat) : digits n = n % 10 :: if n / 10 = 0 then [] else digits (n / 10) := by
  by_cases hn : n = 0
  · subst hn
    rfl
  · rw [digits, if_neg hn, Nat.digits_def' (by decide) (Nat.pos_of_ne_zero hn)]
    by_cases hq : n / 10 = 0
    · rw [if_pos hq, hq, Nat.digits_zero]
    · rw [if_neg hq, digits, if_neg hq]

theorem digits_lt {n d : Nat} (hd : d ∈ digits n) : d < 10 := by
  unfold digits at hd
  split at hd
  · rw [List.mem_singleton.mp hd]
    decide
  · exact Nat.digits_lt_base (by decide) hd

theorem digits_ne_nil (n : Nat) : digits n ≠ [] := by
  rw [digits_eq]
  exact List.cons_ne_nil _ _

theorem ofDigits_digits (n : Nat) : Nat.ofDigits 10 (digits n) = n := by
  unfold digits
  split
  · rename_i hn
    rw [hn]
    rfl
  · exact Nat.ofDigits_digits 10 n

theorem length_digits_le {n k : Nat} (hk : 0 < k) (hn : n < 10 ^ k) : (digits n).length ≤ k := by
  unfold digits
  split
  · exact hk
  · exact (Nat.digits_length_le_iff (by decide) n).mpr hn

/-- Only zero begins with a zero. -/
theorem getLast_digits {n : Nat} (h : (digits n).getLast? = some 0) : n = 0 := by
  by_contra hn
  rw [digits, if_neg hn, List.getLast?_eq_some_getLast (Nat.digits_ne_nil_iff_ne_zero.mpr hn),
    Option.some.injEq] at h
  exact Nat.getLast_digit_ne_zero 10 hn h

/-! ### Text -/

def digitChar (d : Nat) : UInt8 := UInt8.ofNat (48 + d)

def minus : UInt8 := 45

/-- The canonical text. -/
def decimal (v : Int) : List UInt8 :=
  (if v < 0 then [minus] else []) ++ ((digits v.natAbs).map digitChar).reverse

theorem digitChar_toNat {d : Nat} (h : d < 10) : (digitChar d).toNat = 48 + d := by
  rw [digitChar, UInt8.toNat_ofNat']
  omega

theorem digitChar_ne_minus {d : Nat} (h : d < 10) : digitChar d ≠ minus := by
  intro he
  have hval := congrArg UInt8.toNat he
  rw [digitChar_toNat h] at hval
  have hminus : minus.toNat = 45 := rfl
  omega

theorem digitChar_zero {d : Nat} (h : d < 10) (he : digitChar d = digitChar 0) : d = 0 := by
  have hval := congrArg UInt8.toNat he
  rw [digitChar_toNat h, digitChar_toNat (by decide)] at hval
  omega

/-! ### Reading -/

def digitValue (c : UInt8) : Option Nat :=
  if 48 ≤ c.toNat ∧ c.toNat ≤ 57 then some (c.toNat - 48) else none

/-- The number that digits stand for, read from the left. -/
def readDigits (text : List UInt8) : Option Nat :=
  text.foldlM (fun v c => (digitValue c).map (10 * v + ·)) 0

/-- The integer that a text stands for: digits, at least one, and maybe a sign in front. -/
def readInt : List UInt8 → Option Int
  | [] => none
  | [c] => (readDigits [c]).map Int.ofNat
  | c :: rest => if c = minus then (readDigits rest).map fun n => -Int.ofNat n else (readDigits (c :: rest)).map Int.ofNat

theorem digitValue_digitChar {d : Nat} (h : d < 10) : digitValue (digitChar d) = some d := by
  rw [digitValue, digitChar_toNat h, if_pos (by omega)]
  congr 1
  omega

/-- The digits of a number are read as that number. -/
theorem readDigits_reverse {ds : List Nat} (h : ∀ d ∈ ds, d < 10) :
    readDigits (ds.map digitChar).reverse = some (Nat.ofDigits 10 ds) := by
  induction ds with
  | nil => rfl
  | cons d ds ih =>
    have hrest := ih fun e he => h e (List.mem_cons_of_mem _ he)
    unfold readDigits at hrest ⊢
    rw [List.map_cons, List.reverse_cons, List.foldlM_append, hrest, Nat.ofDigits_cons]
    simp [digitValue_digitChar (h d List.mem_cons_self), Nat.add_comm]

/-- What a canonical text satisfies. -/
structure Canonical (v : Int) (text : List UInt8) : Prop where
  sign : text.head? = some minus ↔ v < 0
  /-- A zero comes first, or behind the sign, in the text of zero only. -/
  leading : ∀ rest, text = digitChar 0 :: rest ∨ text = minus :: digitChar 0 :: rest → v = 0 ∧ text = [digitChar 0]
  reads : readInt text = some v

/-- The first character behind the sign is that of the last digit in the list. -/
theorem head_digits (n : Nat) : ∃ d ∈ digits n, ((digits n).map digitChar).reverse.head? = some (digitChar d) ∧
    (digits n).getLast? = some d := by
  have hd := List.getLast?_eq_some_getLast (digits_ne_nil n)
  refine ⟨_, List.mem_of_getLast? hd, ?_, hd⟩
  rw [List.head?_reverse, List.getLast?_map, hd]
  rfl

theorem readInt_digits (n : Nat) : readInt ((digits n).map digitChar).reverse = some (Int.ofNat n) := by
  have hread : readDigits ((digits n).map digitChar).reverse = some (Nat.ofDigits 10 (digits n)) :=
    readDigits_reverse fun d hd => digits_lt hd
  rw [ofDigits_digits] at hread
  obtain ⟨d, hd, hhead, -⟩ := head_digits n
  cases htext : ((digits n).map digitChar).reverse with
  | nil =>
    rw [htext] at hhead
    cases hhead
  | cons c rest =>
    rw [htext] at hhead hread
    have hc : c = digitChar d := Option.some.inj hhead
    cases rest with
    | nil => rw [readInt, hread]; rfl
    | cons c' rest =>
      rw [readInt, if_neg (hc ▸ digitChar_ne_minus (digits_lt hd)), hread]
      · rfl
      · nofun

theorem readInt_minus {text : List UInt8} (h : text ≠ []) :
    readInt (minus :: text) = (readDigits text).map fun n => -Int.ofNat n := by
  cases text with
  | nil => exact absurd rfl h
  | cons c rest =>
    rw [readInt, if_pos rfl]
    nofun

theorem decimal_canonical (v : Int) : Canonical v (decimal v) := by
  obtain ⟨d, hd, hhead, hlast⟩ := head_digits v.natAbs
  have hlt := digits_lt hd
  have hzero : digitChar d = digitChar 0 → v = 0 := by
    intro he
    rw [digitChar_zero hlt he] at hlast
    exact Int.natAbs_eq_zero.mp (getLast_digits hlast)
  by_cases hv : v < 0
  · have htext : decimal v = minus :: ((digits v.natAbs).map digitChar).reverse := by
      rw [decimal, if_pos hv]
      rfl
    rw [htext]
    refine ⟨⟨fun _ => hv, fun _ => rfl⟩, fun rest hrest => ?_, ?_⟩
    · rcases hrest with hrest | hrest
      · exact absurd (List.cons.inj hrest).1.symm (digitChar_ne_minus (by decide))
      · rw [(List.cons.inj hrest).2] at hhead
        exact absurd (hzero (Option.some.inj hhead).symm) (Int.ne_of_lt hv)
    · have hne : ((digits v.natAbs).map digitChar).reverse ≠ [] := fun hnil => by rw [hnil] at hhead; cases hhead
      rw [readInt_minus hne, readDigits_reverse fun d hd => digits_lt hd, ofDigits_digits]
      have habs : -(Int.ofNat v.natAbs) = v := by
        rw [Int.ofNat_eq_natCast]
        omega
      exact congrArg some habs
  · have htext : decimal v = ((digits v.natAbs).map digitChar).reverse := by
      rw [decimal, if_neg hv]
      rfl
    rw [htext]
    refine ⟨⟨fun h => ?_, fun h => absurd h hv⟩, fun rest hrest => ?_, ?_⟩
    · rw [hhead] at h
      exact absurd (Option.some.inj h) (digitChar_ne_minus hlt)
    · rcases hrest with hrest | hrest
      · rw [hrest] at hhead
        have hv0 := hzero (Option.some.inj hhead).symm
        rw [hv0]
        exact ⟨rfl, rfl⟩
      · rw [hrest] at hhead
        exact absurd (Option.some.inj hhead).symm (digitChar_ne_minus hlt)
    · rw [readInt_digits]
      exact congrArg some (Int.natAbs_of_nonneg (Int.not_lt.mp hv))

theorem length_decimal_le {v : Int} (h : -10 ^ 19 < v) (h' : v < 10 ^ 20) : (decimal v).length ≤ 20 := by
  unfold decimal
  rw [List.length_append, List.length_reverse, List.length_map]
  split
  · have hdigits := length_digits_le (n := v.natAbs) (k := 19) (by decide) (by omega)
    rw [List.length_singleton]
    omega
  · have hdigits := length_digits_le (n := v.natAbs) (k := 20) (by decide) (by omega)
    rw [List.length_nil]
    omega

theorem decimal_inj {v w : Int} (h : decimal v = decimal w) : v = w :=
  Option.some.inj ((decimal_canonical v).reads.symm.trans (h ▸ (decimal_canonical w).reads))

/-! ### Without a sign -/

theorem digitValue_eq_some {c : UInt8} {d : Nat} (h : digitValue c = some d) : d < 10 ∧ c = digitChar d := by
  unfold digitValue at h
  split at h
  · rename_i hc
    cases h
    have hd : c.toNat - 48 < 10 := by omega
    refine ⟨hd, UInt8.toNat_inj.mp ?_⟩
    rw [digitChar_toNat hd]
    omega
  · cases h

/-- The canonical text of a natural number. -/
def unsigned (n : Nat) : List UInt8 := ((digits n).map digitChar).reverse

theorem unsigned_eq_decimal (n : Nat) : unsigned n = decimal n := by
  rw [decimal, if_neg (by omega)]
  rfl

theorem unsigned_inj {n m : Nat} (h : unsigned n = unsigned m) : n = m := by
  rw [unsigned_eq_decimal, unsigned_eq_decimal] at h
  exact Int.ofNat.inj (decimal_inj h)

theorem unsigned_digit {d : Nat} (h : d < 10) : unsigned d = [digitChar d] := by
  rw [unsigned, digits_eq, if_pos (by omega), Nat.mod_eq_of_lt h]
  rfl

/-- One more digit, behind a number that is not zero. -/
theorem unsigned_snoc {n d : Nat} (hn : n ≠ 0) (h : d < 10) : unsigned (10 * n + d) = unsigned n ++ [digitChar d] := by
  have hmod : (10 * n + d) % 10 = d := by omega
  have hdiv : (10 * n + d) / 10 = n := by omega
  rw [unsigned, digits_eq, hmod, hdiv, if_neg hn, List.map_cons, List.reverse_cons]
  rfl

theorem length_unsigned_le {n k : Nat} (hk : 0 < k) (hn : n < 10 ^ k) : (unsigned n).length ≤ k := by
  rw [unsigned, List.length_reverse, List.length_map]
  exact length_digits_le hk hn

/-- Nothing but digits. -/
theorem notMem_unsigned {c : UInt8} (h : digitValue c = none) (n : Nat) : c ∉ unsigned n := by
  intro hc
  obtain ⟨d, hd, rfl⟩ := List.mem_map.mp (List.mem_reverse.mp hc)
  rw [digitValue_digitChar (digits_lt hd)] at h
  cases h

end Caimr.Decimal
