import Mathlib.Algebra.BigOperators.Group.Finset.Basic
import Mathlib.Algebra.Ring.Nat
import Caimr.Lib.Transition

/-! Runs that have to end. If every step of a kind costs something, a run of such steps is
no longer than what there is to spend, and goes on to where no such step is left. Steps of
other kinds may come between them, and bring something. -/
namespace Caimr.Transition

variable {S L ι : Type}

/-- The steps of a kind keep an invariant, and each of them costs something. -/
structure Spends (step : S → L → Option S) (Own : L → Prop) (I : S → Prop) (cost : S → Nat) : Prop where
  keeps : ∀ s l t, I s → Own l → step s l = some t → I t
  spends : ∀ s l t, I s → Own l → step s l = some t → cost t < cost s

/-- No step of the kind is left. -/
def Settled (step : S → L → Option S) (Own : L → Prop) (s : S) : Prop := ∀ l, Own l → step s l = none

section Settle
variable {step : S → L → Option S} {Own : L → Prop} {I : S → Prop} {cost : S → Nat} {s t : S}

/-- A run costs at least its length. -/
theorem Spends.length_le (h : Spends step Own I cost) (hs : I s) {tr : List L} (hr : exec step s tr = some t)
    (hown : ∀ l ∈ tr, Own l) : I t ∧ tr.length + cost t ≤ cost s := by
  induction tr generalizing s with
  | nil =>
    cases hr
    exact ⟨hs, Nat.le_of_eq (Nat.zero_add _)⟩
  | cons l rest ih =>
    obtain ⟨u, hl, hrest⟩ := exec_cons_some.mp hr
    have hlown := hown l List.mem_cons_self
    have hlt := h.spends s l u hs hlown hl
    obtain ⟨ht, hle⟩ := ih (h.keeps s l u hs hlown hl) hrest fun l hl => hown l (List.mem_cons_of_mem _ hl)
    refine ⟨ht, ?_⟩
    rw [List.length_cons]
    omega

/-- From everywhere there is a way to where nothing of the kind is left. -/
theorem Spends.settles (h : Spends step Own I cost) (hs : I s) :
    ∃ tr t, (∀ l ∈ tr, Own l) ∧ exec step s tr = some t ∧ Settled step Own t := by
  induction hn : cost s using Nat.strongRecOn generalizing s with
  | ind n ih =>
    by_cases hset : Settled step Own s
    · exact ⟨[], s, List.forall_mem_nil _, rfl, hset⟩
    · simp only [Settled, not_forall] at hset
      obtain ⟨l, hl, hne⟩ := hset
      obtain ⟨u, hu⟩ := Option.ne_none_iff_exists'.mp hne
      obtain ⟨tr, t, hown, hr, ht⟩ := ih _ (hn ▸ h.spends s l u hs hl hu) (h.keeps s l u hs hl hu) rfl
      exact ⟨l :: tr, t, List.forall_mem_cons.mpr ⟨hl, hown⟩, exec_cons_some.mpr ⟨u, hu, hr⟩, ht⟩

/-- The steps of a kind are paid for out of what there is; the others bring what they bring. -/
theorem spent_le {own : L → Bool} {gain : L → Nat}
    (pays : ∀ s l t, I s → step s l = some t → I t ∧ cost t + (own l).toNat ≤ cost s + gain l) (hs : I s)
    {tr : List L} (hr : exec step s tr = some t) : I t ∧ tr.countP own + cost t ≤ cost s + (tr.map gain).sum := by
  induction tr generalizing s with
  | nil =>
    cases hr
    exact ⟨hs, Nat.le_of_eq (Nat.zero_add _)⟩
  | cons l rest ih =>
    obtain ⟨u, hl, hrest⟩ := exec_cons_some.mp hr
    obtain ⟨hu, hpaid⟩ := pays s l u hs hl
    obtain ⟨ht, hle⟩ := ih hu hrest
    refine ⟨ht, ?_⟩
    rw [List.countP_cons, List.map_cons, List.sum_cons]
    cases hown : own l <;> simp only [hown, Bool.toNat_true, Bool.toNat_false] at hpaid <;> simp <;> omega

/-- What the steps of one kind bring. -/
theorem sum_gain (p : L → Bool) (k : Nat) (tr : List L) :
    (tr.map fun l => k * (p l).toNat).sum = k * tr.countP p := by
  induction tr with
  | nil => rfl
  | cons l rest ih =>
    have hone : (p l).toNat = if p l = true then 1 else 0 := by cases p l <;> rfl
    rw [List.map_cons, List.sum_cons, ih, List.countP_cons, Nat.mul_add, hone, Nat.add_comm]

end Settle

/-! ### What many places cost -/

/-- One place of a list changes. -/
theorem sum_set {f : S → Nat} {l : List S} {i : Nat} {a : S} (h : l[i]? = some a) (b : S) :
    ((l.set i b).map f).sum + f a = (l.map f).sum + f b := by
  induction l generalizing i with
  | nil => cases h
  | cons c l ih =>
    cases i with
    | zero =>
      cases h
      simp only [List.set_cons_zero, List.map_cons, List.sum_cons]
      omega
    | succ i =>
      have hrest := ih h
      simp only [List.set_cons_succ, List.map_cons, List.sum_cons]
      omega

variable [DecidableEq ι]

/-- One place changes: the rest of the sum stays. -/
theorem sum_place {f g : ι → Nat} {places : Finset ι} {i : ι} (hi : i ∈ places) (hne : ∀ j ≠ i, g j = f j) :
    (∑ j ∈ places, g j) + f i = (∑ j ∈ places, f j) + g i := by
  have hrest : ∑ j ∈ places.erase i, g j = ∑ j ∈ places.erase i, f j :=
    Finset.sum_congr rfl fun j hj => hne j (Finset.ne_of_mem_erase hj)
  rw [← Finset.sum_erase_add _ f hi, ← Finset.sum_erase_add _ g hi, hrest]
  omega

end Caimr.Transition
