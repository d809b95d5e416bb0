import Mathlib.Algebra.BigOperators.Group.Finset.Basic
import Mathlib.Data.List.Perm.Basic
import Mathlib.Data.Multiset.Count

/-! Work that waits in a bag. A step takes some pieces of work out and puts others in;
what waits in several places is one bag, the sum of theirs. Counting the pieces of one
kind turns this into a ledger: what is taken out and what is put in balance. -/
namespace Caimr.Bag

variable {α ι : Type}

/-- The bag `b` becomes `b'` as `done` is taken out of it and `made` put in. -/
def Exchange (b done made b' : Multiset α) : Prop := ∃ rest, b = rest + done ∧ b' = rest + made

namespace Exchange
variable {b b' b'' done made : Multiset α}

theorem refl (b : Multiset α) : Exchange b 0 0 b := ⟨b, (add_zero b).symm, (add_zero b).symm⟩

/-- Putting in more afterwards. -/
theorem more {extra : Multiset α} (h : Exchange b done made b') (h' : Exchange b' 0 extra b'') :
    Exchange b done (made + extra) b'' := by
  obtain ⟨rest, rfl, rfl⟩ := h
  obtain ⟨rest', he, rfl⟩ := h'
  rw [add_zero] at he
  exact ⟨rest, rfl, by rw [← he, add_assoc]⟩

/-- What waits next to the bag stays there. -/
theorem frame (h : Exchange b done made b') (other : Multiset α) :
    Exchange (other + b) done made (other + b') := by
  obtain ⟨rest, rfl, rfl⟩ := h
  exact ⟨other + rest, (add_assoc ..).symm, (add_assoc ..).symm⟩

theorem mem_of_done (h : Exchange b done made b') {x : α} (hx : x ∈ done) : x ∈ b := by
  obtain ⟨rest, rfl, -⟩ := h
  exact Multiset.mem_add.mpr (.inr hx)

theorem mem_of_made (h : Exchange b done made b') {x : α} (hx : x ∈ made) : x ∈ b' := by
  obtain ⟨rest, -, rfl⟩ := h
  exact Multiset.mem_add.mpr (.inr hx)

/-- What is in the bag afterwards was there before, or has been put in. -/
theorem mem_cases (h : Exchange b done made b') {x : α} (hx : x ∈ b') : x ∈ b ∨ x ∈ made := by
  obtain ⟨rest, rfl, rfl⟩ := h
  exact (Multiset.mem_add.mp hx).imp_left fun hr => Multiset.mem_add.mpr (.inl hr)

/-- What is not taken out stays. -/
theorem mem_stays (h : Exchange b done made b') {x : α} (hx : x ∈ b) (hd : x ∉ done) : x ∈ b' := by
  obtain ⟨rest, rfl, rfl⟩ := h
  exact Multiset.mem_add.mpr (.inl ((Multiset.mem_add.mp hx).resolve_right hd))

/-- The ledger of one kind of work. -/
theorem countP_eq (h : Exchange b done made b') (p : α → Prop) [DecidablePred p] :
    b'.countP p + done.countP p = b.countP p + made.countP p := by
  obtain ⟨rest, rfl, rfl⟩ := h
  rw [Multiset.countP_add, Multiset.countP_add]
  omega

end Exchange

/-- The ledger of a list in which one item takes the place of another. -/
theorem countP_set {l : List α} {i : Nat} {a : α} (h : l[i]? = some a) (q : α → Bool) (b : α) :
    (l.set i b).countP q + (q a).toNat = l.countP q + (q b).toNat := by
  obtain ⟨hi, rfl⟩ := List.getElem?_eq_some_iff.mp h
  have hnew := (List.set_perm_cons_eraseIdx hi b).countP_eq q
  have hold := (List.getElem_cons_eraseIdx_perm hi).countP_eq q
  rw [List.countP_cons] at hnew hold
  rw [hnew, ← hold]
  cases q l[i] <;> cases q b <;> simp

variable [DecidableEq ι]

/-- An exchange in one place is an exchange in the whole. -/
theorem exchange_sum {f g : ι → Multiset α} {places : Finset ι} {i : ι} {done made : Multiset α}
    (hi : i ∈ places) (h : Exchange (f i) done made (g i)) (hne : ∀ j ≠ i, g j = f j) :
    Exchange (∑ j ∈ places, f j) done made (∑ j ∈ places, g j) := by
  rw [← Finset.sum_erase_add _ f hi, ← Finset.sum_erase_add _ g hi]
  have hrest : ∑ j ∈ places.erase i, g j = ∑ j ∈ places.erase i, f j :=
    Finset.sum_congr rfl fun j hj => hne j (Finset.ne_of_mem_erase hj)
  rw [hrest]
  exact h.frame _

end Caimr.Bag
