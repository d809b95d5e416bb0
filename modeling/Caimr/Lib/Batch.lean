import Mathlib.Data.List.Basic
import Caimr.Lib.Handoff

/-! A queue handed over in batches, as in `Handoff`, whose items live until the whole batch
is done with: an item that has been taken is kept until the batch is cleared. So an item may
keep something alive that another item of its batch, or an earlier one, uses: an owner
outlives what is in front of it. -/
namespace Caimr.Batch

variable {α : Type}

structure State (α : Type) extends Handoff.State α where
  /-- The items of the batch that have been taken. -/
  taken : List α

namespace State

def empty : State α := ⟨.empty, []⟩

def push (s : State α) (a : α) : State α := {s with pending := s.pending ++ [a]}

/-- The queue becomes the batch. -/
def swap (s : State α) : State α := ⟨⟨s.pending, []⟩, s.taken⟩

/-- The batch's first item is taken. -/
def take (s : State α) : State α := ⟨⟨s.batch.tail, s.pending⟩, s.taken ++ s.batch.head?.toList⟩

def clear (s : State α) : State α := {s with taken := []}

/-- The items that are alive. -/
def held (s : State α) : List α := s.taken ++ s.batch ++ s.pending

theorem held_push (s : State α) (a : α) : (s.push a).held = s.held ++ [a] := by
  simp [held, push]

theorem held_swap {s : State α} (h : s.batch = []) : s.swap.held = s.held := by
  simp [held, swap, h]

theorem held_take (s : State α) : s.take.held = s.held := by
  simp only [held, take]
  cases s.batch <;> simp

theorem held_clear {s : State α} (h : s.batch = []) : s.held = s.taken ++ s.clear.held := by
  simp [held, clear, h]

/-! ### Owners -/

/-- Each item that `user` holds of has an item that `owner` holds of, which is cleared no
earlier than it is taken. -/
structure Outlived (user owner : α → Bool) (s : State α) : Prop where
  batch : s.batch.any user = true → s.held.any owner = true
  pending : s.pending.any user = true → s.pending.any owner = true

instance (user owner : α → Bool) (s : State α) : Decidable (s.Outlived user owner) :=
  decidable_of_iff (_ ∧ _) ⟨fun h => ⟨h.1, h.2⟩, fun h => ⟨h.batch, h.pending⟩⟩

variable {user owner : α → Bool} {s : State α}

/-- An owner outlives all that is there. -/
theorem outlived_push {a : α} (ha : owner a = true) : (s.push a).Outlived user owner := by
  refine ⟨fun _ => ?_, fun _ => ?_⟩
  · rw [held_push]
    simp [ha]
  · simp [State.push, ha]

theorem Outlived.swap (h : s.Outlived user owner) : s.swap.Outlived user owner := by
  refine ⟨fun hu => ?_, nofun⟩
  simp [held, State.swap, h.pending hu]

theorem Outlived.take (h : s.Outlived user owner) : s.take.Outlived user owner := by
  refine ⟨fun hu => ?_, h.pending⟩
  rw [held_take]
  apply h.batch
  simp only [State.take] at hu
  obtain ⟨a, ha, hu⟩ := List.any_eq_true.mp hu
  exact List.any_eq_true.mpr ⟨a, List.mem_of_mem_tail ha, hu⟩

theorem Outlived.clear (h : s.Outlived user owner) (hb : s.batch = []) : s.clear.Outlived user owner := by
  refine ⟨fun hu => ?_, h.pending⟩
  simp only [State.clear, hb] at hu
  cases hu

end State

end Caimr.Batch
