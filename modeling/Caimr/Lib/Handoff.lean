import Caimr.Lib.Transition

/-! A queue handed over in batches. Producers push at the end; the consumer swaps
the whole queue for an empty one when its last batch is used up, and takes the
batch's items from the front. `conservation` is the law of such a queue: what
was taken, what is left of the batch and what is still queued are, in this
order, what was there and what was pushed. -/
namespace Caimr.Handoff
open Transition

variable {α : Type}

structure State (α : Type) where
  batch : List α
  pending : List α

/-- Nothing pushed yet. -/
def State.empty : State α := ⟨[], []⟩

inductive Op (α : Type) where
  | push (a : α)
  | swap
  | take (a : α)

def Op.pushed : Op α → Option α
  | .push a => some a
  | _ => none

def Op.taken : Op α → Option α
  | .take a => some a
  | _ => none

/-- The items pushed by a run, in order. -/
def pushes (ops : List (Op α)) : List α := ops.filterMap Op.pushed

/-- The items taken by a run, in order. -/
def takes (ops : List (Op α)) : List α := ops.filterMap Op.taken

@[simp] theorem pushes_nil : pushes ([] : List (Op α)) = [] := rfl
@[simp] theorem takes_nil : takes ([] : List (Op α)) = [] := rfl

@[simp] theorem pushes_append (a b : List (Op α)) : pushes (a ++ b) = pushes a ++ pushes b :=
  List.filterMap_append

@[simp] theorem takes_append (a b : List (Op α)) : takes (a ++ b) = takes a ++ takes b :=
  List.filterMap_append

@[simp] theorem pushes_push (a : α) (ops : List (Op α)) : pushes (.push a :: ops) = a :: pushes ops := rfl
@[simp] theorem pushes_swap (ops : List (Op α)) : pushes (.swap :: ops) = pushes ops := rfl
@[simp] theorem pushes_take (a : α) (ops : List (Op α)) : pushes (.take a :: ops) = pushes ops := rfl
@[simp] theorem takes_push (a : α) (ops : List (Op α)) : takes (.push a :: ops) = takes ops := rfl
@[simp] theorem takes_swap (ops : List (Op α)) : takes (.swap :: ops) = takes ops := rfl
@[simp] theorem takes_take (a : α) (ops : List (Op α)) : takes (.take a :: ops) = a :: takes ops := rfl

variable [DecidableEq α]

def step (s : State α) : Op α → Option (State α)
  | .push a => some {s with pending := s.pending ++ [a]}
  | .swap => if s.batch = [] then some ⟨s.pending, []⟩ else none
  | .take a =>
    match s.batch with
    | [] => none
    | b :: rest => if a = b then some {s with batch := rest} else none

/-- What a step can do: queue an item, make the queue the batch, or take the
batch's first item. -/
theorem step_cases {s t : State α} {op : Op α} (h : step s op = some t) :
    (∃ a, op = .push a ∧ t = {s with pending := s.pending ++ [a]}) ∨
    (op = .swap ∧ s.batch = [] ∧ t = ⟨s.pending, []⟩) ∨
    (∃ a rest, op = .take a ∧ s.batch = a :: rest ∧ t = {s with batch := rest}) := by
  cases op with
  | push a => exact .inl ⟨a, rfl, by simpa [step] using h.symm⟩
  | swap =>
    simp only [step, Option.ite_none_right_eq_some, Option.some.injEq] at h
    exact .inr (.inl ⟨rfl, h.1, h.2.symm⟩)
  | take a =>
    cases hb : s.batch with
    | nil => simp [step, hb] at h
    | cons b rest =>
      simp only [step, hb, Option.ite_none_right_eq_some, Option.some.injEq] at h
      exact .inr (.inr ⟨a, rest, rfl, by rw [h.1], h.2.symm⟩)

/-- **Conservation.** Nothing is lost, repeated or reordered on the way. -/
theorem conservation {s t : State α} {ops : List (Op α)} (h : exec step s ops = some t) :
    takes ops ++ t.batch ++ t.pending = s.batch ++ s.pending ++ pushes ops := by
  induction ops generalizing s with
  | nil =>
    cases h
    simp
  | cons op rest ih =>
    obtain ⟨u, hop, hrest⟩ := exec_cons_some.mp h
    have htail := ih hrest
    obtain ⟨a, rfl, rfl⟩ | ⟨rfl, hb, rfl⟩ | ⟨a, more, rfl, hb, rfl⟩ := step_cases hop
    · simpa using htail
    · simpa [hb] using htail
    · simpa [hb] using htail

/-- Between two swaps the batch only shrinks from the front and the queue only
grows at the end. -/
theorem between_swaps {s t : State α} {ops : List (Op α)} (h : exec step s ops = some t)
    (hn : Op.swap ∉ ops) :
    takes ops ++ t.batch = s.batch ∧ t.pending = s.pending ++ pushes ops := by
  induction ops generalizing s with
  | nil =>
    cases h
    simp
  | cons op rest ih =>
    obtain ⟨u, hop, hrest⟩ := exec_cons_some.mp h
    simp only [List.mem_cons, not_or] at hn
    have htail := ih hrest hn.2
    obtain ⟨a, rfl, rfl⟩ | ⟨rfl, -, -⟩ | ⟨a, more, rfl, hb, rfl⟩ := step_cases hop
    · simpa using htail
    · exact absurd rfl hn.1
    · simpa [hb] using htail

/-- What a batch was is what had been pushed by the swap that made it: after a swap
and up to the next one, the items taken and the rest of the batch are everything
there was and everything pushed before. -/
theorem taken_since_swap {s t : State α} {a b : List (Op α)}
    (h : exec step s (a ++ Op.swap :: b) = some t) (hn : Op.swap ∉ b) :
    takes (a ++ Op.swap :: b) ++ t.batch = s.batch ++ s.pending ++ pushes a ∧
      t.pending = pushes b := by
  obtain ⟨u, v, ha, hs, hb⟩ := exec_at h
  have hu := conservation ha
  obtain ⟨hbatch, hpending⟩ := between_swaps hb hn
  obtain ⟨x, hx, -⟩ | ⟨-, hempty, rfl⟩ | ⟨x, more, hx, -, -⟩ := step_cases hs
  · cases hx
  · rw [hempty, List.append_nil] at hu
    refine ⟨?_, by simpa using hpending⟩
    rw [takes_append, takes_swap, List.append_assoc, hbatch, hu]
  · cases hx

end Caimr.Handoff
