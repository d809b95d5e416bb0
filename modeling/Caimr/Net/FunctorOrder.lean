import Caimr.Net.Eloop

/-! The functors of an eloop are run once and in the order in which they were queued: the
eloop is a queue handed over in batches. -/
namespace Caimr.Net.Eloop
open Transition

variable {F : Type}

/-- What is left of the batch, and what is queued. -/
def functors (l : Eloop F) : Handoff.State F := ⟨l.pc.batch, l.pendingFunctors⟩

/-- What a step is to the queue. -/
def Label.handoff : Label F → List (Handoff.Op F)
  | .emplace _ f => [.push f]
  | .swap => [.swap]
  | .call f => [.take f]
  | _ => []

theorem pushes_handoff (tr : List (Label F)) : Handoff.pushes (tr.flatMap Label.handoff) = queued tr := by
  induction tr with
  | nil => rfl
  | cons a tr ih =>
    rw [List.flatMap_cons, Handoff.pushes_append, ih]
    cases a <;> rfl

theorem takes_handoff (tr : List (Label F)) : Handoff.takes (tr.flatMap Label.handoff) = executed tr := by
  induction tr with
  | nil => rfl
  | cons a tr ih =>
    rw [List.flatMap_cons, Handoff.takes_append, ih]
    cases a <;> rfl

theorem swap_mem_handoff {tr : List (Label F)} :
    Handoff.Op.swap ∈ tr.flatMap Label.handoff ↔ Label.swap ∈ tr := by
  rw [List.mem_flatMap]
  constructor
  · intro ⟨a, ha, hs⟩
    cases a <;> simp only [Label.handoff, List.mem_singleton, List.not_mem_nil, reduceCtorEq] at hs
    exact ha
  · intro ha
    exact ⟨_, ha, List.mem_singleton_self _⟩

variable [DecidableEq F]

/-- Every step of the eloop is a step of the queue, or leaves it alone. -/
theorem step_handoff {l l' : Eloop F} {a : Label F} (h : step l a = some l') :
    exec Handoff.step l.functors a.handoff = some l'.functors := by
  cases step_cases h with
  | swap hpc => simp [Label.handoff, functors, LoopPc.batch, hpc, exec_cons, Handoff.step]
  | call f rest hpc => simp [Label.handoff, functors, LoopPc.batch, hpc, exec_cons, Handoff.step]
  | emplace t f hc => rfl
  | storeLooping hpc | clearQuit hpc | quits hpc | goesOn hpc | pollReturns _ hpc | handleRead hpc
  | endEvents hpc | storeCalling hpc | endCall _ hpc | clearCalling hpc | leave hpc =>
    simp [Label.handoff, functors, LoopPc.batch, hpc]
  | _ => rfl

/-- Every run of the eloop is a run of the queue. -/
theorem run_handoff {l l' : Eloop F} {tr : List (Label F)} (h : exec step l tr = some l') :
    exec Handoff.step l.functors (tr.flatMap Label.handoff) = some l'.functors :=
  exec_project (fun _ _ _ => step_handoff) h

/-- Up to the next swap the batch is only used up and the queue only grows. -/
theorem run_between_swaps {l l' : Eloop F} {tr : List (Label F)} (h : exec step l tr = some l')
    (hn : Label.swap ∉ tr) :
    executed tr ++ l'.pc.batch = l.pc.batch ∧ l'.pendingFunctors = l.pendingFunctors ++ queued tr := by
  rw [← takes_handoff, ← pushes_handoff]
  exact Handoff.between_swaps (run_handoff h) (fun hs => hn (swap_mem_handoff.mp hs))

/-- What one step calls, leaves and queues. -/
theorem step_conserves {l l' : Eloop F} {a : Label F} (h : step l a = some l') :
    executed [a] ++ (l'.pc.batch ++ l'.pendingFunctors) = l.pc.batch ++ l.pendingFunctors ++ queued [a] := by
  have hrun : exec Handoff.step l.functors ([a].flatMap Label.handoff) = some l'.functors := by
    rw [List.flatMap_singleton]
    exact step_handoff h
  rw [← takes_handoff, ← pushes_handoff, ← List.append_assoc]
  exact Handoff.conservation hrun

/-- What waits after a step has waited before, or has been queued by it. -/
theorem mem_functors {l l' : Eloop F} {a : Label F} (h : step l a = some l') {f : F}
    (hf : f ∈ l'.pc.batch ++ l'.pendingFunctors) : f ∈ l.pc.batch ++ l.pendingFunctors ∨ f ∈ queued [a] := by
  rw [← List.mem_append, ← step_conserves h]
  exact List.mem_append_right _ hf

/-- What is called has waited. -/
theorem mem_of_call {l l' : Eloop F} {f : F} (h : step l (.call f) = some l') :
    f ∈ l.pc.batch ++ l.pendingFunctors := by
  have hall := step_conserves h
  rw [show queued [Label.call f] = [] from rfl, List.append_nil] at hall
  rw [← hall]
  exact List.mem_cons_self

theorem run_conserves {tid : Tid} {l : Eloop F} {tr : List (Label F)}
    (h : exec step (create tid) tr = some l) :
    executed tr ++ l.pc.batch ++ l.pendingFunctors = queued tr := by
  rw [← takes_handoff, ← pushes_handoff]
  exact Handoff.conservation (run_handoff h)

/-- From a swap to the next one, what has been called and the rest of the batch are what
was queued before the swap, and the queue is what was queued after it. -/
theorem run_since_swap {tid : Tid} {l : Eloop F} {a b : List (Label F)}
    (h : exec step (create tid) (a ++ .swap :: b) = some l) (hn : Label.swap ∉ b) :
    executed (a ++ .swap :: b) ++ l.pc.batch = queued a ∧ l.pendingFunctors = queued b := by
  have hrun := run_handoff h
  rw [List.flatMap_append, List.flatMap_cons] at hrun
  have hsince := Handoff.taken_since_swap hrun (fun hs => hn (swap_mem_handoff.mp hs))
  rw [← takes_handoff, ← pushes_handoff, ← pushes_handoff, List.flatMap_append, List.flatMap_cons]
  exact hsince

theorem swap_batch {l l' : Eloop F} (h : step l .swap = some l') : l.pc.batch = [] := by
  cases step_cases h with
  | swap hpc => rw [hpc, LoopPc.batch] <;> nofun

/-- The batch is empty when `do_pending_functors` is done with it. -/
theorem clearCalling_batch {l l' : Eloop F} (h : step l .clearCalling = some l') : l.pc.batch = [] := by
  cases step_cases h with
  | clearCalling hpc => rw [hpc, LoopPc.batch]

/-- **Functors run exactly once and in order.** Whatever the threads do, the functors
called so far, the rest of the batch and the queue are, in this order, what was queued;
and a call of `do_pending_functors` runs what was queued before its swap, no more and,
once it is over, no less. -/
theorem functors_once_in_order {tid : Tid} {l : Eloop F} {tr : List (Label F)}
    (h : exec step (create tid) tr = some l) :
    executed tr ++ l.pc.batch ++ l.pendingFunctors = queued tr ∧
      ∀ a b u, tr = a ++ .swap :: b → Label.swap ∉ b → exec step (create tid) a = some u →
        executed a ++ u.pendingFunctors = queued a ∧ executed b ++ l.pc.batch = u.pendingFunctors ∧
          (Label.clearCalling ∈ b → executed b = u.pendingFunctors) := by
  refine ⟨run_conserves h, ?_⟩
  rintro a b u rfl hb hu
  obtain ⟨v, w, hv, hswap, hw⟩ := exec_at h
  rw [hv, Option.some.injEq] at hu
  subst hu
  have hall := run_conserves hv
  rw [swap_batch hswap, List.append_nil] at hall
  have hbatch : ∀ c x, exec step w c = some x → Label.swap ∉ c → executed c ++ x.pc.batch = v.pendingFunctors := by
    intro c x hx hc
    have hsince := (run_since_swap (exec_split.mpr ⟨v, hv, exec_cons_some.mpr ⟨w, hswap, hx⟩⟩) hc).1
    rw [executed_append, List.append_assoc, ← hall] at hsince
    exact List.append_cancel_left hsince
  refine ⟨hall, hbatch b l hw hb, fun hc => ?_⟩
  -- The call is over: what it had run by then is all there was.
  obtain ⟨b₁, b₂, rfl⟩ := List.append_of_mem hc
  obtain ⟨x, y, hx, hclear, -⟩ := exec_at hw
  have hdone := hbatch b₁ x hx (fun hs => hb (List.mem_append_left _ hs))
  rw [clearCalling_batch hclear, List.append_nil] at hdone
  have hrun := hbatch _ l hw hb
  rw [executed_append, hdone, List.append_assoc, List.append_right_eq_self] at hrun
  rw [executed_append, hdone, (List.append_eq_nil_iff.mp hrun).1, List.append_nil]

/-- A functor of another thread queues itself again while it runs; the call it runs in
ends without it. -/
theorem functors_once_in_order_requeue : ∃ (tr : List (Label Nat)) (l : Eloop Nat),
    exec step (create 0) tr = some l ∧ l.pc = .testing ∧ executed tr = [7] ∧
      executed tr ++ l.pc.batch ++ l.pendingFunctors = [7, 7] :=
  ⟨[.storeLooping, .clearQuit, .loadQuit, .emplace 1 7, .testWakeup 1, .wakeup 1, .pollReturns true,
    .handleRead, .endEvents, .storeCalling, .swap, .call 7, .emplace 0 7, .testWakeup 0, .wakeup 0,
    .endQueue 0, .endCall, .clearCalling], _, rfl, rfl, rfl, (@functors_once_in_order Nat _ 0 _ _ rfl).1⟩

end Caimr.Net.Eloop
