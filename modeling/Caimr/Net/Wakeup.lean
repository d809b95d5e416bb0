import Caimr.Net.FunctorOrder

/-! No wakeup is lost. While `loop` is blocked, a functor is left in the queue only by
another thread that is still on its way to the eventfd: any other is covered by what
the eventfd counts, or by a swap that comes before the next `poll`. -/
namespace Caimr.Net
open Transition

variable {F : Type}

/-- The queue is swapped out before `loop` blocks again, if it ever does. -/
def LoopPc.swapsFirst : LoopPc F → Bool
  | .handling false | .calling | .swapping | .returned => true
  | _ => false

namespace Eloop

/-! ### The loop's own thread -/

/-- What holds at every point of `loop`. -/
structure LoopInv (l : Eloop F) : Prop where
  rest : l.pc.inUserCode = false → l.AtRest
  woken : l.pc = .handling true → 0 < l.wakeups
  swapping : l.pc = .swapping → l.callingPendingFunctors = true
  running : ∀ rest, l.pc = .running rest → l.callingPendingFunctors = true
  inFunctor : ∀ rest, l.pc = .inFunctor rest → l.callingPendingFunctors = true

theorem create_loopInv (tid : Tid) : LoopInv (create tid : Eloop F) := by
  constructor <;> simp [create, LoopPc.inUserCode]

/-- A step of a caller moves no other thread, and the loop's thread only in user code. -/
theorem LoopInv.of_call {l l' : Eloop F} {t : Tid} {c : CallPc} (inv : LoopInv l)
    (hthread : l'.threadId = l.threadId) (hpc : l'.pc = l.pc)
    (hcalling : l'.callingPendingFunctors = l.callingPendingFunctors) (hwakeups : l.wakeups ≤ l'.wakeups)
    (hcalls : l'.calls = Function.update l.calls t c) (hmay : t = l.threadId → l.pc.inUserCode = true) :
    LoopInv l' where
  rest h := by
    rw [hpc] at h
    have hne : l.threadId ≠ t := by
      intro he
      rw [hmay he.symm] at h
      cases h
    rw [AtRest, hthread, hcalls, Function.update_of_ne hne]
    exact inv.rest h
  woken h := Nat.lt_of_lt_of_le (inv.woken (hpc ▸ h)) hwakeups
  swapping h := hcalling ▸ inv.swapping (hpc ▸ h)
  running rest h := hcalling ▸ inv.running rest (hpc ▸ h)
  inFunctor rest h := hcalling ▸ inv.inFunctor rest (hpc ▸ h)

/-- The loop's thread is in a call only in user code. -/
theorem LoopInv.user {l : Eloop F} (inv : LoopInv l) {t : Tid} (hc : l.calls t ≠ .idle)
    (ht : t = l.threadId) : l.pc.inUserCode = true := by
  by_contra hn
  subst ht
  exact hc (inv.rest (by simpa using hn))

variable [DecidableEq F]

theorem step_loopInv {l l' : Eloop F} {a : Label F} (inv : LoopInv l) (h : step l a = some l') :
    LoopInv l' := by
  cases step_cases h with
  | storeLooping hpc hrest => exact ⟨fun _ => hrest, nofun, nofun, nofun, nofun⟩
  | clearQuit hpc | quits hpc | goesOn hpc =>
    exact ⟨fun _ => inv.rest (by rw [hpc]; rfl), nofun, nofun, nofun, nofun⟩
  | pollReturns woken hpc hw =>
    refine ⟨nofun, fun he => hw ?_, nofun, nofun, nofun⟩
    cases he
    rfl
  | handleRead hpc hrest => exact ⟨nofun, nofun, nofun, nofun, nofun⟩
  | endEvents hpc hrest => exact ⟨fun _ => hrest, nofun, nofun, nofun, nofun⟩
  | storeCalling hpc => exact ⟨fun _ => inv.rest (by rw [hpc]; rfl), nofun, fun _ => rfl, nofun, nofun⟩
  | swap hpc =>
    exact ⟨fun _ => inv.rest (by rw [hpc]; rfl), nofun, nofun, fun _ _ => inv.swapping hpc, nofun⟩
  | call f rest hpc => exact ⟨nofun, nofun, nofun, nofun, fun _ _ => inv.running _ hpc⟩
  | endCall rest hpc hrest => exact ⟨fun _ => hrest, nofun, nofun, fun _ _ => inv.inFunctor _ hpc, nofun⟩
  | clearCalling hpc => exact ⟨fun _ => inv.rest (by rw [hpc]; rfl), nofun, nofun, nofun, nofun⟩
  | leave hpc => exact ⟨nofun, nofun, nofun, nofun, nofun⟩
  | emplace t f hmay => exact inv.of_call rfl rfl rfl (Nat.le_refl _) rfl hmay.2
  | storeQuit t hmay => exact inv.of_call rfl rfl rfl (Nat.le_refl _) rfl hmay.2
  | mustWake t hc | needNotWake t hc | endQueue t hc =>
    exact inv.of_call rfl rfl rfl (Nat.le_refl _) rfl (inv.user (by rw [hc]; decide))
  | wakeup t hc | wakeupQuit t hc =>
    exact inv.of_call rfl rfl rfl (Nat.le_succ _) rfl (inv.user (by rw [hc]; decide))

theorem run_loopInv {tid : Tid} {l : Eloop F} {tr : List (Label F)}
    (h : exec step (create tid) tr = some l) : LoopInv l :=
  exec_preserves (fun _ _ _ => step_loopInv) (create_loopInv tid) h

/-! ### What covers a queued functor -/

/-- The thread has queued a functor and has still to write to the eventfd. -/
structure OnItsWay (l : Eloop F) (t : Tid) : Prop where
  call : l.calls t = .queued ∨ l.calls t = .waking
  own : t = l.threadId → ∃ rest, l.pc = .inFunctor rest

/-- The functor that `t` queued before the steps `b` will not be slept over. -/
inductive Covered (l : Eloop F) (t : Tid) (b : List (Label F)) : Prop where
  | counted : 0 < l.wakeups → Covered l t b
  | swapped : l.pc.swapsFirst = true → Covered l t b
  | onItsWay : l.OnItsWay t → Label.wakeup t ∉ b → Covered l t b

/-- What the eventfd counts is used up only by `handle_read`. -/
theorem step_counted {l l' : Eloop F} {a : Label F} (h : step l a = some l') (hw : 0 < l.wakeups) :
    0 < l'.wakeups ∨ l'.pc = .handling false := by
  cases step_cases h with
  | handleRead => exact .inr rfl
  | wakeup | wakeupQuit => exact .inl (Nat.succ_pos _)
  | _ => exact .inl hw

theorem step_swapsFirst {l l' : Eloop F} {a : Label F} (h : step l a = some l') (hn : a ≠ .swap)
    (hs : l.pc.swapsFirst = true) : l'.pc.swapsFirst = true := by
  cases step_cases h with
  | swap => exact absurd rfl hn
  | storeLooping hpc | clearQuit hpc | quits hpc | goesOn hpc | pollReturns _ hpc | call _ _ hpc
  | endCall _ hpc | clearCalling hpc =>
    rw [hpc] at hs
    cases hs
  | handleRead | endEvents | storeCalling | leave => rfl
  | _ => exact hs

/-- A thread on its way gets to the eventfd: the loop's own thread because it finds
`calling_pending_functors_` set. -/
theorem step_onItsWay {l l' : Eloop F} {a : Label F} {t : Tid} (inv : LoopInv l) (h : step l a = some l')
    (ht : l.OnItsWay t) : l'.OnItsWay t ∧ a ≠ .wakeup t ∨ 0 < l'.wakeups := by
  obtain ⟨hcall, hown⟩ := ht
  have hbusy : l.calls t ≠ .idle := by rcases hcall with hc | hc <;> rw [hc] <;> decide
  cases step_cases h with
  | wakeup | wakeupQuit => exact .inr (Nat.succ_pos _)
  | storeLooping hpc | clearQuit hpc | quits hpc | goesOn hpc | pollReturns _ hpc | handleRead hpc
  | endEvents hpc | storeCalling hpc | swap hpc | call _ _ hpc | clearCalling hpc | leave hpc =>
    refine .inl ⟨⟨hcall, fun he => ?_⟩, nofun⟩
    obtain ⟨rest, hr⟩ := hown he
    rw [hr] at hpc
    cases hpc
  | endCall rest hpc hrest =>
    refine .inl ⟨⟨hcall, fun he => ?_⟩, nofun⟩
    subst he
    exact absurd hrest hbusy
  | emplace u f hmay | storeQuit u hmay =>
    have hne : t ≠ u := by
      rintro rfl
      exact hbusy hmay.1
    refine .inl ⟨⟨?_, hown⟩, nofun⟩
    rw [setCall_calls, if_neg hne]
    exact hcall
  | mustWake u hc hw =>
    refine .inl ⟨⟨?_, hown⟩, nofun⟩
    rw [setCall_calls]
    split
    · exact .inr rfl
    · exact hcall
  | needNotWake u hc hu hcalling =>
    have hne : t ≠ u := by
      rintro rfl
      obtain ⟨rest, hr⟩ := hown hu
      rw [inv.inFunctor rest hr] at hcalling
      cases hcalling
    refine .inl ⟨⟨?_, hown⟩, nofun⟩
    rw [setCall_calls, if_neg hne]
    exact hcall
  | endQueue u hc =>
    have hne : t ≠ u := by
      rintro rfl
      rcases hcall with hq | hq <;> rw [hq] at hc <;> cases hc
    refine .inl ⟨⟨?_, hown⟩, nofun⟩
    rw [setCall_calls, if_neg hne]
    exact hcall

theorem step_covered {l l' : Eloop F} {a : Label F} {t : Tid} {b : List (Label F)} (inv : LoopInv l)
    (h : step l a = some l') (hn : a ≠ .swap) (hcov : l.Covered t b) : l'.Covered t (b ++ [a]) := by
  cases hcov with
  | counted hw =>
    rcases step_counted h hw with hw | hpc
    · exact .counted hw
    · exact .swapped (by rw [hpc]; rfl)
  | swapped hs => exact .swapped (step_swapsFirst h hn hs)
  | onItsWay ht hb =>
    rcases step_onItsWay inv h ht with ⟨ht, ha⟩ | hw
    · refine .onItsWay ht ?_
      rw [List.mem_append, List.mem_singleton, not_or]
      exact ⟨hb, ha.symm⟩
    · exact .counted hw

/-- Whoever queues a functor once `loop` has been entered has it covered. -/
theorem emplace_covered {l l' : Eloop F} {t : Tid} {f : F} (inv : LoopInv l)
    (h : step l (.emplace t f) = some l') (hin : l.pc ≠ .notLooping) : l'.Covered t [] := by
  cases step_cases h with
  | emplace t f hmay =>
    have hqueued : (setCall {l with pendingFunctors := l.pendingFunctors ++ [f]} t .queued).calls t = .queued := by
      rw [setCall_calls, if_pos rfl]
    by_cases ht : t = l.threadId
    · have huser := hmay.2 ht
      cases hpc : l.pc with
      | handling woken =>
        cases woken with
        | true => exact .counted (inv.woken hpc)
        | false => exact .swapped rfl
      | inFunctor rest => exact .onItsWay ⟨.inl hqueued, fun _ => ⟨rest, rfl⟩⟩ List.not_mem_nil
      | returned => exact .swapped rfl
      | notLooping => exact absurd hpc hin
      | _ => rw [hpc] at huser; cases huser
    · exact .onItsWay ⟨.inl hqueued, fun he => absurd he ht⟩ List.not_mem_nil

/-! ### Runs -/

/-- `loop` is entered once. -/
theorem step_entered {l l' : Eloop F} {a : Label F} (h : step l a = some l')
    (hin : l.pc ≠ .notLooping ∨ a = .storeLooping) : l'.pc ≠ .notLooping := by
  cases step_cases h with
  | emplace | mustWake | needNotWake | wakeup | endQueue | storeQuit | wakeupQuit =>
    rcases hin with hin | hin
    · exact hin
    · cases hin
  | _ => nofun

theorem run_entered {tid : Tid} {l : Eloop F} {tr : List (Label F)}
    (h : exec step (create tid) tr = some l) (hin : Label.storeLooping ∈ tr) : l.pc ≠ .notLooping := by
  refine run_induction (fun tr l => Label.storeLooping ∈ tr → l.pc ≠ .notLooping) nofun ?_ h hin
  intro tr l a l' _ ih ha hin
  rcases List.mem_append.mp hin with hin | hin
  · exact step_entered ha (.inl (ih hin))
  · exact step_entered ha (.inr (List.mem_singleton.mp hin).symm)

/-- The run `tr` has queued `f` after `a`, and it is still in the queue. -/
def StillQueued (tr a : List (Label F)) (t : Tid) (f : F) (b : List (Label F)) : Prop :=
  tr = a ++ .emplace t f :: b ∧ Label.swap ∉ b

/-- Every functor in the queue has been put there since the last swap. -/
theorem pending_stillQueued {tid : Tid} {l : Eloop F} {tr : List (Label F)}
    (h : exec step (create tid) tr = some l) {f : F} (hf : f ∈ l.pendingFunctors) :
    ∃ a t b, StillQueued tr a t f b := by
  refine run_induction (fun tr l => ∀ f ∈ l.pendingFunctors, ∃ a t b, StillQueued tr a t f b) nofun ?_ h f hf
  intro tr l a l' _ ih ha f hf
  have hkeep : f ∈ l.pendingFunctors → a ≠ .swap → ∃ p t b, StillQueued (tr ++ [a]) p t f b := by
    intro hf hn
    obtain ⟨p, t, b, rfl, hb⟩ := ih f hf
    refine ⟨p, t, b ++ [a], by simp, ?_⟩
    rw [List.mem_append, List.mem_singleton, not_or]
    exact ⟨hb, hn.symm⟩
  cases step_cases ha with
  | swap => cases hf
  | emplace t g =>
    rcases List.mem_append.mp hf with hf | hf
    · exact hkeep hf nofun
    · obtain rfl := List.mem_singleton.mp hf
      exact ⟨tr, t, [], rfl, List.not_mem_nil⟩
  | _ => exact hkeep hf nofun

theorem run_covered {tid : Tid} {l : Eloop F} {tr a b : List (Label F)} {t : Tid} {f : F}
    (h : exec step (create tid) tr = some l) (hin : Label.storeLooping ∈ a)
    (hq : StillQueued tr a t f b) : l.Covered t b := by
  obtain ⟨rfl, hb⟩ := hq
  obtain ⟨u, v, hu, hemplace, hv⟩ := exec_at h
  have hinv : LoopInv v := step_loopInv (run_loopInv hu) hemplace
  have hstart : v.Covered t [] := emplace_covered (run_loopInv hu) hemplace (run_entered hu hin)
  refine (run_induction (fun b l => Label.swap ∉ b → LoopInv l ∧ l.Covered t b)
    (fun _ => ⟨hinv, hstart⟩) ?_ hv hb).2
  intro b l a l' _ ih ha hn
  rw [List.mem_append, List.mem_singleton, not_or] at hn
  obtain ⟨inv, hcov⟩ := ih hn.1
  exact ⟨step_loopInv inv ha, step_covered inv ha (Ne.symm hn.2) hcov⟩

/-- **No lost wakeup.** Where `loop` is blocked in `poll`, or about to be, with nothing
counted by the eventfd: whatever is in the queue is there since the last swap, and what
was queued since `loop` was entered is left by another thread that is between its push
and its write to the eventfd. -/
theorem no_lost_wakeup {tid : Tid} {l : Eloop F} {tr : List (Label F)}
    (h : exec step (create tid) tr = some l) (hp : l.pc = .polling) (hw : l.wakeups = 0) :
    (∀ f ∈ l.pendingFunctors, ∃ a t b, StillQueued tr a t f b) ∧
      ∀ a t f b, StillQueued tr a t f b → Label.storeLooping ∈ a →
        t ≠ tid ∧ (l.calls t = .queued ∨ l.calls t = .waking) ∧ Label.wakeup t ∉ b := by
  refine ⟨fun f hf => pending_stillQueued h hf, fun a t f b hq hin => ?_⟩
  cases run_covered h hin hq with
  | counted hpos => omega
  | swapped hs =>
    rw [hp] at hs
    cases hs
  | onItsWay ht hb =>
    refine ⟨?_, ht.call, hb⟩
    rintro rfl
    obtain ⟨rest, hr⟩ := ht.own (run_threadId h).symm
    rw [hp] at hr
    cases hr

/-- The loop's thread queues a functor from an event callback, another thread pushes one
after the swap and stops short of its write. -/
theorem no_lost_wakeup_stalled : ∃ (a b : List (Label Nat)) (l : Eloop Nat),
    exec step (create 0) (a ++ .emplace 1 9 :: b) = some l ∧ l.pc = .polling ∧ l.pendingFunctors = [9] ∧
      (l.calls 1 = .queued ∨ l.calls 1 = .waking) ∧ Label.wakeup 1 ∉ b := by
  have hrun : ∃ l : Eloop Nat, exec step (create 0) (([.storeLooping, .clearQuit, .loadQuit,
      .pollReturns false, .emplace 0 5, .testWakeup 0, .endQueue 0, .endEvents, .storeCalling, .swap,
      .call 5] : List (Label Nat)) ++
      (.emplace 1 9 :: [.endCall, .clearCalling, .testWakeup 1, .loadQuit] : List (Label Nat))) = some l ∧
      l.pc = .polling ∧ l.wakeups = 0 ∧ l.pendingFunctors = [9] := ⟨_, rfl, rfl, rfl, rfl⟩
  obtain ⟨l, h, hp, hw, hf⟩ := hrun
  exact ⟨_, _, l, h, hp, hf, ((no_lost_wakeup h hp hw).2 _ 1 9 _ ⟨rfl, by decide⟩ (by decide)).2⟩

end Eloop

end Caimr.Net
