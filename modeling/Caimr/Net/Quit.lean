import Mathlib.Data.List.Basic
import Caimr.Net.Wakeup

/-! What `quit` leaves behind. `loop` tests `quit_` right after a batch, and what is
queued after the batch's swap waits for the next one; so whether a functor that was
queued in good time is still run depends on where in `loop` the `quit` falls. -/
namespace Caimr.Net
open Transition

variable {F : Type}

/-- If `quit_` is set here, the queue is swapped out once more before `loop` returns: it
has still to clear `quit_`, or it has passed the test and not yet swapped. -/
def LoopPc.swapAhead : LoopPc F → Bool
  | .notLooping | .entering | .polling | .handling _ | .calling | .swapping => true
  | _ => false

namespace Eloop

/-- Every functor whose `queue_in_loop` returned before some `quit` was called has been
executed in the run. -/
def NoTaskLost (tr : List (Label F)) : Prop :=
  ∀ a t f b u c, tr = a ++ .emplace t f :: b ++ .storeQuit u :: c → Label.endQueue t ∈ b →
    queued a ++ [f] <+: executed tr

/-- After the run `tr`, in the state `l`, quitting leaves no functor behind. -/
def QuitSafe (tr : List (Label F)) (l : Eloop F) : Prop :=
  l.pc.swapAhead = true ∨ ∀ a t f b, StillQueued tr a t f b → Label.endQueue t ∉ b

variable [DecidableEq F]

/-! ### What a run has executed -/

/-- Without a swap, only what was queued before is executed. -/
theorem executed_before {tid : Tid} {l : Eloop F} {a b : List (Label F)}
    (h : exec step (create tid) (a ++ b) = some l) (hn : Label.swap ∉ b) :
    executed (a ++ b) <+: queued a := by
  obtain ⟨v, hv, hl⟩ := exec_split.mp h
  refine ⟨l.pc.batch ++ v.pendingFunctors, ?_⟩
  rw [executed_append, List.append_assoc, ← List.append_assoc (executed b), (run_between_swaps hl hn).1,
    ← List.append_assoc]
  exact run_conserves hv

/-- With a swap after it, what was queued is executed by the time the batch is used up. -/
theorem executed_after {tid : Tid} {l : Eloop F} {a b : List (Label F)} {t : Tid} {f : F}
    (h : exec step (create tid) (a ++ .emplace t f :: b) = some l) (hl : l.pc.batch = [])
    (hs : Label.swap ∈ b) : queued a ++ [f] <+: executed (a ++ .emplace t f :: b) := by
  obtain ⟨b₁, _, b₂, rfl, rfl, hlast⟩ := exists_last ⟨_, hs, rfl⟩
  have hassoc : a ++ .emplace t f :: (b₁ ++ .swap :: b₂) = (a ++ .emplace t f :: b₁) ++ .swap :: b₂ := by simp
  rw [hassoc] at h ⊢
  have hsince := (run_since_swap h (fun hm => hlast _ hm rfl)).1
  rw [hl, List.append_nil] at hsince
  refine ⟨queued b₁, ?_⟩
  rw [hsince, queued_append, List.append_assoc]
  rfl

/-! ### Quitting without a swap -/

/-- `quit_` is set and `loop` is past its swap. -/
def Ending (l : Eloop F) : Prop := l.quit = true ∧ l.pc.swapAhead = false

/-- Then it does not swap again. -/
theorem step_ending {l l' : Eloop F} {a : Label F} (h : step l a = some l') (he : l.Ending) :
    l'.Ending ∧ a ≠ .swap := by
  obtain ⟨hq, hs⟩ := he
  cases step_cases h with
  | storeLooping hpc | clearQuit hpc | pollReturns _ hpc | handleRead hpc | endEvents hpc
  | storeCalling hpc | swap hpc =>
    rw [hpc] at hs
    cases hs
  | goesOn hpc hq' =>
    rw [hq] at hq'
    cases hq'
  | quits | call | endCall | clearCalling | leave => exact ⟨⟨hq, rfl⟩, nofun⟩
  | storeQuit => exact ⟨⟨rfl, hs⟩, nofun⟩
  | _ => exact ⟨⟨hq, hs⟩, nofun⟩

theorem run_ending {l l' : Eloop F} {tr : List (Label F)} (h : exec step l tr = some l') (he : l.Ending) :
    l'.Ending ∧ Label.swap ∉ tr := by
  refine run_induction (fun tr l' => l'.Ending ∧ Label.swap ∉ tr) ⟨he, List.not_mem_nil⟩ ?_ h
  intro tr m a m' _ ih ha
  obtain ⟨he, hn⟩ := step_ending ha ih.1
  refine ⟨he, ?_⟩
  rw [List.mem_append, List.mem_singleton, not_or]
  exact ⟨ih.2, hn.symm⟩

/-- `loop` has a swap before it, or will have unless somebody quits. -/
def GoingOn (l : Eloop F) : Prop := l.pc.swapAhead = true ∨ (l.pc = .testing ∧ l.quit = false)

theorem step_goingOn {l l' : Eloop F} {a : Label F} (h : step l a = some l') (hg : l.GoingOn)
    (hs : a ≠ .swap) (hq : ∀ t, a ≠ .storeQuit t) : l'.GoingOn := by
  cases step_cases h with
  | storeLooping | goesOn | pollReturns | handleRead | endEvents | storeCalling => exact .inl rfl
  | clearQuit => exact .inr ⟨rfl, rfl⟩
  | swap => exact absurd rfl hs
  | storeQuit t => exact absurd rfl (hq t)
  | quits hpc hquit =>
    rcases hg with hg | ⟨-, hg⟩
    · rw [hpc] at hg
      cases hg
    · rw [hquit] at hg
      cases hg
  | call _ _ hpc | endCall _ hpc | clearCalling hpc | leave hpc =>
    rcases hg with hg | ⟨hg, -⟩
    · rw [hpc] at hg
      cases hg
    · rw [hpc] at hg
      cases hg
  | _ => exact hg

/-- A `loop` that returns has swapped on the way, unless somebody quit. -/
theorem run_goingOn {l l' : Eloop F} {tr : List (Label F)} (h : exec step l tr = some l') (hg : l.GoingOn)
    (hq : ∀ t, Label.storeQuit t ∉ tr) (hret : l'.pc = .returned) : Label.swap ∈ tr := by
  by_contra hn
  have hend : l'.GoingOn := by
    refine run_induction (fun tr l' => Label.swap ∉ tr → (∀ t, Label.storeQuit t ∉ tr) → l'.GoingOn)
      (fun _ _ => hg) ?_ h hn hq
    intro tr m a m' _ ih ha hn hq
    rw [List.mem_append, List.mem_singleton, not_or] at hn
    have hq' : ∀ t, Label.storeQuit t ∉ tr ∧ Label.storeQuit t ≠ a := by
      intro t
      have := hq t
      rwa [List.mem_append, List.mem_singleton, not_or] at this
    exact step_goingOn ha (ih hn.1 fun t => (hq' t).1) (Ne.symm hn.2) fun t => Ne.symm (hq' t).2
  rcases hend with hend | ⟨hend, -⟩ <;> rw [hret] at hend <;> cases hend

theorem step_leave {l l' : Eloop F} (h : step l .leave = some l') : l'.pc = .returned := by
  cases step_cases h with
  | leave => rfl

theorem step_storeQuit {l l' : Eloop F} {t : Tid} (h : step l (.storeQuit t) = some l') :
    l'.quit = true ∧ l'.pc = l.pc := by
  cases step_cases h with
  | storeQuit => exact ⟨rfl, rfl⟩

/-! ### Runs that return -/

/-- Quitting in a safe state never loses a task. -/
theorem noTaskLost_of_safe {tid : Tid} {l : Eloop F} {tr : List (Label F)}
    (h : exec step (create tid) tr = some l) (hret : l.pc = .returned)
    (hsafe : ∀ p t q m, tr = p ++ .storeQuit t :: q → exec step (create tid) p = some m → QuitSafe p m) :
    NoTaskLost tr := by
  rintro a t f b u c rfl hend
  -- The last `quit` is what ends the loop.
  have hquits : ∃ k ∈ Label.storeQuit u :: c, ∃ v, k = Label.storeQuit v := ⟨_, List.mem_cons_self, u, rfl⟩
  obtain ⟨c₁, _, c₂, hc, ⟨v, rfl⟩, hlast⟩ := exists_last hquits
  rw [hc] at h hsafe ⊢
  have hsplit : a ++ .emplace t f :: b ++ (c₁ ++ .storeQuit v :: c₂) =
      (a ++ .emplace t f :: (b ++ c₁)) ++ .storeQuit v :: c₂ := by simp
  have hwhole : a ++ .emplace t f :: b ++ (c₁ ++ .storeQuit v :: c₂) =
      a ++ .emplace t f :: (b ++ c₁ ++ .storeQuit v :: c₂) := by simp
  obtain ⟨m, m', hm, hquit, hrest⟩ := exec_at (hsplit ▸ h)
  have hswap : Label.swap ∈ b ++ c₁ ++ .storeQuit v :: c₂ := by
    rcases hsafe _ v c₂ m hsplit hm with hahead | hdone
    · have hg : m'.GoingOn := .inl (by rw [(step_storeQuit hquit).2, hahead])
      have hs := run_goingOn hrest hg (fun w hw => hlast _ hw ⟨w, rfl⟩) hret
      exact List.mem_append_right _ (List.mem_cons_of_mem _ hs)
    · by_contra hn
      refine hdone a t f (b ++ c₁) ⟨rfl, fun hs => hn (List.mem_append_left _ hs)⟩ ?_
      exact List.mem_append_left _ hend
  rw [hwhole] at h ⊢
  exact executed_after h (by rw [hret]; rfl) hswap

/-- A `quit` that is not safe loses a task. -/
theorem safe_of_noTaskLost {tid : Tid} {l : Eloop F} {tr : List (Label F)}
    (h : exec step (create tid) tr = some l) (hnone : NoTaskLost tr) :
    ∀ p t q m, tr = p ++ .storeQuit t :: q → exec step (create tid) p = some m → QuitSafe p m := by
  rintro p u q m rfl hm
  by_contra hunsafe
  simp only [QuitSafe, not_or, Bool.not_eq_true, not_forall, not_not] at hunsafe
  obtain ⟨hpc, a, t, f, b, ⟨rfl, hb⟩, hend⟩ := hunsafe
  obtain ⟨n, m', hn, hquit, hrest⟩ := exec_at h
  rw [hm, Option.some.injEq] at hn
  subst hn
  have hending : m'.Ending := ⟨(step_storeQuit hquit).1, by rw [(step_storeQuit hquit).2, hpc]⟩
  have hq := (run_ending hrest hending).2
  have hnoswap : Label.swap ∉ Label.emplace t f :: b ++ Label.storeQuit u :: q := by simp [hb, hq]
  have hlost := hnone a t f b u q rfl hend
  rw [List.append_assoc] at h hlost
  have hlen := (hlost.trans (executed_before h hnoswap)).length_le
  rw [List.length_append, List.length_singleton] at hlen
  omega

/-- **What `quit` may lose.** When `loop` returns, every functor whose `queue_in_loop`
returned before some `quit` has been executed, if and only if each `quit` came either
while a swap was still ahead or when no functor of a finished `queue_in_loop` was
waiting for one. -/
theorem no_task_lost_iff_safe {tid : Tid} {l : Eloop F} {tr : List (Label F)}
    (h : exec step (create tid) (tr ++ [.leave]) = some l) :
    NoTaskLost (tr ++ [.leave]) ↔
      ∀ a t b m, tr ++ [.leave] = a ++ .storeQuit t :: b → exec step (create tid) a = some m → QuitSafe a m := by
  constructor
  · exact safe_of_noTaskLost h
  · obtain ⟨m, -, hleave⟩ := exec_snoc.mp h
    exact noTaskLost_of_safe h (step_leave hleave)

/-- A functor queued and a quit while `loop` is blocked: it runs before `loop` returns. -/
theorem no_task_lost_iff_safe_polling : ∃ (tr : List (Label Nat)) (l : Eloop Nat),
    exec step (create 0) (tr ++ [.leave]) = some l ∧ executed tr = [7] ∧ NoTaskLost (tr ++ [.leave]) := by
  have hrun : ∃ l : Eloop Nat, exec step (create 0) (([.storeLooping, .clearQuit, .loadQuit, .emplace 1 7,
      .testWakeup 1, .wakeup 1, .endQueue 1] : List (Label Nat)) ++ (.storeQuit 1 :: [.pollReturns true, .handleRead,
      .endEvents, .storeCalling, .swap, .call 7, .endCall, .clearCalling, .loadQuit] : List (Label Nat)) ++
      ([.leave] : List (Label Nat))) = some l := ⟨_, rfl⟩
  obtain ⟨l, h⟩ := hrun
  refine ⟨_, l, h, rfl, (no_task_lost_iff_safe h).mpr fun a t b m he hm => .inl ?_⟩
  have ht : Label.storeQuit t ∈ a ++ .storeQuit t :: b := List.mem_append_right _ List.mem_cons_self
  rw [← he] at ht
  obtain rfl : t = 1 := by simpa using ht
  rw [List.append_assoc] at he
  obtain ⟨rfl, -, rfl⟩ := (List.append_cons_inj_of_notMem (by decide) (by decide)).mp he
  cases hm
  rfl

/-- The thread that queues and quits does both after the swap: its functor is lost. -/
theorem task_lost_after_swap : ¬ ∀ (tid : Tid) (tr : List (Label Nat)) (l : Eloop Nat),
    exec step (create tid) (tr ++ [.leave]) = some l → NoTaskLost (tr ++ [.leave]) := by
  intro hall
  have hnone := hall 0 ([.storeLooping, .clearQuit, .loadQuit, .pollReturns false, .endEvents, .storeCalling,
    .swap, .emplace 1 7, .testWakeup 1, .wakeup 1, .endQueue 1, .storeQuit 1, .wakeupQuit 1, .clearCalling,
    .loadQuit]) _ rfl
  have hlost := hnone [.storeLooping, .clearQuit, .loadQuit, .pollReturns false, .endEvents, .storeCalling,
    .swap] 1 7 [.testWakeup 1, .wakeup 1, .endQueue 1] 1 _ rfl (by decide)
  exact absurd hlost (by decide)

end Eloop

end Caimr.Net
