import Caimr.Net.Eloop

/-! `net/eloop_thread.cpp`: a thread that runs an eloop, and the threads that get the
eloop from `start_loop`. The eloop is handed out before `loop` is entered, and `loop`
clears `quit_` at its start; a `quit` is kept only if it comes after that. -/
namespace Caimr.Net
open Transition

namespace Eloop
variable {F : Type}

/-- `quit_` is set, and `loop` has cleared it before. -/
structure Settled (l : Eloop F) : Prop where
  quit : l.quit = true
  entered : l.pc ≠ .notLooping ∧ l.pc ≠ .entering

variable [DecidableEq F]

theorem step_settled {l l' : Eloop F} {a : Label F} (h : step l a = some l') (hs : l.Settled) :
    l'.Settled := by
  cases step_cases h with
  | storeLooping hpc => exact absurd hpc hs.entered.1
  | clearQuit hpc => exact absurd hpc hs.entered.2
  | storeQuit => exact ⟨rfl, hs.entered⟩
  | emplace | mustWake | needNotWake | wakeup | endQueue | wakeupQuit => exact ⟨hs.quit, hs.entered⟩
  | _ => exact ⟨hs.quit, nofun, nofun⟩

/-- Only `quit` brings a thread to its second half. -/
theorem step_quitting {l l' : Eloop F} {a : Label F} {t : Tid} (h : step l a = some l')
    (hq : l'.calls t = .quitting) : l.calls t = .quitting ∨ a = .storeQuit t := by
  have hother : ∀ (m : Eloop F) (u : Tid) (c : CallPc), c ≠ .quitting → m.calls = l.calls →
      (m.setCall u c).calls t = .quitting → l.calls t = .quitting := by
    intro m u c hc hm hset
    rw [setCall_calls, hm] at hset
    split at hset
    · exact absurd hset hc
    · exact hset
  cases step_cases h with
  | emplace | mustWake | needNotWake | wakeup | endQueue | wakeupQuit =>
    exact .inl (hother _ _ _ (by decide) rfl hq)
  | storeQuit u =>
    by_cases htu : t = u
    · exact .inr (htu ▸ rfl)
    · rw [setCall_calls, if_neg htu] at hq
      exact .inl hq
  | _ => exact .inl hq

theorem step_wakeupQuit {l l' : Eloop F} {t : Tid} (h : step l (.wakeupQuit t) = some l') :
    l.calls t = .quitting := by
  cases step_cases h with
  | wakeupQuit t hc => exact hc

theorem step_storeQuit_settled {l l' : Eloop F} {t : Tid} (h : step l (.storeQuit t) = some l')
    (hin : l.pc ≠ .notLooping ∧ l.pc ≠ .entering) : l'.Settled := by
  cases step_cases h with
  | storeQuit => exact ⟨rfl, hin⟩

theorem step_loadQuit {l l' : Eloop F} (h : step l .loadQuit = some l') (hq : l.quit = true) :
    l'.pc = .leaving := by
  cases step_cases h with
  | quits => rfl
  | goesOn _ hq' =>
    rw [hq] at hq'
    cases hq'

end Eloop

/-- Where `thread_func` is. -/
inductive FuncPc where
  /-- Up to and including `init_callback_`. -/
  | initializing
  /-- `loop_` is set; `loop` is entered from here. -/
  | looping
  | ended
deriving DecidableEq, Repr

structure EloopThread (F : Type) where
  /-- The eloop on `thread_func`'s stack. -/
  eloop : Eloop F
  /-- `loop_` is not null. -/
  published : Bool
  func : FuncPc
  /-- The threads that `start_loop` has returned the eloop to. -/
  obtained : Tid → Bool

namespace EloopThread
variable {F : Type}

/-- `thread_func` on the thread `tid`, which is just constructing its eloop. -/
def create (tid : Tid) : EloopThread F := ⟨.create tid, false, .initializing, fun _ => false⟩

inductive Label (F : Type) where
  /-- `loop_ = &loop`, under the mutex. -/
  | publish
  /-- The wait in `start_loop` ends. -/
  | startLoop (t : Tid)
  /-- `loop_ = nullptr`, under the mutex; the eloop ends with `thread_func`. -/
  | reset
  | eloop (a : Eloop.Label F)
deriving DecidableEq, Repr

/-- Who may take the step: any thread that has the eloop, `loop` once it is called. -/
def allows (s : EloopThread F) (a : Eloop.Label F) : Bool :=
  match a.caller with
  | some t => (t == s.eloop.threadId || s.obtained t) && s.func != .ended
  | none => s.func == .looping

variable [DecidableEq F]

def step (s : EloopThread F) : Label F → Option (EloopThread F)
  | .publish =>
    if s.func = .initializing ∧ s.eloop.AtRest then some {s with published := true, func := .looping} else none
  | .startLoop t => if s.published then some {s with obtained := Function.update s.obtained t true} else none
  | .reset =>
    if s.func = .looping ∧ s.eloop.pc = .returned ∧ s.eloop.AtRest then
      some {s with published := false, func := .ended}
    else none
  | .eloop a =>
    if s.allows a then (s.eloop.step a).map fun l => {s with eloop := l} else none

/-- A step is a step of the eloop, or leaves it as it is. -/
theorem step_eloop {s s' : EloopThread F} {a : Label F} (h : step s a = some s') :
    (∃ b, a = .eloop b ∧ s.eloop.step b = some s'.eloop) ∨ ((∀ b, a ≠ .eloop b) ∧ s'.eloop = s.eloop) := by
  cases a with
  | publish =>
    simp only [step, Option.ite_none_right_eq_some, Option.some.injEq] at h
    exact .inr ⟨nofun, by rw [← h.2]⟩
  | startLoop t =>
    simp only [step, Option.ite_none_right_eq_some, Option.some.injEq] at h
    exact .inr ⟨nofun, by rw [← h.2]⟩
  | reset =>
    simp only [step, Option.ite_none_right_eq_some, Option.some.injEq] at h
    exact .inr ⟨nofun, by rw [← h.2]⟩
  | eloop b =>
    simp only [step, Option.ite_none_right_eq_some, Option.map_eq_some_iff] at h
    obtain ⟨-, l, hl, rfl⟩ := h
    exact .inl ⟨b, rfl, hl⟩

/-- No `quit` stores its flag before `loop` has cleared it. -/
def QuitsAfterEntry (s : EloopThread F) : Label F → Prop
  | .eloop (.storeQuit _) => s.eloop.pc ≠ .notLooping ∧ s.eloop.pc ≠ .entering
  | _ => True

instance (s : EloopThread F) : (a : Label F) → Decidable (QuitsAfterEntry s a)
  | .eloop (.storeQuit _) => inferInstanceAs (Decidable (_ ∧ _))
  | .publish | .startLoop _ | .reset => .isTrue trivial
  | .eloop a => by unfold QuitsAfterEntry; split <;> infer_instance

/-- Once a thread is in `quit`, or through with it, the flag stays set. -/
theorem run_settled {tid : Tid} {s : EloopThread F} {tr : List (Label F)}
    (h : exec step (create tid) tr = some s) (hr : Along step QuitsAfterEntry (create tid) tr) {t : Tid}
    (ht : Label.eloop (.wakeupQuit t) ∈ tr ∨ s.eloop.calls t = .quitting) : s.eloop.Settled := by
  refine rule_induction (fun tr s => ∀ t, Label.eloop (.wakeupQuit t) ∈ tr ∨ s.eloop.calls t = .quitting →
    s.eloop.Settled) ?_ ?_ h hr t ht
  · rintro t (ht | ht)
    · exact absurd ht List.not_mem_nil
    · cases ht
  · intro tr s a s' _ ih hrule ha t ht
    obtain ⟨b, rfl, hb⟩ | ⟨hother, hsame⟩ := step_eloop ha
    · rcases ht with ht | ht
      · rcases List.mem_append.mp ht with ht | ht
        · exact Eloop.step_settled hb (ih t (.inl ht))
        · cases List.mem_singleton.mp ht
          exact Eloop.step_settled hb (ih t (.inr (Eloop.step_wakeupQuit hb)))
      · rcases Eloop.step_quitting hb ht with ht | rfl
        · exact Eloop.step_settled hb (ih t (.inr ht))
        · exact Eloop.step_storeQuit_settled hb hrule
    · rw [hsame] at ht ⊢
      refine ih t (ht.imp_left fun ht => ?_)
      rcases List.mem_append.mp ht with ht | ht
      · exact ht
      · exact absurd (List.mem_singleton.mp ht).symm (hother _)

/-- **A quit request is kept** in every run in which no `quit` stores its flag before
`loop` has cleared it: from when `quit` is through, the flag is set, and the next test
of it ends `loop`. -/
theorem quit_kept_after_entry {tid : Tid} {s : EloopThread F} {tr : List (Label F)}
    (h : exec step (create tid) tr = some s) (hr : Along step QuitsAfterEntry (create tid) tr) :
    ∀ t, Label.eloop (.wakeupQuit t) ∈ tr → s.eloop.quit = true ∧
      ∀ s', step s (.eloop .loadQuit) = some s' → s'.eloop.pc = .leaving := by
  intro t ht
  have hset := run_settled h hr (.inl ht)
  refine ⟨hset.quit, fun s' hs' => ?_⟩
  obtain ⟨b, hb, hstep⟩ | ⟨hother, -⟩ := step_eloop hs'
  · cases hb
    exact Eloop.step_loadQuit hstep hset.quit
  · exact absurd rfl (hother _)

/-- `quit` while `loop` is blocked. -/
theorem quit_kept_after_entry_polling : ∃ (tr : List (Label Nat)) (s : EloopThread Nat),
    exec step (create 0) tr = some s ∧ s.eloop.pc = .testing ∧ s.eloop.quit = true := by
  have hrun : ∃ s : EloopThread Nat, exec step (create 0) [.publish, .startLoop 1, .eloop .storeLooping,
      .eloop .clearQuit, .eloop .loadQuit, .eloop (.storeQuit 1), .eloop (.wakeupQuit 1),
      .eloop (.pollReturns true), .eloop .handleRead, .eloop .endEvents, .eloop .storeCalling, .eloop .swap,
      .eloop .clearCalling] = some s ∧ s.eloop.pc = .testing := ⟨_, rfl, rfl⟩
  obtain ⟨s, h, hpc⟩ := hrun
  exact ⟨_, s, h, hpc, (quit_kept_after_entry h (by decide) 1 (by decide)).1⟩

/-- The eloop is quit as soon as it is handed out: `loop` clears the flag and goes on. -/
theorem quit_lost_before_entry : ¬ ∀ (tid : Tid) (tr : List (Label Nat)) (s : EloopThread Nat),
    exec step (create tid) tr = some s → ∀ t, Label.eloop (.wakeupQuit t) ∈ tr → s.eloop.quit = true := by
  intro hall
  have hquit := hall 0 [.publish, .startLoop 1, .eloop (.storeQuit 1), .eloop (.wakeupQuit 1),
    .eloop .storeLooping, .eloop .clearQuit, .eloop .loadQuit] _ rfl 1 (by decide)
  cases hquit

end EloopThread

end Caimr.Net
