import Caimr.Lib.Settle
import Caimr.Net.EloopThread

/-! `~eloop_thread`, which quits the eloop and joins its thread. Once a `quit` of another thread
is through, `poll` does not block again: `loop` goes through one more batch at most, tests
`quit_` and returns, and `thread_func` ends, however much is queued in the meantime. -/
namespace Caimr.Net
open Transition

/-- The way out of `loop` with `quit_` set. -/
def LoopPc.wayOut {F : Type} : LoopPc F → Nat
  | .notLooping | .entering | .polling => 9
  | .handling true => 8
  | .handling false => 7
  | .calling => 6
  | .swapping => 5
  | .running rest => 4 + 2 * rest.length
  | .inFunctor rest => 5 + 2 * rest.length
  | .testing => 3
  | .leaving => 2
  | .returned => 1

theorem LoopPc.wayOut_le {F : Type} (pc : LoopPc F) : pc.wayOut ≤ 9 + 2 * pc.batch.length := by
  cases pc with
  | handling woken => cases woken <;> simp [wayOut, batch]
  | _ => simp [wayOut, batch]

/-- The way out of `queue_in_loop`. -/
def CallPc.wayOut : CallPc → Nat
  | .idle => 0
  | .queued => 3
  | .waking => 2
  | .returning | .quitting => 1

namespace Eloop
variable {F : Type} {l l' : Eloop F} {a : Label F}

/-- The steps of the loop's thread, but for the calls that its user code begins. -/
def Label.isOwn (tid : Tid) : Label F → Bool
  | .emplace .. | .storeQuit _ => false
  | .testWakeup t | .wakeup t | .endQueue t | .wakeupQuit t => t == tid
  | .storeLooping | .clearQuit | .loadQuit | .pollReturns _ | .handleRead | .endEvents | .storeCalling
  | .swap | .call _ | .endCall | .clearCalling | .leave => true

def Label.queues : Label F → Bool
  | .emplace .. => true
  | _ => false

def wayOut (l : Eloop F) : Nat :=
  l.pc.wayOut + 2 * l.pendingFunctors.length + (l.calls l.threadId).wayOut

theorem wayOut_le (l : Eloop F) : l.wayOut ≤ 12 + 2 * (l.pc.batch.length + l.pendingFunctors.length) := by
  have hpc := l.pc.wayOut_le
  have hcall : (l.calls l.threadId).wayOut ≤ 3 := by cases l.calls l.threadId <;> decide
  unfold wayOut
  omega

theorem setCall_wayOut (l : Eloop F) (t : Tid) (c : CallPc) :
    (l.setCall t c).wayOut + (if t = l.threadId then (l.calls t).wayOut else 0) =
      l.wayOut + if t = l.threadId then c.wayOut else 0 := by
  have hcall : (l.setCall t c).wayOut =
      l.pc.wayOut + 2 * l.pendingFunctors.length + ((l.setCall t c).calls l.threadId).wayOut := rfl
  rw [hcall, setCall_calls, wayOut]
  by_cases ht : t = l.threadId
  · subst ht
    rw [if_pos rfl, if_pos rfl, if_pos rfl]
    omega
  · rw [if_neg ht, if_neg ht, if_neg (Ne.symm ht)]

/-- A thread goes on in a call, which only the loop's own thread pays for. -/
theorem setCall_lowers {t : Tid} {c : CallPc} (hc : c.wayOut + 1 ≤ (l.calls t).wayOut) :
    (l.setCall t c).wayOut + (t == l.threadId).toNat ≤ l.wayOut := by
  have hway := setCall_wayOut l t c
  by_cases ht : t = l.threadId
  · rw [if_pos ht, if_pos ht] at hway
    rw [beq_iff_eq.mpr ht, Bool.toNat_true]
    omega
  · rw [if_neg ht, if_neg ht] at hway
    rw [beq_false_of_ne ht]
    exact Nat.le_of_eq hway

/-- A `quit` of another thread is through: `quit_` stays set, and `poll` does not block. -/
structure Woken (l : Eloop F) : Prop where
  settled : l.Settled
  polls : l.pc = .polling → 0 < l.wakeups

variable [DecidableEq F]

theorem step_woken (hw : l.Woken) (h : step l a = some l') : l'.Woken := by
  refine ⟨step_settled h hw.settled, ?_⟩
  cases step_cases h with
  | goesOn _ hq => exact absurd (hq.symm.trans hw.settled.quit) (by decide)
  | wakeup | wakeupQuit => exact fun _ => Nat.succ_pos _
  | emplace | mustWake | needNotWake | endQueue | storeQuit => exact hw.polls
  | _ => exact fun hpc => by cases hpc

theorem step_wakeupQuit_counted {t : Tid} (h : step l (.wakeupQuit t) = some l') : 0 < l'.wakeups := by
  cases step_cases h with
  | wakeupQuit => exact Nat.succ_pos _

/-- What a step costs, and what is queued with it. -/
theorem step_pays (hs : l.Settled) (h : step l a = some l') :
    l'.wayOut + (a.isOwn l.threadId).toNat ≤ l.wayOut + 5 * a.queues.toNat := by
  cases step_cases h with
  | storeLooping hpc => exact absurd hpc hs.entered.1
  | clearQuit hpc => exact absurd hpc hs.entered.2
  | goesOn _ hq => exact absurd (hq.symm.trans hs.quit) (by decide)
  | pollReturns woken hpc =>
    cases woken <;> simp only [wayOut, hpc, LoopPc.wayOut, Label.isOwn, Bool.toNat_true] <;> omega
  | call f rest hpc | endCall rest hpc | clearCalling hpc =>
    simp only [wayOut, hpc, LoopPc.wayOut, Label.isOwn, Bool.toNat_true, List.length_cons, List.length_nil]
    omega
  | swap hpc =>
    simp only [wayOut, hpc, LoopPc.wayOut, Label.isOwn, Bool.toNat_true, List.length_nil]
    omega
  | quits hpc | handleRead hpc | endEvents hpc | storeCalling hpc | leave hpc =>
    simp only [wayOut, hpc, LoopPc.wayOut, Label.isOwn, Bool.toNat_true]
    omega
  | emplace t f hmay =>
    have hway := setCall_wayOut {l with pendingFunctors := l.pendingFunctors ++ [f]} t .queued
    have hmore : wayOut {l with pendingFunctors := l.pendingFunctors ++ [f]} = l.wayOut + 2 := by
      simp only [wayOut, List.length_append, List.length_singleton]
      omega
    have hcall : (if t = l.threadId then CallPc.queued.wayOut else 0) ≤ 3 := by split <;> decide
    simp only [Label.isOwn, Label.queues, Bool.toNat_true, Bool.toNat_false]
    simp only at hway
    omega
  | mustWake t hc | needNotWake t hc | endQueue t hc => exact setCall_lowers (by rw [hc]; decide)
  | wakeup t hc | wakeupQuit t hc =>
    exact setCall_lowers (l := {l with wakeups := l.wakeups + 1}) (by rw [hc]; decide)
  | storeQuit t hmay =>
    have hway := setCall_wayOut {l with quit := true} t (if t ≠ l.threadId then .quitting else .idle)
    have hidle : (if t = l.threadId then (if t ≠ l.threadId then CallPc.quitting else .idle).wayOut else 0) = 0 := by
      split
      · rw [if_neg (not_not.mpr ‹_›)]
        rfl
      · rfl
    rw [hidle] at hway
    exact Nat.le_trans (Nat.le_add_right ..) (Nat.le_of_eq hway)

/-- Until `loop` has returned and its thread is through with its calls, it has a step to take. -/
theorem Woken.moves (hw : l.Woken) (hne : ¬ (l.pc = .returned ∧ l.AtRest)) :
    ∃ a, Label.isOwn l.threadId a = true ∧ a ≠ .pollReturns false ∧ step l a ≠ none := by
  cases hc : l.calls l.threadId with
  | queued => exact ⟨.testWakeup l.threadId, beq_self_eq_true _, by simp, by simp [step, hc]⟩
  | waking => exact ⟨.wakeup l.threadId, beq_self_eq_true _, by simp, by simp [step, hc]⟩
  | returning => exact ⟨.endQueue l.threadId, beq_self_eq_true _, by simp, by simp [step, hc]⟩
  | quitting => exact ⟨.wakeupQuit l.threadId, beq_self_eq_true _, by simp, by simp [step, hc]⟩
  | idle =>
    have hrest : l.AtRest := hc
    cases hpc : l.pc with
    | notLooping => exact absurd hpc hw.settled.entered.1
    | entering => exact absurd hpc hw.settled.entered.2
    | testing => exact ⟨.loadQuit, rfl, by simp, by simp [step, hpc]⟩
    | polling => exact ⟨.pollReturns true, rfl, by simp, by simp [step, hpc, hw.polls hpc]⟩
    | handling woken =>
      cases woken with
      | true => exact ⟨.handleRead, rfl, by simp, by simp [step, hpc, hrest]⟩
      | false => exact ⟨.endEvents, rfl, by simp, by simp [step, hpc, hrest]⟩
    | calling => exact ⟨.storeCalling, rfl, by simp, by simp [step, hpc]⟩
    | swapping => exact ⟨.swap, rfl, by simp, by simp [step, hpc]⟩
    | running rest =>
      cases rest with
      | nil => exact ⟨.clearCalling, rfl, by simp, by simp [step, hpc]⟩
      | cons f rest => exact ⟨.call f, rfl, by simp, by simp [step, hpc]⟩
    | inFunctor rest => exact ⟨.endCall, rfl, by simp, by simp [step, hpc, hrest]⟩
    | leaving => exact ⟨.leave, rfl, by simp, by simp [step, hpc]⟩
    | returned => exact absurd ⟨hpc, hrest⟩ hne

end Eloop

namespace EloopThread
variable {F : Type} {s s' : EloopThread F} {a : Label F} {tid : Tid}

/-- The steps of the thread itself, but for the calls that its user code begins. -/
def Label.isOwn (tid : Tid) : Label F → Bool
  | .publish | .reset => true
  | .startLoop _ => false
  | .eloop a => a.isOwn tid

def Label.queues : Label F → Bool
  | .eloop a => a.queues
  | .publish | .startLoop _ | .reset => false

def wayOut (s : EloopThread F) : Nat := if s.func = .ended then 0 else s.eloop.wayOut

theorem wayOut_le (s : EloopThread F) :
    s.wayOut ≤ 12 + 2 * (s.eloop.pc.batch.length + s.eloop.pendingFunctors.length) := by
  unfold wayOut
  split
  · exact Nat.zero_le _
  · exact s.eloop.wayOut_le

theorem allows_ended (hf : s.func = .ended) (b : Eloop.Label F) : s.allows b = false := by
  cases hc : b.caller <;> simp [allows, hc, hf]

theorem allows_own {b : Eloop.Label F} (hf : s.func = .looping) (hb : b.isOwn s.eloop.threadId = true) :
    s.allows b = true := by
  have hthread : ∀ {t : Tid}, (t == s.eloop.threadId) = true →
      ((t == s.eloop.threadId || s.obtained t) && s.func != .ended) = true := by
    intro t ht
    rw [ht, hf]
    rfl
  cases b with
  | emplace | storeQuit => cases hb
  | testWakeup t | wakeup t | endQueue t | wakeupQuit t => exact hthread hb
  | _ => exact beq_iff_eq.mpr hf

variable [DecidableEq F]

/-- `loop` is called once `loop_` is set. -/
theorem step_called (hi : s.func = .initializing → s.eloop.pc = .notLooping) (h : step s a = some s') :
    s'.func = .initializing → s'.eloop.pc = .notLooping := by
  cases a with
  | publish | reset =>
    simp only [step, Option.ite_none_right_eq_some, Option.some.injEq] at h
    obtain ⟨-, rfl⟩ := h
    exact fun hf => by cases hf
  | startLoop t =>
    simp only [step, Option.ite_none_right_eq_some, Option.some.injEq] at h
    obtain ⟨-, rfl⟩ := h
    exact hi
  | eloop b =>
    simp only [step, Option.ite_none_right_eq_some, Option.map_eq_some_iff] at h
    obtain ⟨hallows, l, hl, rfl⟩ := h
    intro hf
    have hpc := hi hf
    cases hc : b.caller with
    | none =>
      rw [allows, hc, show s.func = .initializing from hf] at hallows
      cases hallows
    | some t =>
      cases Eloop.step_cases hl with
      | emplace | mustWake | needNotWake | wakeup | endQueue | storeQuit | wakeupQuit => exact hpc
      | _ => cases hc

/-- What the eloop's own steps keep, a run keeps. -/
theorem run_keeps {I : Eloop F → Prop} (keep : ∀ l a l', I l → Eloop.step l a = some l' → I l')
    (hs : I s.eloop) {tr : List (Label F)} (h : exec step s tr = some s') : I s'.eloop := by
  refine exec_preserves (I := fun s : EloopThread F => I s.eloop) (fun s a s' hs ha => ?_) hs h
  obtain ⟨b, -, hb⟩ | ⟨-, hsame⟩ := step_eloop ha
  · exact keep _ b _ hs hb
  · rw [hsame]
    exact hs

/-- `~eloop_thread` is past `quit` and joins the thread. -/
structure Joining (tid : Tid) (s : EloopThread F) : Prop where
  woken : s.eloop.Woken
  called : s.func ≠ .initializing
  thread : s.eloop.threadId = tid

theorem run_joining {tr : List (Label F)} {t : Tid} (h : exec step (create tid) tr = some s)
    (hr : Along step QuitsAfterEntry (create tid) tr) (hq : Label.eloop (.wakeupQuit t) ∈ tr) : s.Joining tid := by
  have hcalled : s.func = .initializing → s.eloop.pc = .notLooping :=
    exec_preserves (fun _ _ _ => step_called) (fun _ => rfl) h
  have hthread : s.eloop.threadId = tid :=
    run_keeps (I := fun l => l.threadId = tid) (fun _ _ _ hl hb => (Eloop.step_threadId hb).trans hl) rfl h
  obtain ⟨before, after, rfl⟩ := List.append_of_mem hq
  obtain ⟨u, v, hu, hquit, hafter⟩ := exec_at h
  have hwoken : v.eloop.Woken := by
    have hset := run_settled (exec_snoc.mpr ⟨u, hu, hquit⟩)
      (Along.of_append (b := after) (by simpa using hr)) (.inl (List.mem_append_right _ List.mem_cons_self))
    refine ⟨hset, fun _ => ?_⟩
    obtain ⟨b, hb, hstep⟩ | ⟨hother, -⟩ := step_eloop hquit
    · cases hb
      exact Eloop.step_wakeupQuit_counted hstep
    · exact absurd rfl (hother _)
  have hend : s.eloop.Woken := run_keeps (fun _ _ _ => Eloop.step_woken) hwoken hafter
  exact ⟨hend, fun hf => hend.settled.entered.1 (hcalled hf), hthread⟩

theorem step_pays (hj : s.Joining tid) (h : step s a = some s') :
    s'.Joining tid ∧ s'.wayOut + (a.isOwn tid).toNat ≤ s.wayOut + 5 * a.queues.toNat := by
  cases a with
  | publish =>
    simp only [step, Option.ite_none_right_eq_some, Option.some.injEq] at h
    exact absurd h.1.1 hj.called
  | startLoop t =>
    simp only [step, Option.ite_none_right_eq_some, Option.some.injEq] at h
    obtain ⟨-, rfl⟩ := h
    exact ⟨⟨hj.woken, hj.called, hj.thread⟩, Nat.le_refl _⟩
  | reset =>
    simp only [step, Option.ite_none_right_eq_some, Option.some.injEq] at h
    obtain ⟨⟨hf, hpc, -⟩, rfl⟩ := h
    refine ⟨⟨hj.woken, by simp, hj.thread⟩, ?_⟩
    have hway : s.wayOut = s.eloop.wayOut := if_neg (by rw [hf]; decide)
    have hone : 1 ≤ s.eloop.wayOut := by
      rw [Eloop.wayOut, hpc, LoopPc.wayOut]
      omega
    rw [hway]
    exact hone
  | eloop b =>
    simp only [step, Option.ite_none_right_eq_some, Option.map_eq_some_iff] at h
    obtain ⟨hallows, l, hl, rfl⟩ := h
    have hf : s.func ≠ .ended := by
      intro hf
      rw [allows_ended hf] at hallows
      cases hallows
    refine ⟨⟨Eloop.step_woken hj.woken hl, hj.called, (Eloop.step_threadId hl).trans hj.thread⟩, ?_⟩
    have hpays := Eloop.step_pays hj.woken.settled hl
    rw [hj.thread] at hpays
    rw [wayOut, wayOut, if_neg hf, if_neg hf]
    exact hpays

/-- Without a timeout or any other channel: the thread has a step to take until it has ended. -/
theorem Joining.settled_iff (hj : s.Joining tid) :
    Settled step (fun a => a.isOwn tid = true ∧ a ≠ .eloop (.pollReturns false)) s ↔ s.func = .ended := by
  obtain rfl := hj.thread
  constructor
  · intro hset
    by_contra hne
    have hf : s.func = .looping := by
      cases hf : s.func with
      | initializing => exact absurd hf hj.called
      | looping => rfl
      | ended => exact absurd hf hne
    by_cases hret : s.eloop.pc = .returned ∧ s.eloop.AtRest
    · have hreset := hset .reset ⟨rfl, by simp⟩
      rw [step, if_pos ⟨hf, hret⟩] at hreset
      cases hreset
    · obtain ⟨b, hown, hpoll, hstep⟩ := hj.woken.moves hret
      have hnone := hset (.eloop b) ⟨hown, fun he => hpoll (by injection he)⟩
      rw [step, if_pos (allows_own hf hown), Option.map_eq_none_iff] at hnone
      exact hstep hnone
  · intro hf a ha
    cases a with
    | publish => exact if_neg fun hp => by rw [hf] at hp; cases hp.1
    | startLoop t => cases ha.1
    | reset => exact if_neg fun hp => by rw [hf] at hp; cases hp.1
    | eloop b => exact if_neg (by rw [allows_ended hf]; decide)

/-- **The join in `~eloop_thread` returns**, in every run in which no `quit` stores its flag
before `loop` has cleared it. From when the `quit` of another thread is through, the eloop's
thread takes at most twelve steps, two more for each functor that waits and five for each that
is queued from then on, besides the calls that its user code begins; and until `thread_func`
has ended it has a step to take that waits for nothing. -/
theorem quit_joins {tr more : List (Label F)} {t : Tid} (h : exec step (create tid) tr = some s)
    (hr : Along step QuitsAfterEntry (create tid) tr) (hq : Label.eloop (.wakeupQuit t) ∈ tr)
    (hmore : exec step s more = some s') :
    more.countP (Label.isOwn tid) ≤ 12 + 2 * (s.eloop.pc.batch.length + s.eloop.pendingFunctors.length) +
        5 * more.countP Label.queues ∧
      (Settled step (fun a => a.isOwn tid = true ∧ a ≠ .eloop (.pollReturns false)) s' ↔ s'.func = .ended) := by
  obtain ⟨hj', hle⟩ := spent_le (fun _ _ _ => step_pays) (run_joining h hr hq) hmore
  refine ⟨?_, hj'.settled_iff⟩
  have hway := s.wayOut_le
  rw [sum_gain] at hle
  omega

/-- A functor waits for its turn when the eloop is quit, and another comes after it. -/
theorem quit_joins_queued : ∃ s s' : EloopThread Nat,
    exec step (create 0) [.publish, .startLoop 1, .eloop .storeLooping, .eloop .clearQuit, .eloop .loadQuit,
      .eloop (.emplace 1 7), .eloop (.testWakeup 1), .eloop (.wakeup 1), .eloop (.endQueue 1),
      .eloop (.storeQuit 1), .eloop (.wakeupQuit 1)] = some s ∧
    exec step s [.eloop (.pollReturns true), .eloop (.emplace 1 9), .eloop .handleRead, .eloop .endEvents,
      .eloop .storeCalling, .eloop .swap, .eloop (.call 7), .eloop .endCall, .eloop (.call 9), .eloop .endCall,
      .eloop .clearCalling, .eloop .loadQuit, .eloop .leave, .reset] = some s' ∧
    Settled step (fun a => a.isOwn 0 = true ∧ a ≠ .eloop (.pollReturns false)) s' :=
  ⟨_, _, (Option.some_get (by decide +kernel)).symm, (Option.some_get (by decide +kernel)).symm,
    (quit_joins (t := 1) (Option.some_get (by decide +kernel)).symm (by decide +kernel) (by decide +kernel)
      (Option.some_get (by decide +kernel)).symm).2.mpr (by decide +kernel)⟩

end EloopThread

end Caimr.Net
