import Mathlib.Logic.Function.Basic
import Caimr.Lib.Handoff

/-! `net/eloop.cpp`: `loop` on the thread the eloop belongs to, and `queue_in_loop` and
`quit` on any thread, taken apart into the steps that other threads can see. The code
between two steps touches nothing shared. A functor is whatever the eloop's user queues;
the eloop only moves it. -/
namespace Caimr.Net
open Transition

/-- A thread's `cthread::tid()`. -/
abbrev Tid := Nat

/-- Where `loop` is. -/
inductive LoopPc (F : Type) where
  | notLooping
  /-- `looping_` is set. -/
  | entering
  /-- At the test of `quit_`. -/
  | testing
  /-- Blocked in `poll`, or about to. -/
  | polling
  /-- Handling the active channels; `woken` while the wakeup channel still is one of them. -/
  | handling (woken : Bool)
  /-- In `do_pending_functors`, at its first line. -/
  | calling
  | swapping
  /-- Between two functors of the batch. -/
  | running (rest : List F)
  /-- In a functor of the batch. -/
  | inFunctor (rest : List F)
  | leaving
  | returned
deriving DecidableEq, Repr

namespace LoopPc
variable {F : Type}

/-- The functors of the batch that have not been called yet. -/
def batch : LoopPc F → List F
  | .running rest | .inFunctor rest => rest
  | _ => []

/-- The loop's thread runs code of the eloop's users, which may call the eloop. -/
def inUserCode : LoopPc F → Bool
  | .notLooping | .handling _ | .inFunctor _ | .returned => true
  | _ => false

/-- The active channels are being handled. -/
def isHandling : LoopPc F → Bool
  | .handling _ => true
  | _ => false

end LoopPc

/-- Where a thread is in `queue_in_loop` or in `quit`. -/
inductive CallPc where
  | idle
  /-- The functor is queued; next comes the test whether to wake the loop. -/
  | queued
  | waking
  | returning
  /-- `quit_` is set; next comes `wakeup`. -/
  | quitting
deriving DecidableEq, Repr

structure Eloop (F : Type) where
  threadId : Tid
  looping : Bool
  quit : Bool
  callingPendingFunctors : Bool
  pendingFunctors : List F
  /-- What the eventfd counts. -/
  wakeups : Nat
  pc : LoopPc F
  calls : Tid → CallPc

namespace Eloop
variable {F : Type}

/-- `eloop()` on the thread `tid`. -/
def create (tid : Tid) : Eloop F :=
  { threadId := tid
    looping := false
    quit := false
    callingPendingFunctors := false
    pendingFunctors := []
    wakeups := 0
    pc := .notLooping
    calls := fun _ => .idle }

/-- The loop's thread is in none of its own calls. -/
def AtRest (l : Eloop F) : Prop := l.calls l.threadId = .idle

instance (l : Eloop F) : Decidable l.AtRest := inferInstanceAs (Decidable (_ = _))

/-- The thread can make a call; the loop's own thread only where `loop` has given it away. -/
def MayCall (l : Eloop F) (t : Tid) : Prop :=
  l.calls t = .idle ∧ (t = l.threadId → l.pc.inUserCode = true)

instance (l : Eloop F) (t : Tid) : Decidable (l.MayCall t) := inferInstanceAs (Decidable (_ ∧ _))

def setCall (l : Eloop F) (t : Tid) (c : CallPc) : Eloop F := {l with calls := Function.update l.calls t c}

theorem setCall_calls (l : Eloop F) (t u : Tid) (c : CallPc) :
    (l.setCall t c).calls u = if u = t then c else l.calls u := by
  simp [setCall, Function.update_apply]

inductive Label (F : Type) where
  /-- `looping_.store(true)`. -/
  | storeLooping
  /-- `quit_.store(false)`, at the start of `loop`. -/
  | clearQuit
  | loadQuit
  | pollReturns (woken : Bool)
  | handleRead
  | endEvents
  | storeCalling
  | swap
  | call (f : F)
  | endCall
  | clearCalling
  | leave
  /-- `pending_functors_.emplace_back`, under the mutex. -/
  | emplace (t : Tid) (f : F)
  /-- `!is_in_loop_thread() || calling_pending_functors_.load()`. -/
  | testWakeup (t : Tid)
  | wakeup (t : Tid)
  | endQueue (t : Tid)
  /-- `quit_.store(true)`. -/
  | storeQuit (t : Tid)
  | wakeupQuit (t : Tid)
deriving DecidableEq, Repr

/-- The thread that makes the call; the other steps are `loop`'s own. -/
def Label.caller : Label F → Option Tid
  | .emplace t _ | .testWakeup t | .wakeup t | .endQueue t | .storeQuit t | .wakeupQuit t => some t
  | _ => none

section Step
variable [DecidableEq F]

/-- One step of the loop's thread or of a caller. The wakeup channel can be active only
while the eventfd counts something; other channels and the timeout end a `poll` at any
time. -/
def step (l : Eloop F) : Label F → Option (Eloop F)
  | .storeLooping =>
    if l.pc = .notLooping ∧ l.AtRest then some {l with looping := true, pc := .entering} else none
  | .clearQuit => if l.pc = .entering then some {l with quit := false, pc := .testing} else none
  | .loadQuit =>
    if l.pc = .testing then some {l with pc := if l.quit then .leaving else .polling} else none
  | .pollReturns woken =>
    if l.pc = .polling ∧ (woken = true → 0 < l.wakeups) then some {l with pc := .handling woken} else none
  | .handleRead =>
    if l.pc = .handling true ∧ l.AtRest then some {l with wakeups := 0, pc := .handling false} else none
  | .endEvents => if l.pc = .handling false ∧ l.AtRest then some {l with pc := .calling} else none
  | .storeCalling =>
    if l.pc = .calling then some {l with callingPendingFunctors := true, pc := .swapping} else none
  | .swap =>
    if l.pc = .swapping then some {l with pendingFunctors := [], pc := .running l.pendingFunctors} else none
  | .call f =>
    match l.pc with
    | .running (g :: rest) => if f = g then some {l with pc := .inFunctor rest} else none
    | _ => none
  | .endCall =>
    match l.pc with
    | .inFunctor rest => if l.AtRest then some {l with pc := .running rest} else none
    | _ => none
  | .clearCalling =>
    if l.pc = .running [] then some {l with callingPendingFunctors := false, pc := .testing} else none
  | .leave => if l.pc = .leaving then some {l with looping := false, pc := .returned} else none
  | .emplace t f =>
    if l.MayCall t then some (setCall {l with pendingFunctors := l.pendingFunctors ++ [f]} t .queued) else none
  | .testWakeup t =>
    if l.calls t = .queued then
      some (l.setCall t (if t ≠ l.threadId ∨ l.callingPendingFunctors = true then .waking else .returning))
    else none
  | .wakeup t =>
    if l.calls t = .waking then some (setCall {l with wakeups := l.wakeups + 1} t .returning) else none
  | .endQueue t => if l.calls t = .returning then some (l.setCall t .idle) else none
  | .storeQuit t =>
    if l.MayCall t then
      some (setCall {l with quit := true} t (if t ≠ l.threadId then .quitting else .idle))
    else none
  | .wakeupQuit t =>
    if l.calls t = .quitting then some (setCall {l with wakeups := l.wakeups + 1} t .idle) else none

/-- All that a step can do. -/
inductive Step (l : Eloop F) : Label F → Eloop F → Prop where
  | storeLooping : l.pc = .notLooping → l.AtRest → Step l .storeLooping {l with looping := true, pc := .entering}
  | clearQuit : l.pc = .entering → Step l .clearQuit {l with quit := false, pc := .testing}
  | quits : l.pc = .testing → l.quit = true → Step l .loadQuit {l with pc := .leaving}
  | goesOn : l.pc = .testing → l.quit = false → Step l .loadQuit {l with pc := .polling}
  | pollReturns (woken : Bool) : l.pc = .polling → (woken = true → 0 < l.wakeups) →
      Step l (.pollReturns woken) {l with pc := .handling woken}
  | handleRead : l.pc = .handling true → l.AtRest → Step l .handleRead {l with wakeups := 0, pc := .handling false}
  | endEvents : l.pc = .handling false → l.AtRest → Step l .endEvents {l with pc := .calling}
  | storeCalling : l.pc = .calling → Step l .storeCalling {l with callingPendingFunctors := true, pc := .swapping}
  | swap : l.pc = .swapping → Step l .swap {l with pendingFunctors := [], pc := .running l.pendingFunctors}
  | call (f : F) (rest : List F) : l.pc = .running (f :: rest) → Step l (.call f) {l with pc := .inFunctor rest}
  | endCall (rest : List F) : l.pc = .inFunctor rest → l.AtRest → Step l .endCall {l with pc := .running rest}
  | clearCalling : l.pc = .running [] →
      Step l .clearCalling {l with callingPendingFunctors := false, pc := .testing}
  | leave : l.pc = .leaving → Step l .leave {l with looping := false, pc := .returned}
  | emplace (t : Tid) (f : F) : l.MayCall t →
      Step l (.emplace t f) (setCall {l with pendingFunctors := l.pendingFunctors ++ [f]} t .queued)
  | mustWake (t : Tid) : l.calls t = .queued → (t ≠ l.threadId ∨ l.callingPendingFunctors = true) →
      Step l (.testWakeup t) (l.setCall t .waking)
  | needNotWake (t : Tid) : l.calls t = .queued → t = l.threadId → l.callingPendingFunctors = false →
      Step l (.testWakeup t) (l.setCall t .returning)
  | wakeup (t : Tid) : l.calls t = .waking →
      Step l (.wakeup t) (setCall {l with wakeups := l.wakeups + 1} t .returning)
  | endQueue (t : Tid) : l.calls t = .returning → Step l (.endQueue t) (l.setCall t .idle)
  | storeQuit (t : Tid) : l.MayCall t →
      Step l (.storeQuit t) (setCall {l with quit := true} t (if t ≠ l.threadId then .quitting else .idle))
  | wakeupQuit (t : Tid) : l.calls t = .quitting →
      Step l (.wakeupQuit t) (setCall {l with wakeups := l.wakeups + 1} t .idle)

theorem step_cases {l l' : Eloop F} {a : Label F} (h : step l a = some l') : Step l a l' := by
  cases a <;> simp only [step, Option.ite_none_right_eq_some, Option.some.injEq] at h
  case storeLooping => exact h.2 ▸ .storeLooping h.1.1 h.1.2
  case clearQuit => exact h.2 ▸ .clearQuit h.1
  case loadQuit =>
    obtain ⟨hpc, rfl⟩ := h
    by_cases hq : l.quit = true
    · rw [if_pos hq]
      exact .quits hpc hq
    · rw [if_neg hq]
      exact .goesOn hpc (by simpa using hq)
  case pollReturns woken => exact h.2 ▸ .pollReturns woken h.1.1 h.1.2
  case handleRead => exact h.2 ▸ .handleRead h.1.1 h.1.2
  case endEvents => exact h.2 ▸ .endEvents h.1.1 h.1.2
  case storeCalling => exact h.2 ▸ .storeCalling h.1
  case swap => exact h.2 ▸ .swap h.1
  case call f =>
    split at h <;> simp only [Option.ite_none_right_eq_some, Option.some.injEq, reduceCtorEq] at h
    rename_i g rest hpc
    obtain ⟨rfl, rfl⟩ := h
    exact .call f rest hpc
  case endCall =>
    split at h <;> simp only [Option.ite_none_right_eq_some, Option.some.injEq, reduceCtorEq] at h
    rename_i rest hpc
    exact h.2 ▸ .endCall rest hpc h.1
  case clearCalling => exact h.2 ▸ .clearCalling h.1
  case leave => exact h.2 ▸ .leave h.1
  case emplace t f => exact h.2 ▸ .emplace t f h.1
  case testWakeup t =>
    obtain ⟨hc, rfl⟩ := h
    by_cases hw : t ≠ l.threadId ∨ l.callingPendingFunctors = true
    · rw [if_pos hw]
      exact .mustWake t hc hw
    · rw [if_neg hw]
      simp only [not_or, Decidable.not_not, Bool.not_eq_true] at hw
      exact .needNotWake t hc hw.1 hw.2
  case wakeup t => exact h.2 ▸ .wakeup t h.1
  case endQueue t => exact h.2 ▸ .endQueue t h.1
  case storeQuit t => exact h.2 ▸ .storeQuit t h.1
  case wakeupQuit t => exact h.2 ▸ .wakeupQuit t h.1

theorem step_threadId {l l' : Eloop F} {a : Label F} (h : step l a = some l') :
    l'.threadId = l.threadId := by
  cases step_cases h <;> rfl

theorem run_threadId {l l' : Eloop F} {tr : List (Label F)} (h : exec step l tr = some l') :
    l'.threadId = l.threadId :=
  exec_preserves (fun _ _ _ hu hl => (step_threadId hl).trans hu) (rfl : l.threadId = l.threadId) h

end Step

/-! ### The functors of a run -/

def Label.emplaced : Label F → Option F
  | .emplace _ f => some f
  | _ => none

def Label.called : Label F → Option F
  | .call f => some f
  | _ => none

/-- The functors queued by a run, in the order in which they took the mutex. -/
def queued (tr : List (Label F)) : List F := tr.filterMap Label.emplaced

/-- The functors that `do_pending_functors` has called, in order. -/
def executed (tr : List (Label F)) : List F := tr.filterMap Label.called

@[simp] theorem queued_append (a b : List (Label F)) : queued (a ++ b) = queued a ++ queued b :=
  List.filterMap_append

@[simp] theorem executed_append (a b : List (Label F)) : executed (a ++ b) = executed a ++ executed b :=
  List.filterMap_append

end Eloop

end Caimr.Net
