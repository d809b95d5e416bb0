import Caimr.Lib.Bag
import Caimr.Lib.Transition

/-! `thread/tpool.cpp`. What is done under the mutex is one step, so the threads of the pool,
the callers of `add` and `stop` and the condition variable can be interleaved in any way.
A notification reaches one thread that waits without having been notified, if there is one;
a thread may also wake up without any. -/
namespace Caimr.Thread
open Transition

/-- Where a thread of the pool is in `run`; `F` is the type of the tasks. -/
inductive WorkerPc (F : Type) where
  /-- In `t_init_callback_`. -/
  | inCallback
  /-- About to take the mutex. -/
  | ready
  /-- Blocked in `cond_.wait`. -/
  | waiting
  /-- Notified; it has not taken the mutex back. -/
  | notified
  /-- Awake without a notification; it has not taken the mutex back. -/
  | awake
  | inTask (f : F)
  | returned
deriving DecidableEq, Repr

namespace WorkerPc
variable {F : Type}

/-- The thread can go on as soon as it has the mutex. -/
def wantsMutex : WorkerPc F → Bool
  | .ready | .notified | .awake => true
  | _ => false

def inUserCode : WorkerPc F → Bool
  | .inCallback | .inTask _ => true
  | _ => false

def isNotified : WorkerPc F → Bool
  | .notified => true
  | _ => false

/-- What `notify_all` does to a thread. -/
def notify : WorkerPc F → WorkerPc F
  | .waiting => .notified
  | pc => pc

theorem notify_ne_waiting (pc : WorkerPc F) : pc.notify ≠ .waiting := by
  cases pc <;> nofun

end WorkerPc

structure Tpool (F : Type) where
  tsize : Nat
  /-- Whether `t_init_callback_` is set. -/
  callback : Bool
  /-- `start` has been called. -/
  started : Bool
  running : Bool
  /-- A task may be an empty `std::function`. -/
  queue : List (Option F)
  threads : List (WorkerPc F)

namespace Tpool
variable {F : Type}

/-- `tpool()`, with what is set before `start`. -/
def create (tsize : Nat) (callback : Bool) : Tpool F := ⟨tsize, callback, false, false, [], []⟩

inductive Label (F : Type) where
  /-- `start`, up to its loop. -/
  | start
  /-- One round of the loop in `start`. -/
  | spawn
  | stop
  /-- `add`, and the thread that `notify_one` reaches. -/
  | add (task : Option F) (reached : Option Nat)
  /-- A thread takes the mutex, and runs until it gives it back. -/
  | lock (i : Nat)
  | wakeUp (i : Nat)
  /-- The init callback or the task returns. -/
  | returns (i : Nat)
  | throws (i : Nat)
deriving DecidableEq, Repr

def setThread (p : Tpool F) (i : Nat) (pc : WorkerPc F) : Tpool F := {p with threads := p.threads.set i pc}

/-- What a thread does under the mutex, and where that leaves it: it takes a task, or
returns, or waits. -/
def underMutex (p : Tpool F) : Tpool F × WorkerPc F :=
  match p.queue with
  | [] => (p, if p.running then .waiting else .returned)
  | task :: rest => ({p with queue := rest}, task.elim .ready .inTask)

/-- `notify_one` reaches a waiting thread if there is one. -/
def Reaches (p : Tpool F) : Option Nat → Prop
  | some i => p.threads[i]? = some .waiting
  | none => .waiting ∉ p.threads

section Step
variable [DecidableEq F]

instance (p : Tpool F) (reached : Option Nat) : Decidable (p.Reaches reached) := by
  unfold Reaches
  split <;> infer_instance

def step (p : Tpool F) : Label F → Option (Tpool F)
  | .start => if p.started = false then some {p with started := true, running := true} else none
  | .spawn =>
    if p.started = true ∧ p.threads.length < p.tsize then
      some {p with threads := p.threads ++ [if p.callback then .inCallback else .ready]}
    else none
  | .stop => some {p with running := false, threads := p.threads.map WorkerPc.notify}
  | .add task reached =>
    if p.Reaches reached then
      some {p with queue := p.queue ++ [task]
                   threads := reached.elim p.threads fun i => p.threads.set i .notified}
    else none
  | .lock i =>
    match p.threads[i]? with
    | some pc => if pc.wantsMutex = true then some (p.underMutex.1.setThread i p.underMutex.2) else none
    | none => none
  | .wakeUp i => if p.threads[i]? = some .waiting then some (p.setThread i .awake) else none
  | .returns i =>
    match p.threads[i]? with
    | some pc => if pc.inUserCode = true then some (p.setThread i .ready) else none
    | none => none
  | .throws i =>
    match p.threads[i]? with
    | some pc => if pc.inUserCode = true then some (p.setThread i .returned) else none
    | none => none

/-- All that a step can do. -/
inductive Step (p : Tpool F) : Label F → Tpool F → Prop where
  | start : p.started = false → Step p .start {p with started := true, running := true}
  | spawn : p.started = true → p.threads.length < p.tsize →
      Step p .spawn {p with threads := p.threads ++ [if p.callback then .inCallback else .ready]}
  | stop : Step p .stop {p with running := false, threads := p.threads.map WorkerPc.notify}
  | notifies (task : Option F) (i : Nat) : p.threads[i]? = some .waiting →
      Step p (.add task (some i)) (setThread {p with queue := p.queue ++ [task]} i .notified)
  | notifiesNone (task : Option F) : .waiting ∉ p.threads →
      Step p (.add task none) {p with queue := p.queue ++ [task]}
  | takes (i : Nat) (pc : WorkerPc F) (task : Option F) (rest : List (Option F)) : p.threads[i]? = some pc →
      pc.wantsMutex = true → p.queue = task :: rest →
      Step p (.lock i) (setThread {p with queue := rest} i (task.elim .ready .inTask))
  | waits (i : Nat) (pc : WorkerPc F) : p.threads[i]? = some pc → pc.wantsMutex = true → p.queue = [] →
      p.running = true → Step p (.lock i) (p.setThread i .waiting)
  | leaves (i : Nat) (pc : WorkerPc F) : p.threads[i]? = some pc → pc.wantsMutex = true → p.queue = [] →
      p.running = false → Step p (.lock i) (p.setThread i .returned)
  | wakeUp (i : Nat) : p.threads[i]? = some .waiting → Step p (.wakeUp i) (p.setThread i .awake)
  | returns (i : Nat) (pc : WorkerPc F) : p.threads[i]? = some pc → pc.inUserCode = true →
      Step p (.returns i) (p.setThread i .ready)
  | throws (i : Nat) (pc : WorkerPc F) : p.threads[i]? = some pc → pc.inUserCode = true →
      Step p (.throws i) (p.setThread i .returned)

theorem lock_cases {p p' : Tpool F} {i : Nat} (h : step p (.lock i) = some p') : Step p (.lock i) p' := by
  simp only [step] at h
  split at h <;> simp only [Option.ite_none_right_eq_some, Option.some.injEq, reduceCtorEq] at h
  rename_i pc hpc
  obtain ⟨hwants, rfl⟩ := h
  cases hq : p.queue with
  | nil =>
    cases hr : p.running with
    | true =>
      simp only [underMutex, hq, hr]
      exact .waits i pc hpc hwants hq hr
    | false =>
      simp only [underMutex, hq, hr]
      exact .leaves i pc hpc hwants hq hr
  | cons task rest =>
    simp only [underMutex, hq]
    exact .takes i pc task rest hpc hwants hq

theorem step_cases {p p' : Tpool F} {a : Label F} (h : step p a = some p') : Step p a p' := by
  cases a with
  | start =>
    simp only [step, Option.ite_none_right_eq_some, Option.some.injEq] at h
    exact h.2 ▸ .start h.1
  | spawn =>
    simp only [step, Option.ite_none_right_eq_some, Option.some.injEq] at h
    exact h.2 ▸ .spawn h.1.1 h.1.2
  | stop =>
    cases h
    exact .stop
  | add task reached =>
    simp only [step, Option.ite_none_right_eq_some, Option.some.injEq] at h
    obtain ⟨hr, rfl⟩ := h
    cases reached with
    | none => exact .notifiesNone task hr
    | some i => exact .notifies task i hr
  | lock i => exact lock_cases h
  | wakeUp i =>
    simp only [step, Option.ite_none_right_eq_some, Option.some.injEq] at h
    exact h.2 ▸ .wakeUp i h.1
  | returns i =>
    simp only [step] at h
    split at h <;> simp only [Option.ite_none_right_eq_some, Option.some.injEq, reduceCtorEq] at h
    rename_i pc hpc
    exact h.2 ▸ .returns i pc hpc h.1
  | throws i =>
    simp only [step] at h
    split at h <;> simp only [Option.ite_none_right_eq_some, Option.some.injEq, reduceCtorEq] at h
    rename_i pc hpc
    exact h.2 ▸ .throws i pc hpc h.1

end Step

/-! ### Waiting and notified threads -/

/-- The threads that have been notified and have not resumed. -/
def notified (p : Tpool F) : Nat := p.threads.countP WorkerPc.isNotified

theorem notified_setThread {p : Tpool F} {i : Nat} {pc : WorkerPc F} (h : p.threads[i]? = some pc)
    (pc' : WorkerPc F) :
    (p.setThread i pc').notified + pc.isNotified.toNat = p.notified + pc'.isNotified.toNat :=
  Bag.countP_set h WorkerPc.isNotified pc'

theorem waiting_setThread {p : Tpool F} {i : Nat} (pc : WorkerPc F) (hpc : pc ≠ .waiting)
    (h : .waiting ∈ (p.setThread i pc).threads) : .waiting ∈ p.threads := by
  rcases List.mem_or_eq_of_mem_set h with h | h
  · exact h
  · exact absurd h.symm hpc

/-- While a thread waits, a notification is on its way for each task in the queue; and once the
pool has been stopped, no thread waits. -/
structure Inv (p : Tpool F) : Prop where
  backlog : .waiting ∈ p.threads → p.queue.length ≤ p.notified
  stopped : p.running = false → .waiting ∉ p.threads

/-- A thread that neither waited nor was notified goes on, and does not wait. -/
theorem Inv.goesOn {p : Tpool F} {i : Nat} {pc pc' : WorkerPc F} (inv : p.Inv) (h : p.threads[i]? = some pc)
    (hpc : pc.isNotified = false) (hpc' : pc' ≠ .waiting) : (p.setThread i pc').Inv := by
  have hcount := notified_setThread h pc'
  rw [hpc, Bool.toNat_false] at hcount
  refine ⟨fun hw => ?_, fun hr hw => inv.stopped hr (waiting_setThread _ hpc' hw)⟩
  exact Nat.le_trans (inv.backlog (waiting_setThread _ hpc' hw)) (by omega)

theorem isNotified_of_inUserCode {pc : WorkerPc F} (h : pc.inUserCode = true) : pc.isNotified = false := by
  cases pc with
  | notified => cases h
  | inCallback | ready | waiting | awake | inTask | returned => rfl

theorem step_inv [DecidableEq F] {p p' : Tpool F} {a : Label F} (inv : p.Inv) (h : step p a = some p') : p'.Inv := by
  cases step_cases h with
  | start => exact ⟨inv.backlog, nofun⟩
  | spawn =>
    have hnew : (if p.callback then .inCallback else .ready : WorkerPc F) ≠ .waiting := by
      split <;> nofun
    have hwas : .waiting ∈ p.threads ++ [if p.callback then .inCallback else .ready] → .waiting ∈ p.threads := by
      intro hw
      rcases List.mem_append.mp hw with hw | hw
      · exact hw
      · exact absurd (List.mem_singleton.mp hw).symm hnew
    refine ⟨fun hw => Nat.le_trans (inv.backlog (hwas hw)) ?_, fun hr hw => inv.stopped hr (hwas hw)⟩
    simp [notified]
  | stop =>
    have hnone : .waiting ∉ p.threads.map WorkerPc.notify := by
      intro hw
      obtain ⟨pc, -, hpc⟩ := List.mem_map.mp hw
      exact pc.notify_ne_waiting hpc
    exact ⟨fun hw => absurd hw hnone, fun _ => hnone⟩
  | notifies task i hi =>
    have hw : .waiting ∈ p.threads := List.mem_of_getElem? hi
    have hcount := notified_setThread (p := {p with queue := p.queue ++ [task]}) hi .notified
    have hlen := inv.backlog hw
    refine ⟨fun _ => ?_, fun hr hw' => inv.stopped hr hw⟩
    simp only [setThread, List.length_append, List.length_singleton]
    simp only [notified, WorkerPc.isNotified, Bool.toNat_true, Bool.toNat_false, setThread] at hcount hlen ⊢
    omega
  | notifiesNone task hnone => exact ⟨fun hw => absurd hw hnone, inv.stopped⟩
  | takes i pc task rest hi hwants hq =>
    have hnew : (task.elim .ready .inTask : WorkerPc F) ≠ .waiting := by
      cases task <;> nofun
    have hnot : (task.elim .ready .inTask : WorkerPc F).isNotified = false := by
      cases task <;> rfl
    have hcount := notified_setThread (p := {p with queue := rest}) hi (task.elim .ready .inTask)
    refine ⟨fun hw => ?_, fun hr hw => inv.stopped hr (waiting_setThread _ hnew hw)⟩
    have hlen := inv.backlog (waiting_setThread _ hnew hw)
    rw [hq, List.length_cons] at hlen
    have hbool := Bool.toNat_le pc.isNotified
    simp only [hnot, Bool.toNat_false, notified, setThread] at hcount hlen ⊢
    omega
  | waits i pc hi hwants hq hr =>
    refine ⟨fun _ => ?_, fun hr' => ?_⟩
    · simp [setThread, hq]
    · exact absurd (hr.symm.trans hr') nofun
  | leaves i pc hi hwants hq hr =>
    refine ⟨fun _ => ?_, fun hr' hw => inv.stopped hr' (waiting_setThread .returned nofun hw)⟩
    simp [setThread, hq]
  | wakeUp i hi => exact inv.goesOn hi rfl nofun
  | returns i pc hi hcode => exact inv.goesOn hi (isNotified_of_inUserCode hcode) nofun
  | throws i pc hi hcode => exact inv.goesOn hi (isNotified_of_inUserCode hcode) nofun

theorem create_inv (tsize : Nat) (callback : Bool) : (create tsize callback : Tpool F).Inv :=
  ⟨nofun, nofun⟩

section Runs
variable [DecidableEq F]

theorem run_inv {p p' : Tpool F} {tr : List (Label F)} (inv : p.Inv) (h : exec step p tr = some p') : p'.Inv :=
  exec_preserves (fun _ _ _ hi hs => step_inv hi hs) inv h

/-- Only `start` sets `running_`. -/
theorem run_stopped {p p' : Tpool F} {tr : List (Label F)} (h : exec step p tr = some p') (hr : p.running = false)
    (hno : .start ∉ tr) : p'.running = false := by
  induction tr generalizing p with
  | nil =>
    cases h
    exact hr
  | cons a tr ih =>
    obtain ⟨q, hq, h⟩ := exec_cons_some.mp h
    obtain ⟨ha, hno⟩ := not_or.mp (List.mem_cons.not.mp hno)
    refine ih h ?_ hno
    cases step_cases hq with
    | start => exact absurd rfl ha
    | stop => rfl
    | spawn | notifies | notifiesNone | takes | waits | leaves | wakeUp | returns | throws => exact hr

/-- **No work is left to sleeping threads.** However many threads the pool has, whoever calls
`add` and `stop`, whether the tasks return or throw, and in whatever order it all happens: while
a thread waits and has not been notified, there are at most as many tasks in the queue as
threads that have been notified and have not resumed. So the threads that remain are never all
waiting while there is a task, and after `stop` none waits. -/
theorem no_work_left_waiting {tsize : Nat} {callback : Bool} {tr : List (Label F)} {p : Tpool F}
    (h : exec step (create tsize callback) tr = some p) :
    (.waiting ∈ p.threads → p.queue.length ≤ p.notified) ∧
    ¬ (p.queue ≠ [] ∧ .waiting ∈ p.threads ∧ ∀ pc ∈ p.threads, pc ≠ .returned → pc = .waiting) ∧
    ∀ a b, tr = a ++ .stop :: b → .start ∉ b → .waiting ∉ p.threads := by
  have inv := run_inv (create_inv tsize callback) h
  refine ⟨inv.backlog, ?_, ?_⟩
  · intro ⟨hq, hw, hall⟩
    have hpos : 0 < p.notified := Nat.lt_of_lt_of_le (List.length_pos_iff.mpr hq) (inv.backlog hw)
    obtain ⟨pc, hpc, hn⟩ := List.countP_pos_iff.mp hpos
    have hnot : pc ≠ .returned := by
      rintro rfl
      cases hn
    rw [hall pc hpc hnot] at hn
    cases hn
  · rintro a b rfl hno
    obtain ⟨q, q', -, hs, hb⟩ := exec_at h
    cases step_cases hs
    exact inv.stopped (run_stopped hb rfl hno)

/-- Two threads wait and a task is added; the other thread takes it while the notified one has
not resumed. -/
theorem no_work_left_waiting_stolen : ∃ p : Tpool Nat,
    exec step (create 3 false) [.start, .spawn, .spawn, .spawn, .lock 0, .lock 1, .add (some 7) (some 0), .lock 2]
      = some p ∧
    (.waiting ∈ p.threads → p.queue.length ≤ p.notified) := by
  refine ⟨_, (Option.some_get (by decide +kernel)).symm, ?_⟩
  exact (no_work_left_waiting (Option.some_get (by decide +kernel)).symm).1

end Runs

end Tpool

end Caimr.Thread
