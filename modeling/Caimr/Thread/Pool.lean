import Caimr.Thread.Tpool

/-! `tpool::run` with its local variable `task`: a thread takes a task under the mutex, gives
the mutex back, and calls the task, or skips it if it is empty. In between the other threads
do as they like. Which thread has taken and called what is recorded. What the mutex and the
condition variable make of it is as in `Tpool`, which sees a pool through `view`. -/
namespace Caimr.Thread
open Transition

/-- Where a thread of the pool is in `run`. -/
inductive RunPc where
  | inCallback
  | ready
  | waiting
  | notified
  | awake
  /-- It has given the mutex back, with a task in `task`. -/
  | fetched
  /-- In `task()`. -/
  | inTask
  /-- It has left the loop, in which it found no task. -/
  | returned
  /-- It has come to the handler of `run`. -/
  | caught
deriving DecidableEq, Repr

namespace RunPc

def wantsMutex : RunPc → Bool
  | .ready | .notified | .awake => true
  | _ => false

def inUserCode : RunPc → Bool
  | .inCallback | .inTask => true
  | _ => false

def notify : RunPc → RunPc
  | .waiting => .notified
  | pc => pc

/-- The thread has left `run`. -/
def gone : RunPc → Bool
  | .returned | .caught => true
  | _ => false

end RunPc

/-- A thread of the pool. -/
structure Worker (F : Type) where
  pc : RunPc
  /-- Its local variable `task`, empty at first. -/
  task : Option F
deriving DecidableEq, Repr

namespace Worker
variable {F : Type}

/-- The task that has been taken and not called. -/
def owed (w : Worker F) : List F := if w.pc = .fetched then w.task.toList else []

def view (w : Worker F) : WorkerPc F :=
  match w.pc with
  | .inCallback => .inCallback
  | .ready => .ready
  | .waiting => .waiting
  | .notified => .notified
  | .awake => .awake
  | .fetched | .inTask => w.task.elim .ready .inTask
  | .returned | .caught => .returned

end Worker

structure Pool (F : Type) where
  tsize : Nat
  callback : Bool
  started : Bool
  running : Bool
  queue : List (Option F)
  workers : List (Worker F)
  /-- The tasks in the order in which they were taken, with the threads that took them. -/
  taken : List (Nat × Option F)
  called : List (Nat × F)
  /-- How many threads have left `run` in the init callback. -/
  failed : Nat
deriving DecidableEq, Repr

namespace Pool
variable {F : Type}

def create (tsize : Nat) (callback : Bool) : Pool F := ⟨tsize, callback, false, false, [], [], [], [], 0⟩

inductive Act (F : Type) where
  /-- A step as in `Tpool`; a thread that takes a task keeps it in `task`. -/
  | pool (a : Tpool.Label F)
  /-- A thread that has taken a task calls it, unless it is empty. -/
  | call (i : Nat)
deriving DecidableEq, Repr

def setWorker (p : Pool F) (i : Nat) (w : Worker F) : Pool F := {p with workers := p.workers.set i w}

/-- What a thread does under the mutex, as in `Tpool.underMutex`. -/
def underMutex (p : Pool F) (i : Nat) (w : Worker F) : Pool F :=
  match p.queue with
  | [] => p.setWorker i {w with pc := if p.running then .waiting else .returned}
  | task :: rest => setWorker {p with queue := rest, taken := p.taken ++ [(i, task)]} i ⟨.fetched, task⟩

/-- `if (task != nullptr) task();` -/
def runTask (p : Pool F) (i : Nat) (w : Worker F) : Pool F :=
  match w.task with
  | some f => setWorker {p with called := p.called ++ [(i, f)]} i {w with pc := .inTask}
  | none => p.setWorker i {w with pc := .ready}

def Reaches (p : Pool F) : Option Nat → Prop
  | some i => p.workers[i]?.map Worker.pc = some .waiting
  | none => .waiting ∉ p.workers.map Worker.pc

instance (p : Pool F) : (reached : Option Nat) → Decidable (p.Reaches reached)
  | some i => inferInstanceAs (Decidable (p.workers[i]?.map Worker.pc = some .waiting))
  | none => inferInstanceAs (Decidable (.waiting ∉ p.workers.map Worker.pc))

/-- `notify_one`. -/
def notifyOne (p : Pool F) : Option Nat → Pool F
  | some i => p.workers[i]?.elim p fun w => p.setWorker i {w with pc := .notified}
  | none => p

/-- A step of thread `i`, if it is where `pc` says. -/
def onWorker (p : Pool F) (i : Nat) (pc : RunPc → Bool) (next : Worker F → Pool F) : Option (Pool F) :=
  match p.workers[i]? with
  | some w => if pc w.pc = true then some (next w) else none
  | none => none

def step (p : Pool F) : Act F → Option (Pool F)
  | .pool .start => if p.started = false then some {p with started := true, running := true} else none
  | .pool .spawn =>
    if p.started = true ∧ p.workers.length < p.tsize then
      some {p with workers := p.workers ++ [⟨if p.callback then .inCallback else .ready, none⟩]}
    else none
  | .pool .stop =>
    some {p with running := false, workers := p.workers.map fun w => {w with pc := w.pc.notify}}
  | .pool (.add task reached) =>
    if p.Reaches reached then some (notifyOne {p with queue := p.queue ++ [task]} reached) else none
  | .pool (.lock i) => p.onWorker i RunPc.wantsMutex (p.underMutex i)
  | .pool (.wakeUp i) => p.onWorker i (· == .waiting) fun w => p.setWorker i {w with pc := .awake}
  | .pool (.returns i) => p.onWorker i RunPc.inUserCode fun w => p.setWorker i {w with pc := .ready}
  | .pool (.throws i) =>
    p.onWorker i RunPc.inUserCode fun w =>
      setWorker {p with failed := p.failed + (w.pc == .inCallback).toNat} i {w with pc := .caught}
  | .call i => p.onWorker i (· == .fetched) (p.runTask i)

/-- All that a step can do. -/
inductive Step (p : Pool F) : Act F → Pool F → Prop where
  | start : p.started = false → Step p (.pool .start) {p with started := true, running := true}
  | spawn : p.started = true → p.workers.length < p.tsize →
      Step p (.pool .spawn)
        {p with workers := p.workers ++ [⟨if p.callback then .inCallback else .ready, none⟩]}
  | stop : Step p (.pool .stop)
      {p with running := false, workers := p.workers.map fun w => {w with pc := w.pc.notify}}
  | notifies (task : Option F) (i : Nat) (w : Worker F) : p.workers[i]? = some w → w.pc = .waiting →
      Step p (.pool (.add task (some i)))
        (setWorker {p with queue := p.queue ++ [task]} i {w with pc := .notified})
  | notifiesNone (task : Option F) : .waiting ∉ p.workers.map Worker.pc →
      Step p (.pool (.add task none)) {p with queue := p.queue ++ [task]}
  | takes (i : Nat) (w : Worker F) (task : Option F) (rest : List (Option F)) : p.workers[i]? = some w →
      w.pc.wantsMutex = true → p.queue = task :: rest →
      Step p (.pool (.lock i))
        (setWorker {p with queue := rest, taken := p.taken ++ [(i, task)]} i ⟨.fetched, task⟩)
  | waits (i : Nat) (w : Worker F) : p.workers[i]? = some w → w.pc.wantsMutex = true → p.queue = [] →
      p.running = true → Step p (.pool (.lock i)) (p.setWorker i {w with pc := .waiting})
  | leaves (i : Nat) (w : Worker F) : p.workers[i]? = some w → w.pc.wantsMutex = true → p.queue = [] →
      p.running = false → Step p (.pool (.lock i)) (p.setWorker i {w with pc := .returned})
  | wakeUp (i : Nat) (w : Worker F) : p.workers[i]? = some w → w.pc = .waiting →
      Step p (.pool (.wakeUp i)) (p.setWorker i {w with pc := .awake})
  | returns (i : Nat) (w : Worker F) : p.workers[i]? = some w → w.pc.inUserCode = true →
      Step p (.pool (.returns i)) (p.setWorker i {w with pc := .ready})
  | throws (i : Nat) (w : Worker F) : p.workers[i]? = some w → w.pc.inUserCode = true →
      Step p (.pool (.throws i))
        (setWorker {p with failed := p.failed + (w.pc == .inCallback).toNat} i {w with pc := .caught})
  | calls (i : Nat) (w : Worker F) (f : F) : p.workers[i]? = some w → w.pc = .fetched → w.task = some f →
      Step p (.call i) (setWorker {p with called := p.called ++ [(i, f)]} i {w with pc := .inTask})
  | skips (i : Nat) (w : Worker F) : p.workers[i]? = some w → w.pc = .fetched → w.task = none →
      Step p (.call i) (p.setWorker i {w with pc := .ready})

section Step
variable {p p' : Pool F} {i : Nat}

theorem onWorker_some {pc : RunPc → Bool} {next : Worker F → Pool F} (h : p.onWorker i pc next = some p') :
    ∃ w, p.workers[i]? = some w ∧ pc w.pc = true ∧ next w = p' := by
  unfold onWorker at h
  split at h <;> simp only [Option.ite_none_right_eq_some, Option.some.injEq, reduceCtorEq] at h
  rename_i w hw
  exact ⟨w, hw, h.1, h.2⟩

theorem lock_step {w : Worker F} (hw : p.workers[i]? = some w) (hwants : w.pc.wantsMutex = true) :
    Step p (.pool (.lock i)) (p.underMutex i w) := by
  cases hq : p.queue with
  | nil =>
    cases hr : p.running with
    | true =>
      simp only [underMutex, hq, hr]
      exact .waits i w hw hwants hq hr
    | false =>
      simp only [underMutex, hq, hr]
      exact .leaves i w hw hwants hq hr
  | cons task rest =>
    simp only [underMutex, hq]
    exact .takes i w task rest hw hwants hq

theorem call_step {w : Worker F} (hw : p.workers[i]? = some w) (hpc : w.pc = .fetched) :
    Step p (.call i) (p.runTask i w) := by
  obtain ⟨pc, task⟩ := w
  cases task with
  | some f => exact .calls i _ f hw hpc rfl
  | none => exact .skips i _ hw hpc rfl

theorem add_step {task : Option F} {reached : Option Nat} (h : p.Reaches reached) :
    Step p (.pool (.add task reached)) (notifyOne {p with queue := p.queue ++ [task]} reached) := by
  cases reached with
  | none => exact .notifiesNone task h
  | some i =>
    obtain ⟨w, hw, hpc⟩ := Option.map_eq_some_iff.mp h
    simp only [notifyOne, hw, Option.elim_some]
    exact .notifies task i w hw hpc

theorem step_cases {a : Act F} (h : step p a = some p') : Step p a p' := by
  cases a with
  | call i =>
    simp only [step] at h
    obtain ⟨w, hw, hpc, rfl⟩ := onWorker_some h
    exact call_step hw (by simpa using hpc)
  | pool a =>
    cases a with
    | start =>
      simp only [step, Option.ite_none_right_eq_some, Option.some.injEq] at h
      exact h.2 ▸ .start h.1
    | spawn =>
      simp only [step, Option.ite_none_right_eq_some, Option.some.injEq] at h
      exact h.2 ▸ .spawn h.1.1 h.1.2
    | stop =>
      cases h
      exact .stop
    | add task reached =>
      simp only [step, Option.ite_none_right_eq_some, Option.some.injEq] at h
      exact h.2 ▸ add_step h.1
    | lock i =>
      simp only [step] at h
      obtain ⟨w, hw, hpc, rfl⟩ := onWorker_some h
      exact lock_step hw hpc
    | wakeUp i =>
      simp only [step] at h
      obtain ⟨w, hw, hpc, rfl⟩ := onWorker_some h
      exact .wakeUp i w hw (by simpa using hpc)
    | returns i =>
      simp only [step] at h
      obtain ⟨w, hw, hpc, rfl⟩ := onWorker_some h
      exact .returns i w hw hpc
    | throws i =>
      simp only [step] at h
      obtain ⟨w, hw, hpc, rfl⟩ := onWorker_some h
      exact .throws i w hw hpc

end Step

/-! ### What is recorded -/

def Act.added : Act F → List (Option F)
  | .pool (.add task _) => [task]
  | _ => []

/-- The tasks in the order in which `add` took the mutex. -/
def adds (tr : List (Act F)) : List (Option F) := tr.flatMap Act.added

/-- The tasks that thread `i` has taken, without the empty ones. -/
def takenBy (p : Pool F) (i : Nat) : List F := (p.taken.filter fun e => e.1 = i).filterMap Prod.snd

def calledBy (p : Pool F) (i : Nat) : List F := (p.called.filter fun e => e.1 = i).map Prod.snd

/-- The task that thread `i` has taken and not called. -/
def owed (p : Pool F) (i : Nat) : List F := p.workers[i]?.elim [] Worker.owed

/-- No task is lost, repeated or reordered, and each is called by the thread that took it. -/
structure Recorded (added : List (Option F)) (p : Pool F) : Prop where
  conserved : p.taken.map Prod.snd ++ p.queue = added
  called : ∀ i, p.takenBy i = p.calledBy i ++ p.owed i
  inTask : ∀ w ∈ p.workers, w.pc = .inTask → w.task.isSome = true

section Recorded
variable {p : Pool F} {added : List (Option F)} {i : Nat} {w w' : Worker F}

theorem adds_append (a b : List (Act F)) : adds (a ++ b) = adds a ++ adds b := List.flatMap_append

theorem owed_of_pc (h : w.pc ≠ .fetched) : w.owed = [] := if_neg h

theorem owed_setWorker (h : p.workers[i]? = some w) (w' : Worker F) (j : Nat) :
    (p.setWorker i w').owed j = if j = i then w'.owed else p.owed j := by
  obtain ⟨hi, -⟩ := List.getElem?_eq_some_iff.mp h
  unfold owed setWorker
  split
  · rename_i hj
    subst hj
    simp [hi]
  · rename_i hj
    rw [List.getElem?_set_ne (Ne.symm hj)]

theorem takenBy_append (p : Pool F) (queue : List (Option F)) (task : Option F) (i j : Nat) :
    takenBy {p with queue := queue, taken := p.taken ++ [(i, task)]} j =
      p.takenBy j ++ if j = i then task.toList else [] := by
  unfold takenBy
  rw [List.filter_append, List.filterMap_append]
  by_cases hj : j = i
  · subst hj
    cases task <;> simp
  · simp [hj, Ne.symm hj]

theorem calledBy_append (p : Pool F) (f : F) (i j : Nat) :
    calledBy {p with called := p.called ++ [(i, f)]} j = p.calledBy j ++ if j = i then [f] else [] := by
  unfold calledBy
  rw [List.filter_append, List.map_append]
  by_cases hj : j = i
  · subst hj
    simp
  · simp [hj, Ne.symm hj]

theorem mem_setWorker (h : w ∈ (p.setWorker i w').workers) : w ∈ p.workers ∨ w = w' :=
  List.mem_or_eq_of_mem_set h

/-- Nothing has been added. -/
theorem Recorded.same (h : p.Recorded added) : p.Recorded (added ++ []) := (List.append_nil added).symm ▸ h

theorem owed_spawn (p : Pool F) (hw : w.pc ≠ .fetched) (i : Nat) :
    owed {p with workers := p.workers ++ [w]} i = p.owed i := by
  unfold owed
  rcases Nat.lt_trichotomy i p.workers.length with hi | hi | hi
  · rw [List.getElem?_append_left hi]
  · rw [hi, List.getElem?_concat_length, List.getElem?_eq_none (Nat.le_refl _)]
    exact owed_of_pc hw
  · rw [List.getElem?_eq_none (Nat.le_of_lt hi), List.getElem?_eq_none]
    rw [List.length_append, List.length_singleton]
    exact hi

theorem owed_notifyAll (p : Pool F) (running : Bool) (i : Nat) :
    owed {p with running := running, workers := p.workers.map fun w => {w with pc := w.pc.notify}} i = p.owed i := by
  have hsame : ∀ w : Worker F, Worker.owed {w with pc := w.pc.notify} = w.owed := by
    intro ⟨pc, task⟩
    cases pc <;> rfl
  unfold owed
  rw [List.getElem?_map]
  cases p.workers[i]? with
  | none => rfl
  | some w => exact hsame w

theorem Recorded.own (h : p.Recorded added) (hw : p.workers[i]? = some w) :
    p.takenBy i = p.calledBy i ++ w.owed := by
  have hcalled := h.called i
  rwa [owed, hw, Option.elim_some] at hcalled

/-- Where one thread acts, its own record has to be right, and those of the others are what they were. -/
theorem Recorded.worker {q : Pool F} {added' : List (Option F)} (h : p.Recorded added)
    (hw : p.workers[i]? = some w) (hworkers : q.workers = p.workers)
    (hconserved : q.taken.map Prod.snd ++ q.queue = added')
    (hothers : ∀ j ≠ i, q.takenBy j = p.takenBy j ∧ q.calledBy j = p.calledBy j)
    (hown : q.takenBy i = q.calledBy i ++ w'.owed) (hin : w'.pc = .inTask → w'.task.isSome = true) :
    (q.setWorker i w').Recorded added' := by
  have hget : q.workers[i]? = some w := hworkers ▸ hw
  refine ⟨hconserved, fun j => ?_, fun v hv hv' => ?_⟩
  · show q.takenBy j = q.calledBy j ++ _
    rw [owed_setWorker hget]
    by_cases hj : j = i
    · subst hj
      rw [if_pos rfl]
      exact hown
    · obtain ⟨htaken, hcalled⟩ := hothers j hj
      rw [if_neg hj, htaken, hcalled, owed, hworkers]
      exact h.called j
  · rcases mem_setWorker hv with hv | rfl
    · exact h.inTask v (hworkers ▸ hv) hv'
    · exact hin hv'

/-- A thread goes from one place to another, in neither of which it owes anything. -/
theorem Recorded.moves {pc : RunPc} (h : p.Recorded added) (hw : p.workers[i]? = some w) (hpc : w.pc ≠ .fetched)
    (hpc' : pc ≠ .fetched) (hin : pc ≠ .inTask) : (p.setWorker i {w with pc := pc}).Recorded added := by
  have hown := h.own hw
  refine h.worker hw rfl h.conserved (fun _ _ => ⟨rfl, rfl⟩) ?_ fun hpc => absurd hpc hin
  rw [owed_of_pc hpc] at hown
  rw [owed_of_pc hpc']
  exact hown

theorem step_recorded {p' : Pool F} {a : Act F} (h : p.Recorded added) (hs : step p a = some p') :
    p'.Recorded (added ++ a.added) := by
  have hnone : ∀ pc : RunPc, pc.wantsMutex = true ∨ pc.inUserCode = true ∨ pc = .waiting → pc ≠ .fetched := by
    rintro pc hpc rfl
    simp [RunPc.wantsMutex, RunPc.inUserCode] at hpc
  cases step_cases hs with
  | start => exact Recorded.same ⟨h.conserved, h.called, h.inTask⟩
  | spawn =>
    have hnew : ∀ pc : RunPc, pc = (if p.callback then .inCallback else .ready) → pc ≠ .fetched ∧ pc ≠ .inTask := by
      rintro pc rfl
      split <;> exact ⟨nofun, nofun⟩
    refine Recorded.same ⟨h.conserved, fun i => ?_, fun w hw hpc => ?_⟩
    · rw [owed_spawn p (hnew _ rfl).1]
      exact h.called i
    · rcases List.mem_append.mp hw with hw | hw
      · exact h.inTask w hw hpc
      · rw [List.mem_singleton.mp hw] at hpc
        exact absurd hpc (hnew _ rfl).2
  | stop =>
    refine Recorded.same ⟨h.conserved, fun i => ?_, fun w hw hpc => ?_⟩
    · rw [owed_notifyAll]
      exact h.called i
    · obtain ⟨v, hv, rfl⟩ := List.mem_map.mp hw
      apply h.inTask v hv
      cases hp : v.pc <;> simp [RunPc.notify, hp] at hpc ⊢
  | notifies task i w hw hpc =>
    have hq : Recorded (added ++ [task]) {p with queue := p.queue ++ [task]} :=
      ⟨by simp [← h.conserved], h.called, h.inTask⟩
    exact hq.moves hw (hnone _ (.inr (.inr hpc))) nofun nofun
  | notifiesNone task => exact ⟨by simp [← h.conserved, Act.added], h.called, h.inTask⟩
  | takes i w task rest hw hwants hq =>
    have hown := h.own hw
    rw [owed_of_pc (hnone _ (.inl hwants)), List.append_nil] at hown
    refine Recorded.same (h.worker hw rfl ?_ (fun j hj => ⟨?_, rfl⟩) ?_ nofun)
    · rw [← h.conserved, hq]
      simp
    · rw [takenBy_append, if_neg hj, List.append_nil]
    · rw [takenBy_append, if_pos rfl, hown]
      rfl
  | waits i w hw hwants | leaves i w hw hwants =>
    exact Recorded.same (h.moves hw (hnone _ (.inl hwants)) nofun nofun)
  | wakeUp i w hw hpc =>
    exact Recorded.same (h.moves hw (hnone _ (.inr (.inr hpc))) nofun nofun)
  | returns i w hw hcode =>
    exact Recorded.same (h.moves hw (hnone _ (.inr (.inl hcode))) nofun nofun)
  | throws i w hw hcode =>
    have hf : Recorded added {p with failed := p.failed + (w.pc == .inCallback).toNat} :=
      ⟨h.conserved, h.called, h.inTask⟩
    exact Recorded.same (hf.moves hw (hnone _ (.inr (.inl hcode))) nofun nofun)
  | calls i w f hw hpc ht =>
    have hown := h.own hw
    rw [Worker.owed, if_pos hpc, ht] at hown
    refine Recorded.same (h.worker hw rfl h.conserved (fun j hj => ⟨rfl, ?_⟩) ?_ fun _ => ?_)
    · rw [calledBy_append, if_neg hj, List.append_nil]
    · rw [calledBy_append, if_pos rfl, owed_of_pc (w := {w with pc := .inTask}) nofun, List.append_nil]
      exact hown
    · rw [ht]
      rfl
  | skips i w hw hpc ht =>
    have hown := h.own hw
    rw [Worker.owed, if_pos hpc, ht] at hown
    refine Recorded.same (h.worker hw rfl h.conserved (fun _ _ => ⟨rfl, rfl⟩) ?_ nofun)
    rw [owed_of_pc (w := {w with pc := .ready}) nofun]
    exact hown

theorem create_recorded (tsize : Nat) (callback : Bool) : (create tsize callback : Pool F).Recorded [] :=
  ⟨rfl, fun _ => rfl, nofun⟩

theorem run_recorded {tsize : Nat} {callback : Bool} {tr : List (Act F)} {p : Pool F}
    (h : exec step (create tsize callback) tr = some p) : p.Recorded (adds tr) := by
  refine run_induction (fun tr p => p.Recorded (adds tr)) (create_recorded tsize callback) ?_ h
  intro tr p a p' _ hp hs
  have hp' := step_recorded hp hs
  rw [adds_append]
  simpa [adds] using hp'

end Recorded

/-! ### The pool as `Tpool` sees it -/

def view (p : Pool F) : Tpool F :=
  ⟨p.tsize, p.callback, p.started, p.running, p.queue, p.workers.map Worker.view⟩

/-- The call of a task cannot be seen. -/
def Act.labels : Act F → List (Tpool.Label F)
  | .pool a => [a]
  | .call _ => []

section View
variable {p p' : Pool F}

theorem view_threads {i : Nat} {w : Worker F} (h : p.workers[i]? = some w) : p.view.threads[i]? = some w.view := by
  simp [view, h]

theorem view_setWorker (p : Pool F) (i : Nat) (w : Worker F) :
    (p.setWorker i w).view = p.view.setThread i w.view := by
  simp [view, setWorker, Tpool.setThread, List.map_set]

/-- A thread that goes where nothing looks different. -/
theorem view_same {i : Nat} {w w' : Worker F} (h : p.workers[i]? = some w) (hv : w'.view = w.view) :
    (p.setWorker i w').view = p.view := by
  obtain ⟨hi, rfl⟩ := List.getElem?_eq_some_iff.mp h
  simp only [view, setWorker, List.map_set, hv]
  rw [← List.getElem_map Worker.view (h := by simpa using hi), List.set_getElem_self]

theorem exec_labels [DecidableEq F] {q : Tpool F} {a : Tpool.Label F} (h : Tpool.step p.view a = some q) :
    exec Tpool.step p.view [a] = some q :=
  exec_cons_some.mpr ⟨q, h, rfl⟩

theorem view_of_pc {w : Worker F} {pc : RunPc} (h : w.pc = pc) : w.view = Worker.view ⟨pc, w.task⟩ := by
  rw [← h]

theorem view_wantsMutex {w : Worker F} (h : w.pc.wantsMutex = true) : w.view.wantsMutex = true := by
  obtain ⟨pc, task⟩ := w
  cases pc <;> first | rfl | cases h

theorem view_inUserCode {w : Worker F} (hw : w.pc = .inTask → w.task.isSome = true) (h : w.pc.inUserCode = true) :
    w.view.inUserCode = true := by
  obtain ⟨pc, task⟩ := w
  cases pc with
  | inCallback => rfl
  | inTask =>
    obtain ⟨f, rfl⟩ := Option.isSome_iff_exists.mp (hw rfl)
    rfl
  | ready | waiting | notified | awake | fetched | returned | caught => cases h

theorem view_step [DecidableEq F] {a : Act F} (hin : ∀ w ∈ p.workers, w.pc = .inTask → w.task.isSome = true)
    (h : step p a = some p') : exec Tpool.step p.view a.labels = some p'.view := by
  cases step_cases h with
  | start hs => exact exec_labels (if_pos hs)
  | spawn hs hlen =>
    apply exec_labels
    have hlen' : p.view.threads.length < p.view.tsize := by
      simpa [view] using hlen
    have hnew : Worker.view ⟨if p.callback then .inCallback else .ready, none⟩ =
        (if p.callback then .inCallback else .ready : WorkerPc F) := by
      split <;> rfl
    rw [Tpool.step, if_pos ⟨hs, hlen'⟩]
    simp only [view, List.map_append, List.map_singleton, hnew]
    rfl
  | stop =>
    refine exec_labels (congrArg some ?_)
    simp only [view, List.map_map]
    congr 1
    refine List.map_congr_left fun w _ => ?_
    obtain ⟨pc, task⟩ := w
    cases pc <;> cases task <;> rfl
  | notifies task i w hw hpc =>
    apply exec_labels
    have hreach : p.view.Reaches (some i) := by
      rw [Tpool.Reaches, view_threads hw, view_of_pc hpc]
      rfl
    rw [Tpool.step, if_pos hreach, view_setWorker]
    rfl
  | notifiesNone task hno =>
    apply exec_labels
    have hreach : p.view.Reaches none := by
      intro hmem
      obtain ⟨w, hw, hv⟩ := List.mem_map.mp hmem
      refine hno (List.mem_map.mpr ⟨w, hw, ?_⟩)
      obtain ⟨pc, task⟩ := w
      cases pc <;> cases task <;> first | rfl | cases hv
    rw [Tpool.step, if_pos hreach]
    rfl
  | takes i w task rest hw hwants hq =>
    apply exec_labels
    rw [Tpool.step, view_threads hw]
    have hunder : p.view.underMutex = ({p.view with queue := rest}, task.elim .ready .inTask) := by
      rw [Tpool.underMutex, show p.view.queue = task :: rest from hq]
    show (if w.view.wantsMutex = true then _ else _) = _
    rw [if_pos (view_wantsMutex hwants), hunder, view_setWorker]
    rfl
  | waits i w hw hwants hq hr | leaves i w hw hwants hq hr =>
    apply exec_labels
    rw [Tpool.step, view_threads hw]
    show (if w.view.wantsMutex = true then _ else _) = _
    rw [if_pos (view_wantsMutex hwants), Tpool.underMutex, show p.view.queue = [] from hq,
      show p.view.running = _ from hr, view_setWorker]
    rfl
  | wakeUp i w hw hpc =>
    apply exec_labels
    rw [Tpool.step, view_threads hw, view_of_pc hpc, view_setWorker]
    exact if_pos rfl
  | returns i w hw hcode | throws i w hw hcode =>
    apply exec_labels
    rw [Tpool.step, view_threads hw, view_setWorker]
    exact if_pos (view_inUserCode (hin w (List.mem_of_getElem? hw)) hcode)
  | calls i w f hw hpc ht =>
    refine congrArg some (view_same (p := {p with called := _}) hw ?_).symm
    rw [view_of_pc hpc]
    rfl
  | skips i w hw hpc ht =>
    refine congrArg some (view_same hw ?_).symm
    rw [view_of_pc hpc, ht]
    rfl

/-- A run of the pool is one that `Tpool` has. -/
theorem run_view [DecidableEq F] {tsize : Nat} {callback : Bool} {tr : List (Act F)}
    (h : exec step (create tsize callback) tr = some p) :
    exec Tpool.step (Tpool.create tsize callback) (tr.flatMap Act.labels) = some p.view := by
  refine run_induction (fun tr p => exec Tpool.step (Tpool.create tsize callback) (tr.flatMap Act.labels) = some p.view)
    rfl ?_ h
  intro tr p a p' hp hv hs
  rw [List.flatMap_append, List.flatMap_singleton]
  exact exec_split.mpr ⟨p.view, hv, view_step (run_recorded hp).inTask hs⟩

end View

/-- **Every task is handed out once, in order.** The tasks that have been taken, in the order in
which they were taken, and those in the queue are those that have been added, in the order in
which `add` took the mutex; and each thread has called the tasks that it has taken, each once and
in order, but for the one that it is about to call. -/
theorem handed_out_once {tsize : Nat} {callback : Bool} {tr : List (Act F)} {p : Pool F}
    (h : exec step (create tsize callback) tr = some p) :
    p.taken.map Prod.snd ++ p.queue = adds tr ∧ ∀ i, p.takenBy i = p.calledBy i ++ p.owed i :=
  ⟨(run_recorded h).conserved, (run_recorded h).called⟩

/-- Two threads take tasks of which the first throws and the second is empty; the pool is stopped
in between. -/
theorem handed_out_once_stopped : ∃ p : Pool Nat,
    exec step (create 2 false) [.pool .start, .pool .spawn, .pool .spawn, .pool (.add (some 7) none),
      .pool (.add none none), .pool (.add (some 8) none), .pool (.lock 0), .call 0, .pool (.lock 1), .pool .stop,
      .pool (.throws 0), .call 1, .pool (.lock 1)] = some p ∧
    p.taken = [(0, some 7), (1, none), (1, some 8)] ∧ p.called = [(0, 7)] ∧
    p.taken.map Prod.snd ++ p.queue = [some 7, none, some 8] := by
  refine ⟨_, (Option.some_get (by decide +kernel)).symm, by decide +kernel, by decide +kernel, ?_⟩
  exact (handed_out_once (Option.some_get (by decide +kernel)).symm).1

end Pool

end Caimr.Thread
