import Caimr.Lib.Bag
import Caimr.Thread.Pool

/-! Whether the queue is empty when the threads of a stopped pool are gone. A thread that
finds no task leaves only after all that was added before `stop` has been taken; a task that
throws takes its thread with it, and enough of these leave nobody to take the rest. -/
namespace Caimr.Thread
open Transition

variable {F : Type}

/-- The thread is in a task that throws. -/
def Worker.fails (throws : F → Bool) (w : Worker F) : Bool := w.pc == .inTask && w.task.any throws

/-- The thread has come to the handler, or will. -/
def Worker.lost (throws : F → Bool) (w : Worker F) : Bool :=
  w.pc == .caught || (w.pc == .fetched || w.pc == .inTask) && w.task.any throws

namespace Pool

/-- The tasks throw or return as `throws` says; the init callback may do either. -/
def permits (throws : F → Bool) (p : Pool F) : Act F → Bool
  | .pool (.returns i) => !p.workers[i]?.any (Worker.fails throws)
  | .pool (.throws i) => p.workers[i]?.any fun w => w.pc == .inCallback || Worker.fails throws w
  | _ => true

def stepWith (throws : F → Bool) (p : Pool F) (a : Act F) : Option (Pool F) :=
  if permits throws p a = true then step p a else none

/-- All that has been done is before a `stop`, the first since `start`. -/
def BeforeStop (before : List (Act F)) : Prop := ∃ a b, before = a ++ .pool .start :: b ∧ .pool .stop ∉ b

/-- In whatever order things happen: once all threads of a pool of `tsize` have left `run`, of
which `failing` in the init callback, all the tasks added before `stop` have been taken and
called, and none of them is in the queue. -/
def Drains (tsize : Nat) (callback : Bool) (failing : Nat) (throws : F → Bool) (tasks : List (Option F)) : Prop :=
  ∀ (before after : List (Act F)) (p : Pool F), BeforeStop before → adds before = tasks →
    exec (stepWith throws) (create tsize callback) (before ++ .pool .stop :: after) = some p →
    p.workers.length = tsize → p.failed = failing → (∀ w ∈ p.workers, w.pc.gone = true) →
    tasks <+: p.taken.map Prod.snd ∧ p.queue <:+ adds after ∧ ∀ i, p.takenBy i = p.calledBy i

/-! ### Threads that are lost -/

/-- Each thread lost has thrown in the callback or taken a task that throws. -/
def Counted (throws : F → Bool) (p : Pool F) : Prop :=
  p.workers.countP (Worker.lost throws) = p.failed + (p.taken.map Prod.snd).countP (·.any throws)

section Steps
variable {throws : F → Bool} {p p' : Pool F} {a : Act F}

theorem stepWith_some : stepWith throws p a = some p' ↔ permits throws p a = true ∧ step p a = some p' := by
  simp only [stepWith, Option.ite_none_right_eq_some]

theorem exec_of_stepWith {tr : List (Act F)} (h : exec (stepWith throws) p tr = some p') : exec step p tr = some p' :=
  exec_mono (fun _ _ _ hs => (stepWith_some.mp hs).2) h

/-- A thread goes on, and is lost if it was. -/
theorem Counted.moves {i : Nat} {w w' : Worker F} (h : p.Counted throws) (hw : p.workers[i]? = some w)
    (hlost : Worker.lost throws w' = Worker.lost throws w) : (p.setWorker i w').Counted throws := by
  have hcount := Bag.countP_set hw (Worker.lost throws) w'
  rw [hlost] at hcount
  have hsame := Nat.add_right_cancel hcount
  unfold Counted at h ⊢
  rw [setWorker, hsame]
  exact h

theorem step_counted (h : p.Counted throws) (hs : stepWith throws p a = some p') : p'.Counted throws := by
  obtain ⟨hp, hs⟩ := stepWith_some.mp hs
  have hwants : ∀ w : Worker F, w.pc.wantsMutex = true → Worker.lost throws w = false := by
    intro ⟨pc, task⟩ hpc
    cases pc <;> first | rfl | cases hpc
  cases step_cases hs with
  | start => exact h
  | spawn =>
    have hnew : Worker.lost throws ⟨if p.callback then .inCallback else .ready, none⟩ = false := by
      split <;> rfl
    unfold Counted at h ⊢
    simp [List.countP_append, hnew, h]
  | stop =>
    have hsame : ∀ w : Worker F, Worker.lost throws {w with pc := w.pc.notify} = Worker.lost throws w := by
      intro ⟨pc, task⟩
      cases pc <;> rfl
    unfold Counted at h ⊢
    rw [← h, List.countP_map]
    exact List.countP_congr fun w _ => by rw [Function.comp_apply, hsame]
  | notifies task i w hw hpc =>
    refine Counted.moves (p := {p with queue := _}) h hw ?_
    rw [Worker.lost, Worker.lost, hpc]
    rfl
  | notifiesNone => exact h
  | takes i w task rest hw hpc hq =>
    have hcount := Bag.countP_set hw (Worker.lost throws) ⟨.fetched, task⟩
    rw [hwants w hpc] at hcount
    have hnew : Worker.lost throws ⟨.fetched, task⟩ = task.any throws := rfl
    unfold Counted at h ⊢
    rw [hnew] at hcount
    simp only [setWorker, List.map_append, List.countP_append, List.map_singleton, List.countP_singleton]
    rw [h] at hcount
    cases hany : task.any throws <;> simp [hany] at hcount ⊢ <;> omega
  | waits i w hw hpc | leaves i w hw hpc =>
    apply h.moves hw
    rw [hwants w hpc]
    rfl
  | wakeUp i w hw hpc =>
    apply h.moves hw
    rw [Worker.lost, Worker.lost, hpc]
    rfl
  | returns i w hw hcode =>
    apply h.moves hw
    obtain ⟨pc, task⟩ := w
    simp only [permits, hw, Option.any_some, Bool.not_eq_true', Worker.fails] at hp
    cases pc with
    | inCallback => rfl
    | inTask => exact hp.symm
    | ready | waiting | notified | awake | fetched | returned | caught => cases hcode
  | throws i w hw hcode =>
    obtain ⟨pc, task⟩ := w
    simp only [permits, hw, Option.any_some, Worker.fails] at hp
    have hcount := Bag.countP_set hw (Worker.lost throws) ⟨.caught, task⟩
    cases pc with
    | inCallback =>
      rw [show Worker.lost throws ⟨.inCallback, task⟩ = false from rfl, h] at hcount
      exact hcount.trans (Nat.add_right_comm ..)
    | inTask => exact Counted.moves (p := {p with failed := _}) h hw hp.symm
    | ready | waiting | notified | awake | fetched | returned | caught => cases hcode
  | calls i w f hw hpc ht =>
    refine Counted.moves (p := {p with called := _}) h hw ?_
    rw [Worker.lost, Worker.lost, hpc]
    rfl
  | skips i w hw hpc ht =>
    apply h.moves hw
    rw [Worker.lost, Worker.lost, hpc, ht]
    rfl

theorem create_counted (tsize : Nat) (callback : Bool) : (create tsize callback).Counted throws := rfl

end Steps

/-! ### Threads that find no task -/

section Leaving
variable {p p' : Pool F} {a : Act F} {tasks : List (Option F)}

/-- The pool has been started and not stopped since. -/
structure Working (p : Pool F) : Prop where
  running : p.running = true
  stay : ∀ w ∈ p.workers, w.pc ≠ .returned

theorem Working.moves {i : Nat} {w : Worker F} (h : p.Working) (hw : w.pc ≠ .returned) : (p.setWorker i w).Working := by
  refine ⟨h.running, fun v hv => ?_⟩
  rcases mem_setWorker hv with hv | rfl
  · exact h.stay v hv
  · exact hw

theorem step_working (h : p.Working) (hs : step p a = some p') (ha : a ≠ .pool .stop) : p'.Working := by
  cases step_cases hs with
  | start => exact ⟨rfl, h.stay⟩
  | spawn =>
    refine ⟨h.running, fun w hw => ?_⟩
    rcases List.mem_append.mp hw with hw | hw
    · exact h.stay w hw
    · rw [List.mem_singleton.mp hw]
      show (if p.callback then RunPc.inCallback else .ready) ≠ _
      split <;> nofun
  | stop => exact absurd rfl ha
  | notifiesNone => exact ⟨h.running, h.stay⟩
  | leaves i w hw hwants hq hr =>
    rw [h.running] at hr
    cases hr
  | notifies | takes | throws | calls => exact Working.moves ⟨h.running, h.stay⟩ nofun
  | waits | wakeUp | returns | skips => exact h.moves nofun

/-- There are no threads before `start`. -/
theorem run_fresh {tsize : Nat} {callback : Bool} {tr : List (Act F)}
    (h : exec step (create tsize callback) tr = some p) (hs : p.started = false) : p.workers = [] := by
  refine run_induction (fun _ p => p.started = false → p.workers = []) (fun _ => rfl) ?_ h hs
  intro _ p a p' _ ih hs hf
  have hnone : ∀ {i : Nat} {w : Worker F}, p.workers[i]? = some w → p.started = false → False := by
    intro i w hw hf
    rw [ih hf] at hw
    cases hw
  cases step_cases hs with
  | start => cases hf
  | spawn hstart =>
    rw [show p.started = false from hf] at hstart
    cases hstart
  | stop =>
    rw [ih hf]
    rfl
  | notifiesNone => exact ih hf
  | notifies _ _ _ hw | takes _ _ _ _ hw | waits _ _ hw | leaves _ _ hw | wakeUp _ _ hw | returns _ _ hw
  | throws _ _ hw | calls _ _ _ hw | skips _ _ hw => exact absurd (hnone hw hf) id

theorem working_before {tsize : Nat} {callback : Bool} {before : List (Act F)} (hb : BeforeStop before)
    (h : exec step (create tsize callback) before = some p) : p.Working := by
  obtain ⟨a, b, rfl, hno⟩ := hb
  obtain ⟨q, q', ha, hs, hb⟩ := exec_at h
  have hq' : q'.Working := by
    cases step_cases hs with
    | start hfresh =>
      refine ⟨rfl, fun w hw => ?_⟩
      rw [show q.workers = [] from run_fresh ha hfresh] at hw
      cases hw
  refine run_induction (fun tr p => .pool .stop ∉ tr → p.Working) (fun _ => hq') ?_ hb hno
  intro tr p a p' _ ih hs hno
  rw [List.mem_append, not_or, List.mem_singleton] at hno
  exact step_working (ih hno.1) hs (Ne.symm hno.2)

/-- A thread has only left because all of `tasks`, which have been added, had been taken. -/
structure Closing (tasks : List (Option F)) (p : Pool F) : Prop where
  added : tasks <+: p.taken.map Prod.snd ++ p.queue
  left : (∃ w ∈ p.workers, w.pc = .returned) → tasks <+: p.taken.map Prod.snd

theorem Closing.moves {i : Nat} {w : Worker F} (h : p.Closing tasks) (hw : w.pc ≠ .returned) :
    (p.setWorker i w).Closing tasks := by
  refine ⟨h.added, fun ⟨v, hv, hpc⟩ => ?_⟩
  rcases mem_setWorker hv with hv | rfl
  · exact h.left ⟨v, hv, hpc⟩
  · exact absurd hpc hw

theorem step_closing (h : p.Closing tasks) (hs : step p a = some p') : p'.Closing tasks := by
  have hqueue : ∀ task, tasks <+: p.taken.map Prod.snd ++ (p.queue ++ [task]) := by
    intro task
    rw [← List.append_assoc]
    exact h.added.trans (List.prefix_append ..)
  cases step_cases hs with
  | start => exact ⟨h.added, h.left⟩
  | spawn =>
    refine ⟨h.added, ?_⟩
    rintro ⟨w, hw, hpc⟩
    rcases List.mem_append.mp hw with hw | hw
    · exact h.left ⟨w, hw, hpc⟩
    · rw [List.mem_singleton.mp hw] at hpc
      simp only at hpc
      split at hpc <;> cases hpc
  | stop =>
    refine ⟨h.added, ?_⟩
    rintro ⟨w, hw, hpc⟩
    obtain ⟨v, hv, rfl⟩ := List.mem_map.mp hw
    refine h.left ⟨v, hv, ?_⟩
    cases hv' : v.pc <;> simp [RunPc.notify, hv'] at hpc ⊢
  | notifies task => exact Closing.moves ⟨hqueue task, h.left⟩ (by simp)
  | notifiesNone task => exact ⟨hqueue task, h.left⟩
  | takes i w task rest hw hwants hq =>
    refine Closing.moves (p := {p with queue := rest, taken := p.taken ++ [(i, task)]}) ⟨?_, fun hl => ?_⟩ (by simp)
    · have hadded := h.added
      rw [hq] at hadded
      simpa using hadded
    · rw [List.map_append]
      exact (h.left hl).trans (List.prefix_append ..)
  | leaves i w hw hwants hq hr =>
    refine ⟨h.added, fun _ => ?_⟩
    have hadded := h.added
    rw [hq, List.append_nil] at hadded
    exact hadded
  | throws | calls => exact Closing.moves ⟨h.added, h.left⟩ (by simp)
  | waits | wakeUp | returns | skips => exact h.moves (by simp)

end Leaving

/-! ### Enough threads -/

/-- A list that another extends, and that is not all of it, has an end to spare. -/
theorem prefix_dropLast {α : Type} {l t : List α} (h : l <+: t) (hne : l.length < t.length) : l <+: t.dropLast := by
  apply List.prefix_of_prefix_length_le h (List.dropLast_prefix t)
  rw [List.length_dropLast]
  omega

theorem drains_of {tsize failing : Nat} {callback : Bool} {throws : F → Bool} {tasks : List (Option F)}
    (h : tasks = [] ∨ tasks.dropLast.countP (·.any throws) + failing < tsize) :
    Drains tsize callback failing throws tasks := by
  rintro before after p hb rfl hrun hlen rfl hgone
  have hstep := exec_of_stepWith hrun
  have hrec := run_recorded hstep
  have hcounted : p.Counted throws :=
    exec_preserves (fun _ _ _ hi hs => step_counted hi hs) (create_counted tsize callback) hrun
  obtain ⟨q, q', hq, hs, hafter⟩ := exec_at hstep
  -- Nobody has left by the time of `stop`, and all of the tasks are there.
  have hclosing : p.Closing (adds before) := by
    have hstart : q.Closing (adds before) := by
      refine ⟨?_, fun ⟨w, hw, hpc⟩ => absurd hpc ((working_before hb hq).stay w hw)⟩
      rw [(run_recorded hq).conserved]
    exact exec_preserves (fun _ _ _ hi hs => step_closing hi hs) (step_closing hstart hs) hafter
  have htaken : adds before <+: p.taken.map Prod.snd := by
    rcases h with h | h
    · rw [h]
      exact List.nil_prefix
    by_cases hleft : ∃ w ∈ p.workers, w.pc = .returned
    · exact hclosing.left hleft
    · -- All threads have thrown, each in a task of its own or in the callback.
      have hall : p.workers.countP (Worker.lost throws) = p.workers.length := by
        refine List.countP_eq_length.mpr fun w hw => ?_
        have hpc := hgone w hw
        obtain ⟨pc, task⟩ := w
        cases pc with
        | returned => exact absurd ⟨_, hw, rfl⟩ hleft
        | caught => rfl
        | inCallback | ready | waiting | notified | awake | fetched | inTask => cases hpc
      by_contra hno
      rcases List.prefix_or_prefix_of_prefix hclosing.added (List.prefix_append ..) with hpre | hpre
      · exact hno hpre
      · have hshort : (p.taken.map Prod.snd).length < (adds before).length := by
          by_contra hlong
          exact hno (hpre.eq_of_length_le (by omega) ▸ List.prefix_rfl)
        have hle := (prefix_dropLast hpre hshort).sublist.countP_le (p := fun t => t.any throws)
        have hcount := hcounted
        rw [Counted, hall, hlen] at hcount
        omega
  refine ⟨htaken, ?_, fun i => ?_⟩
  · obtain ⟨more, hmore⟩ := htaken
    have hall := hrec.conserved
    rw [← hmore, adds_append, List.append_assoc] at hall
    exact ⟨more, List.append_cancel_left hall⟩
  · rw [hrec.called i]
    have hnone : p.owed i = [] := by
      unfold owed
      cases hw : p.workers[i]? with
      | none => rfl
      | some w =>
        refine owed_of_pc fun hpc => ?_
        have := hgone w (List.mem_of_getElem? hw)
        rw [hpc] at this
        cases this
    rw [hnone, List.append_nil]

/-! ### Too few threads -/

/-- Of the threads, `dead` have thrown and `alive` are about to take the mutex. -/
structure Stands (p : Pool F) (dead alive failed : Nat) (queue : List (Option F)) : Prop where
  pcs : p.workers.map Worker.pc = List.replicate dead .caught ++ List.replicate alive .ready
  failed : p.failed = failed
  queue : p.queue = queue

section Schedule
variable {throws : F → Bool} {p : Pool F} {dead alive failing : Nat} {queue : List (Option F)}

theorem set_pcs (d a : Nat) (pc : RunPc) :
    (List.replicate d RunPc.caught ++ List.replicate (a + 1) RunPc.ready).set d pc =
      List.replicate d .caught ++ pc :: List.replicate a .ready := by
  rw [List.set_append_right _ _ (by simp)]
  simp [List.replicate_succ]

/-- The first thread that is alive. -/
theorem Stands.first (h : p.Stands dead (alive + 1) failing queue) :
    ∃ task, p.workers[dead]? = some ⟨.ready, task⟩ := by
  have hpc : (p.workers.map Worker.pc)[dead]? = some .ready := by
    rw [h.pcs, List.getElem?_append_right (by simp)]
    simp
  rw [List.getElem?_map] at hpc
  obtain ⟨⟨pc, task⟩, hw, rfl⟩ := Option.map_eq_some_iff.mp hpc
  exact ⟨task, hw⟩

section Task
variable {i : Nat} {was : Option F}

theorem takes_with {task : Option F} {rest : List (Option F)} (hw : p.workers[i]? = some ⟨.ready, was⟩)
    (hq : p.queue = task :: rest) : stepWith throws p (.pool (.lock i)) =
      some (setWorker {p with queue := rest, taken := p.taken ++ [(i, task)]} i ⟨.fetched, task⟩) := by
  simp [stepWith, permits, step, onWorker, hw, RunPc.wantsMutex, underMutex, hq]

theorem skips_with (hw : p.workers[i]? = some ⟨.fetched, none⟩) :
    stepWith throws p (.call i) = some (p.setWorker i ⟨.ready, none⟩) := by
  simp [stepWith, permits, step, onWorker, hw, runTask]

theorem calls_with {f : F} (hw : p.workers[i]? = some ⟨.fetched, some f⟩) :
    stepWith throws p (.call i) =
      some (setWorker {p with called := p.called ++ [(i, f)]} i ⟨.inTask, some f⟩) := by
  simp [stepWith, permits, step, onWorker, hw, runTask]

theorem ends_with {f : F} (hw : p.workers[i]? = some ⟨.inTask, some f⟩) :
    stepWith throws p (.pool (if throws f then .throws i else .returns i)) =
      some (p.setWorker i ⟨if throws f then .caught else .ready, some f⟩) := by
  cases hf : throws f with
  | false => simp [stepWith, permits, step, onWorker, hw, Worker.fails, RunPc.inUserCode, hf]
  | true =>
    simp [stepWith, permits, step, onWorker, hw, Worker.fails, RunPc.inUserCode, hf]
    rfl

/-- A thread takes a task and does what the task makes it do. -/
theorem runs_task {task : Option F} {rest : List (Option F)} (hw : p.workers[i]? = some ⟨.ready, was⟩)
    (hq : p.queue = task :: rest) : Transition.Reaches (stepWith throws) p fun u =>
      u.workers = p.workers.set i ⟨if task.any throws then .caught else .ready, task⟩ ∧ u.failed = p.failed ∧
      u.queue = rest ∧ u.taken = p.taken ++ [(i, task)] := by
  obtain ⟨hi, -⟩ := List.getElem?_eq_some_iff.mp hw
  refine .next (takes_with hw hq) ?_
  cases task with
  | none =>
    refine .next (skips_with (List.getElem?_set_self hi)) (.here ?_)
    simp [setWorker]
  | some f =>
    refine .next (calls_with (List.getElem?_set_self hi)) ?_
    refine .next (ends_with (List.getElem?_set_self (by simpa [setWorker] using hi))) (.here ?_)
    simp [setWorker]

end Task

/-- If as many of the tasks throw, the last apart, as threads are alive, these can all be lost
with tasks left in the queue. -/
theorem exhausts (throws : F → Bool) (h : p.Stands dead alive failing queue) (hne : queue ≠ [])
    (hmany : alive ≤ queue.dropLast.countP (·.any throws)) : Transition.Reaches (stepWith throws) p fun u =>
      u.Stands (dead + alive) 0 failing u.queue ∧ u.queue ≠ [] ∧
      u.taken.map Prod.snd ++ u.queue = p.taken.map Prod.snd ++ p.queue := by
  induction queue generalizing p dead alive with
  | nil => exact absurd rfl hne
  | cons task rest ih =>
    cases alive with
    | zero => exact .here ⟨⟨h.pcs, h.failed, rfl⟩, by rw [h.queue]; exact hne, rfl⟩
    | succ alive =>
      have hrest : rest ≠ [] := by
        rintro rfl
        simp at hmany
      rw [List.dropLast_cons_of_ne_nil hrest, List.countP_cons] at hmany
      obtain ⟨was, hw⟩ := h.first
      refine (runs_task hw h.queue).trans fun u ⟨hworkers, hfailed, hqueue, htaken⟩ => ?_
      have hpcs := set_pcs dead alive (if task.any throws then .caught else .ready)
      rw [← h.pcs, show (if task.any throws then .caught else .ready) =
        Worker.pc ⟨if task.any throws then .caught else .ready, task⟩ from rfl, ← List.map_set, ← hworkers] at hpcs
      have hgone : u.taken.map Prod.snd ++ u.queue = p.taken.map Prod.snd ++ p.queue := by
        rw [htaken, hqueue, h.queue]
        simp
      cases hany : task.any throws with
      | true =>
        rw [hany, if_pos rfl] at hmany hpcs
        have hstands : u.Stands (dead + 1) alive failing rest := by
          refine ⟨?_, hfailed.trans h.failed, hqueue⟩
          rw [hpcs, List.replicate_succ', List.append_assoc]
          rfl
        refine (ih hstands hrest (by omega)).trans fun v hv => .here ?_
        rw [Nat.add_right_comm, hgone] at hv
        exact hv
      | false =>
        rw [hany] at hmany hpcs
        have hstands : u.Stands dead (alive + 1) failing rest := ⟨hpcs, hfailed.trans h.failed, hqueue⟩
        refine (ih hstands hrest (by simpa using hmany)).trans fun v hv => .here ?_
        rw [hgone] at hv
        exact hv

/-- Before `stop` the pool comes from `p` to `u`, while `tasks` are added. -/
def Prepares (throws : F → Bool) (p : Pool F) (tasks : List (Option F)) (u : Pool F) : Prop :=
  ∃ tr, exec (stepWith throws) p tr = some u ∧ .pool .stop ∉ tr ∧ adds tr = tasks

section Prepares
variable {u v : Pool F} {tasks more : List (Option F)}

theorem Prepares.refl (throws : F → Bool) (p : Pool F) : Prepares throws p [] p := ⟨[], rfl, nofun, rfl⟩

theorem Prepares.trans (h : Prepares throws p tasks u) (h' : Prepares throws u more v) :
    Prepares throws p (tasks ++ more) v := by
  obtain ⟨a, ha, hna, rfl⟩ := h
  obtain ⟨b, hb, hnb, rfl⟩ := h'
  refine ⟨a ++ b, exec_split.mpr ⟨u, ha, hb⟩, ?_, adds_append a b⟩
  rw [List.mem_append]
  exact not_or.mpr ⟨hna, hnb⟩

theorem Prepares.step (a : Act F) (h : stepWith throws p a = some u) (ha : a ≠ .pool .stop) :
    Prepares throws p a.added u :=
  ⟨[a], exec_cons_some.mpr ⟨u, h, rfl⟩, fun hm => ha (List.mem_singleton.mp hm).symm, by simp [adds]⟩

/-- What does not change while the threads are made. -/
structure Made (tsize : Nat) (callback : Bool) (p : Pool F) : Prop where
  tsize : p.tsize = tsize
  callback : p.callback = callback
  started : p.started = true
  taken : p.taken = []

variable {tsize : Nat} {callback : Bool}

theorem Stands.length (h : p.Stands dead alive failing queue) : p.workers.length = dead + alive := by
  have hlen := congrArg List.length h.pcs
  simpa using hlen

theorem spawn_with (throws : F → Bool) (hm : p.Made tsize callback) (hlen : p.workers.length < tsize) :
    stepWith throws p (.pool .spawn) =
      some {p with workers := p.workers ++ [⟨if callback then .inCallback else .ready, none⟩]} := by
  simp [stepWith, permits, Pool.step, hm.started, hm.tsize, hm.callback, hlen]

/-- One more thread gets past the init callback. -/
theorem joins (throws : F → Bool) (hm : p.Made tsize callback) (h : p.Stands dead alive failing queue)
    (hlen : dead + alive < tsize) :
    ∃ u, Prepares throws p [] u ∧ u.Made tsize callback ∧ u.Stands dead (alive + 1) failing queue := by
  have hspawn := spawn_with throws hm (h.length ▸ hlen)
  have hstands : ∀ u : Pool F, u.workers = p.workers ++ [⟨.ready, none⟩] → u.failed = p.failed → u.queue = p.queue →
      u.Stands dead (alive + 1) failing queue := by
    intro u hworkers hfailed hqueue
    refine ⟨?_, hfailed.trans h.failed, hqueue.trans h.queue⟩
    rw [hworkers, List.map_append, h.pcs, List.replicate_succ', List.append_assoc]
    rfl
  cases callback with
  | false => exact ⟨_, .step _ hspawn (by simp), ⟨hm.tsize, hm.callback, hm.started, hm.taken⟩, hstands _ rfl rfl rfl⟩
  | true =>
    have hreturns : stepWith throws {p with workers := p.workers ++ [⟨.inCallback, none⟩]}
        (.pool (.returns p.workers.length)) = some {p with workers := p.workers ++ [⟨.ready, none⟩]} := by
      simp [stepWith, permits, Pool.step, onWorker, Worker.fails, RunPc.inUserCode, setWorker]
    exact ⟨_, (Prepares.step _ hspawn (by simp)).trans (.step _ hreturns (by simp)),
      ⟨hm.tsize, hm.callback, hm.started, hm.taken⟩, hstands _ rfl rfl rfl⟩

/-- One more thread leaves in the init callback. -/
theorem fails (throws : F → Bool) (hm : p.Made tsize true) (h : p.Stands dead 0 failing queue) (hlen : dead < tsize) :
    ∃ u, Prepares throws p [] u ∧ u.Made tsize true ∧ u.Stands (dead + 1) 0 (failing + 1) queue := by
  have hspawn := spawn_with throws hm (h.length ▸ hlen)
  have hthrows : stepWith throws {p with workers := p.workers ++ [⟨.inCallback, none⟩]}
      (.pool (.throws p.workers.length)) =
        some {p with workers := p.workers ++ [⟨.caught, none⟩], failed := p.failed + 1} := by
    simp [stepWith, permits, Pool.step, onWorker, RunPc.inUserCode, setWorker]
  refine ⟨_, (Prepares.step _ hspawn (by simp)).trans (.step _ hthrows (by simp)),
    ⟨hm.tsize, hm.callback, hm.started, hm.taken⟩, ?_, congrArg (· + 1) h.failed, h.queue⟩
  rw [List.map_append, h.pcs, List.replicate_succ']
  simp

theorem all_fail (throws : F → Bool) (hfailing : failing ≤ tsize) (hm : p.Made tsize true) (h : p.Stands 0 0 0 queue) :
    ∃ u, Prepares throws p [] u ∧ u.Made tsize true ∧ u.Stands failing 0 failing queue := by
  induction failing with
  | zero => exact ⟨p, .refl throws p, hm, h⟩
  | succ k ih =>
    obtain ⟨u, hu, hmu, hsu⟩ := ih (by omega)
    obtain ⟨v, hv, hmv, hsv⟩ := fails throws hmu hsu hfailing
    exact ⟨v, hu.trans hv, hmv, hsv⟩

theorem all_join (throws : F → Bool) (hlen : dead + alive ≤ tsize) (hm : p.Made tsize callback)
    (h : p.Stands dead 0 failing queue) :
    ∃ u, Prepares throws p [] u ∧ u.Made tsize callback ∧ u.Stands dead alive failing queue := by
  induction alive with
  | zero => exact ⟨p, .refl throws p, hm, h⟩
  | succ k ih =>
    obtain ⟨u, hu, hmu, hsu⟩ := ih (by omega)
    obtain ⟨v, hv, hmv, hsv⟩ := joins throws hmu hsu (by omega)
    exact ⟨v, hu.trans hv, hmv, hsv⟩

theorem all_added (throws : F → Bool) (tasks : List (Option F)) (hm : p.Made tsize callback)
    (h : p.Stands dead alive failing queue) :
    ∃ u, Prepares throws p tasks u ∧ u.Made tsize callback ∧ u.Stands dead alive failing (queue ++ tasks) := by
  induction tasks generalizing p queue with
  | nil => exact ⟨p, .refl throws p, hm, (List.append_nil queue).symm ▸ h⟩
  | cons task rest ih =>
    have hnone : p.Reaches none := by
      intro hmem
      rw [h.pcs, List.mem_append, List.mem_replicate, List.mem_replicate] at hmem
      rcases hmem with ⟨-, hmem⟩ | ⟨-, hmem⟩ <;> cases hmem
    have hadd : stepWith throws p (.pool (.add task none)) = some {p with queue := p.queue ++ [task]} := by
      simp [stepWith, permits, Pool.step, hnone, notifyOne]
    have hs : Stands {p with queue := p.queue ++ [task]} dead alive failing (queue ++ [task]) :=
      ⟨h.pcs, h.failed, congrArg (· ++ [task]) h.queue⟩
    obtain ⟨u, hu, hmu, hsu⟩ := ih (p := {p with queue := p.queue ++ [task]})
      ⟨hm.tsize, hm.callback, hm.started, hm.taken⟩ hs
    rw [List.append_assoc] at hsu
    exact ⟨u, (Prepares.step _ hadd (by simp)).trans hu, hmu, hsu⟩

end Prepares

theorem drains_only {tsize : Nat} {callback : Bool} {tasks : List (Option F)} (hfailing : failing ≤ tsize)
    (hcallback : failing = 0 ∨ callback = true) (h : Drains tsize callback failing throws tasks) :
    tasks = [] ∨ tasks.dropLast.countP (·.any throws) + failing < tsize := by
  by_contra hno
  obtain ⟨hne, hmany⟩ := not_or.mp hno
  have hstart : stepWith throws (create tsize callback) (.pool .start) =
      some {(create tsize callback : Pool F) with started := true, running := true} := rfl
  have hmade : Made tsize callback {(create tsize callback : Pool F) with started := true, running := true} :=
    ⟨rfl, rfl, rfl, rfl⟩
  obtain ⟨u, hu, hmu, hsu⟩ : ∃ u,
      Prepares throws {(create tsize callback : Pool F) with started := true, running := true} [] u ∧
      u.Made tsize callback ∧ u.Stands failing 0 failing [] := by
    rcases hcallback with rfl | rfl
    · exact ⟨_, .refl throws _, hmade, rfl, rfl, rfl⟩
    · exact all_fail throws hfailing hmade ⟨rfl, rfl, rfl⟩
  have hroom : failing + (tsize - failing) ≤ tsize := by omega
  obtain ⟨v, hv, hmv, hsv⟩ := all_join throws hroom hmu hsu
  obtain ⟨x, hx, hmx, hsx⟩ := all_added throws tasks hmv hsv
  obtain ⟨tr, htr, hstop, hadds⟩ := (hu.trans hv).trans hx
  -- The pool is stopped, and the threads that are alive take the tasks one after the other.
  have hy : Stands {x with running := false, workers := x.workers.map fun w => {w with pc := w.pc.notify}}
      failing (tsize - failing) failing tasks := by
    refine ⟨?_, hsx.failed, hsx.queue⟩
    have hmap : (x.workers.map fun w => {w with pc := w.pc.notify}).map Worker.pc =
        (x.workers.map Worker.pc).map RunPc.notify := by
      rw [List.map_map, List.map_map]
      rfl
    rw [hmap, hsx.pcs]
    simp [RunPc.notify]
  obtain ⟨after, z, hafter, hsz, hzne, hzall⟩ := exhausts throws hy hne (by omega)
  have hrun : exec (stepWith throws) (create tsize callback) ((.pool .start :: tr) ++ .pool .stop :: after) = some z :=
    exec_split.mpr ⟨x, exec_cons_some.mpr ⟨_, hstart, htr⟩, exec_cons_some.mpr ⟨_, rfl, hafter⟩⟩
  have hnone : adds after = [] := by
    have hall := (run_recorded (exec_of_stepWith hrun)).conserved
    rw [hzall, adds_append, show adds (.pool .start :: tr) = adds tr from rfl, hadds] at hall
    have htaken : x.taken.map Prod.snd ++ x.queue = tasks := by
      rw [hmx.taken, hsx.queue]
      rfl
    exact (List.append_right_eq_self.mp (hall.symm.trans htaken))
  have hgone : ∀ w ∈ z.workers, w.pc.gone = true := by
    intro w hw
    have hpc : w.pc ∈ z.workers.map Worker.pc := List.mem_map.mpr ⟨w, hw, rfl⟩
    rw [hsz.pcs, List.replicate_zero, List.append_nil] at hpc
    rw [List.eq_of_mem_replicate hpc]
    rfl
  have hlen : z.workers.length = tsize := by
    rw [hsz.length]
    omega
  obtain ⟨-, hqueue, -⟩ := h _ _ z ⟨[], tr, rfl, hstop⟩ hadds hrun hlen hsz.failed hgone
  rw [hnone, List.suffix_nil] at hqueue
  exact hzne hqueue

/-- **A pool drains if it has enough threads**: it does, in every run, if and only if fewer of
the tasks added before `stop` throw, the last of them apart, than there are threads that get past
the init callback, or there are no such tasks. Otherwise there is a run in which all threads are
gone and tasks are left in the queue. -/
theorem drains_iff {tsize failing : Nat} {callback : Bool} (throws : F → Bool) (tasks : List (Option F))
    (hfailing : failing ≤ tsize) (hcallback : failing = 0 ∨ callback = true) :
    Drains tsize callback failing throws tasks ↔
      tasks = [] ∨ tasks.dropLast.countP (·.any throws) + failing < tsize :=
  ⟨drains_only hfailing hcallback, drains_of⟩

/-- One of three threads leaves in the init callback; of three tasks two throw, one of them the last. -/
theorem drains_iff_spare : Drains 3 true 1 (fun n : Nat => n == 0) [some 0, none, some 0] :=
  (drains_iff _ _ (by decide) (.inr rfl)).mpr (.inr (by decide))

/-- The only thread takes a task that throws, and leaves. -/
theorem task_left_in_queue : ¬ ∀ (tsize : Nat) (throws : Nat → Bool) (tasks : List (Option Nat)), 0 < tsize →
    Drains tsize false 0 throws tasks := by
  intro hall
  have hdrained := hall 1 (· == 0) [some 0, some 1] (by decide)
    [.pool .start, .pool .spawn, .pool (.add (some 0) none), .pool (.add (some 1) none)]
    [.pool (.lock 0), .call 0, .pool (.throws 0)] _
    ⟨[], [.pool .spawn, .pool (.add (some 0) none), .pool (.add (some 1) none)], rfl, by decide⟩ rfl
    (Option.some_get (by decide +kernel)).symm (by decide +kernel) (by decide +kernel) (by decide +kernel)
  exact absurd hdrained.1 (by decide +kernel)

end Schedule

end Pool

end Caimr.Thread
