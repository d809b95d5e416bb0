import Mathlib.Algebra.BigOperators.Ring.List
import Caimr.Lib.Settle
import Caimr.Thread.Drain

/-! `~tpool`, which stops the pool and joins its threads. Once `running_` is cleared no thread
waits on the condition variable, and none comes to wait again: each of them takes what is left
in the queue and then leaves `run`, whatever is added in the meantime. -/
namespace Caimr.Thread
open Transition

/-- The way out of `run`. -/
def RunPc.cost : RunPc → Nat
  | .fetched => 3
  | .inCallback | .inTask => 2
  | .ready | .waiting | .notified | .awake => 1
  | .returned | .caught => 0

theorem RunPc.cost_le (pc : RunPc) : pc.cost ≤ 3 := by
  cases pc <;> decide

theorem RunPc.cost_wantsMutex {pc : RunPc} (h : pc.wantsMutex = true) : pc.cost = 1 ∧ pc.gone = false := by
  cases pc with
  | ready | notified | awake => exact ⟨rfl, rfl⟩
  | _ => cases h

theorem RunPc.cost_inUserCode {pc : RunPc} (h : pc.inUserCode = true) : pc.cost = 2 ∧ pc.gone = false := by
  cases pc with
  | inCallback | inTask => exact ⟨rfl, rfl⟩
  | _ => cases h

namespace Pool
variable {F : Type} {p p' : Pool F} {a : Act F}

/-- The steps of the pool's threads, and the ends of the tasks that they are in. -/
def Act.isOwn : Act F → Bool
  | .call _ | .pool (.lock _) | .pool (.returns _) | .pool (.throws _) => true
  | .pool .start | .pool .spawn | .pool .stop | .pool (.add ..) | .pool (.wakeUp _) => false

/-- The pool has been started with all its threads, and stopped. -/
structure Stopped (p : Pool F) : Prop where
  started : p.started = true
  stopped : p.running = false
  spawned : p.tsize ≤ p.workers.length
  awake : ∀ w ∈ p.workers, w.pc ≠ .waiting

def cost (p : Pool F) : Nat := (p.workers.map fun w => w.pc.cost).sum + 3 * p.queue.length

theorem cost_le (p : Pool F) : p.cost ≤ 3 * (p.queue.length + p.workers.length) := by
  have hsum : (p.workers.map fun w => w.pc.cost).sum ≤ 3 * p.workers.length := by
    induction p.workers with
    | nil => exact Nat.le_refl _
    | cons w workers ih =>
      have hle := w.pc.cost_le
      simp only [List.map_cons, List.sum_cons, List.length_cons]
      omega
  unfold cost
  omega

theorem cost_setWorker {i : Nat} {w : Worker F} (h : p.workers[i]? = some w) (w' : Worker F) :
    (p.setWorker i w').cost + w.pc.cost = p.cost + w'.pc.cost := by
  have hset := sum_set (f := fun w : Worker F => w.pc.cost) h w'
  simp only [cost, setWorker]
  omega

/-- `stop` once more. -/
theorem notifyAll_awake (hw : ∀ w ∈ p.workers, w.pc ≠ .waiting) :
    (p.workers.map fun w : Worker F => {w with pc := w.pc.notify}) = p.workers := by
  refine (List.map_congr_left fun w hmem => ?_).trans (List.map_id _)
  have hne := hw w hmem
  obtain ⟨pc, task⟩ := w
  cases pc with
  | waiting => exact absurd rfl hne
  | _ => rfl

/-- Nobody waits in a pool that is not running. -/
def Awake (p : Pool F) : Prop := p.running = false → ∀ w ∈ p.workers, w.pc ≠ .waiting

theorem Awake.moves {i : Nat} {w : Worker F} (h : p.Awake) (hw : w.pc ≠ .waiting) : (p.setWorker i w).Awake := by
  intro hr v hv
  rcases mem_setWorker hv with hv | rfl
  · exact h hr v hv
  · exact hw

theorem step_awake (h : p.Awake) (hs : step p a = some p') : p'.Awake := by
  cases step_cases hs with
  | start => exact fun hr => absurd hr (by simp)
  | spawn =>
    intro hr w hw
    rcases List.mem_append.mp hw with hw | hw
    · exact h hr w hw
    · rw [List.mem_singleton.mp hw]
      show (if p.callback then RunPc.inCallback else .ready) ≠ _
      split <;> decide
  | stop =>
    intro _ w hw
    obtain ⟨v, -, rfl⟩ := List.mem_map.mp hw
    show v.pc.notify ≠ _
    cases v.pc <;> decide
  | waits i w hw hwants hq hrun => exact fun hr => absurd (hrun.symm.trans hr) (by decide)
  | notifiesNone => exact h
  | takes | calls | throws => exact Awake.moves (p := {p with ..}) h (by simp)
  | notifies => exact Awake.moves (p := {p with ..}) h (by simp)
  | leaves | wakeUp | returns | skips => exact h.moves (by simp)

theorem run_awake {tsize : Nat} {callback : Bool} {tr : List (Act F)}
    (h : exec step (create tsize callback) tr = some p) : p.Awake :=
  exec_preserves (fun _ _ _ => step_awake) (fun _ _ hw => absurd hw List.not_mem_nil) h

theorem Stopped.moves {i : Nat} {w : Worker F} (h : p.Stopped) (hw : w.pc ≠ .waiting) :
    (p.setWorker i w).Stopped := by
  refine ⟨h.started, h.stopped, ?_, Awake.moves (fun _ => h.awake) hw h.stopped⟩
  rw [setWorker, List.length_set]
  exact h.spawned

/-- A thread goes on, for less than it has cost. -/
theorem Stopped.goes {c i : Nat} {w w' : Worker F} (h : p.Stopped) (hw : p.workers[i]? = some w)
    (hw' : w'.pc ≠ .waiting) (hc : p.cost + w'.pc.cost + 1 ≤ c + w.pc.cost) :
    (p.setWorker i w').Stopped ∧ (p.setWorker i w').cost + 1 ≤ c := by
  have hcost := cost_setWorker hw w'
  exact ⟨h.moves hw', by omega⟩

/-- What a step costs, and what is added with it. -/
theorem step_pays (h : p.Stopped) (hs : step p a = some p') :
    p'.Stopped ∧ p'.cost + a.isOwn.toNat ≤ p.cost + 3 * a.added.length := by
  have hawake : ∀ {i : Nat} {w : Worker F}, p.workers[i]? = some w → w.pc ≠ .waiting :=
    fun hw => h.awake _ (List.mem_of_getElem? hw)
  cases step_cases hs with
  | start hfresh => exact absurd (h.started.symm.trans hfresh) (by decide)
  | spawn _ hlen => exact absurd h.spawned (Nat.not_le_of_lt hlen)
  | waits i w hw hwants hq hrun => exact absurd (hrun.symm.trans h.stopped) (by decide)
  | notifies task i w hw hpc => exact absurd hpc (hawake hw)
  | wakeUp i w hw hpc => exact absurd hpc (hawake hw)
  | stop =>
    rw [notifyAll_awake h.awake]
    exact ⟨⟨h.started, rfl, h.spawned, h.awake⟩, Nat.le_refl _⟩
  | notifiesNone task =>
    refine ⟨⟨h.started, h.stopped, h.spawned, h.awake⟩, ?_⟩
    simp only [cost, List.length_append, Act.isOwn, Act.added, List.length_cons, List.length_nil, Bool.toNat_false]
    omega
  | takes i w task rest hw hwants hq =>
    have hm : Stopped {p with queue := rest, taken := p.taken ++ [(i, task)]} :=
      ⟨h.started, h.stopped, h.spawned, h.awake⟩
    refine hm.goes hw (by simp) ?_
    rw [(RunPc.cost_wantsMutex hwants).1, cost, cost, hq, List.length_cons, show RunPc.cost .fetched = 3 from rfl]
    dsimp only
    omega
  | leaves i w hw hwants =>
    refine h.goes hw (by simp) ?_
    rw [(RunPc.cost_wantsMutex hwants).1]
    exact Nat.le_refl _
  | returns i w hw hin =>
    refine h.goes hw (by simp) ?_
    rw [(RunPc.cost_inUserCode hin).1]
    exact Nat.le_refl _
  | throws i w hw hin =>
    have hm : Stopped {p with failed := p.failed + (w.pc == .inCallback).toNat} :=
      ⟨h.started, h.stopped, h.spawned, h.awake⟩
    refine hm.goes hw (by simp) ?_
    rw [(RunPc.cost_inUserCode hin).1]
    exact Nat.le_succ _
  | calls i w f hw hpc =>
    have hm : Stopped {p with called := p.called ++ [(i, f)]} := ⟨h.started, h.stopped, h.spawned, h.awake⟩
    refine hm.goes hw (by simp) ?_
    rw [hpc]
    exact Nat.le_refl _
  | skips i w hw hpc =>
    refine h.goes hw (by simp) ?_
    rw [hpc]
    exact Nat.le_succ _

/-- A thread that has not left `run` has a step to take. -/
theorem Stopped.settled_iff (h : p.Stopped) :
    Settled step (fun a => a.isOwn = true) p ↔ ∀ w ∈ p.workers, w.pc.gone = true := by
  constructor
  · intro hset w hw
    obtain ⟨i, hi⟩ := List.getElem?_of_mem hw
    have hstep : ∀ (pc : RunPc → Bool) (next : Worker F → Pool F), pc w.pc = true →
        p.onWorker i pc next ≠ none := by
      intro pc next hpc
      rw [onWorker, hi]
      exact fun hnone => by cases (if_pos hpc).symm.trans hnone
    cases hpc : w.pc with
    | waiting => exact absurd hpc (h.awake w hw)
    | returned | caught => rfl
    | ready | notified | awake => exact absurd (hset (.pool (.lock i)) rfl) (hstep _ _ (by rw [hpc]; rfl))
    | inCallback | inTask => exact absurd (hset (.pool (.returns i)) rfl) (hstep _ _ (by rw [hpc]; rfl))
    | fetched => exact absurd (hset (.call i) rfl) (hstep (· == .fetched) _ (by rw [hpc]; rfl))
  · intro hgone a ha
    by_contra hne
    obtain ⟨p', hs⟩ := Option.ne_none_iff_exists'.mp hne
    have hleft : ∀ {i : Nat} {w : Worker F}, p.workers[i]? = some w → w.pc.gone = true :=
      fun hw => hgone _ (List.mem_of_getElem? hw)
    cases step_cases hs with
    | start | spawn | stop | notifies | notifiesNone | wakeUp => cases ha
    | takes i w task rest hw hwants | waits i w hw hwants | leaves i w hw hwants =>
      exact absurd ((hleft hw).symm.trans (RunPc.cost_wantsMutex hwants).2) (by decide)
    | returns i w hw hin | throws i w hw hin =>
      exact absurd ((hleft hw).symm.trans (RunPc.cost_inUserCode hin).2) (by decide)
    | calls i w f hw hpc | skips i w hw hpc =>
      have hout := hleft hw
      rw [hpc] at hout
      cases hout

/-- **A stopped pool ends.** From when a pool that has all its threads is stopped, they take
three steps for each of them and for each task, whatever other threads add and whichever tasks
throw, and until all have left `run` one of them has a step to take: the joins in `~tpool`
return. -/
theorem stopped_joins {tsize : Nat} {callback : Bool} {tr more : List (Act F)}
    (h : exec step (create tsize callback) tr = some p) (hstop : p.started = true ∧ p.running = false)
    (hall : p.tsize ≤ p.workers.length) (hmore : exec step p more = some p') :
    more.countP Act.isOwn ≤ 3 * (p.workers.length + p.queue.length + (adds more).length) ∧
      (Settled step (fun a => a.isOwn = true) p' ↔ ∀ w ∈ p'.workers, w.pc.gone = true) := by
  have hs : p.Stopped := ⟨hstop.1, hstop.2, hall, run_awake h hstop.2⟩
  obtain ⟨hs', hle⟩ := spent_le (fun p a p' => step_pays) hs hmore
  have hadds : (more.map fun a => 3 * a.added.length).sum = 3 * (adds more).length := by
    rw [adds, List.length_flatMap]
    exact List.sum_map_mul_left more (fun a => a.added.length) 3
  refine ⟨?_, hs'.settled_iff⟩
  have hcost := p.cost_le
  rw [hadds] at hle
  omega

/-- Two threads, one of them in a task that throws after `stop`. -/
theorem stopped_joins_thrown : ∃ p p' : Pool Nat,
    exec step (create 2 false) [.pool .start, .pool .spawn, .pool .spawn, .pool (.lock 0),
      .pool (.add (some 7) (some 0)), .pool (.lock 0), .call 0, .pool .stop] = some p ∧
    exec step p [.pool (.add (some 8) none), .pool (.throws 0), .pool (.lock 1), .call 1, .pool (.returns 1),
      .pool (.lock 1)] = some p' ∧
    Settled step (fun a => a.isOwn = true) p' :=
  ⟨_, _, (Option.some_get (by decide +kernel)).symm, (Option.some_get (by decide +kernel)).symm,
    (stopped_joins (Option.some_get (by decide +kernel)).symm (by decide +kernel) (by decide +kernel)
      (Option.some_get (by decide +kernel)).symm).2.mpr (by decide +kernel)⟩

end Pool

end Caimr.Thread
