import Caimr.Net.Confinement

/-! The end of a `tcp_server`. `~tcp_server` has the connections destroyed on their loops; then
the members go, and with the thread pool every `~eloop_thread` quits its loop and waits for
its thread. All the while the io loops go on, and a connection that is closed there has its
removal queued on the main loop, whose thread cannot look at its queue before the
destructor is through. -/
namespace Caimr.Net
open Transition

namespace Threads

/-- A functor bound to the server. -/
def Job.isRemoval : Job → Bool
  | .removeConnInLoop _ => true
  | _ => false

/-- A removal that is on its way. -/
def Instr.removes : Instr → Bool
  | .call j | .runInLoop _ j | .queueInLoop _ j => j.isRemoval
  | _ => false

/-- `remove_conn_in_loop`, about to run. -/
def Instr.callsRemoval : Instr → Bool
  | .call j => j.isRemoval
  | _ => false

/-- A close callback, which is about to ask for a removal. -/
def Instr.closes : Instr → Bool
  | .closeCallback _ => true
  | _ => false

/-- The thread that a step is one of. -/
def Act.thread : Act → Tid
  | .exec t _ | .poll t _ | .leave t | .send t _ _ | .shutdown t _ | .start t | .spawn t _ | .enter t
  | .destruct t => t

/-- No removal is on its way, in the queue of a loop or in the hands of its thread. -/
def NoRemoval (s : Threads) : Prop := ∀ site ∈ s.sites,
  (∀ j ∈ site.pendingFunctors, j.isRemoval = false) ∧ ∀ i ∈ s.agenda site.threadId, i.removes = false

instance (s : Threads) : Decidable s.NoRemoval := inferInstanceAs (Decidable (∀ _ ∈ _, _))

/-- The threads of the io loops have come to their end. -/
def Joined (s : Threads) : Prop := ∀ site ∈ s.sites.tail, s.published site.threadId ≠ none →
  s.looping site.threadId = none ∧ s.agenda site.threadId = []

instance (s : Threads) : Decidable s.Joined := inferInstanceAs (Decidable (∀ _ ∈ _, _))

end Threads

open Threads in
/-- How far `~tcp_server` has come. -/
inductive Phase where
  | alive
  /-- The thread `t` is in it, and goes on with `rest`. -/
  | inside (t : Tid) (rest : List Threads.Instr)
  | gone
deriving DecidableEq, Repr

structure ServerEnd where
  threads : Threads
  phase : Phase

namespace ServerEnd

def create (t : Tid) (numThreads : Nat) (callbacks : Callbacks) (highWaterMark : Nat) : ServerEnd :=
  ⟨.create t numThreads callbacks highWaterMark, .alive⟩

inductive Act where
  | threads (a : Threads.Act)
  /-- `~tcp_server` begins. -/
  | destruct (t : Tid)
  /-- It is through. -/
  | complete
deriving DecidableEq, Repr

/-- A thread in `~tcp_server` goes no further than to its end, there waits for the io loops, and
then these take no more steps. Nobody starts a server that is being destroyed. -/
def Allows (s : ServerEnd) (a : Threads.Act) : Bool :=
  match a with
  | .destruct _ => false
  | .start _ => s.phase == .alive
  | _ =>
    match s.phase with
    | .alive => true
    | .inside t rest => a.thread != t || s.threads.agenda t != rest
    | .gone => (s.threads.published a.thread).isNone

def step (s : ServerEnd) : Act → Option ServerEnd
  | .threads a => if s.Allows a = true then (s.threads.step a).map fun u => {s with threads := u} else none
  | .destruct t =>
    if s.phase = .alive then
      (s.threads.step (.destruct t)).map fun u => ⟨u, .inside t (s.threads.agenda t)⟩
    else none
  | .complete =>
    match s.phase with
    | .inside t rest => if s.threads.agenda t = rest ∧ s.threads.Joined then some {s with phase := .gone} else none
    | _ => none

/-- A step that calls `remove_conn_in_loop`. -/
def Removes (s : ServerEnd) : Act → Prop
  | .threads (.exec t _) => ∃ i ∈ (s.threads.agenda t).head?, i.callsRemoval = true
  | _ => False

/-- `~tcp_server` begins only when no removal is on its way, and from then on no close callback
is called. -/
def Rule (s : ServerEnd) : Act → Prop
  | .destruct _ => s.threads.NoRemoval
  | .threads (.exec t _) => s.phase = .alive ∨ ∀ i ∈ (s.threads.agenda t).head?, i.closes = false
  | _ => True

instance (s : ServerEnd) (a : Act) : Decidable (s.Removes a) := by
  unfold Removes
  split <;> infer_instance

instance (s : ServerEnd) (a : Act) : Decidable (s.Rule a) := by
  unfold Rule
  split <;> infer_instance

end ServerEnd

/-! ### Where removals come from -/

namespace Threads

/-- The thread has a loop. -/
def OnLoop (s : Threads) (t : Tid) : Prop := ∃ l, s.threadOf l = some t

/-- No removal is queued. -/
def Unqueued (s : Threads) : Prop := ∀ l, ∀ j ∈ s.pending l, j.isRemoval = false

section Perform
variable {s : Threads} {t : Tid} {k : Answers} {o : ConnNo} {r : Threads × List Instr}

theorem instrs_removes {l : LoopId} {e : Effect} {i : Instr} (hi : i ∈ instrs o l e) : i.removes = false := by
  cases e with
  | write | shutdownWrite => cases hi
  | queueWriteComplete | queueHighWaterMark | connCallback | msgCallback | closeCallback | removeChan =>
    rw [List.mem_singleton.mp hi]
    rfl

theorem callsRemoval_removes {i : Instr} (h : i.callsRemoval = true) : i.removes = true := by
  cases i with
  | call j => exact h
  | _ => cases h

/-- What is done and left to do involves no removal. -/
structure Spares (s : Threads) (r : Threads × List Instr) : Prop where
  queues : r.1.Unqueued
  left : ∀ i ∈ r.2, i.removes = false

theorem after_spares (hq : s.Unqueued) (fs : List Function) (x : TcpConn × List Effect) :
    s.Spares (s.after t o fs x) := by
  refine ⟨hq, fun i hi => ?_⟩
  obtain ⟨e, -, hi⟩ := List.mem_flatMap.mp hi
  exact instrs_removes hi

theorem after?_spares {fs : List Function} {x : Except Fault (TcpConn × List Effect)} (hq : s.Unqueued)
    (h : s.after? t o fs x = some r) : s.Spares r := by
  unfold after? at h
  split at h <;> cases h
  exact after_spares hq fs _

theorem Unqueued.setPending {l : LoopId} {jobs : List Job} (hq : s.Unqueued) (h : ∀ j ∈ jobs, j.isRemoval = false) :
    (s.setPending l jobs).Unqueued := by
  intro m j hj
  rcases pending_setPending hj with ⟨-, hj⟩ | hj
  · exact h j hj
  · exact hq m j hj

theorem Unqueued.push {l : LoopId} {j : Job} (hq : s.Unqueued) (h : j.isRemoval = false) : (s.push l j).Unqueued := by
  refine hq.setPending fun j' hj' => ?_
  rcases List.mem_append.mp hj' with hj' | hj'
  · exact hq l j' hj'
  · rw [List.mem_singleton.mp hj']
    exact h

theorem handle_spares {cb : Chan.Callback} (hq : s.Unqueued) (h : s.handle t k o cb = some r) : s.Spares r := by
  cases cb with
  | close =>
    cases h
    exact after_spares hq _ _
  | error =>
    cases h
    exact ⟨hq, nofun⟩
  | read => exact after?_spares hq h
  | write =>
    simp only [handle] at h
    split at h <;> cases h
    rename_i c es drained hflush
    refine ⟨hq, fun i hi => ?_⟩
    rcases List.mem_append.mp hi with hi | hi
    · exact (after_spares (t := t) hq [.handleWrite] (c, es)).left i hi
    · split at hi
      · rw [List.mem_singleton.mp hi]
        rfl
      · cases hi

theorem threadFunc_queues (hq : s.Unqueued) : Unqueued {s with sites := s.sites ++ [⟨t, []⟩]} := by
  intro l j hj
  rw [pending_newLoop] at hj
  exact hq l j hj

/-- Only a close callback asks for a removal. -/
theorem perform_spares {i : Instr} (hq : s.Unqueued) (hi : i.removes = false) (hclose : i.closes = false)
    (h : s.perform t k i = some r) : s.Spares r := by
  cases i with
  | call j =>
    cases j with
    | removeConnInLoop o => cases hi
    | establishConn o | destroyConn o | shutdownInLoop o =>
      cases h
      exact after_spares hq _ _
    | sendInLoop o data => exact after?_spares hq h
    | callback o | listen =>
      cases h
      exact ⟨hq, by simp [Instr.removes]⟩
  | runInLoop l j =>
    simp only [perform] at h
    split at h
    · cases h
      split
      · exact ⟨hq, fun x hx => List.mem_singleton.mp hx ▸ hi⟩
      · exact ⟨hq.push hi, by simp⟩
    · cases h
  | queueInLoop l j =>
    cases h
    exact ⟨hq.push hi, by simp⟩
  | doPendingFunctors l =>
    cases h
    refine ⟨hq.setPending (by simp), fun x hx => ?_⟩
    obtain ⟨j, hj, rfl⟩ := List.mem_map.mp hx
    exact hq l j hj
  | handle o cb => exact handle_spares hq h
  | finishWrite o =>
    simp only [perform] at h
    split at h <;> cases h
    · exact after_spares hq _ _
    · exact ⟨hq, by simp⟩
  | closeCallback o => cases hclose
  | send o data =>
    cases h
    refine ⟨hq, fun x hx => ?_⟩
    split at hx <;>
    · rw [List.mem_singleton.mp hx]
      rfl
  | shutdown o | destroyEntry o =>
    cases h
    exact ⟨hq, fun x hx => List.mem_singleton.mp hx ▸ rfl⟩
  | accept =>
    simp only [perform] at h
    split at h
    · unfold newConn at h
      split at h
      · split at h <;> cases h
        exact ⟨hq, fun x hx => List.mem_singleton.mp hx ▸ rfl⟩
      · cases h
    · cases h
      exact ⟨hq, by simp⟩
  | startLoop => cases h
  | awaitLoop u =>
    obtain ⟨l, -, rfl⟩ := Option.map_eq_some_iff.mp h
    exact ⟨hq, by simp⟩
  | threadFunc =>
    cases h
    exact ⟨threadFunc_queues hq, by simp [Instr.removes]⟩
  | removeChan | userCode | publish | loop =>
    cases h
    exact ⟨hq, by simp⟩

/-- A thread that has no loop comes neither to a close callback nor to a removal. -/
theorem perform_offLoop {i : Instr} (hoff : ¬ s.OnLoop t) (hallowed : s.Allowed t i) (hi : i.removes = false)
    (hclose : i.closes = false) (h : s.perform t k i = some r) :
    ∀ x ∈ r.2, x.removes = false ∧ x.closes = false := by
  cases i with
  | call j => exact absurd ⟨_, hallowed.choose_spec.1⟩ hoff
  | handle o cb | finishWrite o | removeChan o | destroyEntry o => exact absurd ⟨_, hallowed.2⟩ hoff
  | doPendingFunctors l | accept | loop l => exact absurd ⟨_, hallowed⟩ hoff
  | closeCallback o => cases hclose
  | startLoop => cases h
  | runInLoop l j =>
    simp only [perform] at h
    split at h <;> cases h
    rename_i u hu
    rw [if_neg fun he => hoff ⟨l, by rw [hu, he]⟩]
    exact List.forall_mem_nil _
  | awaitLoop u =>
    obtain ⟨l, -, rfl⟩ := Option.map_eq_some_iff.mp h
    exact List.forall_mem_nil _
  | send o data =>
    cases h
    rw [if_neg fun hl => hoff ⟨_, hl⟩]
    simp [Instr.removes, Instr.closes, Job.isRemoval]
  | shutdown o | threadFunc =>
    cases h
    simp [Instr.removes, Instr.closes, Job.isRemoval]
  | queueInLoop l j | userCode | publish l =>
    cases h
    exact List.forall_mem_nil _

end Perform

section Step
variable {s s' : Threads} {t : Tid}

/-- A step that is not the next instruction of a thread only leaves more to do, and no removal. -/
structure Sets (s s' : Threads) : Prop where
  sites : s'.sites = s.sites
  agenda : ∀ u, ∀ i ∈ s'.agenda u, i ∈ s.agenda u ∨ i.removes = false ∧ i.closes = false

theorem sets_setAgenda {u : Threads} {is : List Instr} (hsites : u.sites = s.sites) (hagenda : u.agenda = s.agenda)
    (his : ∀ i ∈ is, i ∈ s.agenda t ∨ i.removes = false ∧ i.closes = false) : s.Sets (u.setAgenda t is) := by
  refine ⟨hsites, fun v i hi => ?_⟩
  simp only [setAgenda, Function.update_apply] at hi
  split at hi
  · rename_i hv
    subst hv
    exact his i hi
  · exact .inl (hagenda ▸ hi)

theorem sets_more {u : Threads} (is : List Instr) (hsites : u.sites = s.sites) (hagenda : u.agenda = s.agenda)
    (his : ∀ i ∈ is, i.removes = false ∧ i.closes = false) : s.Sets (u.setAgenda t (is ++ s.agenda t)) := by
  refine sets_setAgenda hsites hagenda fun i hi => ?_
  rcases List.mem_append.mp hi with hi | hi
  · exact .inr (his i hi)
  · exact .inl hi

/-- A thread does its next instruction, or the step only sets it more to do. -/
theorem step_exec_or_sets {a : Act} (h : s.step a = some s') :
    (∃ t k i rest r, a = .exec t k ∧ s.agenda t = i :: rest ∧ s.perform t k i = some r ∧
      s' = r.1.setAgenda t (r.2 ++ rest)) ∨ (∀ t k, a ≠ .exec t k) ∧ s.Sets s' := by
  cases step_cases h with
  | exec t k i rest r hag hr => exact .inl ⟨t, k, i, rest, r, rfl, hag, hr, rfl⟩
  | poll t active =>
    refine .inr ⟨by simp, sets_setAgenda rfl rfl fun i hi => .inr ?_⟩
    rcases List.mem_append.mp hi with hi | hi
    · obtain ⟨b, -, hi⟩ := List.mem_flatMap.mp hi
      cases b with
      | acceptor =>
        rw [List.mem_singleton.mp hi]
        exact ⟨rfl, rfl⟩
      | conn o revents =>
        obtain ⟨cb, -, rfl⟩ := List.mem_map.mp hi
        exact ⟨rfl, rfl⟩
    · rw [List.mem_singleton.mp hi]
      exact ⟨rfl, rfl⟩
  | leave | noSend | noShutdown => exact .inr ⟨by simp, rfl, fun _ _ hi => .inl hi⟩
  | send t o data =>
    exact .inr ⟨by simp, sets_more [.send o data] rfl rfl fun i hi => List.mem_singleton.mp hi ▸ ⟨rfl, rfl⟩⟩
  | shutdown t o =>
    exact .inr ⟨by simp, sets_more [.shutdown o] rfl rfl fun i hi => List.mem_singleton.mp hi ▸ ⟨rfl, rfl⟩⟩
  | start t =>
    refine .inr ⟨by simp, sets_setAgenda rfl rfl fun i hi => ?_⟩
    rcases List.mem_append.mp hi with hi | hi
    · rw [List.eq_of_mem_replicate hi]
      exact .inr ⟨rfl, rfl⟩
    rcases List.mem_cons.mp hi with rfl | hi
    · exact .inr ⟨rfl, rfl⟩
    · exact .inl hi
  | spawn t u rest hag =>
    have hwait : s.Sets (s.setAgenda t (.awaitLoop u :: rest)) := by
      refine sets_setAgenda rfl rfl fun i hi => ?_
      rcases List.mem_cons.mp hi with rfl | hi
      · exact .inr ⟨rfl, rfl⟩
      · exact .inl (hag ▸ List.mem_cons_of_mem _ hi)
    have hfunc : Sets (s.setAgenda t (.awaitLoop u :: rest))
        ((s.setAgenda t (.awaitLoop u :: rest)).setAgenda u [.threadFunc]) :=
      sets_setAgenda rfl rfl fun i hi => .inr (List.mem_singleton.mp hi ▸ ⟨rfl, rfl⟩)
    refine .inr ⟨by simp, rfl, fun v i hi => ?_⟩
    rcases hfunc.agenda v i hi with hi | hi
    · exact hwait.agenda v i hi
    · exact .inr hi
  | enter t =>
    exact .inr ⟨by simp, sets_setAgenda rfl rfl fun i hi => .inr (List.mem_singleton.mp hi ▸ ⟨rfl, rfl⟩)⟩
  | destruct t =>
    refine .inr ⟨by simp, sets_more (u := {s.record t [.conns] with conns := [], listening := false}) _ rfl rfl ?_⟩
    intro i hi
    obtain ⟨e, -, rfl⟩ := List.mem_map.mp hi
    exact ⟨rfl, rfl⟩

/-- Removals, and the close callbacks that ask for them, are the business of threads with a loop. -/
def Kept (s : Threads) : Prop :=
  ∀ t, ∀ i ∈ s.agenda t, (i.removes = false ∧ i.closes = false) ∨ s.OnLoop t

/-- No removal is on its way anywhere. -/
def Clear (s : Threads) : Prop := s.Unqueued ∧ ∀ t, ∀ i ∈ s.agenda t, i.removes = false

theorem Extends.onLoop (h : s.Extends s') {u : Tid} (hu : s.OnLoop u) : s'.OnLoop u := by
  obtain ⟨l, hl⟩ := hu
  exact ⟨l, h.threadOf l u hl⟩

theorem step_kept {a : Act} (inv : s.Inv) (hk : s.Kept) (h : s.step a = some s') : s'.Kept := by
  rcases step_exec_or_sets h with ⟨t, k, i, rest, r, rfl, hag, hr, rfl⟩ | ⟨-, hsets⟩
  · have hmem : ∀ j ∈ i :: rest, j ∈ s.agenda t := fun j hj => hag ▸ hj
    have hallowed : s.Allowed t i := inv.agenda t i (hmem i List.mem_cons_self)
    have hperf := perform_performed inv.placed hallowed hr
    intro u j hj
    simp only [setAgenda, Function.update_apply] at hj
    split at hj
    · rename_i hu
      subst hu
      by_cases hon : s.OnLoop u
      · exact .inr (hperf.ext.onLoop hon)
      rcases List.mem_append.mp hj with hj | hj
      · obtain ⟨hi, hclose⟩ := (hk u i (hmem i List.mem_cons_self)).resolve_right hon
        exact .inl (perform_offLoop hon hallowed hi hclose hr j hj)
      · exact .inl ((hk u j (hmem j (List.mem_cons_of_mem _ hj))).resolve_right hon)
    · rw [hperf.agenda] at hj
      exact (hk u j hj).imp_right hperf.ext.onLoop
  · intro u j hj
    have hon : s.OnLoop u → s'.OnLoop u := by
      rintro ⟨l, hl⟩
      refine ⟨l, ?_⟩
      rw [threadOf, hsets.sites]
      exact hl
    rcases hsets.agenda u j hj with hj | hj
    · exact (hk u j hj).imp_right hon
    · exact .inl hj

/-- Once no removal is on its way, only a close callback puts one on it. -/
theorem step_clear {a : Act} (inv : s.Inv) (hc : s.Clear) (h : s.step a = some s')
    (hclose : ∀ t k, a = .exec t k → ∀ i ∈ (s.agenda t).head?, i.closes = false) : s'.Clear := by
  rcases step_exec_or_sets h with ⟨t, k, i, rest, r, rfl, hag, hr, rfl⟩ | ⟨-, hsets⟩
  · have hmem : ∀ j ∈ i :: rest, j ∈ s.agenda t := fun j hj => hag ▸ hj
    have hi : i.closes = false := hclose t k rfl i (by rw [hag]; rfl)
    have hspares := perform_spares hc.1 (hc.2 t i (hmem i List.mem_cons_self)) hi hr
    have hperf := perform_performed inv.placed (inv.agenda t i (hmem i List.mem_cons_self)) hr
    refine ⟨hspares.queues, fun u j hj => ?_⟩
    simp only [setAgenda, Function.update_apply] at hj
    split at hj
    · rename_i hu
      subst hu
      rcases List.mem_append.mp hj with hj | hj
      · exact hspares.left j hj
      · exact hc.2 u j (hmem j (List.mem_cons_of_mem _ hj))
    · rw [hperf.agenda] at hj
      exact hc.2 u j hj
  · refine ⟨fun l j hj => hc.1 l j ?_, fun u j hj => ?_⟩
    · rw [pending, hsets.sites] at hj
      exact hj
    · rcases hsets.agenda u j hj with hj | hj
      · exact hc.2 u j hj
      · exact hj.1

/-- It is enough to look at the loops. -/
theorem Kept.clear (hk : s.Kept) (h : s.NoRemoval) : s.Clear := by
  have hsite : ∀ l site, s.sites[l]? = some site → site ∈ s.sites := fun l site hl => List.mem_of_getElem? hl
  refine ⟨fun l j hj => ?_, fun t i hi => ?_⟩
  · cases hl : s.sites[l]? with
    | none => simp [pending, hl] at hj
    | some site =>
      rw [pending, hl] at hj
      exact (h site (hsite l site hl)).1 j hj
  · rcases hk t i hi with hi' | ⟨l, hl⟩
    · exact hi'.1
    · obtain ⟨site, hsome, rfl⟩ := Option.map_eq_some_iff.mp hl
      exact (h site (hsite l site hsome)).2 i hi

end Step

end Threads

/-! ### Whole runs -/

namespace ServerEnd

structure Inv (s : ServerEnd) : Prop where
  threads : s.threads.Inv
  kept : s.threads.Kept
  clear : s.phase ≠ .alive → s.threads.Clear

theorem create_inv (t : Tid) (numThreads : Nat) (callbacks : Callbacks) (mark : Nat) :
    (create t numThreads callbacks mark).Inv :=
  ⟨Threads.create_inv .., nofun, fun h => absurd rfl h⟩

theorem step_inv {s s' : ServerEnd} {a : Act} (inv : s.Inv) (hr : s.Rule a) (h : s.step a = some s') : s'.Inv := by
  cases a with
  | threads a =>
    simp only [step, Option.ite_none_right_eq_some] at h
    obtain ⟨-, h⟩ := h
    obtain ⟨u, hu, rfl⟩ := Option.map_eq_some_iff.mp h
    refine ⟨Threads.step_inv inv.threads hu, Threads.step_kept inv.threads inv.kept hu, fun hphase => ?_⟩
    refine Threads.step_clear inv.threads (inv.clear hphase) hu fun t k ha => ?_
    subst ha
    exact hr.resolve_left hphase
  | destruct t =>
    simp only [step, Option.ite_none_right_eq_some] at h
    obtain ⟨-, h⟩ := h
    obtain ⟨u, hu, rfl⟩ := Option.map_eq_some_iff.mp h
    exact ⟨Threads.step_inv inv.threads hu, Threads.step_kept inv.threads inv.kept hu,
      fun _ => Threads.step_clear inv.threads (inv.kept.clear hr) hu nofun⟩
  | complete =>
    simp only [step] at h
    split at h
    · rename_i t rest hphase
      simp only [Option.ite_none_right_eq_some, Option.some.injEq] at h
      obtain ⟨-, rfl⟩ := h
      exact ⟨inv.threads, inv.kept, fun _ => inv.clear (by rw [hphase]; nofun)⟩
    · cases h

/-- **Nothing of a server after its end.** In every run of the threads in which `~tcp_server` begins
with no removal on its way, and no close callback is called from then on, no
`remove_conn_in_loop` runs once the server is gone. -/
theorem none_after_gone {t : Tid} {numThreads mark : Nat} {callbacks : Callbacks} {tr : List Act} {s : ServerEnd}
    (h : exec step (create t numThreads callbacks mark) tr = some s)
    (hr : Along step Rule (create t numThreads callbacks mark) tr) :
    Along step (fun u a => u.phase = .gone → ¬ u.Removes a) (create t numThreads callbacks mark) tr := by
  rintro pre a post u rfl hu hgone hremoves
  have inv : u.Inv := rule_induction (fun _ v => v.Inv) (create_inv ..)
    (fun _ _ _ _ _ inv hrule hs => step_inv inv hrule hs) hu hr.of_append
  cases a with
  | threads a =>
    cases a with
    | exec v k =>
      obtain ⟨i, hi, hcalls⟩ := hremoves
      have hremoval := (inv.clear (by rw [hgone]; nofun)).2 v i (List.mem_of_head? hi)
      rw [Threads.callsRemoval_removes hcalls] at hremoval
      cases hremoval
    | _ => exact hremoves
  | _ => exact hremoves

/-- The thread does `n` instructions. -/
def goes (t : Tid) (n : Nat) : List Act := List.replicate n (.threads (.exec t ⟨.received [], .accepts 0, true⟩))

/-- A server with one io loop is started on the thread 7, and a connection comes. -/
def opening : List Act :=
  List.flatten [[.threads (.start 7), .threads (.spawn 7 8)], goes 8 4, goes 7 3, .threads (.enter 7) :: goes 7 1,
    .threads (.poll 7 [.acceptor]) :: goes 7 3, .threads (.poll 8 []) :: goes 8 3]

/-- The other end hangs up: the io loop closes the connection, down to the push of its removal. -/
def hangUp : List Act := .threads (.poll 8 [.conn 0 ⟨false, false, false, false, true⟩]) :: goes 8 5

/-- The io loop comes to its end, `~tcp_server` is through, and the main loop goes on. -/
def ending : List Act :=
  List.flatten [.threads (.poll 8 []) :: goes 8 3, [.threads (.leave 8), .complete, .threads (.enter 7)], goes 7 1,
    .threads (.poll 7 []) :: goes 7 1]

/-- The removal is done before the destructor begins. -/
def hangUpBefore : List Act :=
  List.flatten [opening, hangUp, .threads (.poll 7 []) :: goes 7 3, [.threads (.leave 7), .destruct 7], ending]

theorem none_after_gone_hangUpBefore : ∃ s,
    exec step (create 7 1 ⟨true, true, false, false, false⟩ 64) hangUpBefore = some s ∧ s.phase = .gone ∧
    Along step (fun u a => u.phase = .gone → ¬ u.Removes a) (create 7 1 ⟨true, true, false, false, false⟩ 64)
      hangUpBefore := by
  have hphase : (exec step (create 7 1 ⟨true, true, false, false, false⟩ 64) hangUpBefore).map (·.phase) =
      some .gone := by
    decide +kernel
  obtain ⟨s, hs, hgone⟩ := Option.map_eq_some_iff.mp hphase
  exact ⟨s, hs, hgone, none_after_gone hs (by decide +kernel)⟩

/-- The connection is closed while the main loop's thread is in the destructor, and its removal runs
when the server is gone. -/
theorem removal_after_gone : ¬ ∀ tr s, exec step (create 7 1 ⟨true, true, false, false, false⟩ 64) tr = some s →
    Along step (fun u a => u.phase = .gone → ¬ u.Removes a) (create 7 1 ⟨true, true, false, false, false⟩ 64) tr := by
  intro h
  have hdone : (exec step (create 7 1 ⟨true, true, false, false, false⟩ 64)
      (List.flatten [opening, [.threads (.leave 7), .destruct 7], hangUp, goes 7 2, ending, goes 7 1])).isSome =
      true := by
    decide +kernel
  obtain ⟨s, hs⟩ := Option.isSome_iff_exists.mp hdone
  exact absurd (h _ s hs) (by decide +kernel)

end ServerEnd

end Caimr.Net
