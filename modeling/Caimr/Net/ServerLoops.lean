import Caimr.Net.ServerAgenda

/-! The loops of a server. Their work is in one bag, of which every step takes and leaves
what `Did` says. What a loop keeps to itself, its active channels, the callbacks it has
still to call and the order of its agenda, keeps a shape of its own. -/
namespace Caimr.Net
open Bag Transition

namespace Loop

def work (p : Loop) : List Instr := p.agenda ++ p.tasks.map .run

/-- What is left of the events of this iteration. -/
def events (p : Loop) : List (ConnNo × Chan.Callback) × List (ConnNo × EpollMask) := (p.callbacks, p.active)

/-- The connections whose events the loop is about to handle. -/
def handled (p : Loop) : List ConnNo := p.events.1.map Prod.fst ++ p.events.2.map Prod.fst

theorem mem_handled {p : Loop} {c : ConnNo × Chan.Callback} {rest : List (ConnNo × Chan.Callback)}
    (hc : p.callbacks = c :: rest) : c.1 ∈ p.handled := by
  apply List.mem_append_left _
  rw [events, hc]
  exact List.mem_cons_self

end Loop

/-! ### The shape of a loop -/

structure Loop.Shape (p : Loop) : Prop where
  ordered : Ordered p.agenda
  /-- Connections are never destroyed but by a queued functor. -/
  deferred : ∀ o, .run (.destroyConn o) ∉ p.agenda
  /-- While one is being destroyed no events are handled. -/
  removing : ∀ o, .removeChan o ∈ p.agenda → p.handled = []
  handling : p.handled ≠ [] → p.eloop.pc.isHandling = true
  nodup : (p.active.map Prod.fst).Nodup
  apart : ∀ c ∈ p.callbacks, c.1 ∉ p.active.map Prod.fst
  /-- The close callback comes first. -/
  closeFirst : ∀ c ∈ p.callbacks.tail, c.2 ≠ .close

namespace Loop.Shape
variable {p : Loop}

/-- Instructions come before the rest of the agenda. -/
theorem resume (hp : p.Shape) {is rest : List Instr} (hf : Fronts is) (hfirst : ∀ o, .connCallback o ∉ rest)
    (hord : Ordered rest) (hsub : ∀ i ∈ rest, i ∈ p.agenda)
    (hrem : ∀ o, .removeChan o ∈ is → p.handled = []) : Shape {p with agenda := is ++ rest} := by
  refine ⟨hf.ordered rest hfirst hord, fun o ho => ?_, fun o ho => ?_, hp.handling, hp.nodup, hp.apart, hp.closeFirst⟩
  · rcases List.mem_append.mp ho with ho | ho
    · exact hf.deferred o ho
    · exact hp.deferred o (hsub _ ho)
  · rcases List.mem_append.mp ho with ho | ho
    · exact hrem o ho
    · exact hp.removing o (hsub _ ho)

/-- A callback or a functor begins. -/
theorem start (hp : p.Shape) {is : List Instr} (hf : Fronts is) (hrem : ∀ o, .removeChan o ∈ is → p.handled = []) :
    Shape {p with agenda := is ++ []} :=
  hp.resume hf nofun trivial nofun hrem

theorem setEloop (hp : p.Shape) {e : Eloop Functor} (he : p.handled ≠ [] → e.pc.isHandling = true) :
    Shape {p with eloop := e} :=
  ⟨hp.ordered, hp.deferred, hp.removing, he, hp.nodup, hp.apart, hp.closeFirst⟩

/-- A callback is called. -/
theorem popCallback (hp : p.Shape) {c : ConnNo × Chan.Callback} {rest : List (ConnNo × Chan.Callback)}
    (hc : p.callbacks = c :: rest) : Shape {p with callbacks := rest} := by
  have hne : p.handled ≠ [] := by simp [handled, events, hc]
  have hsub : ∀ d ∈ rest, d ∈ p.callbacks := fun d hd => hc ▸ List.mem_cons_of_mem _ hd
  refine ⟨hp.ordered, hp.deferred, fun o ho => absurd (hp.removing o ho) hne, fun _ => hp.handling hne, hp.nodup,
    fun d hd => hp.apart d (hsub d hd), fun d hd => hp.closeFirst d ?_⟩
  rw [hc]
  exact List.mem_of_mem_tail hd

/-- `handle_event` of the next active channel. -/
theorem dispatch (hp : p.Shape) {o : ConnNo} {revents : EpollMask}
    {rest : List (ConnNo × EpollMask)} (ha : p.active = (o, revents) :: rest) :
    Shape {p with active := rest, callbacks := (Chan.handleEventWithGuard revents).map (o, ·)} := by
  have hne : p.handled ≠ [] := by simp [handled, events, ha]
  have hnodup := hp.nodup
  rw [ha, List.map_cons, List.nodup_cons] at hnodup
  refine ⟨hp.ordered, hp.deferred, fun o ho => absurd (hp.removing o ho) hne, fun _ => hp.handling hne, hnodup.2,
    fun d hd => ?_, fun d hd => ?_⟩
  · obtain ⟨cb, -, rfl⟩ := List.mem_map.mp hd
    exact hnodup.1
  · rw [← List.map_tail] at hd
    obtain ⟨cb, hcb, rfl⟩ := List.mem_map.mp hd
    exact Chan.handleEventWithGuard_tail revents cb hcb

/-- `poll` returns. -/
theorem poll (hp : p.Shape) (hfree : p.Free) {active : List (ConnNo × EpollMask)}
    (hn : (active.map Prod.fst).Nodup) {e : Eloop Functor} (he : e.pc.isHandling = true) :
    Shape {p with active := active, eloop := e} := by
  have hno : ∀ o, .removeChan o ∉ p.agenda := by simp [hfree.1]
  refine ⟨hp.ordered, hp.deferred, fun o ho => absurd ho (hno o), fun _ => he, hn, ?_, hp.closeFirst⟩
  rw [show p.callbacks = [] from hfree.2]
  nofun

end Loop.Shape

namespace Host

def bag (h : Host) : Multiset Item :=
  ∑ l ∈ Finset.range (h.server.numThreads + 1), on l (h.loops l).work

/-- The loops and the server agree, and every channel with an event to come is that of a
connection of the loop, and in the poller. -/
structure Sound (h : Host) : Prop where
  server : h.server.Sound h.bag
  shape : ∀ l, (h.loops l).Shape
  handled : ∀ l, ∀ o ∈ (h.loops l).handled, h.server.Owns l o ∧ h.server.Registered o

/-- The connection whose callback is called next, or whose user code is running. -/
def scope (h : Host) : Act → TcpServer.Scope
  | .callback l r _ =>
    { calls := fun o => ∃ cb, (h.loops l).callbacks.head? = some (o, cb)
      closes := fun o => (h.loops l).callbacks.head? = some (o, .close) ∨
        (h.loops l).callbacks.head? = some (o, .read) ∧ r.IsEof }
  | .send l _ _ | .shutdown l =>
    { calls := fun o => (h.loops l).agenda.head? = some (.userCode o)
      closes := fun _ => False }
  | _ => ⟨fun _ => False, fun _ => False⟩

/-! ### Work in one loop and in all of them -/

theorem exchange_front (l : LoopId) (old new rest : List Instr) :
    Exchange (on l (old ++ rest)) (on l old) (on l new) (on l (new ++ rest)) :=
  ⟨on l rest, by rw [on_append, add_comm], by rw [on_append, add_comm]⟩

theorem exchange_back (l : LoopId) (is : List Instr) (i : Instr) :
    Exchange (on l is) 0 {(l, i)} (on l (is ++ [i])) :=
  ⟨on l is, (add_zero _).symm, by rw [on_append]; rfl⟩

theorem exchange_bag {h h' : Host} {l : LoopId} {done made : Multiset Item} (hl : l ≤ h.server.numThreads)
    (hn : h'.server.numThreads = h.server.numThreads) (hne : ∀ k ≠ l, (h'.loops k).work = (h.loops k).work)
    (hx : Exchange (on l (h.loops l).work) done made (on l (h'.loops l).work)) : Exchange h.bag done made h'.bag := by
  rw [bag, bag, hn]
  refine exchange_sum (Finset.mem_range.mpr (Nat.lt_succ_of_le hl)) hx fun k hk => ?_
  rw [hne k hk]

theorem mem_bag {h : Host} {l : LoopId} {i : Instr} :
    (l, i) ∈ h.bag ↔ l ≤ h.server.numThreads ∧ i ∈ (h.loops l).work := by
  rw [bag, Multiset.mem_sum]
  constructor
  · intro ⟨k, hk, hi⟩
    obtain ⟨rfl, hi⟩ := mem_on.mp hi
    exact ⟨Nat.le_of_lt_succ (Finset.mem_range.mp hk), hi⟩
  · intro ⟨hl, hi⟩
    exact ⟨l, Finset.mem_range.mpr (Nat.lt_succ_of_le hl), mem_on.mpr ⟨rfl, hi⟩⟩

/-- Putting the instructions of a function before the rest of an agenda. -/
theorem exchange_resume (front : List Instr) {h : Host} {l : LoopId} {rest : List Instr}
    {x : TcpServer × List Instr} (hl : l ≤ h.server.numThreads) (hn : x.1.numThreads = h.server.numThreads)
    (ha : (h.loops l).agenda = front ++ rest) :
    Exchange h.bag (on l front) (on l x.2) (h.resume l rest x).bag := by
  have hloops : ∀ k, (h.resume l rest x).loops k =
      if k = l then {h.loops l with agenda := x.2 ++ rest} else h.loops k :=
    fun k => setAgenda_loops _ l k _
  refine exchange_bag hl hn (fun k hk => by rw [hloops, if_neg hk]) ?_
  rw [hloops, if_pos rfl, Loop.work, Loop.work, ha, List.append_assoc, List.append_assoc]
  exact exchange_front l front x.2 _

/-- What is active and what is called back is no work. -/
theorem bag_setActive (h : Host) (l : LoopId) (active : List (ConnNo × EpollMask)) :
    (h.setActive l active).bag = h.bag := by
  refine Finset.sum_congr rfl fun k _ => ?_
  rw [setActive_loops]
  split
  · rename_i hk
    rw [hk]
    rfl
  · rfl

theorem bag_setCallbacks (h : Host) (l : LoopId) (callbacks : List (ConnNo × Chan.Callback)) :
    (h.setCallbacks l callbacks).bag = h.bag := by
  refine Finset.sum_congr rfl fun k _ => ?_
  rw [setCallbacks_loops]
  split
  · rename_i hk
    rw [hk]
    rfl
  · rfl

/-- The functors that a step of an eloop takes from its queue or puts there. -/
theorem tasks_step {p : Loop} {e : Eloop Functor} {a : Eloop.Label Functor} (h : p.eloop.step a = some e) :
    Eloop.executed [a] ++ {p with eloop := e}.tasks = p.tasks ++ Eloop.queued [a] :=
  Eloop.step_conserves h

/-- A step of an eloop that moves no functor. -/
theorem bag_setEloop {h : Host} {l : LoopId} {e : Eloop Functor} {a : Eloop.Label Functor}
    (he : (h.loops l).eloop.step a = some e) (hx : Eloop.executed [a] = []) (hq : Eloop.queued [a] = []) :
    (h.setEloop l e).bag = h.bag := by
  have htasks := tasks_step he
  rw [hx, hq, List.nil_append, List.append_nil] at htasks
  refine Finset.sum_congr rfl fun k _ => ?_
  rw [setEloop_loops]
  split
  · rename_i hk
    rw [hk, Loop.work, Loop.work, htasks]
  · rfl

/-- `do_pending_functors` calls a functor: it leaves the batch, and its instructions come. -/
theorem exchange_call {h : Host} {l : LoopId} {f : Functor} {e : Eloop Functor} {x : TcpServer × List Instr}
    (hl : l ≤ h.server.numThreads) (hn : x.1.numThreads = h.server.numThreads) (ha : (h.loops l).agenda = [])
    (he : (h.loops l).eloop.step (.call f) = some e) :
    Exchange h.bag {(l, .run f)} (on l x.2) ((h.resume l [] x).setEloop l e).bag := by
  have hloops : ∀ k, ((h.resume l [] x).setEloop l e).loops k =
      if k = l then {h.loops l with agenda := x.2, eloop := e} else h.loops k := by
    intro k
    rw [setEloop_loops, resume, setAgenda_loops, setAgenda_loops, if_pos rfl, List.append_nil]
    split <;> rfl
  have htasks := tasks_step he
  rw [show Eloop.queued [Eloop.Label.call f] = [] from rfl, List.append_nil] at htasks
  refine exchange_bag hl hn (fun k hk => by rw [hloops, if_neg hk]) ?_
  rw [hloops, if_pos rfl, Loop.work, Loop.work, ha, ← htasks]
  exact exchange_front l [.run f] x.2 _

/-- A functor is queued. -/
theorem exchange_emplace {h : Host} {l t : LoopId} {f : Functor} {e : Eloop Functor}
    (hl : l ≤ h.server.numThreads) (he : (h.loops l).eloop.step (.emplace t f) = some e) :
    Exchange h.bag 0 {(l, .run f)} (h.setEloop l e).bag := by
  have htasks := tasks_step he
  refine exchange_bag hl rfl (fun k hk => by rw [setEloop_loops, if_neg hk]) ?_
  have hwork : {h.loops l with eloop := e}.work = (h.loops l).work ++ [.run f] := by
    rw [Loop.work, Loop.work, List.append_assoc]
    exact congrArg ((h.loops l).agenda ++ ·) ((congrArg (List.map Instr.run) htasks).trans List.map_append)
  rw [setEloop_loops, if_pos rfl, hwork]
  exact exchange_back l _ _

/-- The functor that is called has been waiting. -/
theorem mem_call {h : Host} {l : LoopId} {f : Functor} {e : Eloop Functor} (hl : l ≤ h.server.numThreads)
    (he : (h.loops l).eloop.step (.call f) = some e) : (l, .run f) ∈ h.bag := by
  have htasks := tasks_step he
  rw [show Eloop.queued [Eloop.Label.call f] = [] from rfl, List.append_nil] at htasks
  refine mem_bag.mpr ⟨hl, List.mem_append_right _ (List.mem_map.mpr ⟨f, ?_, rfl⟩)⟩
  rw [← htasks]
  exact List.mem_cons_self

theorem mem_head {h : Host} {l : LoopId} {i : Instr} {rest : List Instr} (hl : l ≤ h.server.numThreads)
    (ha : (h.loops l).agenda = i :: rest) : (l, i) ∈ h.bag :=
  mem_bag.mpr ⟨hl, List.mem_append_left _ (ha ▸ List.mem_cons_self)⟩

/-! ### What a step is to the bag -/

theorem step_did {h h' : Host} {a : Act} (hi : h.Sound) (hs : Step h a h') :
    ∃ done made, Exchange h.bag done made h'.bag ∧ h.server.Did (h.scope a) done made h'.server := by
  have hnone : h'.bag = h.bag → h'.server = h.server →
      ∃ done made, Exchange h.bag done made h'.bag ∧ h.server.Did (h.scope a) done made h'.server := by
    intro hb hs'
    rw [hb, hs']
    exact ⟨0, 0, .refl _, .idle 0 0 (by simp) (by simp)⟩
  have hresume : ∀ front {l rest} {x : TcpServer × List Instr}, l ≤ h.server.numThreads →
      (h.loops l).agenda = front ++ rest → h.server.Leaves (h.scope a) l (on l front) x →
      ∃ done made, Exchange h.bag done made (h.resume l rest x).bag ∧
        h.server.Did (h.scope a) done made (h.resume l rest x).server :=
    fun front _ _ _ hl ha hx => ⟨_, _, exchange_resume front hl hx.did.numThreads ha, hx.did⟩
  cases hs with
  | eloop l a e hal hl he =>
    refine hnone (bag_setEloop he ?_ ?_) rfl
    · cases a <;> first | rfl | exact hal.elim
    · cases a <;> first | rfl | exact hal.elim
  | poll l woken active e _ _ hl he =>
    refine hnone ?_ rfl
    rw [bag_setEloop (a := .pollReturns woken) (by rw [setActive_eloop]; exact he) rfl rfl, bag_setActive]
  | dispatch l o revents rest =>
    refine hnone ?_ rfl
    rw [bag_setCallbacks, bag_setActive]
  | callback l r w o cb rest x hc hl ha hx =>
    obtain ⟨howns, hreg⟩ := hi.handled l o (Loop.mem_handled hc)
    have hcloses : cb = .close ∨ cb = .read ∧ r.IsEof → (h.scope (.callback l r w)).closes o := by
      rintro (rfl | ⟨rfl, heof⟩)
      · exact .inl (by rw [hc]; rfl)
      · exact .inr ⟨by rw [hc]; rfl, heof⟩
    have hcalls : (h.scope (.callback l r w)).calls o := ⟨cb, by rw [hc]; rfl⟩
    have hleaves := TcpServer.handle_leaves howns hreg hcalls hcloses hx
    refine ⟨_, _, ?_, hleaves.did⟩
    rw [← bag_setCallbacks h l rest]
    refine exchange_resume [] hl hleaves.did.numThreads ?_
    rw [setCallbacks_loops, if_pos rfl]
    exact ha
  | accept x hpc hfree hx => exact hresume [] (Nat.zero_le _) hfree.1 (TcpServer.newConn_leaves hx)
  | call l f e ha hl he =>
    have hleaves := TcpServer.body_leaves (P := h.scope (.call l f)) hi.server (mem_call hl he)
    exact ⟨_, _, exchange_call hl hleaves.did.numThreads ha he, hleaves.did⟩
  | exec l i rest x ha hl hx =>
    exact hresume [i] hl ha (TcpServer.exec_leaves hi.server (mem_head hl ha) hx)
  | queue l k f rest e ha hl hk he =>
    have hplace := hi.server.assigned _ (mem_head hl ha)
    refine ⟨_, _, ?_, .queue l k f hplace⟩
    have hrecord : (h.server.recordQueue f).numThreads = h.server.numThreads := recordQueue_numThreads ..
    have hresumed := exchange_resume [.queue k f] (x := (h.server.recordQueue f, [.endQueue k])) hl hrecord ha
    refine hresumed.more (exchange_emplace (t := l) ?_ ?_)
    · exact hk.trans_eq hrecord.symm
    · rw [resume, setAgenda_eloop]
      exact he
  | endQueue l k rest e ha hl hk he =>
    have hleaves : h.server.Leaves (h.scope (.exec l)) l (on l [.endQueue k]) (h.server, []) :=
      TcpServer.leaves_nothing rfl
    refine ⟨_, _, ?_, hleaves.did⟩
    rw [bag_setEloop (a := .endQueue l) (by rw [setAgenda_eloop]; exact he) rfl rfl]
    exact exchange_resume [.endQueue k] (x := (h.server, [])) hl rfl ha
  | send l data w o rest x ha hl hx =>
    exact hresume [] hl ha (TcpServer.send_leaves (hi.server.assigned _ (mem_head hl ha)) (by rw [scope, ha]; rfl) hx)
  | shutdown l o rest ha hl =>
    exact hresume [] hl ha (TcpServer.shutdown_leaves (hi.server.assigned _ (mem_head hl ha)) (by rw [scope, ha]; rfl))
  | endUserCode l o rest ha hl =>
    have hleaves : h.server.Leaves (h.scope (.endUserCode l)) l (on l [.userCode o]) (h.server, []) :=
      TcpServer.leaves_nothing rfl
    exact ⟨_, _, exchange_resume [.userCode o] (x := (h.server, [])) hl rfl ha, hleaves.did⟩

/-! ### What a step leaves of the shape -/

theorem forall_update {Q : LoopId → Loop → Prop} {f : LoopId → Loop} {l : LoopId} {p : Loop}
    (hf : ∀ k, Q k (f k)) (hp : Q l p) : ∀ k, Q k (Function.update f l p k) :=
  (Function.forall_update_iff f Q).mpr ⟨hp, fun k _ => hf k⟩

/-- An eloop goes on handling events as long as there are any. -/
theorem handling_step {p : Loop} {a : Eloop.Label Functor} {e : Eloop Functor} (hp : p.Shape) (ha : p.Allows a)
    (he : p.eloop.step a = some e) (hne : p.handled ≠ []) : e.pc.isHandling = true := by
  have hfree : ¬ (p.Free ∧ p.active = []) := by
    rintro ⟨⟨-, hc⟩, hact⟩
    exact hne (by simp [Loop.handled, Loop.events, hc, hact])
  have hpc := hp.handling hne
  cases Eloop.step_cases he with
  | wakeup | storeQuit | wakeupQuit | mustWake | needNotWake => exact hpc
  | handleRead => rfl
  | emplace | endQueue | call | pollReturns => exact ha.elim
  | _ => exact absurd ha hfree

/-- Queueing leaves `loop` where it is. -/
theorem pc_emplace {e e' : Eloop Functor} {t : Tid} {f : Functor} (he : e.step (.emplace t f) = some e') :
    e'.pc = e.pc := by
  cases Eloop.step_cases he
  rfl

theorem pc_endQueue {e e' : Eloop Functor} {t : Tid} (he : e.step (.endQueue t) = some e') : e'.pc = e.pc := by
  cases Eloop.step_cases he
  rfl

theorem step_shape {h h' : Host} {a : Act} (hi : h.Sound) (hs : Step h a h') : ∀ l, (h'.loops l).Shape := by
  -- The head of an agenda gives way to what it leaves.
  have hnext : ∀ {l i rest} {x : TcpServer × List Instr}, (h.loops l).agenda = i :: rest → Fronts x.2 →
      (∀ o, .removeChan o ∉ x.2) → ∀ k, ((h.resume l rest x).loops k).Shape := by
    intro l i rest x ha hf hcalm
    have hord := (hi.shape l).ordered
    rw [ha] at hord
    refine forall_update hi.shape ((hi.shape l).resume hf hord.1.first hord.2 ?_ fun o ho => absurd ho (hcalm o))
    intro j hj
    exact ha ▸ List.mem_cons_of_mem _ hj
  -- User code goes on, after what a call of it leaves.
  have huser : ∀ {l o rest} {x : TcpServer × List Instr}, (h.loops l).agenda = .userCode o :: rest → Fronts x.2 →
      (∀ o, .removeChan o ∉ x.2) → ∀ k, ((h.resume l (.userCode o :: rest) x).loops k).Shape := by
    intro l o rest x ha hf hcalm
    have hord := (hi.shape l).ordered
    rw [ha] at hord
    refine forall_update hi.shape
      ((hi.shape l).resume hf (fun o' ho => ?_) hord (fun j hj => ha ▸ hj) fun o ho => absurd ho (hcalm o))
    rcases List.mem_cons.mp ho with ho | ho
    · cases ho
    · exact hord.1.first o' ho
  cases hs with
  | eloop l a e hal hl he => exact forall_update hi.shape ((hi.shape l).setEloop (handling_step (hi.shape l) hal he))
  | poll l woken active e hfree hrep hl he =>
    have hpc : e.pc.isHandling = true := by
      cases Eloop.step_cases he
      rfl
    intro k
    rw [setEloop_loops, setActive_loops, setActive_loops, if_pos rfl]
    split
    · exact (hi.shape l).poll hfree hrep.1 hpc
    · exact hi.shape k
  | dispatch l o revents rest ha hl hfree =>
    intro k
    rw [setCallbacks_loops, setActive_loops, setActive_loops, if_pos rfl]
    split
    · exact (hi.shape l).dispatch ha
    · exact hi.shape k
  | callback l r w o cb rest x hc hl ha hx =>
    obtain ⟨howns, hreg⟩ := hi.handled l o (Loop.mem_handled hc)
    have hleaves : h.server.Leaves .all l 0 x :=
      TcpServer.handle_leaves howns hreg trivial (fun _ => trivial) hx
    have hpop := (hi.shape l).popCallback hc
    intro k
    rw [resume, setAgenda_loops, setServer_loops, setCallbacks_loops, setCallbacks_loops, if_pos rfl]
    split
    · exact hpop.start hleaves.fronts fun o ho => absurd ho (hleaves.calm o)
    · exact hi.shape k
  | accept x hpc hfree hx =>
    have hleaves : h.server.Leaves .all 0 0 x := TcpServer.newConn_leaves hx
    exact forall_update hi.shape ((hi.shape 0).start hleaves.fronts fun o ho => absurd ho (hleaves.calm o))
  | call l f e ha hl he =>
    have hleaves : h.server.Leaves .all l {(l, .run f)} _ :=
      TcpServer.body_leaves hi.server (mem_call hl he)
    -- Functors are called when no events are left to handle.
    have hdone : (h.loops l).handled = [] := by
      by_contra hne
      have hpc := (hi.shape l).handling hne
      cases Eloop.step_cases he with
      | call f rest hrun => simp [hrun, LoopPc.isHandling] at hpc
    have hstarted := (hi.shape l).start hleaves.fronts fun _ _ => hdone
    intro k
    rw [setEloop_loops, resume, setAgenda_loops, setAgenda_loops, if_pos rfl]
    split
    · exact hstarted.setEloop fun hne => absurd hdone hne
    · exact hi.shape k
  | exec l i rest x ha hl hx =>
    have hleaves : h.server.Leaves .all l {(l, i)} x := TcpServer.exec_leaves hi.server (mem_head hl ha) hx
    refine hnext ha hleaves.fronts fun o ho => ?_
    cases Multiset.mem_singleton.mp (hleaves.removes o ho)
    exact (hi.shape l).deferred o (ha ▸ List.mem_cons_self)
  | queue l k f rest e ha hl hk he =>
    have hresumed := hnext (x := (h.server.recordQueue f, [.endQueue k])) ha
      (fronts_idle (by simp [Instr.isIdle])) (by simp)
    refine forall_update hresumed ((hresumed k).setEloop fun hne => ?_)
    rw [pc_emplace he]
    have hpc := (hresumed k).handling hne
    rwa [resume, setAgenda_eloop] at hpc
  | endQueue l k rest e ha hl hk he =>
    have hresumed := hnext (x := (h.server, [])) ha (fronts_idle (by simp)) (by simp)
    refine forall_update hresumed ((hresumed k).setEloop fun hne => ?_)
    rw [pc_endQueue he]
    have hpc := (hresumed k).handling hne
    rwa [resume, setAgenda_eloop] at hpc
  | send l data w o rest x ha hl hx =>
    have hleaves : h.server.Leaves .all l 0 x :=
      TcpServer.send_leaves (hi.server.assigned _ (mem_head hl ha)) trivial hx
    exact huser ha hleaves.fronts hleaves.calm
  | shutdown l o rest ha hl =>
    have hleaves : h.server.Leaves .all l 0 (h.server.settle o (h.server.conn o).shutdown) :=
      TcpServer.shutdown_leaves (hi.server.assigned _ (mem_head hl ha)) trivial
    exact huser ha hleaves.fronts hleaves.calm
  | endUserCode l o rest ha hl => exact hnext (x := (h.server, [])) ha (fronts_idle (by simp)) (by simp)

/-! ### Every reachable state is sound -/

@[simp] theorem setAgenda_events (h : Host) (l k : LoopId) (agenda : List Instr) :
    ((h.setAgenda l agenda).loops k).events = (h.loops k).events := by
  rw [setAgenda_loops]
  split
  · rename_i hk
    rw [hk]
    rfl
  · rfl

@[simp] theorem setEloop_events (h : Host) (l k : LoopId) (e : Eloop Functor) :
    ((h.setEloop l e).loops k).events = (h.loops k).events := by
  rw [setEloop_loops]
  split
  · rename_i hk
    rw [hk]
    rfl
  · rfl

@[simp] theorem resume_events (h : Host) (l k : LoopId) (rest : List Instr) (x : TcpServer × List Instr) :
    ((h.resume l rest x).loops k).events = (h.loops k).events :=
  setAgenda_events ..

/-- Only `poll` brings events, and these are of connections in its poller. -/
theorem step_handled {h h' : Host} {a : Act} (hs : Step h a h') {l : LoopId} {o : ConnNo}
    (ho : o ∈ (h'.loops l).handled) :
    o ∈ (h.loops l).handled ∨ h'.server = h.server ∧ h.server.Owns l o ∧ h.server.Registered o := by
  cases hs with
  | poll k woken active e hfree hrep hl he =>
    rw [Loop.handled, setEloop_events, setActive_loops] at ho
    split at ho
    · rename_i hk
      subst hk
      rw [Loop.events, show (h.loops l).callbacks = [] from hfree.2] at ho
      obtain ⟨e, he, rfl⟩ := List.mem_map.mp ho
      obtain ⟨hacc, hloop, -, mask, hmask, -⟩ := hrep.2 e he
      exact .inr ⟨rfl, ⟨hacc, hloop⟩, Option.ne_none_iff_exists'.mpr ⟨mask, hmask⟩⟩
    · exact .inl ho
  | dispatch k o' revents rest ha hl hfree =>
    rw [setCallbacks_loops, setActive_loops, setActive_loops, if_pos rfl] at ho
    split at ho
    · rename_i hk
      subst hk
      refine .inl (List.mem_append_right _ ?_)
      rw [Loop.events, ha]
      rcases List.mem_append.mp ho with ho | ho
      · obtain ⟨c, hc, rfl⟩ := List.mem_map.mp ho
        obtain ⟨cb, -, rfl⟩ := List.mem_map.mp hc
        exact List.mem_cons_self
      · exact List.mem_cons_of_mem _ ho
    · exact .inl ho
  | callback k r w o' cb rest x hc hl ha hx =>
    rw [Loop.handled, resume_events, setCallbacks_loops] at ho
    split at ho
    · rename_i hk
      subst hk
      rcases List.mem_append.mp ho with ho | ho
      · refine .inl (List.mem_append_left _ ?_)
        rw [Loop.events, hc]
        exact List.mem_cons_of_mem _ ho
      · exact .inl (List.mem_append_right _ ho)
    · exact .inl ho
  | eloop | accept | call | exec | queue | endQueue | send | shutdown | endUserCode =>
    simp only [Loop.handled, setEloop_events, resume_events, setAgenda_events] at ho
    exact .inl ho

theorem step_sound {h h' : Host} {a : Act} (hi : h.Sound) (hs : h.step a = some h') : h'.Sound := by
  have hstep := step_cases hs
  obtain ⟨done, made, hx, hd⟩ := step_did hi hstep
  refine ⟨hd.sound hi.server hx, step_shape hi hstep, ?_⟩
  have hkeeps : ∀ l, ∀ o ∈ (h.loops l).handled, h'.server.Owns l o ∧ h'.server.Registered o := by
    intro l o ho
    obtain ⟨howns, hreg⟩ := hi.handled l o ho
    refine ⟨hd.owns howns, (hd.moves howns.1).registered hreg fun k hk hrem => ?_⟩
    -- While a connection is destroyed its loop handles no events.
    obtain rfl : l = k := howns.2.symm.trans hk.2
    have hwork := (mem_bag.mp (hx.mem_of_done hrem)).2
    rcases List.mem_append.mp hwork with hagenda | htask
    · rw [(hi.shape l).removing o hagenda] at ho
      cases ho
    · obtain ⟨f, -, hf⟩ := List.mem_map.mp htask
      cases hf
  intro l o ho
  rcases step_handled hstep ho with ho | ⟨hserver, hreg⟩
  · exact hkeeps l o ho
  · rw [hserver]
    exact hreg

theorem create_bag (numThreads : Nat) (callbacks : Callbacks) (mark : Nat) :
    (create numThreads callbacks mark).bag = 0 := by
  refine Multiset.eq_zero_of_forall_notMem fun x hx => ?_
  obtain ⟨l, i⟩ := x
  cases (mem_bag.mp hx).2

theorem create_sound (numThreads : Nat) (callbacks : Callbacks) (mark : Nat) :
    (create numThreads callbacks mark).Sound := by
  refine ⟨⟨fun x hx => ?_, nofun, nofun⟩, fun l => ?_, nofun⟩
  · rw [create_bag] at hx
    exact absurd hx (Multiset.notMem_zero x)
  · exact ⟨trivial, nofun, nofun, fun hne => absurd rfl hne, List.nodup_nil, nofun, nofun⟩

theorem run_sound {numThreads mark : Nat} {callbacks : Callbacks} {h : Host} {tr : List Act}
    (hr : exec step (create numThreads callbacks mark) tr = some h) : h.Sound :=
  exec_preserves (fun _ _ _ => step_sound) (create_sound ..) hr

/-- A server with one io loop accepts a connection, and the io loop establishes it. -/
def established : List Act :=
  [.eloop 0 .storeLooping, .eloop 0 .clearQuit, .eloop 0 .loadQuit, .poll 0 false [], .accept, .exec 0,
    .eloop 1 (.testWakeup 0), .eloop 1 (.wakeup 0), .exec 0, .eloop 1 .storeLooping, .eloop 1 .clearQuit,
    .eloop 1 .loadQuit, .poll 1 true [], .eloop 1 .handleRead, .eloop 1 .endEvents, .eloop 1 .storeCalling,
    .eloop 1 .swap, .call 1 (.establishConn 0), .exec 1, .endUserCode 1, .exec 1, .eloop 1 .endCall,
    .eloop 1 .clearCalling, .eloop 1 .loadQuit]

end Host

end Caimr.Net
