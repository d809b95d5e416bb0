import Caimr.Lib.Settle
import Caimr.Net.CloseOnce
import Caimr.Net.EloopTpool
import Caimr.Net.ServerCalls

/-! A server that is left alone comes to rest. Once nothing more comes in, no event, no
connection, no call from user code and no timeout, its loops do what is queued and sleep:
every order of their steps ends, and none of them ends earlier. -/
namespace Caimr.Net
open Transition

/-! ### What the steps cost

Each piece of work costs more than what it leaves. A write to the eventfd pays for the
iteration that it wakes the loop for. -/

/-- The way to the next `poll`. -/
def LoopPc.cost {F : Type} : LoopPc F → Nat
  | .handling false => 8
  | .calling => 7
  | .swapping | .inFunctor _ | .notLooping => 6
  | .running _ | .entering => 5
  | .testing => 4
  | .polling | .leaving => 3
  | .handling true | .returned => 2

def CallPc.cost : CallPc → Nat
  | .idle | .returning => 0
  | .waking | .quitting => 8
  | .queued => 9

/-- The instructions of a functor. -/
def Functor.cost : Functor → Nat
  | .establishConn _ => 3
  | .destroyConn _ => 4
  | .removeConnInLoop _ => 18
  | .writeComplete _ | .highWaterMark .. => 2

def Instr.cost : Instr → Nat
  | .userCode _ | .finishWrite _ | .removeChan _ | .endQueue _ | .running _ => 1
  | .connCallback _ => 2
  | .closeCallback _ => 32
  | .run f => f.cost + 1
  | .queue _ f => f.cost + 13

def costs (is : List Instr) : Nat := (is.map Instr.cost).sum

@[simp] theorem costs_nil : costs [] = 0 := rfl
@[simp] theorem costs_cons (i : Instr) (is : List Instr) : costs (i :: is) = i.cost + costs is := rfl
@[simp] theorem costs_append (a b : List Instr) : costs (a ++ b) = costs a + costs b := by
  rw [costs, List.map_append, List.sum_append]
  rfl

namespace Eloop

/-- The functors that wait, each with its call and its end. -/
def tasksCost (e : Eloop Functor) : Nat := ((e.pc.batch ++ e.pendingFunctors).map fun f => f.cost + 2).sum

def cost (n : Nat) (e : Eloop Functor) : Nat :=
  e.pc.cost + 7 * e.wakeups + (∑ t ∈ Finset.range (n + 1), (e.calls t).cost) + e.tasksCost

variable {e e' : Eloop Functor} {n : Nat} {a : Label Functor}

theorem calls_cost (e' : Eloop Functor) {t : Tid} {c : CallPc} (ht : t ≤ n)
    (h : e'.calls = Function.update e.calls t c) :
    (∑ u ∈ Finset.range (n + 1), (e'.calls u).cost) + (e.calls t).cost =
      (∑ u ∈ Finset.range (n + 1), (e.calls u).cost) + c.cost := by
  have hplace := sum_place (f := fun u => (e.calls u).cost) (g := fun u => (e'.calls u).cost)
    (Finset.mem_range.mpr (Nat.lt_succ_of_le ht)) fun u hu => by rw [h, Function.update_of_ne hu]
  rw [hplace, h, Function.update_self]

theorem emplace_cost {t : Tid} {f : Functor} (ht : t ≤ n) (h : e.step (.emplace t f) = some e') :
    e'.cost n = e.cost n + f.cost + 11 := by
  cases step_cases h with
  | emplace t f hmay =>
    have hcalls := calls_cost (setCall {e with pendingFunctors := e.pendingFunctors ++ [f]} t .queued) ht rfl
    rw [hmay.1] at hcalls
    simp only [cost, tasksCost, setCall, CallPc.cost, List.map_append, List.sum_append, List.map_cons, List.map_nil,
      List.sum_cons, List.sum_nil] at hcalls ⊢
    omega

theorem endQueue_cost {t : Tid} (ht : t ≤ n) (h : e.step (.endQueue t) = some e') : e'.cost n = e.cost n := by
  cases step_cases h with
  | endQueue t hc =>
    have hcalls := calls_cost (e.setCall t .idle) ht rfl
    rw [hc] at hcalls
    simp only [cost, tasksCost, setCall, CallPc.cost] at hcalls ⊢
    omega

theorem call_cost {f : Functor} (h : e.step (.call f) = some e') : e'.cost n + f.cost + 1 = e.cost n := by
  cases step_cases h with
  | call f rest hpc =>
    simp only [cost, tasksCost, hpc, LoopPc.cost, LoopPc.batch, List.cons_append, List.map_cons, List.sum_cons]
    omega

/-- The steps that an eloop takes by itself. -/
def Label.isInner : Label Functor → Bool
  | .emplace .. | .endQueue _ | .call _ | .storeQuit _ | .pollReturns false => false
  | _ => true

theorem inner_cost (inv : LoopInv e) (hq : ∀ t, e.calls t ≠ .quitting) (hn : ∀ t, e.calls t ≠ .idle → t ≤ n)
    (h : e.step a = some e') (ha : a.isInner = true) : e'.cost n < e.cost n := by
  have hset : ∀ {t : Tid} (c : CallPc), e.calls t ≠ .idle →
      (∑ u ∈ Finset.range (n + 1), ((e.setCall t c).calls u).cost) + (e.calls t).cost =
        (∑ u ∈ Finset.range (n + 1), (e.calls u).cost) + c.cost :=
    fun c ht => calls_cost _ (hn _ ht) rfl
  cases step_cases h with
  | emplace | endQueue | call | storeQuit => cases ha
  | wakeupQuit t hc => exact absurd hc (hq t)
  | pollReturns woken hpc hw =>
    cases woken with
    | false => cases ha
    | true =>
      simp only [cost, tasksCost, hpc, LoopPc.cost, LoopPc.batch]
      omega
  | handleRead hpc =>
    have hpos := inv.woken hpc
    simp only [cost, tasksCost, hpc, LoopPc.cost, LoopPc.batch]
    omega
  | mustWake t hc =>
    have hcalls := hset .waking (by rw [hc]; decide)
    rw [hc] at hcalls
    simp only [cost, tasksCost, setCall, CallPc.cost] at hcalls ⊢
    omega
  | needNotWake t hc =>
    have hcalls := hset .returning (by rw [hc]; decide)
    rw [hc] at hcalls
    simp only [cost, tasksCost, setCall, CallPc.cost] at hcalls ⊢
    omega
  | wakeup t hc =>
    have hcalls := hset .returning (by rw [hc]; decide)
    rw [hc] at hcalls
    simp only [cost, tasksCost, setCall, CallPc.cost] at hcalls ⊢
    omega
  | storeLooping hpc | clearQuit hpc | quits hpc | goesOn hpc | endEvents hpc | storeCalling hpc | swap hpc
  | endCall rest hpc | clearCalling hpc | leave hpc =>
    simp only [cost, tasksCost, hpc, LoopPc.cost, LoopPc.batch, List.nil_append, List.append_nil]
    omega

end Eloop

namespace TcpServer
variable {s : TcpServer} {l : LoopId} {o : ConnNo} {x : TcpServer × List Instr}

theorem runInLoop_cost (l k : LoopId) (f : Functor) : (runInLoop l k f).cost ≤ f.cost + 13 := by
  unfold runInLoop
  split
  · exact Nat.add_le_add_left (by decide) _
  · exact Nat.le_refl _

theorem handleClose_cost (c : TcpConn) (l : LoopId) (o : ConnNo) :
    costs (c.handleClose.2.flatMap (Effect.instrs l o)) ≤ 34 := by
  unfold TcpConn.handleClose
  split <;> split <;> simp [Effect.instrs, Instr.cost]

/-- What `handle_read` leaves. -/
theorem handleRead_cost {c c' : TcpConn} {r : ReadResult} {es : List Effect} (h : c.handleRead r = .ok (c', es))
    (l : LoopId) (o : ConnNo) : costs (es.flatMap (Effect.instrs l o)) ≤ 34 := by
  obtain ⟨⟨inputBuf, answer⟩, -, h⟩ := bind_ok.mp h
  cases answer with
  | error e =>
    cases h
    exact Nat.zero_le _
  | ok n =>
    dsimp only at h
    split at h
    · cases h
      split <;> simp [Effect.instrs, Instr.cost]
    · cases h
      exact handleClose_cost _ l o

theorem flush_cost {c c' : TcpConn} {w : WriteResult} {es : List Effect} {drained : Bool}
    (h : c.flush w = .ok (c', es, drained)) (l : LoopId) (o : ConnNo) :
    costs (es.flatMap (Effect.instrs l o)) ≤ 15 := by
  rcases TcpConn.flush_cases h with ⟨-, -, rfl, -⟩ | ⟨_, _, -, -, -, -, rfl, -⟩ | ⟨_, _, -, -, -, -, -, rfl, -⟩ |
    ⟨_, _, -, -, -, -, -, rfl, -⟩
  · exact Nat.zero_le _
  · exact Nat.zero_le _
  · exact Nat.zero_le _
  · split
    · exact Nat.le_refl _
    · exact Nat.zero_le _

theorem handle_cost {r : ReadResult} {w : WriteResult} {cb : Chan.Callback} (h : s.handle o r w cb = some x) :
    costs x.2 ≤ 34 := by
  cases cb with
  | close =>
    cases h
    exact handleClose_cost _ _ _
  | error =>
    cases h
    exact Nat.zero_le _
  | read =>
    simp only [handle, settle?] at h
    split at h <;> cases h
    rename_i y hy
    exact handleRead_cost hy _ _
  | write =>
    simp only [handle] at h
    split at h <;> cases h
    rename_i c es drained hf
    have hes := flush_cost hf c.loop o
    rw [costs_append]
    have hend : costs (if drained = true then [.finishWrite o] else []) ≤ 1 := by
      split
      · exact Nat.le_refl _
      · exact Nat.zero_le _
    exact (Nat.add_le_add hes hend).trans (by decide)

theorem body_cost (s : TcpServer) (f : Functor) : costs ((s.body f).2 ++ [.running f]) ≤ f.cost := by
  cases f with
  | establishConn o =>
    simp only [body, settle, TcpConn.establishConn]
    split <;> simp [Effect.instrs, Instr.cost, Functor.cost]
  | destroyConn o =>
    simp only [body, settle, TcpConn.destroyConn]
    split
    · dsimp only
      split <;> simp [Effect.instrs, Instr.cost, Functor.cost]
    · simp [Effect.instrs, Instr.cost, Functor.cost]
  | removeConnInLoop | writeComplete | highWaterMark => exact Nat.le_refl _

theorem finishWrite_cost (c : TcpConn) (drained : Bool) (l : LoopId) (o : ConnNo) :
    costs ((c.finishWrite drained).flatMap (Effect.instrs l o)) = 0 := by
  unfold TcpConn.finishWrite TcpConn.shutdownInLoop
  split
  · split <;> rfl
  · rfl

/-- An instruction costs more than what it leaves. -/
theorem exec_cost {i : Instr} (h : s.exec l i = some x) : costs x.2 < i.cost := by
  cases i with
  | connCallback =>
    cases h
    exact Nat.le_refl _
  | closeCallback o =>
    cases h
    have hle := runInLoop_cost l 0 (.removeConnInLoop o)
    exact Nat.lt_succ_of_le hle
  | finishWrite o =>
    cases h
    exact Nat.lt_succ_of_le (Nat.le_of_eq (finishWrite_cost _ _ _ _))
  | removeChan o =>
    cases h
    exact Nat.zero_lt_one
  | run f =>
    cases h
    exact Nat.lt_succ_of_le (body_cost s f)
  | running =>
    cases h
    exact Nat.zero_lt_one
  | userCode | queue | endQueue => cases h

end TcpServer

theorem handleEventWithGuard_length (revents : EpollMask) : (Chan.handleEventWithGuard revents).length ≤ 4 := by
  obtain ⟨pollIn, pollPri, pollOut, pollErr, pollHup⟩ := revents
  revert pollIn pollPri pollOut pollErr pollHup
  decide

/-- A loop with all that waits in it. -/
def Loop.cost (n : Nat) (p : Loop) : Nat :=
  p.eloop.cost n + costs p.agenda + 35 * p.callbacks.length + 141 * p.active.length

namespace Host
variable {h h' : Host} {l : LoopId} {a : Act}

def cost (h : Host) : Nat := ∑ l ∈ Finset.range (h.server.numThreads + 1), (h.loops l).cost h.server.numThreads

/-- The steps that the loops take by themselves, with any answers to their system calls. A `poll`
that the eventfd alone ends is one of them. -/
def Act.isInner : Act → Bool
  | .eloop _ a => a.isInner
  | .poll _ woken active => woken && active.isEmpty
  | .accept | .send .. | .shutdown _ => false
  | .dispatch _ | .callback .. | .call .. | .exec _ | .endUserCode _ => true

theorem Act.not_quits (ha : a.isInner = true) : a.quits = false := by
  unfold Act.quits
  split
  · cases ha
  · rfl

/-! ### Every step costs something -/

theorem cost_place (h' : Host) (hl : l ≤ h.server.numThreads) (hn : h'.server.numThreads = h.server.numThreads)
    (hne : ∀ k ≠ l, h'.loops k = h.loops k) :
    h'.cost + (h.loops l).cost h.server.numThreads = h.cost + (h'.loops l).cost h.server.numThreads := by
  unfold cost
  rw [hn]
  exact sum_place (f := fun k => (h.loops k).cost h.server.numThreads)
    (g := fun k => (h'.loops k).cost h.server.numThreads) (Finset.mem_range.mpr (Nat.lt_succ_of_le hl)) fun k hk => by
      rw [hne k hk]

theorem resume_cost (rest : List Instr) (x : TcpServer × List Instr) (hl : l ≤ h.server.numThreads)
    (hn : x.1.numThreads = h.server.numThreads) :
    (h.resume l rest x).cost + costs (h.loops l).agenda = h.cost + costs x.2 + costs rest := by
  have hplace := cost_place (h.resume l rest x) hl hn fun k hk => by
    rw [resume, setAgenda_loops, if_neg hk]
    rfl
  rw [resume, setAgenda_loops, if_pos rfl] at hplace
  simp only [Loop.cost, costs_append, setServer_loops] at hplace
  rw [resume]
  omega

theorem resume_nil (h : Host) (l : LoopId) (rest : List Instr) : h.resume l rest (h.server, []) = h.setAgenda l rest :=
  rfl

theorem setEloop_cost {e : Eloop Functor} (hl : l ≤ h.server.numThreads) :
    (h.setEloop l e).cost + (h.loops l).eloop.cost h.server.numThreads = h.cost + e.cost h.server.numThreads := by
  have hplace := cost_place (h.setEloop l e) hl rfl fun k hk => by rw [setEloop_loops, if_neg hk]
  rw [setEloop_loops, if_pos rfl] at hplace
  simp only [Loop.cost] at hplace
  omega

theorem setActive_cost (active : List (ConnNo × EpollMask)) (hl : l ≤ h.server.numThreads) :
    (h.setActive l active).cost + 141 * (h.loops l).active.length = h.cost + 141 * active.length := by
  have hplace := cost_place (h.setActive l active) hl rfl fun k hk => by rw [setActive_loops, if_neg hk]
  rw [setActive_loops, if_pos rfl] at hplace
  simp only [Loop.cost] at hplace
  omega

theorem setCallbacks_cost (callbacks : List (ConnNo × Chan.Callback)) (hl : l ≤ h.server.numThreads) :
    (h.setCallbacks l callbacks).cost + 35 * (h.loops l).callbacks.length = h.cost + 35 * callbacks.length := by
  have hplace := cost_place (h.setCallbacks l callbacks) hl rfl fun k hk => by
    rw [setCallbacks_loops, if_neg hk]
  rw [setCallbacks_loops, if_pos rfl] at hplace
  simp only [Loop.cost] at hplace
  omega

/-- The threads that are in a call are those of the loops. -/
theorem Going.caller_le (hg : h.Going) {k t : LoopId} (ht : (h.loops k).eloop.calls t ≠ .idle) :
    t ≤ h.server.numThreads := by
  by_contra hlt
  have hcall := (hg.calls k t).2.mp ht
  rw [hg.few t (Nat.lt_of_not_le hlt)] at hcall
  cases hcall

theorem step_cost (hi : h.Sound) (hg : h.Going) (hs : h.step a = some h') (ha : a.isInner = true) :
    h'.cost < h.cost := by
  have hstep := step_cases hs
  obtain ⟨done, made, -, hd⟩ := step_did hi hstep
  have hn : h'.server.numThreads = h.server.numThreads := hd.numThreads
  have hinner : ∀ {l a e}, (h.loops l).eloop.step a = some e → a.isInner = true →
      e.cost h.server.numThreads < (h.loops l).eloop.cost h.server.numThreads :=
    fun he ha => Eloop.inner_cost (hg.inv _) (fun t => (hg.calls _ t).1) (fun _ ht => hg.caller_le ht) he ha
  cases hstep with
  | eloop l a e _ hl he =>
    have hcost := setEloop_cost (e := e) hl
    have hless := hinner he ha
    omega
  | poll l woken active e hfree hrep hl he =>
    obtain ⟨hwoken, hactive⟩ := Bool.and_eq_true_iff.mp ha
    subst hwoken
    have hcost := setActive_cost active hl
    rw [List.isEmpty_iff.mp hactive] at hcost ⊢
    have hcost' := setEloop_cost (h := h.setActive l []) (e := e) hl
    have hless := hinner he rfl
    simp only [setActive_eloop, setActive_server, List.length_nil] at hcost hcost'
    omega
  | dispatch l o revents rest hact hl hfree =>
    have hcost := setActive_cost rest hl
    have hcost' := setCallbacks_cost (h := h.setActive l rest)
      ((Chan.handleEventWithGuard revents).map (o, ·)) hl
    have hlen := handleEventWithGuard_length revents
    rw [hact, List.length_cons] at hcost
    rw [List.length_map] at hcost'
    omega
  | callback l r w o cb rest x hc hl hag hx =>
    have hcost := setCallbacks_cost rest hl
    have hcost' := resume_cost (h := h.setCallbacks l rest) [] x hl hn
    have hless := TcpServer.handle_cost hx
    rw [hc, List.length_cons] at hcost
    rw [setCallbacks_agenda, hag, costs_nil] at hcost'
    omega
  | accept | send | shutdown => cases ha
  | call l f e hag hl he =>
    have hcost := resume_cost [] ((h.server.body f).1, (h.server.body f).2 ++ [.running f]) hl hn
    have hcost' := setEloop_cost (h := h.resume l [] ((h.server.body f).1, (h.server.body f).2 ++ [.running f]))
      (e := e) (hn ▸ hl)
    have hless := Eloop.call_cost (n := h.server.numThreads) he
    have hbody := TcpServer.body_cost h.server f
    rw [hag, costs_nil] at hcost
    simp only [resume, setAgenda_eloop, setServer_loops, setAgenda_server, setServer_server, body_numThreads]
      at hcost hcost' ⊢
    omega
  | exec l i rest x hag hl hx =>
    have hcost := resume_cost rest x hl hn
    have hless := TcpServer.exec_cost hx
    rw [hag, costs_cons] at hcost
    omega
  | queue l k f rest e hag hl hk he =>
    have hcost := resume_cost rest (h.server.recordQueue f, [.endQueue k]) hl hn
    have hcost' := setEloop_cost (h := h.resume l rest (h.server.recordQueue f, [.endQueue k])) (l := k) (e := e)
      (hn ▸ hk)
    have hmore := Eloop.emplace_cost hl he
    have hprice : (Instr.queue k f).cost = f.cost + 13 := rfl
    have hend : (Instr.endQueue k).cost = 1 := rfl
    rw [hag] at hcost
    simp only [resume, setAgenda_eloop, setServer_loops, setAgenda_server, setServer_server, recordQueue_numThreads,
      costs_cons, costs_nil] at hcost hcost' ⊢
    omega
  | endQueue l k rest e hag hl hk he =>
    have hcost := resume_cost rest (h.server, []) hl rfl
    rw [resume_nil] at hcost
    have hcost' := setEloop_cost (h := h.setAgenda l rest) (l := k) (e := e) hk
    have hsame := Eloop.endQueue_cost hl he
    have hend : (Instr.endQueue k).cost = 1 := rfl
    rw [hag] at hcost
    simp only [setAgenda_eloop, setAgenda_server, costs_cons, costs_nil] at hcost hcost'
    omega
  | endUserCode l o rest hag hl =>
    have hcost := resume_cost rest (h.server, []) hl rfl
    have hend : (Instr.userCode o).cost = 1 := rfl
    rw [resume_nil, hag, costs_cons, costs_nil] at hcost
    omega

/-! ### Nothing is left undone -/

/-- Every loop sleeps, and no work waits in any of them. -/
structure Resting (h : Host) : Prop where
  asleep : ∀ l ≤ h.server.numThreads, (h.loops l).eloop.pc = .polling ∧ (h.loops l).eloop.wakeups = 0
  handled : ∀ l ≤ h.server.numThreads, (h.loops l).handled = []
  bag : h.bag = 0

/-- A run in which nobody quits. -/
def Runs (numThreads : Nat) (callbacks : Callbacks) (mark : Nat) (h : Host) : Prop :=
  ∃ tr, exec step (create numThreads callbacks mark) tr = some h ∧ ∀ a ∈ tr, a.quits = false

/-- A write that would block leaves everything as it is. -/
theorem flush_blocked {c : TcpConn} (hwf : c.outputBuf.Wf) : ∃ y, c.flush (.fails .wouldBlock) = .ok y := by
  have hin : c.outputBuf.readerIndex + c.outputBuf.readableBytes ≤ c.outputBuf.buf.length := by
    have hord := hwf.ordered
    have hinside := hwf.inside
    rw [Buffer.readableBytes_eq hwf]
    omega
  have hdata := readSpan_ok.mpr ⟨hin, rfl⟩
  unfold TcpConn.flush
  split
  · rw [Buffer.writeFd, hdata]
    exact ⟨_, rfl⟩
  · exact ⟨_, rfl⟩

section Left
variable (hset : Settled step (fun a => a.isInner = true) h)
include hset

theorem settled_eloop {a : Eloop.Label Functor} (hl : l ≤ h.server.numThreads) (ha : a.isInner = true)
    (hal : (h.loops l).Allows a) : (h.loops l).eloop.step a = none := by
  have hstep := hset (.eloop l a) ha
  rw [step, if_pos hal, onEloop, if_pos hl] at hstep
  exact Option.map_eq_none_iff.mp hstep

/-- The thread of a loop is through with its agenda. -/
theorem settled_agenda (hi : h.Sound) (hg : h.Going) (hd : h.server.Dealt) (hl : l ≤ h.server.numThreads) :
    (h.loops l).agenda = [] := by
  cases hag : (h.loops l).agenda with
  | nil => rfl
  | cons i rest =>
    have hexec : h.perform l rest i = none := by
      have hstep := hset (.exec l) rfl
      rw [step, hag] at hstep
      exact (if_pos hl).symm.trans hstep
    have hw := hg.works l (by rw [hag]; exact List.cons_ne_nil _ _)
    cases i with
    | userCode o =>
      have hstep := hset (.endUserCode l) rfl
      rw [step, hag] at hstep
      cases (if_pos hl).symm.trans hstep
    | queue k f =>
      have hplace := hi.server.assigned _ (mem_head hl hag)
      have hk : k ≤ h.server.numThreads := by
        have howned : ∀ {o}, h.server.Owns k o → k ≤ h.server.numThreads := by
          intro o ho
          rw [← ho.2, hd.loop o ho.1]
          split
          · exact Nat.zero_le _
          · exact Nat.mod_lt _ (Nat.pos_of_ne_zero ‹_›)
        cases f with
        | establishConn | writeComplete | highWaterMark => exact howned hplace
        | destroyConn => exact howned hplace.1
        | removeConnInLoop =>
          rw [hplace.1]
          exact Nat.zero_le _
      have hidle : (h.loops k).eloop.calls l = .idle := by
        by_contra hne
        have hcall := (hg.calls k l).2.mp hne
        rw [hag] at hcall
        cases hcall
      have hmay : (h.loops k).eloop.MayCall l := by
        refine ⟨hidle, fun ht => ?_⟩
        rw [hg.thread] at ht
        rw [← ht]
        exact hw.1
      have hnone : (h.loops k).eloop.step (.emplace l f) = none := by
        rw [perform, onEloop, resume, setAgenda_server, setServer_server, recordQueue_numThreads, if_pos hk,
          setAgenda_eloop] at hexec
        exact Option.map_eq_none_iff.mp hexec
      rw [Eloop.step, if_pos hmay] at hnone
      cases hnone
    | endQueue k =>
      have hk := hg.aimed l k (by rw [hag]; rfl)
      have hbusy := (hg.calls k l).2.mpr (by rw [hag]; rfl)
      cases hc : (h.loops k).eloop.calls l with
      | idle => exact absurd hc hbusy
      | quitting => exact absurd hc (hg.calls k l).1
      | queued =>
        have hnone := settled_eloop hset (a := .testWakeup l) hk rfl trivial
        rw [Eloop.step, if_pos hc] at hnone
        cases hnone
      | waking =>
        have hnone := settled_eloop hset (a := .wakeup l) hk rfl trivial
        rw [Eloop.step, if_pos hc] at hnone
        cases hnone
      | returning =>
        rw [perform, onEloop, setAgenda_server, if_pos hk, setAgenda_eloop] at hexec
        have hnone := Option.map_eq_none_iff.mp hexec
        rw [Eloop.step, if_pos hc] at hnone
        cases hnone
    | connCallback | closeCallback | finishWrite | removeChan | run | running => cases hexec

/-- It has called all callbacks. -/
theorem settled_callbacks (hwf : ∀ o < h.server.accepted, (h.server.conn o).outputBuf.Wf) (hi : h.Sound)
    (hl : l ≤ h.server.numThreads) (hag : (h.loops l).agenda = []) : (h.loops l).callbacks = [] := by
  cases hc : (h.loops l).callbacks with
  | nil => rfl
  | cons c rest =>
    obtain ⟨o, cb⟩ := c
    have ho := (hi.handled l o (Loop.mem_handled hc)).1.1
    have hnone : ∀ r w, h.server.handle o r w cb = none := by
      intro r w
      have hstep := hset (.callback l r w) rfl
      rw [step, hc] at hstep
      exact Option.map_eq_none_iff.mp ((if_pos ⟨hl, hag⟩).symm.trans hstep)
    cases cb with
    | close | error => cases hnone (.received []) (.accepts 0)
    | read => cases hnone (.fails .wouldBlock) (.accepts 0)
    | write =>
      have hw := hnone (.received []) (.fails .wouldBlock)
      obtain ⟨y, hflush⟩ := flush_blocked (hwf o ho)
      rw [TcpServer.handle, hflush] at hw
      cases hw

/-- And handled all events. -/
theorem settled_active (hl : l ≤ h.server.numThreads) (hfree : (h.loops l).Free) : (h.loops l).active = [] := by
  cases hact : (h.loops l).active with
  | nil => rfl
  | cons e rest =>
    have hstep := hset (.dispatch l) rfl
    rw [step, hact] at hstep
    cases (if_pos ⟨hl, hfree⟩).symm.trans hstep

theorem settled_asleep (hg : h.Going) (hl : l ≤ h.server.numThreads) (hfree : (h.loops l).Free)
    (hact : (h.loops l).active = []) : (h.loops l).eloop.pc = .polling ∧ (h.loops l).eloop.wakeups = 0 := by
  have hrest : (h.loops l).eloop.AtRest := by
    by_contra hne
    rw [Eloop.AtRest, hg.thread] at hne
    have hcall := (hg.calls l l).2.mp hne
    rw [hfree.1] at hcall
    cases hcall
  obtain ⟨-, hleave, hret⟩ := hg.goesOn l
  cases hpc : (h.loops l).eloop.pc with
  | polling =>
    refine ⟨rfl, ?_⟩
    by_contra hne
    have hstep := hset (.poll l true []) rfl
    have hreports : h.Reports l [] := ⟨List.nodup_nil, by simp⟩
    rw [step, if_pos ⟨hfree, hreports⟩, onEloop, setActive_server, if_pos hl, setActive_eloop] at hstep
    have hnone := Option.map_eq_none_iff.mp hstep
    rw [Eloop.step, if_pos ⟨hpc, fun _ => Nat.pos_of_ne_zero hne⟩] at hnone
    cases hnone
  | notLooping =>
    have hnone := settled_eloop hset (a := .storeLooping) hl rfl ⟨hfree, hact⟩
    rw [Eloop.step, if_pos ⟨hpc, hrest⟩] at hnone
    cases hnone
  | entering =>
    have hnone := settled_eloop hset (a := .clearQuit) hl rfl ⟨hfree, hact⟩
    rw [Eloop.step, if_pos hpc] at hnone
    cases hnone
  | testing =>
    have hnone := settled_eloop hset (a := .loadQuit) hl rfl ⟨hfree, hact⟩
    rw [Eloop.step, if_pos hpc] at hnone
    cases hnone
  | handling woken =>
    cases woken with
    | true =>
      have hnone := settled_eloop hset (a := .handleRead) hl rfl hfree
      rw [Eloop.step, if_pos ⟨hpc, hrest⟩] at hnone
      cases hnone
    | false =>
      have hnone := settled_eloop hset (a := .endEvents) hl rfl ⟨hfree, hact⟩
      rw [Eloop.step, if_pos ⟨hpc, hrest⟩] at hnone
      cases hnone
  | calling =>
    have hnone := settled_eloop hset (a := .storeCalling) hl rfl ⟨hfree, hact⟩
    rw [Eloop.step, if_pos hpc] at hnone
    cases hnone
  | swapping =>
    have hnone := settled_eloop hset (a := .swap) hl rfl ⟨hfree, hact⟩
    rw [Eloop.step, if_pos hpc] at hnone
    cases hnone
  | running rest =>
    cases rest with
    | nil =>
      have hnone := settled_eloop hset (a := .clearCalling) hl rfl ⟨hfree, hact⟩
      rw [Eloop.step, if_pos hpc] at hnone
      cases hnone
    | cons f rest =>
      have hstep := hset (.call l f) rfl
      rw [step, if_pos hfree.1, onEloop, resume, setAgenda_server, setServer_server, body_numThreads, if_pos hl,
        setAgenda_eloop] at hstep
      have hnone := Option.map_eq_none_iff.mp hstep
      rw [setServer_loops, Eloop.step, hpc] at hnone
      cases (if_pos rfl).symm.trans hnone
  | inFunctor rest =>
    have hnone := settled_eloop hset (a := .endCall) hl rfl ⟨hfree, hact⟩
    rw [Eloop.step, hpc] at hnone
    cases (if_pos hrest).symm.trans hnone
  | leaving => exact absurd hpc hleave
  | returned => exact absurd hpc hret

theorem settled_resting (hi : h.Sound) (hg : h.Going) (hd : h.server.Dealt)
    (hwf : ∀ o < h.server.accepted, (h.server.conn o).outputBuf.Wf) : h.Resting := by
  have hagenda := fun l hl => settled_agenda hset (l := l) hi hg hd hl
  have hcallbacks := fun l hl => settled_callbacks hset hwf hi hl (hagenda l hl)
  have hactive := fun l hl => settled_active hset hl ⟨hagenda l hl, hcallbacks l hl⟩
  have hasleep := fun l hl => settled_asleep hset hg hl ⟨hagenda l hl, hcallbacks l hl⟩ (hactive l hl)
  refine ⟨hasleep, fun l hl => ?_, Multiset.eq_zero_of_forall_notMem fun x hx => ?_⟩
  · rw [Loop.handled, Loop.events, hcallbacks l hl, hactive l hl]
    rfl
  · obtain ⟨l, i⟩ := x
    obtain ⟨hl, hwork⟩ := mem_bag.mp hx
    obtain ⟨hpc, hnone⟩ := hasleep l hl
    have hidle : ∀ t, (h.loops l).eloop.calls t = .idle := by
      intro t
      by_contra hne
      have hcall := (hg.calls l t).2.mp hne
      rw [hagenda t (hg.caller_le hne)] at hcall
      cases hcall
    have hpending := (hg.awake l).asleep hpc hnone hidle
    rw [Loop.work, Loop.tasks, hagenda l hl, hpc, hpending] at hwork
    cases hwork

end Left

theorem Runs.outputBuf_wf {numThreads mark : Nat} {callbacks : Callbacks} (hr : Runs numThreads callbacks mark h) :
    ∀ o < h.server.accepted, (h.server.conn o).outputBuf.Wf := by
  intro o ho
  obtain ⟨tr, hrun, -⟩ := hr
  obtain ⟨v, ⟨c, hc, hv⟩, hf⟩ := (run_followed hrun).lives o ho
  rw [← hf.conn]
  exact (Served.run_kept hc hv).watched.wf

theorem runs_spends (numThreads mark : Nat) (callbacks : Callbacks) :
    Spends step (fun a => a.isInner = true) (Runs numThreads callbacks mark) cost := by
  refine ⟨fun h a h' ⟨tr, hr, hq⟩ ha hs => ⟨tr ++ [a], exec_snoc.mpr ⟨h, hr, hs⟩, ?_⟩,
    fun h a h' ⟨tr, hr, hq⟩ ha hs => ?_⟩
  · exact List.forall_mem_append.mpr ⟨hq, List.forall_mem_singleton.mpr (Act.not_quits ha)⟩
  · exact step_cost (run_sound hr) (run_going hr hq) hs ha

/-- Where no loop has a step left to take, the server rests. -/
theorem Runs.resting {numThreads mark : Nat} {callbacks : Callbacks} (hr : Runs numThreads callbacks mark h)
    (hset : Settled step (fun a => a.isInner = true) h) : h.Resting := by
  have hwf := hr.outputBuf_wf
  obtain ⟨tr, hrun, hq⟩ := hr
  exact settled_resting hset (run_sound hrun) (run_going hrun hq) (run_dealt hrun).2.1 hwf

/-- **A server settles.** Whatever has happened to a server that nobody has told to quit: once
nothing more comes in, its loops take no more steps than its work costs, in whatever order,
and where they can take none they all sleep with nothing left to do. No timeout is needed for
that, and no loop waits for another. -/
theorem server_settles {numThreads mark : Nat} {callbacks : Callbacks} {tr : List Act}
    (hr : exec step (create numThreads callbacks mark) tr = some h) (hq : ∀ a ∈ tr, a.quits = false) :
    (∀ more h', exec step h more = some h' → (∀ a ∈ more, a.isInner = true) →
        more.length + h'.cost ≤ h.cost ∧ (Settled step (fun a => a.isInner = true) h' → h'.Resting)) ∧
      ∃ more h', (∀ a ∈ more, a.isInner = true) ∧ exec step h more = some h' ∧ h'.Resting := by
  have hspends := runs_spends numThreads mark callbacks
  have hruns : Runs numThreads callbacks mark h := ⟨tr, hr, hq⟩
  refine ⟨fun more h' hmore hinner => ?_, ?_⟩
  · obtain ⟨hruns', hle⟩ := hspends.length_le hruns hmore hinner
    exact ⟨hle, hruns'.resting⟩
  · obtain ⟨more, h', hinner, hmore, hset⟩ := hspends.settles hruns
    exact ⟨more, h', hinner, hmore, (hspends.length_le hruns hmore hinner).1.resting hset⟩

/-- A connection that the peer hangs up: the removal is under way when the server is left alone. -/
theorem server_settles_hangUp : ∃ h, exec step (create 1 ⟨true, true, false, false, false⟩ 64)
      (established ++ hangUp.take 6) = some h ∧ (h.loops 1).agenda ≠ [] ∧
    ∃ more h', (∀ a ∈ more, a.isInner = true) ∧ exec step h more = some h' ∧ h'.Resting :=
  ⟨_, (Option.some_get (by decide +kernel)).symm, by decide +kernel,
    (server_settles (Option.some_get (by decide +kernel)).symm (by decide +kernel)).2⟩

end Host

end Caimr.Net
