import Caimr.Net.ServerConns
import Caimr.Net.Wakeup

/-! Where the threads of a server are in `queue_in_loop`, and what wakes its loops, as long as
nobody calls `quit`. A thread is in at most one such call, which its agenda begins with; and
a functor that is queued for a loop is noticed before the loop sleeps. -/
namespace Caimr.Net
open Transition

namespace Eloop
variable {F : Type}

/-- What is queued will not be slept over. -/
def Awake (l : Eloop F) : Prop := l.pendingFunctors ≠ [] → ∃ t, l.Covered t []

theorem Covered.now {l : Eloop F} {t : Tid} {b : List (Label F)} (h : l.Covered t b) : l.Covered t [] := by
  cases h with
  | counted hw => exact .counted hw
  | swapped hs => exact .swapped hs
  | onItsWay ht _ => exact .onItsWay ht List.not_mem_nil

/-- Where `loop` sleeps with every thread outside of its calls, nothing is queued. -/
theorem Awake.asleep {l : Eloop F} (hw : l.Awake) (hpc : l.pc = .polling) (hn : l.wakeups = 0)
    (hc : ∀ t, l.calls t = .idle) : l.pendingFunctors = [] := by
  by_contra hne
  obtain ⟨t, hcov⟩ := hw hne
  cases hcov with
  | counted hpos => omega
  | swapped hs =>
    rw [hpc] at hs
    cases hs
  | onItsWay ht _ =>
    have hcall := ht.call
    rw [hc t] at hcall
    rcases hcall with hcall | hcall <;> cases hcall

variable [DecidableEq F]

/-- Only the loop's own thread must not queue a functor before `loop` is entered. -/
theorem step_awake {l l' : Eloop F} {a : Label F} (inv : LoopInv l) (h : step l a = some l')
    (ha : ∀ t f, a = .emplace t f → t = l.threadId → l.pc ≠ .notLooping) (hw : l.Awake) : l'.Awake := by
  intro hne
  by_cases hswap : a = .swap
  · subst hswap
    cases step_cases h
    exact absurd rfl hne
  have hkeep : l.pendingFunctors ≠ [] → ∃ t, l'.Covered t [] := by
    intro hl
    obtain ⟨t, hcov⟩ := hw hl
    exact ⟨t, (step_covered inv h hswap hcov).now⟩
  cases ha' : a with
  | emplace t f =>
    subst ha'
    by_cases hpc : l.pc = .notLooping
    · have ht : t ≠ l.threadId := fun he => ha t f rfl he hpc
      refine ⟨t, .onItsWay ⟨.inl ?_, fun he => ?_⟩ List.not_mem_nil⟩
      · cases step_cases h
        rw [setCall_calls, if_pos rfl]
      · rw [step_threadId h] at he
        exact absurd he ht
    · exact ⟨t, emplace_covered inv h hpc⟩
  | swap => exact absurd ha' hswap
  | _ =>
    subst ha'
    refine hkeep ?_
    cases step_cases h <;> exact hne

end Eloop

/-! ### Agendas -/

/-- The loop whose `queue_in_loop` the agenda begins with. -/
def callee : List Instr → Option LoopId
  | .endQueue k :: _ => some k
  | _ => none

/-- No call under way. -/
def Uncalled (is : List Instr) : Prop := ∀ k, .endQueue k ∉ is

theorem Uncalled.append {a b : List Instr} (ha : Uncalled a) (hb : Uncalled b) : Uncalled (a ++ b) := fun k hk =>
  (List.mem_append.mp hk).elim (ha k) (hb k)

theorem Uncalled.callee {is : List Instr} (h : Uncalled is) : callee is = none := by
  unfold Net.callee
  split
  · exact absurd List.mem_cons_self (h _)
  · rfl

theorem uncalled_cons {i : Instr} {is : List Instr} (hi : ∀ k, i ≠ .endQueue k) (h : Uncalled is) :
    Uncalled (i :: is) := fun k hk => (List.mem_cons.mp hk).elim (fun he => hi k he.symm) (h k)

theorem uncalled_instrs (l : LoopId) (o : ConnNo) (es : List Effect) : Uncalled (es.flatMap (Effect.instrs l o)) := by
  intro k hk
  obtain ⟨e, -, he⟩ := List.mem_flatMap.mp hk
  cases e <;> simp [Effect.instrs] at he

theorem uncalled_runInLoop (l k : LoopId) (f : Functor) : Uncalled [runInLoop l k f] := by
  unfold runInLoop
  split <;> exact uncalled_cons (by simp) (fun _ => List.not_mem_nil)

namespace TcpServer
variable {s : TcpServer} {l : LoopId} {o : ConnNo} {x : TcpServer × List Instr}

theorem uncalled_settle (s : TcpServer) (o : ConnNo) (r : TcpConn × List Effect) : Uncalled (s.settle o r).2 :=
  uncalled_instrs _ _ _

theorem uncalled_settle? {r : Except Fault (TcpConn × List Effect)} (h : s.settle? o r = some x) : Uncalled x.2 := by
  unfold settle? at h
  split at h <;> cases h
  exact uncalled_settle _ _ _

theorem uncalled_newConn (h : s.newConn = some x) : Uncalled x.2 := by
  simp only [newConn] at h
  split at h <;> cases h
  exact uncalled_runInLoop _ _ _

theorem uncalled_handle {r : ReadResult} {w : WriteResult} {cb : Chan.Callback} (h : s.handle o r w cb = some x) :
    Uncalled x.2 := by
  cases cb with
  | close =>
    cases h
    exact uncalled_settle _ _ _
  | error =>
    cases h
    exact fun _ => List.not_mem_nil
  | read => exact uncalled_settle? h
  | write =>
    simp only [handle] at h
    split at h <;> cases h
    refine (uncalled_settle _ _ _).append ?_
    split
    · exact uncalled_cons (by simp) fun _ => List.not_mem_nil
    · exact fun _ => List.not_mem_nil

theorem uncalled_body (s : TcpServer) (f : Functor) : Uncalled ((s.body f).2 ++ [.running f]) := by
  refine Uncalled.append ?_ (uncalled_cons (by simp) fun _ => List.not_mem_nil)
  cases f with
  | establishConn | destroyConn => exact uncalled_settle _ _ _
  | removeConnInLoop | writeComplete | highWaterMark => exact uncalled_cons (by simp) fun _ => List.not_mem_nil

theorem uncalled_exec {i : Instr} (h : s.exec l i = some x) : Uncalled x.2 := by
  cases i with
  | connCallback =>
    cases h
    exact uncalled_cons (by simp) fun _ => List.not_mem_nil
  | closeCallback =>
    cases h
    exact uncalled_runInLoop _ _ _
  | finishWrite | removeChan =>
    cases h
    exact uncalled_settle _ _ _
  | run f =>
    cases h
    exact uncalled_body s f
  | running =>
    cases h
    exact fun _ => List.not_mem_nil
  | userCode | queue | endQueue => cases h

end TcpServer

namespace Host
variable {h h' : Host} {l : LoopId} {a : Act}

/-! ### While nobody quits -/

/-- The step calls `quit`. -/
def Act.quits : Act → Bool
  | .eloop _ (.storeQuit _) => true
  | _ => false

/-- The thread of `l` runs code that may call other loops. -/
def Works (h : Host) (l : LoopId) : Prop :=
  (h.loops l).eloop.pc.inUserCode = true ∧ (h.loops l).eloop.pc ≠ .notLooping

structure Going (h : Host) : Prop where
  thread : ∀ l, (h.loops l).eloop.threadId = l
  inv : ∀ l, (h.loops l).eloop.LoopInv
  awake : ∀ l, (h.loops l).eloop.Awake
  goesOn : ∀ l, (h.loops l).eloop.quit = false ∧ (h.loops l).eloop.pc ≠ .leaving ∧ (h.loops l).eloop.pc ≠ .returned
  calls : ∀ k l, (h.loops k).eloop.calls l ≠ .quitting ∧
    ((h.loops k).eloop.calls l ≠ .idle ↔ callee (h.loops l).agenda = some k)
  /-- No second call behind the one under way. -/
  once : ∀ l, Uncalled (h.loops l).agenda.tail
  few : ∀ l, h.server.numThreads < l → (h.loops l).agenda = []
  aimed : ∀ l k, callee (h.loops l).agenda = some k → k ≤ h.server.numThreads
  works : ∀ l, (h.loops l).agenda ≠ [] → h.Works l

theorem create_going (numThreads : Nat) (callbacks : Callbacks) (mark : Nat) :
    (create numThreads callbacks mark).Going :=
  { thread := fun _ => rfl
    inv := fun l => Eloop.create_loopInv l
    awake := fun _ hne => absurd rfl hne
    goesOn := fun _ => ⟨rfl, nofun, nofun⟩
    calls := fun _ _ => ⟨nofun, fun hne => absurd rfl hne, nofun⟩
    once := fun _ _ => List.not_mem_nil
    few := fun _ _ => rfl
    aimed := nofun
    works := fun _ hne => absurd rfl hne }

/-- One thread goes on with another agenda, and no call begins or ends. -/
theorem Going.next (hg : h.Going) (hn : h'.server.numThreads = h.server.numThreads) (hl : l ≤ h.server.numThreads)
    (heloop : ∀ k, (h'.loops k).eloop = (h.loops k).eloop)
    (hother : ∀ k ≠ l, (h'.loops k).agenda = (h.loops k).agenda)
    (hbefore : callee (h.loops l).agenda = none) (hafter : Uncalled (h'.loops l).agenda) (hw : h.Works l) :
    h'.Going := by
  have hcallee : ∀ k, callee (h'.loops k).agenda = callee (h.loops k).agenda := by
    intro k
    by_cases hk : k = l
    · rw [hk, hbefore, hafter.callee]
    · rw [hother k hk]
  have hworks : ∀ k, h.Works k → h'.Works k := fun k hk => by
    rw [Works, heloop k]
    exact hk
  refine ⟨fun k => ?_, fun k => ?_, fun k => ?_, fun k => ?_, fun k j => ?_, fun k => ?_, fun k hk => ?_,
    fun k j hkj => ?_, fun k hk => ?_⟩
  · rw [heloop]
    exact hg.thread k
  · rw [heloop]
    exact hg.inv k
  · rw [heloop]
    exact hg.awake k
  · rw [heloop]
    exact hg.goesOn k
  · rw [heloop, hcallee]
    exact hg.calls k j
  · by_cases hkl : k = l
    · subst hkl
      exact fun j hj => hafter j (List.mem_of_mem_tail hj)
    · rw [hother k hkl]
      exact hg.once k
  · rw [hn] at hk
    rw [hother k (Nat.ne_of_gt (hl.trans_lt hk))]
    exact hg.few k hk
  · rw [hn]
    rw [hcallee] at hkj
    exact hg.aimed k j hkj
  · by_cases hkl : k = l
    · rw [hkl]
      exact hworks l hw
    · rw [hother k hkl] at hk
      exact hworks k (hg.works k hk)

/-- The head of an agenda that is no call gives way to what it leaves. -/
theorem Going.resumes (hg : h.Going) {rest : List Instr} {x : TcpServer × List Instr}
    (hn : x.1.numThreads = h.server.numThreads) (hl : l ≤ h.server.numThreads)
    (hbefore : callee (h.loops l).agenda = none) (hx : Uncalled x.2) (hrest : Uncalled rest) (hw : h.Works l) :
    (h.resume l rest x).Going := by
  obtain ⟨hserver, hag⟩ : h.Resumes (h.resume l rest x) l rest x := resumes_resume
  refine hg.next (by rw [hserver, hn]) hl (fun k => by rw [resume, setAgenda_eloop]; rfl)
    (fun k hk => by rw [hag, if_neg hk]) hbefore ?_ hw
  rw [hag, if_pos rfl]
  exact hx.append hrest

theorem setCallbacks_eloop (h : Host) (l k : LoopId) (callbacks : List (ConnNo × Chan.Callback)) :
    ((h.setCallbacks l callbacks).loops k).eloop = (h.loops k).eloop := by
  rw [setCallbacks_loops]
  split
  · rename_i hk
    rw [hk]
  · rfl

/-- An agenda changes, and an eloop. -/
theorem setEloop_eloop (h : Host) (l k j : LoopId) (is : List Instr) (e : Eloop Functor) :
    (((h.setAgenda l is).setEloop k e).loops j).eloop = if j = k then e else (h.loops j).eloop := by
  rw [setEloop_loops]
  split
  · rfl
  · exact setAgenda_eloop ..

/-- What holds of every eloop still does, where one changes. -/
theorem eloops_place {Q : LoopId → Eloop Functor → Prop} {e : Eloop Functor}
    (heloop : ∀ j, (h'.loops j).eloop = if j = l then e else (h.loops j).eloop)
    (hQ : ∀ j, Q j (h.loops j).eloop) (he : Q l e) (j : LoopId) : Q j (h'.loops j).eloop := by
  rw [heloop]
  split
  · rename_i hj
    rw [hj]
    exact he
  · exact hQ j

/-- A step of an eloop that is none of a call's beginning and end. -/
theorem Going.eloop (hg : h.Going) {a : Eloop.Label Functor} {e : Eloop Functor}
    (he : (h.loops l).eloop.step a = some e) (hq : ∀ t, a ≠ .storeQuit t)
    (hc : ∀ t, a ≠ .endQueue t ∧ ∀ f, a ≠ .emplace t f) (hw : (h.loops l).agenda ≠ [] → e.pc = (h.loops l).eloop.pc) :
    (h.setEloop l e).Going := by
  obtain ⟨hquit, hleave, hret⟩ := hg.goesOn l
  have hgoes : e.quit = false ∧ e.pc ≠ .leaving ∧ e.pc ≠ .returned := by
    cases Eloop.step_cases he with
    | quits _ hq' => exact absurd (hquit.symm.trans hq') nofun
    | leave hpc => exact absurd hpc hleave
    | storeQuit t => exact absurd rfl (hq t)
    | mustWake | needNotWake | wakeup | endQueue | wakeupQuit | emplace => exact ⟨hquit, hleave, hret⟩
    | clearQuit => exact ⟨rfl, nofun, nofun⟩
    | storeLooping | goesOn | pollReturns | handleRead | endEvents | storeCalling | swap | call | endCall
    | clearCalling => exact ⟨hquit, nofun, nofun⟩
  have hcalls : ∀ t, e.calls t ≠ .quitting ∧ (e.calls t ≠ .idle ↔ (h.loops l).eloop.calls t ≠ .idle) := by
    intro t
    have hold := (hg.calls l t).1
    have hset : ∀ {q : Eloop Functor} {u : Tid} {c : CallPc}, q.calls = (h.loops l).eloop.calls →
        (h.loops l).eloop.calls u ≠ .idle → c ≠ .quitting → c ≠ .idle →
        (q.setCall u c).calls t ≠ .quitting ∧
          ((q.setCall u c).calls t ≠ .idle ↔ (h.loops l).eloop.calls t ≠ .idle) := by
      intro q u c hq hu hc hc'
      rw [Eloop.setCall_calls, hq]
      split
      · rename_i htu
        subst htu
        exact ⟨hc, fun _ => hu, fun _ => hc'⟩
      · exact ⟨hold, Iff.rfl⟩
    cases Eloop.step_cases he with
    | emplace u f => exact absurd rfl ((hc u).2 f)
    | endQueue u => exact absurd rfl (hc u).1
    | storeQuit u => exact absurd rfl (hq u)
    | wakeupQuit u hu => exact absurd hu (hg.calls l u).1
    | mustWake u hu | needNotWake u hu | wakeup u hu => exact hset rfl (by rw [hu]; nofun) nofun nofun
    | _ => exact ⟨hold, Iff.rfl⟩
  have hat : ∀ {Q : LoopId → Eloop Functor → Prop}, (∀ k, Q k (h.loops k).eloop) → Q l e →
      ∀ k, Q k ((h.setEloop l e).loops k).eloop := by
    refine eloops_place fun k => ?_
    rw [setEloop_loops]
    split <;> rfl
  refine ⟨hat (Q := fun k e => e.threadId = k) hg.thread ((Eloop.step_threadId he).trans (hg.thread l)),
    hat (Q := fun _ e => e.LoopInv) hg.inv (Eloop.step_loopInv (hg.inv l) he),
    hat (Q := fun _ e => e.Awake) hg.awake ?_,
    hat (Q := fun _ e => e.quit = false ∧ e.pc ≠ .leaving ∧ e.pc ≠ .returned) hg.goesOn hgoes, fun k j => ?_,
    fun k => ?_, fun k hk => ?_, fun k j hkj => ?_, fun k hk => ?_⟩
  · exact Eloop.step_awake (hg.inv l) he (fun t f hf => absurd hf ((hc t).2 f)) (hg.awake l)
  · rw [setEloop_agenda]
    refine hat (Q := fun k e => e.calls j ≠ .quitting ∧ (e.calls j ≠ .idle ↔ callee (h.loops j).agenda = some k))
      (fun k => hg.calls k j) ?_ k
    exact ⟨(hcalls j).1, (hcalls j).2.trans (hg.calls l j).2⟩
  · rw [setEloop_agenda]
    exact hg.once k
  · rw [setEloop_agenda]
    exact hg.few k hk
  · rw [setEloop_agenda] at hkj
    exact hg.aimed k j hkj
  · rw [setEloop_agenda] at hk
    have hold := hg.works k hk
    rw [Works, setEloop_loops]
    split
    · rename_i hkl
      subst hkl
      rw [Works, ← hw hk] at hold
      exact hold
    · exact hold

/-- What neither a thread nor an agenda shows. -/
theorem Going.congr (hg : h.Going) (hn : h'.server.numThreads = h.server.numThreads)
    (heloop : ∀ k, (h'.loops k).eloop = (h.loops k).eloop) (hag : ∀ k, (h'.loops k).agenda = (h.loops k).agenda) :
    h'.Going := by
  refine ⟨fun k => ?_, fun k => ?_, fun k => ?_, fun k => ?_, fun k j => ?_, fun k => ?_, fun k hk => ?_,
    fun k j hkj => ?_, fun k hk => ?_⟩
  · rw [heloop]
    exact hg.thread k
  · rw [heloop]
    exact hg.inv k
  · rw [heloop]
    exact hg.awake k
  · rw [heloop]
    exact hg.goesOn k
  · rw [heloop, hag]
    exact hg.calls k j
  · rw [hag]
    exact hg.once k
  · rw [hag]
    exact hg.few k (hn ▸ hk)
  · rw [hag] at hkj
    exact hn ▸ hg.aimed k j hkj
  · rw [hag] at hk
    rw [Works, heloop]
    exact hg.works k hk

/-- A call of `queue_in_loop` of `k` begins or ends on the thread of `l`. -/
theorem Going.turns (hg : h.Going) {k : LoopId} {e : Eloop Functor} {a : Eloop.Label Functor} (c : CallPc)
    (is : List Instr) (hn : h'.server.numThreads = h.server.numThreads) (hl : l ≤ h.server.numThreads)
    (hk : k ≤ h.server.numThreads) (he : (h.loops k).eloop.step a = some e)
    (ha : ∀ t f, a = .emplace t f → t = l) (hw : h.Works l)
    (heloop : ∀ j, (h'.loops j).eloop = if j = k then e else (h.loops j).eloop)
    (hag : ∀ j, (h'.loops j).agenda = if j = l then is else (h.loops j).agenda)
    (hsame : e.quit = (h.loops k).eloop.quit ∧ e.pc = (h.loops k).eloop.pc)
    (hcalls : ∀ t, e.calls t = if t = l then c else (h.loops k).eloop.calls t) (hc : c ≠ .quitting)
    (hidle : ∀ j ≠ k, (h.loops j).eloop.calls l = .idle)
    (hcallee : ∀ j, callee is = some j ↔ c ≠ .idle ∧ j = k) (honce : Uncalled is.tail) : h'.Going := by
  have hat : ∀ {Q : LoopId → Eloop Functor → Prop}, (∀ j, Q j (h.loops j).eloop) → Q k e →
      ∀ j, Q j (h'.loops j).eloop := eloops_place heloop
  have hpc : ∀ j, (h'.loops j).eloop.pc = (h.loops j).eloop.pc :=
    fun j => hat (Q := fun j e => e.pc = (h.loops j).eloop.pc) (fun _ => rfl) hsame.2 j
  refine ⟨hat (Q := fun j e => e.threadId = j) hg.thread ((Eloop.step_threadId he).trans (hg.thread k)),
    hat (Q := fun _ e => e.LoopInv) hg.inv (Eloop.step_loopInv (hg.inv k) he),
    hat (Q := fun _ e => e.Awake) hg.awake (Eloop.step_awake (hg.inv k) he (fun t f hf ht => ?_) (hg.awake k)),
    hat (Q := fun _ e => e.quit = false ∧ e.pc ≠ .leaving ∧ e.pc ≠ .returned) hg.goesOn ?_, fun j m => ?_,
    fun j => ?_, fun j hj => ?_, fun j m hjm => ?_, fun j hj => ?_⟩
  · -- The loop's own thread queues a functor only in user code.
    rw [ha t f hf, hg.thread] at ht
    rw [← ht]
    exact hw.2
  · rw [hsame.1, hsame.2]
    exact hg.goesOn k
  · rw [heloop, hag]
    by_cases hm : m = l
    · subst hm
      rw [if_pos rfl, hcallee]
      by_cases hj : j = k
      · rw [if_pos hj, hcalls, if_pos rfl]
        exact ⟨hc, fun hne => ⟨hne, hj⟩, And.left⟩
      · rw [if_neg hj, hidle j hj]
        exact ⟨nofun, fun hne => absurd rfl hne, fun hjk => absurd hjk.2 hj⟩
    · rw [if_neg hm]
      by_cases hj : j = k
      · rw [if_pos hj, hcalls, if_neg hm, hj]
        exact hg.calls k m
      · rw [if_neg hj]
        exact hg.calls j m
  · rw [hag]
    split
    · exact honce
    · exact hg.once j
  · rw [hn] at hj
    rw [hag, if_neg (Nat.ne_of_gt (hl.trans_lt hj))]
    exact hg.few j hj
  · rw [hn]
    rw [hag] at hjm
    split at hjm
    · rw [((hcallee m).mp hjm).2]
      exact hk
    · exact hg.aimed j m hjm
  · rw [hag] at hj
    rw [Works, hpc]
    split at hj
    · rename_i hjl
      subst hjl
      exact hw
    · exact hg.works j hj

/-- Handling events is user code. -/
theorem works_handling (h : Host) (hp : (h.loops l).eloop.pc.isHandling = true) : h.Works l := by
  unfold Works
  cases hpc : (h.loops l).eloop.pc with
  | handling woken => exact ⟨rfl, nofun⟩
  | _ =>
    rw [hpc] at hp
    cases hp

/-- The agenda goes on behind its head. -/
theorem Going.rest (hg : h.Going) {i : Instr} {rest : List Instr} (ha : (h.loops l).agenda = i :: rest) :
    Uncalled rest ∧ h.Works l := by
  have hrest := hg.once l
  rw [ha] at hrest
  exact ⟨hrest, hg.works l (by rw [ha]; exact List.cons_ne_nil _ _)⟩

/-- A step of an eloop by itself. -/
theorem Going.step_eloop (hg : h.Going) {a : Eloop.Label Functor} {e : Eloop Functor} (hal : (h.loops l).Allows a)
    (he : (h.loops l).eloop.step a = some e) (hq : ∀ t, a ≠ .storeQuit t) : (h.setEloop l e).Going := by
  refine hg.eloop he hq (fun t => ⟨fun ht => ?_, fun f hf => ?_⟩) fun hne => ?_
  · rw [ht] at hal
    exact hal
  · rw [hf] at hal
    exact hal
  · have hfree : ¬ (h.loops l).Free := fun hf => hne hf.1
    cases Eloop.step_cases he with
    | mustWake | needNotWake | wakeup | storeQuit | wakeupQuit => rfl
    | emplace | endQueue | call | pollReturns => exact hal.elim
    | handleRead => exact absurd hal hfree
    | _ => exact absurd hal.1 hfree

/-- A functor is taken from the batch. -/
theorem Going.step_call (hg : h.Going) {f : Functor} {e : Eloop Functor} {x : TcpServer × List Instr}
    (hn : x.1.numThreads = h.server.numThreads) (hx : Uncalled x.2) (ha : (h.loops l).agenda = [])
    (hl : l ≤ h.server.numThreads) (he : (h.loops l).eloop.step (.call f) = some e) :
    ((h.resume l [] x).setEloop l e).Going := by
  have hcalled : (h.setEloop l e).Going := hg.eloop he (by simp) (by simp) (absurd ha)
  have hempty : ((h.setEloop l e).loops l).agenda = [] := by rw [setEloop_agenda, ha]
  refine hcalled.next hn hl (fun k => ?_) (fun k hk => ?_) (by rw [hempty]; rfl) ?_ ?_
  · rw [setEloop_loops, setEloop_loops]
    split
    · rfl
    · exact setAgenda_eloop ..
  · rw [setEloop_agenda, setEloop_agenda, resume, setAgenda_agenda, if_neg hk]
    rfl
  · rw [setEloop_agenda, resume, setAgenda_agenda, if_pos rfl, List.append_nil]
    exact hx
  · rw [Works, setEloop_loops, if_pos rfl]
    cases Eloop.step_cases he with
    | call => exact ⟨rfl, by simp⟩

/-- A thread pushes a functor: its call of `queue_in_loop` begins. -/
theorem Going.step_queue (hg : h.Going) {s : TcpServer} {k : LoopId} {f : Functor} {rest : List Instr}
    {e : Eloop Functor} (hn : s.numThreads = h.server.numThreads) (ha : (h.loops l).agenda = .queue k f :: rest)
    (hl : l ≤ h.server.numThreads) (hk : k ≤ h.server.numThreads)
    (he : (h.loops k).eloop.step (.emplace l f) = some e) :
    ((h.resume l rest (s, [.endQueue k])).setEloop k e).Going := by
  obtain ⟨hrest, hw⟩ := hg.rest ha
  have hcallee : callee (h.loops l).agenda = none := by rw [ha]; rfl
  have hidle : ∀ j, (h.loops j).eloop.calls l = .idle := by
    intro j
    by_contra hne
    have hcall := (hg.calls j l).2.mp hne
    rw [hcallee] at hcall
    cases hcall
  cases Eloop.step_cases he
  refine hg.turns .queued (.endQueue k :: rest) hn hl hk he (fun t g hg => ?_) hw (fun j => ?_) (fun j => ?_)
    ⟨rfl, rfl⟩ (fun t => Eloop.setCall_calls _ _ _ _) (by decide) (fun j _ => hidle j) (fun j => ?_) hrest
  · cases hg
    rfl
  · exact setEloop_eloop ..
  · rw [setEloop_agenda]
    exact setAgenda_agenda ..
  · exact ⟨fun hj => ⟨by decide, (Option.some.inj hj).symm⟩, fun hj => by rw [hj.2]; rfl⟩

/-- Its call of `queue_in_loop` returns. -/
theorem Going.step_endQueue (hg : h.Going) {k : LoopId} {rest : List Instr} {e : Eloop Functor}
    (ha : (h.loops l).agenda = .endQueue k :: rest) (hl : l ≤ h.server.numThreads) (hk : k ≤ h.server.numThreads)
    (he : (h.loops k).eloop.step (.endQueue l) = some e) : ((h.setAgenda l rest).setEloop k e).Going := by
  obtain ⟨hrest, hw⟩ := hg.rest ha
  cases Eloop.step_cases he
  refine hg.turns .idle rest rfl hl hk he (by simp) hw (fun j => ?_) (fun j => ?_) ⟨rfl, rfl⟩
    (fun t => Eloop.setCall_calls _ _ _ _) (by decide) (fun j hj => ?_) (fun j => ?_) fun j hj =>
      hrest j (List.mem_of_mem_tail hj)
  · exact setEloop_eloop ..
  · rw [setEloop_agenda]
    exact setAgenda_agenda ..
  · by_contra hne
    have hcall := (hg.calls j l).2.mp hne
    rw [ha] at hcall
    exact hj (Option.some.inj hcall).symm
  · rw [hrest.callee]
    exact ⟨by simp, fun hj => absurd rfl hj.1⟩

theorem step_going (hi : h.Sound) (hg : h.Going) (hs : h.step a = some h') (hq : a.quits = false) : h'.Going := by
  have hstep := step_cases hs
  obtain ⟨done, made, -, hd⟩ := step_did hi hstep
  have hn : h'.server.numThreads = h.server.numThreads := hd.numThreads
  cases hstep with
  | eloop l a e hal hl he =>
    refine hg.step_eloop hal he fun t ht => ?_
    rw [ht] at hq
    cases hq
  | poll l woken active e hfree hrep hl he =>
    have hactive : (h.setActive l active).Going :=
      hg.congr rfl (fun k => setActive_eloop h l k active) fun k => setActive_agenda h l k active
    have hempty : ((h.setActive l active).loops l).agenda = [] := by
      rw [setActive_agenda]
      exact hfree.1
    exact hactive.eloop (a := .pollReturns woken) (by rw [setActive_eloop]; exact he) (by simp) (by simp)
      (absurd hempty)
  | dispatch l o revents rest ha hl hfree =>
    refine hg.congr rfl (fun k => ?_) fun k => ?_
    · rw [setCallbacks_eloop, setActive_eloop]
    · rw [setCallbacks_agenda, setActive_agenda]
  | callback l r w o cb rest x hc hl ha hx =>
    have hcalled : (h.setCallbacks l rest).Going :=
      hg.congr rfl (fun k => setCallbacks_eloop h l k rest) fun k => setCallbacks_agenda h l k rest
    have hhandling : (h.loops l).eloop.pc.isHandling = true :=
      (hi.shape l).handling (List.ne_nil_of_mem (Loop.mem_handled hc))
    refine hcalled.resumes hn hl ?_ (TcpServer.uncalled_handle hx) (fun _ => List.not_mem_nil) (works_handling _ ?_)
    · rw [setCallbacks_agenda, ha]
      rfl
    · rw [setCallbacks_eloop]
      exact hhandling
  | accept x hpc hfree hx =>
    refine hg.resumes hn (Nat.zero_le _) ?_ (TcpServer.uncalled_newConn hx) (fun _ => List.not_mem_nil)
      (works_handling _ hpc)
    rw [hfree.1]
    rfl
  | call l f e ha hl he => exact hg.step_call hn (TcpServer.uncalled_body h.server f) ha hl he
  | exec l i rest x ha hl hx =>
    obtain ⟨hrest, hw⟩ := hg.rest ha
    refine hg.resumes hn hl ?_ (TcpServer.uncalled_exec hx) hrest hw
    rw [ha]
    cases i <;> first | rfl | cases hx
  | queue l k f rest e ha hl hk he => exact hg.step_queue hn ha hl hk he
  | endQueue l k rest e ha hl hk he => exact hg.step_endQueue ha hl hk he
  | send l data w o rest x ha hl hx =>
    obtain ⟨hrest, hw⟩ := hg.rest ha
    refine hg.resumes hn hl ?_ (TcpServer.uncalled_settle? hx) (uncalled_cons (by simp) hrest) hw
    rw [ha]
    rfl
  | shutdown l o rest ha hl =>
    obtain ⟨hrest, hw⟩ := hg.rest ha
    refine hg.resumes hn hl ?_ (TcpServer.uncalled_settle _ _ _) (uncalled_cons (by simp) hrest) hw
    rw [ha]
    rfl
  | endUserCode l o rest ha hl =>
    obtain ⟨hrest, hw⟩ := hg.rest ha
    refine hg.resumes (x := (h.server, [])) rfl hl ?_ (fun _ => List.not_mem_nil) hrest hw
    rw [ha]
    rfl

theorem run_going {numThreads mark : Nat} {callbacks : Callbacks} {tr : List Act}
    (hr : exec step (create numThreads callbacks mark) tr = some h) (hq : ∀ a ∈ tr, a.quits = false) : h.Going := by
  refine run_induction (fun tr h => (∀ a ∈ tr, a.quits = false) → h.Going) (fun _ => create_going ..) ?_ hr hq
  intro tr h a h' hr ih hs hq
  have hall := List.forall_mem_append.mp hq
  exact step_going (run_sound hr) (ih hall.1) hs (hall.2 a (List.mem_singleton_self a))

end Host

end Caimr.Net
