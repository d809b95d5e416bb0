import Caimr.Net.Threads

/-! Every function of a connection runs on the thread of its loop, and only the main loop's
thread touches `conns_`. What has to be shown is that each functor is on the queue it
belongs to, and that each thread has nothing to do but what it may. -/
namespace Caimr.Net
open Transition

namespace Threads

/-! ### What belongs where -/

/-- The functor belongs on the queue of `l`. -/
def Fits (s : Threads) (l : LoopId) : Job → Prop
  | .establishConn o | .destroyConn o | .sendInLoop o _ | .shutdownInLoop o => o < s.accepted ∧ (s.conn o).loop = l
  | .removeConnInLoop o => o < s.accepted ∧ l = 0
  | .callback _ => True
  | .listen => l = 0

/-- The thread `t` may have this to do. -/
def Allowed (s : Threads) (t : Tid) : Instr → Prop
  | .call j => ∃ l, s.threadOf l = some t ∧ s.Fits l j
  | .runInLoop l j | .queueInLoop l j => s.Fits l j
  | .handle o _ | .finishWrite o | .removeChan o => o < s.accepted ∧ s.threadOf (s.conn o).loop = some t
  | .closeCallback o | .send o _ | .shutdown o => o < s.accepted
  | .accept => s.threadOf 0 = some t
  | .destroyEntry o => o < s.accepted ∧ s.threadOf 0 = some t
  | .doPendingFunctors l | .loop l => s.threadOf l = some t
  | .userCode | .startLoop | .awaitLoop _ | .threadFunc | .publish _ => True

/-- The access is on the right thread. -/
def Proper (s : Threads) : Tid × Access → Prop
  | (t, .call o _) => o < s.accepted ∧ s.threadOf (s.conn o).loop = some t
  | (t, .conns) | (t, .nextConnId) => s.threadOf 0 = some t

/-- The connections keep their loops, and the loops their threads. -/
structure Extends (s s' : Threads) : Prop where
  accepted : s.accepted ≤ s'.accepted
  loop : ∀ o < s.accepted, (s'.conn o).loop = (s.conn o).loop
  threadOf : ∀ l t, s.threadOf l = some t → s'.threadOf l = some t

section Extends
variable {s s' s'' : Threads}

theorem Extends.refl (s : Threads) : s.Extends s := ⟨Nat.le_refl _, fun _ _ => rfl, fun _ _ h => h⟩

theorem Extends.trans (h : s.Extends s') (h' : s'.Extends s'') : s.Extends s'' :=
  ⟨Nat.le_trans h.accepted h'.accepted, fun o ho => (h'.loop o (Nat.lt_of_lt_of_le ho h.accepted)).trans (h.loop o ho),
    fun l t hl => h'.threadOf l t (h.threadOf l t hl)⟩

/-- A connection stays on its loop, and that on its thread. -/
theorem Extends.owner (h : s.Extends s') {o : ConnNo} {t : Tid}
    (ho : o < s.accepted ∧ s.threadOf (s.conn o).loop = some t) :
    o < s'.accepted ∧ s'.threadOf (s'.conn o).loop = some t := by
  refine ⟨Nat.lt_of_lt_of_le ho.1 h.accepted, ?_⟩
  rw [h.loop o ho.1]
  exact h.threadOf _ _ ho.2

theorem Extends.fits (h : s.Extends s') {l : LoopId} {j : Job} (hj : s.Fits l j) : s'.Fits l j := by
  cases j with
  | establishConn o | destroyConn o | sendInLoop o data | shutdownInLoop o =>
    exact ⟨Nat.lt_of_lt_of_le hj.1 h.accepted, (h.loop o hj.1).trans hj.2⟩
  | removeConnInLoop o => exact ⟨Nat.lt_of_lt_of_le hj.1 h.accepted, hj.2⟩
  | callback | listen => exact hj

theorem Extends.allowed (h : s.Extends s') {t : Tid} {i : Instr} (hi : s.Allowed t i) : s'.Allowed t i := by
  cases i with
  | call j =>
    obtain ⟨l, hl, hj⟩ := hi
    exact ⟨l, h.threadOf l t hl, h.fits hj⟩
  | runInLoop l j | queueInLoop l j => exact h.fits hi
  | handle o cb | finishWrite o | removeChan o => exact h.owner hi
  | closeCallback o | send o data | shutdown o => exact Nat.lt_of_lt_of_le hi h.accepted
  | destroyEntry o => exact ⟨Nat.lt_of_lt_of_le hi.1 h.accepted, h.threadOf _ _ hi.2⟩
  | accept | doPendingFunctors | loop => exact h.threadOf _ _ hi
  | userCode | startLoop | awaitLoop | threadFunc | publish => trivial

theorem Extends.proper (h : s.Extends s') {e : Tid × Access} (he : s.Proper e) : s'.Proper e := by
  obtain ⟨t, a⟩ := e
  cases a with
  | call o f => exact h.owner he
  | conns | nextConnId => exact h.threadOf _ _ he

end Extends

/-! ### What holds between the steps -/

/-- All but what the threads have still to do. -/
structure Placed (s : Threads) : Prop where
  entries : ∀ e ∈ s.conns, e.2 < s.accepted
  looping : ∀ t l, s.looping t = some l → s.threadOf l = some t
  queues : ∀ l, ∀ j ∈ s.pending l, s.Fits l j
  log : ∀ e ∈ s.log, s.Proper e

structure Inv (s : Threads) : Prop where
  placed : s.Placed
  agenda : ∀ t, ∀ i ∈ s.agenda t, s.Allowed t i

section Parts
variable {s : Threads}

/-- Nothing else matters to what belongs where. -/
theorem extends_of_eq {s' : Threads} (hconn : s'.conn = s.conn) (hacc : s'.accepted = s.accepted)
    (hsites : s'.sites = s.sites) : s.Extends s' := by
  refine ⟨Nat.le_of_eq hacc.symm, fun o _ => by rw [hconn], fun l t h => ?_⟩
  rw [threadOf, hsites]
  exact h

theorem extends_setConn {o : ConnNo} {c : TcpConn} (hc : o < s.accepted → c.loop = (s.conn o).loop) :
    s.Extends (s.setConn o c) := by
  refine ⟨Nat.le_refl _, fun o' ho' => ?_, fun _ _ h => h⟩
  simp only [setConn, Function.update_apply]
  split
  · rename_i he
    subst he
    exact hc ho'
  · rfl

theorem Placed.setConn (hp : s.Placed) {o : ConnNo} {c : TcpConn} (hc : o < s.accepted → c.loop = (s.conn o).loop) :
    (s.setConn o c).Placed := by
  have hext := extends_setConn hc
  exact ⟨hp.entries, hp.looping, fun l j hj => hext.fits (hp.queues l j hj),
    fun e he => hext.proper (hp.log e he)⟩

theorem extends_record (t : Tid) (as : List Access) : s.Extends (s.record t as) := extends_of_eq rfl rfl rfl

theorem Placed.record (hp : s.Placed) {t : Tid} (as : List Access) (h : ∀ a ∈ as, s.Proper (t, a)) :
    (s.record t as).Placed := by
  refine ⟨hp.entries, hp.looping, hp.queues, fun e he => ?_⟩
  rcases List.mem_append.mp he with he | he
  · exact hp.log e he
  · obtain ⟨a, ha, rfl⟩ := List.mem_map.mp he
    exact h a ha

theorem threadOf_setPending (l k : LoopId) (jobs : List Job) : (s.setPending l jobs).threadOf k = s.threadOf k := by
  simp only [threadOf, setPending, List.getElem?_modify]
  cases s.sites[k]? with
  | none => rfl
  | some site => by_cases h : l = k <;> simp [h]

theorem pending_setPending {l k : LoopId} {jobs : List Job} {j : Job} (hj : j ∈ (s.setPending l jobs).pending k) :
    k = l ∧ j ∈ jobs ∨ j ∈ s.pending k := by
  simp only [pending, setPending, List.getElem?_modify] at hj
  cases hk : s.sites[k]? with
  | none => simp [hk] at hj
  | some site =>
    by_cases h : l = k
    · refine .inl ⟨h.symm, ?_⟩
      simpa [hk, h] using hj
    · apply Or.inr
      simpa [pending, hk, h] using hj

theorem extends_setPending (l : LoopId) (jobs : List Job) : s.Extends (s.setPending l jobs) := by
  refine ⟨Nat.le_refl _, fun _ _ => rfl, fun k t h => ?_⟩
  rw [threadOf_setPending]
  exact h

theorem Placed.setPending (hp : s.Placed) {l : LoopId} {jobs : List Job} (h : ∀ j ∈ jobs, s.Fits l j) :
    (s.setPending l jobs).Placed := by
  have hext := extends_setPending (s := s) l jobs
  refine ⟨hp.entries, fun t k hk => hext.threadOf _ _ (hp.looping t k hk), fun k j hj => hext.fits ?_,
    fun e he => hext.proper (hp.log e he)⟩
  rcases pending_setPending hj with ⟨rfl, hjobs⟩ | hj
  · exact h j hjobs
  · exact hp.queues k j hj

theorem Placed.push (hp : s.Placed) {l : LoopId} {j : Job} (h : s.Fits l j) : (s.push l j).Placed := by
  refine hp.setPending fun j' hj' => ?_
  rcases List.mem_append.mp hj' with hj' | hj'
  · exact hp.queues l j' hj'
  · rw [List.mem_singleton.mp hj']
    exact h

end Parts

/-! ### What one instruction does -/

/-- The thread `t` has done something, and what is left to do is allowed. -/
structure Performed (s : Threads) (t : Tid) (r : Threads × List Instr) : Prop where
  ext : s.Extends r.1
  agenda : r.1.agenda = s.agenda
  placed : r.1.Placed
  allowed : ∀ i ∈ r.2, r.1.Allowed t i

section Perform
variable {s : Threads} {t : Tid} {k : Answers} {o : ConnNo} {r : Threads × List Instr}

theorem instrs_allowed (ho : o < s.accepted ∧ s.threadOf (s.conn o).loop = some t) {e : Effect} {i : Instr}
    (hi : i ∈ instrs o (s.conn o).loop e) : s.Allowed t i := by
  cases e with
  | write | shutdownWrite => cases hi
  | queueWriteComplete | queueHighWaterMark | connCallback | msgCallback =>
    rw [List.mem_singleton.mp hi]
    trivial
  | closeCallback =>
    rw [List.mem_singleton.mp hi]
    exact ho.1
  | removeChan =>
    rw [List.mem_singleton.mp hi]
    exact ho

/-- A function of a connection that runs on its loop's thread. -/
theorem after_performed (hp : s.Placed) (ho : o < s.accepted ∧ s.threadOf (s.conn o).loop = some t) (fs : List Function)
    {x : TcpConn × List Effect} (hx : x.1.loop = (s.conn o).loop) : s.Performed t (s.after t o fs x) := by
  have hrec : (s.record t (fs.map (.call o))).Placed := by
    refine hp.record _ fun a ha => ?_
    obtain ⟨f, -, rfl⟩ := List.mem_map.mp ha
    exact ho
  have hext : s.Extends (s.after t o fs x).1 :=
    (extends_record t _).trans (extends_setConn (s := s.record t (fs.map (.call o))) fun _ => hx)
  refine ⟨hext, rfl, hrec.setConn fun _ => hx, fun i hi => ?_⟩
  obtain ⟨e, -, hi⟩ := List.mem_flatMap.mp hi
  exact hext.allowed (instrs_allowed ho hi)

theorem after?_performed (hp : s.Placed) (ho : o < s.accepted ∧ s.threadOf (s.conn o).loop = some t)
    {fs : List Function} {x : Except Fault (TcpConn × List Effect)}
    (hx : ∀ c es, x = .ok (c, es) → c.loop = (s.conn o).loop) (h : s.after? t o fs x = some r) : s.Performed t r := by
  unfold after? at h
  split at h <;> cases h
  exact after_performed hp ho fs (hx _ _ rfl)

theorem handleRead_loop {c c' : TcpConn} {read : ReadResult} {es : List Effect} (h : c.handleRead read = .ok (c', es)) :
    c'.loop = c.loop := by
  by_cases hr : read.IsEof
  · obtain ⟨b, hb⟩ := TcpConn.handleRead_eof hr h
    cases hb
    rfl
  · rw [TcpConn.handleRead_more hr h]

theorem handle_performed {cb : Chan.Callback} (hp : s.Placed)
    (ho : o < s.accepted ∧ s.threadOf (s.conn o).loop = some t) (h : s.handle t k o cb = some r) : s.Performed t r := by
  cases cb with
  | close =>
    cases h
    exact after_performed hp ho _ rfl
  | error =>
    cases h
    exact ⟨extends_record t _, rfl, hp.record _ fun a ha => List.mem_singleton.mp ha ▸ ho, nofun⟩
  | read => exact after?_performed hp ho (fun _ _ hx => handleRead_loop hx) h
  | write =>
    simp only [handle] at h
    split at h <;> cases h
    rename_i c es drained hflush
    have hloop : c.loop = (s.conn o).loop := by rw [TcpConn.flush_frame hflush]
    obtain ⟨hext, hagenda, hplaced, hallowed⟩ := after_performed hp ho [.handleWrite] (x := (c, es)) hloop
    refine ⟨hext, hagenda, hplaced, fun i hi => ?_⟩
    rcases List.mem_append.mp hi with hi | hi
    · exact hallowed i hi
    · split at hi
      · rw [List.mem_singleton.mp hi]
        exact hext.owner ho
      · cases hi

theorem call_performed {j : Job} {l : LoopId} (hp : s.Placed) (hl : s.threadOf l = some t) (hj : s.Fits l j)
    (h : s.call t k j = some r) : s.Performed t r := by
  have howner : ∀ {o}, o < s.accepted ∧ (s.conn o).loop = l → o < s.accepted ∧ s.threadOf (s.conn o).loop = some t := by
    rintro o ⟨ho, rfl⟩
    exact ⟨ho, hl⟩
  cases j with
  | establishConn o =>
    cases h
    exact after_performed hp (howner hj) _ rfl
  | destroyConn o =>
    cases h
    apply after_performed hp (howner hj) _
    unfold TcpConn.destroyConn
    split <;> rfl
  | sendInLoop o data =>
    refine after?_performed hp (howner hj) (fun c es hx => ?_) h
    rw [TcpConn.sendInLoop_frame hx]
  | shutdownInLoop o =>
    cases h
    exact after_performed hp (howner hj) _ rfl
  | removeConnInLoop o =>
    cases h
    obtain ⟨ho, rfl⟩ := hj
    have hrec := hp.record (t := t) [.conns] fun a ha => List.mem_singleton.mp ha ▸ hl
    refine ⟨extends_of_eq rfl rfl rfl, rfl, ?_, fun i hi => ?_⟩
    · exact ⟨fun e he => hrec.entries e (List.mem_filter.mp he).1, hrec.looping, hrec.queues, hrec.log⟩
    · rw [List.mem_singleton.mp hi]
      exact ⟨ho, rfl⟩
  | callback o =>
    cases h
    refine ⟨.refl s, rfl, hp, fun i hi => ?_⟩
    rw [List.mem_singleton.mp hi]
    trivial
  | listen =>
    cases h
    exact ⟨extends_of_eq rfl rfl rfl, rfl,
      ⟨hp.entries, hp.looping, hp.queues, hp.log⟩, nofun⟩

/-- A step that only leaves one thing to do. -/
theorem performed_same (hp : s.Placed) {i : Instr} (hi : s.Allowed t i) : s.Performed t (s, [i]) :=
  ⟨.refl s, rfl, hp, fun _ h => List.mem_singleton.mp h ▸ hi⟩

theorem newConn_performed (hp : s.Placed) (hmain : s.threadOf 0 = some t) (h : s.newConn t = some r) :
    s.Performed t r := by
  unfold newConn at h
  split at h
  · rename_i l _
    split at h
    · rename_i c hc
      cases h
      have hloop : c.loop = l := by
        obtain ⟨b, -, hc⟩ := bind_ok.mp hc
        obtain ⟨b', -, hc⟩ := bind_ok.mp hc
        cases hc
        rfl
      have hrec := hp.record (t := t) [.nextConnId, .conns] fun a ha => by
        rcases List.mem_cons.mp ha with rfl | ha
        · exact hmain
        · exact List.mem_singleton.mp ha ▸ hmain
      -- The connection is new, so none that was there has changed.
      have hnew : s.accepted < s.accepted → c.loop = (s.conn s.accepted).loop := fun h => absurd h (Nat.lt_irrefl _)
      have hset := hrec.setConn (o := s.accepted) (c := c) hnew
      have hext : s.Extends ((s.record t [.nextConnId, .conns]).setConn s.accepted c) :=
        (extends_record t _).trans (extends_setConn hnew)
      have hmore : ((s.record t [.nextConnId, .conns]).setConn s.accepted c).Extends
          {(s.record t [.nextConnId, .conns]).setConn s.accepted c with
            accepted := s.accepted + 1
            conns := (s.nextConnId, s.accepted) :: s.conns.filter fun e => e.1 ≠ s.nextConnId
            nextConnId := (s.nextConnId + 1) % 2 ^ 32
            nextIdx := if s.loops = [] then s.nextIdx else (s.nextIdx + 1) % s.loops.length} :=
        ⟨Nat.le_succ _, fun _ _ => rfl, fun _ _ h => h⟩
      refine ⟨hext.trans hmore, rfl, ⟨fun e he => ?_, hset.looping, fun l j hj => hmore.fits (hset.queues l j hj),
        fun e he => hmore.proper (hset.log e he)⟩, fun i hi => ?_⟩
      · rcases List.mem_cons.mp he with rfl | he
        · exact Nat.lt_succ_self _
        · exact Nat.lt_succ_of_lt (hp.entries e (List.mem_filter.mp he).1)
      · rw [List.mem_singleton.mp hi]
        exact ⟨Nat.lt_succ_self _, by simp [setConn, hloop]⟩
    · cases h
  · cases h

/-- On a new loop nothing is queued. -/
theorem pending_newLoop (s : Threads) (t : Tid) (l : LoopId) :
    pending {s with sites := s.sites ++ [⟨t, []⟩]} l = s.pending l := by
  by_cases hl : l < s.sites.length
  · rw [pending, List.getElem?_append_left hl, pending]
  · rw [pending, pending, List.getElem?_eq_none (Nat.le_of_not_lt hl),
      List.getElem?_append_right (Nat.le_of_not_lt hl)]
    cases l - s.sites.length <;> rfl

/-- The new loop belongs to the thread that constructs it. -/
theorem threadFunc_performed (hp : s.Placed) : s.Performed t
    ({s with sites := s.sites ++ [⟨t, []⟩]}, [.userCode, .publish s.sites.length, .loop s.sites.length]) := by
  have hold : ∀ l < s.sites.length, (s.sites ++ [⟨t, []⟩])[l]? = s.sites[l]? := fun l hl =>
    List.getElem?_append_left hl
  have hext : s.Extends {s with sites := s.sites ++ [⟨t, []⟩]} := by
    refine ⟨Nat.le_refl _, fun _ _ => rfl, fun l u hl => ?_⟩
    obtain ⟨site, hsite, rfl⟩ := Option.map_eq_some_iff.mp hl
    rw [threadOf, hold l (List.getElem?_eq_some_iff.mp hsite).1, hsite]
    rfl
  refine ⟨hext, rfl, ⟨hp.entries, fun u l hl => hext.threadOf _ _ (hp.looping u l hl), fun l j hj => ?_,
    fun e he => hext.proper (hp.log e he)⟩, fun i hi => ?_⟩
  · rw [pending_newLoop] at hj
    exact hext.fits (hp.queues l j hj)
  · have hnew : threadOf {s with sites := s.sites ++ [⟨t, []⟩]} s.sites.length = some t := by
      simp [threadOf]
    rcases List.mem_cons.mp hi with rfl | hi
    · trivial
    rcases List.mem_cons.mp hi with rfl | hi
    · trivial
    · rw [List.mem_singleton.mp hi]
      exact hnew

/-- What is allowed keeps everything in its place. -/
theorem perform_performed {i : Instr} (hp : s.Placed) (hi : s.Allowed t i) (h : s.perform t k i = some r) :
    s.Performed t r := by
  cases i with
  | call j =>
    obtain ⟨l, hl, hj⟩ := hi
    exact call_performed hp hl hj h
  | runInLoop l j =>
    simp only [perform] at h
    split at h
    · rename_i u hu
      cases h
      split
      · rename_i he
        subst he
        exact performed_same hp ⟨l, hu, hi⟩
      · exact ⟨extends_setPending l _, rfl, hp.push hi, nofun⟩
    · cases h
  | queueInLoop l j =>
    cases h
    exact ⟨extends_setPending l _, rfl, hp.push hi, nofun⟩
  | doPendingFunctors l =>
    cases h
    have hext := extends_setPending (s := s) l []
    refine ⟨hext, rfl, hp.setPending nofun, fun i hi' => ?_⟩
    obtain ⟨j, hj, rfl⟩ := List.mem_map.mp hi'
    exact hext.allowed ⟨l, hi, hp.queues l j hj⟩
  | handle o cb => exact handle_performed hp hi h
  | finishWrite o =>
    simp only [perform] at h
    split at h <;> cases h
    · exact after_performed hp hi _ rfl
    · exact ⟨.refl s, rfl, hp, nofun⟩
  | closeCallback o =>
    cases h
    exact performed_same hp ⟨hi, rfl⟩
  | removeChan o =>
    cases h
    exact ⟨extends_setConn fun _ => rfl, rfl, hp.setConn fun _ => rfl, nofun⟩
  | send o data =>
    cases h
    split
    · rename_i hl
      exact performed_same hp ⟨_, hl, hi, rfl⟩
    · exact performed_same hp ⟨hi, rfl⟩
  | shutdown o =>
    cases h
    have hext : s.Extends (s.setConn o {s.conn o with state := .disconnenting}) := extends_setConn fun _ => rfl
    refine ⟨hext, rfl, hp.setConn fun _ => rfl, fun i hi' => ?_⟩
    rw [List.mem_singleton.mp hi']
    exact hext.fits (j := .shutdownInLoop o) ⟨hi, rfl⟩
  | userCode =>
    cases h
    exact ⟨.refl s, rfl, hp, nofun⟩
  | accept =>
    simp only [perform] at h
    split at h
    · exact newConn_performed hp hi h
    · cases h
      exact ⟨.refl s, rfl, hp, nofun⟩
  | destroyEntry o =>
    cases h
    have hrec := hp.record (t := t) [.conns] fun a ha => List.mem_singleton.mp ha ▸ hi.2
    refine ⟨extends_record t _, rfl, hrec, fun i hi' => ?_⟩
    rw [List.mem_singleton.mp hi']
    exact ⟨hi.1, rfl⟩
  | startLoop => cases h
  | awaitLoop u =>
    obtain ⟨l, -, rfl⟩ := Option.map_eq_some_iff.mp h
    exact ⟨extends_of_eq rfl rfl rfl, rfl, ⟨hp.entries, hp.looping, hp.queues, hp.log⟩, nofun⟩
  | threadFunc =>
    cases h
    exact threadFunc_performed hp
  | publish l =>
    cases h
    exact ⟨extends_of_eq rfl rfl rfl, rfl, ⟨hp.entries, hp.looping, hp.queues, hp.log⟩, nofun⟩
  | loop l =>
    cases h
    have hlooping : ∀ u k, Function.update s.looping t (some l) u = some k → s.threadOf k = some u := by
      intro u k hk
      rw [Function.update_apply] at hk
      split at hk
      · rename_i hu
        subst hu
        cases hk
        exact hi
      · exact hp.looping u k hk
    exact ⟨extends_of_eq rfl rfl rfl, rfl, ⟨hp.entries, hlooping, hp.queues, hp.log⟩, nofun⟩

end Perform

/-! ### One step -/

section Step
variable {s s' : Threads} {t : Tid}

/-- A thread has something else to do. -/
theorem Inv.setAgenda (hp : s'.Placed) (hext : s.Extends s') (hagenda : s'.agenda = s.agenda)
    (hold : ∀ u, ∀ i ∈ s.agenda u, s.Allowed u i) {is : List Instr} (his : ∀ i ∈ is, s'.Allowed t i) :
    (s'.setAgenda t is).Inv := by
  have hsame : s'.Extends (s'.setAgenda t is) := extends_of_eq rfl rfl rfl
  refine ⟨⟨hp.entries, hp.looping, hp.queues, hp.log⟩, fun u i hi => hsame.allowed ?_⟩
  simp only [Threads.setAgenda, Function.update_apply] at hi
  split at hi
  · rename_i hu
    subst hu
    exact his i hi
  · rw [hagenda] at hi
    exact hext.allowed (hold u i hi)

/-- A thread has more to do. -/
theorem Inv.more (inv : s.Inv) (is : List Instr) (his : ∀ i ∈ is, s.Allowed t i) :
    (s.setAgenda t (is ++ s.agenda t)).Inv := by
  refine Inv.setAgenda inv.placed (.refl s) rfl inv.agenda fun i hi => ?_
  rcases List.mem_append.mp hi with hi | hi
  · exact his i hi
  · exact inv.agenda t i hi

/-- The callbacks of a channel that epoll reports for the loop run on its thread. -/
theorem active_allowed (hl : s.threadOf l = some t) {a : Active} (ha : s.Reports l a) {i : Instr} (hi : i ∈ a.instrs) :
    s.Allowed t i := by
  cases a with
  | acceptor =>
    obtain ⟨rfl, -⟩ := ha
    rw [List.mem_singleton.mp hi]
    exact hl
  | conn o revents =>
    obtain ⟨ho, rfl, -⟩ := ha
    obtain ⟨cb, -, rfl⟩ := List.mem_map.mp hi
    exact ⟨ho, hl⟩

theorem step_inv {a : Act} (inv : s.Inv) (h : s.step a = some s') : s'.Inv := by
  cases step_cases h with
  | exec t k i rest r hag hr =>
    have hi : ∀ j ∈ i :: rest, s.Allowed t j := fun j hj => inv.agenda t j (hag ▸ hj)
    have hperf := perform_performed inv.placed (hi i List.mem_cons_self) hr
    refine Inv.setAgenda hperf.placed hperf.ext hperf.agenda inv.agenda fun j hj => ?_
    rcases List.mem_append.mp hj with hj | hj
    · exact hperf.allowed j hj
    · exact hperf.ext.allowed (hi j (List.mem_cons_of_mem _ hj))
  | poll t active l hl _ hreports =>
    have hthread := inv.placed.looping t l hl
    refine Inv.setAgenda inv.placed (.refl s) rfl inv.agenda fun i hi => ?_
    rcases List.mem_append.mp hi with hi | hi
    · obtain ⟨a, ha, hi⟩ := List.mem_flatMap.mp hi
      exact active_allowed hthread (hreports a ha) hi
    · rw [List.mem_singleton.mp hi]
      exact hthread
  | leave t =>
    have hsame : s.Extends {s with looping := Function.update s.looping t none} := extends_of_eq rfl rfl rfl
    have hlooping : ∀ u l, Function.update s.looping t none u = some l → s.threadOf l = some u := by
      intro u l hl
      rw [Function.update_apply] at hl
      split at hl
      · cases hl
      · exact inv.placed.looping u l hl
    exact ⟨⟨inv.placed.entries, hlooping, inv.placed.queues, inv.placed.log⟩,
      fun u i hi => hsame.allowed (inv.agenda u i hi)⟩
  | send t o data _ ho => exact inv.more [.send o data] fun i hi => List.mem_singleton.mp hi ▸ ho
  | shutdown t o _ ho => exact inv.more [.shutdown o] fun i hi => List.mem_singleton.mp hi ▸ ho
  | noSend | noShutdown => exact inv
  | start t =>
    have hplaced : Placed {s with started := true} :=
      ⟨inv.placed.entries, inv.placed.looping, inv.placed.queues, inv.placed.log⟩
    have hsame : s.Extends {s with started := true} := extends_of_eq rfl rfl rfl
    refine Inv.setAgenda hplaced hsame rfl inv.agenda fun i hi => ?_
    rcases List.mem_append.mp hi with hi | hi
    · rw [List.eq_of_mem_replicate hi]
      trivial
    rcases List.mem_cons.mp hi with rfl | hi
    · rfl
    · exact hsame.allowed (inv.agenda t i hi)
  | spawn t u rest hag =>
    have hwait : (s.setAgenda t (.awaitLoop u :: rest)).Inv := by
      refine Inv.setAgenda inv.placed (.refl s) rfl inv.agenda fun i hi => ?_
      rcases List.mem_cons.mp hi with rfl | hi
      · trivial
      · exact inv.agenda t i (by rw [hag]; exact List.mem_cons_of_mem _ hi)
    refine Inv.setAgenda hwait.placed (.refl _) rfl hwait.agenda fun i hi => ?_
    rw [List.mem_singleton.mp hi]
    trivial
  | enter t _ _ hmain =>
    refine Inv.setAgenda inv.placed (.refl s) rfl inv.agenda fun i hi => ?_
    rw [List.mem_singleton.mp hi]
    exact hmain
  | destruct t _ hmain =>
    have hrec := inv.placed.record (t := t) [.conns] fun a ha => List.mem_singleton.mp ha ▸ hmain
    have hsame : s.Extends {s.record t [.conns] with conns := [], listening := false} := extends_of_eq rfl rfl rfl
    have hplaced : Placed {s.record t [.conns] with conns := [], listening := false} :=
      ⟨fun e he => absurd he List.not_mem_nil, hrec.looping, hrec.queues, hrec.log⟩
    refine Inv.setAgenda hplaced hsame rfl inv.agenda fun i hi => ?_
    rcases List.mem_append.mp hi with hi | hi
    · obtain ⟨e, he, rfl⟩ := List.mem_map.mp hi
      exact ⟨inv.placed.entries e he, hmain⟩
    · exact hsame.allowed (inv.agenda t i hi)

end Step

/-! ### Whole runs -/

theorem create_inv (t : Tid) (numThreads : Nat) (callbacks : Callbacks) (mark : Nat) :
    (create t numThreads callbacks mark).Inv := by
  refine ⟨⟨nofun, nofun, fun l j hj => ?_, fun e he => ?_⟩, nofun⟩
  · cases l <;> cases hj
  · rcases List.mem_cons.mp he with rfl | he
    · rfl
    · rw [List.mem_singleton.mp he]
      rfl

/-- **Thread confinement.** Whatever the threads do, and in whatever order: every call of a
function of a connection is made on the thread of the connection's loop, `conns_` and
`next_conn_id_` are only touched on the main loop's thread, and a thread that is in `loop` is the
thread of that loop. -/
theorem confined {t : Tid} {numThreads mark : Nat} {callbacks : Callbacks} {tr : List Act} {s : Threads}
    (h : exec step (create t numThreads callbacks mark) tr = some s) :
    (∀ u o f, (u, .call o f) ∈ s.log → s.threadOf (s.conn o).loop = some u) ∧
    (∀ u, (u, .conns) ∈ s.log ∨ (u, .nextConnId) ∈ s.log → s.threadOf 0 = some u) ∧
    ∀ u l, s.looping u = some l → s.threadOf l = some u := by
  have inv : s.Inv := exec_preserves (fun _ _ _ inv hs => step_inv inv hs) (create_inv ..) h
  refine ⟨fun u o f he => (inv.placed.log _ he).2, fun u he => ?_, inv.placed.looping⟩
  rcases he with he | he
  · exact inv.placed.log _ he
  · exact inv.placed.log _ he

/-- A server with one io loop is started on the thread 7, a connection comes, the thread 9 sends
on it, and the other end hangs up. -/
def visit : List Act :=
  let go (t : Tid) (n : Nat) : List Act := List.replicate n (.exec t ⟨.received [], .accepts 0, true⟩)
  List.flatten [[.start 7, .spawn 7 8], go 8 4, go 7 3, .enter 7 :: go 7 1, .poll 7 [.acceptor] :: go 7 3,
    .poll 8 [] :: go 8 3, .send 9 0 [1, 2] :: go 9 2,
    .poll 8 [.conn 0 ⟨false, false, false, false, true⟩] :: go 8 6, .poll 7 [] :: go 7 3, .poll 8 [] :: go 8 3]

theorem confined_visit : ∃ s,
    exec step (create 7 1 ⟨true, true, false, false, false⟩ 64) visit = some s ∧
    s.log.map Prod.fst = [7, 7, 7, 7, 8, 8, 8, 7, 8] ∧
    ∀ u o f, (u, .call o f) ∈ s.log → s.threadOf (s.conn o).loop = some u := by
  have hthreads : (exec step (create 7 1 ⟨true, true, false, false, false⟩ 64) visit).map (·.log.map Prod.fst) =
      some [7, 7, 7, 7, 8, 8, 8, 7, 8] := by
    decide +kernel
  obtain ⟨s, hs, hlog⟩ := Option.map_eq_some_iff.mp hthreads
  exact ⟨s, hs, hlog, (confined hs).1⟩

end Threads

end Caimr.Net
