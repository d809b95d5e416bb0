import Caimr.Lib.Seen
import Caimr.Net.Served
import Caimr.Net.ServerLoops

/-! The connections of a server, each seen on its own. However the loops of a server take
their steps, what it does to one of its connections is a run of that connection; so the
outgoing stream of every connection is whole, and its backlog armed. -/
namespace Caimr.Net
open Transition

/-! ### Which function a step calls -/

def Functor.served : Functor → Option (ConnNo × Served.Call)
  | .establishConn o => some (o, .establish)
  | .destroyConn o => some (o, .destroy)
  | .removeConnInLoop _ | .writeComplete _ | .highWaterMark .. => none

def Instr.served : Instr → Option (ConnNo × Served.Call)
  | .finishWrite o => some (o, .finishWrite)
  | .removeChan o => some (o, .removeChan)
  | .run f => f.served
  | .connCallback _ | .userCode _ | .closeCallback _ | .queue .. | .endQueue _ | .running _ => none

/-- `handle_error` is no function of the connection's own. -/
def Chan.Callback.served (r : ReadResult) (w : WriteResult) : Chan.Callback → Option Served.Call
  | .close => some .close
  | .error => none
  | .read => some (.readable r)
  | .write => some (.flush w)

namespace Host

/-- The function that a step calls, and the connection it calls it of. -/
def served (h : Host) : Act → Option (ConnNo × Served.Call)
  | .callback l r w => (h.loops l).callbacks.head?.bind fun c => (c.2.served r w).map (c.1, ·)
  | .call _ f => f.served
  | .exec l => (h.loops l).agenda.head?.bind Instr.served
  | .send l data w =>
    match (h.loops l).agenda.head? with
    | some (.userCode o) => some (o, .send data w)
    | _ => none
  | .shutdown l =>
    match (h.loops l).agenda.head? with
    | some (.userCode o) => some (o, .shutdown)
    | _ => none
  | .eloop .. | .poll .. | .dispatch _ | .accept | .endUserCode _ => none

/-- The same, as the connection `o` sees it. -/
def callsOf (o : ConnNo) (h : Host) (a : Act) : List Served.Call :=
  match h.served a with
  | some (o', k) => if o' = o then [k] else []
  | none => []

end Host

/-! ### The functions that are not through -/

/-- The second half of a function. -/
def Instr.isRest : Instr → Bool
  | .finishWrite _ | .removeChan _ => true
  | _ => false

def Instr.isQueueing : Instr → Bool
  | .queue .. | .endQueue _ => true
  | _ => false

def Plain (is : List Instr) : Prop := ∀ i ∈ is, i.isRest = false

/-- Before the second half of a function there is nothing to do but queueing. -/
def Tidy : List Instr → Prop
  | [] => True
  | i :: rest => (i.isQueueing = true ∨ Plain rest) ∧ Tidy rest

theorem Plain.tidy {is : List Instr} (h : Plain is) : Tidy is := by
  induction is with
  | nil => trivial
  | cons i is ih =>
    have his : Plain is := fun j hj => h j (List.mem_cons_of_mem _ hj)
    exact ⟨.inr his, ih his⟩

theorem Plain.append {a b : List Instr} (ha : Plain a) (hb : Plain b) : Plain (a ++ b) :=
  fun i hi => (List.mem_append.mp hi).elim (ha i) (hb i)

theorem Tidy.append {a b : List Instr} (ha : Tidy a) (hb : Plain b) : Tidy (a ++ b) := by
  induction a with
  | nil => exact hb.tidy
  | cons i a ih => exact ⟨ha.1.imp_right fun hp => hp.append hb, ih ha.2⟩

/-- What the agenda of its loop holds of a function of the connection. -/
def restOf (o : ConnNo) (is : List Instr) : Option Served.Call :=
  if .finishWrite o ∈ is then some .finishWrite else if .removeChan o ∈ is then some .removeChan else none

theorem restOf_plain {is : List Instr} (h : Plain is) (o : ConnNo) : restOf o is = none := by
  have hw : Instr.finishWrite o ∉ is := fun hm => by cases h _ hm
  have hr : Instr.removeChan o ∉ is := fun hm => by cases h _ hm
  rw [restOf, if_neg hw, if_neg hr]

theorem restOf_append {a b : List Instr} (h : Plain b) (o : ConnNo) : restOf o (a ++ b) = restOf o a := by
  have hmem : ∀ i : Instr, i.isRest = true → (i ∈ a ++ b ↔ i ∈ a) := by
    intro i hi
    rw [List.mem_append, or_iff_left]
    intro hb
    rw [h i hb] at hi
    cases hi
  rw [restOf, restOf, if_congr (hmem (.finishWrite o) rfl) rfl (if_congr (hmem (.removeChan o) rfl) rfl rfl)]

theorem restOf_cons {i : Instr} (is : List Instr) (h : i.isRest = false) (o : ConnNo) :
    restOf o (i :: is) = restOf o is := by
  have hmem : ∀ j : Instr, j.isRest = true → (j ∈ i :: is ↔ j ∈ is) := by
    intro j hj
    rw [List.mem_cons, or_iff_right]
    intro hji
    rw [hji, h] at hj
    cases hj
  rw [restOf, restOf, if_congr (hmem (.finishWrite o) rfl) rfl (if_congr (hmem (.removeChan o) rfl) rfl rfl)]

/-- Queueing comes before anything. -/
theorem tidy_queues {a b : List Instr} (ha : ∀ i ∈ a, i.isQueueing = true) (hb : Tidy b) : Tidy (a ++ b) := by
  induction a with
  | nil => exact hb
  | cons i a ih => exact ⟨.inl (ha i List.mem_cons_self), ih fun j hj => ha j (List.mem_cons_of_mem _ hj)⟩

theorem plain_queues {a : List Instr} (ha : ∀ i ∈ a, i.isQueueing = true) : Plain a := by
  intro i hi
  have hq := ha i hi
  cases i <;> first | rfl | cases hq

theorem restOf_queues {a b : List Instr} (ha : ∀ i ∈ a, i.isQueueing = true) {o : ConnNo} :
    restOf o (a ++ b) = restOf o b := by
  induction a with
  | nil => rfl
  | cons i a ih =>
    have hi := plain_queues ha i List.mem_cons_self
    exact (restOf_cons _ hi o).trans (ih fun j hj => ha j (List.mem_cons_of_mem _ hj))

/-! ### What a function leaves on the agenda -/

/-- The agenda after a call of the connection's function. -/
def leftBy (l : LoopId) (o : ConnNo) (es : List Effect) (next : Option Served.Call) : List Instr :=
  es.flatMap (Effect.instrs l o) ++ if next = some .finishWrite then [.finishWrite o] else []

theorem instrs_plain {l : LoopId} {o : ConnNo} {es : List Effect} (h : .removeChan ∉ es) :
    Plain (es.flatMap (Effect.instrs l o)) := by
  intro i hi
  obtain ⟨e, he, hi⟩ := List.mem_flatMap.mp hi
  cases e with
  | write | shutdownWrite => cases hi
  | removeChan => exact absurd he h
  | queueWriteComplete | queueHighWaterMark | connCallback | msgCallback | closeCallback =>
    rw [List.mem_singleton.mp hi]
    rfl

theorem not_removeChan {es : List Effect} (h : ∀ e ∈ es, e.isQuiet = true) : Effect.removeChan ∉ es :=
  fun hm => by cases h _ hm

/-- The effects of `handle_write` are writes and queueing. -/
theorem flush_queueing {c c' : TcpConn} {w : WriteResult} {es : List Effect} {drained : Bool}
    (h : c.flush w = .ok (c', es, drained)) (l : LoopId) (o : ConnNo) :
    ∀ i ∈ es.flatMap (Effect.instrs l o), i.isQueueing = true := by
  have hall : ∀ e ∈ es, (∃ direct data answer, e = .write direct data answer) ∨ e = .queueWriteComplete := by
    obtain ⟨-, -, rfl, -⟩ | ⟨data, _, -, -, -, -, rfl, -⟩ | ⟨data, _, -, -, -, -, -, rfl, -⟩ |
      ⟨data, _, -, -, -, -, -, rfl, -⟩ := TcpConn.flush_cases h
    · exact List.forall_mem_nil _
    · exact List.forall_mem_singleton.mpr (.inl ⟨_, _, _, rfl⟩)
    · exact List.forall_mem_singleton.mpr (.inl ⟨_, _, _, rfl⟩)
    · refine List.forall_mem_cons.mpr ⟨.inl ⟨_, _, _, rfl⟩, ?_⟩
      split
      · exact List.forall_mem_singleton.mpr (.inr rfl)
      · exact List.forall_mem_nil _
  intro i hi
  obtain ⟨e, he, hi⟩ := List.mem_flatMap.mp hi
  obtain ⟨_, _, _, rfl⟩ | rfl := hall e he
  · cases hi
  · rw [List.mem_singleton.mp hi]
    rfl

/-- What is left of a call is what is to come of it, and stands behind queueing. -/
theorem leftBy_spec {c c' : TcpConn} {k : Served.Call} {es : List Effect} {next : Option Served.Call}
    (hf : k.Fits c) (h : k.run c = .ok (c', es, next)) (l : LoopId) (o : ConnNo) :
    Tidy (leftBy l o es next) ∧ restOf o (leftBy l o es next) = next ∧
      ∀ o' ≠ o, restOf o' (leftBy l o es next) = none := by
  have hplain : Effect.removeChan ∉ es → next = none → Tidy (leftBy l o es next) ∧
      restOf o (leftBy l o es next) = next ∧ ∀ o' ≠ o, restOf o' (leftBy l o es next) = none := by
    rintro hes rfl
    have hp : Plain (leftBy l o es none) := by
      rw [leftBy, if_neg (by simp), List.append_nil]
      exact instrs_plain hes
    exact ⟨hp.tidy, restOf_plain hp o, fun o' _ => restOf_plain hp o'⟩
  cases k with
  | establish =>
    cases h
    refine hplain ?_ rfl
    unfold TcpConn.establishConn
    split <;> simp
  | send data w =>
    obtain ⟨⟨c₁, es₁⟩, hsend, h⟩ := bind_ok.mp h
    cases h
    exact hplain (not_removeChan (TcpConn.send_quiet hsend).effects) rfl
  | shutdown =>
    cases h
    exact hplain (not_removeChan (TcpConn.shutdown_quiet c).effects) rfl
  | readable r =>
    obtain ⟨⟨c₁, es₁⟩, hread, h⟩ := bind_ok.mp h
    cases h
    refine hplain ?_ rfl
    rcases TcpConn.handleRead_cases hread with hq | ⟨-, b, he⟩
    · exact not_removeChan hq.effects
    · cases he
      split <;> split <;> simp
  | flush w =>
    obtain ⟨⟨c₁, es₁, drained⟩, hflush, h⟩ := bind_ok.mp h
    cases h
    have hq := flush_queueing hflush l o
    cases drained with
    | false =>
      refine hplain (fun hm => ?_) rfl
      cases hq (.removeChan o) (List.mem_flatMap.mpr ⟨_, hm, List.mem_singleton_self _⟩)
    | true =>
      have hp := plain_queues hq
      have hleft : leftBy l o es (some .finishWrite) = es.flatMap (Effect.instrs l o) ++ [.finishWrite o] := rfl
      refine ⟨tidy_queues hq ⟨.inr (List.forall_mem_nil _), trivial⟩,
        if_pos (List.mem_append_right _ (List.mem_singleton_self _)), fun o' ho => ?_⟩
      have hno : ∀ i : Instr, i.isRest = true → i ≠ .finishWrite o → i ∉ leftBy l o es (some .finishWrite) := by
        intro i hi hne hm
        rw [hleft] at hm
        rcases List.mem_append.mp hm with hm | hm
        · rw [hp i hm] at hi
          cases hi
        · exact hne (List.mem_singleton.mp hm)
      have hne : Instr.finishWrite o' ≠ .finishWrite o := by
        intro he
        cases he
        exact ho rfl
      show restOf o' (leftBy l o es (some .finishWrite)) = none
      rw [restOf, if_neg (hno (.finishWrite o') rfl hne), if_neg (hno (.removeChan o') rfl (by simp))]
  | finishWrite =>
    cases h
    exact hplain (not_removeChan (TcpConn.finishWrite_isQuiet c true)) rfl
  | close =>
    cases h
    refine hplain ?_ rfl
    simp only [TcpConn.handleClose]
    split <;> split <;> simp
  | destroy =>
    have hs : c.state = .disconnected := hf
    have hidle : c.destroyConn = (c, [.removeChan]) := by rw [TcpConn.destroyConn, if_neg (by rw [hs]; decide)]
    rw [Served.Call.run, hidle] at h
    cases h
    show Tidy [.removeChan o] ∧ restOf o [.removeChan o] = some .removeChan ∧ ∀ o' ≠ o, restOf o' [.removeChan o] = none
    refine ⟨⟨.inr (List.forall_mem_nil _), trivial⟩, by simp [restOf], fun o' ho => ?_⟩
    simp [restOf, ho]
  | removeChan =>
    cases h
    exact hplain (by simp) rfl

namespace TcpServer
variable {s : TcpServer} {l : LoopId} {o : ConnNo} {k : Served.Call} {x : TcpServer × List Instr}

/-- The step calls this function of this connection, and of the others none. -/
def Made (s : TcpServer) (l : LoopId) (o : ConnNo) (k : Served.Call) (x : TcpServer × List Instr) : Prop :=
  ∃ c es next more, k.run (s.conn o) = .ok (c, es, next) ∧ x.1 = s.setConn o c ∧
    x.2 = leftBy l o es next ++ more ∧ Plain more

/-- The step calls no function of a connection. -/
def Spared (s : TcpServer) (x : TcpServer × List Instr) : Prop :=
  (∀ o < s.accepted, x.1.conn o = s.conn o) ∧ Plain x.2

theorem made_settle {c : TcpConn} {es : List Effect} {next : Option Served.Call} (hl : (s.conn o).loop = l)
    (h : k.run (s.conn o) = .ok (c, es, next)) (hn : next ≠ some .finishWrite) :
    s.Made l o k (s.settle o (c, es)) := by
  refine ⟨c, es, next, [], h, rfl, ?_, List.forall_mem_nil _⟩
  rw [leftBy, if_neg hn, settle, (Served.run_same h).loop, hl, List.append_nil, List.append_nil]

theorem made_settle? {r : Except Fault (TcpConn × List Effect)} (hl : (s.conn o).loop = l)
    (h : ∀ c es, r = .ok (c, es) → k.run (s.conn o) = .ok (c, es, none)) (hx : s.settle? o r = some x) :
    s.Made l o k x := by
  unfold settle? at hx
  split at hx
  · rename_i y
    cases hx
    exact made_settle hl (h y.1 y.2 rfl) nofun
  · cases hx

/-- The functions that go on after a connection's function add nothing to what it leaves. -/
theorem Made.more (h : s.Made l o k x) {is : List Instr} (hp : Plain is) : s.Made l o k (x.1, x.2 ++ is) := by
  obtain ⟨c, es, next, more, hrun, hserver, his, hmore⟩ := h
  exact ⟨c, es, next, more ++ is, hrun, hserver, by rw [his, List.append_assoc], hmore.append hp⟩

theorem handle_made {r : ReadResult} {w : WriteResult} {cb : Chan.Callback} (hl : (s.conn o).loop = l)
    (h : s.handle o r w cb = some x) :
    match cb.served r w with
    | some k => s.Made l o k x
    | none => s.Spared x := by
  cases cb with
  | close =>
    cases h
    exact made_settle hl rfl nofun
  | error =>
    cases h
    exact ⟨fun _ _ => rfl, List.forall_mem_nil _⟩
  | read =>
    refine made_settle? (k := .readable r) hl (fun c es hr => ?_) h
    rw [Served.Call.run, hr]
    rfl
  | write =>
    simp only [handle] at h
    split at h
    · rename_i c es drained hflush
      cases h
      have hrun : Served.Call.run (s.conn o) (.flush w) =
          .ok (c, es, if drained then some .finishWrite else none) := by
        rw [Served.Call.run, hflush]
        rfl
      refine ⟨c, es, _, [], hrun, rfl, ?_, List.forall_mem_nil _⟩
      rw [leftBy, settle, (Served.run_same hrun).loop, hl, List.append_nil]
      cases drained <;> rfl
    · cases h

theorem body_made {f : Functor} (hl : ∀ o k, f.served = some (o, k) → (s.conn o).loop = l) :
    match f.served with
    | some (o, k) => s.Made l o k (s.body f)
    | none => s.Spared (s.body f) := by
  cases f with
  | establishConn o | destroyConn o => exact made_settle (hl o _ rfl) rfl nofun
  | removeConnInLoop o => exact ⟨fun _ _ => rfl, List.forall_mem_singleton.mpr rfl⟩
  | writeComplete o | highWaterMark o => exact ⟨fun _ _ => rfl, List.forall_mem_singleton.mpr rfl⟩

theorem exec_made {i : Instr} (hl : ∀ o k, i.served = some (o, k) → (s.conn o).loop = l)
    (h : s.exec l i = some x) :
    match i.served with
    | some (o, k) => s.Made l o k x
    | none => s.Spared x := by
  cases i with
  | connCallback o =>
    cases h
    exact ⟨fun _ _ => rfl, List.forall_mem_singleton.mpr rfl⟩
  | closeCallback o =>
    cases h
    refine ⟨fun _ _ => rfl, List.forall_mem_singleton.mpr ?_⟩
    unfold removeConn runInLoop
    split <;> rfl
  | finishWrite o =>
    cases h
    exact made_settle (hl o _ rfl) rfl nofun
  | removeChan o =>
    cases h
    exact made_settle (hl o _ rfl) rfl nofun
  | run f =>
    cases h
    have hb := body_made (s := s) (f := f) hl
    have hend : Plain [Instr.running f] := List.forall_mem_singleton.mpr rfl
    show match f.served with
      | some (o, k) => s.Made l o k _
      | none => s.Spared _
    split at hb
    · exact hb.more hend
    · exact ⟨hb.1, hb.2.append hend⟩
  | running f =>
    cases h
    exact ⟨fun _ _ => rfl, List.forall_mem_nil _⟩
  | userCode | queue | endQueue => cases h

theorem newConn_spared (h : s.newConn = some x) : s.Spared x := by
  simp only [newConn] at h
  split at h
  · cases h
    refine ⟨fun o ho => Function.update_of_ne (Nat.ne_of_lt ho) .., List.forall_mem_singleton.mpr ?_⟩
    unfold runInLoop
    split <;> rfl
  · cases h

/-- What a server is given stays as it is. -/
theorem Did.settings {P : Scope} {done made : Multiset Item} {s' : TcpServer} (h : s.Did P done made s') :
    s'.callbacks = s.callbacks ∧ s'.highWaterMark = s.highWaterMark := by
  cases h with
  | queue l k f _ => cases f <;> exact ⟨rfl, rfl⟩
  | _ => exact ⟨rfl, rfl⟩

end TcpServer

namespace Host

/-! ### Each connection on its own -/

/-- The state of a connection, as it appears in that of the server. -/
structure Follows (h : Host) (o : ConnNo) (v : Served.State) : Prop where
  conn : v.conn = h.server.conn o
  next : v.next = restOf o (h.loops (h.server.conn o).loop).agenda

/-- The agendas, with no half of a function of a connection that is not there. -/
structure Neat (h : Host) : Prop where
  tidy : ∀ l, Tidy (h.loops l).agenda
  none : ∀ l o, h.server.accepted ≤ o → restOf o (h.loops l).agenda = none

theorem tidy_head {i : Instr} {rest : List Instr} (h : Tidy (i :: rest)) (hi : i.isQueueing = false) : Plain rest := by
  rcases h.1 with hq | hp
  · rw [hi] at hq
    cases hq
  · exact hp

section Agendas
variable (h : Host) (l k : LoopId)

@[simp] theorem setEloop_agenda (e : Eloop Functor) : ((h.setEloop l e).loops k).agenda = (h.loops k).agenda := by
  rw [setEloop_loops]
  split
  · rename_i hk
    rw [hk]
  · rfl

@[simp] theorem setActive_agenda (active : List (ConnNo × EpollMask)) :
    ((h.setActive l active).loops k).agenda = (h.loops k).agenda := by
  rw [setActive_loops]
  split
  · rename_i hk
    rw [hk]
  · rfl

@[simp] theorem setCallbacks_agenda (callbacks : List (ConnNo × Chan.Callback)) :
    ((h.setCallbacks l callbacks).loops k).agenda = (h.loops k).agenda := by
  rw [setCallbacks_loops]
  split
  · rename_i hk
    rw [hk]
  · rfl

theorem setAgenda_agenda (agenda : List Instr) :
    ((h.setAgenda l agenda).loops k).agenda = if k = l then agenda else (h.loops k).agenda := by
  rw [setAgenda_loops]
  split <;> rfl

end Agendas

/-- The thread of `l` has left these instructions before the rest of its agenda. -/
def Resumes (h h' : Host) (l : LoopId) (rest : List Instr) (x : TcpServer × List Instr) : Prop :=
  h'.server = x.1 ∧ ∀ k, (h'.loops k).agenda = if k = l then x.2 ++ rest else (h.loops k).agenda

variable {h h' : Host} {l : LoopId} {o o' : ConnNo} {k : Served.Call} {rest : List Instr}
  {x : TcpServer × List Instr} {v : Served.State} {a : Act}

theorem resumes_resume : h.Resumes (h.resume l rest x) l rest x :=
  ⟨rfl, fun k => setAgenda_agenda (h.setServer x.1) l k _⟩

theorem resumes_setAgenda : h.Resumes (h.setAgenda l rest) l rest (h.server, []) :=
  ⟨rfl, fun k => setAgenda_agenda h l k _⟩

theorem Resumes.setEloop (hs : h.Resumes h' l rest x) (k : LoopId) (e : Eloop Functor) :
    h.Resumes (h'.setEloop k e) l rest x :=
  ⟨hs.1, fun j => by rw [setEloop_agenda, hs.2]⟩

/-- A step that calls no function of the connection. -/
theorem Follows.spared (hv : h.Follows o v) (hs : h.Resumes h' l rest x) (hx : x.1.conn o = h.server.conn o)
    (hp : restOf o (x.2 ++ rest) = restOf o (h.loops l).agenda) : h'.Follows o v := by
  obtain ⟨hserver, hag⟩ := hs
  refine ⟨by rw [hserver, hx]; exact hv.conn, ?_⟩
  rw [hv.next, hserver, hx, hag]
  split
  · rename_i hl
    rw [hp, hl]
  · rfl

/-- A step that calls one of its functions. -/
theorem Follows.made (hv : h.Follows o v) (hl : (h.server.conn o).loop = l) (hs : h.Resumes h' l rest x)
    (hm : h.server.Made l o k x) (hf : k.Fits (h.server.conn o)) (hr : Plain rest)
    (hready : v.next = restOf o (h.loops l).agenda → v.Ready k) :
    ∃ v', Served.step v k = some v' ∧ h'.Follows o v' := by
  obtain ⟨c, es, next, more, hrun, hserver, his, hmore⟩ := hm
  have hnext : v.next = restOf o (h.loops l).agenda := by rw [hv.next, hl]
  have hspec := leftBy_spec hf hrun l o
  refine ⟨⟨c, v.log ++ es, v.promised ++ k.promises v.conn, next⟩, ?_, ?_, ?_⟩
  · exact Served.step_iff.mpr ⟨hready hnext, by rw [hv.conn]; exact hf, es, by rw [hv.conn]; exact hrun, rfl, rfl⟩
  · rw [hs.1, hserver, TcpServer.setConn_conn, if_pos rfl]
  · have hconn : h'.server.conn o = c := by rw [hs.1, hserver, TcpServer.setConn_conn, if_pos rfl]
    rw [hconn, (Served.run_same hrun).loop, hl, hs.2, if_pos rfl, his, List.append_assoc,
      restOf_append (hmore.append hr), hspec.2.1]

/-- A functor waits where its connection is, and until it fits. -/
theorem functor_fits {f : Functor} (hi : h.Sound) (hf : (l, .run f) ∈ h.bag) (hk : f.served = some (o, k)) :
    h.server.Owns l o ∧ k.Fits (h.server.conn o) ∧ k.isRest = false := by
  have hplace := hi.server.assigned _ hf
  cases f with
  | establishConn o =>
    cases hk
    exact ⟨hplace, hi.server.connenting hf, rfl⟩
  | destroyConn o =>
    cases hk
    exact ⟨hplace.1, hplace.2, rfl⟩
  | removeConnInLoop | writeComplete | highWaterMark => cases hk

/-- An instruction that calls a function is a second half, or a functor. -/
theorem instr_fits {i : Instr} (hi : h.Sound) (hm : (l, i) ∈ h.bag) (hk : i.served = some (o, k)) :
    h.server.Owns l o ∧ k.Fits (h.server.conn o) ∧ k.isRest = i.isRest := by
  have hplace := hi.server.assigned _ hm
  cases i with
  | finishWrite o =>
    cases hk
    exact ⟨hplace, trivial, rfl⟩
  | removeChan o =>
    cases hk
    exact ⟨hplace.1, hplace.2, rfl⟩
  | run f => exact functor_fits hi hm hk
  | connCallback | userCode | closeCallback | queue | endQueue | running => cases hk

theorem restOf_head {i : Instr} (hk : i.served = some (o, k)) (hi : i.isRest = true) (hr : Plain rest) :
    restOf o (i :: rest) = some k ∧ ∀ o' ≠ o, restOf o' (i :: rest) = none := by
  have hno : ∀ j : Instr, j.isRest = true → j ∉ rest := by
    intro j hj hm
    rw [hr j hm] at hj
    cases hj
  cases i with
  | finishWrite o =>
    cases hk
    refine ⟨if_pos List.mem_cons_self, fun o' ho => ?_⟩
    simp [restOf, ho, hno (.finishWrite o') rfl, hno (.removeChan o') rfl]
  | removeChan o =>
    cases hk
    refine ⟨?_, fun o' ho => ?_⟩
    · simp [restOf, hno (.finishWrite o) rfl]
    · simp [restOf, ho, hno (.finishWrite o') rfl, hno (.removeChan o') rfl]
  | _ => cases hi

/-- A function begins where the agenda holds no second half of another. -/
theorem ready_plain {is : List Instr} (hk : k.isRest = false) (hp : Plain is) (v : Served.State)
    (hv : v.next = restOf o is) : v.Ready k := by
  rw [restOf_plain hp] at hv
  rw [Served.State.Ready, hv]
  exact hk

/-- And the second half of one comes first on it. -/
theorem ready_head {is : List Instr} (hk : restOf o is = some k) (v : Served.State) (hv : v.next = restOf o is) :
    v.Ready k := by
  rw [hk] at hv
  rw [Served.State.Ready, hv]

/-- What a step is to the connections: it may call a function of one of them, it may queue
the first thing on an agenda, and else it leaves them alone. -/
inductive Does (h : Host) (a : Act) (h' : Host) : Prop where
  | calls (l : LoopId) (o : ConnNo) (k : Served.Call) (rest : List Instr) (x : TcpServer × List Instr) :
      h.served a = some (o, k) → h.server.Owns l o → h.Resumes h' l rest x → h.server.Made l o k x →
      k.Fits (h.server.conn o) → Plain rest →
      (∀ v : Served.State, v.next = restOf o (h.loops l).agenda → v.Ready k) →
      (∀ o' ≠ o, restOf o' (h.loops l).agenda = none) → Does h a h'
  | spares (l : LoopId) (rest : List Instr) (x : TcpServer × List Instr) : h.served a = none →
      h.Resumes h' l rest x → h.server.Spared x → Plain rest → Plain (h.loops l).agenda → Does h a h'
  | queues (l : LoopId) (i : Instr) (rest : List Instr) (x : TcpServer × List Instr) : h.served a = none →
      (h.loops l).agenda = i :: rest → i.isRest = false → h.Resumes h' l rest x → x.1.conn = h.server.conn →
      (∀ j ∈ x.2, j.isQueueing = true) → Does h a h'
  | idle : h.served a = none → h'.server = h.server → (∀ k, (h'.loops k).agenda = (h.loops k).agenda) → Does h a h'

/-- An instruction may be the second half of a call, which comes first on the agenda. -/
theorem exec_does (hi : h.Sound) (hn : h.Neat) {i : Instr} {rest : List Instr} {x : TcpServer × List Instr}
    (ha : (h.loops l).agenda = i :: rest) (hl : l ≤ h.server.numThreads) (hx : h.server.exec l i = some x) :
    h.Does (.exec l) (h.resume l rest x) := by
  have hbag := mem_head hl ha
  have htidy := hn.tidy l
  rw [ha] at htidy
  have hrest : Plain rest := tidy_head htidy (by cases i <;> first | rfl | cases hx)
  have hfits := fun o k => instr_fits (o := o) (k := k) hi hbag
  have hmade := TcpServer.exec_made (fun o k hk => (hfits o k hk).1.2) hx
  have hserved : h.served (.exec l) = i.served := by
    rw [served, ha]
    rfl
  have hplain : i.isRest = false → Plain (h.loops l).agenda := by
    intro hir
    rw [ha]
    exact List.forall_mem_cons.mpr ⟨hir, hrest⟩
  cases hk : i.served with
  | none =>
    rw [hk] at hmade hserved
    exact .spares l rest x hserved resumes_resume hmade hrest (hplain (by cases i <;> first | rfl | cases hk))
  | some p =>
    obtain ⟨o, k⟩ := p
    rw [hk] at hmade hserved
    obtain ⟨howns, hfit, hhalf⟩ := hfits o k hk
    cases hir : i.isRest with
    | false =>
      exact .calls l o k rest x hserved howns resumes_resume hmade hfit hrest
        (ready_plain (hhalf.trans hir) (hplain hir)) fun o _ => restOf_plain (hplain hir) o
    | true =>
      have hhead := restOf_head hk hir hrest
      rw [← ha] at hhead
      exact .calls l o k rest x hserved howns resumes_resume hmade hfit hrest (ready_head hhead.1) hhead.2

theorem step_does (hi : h.Sound) (hn : h.Neat) (hs : Step h a h') : h.Does a h' := by
  have hnil : Plain [] := List.forall_mem_nil _
  have hempty : ∀ {l}, (h.loops l).agenda = [] → Plain (h.loops l).agenda := fun ha => ha ▸ hnil
  have huser : ∀ {l o rest}, (h.loops l).agenda = .userCode o :: rest → Plain (.userCode o :: rest) := by
    intro l o rest ha
    have htidy := hn.tidy l
    rw [ha] at htidy
    exact List.forall_mem_cons.mpr ⟨rfl, tidy_head htidy rfl⟩
  cases hs with
  | eloop l b e _ _ he => exact .idle rfl rfl fun k => setEloop_agenda ..
  | poll l woken active e _ _ _ he => exact .idle rfl rfl fun k => by rw [setEloop_agenda, setActive_agenda]
  | dispatch l o revents active _ _ _ => exact .idle rfl rfl fun k => by rw [setCallbacks_agenda, setActive_agenda]
  | callback l r w o cb callbacks x hc hl ha hx =>
    obtain ⟨howns, hreg⟩ := hi.handled l o (Loop.mem_handled hc)
    have hplain := hempty ha
    have hres : h.Resumes ((h.setCallbacks l callbacks).resume l [] x) l [] x :=
      ⟨rfl, fun k => by rw [resumes_resume.2, setCallbacks_agenda]⟩
    have hmade := TcpServer.handle_made howns.2 hx
    have hserved : h.served (.callback l r w) = (cb.served r w).map (o, ·) := by
      rw [served, hc]
      rfl
    cases hk : cb.served r w with
    | none =>
      rw [hk] at hmade hserved
      exact .spares l [] x hserved hres hmade hnil hplain
    | some k =>
      rw [hk] at hmade hserved
      have hfits : k.Fits (h.server.conn o) ∧ k.isRest = false := by
        cases cb <;> cases hk <;> exact ⟨hreg, rfl⟩
      exact .calls l o k [] x hserved howns hres hmade hfits.1 hnil (ready_plain hfits.2 hplain)
        fun o _ => restOf_plain hplain o
  | accept x _ hfree hx =>
    exact .spares 0 [] x rfl resumes_resume (TcpServer.newConn_spared hx) hnil (hempty hfree.1)
  | call l f e ha hl he =>
    have hplain := hempty ha
    have hend : Plain [Instr.running f] := List.forall_mem_singleton.mpr rfl
    have hfits := fun o k => functor_fits (o := o) (k := k) hi (mem_call hl he)
    have hbody := TcpServer.body_made (s := h.server) (f := f) fun o k hk => (hfits o k hk).1.2
    have hresume : h.Resumes (h.resume l [] ((h.server.body f).1, (h.server.body f).2 ++ [.running f])) l []
        ((h.server.body f).1, (h.server.body f).2 ++ [.running f]) := resumes_resume
    have hres := hresume.setEloop l e
    cases hk : f.served with
    | none =>
      rw [hk] at hbody
      exact .spares l [] _ hk hres ⟨hbody.1, hbody.2.append hend⟩ hnil hplain
    | some p =>
      obtain ⟨o, k⟩ := p
      rw [hk] at hbody
      obtain ⟨howns, hfit, hbegins⟩ := hfits o k hk
      exact .calls l o k [] _ hk howns hres (hbody.more hend) hfit hnil (ready_plain hbegins hplain)
        fun o _ => restOf_plain hplain o
  | exec l i rest x ha hl hx => exact exec_does hi hn ha hl hx
  | queue l k f rest e ha hl hk he =>
    refine .queues l _ rest (h.server.recordQueue f, [.endQueue k]) ?_ ha rfl (resumes_resume.setEloop k e) ?_
      (List.forall_mem_singleton.mpr rfl)
    · rw [served, ha]
      rfl
    · cases f <;> rfl
  | endQueue l k rest e ha hl hk he =>
    refine .queues l _ rest (h.server, []) ?_ ha rfl (resumes_setAgenda.setEloop k e) rfl (List.forall_mem_nil _)
    rw [served, ha]
    rfl
  | send l data w o rest x ha hl hx =>
    have howns := hi.server.assigned _ (mem_head hl ha)
    have hplain := huser ha
    rw [← ha] at hplain
    refine .calls l o (.send data w) _ x (by rw [served, ha]; rfl) howns resumes_resume
      (TcpServer.made_settle? howns.2 (fun c es hr => ?_) hx) trivial (huser ha) (ready_plain rfl hplain)
      fun o _ => restOf_plain hplain o
    rw [Served.Call.run, hr]
    rfl
  | shutdown l o rest ha hl =>
    have howns := hi.server.assigned _ (mem_head hl ha)
    have hplain := huser ha
    rw [← ha] at hplain
    exact .calls l o .shutdown _ _ (by rw [served, ha]; rfl) howns resumes_resume
      (TcpServer.made_settle howns.2 rfl (by simp)) trivial (huser ha) (ready_plain rfl hplain)
      fun o _ => restOf_plain hplain o
  | endUserCode l o rest ha hl =>
    have hplain := huser ha
    exact .spares l rest (h.server, []) rfl resumes_setAgenda ⟨fun _ _ => rfl, hnil⟩
      (fun i hi => hplain i (List.mem_cons_of_mem _ hi)) (ha ▸ hplain)

/-- A step leaves agendas tidy, and nothing on them of a connection that was not there before. -/
theorem does_neat (hn : h.Neat) (hd : h.Does a h') : (∀ l, Tidy (h'.loops l).agenda) ∧
    ∀ l o, h.server.accepted ≤ o → restOf o (h'.loops l).agenda = none := by
  have hresumes : ∀ {l rest} {x : TcpServer × List Instr}, h.Resumes h' l rest x → Tidy (x.2 ++ rest) →
      (∀ o, h.server.accepted ≤ o → restOf o (x.2 ++ rest) = none) → (∀ l, Tidy (h'.loops l).agenda) ∧
        ∀ l o, h.server.accepted ≤ o → restOf o (h'.loops l).agenda = none := by
    intro l rest x hs ht hno
    refine ⟨fun k => ?_, fun k o ho => ?_⟩
    · rw [hs.2]
      split
      · exact ht
      · exact hn.tidy k
    · rw [hs.2]
      split
      · exact hno o ho
      · exact hn.none k o ho
  cases hd with
  | calls l o k rest x _ hl hs hm hf hr _ _ =>
    obtain ⟨c, es, next, more, hrun, -, his, hmore⟩ := hm
    obtain ⟨htidy, -, hothers⟩ := leftBy_spec hf hrun l o
    have hback := hmore.append hr
    refine hresumes hs ?_ fun o' ho => ?_
    · rw [his, List.append_assoc]
      exact htidy.append hback
    · have hne : o' ≠ o := Nat.ne_of_gt (hl.1.trans_le ho)
      rw [his, List.append_assoc, restOf_append hback, hothers o' hne]
  | spares l rest x _ hs hx hr _ =>
    have hplain := hx.2.append hr
    exact hresumes hs hplain.tidy fun o _ => restOf_plain hplain o
  | queues l i rest x _ ha hi hs _ hq =>
    have htidy := hn.tidy l
    have hnone := hn.none l
    rw [ha] at htidy hnone
    refine hresumes hs (tidy_queues hq htidy.2) fun o ho => ?_
    rw [restOf_queues hq, ← restOf_cons rest hi]
    exact hnone o ho
  | idle _ hserver hag =>
    refine ⟨fun k => ?_, fun k o ho => ?_⟩
    · rw [hag]
      exact hn.tidy k
    · rw [hag]
      exact hn.none k o ho

/-- The connection follows the step. -/
theorem step_follows (hd : h.Does a h') (ho : o < h.server.accepted) (hv : h.Follows o v) :
    ∃ v', exec Served.step v (h.callsOf o a) = some v' ∧ h'.Follows o v' := by
  have hnone : h.callsOf o a = [] → h'.Follows o v → ∃ v', exec Served.step v (h.callsOf o a) = some v' ∧
      h'.Follows o v' := by
    intro ha hv'
    refine ⟨v, ?_, hv'⟩
    rw [ha]
    rfl
  cases hd with
  | calls l o' k rest x ha hl hs hm hf hr hready hothers =>
    by_cases he : o' = o
    · subst he
      obtain ⟨v', hstep, hv'⟩ := hv.made hl.2 hs hm hf hr (hready v)
      refine ⟨v', ?_, hv'⟩
      rw [callsOf, ha]
      simp only [if_true]
      exact exec_cons_some.mpr ⟨v', hstep, rfl⟩
    · obtain ⟨c, es, next, more, hrun, hserver, his, hmore⟩ := hm
      refine hnone (by rw [callsOf, ha]; exact if_neg he) (hv.spared hs ?_ ?_)
      · rw [hserver, TcpServer.setConn_conn, if_neg (Ne.symm he)]
      · rw [his, List.append_assoc, restOf_append (hmore.append hr), hothers o (Ne.symm he),
          (leftBy_spec hf hrun l o').2.2 o (Ne.symm he)]
  | spares l rest x ha hs hx hr hold =>
    refine hnone (by rw [callsOf, ha]) (hv.spared hs (hx.1 o ho) ?_)
    rw [restOf_plain (hx.2.append hr), restOf_plain hold]
  | queues l i rest x ha hag hi hs hx hq =>
    refine hnone (by rw [callsOf, ha]) (hv.spared hs (by rw [hx]) ?_)
    rw [hag, restOf_cons rest hi, restOf_queues hq]
  | idle ha hserver hag =>
    refine hnone (by rw [callsOf, ha]) ⟨by rw [hserver]; exact hv.conn, ?_⟩
    rw [hserver, hag]
    exact hv.next

/-! ### Whole runs -/

/-- All that the server has done with the connection `o` in the run `tr` from `h₀`. -/
def Lives (h₀ : Host) (tr : List Act) (o : ConnNo) (v : Served.State) : Prop :=
  ∃ c, TcpConn.create v.conn.loop v.conn.id {h₀.server.callbacks with close := true} h₀.server.highWaterMark = .ok c ∧
    exec Served.step (Served.start c) (seen step (callsOf o) h₀ tr) = some v

/-- A connection that is new has done nothing. -/
theorem follows_new (hi : h.Sound) (hn : h.Neat) (hs : Step h a h') (ho : h.server.accepted ≤ o)
    (ho' : o < h'.server.accepted) : ∃ c, TcpConn.create c.loop c.id {h.server.callbacks with close := true}
      h.server.highWaterMark = .ok c ∧ h'.Follows o (Served.start c) := by
  obtain ⟨done, made, -, hd⟩ := step_did hi hs
  obtain ⟨rfl, -, -, c, hc, hserver⟩ := hd.new ho ho'
  obtain ⟨hloop, hid, -, -⟩ := TcpServer.create_new hc
  refine ⟨c, by rw [hloop, hid]; exact hc, ?_, ?_⟩
  · rw [hserver, TcpServer.enroll_conn, if_pos rfl]
    rfl
  · exact ((does_neat hn (step_does hi hn hs)).2 _ _ le_rfl).symm

theorem create_neat (numThreads : Nat) (callbacks : Callbacks) (mark : Nat) :
    (create numThreads callbacks mark).Neat :=
  ⟨fun _ => trivial, fun _ _ _ => rfl⟩

/-- What is known of a run from `h₀`. -/
structure Followed (h₀ : Host) (tr : List Act) (h : Host) : Prop where
  sound : h.Sound
  neat : h.Neat
  callbacks : h.server.callbacks = h₀.server.callbacks
  highWaterMark : h.server.highWaterMark = h₀.server.highWaterMark
  unborn : ∀ o, h.server.accepted ≤ o → seen step (callsOf o) h₀ tr = []
  lives : ∀ o < h.server.accepted, ∃ v, Lives h₀ tr o v ∧ h.Follows o v

/-- No function is called of a connection that is not there. -/
theorem callsOf_unborn (hd : h.Does a h') (ho : h.server.accepted ≤ o) : h.callsOf o a = [] := by
  cases hd with
  | calls l o' k rest x ha hl _ _ _ _ _ _ =>
    rw [callsOf, ha]
    exact if_neg (Nat.ne_of_lt (hl.1.trans_le ho))
  | spares _ _ _ ha | queues _ _ _ _ ha | idle ha => rw [callsOf, ha]

theorem Follows.lives {h₀ : Host} {tr : List Act} (hr : exec step h₀ tr = some h) (hs : h.step a = some h')
    (hv : Lives h₀ tr o v) (ho : o < h.server.accepted) (hf : h.Follows o v) (hd : h.Does a h') :
    ∃ v', Lives h₀ (tr ++ [a]) o v' ∧ h'.Follows o v' := by
  obtain ⟨v', hstep, hv'⟩ := step_follows hd ho hf
  obtain ⟨c, hc, hrun⟩ := hv
  have hrun' := exec_seen_snoc hr hs hrun hstep
  have hsame := (Served.run_frame hrun).symm.trans (Served.run_frame hrun')
  refine ⟨v', ⟨c, ?_, hrun'⟩, hv'⟩
  rw [hsame.loop, hsame.id]
  exact hc

theorem run_followed {numThreads mark : Nat} {callbacks : Callbacks} {tr : List Act}
    (hr : exec step (create numThreads callbacks mark) tr = some h) :
    Followed (create numThreads callbacks mark) tr h := by
  refine run_induction (Followed (create numThreads callbacks mark)) ?_ ?_ hr
  · exact ⟨create_sound .., create_neat .., rfl, rfl, fun _ _ => rfl, fun o ho => absurd ho (Nat.not_lt_zero o)⟩
  · intro tr h a h' hr hf hs
    have hstep := step_cases hs
    have hd := step_does hf.sound hf.neat hstep
    obtain ⟨done, made, -, hdid⟩ := step_did hf.sound hstep
    obtain ⟨hcb, hmark⟩ := hdid.settings
    obtain ⟨htidy, hnone⟩ := does_neat hf.neat hd
    refine ⟨step_sound hf.sound hs, ⟨htidy, fun l o ho => hnone l o (hdid.accepted_le.trans ho)⟩,
      hcb.trans hf.callbacks, hmark.trans hf.highWaterMark, fun o ho => ?_, fun o ho => ?_⟩
    · have ho' := hdid.accepted_le.trans ho
      rw [seen_snoc hr hs, hf.unborn o ho', callsOf_unborn hd ho']
      rfl
    · by_cases ho' : o < h.server.accepted
      · obtain ⟨v, hv, hfv⟩ := hf.lives o ho'
        exact hfv.lives hr hs hv ho' hd
      · have hold := Nat.le_of_not_lt ho'
        obtain ⟨c, hc, hnew⟩ := follows_new hf.sound hf.neat hstep hold ho
        rw [hf.callbacks, hf.highWaterMark] at hc
        refine ⟨Served.start c, ⟨c, hc, ?_⟩, hnew⟩
        rw [seen_snoc hr hs, hf.unborn o hold, callsOf_unborn hd hold]
        rfl

/-- **Each connection on its own.** Whatever the loops of a server do, and in whatever
order, all that it does with one of its connections is a run of this connection: it begins
with the connection as it was made, establishes it before anything can happen to it, makes
one call after the other, and ends in the connection that the server has. -/
theorem conns_follow {numThreads mark : Nat} {callbacks : Callbacks} {tr : List Act}
    (hr : exec step (create numThreads callbacks mark) tr = some h) (ho : o < h.server.accepted) :
    ∃ v, Lives (create numThreads callbacks mark) tr o v ∧ h.Follows o v :=
  (run_followed hr).lives o ho

/-- User code sends more than the kernel takes at once and shuts the connection down; the io
loop writes the rest, and closes the write side. -/
def flushed : List Act :=
  established.take 19 ++ [.send 1 [1, 2, 3] (.accepts 1), .shutdown 1] ++ established.drop 19 ++
    [.poll 1 false [(0, writeEvent)], .dispatch 1, .callback 1 (.received []) (.accepts 9), .exec 1]

theorem conns_follow_flushed : ∃ h, exec step (create 1 ⟨true, true, false, false, false⟩ 64) flushed = some h ∧
    ∃ v, Lives (create 1 ⟨true, true, false, false, false⟩ 64) flushed 0 v ∧ h.Follows 0 v :=
  ⟨_, (Option.some_get (by decide +kernel)).symm,
    conns_follow (Option.some_get (by decide +kernel)).symm (by decide +kernel)⟩

/-- **The outgoing streams of a server.** Of each of its connections, in every state before
a direct write of it fails for good: what the kernel has accepted and what is still buffered
is, in order, what was sent while the connection was open; the write side is shut down at
most once, when all of it has been accepted, and nothing is written afterwards. -/
theorem streams_intact {numThreads mark : Nat} {callbacks : Callbacks} {tr : List Act}
    (hr : exec step (create numThreads callbacks mark) tr = some h) (ho : o < h.server.accepted) :
    ∃ v, Lives (create numThreads callbacks mark) tr o v ∧ (NoFault v.log →
      accepted v.log ++ (h.server.conn o).outputBuf.readable = v.promised ∧ v.log.count .shutdownWrite ≤ 1 ∧
        ∀ front back, v.log = front ++ .shutdownWrite :: back →
          accepted front = v.promised ∧ ∀ e ∈ back, e.isWrite = false) := by
  obtain ⟨v, hv, hf⟩ := (run_followed hr).lives o ho
  refine ⟨v, hv, fun hok => ?_⟩
  obtain ⟨c, hc, hrun⟩ := hv
  have hwhole := Served.run_whole hc hrun hok
  refine ⟨?_, hwhole.half_close⟩
  rw [← hf.conn]
  exact hwhole.stream

theorem streams_intact_flushed : ∃ h, exec step (create 1 ⟨true, true, false, false, false⟩ 64) flushed = some h ∧
    (h.server.conn 0).outputBuf.readable = [] ∧
    ∃ v, Lives (create 1 ⟨true, true, false, false, false⟩ 64) flushed 0 v ∧ (NoFault v.log →
      accepted v.log ++ (h.server.conn 0).outputBuf.readable = v.promised ∧ v.log.count .shutdownWrite ≤ 1 ∧
        ∀ front back, v.log = front ++ .shutdownWrite :: back →
          accepted front = v.promised ∧ ∀ e ∈ back, e.isWrite = false) :=
  ⟨_, (Option.some_get (by decide +kernel)).symm, by decide +kernel,
    streams_intact (Option.some_get (by decide +kernel)).symm (by decide +kernel)⟩

/-- The write interest of the connection, and what is due to its write side. -/
def Armed (h : Host) (o : ConnNo) (log : List Effect) : Prop :=
  match (h.server.conn o).state with
  | .connenting => (h.server.conn o).outputBuf.readable = []
  | .connected => ∃ mask, (h.server.conn o).ch.registered = some mask ∧
    (mask.pollOut = true ↔ 0 < (h.server.conn o).outputBuf.readableBytes)
  | .disconnenting => ∃ mask, (h.server.conn o).ch.registered = some mask ∧
    (mask.pollOut = true ↔ 0 < (h.server.conn o).outputBuf.readableBytes) ∧
    (mask.pollOut = true ∨ .finishWrite o ∈ (h.loops (h.server.conn o).loop).agenda ∨ .shutdownWrite ∈ log)
  | .disconnected => (h.server.conn o).ch.isWriting = false

theorem Follows.armed {log : List Effect} (hf : h.Follows o v) (hk : Served.Kept v) (hlog : v.log = log) :
    h.Armed o log := by
  have hw := hk.watched
  rw [hf.conn] at hw
  have hmask : (h.server.conn o).state = .connected ∨ (h.server.conn o).state = .disconnenting →
      (h.server.conn o).ch.registered = some (h.server.conn o).ch.events ∧
        ((h.server.conn o).ch.events.pollOut = true ↔ 0 < (h.server.conn o).outputBuf.readableBytes) := by
    intro hs
    obtain ⟨hin, harmed⟩ := hw.live hs
    refine ⟨hin.2, ?_⟩
    rw [Nat.pos_iff_ne_zero, ← TcpConn.readable_ne_nil hw.wf]
    exact harmed
  unfold Armed
  split
  · rename_i hs
    exact (hw.fresh hs).2
  · rename_i hs
    exact ⟨_, hmask (.inl hs)⟩
  · rename_i hs
    obtain ⟨hreg, hiff⟩ := hmask (.inr hs)
    refine ⟨_, hreg, hiff, ?_⟩
    have hdue := hk.due (by rw [hf.conn]; exact hs)
    rw [hf.conn, hf.next, hlog] at hdue
    refine hdue.imp_right (Or.imp_left fun hnext => ?_)
    by_contra hno
    rw [restOf, if_neg hno] at hnext
    split at hnext <;> cases hnext
  · rename_i hs
    exact hw.dead hs

/-- **The backlogs of a server.** Each of its connections that is open has write interest
exactly while bytes wait in its output buffer. One that is shutting down has either still
something to write, or is at the end of `handle_write`, or has its write side shut down. One
that is closed has no write interest. -/
theorem backlogs_armed {numThreads mark : Nat} {callbacks : Callbacks} {tr : List Act}
    (hr : exec step (create numThreads callbacks mark) tr = some h) (ho : o < h.server.accepted) :
    ∃ v, Lives (create numThreads callbacks mark) tr o v ∧ h.Armed o v.log := by
  obtain ⟨v, hv, hf⟩ := (run_followed hr).lives o ho
  refine ⟨v, hv, ?_⟩
  obtain ⟨c, hc, hrun⟩ := hv
  exact hf.armed (Served.run_kept hc hrun) rfl

/-- The connection before the io loop has written the rest. -/
theorem backlogs_armed_waiting : ∃ h,
    exec step (create 1 ⟨true, true, false, false, false⟩ 64) (flushed.take 26) = some h ∧
    (h.server.conn 0).state = .disconnenting ∧ (h.server.conn 0).outputBuf.readable = [2, 3] ∧
    ∃ v, Lives (create 1 ⟨true, true, false, false, false⟩ 64) (flushed.take 26) 0 v ∧ h.Armed 0 v.log :=
  ⟨_, (Option.some_get (by decide +kernel)).symm, by decide +kernel, by decide +kernel,
    backlogs_armed (Option.some_get (by decide +kernel)).symm (by decide +kernel)⟩

end Host

end Caimr.Net
