import Caimr.Net.ServerWork

/-! What the functions of the server and of its connections leave on an agenda, and what
they are to the bag of work. -/
namespace Caimr.Net
open Bag

/-! ### The order of an agenda -/

/-- What follows an instruction: no connection callback, which comes before anything else,
and the end of the functor that it is a part of. -/
structure Instr.Leads (i : Instr) (rest : List Instr) : Prop where
  first : ∀ o, .connCallback o ∉ rest
  erasing : ∀ k o, i = .queue k (.destroyConn o) → .running (.removeConnInLoop o) ∈ rest
  removing : ∀ o, i = .removeChan o → .running (.destroyConn o) ∈ rest

def Ordered : List Instr → Prop
  | [] => True
  | i :: rest => i.Leads rest ∧ Ordered rest

theorem leads_idle {i : Instr} {rest : List Instr} (hi : i.isIdle = true) (hr : ∀ o, .connCallback o ∉ rest) :
    i.Leads rest := by
  refine ⟨hr, fun k o he => ?_, fun o he => ?_⟩
  · subst he
    cases hi
  · subst he
    cases hi

/-- What can be put before the rest of an agenda. -/
structure Fronts (is : List Instr) : Prop where
  ordered : ∀ rest, (∀ o, .connCallback o ∉ rest) → Ordered rest → Ordered (is ++ rest)
  deferred : ∀ o, .run (.destroyConn o) ∉ is

theorem fronts_idle {is : List Instr} (h : ∀ i ∈ is, i.isIdle = true) : Fronts is := by
  refine ⟨fun rest hr ho => ?_, fun o ho => by cases h _ ho⟩
  induction is with
  | nil => exact ho
  | cons i is ih =>
    have his : ∀ j ∈ is, j.isIdle = true := fun j hj => h j (List.mem_cons_of_mem _ hj)
    refine ⟨leads_idle (h i List.mem_cons_self) fun o hmem => ?_, ih his⟩
    rcases List.mem_append.mp hmem with hmem | hmem
    · cases his _ hmem
    · exact hr o hmem

/-- A connection callback comes first. -/
theorem Fronts.connCallback {is : List Instr} (h : Fronts is) (hc : ∀ o, .connCallback o ∉ is) (o : ConnNo)
    (up : Bool) : Fronts ((if up then [.connCallback o] else []) ++ is) := by
  split
  · refine ⟨fun rest hr ho => ⟨⟨fun o' hmem => ?_, nofun, nofun⟩, h.ordered rest hr ho⟩, fun o' hmem => ?_⟩
    · rcases List.mem_append.mp hmem with hmem | hmem
      · exact hc o' hmem
      · exact hr o' hmem
    · rcases List.mem_cons.mp hmem with hmem | hmem
      · cases hmem
      · exact h.deferred o' hmem
  · exact h

/-- One instruction that is none of those that stand in a fixed place. -/
theorem fronts_singleton {i : Instr} (hc : ∀ k o, i ≠ .queue k (.destroyConn o)) (hr : ∀ o, i ≠ .removeChan o)
    (hd : ∀ o, i ≠ .run (.destroyConn o)) : Fronts [i] := by
  refine ⟨fun rest hf ho => ⟨⟨hf, fun k o he => absurd he (hc k o), fun o he => absurd he (hr o)⟩, ho⟩, ?_⟩
  intro o ho
  exact hd o (List.mem_singleton.mp ho).symm

theorem fronts_runInLoop {l k : LoopId} {f : Functor} (h : ∀ o, f ≠ .destroyConn o) : Fronts [runInLoop l k f] := by
  unfold runInLoop
  split
  · exact fronts_singleton nofun nofun fun o he => h o (by cases he; rfl)
  · exact fronts_singleton (fun _ o he => h o (by cases he; rfl)) nofun nofun

/-! ### The functions -/

namespace TcpServer

variable {P : Scope} {s : TcpServer} {b : Multiset Item} {l : LoopId} {o : ConnNo}

theorem instrs_spares (hl : s.Owns l o) {e : Effect} (he : e.isQuiet = true) :
    ∀ i ∈ e.instrs l o, s.Spares (l, i) := by
  intro i hi
  cases e with
  | write | shutdownWrite => cases hi
  | queueWriteComplete | queueHighWaterMark | msgCallback =>
    rw [List.mem_singleton.mp hi]
    exact ⟨rfl, hl⟩
  | connCallback | closeCallback | removeChan => cases he

theorem effects_spares (hl : s.Owns l o) {es : List Effect} (hes : ∀ e ∈ es, e.isQuiet = true) :
    ∀ i ∈ es.flatMap (Effect.instrs l o), s.Spares (l, i) := by
  intro i hi
  obtain ⟨e, he, hi⟩ := List.mem_flatMap.mp hi
  exact instrs_spares hl (hes e he) i hi

/-- What a function does to the server, with the instructions it leaves. -/
structure Leaves (P : Scope) (s : TcpServer) (l : LoopId) (done : Multiset Item)
    (x : TcpServer × List Instr) : Prop where
  did : s.Did P done (on l x.2) x.1
  fronts : Fronts x.2
  removes : ∀ o, .removeChan o ∈ x.2 → (l, .run (.destroyConn o)) ∈ done

theorem Leaves.calm {x : TcpServer × List Instr} (h : s.Leaves P l 0 x) (o : ConnNo) : .removeChan o ∉ x.2 :=
  fun ho => Multiset.notMem_zero _ (h.removes o ho)

/-- What ends and leaves nothing. -/
theorem leaves_nothing {i : Instr} (hi : i.isIdle = true) : s.Leaves P l (on l [i]) (s, []) := by
  refine ⟨.idle _ _ (forall_on ?_) (by simp), fronts_idle (by simp), by simp⟩
  intro j hj
  rw [List.mem_singleton.mp hj]
  exact hi

theorem leaves_quiet {c : TcpConn} {es : List Effect} (hl : s.Owns l o) (hp : P.calls o) (hq : (s.conn o).Quiet c es)
    {more : List Instr} (hmore : ∀ i ∈ more, s.Spares (l, i)) :
    s.Leaves P l 0 ((s.settle o (c, es)).1, (s.settle o (c, es)).2 ++ more) := by
  have hloop : c.loop = l := hq.loop.trans hl.2
  have hall : ∀ i ∈ es.flatMap (Effect.instrs c.loop o) ++ more, s.Spares (l, i) := by
    intro i hi
    rw [hloop] at hi
    rcases List.mem_append.mp hi with hi | hi
    · exact effects_spares hl hq.effects i hi
    · exact hmore i hi
  exact ⟨.quiet l o c es _ hl hp hq (forall_on hall), fronts_idle fun i hi => (hall i hi).1,
    fun o' ho => by cases (hall _ ho).1⟩

theorem leaves_settle {c : TcpConn} {es : List Effect} (hl : s.Owns l o) (hp : P.calls o) (hq : (s.conn o).Quiet c es) :
    s.Leaves P l 0 (s.settle o (c, es)) := by
  have hnil : s.Leaves P l 0 ((s.settle o (c, es)).1, (s.settle o (c, es)).2 ++ []) := leaves_quiet hl hp hq nofun
  rwa [List.append_nil] at hnil

theorem leaves_close (hl : s.Owns l o) (hp : P.calls o) (hr : s.Registered o) (hc : P.closes o) (inputBuf : Buffer) :
    s.Leaves P l 0 (s.settle o {s.conn o with inputBuf := inputBuf}.handleClose) := by
  have hmade : (s.settle o {s.conn o with inputBuf := inputBuf}.handleClose).2 =
      (if (s.conn o).callbacks.conn then [.connCallback o] else []) ++
        if (s.conn o).callbacks.close then [.closeCallback o] else [] := by
    simp only [settle, TcpConn.handleClose, List.flatMap_append]
    congr 1 <;> split <;> rfl
  refine ⟨?_, ?_, ?_⟩
  · rw [hmade]
    exact .close l o inputBuf hl hp hr hc
  · rw [hmade]
    refine Fronts.connCallback ?_ ?_ o _
    · split
      · exact fronts_singleton nofun nofun nofun
      · exact fronts_idle nofun
    · split <;> simp
  · rw [hmade]
    split <;> split <;> simp

/-- The callbacks of a channel that is in the poller. -/
theorem handle_leaves {r : ReadResult} {w : WriteResult} {cb : Chan.Callback} {x : TcpServer × List Instr}
    (hl : s.Owns l o) (hr : s.Registered o) (hp : P.calls o)
    (hc : cb = .close ∨ cb = .read ∧ r.IsEof → P.closes o)
    (h : s.handle o r w cb = some x) : s.Leaves P l 0 x := by
  cases cb with
  | close =>
    cases h
    exact leaves_close hl hp hr (hc (.inl rfl)) _
  | error =>
    cases h
    have hsame : s.Leaves P l 0 (s.settle o (s.conn o, [])) := leaves_settle hl hp (.refl _ nofun)
    rwa [settle, Function.update_eq_self] at hsame
  | read =>
    simp only [handle, settle?] at h
    split at h
    · rename_i y hy
      cases h
      obtain ⟨c, es⟩ := y
      rcases TcpConn.handleRead_cases hy with hq | ⟨heof, inputBuf, he⟩
      · exact leaves_settle hl hp hq
      · rw [he]
        exact leaves_close hl hp hr (hc (.inr ⟨rfl, heof⟩)) inputBuf
    · cases h
  | write =>
    simp only [handle] at h
    split at h
    · rename_i c es drained hf
      cases h
      refine leaves_quiet hl hp (TcpConn.flush_quiet hr hf) fun i hi => ?_
      split at hi
      · rw [List.mem_singleton.mp hi]
        exact ⟨rfl, hl⟩
      · cases hi
    · cases h

theorem removeChan_runInLoop {k : LoopId} {f : Functor} {done : Multiset Item} (o : ConnNo)
    (h : .removeChan o ∈ [runInLoop l k f]) : (l, .run (.destroyConn o)) ∈ done := by
  unfold runInLoop at h
  split at h <;> cases List.mem_singleton.mp h

/-- A connection that waits to be established is new. -/
theorem Sound.connenting (hs : s.Sound b) (h : (l, .run (.establishConn o)) ∈ b) :
    (s.conn o).state = .connenting := by
  have ho : o < s.accepted := (hs.assigned _ h).1
  have honce := hs.once o ho
  have hpos : tokens (Instr.establishes o) b ≠ 0 := fun hz => tokens_eq_zero.mp hz _ h (by simp [Instr.establishes])
  split at honce
  · assumption
  · omega

/-- The functors. -/
theorem body_leaves {f : Functor} (hs : s.Sound b) (h : (l, .run f) ∈ b) :
    s.Leaves P l {(l, .run f)} ((s.body f).1, (s.body f).2 ++ [.running f]) := by
  have hplace := hs.assigned _ h
  cases f with
  | establishConn o =>
    have hmade : (s.body (.establishConn o)).2 = if (s.conn o).callbacks.conn then [.connCallback o] else [] := by
      simp only [body, settle, TcpConn.establishConn]
      split <;> rfl
    refine ⟨?_, ?_, ?_⟩
    · rw [hmade]
      exact .establish l o hplace (hs.connenting h)
    · rw [hmade]
      exact (fronts_idle (by simp [Instr.isIdle])).connCallback (by simp) o _
    · rw [hmade]
      split <;> simp
  | destroyConn o =>
    have hbody : s.body (.destroyConn o) = (s, [.removeChan o]) := by
      have hconn : (s.conn o).destroyConn = (s.conn o, [.removeChan]) := by
        rw [TcpConn.destroyConn, if_neg]
        rw [show (s.conn o).state = .disconnected from hplace.2]
        nofun
      rw [body, hconn, settle, Function.update_eq_self]
      rfl
    rw [hbody]
    refine ⟨.destroy l o hplace.1 hplace.2, ⟨fun rest hr ho => ⟨⟨?_, nofun, ?_⟩, ⟨⟨hr, nofun, nofun⟩, ho⟩⟩, by simp⟩,
      by simp⟩
    · simpa using hr
    · intro o' he
      cases he
      exact List.mem_cons_self
  | removeConnInLoop o =>
    refine ⟨.erase l o hplace.2.1 hplace.2.2,
      ⟨fun rest hr ho => ⟨⟨?_, ?_, nofun⟩, ⟨⟨hr, nofun, nofun⟩, ho⟩⟩, ?_⟩, by simp [body]⟩
    · simpa using hr
    · intro k o' he
      cases he
      exact List.mem_cons_self
    · simp [body]
  | writeComplete o | highWaterMark o =>
    refine ⟨.idle _ _ (by simp [Instr.isIdle, Functor.isIdle]) (forall_on fun i hi => ?_),
      fronts_idle (by simp [body, Instr.isIdle]), by simp [body]⟩
    rcases List.mem_pair.mp hi with hi | hi <;> rw [hi]
    · exact ⟨rfl, hplace⟩
    · exact ⟨rfl, trivial⟩

/-- The instructions, but for those that take a functor to another loop, and for
`destroy_conn`, which is never called at once. -/
theorem exec_leaves {i : Instr} {x : TcpServer × List Instr} (hs : s.Sound b) (hi : (l, i) ∈ b)
    (h : s.exec l i = some x) : s.Leaves P l {(l, i)} x := by
  have hplace := hs.assigned _ hi
  cases i with
  | connCallback o =>
    cases h
    exact ⟨.connCallback l o hplace, fronts_idle (by simp [Instr.isIdle]), by simp⟩
  | closeCallback o =>
    cases h
    exact ⟨.closeCallback l o hplace.1 hplace.2, fronts_runInLoop nofun, removeChan_runInLoop⟩
  | finishWrite o =>
    cases h
    have hspares : ∀ i ∈ (s.settle o (s.conn o, (s.conn o).finishWrite true)).2, s.Spares (l, i) := by
      have hl : (s.conn o).loop = l := hplace.2
      rw [settle, hl]
      exact effects_spares hplace (TcpConn.finishWrite_isQuiet _ _)
    have hself : (s.settle o (s.conn o, (s.conn o).finishWrite true)).1 = s := setConn_self s o
    refine ⟨?_, fronts_idle fun i hi => (hspares i hi).1, fun o' ho => by cases (hspares _ ho).1⟩
    rw [hself]
    exact .idle _ _ (by simp [Instr.isIdle]) (forall_on hspares)
  | removeChan o =>
    cases h
    exact ⟨.removeChan l o hplace.1 hplace.2, fronts_idle nofun, nofun⟩
  | run f =>
    cases h
    exact body_leaves hs hi
  | running f =>
    cases h
    exact ⟨.idle _ _ (by simp [Instr.isIdle]) nofun, fronts_idle nofun, nofun⟩
  | userCode | queue | endQueue => cases h

theorem newConn_leaves {x : TcpServer × List Instr} (h : s.newConn = some x) : s.Leaves P 0 0 x := by
  simp only [newConn] at h
  split at h
  · rename_i c hc
    cases h
    exact ⟨.accept c hc, fronts_runInLoop nofun, removeChan_runInLoop⟩
  · cases h

theorem send_leaves {data : Bytes} {w : WriteResult} {x : TcpServer × List Instr} (hl : s.Owns l o)
    (hp : P.calls o) (h : s.settle? o ((s.conn o).send data w) = some x) : s.Leaves P l 0 x := by
  unfold settle? at h
  split at h
  · rename_i y hy
    cases h
    obtain ⟨c, es⟩ := y
    exact leaves_settle hl hp (TcpConn.send_quiet hy)
  · cases h

theorem shutdown_leaves (hl : s.Owns l o) (hp : P.calls o) : s.Leaves P l 0 (s.settle o (s.conn o).shutdown) :=
  leaves_settle hl hp (TcpConn.shutdown_quiet _)

end TcpServer

end Caimr.Net
