import Caimr.Net.ServerLoops

/-! How often a connection is closed. `handle_close` does not look at `state_`: it closes
once for every hang-up that `poll` reports and for every end of stream that is read, until
`destroy_conn` takes the channel out of the poller. Each closing has its callbacks and its
`destroy_conn`, no more. -/
namespace Caimr.Net
open Bag Transition

/-! ### Work that ends in a record -/

namespace Instr

/-- Ends in a call of the close callback. -/
def closes (o : ConnNo) : Instr → Bool
  | .closeCallback o' => o' = o
  | _ => false

/-- Ends in a `queue_in_loop` of `destroy_conn`. -/
def destroys (o : ConnNo) : Instr → Bool
  | .closeCallback o' | .queue _ (.removeConnInLoop o') | .run (.removeConnInLoop o')
  | .queue _ (.destroyConn o') => o' = o
  | _ => false

/-- Ends in a call of the connection callback. -/
def reports (o : ConnNo) : Instr → Bool
  | .connCallback o' => o' = o
  | _ => false

end Instr

theorem closes_vital (o : ConnNo) : Vital (Instr.closes o) := by
  intro i hi
  cases i <;> first | rfl | cases hi

theorem destroys_vital (o : ConnNo) : Vital (Instr.destroys o) := by
  intro i hi
  unfold Instr.destroys
  split <;> first | rfl | cases hi

theorem reports_vital (o : ConnNo) : Vital (Instr.reports o) := by
  intro i hi
  cases i <;> first | rfl | cases hi

namespace TcpServer
variable {P : Scope} {s s' : TcpServer} {b b' done made : Multiset Item} {o : ConnNo}

instance (s : TcpServer) (o : ConnNo) : Decidable (s.Closed o) := inferInstanceAs (Decidable (_ = _))

/-- The connection has been closed. -/
def Ended (s : TcpServer) (o : ConnNo) : Prop := o < s.accepted ∧ s.Closed o

instance (s : TcpServer) (o : ConnNo) : Decidable (s.Ended o) := inferInstanceAs (Decidable (_ ∧ _))

def ended (s : TcpServer) (o : ConnNo) : Nat := if s.Ended o then 1 else 0

theorem Did.ended (h : s.Did P done made s') (ho : s.Ended o) : s'.Ended o :=
  ⟨ho.1.trans_le h.accepted_le, h.closed ho.1 ho.2⟩

theorem Did.ended_le (h : s.Did P done made s') (o : ConnNo) : s.ended o ≤ s'.ended o := by
  unfold TcpServer.ended
  split
  · rename_i hc
    rw [if_pos (h.ended hc)]
  · exact Nat.zero_le _

/-- What is recorded under `ev` is paid for with work of the kind `p`, and only closing the
connection `o` brings more of it, at most one. -/
def Pays (P : Scope) (p : Instr → Bool) (ev : Ev) (o : ConnNo) (s : TcpServer) (done made : Multiset Item)
    (s' : TcpServer) : Prop :=
  s'.log.count ev + tokens p made ≤ s.log.count ev + tokens p done ∨
    P.closes o ∧ s'.ended o = 1 ∧ s'.log.count ev + tokens p made ≤ s.log.count ev + tokens p done + 1

/-- Where only open connections are closed, there is one record for each that is. -/
theorem Pays.step {p : Instr → Bool} {ev : Ev} (hp : Pays P p ev o s done made s') (hd : s.Did P done made s')
    (hx : Exchange b done made b') (hopen : P.closes o → s.ended o = 0)
    (h : s.log.count ev + tokens p b ≤ s.ended o) : s'.log.count ev + tokens p b' ≤ s'.ended o := by
  have htokens := exchange_tokens p hx
  have hmono := hd.ended_le o
  rcases hp with hp | ⟨hc, he, hp⟩
  · omega
  · have h0 := hopen hc
    omega

theorem ended_close {l : LoopId} {o : ConnNo} (hl : s.Owns l o) (c : TcpConn) (hc : c.state = .disconnected) :
    (s.setConn o c).ended o = 1 := by
  refine if_pos ⟨hl.1, ?_⟩
  rw [Closed, setConn_conn, if_pos rfl]
  exact hc

/-- Each piece of work of the kind `p` leaves at most one of its kind or one record `ev`,
and only closing `o` starts one. -/
structure Funds (p : Instr → Bool) (ev : Ev) (o : ConnNo) : Prop where
  vital : Vital p
  start : ∀ o', p (.closeCallback o') = true → o' = o
  establish : ∀ l k o', p (runInLoop l k (.establishConn o')) = false
  connCallback : ∀ o', p (.connCallback o') = false
  record : ∀ o' up, ev ≠ .connCallback o' up
  removeChan : ∀ o', p (.removeChan o') = false
  closeCallback : ∀ l o', [Ev.closeCallback o'].count ev + [removeConn l o'].countP p ≤ [.closeCallback o'].countP p
  erase : ∀ k o', p (.queue k (.destroyConn o')) = true → p (.run (.removeConnInLoop o')) = true
  queue : ∀ (s : TcpServer) k f,
    (s.recordQueue f).log.count ev + [.run f].countP p ≤ s.log.count ev + [.queue k f].countP p

theorem Did.pays {p : Instr → Bool} {ev : Ev} (hf : Funds p ev o) (h : s.Did P done made s') :
    Pays P p ev o s done made s' := by
  have hone : ∀ (l : LoopId) (i : Instr), tokens p {(l, i)} = [i].countP p := fun l i => tokens_on p l [i]
  cases h with
  | idle _ _ hd hm => exact .inl (by rw [hf.vital.tokens hd, hf.vital.tokens fun x hx => (hm x hx).1])
  | quiet _ _ _ _ _ _ _ _ hm => exact .inl (by rw [hf.vital.tokens fun x hx => (hm x hx).1]; rfl)
  | close l o' inputBuf hl _ _ hc =>
    rw [Pays, tokens_on, List.countP_append]
    by_cases he : o' = o
    · subst he
      refine .inr ⟨hc, ended_close hl _ rfl, ?_⟩
      have hlast : [Instr.closeCallback o'].countP p ≤ 1 := List.countP_le_length
      split <;> split <;> simp_all [setConn, hf.connCallback]
    · have hno : ¬ p (.closeCallback o') = true := fun hp => he (hf.start o' hp)
      apply Or.inl
      split <;> split <;> simp [setConn, hf.connCallback, hno]
  | accept c hc =>
    apply Or.inl
    rw [tokens_singleton, if_neg (by simp [hf.establish])]
    exact le_rfl
  | establish l o' =>
    apply Or.inl
    have hend : p (.running (.establishConn o')) = false := hf.vital _ rfl
    rw [tokens_on, List.countP_append]
    split <;> simp [setConn, hf.connCallback, hend]
  | destroy l o' =>
    apply Or.inl
    have hend : p (.running (.destroyConn o')) = false := hf.vital _ rfl
    simp [hf.removeChan, hend]
  | erase l o' =>
    apply Or.inl
    have hend : p (.running (.removeConnInLoop o')) = false := hf.vital _ rfl
    rw [hone, tokens_on]
    by_cases hq : p (.queue (s.conn o').loop (.destroyConn o')) = true
    · simp [hend, hq, hf.erase _ _ hq]
    · simp [List.countP_cons, hend, hq]
  | connCallback l o' =>
    have huser : p (.userCode o') = false := hf.vital _ rfl
    apply Or.inl
    simp [hf.connCallback, huser, (hf.record o' _).symm]
  | closeCallback l o' =>
    have hpay := hf.closeCallback l o'
    apply Or.inl
    rw [hone, hone, List.count_append]
    omega
  | removeChan => exact .inl (by simp [setConn])
  | queue l k f =>
    have hend : p (.endQueue k) = false := hf.vital _ rfl
    have hpay := hf.queue s k f
    apply Or.inl
    rw [tokens_add, hone, hone, hone, List.countP_singleton, hend]
    simpa using hpay

theorem funds_closes (o : ConnNo) : Funds (Instr.closes o) (.closeCallback o) o where
  vital := closes_vital o
  start o' h := by simpa [Instr.closes] using h
  establish l k o' := by unfold runInLoop; split <;> rfl
  connCallback _ := rfl
  record _ _ := nofun
  removeChan _ := rfl
  closeCallback l o' := by
    unfold removeConn runInLoop
    by_cases he : o' = o <;> split <;> simp [Instr.closes, he]
  erase _ _ h := by cases h
  queue s k f := by cases f <;> simp [Instr.closes, recordQueue]

theorem funds_destroys (o : ConnNo) : Funds (Instr.destroys o) (.queueDestroy o) o where
  vital := destroys_vital o
  start o' h := by simpa [Instr.destroys] using h
  establish l k o' := by unfold runInLoop; split <;> rfl
  connCallback _ := rfl
  record _ _ := nofun
  removeChan _ := rfl
  closeCallback l o' := by
    unfold removeConn runInLoop
    split <;> simp [Instr.destroys]
  erase _ _ h := h
  queue s k f := by
    cases f with
    | destroyConn o' => by_cases he : o' = o <;> simp [Instr.destroys, recordQueue, he]
    | _ => simp [Instr.destroys, recordQueue]

/-! ### The connection callback -/

/-- The calls of the connection callback with the connection down, with the one that may
wait. Before the connection is closed there is none, and a callback waits only while the
connection is up. -/
structure DownOnce (s : TcpServer) (b : Multiset Item) (o : ConnNo) : Prop where
  once : s.log.count (.connCallback o false) + tokens (Instr.reports o) b ≤ 1
  before : ¬ s.Ended o → s.log.count (.connCallback o false) = 0
  up : ¬ s.Ended o → tokens (Instr.reports o) b ≠ 0 → (s.conn o).state = .connected

/-- A step that does not concern the connection. -/
theorem DownOnce.same (h : s.DownOnce b o) (hconn : s'.conn o = s.conn o) (hacc : o < s'.accepted ↔ o < s.accepted)
    (hlog : s'.log.count (.connCallback o false) = s.log.count (.connCallback o false))
    (hpend : tokens (Instr.reports o) b' = tokens (Instr.reports o) b) : s'.DownOnce b' o := by
  have hended : s'.Ended o ↔ s.Ended o := by rw [Ended, Ended, Closed, Closed, hconn, hacc]
  refine ⟨?_, fun hn => ?_, fun hn hp => ?_⟩
  · rw [hlog, hpend]
    exact h.once
  · rw [hlog]
    exact h.before (mt hended.mpr hn)
  · rw [hconn]
    exact h.up (mt hended.mpr hn) (hpend ▸ hp)

/-- A step while no callback waits, which does not close the connection. -/
theorem DownOnce.quiet (h : s.DownOnce b o) (hended : s'.Ended o ↔ s.Ended o)
    (hlog : s'.log.count (.connCallback o false) = s.log.count (.connCallback o false))
    (hpend : tokens (Instr.reports o) b' = 0) : s'.DownOnce b' o := by
  refine ⟨?_, fun hn => ?_, fun _ hp => absurd hpend hp⟩
  · have := h.once
    omega
  · rw [hlog]
    exact h.before (mt hended.mpr hn)

/-- The connection is closed now, and may have one callback waiting. -/
theorem DownOnce.ends (h : s.DownOnce b o) (hn : ¬ s.Ended o) (hended : s'.Ended o)
    (hlog : s'.log.count (.connCallback o false) = s.log.count (.connCallback o false))
    (hpend : tokens (Instr.reports o) b' ≤ 1) : s'.DownOnce b' o := by
  have hdown := h.before hn
  exact ⟨by omega, fun hn => absurd hended hn, fun hn => absurd hended hn⟩

/-- The connection comes up, and may have one callback waiting. -/
theorem DownOnce.opens (h : s.DownOnce b o) (hn : ¬ s.Ended o) (hup : (s'.conn o).state = .connected)
    (hlog : s'.log.count (.connCallback o false) = s.log.count (.connCallback o false))
    (hpend : tokens (Instr.reports o) b' ≤ 1) : s'.DownOnce b' o := by
  have hdown := h.before hn
  exact ⟨by omega, fun _ => by rw [hlog, hdown], fun _ _ => hup⟩

/-- The callback that waited is made, with the connection up if it is not closed. -/
theorem DownOnce.reported (h : s.DownOnce b o)
    (hpend : tokens (Instr.reports o) b' + 1 = tokens (Instr.reports o) b) :
    DownOnce {s with log := s.log ++ [.connCallback o (s.conn o).isConnected]} b' o := by
  have hwaits : tokens (Instr.reports o) b ≠ 0 := by omega
  have hcount : (s.log ++ [Ev.connCallback o (s.conn o).isConnected]).count (.connCallback o false) ≤
      s.log.count (.connCallback o false) + 1 := by
    rw [List.count_append, List.count_singleton]
    split <;> omega
  have honce := h.once
  refine ⟨?_, fun hn => ?_, fun hn _ => h.up hn hwaits⟩
  · show (s.log ++ [Ev.connCallback o (s.conn o).isConnected]).count (.connCallback o false) + _ ≤ 1
    omega
  · have hup : (s.conn o).isConnected = true := by
      rw [TcpConn.isConnected, h.up hn hwaits]
      rfl
    show (s.log ++ [Ev.connCallback o (s.conn o).isConnected]).count (.connCallback o false) = 0
    rw [hup, List.count_append, h.before hn]
    simp

/-- No callback waits for a connection that has not been accepted. -/
theorem tokens_reports_new (hs : s.Sound b) : tokens (Instr.reports s.accepted) b = 0 := by
  refine tokens_eq_zero.mpr fun x hx he => ?_
  obtain ⟨k, i⟩ := x
  cases i <;> simp only [Instr.reports, reduceCtorEq, decide_eq_true_eq] at he
  subst he
  exact Nat.lt_irrefl _ (hs.assigned _ hx).1

/-- The connection callback that a function leaves, before anything else. -/
theorem tokens_callback_le (l : LoopId) (o' : ConnNo) (up : Bool) {rest : List Instr}
    (hrest : rest.countP (Instr.reports o) = 0) :
    tokens (Instr.reports o) (on l ((if up then [.connCallback o'] else []) ++ rest)) ≤ 1 := by
  rw [tokens_on, List.countP_append, hrest]
  split
  · exact List.countP_le_length
  · exact Nat.zero_le _

theorem tokens_callback_other (l : LoopId) {o' : ConnNo} (up : Bool) {rest : List Instr}
    (hrest : rest.countP (Instr.reports o) = 0) (hne : o ≠ o') :
    tokens (Instr.reports o) (on l ((if up then [.connCallback o'] else []) ++ rest)) = 0 := by
  rw [tokens_on, List.countP_append, hrest]
  split
  · simp [Instr.reports, hne.symm]
  · rfl

theorem Did.downOnce (hs : s.Sound b) (hd : s.Did P done made s') (hx : Exchange b done made b')
    (hcalls : P.calls o → tokens (Instr.reports o) b = 0) (hopen : P.closes o → ¬ s.Ended o)
    (h : s.DownOnce b o) : s'.DownOnce b' o := by
  have hv := reports_vital o
  have hpend := exchange_tokens (Instr.reports o) hx
  cases hd with
  | idle _ _ hd hm =>
    rw [hv.tokens hd, hv.tokens fun x hx => (hm x hx).1] at hpend
    exact h.same rfl Iff.rfl rfl (by omega)
  | quiet l o' c es made _ hcall hq hm =>
    rw [tokens_zero, hv.tokens fun x hx => (hm x hx).1] at hpend
    by_cases he : o = o'
    · subst he
      rw [hcalls hcall] at hpend
      refine h.quiet ?_ rfl (by omega)
      rw [Ended, Ended, Closed, setConn_conn, if_pos rfl]
      exact and_congr_right fun _ => hq.disconnected
    · exact h.same (by rw [setConn_conn, if_neg he]) Iff.rfl rfl (by omega)
  | close l o' inputBuf hl hcall _ hc =>
    have hrest : (if (s.conn o').callbacks.close = true then [Instr.closeCallback o'] else []).countP
        (Instr.reports o) = 0 := by
      split <;> rfl
    rw [tokens_zero] at hpend
    by_cases he : o = o'
    · subst he
      have hmade := tokens_callback_le l o (s.conn o).callbacks.conn hrest
      rw [hcalls hcall] at hpend
      refine h.ends (hopen hc) ⟨hl.1, ?_⟩ rfl (by omega)
      rw [Closed, setConn_conn, if_pos rfl]
      rfl
    · rw [tokens_callback_other l _ hrest he] at hpend
      exact h.same (by rw [setConn_conn, if_neg he]) Iff.rfl rfl hpend
  | accept c hc =>
    have hmade : Instr.reports o (runInLoop 0 s.getNextLoop (.establishConn s.accepted)) = false := by
      unfold runInLoop
      split <;> rfl
    rw [tokens_zero, tokens_singleton, hmade] at hpend
    by_cases he : o = s.accepted
    · subst he
      rw [tokens_reports_new hs] at hpend
      refine h.quiet ?_ rfl hpend
      rw [Ended, Ended, Closed, enroll_conn, if_pos rfl, (create_new hc).2.2.1]
      simp
    · refine h.same (by rw [enroll_conn, if_neg he]) ⟨fun ho => ?_, Nat.lt_succ_of_lt⟩ rfl hpend
      exact (Nat.lt_succ_iff_lt_or_eq.mp ho).resolve_right he
  | establish l o' hl hc =>
    have hrest : [Instr.running (.establishConn o')].countP (Instr.reports o) = 0 := rfl
    rw [tokens_singleton, if_neg (by simp [Instr.reports])] at hpend
    by_cases he : o = o'
    · subst he
      have hn : ¬ s.Ended o := fun hn => by cases hc.symm.trans hn.2
      have hnone : tokens (Instr.reports o) b = 0 := by
        by_contra hne
        cases hc.symm.trans (h.up hn hne)
      have hmade := tokens_callback_le l o (s.conn o).callbacks.conn hrest
      refine h.opens hn ?_ rfl (by omega)
      rw [setConn_conn, if_pos rfl]
      rfl
    · rw [tokens_callback_other l _ hrest he] at hpend
      exact h.same (by rw [setConn_conn, if_neg he]) Iff.rfl rfl hpend
  | connCallback l o' hl =>
    rw [tokens_singleton, tokens_singleton] at hpend
    by_cases he : o' = o
    · subst he
      rw [show Instr.reports o' (.connCallback o') = true from decide_eq_true rfl,
        show Instr.reports o' (.userCode o') = false from rfl] at hpend
      simp only [if_true, Bool.false_eq_true, if_false] at hpend
      exact h.reported (by omega)
    · refine h.same rfl Iff.rfl ?_ ?_
      · show (s.log ++ _).count _ = _
        rw [List.count_append]
        simp [he]
      · simpa [Instr.reports, he] using hpend
  | closeCallback l o' =>
    have hmade : Instr.reports o (removeConn l o') = false := by
      unfold removeConn runInLoop
      split <;> rfl
    rw [tokens_singleton, tokens_singleton, hmade] at hpend
    exact h.same rfl Iff.rfl (by simp) hpend
  | queue l k f =>
    cases f <;> exact h.same rfl Iff.rfl (by simp [recordQueue]) (by simpa [Instr.reports] using hpend)
  | destroy | erase => exact h.same rfl Iff.rfl rfl hpend
  | removeChan l o' hl hc =>
    by_cases he : o = o'
    · subst he
      refine ⟨h.once.trans' (by rw [show tokens (Instr.reports o) b' = tokens (Instr.reports o) b from hpend]; rfl),
        fun hn => absurd ⟨hl.1, ?_⟩ hn, fun hn => absurd ⟨hl.1, ?_⟩ hn⟩
      · rw [Closed, setConn_conn, if_pos rfl]
        exact hc
      · rw [Closed, setConn_conn, if_pos rfl]
        exact hc
    · exact h.same (by rw [setConn_conn, if_neg he]) Iff.rfl rfl hpend

end TcpServer

/-! ### Hang-ups -/

/-- A hang-up of the connection is still to be handled. -/
def Loop.Hangs (p : Loop) (o : ConnNo) : Prop :=
  (o, .close) ∈ p.events.1 ∨ ∃ e ∈ p.events.2, e.1 = o ∧ e.2.pollHup = true

theorem Loop.Hangs.handled {p : Loop} {o : ConnNo} (h : p.Hangs o) : o ∈ p.handled := by
  rcases h with h | ⟨e, he, rfl, -⟩
  · exact List.mem_append_left _ (List.mem_map.mpr ⟨_, h, rfl⟩)
  · exact List.mem_append_right _ (List.mem_map.mpr ⟨e, he, rfl⟩)

namespace Host

/-- A connection that is closed is not closed again: `poll` reports no hang-up of it, and
its read callback does not read the end of the stream. -/
def ClosesOpen (h : Host) : Act → Prop
  | .poll _ _ active => ∀ e ∈ active, e.2.pollHup = true → ¬ h.server.Closed e.1
  | .callback l r _ => ∀ c ∈ (h.loops l).callbacks.head?, c.2 = .read → r.IsEof → ¬ h.server.Closed c.1
  | _ => True

instance (h : Host) (a : Act) : Decidable (h.ClosesOpen a) := by
  unfold ClosesOpen
  split <;> infer_instance

/-- Hang-ups come from `poll`, and one that is handled is gone. -/
theorem step_hangs {h h' : Host} {a : Act} (hi : h.Sound) (hs : Step h a h') (hr : h.ClosesOpen a) {l : LoopId}
    {o : ConnNo} (ho : (h'.loops l).Hangs o) :
    (h.loops l).Hangs o ∧ ¬ (h.scope a).closes o ∨ h'.server = h.server ∧ ¬ h.server.Closed o := by
  cases hs with
  | poll k woken active e hfree hrep hl he =>
    rw [Loop.Hangs, setEloop_events, setActive_loops] at ho
    split at ho
    · rcases ho with ho | ⟨e, he, rfl, hup⟩
      · rw [Loop.events, show (h.loops k).callbacks = [] from hfree.2] at ho
        cases ho
      · exact .inr ⟨rfl, hr e he hup⟩
    · exact .inl ⟨ho, id⟩
  | dispatch k o' revents rest ha hl hfree =>
    rw [Loop.Hangs, setCallbacks_loops, setActive_loops, setActive_loops, if_pos rfl] at ho
    refine .inl ⟨?_, id⟩
    split at ho
    · rename_i hk
      subst hk
      rcases ho with ho | ⟨e, he, rfl, hup⟩
      · obtain ⟨cb, hcb, hc⟩ := List.mem_map.mp ho
        cases hc
        refine .inr ⟨(o, revents), ?_, rfl, Chan.pollHup_of_close hcb⟩
        rw [Loop.events, ha]
        exact List.mem_cons_self
      · refine .inr ⟨e, ?_, rfl, hup⟩
        rw [Loop.events, ha]
        exact List.mem_cons_of_mem _ he
    · exact ho
  | callback k r w o' cb rest x hc hl ha hx =>
    have hscope : (h.scope (.callback k r w)).closes o → o' = o := by
      rintro (hcl | ⟨hcl, -⟩) <;> rw [hc] at hcl <;> cases hcl <;> rfl
    rw [Loop.Hangs, resume_events, setCallbacks_loops] at ho
    apply Or.inl
    split at ho
    · rename_i hk
      subst hk
      rcases ho with ho | ⟨e, he, rfl, hup⟩
      · -- The close callback would be the first.
        refine absurd rfl ((hi.shape l).closeFirst (o, .close) ?_)
        rw [hc]
        exact ho
      · refine ⟨.inr ⟨e, he, rfl, hup⟩, fun hcl => ?_⟩
        apply (hi.shape l).apart (o', cb) (hc ▸ List.mem_cons_self)
        rw [hscope hcl]
        exact List.mem_map.mpr ⟨e, he, rfl⟩
    · rename_i hk
      refine ⟨ho, fun hcl => hk ?_⟩
      have howns := (hi.handled l o (Loop.Hangs.handled ho)).1
      have howns' := (hi.handled k o' (Loop.mem_handled hc)).1
      rw [hscope hcl] at howns'
      exact howns.2.symm.trans howns'.2
  | eloop | accept | call | exec | queue | endQueue | send | shutdown | endUserCode =>
    simp only [Loop.Hangs, setEloop_events, resume_events, setAgenda_events] at ho
    exact .inl ⟨ho, id⟩

/-- What a connection's closing has cost so far. -/
structure ClosedOnce (h : Host) : Prop where
  hangs : ∀ l o, (h.loops l).Hangs o → ¬ h.server.Closed o
  close : ∀ o, h.server.log.count (.closeCallback o) + tokens (Instr.closes o) h.bag ≤ h.server.ended o
  destroy : ∀ o, h.server.log.count (.queueDestroy o) + tokens (Instr.destroys o) h.bag ≤ h.server.ended o
  down : ∀ o, h.server.DownOnce h.bag o

/-- No callback of the connection waits anywhere if none is on its loop's agenda. -/
theorem reports_bag {h : Host} (hi : h.Sound) {l : LoopId} {o : ConnNo} (hl : h.server.Owns l o)
    (hno : .connCallback o ∉ (h.loops l).agenda) : tokens (Instr.reports o) h.bag = 0 := by
  refine tokens_eq_zero.mpr fun x hx he => ?_
  have hplace := hi.server.assigned x hx
  obtain ⟨k, i⟩ := x
  cases i <;> simp only [Instr.reports, reduceCtorEq, decide_eq_true_eq] at he
  subst he
  obtain rfl : k = l := hplace.2.symm.trans hl.2
  rcases List.mem_append.mp (mem_bag.mp hx).2 with hagenda | htask
  · exact hno hagenda
  · obtain ⟨f, -, hf⟩ := List.mem_map.mp htask
    cases hf

/-- While a connection's function is called from an event or from user code, none of its
connection callbacks waits. -/
theorem calls_reports {h h' : Host} {a : Act} (hi : h.Sound) (hs : Step h a h') {o : ConnNo}
    (hc : (h.scope a).calls o) : tokens (Instr.reports o) h.bag = 0 := by
  have huser : ∀ {l o' rest}, (h.loops l).agenda = .userCode o' :: rest → l ≤ h.server.numThreads →
      (h.loops l).agenda.head? = some (.userCode o) → tokens (Instr.reports o) h.bag = 0 := by
    intro l o' rest ha hl hhead
    rw [ha] at hhead
    cases hhead
    refine reports_bag hi (hi.server.assigned _ (mem_head hl ha)) fun hmem => ?_
    have hord := (hi.shape l).ordered
    rw [ha] at hord hmem
    rcases List.mem_cons.mp hmem with hmem | hmem
    · cases hmem
    · exact hord.1.first o hmem
  cases hs with
  | callback l r w o' cb rest x hcb hl ha hx =>
    obtain ⟨cb', hhead⟩ := hc
    rw [hcb] at hhead
    cases hhead
    exact reports_bag hi (hi.handled l o (Loop.mem_handled hcb)).1 (by rw [ha]; exact List.not_mem_nil)
  | send l data w o' rest x ha hl hx => exact huser ha hl hc
  | shutdown l o' rest ha hl => exact huser ha hl hc
  | eloop | poll | dispatch | accept | call | exec | queue | endQueue | endUserCode => exact hc.elim

theorem step_closedOnce {h h' : Host} {a : Act} (hi : h.Sound) (hs : h.step a = some h') (hr : h.ClosesOpen a)
    (hc : h.ClosedOnce) : h'.ClosedOnce := by
  have hstep := step_cases hs
  obtain ⟨done, made, hx, hd⟩ := step_did hi hstep
  have hopen : ∀ o, (h.scope a).closes o → ¬ h.server.Closed o := by
    intro o hcl
    cases a with
    | callback l r w =>
      rcases hcl with hcl | ⟨hcl, heof⟩
      · exact hc.hangs l o (.inl (List.mem_of_mem_head? hcl))
      · exact hr _ hcl rfl heof
    | _ => exact hcl.elim
  have hended : ∀ o, (h.scope a).closes o → h.server.ended o = 0 :=
    fun o hcl => if_neg fun he => hopen o hcl he.2
  refine ⟨fun l o ho => ?_, fun o => ?_, fun o => ?_, fun o => ?_⟩
  · rcases step_hangs hi hstep hr ho with ⟨ho', hcl⟩ | ⟨hserver, hno⟩
    · have howns := (hi.handled l o (Loop.Hangs.handled ho')).1
      exact (hd.moves howns.1).stays_open hcl (hc.hangs l o ho')
    · rw [hserver]
      exact hno
  · exact (hd.pays (TcpServer.funds_closes o)).step hd hx (hended o) (hc.close o)
  · exact (hd.pays (TcpServer.funds_destroys o)).step hd hx (hended o) (hc.destroy o)
  · exact hd.downOnce hi.server hx (calls_reports hi hstep) (fun hcl he => hopen o hcl he.2) (hc.down o)

theorem create_closedOnce (numThreads : Nat) (callbacks : Callbacks) (mark : Nat) :
    (create numThreads callbacks mark).ClosedOnce := by
  have hnone : ∀ p, tokens p (create numThreads callbacks mark).bag = 0 := by
    intro p
    rw [create_bag, tokens_zero]
  refine ⟨nofun, fun o => ?_, fun o => ?_, fun o => ⟨?_, fun _ => rfl, fun _ hne => absurd (hnone _) hne⟩⟩
  · rw [hnone]
    exact Nat.zero_le _
  · rw [hnone]
    exact Nat.zero_le _
  · rw [hnone]
    exact Nat.zero_le _

/-- The io loop handles a hang-up: it closes the connection and queues its removal. -/
def hangUp : List Act :=
  [.poll 1 false [(0, ⟨false, false, false, false, true⟩)], .dispatch 1, .callback 1 (.received []) (.accepts 0),
    .exec 1, .endUserCode 1, .exec 1, .exec 1, .eloop 0 (.testWakeup 1), .eloop 0 (.wakeup 1), .exec 1]

/-- **A connection is closed once** in every run in which `poll` reports no hang-up of a
connection that is closed already and none of these reads the end of the stream again:
its connection callback is called at most once with the connection down, its close
callback at most once, and its `destroy_conn` is queued at most once. -/
theorem closed_at_most_once {numThreads mark : Nat} {callbacks : Callbacks} {h : Host} {tr : List Act}
    (hrun : exec step (create numThreads callbacks mark) tr = some h)
    (hrule : Along step ClosesOpen (create numThreads callbacks mark) tr) :
    ∀ o < h.server.accepted, h.server.log.count (.connCallback o false) ≤ 1 ∧
      h.server.log.count (.closeCallback o) ≤ 1 ∧ h.server.log.count (.queueDestroy o) ≤ 1 := by
  have honce : h.Sound ∧ h.ClosedOnce := by
    refine rule_induction (fun _ h => h.Sound ∧ h.ClosedOnce) ⟨create_sound .., create_closedOnce ..⟩ ?_ hrun hrule
    rintro - h a h' - ⟨hi, hc⟩ hr hs
    exact ⟨step_sound hi hs, step_closedOnce hi hs hr hc⟩
  intro o _
  have hended : h.server.ended o ≤ 1 := by
    unfold TcpServer.ended
    split <;> omega
  have hdown := (honce.2.down o).once
  have hclose := honce.2.close o
  have hdestroy := honce.2.destroy o
  omega

/-- The peer of a connection hangs up, the io loop closes it, the main loop takes it out
of the map and the io loop out of its poller. -/
theorem closed_at_most_once_removed : ∃ (tr : List Act) (h : Host),
    exec step (create 1 ⟨true, true, false, false, false⟩ 64) tr = some h ∧ h.server.log =
      [.connCallback 0 true, .connCallback 0 false, .closeCallback 0, .queueDestroy 0] ∧
    ∀ o < h.server.accepted, h.server.log.count (.connCallback o false) ≤ 1 ∧
      h.server.log.count (.closeCallback o) ≤ 1 ∧ h.server.log.count (.queueDestroy o) ≤ 1 := by
  refine ⟨(established ++ hangUp).append [.eloop 0 .endEvents, .eloop 0 .storeCalling, .eloop 0 .swap,
    .call 0 (.removeConnInLoop 0), .exec 0, .eloop 1 (.testWakeup 0), .eloop 1 (.wakeup 0), .exec 0, .exec 0,
    .eloop 1 .endEvents, .eloop 1 .storeCalling, .eloop 1 .swap, .call 1 (.destroyConn 0), .exec 1, .exec 1],
    _, (Option.some_get (by decide +kernel)).symm, by decide +kernel, ?_⟩
  exact closed_at_most_once (Option.some_get (by decide +kernel)).symm (by decide +kernel)

/-- The io loop polls once more before the main loop has answered: the hang-up is reported
again, and the connection closed again. -/
theorem closed_twice : ¬ ∀ (numThreads mark : Nat) (callbacks : Callbacks) (h : Host) (tr : List Act),
    exec step (create numThreads callbacks mark) tr = some h →
      ∀ o < h.server.accepted, h.server.log.count (.connCallback o false) ≤ 1 ∧
        h.server.log.count (.closeCallback o) ≤ 1 ∧ h.server.log.count (.queueDestroy o) ≤ 1 := by
  intro hall
  have honce := hall 1 64 ⟨true, true, false, false, false⟩ _ (established ++ hangUp ++ [.eloop 1 .endEvents,
    .eloop 1 .storeCalling, .eloop 1 .swap, .eloop 1 .clearCalling, .eloop 1 .loadQuit] ++ hangUp)
    (Option.some_get (by decide +kernel)).symm 0 (by decide +kernel)
  exact absurd honce.2.1 (by decide +kernel)

end Host

end Caimr.Net
