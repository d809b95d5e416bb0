import Caimr.Net.CloseOnce
import Caimr.Net.ServerConns

/-! The order in which a connection lives, as the user and the server are told of it: it
comes up, goes down, is given back to the server and destroyed. What has been told and what
waits on the agendas make up, at every moment, what the connection's state is worth. -/
namespace Caimr.Net
open Bag Transition

namespace Ev

/-- The record is one of the connection `o`. -/
def about (o : ConnNo) : Ev → Bool
  | .connCallback o' _ | .closeCallback o' | .queueDestroy o' => o' = o

end Ev

namespace TcpServer
variable {P : Scope} {s s' : TcpServer} {b b' done made : Multiset Item} {o : ConnNo}

/-- What has been recorded of the connection. -/
def history (s : TcpServer) (o : ConnNo) : List Ev := s.log.filter (Ev.about o)

def ups (s : TcpServer) (o : ConnNo) : List Ev := if s.callbacks.conn then [.connCallback o true] else []

def downs (s : TcpServer) (o : ConnNo) : List Ev := if s.callbacks.conn then [.connCallback o false] else []

/-- All that is ever recorded of a connection. -/
def life (s : TcpServer) (o : ConnNo) : List Ev := s.ups o ++ (s.downs o ++ [.closeCallback o, .queueDestroy o])

/-- What is due to a connection in its state. -/
def due (s : TcpServer) (o : ConnNo) : List Ev :=
  if o < s.accepted then
    match (s.conn o).state with
    | .connenting => []
    | .connected | .disconnenting => s.ups o
    | .disconnected => s.life o
  else []

/-- What is still to be recorded, once the work that waits is done. -/
def waiting (s : TcpServer) (b : Multiset Item) (o : ConnNo) : List Ev :=
  List.replicate (tokens (Instr.reports o) b) (.connCallback o (s.conn o).isConnected) ++
    (List.replicate (tokens (Instr.closes o) b) (.closeCallback o) ++
      List.replicate (tokens (Instr.destroys o) b) (.queueDestroy o))

/-- Nothing is recorded too early, too late or twice. -/
def InOrder (s : TcpServer) (b : Multiset Item) (o : ConnNo) : Prop := s.history o ++ s.waiting b o = s.due o

/-! ### What is due -/

theorem due_prefix (s : TcpServer) (o : ConnNo) : s.due o <+: s.life o := by
  unfold due
  split
  · split
    · exact List.nil_prefix
    · exact List.prefix_append ..
    · exact List.prefix_append ..
    · exact List.prefix_refl _
  · exact List.nil_prefix

theorem due_closed (h : s.Ended o) : s.due o = s.life o := by
  rw [due, if_pos h.1, show (s.conn o).state = .disconnected from h.2]

theorem due_open (ho : o < s.accepted) (h : (s.conn o).state = .connected ∨ (s.conn o).state = .disconnenting) :
    s.due o = s.ups o := by
  rw [due, if_pos ho]
  rcases h with h | h <;> rw [h]

theorem due_new (h : o < s.accepted → (s.conn o).state = .connenting) : s.due o = [] := by
  unfold due
  split
  · rename_i ho
    rw [h ho]
  · rfl

/-- A step that changes neither what is recorded of the connection, nor its state, nor the
work that waits for it. -/
theorem InOrder.same (h : s.InOrder b o) (hhist : s'.history o = s.history o)
    (hr : tokens (Instr.reports o) b' = tokens (Instr.reports o) b)
    (hc : tokens (Instr.closes o) b' = tokens (Instr.closes o) b)
    (hd : tokens (Instr.destroys o) b' = tokens (Instr.destroys o) b)
    (hup : tokens (Instr.reports o) b ≠ 0 → (s'.conn o).isConnected = (s.conn o).isConnected)
    (hdue : s'.due o = s.due o) : s'.InOrder b' o := by
  have hwait : s'.waiting b' o = s.waiting b o := by
    unfold waiting
    rw [hr, hc, hd]
    by_cases hz : tokens (Instr.reports o) b = 0
    · rw [hz]
      rfl
    · rw [hup hz]
  rw [InOrder, hhist, hwait, hdue]
  exact h

/-- Where nothing is due nothing is recorded, and nothing waits. -/
theorem InOrder.none (h : s.InOrder b o) (hdue : s.due o = []) : s.history o = [] ∧
    tokens (Instr.reports o) b = 0 ∧ tokens (Instr.closes o) b = 0 ∧ tokens (Instr.destroys o) b = 0 := by
  rw [InOrder, hdue, List.append_eq_nil_iff, waiting, List.append_eq_nil_iff, List.append_eq_nil_iff,
    List.replicate_eq_nil_iff, List.replicate_eq_nil_iff, List.replicate_eq_nil_iff] at h
  exact ⟨h.1, h.2.1, h.2.2.1, h.2.2.2⟩

/-- Where nothing waits, what is due is recorded. -/
theorem InOrder.told (h : s.InOrder b o) (hr : tokens (Instr.reports o) b = 0) (hc : tokens (Instr.closes o) b = 0)
    (hd : tokens (Instr.destroys o) b = 0) : s.history o = s.due o := by
  rw [InOrder, waiting, hr, hc, hd] at h
  rw [← h]
  simp

/-- While a connection is up no end of it waits. -/
theorem InOrder.up (h : s.InOrder b o) (hdue : s.due o = s.ups o) :
    tokens (Instr.closes o) b = 0 ∧ tokens (Instr.destroys o) b = 0 := by
  have hups : ∀ e ∈ s.ups o, e = .connCallback o true := by
    intro e he
    unfold ups at he
    split at he
    · exact List.mem_singleton.mp he
    · cases he
  have hno : ∀ e, e ∈ s.waiting b o → e = .connCallback o true := by
    intro e he
    refine hups e ?_
    rw [← hdue, ← h]
    exact List.mem_append_right _ he
  constructor
  · by_contra hne
    have hmem : Ev.closeCallback o ∈ s.waiting b o := by
      simp [waiting, hne]
    cases hno _ hmem
  · by_contra hne
    have hmem : Ev.queueDestroy o ∈ s.waiting b o := by
      simp [waiting, hne]
    cases hno _ hmem

/-! ### What a step does to the order -/

/-- The destruction that is due is not recorded yet, if it waits; then nothing else does. -/
theorem InOrder.last (h : s.InOrder b o) (he : s.Ended o) {n : Nat} (hq : tokens (Instr.destroys o) b = n + 1)
    (hc : tokens (Instr.closes o) b ≤ n) :
    n = 0 ∧ tokens (Instr.reports o) b = 0 ∧ tokens (Instr.closes o) b = 0 ∧
      s.history o ++ [.queueDestroy o] = s.life o := by
  rw [InOrder, due_closed he, waiting, hq] at h
  have hcount : (s.life o).count (.queueDestroy o) = 1 := by
    unfold life ups downs
    split <;> simp
  have hn : n = 0 := by
    rw [← h, List.count_append, List.count_append, List.count_append, List.count_replicate_self] at hcount
    omega
  have hc0 : tokens (Instr.closes o) b = 0 := by omega
  rw [hn, hc0, List.replicate_zero, List.nil_append] at h
  cases hr : tokens (Instr.reports o) b with
  | zero =>
    rw [hr] at h
    exact ⟨hn, rfl, hc0, h⟩
  | succ r =>
    -- What is recorded last before the destruction is the close callback.
    rw [hr, List.replicate_succ', life, ← List.append_assoc, ← List.append_assoc, ← List.append_assoc] at h
    have hlast : s.history o ++ List.replicate r (.connCallback o (s.conn o).isConnected) ++
        [.connCallback o (s.conn o).isConnected] = s.ups o ++ s.downs o ++ [.closeCallback o] := by
      have hcut : s.ups o ++ s.downs o ++ [Ev.closeCallback o, .queueDestroy o] =
          s.ups o ++ s.downs o ++ [.closeCallback o] ++ [.queueDestroy o] := by simp
      rw [hcut] at h
      exact List.append_cancel_right h
    have heq := (List.append_inj' hlast rfl).2
    cases heq

/-- How the work that a step takes up and leaves counts for the connection. -/
theorem tokens_three (hx : Exchange b done made b') (o : ConnNo) :
    tokens (Instr.reports o) b' + tokens (Instr.reports o) done =
        tokens (Instr.reports o) b + tokens (Instr.reports o) made ∧
      tokens (Instr.closes o) b' + tokens (Instr.closes o) done =
        tokens (Instr.closes o) b + tokens (Instr.closes o) made ∧
      tokens (Instr.destroys o) b' + tokens (Instr.destroys o) done =
        tokens (Instr.destroys o) b + tokens (Instr.destroys o) made :=
  ⟨exchange_tokens _ hx, exchange_tokens _ hx, exchange_tokens _ hx⟩

theorem history_setConn (s : TcpServer) (o o' : ConnNo) (c : TcpConn) : (s.setConn o' c).history o = s.history o := rfl

/-- A step that changes another connection. -/
theorem due_other {o' : ConnNo} (c : TcpConn) (ho : o ≠ o') : (s.setConn o' c).due o = s.due o := by
  rw [due, due, setConn_conn, if_neg ho]
  rfl

/-- The connection callback as work, if there is one. -/
theorem countP_callback (p : Instr → Bool) (o' : ConnNo) (up : Bool) :
    (if up = true then [Instr.connCallback o'] else []).countP p =
      if up = true ∧ p (.connCallback o') = true then 1 else 0 := by
  cases up <;> simp [List.countP_singleton]

theorem tokens_mono {p q : Instr → Bool} (h : ∀ i, p i = true → q i = true) (b : Multiset Item) :
    tokens p b ≤ tokens q b := by
  induction b using Multiset.induction with
  | empty => exact le_rfl
  | cons x b ih =>
    rw [tokens_cons, tokens_cons]
    refine Nat.add_le_add ?_ ih
    split
    · rename_i hp
      rw [if_pos (h _ hp)]
    · exact Nat.zero_le _

/-- Each close callback that waits is to be followed by a destruction. -/
theorem closes_le {l k : LoopId} (hx : Exchange b {(l, .queue k (.destroyConn o))} made b')
    (hm : tokens (Instr.destroys o) made = 0) : tokens (Instr.closes o) b ≤ tokens (Instr.destroys o) b' := by
  obtain ⟨rest, rfl, rfl⟩ := hx
  rw [tokens_add, tokens_add, hm, tokens_singleton]
  refine tokens_mono (fun i hi => ?_) rest
  cases i <;> first | exact hi | cases hi

/-- A step that changes another connection keeps the order. -/
theorem InOrder.other (h : s.InOrder b o) {o' : ConnNo} (c : TcpConn) (he : o ≠ o')
    (hr : tokens (Instr.reports o) b' = tokens (Instr.reports o) b)
    (hc : tokens (Instr.closes o) b' = tokens (Instr.closes o) b)
    (hq : tokens (Instr.destroys o) b' = tokens (Instr.destroys o) b) : (s.setConn o' c).InOrder b' o :=
  h.same rfl hr hc hq (fun _ => by rw [setConn_conn, if_neg he]) (due_other c he)

/-- A connection is accepted: nothing is due to it yet. -/
theorem InOrder.enroll (h : s.InOrder b o)
    (hnew : TcpConn.create s.getNextLoop s.nextConnId {s.callbacks with close := true} s.highWaterMark = .ok c)
    (hr : tokens (Instr.reports o) b' = tokens (Instr.reports o) b)
    (hc : tokens (Instr.closes o) b' = tokens (Instr.closes o) b)
    (hq : tokens (Instr.destroys o) b' = tokens (Instr.destroys o) b) : (s.enroll c).InOrder b' o := by
  by_cases he : o = s.accepted
  · subst he
    have hold : s.due s.accepted = [] := due_new fun ho => absurd ho (Nat.lt_irrefl _)
    have hdue : (s.enroll c).due s.accepted = [] := by
      refine due_new fun _ => ?_
      rw [enroll_conn, if_pos rfl]
      exact (create_new hnew).2.2.1
    exact h.same rfl hr hc hq (fun hne => absurd (h.none hold).2.1 hne) (hdue.trans hold.symm)
  · refine h.same rfl hr hc hq (fun _ => by rw [enroll_conn, if_neg he]) ?_
    have hlt : o < s.accepted + 1 ↔ o < s.accepted := Nat.lt_succ_iff_lt_or_eq.trans (or_iff_left he)
    rw [due, due, enroll_conn, if_neg he]
    exact if_congr hlt rfl rfl

/-- `establish_conn`: the connection callback is due. -/
theorem InOrder.establish (h : s.InOrder b o) (ho : o < s.accepted) (hst : (s.conn o).state = .connenting)
    (hr : tokens (Instr.reports o) b' = tokens (Instr.reports o) b + if s.callbacks.conn = true then 1 else 0)
    (hc : tokens (Instr.closes o) b' = tokens (Instr.closes o) b)
    (hq : tokens (Instr.destroys o) b' = tokens (Instr.destroys o) b) :
    (s.setConn o (s.conn o).establishConn.1).InOrder b' o := by
  obtain ⟨hnone, hr0, hc0, hq0⟩ := h.none (due_new fun _ => hst)
  have hopen : (s.setConn o (s.conn o).establishConn.1).due o = s.ups o := by
    refine due_open ho (.inl ?_)
    rw [setConn_conn, if_pos rfl]
    rfl
  rw [InOrder, hopen, waiting, hr, hc, hq, hr0, hc0, hq0, history_setConn, hnone, setConn_conn, if_pos rfl]
  cases hup : s.callbacks.conn <;> simp [ups, hup, TcpConn.establishConn, TcpConn.isConnected]

/-- `handle_close`: the rest of the life is due, and waits. -/
theorem InOrder.handleClose (h : s.InOrder b o) (ho : o < s.accepted) (inputBuf : Buffer)
    (hst : (s.conn o).state = .connected ∨ (s.conn o).state = .disconnenting) (hr0 : tokens (Instr.reports o) b = 0)
    (hr : tokens (Instr.reports o) b' = tokens (Instr.reports o) b + if s.callbacks.conn = true then 1 else 0)
    (hc : tokens (Instr.closes o) b' = tokens (Instr.closes o) b + 1)
    (hq : tokens (Instr.destroys o) b' = tokens (Instr.destroys o) b + 1) :
    (s.setConn o {s.conn o with inputBuf := inputBuf}.handleClose.1).InOrder b' o := by
  have hdue := due_open ho hst
  obtain ⟨hc0, hq0⟩ := h.up hdue
  have htold := (h.told hr0 hc0 hq0).trans hdue
  have hended : (s.setConn o {s.conn o with inputBuf := inputBuf}.handleClose.1).Ended o := by
    refine ⟨ho, ?_⟩
    rw [Closed, setConn_conn, if_pos rfl]
    rfl
  rw [InOrder, due_closed hended, waiting, hr, hc, hq, hr0, hc0, hq0, life, history_setConn, htold, setConn_conn,
    if_pos rfl]
  cases hup : s.callbacks.conn <;> simp [downs, ups, setConn, hup, TcpConn.handleClose, TcpConn.isConnected]

/-- The connection callback is called. -/
theorem InOrder.connCallback (h : s.InOrder b o)
    (hr : tokens (Instr.reports o) b' + 1 = tokens (Instr.reports o) b)
    (hc : tokens (Instr.closes o) b' = tokens (Instr.closes o) b)
    (hq : tokens (Instr.destroys o) b' = tokens (Instr.destroys o) b) :
    InOrder {s with log := s.log ++ [.connCallback o (s.conn o).isConnected]} b' o := by
  rw [InOrder, waiting, ← hr, List.replicate_succ] at h
  have hhist : TcpServer.history {s with log := s.log ++ [.connCallback o (s.conn o).isConnected]} o =
      s.history o ++ [.connCallback o (s.conn o).isConnected] := by
    simp [history, Ev.about]
  rw [InOrder, hhist, waiting, hc, hq, List.append_assoc]
  exact h

/-- The close callback is called, after the connection callback. -/
theorem InOrder.closeCallback (h : s.InOrder b o) (hr0 : tokens (Instr.reports o) b = 0)
    (hr : tokens (Instr.reports o) b' = tokens (Instr.reports o) b)
    (hc : tokens (Instr.closes o) b' + 1 = tokens (Instr.closes o) b)
    (hq : tokens (Instr.destroys o) b' = tokens (Instr.destroys o) b) :
    InOrder {s with log := s.log ++ [.closeCallback o]} b' o := by
  rw [InOrder, waiting, hr0, ← hc, List.replicate_zero, List.nil_append, List.replicate_succ] at h
  have hhist : TcpServer.history {s with log := s.log ++ [.closeCallback o]} o =
      s.history o ++ [.closeCallback o] := by
    simp [history, Ev.about]
  rw [InOrder, hhist, waiting, hr, hr0, hq, List.append_assoc]
  exact h

/-- The destruction is queued, and nothing is left to tell. -/
theorem InOrder.queueDestroy (h : s.InOrder b o) (he : s.Ended o) {n : Nat}
    (hn : tokens (Instr.destroys o) b = n + 1) (hfew : tokens (Instr.closes o) b ≤ n)
    (hr : tokens (Instr.reports o) b' = tokens (Instr.reports o) b)
    (hc : tokens (Instr.closes o) b' = tokens (Instr.closes o) b) (hq : tokens (Instr.destroys o) b' = n) :
    (s.recordQueue (.destroyConn o)).InOrder b' o := by
  obtain ⟨hzero, hr0, hc0, hlife⟩ := h.last he hn hfew
  have hhist : TcpServer.history (s.recordQueue (.destroyConn o)) o = s.history o ++ [.queueDestroy o] := by
    simp [history, recordQueue, Ev.about]
  have hended : (s.recordQueue (.destroyConn o)).Ended o := he
  rw [InOrder, hhist, waiting, hr, hc, hq, hzero, hr0, hc0, due_closed hended, hlife]
  exact List.append_nil _

/-! ### Steps of whatever connection -/

/-- A step that closes nothing, on a connection of which nothing waits. -/
theorem InOrder.did_quiet (h : s.InOrder b o) {o' : ConnNo} {c : TcpConn} {es : List Effect}
    (hquiet : (s.conn o').Quiet c es) (hm : ∀ x ∈ made, x.2.isIdle = true) (hx : Exchange b 0 made b')
    (hcalls : o = o' → tokens (Instr.reports o) b = 0) : (s.setConn o' c).InOrder b' o := by
  obtain ⟨hr, hc, hq⟩ := tokens_three hx o
  rw [tokens_zero, (reports_vital o).tokens hm] at hr
  rw [tokens_zero, (closes_vital o).tokens hm] at hc
  rw [tokens_zero, (destroys_vital o).tokens hm] at hq
  by_cases he : o = o'
  · subst he
    refine h.same rfl hr hc hq (fun hne => absurd (hcalls rfl) hne) ?_
    rw [due, due, setConn_conn, if_pos rfl]
    rcases hquiet.state with hst | ⟨hst, hst'⟩
    · rw [hst]
      rfl
    · rw [hst, hst']
      rfl
  · exact h.other c he hr hc hq

/-- `handle_close` of a connection leaves its callbacks to be called. -/
theorem InOrder.did_close (h : s.InOrder b o) (hs : s.Sound b) {l : LoopId} {o' : ConnNo} (inputBuf : Buffer)
    (hl : s.Owns l o') (hreg : s.Registered o')
    (hx : Exchange b 0 (on l ((if (s.conn o').callbacks.conn then [.connCallback o'] else []) ++
      if (s.conn o').callbacks.close then [.closeCallback o'] else [])) b')
    (hcalls : o = o' → tokens (Instr.reports o) b = 0) (hopen : o = o' → ¬ s.Closed o)
    (hset : o < s.accepted → (s.conn o).callbacks = {s.callbacks with close := true}) :
    (s.setConn o' {s.conn o' with inputBuf := inputBuf}.handleClose.1).InOrder b' o := by
  obtain ⟨hr, hc, hq⟩ := tokens_three hx o
  simp only [tokens_zero, tokens_on, List.countP_append, add_zero] at hr hc hq
  by_cases he : o = o'
  · subst he
    have hst : (s.conn o).state = .connected ∨ (s.conn o).state = .disconnenting := by
      have hno := hopen rfl
      have hnew := fun hn => hs.fresh o hl.1 hn hreg
      cases hst : (s.conn o).state with
      | connenting => exact absurd hst hnew
      | disconnected => exact absurd hst hno
      | connected => exact .inl rfl
      | disconnenting => exact .inr rfl
    rw [hset hl.1, countP_callback] at hr hc hq
    simp only [if_true, List.countP_singleton, Instr.reports, Instr.closes, Instr.destroys, decide_true, and_true,
      Bool.false_eq_true, and_false, if_false, zero_add, add_zero] at hr hc hq
    exact h.handleClose hl.1 inputBuf hst (hcalls rfl) hr hc hq
  · have hne : o' ≠ o := Ne.symm he
    simp only [countP_callback, Instr.reports, Instr.closes, Instr.destroys, hne, decide_false, Bool.false_eq_true,
      and_false, if_false, zero_add] at hr hc hq
    refine h.other _ he ?_ ?_ ?_
    · rw [hr]
      split <;> simp [Instr.reports]
    · rw [hc]
      split <;> simp [Instr.closes, hne]
    · rw [hq]
      split <;> simp [Instr.destroys, hne]

/-- An accepted connection is to be established, now or later. -/
theorem InOrder.did_accept (h : s.InOrder b o)
    (hnew : TcpConn.create s.getNextLoop s.nextConnId {s.callbacks with close := true} s.highWaterMark = .ok c)
    (hx : Exchange b 0 {(0, runInLoop 0 s.getNextLoop (.establishConn s.accepted))} b') :
    (s.enroll c).InOrder b' o := by
  obtain ⟨hr, hc, hq⟩ := tokens_three hx o
  simp only [tokens_zero, tokens_singleton, add_zero] at hr hc hq
  have hplain : ∀ p : Instr → Bool, p (.queue s.getNextLoop (.establishConn s.accepted)) = false →
      p (.run (.establishConn s.accepted)) = false →
      p (runInLoop 0 s.getNextLoop (.establishConn s.accepted)) = false := by
    intro p h₁ h₂
    unfold runInLoop
    split
    · exact h₂
    · exact h₁
  rw [hplain (Instr.reports o) rfl rfl, if_neg Bool.false_ne_true, add_zero] at hr
  rw [hplain (Instr.closes o) rfl rfl, if_neg Bool.false_ne_true, add_zero] at hc
  rw [hplain (Instr.destroys o) rfl rfl, if_neg Bool.false_ne_true, add_zero] at hq
  exact h.enroll hnew hr hc hq

/-- `establish_conn` of a connection leaves its connection callback to be called. -/
theorem InOrder.did_establish (h : s.InOrder b o) {l : LoopId} {o' : ConnNo} (hl : s.Owns l o')
    (hst : (s.conn o').state = .connenting)
    (hx : Exchange b {(l, .run (.establishConn o'))}
      (on l ((if (s.conn o').callbacks.conn then [.connCallback o'] else []) ++ [.running (.establishConn o')])) b')
    (hset : o < s.accepted → (s.conn o).callbacks = {s.callbacks with close := true}) :
    (s.setConn o' (s.conn o').establishConn.1).InOrder b' o := by
  obtain ⟨hr, hc, hq⟩ := tokens_three hx o
  simp only [tokens_on, tokens_singleton, List.countP_append, countP_callback, List.countP_singleton, Instr.reports,
    Instr.closes, Instr.destroys, Bool.false_eq_true, and_false, if_false, add_zero] at hr hc hq
  by_cases he : o = o'
  · subst he
    simp only [hset hl.1, decide_true, and_true] at hr
    exact h.establish hl.1 hst hr hc hq
  · have hne : o' ≠ o := Ne.symm he
    simp only [hne, decide_false, Bool.false_eq_true, and_false, if_false, add_zero] at hr
    exact h.other _ he hr hc hq

/-- The connection callback of a connection is called. -/
theorem InOrder.did_connCallback (h : s.InOrder b o) {l : LoopId} {o' : ConnNo}
    (hx : Exchange b {(l, .connCallback o')} {(l, .userCode o')} b') :
    InOrder {s with log := s.log ++ [.connCallback o' (s.conn o').isConnected]} b' o := by
  obtain ⟨hr, hc, hq⟩ := tokens_three hx o
  simp only [tokens_singleton, Instr.reports, Instr.closes, Instr.destroys, Bool.false_eq_true, if_false,
    add_zero] at hr hc hq
  by_cases he : o' = o
  · subst he
    simp only [decide_true, if_true] at hr
    exact h.connCallback hr hc hq
  · simp only [he, decide_false, Bool.false_eq_true, if_false, add_zero] at hr
    refine h.same ?_ hr hc hq (fun _ => rfl) rfl
    simp [history, Ev.about, he]

/-- The close callback of a connection is called, and its removal is on its way. -/
theorem InOrder.did_closeCallback (h : s.InOrder b o) {l : LoopId} {o' : ConnNo}
    (hx : Exchange b {(l, .closeCallback o')} {(l, removeConn l o')} b')
    (hfirst : o' = o → tokens (Instr.reports o) b = 0) :
    InOrder {s with log := s.log ++ [.closeCallback o']} b' o := by
  obtain ⟨hr, hc, hq⟩ := tokens_three hx o
  have hremove : Instr.reports o (removeConn l o') = false ∧ Instr.closes o (removeConn l o') = false ∧
      Instr.destroys o (removeConn l o') = decide (o' = o) := by
    unfold removeConn runInLoop
    split <;> exact ⟨rfl, rfl, rfl⟩
  simp only [tokens_singleton, hremove.1, hremove.2.1, hremove.2.2] at hr hc hq
  simp only [Instr.reports, Instr.closes, Instr.destroys, Bool.false_eq_true, if_false, add_zero] at hr hc hq
  by_cases he : o' = o
  · subst he
    simp only [decide_true, if_true] at hc
    exact h.closeCallback (hfirst rfl) hr hc (Nat.add_right_cancel hq)
  · simp only [he, decide_false, Bool.false_eq_true, if_false, add_zero] at hc
    refine h.same ?_ hr hc (Nat.add_right_cancel hq) (fun _ => rfl) rfl
    simp [history, Ev.about, he]

/-- A connection's channel is removed. -/
theorem InOrder.did_removeChan (h : s.InOrder b o) {l : LoopId} {o' : ConnNo}
    (hx : Exchange b {(l, .removeChan o')} 0 b') :
    (s.setConn o' {s.conn o' with ch := (s.conn o').ch.remove}).InOrder b' o := by
  obtain ⟨hr, hc, hq⟩ := tokens_three hx o
  simp only [tokens_zero, tokens_singleton, Instr.reports, Instr.closes, Instr.destroys, Bool.false_eq_true, if_false,
    add_zero] at hr hc hq
  by_cases he : o = o'
  · subst he
    refine h.same rfl hr hc hq (fun _ => ?_) ?_
    · rw [setConn_conn, if_pos rfl]
      rfl
    · rw [due, due, setConn_conn, if_pos rfl]
      rfl
  · exact h.other _ he hr hc hq

/-- A functor is queued; that of a destruction is recorded. -/
theorem InOrder.did_queue (h : s.InOrder b o) {l k : LoopId} {f : Functor} (hf : s.Places k f)
    (hx : Exchange b {(l, .queue k f)} ({(l, .endQueue k)} + {(k, .run f)}) b') : (s.recordQueue f).InOrder b' o := by
  obtain ⟨hr, hc, hq⟩ := tokens_three hx o
  simp only [tokens_add, tokens_singleton, Instr.reports, Instr.closes, Bool.false_eq_true, if_false,
    add_zero] at hr hc
  cases f with
  | destroyConn o' =>
    simp only [tokens_add, tokens_singleton, Instr.destroys, Bool.false_eq_true, if_false, add_zero] at hq
    by_cases he : o' = o
    · subst he
      simp only [decide_true, if_true] at hq
      exact h.queueDestroy ⟨hf.1.1, hf.2⟩ hq.symm (closes_le hx rfl) hr hc rfl
    · simp only [he, decide_false, Bool.false_eq_true, if_false, add_zero] at hq
      refine h.same ?_ hr hc hq (fun _ => rfl) rfl
      simp [history, recordQueue, Ev.about, he]
  | establishConn o' | writeComplete o' | highWaterMark o' len =>
    simp only [tokens_add, tokens_singleton, Instr.destroys, Bool.false_eq_true, if_false, add_zero] at hq
    exact h.same rfl hr hc hq (fun _ => rfl) rfl
  | removeConnInLoop o' =>
    simp only [tokens_add, tokens_singleton, Instr.destroys, Bool.false_eq_true, if_false, zero_add] at hq
    exact h.same rfl hr hc (Nat.add_right_cancel hq) (fun _ => rfl) rfl

theorem Did.inOrder (hs : s.Sound b) (hd : s.Did P done made s') (hx : Exchange b done made b')
    (hcalls : P.calls o → tokens (Instr.reports o) b = 0) (hopen : P.closes o → ¬ s.Closed o)
    (hfirst : ∀ l, (l, .closeCallback o) ∈ done → tokens (Instr.reports o) b = 0)
    (hset : o < s.accepted → (s.conn o).callbacks = {s.callbacks with close := true}) (h : s.InOrder b o) :
    s'.InOrder b' o := by
  obtain ⟨hr, hc, hq⟩ := tokens_three hx o
  cases hd with
  | idle _ _ hd hm =>
    have hm' : ∀ x ∈ made, x.2.isIdle = true := fun x hx => (hm x hx).1
    rw [(reports_vital o).tokens hd, (reports_vital o).tokens hm'] at hr
    rw [(closes_vital o).tokens hd, (closes_vital o).tokens hm'] at hc
    rw [(destroys_vital o).tokens hd, (destroys_vital o).tokens hm'] at hq
    exact h.same rfl hr hc hq (fun _ => rfl) rfl
  | quiet l o' c es made hl hcall hquiet hm =>
    exact h.did_quiet hquiet (fun x hx => (hm x hx).1) hx fun he => hcalls (he ▸ hcall)
  | close l o' inputBuf hl hcall hreg hcl =>
    exact h.did_close hs inputBuf hl hreg hx (fun he => hcalls (he ▸ hcall)) (fun he => hopen (he ▸ hcl)) hset
  | accept c hnew => exact h.did_accept hnew hx
  | establish l o' hl hst => exact h.did_establish hl hst hx hset
  | destroy l o' hl hst =>
    simp only [tokens_on, tokens_singleton] at hr hc hq
    exact h.same rfl hr hc hq (fun _ => rfl) rfl
  | erase l o' hl hst =>
    simp only [tokens_on, tokens_singleton, Instr.reports, Instr.closes, Instr.destroys, List.countP_cons,
      List.countP_nil, Bool.false_eq_true, if_false, add_zero, zero_add] at hr hc hq
    exact h.same rfl hr hc (Nat.add_right_cancel hq) (fun _ => rfl) rfl
  | connCallback l o' hl => exact h.did_connCallback hx
  | closeCallback l o' hl hst =>
    refine h.did_closeCallback hx fun he => hfirst l ?_
    rw [he]
    exact Multiset.mem_singleton_self _
  | removeChan l o' hl hst => exact h.did_removeChan hx
  | queue l k f hf => exact h.did_queue hf hx

end TcpServer

namespace Host
variable {h h' : Host} {a : Act} {o : ConnNo}

/-! ### Every run -/

theorem handle_log {s : TcpServer} {r : ReadResult} {w : WriteResult} {cb : Chan.Callback}
    {x : TcpServer × List Instr} (hx : s.handle o r w cb = some x) : x.1.log = s.log := by
  cases cb with
  | close | error =>
    cases hx
    rfl
  | read =>
    simp only [TcpServer.handle, TcpServer.settle?] at hx
    split at hx <;> cases hx
    rfl
  | write =>
    simp only [TcpServer.handle] at hx
    split at hx <;> cases hx
    rfl

theorem body_log (s : TcpServer) (f : Functor) : (s.body f).1.log = s.log := by
  cases f <;> rfl

/-- Only the close callback is recorded as one. -/
theorem closeCallback_head (hs : Step h a h') (hlog : h'.server.log = h.server.log ++ [.closeCallback o]) :
    ∃ l rest, l ≤ h.server.numThreads ∧ (h.loops l).agenda = .closeCallback o :: rest := by
  have hsame : h'.server.log = h.server.log → ∃ l rest, l ≤ h.server.numThreads ∧
      (h.loops l).agenda = .closeCallback o :: rest := by
    intro hs
    rw [hs] at hlog
    simp at hlog
  cases hs with
  | eloop | poll | dispatch | endQueue | endUserCode | shutdown => exact hsame rfl
  | callback l r w o' cb rest x hc hl ha hx => exact hsame (handle_log hx)
  | accept x _ _ hx =>
    refine hsame ?_
    simp only [TcpServer.newConn] at hx
    split at hx <;> cases hx
    rfl
  | call l f e => exact hsame (body_log h.server f)
  | send l data w o' rest x ha hl hx =>
    refine hsame ?_
    unfold TcpServer.settle? at hx
    split at hx <;> cases hx
    rfl
  | queue l k f rest e ha hl hk he =>
    cases f with
    | destroyConn o' =>
      have heq := List.append_cancel_left hlog
      cases heq
    | _ => exact hsame rfl
  | exec l i rest x ha hl hx =>
    cases i with
    | closeCallback o' =>
      cases hx
      have heq := List.append_cancel_left hlog
      cases heq
      exact ⟨l, rest, hl, ha⟩
    | connCallback o' =>
      cases hx
      have heq := List.append_cancel_left hlog
      cases heq
    | finishWrite | removeChan | running =>
      cases hx
      exact hsame rfl
    | run f =>
      cases hx
      exact hsame (body_log h.server f)
    | userCode | queue | endQueue => cases hx

/-- When the close callback is called, the connection callback, which comes before it, is
not waiting any more. -/
theorem closes_first (hi : h.Sound) (hs : Step h a h') {done made : Multiset Item}
    (hd : h.server.Did (h.scope a) done made h'.server) {l : LoopId} (hm : (l, .closeCallback o) ∈ done) :
    tokens (Instr.reports o) h.bag = 0 := by
  have hlog : h'.server.log = h.server.log ++ [.closeCallback o] := by
    generalize h'.server = s' at hd
    cases hd with
    | idle _ _ hdone => cases hdone _ hm
    | closeCallback l' o' =>
      cases Multiset.mem_singleton.mp hm
      rfl
    | quiet | close | accept => exact absurd hm (Multiset.notMem_zero _)
    | establish | destroy | erase | connCallback | removeChan | queue => cases Multiset.mem_singleton.mp hm
  obtain ⟨k, rest, hk, ha⟩ := closeCallback_head hs hlog
  refine reports_bag hi (hi.server.assigned _ (mem_head hk ha)).1 fun hmem => ?_
  have hord := (hi.shape k).ordered
  rw [ha] at hord hmem
  rcases List.mem_cons.mp hmem with hmem | hmem
  · cases hmem
  · exact hord.1.first o hmem

/-- What holds on every run in which no connection is closed twice. -/
structure Told (h : Host) : Prop where
  closedOnce : h.ClosedOnce
  inOrder : ∀ o, h.server.InOrder h.bag o

theorem create_told (numThreads : Nat) (callbacks : Callbacks) (mark : Nat) :
    (create numThreads callbacks mark).Told := by
  refine ⟨create_closedOnce .., fun o => ?_⟩
  rw [TcpServer.InOrder, create_bag, TcpServer.due_new fun ho => absurd ho (Nat.not_lt_zero o)]
  rfl

theorem step_told (hi : h.Sound) (hset : ∀ o < h.server.accepted,
    (h.server.conn o).callbacks = {h.server.callbacks with close := true}) (hs : h.step a = some h')
    (hr : h.ClosesOpen a) (ho : h.Told) : h'.Told := by
  have hstep := step_cases hs
  obtain ⟨done, made, hx, hd⟩ := step_did hi hstep
  refine ⟨step_closedOnce hi hs hr ho.closedOnce, fun o => ?_⟩
  refine hd.inOrder hi.server hx (calls_reports hi hstep) (fun hcl => ?_) (fun l => closes_first hi hstep hd)
    (hset o) (ho.inOrder o)
  cases a with
  | callback l r w =>
    rcases hcl with hcl | ⟨hcl, heof⟩
    · exact ho.closedOnce.hangs l o (.inl (List.mem_of_mem_head? hcl))
    · exact hr _ hcl rfl heof
  | _ => exact hcl.elim

theorem create_callbacks {l id mark : Nat} {cb : Callbacks} {c : TcpConn} (h : TcpConn.create l id cb mark = .ok c) :
    c.callbacks = cb := by
  obtain ⟨inputBuf, -, h⟩ := bind_ok.mp h
  obtain ⟨outputBuf, -, h⟩ := bind_ok.mp h
  cases h
  rfl

/-- The server's callbacks are its connections'. -/
theorem Followed.conn_callbacks {h₀ : Host} {tr : List Act} (hf : Followed h₀ tr h) (ho : o < h.server.accepted) :
    (h.server.conn o).callbacks = {h.server.callbacks with close := true} := by
  obtain ⟨v, ⟨c, hc, hrun⟩, hv⟩ := hf.lives o ho
  rw [← hv.conn, (Served.run_frame hrun).callbacks, create_callbacks hc, hf.callbacks]

/-- **The life of a connection is told in order.** In every run in which `poll` reports no
hang-up of a connection that is closed already and none of these reads the end of the
stream again, what is told of a connection is a prefix of its life: up, down, back to the
server, destroyed. What is due to its state is told, but for what waits on the agendas and
in the queues of the loops. -/
theorem life_in_order {numThreads mark : Nat} {callbacks : Callbacks} {tr : List Act}
    (hrun : exec step (create numThreads callbacks mark) tr = some h)
    (hrule : Along step ClosesOpen (create numThreads callbacks mark) tr) (o : ConnNo) :
    h.server.history o <+: h.server.life o ∧ h.server.history o ++ h.server.waiting h.bag o = h.server.due o ∧
      (h.server.Ended o → h.bag = 0 → h.server.history o = h.server.life o) := by
  have htold : h.Told := by
    refine rule_induction (fun _ h => h.Told) (create_told ..) ?_ hrun hrule
    intro tr h a h' hr ho hrule hs
    have hf := run_followed hr
    exact step_told hf.sound (fun o => hf.conn_callbacks) hs hrule ho
  have hin := htold.inOrder o
  refine ⟨(List.prefix_append _ _).trans (hin ▸ TcpServer.due_prefix _ o), hin, fun he hb => ?_⟩
  rw [← TcpServer.due_closed he]
  rw [hb] at hin
  exact hin.told rfl rfl rfl

/-- A connection that has lived: the run of the peer's hang-up. -/
theorem life_in_order_hangUp : ∃ h, exec step (create 1 ⟨true, true, false, false, false⟩ 64) (established ++ hangUp) =
      some h ∧
    h.server.history 0 = [.connCallback 0 true, .connCallback 0 false, .closeCallback 0] ∧
    (h.server.history 0 <+: h.server.life 0 ∧ h.server.history 0 ++ h.server.waiting h.bag 0 = h.server.due 0 ∧
      (h.server.Ended 0 → h.bag = 0 → h.server.history 0 = h.server.life 0)) :=
  ⟨_, (Option.some_get (by decide +kernel)).symm, by decide +kernel,
    life_in_order (Option.some_get (by decide +kernel)).symm (by decide +kernel) 0⟩

end Host

end Caimr.Net
