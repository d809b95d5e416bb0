import Caimr.Net.CloseOnce
import Caimr.Net.ConnTable
import Caimr.Net.EpollPoller
import Caimr.Net.ServerConns

/-! The pollers of a server. The connections of a loop share its poller, and the kernel gives
the descriptor of a connection that is gone to another one. As long as it gives no two
connections that are alive the same descriptor, the records of every poller agree, and each
channel is in its poller as if it were alone there. -/
namespace Caimr.Net
open Transition Bag

/-! ### What a function does to its channel -/

/-- The member function of the channel that a call uses. -/
def Served.Call.chanOp (c : TcpConn) : Served.Call → Option EpollPoller.Op
  | .establish => some .enableReading
  | .send data w =>
    if c.state = .connected ∧ (c.writeNow data w).fault = false ∧ (c.writeNow data w).nwrote < data.length ∧
      c.ch.isWriting = false then some .enableWriting else none
  | .readable r => if r.IsEof then some .disableAll else none
  | .flush w =>
    match c.flush w with
    | .ok (_, _, true) => some .disableWriting
    | _ => none
  | .close => some .disableAll
  | .destroy => if c.state = .connected then some .disableAll else none
  | .removeChan => some .remove
  | .shutdown | .finishWrite => none

namespace Served
variable {c c' : TcpConn} {k : Call} {es : List Effect} {next : Option Call}

theorem send_chanOp {data : Bytes} {w : WriteResult} (h : c.send data w = .ok (c', es)) :
    c'.ch = (Call.chanOp c (.send data w)).elim c.ch (·.onChan c.ch) ∧ c'.state = c.state := by
  unfold TcpConn.send at h
  split at h
  · rename_i hs
    have hnone : (c.writeNow data w).fault = true ∨ data.length ≤ (c.writeNow data w).nwrote →
        Call.chanOp c (.send data w) = none := by
      intro hdone
      refine if_neg fun hop => ?_
      rcases hdone with hf | hn
      · rw [hop.2.1] at hf
        cases hf
      · exact Nat.not_lt.mpr hn hop.2.2.1
    rcases TcpConn.sendInLoop_cases h with ⟨hd, -⟩ | ⟨-, hdone, rfl, -⟩ | ⟨later, -, hf, hn, hk, -⟩
    · cases hs.symm.trans hd
    · rw [hnone hdone]
      exact ⟨rfl, rfl⟩
    · obtain ⟨b, -, hk⟩ := bind_ok.mp hk
      cases hk
      refine ⟨?_, rfl⟩
      by_cases hw : c.ch.isWriting = true
      · have hop : Call.chanOp c (.send data w) = none := if_neg (by simp [hw])
        rw [hop]
        exact if_pos hw
      · have hop : Call.chanOp c (.send data w) = some .enableWriting :=
          if_pos ⟨hs, hf, hn, Bool.eq_false_iff.mpr hw⟩
        rw [hop]
        exact if_neg hw
  · rename_i hs
    cases h
    rw [show Call.chanOp c (.send data w) = none from if_neg fun hop => hs hop.1]
    exact ⟨rfl, rfl⟩

theorem flush_chanOp {w : WriteResult} {drained : Bool} (h : c.flush w = .ok (c', es, drained)) :
    c'.ch = (Call.chanOp c (.flush w)).elim c.ch (·.onChan c.ch) ∧ c'.state = c.state := by
  have hop : Call.chanOp c (.flush w) = if drained then some .disableWriting else none := by
    rw [Call.chanOp, h]
    cases drained <;> rfl
  rw [hop]
  obtain ⟨-, rfl, -, rfl⟩ | ⟨_, _, -, -, -, rfl, -, rfl⟩ | ⟨_, _, -, -, -, -, rfl, -, rfl⟩ |
    ⟨_, _, -, -, -, -, rfl, -, rfl⟩ := TcpConn.flush_cases h <;> exact ⟨rfl, rfl⟩

/-- A call does to the channel what this member function does, and nothing else. -/
theorem run_chanOp (h : k.run c = .ok (c', es, next)) : c'.ch = (k.chanOp c).elim c.ch (·.onChan c.ch) := by
  cases k with
  | establish | close | removeChan | finishWrite =>
    cases h
    rfl
  | shutdown =>
    simp only [Call.run, Except.ok.injEq, Prod.mk.injEq, TcpConn.shutdown] at h
    rw [← h.1]
    split <;> rfl
  | destroy =>
    simp only [Call.run, Except.ok.injEq, Prod.mk.injEq, TcpConn.destroyConn] at h
    rw [← h.1, Call.chanOp]
    split <;> rfl
  | send data w =>
    obtain ⟨_, hsend, h⟩ := bind_ok.mp h
    cases h
    exact (send_chanOp hsend).1
  | flush w =>
    obtain ⟨_, hflush, h⟩ := bind_ok.mp h
    cases h
    exact (flush_chanOp hflush).1
  | readable r =>
    obtain ⟨_, hread, h⟩ := bind_ok.mp h
    cases h
    rw [Call.chanOp]
    by_cases hr : r.IsEof
    · obtain ⟨b, he⟩ := TcpConn.handleRead_eof hr hread
      rw [if_pos hr, (Prod.mk.inj he).1]
      rfl
    · rw [if_neg hr, TcpConn.handleRead_more hr hread]
      rfl

/-- A new connection that is not established stays new. -/
theorem run_connenting (hf : k.Fits c) (h : k.run c = .ok (c', es, next)) (hop : k.chanOp c = none)
    (hs : c.state = .connenting) : c'.state = .connenting := by
  cases k with
  | establish | close | removeChan => cases hop
  | finishWrite =>
    cases h
    exact hs
  | shutdown =>
    simp only [Call.run, Except.ok.injEq, Prod.mk.injEq, TcpConn.shutdown] at h
    rw [if_neg (by rw [hs]; decide)] at h
    rw [← h.1, hs]
  | destroy => cases hs.symm.trans hf
  | send data w =>
    obtain ⟨_, hsend, h⟩ := bind_ok.mp h
    cases h
    exact (send_chanOp hsend).2.trans hs
  | flush w =>
    obtain ⟨_, hflush, h⟩ := bind_ok.mp h
    cases h
    exact (flush_chanOp hflush).2.trans hs
  | readable r =>
    obtain ⟨_, hread, h⟩ := bind_ok.mp h
    cases h
    rw [TcpConn.handleRead_more (fun hr => ?_) hread]
    · exact hs
    · rw [Call.chanOp, if_pos hr] at hop
      cases hop

/-! ### The index of a channel -/

/-- Only the channel of a new connection is new, and the index says whether the epoll
instance has the channel. -/
structure Indexed (c : TcpConn) : Prop where
  new : c.ch.index = .new → c.state = .connenting
  added : c.ch.index = .added ↔ c.ch.registered ≠ none

theorem updateChan_added (ch : Chan) (h : ch.index = .added ↔ ch.registered ≠ none) :
    ch.updateChan.index = .added ∧ ch.updateChan.registered ≠ none := by
  unfold Chan.updateChan
  cases hi : ch.index with
  | added =>
    obtain ⟨mask, hm⟩ := Option.ne_none_iff_exists'.mp (h.mp hi)
    simp [epollCtl, hm]
  | new | deleted =>
    have hno : ch.registered = none := by
      by_contra hne
      rw [h.mpr hne] at hi
      cases hi
    simp [epollCtl, hno]

theorem run_indexed (hi : Indexed c) (hf : k.Fits c) (h : k.run c = .ok (c', es, next)) : Indexed c' := by
  have hch := run_chanOp h
  cases hop : k.chanOp c with
  | none =>
    rw [hop] at hch
    refine ⟨fun hnew => ?_, by rw [hch]; exact hi.added⟩
    rw [hch] at hnew
    exact run_connenting hf h hop (hi.new hnew)
  | some op =>
    rw [hop] at hch
    by_cases hr : op = .remove
    · subst hr
      rw [Option.elim_some] at hch
      exact ⟨by rw [hch]; nofun, by rw [hch]; exact ⟨nofun, fun hne => absurd rfl hne⟩⟩
    · rw [Option.elim_some, EpollPoller.Op.onChan_update hr] at hch
      obtain ⟨hadd, hreg⟩ := updateChan_added {c.ch with events := op.newEvents c.ch.events} hi.added
      rw [← hch] at hadd hreg
      exact ⟨fun hnew => (by rw [hadd] at hnew; cases hnew), ⟨fun _ => hreg, fun _ => hadd⟩⟩

/-- What a call finds: a new channel is not removed, and one that was removed is not updated. -/
theorem chanOp_index {op : EpollPoller.Op} (hw : c.Watched) (hi : Indexed c) (hf : k.Fits c)
    (hop : k.chanOp c = some op) : (c.ch.index = .new → k = .establish ∧ op ≠ .remove) ∧
      (c.ch.index = .deleted → k = .removeChan ∧ op = .remove) := by
  have hadded : c.ch.index = .added → (c.ch.index = .new → k = .establish ∧ op ≠ .remove) ∧
      (c.ch.index = .deleted → k = .removeChan ∧ op = .remove) := by
    intro ha
    rw [ha]
    exact ⟨nofun, nofun⟩
  cases k with
  | shutdown | finishWrite => cases hop
  | readable | flush | close => exact hadded (hi.added.mpr hf)
  | establish =>
    cases hop
    refine ⟨fun _ => ⟨rfl, nofun⟩, fun hd => ?_⟩
    rw [(hw.fresh hf).1] at hd
    cases hd
  | send data w =>
    rw [Call.chanOp] at hop
    split at hop
    · rename_i hs
      exact hadded (hw.live (.inl hs.1)).1.1
    · cases hop
  | destroy =>
    rw [Call.chanOp, if_neg (by rw [show c.state = .disconnected from hf]; nofun)] at hop
    cases hop
  | removeChan =>
    cases hop
    exact ⟨fun hnew => (by cases (hi.new hnew).symm.trans hf), fun _ => ⟨rfl, rfl⟩⟩

theorem run_indexed_all {c : TcpConn} {loop id mark : Nat} {cb : Callbacks} {tr : List Call} {s : State}
    (hc : TcpConn.create loop id cb mark = .ok c) (h : exec step (start c) tr = some s) : Indexed s.conn := by
  obtain ⟨-, -, hs, hch⟩ := TcpServer.create_new hc
  refine exec_preserves (I := fun s => Indexed s.conn) (fun s k t hi hk => ?_) ⟨fun _ => hs, ?_⟩ h
  · obtain ⟨-, hf, es, hrun, -⟩ := step_iff.mp hk
    exact run_indexed hi hf hrun
  · show c.ch.index = .added ↔ c.ch.registered ≠ none
    rw [hch]
    exact ⟨nofun, fun hne => absurd rfl hne⟩

end Served

/-! ### The connections that are alive -/

/-- Work on the life of a connection: a `shared_ptr` is kept for it. -/
def Functor.keeps (o : ConnNo) : Functor → Bool
  | .establishConn o' | .destroyConn o' | .removeConnInLoop o' => o' = o
  | .writeComplete _ | .highWaterMark .. => false

def Instr.keeps (o : ConnNo) : Instr → Bool
  | .connCallback o' | .closeCallback o' | .removeChan o' => o' = o
  | .queue _ f | .run f => f.keeps o
  | .userCode _ | .finishWrite _ | .endQueue _ | .running _ => false

theorem keeps_vital (o : ConnNo) : Vital (Instr.keeps o) := by
  intro i hi
  cases i with
  | queue _ f | run f => cases f <;> first | rfl | cases hi
  | userCode | finishWrite | endQueue | running => rfl
  | connCallback | closeCallback | removeChan => cases hi

theorem Instr.keeps_of_releases {o : ConnNo} {i : Instr} (h : i.releases o = true) : i.keeps o = true := by
  obtain ⟨k, rfl⟩ | rfl | rfl := Instr.of_releases h <;> simp [keeps, Functor.keeps]

namespace TcpServer
variable {P : Scope} {s s' : TcpServer} {b b' done made : Multiset Item} {o : ConnNo}

/-- The map holds the connection, or work on its life does. -/
def Alive (s : TcpServer) (b : Multiset Item) (o : ConnNo) : Prop :=
  s.conns (s.conn o).id = some o ∨ ∃ x ∈ b, x.2.keeps o = true

/-- So the channel of a connection goes before the connection. -/
theorem Kept.alive (hk : s.Kept b) (ho : o < s.accepted) (hr : s.Registered o) : s.Alive b o :=
  (hk.owner o ho hr).imp_right fun ⟨x, hx, hrel⟩ => ⟨x, hx, Instr.keeps_of_releases hrel⟩

/-- Such work comes from such work, or from an event of the channel. -/
theorem Did.keeps (h : s.Did P done made s') (ho : o < s.accepted) {x : Item} (hx : x ∈ made)
    (hk : x.2.keeps o = true) : s.Registered o ∨ ∃ y ∈ done, y.2.keeps o = true := by
  cases h with
  | idle _ _ _ hm | quiet _ _ _ _ _ _ _ _ hm =>
    rw [keeps_vital o _ (hm x hx).1] at hk
    cases hk
  | close l o' inputBuf _ _ hr =>
    obtain ⟨-, hi⟩ := mem_on.mp hx
    have he : o' = o := by
      rcases List.mem_append.mp hi with hi | hi <;> split at hi
      · rw [List.mem_singleton.mp hi] at hk
        exact of_decide_eq_true hk
      · cases hi
      · rw [List.mem_singleton.mp hi] at hk
        exact of_decide_eq_true hk
      · cases hi
    exact .inl (he ▸ hr)
  | accept c _ =>
    rw [Multiset.mem_singleton.mp hx, runInLoop] at hk
    split at hk <;> exact absurd (of_decide_eq_true hk) (Nat.ne_of_gt ho)
  | establish l o' =>
    obtain ⟨-, hi⟩ := mem_on.mp hx
    refine .inr ⟨_, Multiset.mem_singleton_self _, ?_⟩
    rcases List.mem_append.mp hi with hi | hi
    · split at hi
      · rw [List.mem_singleton.mp hi] at hk
        exact hk
      · cases hi
    · rw [List.mem_singleton.mp hi] at hk
      cases hk
  | destroy l o' | erase l o' =>
    obtain ⟨-, hi⟩ := mem_on.mp hx
    refine .inr ⟨_, Multiset.mem_singleton_self _, ?_⟩
    rcases List.mem_pair.mp hi with hi | hi <;> rw [hi] at hk
    · exact hk
    · cases hk
  | connCallback l o' =>
    rw [Multiset.mem_singleton.mp hx] at hk
    cases hk
  | closeCallback l o' =>
    refine .inr ⟨_, Multiset.mem_singleton_self _, ?_⟩
    rw [Multiset.mem_singleton.mp hx, removeConn, runInLoop] at hk
    split at hk <;> exact hk
  | removeChan => exact absurd hx (Multiset.notMem_zero x)
  | queue l k f =>
    refine .inr ⟨_, Multiset.mem_singleton_self _, ?_⟩
    rcases Multiset.mem_add.mp hx with hx | hx <;> rw [Multiset.mem_singleton.mp hx] at hk
    · cases hk
    · exact hk

/-- The map takes in no connection but a new one. -/
theorem Did.entry_back (h : s.Did P done made s') (ho : o < s.accepted)
    (he : s'.conns (s'.conn o).id = some o) : s.conns (s.conn o).id = some o := by
  rw [(h.moves ho).frame.2] at he
  cases h with
  | accept c _ =>
    have hupd : Function.update s.conns s.nextConnId (some s.accepted) (s.conn o).id = some o := he
    by_cases hid : (s.conn o).id = s.nextConnId
    · rw [hid, Function.update_self] at hupd
      exact absurd (Option.some.inj hupd) (Nat.ne_of_gt ho)
    · rwa [Function.update_of_ne hid] at hupd
  | erase l o' =>
    have hupd : Function.update s.conns (s.conn o').id none (s.conn o).id = some o := he
    by_cases hid : (s.conn o).id = (s.conn o').id
    · rw [hid, Function.update_self] at hupd
      cases hupd
    · rwa [Function.update_of_ne hid] at hupd
  | queue l k f _ => cases f <;> exact he
  | _ => exact he

/-- A connection that is gone does not come back. -/
theorem Did.alive_back (h : s.Did P done made s') (hx : Exchange b done made b') (hk : s.Kept b)
    (ho : o < s.accepted) (ha : s'.Alive b' o) : s.Alive b o := by
  rcases ha with he | ⟨x, hx', hkeeps⟩
  · exact .inl (h.entry_back ho he)
  · rcases hx.mem_cases hx' with hb | hm
    · exact .inr ⟨x, hb, hkeeps⟩
    · rcases h.keeps ho hm hkeeps with hr | ⟨y, hy, hyk⟩
      · exact hk.alive ho hr
      · exact .inr ⟨y, hx.mem_of_done hy, hyk⟩

end TcpServer

/-! ### The poller of a loop -/

namespace Host
variable {fds : ConnNo → Nat} {l : LoopId} {h h' : Host} {a : Act} {o : ConnNo} {p : EpollPoller}

/-- The calls that a step makes on the poller of `l`. -/
def pollerCalls (l : LoopId) (h : Host) (a : Act) : List EpollPoller.Call :=
  match h.served a with
  | some (o, k) =>
    if (h.server.conn o).loop = l then ((k.chanOp (h.server.conn o)).map (⟨o, ·⟩)).toList else []
  | none => []

def Alive (h : Host) (o : ConnNo) : Prop := h.server.Alive h.bag o

instance (h : Host) (o : ConnNo) : Decidable (h.Alive o) :=
  @instDecidableOr _ _ (inferInstanceAs (Decidable (_ = some o))) Multiset.decidableExistsMultiset

/-- The kernel gives a new connection a descriptor that none of the others has, as long as
they are alive: `~tcp_conn` closes it. -/
def Fresh (fds : ConnNo → Nat) (h : Host) (a : Act) : Prop :=
  a = .accept → ∀ o < h.server.accepted, h.Alive o → fds o ≠ fds h.server.accepted

instance (fds : ConnNo → Nat) (h : Host) (a : Act) : Decidable (Fresh fds h a) :=
  inferInstanceAs (Decidable (_ → _))

/-- No two connections that are alive have the same descriptor. -/
def Apart (fds : ConnNo → Nat) (h : Host) : Prop :=
  ∀ o < h.server.accepted, ∀ o' < h.server.accepted, h.Alive o → h.Alive o' → fds o = fds o' → o = o'

/-- The poller of `l`: its records agree, and it holds the channels of the connections of
`l` as these have them, and none else. -/
structure Polls (fds : ConnNo → Nat) (l : LoopId) (h : Host) (p : EpollPoller) : Prop where
  filed : p.Filed
  agrees : ∀ c, p.Agrees c
  fd : ∀ c, (p.chans c).fd = fds c
  view : ∀ o, h.server.Owns l o → p.view o = (h.server.conn o).ch
  strange : ∀ o, ¬ h.server.Owns l o → p.chans o = ⟨fds o, noneEvent, .new⟩

theorem create_polls (fds : ConnNo → Nat) (l : LoopId) (numThreads mark : Nat) (callbacks : Callbacks) :
    Polls fds l (create numThreads callbacks mark) (.create fds) :=
  ⟨EpollPoller.create_filed fds, EpollPoller.create_agrees fds, fun _ => rfl,
    fun o ho => absurd ho.1 (Nat.not_lt_zero o), fun _ _ => rfl⟩

/-- A channel in the poller is that of a connection of the loop, which is alive. -/
theorem Polls.added (hp : Polls fds l h p) (hk : h.server.Kept h.bag) (hadd : (p.chans o).index = .added) :
    h.server.Owns l o ∧ h.Alive o := by
  have howns : h.server.Owns l o := by
    by_contra hno
    rw [hp.strange o hno] at hadd
    cases hadd
  refine ⟨howns, hk.alive howns.1 ?_⟩
  rw [TcpServer.Registered, ← hp.view o howns, EpollPoller.view, (hp.agrees o).registered, if_pos hadd]
  exact Option.some_ne_none _

/-- A new channel as the lone one. -/
theorem Polls.view_strange (hp : Polls fds l h p) (ho : ¬ h.server.Owns l o) : p.view o = .create := by
  have hchan := hp.strange o ho
  have hne : ¬ (p.chans o).index = .added := by
    rw [hchan]
    nofun
  rw [EpollPoller.view, (hp.agrees o).registered, if_neg hne, hchan]
  rfl

/-- A step that makes no call on the poller of `l`. -/
theorem Polls.spared {P : TcpServer.Scope} {done made : Multiset Item} (hp : Polls fds l h p)
    (hd : h.server.Did P done made h'.server)
    (hch : ∀ o, h.server.Owns l o → (h'.server.conn o).ch = (h.server.conn o).ch) : Polls fds l h' p := by
  refine ⟨hp.filed, hp.agrees, hp.fd, fun o ho => ?_, fun o ho => hp.strange o fun ho' => ho (hd.owns ho')⟩
  by_cases ho' : o < h.server.accepted
  · have howns : h.server.Owns l o := ⟨ho', (hd.moves ho').frame.1.symm.trans ho.2⟩
    rw [hch o howns]
    exact hp.view o howns
  · obtain ⟨rfl, -, -, c, hc, hserver⟩ := hd.new (Nat.le_of_not_lt ho') ho.1
    rw [hp.view_strange fun ho'' => ho' ho''.1, hserver, TcpServer.enroll_conn, if_pos rfl,
      (TcpServer.create_new hc).2.2.2]

/-- `ch_->remove()` is on the agenda of the loop. -/
theorem removeChan_work (hs : Step h a h') (ha : h.served a = some (o, .removeChan)) : h.Alive o := by
  have hfunctor : ∀ f : Functor, f.served ≠ some (o, .removeChan) := by
    intro f
    cases f <;> simp [Functor.served]
  cases hs with
  | eloop | poll | dispatch | accept | endUserCode => cases ha
  | callback l r w o' cb rest x hc =>
    rw [served, hc] at ha
    cases cb <;> simp [Chan.Callback.served] at ha
  | call l f => exact absurd ha (hfunctor f)
  | exec l i rest x hag hl =>
    rw [served, hag] at ha
    refine .inr ⟨(l, i), mem_head hl hag, ?_⟩
    cases i with
    | removeChan o' =>
      cases ha
      exact decide_eq_true rfl
    | run f => exact absurd ha (hfunctor f)
    | finishWrite | connCallback | userCode | closeCallback | queue | endQueue | running => cases ha
  | queue l k f rest e hag | endQueue l k rest e hag =>
    rw [served, hag] at ha
    cases ha
  | send l data w o' rest x hag | shutdown l o' rest hag =>
    rw [served, hag] at ha
    cases ha

/-- A call on the poller of `l` is one that its records outlast. -/
theorem Polls.call (hp : Polls fds l h p) (hk : h.server.Kept h.bag) (hap : h.Apart fds)
    (howns : h.server.Owns l o) {op : EpollPoller.Op}
    (hnew : (h.server.conn o).ch.index = .new → h.Alive o ∧ op ≠ .remove)
    (hdel : (h.server.conn o).ch.index = .deleted → h.Alive o ∧ op = .remove) :
    p.Permitted ⟨o, op⟩ ∧ p.Lasting ⟨o, op⟩ := by
  have hindex : (p.chans o).index = (h.server.conn o).ch.index := congrArg Chan.index (hp.view o howns)
  have hfree : (p.chans o).index ≠ .added → h.Alive o →
      ∀ d, (p.chans d).index = .added → (p.chans d).fd ≠ (p.chans o).fd := by
    intro hne halive d hd hfd
    obtain ⟨howns', halive'⟩ := hp.added hk hd
    rw [hp.fd, hp.fd] at hfd
    obtain rfl := hap d howns'.1 o howns.1 halive' halive hfd
    exact hne hd
  refine ⟨fun hi => ?_, fun hi => ?_⟩
  · obtain ⟨halive, hop⟩ := hnew (hindex ▸ hi)
    exact ⟨hop, hfree (by rw [hi]; nofun) halive⟩
  · obtain ⟨halive, hop⟩ := hdel (hindex ▸ hi)
    exact ⟨hop, hfree (by rw [hi]; nofun) halive⟩

/-- The calls that keep the records of a poller. -/
def Sane (p : EpollPoller) (c : EpollPoller.Call) : Prop := p.Permitted c ∧ p.Lasting c

/-- The poller and the connection after such a call. -/
theorem Polls.called {P : TcpServer.Scope} {done made : Multiset Item} {c : TcpConn} {op : EpollPoller.Op}
    (hp : Polls fds l h p) (hd : h.server.Did P done made h'.server) (howns : h.server.Owns l o)
    (hserver : h'.server = h.server.setConn o c) (hch : c.ch = op.onChan (h.server.conn o).ch)
    (hsane : Sane p ⟨o, op⟩) : Polls fds l h' (p.call ⟨o, op⟩) := by
  have ht := EpollPoller.call_touches p ⟨o, op⟩
  have hback : ∀ d, h'.server.Owns l d → h.server.Owns l d := by
    intro d hd'
    have hacc : d < h.server.accepted := by
      have hlt := hd'.1
      rwa [hserver] at hlt
    exact ⟨hacc, (hd.moves hacc).frame.1.symm.trans hd'.2⟩
  refine ⟨EpollPoller.call_filed hp.filed _, (EpollPoller.call_agrees_iff hp.agrees hp.filed hsane.1).mpr hsane.2,
    fun d => (ht.fd d).trans (hp.fd d), fun d hd' => ?_, fun d hd' => ?_⟩
  · rw [EpollPoller.view_call hp.agrees hp.filed hsane.1 hsane.2, hp.view d (hback d hd'), hserver,
      TcpServer.setConn_conn]
    split
    · rename_i he
      subst he
      exact hch.symm
    · rfl
  · have hne : d ≠ o := fun he => hd' (he ▸ hd.owns howns)
    rw [ht.chans d hne]
    exact hp.strange d fun ho => hd' (hd.owns ho)

theorem step_polls (hs : Step h a h') (hi : h.Sound) (hn : h.Neat) (hk : h.server.Kept h.bag) (hap : h.Apart fds)
    (hc : ∀ o < h.server.accepted, (h.server.conn o).Watched ∧ Served.Indexed (h.server.conn o))
    (hp : Polls fds l h p) : ∃ p', exec EpollPoller.step p (h.pollerCalls l a) = some p' ∧
      Along EpollPoller.step Sane p (h.pollerCalls l a) ∧ Polls fds l h' p' := by
  obtain ⟨done, made, -, hd⟩ := step_did hi hs
  have hnone : h.pollerCalls l a = [] →
      (∀ o, h.server.Owns l o → (h'.server.conn o).ch = (h.server.conn o).ch) →
      ∃ p', exec EpollPoller.step p (h.pollerCalls l a) = some p' ∧
        Along EpollPoller.step Sane p (h.pollerCalls l a) ∧ Polls fds l h' p' := by
    intro hcalls hch
    rw [hcalls]
    exact ⟨p, rfl, along_nil, hp.spared hd hch⟩
  cases step_does hi hn hs with
  | calls k o f rest x ha howns hres hm hf =>
    obtain ⟨c, es, next, more, hrun, hset, -⟩ := hm
    have hserver : h'.server = h.server.setConn o c := hres.1.trans hset
    have hconn : ∀ d, (h'.server.conn d).ch = if d = o then c.ch else (h.server.conn d).ch := by
      intro d
      rw [hserver, TcpServer.setConn_conn]
      split <;> rfl
    have hch := Served.run_chanOp hrun
    by_cases hl : k = l
    · subst hl
      cases hop : f.chanOp (h.server.conn o) with
      | none =>
        rw [hop] at hch
        refine hnone (by rw [pollerCalls, ha]; simp [hop]) fun d _ => ?_
        rw [hconn]
        split
        · rename_i he
          rw [he]
          exact hch
        · rfl
      | some op =>
        rw [hop] at hch
        obtain ⟨hw, hx⟩ := hc o howns.1
        obtain ⟨hnew, hdel⟩ := Served.chanOp_index hw hx hf hop
        have hsane : Sane p ⟨o, op⟩ := by
          refine hp.call hk hap howns (fun hi' => ⟨?_, (hnew hi').2⟩) fun hi' => ⟨?_, (hdel hi').2⟩
          · -- A connection that is not established is in the map.
            refine .inl (hk.entry o howns.1 fun hcl => ?_)
            cases (hx.new hi').symm.trans hcl
          · exact removeChan_work hs (by rw [ha, (hdel hi').1])
        have hcalls : h.pollerCalls k a = [⟨o, op⟩] := by
          rw [pollerCalls, ha]
          simp [hop, howns.2]
        rw [hcalls]
        exact ⟨p.call ⟨o, op⟩, rfl, along_single hsane, hp.called hd howns hserver hch hsane⟩
    · have hother : ∀ d, h.server.Owns l d → d ≠ o := by
        rintro d hd' rfl
        exact hl (howns.2.symm.trans hd'.2)
      refine hnone ?_ fun d hd' => by rw [hconn, if_neg (hother d hd')]
      rw [pollerCalls, ha]
      exact if_neg fun he => hl (howns.2.symm.trans he)
  | spares k rest x ha hres hx =>
    exact hnone (by rw [pollerCalls, ha]) fun d hd' => by rw [hres.1, hx.1 d hd'.1]
  | queues k i rest x ha _ _ hres hx => exact hnone (by rw [pollerCalls, ha]) fun d _ => by rw [hres.1, hx]
  | idle ha hserver => exact hnone (by rw [pollerCalls, ha]) fun d _ => by rw [hserver]

/-! ### Whole runs -/

/-- The connections of a run, each in the state that its own run leads to. -/
theorem Followed.indexed {h₀ : Host} {tr : List Act} (hf : Followed h₀ tr h) (ho : o < h.server.accepted) :
    (h.server.conn o).Watched ∧ Served.Indexed (h.server.conn o) := by
  obtain ⟨v, ⟨c, hc, hrun⟩, hfv⟩ := hf.lives o ho
  rw [← hfv.conn]
  exact ⟨(Served.run_kept hc hrun).watched, Served.run_indexed_all hc hrun⟩

theorem step_apart (hs : h.step a = some h') (hi : h.Sound) (hk : h.server.Kept h.bag) (hfresh : Fresh fds h a)
    (hap : h.Apart fds) : h'.Apart fds := by
  obtain ⟨done, made, hx, hd⟩ := step_did hi (step_cases hs)
  have haccepted : ∀ o, h.server.accepted ≤ o → o < h'.server.accepted → a = .accept := by
    intro o ho ho'
    by_contra hne
    have htable := congrArg Prod.snd (step_table hs hne)
    have hsame : h'.server.accepted = h.server.accepted := by
      refine htable.trans ?_
      split <;> rfl
    omega
  have hnew : ∀ o, h.server.accepted ≤ o → o < h'.server.accepted → o = h.server.accepted ∧
      ∀ o' < h.server.accepted, h.Alive o' → fds o' ≠ fds o := by
    intro o ho ho'
    have he := (hd.new ho ho').1
    exact ⟨he, he ▸ hfresh (haccepted o ho ho')⟩
  intro o ho o' ho' ha ha' hfd
  by_cases hold : o < h.server.accepted
  · have hback := hd.alive_back hx hk hold ha
    by_cases hold' : o' < h.server.accepted
    · exact hap o hold o' hold' hback (hd.alive_back hx hk hold' ha') hfd
    · exact absurd hfd ((hnew o' (Nat.le_of_not_lt hold') ho').2 o hold hback)
  · have hlate := hnew o (Nat.le_of_not_lt hold) ho
    by_cases hold' : o' < h.server.accepted
    · exact absurd hfd.symm (hlate.2 o' hold' (hd.alive_back hx hk hold' ha'))
    · rw [hlate.1, (hnew o' (Nat.le_of_not_lt hold') ho').1]

theorem run_polls {numThreads mark : Nat} {callbacks : Callbacks} {tr : List Act}
    (hr : exec step (create numThreads callbacks mark) tr = some h) (hacc : h.server.accepted < 2 ^ 32)
    (hfresh : Along step (Fresh fds) (create numThreads callbacks mark) tr) :
    h.Apart fds ∧ ∀ l, ∃ p, exec EpollPoller.step (.create fds)
      (seen step (pollerCalls l) (create numThreads callbacks mark) tr) = some p ∧ Along EpollPoller.step Sane
      (.create fds) (seen step (pollerCalls l) (create numThreads callbacks mark) tr) ∧ Polls fds l h p := by
  refine rule_induction (fun tr h => h.server.accepted < 2 ^ 32 → h.Apart fds ∧ ∀ l, ∃ p,
    exec EpollPoller.step (.create fds) (seen step (pollerCalls l) (create numThreads callbacks mark) tr) = some p ∧
      Along EpollPoller.step Sane (.create fds)
        (seen step (pollerCalls l) (create numThreads callbacks mark) tr) ∧ Polls fds l h p) ?_ ?_ hr hfresh hacc
  · exact fun _ => ⟨fun o ho => absurd ho (Nat.not_lt_zero o), fun l => ⟨_, rfl, along_nil, create_polls ..⟩⟩
  · intro tr h a h' hr ih hrule hs hacc
    have hf := run_followed hr
    obtain ⟨done, made, -, hd⟩ := step_did hf.sound (step_cases hs)
    have hacc' := hd.accepted_le.trans_lt hacc
    have hk := run_kept hr hacc'
    obtain ⟨hap, hpolls⟩ := ih hacc'
    refine ⟨step_apart hs hf.sound hk hrule hap, fun l => ?_⟩
    obtain ⟨p, hp, halong, hpoll⟩ := hpolls l
    obtain ⟨p', hp', halong', hpoll'⟩ :=
      step_polls (step_cases hs) hf.sound hf.neat hk hap (fun o ho => hf.indexed ho) hpoll
    rw [seen_snoc hr hs]
    exact ⟨p', exec_split.mpr ⟨p, hp, hp'⟩, halong.append hp halong', hpoll'⟩

/-- Channels that the pollers hold have descriptors of their own. -/
theorem Apart.registered (hap : h.Apart fds) (hk : h.server.Kept h.bag) {o' : ConnNo} (ho : o < h.server.accepted)
    (ho' : o' < h.server.accepted) (hreg : (h.server.conn o).ch.registered ≠ none)
    (hreg' : (h.server.conn o').ch.registered ≠ none) (hfd : fds o = fds o') : o = o' :=
  hap o ho o' ho' (hk.alive ho hreg) (hk.alive ho' hreg') hfd

/-- **The pollers of a server.** In every run in which the kernel gives no connection the
descriptor of one that is alive: no two channels in the pollers have one descriptor, and the
calls that a loop makes on its poller keep the records of the poller, so that they agree and
each connection has its channel there as if it were alone. -/
theorem pollers_agree {numThreads mark : Nat} {callbacks : Callbacks} {tr : List Act}
    (hr : exec step (create numThreads callbacks mark) tr = some h) (hacc : h.server.accepted < 2 ^ 32)
    (hfresh : Along step (Fresh fds) (create numThreads callbacks mark) tr) :
    (∀ o < h.server.accepted, ∀ o' < h.server.accepted, (h.server.conn o).ch.registered ≠ none →
      (h.server.conn o').ch.registered ≠ none → fds o = fds o' → o = o') ∧
    ∀ l, Along EpollPoller.step Sane (.create fds) (seen step (pollerCalls l) (create numThreads callbacks mark) tr) ∧
      ∃ p, exec EpollPoller.step (.create fds)
          (seen step (pollerCalls l) (create numThreads callbacks mark) tr) = some p ∧
        (∀ c, p.Agrees c) ∧ ∀ o, h.server.Owns l o → p.view o = (h.server.conn o).ch := by
  obtain ⟨hap, hpolls⟩ := run_polls hr hacc hfresh
  refine ⟨fun o ho o' ho' => hap.registered (run_kept hr hacc) ho ho', fun l => ?_⟩
  obtain ⟨p, hp, halong, hpoll⟩ := hpolls l
  exact ⟨halong, p, hp, hpoll.agrees, hpoll.view⟩

/-- A connection is closed and destroyed, and the next one gets its descriptor. -/
def reaccepted : List Act :=
  established ++ hangUp ++
    [.eloop 1 .endEvents, .eloop 1 .storeCalling, .eloop 1 .swap, .eloop 1 .clearCalling, .eloop 1 .loadQuit,
      .eloop 0 .endEvents, .eloop 0 .storeCalling, .eloop 0 .swap, .call 0 (.removeConnInLoop 0), .exec 0,
      .eloop 1 (.testWakeup 0), .eloop 1 (.wakeup 0), .exec 0, .exec 0, .eloop 0 .endCall, .eloop 0 .clearCalling,
      .eloop 0 .loadQuit, .poll 0 true [], .poll 1 true [], .eloop 1 .handleRead, .eloop 1 .endEvents,
      .eloop 1 .storeCalling, .eloop 1 .swap, .call 1 (.destroyConn 0), .exec 1, .exec 1, .eloop 0 .handleRead, .accept,
      .exec 0, .eloop 1 (.testWakeup 0), .eloop 1 (.wakeup 0), .exec 0, .eloop 1 .endCall, .eloop 1 .clearCalling,
      .eloop 1 .loadQuit, .poll 1 true [], .eloop 1 .handleRead, .eloop 1 .endEvents, .eloop 1 .storeCalling,
      .eloop 1 .swap, .call 1 (.establishConn 1)]

theorem pollers_agree_reaccepted : ∃ h, exec step (create 1 ⟨true, true, false, false, false⟩ 64) reaccepted = some h ∧
    (h.server.conn 1).ch.registered = some readEvent ∧ ∃ p, exec EpollPoller.step (.create fun _ => 5)
        (seen step (pollerCalls 1) (create 1 ⟨true, true, false, false, false⟩ 64) reaccepted) = some p ∧
      (∀ c, p.Agrees c) ∧ ∀ o, h.server.Owns 1 o → p.view o = (h.server.conn o).ch :=
  ⟨_, (Option.some_get (by decide +kernel)).symm, by decide +kernel,
    ((pollers_agree (Option.some_get (by decide +kernel)).symm (by decide +kernel) (by decide +kernel)).2 1).2⟩

end Host

end Caimr.Net
