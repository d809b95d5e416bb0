import Caimr.Net.ChannelLife

/-! The map of connections, `conns_`. `new_conn` puts a connection there under the next id
and `remove_conn_in_loop` erases what is there under the id of the one it is called for.
The ids are 32 bits wide, so the map can be trusted as long as no connection outlives the
2 ^ 32 that are accepted after it. -/
namespace Caimr.Net
open Transition

namespace Host

/-- The connection that a step runs `remove_conn_in_loop` for. -/
def erased (h : Host) : Act → Option ConnNo
  | .call _ (.removeConnInLoop o) => some o
  | .exec l =>
    match (h.loops l).agenda with
    | .run (.removeConnInLoop o) :: _ => some o
    | _ => none
  | _ => none

/-! ### What the steps do to the map -/

/-- The map, and how many connections there are. -/
def table (s : TcpServer) : (Nat → Option ConnNo) × ConnNo := (s.conns, s.accepted)

/-- A functor erases an entry, or leaves the map alone. -/
theorem body_table (s : TcpServer) (f : Functor) :
    table (s.body f).1 =
      match f with
      | .removeConnInLoop o => (Function.update s.conns (s.conn o).id none, s.accepted)
      | _ => table s := by
  cases f <;> rfl

theorem handle_table {s : TcpServer} {o : ConnNo} {r : ReadResult} {w : WriteResult} {cb : Chan.Callback}
    {x : TcpServer × List Instr} (h : s.handle o r w cb = some x) : table x.1 = table s := by
  cases cb with
  | close | error =>
    cases h
    rfl
  | read =>
    simp only [TcpServer.handle, TcpServer.settle?] at h
    split at h <;> cases h
    rfl
  | write =>
    simp only [TcpServer.handle] at h
    split at h <;> cases h
    rfl

theorem newConn_table {s : TcpServer} {x : TcpServer × List Instr} (h : s.newConn = some x) :
    table x.1 = (Function.update s.conns s.nextConnId (some s.accepted), s.accepted + 1) := by
  simp only [TcpServer.newConn] at h
  split at h <;> cases h
  rfl

theorem accept_table {h h' : Host} (hs : h.step .accept = some h') :
    table h'.server =
      (Function.update h.server.conns h.server.nextConnId (some h.server.accepted), h.server.accepted + 1) := by
  cases step_cases hs with
  | accept x _ _ hx => exact newConn_table hx

/-- Every other step erases one entry, or leaves the map alone. -/
theorem step_table {h h' : Host} {a : Act} (hs : h.step a = some h') (ha : a ≠ .accept) :
    table h'.server =
      match h.erased a with
      | some o => (Function.update h.server.conns (h.server.conn o).id none, h.server.accepted)
      | none => table h.server := by
  cases step_cases hs with
  | accept => exact absurd rfl ha
  | callback l r w o cb rest x _ _ _ hx => exact handle_table hx
  | call l f e =>
    rw [setEloop_server, resume, setAgenda_server, setServer_server, body_table]
    cases f <;> rfl
  | exec l i rest x hag _ hx =>
    cases i with
    | run f =>
      simp only [TcpServer.exec, Option.some.injEq] at hx
      subst hx
      rw [resume, setAgenda_server, setServer_server, body_table]
      simp only [erased, hag]
      cases f <;> rfl
    | userCode | queue | endQueue => cases hx
    | connCallback | closeCallback | finishWrite | removeChan | running =>
      cases hx
      simp only [erased, hag]
      rfl
  | queue l k f rest e hag =>
    simp only [erased, hag]
    cases f <;> rfl
  | endQueue l k rest e hag =>
    simp only [erased, hag]
    rfl
  | send l data w o rest x _ _ hx =>
    simp only [TcpServer.settle?] at hx
    split at hx <;> cases hx
    rfl
  | eloop | poll | dispatch | shutdown | endUserCode => rfl

/-! ### The map and the run -/

/-- A host, and the connections that `remove_conn_in_loop` has run for. -/
structure Ledger where
  host : Host
  removed : List ConnNo

namespace Ledger

def start (numThreads : Nat) (callbacks : Callbacks) (mark : Nat) : Ledger :=
  ⟨Host.create numThreads callbacks mark, []⟩

def step (s : Ledger) (a : Act) : Option Ledger :=
  (s.host.step a).map fun h => ⟨h, (s.host.erased a).toList ++ s.removed⟩

/-- Accepted, and not removed. -/
def Live (s : Ledger) (o : ConnNo) : Prop := o < s.host.server.accepted ∧ o ∉ s.removed

/-- The map holds the live connections, each under its own id, and nothing else. -/
def Exact (s : Ledger) : Prop :=
  ∀ id o, s.host.server.conns id = some o ↔ s.Live o ∧ (s.host.server.conn o).id = id

/-- `new_conn` replaces no entry, and `remove_conn_in_loop` erases none but that of its own connection. -/
structure Safe (s : Ledger) (a : Act) : Prop where
  accept : a = .accept → s.host.server.conns s.host.server.nextConnId = none
  erase : ∀ o, s.host.erased a = some o → ∀ o', s.host.server.conns (s.host.server.conn o).id = some o' → o' = o

/-- No live connection has the id that a new one gets, nor that of another one that is removed. -/
structure Apart (s : Ledger) (a : Act) : Prop where
  accept : a = .accept → ∀ o, s.Live o → (s.host.server.conn o).id ≠ s.host.server.nextConnId
  erase : ∀ o, s.host.erased a = some o →
    ∀ o', s.Live o' → (s.host.server.conn o').id = (s.host.server.conn o).id → o' = o

/-- What holds on every run. -/
structure Inv (s : Ledger) : Prop where
  sound : s.host.Sound
  numbered : s.host.server.Numbered
  past : ∀ o ∈ s.removed, o < s.host.server.accepted

theorem step_some {s t : Ledger} {a : Act} (h : s.step a = some t) :
    s.host.step a = some t.host ∧ t.removed = (s.host.erased a).toList ++ s.removed := by
  obtain ⟨h', hs, rfl⟩ := Option.map_eq_some_iff.mp h
  exact ⟨hs, rfl⟩

/-- A connection that is removed has been accepted. -/
theorem erased_lt {h h' : Host} {a : Act} {o : ConnNo} (hi : h.Sound) (hs : h.step a = some h')
    (he : h.erased a = some o) : o < h.server.accepted := by
  unfold erased at he
  split at he
  · rename_i l o'
    cases he
    cases step_cases hs with
    | call _ _ e _ hl hcall => exact (hi.server.assigned _ (mem_call hl hcall)).2.1
  · rename_i l
    split at he
    · rename_i o' rest hag
      cases he
      have hl : l ≤ h.server.numThreads := by
        simp only [Host.step, hag, Option.ite_none_right_eq_some] at hs
        exact hs.1
      exact (hi.server.assigned _ (mem_head hl hag)).2.1
    · cases he
  · cases he

theorem step_inv {s t : Ledger} {a : Act} (inv : s.Inv) (h : s.step a = some t) : t.Inv := by
  obtain ⟨hs, hrem⟩ := step_some h
  obtain ⟨done, made, -, hd⟩ := step_did inv.sound (step_cases hs)
  refine ⟨step_sound inv.sound hs, hd.numbered inv.numbered, fun o ho => ?_⟩
  rw [hrem] at ho
  refine Nat.lt_of_lt_of_le ?_ hd.accepted_le
  rcases List.mem_append.mp ho with ho | ho
  · exact erased_lt inv.sound hs (Option.mem_toList.mp ho)
  · exact inv.past o ho

theorem start_inv (numThreads : Nat) (callbacks : Callbacks) (mark : Nat) :
    (start numThreads callbacks mark).Inv :=
  ⟨create_sound .., (create_kept ..).numbered, nofun⟩

/-- Connections keep their ids. -/
theorem step_id {s t : Ledger} {a : Act} (inv : s.Inv) (h : s.step a = some t) {o : ConnNo}
    (ho : o < s.host.server.accepted) (ho' : o < t.host.server.accepted) :
    (t.host.server.conn o).id = (s.host.server.conn o).id := by
  rw [(step_inv inv h).numbered.id o ho', inv.numbered.id o ho]

/-- While the map is exact, a step is safe exactly if it keeps connections with one id apart. -/
theorem safe_iff_apart {s : Ledger} (hx : s.Exact) (a : Act) : s.Safe a ↔ s.Apart a := by
  constructor
  · intro hsafe
    refine ⟨fun ha o ho hid => ?_, fun o he o' ho' hid => ?_⟩
    · have hentry := (hx _ o).mpr ⟨ho, hid⟩
      rw [hsafe.accept ha] at hentry
      cases hentry
    · exact hsafe.erase o he o' ((hx _ o').mpr ⟨ho', hid⟩)
  · intro hapart
    refine ⟨fun ha => ?_, fun o he o' hentry => ?_⟩
    · cases hentry : s.host.server.conns s.host.server.nextConnId with
      | none => rfl
      | some o =>
        obtain ⟨ho, hid⟩ := (hx _ o).mp hentry
        exact absurd hid (hapart.accept ha o ho)
    · obtain ⟨ho', hid⟩ := (hx _ o').mp hentry
      exact hapart.erase o he o' ho' hid

/-! ### One step -/

theorem accept_exact {s t : Ledger} (inv : s.Inv) (hx : s.Exact) (h : s.step .accept = some t) :
    t.Exact ↔ s.Apart .accept := by
  obtain ⟨hs, hrem⟩ := step_some h
  have hrem : t.removed = s.removed := hrem
  obtain ⟨hconns, hacc⟩ := Prod.mk.inj (accept_table hs)
  have hid := fun o ho ho' => step_id inv h (o := o) ho ho'
  have hnew : (t.host.server.conn s.host.server.accepted).id = s.host.server.nextConnId := by
    rw [(step_inv inv h).numbered.id _ (by rw [hacc]; exact Nat.lt_succ_self _), inv.numbered.next]
  have hlive : ∀ o, t.Live o ↔ s.Live o ∨ o = s.host.server.accepted := by
    intro o
    unfold Live
    rw [hacc, hrem, Nat.lt_succ_iff_lt_or_eq]
    constructor
    · rintro ⟨ho | ho, hno⟩
      · exact .inl ⟨ho, hno⟩
      · exact .inr ho
    · rintro (⟨ho, hno⟩ | rfl)
      · exact ⟨.inl ho, hno⟩
      · exact ⟨.inr rfl, fun hin => Nat.lt_irrefl _ (inv.past _ hin)⟩
  constructor
  · intro ht
    refine ⟨fun _ o ho hsame => ?_, nofun⟩
    have hlt : o < t.host.server.accepted := by
      rw [hacc]
      exact Nat.lt_succ_of_lt ho.1
    have hentry := (ht _ o).mpr ⟨(hlive o).mpr (.inl ho), (hid o ho.1 hlt).trans hsame⟩
    rw [hconns, Function.update_self, Option.some.injEq] at hentry
    exact Nat.ne_of_gt ho.1 hentry
  · intro hapart id o
    rw [hconns, hlive o]
    by_cases hnext : id = s.host.server.nextConnId
    · subst hnext
      rw [Function.update_self, Option.some.injEq]
      constructor
      · rintro rfl
        exact ⟨.inr rfl, hnew⟩
      · rintro ⟨ho | ho, hsame⟩
        · have hlt : o < t.host.server.accepted := by
            rw [hacc]
            exact Nat.lt_succ_of_lt ho.1
          exact absurd ((hid o ho.1 hlt).symm.trans hsame) (hapart.accept rfl o ho)
        · exact ho.symm
    · rw [Function.update_of_ne hnext, hx]
      constructor
      · intro ⟨ho, hsame⟩
        refine ⟨.inl ho, (hid o ho.1 ?_).trans hsame⟩
        rw [hacc]
        exact Nat.lt_succ_of_lt ho.1
      · rintro ⟨ho | rfl, hsame⟩
        · refine ⟨ho, (hid o ho.1 ?_).symm.trans hsame⟩
          rw [hacc]
          exact Nat.lt_succ_of_lt ho.1
        · exact absurd (hsame.symm.trans hnew) hnext

/-- Any other step removes one connection, or none. -/
theorem remove_exact {s t : Ledger} {a : Act} (inv : s.Inv) (hx : s.Exact) (h : s.step a = some t)
    (ha : a ≠ .accept) : t.Exact ↔ s.Apart a := by
  obtain ⟨hs, hrem⟩ := step_some h
  have htable := step_table hs ha
  cases he : s.host.erased a with
  | none =>
    rw [he] at htable hrem
    obtain ⟨hconns, hacc⟩ := Prod.mk.inj htable
    refine iff_of_true (fun id o => ?_) ⟨fun ha' => absurd ha' ha, fun o ho => ?_⟩
    · have hlive : t.Live o ↔ s.Live o := by
        unfold Live
        rw [hacc, hrem]
        rfl
      rw [hconns, hlive, hx]
      constructor
      · intro ⟨ho, hsame⟩
        exact ⟨ho, (step_id inv h ho.1 (hacc ▸ ho.1)).trans hsame⟩
      · intro ⟨ho, hsame⟩
        exact ⟨ho, (step_id inv h ho.1 (hacc ▸ ho.1)).symm.trans hsame⟩
    · rw [he] at ho
      cases ho
  | some r =>
    rw [he] at htable hrem
    obtain ⟨hconns, hacc⟩ := Prod.mk.inj htable
    have hlive : ∀ o, t.Live o ↔ s.Live o ∧ o ≠ r := by
      intro o
      unfold Live
      rw [hacc, hrem, Option.toList_some, List.singleton_append, List.mem_cons, not_or]
      constructor
      · intro ⟨ho, hne, hno⟩
        exact ⟨⟨ho, hno⟩, hne⟩
      · intro ⟨⟨ho, hno⟩, hne⟩
        exact ⟨ho, hne, hno⟩
    have hid := fun o (ho : o < s.host.server.accepted) => step_id inv h ho (hacc ▸ ho)
    constructor
    · intro ht
      refine ⟨fun ha' => absurd ha' ha, fun o ho o' ho' hsame => ?_⟩
      rw [he] at ho
      cases ho
      by_contra hne
      have hentry := (ht _ o').mpr ⟨(hlive o').mpr ⟨ho', hne⟩, (hid o' ho'.1).trans hsame⟩
      rw [hconns, Function.update_self] at hentry
      cases hentry
    · intro hapart id o
      rw [hconns, hlive o]
      by_cases hsame : id = (s.host.server.conn r).id
      · subst hsame
        rw [Function.update_self]
        refine iff_of_false nofun ?_
        intro ⟨⟨ho, hne⟩, hid'⟩
        exact hne (hapart.erase r he o ho ((hid o ho.1).symm.trans hid'))
      · rw [Function.update_of_ne hsame, hx]
        constructor
        · rintro ⟨ho, rfl⟩
          refine ⟨⟨ho, ?_⟩, hid o ho.1⟩
          rintro rfl
          exact hsame rfl
        · rintro ⟨⟨ho, -⟩, rfl⟩
          exact ⟨ho, (hid o ho.1).symm⟩

theorem step_exact {s t : Ledger} {a : Act} (inv : s.Inv) (hx : s.Exact) (h : s.step a = some t) :
    t.Exact ↔ s.Apart a := by
  by_cases ha : a = .accept
  · subst ha
    exact accept_exact inv hx h
  · exact remove_exact inv hx h ha

/-! ### Whole runs -/

theorem start_exact (numThreads : Nat) (callbacks : Callbacks) (mark : Nat) :
    (start numThreads callbacks mark).Exact := by
  intro id o
  exact iff_of_false nofun fun h => Nat.not_lt_zero o h.1.1

theorem run_inv {numThreads mark : Nat} {callbacks : Callbacks} {tr : List Act} {s : Ledger}
    (h : exec step (start numThreads callbacks mark) tr = some s) : s.Inv :=
  exec_preserves (fun _ _ _ inv hs => step_inv inv hs) (start_inv ..) h

theorem step_exact_iff (s : Ledger) (a : Act) (t : Ledger) (hs : s.Inv ∧ s.Exact) (_ : True)
    (h : s.step a = some t) : t.Inv ∧ t.Exact ↔ s.Apart a := by
  rw [← step_exact hs.1 hs.2 h]
  exact ⟨fun h' => h'.2, fun h' => ⟨step_inv hs.1 h, h'⟩⟩

/-- A run in which the map is exact after every step, and every step is safe. -/
structure Trusted (s₀ : Ledger) (tr : List Act) : Prop where
  exact : ∀ a b s, tr = a ++ b → exec step s₀ a = some s → s.Exact
  safe : Along step Safe s₀ tr

/-! ### Short runs and long ones -/

/-- Until the counter comes round, connections are apart. -/
theorem apart_of_few {s t : Ledger} {a : Act} (inv : s.Inv) (h : s.step a = some t)
    (hacc : t.host.server.accepted ≤ 2 ^ 32) : s.Apart a := by
  obtain ⟨hs, -⟩ := step_some h
  obtain ⟨done, made, -, hd⟩ := step_did inv.sound (step_cases hs)
  have hnum := inv.numbered
  refine ⟨fun ha o ho hid => ?_, fun o he o' ho' hid => ?_⟩
  · subst ha
    rw [(Prod.mk.inj (accept_table hs)).2] at hacc
    rw [hnum.id o ho.1, hnum.next] at hid
    exact Nat.ne_of_lt ho.1
      (TcpServer.wrap_inj (Nat.lt_succ_of_lt ho.1) (Nat.lt_succ_self _) hacc hid)
  · have hlt := erased_lt inv.sound hs he
    rw [hnum.id o' ho'.1, hnum.id o hlt] at hid
    exact TcpServer.wrap_inj ho'.1 hlt (hd.accepted_le.trans hacc) hid

theorem run_accepted_le {s t : Ledger} {tr : List Act} (inv : s.Inv) (h : exec step s tr = some t) :
    s.host.server.accepted ≤ t.host.server.accepted := by
  refine (exec_preserves (I := fun t => t.Inv ∧ s.host.server.accepted ≤ t.host.server.accepted) ?_
    ⟨inv, Nat.le_refl _⟩ h).2
  intro u a v ⟨hu, hle⟩ hv
  obtain ⟨done, made, -, hd⟩ := step_did hu.sound (step_cases (step_some hv).1)
  exact ⟨step_inv hu hv, hle.trans hd.accepted_le⟩

theorem apart_of_short {numThreads mark : Nat} {callbacks : Callbacks} {tr : List Act} {u : Ledger}
    (h : exec step (start numThreads callbacks mark) tr = some u) (hacc : u.host.server.accepted ≤ 2 ^ 32) :
    Along step Apart (start numThreads callbacks mark) tr := by
  rintro a l b s rfl hs
  obtain ⟨v, t, hv, hl, ht⟩ := exec_at h
  rw [hs] at hv
  cases hv
  have inv := run_inv hs
  exact apart_of_few inv hl ((run_accepted_le (step_inv inv hl) ht).trans hacc)

/-! ### A connection that stays -/

/-- A host of which only the main loop is of interest. -/
def alone (s : TcpServer) (p : Loop) (others : LoopId → Loop) (removed : List ConnNo) : Ledger :=
  ⟨⟨s, Function.update others 0 p⟩, removed⟩

/-- The main loop at a `poll`, with nothing to do. -/
def resting (calls : Tid → CallPc) : Loop := ⟨⟨0, true, false, false, [], 0, .polling, calls⟩, [], [], []⟩

section Alone
variable {s : TcpServer} {e e' : Eloop Functor} {active : List (ConnNo × EpollMask)}
  {callbacks : List (ConnNo × Chan.Callback)} {agenda : List Instr} {others : LoopId → Loop} {removed : List ConnNo}
  {o : ConnNo} {f : Functor} {x : TcpServer × List Instr}

theorem alone_eloop {a : Eloop.Label Functor} (ha : Loop.Allows ⟨e, active, callbacks, agenda⟩ a)
    (he : e.step a = some e') : step (alone s ⟨e, active, callbacks, agenda⟩ others removed) (.eloop 0 a) =
      some (alone s ⟨e', active, callbacks, agenda⟩ others removed) := by
  simp [alone, step, Host.step, ha, onEloop, he, setEloop, erased]

theorem alone_poll (reported : List (ConnNo × EpollMask))
    (hr : Host.Reports ⟨s, Function.update others 0 ⟨e, active, [], []⟩⟩ 0 reported)
    (he : e.step (.pollReturns false) = some e') :
    step (alone s ⟨e, active, [], []⟩ others removed) (.poll 0 false reported) =
      some (alone s ⟨e', reported, [], []⟩ others removed) := by
  simp [alone, step, Host.step, Loop.Free, hr, onEloop, he, setEloop, setActive, erased]

theorem alone_dispatch {revents : EpollMask} : step (alone s ⟨e, (o, revents) :: active, [], []⟩ others removed)
    (.dispatch 0) =
      some (alone s ⟨e, active, (Chan.handleEventWithGuard revents).map (o, ·), []⟩ others removed) := by
  simp [alone, step, Host.step, Loop.Free, setActive, setCallbacks, erased]

theorem alone_callback {r : ReadResult} {w : WriteResult} {c : Chan.Callback} (hx : s.handle o r w c = some x) :
    step (alone s ⟨e, active, (o, c) :: callbacks, []⟩ others removed) (.callback 0 r w) =
      some (alone x.1 ⟨e, active, callbacks, x.2⟩ others removed) := by
  simp [alone, step, Host.step, hx, setCallbacks, resume, setServer, setAgenda, erased]

theorem alone_accept (he : e.pc.isHandling = true) (hx : s.newConn = some x) :
    step (alone s ⟨e, active, [], []⟩ others removed) .accept =
      some (alone x.1 ⟨e, active, [], x.2⟩ others removed) := by
  simp [alone, step, Host.step, Loop.Free, he, hx, resume, setServer, setAgenda, erased]

theorem alone_establish {c : TcpConn} (hx : s.conn o = c) (hc : c.callbacks.conn = false) :
    step (alone s ⟨e, active, callbacks, .run (.establishConn o) :: agenda⟩ others removed) (.exec 0) =
      some (alone (s.setConn o c.establishConn.1) ⟨e, active, callbacks, .running (.establishConn o) :: agenda⟩ others
        removed) := by
  simp [alone, step, Host.step, TcpServer.exec, TcpServer.body, TcpServer.settle, TcpConn.establishConn, hx, hc,
    TcpServer.setConn, perform, resume, setServer, setAgenda, erased]

theorem alone_remove :
    step (alone s ⟨e, active, callbacks, .run (.removeConnInLoop o) :: agenda⟩ others removed) (.exec 0) =
      some (alone {s with conns := Function.update s.conns (s.conn o).id none} ⟨e, active, callbacks,
        .queue (s.conn o).loop (.destroyConn o) :: .running (.removeConnInLoop o) :: agenda⟩ others (o :: removed)) := by
  simp [alone, step, Host.step, TcpServer.exec, TcpServer.body, perform, resume, setServer, setAgenda, erased]

theorem alone_destroy (he : e.step (.call (.destroyConn o)) = some e') (ho : (s.conn o).state = .disconnected) :
    step (alone s ⟨e, active, callbacks, []⟩ others removed) (.call 0 (.destroyConn o)) =
      some (alone s ⟨e', active, callbacks, [.removeChan o, .running (.destroyConn o)]⟩ others removed) := by
  simp [alone, step, Host.step, TcpServer.body, TcpServer.settle, TcpConn.destroyConn, ho, Effect.instrs, resume,
    setServer, setAgenda, onEloop, setEloop, he, erased]

theorem alone_running : step (alone s ⟨e, active, callbacks, .running f :: agenda⟩ others removed) (.exec 0) =
    some (alone s ⟨e, active, callbacks, agenda⟩ others removed) := by
  simp [alone, step, Host.step, TcpServer.exec, perform, resume, setServer, setAgenda, erased]

theorem alone_closeCallback :
    step (alone s ⟨e, active, callbacks, .closeCallback o :: agenda⟩ others removed) (.exec 0) =
      some (alone {s with log := s.log ++ [.closeCallback o]}
        ⟨e, active, callbacks, .run (.removeConnInLoop o) :: agenda⟩ others removed) := by
  simp [alone, step, Host.step, TcpServer.exec, perform, resume, setServer, setAgenda, erased, TcpServer.removeConn,
    runInLoop]

theorem alone_removeChan :
    step (alone s ⟨e, active, callbacks, .removeChan o :: agenda⟩ others removed) (.exec 0) =
      some (alone (s.setConn o {s.conn o with ch := (s.conn o).ch.remove}) ⟨e, active, callbacks, agenda⟩ others
        removed) := by
  simp [alone, step, Host.step, TcpServer.exec, TcpServer.settle, TcpServer.setConn, perform, resume, setServer,
    setAgenda, erased]

theorem alone_queue (he : e.step (.emplace 0 f) = some e') :
    step (alone s ⟨e, active, callbacks, .queue 0 f :: agenda⟩ others removed) (.exec 0) =
      some (alone (s.recordQueue f) ⟨e', active, callbacks, .endQueue 0 :: agenda⟩ others removed) := by
  simp [alone, step, Host.step, perform, resume, setServer, setAgenda, onEloop, setEloop, he, erased]

theorem alone_endQueue (he : e.step (.endQueue 0) = some e') :
    step (alone s ⟨e, active, callbacks, .endQueue 0 :: agenda⟩ others removed) (.exec 0) =
      some (alone s ⟨e', active, callbacks, agenda⟩ others removed) := by
  simp [alone, step, Host.step, perform, setAgenda, onEloop, setEloop, he, erased]

end Alone

/-- A functor for the main loop itself. -/
theorem reaches_queue {s : TcpServer} {e : Eloop Functor} {active : List (ConnNo × EpollMask)}
    {callbacks : List (ConnNo × Chan.Callback)} {agenda : List Instr} {others : LoopId → Loop} {removed : List ConnNo}
    {f : Functor} {P : Ledger → Prop} (hid : e.threadId = 0) (hcalling : e.callingPendingFunctors = false)
    (hcode : e.pc.inUserCode = true) (hidle : e.calls 0 = .idle)
    (h : ∀ calls, calls 0 = .idle →
      Reaches step (alone (s.recordQueue f) ⟨{e with pendingFunctors := e.pendingFunctors ++ [f], calls := calls}, active,
        callbacks, agenda⟩ others removed) P) :
    Reaches step (alone s ⟨e, active, callbacks, .queue 0 f :: agenda⟩ others removed) P := by
  have hpush : e.step (.emplace 0 f) =
      some (Eloop.setCall {e with pendingFunctors := e.pendingFunctors ++ [f]} 0 .queued) := by
    simp [Eloop.step, Eloop.MayCall, hidle, hcode]
  have htest : Eloop.step (Eloop.setCall {e with pendingFunctors := e.pendingFunctors ++ [f]} 0 .queued)
      (.testWakeup 0) = some (Eloop.setCall {e with pendingFunctors := e.pendingFunctors ++ [f]} 0 .returning) := by
    simp [Eloop.step, Eloop.setCall, hid, hcalling]
  have hend : Eloop.step (Eloop.setCall {e with pendingFunctors := e.pendingFunctors ++ [f]} 0 .returning)
      (.endQueue 0) = some (Eloop.setCall {e with pendingFunctors := e.pendingFunctors ++ [f]} 0 .idle) := by
    simp [Eloop.step, Eloop.setCall]
  exact .next (alone_queue hpush) (.next (alone_eloop (a := .testWakeup 0) trivial htest) (.next (alone_endQueue hend)
    (h _ (Function.update_self ..))))

/-- There is only the main loop, which is at a `poll`; the first connection has not been removed. -/
structure Resting (s : Ledger) : Prop where
  threads : s.host.server.numThreads = 0
  callbacks : s.host.server.callbacks.conn = false
  loop : ∃ calls, calls 0 = .idle ∧ s.host.loops 0 = resting calls
  first : 0 ∉ s.removed

/-- A connection of the main loop that can be closed. -/
structure Fresh (c : TcpConn) : Prop where
  loop : c.loop = 0
  callbacks : c.callbacks.conn = false
  close : c.callbacks.close = true
  registered : c.ch.registered ≠ none

theorem alone_eq {s : Ledger} {p : Loop} (h : s.host.loops 0 = p) :
    s = alone s.host.server p s.host.loops s.removed := by
  subst h
  simp [alone]

theorem newConn_fresh {s : TcpServer} (ht : s.numThreads = 0) (hc : s.callbacks.conn = false) : ∃ c,
    s.newConn = some (s.enroll c, [.run (.establishConn s.accepted)]) ∧ Fresh c.establishConn.1 ∧
      c.callbacks.conn = false := by
  obtain ⟨b, hb, -⟩ := Buffer.create_spec initialSize (by decide)
  obtain ⟨c, hcreate, hloop, hcallbacks, hch⟩ : ∃ c,
      TcpConn.create 0 s.nextConnId {s.callbacks with close := true} s.highWaterMark = .ok c ∧ c.loop = 0 ∧
        c.callbacks = {s.callbacks with close := true} ∧ c.ch = .create := by
    simp [TcpConn.create, hb, bind, Except.bind, pure, Except.pure]
  refine ⟨c, ?_, ⟨hloop, ?_, ?_, ?_⟩, ?_⟩
  · simp only [TcpServer.newConn, TcpServer.getNextLoop, if_pos ht, hcreate]
    simp [TcpServer.enroll, runInLoop, ht]
  · simp [TcpConn.establishConn, hcallbacks, hc]
  · simp [TcpConn.establishConn, hcallbacks]
  · simp only [TcpConn.establishConn, hch]
    intro he
    cases he
  · rw [hcallbacks, hc]

/-- One connection more. -/
theorem Resting.accept {s : Ledger} (h : Resting s) : Reaches step s fun t => Resting t ∧
    t.host.server.accepted = s.host.server.accepted + 1 ∧ Fresh (t.host.server.conn s.host.server.accepted) := by
  obtain ⟨hthreads, hcallbacks, ⟨calls, hcalls, hloop⟩, hfirst⟩ := h
  obtain ⟨c, hnew, hfresh, hc⟩ := newConn_fresh hthreads hcallbacks
  have hrest : Eloop.AtRest (F := Functor) ⟨0, true, false, false, [], 0, .handling false, calls⟩ := hcalls
  rw [alone_eq hloop]
  refine .next (alone_poll [] ⟨List.nodup_nil, List.forall_mem_nil _⟩ rfl) ?_
  refine .next (alone_accept rfl hnew) ?_
  refine .next (alone_establish (Function.update_self ..) hc) ?_
  refine .next alone_running ?_
  refine .next (alone_eloop (a := .endEvents) ⟨⟨rfl, rfl⟩, rfl⟩ (if_pos ⟨rfl, hrest⟩)) ?_
  refine .next (alone_eloop (a := .storeCalling) ⟨⟨rfl, rfl⟩, rfl⟩ rfl) ?_
  refine .next (alone_eloop (a := .swap) ⟨⟨rfl, rfl⟩, rfl⟩ rfl) ?_
  refine .next (alone_eloop (a := .clearCalling) ⟨⟨rfl, rfl⟩, rfl⟩ rfl) ?_
  refine .next (alone_eloop (a := .loadQuit) ⟨⟨rfl, rfl⟩, rfl⟩ rfl) ?_
  apply Reaches.here
  refine ⟨⟨hthreads, hcallbacks, ⟨calls, hcalls, rfl⟩, hfirst⟩, rfl, ?_⟩
  simpa [alone, TcpServer.setConn] using hfresh

/-- The other end of any connection but the first hangs up: it is closed, removed and destroyed. -/
theorem Resting.hangUp {s : Ledger} {n : ConnNo} (h : Resting s) (hn : n < s.host.server.accepted) (hpos : n ≠ 0)
    (hf : Fresh (s.host.server.conn n)) :
    Reaches step s fun t => Resting t ∧ t.host.server.accepted = s.host.server.accepted := by
  obtain ⟨hthreads, hcallbacks, ⟨calls, hcalls, hloop⟩, hfirst⟩ := h
  have hreports : Reports ⟨s.host.server, Function.update s.host.loops 0 (resting calls)⟩ 0
      [(n, ⟨false, false, false, false, true⟩)] := by
    obtain ⟨mask, hmask⟩ := Option.ne_none_iff_exists'.mp hf.registered
    simp [Reports, hn, hf.loop, hmask, noneEvent, EpollMask.within, EpollMask.union, alwaysReported]
  have hhandle : s.host.server.handle n (.received []) (.accepts 0) .close =
      some (s.host.server.setConn n (s.host.server.conn n).handleClose.1, [.closeCallback n]) := by
    simp [TcpServer.handle, TcpServer.settle, TcpConn.handleClose, hf.callbacks, hf.close, Effect.instrs,
      TcpServer.setConn]
  rw [alone_eq hloop]
  refine .next (alone_poll _ hreports rfl) ?_
  refine .next alone_dispatch ?_
  refine .next (alone_callback hhandle) ?_
  refine .next alone_closeCallback ?_
  refine .next alone_remove ?_
  rw [show ((s.host.server.setConn n (s.host.server.conn n).handleClose.1).conn n).loop = 0 by
    simp [TcpServer.setConn, TcpConn.handleClose, hf.loop]]
  refine reaches_queue rfl rfl rfl hcalls fun calls' hcalls' => ?_
  refine .next alone_running ?_
  refine .next (alone_eloop (a := .endEvents) ⟨⟨rfl, rfl⟩, rfl⟩ (if_pos ⟨rfl, hcalls'⟩)) ?_
  refine .next (alone_eloop (a := .storeCalling) ⟨⟨rfl, rfl⟩, rfl⟩ rfl) ?_
  refine .next (alone_eloop (a := .swap) ⟨⟨rfl, rfl⟩, rfl⟩ rfl) ?_
  refine .next (alone_destroy (if_pos rfl) (by simp [TcpServer.recordQueue, TcpServer.setConn, TcpConn.handleClose])) ?_
  refine .next alone_removeChan ?_
  refine .next alone_running ?_
  refine .next (alone_eloop (a := .endCall) ⟨⟨rfl, rfl⟩, rfl⟩ (if_pos hcalls')) ?_
  refine .next (alone_eloop (a := .clearCalling) ⟨⟨rfl, rfl⟩, rfl⟩ rfl) ?_
  refine .next (alone_eloop (a := .loadQuit) ⟨⟨rfl, rfl⟩, rfl⟩ rfl) ?_
  apply Reaches.here
  refine ⟨⟨hthreads, hcallbacks, ⟨calls', hcalls', rfl⟩, ?_⟩, rfl⟩
  simpa [alone, hpos.symm] using hfirst

/-- Any number of connections come and go while the first one stays. -/
theorem outlived (n : Nat) : Reaches step (start 0 ⟨false, false, false, false, false⟩ 64) fun s =>
    Resting s ∧ s.host.server.accepted = n + 1 := by
  induction n with
  | zero =>
    have hrest : Reaches step (start 0 ⟨false, false, false, false, false⟩ 64) fun s =>
        Resting s ∧ s.host.server.accepted = 0 := by
      refine .next (l := .eloop 0 .storeLooping) rfl (.next (l := .eloop 0 .clearQuit) rfl
        (.next (l := .eloop 0 .loadQuit) rfl (.here ?_)))
      exact ⟨⟨rfl, rfl, ⟨fun _ => .idle, rfl, rfl⟩, nofun⟩, rfl⟩
    refine hrest.trans fun s hs => hs.1.accept.trans fun t ht => .here ⟨ht.1, ?_⟩
    rw [ht.2.1, hs.2]
  | succ n ih =>
    refine ih.trans fun s hs => hs.1.accept.trans fun t ht => ?_
    have hlt : s.host.server.accepted < t.host.server.accepted := by
      rw [ht.2.1]
      exact Nat.lt_succ_self _
    have hpos : s.host.server.accepted ≠ 0 := by
      rw [hs.2]
      exact Nat.succ_ne_zero n
    refine (ht.1.hangUp hlt hpos ht.2.2).trans fun u hu => .here ⟨hu.1, ?_⟩
    rw [hu.2, ht.2.1, hs.2]

theorem Resting.accept_next {s : Ledger} (h : Resting s) : ∃ t u, step s (.poll 0 false []) = some t ∧
    t.host.server = s.host.server ∧ step t .accept = some u := by
  obtain ⟨hthreads, hcallbacks, ⟨calls, -, hloop⟩, -⟩ := h
  obtain ⟨c, hnew, -, -⟩ := newConn_fresh hthreads hcallbacks
  rw [alone_eq hloop]
  exact ⟨_, _, alone_poll [] ⟨List.nodup_nil, List.forall_mem_nil _⟩ rfl, rfl, alone_accept rfl hnew⟩

/-! ### The table of connections -/

/-- **The table of connections.** However many connections are accepted and removed, and in
whatever order: no entry is replaced or erased for another connection, and the map holds exactly
the connections that have not been removed, each under its own id, if and only if a connection
is only accepted or removed while no other live one has its id. -/
theorem trusted_iff_apart {numThreads mark : Nat} {callbacks : Callbacks} {tr : List Act} {u : Ledger}
    (h : exec step (start numThreads callbacks mark) tr = some u) :
    Trusted (start numThreads callbacks mark) tr ↔ Along step Apart (start numThreads callbacks mark) tr := by
  have hfree : Along step (fun _ _ => True) (start numThreads callbacks mark) tr := fun _ _ _ _ _ _ => trivial
  have hiff := always_iff_along step_exact_iff ⟨start_inv .., start_exact _ _ _⟩ h hfree
  rw [← hiff]
  constructor
  · intro ht a b s he hs
    exact ⟨run_inv hs, ht.exact a b s he hs⟩
  · intro hall
    refine ⟨fun a b s he hs => (hall a b s he hs).2, fun a l b s he hs => ?_⟩
    exact (safe_iff_apart (hall a (l :: b) s he hs).2 l).mpr (hiff.mp hall a l b s he hs)

/-- A connection that is accepted, and still there. -/
theorem trusted_iff_apart_established : ∃ u,
    exec step (start 1 ⟨true, true, false, false, false⟩ 64) established = some u ∧
      Trusted (start 1 ⟨true, true, false, false, false⟩ 64) established := by
  refine ⟨_, (Option.some_get (by decide +kernel)).symm, ?_⟩
  exact (trusted_iff_apart (Option.some_get (by decide +kernel)).symm).mpr
    (apart_of_short (Option.some_get (by decide +kernel)).symm (by decide +kernel))

/-- A connection that stays while the 2 ^ 32 - 1 that follow come and go loses its entry to the next one. -/
theorem table_confused : ¬ ∀ (numThreads : Nat) (callbacks : Callbacks) (mark : Nat) (tr : List Act) (u : Ledger),
    exec step (start numThreads callbacks mark) tr = some u → Trusted (start numThreads callbacks mark) tr := by
  intro hall
  obtain ⟨tr, s, hs, hrest, hacc⟩ := outlived (2 ^ 32 - 1)
  obtain ⟨t, u, ht, hserver, hu⟩ := hrest.accept_next
  have htrusted := hall 0 _ 64 (tr ++ [.poll 0 false [], .accept]) u
    (exec_split.mpr ⟨s, hs, exec_cons_some.mpr ⟨t, ht, exec_cons_some.mpr ⟨u, hu, rfl⟩⟩⟩)
  have hnum := (run_inv hs).numbered
  have hpos : 0 < s.host.server.accepted := by
    rw [hacc]
    exact Nat.succ_pos _
  -- The map is exact before the last step, so the first connection is there, under 1.
  have hentry := (htrusted.exact tr _ s rfl hs 1 0).mpr ⟨⟨hpos, hrest.first⟩, hnum.id 0 hpos⟩
  -- 1 is also the id of the next connection.
  have hnext : t.host.server.nextConnId = 1 := by
    rw [hserver, hnum.next, hacc]
    rfl
  have hfree := (htrusted.safe (tr ++ [.poll 0 false []]) .accept [] t (by simp) (exec_snoc.mpr ⟨s, hs, ht⟩)).accept rfl
  rw [hnext, hserver, hentry] at hfree
  cases hfree

end Ledger

end Host

end Caimr.Net
