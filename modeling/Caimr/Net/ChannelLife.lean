import Caimr.Net.ServerLoops

/-! Who keeps a connection alive while its channel is in the poller. epoll holds raw
pointers to channels, so a connection must not be destroyed before `destroy_conn` has
taken its channel out. The map holds the connection until `remove_conn_in_loop`, which
erases it, and from there on the functors do. -/
namespace Caimr.Net
open Bag Transition

/-- Work that ends with the channel out of the poller. -/
def Instr.releases (o : ConnNo) : Instr → Bool
  | .queue _ (.destroyConn o') | .run (.destroyConn o') | .removeChan o' => o' = o
  | _ => false

theorem Instr.of_releases {o : ConnNo} {i : Instr} (h : i.releases o = true) :
    (∃ k, i = .queue k (.destroyConn o)) ∨ i = .run (.destroyConn o) ∨ i = .removeChan o := by
  unfold releases at h
  split at h <;> simp_all

theorem releases_vital (o : ConnNo) : Vital (Instr.releases o) := by
  intro i hi
  unfold Instr.releases
  split <;> first | rfl | cases hi

namespace TcpServer
variable {P : Scope} {s s' : TcpServer} {b b' done made : Multiset Item} {o : ConnNo}

/-- The channel of the connection is going to be taken out of the poller. -/
def Releases (b : Multiset Item) (o : ConnNo) : Prop := ∃ x ∈ b, x.2.releases o = true

/-- Ids count the connections modulo 2 ^ 32. -/
structure Numbered (s : TcpServer) : Prop where
  next : s.nextConnId = (s.accepted + 1) % 2 ^ 32
  id : ∀ o < s.accepted, (s.conn o).id = (o + 1) % 2 ^ 32

theorem Did.numbered (h : s.Did P done made s') (hn : s.Numbered) : s'.Numbered := by
  refine ⟨?_, fun o ho => ?_⟩
  · cases h with
    | accept c hc =>
      show (s.nextConnId + 1) % 2 ^ 32 = (s.accepted + 1 + 1) % 2 ^ 32
      rw [hn.next]
      omega
    | queue l k f _ => cases f <;> exact hn.next
    | _ => exact hn.next
  · by_cases ho' : o < s.accepted
    · rw [(h.moves ho').frame.2, hn.id o ho']
    · obtain ⟨rfl, -, -, c, hc, rfl⟩ := h.new (Nat.le_of_not_lt ho') ho
      rw [enroll_conn, if_pos rfl, (create_new hc).2.1, hn.next]

theorem wrap_inj {a b n : Nat} (ha : a < n) (hb : b < n) (hn : n ≤ 2 ^ 32) (h : (a + 1) % 2 ^ 32 = (b + 1) % 2 ^ 32) :
    a = b := by
  omega

/-- Before the counter wraps no two connections have one id. -/
theorem Numbered.id_inj (hn : s.Numbered) (hacc : s.accepted < 2 ^ 32) {o o' : ConnNo} (ho : o < s.accepted)
    (ho' : o' < s.accepted) (h : (s.conn o).id = (s.conn o').id) : o = o' := by
  rw [hn.id o ho, hn.id o' ho'] at h
  exact wrap_inj ho ho' hacc.le h

/-- The map holds every connection that is not closed, and of the closed ones those whose
channel is in the poller and is not going to be taken out. -/
structure Kept (s : TcpServer) (b : Multiset Item) : Prop where
  numbered : s.Numbered
  entry : ∀ o < s.accepted, ¬ s.Closed o → s.conns (s.conn o).id = some o
  owner : ∀ o < s.accepted, s.Registered o → s.conns (s.conn o).id = some o ∨ Releases b o

/-- The entry of a connection goes only with its `remove_conn_in_loop`. -/
theorem Did.entry (h : s.Did P done made s') (hn : s.Numbered) (hacc : s'.accepted < 2 ^ 32) (ho : o < s.accepted)
    (he : s.conns (s.conn o).id = some o) :
    s'.conns (s'.conn o).id = some o ∨ s.Closed o ∧ ∃ x ∈ made, x.2.releases o = true := by
  rw [(h.moves ho).frame.2]
  cases h with
  | accept c hc =>
    have hne : (s.conn o).id ≠ s.nextConnId := by
      rw [hn.id o ho, hn.next]
      exact fun hid => Nat.ne_of_lt ho (wrap_inj (Nat.lt_succ_of_lt ho) (Nat.lt_succ_self _) hacc.le hid)
    apply Or.inl
    show Function.update s.conns s.nextConnId (some s.accepted) (s.conn o).id = some o
    rw [Function.update_of_ne hne]
    exact he
  | erase l o' ho' hc =>
    by_cases hid : (s.conn o).id = (s.conn o').id
    · obtain rfl : o = o' := hn.id_inj hacc ho ho' hid
      refine .inr ⟨hc, (l, .queue (s.conn o).loop (.destroyConn o)), mem_on.mpr ⟨rfl, List.mem_cons_self⟩, ?_⟩
      simp [Instr.releases]
    · apply Or.inl
      show Function.update s.conns (s.conn o').id none (s.conn o).id = some o
      rw [Function.update_of_ne hid]
      exact he
  | queue l k f _ => cases f <;> exact .inl he
  | _ => exact .inl he

/-- Work that ends with the channel out of the poller goes on to its end. -/
theorem Did.releases (h : s.Did P done made s') {x : Item} (hx : x ∈ done) (hr : x.2.releases o = true) :
    ¬ s'.Registered o ∨ ∃ y ∈ made, y.2.releases o = true := by
  cases h with
  | idle _ _ hd _ => exact absurd hr (by simp [releases_vital o _ (hd x hx)])
  | quiet | close | accept => exact absurd hx (Multiset.notMem_zero x)
  | destroy l o' =>
    rw [Multiset.mem_singleton.mp hx] at hr
    exact .inr ⟨(l, .removeChan o'), mem_on.mpr ⟨rfl, List.mem_cons_self⟩, hr⟩
  | removeChan l o' =>
    rw [Multiset.mem_singleton.mp hx] at hr
    obtain rfl : o' = o := of_decide_eq_true hr
    apply Or.inl
    rw [Registered, setConn_conn, if_pos rfl]
    exact fun hne => hne rfl
  | queue l k f =>
    rw [Multiset.mem_singleton.mp hx] at hr
    refine .inr ⟨(k, .run f), Multiset.mem_add.mpr (.inr (Multiset.mem_singleton_self _)), ?_⟩
    cases f <;> exact hr
  | establish | erase | connCallback | closeCallback =>
    rw [Multiset.mem_singleton.mp hx] at hr
    cases hr

theorem Did.kept (h : s.Did P done made s') (hx : Exchange b done made b') (hacc : s'.accepted < 2 ^ 32)
    (hk : s.Kept b) : s'.Kept b' := by
  have hnew : ∀ o, s.accepted ≤ o → o < s'.accepted → s'.conns (s'.conn o).id = some o := by
    intro o ho ho'
    obtain ⟨rfl, -, -, c, hc, rfl⟩ := h.new ho ho'
    rw [enroll_conn, if_pos rfl, (create_new hc).2.1]
    exact Function.update_self ..
  refine ⟨h.numbered hk.numbered, fun o ho hc => ?_, fun o ho hr => ?_⟩
  · by_cases ho' : o < s.accepted
    · have hc' : ¬ s.Closed o := fun hcl => hc (h.closed ho' hcl)
      exact (h.entry hk.numbered hacc ho' (hk.entry o ho' hc')).resolve_right fun hcl => hc' hcl.1
    · exact hnew o (Nat.le_of_not_lt ho') ho
  · by_cases ho' : o < s.accepted
    · have howner : s.conns (s.conn o).id = some o ∨ Releases b o :=
        ((h.moves ho').gained hr).elim (hk.owner o ho') fun hc => .inl (hk.entry o ho' hc)
      rcases howner with he | ⟨x, hxb, hxr⟩
      · rcases h.entry hk.numbered hacc ho' he with he | ⟨-, y, hy, hyr⟩
        · exact .inl he
        · exact .inr ⟨y, hx.mem_of_made hy, hyr⟩
      · by_cases hxd : x ∈ done
        · rcases h.releases hxd hxr with hno | ⟨y, hy, hyr⟩
          · exact absurd hr hno
          · exact .inr ⟨y, hx.mem_of_made hy, hyr⟩
        · exact .inr ⟨x, hx.mem_stays hxb hxd, hxr⟩
    · exact .inl (hnew o (Nat.le_of_not_lt ho') ho)

end TcpServer

/-- What an instruction is followed by is on the agenda. -/
theorem Ordered.leads {is : List Instr} (h : Ordered is) {i : Instr} (hi : i ∈ is) :
    ∃ rest, i.Leads rest ∧ ∀ j ∈ rest, j ∈ is := by
  induction is with
  | nil => cases hi
  | cons j is ih =>
    rcases List.mem_cons.mp hi with rfl | hi
    · exact ⟨is, h.1, fun k hk => List.mem_cons_of_mem _ hk⟩
    · obtain ⟨rest, hl, hsub⟩ := ih h.2 hi
      exact ⟨rest, hl, fun k hk => List.mem_cons_of_mem _ (hsub k hk)⟩

namespace Host

/-- The functor is queued on a loop, or running there. -/
def Queued (h : Host) (f : Functor) : Prop :=
  ∃ l ≤ h.server.numThreads, f ∈ (h.loops l).tasks ∨ .running f ∈ (h.loops l).agenda

/-- A `shared_ptr` holds the connection: in `conns_`, or in a functor bound to it. -/
def Owned (h : Host) (o : ConnNo) : Prop :=
  h.server.conns (h.server.conn o).id = some o ∨ h.Queued (.removeConnInLoop o) ∨ h.Queued (.establishConn o) ∨
    h.Queued (.destroyConn o)

theorem owned_of_releases {h : Host} (hi : h.Sound) {o : ConnNo} (hr : TcpServer.Releases h.bag o) : h.Owned o := by
  obtain ⟨⟨l, i⟩, hx, hr⟩ := hr
  obtain ⟨hl, hwork⟩ := mem_bag.mp hx
  have hord := (hi.shape l).ordered
  have hagenda : i ∈ (h.loops l).agenda ∨ ∃ f ∈ (h.loops l).tasks, .run f = i :=
    (List.mem_append.mp hwork).imp_right List.mem_map.mp
  rcases Instr.of_releases hr with ⟨k, rfl⟩ | rfl | rfl
  · -- Queueing `destroy_conn` is a part of `remove_conn_in_loop`.
    rcases hagenda with ha | ⟨f, -, hf⟩
    · obtain ⟨rest, hlead, hsub⟩ := hord.leads ha
      exact .inr (.inl ⟨l, hl, .inr (hsub _ (hlead.erasing k o rfl))⟩)
    · cases hf
  · rcases hagenda with ha | ⟨f, hf, he⟩
    · exact absurd ha ((hi.shape l).deferred o)
    · cases he
      exact .inr (.inr (.inr ⟨l, hl, .inl hf⟩))
  · rcases hagenda with ha | ⟨f, -, hf⟩
    · obtain ⟨rest, hlead, hsub⟩ := hord.leads ha
      exact .inr (.inr (.inr ⟨l, hl, .inr (hsub _ (hlead.removing o rfl))⟩))
    · cases hf

theorem create_kept (numThreads : Nat) (callbacks : Callbacks) (mark : Nat) :
    (create numThreads callbacks mark).server.Kept (create numThreads callbacks mark).bag :=
  ⟨⟨rfl, nofun⟩, nofun, nofun⟩

/-- What holds of every host whose server has accepted fewer than 2 ^ 32 connections. -/
theorem run_kept {numThreads mark : Nat} {callbacks : Callbacks} {h : Host} {tr : List Act}
    (hrun : exec step (create numThreads callbacks mark) tr = some h) (hacc : h.server.accepted < 2 ^ 32) :
    h.server.Kept h.bag := by
  refine run_induction (fun _ h => h.server.accepted < 2 ^ 32 → h.server.Kept h.bag) (fun _ => create_kept ..) ?_
    hrun hacc
  intro tr h a h' hr ih hs hacc
  obtain ⟨done, made, hx, hd⟩ := step_did (run_sound hr) (step_cases hs)
  exact hd.kept hx hacc (ih (hd.accepted_le.trans_lt hacc))

/-- **No event is dispatched to a dead channel.** Every connection whose channel is in the
poller is owned, and so is every one whose channel is active. -/
theorem channels_owned {numThreads mark : Nat} {callbacks : Callbacks} {h : Host} {tr : List Act}
    (hrun : exec step (create numThreads callbacks mark) tr = some h) (hacc : h.server.accepted < 2 ^ 32) :
    (∀ o < h.server.accepted, (h.server.conn o).ch.registered ≠ none → h.Owned o) ∧
      ∀ l, ∀ e ∈ (h.loops l).active, h.Owned e.1 := by
  have hi := run_sound hrun
  have hk := run_kept hrun hacc
  have hall : ∀ o < h.server.accepted, h.server.Registered o → h.Owned o := by
    intro o ho hr
    rcases hk.owner o ho hr with he | hrel
    · exact .inl he
    · exact owned_of_releases hi hrel
  refine ⟨hall, fun l e he => ?_⟩
  obtain ⟨howns, hreg⟩ := hi.handled l e.1 (List.mem_append_right _ (List.mem_map.mpr ⟨e, he, rfl⟩))
  exact hall e.1 howns.1 hreg

/-- An active connection that the main loop has erased: the queued `destroy_conn` holds it. -/
theorem channels_owned_erased : ∃ (tr : List Act) (h : Host),
    exec step (create 1 ⟨true, true, false, false, false⟩ 64) tr = some h ∧ h.server.conns 1 = none ∧
      (h.loops 1).active.map Prod.fst = [0] ∧ ∀ l, ∀ e ∈ (h.loops l).active, h.Owned e.1 := by
  refine ⟨established.append [.poll 1 false [(0, readEvent)], .dispatch 1,
    .callback 1 (.received []) (.accepts 0), .exec 1, .endUserCode 1, .exec 1, .exec 1, .eloop 0 (.testWakeup 1),
    .eloop 0 (.wakeup 1), .exec 1, .eloop 1 .endEvents, .eloop 1 .storeCalling, .eloop 1 .swap,
    .eloop 1 .clearCalling, .eloop 1 .loadQuit, .eloop 0 .endEvents, .eloop 0 .storeCalling, .eloop 0 .swap,
    .call 0 (.removeConnInLoop 0), .poll 1 false [(0, ⟨false, false, false, false, true⟩)], .exec 0], _,
    (Option.some_get (by decide +kernel)).symm, by decide +kernel, by decide +kernel, ?_⟩
  exact (channels_owned (Option.some_get (by decide +kernel)).symm (by decide +kernel)).2

end Host

end Caimr.Net
