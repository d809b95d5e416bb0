import Caimr.Net.EpollPoll
import Caimr.Net.ServerPollers

/-! A server whose loops poll a real poller. `Host.step` lets a `poll` bring any list that
`Reports` admits; here the same calls go to `Caimr.Net.Epoll`, and what its `poll` hands over
in a documented run is compared with that. -/
namespace Caimr.Net
open Transition

theorem EpollMask.inter_of_within {a b : EpollMask} (h : a.within b = true) : a.inter b = a := by
  obtain ⟨a₁, a₂, a₃, a₄, a₅⟩ := a
  obtain ⟨b₁, b₂, b₃, b₄, b₅⟩ := b
  simp only [within, Bool.and_eq_true] at h
  obtain ⟨⟨⟨⟨h₁, h₂⟩, h₃⟩, h₄⟩, h₅⟩ := h
  have hbit : ∀ {x y : Bool}, (!x || y) = true → (x && y) = x := by decide
  rw [inter, hbit h₁, hbit h₂, hbit h₃, hbit h₄, hbit h₅]

namespace Epoll
variable {s t u : Epoll} {p q : EpollPoller} {fds : ChanId → Nat} {active : List (ChanId × EpollMask)}
  {events : List EpollEvent}

/-! ### The poller alone -/

/-- The calls on the poller. -/
def calls : Act → List EpollPoller.Call
  | .call l => [l]
  | .occur .. | .poll _ | .pollFails => []

/-- Only calls change the poller. -/
theorem exec_calls {acts : List Act} (h : exec step s acts = some t) :
    exec EpollPoller.step s.poller (acts.flatMap calls) = some t.poller := by
  refine exec_project (fun s a t ha => ?_) h
  cases a with
  | call l | occur fd now | poll events | pollFails =>
    cases ha
    rfl

/-- What `poll` leaves its loop: the active channels, each with its `revents_`. -/
def handed (s : Epoll) (events : List EpollEvent) : List (ChanId × EpollMask) :=
  (s.activeChs events).map fun c => (c, (s.poll events).revents c)

theorem handed_events (hf : s.poller.Filed) (hw : s.Answers events) :
    s.handed events = events.map fun e => (e.data, e.events) := by
  have hrev := (fillActiveChs_revents s.revents (hw.data_nodup hf)).2
  rw [handed, activeChs, fillActiveChs_channels, List.map_map]
  exact List.map_congr_left fun e he => Prod.ext rfl (hrev e he)

/-! ### Documented runs -/

/-- Where nothing is ready no descriptor waits for its turn. -/
theorem RoundRobin.append {tr more : List Act} (hr : RoundRobin s tr) (h : exec step s tr = some t)
    (hnone : ∀ fd, ¬ t.Ready fd) (hm : RoundRobin t more) : RoundRobin s (tr ++ more) := by
  intro a b c u fd he hu hlive hno
  rcases List.append_eq_append_iff.mp he.symm with ⟨c', htr, -⟩ | ⟨m, hab, hmore⟩
  · exact hr a b c' u fd htr hu hlive hno
  rcases List.append_eq_append_iff.mp hab with ⟨b', htr, hb⟩ | ⟨a', ha, hmab⟩
  · cases m with
    | nil =>
      rw [List.append_nil] at hb hab
      exact hr a b [] u fd (by rw [List.append_nil, hab]) hu hlive hno
    | cons l m =>
      -- The stretch goes on from where nothing is ready.
      rw [htr] at h
      obtain ⟨u', hu', hrest⟩ := exec_split.mp h
      rw [hu, Option.some.injEq] at hu'
      subst hu'
      exact absurd (hlive b' l m t hb hrest) (hnone fd)
  · subst ha
    obtain ⟨t', ht', ha'⟩ := exec_split.mp hu
    rw [h, Option.some.injEq] at ht'
    subst ht'
    exact hm a' b c u fd (by rw [hmore, hmab]) ha' hlive hno

theorem Documented.append {tr more : List Act} (hd : Documented s tr) (h : exec step s tr = some t)
    (hnone : ∀ fd, ¬ t.Ready fd) (hm : Documented t more) : Documented s (tr ++ more) :=
  ⟨hd.answers.append h hm.answers, hd.roundRobin.append h hnone hm.roundRobin⟩

/-- One poll has nobody's turn to wait for. -/
theorem documented_of_one {tr : List Act} (h : exec step s tr = some t) (hw : Along step Obeys s tr)
    (hone : tr.countP Act.isPoll ≤ 1) : Documented s tr := by
  refine ⟨hw, fun a b c u fd he hu _ _ => stretch_nodup h hw he hu (Nat.le_trans ?_ hone)⟩
  rw [he, List.countP_append, List.countP_append]
  omega

theorem obeys_of_none {tr : List Act} (h : ∀ a ∈ tr, a.isPoll = false) : Along step Obeys s tr := by
  intro a l b u he _
  have hl := h l (he ▸ List.mem_append_right _ List.mem_cons_self)
  cases l with
  | poll events => cases hl
  | call | occur | pollFails => trivial

/-! ### What the kernel can bring about -/

/-- Nothing occurs on any descriptor. -/
structure Quiet (p : EpollPoller) (s : Epoll) : Prop where
  poller : s.poller = p
  occurring : ∀ fd, s.occurring fd = noneEvent

theorem Quiet.none_ready (hq : Quiet p s) (fd : Nat) : ¬ s.Ready fd := fun h => h (event_none (hq.occurring fd))

/-- Something occurs, and nothing else: neither a call nor a poll. -/
def Occurs (acts : List Act) : Prop := ∀ a ∈ acts, ∃ fd now, a = .occur fd now

theorem Occurs.no_poll {acts : List Act} (h : Occurs acts) : ∀ a ∈ acts, a.isPoll = false := by
  intro a ha
  obtain ⟨fd, now, rfl⟩ := h a ha
  rfl

theorem Occurs.no_call {acts : List Act} (h : Occurs acts) : ∀ a ∈ acts, calls a = [] := by
  intro a ha
  obtain ⟨fd, now, rfl⟩ := h a ha
  rfl

/-- Calls alone make nothing ready. -/
theorem exec_quiet {cs : List EpollPoller.Call} (hq : Quiet p s) (hcs : exec EpollPoller.step p cs = some q) :
    ∃ t, exec step s (cs.map .call) = some t ∧ Quiet q t ∧ t.eventsSize = s.eventsSize := by
  induction cs generalizing p s with
  | nil =>
    cases hcs
    exact ⟨s, rfl, hq, rfl⟩
  | cons c cs ih =>
    obtain ⟨p', hp', hrest⟩ := exec_cons_some.mp hcs
    cases hp'
    obtain rfl := hq.poller
    let m : Epoll := {s with poller := s.poller.call c}
    obtain ⟨t, ht, hqt, hsize⟩ := ih (s := m) ⟨rfl, hq.occurring⟩ hrest
    exact ⟨t, exec_cons_some.mpr ⟨m, rfl, ht⟩, hqt, hsize⟩

/-- Of each channel in `active` just what stands beside it occurs. -/
structure Raised (p : EpollPoller) (active : List (ChanId × EpollMask)) (s : Epoll) : Prop where
  poller : s.poller = p
  occurring : ∀ e ∈ active, s.occurring (p.chans e.1).fd = e.2
  others : ∀ fd ∉ active.map fun e => (p.chans e.1).fd, s.occurring fd = noneEvent

/-- What a poller may be asked to report: registered channels, on descriptors of their own,
with events that they are registered for. -/
structure Reportable (p : EpollPoller) (active : List (ChanId × EpollMask)) : Prop where
  apart : (active.map fun e => (p.chans e.1).fd).Nodup
  entry : ∀ e ∈ active, e.2 ≠ noneEvent ∧ ∃ mask, p.registered e.1 = some mask ∧
    e.2.within (mask.union alwaysReported) = true

/-- The events occur one after the other. -/
theorem Raised.more {done : List (ChanId × EpollMask)} (hs : Raised p done s)
    (hn : ((done ++ active).map fun e => (p.chans e.1).fd).Nodup) :
    ∃ acts t, Occurs acts ∧ exec step s acts = some t ∧ Raised p (done ++ active) t ∧
      t.eventsSize = s.eventsSize := by
  induction active generalizing s done with
  | nil =>
    rw [List.append_nil]
    exact ⟨[], s, List.forall_mem_nil _, rfl, hs, rfl⟩
  | cons e active ih =>
    have hapart := hn
    rw [List.map_append, List.map_cons, List.nodup_append] at hapart
    have hother : ∀ d ∈ done, (p.chans d.1).fd ≠ (p.chans e.1).fd := fun d hd =>
      hapart.2.2 _ (List.mem_map.mpr ⟨d, hd, rfl⟩) _ List.mem_cons_self
    let m : Epoll := {s with occurring := Function.update s.occurring (p.chans e.1).fd e.2}
    have hraised : Raised p (done ++ [e]) m := by
      refine ⟨hs.poller, fun d hd => ?_, fun fd hfd => ?_⟩
      · rcases List.mem_append.mp hd with hd | hd
        · exact (Function.update_of_ne (hother d hd) ..).trans (hs.occurring d hd)
        · rw [List.mem_singleton.mp hd]
          exact Function.update_self ..
      · rw [List.map_append, List.mem_append, not_or] at hfd
        have hne : fd ≠ (p.chans e.1).fd := fun he => hfd.2 (he ▸ List.mem_cons_self)
        exact (Function.update_of_ne hne ..).trans (hs.others fd hfd.1)
    rw [List.append_cons] at hn ⊢
    obtain ⟨acts, t, hacts, ht, hfin, hsize⟩ := ih hraised hn
    exact ⟨.occur (p.chans e.1).fd e.2 :: acts, t, List.forall_mem_cons.mpr ⟨⟨_, _, rfl⟩, hacts⟩,
      exec_cons_some.mpr ⟨m, rfl, ht⟩, hfin, hsize⟩

theorem Quiet.raise (hq : Quiet p s) (hr : Reportable p active) :
    ∃ acts t, Occurs acts ∧ exec step s acts = some t ∧ Raised p active t ∧ t.eventsSize = s.eventsSize := by
  have hs : Raised p [] s := ⟨hq.poller, List.forall_mem_nil _, fun fd _ => hq.occurring fd⟩
  exact hs.more hr.apart

/-- What occurred goes away again. -/
theorem quieten (fds : List Nat) (hothers : ∀ fd ∉ fds, s.occurring fd = noneEvent) :
    ∃ acts t, Occurs acts ∧ exec step s acts = some t ∧ Quiet s.poller t ∧ t.eventsSize = s.eventsSize := by
  induction fds generalizing s with
  | nil => exact ⟨[], s, List.forall_mem_nil _, rfl, ⟨rfl, fun fd => hothers fd List.not_mem_nil⟩, rfl⟩
  | cons fd fds ih =>
    let m : Epoll := {s with occurring := Function.update s.occurring fd noneEvent}
    have hothers' : ∀ d ∉ fds, m.occurring d = noneEvent := by
      intro d hd
      by_cases hne : d = fd
      · rw [hne]
        exact Function.update_self ..
      · exact (Function.update_of_ne hne ..).trans (hothers d fun hmem => (List.mem_cons.mp hmem).elim hne hd)
    obtain ⟨acts, t, hacts, ht, hq, hsize⟩ := ih hothers'
    exact ⟨.occur fd noneEvent :: acts, t, List.forall_mem_cons.mpr ⟨⟨_, _, rfl⟩, hacts⟩,
      exec_cons_some.mpr ⟨m, rfl, ht⟩, hq, hsize⟩

/-- The events for the channels in `active`. -/
def asked (p : EpollPoller) (active : List (ChanId × EpollMask)) : List EpollEvent :=
  active.map fun e => ⟨(p.chans e.1).fd, e.1, e.2⟩

theorem asked_fds (p : EpollPoller) (active : List (ChanId × EpollMask)) :
    (asked p active).map EpollEvent.fd = active.map fun e => (p.chans e.1).fd := List.map_map

theorem Raised.event (hs : Raised p active s) (hr : Reportable p active) {e : ChanId × EpollMask} (he : e ∈ active) :
    s.event (p.chans e.1).fd = some ⟨(p.chans e.1).fd, e.1, e.2⟩ := by
  obtain ⟨hne, mask, hreg, hmask⟩ := hr.entry e he
  have hi := interest_of_registered hreg
  have hinter : (s.occurring (p.chans e.1).fd).inter (mask.union alwaysReported) = e.2 := by
    rw [hs.occurring e he]
    exact EpollMask.inter_of_within hmask
  rw [← hs.poller] at hi hinter ⊢
  rw [event_of_interest hi (hinter ▸ hne), hinter]

/-- As many of the events as there is room for may be the answer. -/
theorem Raised.answers (hs : Raised p active s) (hr : Reportable p active) :
    s.Answers ((asked p active).take s.eventsSize) := by
  refine ⟨fun e he => ?_, ?_, List.length_take_le .., fun hless fd hfd => ?_⟩
  · obtain ⟨d, hd, rfl⟩ := List.mem_map.mp (List.mem_of_mem_take he)
    exact hs.event hr hd
  · rw [List.map_take, asked_fds]
    exact hr.apart.sublist (List.take_sublist ..)
  · rw [List.length_take] at hless
    rw [List.take_of_length_le (by omega), asked_fds]
    by_contra hno
    exact hfd (event_none (hs.others fd hno))

/-- In some course of events `events_` has room for any number of them. -/
theorem Quiet.grow (hq : Quiet p s) (hpos : 0 < s.eventsSize) (hr : Reportable p active) :
    ∃ acts t, exec step s acts = some t ∧ (∀ a ∈ acts, calls a = []) ∧ Documented s acts ∧ Quiet p t ∧
      active.length ≤ t.eventsSize := by
  induction hk : active.length - s.eventsSize using Nat.strongRecOn generalizing s with
  | ind k ih =>
    by_cases hle : active.length ≤ s.eventsSize
    · exact ⟨[], s, rfl, List.forall_mem_nil _, documented_of_one rfl along_nil (Nat.zero_le _), hq, hle⟩
    · -- Everything becomes ready, `events_` comes back full, and all is quiet again.
      obtain ⟨raise, u, hraise, hu, hraised, hsame⟩ := hq.raise hr
      have hanswers := hraised.answers hr
      have hfull : ((asked p active).take u.eventsSize).length = u.eventsSize := by
        rw [List.length_take, asked, List.length_map]
        omega
      have hsize : (u.poll ((asked p active).take u.eventsSize)).eventsSize = u.eventsSize * 2 :=
        if_pos ⟨by omega, hfull⟩
      obtain ⟨quiet, v, hquiet, hv, hqv, hsame'⟩ :=
        quieten (s := u.poll ((asked p active).take u.eventsSize)) _ hraised.others
      rw [show (u.poll ((asked p active).take u.eventsSize)).poller = p from hraised.poller] at hqv
      obtain ⟨acts, t, ht, hcalls, hd, hqt, hroom⟩ := ih (active.length - v.eventsSize) (by omega) hqv (by omega) rfl
      have hturn : exec step s (raise ++ .poll ((asked p active).take u.eventsSize) :: quiet) = some v :=
        exec_split.mpr ⟨u, hu, exec_cons_some.mpr ⟨_, rfl, hv⟩⟩
      have hobeys : Along step Obeys s (raise ++ .poll ((asked p active).take u.eventsSize) :: quiet) :=
        (obeys_of_none hraise.no_poll).append hu
          (along_cons.mpr ⟨hanswers, fun _ _ => obeys_of_none hquiet.no_poll⟩)
      have hone : (raise ++ .poll ((asked p active).take u.eventsSize) :: quiet).countP Act.isPoll ≤ 1 := by
        rw [List.countP_append, List.countP_cons, List.countP_eq_zero.mpr fun a ha => by simp [hraise.no_poll a ha],
          List.countP_eq_zero.mpr fun a ha => by simp [hquiet.no_poll a ha]]
        exact Nat.le_refl 1
      refine ⟨_, t, exec_split.mpr ⟨v, hturn, ht⟩, ?_,
        (documented_of_one hturn hobeys hone).append hturn hqv.none_ready hd, hqt, hroom⟩
      refine List.forall_mem_append.mpr ⟨List.forall_mem_append.mpr ⟨hraise.no_call, ?_⟩, hcalls⟩
      exact List.forall_mem_cons.mpr ⟨rfl, hquiet.no_call⟩

/-- Whatever a quiet poller may be asked to report, it is in some course of events. -/
theorem Quiet.supply (hq : Quiet p s) (hpos : 0 < s.eventsSize) (hr : Reportable p active) :
    ∃ acts t, exec step s acts = some t ∧ (∀ a ∈ acts, calls a = []) ∧ t.poller = p ∧
      t.Answers (asked p active) ∧ Documented s (acts ++ [.poll (asked p active)]) := by
  obtain ⟨acts, t, ht, hcalls, hd, hqt, hroom⟩ := hq.grow hpos hr
  obtain ⟨raise, u, hraise, hu, hraised, hsame⟩ := hqt.raise hr
  have hanswers := hraised.answers hr
  rw [List.take_of_length_le (by rw [asked, List.length_map]; omega)] at hanswers
  have hlast : Documented t (raise ++ [.poll (asked p active)]) := by
    refine documented_of_one (exec_snoc.mpr ⟨u, hu, rfl⟩)
      ((obeys_of_none hraise.no_poll).append hu (along_single hanswers)) ?_
    rw [List.countP_append, List.countP_eq_zero.mpr fun a ha => by simp [hraise.no_poll a ha]]
    exact Nat.le_refl 1
  refine ⟨acts ++ raise, u, exec_split.mpr ⟨t, ht, hu⟩,
    List.forall_mem_append.mpr ⟨hcalls, hraise.no_call⟩, hraised.poller, hanswers, ?_⟩
  rw [List.append_assoc]
  exact hd.append ht hqt.none_ready hlast

end Epoll

namespace Host
variable {fds : ConnNo → Nat} {h : Host} {l : LoopId} {active : List (ConnNo × EpollMask)}

/-- What may be reported to the loop is registered with its poller, on descriptors of its own. -/
theorem Reports.reportable {p : EpollPoller} (hrep : h.Reports l active) (hap : h.Apart fds)
    (hk : h.server.Kept h.bag) (hpoll : Polls fds l h p) : Epoll.Reportable p active := by
  obtain ⟨hnodup, hall⟩ := hrep
  have hreg : ∀ e ∈ active, (h.server.conn e.1).ch.registered ≠ none := by
    intro e he
    obtain ⟨mask, hm, -⟩ := (hall e he).2.2.2
    rw [hm]
    exact Option.some_ne_none mask
  refine ⟨?_, fun e he => ⟨(hall e he).2.2.1, ?_⟩⟩
  · refine List.Nodup.map_on (fun d hd e he hfd => ?_) (List.Nodup.of_map _ hnodup)
    rw [hpoll.fd, hpoll.fd] at hfd
    have hsame := hap.registered hk (hall d hd).1 (hall e he).1 (hreg d hd) (hreg e he) hfd
    exact List.inj_on_of_nodup_map hnodup hd he hsame
  · obtain ⟨mask, hm, hwithin⟩ := (hall e he).2.2.2
    have hview := congrArg Chan.registered (hpoll.view _ ⟨(hall e he).1, (hall e he).2.1⟩)
    exact ⟨mask, hview.trans hm, hwithin⟩

/-- What the loop's poller hands over may be reported to it. -/
theorem handed_reports {s : Epoll} {events : List EpollEvent} (hf : s.poller.Filed) (hw : s.Answers events)
    (hpoll : Polls fds l h s.poller) : h.Reports l (s.handed events) := by
  rw [Epoll.handed_events hf hw]
  refine ⟨by rw [List.map_map]; exact hw.data_nodup hf, fun d hd => ?_⟩
  obtain ⟨e, he, rfl⟩ := List.mem_map.mp hd
  obtain ⟨-, mask, hm, hnow, hne⟩ := Epoll.event_registered hf (hw.occurs e he)
  have howns : h.server.Owns l e.data := by
    by_contra hno
    have hchan := congrArg Chan.registered (hpoll.view_strange hno)
    rw [show (s.poller.view e.data).registered = s.poller.registered e.data from rfl, hm] at hchan
    cases hchan
  have hview := congrArg Chan.registered (hpoll.view _ howns)
  exact ⟨howns.1, howns.2, hne, mask, hview.symm.trans hm, hnow ▸ EpollMask.inter_within ..⟩

/-- **A `poll` of the server is one of `epoll_poller`.** In every run in which the kernel gives
no connection the descriptor of one that is alive: a list is one that `poll` may bring a loop
if and only if a poller hands it over, on which the loop has made just the calls it has made,
in some documented run of `epoll_wait`. -/
theorem polls_report {numThreads mark : Nat} {callbacks : Callbacks} {tr : List Act}
    (hr : exec step (create numThreads callbacks mark) tr = some h) (hacc : h.server.accepted < 2 ^ 32)
    (hfresh : Along step (Fresh fds) (create numThreads callbacks mark) tr) :
    h.Reports l active ↔ ∃ acts s events, exec Epoll.step (.create fds) acts = some s ∧
      acts.flatMap Epoll.calls = seen step (pollerCalls l) (create numThreads callbacks mark) tr ∧
      Epoll.Documented (.create fds) (acts ++ [.poll events]) ∧ s.handed events = active := by
  obtain ⟨hap, hpolls⟩ := run_polls hr hacc hfresh
  obtain ⟨p, hp, -, hpoll⟩ := hpolls l
  constructor
  · intro hrep
    have hable := hrep.reportable hap (run_kept hr hacc) hpoll
    obtain ⟨s, hs, hq, hsize⟩ := Epoll.exec_quiet (s := .create fds) ⟨rfl, fun _ => rfl⟩ hp
    obtain ⟨acts, t, ht, hcalls, hp', hanswers, hd⟩ :=
      hq.supply (hsize ▸ (by decide : 0 < Epoll.initEventListSize)) hable
    have hrun := exec_split.mpr ⟨s, hs, ht⟩
    have hnone : ∀ a ∈ (seen step (pollerCalls l) (create numThreads callbacks mark) tr).map Epoll.Act.call,
        a.isPoll = false := by
      intro a ha
      obtain ⟨c, -, rfl⟩ := List.mem_map.mp ha
      rfl
    have hfirst := Epoll.documented_of_one hs (Epoll.obeys_of_none hnone)
      (by rw [List.countP_eq_zero.mpr fun a ha => by simp [hnone a ha]]; exact Nat.zero_le 1)
    refine ⟨_, t, Epoll.asked p active, hrun, ?_, ?_, ?_⟩
    · rw [List.flatMap_append, List.flatMap_eq_nil_iff.mpr hcalls, List.append_nil, List.flatMap_map]
      exact List.flatMap_singleton' _
    · rw [List.append_assoc]
      exact hfirst.append hs hq.none_ready hd
    · rw [Epoll.handed_events (Epoll.run_filed hrun) hanswers, Epoll.asked, List.map_map]
      exact List.map_id _
  · rintro ⟨acts, s, events, hs, hcalls, hd, rfl⟩
    have hsame : s.poller = p := by
      have hrun := Epoll.exec_calls hs
      rw [hcalls, show (Epoll.create fds).poller = .create fds from rfl, hp] at hrun
      exact (Option.some.inj hrun).symm
    exact handed_reports (Epoll.run_filed hs) (hd.answers.last hs) (hsame ▸ hpoll)

/-- The first connection is up on its loop, and readable. -/
theorem polls_report_established : ∃ h, exec step (create 1 ⟨true, true, false, false, false⟩ 64) established = some h ∧
    ∃ acts s events, exec Epoll.step (.create fun _ => 5) acts = some s ∧ acts.flatMap Epoll.calls =
      seen step (pollerCalls 1) (create 1 ⟨true, true, false, false, false⟩ 64) established ∧
      Epoll.Documented (.create fun _ => 5) (acts ++ [.poll events]) ∧ s.handed events = [(0, readEvent)] :=
  ⟨_, (Option.some_get (by decide +kernel)).symm,
    (polls_report (Option.some_get (by decide +kernel)).symm (by decide +kernel) (by decide +kernel)).mp
      (by decide +kernel)⟩

end Host

end Caimr.Net
