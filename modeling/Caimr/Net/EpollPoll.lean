import Mathlib.Algebra.Group.Nat.Defs
import Mathlib.Data.List.Nodup
import Caimr.Lib.Seen
import Caimr.Net.EpollPoller

/-! `epoll_poller::poll`, against an `epoll_wait` that is a parameter: what a call of it leaves
in `events_` comes with the step, whatever it is. `Documented` says what is asked of it, for one
call and for a run: that it reports what there is to report, as much as there is room for, and
that it goes round. `events_` doubles whenever it comes back full. -/
namespace Caimr.Net
open Transition

def EpollMask.inter (a b : EpollMask) : EpollMask :=
  ⟨a.pollIn && b.pollIn, a.pollPri && b.pollPri, a.pollOut && b.pollOut, a.pollErr && b.pollErr,
    a.pollHup && b.pollHup⟩

theorem EpollMask.inter_within (a b : EpollMask) : (a.inter b).within b = true := by
  obtain ⟨a₁, a₂, a₃, a₄, a₅⟩ := a
  obtain ⟨b₁, b₂, b₃, b₄, b₅⟩ := b
  simp only [inter, within]
  cases b₁ <;> cases b₂ <;> cases b₃ <;> cases b₄ <;> cases b₅ <;> simp

/-- An `epoll_event`, with the descriptor it is about, which is not in it. -/
structure EpollEvent where
  fd : Nat
  /-- `data.ptr`. -/
  data : ChanId
  events : EpollMask
deriving DecidableEq, Repr

/-- A poller, over what occurs on the descriptors. -/
structure Epoll where
  poller : EpollPoller
  /-- `events_.size()`. -/
  eventsSize : Nat
  /-- `revents_` of the channels. -/
  revents : ChanId → EpollMask
  occurring : Nat → EpollMask

namespace Epoll

def initEventListSize : Nat := 16

def create (fds : ChanId → Nat) : Epoll := ⟨.create fds, initEventListSize, fun _ => noneEvent, fun _ => noneEvent⟩

/-! ### The poller -/

/-- One entry of `events_`: `set_revents`, and the channel is active. -/
def fill (r : (ChanId → EpollMask) × List ChanId) (e : EpollEvent) : (ChanId → EpollMask) × List ChanId :=
  (Function.update r.1 e.data e.events, r.2 ++ [e.data])

/-- `fill_active_chs`. -/
def fillActiveChs (revents : ChanId → EpollMask) (events : List EpollEvent) :
    (ChanId → EpollMask) × List ChanId :=
  events.foldl fill (revents, [])

/-- `poll` when `epoll_wait` leaves `events` in `events_`, without the channels it makes active. -/
def poll (s : Epoll) (events : List EpollEvent) : Epoll :=
  { poller := s.poller
    eventsSize := if 0 < events.length ∧ events.length = s.eventsSize then s.eventsSize * 2 else s.eventsSize
    revents := (fillActiveChs s.revents events).1
    occurring := s.occurring }

/-- The channels that `poll` makes active. -/
def activeChs (s : Epoll) (events : List EpollEvent) : List ChanId := (fillActiveChs s.revents events).2

inductive Act where
  /-- A member function of a channel. -/
  | call (l : EpollPoller.Call)
  /-- What occurs on a descriptor changes. -/
  | occur (fd : Nat) (now : EpollMask)
  | poll (events : List EpollEvent)
  /-- A `poll` whose `epoll_wait` fails. -/
  | pollFails
deriving DecidableEq, Repr

def step (s : Epoll) : Act → Option Epoll
  | .call l => some {s with poller := s.poller.call l}
  | .occur fd now => some {s with occurring := Function.update s.occurring fd now}
  | .poll events => some (s.poll events)
  | .pollFails => some s

def Act.isPoll : Act → Bool
  | .poll _ => true
  | .call _ | .occur .. | .pollFails => false

/-- The descriptors that an act reports. -/
def Act.reported : Act → List Nat
  | .poll events => events.map EpollEvent.fd
  | .call _ | .occur .. | .pollFails => []

/-- All that a run reports, in order. -/
def reported (tr : List Act) : List Nat := tr.flatMap Act.reported

/-! ### What is asked of `epoll_wait` -/

/-- What there is to report of a descriptor: what occurs of the mask that it is registered
with, and errors and hang-ups, with the pointer that it is registered with. -/
def event (s : Epoll) (fd : Nat) : Option EpollEvent :=
  match s.poller.interest fd with
  | some (data, mask) =>
    if (s.occurring fd).inter (mask.union alwaysReported) = noneEvent then none
    else some ⟨fd, data, (s.occurring fd).inter (mask.union alwaysReported)⟩
  | none => none

/-- There is something to report of the descriptor. -/
def Ready (s : Epoll) (fd : Nat) : Prop := s.event fd ≠ none

instance (s : Epoll) (fd : Nat) : Decidable (s.Ready fd) := inferInstanceAs (Decidable (_ ≠ _))

/-- What one call may leave in `events_`. -/
structure Answers (s : Epoll) (events : List EpollEvent) : Prop where
  /-- Each event is one there is to report. -/
  occurs : ∀ e ∈ events, s.event e.fd = some e
  /-- No descriptor is reported twice. -/
  once : (events.map EpollEvent.fd).Nodup
  /-- There are no more events than `maxevents`. -/
  room : events.length ≤ s.eventsSize
  /-- With fewer, nothing is left out. -/
  all : events.length < s.eventsSize → ∀ fd, s.Ready fd → fd ∈ events.map EpollEvent.fd

def Obeys (s : Epoll) : Act → Prop
  | .poll events => s.Answers events
  | .call _ | .occur .. | .pollFails => True

/-- Successive calls go round: while a descriptor that stays ready waits for its turn, no
other has two. -/
def RoundRobin (s₀ : Epoll) (tr : List Act) : Prop :=
  ∀ a b c s fd, tr = a ++ b ++ c → exec step s₀ a = some s → Along step (fun s _ => s.Ready fd) s b →
    fd ∉ reported b → (reported b).Nodup

/-- The run is one over `epoll_wait` as it is documented. -/
structure Documented (s₀ : Epoll) (tr : List Act) : Prop where
  answers : Along step Obeys s₀ tr
  roundRobin : RoundRobin s₀ tr

/-! ### Events -/

theorem event_some {s : Epoll} {fd : Nat} {e : EpollEvent} (h : s.event fd = some e) : e.fd = fd ∧
    ∃ mask, s.poller.interest fd = some (e.data, mask) ∧
      e.events = (s.occurring fd).inter (mask.union alwaysReported) ∧ e.events ≠ noneEvent := by
  unfold event at h
  split at h
  · rename_i data mask he
    split at h
    · cases h
    · rename_i hne
      cases h
      exact ⟨rfl, mask, he, rfl, hne⟩
  · cases h

/-- A registered descriptor is ready if something occurs of its mask. -/
theorem event_of_interest {s : Epoll} {fd : Nat} {c : ChanId} {mask : EpollMask}
    (h : s.poller.interest fd = some (c, mask))
    (hne : (s.occurring fd).inter (mask.union alwaysReported) ≠ noneEvent) :
    s.event fd = some ⟨fd, c, (s.occurring fd).inter (mask.union alwaysReported)⟩ := by
  simp only [event, h]
  exact if_neg hne

/-- Nothing is to be reported where nothing occurs. -/
theorem event_none {s : Epoll} {fd : Nat} (h : s.occurring fd = noneEvent) : s.event fd = none := by
  cases he : s.event fd with
  | none => rfl
  | some e =>
    obtain ⟨-, mask, -, hnow, hne⟩ := event_some he
    rw [h] at hnow
    exact absurd hnow hne

theorem Answers.ready {s : Epoll} {events : List EpollEvent} (h : s.Answers events) {fd : Nat}
    (hfd : fd ∈ events.map EpollEvent.fd) : s.Ready fd := by
  obtain ⟨e, he, rfl⟩ := List.mem_map.mp hfd
  rw [Ready, h.occurs e he]
  exact Option.some_ne_none e

@[simp] theorem reported_nil : reported [] = [] := rfl

@[simp] theorem reported_cons (a : Act) (tr : List Act) : reported (a :: tr) = a.reported ++ reported tr :=
  List.flatMap_cons

@[simp] theorem reported_append (a b : List Act) : reported (a ++ b) = reported a ++ reported b :=
  List.flatMap_append

/-- Only polls report. -/
theorem reported_none {tr : List Act} (h : ∀ a ∈ tr, a.isPoll = false) : reported tr = [] := by
  refine List.flatMap_eq_nil_iff.mpr fun a ha => ?_
  cases a with
  | poll events => cases h _ ha
  | call | occur | pollFails => rfl

/-! ### What a poll hands over -/

/-- The channels come in the order of `events_`. -/
theorem fillActiveChs_channels (revents : ChanId → EpollMask) (events : List EpollEvent) :
    (fillActiveChs revents events).2 = events.map EpollEvent.data := by
  have hacc : ∀ chs, (events.foldl fill (revents, chs)).2 = chs ++ events.map EpollEvent.data := by
    induction events generalizing revents with
    | nil => exact fun chs => (List.append_nil chs).symm
    | cons e events ih =>
      intro chs
      rw [List.foldl_cons, fill, ih, List.map_cons, List.append_assoc]
      rfl
  exact hacc []

/-- A channel that is not in `events_` keeps its `revents_`, and one that is there once gets
what stands beside it. -/
theorem fillActiveChs_revents (revents : ChanId → EpollMask) {events : List EpollEvent}
    (hn : (events.map EpollEvent.data).Nodup) :
    (∀ c ∉ events.map EpollEvent.data, (fillActiveChs revents events).1 c = revents c) ∧
      ∀ e ∈ events, (fillActiveChs revents events).1 e.data = e.events := by
  unfold fillActiveChs
  generalize ([] : List ChanId) = chs
  induction events generalizing revents chs with
  | nil => exact ⟨fun c _ => rfl, List.forall_mem_nil _⟩
  | cons e events ih =>
    obtain ⟨hnew, hn⟩ := List.nodup_cons.mp hn
    rw [List.foldl_cons, fill]
    obtain ⟨hother, hmem⟩ := ih (Function.update revents e.data e.events) hn (chs ++ [e.data])
    refine ⟨fun c hc => ?_, fun d hd => ?_⟩
    · rw [List.map_cons, List.mem_cons, not_or] at hc
      obtain ⟨hne, hc⟩ := hc
      rw [hother c hc, Function.update_of_ne hne]
    · rcases List.mem_cons.mp hd with rfl | hd
      · rw [hother d.data hnew, Function.update_self]
      · exact hmem d hd

/-- The channel of an event is the one on its descriptor, and the event says what occurs of
its registration. -/
theorem event_registered {s : Epoll} (hf : s.poller.Filed) {e : EpollEvent} (he : s.event e.fd = some e) :
    (s.poller.chans e.data).fd = e.fd ∧ ∃ mask, s.poller.registered e.data = some mask ∧
      e.events = (s.occurring e.fd).inter (mask.union alwaysReported) ∧ e.events ≠ noneEvent := by
  obtain ⟨-, mask, hi, hnow, hne⟩ := event_some he
  have hfd := hf e.fd e.data mask hi
  refine ⟨hfd, mask, ?_, hnow, hne⟩
  rw [EpollPoller.registered, hfd, hi]
  exact if_pos rfl

/-- What is registered of a channel stands under its descriptor. -/
theorem interest_of_registered {p : EpollPoller} {c : ChanId} {mask : EpollMask} (h : p.registered c = some mask) :
    p.interest (p.chans c).fd = some (c, mask) := by
  unfold EpollPoller.registered at h
  split at h
  · rename_i d m he
    split at h
    · rename_i hd
      cases h
      rw [he, hd]
    · cases h
  · cases h

/-- No channel is in `events_` twice. -/
theorem Answers.data_nodup {s : Epoll} {events : List EpollEvent} (h : s.Answers events) (hf : s.poller.Filed) :
    (events.map EpollEvent.data).Nodup := by
  refine List.Nodup.map_on (fun d hd e he hde => ?_) (List.Nodup.of_map _ h.once)
  refine List.inj_on_of_nodup_map h.once hd he ?_
  rw [← (event_registered hf (h.occurs d hd)).1, ← (event_registered hf (h.occurs e he)).1, hde]

/-! ### Runs -/

theorem step_filed {s t : Epoll} {a : Act} (hf : s.poller.Filed) (h : step s a = some t) : t.poller.Filed := by
  cases a with
  | call l =>
    cases h
    exact EpollPoller.call_filed hf l
  | occur | poll | pollFails =>
    cases h
    exact hf

theorem run_filed {fds : ChanId → Nat} {s : Epoll} {tr : List Act} (h : exec step (create fds) tr = some s) :
    s.poller.Filed :=
  exec_preserves (fun _ _ _ => step_filed) (EpollPoller.create_filed fds) h

/-- `events_` only grows. -/
theorem step_size {s t : Epoll} {a : Act} (hs : initEventListSize ≤ s.eventsSize) (h : step s a = some t) :
    initEventListSize ≤ t.eventsSize := by
  cases a with
  | poll events =>
    cases h
    unfold poll
    dsimp only
    split
    · omega
    · exact hs
  | call | occur | pollFails =>
    cases h
    exact hs

theorem run_size {fds : ChanId → Nat} {s : Epoll} {tr : List Act} (h : exec step (create fds) tr = some s) :
    initEventListSize ≤ s.eventsSize :=
  exec_preserves (fun _ _ _ => step_size) (Nat.le_refl _) h

/-- What is ready has occurred in the run. -/
theorem run_occurs {fds : ChanId → Nat} {s : Epoll} {tr : List Act} (h : exec step (create fds) tr = some s)
    {fd : Nat} (hfd : s.Ready fd) : ∃ now, Act.occur fd now ∈ tr := by
  have hocc : s.occurring fd ≠ noneEvent := fun hnone => hfd (event_none hnone)
  refine run_induction (fun tr s => s.occurring fd ≠ noneEvent → ∃ now, Act.occur fd now ∈ tr)
    (fun hne => absurd rfl hne) ?_ h hocc
  intro tr s a t _ ih ha hne
  have hold : s.occurring fd ≠ noneEvent → ∃ now, Act.occur fd now ∈ tr ++ [a] := by
    intro hs
    obtain ⟨now, hnow⟩ := ih hs
    exact ⟨now, List.mem_append_left _ hnow⟩
  cases a with
  | occur d now =>
    cases ha
    by_cases hd : fd = d
    · subst hd
      exact ⟨now, List.mem_append_right _ List.mem_cons_self⟩
    · exact hold fun hnone => hne ((Function.update_of_ne hd ..).trans hnone)
  | call | poll | pollFails =>
    cases ha
    exact hold hne

/-! ### How long a descriptor waits -/

/-- A `poll` that leaves a ready descriptor out comes back full. -/
theorem Answers.full {s : Epoll} {events : List EpollEvent} (h : s.Answers events) {fd : Nat} (hfd : s.Ready fd)
    (hno : fd ∉ events.map EpollEvent.fd) : events.length = s.eventsSize := by
  by_contra hne
  exact hno (h.all (Nat.lt_of_le_of_ne h.room hne) fd hfd)

/-- `n + 1` polls get past the room there is now, and what `n` polls get past with twice
that. -/
theorem turns_double (size n : Nat) : size * (2 ^ (n + 1) - 1) = size + size * 2 * (2 ^ n - 1) := by
  obtain ⟨m, hm⟩ := Nat.exists_eq_add_of_le (Nat.one_le_two_pow (n := n))
  have hsub : 2 ^ (n + 1) - 1 = 2 * m + 1 := by omega
  rw [hsub, hm, Nat.add_sub_cancel_left, Nat.mul_add, Nat.mul_one, Nat.mul_assoc, Nat.add_comm]

/-- While a ready descriptor is left out, each `poll` reports twice as many as the one before. -/
theorem reported_length {s t : Epoll} {tr : List Act} {fd : Nat} (h : exec step s tr = some t)
    (hw : Along step Obeys s tr) (hlive : Along step (fun s _ => s.Ready fd) s tr) (hno : fd ∉ reported tr)
    (hpos : 0 < s.eventsSize) : (reported tr).length = s.eventsSize * (2 ^ tr.countP Act.isPoll - 1) := by
  induction tr generalizing s with
  | nil => simp
  | cons a tr ih =>
    obtain ⟨u, ha, hrest⟩ := exec_cons_some.mp h
    obtain ⟨hobeys, hw⟩ := along_cons.mp hw
    obtain ⟨hready, hlive⟩ := along_cons.mp hlive
    rw [reported_cons, List.mem_append, not_or] at hno
    rw [reported_cons, List.length_append]
    cases a with
    | poll events =>
      cases ha
      have hfull : events.length = s.eventsSize := Answers.full hobeys hready hno.1
      have hsize : (s.poll events).eventsSize = s.eventsSize * 2 := if_pos ⟨hfull ▸ hpos, hfull⟩
      have hlen := ih hrest (hw _ rfl) (hlive _ rfl) hno.2 (by omega)
      rw [List.countP_cons_of_pos rfl, turns_double, hlen, hsize, Act.reported, List.length_map, hfull]
    | call | occur | pollFails =>
      cases ha
      have hlen := ih hrest (hw _ rfl) (hlive _ rfl) hno.2 hpos
      rw [List.countP_cons_of_neg (by simp [Act.isPoll]), hlen]
      exact Nat.zero_add _

/-- What is reported was ready. -/
theorem reported_mem {s t : Epoll} {tr : List Act} {fds : List Nat} (h : exec step s tr = some t)
    (hw : Along step Obeys s tr) (hall : Along step (fun s _ => ∀ fd, s.Ready fd → fd ∈ fds) s tr) :
    ∀ fd ∈ reported tr, fd ∈ fds := by
  induction tr generalizing s with
  | nil => exact List.forall_mem_nil _
  | cons a tr ih =>
    obtain ⟨u, ha, hrest⟩ := exec_cons_some.mp h
    obtain ⟨hobeys, hw⟩ := along_cons.mp hw
    obtain ⟨hnow, hall⟩ := along_cons.mp hall
    rw [reported_cons]
    refine List.forall_mem_append.mpr ⟨fun fd hfd => ?_, ih hrest (hw _ ha) (hall _ ha)⟩
    cases a with
    | poll events => exact hnow fd (Answers.ready hobeys hfd)
    | call | occur | pollFails => cases hfd

/-- One call reports nothing twice. -/
theorem reported_nodup {s t : Epoll} {tr : List Act} (h : exec step s tr = some t) (hw : Along step Obeys s tr)
    (hone : tr.countP Act.isPoll ≤ 1) : (reported tr).Nodup := by
  induction tr generalizing s with
  | nil => exact List.nodup_nil
  | cons a tr ih =>
    obtain ⟨u, ha, hrest⟩ := exec_cons_some.mp h
    obtain ⟨hobeys, hw⟩ := along_cons.mp hw
    rw [reported_cons]
    cases a with
    | poll events =>
      rw [List.countP_cons_of_pos rfl] at hone
      have hnone : reported tr = [] :=
        reported_none fun a ha => by simpa using List.countP_eq_zero.mp (by omega : tr.countP Act.isPoll = 0) a ha
      rw [hnone, List.append_nil]
      exact Answers.once hobeys
    | call | occur | pollFails =>
      rw [List.countP_cons_of_neg (by simp [Act.isPoll])] at hone
      exact ih hrest (hw _ ha) hone

/-- So does a stretch of a run with one call in it. -/
theorem stretch_nodup {s t u : Epoll} {tr a b c : List Act} (h : exec step s tr = some t)
    (hw : Along step Obeys s tr) (he : tr = a ++ b ++ c) (hu : exec step s a = some u)
    (hone : b.countP Act.isPoll ≤ 1) : (reported b).Nodup := by
  subst he
  obtain ⟨v, hv, -⟩ := exec_split.mp h
  obtain ⟨u', hu', hb⟩ := exec_split.mp hv
  rw [hu, Option.some.injEq] at hu'
  subst hu'
  exact reported_nodup hb (hw.of_append.after hu) hone

/-- **No descriptor starves.** In whatever state a poller is: a descriptor that has something
to report, and goes on having it, is reported within `n` polls if at most `16 * (2 ^ n - 1)`
descriptors, and it among them, ever have something to report in the meantime, whatever is
registered or dropped. -/
theorem none_starves {fds : ChanId → Nat} {tr₀ tr : List Act} {s t : Epoll} {fd : Nat} {ready : List Nat}
    (h₀ : exec step (create fds) tr₀ = some s) (h : exec step s tr = some t) (hd : Documented s tr)
    (hlive : Along step (fun s _ => s.Ready fd) s tr) (hfd : fd ∈ ready)
    (hall : Along step (fun s _ => ∀ fd, s.Ready fd → fd ∈ ready) s tr)
    (hn : ready.length ≤ initEventListSize * (2 ^ tr.countP Act.isPoll - 1)) : fd ∈ reported tr := by
  by_contra hno
  have hsize := run_size h₀
  have hpos : 0 < s.eventsSize := Nat.lt_of_lt_of_le (by decide) hsize
  have hlen := reported_length h hd.answers hlive hno hpos
  -- All the others have been reported once, which are too many.
  have hnodup : (fd :: reported tr).Nodup :=
    List.nodup_cons.mpr ⟨hno, hd.roundRobin [] tr [] s fd (by simp) rfl hlive hno⟩
  have hsub : (fd :: reported tr) ⊆ ready :=
    List.forall_mem_cons.mpr ⟨hfd, reported_mem h hd.answers hall⟩
  have hle := hnodup.length_le_of_subset hsub
  rw [List.length_cons, hlen] at hle
  have hmore := Nat.mul_le_mul_right (2 ^ tr.countP Act.isPoll - 1) hsize
  omega

/-- Seventeen channels, all of them readable. -/
def crowd : List Act :=
  (List.range 17).flatMap fun c => [.call ⟨c, .enableReading⟩, .occur c readEvent]

/-- The first sixteen are reported, and then the last before the others. -/
def turns : List Act :=
  [.poll ((List.range 16).map fun c => ⟨c, c, readEvent⟩),
    .poll ((16 :: List.range 16).map fun c => ⟨c, c, readEvent⟩)]

/-- The poller that they leave. -/
theorem crowd_eq {s : Epoll} (h : exec step (create id) crowd = some s) :
    s = (exec step (create id) crowd).get (by decide +kernel) :=
  (Option.get_of_eq_some _ h).symm

theorem crowd_ready {a b : List Act} {s : Epoll} {fd : Nat} (hturns : turns = a ++ b)
    (h : exec step (create id) (crowd ++ a) = some s) (hfd : s.Ready fd) : fd ∈ List.range 17 := by
  obtain ⟨now, hnow⟩ := run_occurs h hfd
  rcases List.mem_append.mp hnow with hmem | hmem
  · simp only [crowd, List.mem_flatMap, List.mem_cons, reduceCtorEq, false_or, Act.occur.injEq, List.not_mem_nil,
      or_false] at hmem
    obtain ⟨c, hc, rfl, -⟩ := hmem
    exact hc
  · have hno : Act.occur fd now ∈ turns := hturns ▸ List.mem_append_left _ hmem
    simp [turns] at hno

theorem crowd_documented {s : Epoll} (h : exec step (create id) crowd = some s) : Documented s turns := by
  have hpolls : ∀ {a b : List Act} {u : Epoll}, turns = a ++ b → exec step s a = some u →
      ∀ fd, u.Ready fd → fd ∈ List.range 17 :=
    fun hab hu fd hfd => crowd_ready hab (exec_split.mpr ⟨s, h, hu⟩) hfd
  have hs := crowd_eq h
  have hanswers : Along step Obeys s turns := by
    refine along_cons.mpr ⟨⟨?_, by decide, ?_, fun hless => ?_⟩, fun t ht => along_single ⟨?_, by decide, ?_, ?_⟩⟩
    · rw [hs]
      decide +kernel
    · rw [hs]
      decide +kernel
    · rw [hs] at hless
      exact absurd hless (by decide +kernel)
    · cases ht
      rw [hs]
      decide +kernel
    · cases ht
      rw [hs]
      decide +kernel
    · intro _ fd hfd
      have hrange := hpolls (a := [_]) rfl (exec_cons_some.mpr ⟨t, ht, rfl⟩) fd hfd
      have hall : ∀ d ∈ List.range 17, d ∈ 16 :: List.range 16 := by decide
      simpa using hall fd hrange
  refine ⟨hanswers, fun a b c u fd he hu hlive hno => ?_⟩
  by_cases hone : b.countP Act.isPoll ≤ 1
  · exact stretch_nodup (exec_cons_some.mpr ⟨_, rfl, rfl⟩) hanswers he hu hone
  · -- Both polls together report whatever is ready.
    have hlen := congrArg List.length he
    have hle := List.countP_le_length (p := Act.isPoll) (l := b)
    simp only [turns, List.length_append, List.length_cons, List.length_nil] at hlen
    have ha : a = [] := List.length_eq_zero_iff.mp (by omega)
    have hc : c = [] := List.length_eq_zero_iff.mp (by omega)
    subst ha hc
    simp only [List.nil_append, List.append_nil] at he
    subst he
    have hall : ∀ d ∈ List.range 17, d ∈ reported turns := by decide
    exact absurd (hall fd (hpolls (b := turns) rfl hu fd (along_cons.mp hlive).1)) hno

theorem none_starves_crowd : ∃ s, exec step (create id) crowd = some s ∧ 16 ∈ reported turns := by
  obtain ⟨s, h⟩ : ∃ s, exec step (create id) crowd = some s := ⟨_, rfl⟩
  obtain ⟨t, ht⟩ : ∃ t, exec step s turns = some t := ⟨_, rfl⟩
  have hwithin : Along step (fun s _ => ∀ fd, s.Ready fd → fd ∈ List.range 17) s turns := by
    intro a l b u he hu fd hfd
    exact crowd_ready he (exec_split.mpr ⟨s, h, hu⟩) hfd
  refine ⟨s, h, none_starves h ht (crowd_documented h) ?_ (by decide) hwithin (by decide)⟩
  rw [crowd_eq h]
  decide +kernel

/-! ### The channels that a poll makes active -/

/-- How channels are used: one that has been removed stays so, and is not removed again from
under another one. -/
def Uses (s : Epoll) : Act → Prop
  | .call l => s.poller.Permitted l ∧ s.poller.Lasting l
  | .occur .. | .poll _ | .pollFails => True

theorem run_agrees {fds : ChanId → Nat} {s : Epoll} {tr : List Act} (h : exec step (create fds) tr = some s)
    (hu : Along step Uses (create fds) tr) (c : ChanId) : s.poller.Agrees c := by
  refine rule_induction (fun _ s => s.poller.Filed ∧ ∀ c, s.poller.Agrees c)
    ⟨EpollPoller.create_filed fds, EpollPoller.create_agrees fds⟩ ?_ h hu |>.2 c
  intro tr s a t _ hs huse ha
  cases a with
  | call l =>
    cases ha
    exact ⟨EpollPoller.call_filed hs.1 l, (EpollPoller.call_agrees_iff hs.2 hs.1 huse.1).mpr huse.2⟩
  | occur | poll | pollFails =>
    cases ha
    exact hs

/-- **What a poll hands over.** In whatever state a poller is, over channels that are used as they
should be: `poll` makes no channel active twice. Each active one is in the poller, and gets as its
`revents_` what occurs of its own `events_`, with errors and hang-ups; the other channels keep
theirs. Unless `events_` comes back full, each channel of which something occurs is active. -/
theorem poll_hands_over {fds : ChanId → Nat} {tr : List Act} {s : Epoll} {events : List EpollEvent}
    (h : exec step (create fds) tr = some s) (hu : Along step Uses (create fds) tr) (hw : s.Answers events) :
    (s.activeChs events).Nodup ∧
      (∀ c ∈ s.activeChs events, (s.poller.chans c).index = .added ∧ (s.poll events).revents c ≠ noneEvent ∧
        (s.poll events).revents c =
          (s.occurring (s.poller.chans c).fd).inter ((s.poller.chans c).events.union alwaysReported)) ∧
      (∀ c ∉ s.activeChs events, (s.poll events).revents c = s.revents c) ∧
      ((s.activeChs events).length < s.eventsSize → ∀ c, (s.poller.chans c).index = .added →
        (s.occurring (s.poller.chans c).fd).inter ((s.poller.chans c).events.union alwaysReported) ≠ noneEvent →
        c ∈ s.activeChs events) := by
  have hf := run_filed h
  have hagree := run_agrees h hu
  have hact : s.activeChs events = events.map EpollEvent.data := fillActiveChs_channels s.revents events
  obtain ⟨hother, hmem⟩ := fillActiveChs_revents s.revents (hw.data_nodup hf)
  rw [hact]
  refine ⟨hw.data_nodup hf, fun c hc => ?_, hother, fun hroom c hadd hocc => ?_⟩
  · obtain ⟨e, he, rfl⟩ := List.mem_map.mp hc
    obtain ⟨hfd, mask, hreg, hnow, hne⟩ := event_registered hf (hw.occurs e he)
    have hi := interest_of_registered hreg
    have hrev : (s.poll events).revents e.data = e.events := hmem e he
    rw [hrev]
    refine ⟨(hagree _).index.mpr ⟨mask, hi⟩, hne, ?_⟩
    rw [hnow, hfd, (hagree _).mask mask hi]
  · obtain ⟨mask, hi⟩ := (hagree c).index.mp hadd
    rw [← (hagree c).mask mask hi] at hocc
    have hev := event_of_interest hi hocc
    rw [List.length_map] at hroom
    obtain ⟨e, he, hfd⟩ := List.mem_map.mp (hw.all hroom _ (by rw [Ready, hev]; exact Option.some_ne_none _))
    have hsame := hw.occurs e he
    rw [hfd, hev, Option.some.injEq] at hsame
    exact List.mem_map.mpr ⟨e, he, by rw [← hsame]⟩

/-- Two channels, one of them for writing too. -/
def both : List Act :=
  [.call ⟨0, .enableReading⟩, .call ⟨1, .enableReading⟩, .call ⟨1, .enableWriting⟩, .occur 1 writeEvent,
    .occur 0 readEvent]

theorem poll_hands_over_both : ∃ s, exec step (create id) both = some s ∧
    (s.activeChs [⟨1, 1, writeEvent⟩, ⟨0, 0, readEvent⟩]).Nodup ∧
    ∀ c ∈ s.activeChs [⟨1, 1, writeEvent⟩, ⟨0, 0, readEvent⟩], (s.poller.chans c).index = .added := by
  obtain ⟨s, h⟩ : ∃ s, exec step (create id) both = some s := ⟨_, rfl⟩
  have hs : s = (exec step (create id) both).get (by decide +kernel) := (Option.get_of_eq_some _ h).symm
  have huses : Along step Uses (create id) both := by
    simp [both, along_cons, along_nil, step, Uses, EpollPoller.Permitted, EpollPoller.Lasting, EpollPoller.call,
      create, EpollPoller.create, EpollPoller.updateChan, EpollPoller.setEvents, EpollPoller.setIndex,
      EpollPoller.update, Function.update_apply]
    intro d
    by_cases hd : d = 0 <;> simp [hd]
  have hanswers : s.Answers [⟨1, 1, writeEvent⟩, ⟨0, 0, readEvent⟩] := by
    refine ⟨?_, by decide, ?_, fun _ fd hfd => ?_⟩
    · rw [hs]
      decide +kernel
    · rw [hs]
      decide +kernel
    · obtain ⟨now, hnow⟩ := run_occurs h hfd
      simp only [both, List.mem_cons, reduceCtorEq, false_or, Act.occur.injEq, List.not_mem_nil, or_false] at hnow
      rcases hnow with ⟨rfl, -⟩ | ⟨rfl, -⟩ <;> decide
  obtain ⟨hnodup, hactive, -⟩ := poll_hands_over h huses hanswers
  exact ⟨s, h, hnodup, fun c hc => (hactive c hc).1⟩

end Epoll

end Caimr.Net
