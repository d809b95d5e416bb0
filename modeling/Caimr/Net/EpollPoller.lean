import Mathlib.Logic.Function.Basic
import Caimr.Lib.Transition
import Caimr.Net.Chan

/-! `net/poller.cpp` and `net/epoll_poller.cpp` for all the channels of one poller. A
channel is recorded in three places: in the poller's map `chs_`, in its own `index_` and
in the epoll instance, under its descriptor. Here they are kept apart, as the code
keeps them, and channels may share a descriptor one after the other. While the three
agree, each channel is the lone channel of `Caimr.Net.Chan`. -/
namespace Caimr.Net
open Transition

/-- The number of a channel; the code has its address. -/
abbrev ChanId := Nat

/-- What the poller reads and writes of a channel. -/
structure PolledChan where
  fd : Nat
  events : EpollMask
  index : ChanIndex
deriving DecidableEq, Repr

structure EpollPoller where
  /-- `chs_`. -/
  chs : Nat → Option ChanId
  /-- The epoll instance: for each descriptor the user pointer and the mask it has. -/
  interest : Nat → Option (ChanId × EpollMask)
  chans : ChanId → PolledChan

namespace EpollPoller

/-- A poller, and channels on the descriptors `fds` it has not seen yet. -/
def create (fds : ChanId → Nat) : EpollPoller :=
  ⟨fun _ => none, fun _ => none, fun c => ⟨fds c, noneEvent, .new⟩⟩

/-- `epoll_ctl` on an entry: adding what is there, and changing or deleting what is not, fails. -/
def ctl (op : CtlOp) (event : ChanId × EpollMask) (entry : Option (ChanId × EpollMask)) :
    Option (ChanId × EpollMask) :=
  match op, entry with
  | .add, none => some event
  | .add, some old => some old
  | .mod, some _ => some event
  | .mod, none => none
  | .del, _ => none

/-- `epoll_poller::update`. -/
def update (p : EpollPoller) (op : CtlOp) (c : ChanId) : EpollPoller :=
  let ch := p.chans c
  {p with interest := Function.update p.interest ch.fd (ctl op (c, ch.events) (p.interest ch.fd))}

def setEvents (p : EpollPoller) (c : ChanId) (events : EpollMask) : EpollPoller :=
  {p with chans := Function.update p.chans c {p.chans c with events := events}}

def setIndex (p : EpollPoller) (c : ChanId) (index : ChanIndex) : EpollPoller :=
  {p with chans := Function.update p.chans c {p.chans c with index := index}}

/-- `epoll_poller::update_chan`. -/
def updateChan (p : EpollPoller) (c : ChanId) : EpollPoller :=
  match (p.chans c).index with
  | .new => (setIndex {p with chs := Function.update p.chs (p.chans c).fd (some c)} c .added).update .add c
  | .deleted => (p.setIndex c .added).update .add c
  | .added => p.update .mod c

/-- `epoll_poller::remove_chan`. -/
def removeChan (p : EpollPoller) (c : ChanId) : EpollPoller :=
  (setIndex {p with chs := Function.update p.chs (p.chans c).fd none} c .deleted).update .del c

/-- `poller::has_chan`. -/
def hasChan (p : EpollPoller) (c : ChanId) : Bool := p.chs (p.chans c).fd == some c

/-! ### Calls on the channels -/

/-- The member functions of a channel that go to its poller. -/
inductive Op where
  | enableReading
  | disableReading
  | enableWriting
  | disableWriting
  | disableAll
  | remove
deriving DecidableEq, Repr

/-- What each of them makes of `events_`. -/
def Op.newEvents : Op → EpollMask → EpollMask
  | .enableReading, events => events.union readEvent
  | .disableReading, events => events.diff readEvent
  | .enableWriting, events => events.union writeEvent
  | .disableWriting, events => events.diff writeEvent
  | .disableAll, _ => noneEvent
  | .remove, events => events

structure Call where
  chan : ChanId
  op : Op
deriving DecidableEq, Repr

def call (p : EpollPoller) (l : Call) : EpollPoller :=
  if l.op = .remove then p.removeChan l.chan
  else (p.setEvents l.chan (l.op.newEvents (p.chans l.chan).events)).updateChan l.chan

def step (p : EpollPoller) (l : Call) : Option EpollPoller := some (p.call l)

/-- How channels are used: a channel that is new to the poller comes to a descriptor when no other
channel is on it, and is not removed before its first update. -/
def Permitted (p : EpollPoller) (l : Call) : Prop :=
  (p.chans l.chan).index = .new →
    l.op ≠ .remove ∧ ∀ d, (p.chans d).index = .added → (p.chans d).fd ≠ (p.chans l.chan).fd

/-- The calls after which the records still agree: none updates a channel that has been
removed, and none removes it again while its descriptor is another channel's. -/
def Lasting (p : EpollPoller) (l : Call) : Prop :=
  (p.chans l.chan).index = .deleted →
    l.op = .remove ∧ ∀ d, (p.chans d).index = .added → (p.chans d).fd ≠ (p.chans l.chan).fd

/-! ### The three records -/

/-- `has_chan`, the index and the epoll instance say the same of a channel, and then its mask
is in the epoll instance. -/
structure Agrees (p : EpollPoller) (c : ChanId) : Prop where
  hasChan : p.hasChan c = true ↔ (p.chans c).index = .added
  index : (p.chans c).index = .added ↔ ∃ mask, p.interest (p.chans c).fd = some (c, mask)
  mask : ∀ mask, p.interest (p.chans c).fd = some (c, mask) → mask = (p.chans c).events

/-- What the epoll instance holds of a channel. -/
def registered (p : EpollPoller) (c : ChanId) : Option EpollMask :=
  match p.interest (p.chans c).fd with
  | some (d, mask) => if d = c then some mask else none
  | none => none

/-- The channel as `Caimr.Net.Chan` has it. -/
def view (p : EpollPoller) (c : ChanId) : Chan :=
  ⟨(p.chans c).events, (p.chans c).index, p.registered c⟩

/-! ### What a call does -/

theorem call_remove (p : EpollPoller) (c : ChanId) :
    p.call ⟨c, .remove⟩ =
      ⟨Function.update p.chs (p.chans c).fd none, Function.update p.interest (p.chans c).fd none,
        Function.update p.chans c {p.chans c with index := .deleted}⟩ := by
  simp [call, removeChan, update, setIndex, ctl]

theorem call_new {p : EpollPoller} {l : Call} (hop : l.op ≠ .remove) (hi : (p.chans l.chan).index = .new) :
    p.call l =
      ⟨Function.update p.chs (p.chans l.chan).fd (some l.chan),
        Function.update p.interest (p.chans l.chan).fd
          (ctl .add (l.chan, l.op.newEvents (p.chans l.chan).events) (p.interest (p.chans l.chan).fd)),
        Function.update p.chans l.chan
          {p.chans l.chan with events := l.op.newEvents (p.chans l.chan).events, index := .added}⟩ := by
  simp [call, hop, updateChan, update, setIndex, setEvents, hi]

theorem call_added {p : EpollPoller} {l : Call} (hop : l.op ≠ .remove) (hi : (p.chans l.chan).index = .added) :
    p.call l =
      ⟨p.chs,
        Function.update p.interest (p.chans l.chan).fd
          (ctl .mod (l.chan, l.op.newEvents (p.chans l.chan).events) (p.interest (p.chans l.chan).fd)),
        Function.update p.chans l.chan {p.chans l.chan with events := l.op.newEvents (p.chans l.chan).events}⟩ := by
  simp [call, hop, updateChan, update, setEvents, hi]

theorem call_deleted {p : EpollPoller} {l : Call} (hop : l.op ≠ .remove)
    (hi : (p.chans l.chan).index = .deleted) :
    p.call l =
      ⟨p.chs,
        Function.update p.interest (p.chans l.chan).fd
          (ctl .add (l.chan, l.op.newEvents (p.chans l.chan).events) (p.interest (p.chans l.chan).fd)),
        Function.update p.chans l.chan
          {p.chans l.chan with events := l.op.newEvents (p.chans l.chan).events, index := .added}⟩ := by
  simp [call, hop, updateChan, update, setIndex, setEvents, hi]

/-- A call changes one channel, and the records of its descriptor. -/
structure Touches (p q : EpollPoller) (c : ChanId) : Prop where
  fd : ∀ d, (q.chans d).fd = (p.chans d).fd
  chans : ∀ d ≠ c, q.chans d = p.chans d
  chs : ∀ fd ≠ (p.chans c).fd, q.chs fd = p.chs fd
  interest : ∀ fd ≠ (p.chans c).fd, q.interest fd = p.interest fd

/-- Writing over the records of one channel, or leaving them. -/
theorem touches_of {p : EpollPoller} {c : ChanId} {ch : PolledChan} {chs : Nat → Option ChanId}
    {entry : Option (ChanId × EpollMask)} (hfd : ch.fd = (p.chans c).fd)
    (hchs : ∀ fd ≠ (p.chans c).fd, chs fd = p.chs fd) :
    Touches p ⟨chs, Function.update p.interest (p.chans c).fd entry, Function.update p.chans c ch⟩ c := by
  refine ⟨fun d => ?_, fun d hd => ?_, hchs, fun fd hne => ?_⟩
  · by_cases hd : d = c
    · subst hd
      simp [hfd]
    · simp [hd]
  · simp [hd]
  · simp [hne]

theorem call_touches (p : EpollPoller) (l : Call) : Touches p (p.call l) l.chan := by
  by_cases hop : l.op = .remove
  · obtain ⟨c, op⟩ := l
    cases hop
    rw [call_remove]
    exact touches_of rfl fun fd hne => by simp [hne]
  · cases hi : (p.chans l.chan).index with
    | new =>
      rw [call_new hop hi]
      exact touches_of rfl fun fd hne => by simp [hne]
    | added =>
      rw [call_added hop hi]
      exact touches_of rfl fun fd _ => rfl
    | deleted =>
      rw [call_deleted hop hi]
      exact touches_of rfl fun fd _ => rfl

/-! ### One call -/

/-- Every entry of the epoll instance is under the descriptor of its channel. -/
def Filed (p : EpollPoller) : Prop := ∀ fd d mask, p.interest fd = some (d, mask) → (p.chans d).fd = fd

theorem ctl_some {op : CtlOp} {event old : ChanId × EpollMask} {entry : Option (ChanId × EpollMask)}
    (h : ctl op event entry = some old) : old = event ∨ entry = some old := by
  unfold ctl at h
  split at h <;> simp_all

/-- Whatever is called, entries are filed under the right descriptor. -/
theorem call_filed {p : EpollPoller} (h : p.Filed) (l : Call) : (p.call l).Filed := by
  have ht := call_touches p l
  intro fd d mask he
  rw [ht.fd]
  by_cases hfd : fd = (p.chans l.chan).fd
  · subst hfd
    have hentry : ∀ op, ctl op (l.chan, l.op.newEvents (p.chans l.chan).events)
        (p.interest (p.chans l.chan).fd) = some (d, mask) → (p.chans d).fd = (p.chans l.chan).fd := by
      intro op hctl
      rcases ctl_some hctl with hnew | hold
      · cases hnew
        rfl
      · exact h _ _ _ hold
    by_cases hop : l.op = .remove
    · obtain ⟨c, op⟩ := l
      cases hop
      rw [call_remove] at he
      simp at he
    · cases hi : (p.chans l.chan).index with
      | new =>
        rw [call_new hop hi] at he
        exact hentry .add (by simpa using he)
      | added =>
        rw [call_added hop hi] at he
        exact hentry .mod (by simpa using he)
      | deleted =>
        rw [call_deleted hop hi] at he
        exact hentry .add (by simpa using he)
  · rw [ht.interest fd hfd] at he
    exact h fd d mask he

/-- The descriptor of a channel is free if the records agree and no channel on it is in the poller. -/
theorem interest_free {p : EpollPoller} {c : ChanId} (h : ∀ d, p.Agrees d) (hf : p.Filed)
    (hfree : ∀ d, (p.chans d).index = .added → (p.chans d).fd ≠ (p.chans c).fd) :
    p.interest (p.chans c).fd = none := by
  cases he : p.interest (p.chans c).fd with
  | none => rfl
  | some entry =>
    obtain ⟨d, mask⟩ := entry
    have hfd := hf _ _ _ he
    have hadded := (h d).index.mpr ⟨mask, by rw [hfd, he]⟩
    exact absurd hfd (hfree d hadded)

/-- A channel of the poller is alone on its descriptor. -/
theorem alone {p : EpollPoller} {c d : ChanId} (h : ∀ d, p.Agrees d) (hc : (p.chans c).index = .added)
    (hd : (p.chans d).index = .added) (hfd : (p.chans d).fd = (p.chans c).fd) : d = c := by
  obtain ⟨mask, hmask⟩ := (h c).index.mp hc
  obtain ⟨mask', hmask'⟩ := (h d).index.mp hd
  rw [hfd, hmask] at hmask'
  cases hmask'
  rfl

/-- The records of the other channels stay in step if the descriptor was theirs neither
before the call nor after it. -/
theorem agrees_of_touches {p q : EpollPoller} {c : ChanId} (h : ∀ d, p.Agrees d) (ht : Touches p q c)
    (hc : q.Agrees c)
    (hfree : ∀ d ≠ c, (p.chans d).index = .added → (p.chans d).fd ≠ (p.chans c).fd)
    (hchs : ∀ d ≠ c, q.chs (p.chans c).fd ≠ some d)
    (hint : ∀ d mask, d ≠ c → q.interest (p.chans c).fd ≠ some (d, mask)) (d : ChanId) : q.Agrees d := by
  by_cases hd : d = c
  · rw [hd]
    exact hc
  by_cases hfd : (p.chans d).fd = (p.chans c).fd
  · have hidle : (p.chans d).index ≠ .added := fun hi => hfree d hd hi hfd
    refine ⟨⟨fun hhas => ?_, fun hi => ?_⟩, ⟨fun hi => ?_, fun ⟨mask, hm⟩ => ?_⟩, fun mask hm => ?_⟩
    · rw [hasChan, ht.fd, hfd, beq_iff_eq] at hhas
      exact absurd hhas (hchs d hd)
    · rw [ht.chans d hd] at hi
      exact absurd hi hidle
    · rw [ht.chans d hd] at hi
      exact absurd hi hidle
    · rw [ht.fd, hfd] at hm
      exact absurd hm (hint d mask hd)
    · rw [ht.fd, hfd] at hm
      exact absurd hm (hint d mask hd)
  · have hhas : q.hasChan d = p.hasChan d := by
      rw [hasChan, hasChan, ht.fd, ht.chs _ hfd]
    have hentry : q.interest (q.chans d).fd = p.interest (p.chans d).fd := by
      rw [ht.fd, ht.interest _ hfd]
    refine ⟨?_, ?_, ?_⟩
    · rw [hhas, ht.chans d hd]
      exact (h d).hasChan
    · rw [hentry, ht.chans d hd]
      exact (h d).index
    · rw [hentry, ht.chans d hd]
      exact (h d).mask

/-- A channel new to the poller comes to a free descriptor. -/
theorem agrees_new {p : EpollPoller} {l : Call} (h : ∀ d, p.Agrees d) (hf : p.Filed) (hop : l.op ≠ .remove)
    (hi : (p.chans l.chan).index = .new)
    (hfree : ∀ d, (p.chans d).index = .added → (p.chans d).fd ≠ (p.chans l.chan).fd) (d : ChanId) :
    (p.call l).Agrees d := by
  have ht := call_touches p l
  rw [call_new hop hi, interest_free h hf hfree] at ht ⊢
  refine agrees_of_touches h ht ?_ (fun d _ => hfree d) (fun d hd => ?_) (fun d mask hd => ?_) d
  · constructor <;> simp [EpollPoller.hasChan, ctl]
  · simpa using hd.symm
  · intro he
    simp only [ctl, Function.update_self, Option.some.injEq, Prod.mk.injEq] at he
    exact hd he.1.symm

theorem agrees_added {p : EpollPoller} {l : Call} (h : ∀ d, p.Agrees d) (hop : l.op ≠ .remove)
    (hi : (p.chans l.chan).index = .added) (d : ChanId) : (p.call l).Agrees d := by
  have ht := call_touches p l
  obtain ⟨old, hold⟩ := (h l.chan).index.mp hi
  have hchs : p.chs (p.chans l.chan).fd = some l.chan := by
    simpa [hasChan] using (h l.chan).hasChan.mpr hi
  rw [call_added hop hi, hold] at ht ⊢
  refine agrees_of_touches h ht ?_ (fun d hd hd' hfd => hd (alone h hi hd' hfd)) (fun d hd => ?_)
    (fun d mask hd => ?_) d
  · constructor <;> simp [hasChan, ctl, hi, hchs]
  · rw [hchs]
    simpa using hd.symm
  · intro he
    simp only [ctl, Function.update_self, Option.some.injEq, Prod.mk.injEq] at he
    exact hd he.1.symm

/-- Without its entry in `chs_`, a channel that comes back stays unknown to the poller. -/
theorem not_agrees_deleted {p : EpollPoller} {l : Call} (h : p.Agrees l.chan) (hop : l.op ≠ .remove)
    (hi : (p.chans l.chan).index = .deleted) : ¬ (p.call l).Agrees l.chan := by
  have hchs : ¬ p.chs (p.chans l.chan).fd = some l.chan := by
    intro hchs
    have hadded := h.hasChan.mp (by simp [hasChan, hchs])
    rw [hi] at hadded
    cases hadded
  intro h'
  rw [call_deleted hop hi] at h'
  have hhas := h'.hasChan
  simp [hasChan] at hhas
  exact hchs hhas

/-- A removal does no harm while no other channel is on the descriptor. -/
theorem agrees_remove {p : EpollPoller} {c : ChanId} (h : ∀ d, p.Agrees d)
    (hfree : ∀ d ≠ c, (p.chans d).index = .added → (p.chans d).fd ≠ (p.chans c).fd) (d : ChanId) :
    (p.call ⟨c, .remove⟩).Agrees d := by
  have ht := call_touches p ⟨c, .remove⟩
  rw [call_remove] at ht ⊢
  refine agrees_of_touches h ht ?_ hfree (fun d _ => by simp) (fun d mask _ => by simp) d
  constructor <;> simp [hasChan]

/-- It wipes the records of another channel that is. -/
theorem not_agrees_remove {p : EpollPoller} {c d : ChanId} (hd : d ≠ c) (hi : (p.chans d).index = .added)
    (hfd : (p.chans d).fd = (p.chans c).fd) : ¬ (p.call ⟨c, .remove⟩).Agrees d := by
  intro h'
  rw [call_remove] at h'
  have hhas := h'.hasChan.mpr (by simpa [hd] using hi)
  simp [hasChan, hd, hfd] at hhas

/-- The records agree after a permitted call exactly if it is a lasting one. -/
theorem call_agrees_iff {p : EpollPoller} {l : Call} (h : ∀ d, p.Agrees d) (hf : p.Filed)
    (hp : p.Permitted l) : (∀ d, (p.call l).Agrees d) ↔ p.Lasting l := by
  by_cases hop : l.op = .remove
  · obtain ⟨c, op⟩ := l
    cases hop
    cases hi : (p.chans c).index with
    | new => exact absurd rfl (hp hi).1
    | added =>
      have hne : ¬ (p.chans c).index = .deleted := by simp [hi]
      exact ⟨fun _ hdel => absurd hdel hne,
        fun _ => agrees_remove h fun d hd hd' hfd => hd (alone h hi hd' hfd)⟩
    | deleted =>
      constructor
      · intro h' _
        refine ⟨rfl, fun d hd hfd => ?_⟩
        have hne : d ≠ c := by
          rintro rfl
          rw [hi] at hd
          cases hd
        exact not_agrees_remove hne hd hfd (h' d)
      · intro hl
        exact agrees_remove h fun d _ => (hl hi).2 d
  · cases hi : (p.chans l.chan).index with
    | new =>
      have hne : ¬ (p.chans l.chan).index = .deleted := by simp [hi]
      exact ⟨fun _ hdel => absurd hdel hne, fun _ => agrees_new h hf hop hi (hp hi).2⟩
    | added =>
      have hne : ¬ (p.chans l.chan).index = .deleted := by simp [hi]
      exact ⟨fun _ hdel => absurd hdel hne, fun _ => agrees_added h hop hi⟩
    | deleted =>
      exact ⟨fun h' => absurd (h' l.chan) (not_agrees_deleted (h l.chan) hop hi),
        fun hl => absurd (hl hi).1 hop⟩

/-! ### One channel of many -/

/-- A member function on the lone channel. -/
def Op.onChan : Op → Chan → Chan
  | .enableReading, ch => ch.enableReading
  | .disableReading, ch => ch.disableReading
  | .enableWriting, ch => ch.enableWriting
  | .disableWriting, ch => ch.disableWriting
  | .disableAll, ch => ch.disableAll
  | .remove, ch => ch.remove

theorem Op.onChan_update {op : Op} (hop : op ≠ .remove) (ch : Chan) :
    op.onChan ch = Chan.updateChan {ch with events := op.newEvents ch.events} := by
  cases op <;> first | rfl | exact absurd rfl hop

theorem Agrees.registered {p : EpollPoller} {c : ChanId} (h : p.Agrees c) :
    p.registered c = if (p.chans c).index = .added then some (p.chans c).events else none := by
  unfold EpollPoller.registered
  split
  · rename_i d mask he
    by_cases hd : d = c
    · subst hd
      rw [if_pos rfl, if_pos (h.index.mpr ⟨mask, he⟩), h.mask mask he]
    · rw [if_neg hd, if_neg]
      intro hi
      obtain ⟨mask', he'⟩ := h.index.mp hi
      rw [he] at he'
      cases he'
      exact hd rfl
  · rename_i he
    rw [if_neg]
    intro hi
    obtain ⟨mask, he'⟩ := h.index.mp hi
    rw [he] at he'
    cases he'

/-- While the records agree, a call does to its channel what it does to the lone channel,
and nothing to any other. -/
theorem view_call {p : EpollPoller} {l : Call} (h : ∀ d, p.Agrees d) (hf : p.Filed) (hp : p.Permitted l)
    (hl : p.Lasting l) (d : ChanId) :
    (p.call l).view d = if d = l.chan then l.op.onChan (p.view d) else p.view d := by
  have h' := (call_agrees_iff h hf hp).mpr hl
  unfold view
  rw [(h' d).registered, (h d).registered]
  by_cases hd : d = l.chan
  · subst hd
    rw [if_pos rfl]
    by_cases hop : l.op = .remove
    · obtain ⟨c, op⟩ := l
      cases hop
      rw [call_remove]
      simp [Op.onChan, Chan.remove, Chan.removeChan, epollCtl]
    · rw [Op.onChan_update hop]
      cases hi : (p.chans l.chan).index with
      | new =>
        rw [call_new hop hi]
        simp [Chan.updateChan, epollCtl]
      | added =>
        rw [call_added hop hi]
        simp [Chan.updateChan, epollCtl, hi]
      | deleted => exact absurd (hl hi).1 hop
  · rw [if_neg hd, (call_touches p l).chans d hd]

/-! ### Any sequence of calls -/

theorem create_agrees (fds : ChanId → Nat) (c : ChanId) : (create fds).Agrees c := by
  constructor <;> simp [create, hasChan]

theorem create_filed (fds : ChanId → Nat) : (create fds).Filed := nofun

theorem run_filed {p q : EpollPoller} {calls : List Call} (hf : p.Filed) (h : exec step p calls = some q) :
    q.Filed := by
  refine exec_preserves (fun p l q hp hl => ?_) hf h
  cases hl
  exact call_filed hp l

/-- Every call returns. -/
theorem run_total (p : EpollPoller) (calls : List Call) : ∃ q, exec step p calls = some q := by
  induction calls generalizing p with
  | nil => exact ⟨p, rfl⟩
  | cons l rest ih => exact ih (p.call l)

theorem step_agrees_iff (p : EpollPoller) (l : Call) (q : EpollPoller) (h : p.Filed ∧ ∀ c, p.Agrees c)
    (hp : p.Permitted l) (hq : step p l = some q) : (q.Filed ∧ ∀ c, q.Agrees c) ↔ p.Lasting l := by
  cases hq
  rw [← call_agrees_iff h.2 h.1 hp]
  exact ⟨fun h' => h'.2, fun h' => ⟨call_filed h.1 l, h'⟩⟩

/-- **The three records of a channel.** Over channels that come to a descriptor one after the
other, `chs_`, the indices and the epoll instance agree after every call exactly if no call
updates a channel that has been removed, and none removes it again from under another one. -/
theorem records_agree (fds : ChanId → Nat) {calls : List Call}
    (hp : Along step Permitted (create fds) calls) :
    (∀ pre rest p, calls = pre ++ rest → exec step (create fds) pre = some p → ∀ c, p.Agrees c) ↔
      Along step Lasting (create fds) calls := by
  obtain ⟨q, h⟩ := run_total (create fds) calls
  rw [← always_iff_along step_agrees_iff ⟨create_filed fds, create_agrees fds⟩ h hp]
  constructor
  · intro hall pre rest p he hpre
    exact ⟨run_filed (create_filed fds) hpre, hall pre rest p he hpre⟩
  · intro hall pre rest p he hpre
    exact (hall pre rest p he hpre).2

/-- A descriptor that is closed and comes back for another channel. -/
def reused : List Call :=
  [⟨0, .enableReading⟩, ⟨0, .enableWriting⟩, ⟨0, .remove⟩, ⟨1, .enableReading⟩]

theorem records_agree_reused : ∃ p, exec step (create fun _ => 5) reused = some p ∧
    p.hasChan 1 = true ∧ p.Agrees 0 ∧ p.Agrees 1 := by
  have hp : Along step Permitted (create fun _ => 5) reused := by
    simp [reused, along_cons, along_nil, step, Permitted, call, create, updateChan, removeChan, setEvents,
      setIndex, update, Function.update_apply]
    intro d
    by_cases hd : d = 0 <;> simp [hd]
  have hl : Along step Lasting (create fun _ => 5) reused := by
    simp [reused, along_cons, along_nil, step, Lasting, call, create, updateChan, removeChan, setEvents,
      setIndex, update, Function.update_apply]
  obtain ⟨p, h⟩ := run_total (create fun _ => 5) reused
  have hall := (records_agree (fun _ => 5) hp).mpr hl reused [] p rfl h
  refine ⟨p, h, ?_, hall 0, hall 1⟩
  cases h
  rfl

/-- A channel that is removed and enabled again is back in the epoll instance, but not in `chs_`. -/
theorem records_disagree : ¬ ∀ (fds : ChanId → Nat) (calls : List Call),
    Along step Permitted (create fds) calls →
      ∀ pre rest p, calls = pre ++ rest → exec step (create fds) pre = some p → ∀ c, p.Agrees c := by
  intro hclaim
  have hp : Along step Permitted (create fun _ => 5) [⟨0, .enableReading⟩, ⟨0, .remove⟩, ⟨0, .enableReading⟩] := by
    simp [along_cons, along_nil, step, Permitted, call, create, updateChan, removeChan, setEvents,
      setIndex, update, Function.update_apply]
  have h := hclaim (fun _ => 5) _ hp _ [] _ (List.append_nil _).symm rfl 0
  exact absurd (h.hasChan.mpr rfl) (by decide)

end EpollPoller

end Caimr.Net
