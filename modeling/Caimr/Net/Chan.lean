/-! `net/chan.h`, `net/chan.cpp` and the part of `net/epoll_poller.cpp` that changes what
epoll holds for one channel. A channel is its events, its index in the poller and, next
to these two, the entry of its socket in the epoll instance. The kernel keeps that entry
per open socket, so channels of different connections do not touch each other's. -/
namespace Caimr.Net

/-- A set of epoll events. -/
structure EpollMask where
  pollIn : Bool
  pollPri : Bool
  pollOut : Bool
  pollErr : Bool
  pollHup : Bool
deriving DecidableEq, Repr, Inhabited

namespace EpollMask

def union (a b : EpollMask) : EpollMask :=
  ⟨a.pollIn || b.pollIn, a.pollPri || b.pollPri, a.pollOut || b.pollOut, a.pollErr || b.pollErr,
    a.pollHup || b.pollHup⟩

def diff (a b : EpollMask) : EpollMask :=
  ⟨a.pollIn && !b.pollIn, a.pollPri && !b.pollPri, a.pollOut && !b.pollOut, a.pollErr && !b.pollErr,
    a.pollHup && !b.pollHup⟩

/-- Every event of `a` is in `b`. -/
def within (a b : EpollMask) : Bool :=
  (!a.pollIn || b.pollIn) && (!a.pollPri || b.pollPri) && (!a.pollOut || b.pollOut) &&
    (!a.pollErr || b.pollErr) && (!a.pollHup || b.pollHup)

end EpollMask

def noneEvent : EpollMask := ⟨false, false, false, false, false⟩
def readEvent : EpollMask := ⟨true, true, false, false, false⟩
def writeEvent : EpollMask := ⟨false, false, true, false, false⟩

/-- What epoll reports whatever it was asked for. -/
def alwaysReported : EpollMask := ⟨false, false, false, true, true⟩

/-- `index_`: -1, 1 and 2. -/
inductive ChanIndex where
  | new
  | added
  | deleted
deriving DecidableEq, Repr, Inhabited

structure Chan where
  events : EpollMask
  index : ChanIndex
  /-- The entry of the channel's socket in the epoll instance, if there is one. -/
  registered : Option EpollMask
deriving DecidableEq, Repr, Inhabited

/-! ### The poller -/

inductive CtlOp where
  | add
  | mod
  | del
deriving DecidableEq, Repr

/-- `epoll_ctl`. Adding what is there, and changing or deleting what is not, fails, which
the poller only logs. -/
def epollCtl (op : CtlOp) (mask : EpollMask) (entry : Option EpollMask) : Option EpollMask :=
  match op, entry with
  | .add, none => some mask
  | .add, some old => some old
  | .mod, some _ => some mask
  | .mod, none => none
  | .del, _ => none

namespace Chan

/-- `epoll_poller::update_chan`. -/
def updateChan (ch : Chan) : Chan :=
  match ch.index with
  | .new | .deleted => {ch with index := .added, registered := epollCtl .add ch.events ch.registered}
  | .added => {ch with registered := epollCtl .mod ch.events ch.registered}

/-- `epoll_poller::remove_chan`. -/
def removeChan (ch : Chan) : Chan :=
  {ch with index := .deleted, registered := epollCtl .del ch.events ch.registered}

/-! ### The channel -/

/-- `chan(loop, fd)`. -/
def create : Chan := ⟨noneEvent, .new, none⟩

def enableReading (ch : Chan) : Chan := updateChan {ch with events := ch.events.union readEvent}
def disableReading (ch : Chan) : Chan := updateChan {ch with events := ch.events.diff readEvent}
def enableWriting (ch : Chan) : Chan := updateChan {ch with events := ch.events.union writeEvent}
def disableWriting (ch : Chan) : Chan := updateChan {ch with events := ch.events.diff writeEvent}
def disableAll (ch : Chan) : Chan := updateChan {ch with events := noneEvent}
def remove (ch : Chan) : Chan := ch.removeChan

def isNoneEvent (ch : Chan) : Bool := ch.events == noneEvent
def isWriting (ch : Chan) : Bool := ch.events.pollOut
def isReading (ch : Chan) : Bool := ch.events.pollIn || ch.events.pollPri

/-- The callbacks of a channel. -/
inductive Callback where
  | close
  | error
  | read
  | write
deriving DecidableEq, Repr

/-- `handle_event_with_guard`: the callbacks that `revents_` asks for, in order. -/
def handleEventWithGuard (revents : EpollMask) : List Callback :=
  (if revents.pollHup && !revents.pollIn then [.close] else []) ++
  (if revents.pollErr then [.error] else []) ++
  (if revents.pollIn || revents.pollPri then [.read] else []) ++
  (if revents.pollOut then [.write] else [])

/-- The close callback comes first. -/
theorem handleEventWithGuard_tail (revents : EpollMask) :
    ∀ cb ∈ (handleEventWithGuard revents).tail, cb ≠ .close := by
  obtain ⟨pollIn, pollPri, pollOut, pollErr, pollHup⟩ := revents
  revert pollIn pollPri pollOut pollErr pollHup
  decide

theorem pollHup_of_close {revents : EpollMask} (h : .close ∈ handleEventWithGuard revents) :
    revents.pollHup = true := by
  obtain ⟨pollIn, pollPri, pollOut, pollErr, pollHup⟩ := revents
  revert pollIn pollPri pollOut pollErr pollHup
  decide

/-! ### What an update changes -/

@[simp] theorem updateChan_events (ch : Chan) : ch.updateChan.events = ch.events := by
  unfold updateChan
  split <;> rfl

@[simp] theorem enableReading_isWriting (ch : Chan) : ch.enableReading.isWriting = ch.isWriting := by
  simp [isWriting, enableReading, EpollMask.union, readEvent]

@[simp] theorem enableWriting_isWriting (ch : Chan) : ch.enableWriting.isWriting = true := by
  simp [isWriting, enableWriting, EpollMask.union, writeEvent]

@[simp] theorem disableWriting_isWriting (ch : Chan) : ch.disableWriting.isWriting = false := by
  simp [isWriting, disableWriting, EpollMask.diff, writeEvent]

@[simp] theorem disableAll_events (ch : Chan) : ch.disableAll.events = noneEvent := by
  simp [disableAll]

@[simp] theorem disableAll_isWriting (ch : Chan) : ch.disableAll.isWriting = false := by
  simp [isWriting, noneEvent]

/-- An update never takes an entry away. -/
theorem updateChan_registered {ch : Chan} (h : ch.registered ≠ none) : ch.updateChan.registered ≠ none := by
  cases hr : ch.registered with
  | none => exact absurd hr h
  | some mask =>
    unfold updateChan
    split <;> simp [epollCtl, hr]

/-- The channel is in the poller, and the kernel has its events. -/
def InStep (ch : Chan) : Prop := ch.index = .added ∧ ch.registered = some ch.events

theorem create_inStep : create.enableReading.InStep := ⟨rfl, rfl⟩

/-- Whatever becomes of its events, such a channel stays in step. -/
theorem InStep.update {ch : Chan} (h : ch.InStep) (events : EpollMask) :
    (updateChan {ch with events := events}).InStep := by
  obtain ⟨hi, hr⟩ := h
  unfold updateChan
  rw [hi, hr]
  exact ⟨rfl, rfl⟩

end Chan

end Caimr.Net
