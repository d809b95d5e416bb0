import Caimr.Net.Backlog

/-! A connection as a server drives it: every function that its loop and its user code may
call, each where a server calls it. `handle_write` and `destroy_conn` queue functors or call
user code before they are through, so that each is two calls here, and nothing comes
between them. -/
namespace Caimr.Net

namespace Served
open Transition

inductive Call where
  | establish
  | send (data : Bytes) (w : WriteResult)
  | shutdown
  | readable (r : ReadResult)
  /-- `handle_write` up to its test of `state_`, and this test. -/
  | flush (w : WriteResult)
  | finishWrite
  | close
  /-- `destroy_conn` up to `ch_->remove()`, and this. -/
  | destroy
  | removeChan
deriving DecidableEq, Repr

namespace Call

/-- What is still to come of a function that is not through. -/
def isRest : Call → Bool
  | .finishWrite | .removeChan => true
  | _ => false

/-- The connection after the call, the effects, and what is to come of the function. -/
def run (c : TcpConn) : Call → Except Fault (TcpConn × List Effect × Option Call)
  | .establish => .ok (c.establishConn.1, c.establishConn.2, none)
  | .send data w => do
    let (c, es) ← c.send data w
    return (c, es, none)
  | .shutdown => .ok (c.shutdown.1, c.shutdown.2, none)
  | .readable r => do
    let (c, es) ← c.handleRead r
    return (c, es, none)
  | .flush w => do
    let (c, es, drained) ← c.flush w
    return (c, es, if drained then some .finishWrite else none)
  | .finishWrite => .ok (c, c.finishWrite true, none)
  | .close => .ok (c.handleClose.1, c.handleClose.2, none)
  | .destroy => .ok (c.destroyConn.1, c.destroyConn.2, some .removeChan)
  | .removeChan => .ok ({c with ch := c.ch.remove}, [], none)

/-- The server makes the call of such a connection only: it establishes a new one, handles
the events of one in the poller, and destroys one that is closed. -/
def Fits (c : TcpConn) : Call → Prop
  | .establish => c.state = .connenting
  | .readable _ | .flush _ | .close => c.ch.registered ≠ none
  | .destroy | .removeChan => c.state = .disconnected
  | .send .. | .shutdown | .finishWrite => True

instance (c : TcpConn) (k : Call) : Decidable (k.Fits c) := by
  unfold Fits
  split <;> infer_instance

/-- The data of a `send` that finds the connection open. -/
def promises (c : TcpConn) : Call → Bytes
  | .send data _ => if c.state = .connected then data else []
  | _ => []

end Call

/-- A connection, all it has done so far, the data of the `send` calls that found it
connected, and what is to come of a function that is not through. -/
structure State where
  conn : TcpConn
  log : List Effect
  promised : Bytes
  next : Option Call
deriving DecidableEq, Repr

/-- A function is finished before another begins. -/
def State.Ready (s : State) (k : Call) : Prop :=
  match s.next with
  | none => k.isRest = false
  | some k' => k = k'

instance (s : State) (k : Call) : Decidable (s.Ready k) := by
  unfold State.Ready
  split <;> infer_instance

def step (s : State) (k : Call) : Option State :=
  if s.Ready k ∧ k.Fits s.conn then
    match k.run s.conn with
    | .ok (c, es, next) => some ⟨c, s.log ++ es, s.promised ++ k.promises s.conn, next⟩
    | .error _ => none
  else none

/-- A connection that has just been made. -/
def start (c : TcpConn) : State := ⟨c, [], [], none⟩

theorem step_iff {s t : State} {k : Call} :
    step s k = some t ↔ s.Ready k ∧ k.Fits s.conn ∧ ∃ es, k.run s.conn = .ok (t.conn, es, t.next) ∧
      t.log = s.log ++ es ∧ t.promised = s.promised ++ k.promises s.conn := by
  unfold step
  constructor
  · intro h
    split at h
    · rename_i hk
      split at h <;> simp only [Option.some.injEq, reduceCtorEq] at h
      rename_i c es next hrun
      subst h
      exact ⟨hk.1, hk.2, es, hrun, rfl, rfl⟩
    · cases h
  · rintro ⟨hready, hfits, es, hrun, hlog, hprom⟩
    rw [if_pos ⟨hready, hfits⟩, hrun]
    show some (State.mk _ _ _ _) = some t
    rw [← hlog, ← hprom]

/-! ### What no call changes -/

/-- The parts of a connection that are set when it is made. -/
structure Same (c c' : TcpConn) : Prop where
  loop : c'.loop = c.loop
  id : c'.id = c.id
  callbacks : c'.callbacks = c.callbacks
  highWaterMark : c'.highWaterMark = c.highWaterMark

theorem Same.refl (c : TcpConn) : Same c c := ⟨rfl, rfl, rfl, rfl⟩

theorem Same.trans {a b c : TcpConn} (h : Same a b) (h' : Same b c) : Same a c :=
  ⟨h'.loop.trans h.loop, h'.id.trans h.id, h'.callbacks.trans h.callbacks, h'.highWaterMark.trans h.highWaterMark⟩

theorem Same.symm {a b : TcpConn} (h : Same a b) : Same b a :=
  ⟨h.loop.symm, h.id.symm, h.callbacks.symm, h.highWaterMark.symm⟩

theorem same_frame (c : TcpConn) (outputBuf : Buffer) (ch : Chan) :
    Same c {c with outputBuf := outputBuf, ch := ch} :=
  ⟨rfl, rfl, rfl, rfl⟩

theorem handleRead_same {c c' : TcpConn} {r : ReadResult} {es : List Effect}
    (h : c.handleRead r = .ok (c', es)) : Same c c' := by
  by_cases hr : r.IsEof
  · obtain ⟨b, he⟩ := TcpConn.handleRead_eof hr h
    cases he
    exact ⟨rfl, rfl, rfl, rfl⟩
  · rw [TcpConn.handleRead_more hr h]
    exact ⟨rfl, rfl, rfl, rfl⟩

theorem run_same {c c' : TcpConn} {k : Call} {es : List Effect} {next : Option Call}
    (h : k.run c = .ok (c', es, next)) : Same c c' := by
  cases k with
  | establish | close | removeChan | finishWrite =>
    cases h
    exact ⟨rfl, rfl, rfl, rfl⟩
  | shutdown =>
    simp only [Call.run, Except.ok.injEq, Prod.mk.injEq, TcpConn.shutdown] at h
    rw [← h.1]
    split <;> exact ⟨rfl, rfl, rfl, rfl⟩
  | destroy =>
    simp only [Call.run, Except.ok.injEq, Prod.mk.injEq, TcpConn.destroyConn] at h
    rw [← h.1]
    split <;> exact ⟨rfl, rfl, rfl, rfl⟩
  | send data w =>
    obtain ⟨⟨c₁, es₁⟩, hsend, h⟩ := bind_ok.mp h
    cases h
    unfold TcpConn.send at hsend
    split at hsend
    · rw [TcpConn.sendInLoop_frame hsend]
      exact same_frame ..
    · cases hsend
      exact .refl _
  | readable r =>
    obtain ⟨⟨c₁, es₁⟩, hread, h⟩ := bind_ok.mp h
    cases h
    exact handleRead_same hread
  | flush w =>
    obtain ⟨⟨c₁, es₁, drained⟩, hflush, h⟩ := bind_ok.mp h
    cases h
    rw [TcpConn.flush_frame hflush]
    exact same_frame ..

theorem run_frame {c : TcpConn} {tr : List Call} {s : State} (h : exec step (start c) tr = some s) : Same c s.conn := by
  refine run_induction (fun _ s => Same c s.conn) (.refl c) ?_ h
  intro _ s k t _ ih hk
  obtain ⟨-, -, es, hrun, -, -⟩ := step_iff.mp hk
  exact ih.trans (run_same hrun)

/-! ### The calls that leave the socket alone -/

/-- A call that neither sends nor writes. It opens a connection, or closes it, or leaves
state and write interest as they are. -/
structure Calm (c c' : TcpConn) (es : List Effect) : Prop where
  outputBuf : c'.outputBuf = c.outputBuf
  quiet : ∀ e ∈ es, e.onSocket = false
  state : c'.state = c.state ∧ c'.ch.isWriting = c.ch.isWriting ∨
    c.state = .connenting ∧ c'.state = .connected ∨ c'.state = .disconnected

/-- Whether the call has to do with the outgoing stream. -/
def Call.isCalm : Call → Bool
  | .send .. | .shutdown | .flush _ | .finishWrite => false
  | .establish | .readable _ | .close | .destroy | .removeChan => true

theorem run_calm {c c' : TcpConn} {k : Call} {es : List Effect} {next : Option Call} (hk : k.isCalm = true)
    (hf : k.Fits c) (h : k.run c = .ok (c', es, next)) : Calm c c' es := by
  cases k with
  | send | shutdown | flush | finishWrite => cases hk
  | establish =>
    cases h
    exact ⟨rfl, TcpConn.establishConn_quiet c, .inr (.inl ⟨hf, rfl⟩)⟩
  | readable r =>
    obtain ⟨⟨c₁, es₁⟩, hread, h⟩ := bind_ok.mp h
    cases h
    obtain ⟨hout, hes, ⟨hs, hch⟩ | ⟨hs, -⟩⟩ := TcpConn.handleRead_ok hread
    · exact ⟨hout, hes, .inl ⟨hs, by rw [hch]⟩⟩
    · exact ⟨hout, hes, .inr (.inr hs)⟩
  | close =>
    cases h
    exact ⟨rfl, TcpConn.handleClose_quiet c, .inr (.inr rfl)⟩
  | destroy =>
    have hs : c.state = .disconnected := hf
    have hidle : c.destroyConn = (c, [.removeChan]) := by rw [TcpConn.destroyConn, if_neg (by rw [hs]; decide)]
    rw [Call.run, hidle] at h
    cases h
    exact ⟨rfl, by simp [Effect.onSocket], .inl ⟨rfl, rfl⟩⟩
  | removeChan =>
    cases h
    exact ⟨rfl, nofun, .inl ⟨rfl, rfl⟩⟩

/-- A function that is through with its first half is through, but for `handle_write` and
`destroy_conn`. -/
theorem calm_next {c c' : TcpConn} {k : Call} {es : List Effect} {next : Option Call} (hk : k.isCalm = true)
    (h : k.run c = .ok (c', es, next)) : next ≠ some .finishWrite := by
  cases k with
  | send | shutdown | flush | finishWrite => cases hk
  | establish | close | removeChan | destroy =>
    cases h
    nofun
  | readable r =>
    obtain ⟨_, -, h⟩ := bind_ok.mp h
    cases h
    nofun

/-! ### The backlog and the half-close -/

/-- Write interest and output buffer, and a half-close that is due. -/
structure Kept (s : State) : Prop where
  watched : s.conn.Watched
  rest : ∀ k, s.next = some k → k.isRest = true
  drained : s.next = some .finishWrite → s.conn.ch.isWriting = false ∧ s.conn.outputBuf.readable = []
  due : s.conn.state = .disconnenting →
    s.conn.ch.isWriting = true ∨ s.next = some .finishWrite ∨ .shutdownWrite ∈ s.log

/-- A function begins when none is in the middle. -/
theorem Kept.through {s : State} (hs : Kept s) {k : Call} (hr : s.Ready k) (hk : k.isRest = false) : s.next = none := by
  cases hn : s.next with
  | none => rfl
  | some k' =>
    rw [State.Ready, hn] at hr
    subst hr
    rw [hs.rest k hn] at hk
    cases hk

theorem State.Ready.next {s : State} {k : Call} (hr : s.Ready k) (hk : k.isRest = true) : s.next = some k := by
  cases hn : s.next with
  | none =>
    rw [State.Ready, hn] at hr
    rw [hr] at hk
    cases hk
  | some k' =>
    rw [State.Ready, hn] at hr
    rw [hr]

theorem run_watched {c c' : TcpConn} {k : Call} {es : List Effect} {next : Option Call} (hw : c.Watched)
    (hf : k.Fits c) (h : k.run c = .ok (c', es, next)) : c'.Watched := by
  cases k with
  | establish =>
    cases h
    exact TcpConn.establishConn_watched hw hf
  | send data w =>
    obtain ⟨_, hsend, h⟩ := bind_ok.mp h
    cases h
    exact TcpConn.send_watched hw hsend
  | shutdown =>
    cases h
    exact TcpConn.shutdown_watched hw
  | readable r =>
    obtain ⟨_, hread, h⟩ := bind_ok.mp h
    cases h
    exact TcpConn.handleRead_watched hw hread
  | flush w =>
    obtain ⟨_, hflush, h⟩ := bind_ok.mp h
    cases h
    exact TcpConn.flush_watched hw hflush
  | finishWrite =>
    cases h
    exact hw
  | close =>
    cases h
    exact TcpConn.handleClose_watched hw
  | destroy =>
    have hs : c.state = .disconnected := hf
    have hidle : c.destroyConn = (c, [.removeChan]) := by rw [TcpConn.destroyConn, if_neg (by rw [hs]; decide)]
    rw [Call.run, hidle] at h
    cases h
    exact hw
  | removeChan =>
    have hs : c.state = .disconnected := hf
    cases h
    refine ⟨hw.wf, fun hn => ?_, fun hn => ?_, fun _ => hw.dead hs⟩
    · cases hs.symm.trans hn
    · rcases hn with hn | hn <;> cases hs.symm.trans hn

theorem start_kept {c : TcpConn} {loop id mark : Nat} {cb : Callbacks}
    (hc : TcpConn.create loop id cb mark = .ok c) : Kept (start c) := by
  obtain ⟨hw, hs⟩ := TcpConn.create_watched hc
  exact ⟨hw, nofun, nofun, fun hd => by cases hs.symm.trans hd⟩

theorem run_rest {c c' : TcpConn} {k k' : Call} {es : List Effect} (h : k.run c = .ok (c', es, some k')) :
    k'.isRest = true := by
  cases k with
  | establish | shutdown | finishWrite | close | removeChan => cases h
  | destroy =>
    cases h
    rfl
  | send data w =>
    obtain ⟨_, -, h⟩ := bind_ok.mp h
    cases h
  | readable r =>
    obtain ⟨_, -, h⟩ := bind_ok.mp h
    cases h
  | flush w =>
    obtain ⟨⟨c₁, es₁, drained⟩, -, h⟩ := bind_ok.mp h
    cases drained <;> cases h
    rfl

theorem step_kept {s t : State} {k : Call} (hs : Kept s) (h : step s k = some t) : Kept t := by
  obtain ⟨hready, hfits, es, hrun, hlog, -⟩ := step_iff.mp h
  have hw := run_watched hs.watched hfits hrun
  have hrest : ∀ k', t.next = some k' → k'.isRest = true := fun k' hn => run_rest (hn ▸ hrun)
  have hmem : .shutdownWrite ∈ s.log → .shutdownWrite ∈ t.log := fun hm => by
    rw [hlog]
    exact List.mem_append_left _ hm
  -- A call that leaves state and write interest alone, with no half-close in the middle.
  have hidle : s.next ≠ some .finishWrite → t.conn.state = s.conn.state →
      t.conn.ch.isWriting = s.conn.ch.isWriting → t.conn.state = .disconnenting →
      t.conn.ch.isWriting = true ∨ t.next = some .finishWrite ∨ .shutdownWrite ∈ t.log := by
    intro hpast hst hwr hd
    rcases hs.due (hst.symm.trans hd) with hdue | hdue | hdue
    · exact .inl (hwr.trans hdue)
    · exact absurd hdue hpast
    · exact .inr (.inr (hmem hdue))
  by_cases hk : k.isCalm = true
  · have hcalm := run_calm hk hfits hrun
    refine ⟨hw, hrest, fun hn => absurd hn (calm_next hk hrun), fun hd => ?_⟩
    rcases hcalm.state with ⟨hst, hwr⟩ | ⟨-, hst⟩ | hst
    · refine hidle (fun hn => ?_) hst hwr hd
      rw [State.Ready, hn] at hready
      subst hready
      cases hk
    · cases hst.symm.trans hd
    · cases hst.symm.trans hd
  · cases k with
    | establish | readable | close | destroy | removeChan => exact absurd rfl hk
    | send data w =>
      have hnone := hs.through hready rfl
      obtain ⟨⟨c, es'⟩, hsend, hrun⟩ := bind_ok.mp hrun
      simp only [pure, Except.pure, Except.ok.injEq, Prod.mk.injEq] at hrun
      obtain ⟨hconn, -, hnext⟩ := hrun
      refine ⟨hw, hrest, fun hn => absurd (hnext.trans hn) (by simp), fun hd => ?_⟩
      unfold TcpConn.send at hsend
      split at hsend
      · rename_i hst
        rw [← hconn, TcpConn.sendInLoop_state hsend, hst] at hd
        cases hd
      · simp only [Except.ok.injEq, Prod.mk.injEq] at hsend
        have hsame : t.conn = s.conn := hconn.symm.trans hsend.1.symm
        exact hidle (by rw [hnone]; simp) (by rw [hsame]) (by rw [hsame]) hd
    | shutdown =>
      have hnone := hs.through hready rfl
      simp only [Call.run, Except.ok.injEq, Prod.mk.injEq, TcpConn.shutdown] at hrun
      obtain ⟨hconn, hes, hnext⟩ := hrun
      refine ⟨hw, hrest, fun hn => absurd (hnext.trans hn) (by simp), fun hd => ?_⟩
      split at hconn
      · rename_i hst
        rw [if_pos hst, TcpConn.shutdownInLoop_eq] at hes
        by_cases hwr : s.conn.ch.isWriting = true
        · rw [← hconn]
          exact .inl hwr
        · rw [if_neg hwr] at hes
          rw [hlog, ← hes]
          exact .inr (.inr (List.mem_append_right _ List.mem_cons_self))
      · exact hidle (by rw [hnone]; simp) (by rw [← hconn]) (by rw [← hconn]) hd
    | flush w =>
      have hnone := hs.through hready rfl
      obtain ⟨⟨c, es', drained⟩, hflush, hrun⟩ := bind_ok.mp hrun
      simp only [pure, Except.pure, Except.ok.injEq, Prod.mk.injEq] at hrun
      obtain ⟨rfl, -, hnext⟩ := hrun
      obtain ⟨-, -, -, -, -, -, hend⟩ := TcpConn.flush_ok hs.watched.wf hflush
      cases drained with
      | true => exact ⟨hw, hrest, fun _ => hend, fun _ => .inr (.inl hnext.symm)⟩
      | false =>
        refine ⟨hw, hrest, fun hn => absurd (hnext.trans hn) (by simp), ?_⟩
        exact hidle (by rw [hnone]; simp) (TcpConn.flush_state hflush) hend
    | finishWrite =>
      obtain ⟨hwr, -⟩ := hs.drained (hready.next rfl)
      simp only [Call.run, Except.ok.injEq, Prod.mk.injEq] at hrun
      obtain ⟨hconn, hes, hnext⟩ := hrun
      refine ⟨hw, hrest, fun hn => absurd (hnext.trans hn) (by simp), fun hd => .inr (.inr ?_)⟩
      rw [← hconn] at hd
      rw [TcpConn.finishWrite_eq fun _ => hwr, if_pos ⟨rfl, hd⟩] at hes
      rw [hlog, ← hes]
      exact List.mem_append_right _ List.mem_cons_self

/-! ### The stream -/

/-- The write side has been shut down, when all that was promised had been written, and
nothing is written any more. -/
structure HalfClosed (s : State) : Prop where
  down : s.conn.state = .disconnenting ∨ s.conn.state = .disconnected
  idle : s.conn.ch.isWriting = false
  through : s.next ≠ some .finishWrite
  split : ∃ front back, s.log = front ++ .shutdownWrite :: back ∧ Effect.shutdownWrite ∉ front ∧
    (∀ e ∈ back, e.onSocket = false) ∧ accepted front = s.promised

/-- What has been written and what waits, short of a fault. -/
structure Whole (s : State) : Prop where
  stream : accepted s.log ++ s.conn.outputBuf.readable = s.promised
  half : Effect.shutdownWrite ∈ s.log → HalfClosed s

theorem start_whole {c : TcpConn} {loop id mark : Nat} {cb : Callbacks}
    (hc : TcpConn.create loop id cb mark = .ok c) : Whole (start c) := by
  obtain ⟨hw, hs⟩ := TcpConn.create_watched hc
  exact ⟨by rw [start, (hw.fresh hs).2]; rfl, fun hm => absurd hm List.not_mem_nil⟩

/-- What a call adds behind a half-close is not on the socket. -/
theorem HalfClosed.more {s t : State} {es : List Effect} (h : HalfClosed s)
    (down : t.conn.state = .disconnenting ∨ t.conn.state = .disconnected) (idle : t.conn.ch.isWriting = false)
    (through : t.next ≠ some .finishWrite) (hlog : t.log = s.log ++ es) (hes : ∀ e ∈ es, e.onSocket = false)
    (hprom : t.promised = s.promised) : HalfClosed t := by
  obtain ⟨front, back, hsplit, hfront, hback, hall⟩ := h.split
  refine ⟨down, idle, through, front, back ++ es, ?_, hfront, fun e he => ?_, hall.trans hprom.symm⟩
  · rw [hlog, hsplit, List.append_assoc, List.cons_append]
  · exact (List.mem_append.mp he).elim (hback e) (hes e)

theorem not_mem_quiet {es : List Effect} (h : ∀ e ∈ es, e.onSocket = false) : Effect.shutdownWrite ∉ es :=
  fun hm => by cases h _ hm

theorem calm_whole {s t : State} {k : Call} (hs : Kept s) (hi : Whole s) (hk : k.isCalm = true)
    (h : step s k = some t) : Whole t := by
  obtain ⟨hready, hfits, es, hrun, hlog, hprom⟩ := step_iff.mp h
  have hcalm := run_calm hk hfits hrun
  have hp : t.promised = s.promised := by
    rw [hprom]
    cases k <;> first | exact List.append_nil _ | cases hk
  refine ⟨?_, fun hm => ?_⟩
  · rw [hlog, accepted_append, accepted_quiet hcalm.quiet, List.append_nil, hcalm.outputBuf, hi.stream, hp]
  · have hm' : Effect.shutdownWrite ∈ s.log := by
      rw [hlog] at hm
      exact (List.mem_append.mp hm).resolve_right (not_mem_quiet hcalm.quiet)
    have hhalf := hi.half hm'
    have hnext := calm_next hk hrun
    have hdead : t.conn.state = .disconnected → t.conn.ch.isWriting = false := (step_kept hs h).watched.dead
    rcases hcalm.state with ⟨hst, hwr⟩ | ⟨hst, -⟩ | hst
    · exact hhalf.more (by rw [hst]; exact hhalf.down) (hwr.trans hhalf.idle) hnext hlog hcalm.quiet hp
    · rcases hhalf.down with hd | hd <;> cases hst.symm.trans hd
    · exact hhalf.more (.inr hst) (hdead hst) hnext hlog hcalm.quiet hp

/-- A call that does nothing. -/
theorem Whole.same {s t : State} (hi : Whole s) (hconn : t.conn = s.conn) (hlog : t.log = s.log)
    (hprom : t.promised = s.promised) (hnext : t.next = none) : Whole t := by
  refine ⟨by rw [hlog, hconn, hprom]; exact hi.stream, fun hm => ?_⟩
  have hhalf := hi.half (hlog ▸ hm)
  exact hhalf.more (by rw [hconn]; exact hhalf.down) (by rw [hconn]; exact hhalf.idle) (by rw [hnext]; simp)
    (by rw [hlog, List.append_nil]) (List.forall_mem_nil _) hprom

theorem accepted_shutdownWrite (log : List Effect) : accepted (log ++ [.shutdownWrite]) = accepted log := by
  simp [Effect.taken]

theorem send_whole {s t : State} {data : Bytes} {w : WriteResult} (hs : Kept s) (hi : Whole s)
    (h : step s (.send data w) = some t) (hf : NoFault t.log) : Whole t := by
  obtain ⟨-, -, es, hrun, hlog, hprom⟩ := step_iff.mp h
  obtain ⟨⟨c, es'⟩, hsend, hrun⟩ := bind_ok.mp hrun
  simp only [pure, Except.pure, Except.ok.injEq, Prod.mk.injEq] at hrun
  obtain ⟨rfl, rfl, hnext⟩ := hrun
  rw [Call.promises] at hprom
  unfold TcpConn.send at hsend
  by_cases hst : s.conn.state = .connected
  · rw [if_pos hst] at hsend hprom
    rw [hlog] at hf
    obtain ⟨-, -, hstream, hno, -⟩ :=
      TcpConn.sendInLoop_ok hs.watched.wf (by rw [hst]; nofun) hsend hf.of_append.2
    refine ⟨?_, fun hm => ?_⟩
    · rw [hlog, hprom, accepted_append, List.append_assoc, hstream, ← List.append_assoc, hi.stream]
    · rw [hlog] at hm
      have hhalf := hi.half ((List.mem_append.mp hm).resolve_right hno)
      rcases hhalf.down with hd | hd <;> cases hst.symm.trans hd
  · rw [if_neg hst] at hsend hprom
    simp only [Except.ok.injEq, Prod.mk.injEq] at hsend
    exact hi.same hsend.1.symm (by rw [hlog, ← hsend.2, List.append_nil]) (by rw [hprom, List.append_nil])
      hnext.symm

theorem shutdown_whole {s t : State} (hs : Kept s) (hi : Whole s) (h : step s .shutdown = some t) : Whole t := by
  obtain ⟨-, -, es, hrun, hlog, hprom⟩ := step_iff.mp h
  rw [show s.promised ++ Call.promises s.conn .shutdown = s.promised from List.append_nil _] at hprom
  simp only [Call.run, Except.ok.injEq, Prod.mk.injEq, TcpConn.shutdown] at hrun
  obtain ⟨hconn, hes, hnext⟩ := hrun
  by_cases hst : s.conn.state = .connected
  · have hlive := hs.watched.live (.inl hst)
    have hno : Effect.shutdownWrite ∉ s.log := fun hm => by
      rcases (hi.half hm).down with hd | hd <;> cases hst.symm.trans hd
    rw [if_pos hst] at hconn hes
    rw [TcpConn.shutdownInLoop_eq] at hes
    have hout : t.conn.outputBuf = s.conn.outputBuf := by rw [← hconn]
    have hch : t.conn.ch = s.conn.ch := by rw [← hconn]
    by_cases hwr : s.conn.ch.isWriting = true
    · rw [if_pos hwr] at hes
      rw [← hes, List.append_nil] at hlog
      refine ⟨by rw [hlog, hout, hprom]; exact hi.stream, fun hm => absurd (hlog ▸ hm) hno⟩
    · rw [if_neg hwr] at hes
      rw [← hes] at hlog
      have hnil : s.conn.outputBuf.readable = [] := by
        by_contra hne
        exact hwr (hlive.2.mpr hne)
      have hall : accepted s.log = s.promised := by
        rw [← hi.stream, hnil, List.append_nil]
      refine ⟨?_, fun _ => ⟨.inl (by rw [← hconn]), by rw [hch]; simpa using hwr, by rw [← hnext]; simp, ?_⟩⟩
      · rw [hlog, hout, hprom]
        exact (congrArg (· ++ s.conn.outputBuf.readable) (accepted_shutdownWrite s.log)).trans hi.stream
      · exact ⟨s.log, [], hlog, hno, List.forall_mem_nil _, hall.trans hprom.symm⟩
  · rw [if_neg hst] at hconn hes
    exact hi.same hconn.symm (by rw [hlog, ← hes, List.append_nil]) hprom hnext.symm

theorem flush_whole {s t : State} {w : WriteResult} (hs : Kept s) (hi : Whole s)
    (h : step s (.flush w) = some t) : Whole t := by
  obtain ⟨-, -, es, hrun, hlog, hprom⟩ := step_iff.mp h
  rw [show s.promised ++ Call.promises s.conn (.flush w) = s.promised from List.append_nil _] at hprom
  obtain ⟨⟨c, es', drained⟩, hflush, hrun⟩ := bind_ok.mp hrun
  simp only [pure, Except.pure, Except.ok.injEq, Prod.mk.injEq] at hrun
  obtain ⟨rfl, rfl, hnext⟩ := hrun
  obtain ⟨-, -, hstream, -, hno, -, -⟩ := TcpConn.flush_ok hs.watched.wf hflush
  refine ⟨by rw [hlog, accepted_append, List.append_assoc, hstream, hi.stream, hprom], fun hm => ?_⟩
  rw [hlog] at hm
  have hhalf := hi.half ((List.mem_append.mp hm).resolve_right hno)
  -- Write interest is gone for good, so nothing is written.
  rw [TcpConn.flush_idle w hhalf.idle] at hflush
  simp only [Except.ok.injEq, Prod.mk.injEq] at hflush
  obtain ⟨hconn, hes, hdrained⟩ := hflush
  refine hhalf.more (by rw [← hconn]; exact hhalf.down) (by rw [← hconn]; exact hhalf.idle) ?_ hlog
    (by rw [← hes]; exact List.forall_mem_nil _) hprom
  rw [← hnext, ← hdrained]
  nofun

theorem finishWrite_whole {s t : State} (hs : Kept s) (hi : Whole s) (h : step s .finishWrite = some t) : Whole t := by
  obtain ⟨hready, -, es, hrun, hlog, hprom⟩ := step_iff.mp h
  rw [show s.promised ++ Call.promises s.conn .finishWrite = s.promised from List.append_nil _] at hprom
  have hmid : s.next = some .finishWrite := hready.next rfl
  obtain ⟨hwr, hnil⟩ := hs.drained hmid
  have hno : Effect.shutdownWrite ∉ s.log := fun hm => (hi.half hm).through hmid
  have hall : accepted s.log = s.promised := by
    rw [← hi.stream, hnil, List.append_nil]
  simp only [Call.run, Except.ok.injEq, Prod.mk.injEq] at hrun
  obtain ⟨hconn, hes, hnext⟩ := hrun
  rw [TcpConn.finishWrite_eq fun _ => hwr] at hes
  by_cases hst : s.conn.state = .disconnenting
  · rw [if_pos ⟨rfl, hst⟩] at hes
    rw [← hes] at hlog
    refine ⟨?_, fun _ => ⟨.inl (by rw [← hconn]; exact hst), by rw [← hconn]; exact hwr, by rw [← hnext]; simp, ?_⟩⟩
    · rw [hlog, accepted_shutdownWrite, ← hconn, hprom]
      exact hi.stream
    · exact ⟨s.log, [], hlog, hno, List.forall_mem_nil _, hall.trans hprom.symm⟩
  · rw [if_neg fun hd => hst hd.2] at hes
    exact hi.same hconn.symm (by rw [hlog, ← hes, List.append_nil]) hprom hnext.symm

theorem step_whole {s t : State} {k : Call} (hs : Kept s) (hi : Whole s) (h : step s k = some t)
    (hf : NoFault t.log) : Whole t := by
  cases k with
  | send data w => exact send_whole hs hi h hf
  | shutdown => exact shutdown_whole hs hi h
  | flush w => exact flush_whole hs hi h
  | finishWrite => exact finishWrite_whole hs hi h
  | establish | readable | close | destroy | removeChan => exact calm_whole hs hi rfl h

/-! ### Any sequence of calls -/

theorem run_kept {c : TcpConn} {loop id mark : Nat} {cb : Callbacks} (hc : TcpConn.create loop id cb mark = .ok c)
    {tr : List Call} {s : State} (h : exec step (start c) tr = some s) : Kept s :=
  exec_preserves (fun _ _ _ => step_kept) (start_kept hc) h

theorem run_whole {c : TcpConn} {loop id mark : Nat} {cb : Callbacks} (hc : TcpConn.create loop id cb mark = .ok c)
    {tr : List Call} {s : State} (h : exec step (start c) tr = some s) (hf : NoFault s.log) : Whole s := by
  refine run_induction (fun _ s => NoFault s.log → Whole s) (fun _ => start_whole hc) ?_ h hf
  intro tr s k t hs ih hk hf
  obtain ⟨-, -, es, -, hlog, -⟩ := step_iff.mp hk
  rw [hlog] at hf
  exact step_whole (run_kept hc hs) (ih hf.of_append.1) hk (hlog ▸ hf)

/-- The half-close comes once, when all that was promised is written, and before the socket
is left alone. -/
theorem Whole.half_close {s : State} (hi : Whole s) : s.log.count .shutdownWrite ≤ 1 ∧
    ∀ front back, s.log = front ++ .shutdownWrite :: back →
      accepted front = s.promised ∧ ∀ e ∈ back, e.isWrite = false := by
  by_cases hm : Effect.shutdownWrite ∈ s.log
  · obtain ⟨f, b, hlog, hf, hb, hall⟩ := (hi.half hm).split
    have hb' : Effect.shutdownWrite ∉ b := not_mem_quiet hb
    refine ⟨?_, fun front back he => ?_⟩
    · rw [hlog, List.count_append, List.count_cons_self, List.count_eq_zero.mpr hf, List.count_eq_zero.mpr hb']
    · rw [hlog] at he
      obtain ⟨rfl, -, rfl⟩ := (List.append_cons_inj_of_notMem hf hb').mp he
      exact ⟨hall, fun e he => Backlog.isWrite_of_quiet (hb e he)⟩
  · refine ⟨by rw [List.count_eq_zero.mpr hm]; exact Nat.zero_le _, fun front back he => ?_⟩
    exact absurd (he ▸ List.mem_append_right front List.mem_cons_self) hm

end Served

end Caimr.Net
