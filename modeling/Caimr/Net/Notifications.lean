import Mathlib.Data.List.Count
import Caimr.Lib.Transition
import Caimr.Net.ConnLife
import Caimr.Net.Stream

/-! What a user is told about the bytes a connection sends. The write-complete callback is queued
where a `::write` has handed over all there was, the high-water-mark callback where a
`send_in_loop` carries the backlog over the mark, and neither anywhere else. -/
namespace Caimr.Net
open Transition

/-- The lengths that are queued with `high_water_mark_callback_`. -/
def highWaterMarks (log : List Effect) : List Nat :=
  log.filterMap fun
    | .queueHighWaterMark len => some len
    | _ => none

/-- How often `write_complete_callback_` is queued. -/
def writeCompletes (log : List Effect) : Nat := log.count .queueWriteComplete

@[simp] theorem highWaterMarks_append (a b : List Effect) :
    highWaterMarks (a ++ b) = highWaterMarks a ++ highWaterMarks b := List.filterMap_append

@[simp] theorem writeCompletes_append (a b : List Effect) :
    writeCompletes (a ++ b) = writeCompletes a + writeCompletes b := List.count_append

/-- The effects that have nothing to do with what is sent. -/
def Effect.tellsNothing : Effect → Bool
  | .write .. | .queueWriteComplete | .queueHighWaterMark _ => false
  | .shutdownWrite | .connCallback | .msgCallback | .closeCallback | .removeChan => true

theorem nothing_told {es : List Effect} (h : ∀ e ∈ es, e.tellsNothing = true) :
    accepted es = [] ∧ writeCompletes es = 0 ∧ highWaterMarks es = [] := by
  refine ⟨?_, ?_, ?_⟩
  · refine List.flatMap_eq_nil_iff.mpr fun e he => ?_
    have hquiet := h e he
    cases e <;> first | rfl | cases hquiet
  · exact List.count_eq_zero.mpr fun he => by cases h _ he
  · refine List.filterMap_eq_nil_iff.mpr fun e he => ?_
    have hquiet := h e he
    cases e <;> first | rfl | cases hquiet

namespace TcpConn

/-! ### One function -/

/-- A function that is called with `data` to send has told the user what it should. -/
structure Tells (c c' : TcpConn) (data : Bytes) (es : List Effect) : Prop where
  /-- A write was successful, and after it nothing was left, neither of the buffer nor of the data. -/
  complete : writeCompletes es =
    if accepted es ≠ [] ∧ accepted es = c.outputBuf.readable ++ data then 1 else 0
  /-- The backlog has come from below the mark to the mark or above. -/
  crossed : highWaterMarks es =
    if c.outputBuf.readableBytes < c.highWaterMark ∧ c.highWaterMark ≤ c'.outputBuf.readableBytes
      then [c'.outputBuf.readableBytes] else []
  /-- Only data to send makes the backlog grow. -/
  grown : c.outputBuf.readableBytes < c'.outputBuf.readableBytes → data ≠ []

/-- Effects that tell the user nothing, over an unchanged backlog. -/
theorem tells_quiet {c c' : TcpConn} {es : List Effect} (hbuf : c'.outputBuf = c.outputBuf)
    (h : ∀ e ∈ es, e.tellsNothing = true) : Tells c c' [] es := by
  obtain ⟨haccepted, hcomplete, hmarks⟩ := nothing_told h
  refine ⟨?_, ?_, ?_⟩
  · rw [hcomplete, haccepted, if_neg fun h => h.1 rfl]
  · rw [hmarks, hbuf, if_neg (by omega)]
  · rw [hbuf]
    exact fun h => absurd h (Nat.lt_irrefl _)

section Functions
variable {c c' : TcpConn} {data : Bytes} {w : WriteResult} {es : List Effect}

/-- What is kept is not yet sent, and may carry the backlog over the mark. -/
theorem keepRemaining_tells (hwf : c.outputBuf.Wf) (hcb : c.callbacks.highWaterMark = true)
    (h : c.keepRemaining data = .ok (c', es)) :
    accepted es = [] ∧ writeCompletes es = 0 ∧
      highWaterMarks es =
        if c.outputBuf.readableBytes < c.highWaterMark ∧ c.highWaterMark ≤ c'.outputBuf.readableBytes
          then [c'.outputBuf.readableBytes] else [] := by
  obtain ⟨b, hb, h⟩ := bind_ok.mp h
  obtain ⟨hwf', hread⟩ := Buffer.append_ok hwf hb
  have hcount : b.readableBytes = c.outputBuf.readableBytes + data.length := by
    rw [← Buffer.length_readable hwf', hread, List.length_append, Buffer.length_readable hwf]
  have hsmall : b.readableBytes ≤ b.buf.length := by
    rw [Buffer.readableBytes_eq hwf']
    exact Nat.le_trans (Nat.sub_le ..) hwf'.inside
  have hsum : sizeAdd c.outputBuf.readableBytes data.length = b.readableBytes := by
    have hlt := hwf'.index_lt
    rw [hcount]
    exact sizeAdd_eq (by omega)
  cases h
  simp only [hsum, hcb, and_true]
  by_cases hcross : c.highWaterMark ≤ b.readableBytes ∧ c.outputBuf.readableBytes < c.highWaterMark
  · rw [if_pos hcross, if_pos ⟨hcross.2, hcross.1⟩]
    exact ⟨rfl, rfl, rfl⟩
  · rw [if_neg hcross, if_neg fun h => hcross ⟨h.2, h.1⟩]
    exact ⟨rfl, rfl, rfl⟩

/-- Something is kept, after a `::write` or without one. -/
theorem kept_tells {rest : Bytes} {front kept : List Effect} (hwf : c.outputBuf.Wf)
    (hcb : c.callbacks.highWaterMark = true) (h : c.keepRemaining rest = .ok (c', kept))
    (hcomplete : writeCompletes front = 0) (hmarks : highWaterMarks front = [])
    (hdata : data ≠ []) (hless : accepted front ≠ c.outputBuf.readable ++ data) :
    Tells c c' data (front ++ kept) := by
  obtain ⟨hquiet, hnone, hcross⟩ := keepRemaining_tells hwf hcb h
  refine ⟨?_, ?_, fun _ => hdata⟩
  · rw [writeCompletes_append, hcomplete, hnone, accepted_append, hquiet, List.append_nil, if_neg fun h => hless h.2]
  · rw [highWaterMarks_append, hmarks, hcross, List.nil_append]

theorem sendInLoop_wf (hwf : c.outputBuf.Wf) (h : c.sendInLoop data w = .ok (c', es)) : c'.outputBuf.Wf := by
  obtain ⟨-, rfl, -⟩ | ⟨-, -, rfl, -⟩ | ⟨later, -, -, -, hk, -⟩ := sendInLoop_cases h
  · exact hwf
  · exact hwf
  · exact (keepRemaining_ok hwf hk).2.1

theorem sendInLoop_tells (hwf : c.outputBuf.Wf) (hwrite : c.callbacks.writeComplete = true)
    (hmark : c.callbacks.highWaterMark = true) (hs : c.state ≠ .disconnected) (hdata : data ≠ [])
    (h : c.sendInLoop data w = .ok (c', es)) : Tells c c' data es := by
  rw [sendInLoop, if_neg hs, writeLater, writeNow] at h
  have hlen : 0 < data.length := List.length_pos_iff.mpr hdata
  by_cases hidle : (!c.ch.isWriting && c.outputBuf.readableBytes == 0) = true
  · rw [if_pos hidle, directWrite] at h
    simp only [Bool.and_eq_true, Bool.not_eq_true', beq_iff_eq] at hidle
    have hnil : c.outputBuf.readable = [] := by
      rw [← List.length_eq_zero_iff, Buffer.length_readable hwf, hidle.2]
    cases hr : w.returned data.length with
    | ok n =>
      have htaken := WriteResult.taken_of_ok hr
      have hle := WriteResult.returned_le hr
      rw [hr] at h
      by_cases hall : data.length - n = 0
      · -- The kernel has taken it all.
        have hdone : accepted [.write true data w, .queueWriteComplete] = data := by
          simp only [accepted_cons, Effect.taken, htaken, accepted_nil, List.append_nil]
          exact List.take_of_length_le (by omega)
        simp only [hall, hwrite, Nat.lt_irrefl, decide_false, Bool.and_false, Bool.false_eq_true, if_false, and_self,
          if_true, Except.ok.injEq, Prod.mk.injEq] at h
        obtain ⟨rfl, rfl⟩ := h
        refine ⟨?_, ?_, fun _ => hdata⟩
        · rw [hdone, hnil, List.nil_append, if_pos ⟨hdata, rfl⟩]
          rfl
        · rw [if_neg (by omega)]
          rfl
      · have hmore : (!false && decide (0 < data.length - n)) = true := by simpa using Nat.pos_of_ne_zero hall
        dsimp only at h
        rw [if_pos hmore, if_neg fun h => hall h.1] at h
        obtain ⟨⟨c₁, kept⟩, hk, hret⟩ := bind_ok.mp h
        cases hret
        apply kept_tells hwf hmark hk rfl rfl hdata
        rw [accepted_cons, Effect.taken, htaken, accepted_nil, List.append_nil, hnil, List.nil_append]
        intro hwhole
        have hlen' := congrArg List.length hwhole
        rw [List.length_take] at hlen'
        omega
    | error e =>
      have hnone : accepted [.write true data w] = [] := by
        rw [accepted_cons, Effect.taken, WriteResult.taken_of_error hr, accepted_nil, List.append_nil]
      rw [hr] at h
      dsimp only at h
      cases hfault : isFault e with
      | true =>
        -- The data is dropped.
        rw [if_neg (by simp [hfault])] at h
        cases h
        refine ⟨?_, ?_, fun _ => hdata⟩
        · rw [hnone, if_neg fun h => h.1 rfl]
          rfl
        · rw [if_neg (by omega)]
          rfl
      | false =>
        rw [if_pos (by simpa [hfault] using hlen)] at h
        obtain ⟨⟨c₁, kept⟩, hk, hret⟩ := bind_ok.mp h
        cases hret
        apply kept_tells hwf hmark hk rfl rfl hdata
        rw [hnone, hnil, List.nil_append]
        exact hdata.symm
  · rw [if_neg hidle, if_pos (by simpa using hlen)] at h
    obtain ⟨⟨c₁, kept⟩, hk, hret⟩ := bind_ok.mp h
    cases hret
    apply kept_tells hwf hmark hk rfl rfl hdata
    intro hnil
    exact hdata (List.append_eq_nil_iff.mp hnil.symm).2

/-- A write from the buffer that leaves something there, or has done nothing. -/
theorem write_tells (hle : c'.outputBuf.readableBytes ≤ c.outputBuf.readableBytes)
    (hless : w.taken c.outputBuf.readable = [] ∨ w.taken c.outputBuf.readable ≠ c.outputBuf.readable) :
    Tells c c' [] [.write false c.outputBuf.readable w] := by
  refine ⟨?_, ?_, fun h => absurd hle (Nat.not_le.mpr h)⟩
  · rw [accepted_cons, Effect.taken, accepted_nil, List.append_nil, List.append_nil,
      if_neg fun h => hless.elim h.1 fun hne => hne h.2]
    rfl
  · rw [if_neg (by omega)]
    rfl

theorem flush_tells {drained : Bool} (hwf : c.outputBuf.Wf) (hwrite : c.callbacks.writeComplete = true)
    (h : c.flush w = .ok (c', es, drained)) : Tells c c' [] es := by
  by_cases hw : ¬ c.ch.isWriting = true
  · rw [flush_idle w (by simpa using hw)] at h
    cases h
    exact tells_quiet rfl nofun
  rw [Decidable.not_not] at hw
  have hcount : ∀ n, (c.outputBuf.retrieve n).readableBytes = c.outputBuf.readable.length - n := by
    intro n
    rw [← Buffer.length_readable (Buffer.retrieve_wf hwf n), Buffer.retrieve_readable hwf, List.length_drop]
  have hbefore := Buffer.length_readable hwf
  obtain ⟨rfl, rfl, -, htaken⟩ | ⟨n, hn, htaken, hmore, rfl, rfl, -⟩ | ⟨n, hn, hle, htaken, hdone, rfl, rfl, -⟩ :=
    flush_taken hwf hw h
  · exact write_tells (Nat.le_refl _) (.inl htaken)
  · rw [hcount] at hmore
    refine write_tells (by dsimp only; rw [hcount]; omega) (.inr fun hall => ?_)
    have hlen := congrArg List.length hall
    rw [htaken, List.length_take] at hlen
    omega
  · -- The last of what was buffered.
    rw [hcount] at hdone
    have hall : w.taken c.outputBuf.readable = c.outputBuf.readable := by
      rw [htaken]
      exact List.take_of_length_le (by omega)
    have hsome : c.outputBuf.readable ≠ [] := List.ne_nil_of_length_pos (by omega)
    refine ⟨?_, ?_, fun h => absurd h (by dsimp only; rw [hcount]; omega)⟩
    · rw [if_pos hwrite]
      simp only [accepted_cons, Effect.taken, hall, accepted_nil, List.append_nil]
      rw [if_pos ⟨hsome, trivial⟩]
      rfl
    · dsimp only
      rw [hcount, if_pos hwrite, if_neg (by omega)]
      rfl

theorem shutdownInLoop_quiet (c : TcpConn) : ∀ e ∈ c.shutdownInLoop, e.tellsNothing = true := by
  intro e he
  rw [shutdownInLoop_eq] at he
  split at he
  · cases he
  · rw [List.mem_singleton.mp he]
    rfl

theorem handleWrite_tells (hwf : c.outputBuf.Wf) (hwrite : c.callbacks.writeComplete = true)
    (h : c.handleWrite w = .ok (c', es)) : Tells c c' [] es := by
  obtain ⟨front, drained, hflush, rfl⟩ := handleWrite_ok h
  obtain ⟨hcomplete, hcross, hgrown⟩ := flush_tells hwf hwrite hflush
  have hend : ∀ e ∈ c'.finishWrite drained, e.tellsNothing = true := by
    unfold finishWrite
    split
    · exact shutdownInLoop_quiet c'
    · nofun
  obtain ⟨haccepted, hnone, hmarks⟩ := nothing_told hend
  refine ⟨?_, ?_, hgrown⟩
  · rw [accepted_append, writeCompletes_append, haccepted, hnone, List.append_nil, Nat.add_zero, hcomplete]
  · rw [highWaterMarks_append, hmarks, List.append_nil, hcross]

theorem shutdown_tells (c : TcpConn) : Tells c c.shutdown.1 [] c.shutdown.2 := by
  unfold shutdown
  split
  · exact tells_quiet rfl (shutdownInLoop_quiet _)
  · exact tells_quiet rfl nofun

theorem establishConn_tells (c : TcpConn) : Tells c c.establishConn.1 [] c.establishConn.2 := by
  refine tells_quiet rfl fun e he => ?_
  simp only [establishConn] at he
  split at he
  · rw [List.mem_singleton.mp he]
    rfl
  · cases he

theorem handleClose_tells (c : TcpConn) : Tells c c.handleClose.1 [] c.handleClose.2 := by
  refine tells_quiet rfl fun e he => ?_
  rcases List.mem_append.mp he with he | he <;> split at he
  · rw [List.mem_singleton.mp he]
    rfl
  · cases he
  · rw [List.mem_singleton.mp he]
    rfl
  · cases he

theorem handleRead_tells {r : ReadResult} (h : c.handleRead r = .ok (c', es)) : Tells c c' [] es := by
  obtain ⟨⟨b, answer⟩, -, hret⟩ := bind_ok.mp h
  dsimp only at hret
  split at hret
  · split at hret
    · cases hret
      refine tells_quiet rfl fun e he => ?_
      split at he
      · rw [List.mem_singleton.mp he]
        rfl
      · cases he
    · cases hret
      obtain ⟨hcomplete, hcross, hgrown⟩ := handleClose_tells {c with inputBuf := b}
      exact ⟨hcomplete, hcross, hgrown⟩
  · cases hret
    exact tells_quiet rfl nofun

end Functions

end TcpConn

/-! ### Whole runs -/

namespace Notifications

/-- What reaches a connection on its loop's thread, with the kernel's answers. -/
inductive Call where
  | sendInLoop (data : Bytes) (w : WriteResult)
  | handleWrite (w : WriteResult)
  | establishConn
  | shutdown
  | handleRead (r : ReadResult)
  | handleClose
deriving DecidableEq, Repr

def Call.run (c : TcpConn) : Call → Except Fault (TcpConn × List Effect)
  | .sendInLoop data w => c.sendInLoop data w
  | .handleWrite w => c.handleWrite w
  | .establishConn => .ok c.establishConn
  | .shutdown => .ok c.shutdown
  | .handleRead r => c.handleRead r
  | .handleClose => .ok c.handleClose

/-- The data that a call brings. -/
def Call.data : Call → Bytes
  | .sendInLoop data _ => data
  | _ => []

/-- Something is sent, and not on a connection that is closed. -/
def Call.Allowed (c : TcpConn) : Call → Prop
  | .sendInLoop data _ => data ≠ [] ∧ c.state ≠ .disconnected
  | _ => True

instance (c : TcpConn) (l : Call) : Decidable (l.Allowed c) := by
  unfold Call.Allowed
  split <;> infer_instance

def step (c : TcpConn) (l : Call) : Option TcpConn :=
  if l.Allowed c then
    match l.run c with
    | .ok (c', _) => some c'
    | .error _ => none
  else none

/-- What is done on the way. -/
def effects (c : TcpConn) (l : Call) : List Effect :=
  match l.run c with
  | .ok (_, es) => es
  | .error _ => []

/-- The call has told the user what it should. -/
def Exact (c : TcpConn) (l : Call) : Prop := ∀ c', step c l = some c' → c.Tells c' l.data (effects c l)

theorem step_some {c c' : TcpConn} {l : Call} (h : step c l = some c') :
    l.Allowed c ∧ l.run c = .ok (c', effects c l) := by
  unfold step at h
  split at h
  · rename_i hallowed
    unfold effects
    split at h <;> cases h
    rename_i hrun
    rw [hrun]
    exact ⟨hallowed, rfl⟩
  · cases h

/-- What every call leaves as it is, or as it should be. -/
structure Inv (mark : Nat) (c : TcpConn) : Prop where
  wf : c.outputBuf.Wf
  writeComplete : c.callbacks.writeComplete = true
  highWaterMark : c.callbacks.highWaterMark = true
  mark : c.highWaterMark = mark

theorem step_inv {mark : Nat} {c c' : TcpConn} {l : Call} (inv : Inv mark c) (h : step c l = some c') :
    Inv mark c' := by
  obtain ⟨hallowed, hrun⟩ := step_some h
  cases l with
  | sendInLoop data w =>
    have hwf := TcpConn.sendInLoop_wf inv.wf hrun
    rw [TcpConn.sendInLoop_frame hrun]
    exact ⟨hwf, inv.writeComplete, inv.highWaterMark, inv.mark⟩
  | handleWrite w =>
    obtain ⟨front, drained, hflush, -⟩ := TcpConn.handleWrite_ok hrun
    have hwf := (TcpConn.flush_ok inv.wf hflush).2.1
    rw [TcpConn.flush_frame hflush]
    exact ⟨hwf, inv.writeComplete, inv.highWaterMark, inv.mark⟩
  | establishConn =>
    cases hrun
    exact ⟨inv.wf, inv.writeComplete, inv.highWaterMark, inv.mark⟩
  | shutdown =>
    have hshut : c.shutdown.1 = c' := congrArg Prod.fst (Except.ok.inj hrun)
    rw [← hshut]
    unfold TcpConn.shutdown
    split <;> exact ⟨inv.wf, inv.writeComplete, inv.highWaterMark, inv.mark⟩
  | handleRead r =>
    by_cases hr : r.IsEof
    · obtain ⟨b, hb⟩ := TcpConn.handleRead_eof hr hrun
      have hclosed : c' = ({c with inputBuf := b}.handleClose).1 := congrArg Prod.fst hb
      rw [hclosed]
      exact ⟨inv.wf, inv.writeComplete, inv.highWaterMark, inv.mark⟩
    · rw [TcpConn.handleRead_more hr hrun]
      exact ⟨inv.wf, inv.writeComplete, inv.highWaterMark, inv.mark⟩
  | handleClose =>
    cases hrun
    exact ⟨inv.wf, inv.writeComplete, inv.highWaterMark, inv.mark⟩

theorem step_exact {mark : Nat} {c : TcpConn} (inv : Inv mark c) (l : Call) : Exact c l := by
  intro c' h
  obtain ⟨hallowed, hrun⟩ := step_some h
  cases l with
  | sendInLoop data w =>
    exact TcpConn.sendInLoop_tells inv.wf inv.writeComplete inv.highWaterMark hallowed.2 hallowed.1 hrun
  | handleWrite w => exact TcpConn.handleWrite_tells inv.wf inv.writeComplete hrun
  | establishConn =>
    have htells := TcpConn.establishConn_tells c
    rw [Except.ok.inj hrun] at htells
    exact htells
  | shutdown =>
    have htells := TcpConn.shutdown_tells c
    rw [Except.ok.inj hrun] at htells
    exact htells
  | handleRead r => exact TcpConn.handleRead_tells hrun
  | handleClose =>
    have htells := TcpConn.handleClose_tells c
    rw [Except.ok.inj hrun] at htells
    exact htells

theorem create_inv {c : TcpConn} {loop id mark : Nat} {cb : Callbacks} (hc : TcpConn.create loop id cb mark = .ok c)
    (hwrite : cb.writeComplete = true) (hmark : cb.highWaterMark = true) : Inv mark c := by
  obtain ⟨b, hb, hwf, -, -, -⟩ := Buffer.create_spec initialSize (by decide)
  simp only [TcpConn.create, hb, bind, Except.bind, pure, Except.pure, Except.ok.injEq] at hc
  subst hc
  exact ⟨hwf, hwrite, hmark, rfl⟩

/-- The mark was reached, and later it is crossed: in between the backlog was below it. -/
theorem fell_between {mark : Nat} {s t v x : TcpConn} {l m : Call} (hs : Inv mark s) (hv : Inv mark v)
    (hl : step s l = some t) (hm : step v m = some x) (hfirst : highWaterMarks (effects s l) ≠ [])
    (hnext : highWaterMarks (effects v m) ≠ []) :
    mark ≤ t.outputBuf.readableBytes ∧ v.outputBuf.readableBytes < mark := by
  have hcrossed := (step_exact hs l t hl).crossed
  have hcrosses := (step_exact hv m x hm).crossed
  rw [hs.mark] at hcrossed
  rw [hv.mark] at hcrosses
  constructor
  · by_contra hbelow
    rw [if_neg fun h => hbelow h.2] at hcrossed
    exact hfirst hcrossed
  · by_contra habove
    rw [if_neg fun h => habove h.1] at hcrosses
    exact hnext hcrosses

/-- **Notifications are exact.** Every call on a connection with both callbacks, in every run, queues a
write-complete callback once if its `::write` was successful and left nothing unsent, and else not;
and the high-water-mark callback once, with the new length, if it has carried the backlog over
the mark, and else not. Between two of the latter the backlog was below the mark. -/
theorem notifications_exact {c : TcpConn} {loop id mark : Nat} {cb : Callbacks}
    (hc : TcpConn.create loop id cb mark = .ok c) (hwrite : cb.writeComplete = true) (hmark : cb.highWaterMark = true)
    {tr : List Call} {u : TcpConn} (h : exec step c tr = some u) :
    Along step Exact c tr ∧
    ∀ a l b m d s t v, tr = a ++ l :: (b ++ m :: d) → exec step c a = some s → step s l = some t →
      exec step t b = some v → highWaterMarks (effects s l) ≠ [] → highWaterMarks (effects v m) ≠ [] →
      mark ≤ t.outputBuf.readableBytes ∧ v.outputBuf.readableBytes < mark := by
  have hrun : ∀ a s, exec step c a = some s → Inv mark s := fun a s ha =>
    exec_preserves (fun _ _ _ inv hs => step_inv inv hs) (create_inv hc hwrite hmark) ha
  refine ⟨fun a l b s _ ha => step_exact (hrun a s ha) l, ?_⟩
  rintro a l b m d s t v rfl ha hl hb hfirst hnext
  have hmid : exec step c (a ++ l :: b) = some v := exec_split.mpr ⟨s, ha, exec_cons_some.mpr ⟨t, hl, hb⟩⟩
  have hwhole : exec step c ((a ++ l :: b) ++ m :: d) = some u := by
    rw [List.append_assoc]
    exact h
  obtain ⟨v', x, hv', hx, -⟩ := exec_at hwhole
  cases hmid.symm.trans hv'
  exact fell_between (hrun a s ha) (hrun _ v hmid) hl hx hfirst hnext

/-- A backlog that reaches the mark of 4, is written, and reaches it again. -/
theorem notifications_exact_twice : ∃ c u,
    TcpConn.create 0 1 ⟨true, true, true, true, true⟩ 4 = .ok c ∧
      exec step c [.establishConn, .sendInLoop [1, 2, 3] (.accepts 1), .sendInLoop [4, 5] (.accepts 0),
        .handleWrite (.accepts 3), .sendInLoop [6, 7, 8] (.accepts 0), .handleWrite (.accepts 9)] = some u ∧
      Along step Exact c [.establishConn, .sendInLoop [1, 2, 3] (.accepts 1), .sendInLoop [4, 5] (.accepts 0),
        .handleWrite (.accepts 3), .sendInLoop [6, 7, 8] (.accepts 0), .handleWrite (.accepts 9)] := by
  refine ⟨_, _, rfl, (Option.some_get (by decide +kernel)).symm, ?_⟩
  exact (notifications_exact rfl rfl rfl (Option.some_get (by decide +kernel)).symm).1

end Notifications

end Caimr.Net
