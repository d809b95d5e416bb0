import Caimr.Net.Served

/-! How a backlog goes out. Every time epoll finds the socket writable and the kernel takes
something, the output buffer shrinks; so as many write events as there are bytes are enough,
and a half-close that waited for them follows. -/
namespace Caimr.Net

namespace Served
open Transition

/-- The calls on a connection that is left to drain: nothing is sent, nothing closes it, and
each `::write` takes at least a byte. -/
def Call.Drains : Call → Prop
  | .flush (.accepts n) => 0 < n
  | .readable r => ¬ r.IsEof
  | .shutdown | .finishWrite => True
  | .flush (.fails _) | .establish | .send .. | .close | .destroy | .removeChan => False

instance : (k : Call) → Decidable k.Drains
  | .flush (.accepts n) => inferInstanceAs (Decidable (0 < n))
  | .readable r => inferInstanceAs (Decidable (¬ r.IsEof))
  | .shutdown | .finishWrite => .isTrue trivial
  | .flush (.fails _) | .establish | .send .. | .close | .destroy | .removeChan => .isFalse id

def Call.isFlush : Call → Bool
  | .flush _ => true
  | _ => false

/-- The connection is up, or shutting down. -/
def Open (c : TcpConn) : Prop := c.state = .connected ∨ c.state = .disconnenting

instance (c : TcpConn) : Decidable (Open c) := inferInstanceAs (Decidable (_ ∨ _))

/-- The bytes that wait. -/
def waiting (c : TcpConn) : Nat := c.outputBuf.readable.length

variable {c c' : TcpConn} {s t : State} {k : Call} {es : List Effect} {next : Option Call}

/-- A write that takes something shortens what waits. -/
theorem flush_shrinks {n : Nat} {drained : Bool} (hw : c.Watched) (ho : Open c) (hn : 0 < n)
    (h : c.flush (.accepts n) = .ok (c', es, drained)) : waiting c' ≤ waiting c - 1 := by
  by_cases hwr : c.ch.isWriting = true
  · have hmoves : ∀ m, 0 < m → (c.outputBuf.retrieve m).readable.length ≤ waiting c - 1 := by
      intro m hm
      rw [Buffer.retrieve_readable hw.wf, List.length_drop, waiting]
      omega
    obtain ⟨rfl, -, -, htaken⟩ | ⟨m, hm, -, -, rfl, -⟩ | ⟨m, hm, -, -, -, rfl, -⟩ := TcpConn.flush_taken hw.wf hwr h
    · have hnil : c'.outputBuf.readable = [] := by
        cases hb : c'.outputBuf.readable with
        | nil => rfl
        | cons byte rest =>
          obtain ⟨m, rfl⟩ := Nat.exists_eq_succ_of_ne_zero (Nat.ne_of_gt hn)
          rw [hb] at htaken
          cases htaken
      rw [waiting, hnil]
      exact Nat.zero_le _
    · exact hmoves m hm
    · exact hmoves m hm
  · have hnil : c.outputBuf.readable = [] := by
      by_contra hne
      exact hwr ((hw.live ho).2.mpr hne)
    rw [TcpConn.flush_idle _ (by simpa using hwr)] at h
    cases h
    rw [waiting, hnil]
    exact Nat.zero_le _

/-- One call on such a connection. -/
theorem run_drains (hw : c.Watched) (ho : Open c) (hd : k.Drains) (h : k.run c = .ok (c', es, next)) :
    Open c' ∧ waiting c' ≤ waiting c - k.isFlush.toNat := by
  cases k with
  | establish | send | close | destroy | removeChan => exact hd.elim
  | finishWrite =>
    cases h
    exact ⟨ho, Nat.le_refl _⟩
  | shutdown =>
    simp only [Call.run, Except.ok.injEq, Prod.mk.injEq, TcpConn.shutdown] at h
    rw [← h.1]
    split
    · exact ⟨.inr rfl, Nat.le_refl _⟩
    · exact ⟨ho, Nat.le_refl _⟩
  | readable r =>
    obtain ⟨_, hread, h⟩ := bind_ok.mp h
    cases h
    rw [TcpConn.handleRead_more hd hread]
    exact ⟨ho, Nat.le_refl _⟩
  | flush w =>
    obtain ⟨_, hflush, h⟩ := bind_ok.mp h
    cases h
    cases w with
    | fails e => exact hd.elim
    | accepts n =>
    refine ⟨?_, flush_shrinks hw ho hd hflush⟩
    rw [Open, TcpConn.flush_state hflush]
    exact ho

theorem drains_promises (hd : k.Drains) : k.promises c = [] := by
  cases k <;> first | rfl | exact hd.elim

theorem shutdownInLoop_noFault (c : TcpConn) : NoFault c.shutdownInLoop := by
  unfold TcpConn.shutdownInLoop
  split
  · exact List.forall_mem_singleton.mpr rfl
  · exact List.forall_mem_nil _

/-- None of these calls writes but from the buffer. -/
theorem drains_noFault (hw : c.Watched) (hf : k.Fits c) (hd : k.Drains) (h : k.run c = .ok (c', es, next)) :
    NoFault es := by
  cases k with
  | establish | send | close | destroy | removeChan => exact hd.elim
  | finishWrite =>
    cases h
    unfold TcpConn.finishWrite
    split
    · exact shutdownInLoop_noFault c
    · exact List.forall_mem_nil _
  | shutdown =>
    simp only [Call.run, Except.ok.injEq, Prod.mk.injEq, TcpConn.shutdown] at h
    rw [← h.2.1]
    split
    · exact shutdownInLoop_noFault _
    · exact List.forall_mem_nil _
  | readable r =>
    intro e he
    have hquiet := (run_calm rfl hf h).quiet e he
    cases e <;> first | rfl | cases hquiet
  | flush w =>
    obtain ⟨_, hflush, h⟩ := bind_ok.mp h
    cases h
    exact (TcpConn.flush_ok hw.wf hflush).2.2.2.1

/-- What is left of a run on which a connection drains. -/
theorem exec_drains {tr : List Call} (hk : Kept s) (ho : Open s.conn) (hf : NoFault s.log)
    (h : exec step s tr = some t) (hd : ∀ k ∈ tr, k.Drains) :
    Open t.conn ∧ NoFault t.log ∧ t.promised = s.promised ∧
      waiting t.conn ≤ waiting s.conn - tr.countP Call.isFlush := by
  induction tr generalizing s with
  | nil =>
    cases h
    exact ⟨ho, hf, rfl, Nat.le_refl _⟩
  | cons k tr ih =>
    obtain ⟨u, hstep, hrest⟩ := exec_cons_some.mp h
    have hdk := hd k List.mem_cons_self
    obtain ⟨-, hfits, es, hrun, hlog, hprom⟩ := step_iff.mp hstep
    obtain ⟨hou, hle⟩ := run_drains hk.watched ho hdk hrun
    have hfu : NoFault u.log := by
      rw [hlog]
      exact fun e he => (List.mem_append.mp he).elim (hf e) (drains_noFault hk.watched hfits hdk hrun e)
    obtain ⟨hot, hft, hpt, hlt⟩ := ih (step_kept hk hstep) hou hfu hrest
      fun k' hk' => hd k' (List.mem_cons_of_mem _ hk')
    rw [drains_promises hdk, List.append_nil] at hprom
    refine ⟨hot, hft, hpt.trans hprom, ?_⟩
    rw [List.countP_cons]
    cases hfl : k.isFlush with
    | true =>
      rw [hfl] at hle
      simp only [Bool.toNat_true] at hle
      simp only [if_true]
      omega
    | false =>
      rw [hfl] at hle
      simp only [Bool.toNat_false] at hle
      simp only [Bool.false_eq_true, if_false]
      omega

/-- **A backlog goes out.** Take an open connection in any state it can reach without a
failed write. If from there nothing more is sent, nothing closes it, each `::write` takes at
least one byte, and epoll finds it writable as often as bytes are waiting, then the kernel
has everything that was sent, write interest is gone, and the write side of a connection that
is shutting down has been shut down. -/
theorem backlog_drains {loop id mark : Nat} {cb : Callbacks} (hc : TcpConn.create loop id cb mark = .ok c)
    {tr₀ tr : List Call} (h₀ : exec step (start c) tr₀ = some s) (hf : NoFault s.log) (ho : Open s.conn)
    (h : exec step s tr = some t) (hd : ∀ k ∈ tr, k.Drains) (hn : waiting s.conn ≤ tr.countP Call.isFlush)
    (hend : t.next = none) : accepted t.log = s.promised ∧ t.conn.ch.isWriting = false ∧
      (t.conn.state = .disconnenting → .shutdownWrite ∈ t.log) := by
  obtain ⟨hot, hft, hpt, hle⟩ := exec_drains (run_kept hc h₀) ho hf h hd
  have hrun := exec_split.mpr ⟨s, h₀, h⟩
  have hk := run_kept hc hrun
  have hnil : t.conn.outputBuf.readable = [] := by
    rw [← List.length_eq_zero_iff]
    unfold waiting at hle hn
    omega
  have hidle : t.conn.ch.isWriting = false := by
    by_contra hwr
    exact (hk.watched.live hot).2.mp (Bool.not_eq_false _ ▸ hwr) hnil
  refine ⟨?_, hidle, fun hs => ?_⟩
  · have hstream := (run_whole hc hrun hft).stream
    rwa [hnil, List.append_nil, hpt] at hstream
  · rcases hk.due hs with hwr | hnext | hmem
    · rw [hidle] at hwr
      cases hwr
    · rw [hend] at hnext
      cases hnext
    · exact hmem

/-- Three bytes wait when the connection is shut down. -/
def shutDown : List Call := [.establish, .send [1, 2, 3, 4] (.accepts 1), .shutdown]

/-- It is written out in two parts. -/
def drained : List Call := [.flush (.accepts 1), .flush (.accepts 9), .finishWrite, .flush (.accepts 1)]

theorem shutDown_run : ∃ c s t, TcpConn.create 1 1 ⟨true, true, true, true, false⟩ 64 = .ok c ∧
    exec step (start c) shutDown = some s ∧ exec step s drained = some t ∧ NoFault s.log ∧ Open s.conn ∧
    waiting s.conn = 3 ∧ t.next = none ∧ t.conn.state = .disconnenting := by
  refine ⟨_, _, _, rfl, (Option.some_get (by decide +kernel)).symm, (Option.some_get (by decide +kernel)).symm, ?_⟩
  decide +kernel

theorem backlog_drains_shutDown : ∃ s t, exec step s drained = some t ∧ waiting s.conn = 3 ∧
    accepted t.log = s.promised ∧ .shutdownWrite ∈ t.log := by
  obtain ⟨c, s, t, hc, hs, ht, hf, ho, hn, hend, hst⟩ := shutDown_run
  have hall := backlog_drains hc hs hf ho ht (by decide) (by rw [hn]; decide) hend
  exact ⟨s, t, ht, hn, hall.1, hall.2.2 hst⟩

end Served

end Caimr.Net
