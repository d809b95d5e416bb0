import Mathlib.Data.Int.CardIntervalMod
import Caimr.Net.ServerLoops

/-! `net/eloop_tpool.cpp`: the threads of a server's loops, and the turns in which the loops
get its connections. -/
namespace Caimr.Net
open Transition

/-- A pool as it is to its user. Of a thread only its name is kept here. -/
structure EloopTpool where
  baseLoop : LoopId
  name : String
  started : Bool
  numThreads : Int
  nextIdx : Nat
  threads : List String
  loops : List LoopId
deriving DecidableEq, Repr

namespace EloopTpool

def create (baseLoop : LoopId) (name : String) : EloopTpool :=
  { baseLoop := baseLoop
    name := name
    started := false
    numThreads := 0
    nextIdx := 0
    threads := []
    loops := [] }

def setThreadNum (p : EloopTpool) (numThreads : Int) : EloopTpool := {p with numThreads := numThreads}

/-- `"%s%d"` of `name_.c_str()` and `i`: the name ends before its first NUL. -/
def threadName (name : String) (i : Nat) : String :=
  String.ofList (name.toList.takeWhile (·.toNat ≠ 0)) ++ toString i

/-- One turn of the loop in `start`. `loop` is what `start_loop` of the new thread returns. -/
def spawn (p : EloopTpool) (i : Nat) (loop : LoopId) : EloopTpool :=
  {p with threads := p.threads ++ [threadName p.name i], loops := p.loops ++ [loop]}

/-- `start`, where the thread `i` has the loop `startLoop i`, and the loops for which the
initial callback is called, if there is one. -/
def start (p : EloopTpool) (startLoop : Nat → LoopId) (cb : Bool) : EloopTpool × List LoopId :=
  let q := (List.range p.numThreads.toNat).foldl (fun q i => q.spawn i (startLoop i)) {p with started := true}
  (q, if cb then (List.range p.numThreads.toNat).map startLoop ++ if p.numThreads = 0 then [p.baseLoop] else []
    else [])

/-- `get_next_loop`; `loops_[next_idx_]` has to be there. -/
def getNextLoop (p : EloopTpool) : Option (LoopId × EloopTpool) :=
  if p.loops = [] then some (p.baseLoop, p)
  else p.loops[p.nextIdx]?.map fun l => (l, {p with nextIdx := (p.nextIdx + 1) % p.loops.length})

def getAllLoops (p : EloopTpool) : List LoopId := if p.loops = [] then [p.baseLoop] else p.loops

/-- The loops that `n` calls of `get_next_loop` return. -/
def nextLoops (p : EloopTpool) : Nat → Option (List LoopId)
  | 0 => some []
  | n + 1 => p.getNextLoop.bind fun (l, q) => (q.nextLoops n).map (l :: ·)

theorem foldl_spawn (p : EloopTpool) (startLoop : Nat → LoopId) (is : List Nat) :
    is.foldl (fun q i => q.spawn i (startLoop i)) p =
      {p with threads := p.threads ++ is.map (threadName p.name), loops := p.loops ++ is.map startLoop} := by
  induction is generalizing p with
  | nil => simp
  | cons i is ih =>
    rw [List.foldl_cons, ih]
    simp [spawn]

/-- A pool of `n` threads just started. -/
def startedPool (baseLoop : LoopId) (name : String) (n : Nat) (startLoop : Nat → LoopId) (cb : Bool) :
    EloopTpool × List LoopId :=
  ((create baseLoop name).setThreadNum n).start startLoop cb

section Started
variable (baseLoop : LoopId) (name : String) (n : Nat) (startLoop : Nat → LoopId) (cb : Bool)

theorem startedPool_eq : (startedPool baseLoop name n startLoop cb).1 =
    { baseLoop := baseLoop
      name := name
      started := true
      numThreads := n
      nextIdx := 0
      threads := (List.range n).map (threadName name)
      loops := (List.range n).map startLoop } := by
  simp only [startedPool, start, setThreadNum, create, Int.toNat_natCast, foldl_spawn, List.nil_append]

/-- The initial callback is called for the loops that the pool hands out, once each. -/
theorem startedPool_init : (startedPool baseLoop name n startLoop true).2 =
    (startedPool baseLoop name n startLoop true).1.getAllLoops := by
  rw [getAllLoops, startedPool_eq]
  simp only [startedPool, start, setThreadNum, create, Int.toNat_natCast, if_true]
  cases n with
  | zero => simp
  | succ n =>
    simp
    omega

end Started

/-! ### Turns -/

variable {p : EloopTpool}

/-- `next_idx_` is the index of a loop, if there are any. -/
def Valid (p : EloopTpool) : Prop := p.loops ≠ [] → p.nextIdx < p.loops.length

theorem getNextLoop_eq (h : p.Valid) : p.getNextLoop =
    some (p.loops.getD p.nextIdx p.baseLoop,
      if p.loops = [] then p else {p with nextIdx := (p.nextIdx + 1) % p.loops.length}) := by
  unfold getNextLoop
  split
  · rename_i hnil
    simp [hnil]
  · rename_i hne
    simp [List.getElem?_eq_getElem (h hne)]

/-- The loops come in turn, and `loops_[next_idx_]` is always there. -/
theorem nextLoops_eq (n : Nat) (h : p.Valid) : p.nextLoops n =
    some ((List.range n).map fun i => p.loops.getD ((p.nextIdx + i) % p.loops.length) p.baseLoop) := by
  induction n generalizing p with
  | zero => rfl
  | succ n ih =>
    rw [nextLoops, getNextLoop_eq h, List.range_succ_eq_map, List.map_cons, List.map_map]
    by_cases hnil : p.loops = []
    · rw [if_pos hnil]
      simp [ih h, hnil, Function.comp_def]
    · have hlen : 0 < p.loops.length := List.length_pos_iff.mpr hnil
      have hvalid : Valid {p with nextIdx := (p.nextIdx + 1) % p.loops.length} := fun _ => Nat.mod_lt _ hlen
      have hfirst : p.nextIdx % p.loops.length = p.nextIdx := Nat.mod_eq_of_lt (h hnil)
      have hrest : ∀ i, ((p.nextIdx + 1) % p.loops.length + i) % p.loops.length =
          (p.nextIdx + (i + 1)) % p.loops.length := by
        intro i
        rw [Nat.mod_add_mod]
        congr 1
        omega
      rw [if_neg hnil]
      simp [ih hvalid, hfirst, hrest, Function.comp_def]

theorem startedPool_valid (baseLoop : LoopId) (name : String) (k : Nat) (startLoop : Nat → LoopId) (cb : Bool) :
    (startedPool baseLoop name k startLoop cb).1.Valid := by
  intro hne
  rw [startedPool_eq] at hne ⊢
  exact List.length_pos_iff.mpr hne

/-- The loop that gets the connection `i`. -/
theorem turn_eq (baseLoop : LoopId) (startLoop : Nat → LoopId) (k i : Nat) :
    ((List.range k).map startLoop).getD (i % ((List.range k).map startLoop).length) baseLoop =
      if k = 0 then baseLoop else startLoop (i % k) := by
  split
  · rename_i hk
    simp [hk]
  · rename_i hk
    have hlt : i % k < k := Nat.mod_lt _ (Nat.pos_of_ne_zero hk)
    simp [List.getElem?_range hlt]

/-- **Loops get connections in turn.** In `n` calls of `get_next_loop` of a pool of `k`
threads the loop of each of them is returned `n / k` times, and once more if its turn has
come in the last round; a pool without threads returns the base loop every time. -/
theorem turns_fair (baseLoop : LoopId) (name : String) (k : Nat) (startLoop : Nat → LoopId)
    (hinj : ∀ i < k, ∀ j < k, startLoop i = startLoop j → i = j) (cb : Bool) (n : Nat) :
    ∃ loops, (startedPool baseLoop name k startLoop cb).1.nextLoops n = some loops ∧ loops.length = n ∧
      (k = 0 → ∀ l ∈ loops, l = baseLoop) ∧
      ∀ i < k, loops.count (startLoop i) = n / k + if i < n % k then 1 else 0 := by
  refine ⟨_, nextLoops_eq n (startedPool_valid baseLoop name k startLoop cb), by simp, ?_, ?_⟩
  · rintro rfl l hl
    rw [startedPool_eq] at hl
    simp at hl
    exact hl.2.symm ▸ rfl
  · intro i hi
    have hk : k ≠ 0 := by omega
    rw [startedPool_eq]
    simp only [turn_eq, if_neg hk, Nat.zero_add]
    rw [List.count, List.countP_map]
    have hcount : Nat.count (· ≡ i [MOD k]) n = n / k + if i < n % k then 1 else 0 := by
      rw [Nat.count_modEq_card n (Nat.pos_of_ne_zero hk), Nat.mod_eq_of_lt hi]
    rw [← hcount, Nat.count]
    congr 1
    funext j
    have hj : j % k < k := Nat.mod_lt _ (Nat.pos_of_ne_zero hk)
    have hiff : startLoop (j % k) = startLoop i ↔ j % k = i := ⟨hinj _ hj _ hi, fun he => by rw [he]⟩
    simp [Nat.ModEq, Nat.mod_eq_of_lt hi, ← hiff, beq_eq_decide]

end EloopTpool

/-! ### The connections of a server -/

namespace TcpServer
variable {P : Scope} {s s' : TcpServer} {done made : Multiset Item}

/-- Whose turn it is, and whose turn it was for each connection. -/
structure Dealt (s : TcpServer) : Prop where
  next : s.nextIdx = if s.numThreads = 0 then 0 else s.accepted % s.numThreads
  loop : ∀ o < s.accepted, (s.conn o).loop = if s.numThreads = 0 then 0 else o % s.numThreads + 1

theorem Dealt.getNextLoop (h : s.Dealt) :
    s.getNextLoop = if s.numThreads = 0 then 0 else s.accepted % s.numThreads + 1 := by
  rw [TcpServer.getNextLoop, h.next]
  split <;> rfl

/-- Only `new_conn` takes a turn. -/
theorem Did.turn (h : s.Did P done made s') : s'.nextIdx = s.nextIdx ∧ s'.accepted = s.accepted ∨
    s'.accepted = s.accepted + 1 ∧
      s'.nextIdx = if s.numThreads = 0 then s.nextIdx else (s.nextIdx + 1) % s.numThreads := by
  cases h with
  | accept => exact .inr ⟨rfl, rfl⟩
  | queue l k f _ => cases f <;> exact .inl ⟨rfl, rfl⟩
  | _ => exact .inl ⟨rfl, rfl⟩

theorem Did.dealt (h : s.Did P done made s') (hs : s.Dealt) : s'.Dealt := by
  refine ⟨?_, fun o ho => ?_⟩
  · rw [h.numThreads]
    rcases h.turn with ⟨hnext, hacc⟩ | ⟨hacc, hnext⟩
    · rw [hnext, hacc]
      exact hs.next
    · rw [hnext, hacc, hs.next]
      split
      · rfl
      · exact Nat.mod_add_mod ..
  · rw [h.numThreads]
    by_cases ho' : o < s.accepted
    · rw [(h.moves ho').frame.1]
      exact hs.loop o ho'
    · obtain ⟨rfl, -, -, c, hc, rfl⟩ := h.new (Nat.le_of_not_lt ho') ho
      rw [enroll_conn, if_pos rfl, (create_new hc).1]
      exact hs.getNextLoop

end TcpServer

namespace Host
variable {h : Host}

theorem run_dealt {numThreads mark : Nat} {callbacks : Callbacks} {tr : List Act}
    (hr : exec step (create numThreads callbacks mark) tr = some h) :
    h.Sound ∧ h.server.Dealt ∧ h.server.numThreads = numThreads := by
  refine run_induction (fun _ h => h.Sound ∧ h.server.Dealt ∧ h.server.numThreads = numThreads) ?_ ?_ hr
  · refine ⟨create_sound .., ⟨?_, fun o ho => absurd ho (Nat.not_lt_zero o)⟩, rfl⟩
    show 0 = if numThreads = 0 then 0 else 0 % numThreads
    split
    · rfl
    · exact (Nat.zero_mod _).symm
  · rintro - h a h' - ⟨hi, hd, hn⟩ hs
    obtain ⟨done, made, -, hdid⟩ := step_did hi (step_cases hs)
    exact ⟨step_sound hi hs, hdid.dealt hd, hdid.numThreads.trans hn⟩

/-- **Connections are dealt in turn.** Whatever a server with `k` io loops does, its
connections are on the loops that the calls of `get_next_loop` return, so that of `m`
connections each io loop has `m / k`, or one more if its turn has come in the last round. -/
theorem conns_dealt {k mark : Nat} {callbacks : Callbacks} {tr : List Act}
    (hr : exec step (create k callbacks mark) tr = some h) (name : String) (cb : Bool) :
    (EloopTpool.startedPool 0 name k (· + 1) cb).1.nextLoops h.server.accepted =
        some ((List.range h.server.accepted).map fun o => (h.server.conn o).loop) ∧
      ∀ i < k, ((List.range h.server.accepted).map fun o => (h.server.conn o).loop).count (i + 1) =
        h.server.accepted / k + if i < h.server.accepted % k then 1 else 0 := by
  obtain ⟨-, hd, hn⟩ := run_dealt hr
  have hloops : (EloopTpool.startedPool 0 name k (· + 1) cb).1.nextLoops h.server.accepted =
      some ((List.range h.server.accepted).map fun o => (h.server.conn o).loop) := by
    rw [EloopTpool.nextLoops_eq _ (EloopTpool.startedPool_valid 0 name k (· + 1) cb), EloopTpool.startedPool_eq]
    simp only [EloopTpool.turn_eq, Nat.zero_add]
    congr 1
    refine List.map_congr_left fun o ho => ?_
    rw [hd.loop o (List.mem_range.mp ho), hn]
  refine ⟨hloops, fun i hi => ?_⟩
  obtain ⟨loops, hl, -, -, hcount⟩ := EloopTpool.turns_fair 0 name k (· + 1) (fun _ _ _ _ he => Nat.succ.inj he) cb
    h.server.accepted
  rw [hloops] at hl
  cases hl
  exact hcount i hi

/-- Three connections of a server with two io loops. -/
theorem conns_dealt_three : ∃ h, exec step (create 2 ⟨true, true, false, false, false⟩ 64)
      (established.take 4 ++ [.accept, .exec 0, .eloop 1 (.testWakeup 0), .eloop 1 (.wakeup 0), .exec 0,
        .accept, .exec 0, .eloop 2 (.testWakeup 0), .eloop 2 (.wakeup 0), .exec 0, .accept]) = some h ∧
    h.server.accepted = 3 ∧
    ((EloopTpool.startedPool 0 "" 2 (· + 1) true).1.nextLoops h.server.accepted =
        some ((List.range h.server.accepted).map fun o => (h.server.conn o).loop) ∧
      ∀ i < 2, ((List.range h.server.accepted).map fun o => (h.server.conn o).loop).count (i + 1) =
        h.server.accepted / 2 + if i < h.server.accepted % 2 then 1 else 0) :=
  ⟨_, (Option.some_get (by decide +kernel)).symm, by decide +kernel,
    conns_dealt (Option.some_get (by decide +kernel)).symm "" true⟩

end Host

end Caimr.Net
