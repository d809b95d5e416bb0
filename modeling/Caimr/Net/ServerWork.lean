import Mathlib.Data.Multiset.AddSub
import Caimr.Lib.Bag
import Caimr.Net.ConnLife
import Caimr.Net.FunctorOrder
import Caimr.Net.TcpServer

/-! The work of a server's loops as one bag: what is on the agendas, and the functors that
are queued, each with the loop it waits in. Seen this way a step of the host takes some
pieces of work out, puts others in, and does one thing to the server. -/
namespace Caimr.Net
open Bag Transition

/-- A piece of work, and the loop whose thread will do it. -/
abbrev Item := LoopId × Instr

/-- Work of the loop `l`. -/
def on (l : LoopId) (is : List Instr) : Multiset Item := (is.map (l, ·) : List Item)

theorem mem_on {l : LoopId} {is : List Instr} {x : Item} : x ∈ on l is ↔ x.1 = l ∧ x.2 ∈ is := by
  obtain ⟨k, i⟩ := x
  simp only [on, Multiset.mem_coe, List.mem_map, Prod.mk.injEq]
  constructor
  · rintro ⟨j, hj, rfl, rfl⟩
    exact ⟨rfl, hj⟩
  · rintro ⟨rfl, hi⟩
    exact ⟨i, hi, rfl, rfl⟩

theorem forall_on {l : LoopId} {is : List Instr} {Q : Item → Prop} (h : ∀ i ∈ is, Q (l, i)) : ∀ x ∈ on l is, Q x := by
  intro ⟨k, i⟩ hx
  obtain ⟨hk, hi⟩ := mem_on.mp hx
  cases hk
  exact h i hi

theorem on_append (l : LoopId) (a b : List Instr) : on l (a ++ b) = on l a + on l b := by
  rw [on, List.map_append, ← Multiset.coe_add]
  rfl

@[simp] theorem on_nil (l : LoopId) : on l [] = 0 := rfl

/-- How much work of one kind there is. -/
def tokens (p : Instr → Bool) (b : Multiset Item) : Nat := b.countP fun x => p x.2 = true

section Tokens
variable (p : Instr → Bool)

@[simp] theorem tokens_zero : tokens p 0 = 0 := Multiset.countP_zero _

@[simp] theorem tokens_add (a b : Multiset Item) : tokens p (a + b) = tokens p a + tokens p b :=
  Multiset.countP_add ..

@[simp] theorem tokens_singleton (x : Item) : tokens p {x} = if p x.2 = true then 1 else 0 := by
  rw [tokens, ← Multiset.cons_zero, Multiset.countP_cons, Multiset.countP_zero, zero_add]

@[simp] theorem tokens_on (l : LoopId) (is : List Instr) : tokens p (on l is) = is.countP p := by
  rw [tokens, on, Multiset.coe_countP, List.countP_map]
  congr 1
  funext i
  simp

@[simp] theorem tokens_cons (x : Item) (b : Multiset Item) :
    tokens p (x ::ₘ b) = (if p x.2 = true then 1 else 0) + tokens p b := by
  rw [tokens, Multiset.countP_cons, add_comm]
  rfl

theorem tokens_eq_zero {p : Instr → Bool} {b : Multiset Item} : tokens p b = 0 ↔ ∀ x ∈ b, ¬ p x.2 = true :=
  Multiset.countP_eq_zero

theorem exchange_tokens {b done made b' : Multiset Item} (h : Exchange b done made b') :
    tokens p b' + tokens p done = tokens p b + tokens p made :=
  h.countP_eq _

end Tokens

/-! ### Work that is no step of a connection's life -/

def Functor.isIdle : Functor → Bool
  | .writeComplete _ | .highWaterMark .. => true
  | .establishConn _ | .destroyConn _ | .removeConnInLoop _ => false

def Instr.isIdle : Instr → Bool
  | .userCode _ | .finishWrite _ | .endQueue _ | .running _ => true
  | .queue _ f | .run f => f.isIdle
  | .connCallback _ | .closeCallback _ | .removeChan _ => false

/-- The kind of work is a step of a connection's life. -/
def Vital (p : Instr → Bool) : Prop := ∀ i, i.isIdle = true → p i = false

theorem Vital.tokens {p : Instr → Bool} (hp : Vital p) {b : Multiset Item} (h : ∀ x ∈ b, x.2.isIdle = true) :
    tokens p b = 0 :=
  tokens_eq_zero.mpr fun x hx => by simp [hp _ (h x hx)]

/-- A connection still to be established. -/
def Instr.establishes (o : ConnNo) : Instr → Bool
  | .queue _ (.establishConn o') | .run (.establishConn o') => o' = o
  | _ => false

theorem establishes_vital (o : ConnNo) : Vital (Instr.establishes o) := by
  intro i hi
  unfold Instr.establishes
  split
  · cases hi
  · cases hi
  · rfl

namespace TcpServer

/-- The connection has been accepted, and belongs to the loop `l`. -/
def Owns (s : TcpServer) (l : LoopId) (o : ConnNo) : Prop := o < s.accepted ∧ (s.conn o).loop = l

def Closed (s : TcpServer) (o : ConnNo) : Prop := (s.conn o).state = .disconnected

def Registered (s : TcpServer) (o : ConnNo) : Prop := (s.conn o).ch.registered ≠ none

/-- The functor waits where it is to run, and not too early. -/
def Places (s : TcpServer) (l : LoopId) : Functor → Prop
  | .establishConn o | .writeComplete o | .highWaterMark o _ => s.Owns l o
  | .destroyConn o => s.Owns l o ∧ s.Closed o
  | .removeConnInLoop o => l = 0 ∧ o < s.accepted ∧ s.Closed o

/-- So does an instruction. -/
def Assigns (s : TcpServer) (l : LoopId) : Instr → Prop
  | .connCallback o | .userCode o | .finishWrite o => s.Owns l o
  | .closeCallback o | .removeChan o => s.Owns l o ∧ s.Closed o
  | .queue k f => s.Places k f
  | .run f => s.Places l f
  | .endQueue _ | .running _ => True

/-- Idle work in its place. -/
def Spares (s : TcpServer) (x : Item) : Prop := x.2.isIdle = true ∧ s.Assigns x.1 x.2

def setConn (s : TcpServer) (o : ConnNo) (c : TcpConn) : TcpServer :=
  {s with conn := Function.update s.conn o c}

theorem setConn_conn (s : TcpServer) (o o' : ConnNo) (c : TcpConn) :
    (s.setConn o c).conn o' = if o' = o then c else s.conn o' :=
  Function.update_apply ..

@[simp] theorem setConn_self (s : TcpServer) (o : ConnNo) : s.setConn o (s.conn o) = s := by
  rw [setConn, Function.update_eq_self]

/-- The server with one connection more. -/
def enroll (s : TcpServer) (c : TcpConn) : TcpServer :=
  {s with conn := Function.update s.conn s.accepted c
          accepted := s.accepted + 1
          conns := Function.update s.conns s.nextConnId (some s.accepted)
          nextConnId := (s.nextConnId + 1) % 2 ^ 32
          nextIdx := if s.numThreads = 0 then s.nextIdx else (s.nextIdx + 1) % s.numThreads}

theorem enroll_conn (s : TcpServer) (c : TcpConn) (o : ConnNo) :
    (s.enroll c).conn o = if o = s.accepted then c else s.conn o :=
  Function.update_apply ..

/-- The connections that a step calls functions of, for an event or from user code, and
those of them that it closes. -/
structure Scope where
  calls : ConnNo → Prop
  closes : ConnNo → Prop

def Scope.all : Scope := ⟨fun _ => True, fun _ => True⟩

/-- What a step of a host does to the server, with the work it takes up and the work it
leaves. -/
inductive Did (P : Scope) (s : TcpServer) : Multiset Item → Multiset Item → TcpServer → Prop where
  | idle (done made : Multiset Item) : (∀ x ∈ done, x.2.isIdle = true) → (∀ x ∈ made, s.Spares x) →
      Did P s done made s
  | quiet (l : LoopId) (o : ConnNo) (c : TcpConn) (es : List Effect) (made : Multiset Item) : s.Owns l o → P.calls o →
      (s.conn o).Quiet c es → (∀ x ∈ made, s.Spares x) → Did P s 0 made (s.setConn o c)
  | close (l : LoopId) (o : ConnNo) (inputBuf : Buffer) : s.Owns l o → P.calls o → s.Registered o → P.closes o →
      Did P s 0 (on l ((if (s.conn o).callbacks.conn then [.connCallback o] else []) ++
          if (s.conn o).callbacks.close then [.closeCallback o] else []))
        (s.setConn o {s.conn o with inputBuf := inputBuf}.handleClose.1)
  | accept (c : TcpConn) :
      TcpConn.create s.getNextLoop s.nextConnId {s.callbacks with close := true} s.highWaterMark = .ok c →
      Did P s 0 {(0, runInLoop 0 s.getNextLoop (.establishConn s.accepted))}
        (s.enroll c)
  | establish (l : LoopId) (o : ConnNo) : s.Owns l o → (s.conn o).state = .connenting →
      Did P s {(l, .run (.establishConn o))}
        (on l ((if (s.conn o).callbacks.conn then [.connCallback o] else []) ++ [.running (.establishConn o)]))
        (s.setConn o (s.conn o).establishConn.1)
  | destroy (l : LoopId) (o : ConnNo) : s.Owns l o → s.Closed o →
      Did P s {(l, .run (.destroyConn o))} (on l [.removeChan o, .running (.destroyConn o)]) s
  | erase (l : LoopId) (o : ConnNo) : o < s.accepted → s.Closed o →
      Did P s {(l, .run (.removeConnInLoop o))}
        (on l [.queue (s.conn o).loop (.destroyConn o), .running (.removeConnInLoop o)])
        {s with conns := Function.update s.conns (s.conn o).id none}
  | connCallback (l : LoopId) (o : ConnNo) : s.Owns l o → Did P s {(l, .connCallback o)} {(l, .userCode o)}
      {s with log := s.log ++ [.connCallback o (s.conn o).isConnected]}
  | closeCallback (l : LoopId) (o : ConnNo) : s.Owns l o → s.Closed o →
      Did P s {(l, .closeCallback o)} {(l, removeConn l o)} {s with log := s.log ++ [.closeCallback o]}
  | removeChan (l : LoopId) (o : ConnNo) : s.Owns l o → s.Closed o →
      Did P s {(l, .removeChan o)} 0 (s.setConn o {s.conn o with ch := (s.conn o).ch.remove})
  | queue (l k : LoopId) (f : Functor) : s.Places k f →
      Did P s {(l, .queue k f)} ({(l, .endQueue k)} + {(k, .run f)}) (s.recordQueue f)

/-! ### What a step does to one connection -/

/-- The ways in which a step can change a connection. -/
inductive Moves (P : Scope) (s : TcpServer) (done : Multiset Item) (o : ConnNo) : TcpConn → Prop where
  | quiet (c : TcpConn) (es : List Effect) : (s.conn o).Quiet c es → Moves P s done o c
  | close (inputBuf : Buffer) : s.Registered o → P.closes o →
      Moves P s done o {s.conn o with inputBuf := inputBuf}.handleClose.1
  | establish (l : LoopId) : (s.conn o).state = .connenting → (l, .run (.establishConn o)) ∈ done →
      Moves P s done o (s.conn o).establishConn.1
  | removeChan (l : LoopId) : s.Owns l o → s.Closed o → (l, .removeChan o) ∈ done →
      Moves P s done o {s.conn o with ch := (s.conn o).ch.remove}

variable {P : Scope} {s s' : TcpServer} {b b' done made : Multiset Item} {o : ConnNo} {c : TcpConn}

theorem Did.moves (h : s.Did P done made s') (ho : o < s.accepted) : s.Moves P done o (s'.conn o) := by
  have hsame : s.Moves P done o (s.conn o) := .quiet _ [] (.refl _ nofun)
  have hset : ∀ {o' : ConnNo} {c : TcpConn}, (o = o' → s.Moves P done o c) →
      s.Moves P done o ((s.setConn o' c).conn o) := by
    intro o' c hc
    rw [setConn_conn]
    split
    · rename_i he
      exact hc he
    · exact hsame
  cases h with
  | quiet l o' c es made _ _ hq _ =>
    refine hset fun he => ?_
    subst he
    exact .quiet c es hq
  | close l o' inputBuf _ _ hr hp =>
    refine hset fun he => ?_
    subst he
    exact .close inputBuf hr hp
  | establish l o' _ hs =>
    refine hset fun he => ?_
    subst he
    exact .establish l hs (Multiset.mem_singleton_self _)
  | removeChan l o' hl hc =>
    refine hset fun he => ?_
    subst he
    exact .removeChan l hl hc (Multiset.mem_singleton_self _)
  | accept c _ =>
    rw [enroll_conn, if_neg (Nat.ne_of_lt ho)]
    exact hsame
  | queue l k f _ => cases f <;> exact hsame
  | idle | destroy | erase | connCallback | closeCallback => exact hsame

namespace Moves

theorem frame (h : s.Moves P done o c) : c.loop = (s.conn o).loop ∧ c.id = (s.conn o).id := by
  cases h with
  | quiet c es hq => exact ⟨hq.loop, hq.id⟩
  | close | establish | removeChan => exact ⟨rfl, rfl⟩

/-- A closed connection stays closed. -/
theorem closed (h : s.Moves P done o c) (hc : s.Closed o) : c.state = .disconnected := by
  cases h with
  | quiet c es hq => exact hq.disconnected.mpr hc
  | close => rfl
  | establish l hs => exact absurd (hc.symm.trans hs) nofun
  | removeChan => exact hc

/-- Only `handle_close` closes one. -/
theorem stays_open (h : s.Moves P done o c) (hp : ¬ P.closes o) (hc : ¬ s.Closed o) : c.state ≠ .disconnected := by
  cases h with
  | quiet c es hq => exact fun hd => hc (hq.disconnected.mp hd)
  | close _ _ hp' => exact absurd hp' hp
  | establish => exact nofun
  | removeChan => exact hc

theorem connenting (h : s.Moves P done o c) (hc : c.state = .connenting) :
    (s.conn o).state = .connenting ∧ ∃ es, (s.conn o).Quiet c es := by
  cases h with
  | quiet c es hq => exact ⟨hq.connenting.mp hc, es, hq⟩
  | close | establish => cases hc
  | removeChan _ _ hd => exact absurd (hd.symm.trans hc) nofun

/-- A connection waits for `establish_conn`. -/
theorem stays_connenting (h : s.Moves P done o c) (hc : (s.conn o).state = .connenting) (hr : ¬ s.Registered o)
    (hd : ∀ l, (l, .run (.establishConn o)) ∉ done) : c.state = .connenting := by
  cases h with
  | quiet c es hq => exact hq.connenting.mpr hc
  | close _ hr' => exact absurd hr' hr
  | establish l _ hl => exact absurd hl (hd l)
  | removeChan l _ hcl => exact absurd (hcl.symm.trans hc) nofun

/-- Only `destroy_conn` takes a channel out of the poller. -/
theorem registered (h : s.Moves P done o c) (hr : s.Registered o) (hd : ∀ l, s.Owns l o → (l, .removeChan o) ∉ done) :
    c.ch.registered ≠ none := by
  cases h with
  | quiet c es hq => exact hq.kept hr
  | close => exact Chan.updateChan_registered hr
  | establish => exact Chan.updateChan_registered hr
  | removeChan l hl _ hx => exact absurd hx (hd l hl)

/-- And none comes in but that of an open connection. -/
theorem gained (h : s.Moves P done o c) (hr : c.ch.registered ≠ none) : s.Registered o ∨ ¬ s.Closed o := by
  cases h with
  | quiet c es hq => exact (hq.gained hr).imp_right fun hs hc => by cases hs.symm.trans hc
  | close _ hr' => exact .inl hr'
  | establish l hs => exact .inr fun hc => by cases hs.symm.trans hc
  | removeChan => exact absurd rfl hr

end Moves

/-! ### Work in its place -/

theorem Did.accepted_le (h : s.Did P done made s') : s.accepted ≤ s'.accepted := by
  cases h with
  | accept => exact Nat.le_succ _
  | queue l k f _ => cases f <;> exact le_rfl
  | _ => exact le_rfl

theorem Did.numThreads (h : s.Did P done made s') : s'.numThreads = s.numThreads := by
  cases h with
  | queue l k f _ => cases f <;> rfl
  | _ => rfl

theorem Did.owns (h : s.Did P done made s') {l : LoopId} (ho : s.Owns l o) : s'.Owns l o :=
  ⟨ho.1.trans_le h.accepted_le, (h.moves ho.1).frame.1.trans ho.2⟩

theorem Did.closed (h : s.Did P done made s') (ho : o < s.accepted) (hc : s.Closed o) : s'.Closed o :=
  (h.moves ho).closed hc

theorem Did.places (h : s.Did P done made s') {l : LoopId} {f : Functor} (hf : s.Places l f) : s'.Places l f := by
  cases f with
  | establishConn | writeComplete | highWaterMark => exact h.owns hf
  | destroyConn => exact ⟨h.owns hf.1, h.closed hf.1.1 hf.2⟩
  | removeConnInLoop => exact ⟨hf.1, hf.2.1.trans_le h.accepted_le, h.closed hf.2.1 hf.2.2⟩

theorem Did.assigns (h : s.Did P done made s') {l : LoopId} {i : Instr} (hi : s.Assigns l i) : s'.Assigns l i := by
  cases i with
  | connCallback | userCode | finishWrite => exact h.owns hi
  | closeCallback | removeChan => exact ⟨h.owns hi.1, h.closed hi.1.1 hi.2⟩
  | queue | run => exact h.places hi
  | endQueue | running => trivial

/-- The functor is run here or queued there; in either case it is in its place. -/
theorem assigns_runInLoop {l k : LoopId} {f : Functor} (h : s.Places k f) : s.Assigns l (runInLoop l k f) := by
  unfold runInLoop
  split
  · rename_i hlk
    subst hlk
    exact h
  · exact h

theorem create_new {l id mark : Nat} {cb : Callbacks} (h : TcpConn.create l id cb mark = .ok c) :
    c.loop = l ∧ c.id = id ∧ c.state = .connenting ∧ c.ch = .create := by
  obtain ⟨inputBuf, -, h⟩ := bind_ok.mp h
  obtain ⟨outputBuf, -, h⟩ := bind_ok.mp h
  cases h
  exact ⟨rfl, rfl, rfl, rfl⟩

/-- The work a step leaves is in its place. -/
theorem Did.made_assigned (h : s.Did P done made s') : ∀ x ∈ made, s'.Assigns x.1 x.2 := by
  intro x hx
  have hd := h
  cases h with
  | idle _ _ _ hm | quiet _ _ _ _ _ _ _ _ hm => exact hd.assigns (hm x hx).2
  | close l o inputBuf hl =>
    obtain ⟨rfl, hi⟩ := mem_on.mp hx
    rcases List.mem_append.mp hi with hi | hi <;> split at hi
    · rw [List.mem_singleton.mp hi]
      exact hd.owns hl
    · cases hi
    · rw [List.mem_singleton.mp hi]
      refine ⟨hd.owns hl, ?_⟩
      rw [Closed, setConn_conn, if_pos rfl]
      rfl
    · cases hi
  | accept c hc =>
    rw [Multiset.mem_singleton.mp hx]
    refine assigns_runInLoop ⟨Nat.lt_succ_self _, ?_⟩
    rw [enroll_conn, if_pos rfl]
    exact (create_new hc).1
  | establish l o hl =>
    obtain ⟨rfl, hi⟩ := mem_on.mp hx
    rcases List.mem_append.mp hi with hi | hi
    · split at hi
      · rw [List.mem_singleton.mp hi]
        exact hd.owns hl
      · cases hi
    · rw [List.mem_singleton.mp hi]
      trivial
  | destroy l o hl hc =>
    obtain ⟨rfl, hi⟩ := mem_on.mp hx
    rcases List.mem_pair.mp hi with hi | hi <;> rw [hi]
    · exact ⟨hl, hc⟩
    · trivial
  | erase l o ho hc =>
    obtain ⟨rfl, hi⟩ := mem_on.mp hx
    rcases List.mem_pair.mp hi with hi | hi <;> rw [hi]
    · exact ⟨⟨ho, rfl⟩, hc⟩
    · trivial
  | connCallback l o hl =>
    rw [Multiset.mem_singleton.mp hx]
    exact hl
  | closeCallback l o hl hc =>
    rw [Multiset.mem_singleton.mp hx]
    exact assigns_runInLoop ⟨rfl, hl.1, hc⟩
  | removeChan => exact absurd hx (Multiset.notMem_zero x)
  | queue l k f hf =>
    rcases Multiset.mem_add.mp hx with hx | hx <;> rw [Multiset.mem_singleton.mp hx]
    · trivial
    · exact hd.places hf

/-- The server and the work that waits agree: the work is in its place, every connection
is established at most once, and none is in the poller before. -/
structure Sound (s : TcpServer) (b : Multiset Item) : Prop where
  assigned : ∀ x ∈ b, s.Assigns x.1 x.2
  once : ∀ o < s.accepted, tokens (Instr.establishes o) b + (if (s.conn o).state = .connenting then 0 else 1) ≤ 1
  fresh : ∀ o < s.accepted, (s.conn o).state = .connenting → ¬ s.Registered o

/-- A connection that is new comes from `accept`. -/
theorem Did.new (h : s.Did P done made s') (ho : s.accepted ≤ o) (ho' : o < s'.accepted) :
    o = s.accepted ∧ done = 0 ∧ made = {(0, runInLoop 0 s.getNextLoop (.establishConn o))} ∧ ∃ c,
      TcpConn.create s.getNextLoop s.nextConnId {s.callbacks with close := true} s.highWaterMark = .ok c ∧
        s' = s.enroll c := by
  cases h with
  | accept c hc =>
    have he : o = s.accepted := Nat.le_antisymm (Nat.le_of_lt_succ ho') ho
    exact ⟨he, rfl, by rw [he], c, hc, rfl⟩
  | queue l k f _ => cases f <;> exact absurd ho' (Nat.not_lt.mpr ho)
  | _ => exact absurd ho' (Nat.not_lt.mpr ho)

/-- What a step does to the establishment of a connection. -/
theorem Did.establishes (h : s.Did P done made s') (ho : o < s.accepted) :
    tokens (Instr.establishes o) made = tokens (Instr.establishes o) done ∧
      (∀ l, (l, .run (.establishConn o)) ∉ done) ∨
    tokens (Instr.establishes o) made = 0 ∧ tokens (Instr.establishes o) done = 1 := by
  have hv := establishes_vital o
  cases h with
  | idle _ _ hd hm =>
    refine .inl ⟨?_, fun l hl => by cases hd _ hl⟩
    rw [hv.tokens hd, hv.tokens fun x hx => (hm x hx).1]
  | quiet _ _ _ _ _ _ _ _ hm =>
    refine .inl ⟨?_, fun l => Multiset.notMem_zero _⟩
    rw [tokens_zero, hv.tokens fun x hx => (hm x hx).1]
  | close l o' =>
    refine .inl ⟨?_, fun l => Multiset.notMem_zero _⟩
    rw [tokens_zero, tokens_on, List.countP_append]
    split <;> split <;> rfl
  | accept c hc =>
    refine .inl ⟨?_, fun l => Multiset.notMem_zero _⟩
    rw [tokens_zero, tokens_singleton, runInLoop]
    split <;> simp [Instr.establishes, Nat.ne_of_gt ho]
  | establish l o' =>
    by_cases he : o' = o
    · subst he
      refine .inr ⟨?_, by simp [Instr.establishes]⟩
      rw [tokens_on, List.countP_append]
      split <;> rfl
    · refine .inl ⟨?_, fun k hk => ?_⟩
      · rw [tokens_on, List.countP_append, tokens_singleton]
        split <;> simp [Instr.establishes, he]
      · cases Multiset.mem_singleton.mp hk
        exact he rfl
  | closeCallback l o' =>
    refine .inl ⟨?_, by simp⟩
    rw [removeConn, runInLoop]
    split <;> rfl
  | queue l k f =>
    refine .inl ⟨?_, by simp⟩
    rw [tokens_add]
    cases f <;> simp [Instr.establishes]
  | destroy | erase | connCallback | removeChan => exact .inl ⟨rfl, by simp⟩

theorem Did.sound (h : s.Did P done made s') (hs : s.Sound b) (hx : Exchange b done made b') : s'.Sound b' := by
  have hnew : ∀ o, s.accepted ≤ o → o < s'.accepted → (s'.conn o).state = .connenting ∧ ¬ s'.Registered o ∧
      tokens (Instr.establishes o) b' ≤ 1 := by
    intro o ho ho'
    obtain ⟨rfl, rfl, rfl, c, hc, rfl⟩ := h.new ho ho'
    obtain ⟨-, -, hstate, hch⟩ := create_new hc
    rw [Registered, enroll_conn, if_pos rfl]
    refine ⟨hstate, by rw [hch]; exact fun hr => hr rfl, ?_⟩
    have hcount := exchange_tokens (Instr.establishes s.accepted) hx
    -- No work concerns a connection before it is accepted.
    have hnone : tokens (Instr.establishes s.accepted) b = 0 := by
      refine tokens_eq_zero.mpr fun x hx he => ?_
      have hplace := hs.assigned x hx
      obtain ⟨l, i⟩ := x
      dsimp only at he hplace
      unfold Instr.establishes at he
      split at he <;> simp only [decide_eq_true_eq, reduceCtorEq] at he <;> subst he
      · exact Nat.lt_irrefl _ hplace.1
      · exact Nat.lt_irrefl _ hplace.1
    rw [hnone, tokens_zero, tokens_singleton] at hcount
    split at hcount <;> omega
  refine ⟨fun x hxb => ?_, fun o ho => ?_, fun o ho hc => ?_⟩
  · rcases hx.mem_cases hxb with hxb | hxm
    · exact h.assigns (hs.assigned x hxb)
    · exact h.made_assigned x hxm
  · by_cases ho' : o < s.accepted
    · have hcount := exchange_tokens (Instr.establishes o) hx
      have honce := hs.once o ho'
      rcases h.establishes ho' with ⟨he, hno⟩ | ⟨hm, hd⟩
      · split at honce
        · rename_i hc
          rw [if_pos ((h.moves ho').stays_connenting hc (hs.fresh o ho' hc) hno)]
          omega
        · split <;> omega
      · split at honce <;> split <;> omega
    · obtain ⟨hc, -, hcount⟩ := hnew o (Nat.le_of_not_lt ho') ho
      rw [if_pos hc]
      exact hcount
  · by_cases ho' : o < s.accepted
    · obtain ⟨hc', es, hq⟩ := (h.moves ho').connenting hc
      intro hr
      rcases hq.gained hr with hr | hcon
      · exact hs.fresh o ho' hc' hr
      · cases hc'.symm.trans hcon
    · exact (hnew o (Nat.le_of_not_lt ho') ho).2.1

end TcpServer

end Caimr.Net
