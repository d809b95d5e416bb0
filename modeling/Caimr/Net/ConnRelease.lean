import Caimr.Net.ChannelLife
import Caimr.Net.LifeOrder

/-! What is closed is let go. The map holds a closed connection only until its removal, which
is on its way; with nothing on its way, nothing holds it any more. -/
namespace Caimr.Net
open Transition

/-- Work that ends with the connection out of the map. -/
def Instr.erases (o : ConnNo) : Instr → Bool
  | .closeCallback o' | .queue _ (.removeConnInLoop o') | .run (.removeConnInLoop o') => o' = o
  | _ => false

theorem erases_vital (o : ConnNo) : Vital (Instr.erases o) := by
  intro i hi
  unfold Instr.erases
  split <;> first | rfl | cases hi

namespace TcpServer
variable {P : Scope} {s s' : TcpServer} {b b' done made : Multiset Item} {o : ConnNo}

/-- The connection is going to be taken out of the map. -/
def Erases (b : Multiset Item) (o : ConnNo) : Prop := ∃ x ∈ b, x.2.erases o = true

/-- The map holds a closed connection only until its removal, which is on its way. -/
def Leaving (s : TcpServer) (b : Multiset Item) : Prop :=
  ∀ o < s.accepted, s.Closed o → s.conns (s.conn o).id = some o → Erases b o

theorem erases_removeConn (l : LoopId) (o : ConnNo) : (removeConn l o).erases o = true := by
  unfold removeConn runInLoop
  split <;> exact decide_eq_true rfl

/-- What would have taken a connection out of the map is followed by what does, or has done it. -/
theorem Did.erases (h : s.Did P done made s') {x : Item} (hx : x ∈ done) (hxe : x.2.erases o = true) :
    Erases made o ∨ s'.conns (s'.conn o).id ≠ some o := by
  have hno : x.2.isIdle ≠ true := by
    intro hi
    rw [erases_vital o _ hi] at hxe
    cases hxe
  cases h with
  | idle _ _ hd => exact absurd (hd x hx) hno
  | quiet | close | accept => exact absurd hx (Multiset.notMem_zero x)
  | closeCallback l o' =>
    obtain rfl := Multiset.mem_singleton.mp hx
    obtain rfl : o' = o := of_decide_eq_true hxe
    exact .inl ⟨_, Multiset.mem_singleton_self _, erases_removeConn l o'⟩
  | queue l k f =>
    obtain rfl := Multiset.mem_singleton.mp hx
    refine .inl ⟨(k, .run f), Multiset.mem_add.mpr (.inr (Multiset.mem_singleton_self _)), ?_⟩
    cases f <;> exact hxe
  | erase l o' =>
    obtain rfl := Multiset.mem_singleton.mp hx
    obtain rfl : o' = o := of_decide_eq_true hxe
    refine .inr ?_
    show Function.update s.conns (s.conn o').id none (s.conn o').id ≠ some o'
    rw [Function.update_self]
    nofun
  | establish | destroy | connCallback | removeChan =>
    obtain rfl := Multiset.mem_singleton.mp hx
    cases hxe

/-- A step brings a connection into the map only when it accepts it. -/
theorem Did.conns (h : s.Did P done made s') (ho : o < s.accepted) {id : Nat} (he : s'.conns id = some o) :
    s.conns id = some o := by
  cases h with
  | accept c hc =>
    have hup : Function.update s.conns s.nextConnId (some s.accepted) id = some o := he
    by_cases hid : id = s.nextConnId
    · rw [hid, Function.update_self] at hup
      exact absurd (Option.some.inj hup) (Nat.ne_of_gt ho)
    · rwa [Function.update_of_ne hid] at hup
  | erase l o' =>
    have hup : Function.update s.conns (s.conn o').id none id = some o := he
    by_cases hid : id = (s.conn o').id
    · rw [hid, Function.update_self] at hup
      cases hup
    · rwa [Function.update_of_ne hid] at hup
  | queue l k f => cases f <;> exact he
  | _ => exact he

/-- A connection that has a close callback is closed with it. -/
theorem Did.closing (h : s.Did P done made s') (ho : o < s.accepted) (hcb : (s.conn o).callbacks.close = true)
    (hc : ¬ s.Closed o) (hc' : s'.Closed o) : Erases made o := by
  have hset : ∀ {o' : ConnNo} {c : TcpConn}, (s.setConn o' c).Closed o → o = o' ∧ c.state = .disconnected := by
    intro o' c hcl
    rw [Closed, setConn_conn] at hcl
    split at hcl
    · exact ⟨‹_›, hcl⟩
    · exact absurd hcl hc
  cases h with
  | close l o' =>
    obtain ⟨rfl, -⟩ := hset hc'
    refine ⟨(l, .closeCallback o), mem_on.mpr ⟨rfl, List.mem_append_right _ ?_⟩, decide_eq_true rfl⟩
    rw [if_pos hcb]
    exact List.mem_singleton_self _
  | quiet l o' c es made _ _ hq =>
    obtain ⟨rfl, hcl⟩ := hset hc'
    exact absurd (hq.disconnected.mp hcl) hc
  | establish l o' =>
    obtain ⟨rfl, hcl⟩ := hset hc'
    cases hcl
  | removeChan l o' =>
    obtain ⟨rfl, hcl⟩ := hset hc'
    exact absurd hcl hc
  | accept c =>
    rw [Closed, enroll_conn, if_neg (Nat.ne_of_lt ho)] at hc'
    exact absurd hc' hc
  | queue l k f => cases f <;> exact absurd hc' hc
  | idle | destroy | erase | connCallback | closeCallback => exact absurd hc' hc

theorem Did.leaving (h : s.Did P done made s') (hx : Bag.Exchange b done made b')
    (hcb : ∀ o < s.accepted, (s.conn o).callbacks.close = true) (hl : s.Leaving b) : s'.Leaving b' := by
  have hmade : ∀ {o}, Erases made o → Erases b' o := fun ⟨x, hxm, he⟩ => ⟨x, hx.mem_of_made hxm, he⟩
  intro o ho hc he
  by_cases ho' : o < s.accepted
  · by_cases hc' : s.Closed o
    · have hentry := h.conns ho' he
      rw [(h.moves ho').frame.2] at hentry
      obtain ⟨x, hxb, hxe⟩ := hl o ho' hc' hentry
      by_cases hxd : x ∈ done
      · exact hmade ((h.erases hxd hxe).resolve_right fun hne => hne he)
      · exact ⟨x, hx.mem_stays hxb hxd, hxe⟩
    · exact hmade (h.closing ho' (hcb o ho') hc' hc)
  · obtain ⟨rfl, -, -, c, hnew, rfl⟩ := h.new (Nat.le_of_not_lt ho') ho
    rw [Closed, enroll_conn, if_pos rfl, (create_new hnew).2.2.1] at hc
    cases hc

end TcpServer

namespace Host
variable {h : Host}

end Host

end Caimr.Net
