import Caimr.Lib.Decimal
import Caimr.Net.ChannelLife
import Mathlib.Data.List.TakeWhile

/-! `net/address.cpp`: addresses to text and back, and the names that `new_conn` gives to
connections. An address is kept as the kernel has it, with the port in network order. -/
namespace Caimr.Net
open Decimal Transition

/-! ### Dotted text -/

/-- `in_addr`, in network order. -/
structure InAddr where
  a : UInt8
  b : UInt8
  c : UInt8
  d : UInt8
deriving DecidableEq, Repr

def dot : UInt8 := 46
def colon : UInt8 := 58

/-- `inet_ntop`. -/
def inetNtop (x : InAddr) : List UInt8 :=
  unsigned x.a.toNat ++ dot :: unsigned x.b.toNat ++ dot :: unsigned x.c.toNat ++ dot :: unsigned x.d.toNat

/-- How far `inet_pton` is: the parts that a dot has ended, and the one under way if it has
a digit. -/
structure Scan where
  parts : List Nat
  part : Option Nat
deriving DecidableEq, Repr

namespace Scan

def start : Scan := ⟨[], none⟩

/-- A part has no zero in front of another digit, and is at most 255. -/
def read (s : Scan) (c : UInt8) : Option Scan :=
  match digitValue c, s.part with
  | some d, none => some {s with part := some d}
  | some d, some v => if v = 0 ∨ 255 < 10 * v + d then none else some {s with part := some (10 * v + d)}
  | none, some v => if c = dot ∧ s.parts.length < 3 then some ⟨s.parts ++ [v], none⟩ else none
  | none, none => none

def finish (s : Scan) : Option InAddr :=
  match s.parts, s.part with
  | [a, b, c], some d => some ⟨UInt8.ofNat a, UInt8.ofNat b, UInt8.ofNat c, UInt8.ofNat d⟩
  | _, _ => none

end Scan

/-- `inet_pton` for `AF_INET`: four numbers between dots, and nothing else. -/
def inetPton (text : List UInt8) : Option InAddr := (text.foldlM Scan.read Scan.start).bind Scan.finish

namespace Scan
variable {s s' : Scan} {c : UInt8} {text : List UInt8}

/-- What has been read, spelled from the numbers that were made of it. -/
structure Shows (s : Scan) (text : List UInt8) : Prop where
  text : text = s.parts.flatMap (fun v => unsigned v ++ [dot]) ++ s.part.elim [] unsigned
  parts : ∀ v ∈ s.parts, v ≤ 255
  part : ∀ v, s.part = some v → v ≤ 255

theorem start_shows : start.Shows [] := ⟨rfl, List.forall_mem_nil _, nofun⟩

theorem Shows.read (h : s.Shows text) (hr : s.read c = some s') : s'.Shows (text ++ [c]) := by
  obtain ⟨parts, part⟩ := s
  obtain ⟨htext, hparts, hpart⟩ := h
  unfold Scan.read at hr
  cases hc : digitValue c with
  | some d =>
    obtain ⟨hd, rfl⟩ := digitValue_eq_some hc
    cases part with
    | none =>
      rw [hc] at hr
      cases hr
      refine ⟨?_, hparts, fun v hv => ?_⟩
      · rw [htext, Option.elim_none, Option.elim_some, List.append_nil, unsigned_digit hd]
      · cases hv
        omega
    | some v =>
      simp only [hc] at hr
      split at hr
      · cases hr
      · rename_i hgo
        cases hr
        refine ⟨?_, hparts, fun w hw => ?_⟩
        · rw [htext, Option.elim_some, Option.elim_some, unsigned_snoc (fun hv => hgo (.inl hv)) hd, List.append_assoc]
        · cases hw
          omega
  | none =>
    cases part with
    | none =>
      simp only [hc] at hr
      cases hr
    | some v =>
      simp only [hc] at hr
      split at hr
      · rename_i hdot
        cases hr
        refine ⟨?_, fun w hw => ?_, nofun⟩
        · rw [htext, hdot.1]
          simp
        · rcases List.mem_append.mp hw with hw | hw
          · exact hparts w hw
          · rw [List.mem_singleton.mp hw]
            exact hpart v rfl
      · cases hr

/-- Whatever is read is shown. -/
theorem Shows.reads {more : List UInt8} (h : s.Shows text) (hr : more.foldlM Scan.read s = some s') :
    s'.Shows (text ++ more) := by
  induction more generalizing s text with
  | nil =>
    cases hr
    rwa [List.append_nil]
  | cons c rest ih =>
    rw [List.foldlM_cons] at hr
    obtain ⟨t, ht, hrest⟩ := Option.bind_eq_some_iff.mp hr
    rw [List.append_cons]
    exact ih (h.read ht) hrest

/-- The text of a number up to 255 is read as one part. -/
theorem reads_unsigned {n : Nat} (hn : n ≤ 255) (parts : List Nat) :
    (unsigned n).foldlM Scan.read ⟨parts, none⟩ = some ⟨parts, some n⟩ := by
  induction n using Nat.strongRecOn with
  | ind n ih =>
    by_cases hlt : n < 10
    · rw [unsigned_digit hlt]
      simp [Scan.read, digitValue_digitChar hlt]
    · have hd : n % 10 < 10 := Nat.mod_lt _ (by decide)
      have hq : n / 10 ≠ 0 := by omega
      have hsplit : 10 * (n / 10) + n % 10 = n := by omega
      have hhead := ih (n / 10) (by omega) (by omega)
      have htext := unsigned_snoc hq hd
      rw [hsplit] at htext
      rw [htext, List.foldlM_append, hhead]
      simp [Scan.read, digitValue_digitChar hd, hq, hsplit, Nat.not_lt.mpr hn]

theorem read_dot {parts : List Nat} {v : Nat} (h : parts.length < 3) :
    Scan.read ⟨parts, some v⟩ dot = some ⟨parts ++ [v], none⟩ := by
  have hdot : digitValue dot = none := rfl
  simp [Scan.read, hdot, h]

/-- A part with the dot behind it. -/
theorem reads_part {n : Nat} (hn : n ≤ 255) {parts : List Nat} (h : parts.length < 3) (rest : List UInt8) :
    (unsigned n ++ dot :: rest).foldlM Scan.read ⟨parts, none⟩ = rest.foldlM Scan.read ⟨parts ++ [n], none⟩ := by
  rw [List.foldlM_append, reads_unsigned hn, Option.bind_eq_bind, Option.bind_some, List.foldlM_cons, read_dot h]
  rfl

end Scan

theorem byte_le (v : UInt8) : v.toNat ≤ 255 := Nat.le_of_lt_succ v.toNat_lt

theorem inetPton_inetNtop (x : InAddr) : inetPton (inetNtop x) = some x := by
  have hread : (inetNtop x).foldlM Scan.read Scan.start =
      some ⟨[x.a.toNat, x.b.toNat, x.c.toNat], some x.d.toNat⟩ := by
    unfold inetNtop
    simp only [List.append_assoc, List.cons_append]
    rw [Scan.start, Scan.reads_part (byte_le _) (by simp), Scan.reads_part (byte_le _) (by simp),
      Scan.reads_part (byte_le _) (by simp), Scan.reads_unsigned (byte_le _)]
    rfl
  rw [inetPton, hread, Option.bind_some]
  simp [Scan.finish]

/-- `inet_pton` reads what `inet_ntop` writes, and no other text. -/
theorem inetPton_eq_some {text : List UInt8} {x : InAddr} : inetPton text = some x ↔ text = inetNtop x := by
  refine ⟨fun h => ?_, fun h => h ▸ inetPton_inetNtop x⟩
  obtain ⟨⟨parts, part⟩, hs, hf⟩ := Option.bind_eq_some_iff.mp h
  obtain ⟨htext, hparts, hpart⟩ := Scan.start_shows.reads hs
  unfold Scan.finish at hf
  split at hf
  · rename_i a b c d hp hd
    cases hp
    cases hd
    cases hf
    have hbyte : ∀ v ≤ 255, (UInt8.ofNat v).toNat = v := by
      intro v hv
      rw [UInt8.toNat_ofNat']
      omega
    simp only [List.forall_mem_cons] at hparts
    have ha := hbyte a hparts.1
    have hb := hbyte b hparts.2.1
    have hc := hbyte c hparts.2.2.1
    have hd := hbyte d (hpart d rfl)
    rw [List.nil_append] at htext
    simp [htext, inetNtop, ha, hb, hc, hd]
  · cases hf

theorem inetNtop_inj {x y : InAddr} (h : inetNtop x = inetNtop y) : x = y :=
  Option.some.inj ((inetPton_inetNtop x).symm.trans (h ▸ inetPton_inetNtop y))

theorem length_inetNtop_le (x : InAddr) : (inetNtop x).length ≤ 15 := by
  have hpart : ∀ v : UInt8, (unsigned v.toNat).length ≤ 3 := by
    intro v
    have hv := byte_le v
    exact length_unsigned_le (by decide) (by omega)
  have ha := hpart x.a
  have hb := hpart x.b
  have hc := hpart x.c
  have hd := hpart x.d
  simp only [inetNtop, List.length_append, List.length_cons]
  omega

/-! ### `address` -/

/-- What is in a buffer of `size` after `snprintf`. -/
def snprintf (size : Nat) (text : List UInt8) : List UInt8 := text.take (size - 1)

theorem snprintf_fits {size : Nat} {text : List UInt8} (h : text.length < size) : snprintf size text = text :=
  List.take_of_length_le (Nat.le_sub_one_of_lt h)

/-- `c_str()`, as a C function sees it. -/
def cStr (text : List UInt8) : List UInt8 := text.takeWhile (· ≠ 0)

def htons (port : UInt16) : UInt8 × UInt8 := (UInt8.ofNat (port.toNat / 256), UInt8.ofNat (port.toNat % 256))
def ntohs (port : UInt8 × UInt8) : UInt16 := UInt16.ofNat (256 * port.1.toNat + port.2.toNat)

theorem ntohs_htons (port : UInt16) : ntohs (htons port) = port := by
  have hport := port.toNat_lt
  apply UInt16.toNat_inj.mp
  simp only [ntohs, htons, UInt16.toNat_ofNat', UInt8.toNat_ofNat']
  omega

theorem htons_ntohs (port : UInt8 × UInt8) : htons (ntohs port) = port := by
  have hhigh := byte_le port.1
  have hlow := byte_le port.2
  apply Prod.ext <;> apply UInt8.toNat_inj.mp <;>
    simp only [ntohs, htons, UInt16.toNat_ofNat', UInt8.toNat_ofNat'] <;> omega

def afInet : Nat := 2

/-- `sockaddr_in`. -/
structure Address where
  sinFamily : Nat
  sinPort : UInt8 × UInt8
  sinAddr : InAddr
deriving DecidableEq, Repr

namespace Address

/-- Text that is no address leaves the zeros of the `memset`. -/
def create (port : UInt16) (ip : List UInt8) : Address :=
  { sinFamily := afInet
    sinPort := htons port
    sinAddr := (inetPton (cStr ip)).getD ⟨0, 0, 0, 0⟩ }

/-- `inet_ntop` writes nothing into a buffer that is too small. -/
def toIp (x : Address) : List UInt8 := if (inetNtop x.sinAddr).length < 64 then inetNtop x.sinAddr else []

def toPort (x : Address) : UInt16 := ntohs x.sinPort

/-- The port goes into what the IP leaves of the buffer. -/
def toIpPort (x : Address) : List UInt8 :=
  x.toIp ++ snprintf (64 - x.toIp.length) (colon :: unsigned (ntohs x.sinPort).toNat)

variable {x y : Address}

theorem toIp_eq (x : Address) : x.toIp = inetNtop x.sinAddr :=
  if_pos (Nat.lt_of_le_of_lt (length_inetNtop_le _) (by decide))

theorem length_port_le (port : UInt16) : (unsigned port.toNat).length ≤ 5 := by
  have hport := port.toNat_lt
  exact length_unsigned_le (by decide) (by omega)

/-- The buffer holds it all. -/
theorem toIpPort_eq (x : Address) : x.toIpPort = x.toIp ++ colon :: unsigned x.toPort.toNat := by
  have hip := length_inetNtop_le x.sinAddr
  have hport := length_port_le x.toPort
  rw [toIpPort, snprintf_fits]
  · rfl
  · rw [toIp_eq, List.length_cons]
    exact Nat.lt_sub_of_add_lt (by unfold toPort at hport; omega)

theorem length_toIpPort_le (x : Address) : x.toIpPort.length ≤ 21 := by
  have hip := length_inetNtop_le x.sinAddr
  have hport := length_port_le x.toPort
  rw [toIpPort_eq, toIp_eq, List.length_append, List.length_cons]
  omega

/-- The characters of an address. -/
theorem notMem_toIp {c : UInt8} (hc : digitValue c = none) (hdot : c ≠ dot) (x : Address) : c ∉ x.toIp := by
  rw [toIp_eq, inetNtop]
  simp [notMem_unsigned hc, hdot]

theorem notMem_toIpPort {c : UInt8} (hc : digitValue c = none) (hdot : c ≠ dot) (hcolon : c ≠ colon) (x : Address) :
    c ∉ x.toIpPort := by
  rw [toIpPort_eq]
  simp [notMem_unsigned hc, notMem_toIp hc hdot, hcolon]

theorem cStr_eq {text : List UInt8} (h : 0 ∉ text) : cStr text = text :=
  List.takeWhile_eq_self_iff.mpr fun _ hc => decide_eq_true fun h0 => h (h0 ▸ hc)

theorem create_toIp (port : UInt16) (ip : List UInt8) :
    (create port ip).toIp = cStr ip ↔ (inetPton (cStr ip)).isSome := by
  rw [toIp_eq]
  constructor
  · intro h
    rw [← h, inetPton_inetNtop]
    rfl
  · intro h
    obtain ⟨a, ha⟩ := Option.isSome_iff_exists.mp h
    rw [create, ha]
    exact (inetPton_eq_some.mp ha).symm

theorem create_self (h : x.sinFamily = afInet) : create x.toPort x.toIp = x := by
  rw [create, cStr_eq (notMem_toIp rfl (by decide) x), toIp_eq, inetPton_inetNtop, toPort, htons_ntohs, ← h]
  rfl

theorem toIpPort_inj (h : x.toIpPort = y.toIpPort) : x.sinPort = y.sinPort ∧ x.sinAddr = y.sinAddr := by
  rw [toIpPort_eq, toIpPort_eq] at h
  have hcolon : colon ≠ dot := by decide
  obtain ⟨hip, -, hport⟩ :=
    (List.append_cons_inj_of_notMem (notMem_toIp rfl hcolon x) (notMem_unsigned rfl _)).mp h
  rw [toIp_eq, toIp_eq] at hip
  have heq : x.toPort = y.toPort := UInt16.toNat_inj.mp (unsigned_inj hport)
  refine ⟨?_, inetNtop_inj hip⟩
  rw [← htons_ntohs x.sinPort, ← htons_ntohs y.sinPort]
  exact congrArg htons heq

/-- **Addresses and their texts.** The constructor and the accessors undo one another: a port
and an IP in canonical form are given back, and an internet address is rebuilt from its own.
What `to_ip_port` prints is never cut, and tells any two addresses apart. -/
theorem text_faithful (port : UInt16) (ip : List UInt8) (x y : Address) :
    ((create port ip).toPort = port ∧ ((create port ip).toIp = cStr ip ↔ (inetPton (cStr ip)).isSome)) ∧
      (create x.toPort x.toIp = x ↔ x.sinFamily = afInet) ∧
      x.toIpPort = x.toIp ++ colon :: unsigned x.toPort.toNat ∧
      (x.toIpPort = y.toIpPort ↔ x.sinPort = y.sinPort ∧ x.sinAddr = y.sinAddr) := by
  refine ⟨⟨ntohs_htons port, create_toIp port ip⟩, ⟨fun h => ?_, create_self⟩, toIpPort_eq x, toIpPort_inj, ?_⟩
  · rw [← h]
    rfl
  · rintro ⟨hport, haddr⟩
    rw [toIpPort_eq, toIpPort_eq, toIp_eq, toIp_eq, toPort, toPort, hport, haddr]

example : (create 8080 [49, 50, 55, 46, 48, 46, 48, 46, 49]).toIpPort =
    [49, 50, 55, 46, 48, 46, 48, 46, 49, 58, 56, 48, 56, 48] := by decide

end Address

/-! ### The names of connections -/

def dash : UInt8 := 45
def hash : UInt8 := 35

/-- What `%d` makes of a 32-bit number. -/
def asInt (n : Nat) : Int := if n < 2 ^ 31 then n else n - 2 ^ 32

theorem asInt_inj {n m : Nat} (hn : n < 2 ^ 32) (hm : m < 2 ^ 32) (h : asInt n = asInt m) : n = m := by
  unfold asInt at h
  split at h <;> split at h <;> omega

/-- The name that `new_conn` gives to the connection with this id. -/
def connName (name : List UInt8) (listen : Address) (id : Nat) : List UInt8 :=
  name ++ snprintf 64 (dash :: cStr listen.toIpPort ++ hash :: decimal (asInt id))

theorem length_asInt_le {n : Nat} (hn : n < 2 ^ 32) : (decimal (asInt n)).length ≤ 20 :=
  length_decimal_le (by unfold asInt; split <;> omega) (by unfold asInt; split <;> omega)

/-- The buffer holds it all. -/
theorem connName_eq (name : List UInt8) (listen : Address) {id : Nat} (hid : id < 2 ^ 32) :
    connName name listen id = name ++ (dash :: listen.toIpPort ++ hash :: decimal (asInt id)) := by
  have haddr := listen.length_toIpPort_le
  have hnum := length_asInt_le hid
  have hnul : 0 ∉ listen.toIpPort := Address.notMem_toIpPort rfl (by decide) (by decide) listen
  rw [connName, Address.cStr_eq hnul, snprintf_fits]
  simp only [List.length_append, List.length_cons]
  omega

theorem connName_inj {name : List UInt8} {listen : Address} {id id' : Nat} (hid : id < 2 ^ 32) (hid' : id' < 2 ^ 32)
    (h : connName name listen id = connName name listen id') : id = id' := by
  rw [connName_eq name listen hid, connName_eq name listen hid'] at h
  have hnum := List.append_cancel_left (List.append_cancel_left h)
  exact asInt_inj hid hid' (decimal_inj (List.cons.inj hnum).2)

namespace Host
variable {h : Host}

theorem wrap_succ {a b : Nat} : (a + 1) % 2 ^ 32 = (b + 1) % 2 ^ 32 ↔ a % 2 ^ 32 = b % 2 ^ 32 := by
  omega

theorem run_numbered {numThreads mark : Nat} {callbacks : Callbacks} {tr : List Act}
    (hr : exec step (create numThreads callbacks mark) tr = some h) : h.server.Numbered := by
  refine run_induction (fun _ h => h.server.Numbered) (create_kept ..).numbered ?_ hr
  intro tr h a h' hr hn hs
  obtain ⟨done, made, -, hd⟩ := step_did (run_sound hr) (step_cases hs)
  exact hd.numbered hn

/-- **Names of connections.** No name is cut, and two connections that a server has accepted
have one name exactly if a multiple of 2 ^ 32 of them lies between the two. -/
theorem conns_named {numThreads mark : Nat} {callbacks : Callbacks} {tr : List Act}
    (hr : exec step (create numThreads callbacks mark) tr = some h) (name : List UInt8) (listen : Address)
    {o o' : ConnNo} (ho : o < h.server.accepted) (ho' : o' < h.server.accepted) :
    connName name listen (h.server.conn o).id =
        name ++ (dash :: listen.toIpPort ++ hash :: decimal (asInt ((o + 1) % 2 ^ 32))) ∧
      (connName name listen (h.server.conn o).id = connName name listen (h.server.conn o').id ↔
        o % 2 ^ 32 = o' % 2 ^ 32) := by
  have hn := run_numbered hr
  have hlt : ∀ n, n % 2 ^ 32 < 2 ^ 32 := fun n => Nat.mod_lt n (by decide)
  rw [hn.id o ho, hn.id o' ho']
  refine ⟨connName_eq name listen (hlt _), fun heq => ?_, fun heq => ?_⟩
  · exact wrap_succ.mp (connName_inj (hlt _) (hlt _) heq)
  · rw [wrap_succ.mpr heq]

/-- The second connection of a server on port 80 is called `s-0.0.0.0:80#2`. -/
theorem conns_named_second : ∃ h, exec step (create 1 ⟨true, true, false, false, false⟩ 64)
      (established.take 4 ++ [.accept, .exec 0, .eloop 1 (.testWakeup 0), .eloop 1 (.wakeup 0), .exec 0, .accept]) =
        some h ∧
    connName [115] (Address.create 80 []) (h.server.conn 1).id =
      [115, 45, 48, 46, 48, 46, 48, 46, 48, 58, 56, 48, 35, 50] ∧
    connName [115] (Address.create 80 []) (h.server.conn 1).id ≠
      connName [115] (Address.create 80 []) (h.server.conn 0).id := by
  obtain ⟨h, hr, hacc⟩ : ∃ h, exec step (create 1 ⟨true, true, false, false, false⟩ 64)
      (established.take 4 ++ [.accept, .exec 0, .eloop 1 (.testWakeup 0), .eloop 1 (.wakeup 0), .exec 0, .accept]) =
        some h ∧ h.server.accepted = 2 :=
    ⟨_, (Option.some_get (by decide +kernel)).symm, by decide +kernel⟩
  have hlt : 1 < h.server.accepted := by omega
  obtain ⟨hname, hsame⟩ := conns_named hr [115] (Address.create 80 []) hlt (Nat.lt_of_succ_lt hlt)
  refine ⟨h, hr, ?_, fun heq => absurd (hsame.mp heq) (by decide)⟩
  rw [hname]
  decide +kernel

end Host

end Caimr.Net
