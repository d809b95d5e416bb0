import Mathlib.Algebra.Order.Ring.Int

/-! What the code meets at its edges: `size_t` arithmetic, the ways a call can end
other than by returning, and the answers of the kernel to `::write` and `::readv`. -/
namespace Caimr.Net

/-- The contents of a `std::string` or of a stretch of memory. -/
abbrev Bytes := List UInt8

/-! ### Arithmetic on `size_t` -/

def sizeAdd (a b : Nat) : Nat := (a + b) % 2 ^ 64

def sizeSub (a b : Nat) : Nat := (a + 2 ^ 64 - b) % 2 ^ 64

/-- `std::vector<char>::max_size()`. -/
def maxSize : Nat := 2 ^ 63 - 1

theorem sizeAdd_eq {a b : Nat} (h : a + b < 2 ^ 64) : sizeAdd a b = a + b :=
  Nat.mod_eq_of_lt h

theorem sizeAdd_le (a b : Nat) : sizeAdd a b ≤ a + b :=
  Nat.mod_le _ _

theorem sizeSub_eq {a b : Nat} (h : b ≤ a) (ha : a < 2 ^ 64) : sizeSub a b = a - b := by
  unfold sizeSub
  omega

/-! ### Calls that do not return -/

/-- Why a call does not return: `std::length_error` thrown by `std::vector`, or an
access outside the storage of a vector, where C++ says nothing about what follows. -/
inductive Fault where
  | lengthError
  | outOfBounds
deriving DecidableEq, Repr

/-- A sequence of two calls returns if both do. -/
theorem bind_ok {α β : Type} {x : Except Fault α} {f : α → Except Fault β} {b : β} :
    (x >>= f) = .ok b ↔ ∃ a, x = .ok a ∧ f a = .ok b := by
  cases x with
  | error e => simp [bind, Except.bind]
  | ok a => simp [bind, Except.bind]

theorem ok_bind {α β : Type} (a : α) (f : α → Except Fault β) : (Except.ok a >>= f) = f a := rfl

/-! ### The kernel -/

/-- The values of `errno` that the code tells apart. -/
inductive Errno where
  | wouldBlock
  | pipe
  | connReset
  | other (code : Nat)
deriving DecidableEq, Repr

/-- The kernel's answer to one `::write`: it accepts a prefix of what is offered, or
fails. An answer `accepts k` to fewer than `k` bytes accepts them all, so that every
answer is one to every request, and every count up to the requested one is an answer. -/
inductive WriteResult where
  | accepts (k : Nat)
  | fails (e : Errno)
deriving DecidableEq, Repr

/-- What `::write` of `len` bytes returns. -/
def WriteResult.returned (w : WriteResult) (len : Nat) : Except Errno Nat :=
  match w with
  | .accepts k => .ok (min k len)
  | .fails e => .error e

/-- The bytes of `data` that the kernel has taken over. -/
def WriteResult.taken (w : WriteResult) (data : Bytes) : Bytes :=
  match w with
  | .accepts k => data.take k
  | .fails _ => []

theorem WriteResult.returned_le {w : WriteResult} {len n : Nat} (h : w.returned len = .ok n) :
    n ≤ len := by
  cases w with
  | accepts k =>
    simp only [returned, Except.ok.injEq] at h
    omega
  | fails e => simp [returned] at h

theorem WriteResult.taken_of_ok {w : WriteResult} {data : Bytes} {n : Nat}
    (h : w.returned data.length = .ok n) : w.taken data = data.take n := by
  cases w with
  | accepts k =>
    simp only [returned, Except.ok.injEq] at h
    subst h
    simp only [taken]
    rw [← List.take_take, List.take_length]
  | fails e => simp [returned] at h

theorem WriteResult.taken_of_error {w : WriteResult} {data : Bytes} {len : Nat} {e : Errno}
    (h : w.returned len = .error e) : w.taken data = [] := by
  cases w with
  | accepts k => simp [returned] at h
  | fails e => rfl

/-- The kernel's answer to one `::readv`: the bytes it has, of which it hands over as
many as fit, none at the end of the stream, or an error. -/
inductive ReadResult where
  | received (bytes : Bytes)
  | fails (e : Errno)
deriving DecidableEq, Repr

end Caimr.Net
