import Mathlib.Data.List.Basic
import Mathlib.Tactic.Common
import Mathlib.Algebra.Group.Nat.Defs

/-!
# Values in a memory of bytes

A memory gives a byte for every address from which one can be read. `HoldsAt m a bytes` says that it has
the given bytes from an address on.

Results:
* `holdsAt_append`: texts one behind the other.
* `holdsAt_placed`, `placed_end`: the memory in which nothing but a given text can be read.
* `readBytes_holdsAt`: a read of the bytes that are there.
* `leValue_leBytes`: the little-endian bytes of a number.
-/

namespace Libobjc2.Common

/-- `none`: nothing can be read there. -/
abbrev Bytes := ℕ → Option (BitVec 8)

/-- The memory has the bytes from address `a` on. -/
def HoldsAt (m : Bytes) : ℕ → List (BitVec 8) → Prop
  | _, [] => True
  | a, b :: bs => m a = some b ∧ HoldsAt m (a + 1) bs

/-- The memory in which nothing but `bytes` can be read, from address `base` on. -/
def placed (base : ℕ) (bytes : List (BitVec 8)) : Bytes := fun a =>
  if base ≤ a then bytes[a - base]? else none

variable {m : Bytes}

theorem holdsAt_append (a : ℕ) (bs cs : List (BitVec 8)) :
    HoldsAt m a (bs ++ cs) ↔ HoldsAt m a bs ∧ HoldsAt m (a + bs.length) cs := by
  induction bs generalizing a with
  | nil => simp [HoldsAt]
  | cons b bs ih =>
    rw [List.cons_append, HoldsAt, HoldsAt, ih, and_assoc, List.length_cons, Nat.add_assoc, Nat.add_comm 1]

theorem holdsAt_iff (a : ℕ) (bs : List (BitVec 8)) :
    HoldsAt m a bs ↔ ∀ i < bs.length, m (a + i) = bs[i]? := by
  induction bs generalizing a with
  | nil => simp [HoldsAt]
  | cons b bs ih =>
    rw [HoldsAt, ih]
    refine ⟨fun ⟨hhead, htail⟩ i hi => ?_, fun h => ⟨h 0 (by simp), fun i hi => ?_⟩⟩
    · cases i with
      | zero => exact hhead
      | succ i =>
        have := htail i (by simpa using hi)
        rwa [Nat.add_assoc, Nat.add_comm 1] at this
    · have := h (i + 1) (by simpa using hi)
      rwa [Nat.add_assoc, Nat.add_comm 1]

theorem holdsAt_placed (base : ℕ) (bytes : List (BitVec 8)) : HoldsAt (placed base bytes) base bytes := by
  rw [holdsAt_iff]
  intro i _
  simp [placed]

/-- Nothing can be read behind the text. -/
theorem placed_end (base : ℕ) (bytes : List (BitVec 8)) : placed base bytes (base + bytes.length) = none := by
  simp [placed]

/-! ## Fixed-size values -/

/-- `n` bytes from address `a` on. -/
def readBytes (m : Bytes) : ℕ → ℕ → Option (List (BitVec 8))
  | 0, _ => some []
  | n + 1, a => (m a).bind fun b => (readBytes m n (a + 1)).map (b :: ·)

theorem readBytes_holdsAt {a : ℕ} {bs : List (BitVec 8)} (h : HoldsAt m a bs) :
    readBytes m bs.length a = some bs := by
  induction bs generalizing a with
  | nil => rfl
  | cons b bs ih => rw [List.length_cons, readBytes, h.1, ih h.2, Option.bind_some, Option.map_some]

theorem readBytes_none {a : ℕ} (h : m a = none) (n : ℕ) : readBytes m (n + 1) a = none := by
  rw [readBytes, h, Option.bind_none]

/-- The number whose little-endian bytes these are. -/
def leValue : List (BitVec 8) → ℕ
  | [] => 0
  | b :: bs => b.toNat + 256 * leValue bs

/-- The `n` low bytes of a number, lowest first. -/
def leBytes : ℕ → ℕ → List (BitVec 8)
  | 0, _ => []
  | n + 1, v => BitVec.ofNat 8 v :: leBytes n (v / 256)

@[simp] theorem length_leBytes (n v : ℕ) : (leBytes n v).length = n := by
  induction n generalizing v with
  | zero => rfl
  | succ n ih => rw [leBytes, List.length_cons, ih]

theorem leValue_leBytes (n v : ℕ) : leValue (leBytes n v) = v % 2 ^ (8 * n) := by
  induction n generalizing v with
  | zero => simp [leBytes, leValue, Nat.mod_one]
  | succ n ih =>
    rw [leBytes, leValue, ih, BitVec.toNat_ofNat, Nat.mul_succ, Nat.add_comm (8 * n) 8, Nat.pow_add,
      Nat.mod_mul]

end Libobjc2.Common
