import Mathlib.Data.Nat.Digits.Defs
import Mathlib.Tactic

/-!
# LEB128

A number is cut into groups of seven bits, lowest first, with a high bit in every byte but the last. An
unsigned number ends with its last group that is not zero, a signed one as soon as the groups that are left
out repeat the sign bit of the last one.

Results:
* `ofDigits_ulebDigits`, `length_ulebDigits_le`: the groups of an unsigned number.
* `ofDigits_slebDigits`, `slebDigits_range`, `length_slebDigits_le`: those of a signed number.
-/

namespace Libobjc2.Common

/-- The groups of an unsigned number. -/
def ulebDigits (v : ℕ) : List ℕ :=
  if v < 128 then [v] else v % 128 :: ulebDigits (v / 128)
termination_by v
decreasing_by omega

/-- The groups of a signed number; the division rounds down, as an arithmetic shift does. -/
def slebDigits (v : ℤ) : List ℕ :=
  if -64 ≤ v ∧ v < 64 then [(v % 128).toNat] else (v % 128).toNat :: slebDigits (v / 128)
termination_by v.natAbs
decreasing_by omega

/-- The bytes of the groups. -/
def groups : List ℕ → List (BitVec 8)
  | [] => []
  | [d] => [BitVec.ofNat 8 d]
  | d :: d' :: ds => BitVec.ofNat 8 (d + 128) :: groups (d' :: ds)

def encodeUleb (v : ℕ) : List (BitVec 8) := groups (ulebDigits v)

def encodeSleb (v : ℤ) : List (BitVec 8) := groups (slebDigits v)

@[simp] theorem length_groups (ds : List ℕ) : (groups ds).length = ds.length := by
  induction ds using groups.induct with
  | case1 => rfl
  | case2 d => rfl
  | case3 d d' ds ih =>
      rw [groups, List.length_cons, ih, List.length_cons, List.length_cons, List.length_cons]

/-! ## Unsigned numbers -/

theorem ulebDigits_ne_nil (v : ℕ) : ulebDigits v ≠ [] := by
  rw [ulebDigits]
  split <;> simp

theorem ulebDigits_lt (v : ℕ) : ∀ d ∈ ulebDigits v, d < 128 := by
  induction v using ulebDigits.induct with
  | case1 v h =>
    rw [ulebDigits, if_pos h]
    simpa using h
  | case2 v h ih =>
    rw [ulebDigits, if_neg h]
    exact List.forall_mem_cons.mpr ⟨Nat.mod_lt v (by decide), ih⟩

theorem ofDigits_ulebDigits (v : ℕ) : Nat.ofDigits 128 (ulebDigits v) = v := by
  induction v using ulebDigits.induct with
  | case1 v h => rw [ulebDigits, if_pos h, Nat.ofDigits_singleton]
  | case2 v h ih => rw [ulebDigits, if_neg h, Nat.ofDigits_cons, ih, Nat.mod_add_div]

theorem length_ulebDigits_le {k v : ℕ} (h : v < 128 ^ (k + 1)) : (ulebDigits v).length ≤ k + 1 := by
  induction k generalizing v with
  | zero =>
    rw [ulebDigits, if_pos (by simpa using h)]
    simp
  | succ k ih =>
    rw [ulebDigits]
    split
    · simp
    · rw [List.length_cons]
      have := ih (v := v / 128) (Nat.div_lt_of_lt_mul (by rwa [← Nat.pow_succ']))
      omega

/-! ## Signed numbers -/

theorem slebDigits_ne_nil (v : ℤ) : slebDigits v ≠ [] := by
  rw [slebDigits]
  split <;> simp

theorem slebDigits_lt (v : ℤ) : ∀ d ∈ slebDigits v, d < 128 := by
  have hdigit : ∀ v : ℤ, (v % 128).toNat < 128 := fun v => by omega
  induction v using slebDigits.induct with
  | case1 v h =>
    rw [slebDigits, if_pos h]
    simpa using hdigit v
  | case2 v h ih =>
    rw [slebDigits, if_neg h]
    exact List.forall_mem_cons.mpr ⟨hdigit v, ih⟩

/-- The groups are the number in two's complement. -/
theorem ofDigits_slebDigits (v : ℤ) : ((Nat.ofDigits 128 (slebDigits v) : ℕ) : ℤ) =
    if v < 0 then v + 128 ^ (slebDigits v).length else v := by
  induction v using slebDigits.induct with
  | case1 v h =>
    rw [slebDigits, if_pos h, Nat.ofDigits_singleton, List.length_singleton]
    split <;> omega
  | case2 v h ih =>
    have hsign : v / 128 < 0 ↔ v < 0 := by omega
    rw [slebDigits, if_neg h, Nat.ofDigits_cons, List.length_cons, Nat.cast_add, Nat.cast_mul, ih, pow_succ]
    simp only [hsign]
    split
    · generalize (128 : ℤ) ^ (slebDigits (v / 128)).length = p
      omega
    · omega

theorem slebDigits_range (v : ℤ) :
    -128 ^ (slebDigits v).length ≤ 2 * v ∧ 2 * v < 128 ^ (slebDigits v).length := by
  induction v using slebDigits.induct with
  | case1 v h =>
    rw [slebDigits, if_pos h, List.length_singleton]
    omega
  | case2 v h ih =>
    obtain ⟨n, hn⟩ := Nat.exists_eq_succ_of_ne_zero
        (List.length_pos_iff.mpr (slebDigits_ne_nil (v / 128))).ne'
    rw [slebDigits, if_neg h, List.length_cons]
    rw [hn] at ih ⊢
    rw [pow_succ] at ih ⊢
    rw [pow_succ]
    generalize (128 : ℤ) ^ n = p at ih ⊢
    omega

theorem length_slebDigits_le {k : ℕ} {v : ℤ} (h : -128 ^ (k + 1) ≤ 2 * v ∧ 2 * v < 128 ^ (k + 1)) :
    (slebDigits v).length ≤ k + 1 := by
  induction k generalizing v with
  | zero =>
    rw [slebDigits, if_pos (by omega)]
    simp
  | succ k ih =>
    rw [slebDigits]
    split
    · simp
    · rw [List.length_cons]
      rw [pow_succ] at h
      have hhalf : -128 ^ (k + 1) ≤ 2 * (v / 128) ∧ 2 * (v / 128) < 128 ^ (k + 1) := by
        have heven : (128 : ℤ) ^ (k + 1) = 2 * (64 * 128 ^ k) := by ring
        rw [heven] at h ⊢
        generalize (128 : ℤ) ^ k = p at h ⊢
        omega
      have := ih hhalf
      omega

end Libobjc2.Common
