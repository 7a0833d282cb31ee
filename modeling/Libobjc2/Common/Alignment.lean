import Mathlib.Algebra.Order.Floor.Div
import Mathlib.Tactic.Ring

/-!
# Alignment of offsets

The least multiple of an alignment that is not below an offset, and the
alignments of a platform: powers of two, of which the larger of two is a
multiple of the other.

Results:

* `dvd_nextMultiple`, `le_nextMultiple`, `nextMultiple_le`: the specification.
* `nextMultiple_eq`: a multiple less than one alignment above the offset is it.
* `nextMultiple_add`, `nextMultiple_mul`: shifting by a multiple, scaling.
* `IsAlignment.dvd_max_left`, `IsAlignment.dvd_max_right`: alignments divide
  the larger one.
-/

namespace Libobjc2.Alignment

/-! ## The next multiple -/

/-- The least multiple of `a` that is at least `n`. -/
def nextMultiple (a n : ℕ) : ℕ := a * (n ⌈/⌉ a)

theorem dvd_nextMultiple (a n : ℕ) : a ∣ nextMultiple a n := Dvd.intro _ rfl

theorem le_nextMultiple {a : ℕ} (ha : 0 < a) (n : ℕ) : n ≤ nextMultiple a n :=
  (ceilDiv_le_iff_le_mul ha).mp le_rfl

theorem nextMultiple_le {a n m : ℕ} (ha : 0 < a) (hd : a ∣ m) (hn : n ≤ m) : nextMultiple a n ≤ m := by
  obtain ⟨k, rfl⟩ := hd
  exact Nat.mul_le_mul_left a ((ceilDiv_le_iff_le_mul ha).mpr hn)

/-- The next multiple is the only one within one alignment of the offset. -/
theorem nextMultiple_eq {a n m : ℕ} (hd : a ∣ m) (hn : n ≤ m) (hm : m < n + a) : nextMultiple a n = m := by
  have ha : 0 < a := by omega
  have hle := nextMultiple_le ha hd hn
  have hge := le_nextMultiple ha n
  have hdvd : a ∣ m - nextMultiple a n := Nat.dvd_sub hd (dvd_nextMultiple a n)
  have hzero := Nat.eq_zero_of_dvd_of_lt hdvd (by omega)
  omega

theorem nextMultiple_lt {a : ℕ} (ha : 0 < a) (n : ℕ) : nextMultiple a n < n + a := by
  by_cases h : n ≤ nextMultiple a n - a
  · have hdvd : a ∣ nextMultiple a n - a := Nat.dvd_sub (dvd_nextMultiple a n) (dvd_refl a)
    have := nextMultiple_le ha hdvd h
    omega
  · have := le_nextMultiple ha n
    omega

theorem nextMultiple_of_dvd {a n : ℕ} (ha : 0 < a) (h : a ∣ n) : nextMultiple a n = n :=
  nextMultiple_eq h le_rfl (by omega)

theorem nextMultiple_add {a b : ℕ} (ha : 0 < a) (h : a ∣ b) (n : ℕ) :
    nextMultiple a (b + n) = b + nextMultiple a n := by
  apply nextMultiple_eq
  · exact Nat.dvd_add h (dvd_nextMultiple a n)
  · have := le_nextMultiple ha n
    omega
  · have := nextMultiple_lt ha n
    omega

theorem nextMultiple_mul {a k : ℕ} (ha : 0 < a) (hk : 0 < k) (n : ℕ) :
    nextMultiple (k * a) (k * n) = k * nextMultiple a n := by
  apply nextMultiple_eq
  · exact Nat.mul_dvd_mul_left k (dvd_nextMultiple a n)
  · exact Nat.mul_le_mul_left k (le_nextMultiple ha n)
  · rw [← Nat.mul_add]
    exact Nat.mul_lt_mul_of_pos_left (nextMultiple_lt ha n) hk

/-! ## Alignments -/

/-- The alignments of C are powers of two. -/
def IsAlignment (a : ℕ) : Prop := ∃ k, a = 2 ^ k

theorem IsAlignment.pos {a : ℕ} (h : IsAlignment a) : 0 < a := by
  obtain ⟨k, rfl⟩ := h
  exact Nat.two_pow_pos k

theorem IsAlignment.dvd_of_le {a b : ℕ} (ha : IsAlignment a) (hb : IsAlignment b) (h : a ≤ b) : a ∣ b := by
  obtain ⟨i, rfl⟩ := ha
  obtain ⟨j, rfl⟩ := hb
  exact Nat.pow_dvd_pow 2 ((Nat.pow_le_pow_iff_right (by omega)).mp h)

theorem IsAlignment.max {a b : ℕ} (ha : IsAlignment a) (hb : IsAlignment b) : IsAlignment (max a b) := by
  rcases max_choice a b with h | h <;> rwa [h]

theorem IsAlignment.dvd_max_left {a b : ℕ} (ha : IsAlignment a) (hb : IsAlignment b) : a ∣ Max.max a b :=
  ha.dvd_of_le (ha.max hb) (le_max_left a b)

theorem IsAlignment.dvd_max_right {a b : ℕ} (ha : IsAlignment a) (hb : IsAlignment b) : b ∣ Max.max a b :=
  hb.dvd_of_le (ha.max hb) (le_max_right a b)

end Libobjc2.Alignment
