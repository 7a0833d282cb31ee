import Mathlib.Data.List.Basic
import Mathlib.Order.Nat

/-!
# Blocks stacked on each other

A block is an offset and a size. Blocks are stacked between two bounds if each one starts at or
behind the end of the one before it.

Results:
* `stacked_concat`: a block behind the last one.
* `Stacked.within`: every block lies between the bounds.
* `Stacked.pairwise`: every block ends before the later ones start.
-/

namespace Libobjc2.Common

/-- The blocks lie between `lo` and `hi`, each behind the one before it. -/
def Stacked : ℕ → List (ℕ × ℕ) → ℕ → Prop
  | lo, [], hi => lo ≤ hi
  | lo, b :: bs, hi => lo ≤ b.1 ∧ Stacked (b.1 + b.2) bs hi

variable {lo hi hi' : ℕ} {b : ℕ × ℕ} {bs : List (ℕ × ℕ)}

theorem Stacked.le (h : Stacked lo bs hi) : lo ≤ hi := by
  induction bs generalizing lo with
  | nil => exact h
  | cons b bs ih => exact h.1.trans ((Nat.le_add_right _ _).trans (ih h.2))

theorem stacked_concat (h : Stacked lo bs hi) (hb : hi ≤ b.1) (hend : b.1 + b.2 ≤ hi') :
    Stacked lo (bs ++ [b]) hi' := by
  induction bs generalizing lo with
  | nil => exact ⟨Nat.le_trans h hb, hend⟩
  | cons c bs ih => exact ⟨h.1, ih h.2⟩

theorem Stacked.within (h : Stacked lo bs hi) : ∀ b ∈ bs, lo ≤ b.1 ∧ b.1 + b.2 ≤ hi := by
  induction bs generalizing lo with
  | nil => simp
  | cons c bs ih =>
    intro b hb
    rcases List.mem_cons.mp hb with rfl | hb
    · exact ⟨h.1, h.2.le⟩
    · obtain ⟨hlo, hhi⟩ := ih h.2 b hb
      exact ⟨h.1.trans ((Nat.le_add_right _ _).trans hlo), hhi⟩

theorem Stacked.pairwise (h : Stacked lo bs hi) : bs.Pairwise fun b c => b.1 + b.2 ≤ c.1 := by
  induction bs generalizing lo with
  | nil => exact List.Pairwise.nil
  | cons b bs ih => exact List.pairwise_cons.mpr ⟨fun c hc => (h.2.within c hc).1, ih h.2⟩

end Libobjc2.Common
