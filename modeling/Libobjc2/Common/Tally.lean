import Mathlib.Algebra.BigOperators.Group.Finset.Basic
import Mathlib.Algebra.Order.BigOperators.Group.Finset
import Mathlib.Logic.Function.Basic

/-!
# Tallies over numbered participants

Participants are numbered from 0 and each is at some place. `tally f place n` adds up what the first `n` of
them weigh by where they are.

* `tally_move`: one participant moves.
* `tally_succ`: one participant more.
* `tally_eq_zero`, `le_tally`: what a tally says of the single participants.
-/

namespace Libobjc2.Common

open Finset

variable {Place : Type*}

/-- The weight of the first `n` participants. -/
def tally (f : Place → ℕ) (place : ℕ → Place) (n : ℕ) : ℕ := ∑ i ∈ range n, f (place i)

variable {f g : Place → ℕ} {place place' : ℕ → Place} {n i : ℕ}

theorem tally_move (hi : i < n) (p : Place) :
    tally f (Function.update place i p) n + f (place i) = tally f place n + f p := by
  have hmem : i ∈ range n := mem_range.mpr hi
  unfold tally
  rw [← add_sum_erase _ _ hmem, ← add_sum_erase (range n) (fun i => f (place i)) hmem, Function.update_self]
  have hrest : ∑ j ∈ (range n).erase i, f (Function.update place i p j) = ∑ j ∈ (range n).erase i,
      f (place j) := by
    refine sum_congr rfl fun j hj => ?_
    rw [Function.update_of_ne (ne_of_mem_erase hj)]
  rw [hrest]
  omega

theorem tally_succ (p : Place) : tally f (Function.update place n p) (n + 1) = tally f place n + f p := by
  unfold tally
  rw [sum_range_succ, Function.update_self]
  congr 1
  refine sum_congr rfl fun j hj => ?_
  rw [Function.update_of_ne (mem_range.mp hj).ne]

theorem le_tally (hi : i < n) : f (place i) ≤ tally f place n :=
  single_le_sum (f := fun i => f (place i)) (fun _ _ => Nat.zero_le _) (mem_range.mpr hi)

theorem tally_eq_zero : tally f place n = 0 ↔ ∀ i < n, f (place i) = 0 := by
  unfold tally
  rw [sum_eq_zero_iff]
  exact forall_congr' fun i => by rw [mem_range]

end Libobjc2.Common
