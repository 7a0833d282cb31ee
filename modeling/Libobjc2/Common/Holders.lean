import Mathlib.Algebra.BigOperators.Group.Finset.Piecewise
import Mathlib.Algebra.BigOperators.Group.Finset.Basic
import Mathlib.Algebra.Order.BigOperators.Group.Finset
import Mathlib.Tactic.Ring

/-!
# Counting who holds a reference

A heap maps addresses below `bound` to nodes, and `out n p` is the number of references from
the node `n` to the address `p`. `holders heap out bound X p` counts the references to `p`
from the nodes outside the set `X`.

* `holders_write`: replacing one node changes the count by what the node held.
* `holders_alloc`: a node at a new address adds what it holds.
* `holders_insert`: leaving a node out of the count takes away what it holds.
* `holders_pos_iff`: the count is positive exactly if some node holds the address.
-/

namespace Libobjc2.Common

variable {Node : Type*}

/-- The references a possibly absent node holds to `p`. -/
def outOf (out : Node → ℕ → ℕ) (n : Option Node) (p : ℕ) : ℕ := n.elim 0 (out · p)

@[simp] theorem outOf_none (out : Node → ℕ → ℕ) (p : ℕ) : outOf out none p = 0 := rfl

@[simp] theorem outOf_some (out : Node → ℕ → ℕ) (n : Node) (p : ℕ) : outOf out (some n) p = out n p := rfl

/-- The number of references to `p` from the nodes below `bound` and outside `X`. -/
def holders (heap : ℕ → Option Node) (out : Node → ℕ → ℕ) (bound : ℕ) (X : Finset ℕ) (p : ℕ) : ℕ :=
  ∑ q ∈ Finset.range bound \ X, outOf out (heap q) p

variable {heap heap' : ℕ → Option Node} {out : Node → ℕ → ℕ} {bound : ℕ} {X : Finset ℕ} {p q : ℕ}

theorem holders_congr (h : ∀ q < bound, q ∉ X → outOf out (heap q) p = outOf out (heap' q) p) :
    holders heap out bound X p = holders heap' out bound X p := by
  refine Finset.sum_congr rfl fun q hq => h q ?_ ?_
  · exact Finset.mem_range.mp (Finset.mem_sdiff.mp hq).1
  · exact (Finset.mem_sdiff.mp hq).2

theorem holders_write (hq : q < bound) (hX : q ∉ X) (n : Option Node) :
    holders (Function.update heap q n) out bound X p + outOf out (heap q) p =
      holders heap out bound X p + outOf out n p := by
  have hmem : q ∈ Finset.range bound \ X := by simp [hq, hX]
  have hrest : ∑ r ∈ (Finset.range bound \ X).erase q, outOf out (Function.update heap q n r) p =
      ∑ r ∈ (Finset.range bound \ X).erase q, outOf out (heap r) p :=
    Finset.sum_congr rfl fun r hr => by rw [Function.update_of_ne (Finset.ne_of_mem_erase hr)]
  unfold holders
  rw [← Finset.add_sum_erase _ _ hmem, ← Finset.add_sum_erase _ (fun r => outOf out (heap r) p) hmem,
    hrest, Function.update_self]
  ring

theorem holders_write_of_mem (hX : q ∈ X) (n : Option Node) :
    holders (Function.update heap q n) out bound X p = holders heap out bound X p :=
  holders_congr fun r _ hr => by rw [Function.update_of_ne (ne_of_mem_of_not_mem hX hr).symm]

theorem holders_write_of_le (hq : bound ≤ q) (n : Option Node) :
    holders (Function.update heap q n) out bound X p = holders heap out bound X p :=
  holders_congr fun r hr _ => by rw [Function.update_of_ne (by omega)]

theorem holders_alloc (hX : bound ∉ X) (n : Option Node) :
    holders (Function.update heap bound n) out (bound + 1) X p =
      holders heap out bound X p + outOf out n p := by
  have hset : Finset.range (bound + 1) \ X = insert bound (Finset.range bound \ X) := by
    rw [Finset.range_add_one, Finset.insert_sdiff_of_notMem _ hX]
  have hrest : holders (Function.update heap bound n) out bound X p = holders heap out bound X p :=
    holders_write_of_le le_rfl n
  rw [holders, hset, Finset.sum_insert (by simp), Function.update_self]
  rw [holders] at hrest
  rw [hrest]
  ring

theorem holders_insert (hq : q < bound) (hX : q ∉ X) :
    holders heap out bound (insert q X) p + outOf out (heap q) p = holders heap out bound X p := by
  have hset : Finset.range bound \ insert q X = (Finset.range bound \ X).erase q := by
    ext r
    simp only [Finset.mem_sdiff, Finset.mem_insert, Finset.mem_erase, not_or]
    tauto
  have hmem : q ∈ Finset.range bound \ X := by simp [hq, hX]
  rw [holders, hset, add_comm, Finset.add_sum_erase _ (fun r => outOf out (heap r) p) hmem]
  rfl

theorem holders_pos_iff :
    0 < holders heap out bound X p ↔ ∃ q < bound, q ∉ X ∧ ∃ n, heap q = some n ∧ 0 < out n p := by
  unfold holders
  rw [Finset.sum_pos_iff]
  constructor
  · rintro ⟨q, hq, hpos⟩
    cases hn : heap q with
    | none => simp [hn] at hpos
    | some n => exact ⟨q, by simpa using (Finset.mem_sdiff.mp hq).1, (Finset.mem_sdiff.mp hq).2, n, hn,
        by simpa [hn] using hpos⟩
  · rintro ⟨q, hq, hX, n, hn, hpos⟩
    exact ⟨q, by simp [hq, hX], by simpa [hn] using hpos⟩

end Libobjc2.Common
