import Mathlib.Data.List.Perm.Basic
import Mathlib.Data.List.Range
import Mathlib.Tactic.Common

/-!
# Allocations that can fail

A heap that numbers the requests for blocks: each of them yields the block of its number or fails, and
blocks are freed. Code that allocates keeps a balance: the blocks it has been granted are those that it
still owns and those that it has freed, each of them once.

Results:
* `Accounts`: the balance, with rules for the sequence of two pieces of code (`Accounts.trans`), for a
  request (`accounts_allocate`) and for freeing what is owned (`Accounts.freeAll`).
* `Accounts.freed_once`: code that owns nothing in the end has freed each of its blocks exactly once.
* `Accounts.fresh`: blocks that have been granted are none of the earlier ones.
-/

namespace Libobjc2.Common

/-- The number of the next request, and the blocks that were freed. -/
structure Heap where
  next : ℕ
  freed : List ℕ
deriving DecidableEq, Repr

namespace Heap

/-- A request: the block of its number, if it does not fail. -/
def allocate (fails : ℕ → Bool) (h : Heap) : Option ℕ × Heap :=
  (if fails h.next then none else some h.next, { h with next := h.next + 1 })

/-- `free`, for which `NULL` is nothing. -/
def free (h : Heap) (block : Option ℕ) : Heap := { h with freed := h.freed ++ block.toList }

/-- Blocks that are freed one after the other. -/
def freeAll (h : Heap) (blocks : List ℕ) : Heap := { h with freed := h.freed ++ blocks }

theorem free_eq (h : Heap) (block : Option ℕ) : h.free block = h.freeAll block.toList := rfl

@[simp] theorem freeAll_next (h : Heap) (blocks : List ℕ) : (h.freeAll blocks).next = h.next := rfl

@[simp] theorem freeAll_nil (h : Heap) : h.freeAll [] = h := by simp [freeAll]

theorem freeAll_freeAll (h : Heap) (a b : List ℕ) : (h.freeAll a).freeAll b = h.freeAll (a ++ b) := by
  simp [freeAll]

end Heap

section

variable (fails : ℕ → Bool)

/-- The blocks of the requests from `a` to `b`. -/
def granted (a b : ℕ) : List ℕ := (List.range' a (b - a)).filter fun k => !fails k

/-- Between two heaps the blocks that were granted are the owned ones and those that were freed. -/
structure Accounts (h h' : Heap) (owned : List ℕ) : Prop where
  le : h.next ≤ h'.next
  balance : ∃ freed, h'.freed = h.freed ++ freed ∧ (owned ++ freed).Perm (granted fails h.next h'.next)

/-- A request between two heaps failed. -/
def Failed (h h' : Heap) : Prop := ∃ k, h.next ≤ k ∧ k < h'.next ∧ fails k = true

/-- No request between two heaps failed. -/
def Served (h h' : Heap) : Prop := ∀ k, h.next ≤ k → k < h'.next → fails k = false

end

section

variable {fails : ℕ → Bool} {h h₁ h₂ : Heap} {a b : List ℕ}

theorem granted_append {i j k : ℕ} (hij : i ≤ j) (hjk : j ≤ k) :
    granted fails i j ++ granted fails j k = granted fails i k := by
  have hrange : List.range' i (j - i) ++ List.range' j (k - j) = List.range' i (k - i) := by
    have hsplit := @List.range'_append i (j - i) (k - j) 1
    have hj : i + 1 * (j - i) = j := by omega
    have hk : j - i + (k - j) = k - i := by omega
    rwa [hj, hk] at hsplit
  unfold granted
  rw [← List.filter_append, hrange]

theorem mem_granted {i j k : ℕ} : k ∈ granted fails i j ↔ (i ≤ k ∧ k < j) ∧ fails k = false := by
  unfold granted
  rw [List.mem_filter, List.mem_range'_1, Bool.not_eq_true']
  constructor
  · rintro ⟨⟨h1, h2⟩, hf⟩
    exact ⟨⟨h1, by omega⟩, hf⟩
  · rintro ⟨⟨h1, h2⟩, hf⟩
    exact ⟨⟨h1, by omega⟩, hf⟩

theorem nodup_granted (i j : ℕ) : (granted fails i j).Nodup :=
  (List.nodup_range' (s := i) (n := j - i)).filter _

theorem Accounts.refl (h : Heap) : Accounts fails h h [] :=
  ⟨le_refl _, [], by simp, by simp [granted]⟩

/-- Two pieces of code own what each of them owns. -/
theorem Accounts.trans (ha : Accounts fails h h₁ a) (hb : Accounts fails h₁ h₂ b) :
    Accounts fails h h₂ (a ++ b) := by
  obtain ⟨freedA, hfreedA, hpermA⟩ := ha.balance
  obtain ⟨freedB, hfreedB, hpermB⟩ := hb.balance
  refine ⟨ha.le.trans hb.le, freedA ++ freedB, by rw [hfreedB, hfreedA, List.append_assoc], ?_⟩
  rw [← granted_append ha.le hb.le]
  refine List.Perm.trans ?_ (hpermA.append hpermB)
  rw [List.append_assoc, List.append_assoc]
  refine List.Perm.append_left a ?_
  rw [← List.append_assoc, ← List.append_assoc]
  exact (List.perm_append_comm).append_right freedB

theorem Accounts.perm (ha : Accounts fails h h₁ a) (hab : a.Perm b) : Accounts fails h h₁ b := by
  obtain ⟨freed, hfreed, hperm⟩ := ha.balance
  exact ⟨ha.le, freed, hfreed, (hab.symm.append_right freed).trans hperm⟩

/-- What is owned can be freed. -/
theorem Accounts.freeAll (ha : Accounts fails h h₁ (a ++ b)) : Accounts fails h (h₁.freeAll b) a := by
  obtain ⟨freed, hfreed, hperm⟩ := ha.balance
  refine ⟨ha.le, freed ++ b, ?_, ?_⟩
  · rw [Heap.freeAll, hfreed, List.append_assoc]
  · rw [Heap.freeAll_next]
    refine List.Perm.trans ?_ hperm
    rw [List.append_assoc]
    exact (List.perm_append_comm).append_left a

/-- All that is owned can be freed. -/
theorem Accounts.freeOwned (ha : Accounts fails h h₁ a) : Accounts fails h (h₁.freeAll a) [] :=
  Accounts.freeAll (a := []) (by simpa using ha)

theorem accounts_allocate (fails : ℕ → Bool) (h : Heap) :
    Accounts fails h (h.allocate fails).2 (h.allocate fails).1.toList := by
  refine ⟨Nat.le_succ _, [], by simp [Heap.allocate], ?_⟩
  unfold Heap.allocate granted
  cases hf : fails h.next <;> simp [hf]

theorem allocate_some {block : ℕ} (hb : (h.allocate fails).1 = some block) :
    Accounts fails h (h.allocate fails).2 [block] ∧ Served fails h (h.allocate fails).2 := by
  have haccounts := accounts_allocate fails h
  rw [hb, Option.toList_some] at haccounts
  refine ⟨haccounts, fun k hle hlt => ?_⟩
  have hk : k = h.next := by
    have hnext : (h.allocate fails).2.next = h.next + 1 := rfl
    omega
  subst hk
  unfold Heap.allocate at hb
  cases hf : fails h.next with
  | false => rfl
  | true => simp [hf] at hb

theorem allocate_none (hb : (h.allocate fails).1 = none) :
    Accounts fails h (h.allocate fails).2 [] ∧ Failed fails h (h.allocate fails).2 := by
  have haccounts := accounts_allocate fails h
  rw [hb, Option.toList_none] at haccounts
  refine ⟨haccounts, h.next, le_refl _, Nat.lt_succ_self _, ?_⟩
  unfold Heap.allocate at hb
  cases hf : fails h.next with
  | true => rfl
  | false => simp [hf] at hb

theorem Served.refl (h : Heap) : Served fails h h := fun _ hle hlt => absurd hlt (not_lt.mpr hle)

theorem Served.trans (ha : Served fails h h₁) (hb : Served fails h₁ h₂) : Served fails h h₂ := by
  intro k hle hlt
  rcases Nat.lt_or_ge k h₁.next with hk | hk
  · exact ha k hle hk
  · exact hb k hk hlt

theorem Served.not_failed (hs : Served fails h h₁) : ¬Failed fails h h₁ := by
  rintro ⟨k, hle, hlt, hf⟩
  exact absurd ((hs k hle hlt).symm.trans hf) Bool.false_ne_true

theorem Failed.not_served (hf : Failed fails h h₁) : ¬Served fails h h₁ := fun hs => hs.not_failed hf

theorem Failed.later (hf : Failed fails h h₁) (hle : h₁.next ≤ h₂.next) : Failed fails h h₂ := by
  obtain ⟨k, hk, hlt, hfail⟩ := hf
  exact ⟨k, hk, by omega, hfail⟩

theorem Failed.earlier (hf : Failed fails h₁ h₂) (hle : h.next ≤ h₁.next) : Failed fails h h₂ := by
  obtain ⟨k, hk, hlt, hfail⟩ := hf
  exact ⟨k, by omega, hlt, hfail⟩

/-- Blocks that are owned were granted in between. -/
theorem Accounts.fresh (ha : Accounts fails h h₁ a) {k : ℕ} (hk : k ∈ a) : h.next ≤ k := by
  obtain ⟨freed, -, hperm⟩ := ha.balance
  exact (mem_granted.mp (hperm.mem_iff.mp (List.mem_append_left freed hk))).1.1

/-- **Freed once.** Code that owns nothing has freed what it was granted, each block once. -/
theorem Accounts.freed_once (ha : Accounts fails h h₁ []) : ∃ freed, h₁.freed = h.freed ++ freed ∧
    freed.Nodup ∧ ∀ k, k ∈ freed ↔ (h.next ≤ k ∧ k < h₁.next) ∧ fails k = false := by
  obtain ⟨freed, hfreed, hperm⟩ := ha.balance
  rw [List.nil_append] at hperm
  exact ⟨freed, hfreed, hperm.nodup_iff.mpr (nodup_granted _ _), fun k => hperm.mem_iff.trans mem_granted⟩

end

end Libobjc2.Common
