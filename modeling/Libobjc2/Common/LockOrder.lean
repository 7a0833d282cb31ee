import Mathlib.Data.Finset.Card
import Mathlib.Logic.Function.Basic
import Mathlib.Order.Basic

/-!
# Locks that are taken in order

`owner l` is the thread that holds the lock `l`, and `waits t` the lock that the thread `t` tries to take.

Results:
* `Held.take`, `Held.unlock`, `Held.keep`: the words of the locks and the lists of the threads agree.
* `exists_ready`: if no thread waits for a lock below one that it holds, then not all of them are stuck.
-/

namespace Libobjc2.Common

variable {Lock Thread : Type*}

/-! ## The locks of the threads -/

/-- A lock is held by the thread that has it in its list. -/
def Held (owner : Lock → Option Thread) (held : Thread → List Lock) : Prop := ∀ l t, owner l = some t ↔ l ∈ held t

variable {owner : Lock → Option Thread} {held held' : Thread → List Lock} {t u : Thread} {l : Lock}

theorem Held.only (h : Held owner held) (ht : l ∈ held t) (hu : l ∈ held u) : t = u :=
  Option.some.inj (((h l t).mpr ht).symm.trans ((h l u).mpr hu))

theorem Held.keep (h : Held owner held) (hheld : ∀ u l, l ∈ held' u ↔ l ∈ held u) : Held owner held' := by
  intro l t
  rw [hheld]
  exact h l t

section

variable [DecidableEq Lock]

/-- A thread takes a free lock. -/
theorem Held.take (h : Held owner held) (hfree : owner l = none) (hself : ∀ k, k ∈ held' t ↔ k = l ∨ k ∈ held t)
    (hothers : ∀ u, u ≠ t → held' u = held u) : Held (Function.update owner l (some t)) held' := by
  intro k u
  have hnone : ∀ u, l ∉ held u := by
    intro u hu
    rw [(h l u).mpr hu] at hfree
    cases hfree
  rcases eq_or_ne k l with rfl | hk
  · rw [Function.update_self]
    constructor
    · rintro heq
      obtain rfl := Option.some.inj heq
      exact (hself k).mpr (.inl rfl)
    · intro hu
      by_cases htu : u = t
      · rw [htu]
      · rw [hothers u htu] at hu
        exact absurd hu (hnone u)
  · rw [Function.update_of_ne hk]
    by_cases htu : u = t
    · rw [htu, hself, h k t]
      exact ⟨.inr, fun hor => hor.resolve_left hk⟩
    · rw [hothers u htu]
      exact h k u

/-- A thread gives up a lock. -/
theorem Held.unlock (h : Held owner held) (ht : l ∈ held t) (hself : ∀ k, k ∈ held' t ↔ k ≠ l ∧ k ∈ held t)
    (hothers : ∀ u, u ≠ t → held' u = held u) : Held (Function.update owner l none) held' := by
  intro k u
  rcases eq_or_ne k l with rfl | hk
  · rw [Function.update_self]
    refine iff_of_false (by simp) fun hu => ?_
    by_cases htu : u = t
    · rw [htu] at hu
      exact ((hself k).mp hu).1 rfl
    · rw [hothers u htu] at hu
      exact htu (h.only hu ht)
  · rw [Function.update_of_ne hk]
    by_cases htu : u = t
    · rw [htu, hself, h k t]
      exact ⟨fun hk' => ⟨hk, hk'⟩, fun hand => hand.2⟩
    · rw [hothers u htu]
      exact h k u

end

/-! ## Deadlocks -/

variable [LinearOrder Lock] {waits : Thread → Option Lock} {locks : Finset Lock}

/-- **No deadlock.** If a thread waits only for locks above those that it holds, then behind every thread
    there is one that need not wait: the thread itself or one that holds a lock. -/
theorem exists_ready (hlocks : ∀ t l, waits t = some l → l ∈ locks)
    (hordered : ∀ t l m, owner l = some t → waits t = some m → l < m) (t : Thread) :
    ∃ u, (u = t ∨ ∃ l, owner l = some u) ∧ ∀ m, waits u = some m → owner m = none := by
  have hwaiting : ∀ l t, waits t = some l → ∃ u, (u = t ∨ ∃ l, owner l = some u) ∧
      ∀ m, waits u = some m → owner m = none := by
    intro l
    -- induction on the number of locks above the one that is waited for
    induction hn : (locks.filter (l < ·)).card using Nat.strong_induction_on generalizing l with
    | _ n ih =>
      intro t ht
      cases howner : owner l with
      | none =>
        refine ⟨t, .inl rfl, fun m hm => ?_⟩
        obtain rfl := Option.some.inj (ht.symm.trans hm)
        exact howner
      | some v =>
        cases hv : waits v with
        | none => exact ⟨v, .inr ⟨l, howner⟩, fun m hm => by rw [hv] at hm; cases hm⟩
        | some m =>
          have hlm := hordered v l m howner hv
          have hless : (locks.filter (m < ·)).card < n := by
            rw [← hn]
            refine Finset.card_lt_card ((Finset.ssubset_iff_of_subset ?_).mpr ⟨m, ?_, by simp⟩)
            · intro k hk
              rw [Finset.mem_filter] at hk ⊢
              exact ⟨hk.1, hlm.trans hk.2⟩
            · exact Finset.mem_filter.mpr ⟨hlocks v m hv, hlm⟩
          obtain ⟨u, hu, hready⟩ := ih _ hless m rfl v hv
          refine ⟨u, .inr ?_, hready⟩
          rcases hu with rfl | hu
          · exact ⟨l, howner⟩
          · exact hu
  cases ht : waits t with
  | none => exact ⟨t, .inl rfl, fun m hm => by rw [ht] at hm; cases hm⟩
  | some l => exact hwaiting l t ht

end Libobjc2.Common
