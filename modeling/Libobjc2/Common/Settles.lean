import Mathlib.Order.Lattice
import Mathlib.Order.Nat

/-!
# Results that do not depend on the fuel

A recursion that is not structural gets a bound on its depth, and fails when the bound is
reached. Here a computation has two bounds, for functions that call each other; it settles
on a result that it has whenever both are large enough.

Results:
* `Settles.unique`: a computation settles on one result at most.
* `Settles.bind`, `Settles.foldlM`: what follows a settled computation may use its result.
* `Settles.succ`, `Settles.diagonal`: one more call.
-/

namespace Libobjc2.Common

variable {α β ε : Type*} {f g : ℕ → ℕ → α}

/-- With enough fuel of both kinds, the result is `r`. -/
def Settles (f : ℕ → ℕ → α) (r : α) : Prop := ∃ N, ∀ n m, N ≤ n → N ≤ m → f n m = r

theorem Settles.const (r : α) : Settles (fun _ _ => r) r := ⟨0, fun _ _ _ _ => rfl⟩

theorem Settles.unique {r r' : α} (h : Settles f r) (h' : Settles f r') : r = r' := by
  obtain ⟨N, hN⟩ := h
  obtain ⟨N', hN'⟩ := h'
  have hle := le_max_left N N'
  have hle' := le_max_right N N'
  exact (hN _ _ hle hle).symm.trans (hN' _ _ hle' hle')

theorem Settles.congr {r : α} (h : Settles g r) (heq : ∀ n m, f n m = g n m) : Settles f r := by
  obtain ⟨N, hN⟩ := h
  exact ⟨N, fun n m hn hm => (heq n m).trans (hN n m hn hm)⟩

/-- One round of a recursion on the second bound. -/
theorem Settles.succ {r : α} (h : Settles g r) (heq : ∀ n m, f n (m + 1) = g n m) : Settles f r := by
  obtain ⟨N, hN⟩ := h
  refine ⟨N + 1, fun n m hn hm => ?_⟩
  obtain ⟨m, rfl⟩ := Nat.exists_eq_succ_of_ne_zero (by omega : m ≠ 0)
  exact (heq n m).trans (hN n m (by omega) (by omega))

/-- One round of a recursion on the first bound, which the second is set to. -/
theorem Settles.diagonal {f : ℕ → α} {r : α} (h : Settles g r) (heq : ∀ n, f (n + 1) = g n n) :
    Settles (fun n _ => f n) r := by
  obtain ⟨N, hN⟩ := h
  refine ⟨N + 1, fun n _ hn _ => ?_⟩
  obtain ⟨n, rfl⟩ := Nat.exists_eq_succ_of_ne_zero (by omega : n ≠ 0)
  exact (heq n).trans (hN n n (by omega) (by omega))

theorem Settles.map {r : α} (h : Settles f r) (k : α → β) : Settles (fun n m => k (f n m)) (k r) := by
  obtain ⟨N, hN⟩ := h
  exact ⟨N, fun n m hn hm => congrArg k (hN n m hn hm)⟩

section Except

variable {f : ℕ → ℕ → Except ε α} {k : ℕ → ℕ → α → Except ε β}

theorem Settles.bind {a : α} {r : Except ε β} (h : Settles f (.ok a)) (hk : Settles (fun n m => k n m a) r) :
    Settles (fun n m => (f n m).bind (k n m)) r := by
  obtain ⟨N, hN⟩ := h
  obtain ⟨N', hN'⟩ := hk
  refine ⟨max N N', fun n m hn hm => ?_⟩
  show (f n m).bind (k n m) = r
  rw [hN n m ((le_max_left ..).trans hn) ((le_max_left ..).trans hm)]
  exact hN' n m ((le_max_right ..).trans hn) ((le_max_right ..).trans hm)

theorem Settles.bind_error {e : ε} (h : Settles f (.error e)) :
    Settles (fun n m => (f n m).bind (k n m)) (.error e) := by
  obtain ⟨N, hN⟩ := h
  refine ⟨N, fun n m hn hm => ?_⟩
  show (f n m).bind (k n m) = _
  rw [hN n m hn hm]
  rfl

/-- A loop whose rounds settle, in the states that `P` holds of, on an error in `Q` or on such a state again. -/
theorem Settles.foldlM {γ : Type*} {step : ℕ → ℕ → α → γ → Except ε α} {P : α → Prop} {Q : ε → Prop} :
    ∀ {l : List γ} {a : α},
    (∀ a, P a → ∀ c ∈ l, (∃ e, Q e ∧ Settles (fun n m => step n m a c) (.error e)) ∨
      ∃ a', Settles (fun n m => step n m a c) (.ok a') ∧ P a') →
    P a → (∃ e, Q e ∧ Settles (fun n m => l.foldlM (step n m) a) (.error e)) ∨
      ∃ a', Settles (fun n m => l.foldlM (step n m) a) (.ok a') ∧ P a'
  | [], a, _, ha => .inr ⟨a, Settles.const _, ha⟩
  | c :: l, a, hstep, ha => by
    rcases hstep a ha c List.mem_cons_self with ⟨e, he, h⟩ | ⟨a₁, h, ha₁⟩
    · exact .inl ⟨e, he, h.bind_error.congr fun _ _ => List.foldlM_cons⟩
    · rcases Settles.foldlM (fun a ha c hc => hstep a ha c (List.mem_cons_of_mem _ hc)) ha₁ with
        ⟨e, he, h'⟩ | ⟨a', h', ha'⟩
      · exact .inl ⟨e, he, (h.bind h').congr fun _ _ => List.foldlM_cons⟩
      · exact .inr ⟨a', (h.bind h').congr fun _ _ => List.foldlM_cons, ha'⟩

end Except

end Libobjc2.Common
