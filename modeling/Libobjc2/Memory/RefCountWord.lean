import Libobjc2.Common.Run
import Libobjc2.Memory.RefCount

/-!
# The reference-count word as a logical state (`src/memory/arc.mm`, class `RefCount`)

The methods of `RefCount`, each run to its end. `Logical` is the state that the word stands for:
the number of references, whether the object was ever weakly referenced, and whether it is being
deallocated. A count of `maxCount` is saturated.

Results:
* `apply_denote`: every method does to the word what its specification does to the logical state.
* `word_refines_logical`: so does every sequence of calls, and the guard bit is clear and the weak
  flag is kept while the object is live.
-/

namespace Libobjc2.Memory.RefCount

open Libobjc2.Common

/-! ## Model -/

/-- The methods; a compare-exchange may fail spuriously some times before it succeeds. -/
inductive Operation where
  | increment
  | incrementIfLive (failures : ℕ)
  | decrement
  | markWeaklyReferenced (failures : ℕ)
  | retainCount
  deriving DecidableEq

/-- What the methods return. `decrement` returns true and sets `wasWeaklyReferenced`, or false. -/
inductive Result where
  | done
  | retained (r : Bool)
  | released (wasWeaklyReferenced : Option Bool)
  | counted (n : ℕ)
  deriving DecidableEq

/-- A compare-exchange loop: it turns again after a spurious failure, which leaves in `v` the
    value that is there. -/
def casLoop {ρ : Type} (attempt : Word → Attempt ρ) (exchanged : ρ) : ℕ → Word → Word × ρ
  | 0, v =>
    match attempt v with
    | .done r => (v, r)
    | .exchange updated => (updated, exchanged)
  | failures + 1, v =>
    match attempt v with
    | .done r => (v, r)
    | .exchange _ => casLoop attempt exchanged failures v

/-- A method, run to its end. -/
def apply (v : Word) : Operation → Word × Result
  | .increment =>
    let added := v + 1
    (if incrementSaturated v then added - 1 else added, .done)
  | .incrementIfLive failures => (casLoop incrementIfLive true failures v).map id .retained
  | .decrement =>
    let subtracted := v - 1
    match decrementOutcome v with
    | .live => (subtracted, .released none)
    | .saturated => (subtracted + 1, .released none)
    | .last wasWeaklyReferenced => (subtracted, .released (some wasWeaklyReferenced))
  | .markWeaklyReferenced failures => (casLoop markWeaklyReferenced () failures v).map id fun _ => .done
  | .retainCount => (v, .counted (retainCount v).toNat)

/-! ## Specification -/

/-- The largest number of references, at which the count is pinned: `count_max + 1`. -/
def maxCount : ℕ := 2 ^ 62 - 1

/-- The state of an object as its owners see it. -/
@[ext] structure Logical where
  count : ℕ
  weaklyReferenced : Bool
  deallocating : Bool
  count_le : count ≤ maxCount
  deallocating_iff : deallocating = true ↔ count = 0

namespace Logical

/-- A new object has one reference. -/
def fresh : Logical := ⟨1, false, false, by decide, by decide⟩

/-- One more reference, unless the object is being deallocated or its count is saturated. -/
def increment (l : Logical) : Logical :=
  if h : l.deallocating = false ∧ l.count < maxCount then
    ⟨l.count + 1, l.weaklyReferenced, false, h.2, by simp⟩
  else l

/-- One reference less, unless the object is being deallocated or its count is saturated. With the
    last one the deallocation begins. -/
def decrement (l : Logical) : Logical :=
  if h : l.deallocating = false ∧ l.count < maxCount then
    ⟨l.count - 1, l.weaklyReferenced, l.count = 1, (Nat.sub_le _ _).trans l.count_le, by
      have := mt l.deallocating_iff.mpr
      simp only [h.1, Bool.false_eq_true, not_false_eq_true, forall_const] at this
      rw [decide_eq_true_iff]
      omega⟩
  else l

/-- A live object becomes weakly referenced and stays so. -/
def markWeaklyReferenced (l : Logical) : Logical :=
  if l.deallocating then l else { l with weaklyReferenced := true }

/-- What each method is for. -/
def apply (l : Logical) : Operation → Logical × Result
  | .increment => (l.increment, .done)
  | .incrementIfLive _ => (l.increment, .retained (!l.deallocating))
  | .decrement => (l.decrement, .released (if l.count = 1 then some l.weaklyReferenced else none))
  | .markWeaklyReferenced _ => (l.markWeaklyReferenced, .done)
  | .retainCount => (l, .counted l.count)

/-- The word that stands for a state. The borrow of the last decrement runs through all three fields. -/
def denote (l : Logical) : Word :=
  if l.deallocating then encode l.weaklyReferenced 0 - 1 else encode l.weaklyReferenced (l.count - 1)

end Logical

/-! ## The loops -/

theorem casLoop_done {ρ : Type} {attempt : Word → Attempt ρ} {exchanged r : ρ} {v : Word}
    (h : attempt v = .done r) (failures : ℕ) : casLoop attempt exchanged failures v = (v, r) := by
  cases failures <;> simp only [casLoop, h]

/-- No number of spurious failures changes what the loop does. -/
theorem casLoop_exchange {ρ : Type} {attempt : Word → Attempt ρ} {exchanged : ρ} {v updated : Word}
    (h : attempt v = .exchange updated) (failures : ℕ) :
    casLoop attempt exchanged failures v = (updated, exchanged) := by
  induction failures with
  | zero => simp only [casLoop, h]
  | succ n ih => simp only [casLoop, h, ih]

/-! ## What a state can be -/

namespace Logical

theorem denote_of_live {l : Logical} {n : ℕ} (hcount : l.count = n + 1) :
    l.denote = encode l.weaklyReferenced n := by
  have hlive : l.deallocating ≠ true := fun h => by simp [l.deallocating_iff.mp h] at hcount
  rw [denote, if_neg hlive, hcount, Nat.add_sub_cancel]

/-- A state is being deallocated, saturated, or live with a count that can still grow. -/
theorem cases (l : Logical) :
    l.count = 0 ∧ l.deallocating = true ∧ l.denote = encode l.weaklyReferenced 0 - 1 ∨
    l.count = maxCount ∧ l.deallocating = false ∧ l.denote = encode l.weaklyReferenced (2 ^ 62 - 2) ∨
    ∃ n < 2 ^ 62 - 2, l.count = n + 1 ∧ l.deallocating = false ∧ l.denote = encode l.weaklyReferenced n := by
  have hle := l.count_le
  have hiff := l.deallocating_iff
  cases hd : l.deallocating with
  | true => exact .inl ⟨hiff.mp hd, rfl, by rw [denote, if_pos hd]⟩
  | false =>
    have hpos : l.count ≠ 0 := fun h => by simp [hiff.mpr h] at hd
    have hdenote := l.denote_of_live (Nat.succ_pred_eq_of_ne_zero hpos).symm
    right
    by_cases hmax : l.count = maxCount
    · exact .inl ⟨hmax, rfl, by rw [hdenote, hmax]; rfl⟩
    · unfold maxCount at hle hmax
      exact .inr ⟨l.count - 1, by omega, by omega, rfl, hdenote⟩

@[simp] theorem increment_weaklyReferenced (l : Logical) :
    l.increment.weaklyReferenced = l.weaklyReferenced := by
  unfold increment
  split <;> rfl

@[simp] theorem decrement_weaklyReferenced (l : Logical) :
    l.decrement.weaklyReferenced = l.weaklyReferenced := by
  unfold decrement
  split <;> rfl

end Logical

/-! ## What each method does to the word -/

namespace Logical

/-- While the count can grow, `increment` adds one to it. -/
theorem increment_of_live {l : Logical} {n : ℕ} (hn : n < 2 ^ 62 - 2) (hcount : l.count = n + 1)
    (hlive : l.deallocating = false) : l.increment.denote = encode l.weaklyReferenced (n + 1) := by
  have hlt : l.count < maxCount := by
    unfold maxCount
    omega
  rw [increment, dif_pos ⟨hlive, hlt⟩]
  exact denote_of_live (congrArg (· + 1) hcount)

/-- `increment` has no effect on the other states. -/
theorem increment_of_pinned {l : Logical} (h : l.deallocating = true ∨ l.count = maxCount) :
    l.increment = l := by
  rw [increment, dif_neg]
  rintro ⟨hlive, hlt⟩
  rcases h with h | h
  · simp [hlive] at h
  · omega

theorem decrement_of_pinned {l : Logical} (h : l.deallocating = true ∨ l.count = maxCount) :
    l.decrement = l := by
  rw [decrement, dif_neg]
  rintro ⟨hlive, hlt⟩
  rcases h with h | h
  · simp [hlive] at h
  · omega

/-- `decrement` subtracts one from the word; the last one borrows from the flags. -/
theorem decrement_of_live {l : Logical} {n : ℕ} (hn : n < 2 ^ 62 - 2) (hcount : l.count = n + 1)
    (hlive : l.deallocating = false) : l.decrement.denote = encode l.weaklyReferenced n - 1 := by
  have hlt : l.count < maxCount := by
    unfold maxCount
    omega
  rw [decrement, dif_pos ⟨hlive, hlt⟩]
  cases n with
  | zero => simp [denote, hcount]
  | succ n =>
    rw [encode_succ_sub_one]
    exact denote_of_live (congrArg (· - 1) hcount)

theorem markWeaklyReferenced_of_live {l : Logical} (hlive : l.deallocating = false) :
    l.markWeaklyReferenced.denote = encode true (l.count - 1) := by
  rw [markWeaklyReferenced, if_neg (by simp [hlive]), denote, if_neg (by simp [hlive])]

theorem markWeaklyReferenced_of_deallocating {l : Logical} (h : l.deallocating = true) :
    l.markWeaklyReferenced = l := by
  rw [markWeaklyReferenced, if_pos h]

end Logical

theorem apply_increment (l : Logical) : (apply l.denote .increment).1 = l.increment.denote := by
  obtain ⟨-, hd, hw⟩ | ⟨hmax, -, hw⟩ | ⟨n, hn, hcount, hlive, hw⟩ := l.cases
  · rw [Logical.increment_of_pinned (.inl hd), hw]
    cases l.weaklyReferenced <;> decide
  · rw [Logical.increment_of_pinned (.inr hmax), hw]
    cases l.weaklyReferenced <;> decide
  · rw [Logical.increment_of_live hn hcount hlive, hw, ← encode_add_one]
    simp only [apply, incrementSaturated_encode hn, Bool.false_eq_true, if_false]

theorem casLoop_incrementIfLive (l : Logical) (failures : ℕ) :
    casLoop incrementIfLive true failures l.denote = (l.increment.denote, !l.deallocating) := by
  obtain ⟨-, hd, hw⟩ | ⟨hmax, hlive, hw⟩ | ⟨n, hn, hcount, hlive, hw⟩ := l.cases
  · have h : incrementIfLive l.denote = .done false := by
      rw [hw]
      cases l.weaklyReferenced <;> decide
    rw [casLoop_done h, Logical.increment_of_pinned (.inl hd), hd]
    rfl
  · have h : incrementIfLive l.denote = .done true := by
      rw [hw]
      cases l.weaklyReferenced <;> decide
    rw [casLoop_done h, Logical.increment_of_pinned (.inr hmax), hlive]
    rfl
  · have h : incrementIfLive l.denote = .exchange (encode l.weaklyReferenced (n + 1)) := by
      rw [hw]
      exact incrementIfLive_encode hn
    rw [casLoop_exchange h, Logical.increment_of_live hn hcount hlive, hlive]
    rfl

theorem apply_decrement (l : Logical) : apply l.denote .decrement =
    (l.decrement.denote, .released (if l.count = 1 then some l.weaklyReferenced else none)) := by
  obtain ⟨hzero, hd, hw⟩ | ⟨hmax, -, hw⟩ | ⟨n, hn, hcount, hlive, hw⟩ := l.cases
  · rw [Logical.decrement_of_pinned (.inl hd), hw, if_neg (by omega)]
    cases l.weaklyReferenced <;> decide
  · rw [Logical.decrement_of_pinned (.inr hmax), hw, if_neg (by rw [hmax]; decide)]
    cases l.weaklyReferenced <;> decide
  · rw [Logical.decrement_of_live hn hcount hlive, hw]
    simp only [apply, decrementOutcome_encode hn, hcount]
    cases n with
    | zero => rfl
    | succ n => simp

theorem casLoop_markWeaklyReferenced (l : Logical) (failures : ℕ) :
    (casLoop markWeaklyReferenced () failures l.denote).1 = l.markWeaklyReferenced.denote := by
  obtain ⟨-, hd, hw⟩ | ⟨hmax, hlive, hw⟩ | ⟨n, hn, hcount, hlive, hw⟩ := l.cases
  · have h : markWeaklyReferenced l.denote = .done () := by
      rw [hw]
      cases l.weaklyReferenced <;> decide
    rw [casLoop_done h, Logical.markWeaklyReferenced_of_deallocating hd]
  · rw [Logical.markWeaklyReferenced_of_live hlive, hmax]
    cases hweak : l.weaklyReferenced with
    | true =>
      have h : markWeaklyReferenced l.denote = .done () := by
        rw [hw, hweak]
        decide
      rw [casLoop_done h, hw, hweak]
      rfl
    | false =>
      have h : markWeaklyReferenced l.denote = .exchange (encode true (2 ^ 62 - 2)) := by
        rw [hw, hweak]
        decide
      rw [casLoop_exchange h]
      rfl
  · rw [Logical.markWeaklyReferenced_of_live hlive, hcount, Nat.add_sub_cancel]
    cases hweak : l.weaklyReferenced with
    | true =>
      have h : markWeaklyReferenced l.denote = .done () := by
        rw [hw, hweak, markWeaklyReferenced_encode hn, if_pos rfl]
      rw [casLoop_done h, hw, hweak]
    | false =>
      have h : markWeaklyReferenced l.denote = .exchange (encode true n) := by
        rw [hw, hweak, markWeaklyReferenced_encode hn, if_neg (by simp)]
      rw [casLoop_exchange h]

theorem retainCount_denote (l : Logical) : (retainCount l.denote).toNat = l.count := by
  obtain ⟨hzero, -, hw⟩ | ⟨hmax, -, hw⟩ | ⟨n, hn, hcount, -, hw⟩ := l.cases
  · rw [hw, hzero]
    cases l.weaklyReferenced <;> decide
  · rw [hw, hmax]
    cases l.weaklyReferenced <;> decide
  · rw [hw, hcount, retainCount_encode hn]

/-- Every method does to the word what its specification does to the state. -/
theorem apply_denote (l : Logical) (op : Operation) :
    apply l.denote op = ((l.apply op).1.denote, (l.apply op).2) := by
  cases op with
  | increment => exact Prod.ext (apply_increment l) rfl
  | incrementIfLive failures =>
    rw [apply, casLoop_incrementIfLive]
    rfl
  | decrement => exact apply_decrement l
  | markWeaklyReferenced failures => exact Prod.ext (casLoop_markWeaklyReferenced l failures) rfl
  | retainCount => rw [apply, retainCount_denote]; rfl

/-! ## The fields of the word -/

/-- While the object is live its weak flag stands in the word and the guard bit is clear. -/
theorem denote_fields {l : Logical} (hlive : l.deallocating = false) :
    hasWeakFlag l.denote = l.weaklyReferenced ∧ l.denote &&& guardBit = 0 := by
  have hle := l.count_le
  unfold maxCount at hle
  rw [Logical.denote, if_neg (by simp [hlive])]
  have hn : l.count - 1 < 2 ^ 62 := by omega
  refine ⟨hasWeakFlag_encode hn, ?_⟩
  have hbit : (encode l.weaklyReferenced (l.count - 1)).getLsbD 62 = false := by
    rw [BitVec.getLsbD, encode_toNat hn, Nat.testBit_eq_decide_div_mod_eq, decide_eq_false_iff_not]
    split <;> omega
  rw [show guardBit = BitVec.twoPow 64 62 from rfl, BitVec.and_twoPow, hbit]
  rfl

/-- The word of an object that is being deallocated is the sentinel. -/
theorem isDeallocating_denote (l : Logical) : isDeallocating l.denote = l.deallocating := by
  obtain ⟨-, hd, hw⟩ | ⟨-, hlive, hw⟩ | ⟨n, hn, -, hlive, hw⟩ := l.cases
  · rw [hw, hd, encode_zero_sub_one_deallocating]
  · rw [hw, hlive]
    cases l.weaklyReferenced <;> decide
  · rw [hw, hlive, isDeallocating_encode hn]

/-- Different states have different words. -/
theorem denote_injective : Function.Injective Logical.denote := by
  intro l l' h
  have hcount : l.count = l'.count := by rw [← retainCount_denote, h, retainCount_denote]
  have hd : l.deallocating = l'.deallocating := by rw [← isDeallocating_denote, h, isDeallocating_denote]
  refine Logical.ext hcount ?_ hd
  cases hlive : l.deallocating with
  | false => rw [← (denote_fields hlive).1, h, (denote_fields (hd ▸ hlive)).1]
  | true =>
    rw [Logical.denote, Logical.denote, if_pos hlive, if_pos (hd ▸ hlive)] at h
    revert h
    cases l.weaklyReferenced <;> cases l'.weaklyReferenced <;> decide

/-- A set weak flag stays. -/
theorem apply_weaklyReferenced {l : Logical} (op : Operation) (h : l.weaklyReferenced = true) :
    (l.apply op).1.weaklyReferenced = true := by
  cases op with
  | increment | incrementIfLive _ => rw [Logical.apply, Logical.increment_weaklyReferenced, h]
  | decrement => rw [Logical.apply, Logical.decrement_weaklyReferenced, h]
  | markWeaklyReferenced _ =>
    rw [Logical.apply, Logical.markWeaklyReferenced]
    split
    · exact h
    · rfl
  | retainCount => exact h

/-! ## Sequences of calls -/

/-- **The word refines its logical state.** A new object's word is zero and stands for one
    reference. From the word of any state, every sequence of complete calls returns what the
    specification returns, and leaves the word of the specified state, which no other state has.
    While the object is live that word has a clear guard bit and the weak flag of the state, which
    is set if it was set before. -/
theorem word_refines_logical :
    Logical.fresh.denote = 0 ∧ Function.Injective Logical.denote ∧
    ∀ (l : Logical) (ops : List Operation), ∃ l' results, runResults Logical.apply l ops = (l', results) ∧
      runResults apply l.denote ops = (l'.denote, results) ∧
      (l'.deallocating = false → l'.denote &&& guardBit = 0 ∧ hasWeakFlag l'.denote = l'.weaklyReferenced) ∧
      (l.weaklyReferenced = true → l'.weaklyReferenced = true) := by
  refine ⟨by decide, denote_injective, fun l ops => ?_⟩
  refine ⟨_, _, rfl, runResults_refines apply_denote ops l, fun hlive => ?_, ?_⟩
  · exact ⟨(denote_fields hlive).2, (denote_fields hlive).1⟩
  · exact runResults_keeps (fun l : Logical => l.weaklyReferenced = true)
        (fun _ op => apply_weaklyReferenced op) ops l

end Libobjc2.Memory.RefCount
