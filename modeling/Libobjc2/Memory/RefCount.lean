import Mathlib.Tactic

/-!
# The reference-count word (`src/memory/arc.mm`, class `RefCount`)

An object's strong count is one atomic machine word: the top bit says whether the object was
ever weakly referenced, the bit below it is a guard for the optimistic `fetch_add`, and the
rest is the number of references minus one. A count field of all ones is the deallocating
sentinel. `uintptr_t` has 64 bits.

Every method is modelled by what it does with the value it loads: an `Attempt` is what one
turn of a compare-exchange loop decides from the value `v` it read, and `DecrementOutcome`
is what `decrement` decides from the value its `fetch_sub` returned.

Results:
* `count_encode`, `hasWeakFlag_encode`: the two fields of a live word.
* `decrementOutcome_encode`: which decrement is the last one.
* `incrementIfLive_encode`, `markWeaklyReferenced_encode`: what the loops exchange.
* `encode_zero_sub_one_deallocating`: the borrow of the last decrement is the sentinel.
-/

namespace Libobjc2.Memory.RefCount

/-- `uintptr_t`. -/
abbrev Word := BitVec 64

/-- `weak_flag` (lines 268–269). -/
def weakFlag : Word := 1 <<< 63

/-- `guard` (line 276). -/
def guardBit : Word := weakFlag >>> 1

/-- `count_mask` (line 278). -/
def countMask : Word := ~~~(weakFlag ||| guardBit)

/-- `count_max` (line 280). -/
def countMax : Word := countMask - 1

/-- `v & count_mask`. -/
def count (v : Word) : Word := v &&& countMask

/-- `(v & weak_flag) == weak_flag`. -/
def hasWeakFlag (v : Word) : Bool := v &&& weakFlag == weakFlag

/-- `retainCount` (lines 299–304). -/
def retainCount (v : Word) : Word := if count v = countMask then 0 else count v + 1

/-- `isDeallocating` (lines 307–310). -/
def isDeallocating (v : Word) : Bool := count v == countMask

/-- Whether `increment` (lines 322–334) has to undo its `fetch_add`, which returned `old`. -/
def incrementSaturated (old : Word) : Bool := countMax ≤ count old

/-- One turn of a compare-exchange loop that read `v`: it returns, or tries to exchange `v`. -/
inductive Attempt (Result : Type) where
  | done (r : Result)
  | exchange (updated : Word)
  deriving DecidableEq

/-- `incrementIfLive` (lines 355–384). -/
def incrementIfLive (v : Word) : Attempt Bool :=
  if count v = countMask then .done false
  else if count v = countMax then .done true
  else .exchange ((count v + 1) ||| (v &&& weakFlag))

/-- What `decrement` returns, and whether it has to undo its `fetch_sub`. -/
inductive DecrementOutcome where
  | live
  | saturated
  | last (wasWeaklyReferenced : Bool)
  deriving DecidableEq

/-- `decrement` (lines 393–419), from the value its `fetch_sub` returned. -/
def decrementOutcome (old : Word) : DecrementOutcome :=
  if count old ≠ 0 ∧ count old < countMax then .live
  else if countMax ≤ count old then .saturated
  else .last (hasWeakFlag old)

/-- `markWeaklyReferenced` (lines 426–448). -/
def markWeaklyReferenced (v : Word) : Attempt Unit :=
  if count v = countMask then .done ()
  else if hasWeakFlag v then .done ()
  else .exchange (count v ||| weakFlag)

/-! ## The two fields of a word -/

/-- The word of a live object with `n + 1` references. -/
def encode (weak : Bool) (n : ℕ) : Word := BitVec.ofNat 64 ((if weak then 2 ^ 63 else 0) + n)

theorem countMask_toNat : countMask.toNat = 2 ^ 62 - 1 := by decide

theorem countMax_toNat : countMax.toNat = 2 ^ 62 - 2 := by decide

theorem weakFlag_toNat : weakFlag.toNat = 2 ^ 63 := by decide

theorem encode_toNat {weak : Bool} {n : ℕ} (hn : n < 2 ^ 62) :
    (encode weak n).toNat = (if weak then 2 ^ 63 else 0) + n := by
  rw [encode, BitVec.toNat_ofNat]
  cases weak <;> simp only [if_true, Bool.false_eq_true, if_false] <;> omega

theorem count_toNat (v : Word) : (count v).toNat = v.toNat % 2 ^ 62 := by
  rw [count, BitVec.toNat_and, countMask_toNat, Nat.and_two_pow_sub_one_eq_mod]

theorem count_encode {weak : Bool} {n : ℕ} (hn : n < 2 ^ 62) :
    (count (encode weak n)).toNat = n := by
  rw [count_toNat, encode_toNat hn]
  cases weak <;> simp only [if_true, Bool.false_eq_true, if_false] <;> omega

theorem encode_and_weakFlag {weak : Bool} {n : ℕ} (hn : n < 2 ^ 62) :
    encode weak n &&& weakFlag = if weak then weakFlag else 0#64 := by
  have hbit : (encode weak n).getLsbD 63 = weak := by
    rw [BitVec.getLsbD, encode_toNat hn, Nat.testBit_eq_decide_div_mod_eq]
    cases weak
    · simp only [Bool.false_eq_true, if_false, decide_eq_false_iff_not]
      omega
    · simp only [if_true, decide_eq_true_eq]
      omega
  rw [show weakFlag = BitVec.twoPow 64 63 from rfl, BitVec.and_twoPow, hbit]

theorem hasWeakFlag_encode {weak : Bool} {n : ℕ} (hn : n < 2 ^ 62) :
    hasWeakFlag (encode weak n) = weak := by
  rw [hasWeakFlag, encode_and_weakFlag hn]
  cases weak <;> decide

theorem encode_add_one (weak : Bool) (n : ℕ) : encode weak n + 1 = encode weak (n + 1) := by
  rw [encode, encode, ← add_assoc, BitVec.ofNat_add _ 1]
  rfl

theorem encode_succ_sub_one (weak : Bool) (n : ℕ) : encode weak (n + 1) - 1 = encode weak n := by
  rw [← encode_add_one, BitVec.add_sub_cancel]

/-- The borrow of the last decrement turns the count field into the sentinel. -/
theorem encode_zero_sub_one_deallocating (weak : Bool) : isDeallocating (encode weak 0 - 1) = true := by
  cases weak <;> decide

/-! ## What each method decides on a live word -/

theorem count_encode_ne_countMask {weak : Bool} {n : ℕ} (hn : n < 2 ^ 62 - 2) :
    count (encode weak n) ≠ countMask := by
  intro h
  have := congrArg BitVec.toNat h
  rw [count_encode (by omega), countMask_toNat] at this
  omega

theorem count_encode_ne_countMax {weak : Bool} {n : ℕ} (hn : n < 2 ^ 62 - 2) :
    count (encode weak n) ≠ countMax := by
  intro h
  have := congrArg BitVec.toNat h
  rw [count_encode (by omega), countMax_toNat] at this
  omega

theorem count_eq_ofNat {weak : Bool} {n : ℕ} (hn : n < 2 ^ 62) :
    count (encode weak n) = BitVec.ofNat 64 n := by
  apply BitVec.eq_of_toNat_eq
  rw [count_encode hn, BitVec.toNat_ofNat]
  omega

theorem incrementSaturated_encode {weak : Bool} {n : ℕ} (hn : n < 2 ^ 62 - 2) :
    incrementSaturated (encode weak n) = false := by
  rw [incrementSaturated, decide_eq_false_iff_not, BitVec.le_def, count_encode (by omega),
    countMax_toNat]
  omega

theorem decrementOutcome_encode {weak : Bool} {n : ℕ} (hn : n < 2 ^ 62 - 2) :
    decrementOutcome (encode weak n) = if n = 0 then .last weak else .live := by
  have hcount : (count (encode weak n)).toNat = n := count_encode (by omega)
  have hzero : count (encode weak n) = 0 ↔ n = 0 := by
    rw [BitVec.toNat_eq, hcount]
    simp
  have hlt : count (encode weak n) < countMax := by
    rw [BitVec.lt_def, hcount, countMax_toNat]
    exact hn
  rw [decrementOutcome, hasWeakFlag_encode (by omega)]
  by_cases h0 : n = 0
  · rw [if_neg (by simp [hzero.mpr h0]), if_neg (by rw [BitVec.not_le]; exact hlt), if_pos h0]
  · rw [if_pos ⟨mt hzero.mp h0, hlt⟩, if_neg h0]

/-- The weak flag and a count, put together again. -/
theorem ofNat_or_weakFlag {n : ℕ} (hn : n < 2 ^ 62) :
    BitVec.ofNat 64 n ||| weakFlag = encode true n := by
  apply BitVec.eq_of_toNat_eq
  rw [BitVec.toNat_or, weakFlag_toNat, encode_toNat hn, if_pos rfl, BitVec.toNat_ofNat,
    Nat.mod_eq_of_lt (by omega), Nat.or_comm]
  have := Nat.two_pow_add_eq_or_of_lt (show n < 2 ^ 63 by omega) 1
  rw [mul_one] at this
  exact this.symm

theorem incrementIfLive_encode {weak : Bool} {n : ℕ} (hn : n < 2 ^ 62 - 2) :
    incrementIfLive (encode weak n) = .exchange (encode weak (n + 1)) := by
  rw [incrementIfLive, if_neg (count_encode_ne_countMask hn), if_neg (count_encode_ne_countMax hn),
    count_eq_ofNat (by omega)]
  have hadd : BitVec.ofNat 64 n + 1 = BitVec.ofNat 64 (n + 1) := by
    rw [BitVec.ofNat_add]; rfl
  rw [hadd, encode_and_weakFlag (by omega)]
  cases weak
  · simp [encode]
  · rw [if_pos rfl, ofNat_or_weakFlag (by omega)]

theorem markWeaklyReferenced_encode {weak : Bool} {n : ℕ} (hn : n < 2 ^ 62 - 2) :
    markWeaklyReferenced (encode weak n) = if weak then .done () else .exchange (encode true n) := by
  rw [markWeaklyReferenced, if_neg (count_encode_ne_countMask hn), hasWeakFlag_encode (by omega),
    count_eq_ofNat (by omega), ofNat_or_weakFlag (by omega)]

/-- `retainCount` of a live object is its number of references. -/
theorem retainCount_encode {weak : Bool} {n : ℕ} (hn : n < 2 ^ 62 - 2) :
    (retainCount (encode weak n)).toNat = n + 1 := by
  rw [retainCount, if_neg (count_encode_ne_countMask hn), count_eq_ofNat (by omega), BitVec.toNat_add,
    BitVec.toNat_ofNat]
  change (n % 2 ^ 64 + 1) % 2 ^ 64 = n + 1
  omega

theorem isDeallocating_encode {weak : Bool} {n : ℕ} (hn : n < 2 ^ 62 - 2) :
    isDeallocating (encode weak n) = false := by
  rw [isDeallocating, beq_eq_false_iff_ne]
  exact count_encode_ne_countMask hn

end Libobjc2.Memory.RefCount
