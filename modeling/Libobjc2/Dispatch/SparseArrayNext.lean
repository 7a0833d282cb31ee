import Libobjc2.Common.FirstIn
import Libobjc2.Dispatch.SparseArrayInsert

/-!
# Enumerating sparse arrays (`src/dispatch/sarray2.c`, lines 109–147)

`SparseArrayFindFrom` searches the slots of a node from the one that the start index names.
Below that first slot it passes the start on; below the others it starts at their first index.
The start is cut to the bits of each level, so that a start behind the end of an array of less
than 32 bits names slots in the middle of the array. The leaves below the first slots filter
such indices out, but the nodes to their right are searched as if the start were before them.

Results:
* `findFrom_spec`: what a search finds, from a start within the node and from one behind it.
* `sparseArrayNext_iff`: when one call finds the next value.
* `loop_ends`, `loop_never_ends`: when the loop over all values ends.
* `sparseArrayNext_exhaustive_iff`: both, for every array.
-/

namespace Libobjc2.Dispatch

open Libobjc2.Common

variable {V : Type}

/-! ## Model -/

/-- `SparseArrayFindFrom` (lines 109–135), for a tree of fewer than `fuel` levels: the value and
    its index, which is stored in `*found`. A slot's index fits 32 bits, as shifts are at most 24. -/
def sparseArrayFindFromFuel : ℕ → Heap V → ℕ → ℕ → ℕ → Option (Option (ℕ × V))
  | 0, _, _, _, _ => none
  | fuel + 1, h, sarray, start, indexPrefix => do
    let n ← h.nodes sarray
    let first := (start >>> n.shift) % 256
    firstSome (fun slot => do
      let slotPrefix := indexPrefix ||| (slot.val <<< n.shift)
      if n.shift = 0 then
        let value ← (n.data slot).toValue
        return if slotPrefix ≥ start then value.map fun v => (slotPrefix, v) else none
      else
        let child ← (n.data slot).toPointer
        if isEmptyChild child then return none
        let childStart := if slot.val = first then start else slotPrefix
        sparseArrayFindFromFuel fuel h child childStart slotPrefix) (slots.drop first)

def sparseArrayFindFrom (h : Heap V) (sarray start indexPrefix : ℕ) : Option (Option (ℕ × V)) :=
  sparseArrayFindFromFuel 4 h sarray start indexPrefix

/-- `UINT32_MAX`. -/
def indexMax : ℕ := 2 ^ 32 - 1

/-- `SparseArrayNext` (lines 137–147): the value, and the index that is left in `*idx`. -/
def sparseArrayNext (h : Heap V) (sarray idx : ℕ) : Option (Option V × ℕ) :=
  if sarray = null || idx = indexMax then some (none, idx)
  else do
    match ← sparseArrayFindFrom h sarray (idx + 1) 0 with
    | some (found, value) => return (some value, found)
    | none => return (none, indexMax)

/-- A loop that calls `SparseArrayNext` until it returns `NULL`, as in `installMethodsInClass`
    (`dtable.c`, lines 471–483): what it visits. It is undefined when `fuel` calls do not end it. -/
def visitFrom (h : Heap V) (sarray : ℕ) : ℕ → ℕ → Option (List (ℕ × V))
  | 0, _ => none
  | fuel + 1, idx => do
    match ← sparseArrayNext h sarray idx with
    | (none, _) => return []
    | (some value, idx) => return (idx, value) :: (← visitFrom h sarray fuel idx)

/-! ## Arrays -/

/-- The node at `p` is the root of a tree of `l` levels over its leaves. -/
def IsTree (h : Heap V) : ℕ → ℕ → Prop
  | 0, p => ∃ n, h.nodes p = some n ∧ n.shift = 0 ∧ ∀ i, ∃ v, n.data i = .value v
  | l + 1, p =>
      ∃ n, h.nodes p = some n ∧ n.shift = 8 * (l + 1) ∧ ∀ i, ∃ q, n.data i = .pointer q ∧ IsTree h l q

/-- `p` is a sparse array of `8 (l + 1)` bits, and the static nodes are as they were compiled. -/
structure IsArray (h : Heap V) (l p : ℕ) : Prop where
  level : l ≤ 3
  notNull : p ≠ null
  statics : ∀ q < 5, h.nodes q = emptyNode q
  tree : IsTree h l p

/-- The value at an index. -/
def valueAt (h : Heap V) (l p index : ℕ) : Option V := (walk h l p index).join

/-- `SparseArrayNext` returned the value at the first index after `i` that has one. -/
def NextIs (val : ℕ → Option V) (size i : ℕ) (result : Option V × ℕ) : Prop :=
  (∃ j v, i < j ∧ j < size ∧ val j = some v ∧ (∀ k, i < k → k < j → val k = none) ∧ result = (some v, j)) ∨
  ((∀ k, i < k → k < size → val k = none) ∧ result = (none, indexMax))

/-- The loop from 0 ended, having visited the values after index 0 once each, in order. -/
def VisitsAll (h : Heap V) (l p : ℕ) : Prop :=
  ∃ fuel visited, visitFrom h p fuel 0 = some visited ∧ (visited.map Prod.fst).Pairwise (· < ·) ∧
    ∀ j v, (j, v) ∈ visited ↔ 0 < j ∧ j < 2 ^ (8 * (l + 1)) ∧ valueAt h l p j = some v

/-! ## Values below a node -/

variable {h : Heap V}

theorem valueAt_leaf {p : ℕ} {n : SparseArray V} (hn : h.nodes p = some n) {index : ℕ} {v : Option V}
    (hv : n.data (maskIndex 0 index) = .value v) : valueAt h 0 p index = v := by
  simp [valueAt, walk, loadValue, hn, hv, Word.toValue]

theorem valueAt_child {p q l : ℕ} {n : SparseArray V} (hn : h.nodes p = some n) {index : ℕ}
    (hq : n.data (maskIndex (8 * (l + 1)) index) = .pointer q) : valueAt h (l + 1) p index =
    valueAt h l q index := by
  simp [valueAt, walk, loadChild, hn, hq, Word.toPointer]

/-- The static nodes hold no value. -/
theorem valueAt_static (hs : ∀ q < 5, h.nodes q = emptyNode q) : ∀ {l q : ℕ}, q < 5 → IsTree h l q →
    ∀ index, valueAt h l q index = none := by
  intro l
  induction l with
  | zero =>
    intro q hq ⟨n, hn, h0, _⟩ index
    rw [hs q hq] at hn
    exact valueAt_leaf (by rw [hs q hq, hn]) (emptyNode_leaf hq hn h0 _)
  | succ l ih =>
    intro q hq ⟨n, hn, hshift, hchild⟩ index
    obtain ⟨c, hc, ht⟩ := hchild (maskIndex (8 * (l + 1)) index)
    rw [valueAt_child hn hc]
    refine ih ?_ ht index
    rw [hs q hq] at hn
    interval_cases q <;> simp only [emptyNode, Option.some.injEq, reduceCtorEq] at hn <;> subst hn <;>
      simp only [Word.pointer.injEq, reduceCtorEq] at hc <;> subst hc <;> decide

/-! ## Searching -/

/-- The first index that a search from `start` of the indices `[P, P + M)` looks at: `start` itself,
    or the start of the next leaf when `start` lies behind these indices. -/
def searchFrom (M start P : ℕ) : ℕ := if start < P + M then start else P + (start % M / 256 + 1) * 256

theorem slot_index (k s l : ℕ) (hs : s < 256) :
    2 ^ (8 * (l + 1)) * k ||| s <<< (8 * l) = 2 ^ (8 * (l + 1)) * k + s * 2 ^ (8 * l) := by
  rw [Nat.shiftLeft_eq, ← Nat.two_pow_add_eq_or_of_lt]
  rw [show 8 * (l + 1) = 8 + 8 * l by omega, pow_add]
  exact Nat.mul_lt_mul_of_pos_right hs (Nat.two_pow_pos _)

/-- An index below the slot `s` goes through it. -/
theorem maskIndex_slot {k l s j : ℕ} (hs : s < 256) (hlo : 2 ^ (8 * (l + 1)) * k + s * 2 ^ (8 * l) ≤ j)
    (hhi : j < 2 ^ (8 * (l + 1)) * k + (s + 1) * 2 ^ (8 * l)) : maskIndex (8 * l) j = ⟨s, hs⟩ := by
  have hpow : 2 ^ (8 * (l + 1)) = 256 * 2 ^ (8 * l) := by
    rw [show 8 * (l + 1) = 8 + 8 * l by omega, pow_add]
    rfl
  have hdiv : j / 2 ^ (8 * l) = 256 * k + s := by
    apply Nat.div_eq_of_lt_le
    · calc (256 * k + s) * 2 ^ (8 * l) = 2 ^ (8 * (l + 1)) * k + s * 2 ^ (8 * l) := by rw [hpow]; ring
        _ ≤ j := hlo
    · calc j < 2 ^ (8 * (l + 1)) * k + (s + 1) * 2 ^ (8 * l) := hhi
        _ = (256 * k + s + 1) * 2 ^ (8 * l) := by rw [hpow]; ring
  apply Fin.ext
  simp only [maskIndex, Nat.shiftRight_eq_div_pow, hdiv]
  omega

/-- In the leaf at `p` the slot's value is at the slot's index. -/
theorem leaf_slot {p k s : ℕ} {n : SparseArray V} (hn : h.nodes p = some n) (hs : s < 256) {v : Option V}
    (hv : n.data ⟨s, hs⟩ = .value v) : valueAt h 0 p (256 * k + s) = v := by
  apply valueAt_leaf hn
  rw [maskIndex_slot (l := 0) (k := k) hs (by norm_num) (by norm_num), hv]

/-- Searching a leaf. -/
theorem findFrom_leaf {fuel p start k : ℕ} (ht : IsTree h 0 p) (hstart : 256 * k ≤ start) :
    ∃ r, sparseArrayFindFromFuel (fuel + 1) h p start (256 * k) = some r ∧
      FirstIn (valueAt h 0 p) (searchFrom 256 start (256 * k)) (256 * k + 256) r := by
  obtain ⟨n, hn, h0, hleaf⟩ := ht
  unfold sparseArrayFindFromFuel
  simp only [hn, Option.bind_eq_bind, Option.bind_some, h0, if_true, Nat.shiftRight_zero, Nat.shiftLeft_zero]
  have hslot : ∀ s : Fin 256, 256 * k ||| s.val = 256 * k + s.val := by
    intro s
    have := slot_index k s.val 0 s.isLt
    simpa using this
  simp only [hslot]
  by_cases hin : start < 256 * k + 256
  · -- the slots from the first one on are not before the start
    have hfirst : 256 * k + start % 256 = start := by omega
    rw [searchFrom, if_pos hin]
    have hall := firstSome_interval (valueAt h 0 p)
        (fun slot : Fin 256 => (n.data slot).toValue.bind fun value =>
        some (if start ≤ 256 * k + slot.val then value.map fun v => (256 * k + slot.val, v)
          else none)) (fun s => 256 * k + s)
      (fun s => by omega) (256 - start % 256) (start % 256) (by omega) fun s hs => by
        obtain ⟨v, hv⟩ := hleaf s
        refine ⟨v.map fun v => (256 * k + s.val, v), ?_, ?_⟩
        · simp only [hv, Word.toValue, Option.bind_some]
          rw [if_pos (by omega)]
        · have := FirstIn.single (valueAt h 0 p) (256 * k + s.val)
          rw [leaf_slot hn s.isLt hv] at this
          exact this
    rw [hfirst] at hall
    exact hall
  · -- every slot is before the start
    rw [searchFrom, if_neg hin]
    have hall := firstSome_interval (valueAt h 0 p)
        (fun slot : Fin 256 => (n.data slot).toValue.bind fun value =>
        some (if start ≤ 256 * k + slot.val then value.map fun v => (256 * k + slot.val, v)
          else none)) (fun _ => 256 * k + 256)
      (fun s => le_rfl) (256 - start % 256) (start % 256) (by omega) fun s hs => by
        obtain ⟨v, hv⟩ := hleaf s
        refine ⟨none, ?_, FirstIn.empty le_rfl⟩
        simp only [hv, Word.toValue, Option.bind_some]
        rw [if_neg (by omega)]
    rw [show 256 * k + (start % 256 / 256 + 1) * 256 = 256 * k + 256 by omega]
    exact hall

/-- The first slot of a search covers the index it starts at, and the search of that slot starts
    there too. -/
theorem searchFrom_slot {l k start : ℕ} (hstart : 2 ^ (8 * (l + 2)) * k ≤ start) :
    let M := 2 ^ (8 * (l + 1))
    let P := 2 ^ (8 * (l + 2)) * k + start / M % 256 * M
    P ≤ start ∧ searchFrom M start P = searchFrom (2 ^ (8 * (l + 2))) start (2 ^ (8 * (l + 2)) * k) ∧
      searchFrom M start P ≤ P + M := by
  intro M P
  have hM : 2 ^ (8 * (l + 2)) = 256 * M := by
    rw [show 8 * (l + 2) = 8 + 8 * (l + 1) by omega, pow_add]
    rfl
  obtain ⟨N, hN⟩ : ∃ N, M = 256 * N := ⟨2 ^ (8 * l), by
    rw [show M = 2 ^ (8 + 8 * l) from congrArg (2 ^ ·) (by omega), pow_add]; rfl⟩
  have hNpos : 0 < N := by
    have : 0 < M := Nat.two_pow_pos _
    omega
  have hMpos : 0 < M := by omega
  -- the start, cut into the part above the node, the slot and the part below it
  have hcut : start % (256 * M) = start / M % 256 * M + start % M := by
    rw [Nat.mul_comm 256 M, Nat.mod_mul, Nat.add_comm, Nat.mul_comm]
  have hslot : start / M % 256 < 256 := Nat.mod_lt _ (by decide)
  have hlow : start % M < M := Nat.mod_lt _ hMpos
  have hslotM : start / M % 256 * M + M ≤ 256 * M := by
    rw [← Nat.succ_mul]
    exact Nat.mul_le_mul_right _ hslot
  rw [hM] at hstart ⊢
  have hP : P = 256 * M * k + start / M % 256 * M := by
    show 2 ^ (8 * (l + 2)) * k + _ = _
    rw [hM]
  have hdiv := Nat.div_add_mod start (256 * M)
  by_cases hin : start < 256 * M * k + 256 * M
  · have hk : start / (256 * M) = k := by
      apply Nat.div_eq_of_lt_le
      · rw [Nat.mul_comm k]; exact hstart
      · rw [Nat.add_mul, Nat.mul_comm k, Nat.one_mul]; exact hin
    rw [hk, hcut] at hdiv
    have hge : P ≤ start := by omega
    have hlt : start < P + M := by omega
    refine ⟨hge, ?_, ?_⟩
    · rw [searchFrom, searchFrom, if_pos hlt, if_pos hin]
    · rw [searchFrom, if_pos hlt]
      exact hlt.le
  · have hge : P + M ≤ start := by omega
    refine ⟨by omega, ?_, ?_⟩
    · rw [searchFrom, searchFrom, if_neg (by omega), if_neg hin, hcut, hP, hN]
      have hquot : (start / (256 * N) % 256 * (256 * N) + start % (256 * N)) / 256 =
          start / (256 * N) % 256 * N + start % (256 * N) / 256 := by
        rw [show start / (256 * N) % 256 * (256 * N) = 256 * (start / (256 * N) % 256 * N) by ring,
          Nat.mul_add_div (by decide)]
      rw [hquot]
      ring
    · rw [searchFrom, if_neg (by omega)]
      have hleaf : start % M / 256 + 1 ≤ N := by
        have : start % M / 256 < N := Nat.div_lt_of_lt_mul (by omega)
        omega
      have := Nat.mul_le_mul_right 256 hleaf
      omega

/-- **Searching a node**: the first value from `searchFrom` on. -/
theorem findFrom_spec (hs : ∀ q < 5, h.nodes q = emptyNode q) : ∀ {l fuel p start k : ℕ},
    IsTree h l p → l < fuel →
    2 ^ (8 * (l + 1)) * k ≤ start →
    ∃ r, sparseArrayFindFromFuel fuel h p start (2 ^ (8 * (l + 1)) * k) = some r ∧
      FirstIn (valueAt h l p) (searchFrom (2 ^ (8 * (l + 1))) start (2 ^ (8 * (l + 1)) * k))
        (2 ^ (8 * (l + 1)) * k + 2 ^ (8 * (l + 1))) r := by
  intro l
  induction l with
  | zero =>
    intro fuel p start k ht hfuel hstart
    obtain ⟨fuel, rfl⟩ : ∃ f, fuel = f + 1 := ⟨fuel - 1, by omega⟩
    exact findFrom_leaf ht hstart
  | succ l ih =>
    intro fuel p start k ht hfuel hstart
    obtain ⟨fuel, rfl⟩ : ∃ f, fuel = f + 1 := ⟨fuel - 1, by omega⟩
    obtain ⟨hfirst, hfrom, hle⟩ := searchFrom_slot hstart
    obtain ⟨n, hn, hshift, hchild⟩ := ht
    have hM : 2 ^ (8 * (l + 1 + 1)) = 256 * 2 ^ (8 * (l + 1)) := by
      rw [show 8 * (l + 1 + 1) = 8 + 8 * (l + 1) by omega, pow_add]
      rfl
    have hpos : 0 < 2 ^ (8 * (l + 1)) := Nat.two_pow_pos _
    set M := 2 ^ (8 * (l + 1)) with hMdef
    set P := 2 ^ (8 * (l + 1 + 1)) * k with hPdef
    set first := start / M % 256 with hfirstDef
    have hlt : first < 256 := Nat.mod_lt _ (by decide)
    have hbounds : ∀ s, P + s * M ≤ P + (s + 1) * M := fun s => by rw [Nat.succ_mul]; omega
    have hend : P + 256 * M = P + 2 ^ (8 * (l + 1 + 1)) := by rw [hM]
    -- the search of one slot, from a start that lies in it or behind it
    let f : Fin 256 → Option (Option (ℕ × V)) := fun slot =>
      (n.data slot).toPointer.bind fun child =>
        if isEmptyChild child = true then some none
        else sparseArrayFindFromFuel fuel h child (if slot.val = first then start
            else P + slot.val * M) (P + slot.val * M)
    have hslot : ∀ (s : Fin 256) (from' : ℕ), (if s.val = first then start else P + s.val * M) = from' →
        P + s.val * M ≤ from' → ∃ r, f s = some r ∧
          FirstIn (valueAt h (l + 1) p) (searchFrom M from' (P + s.val * M)) (P + (s.val + 1) * M) r := by
      intro s from' hfrom' hge
      obtain ⟨q, hq, hqt⟩ := hchild s
      have hbase : P + s.val * M = M * (256 * k + s.val) := by rw [hPdef, hM]; ring
      have hval : ∀ j, P + s.val * M ≤ j → j < P + (s.val + 1) * M →
          valueAt h (l + 1) p j = valueAt h l q j := by
        intro j hlo hhi
        apply valueAt_child hn
        rw [maskIndex_slot s.isLt hlo hhi, hq]
      by_cases hempty : isEmptyChild q = true
      · refine ⟨none, by simp only [f, hq, Word.toPointer, Option.bind_some, hempty, if_true], ?_⟩
        intro j hj hj'
        have hj0 : P + s.val * M ≤ j := by
          unfold searchFrom at hj
          split at hj <;> omega
        rw [hval j hj0 hj']
        exact valueAt_static hs ((isEmptyChild_iff q).mp hempty).2 hqt j
      · obtain ⟨r, hr, hfound⟩ := @ih fuel q from' (256 * k + s.val) hqt (by omega)
            (by rw [← hbase]; exact hge)
        refine ⟨r, ?_, ?_⟩
        · simp only [f, hq, Word.toPointer, Option.bind_some, hempty, Bool.false_eq_true, if_false, hfrom']
          rw [hbase]
          exact hr
        · rw [← hbase] at hfound
          rw [Nat.succ_mul, ← Nat.add_assoc]
          refine hfound.congr fun j hj hj' => hval j ?_ ?_
          · unfold searchFrom at hj
            split at hj <;> omega
          · rw [Nat.succ_mul, ← Nat.add_assoc]
            exact hj'
    obtain ⟨r, hr, hfound⟩ := hslot ⟨first, hlt⟩ start (if_pos rfl) hfirst
    obtain ⟨r', hr', hfound'⟩ := firstSome_interval (valueAt h (l + 1) p) f (fun s => P + s * M) hbounds
      (256 - (first + 1)) (first + 1) (by omega) fun s hs' => by
        have hne : s.val ≠ first := by omega
        have := hslot s (P + s.val * M) (if_neg hne) le_rfl
        rwa [searchFrom, if_pos (by omega)] at this
    have hcons : slots.drop first = ⟨first, hlt⟩ :: slots.drop (first + 1) := by
      rw [List.drop_eq_getElem_cons (by simp [slots, hlt])]
      simp [slots]
    refine ⟨(r <|> r'), ?_, ?_⟩
    · unfold sparseArrayFindFromFuel
      simp only [hn, Option.bind_eq_bind, Option.bind_some, hshift, Nat.shiftRight_eq_div_pow]
      have hne : ¬ 8 * (l + 1) = 0 := by omega
      have hindex : ∀ s : Fin 256, P ||| s.val <<< (8 * (l + 1)) = P + s.val * M := fun s =>
        slot_index k s.val (l + 1) s.isLt
      simp only [hne, if_false, hindex]
      show firstSome f (slots.drop first) = _
      rw [hcons]
      exact firstSome_cons hr hr'
    · rw [← hend, ← hfrom]
      refine hfound.append hfound' ?_ ?_
      · rw [Nat.succ_mul, ← Nat.add_assoc]
        exact hle
      · exact Nat.add_le_add_left (Nat.mul_le_mul_right M (by omega)) P

/-! ## One call -/

section Next

variable {l p : ℕ}

/-- The number of indices of an array. -/
def arraySize (l : ℕ) : ℕ := 2 ^ (8 * (l + 1))

theorem arraySize_le (hl : l ≤ 3) : arraySize l ≤ 2 ^ 32 := Nat.pow_le_pow_right (by decide) (by omega)

theorem arraySize_ge (l : ℕ) : 256 ≤ arraySize l := by
  calc 256 = 2 ^ 8 := rfl
    _ ≤ arraySize l := Nat.pow_le_pow_right (by decide) (by omega)

/-- What a call finds, from any index but the last one. -/
theorem IsArray.next (ha : IsArray h l p) {i : ℕ} (hi : i ≠ indexMax) : ∃ r,
    FirstIn (valueAt h l p) (searchFrom (arraySize l) (i + 1) 0) (arraySize l) r ∧
      sparseArrayNext h p i = some (match r with
        | some (found, value) => (some value, found)
        | none => (none, indexMax)) := by
  have hlevel := ha.level
  obtain ⟨r, hr, hfound⟩ := @findFrom_spec V h ha.statics l 4 p (i + 1) 0 ha.tree (by omega) (Nat.zero_le _)
  rw [Nat.mul_zero, Nat.zero_add] at hfound
  rw [Nat.mul_zero] at hr
  refine ⟨r, hfound, ?_⟩
  unfold sparseArrayNext sparseArrayFindFrom
  have hguard : (decide (p = null) || decide (i = indexMax)) = false := by
    simp [ha.notNull, hi]
  rw [hguard, hr]
  cases r <;> rfl

/-- A call finds a value when there is one where it looks. -/
theorem IsArray.next_some (ha : IsArray h l p) {i k : ℕ} (hi : i ≠ indexMax)
    (hk : searchFrom (arraySize l) (i + 1) 0 ≤ k) (hlt : k < arraySize l) (hv : valueAt h l p k ≠ none) :
    ∃ j v, j < arraySize l ∧ sparseArrayNext h p i = some (some v, j) := by
  obtain ⟨r, hfound, hnext⟩ := ha.next hi
  cases r with
  | none => exact absurd (hfound k hk hlt) hv
  | some jv => exact ⟨jv.1, jv.2, hfound.2.1, hnext⟩

/-- One call is right unless it starts behind the array and there is a value in a later leaf than
    the one its cut start names. -/
theorem sparseArrayNext_iff (ha : IsArray h l p) (i : ℕ) :
    (∃ result, sparseArrayNext h p i = some result ∧ NextIs (valueAt h l p) (arraySize l) i result) ↔
      i = indexMax ∨ i + 1 < arraySize l ∨
        ∀ j < arraySize l, (i + 1) % arraySize l / 256 < j / 256 → valueAt h l p j = none := by
  have hsize := arraySize_le ha.level
  by_cases hmax : i = indexMax
  · have hright : ∃ result, sparseArrayNext h p i = some result ∧
        NextIs (valueAt h l p) (arraySize l) i result := by
      refine ⟨(none, indexMax), by simp [sparseArrayNext, hmax], Or.inr ⟨fun k hk hlt => ?_, rfl⟩⟩
      unfold indexMax at hmax
      omega
    exact iff_of_true hright (Or.inl hmax)
  · obtain ⟨r, hfound, hnext⟩ := ha.next hmax
    by_cases hin : i + 1 < arraySize l
    · rw [searchFrom, if_pos (by omega)] at hfound
      refine iff_of_true ⟨_, hnext, ?_⟩ (Or.inr (Or.inl hin))
      cases r with
      | none => exact Or.inr ⟨fun k hk hlt => hfound k hk hlt, rfl⟩
      | some jv =>
        obtain ⟨hm, hj, hv, hbefore⟩ := hfound
        exact Or.inl ⟨jv.1, jv.2, hm, hj, hv, fun k hk hkj => hbefore k hk hkj, rfl⟩
    · rw [searchFrom, if_neg (by omega), Nat.zero_add] at hfound
      have hleaf : ∀ j, ((i + 1) % arraySize l / 256 + 1) * 256 ≤ j ↔ (i + 1) % arraySize l / 256 < j / 256 :=
        fun j => (Nat.le_div_iff_mul_le (by decide)).symm
      constructor
      · rintro ⟨result, hresult, hright⟩
        refine Or.inr (Or.inr fun j hj hlater => ?_)
        rw [hnext] at hresult
        obtain ⟨j', v, hij, hj', -⟩ | ⟨-, hnone⟩ := hright
        · omega
        · cases r with
          | none => exact hfound j ((hleaf j).mpr hlater) hj
          | some jv =>
            rw [hnone] at hresult
            simp at hresult
      · rintro (h0 | h1 | hnone)
        · exact absurd h0 hmax
        · exact absurd h1 hin
        · refine ⟨_, hnext, Or.inr ⟨fun k hk hlt => by omega, ?_⟩⟩
          cases r with
          | none => rfl
          | some jv =>
            obtain ⟨hm, hj, hv, -⟩ := hfound
            rw [hnone jv.1 hj ((hleaf jv.1).mp hm)] at hv
            simp at hv

/-! ## The loop over all values -/

/-- The loop ends, and visits what comes after `i`, if it cannot start behind the array. -/
theorem loop_ends (ha : IsArray h l p) (hlast : l = 0 ∨ l = 3 ∨ valueAt h l p (arraySize l - 1) = none) :
    ∀ (n i : ℕ), arraySize l - i ≤ n → i < arraySize l → (i + 1 = arraySize l → l = 0 ∨ l = 3) →
    ∃ visited, visitFrom h p (n + 1) i = some visited ∧ (visited.map Prod.fst).Pairwise (· < ·) ∧
      ∀ j v, (j, v) ∈ visited ↔ i < j ∧ j < arraySize l ∧ valueAt h l p j = some v := by
  have hsize := arraySize_le ha.level
  intro n
  induction n with
  | zero => intro i hn hi; omega
  | succ n ih =>
    intro i hn hi hend
    have hright : ∃ result, sparseArrayNext h p i = some result ∧
        NextIs (valueAt h l p) (arraySize l) i result := by
      apply (sparseArrayNext_iff ha i).mpr
      by_cases hin : i + 1 < arraySize l
      · exact Or.inr (Or.inl hin)
      · obtain rfl | rfl := hend (by omega)
        · refine Or.inr (Or.inr fun j hj hlater => ?_)
          have : arraySize 0 = 256 := rfl
          omega
        · refine Or.inl ?_
          have : arraySize 3 = 2 ^ 32 := rfl
          unfold indexMax
          omega
    obtain ⟨result, hresult, ⟨j, v, hij, hj, hv, hbefore, rfl⟩ | ⟨hnone, rfl⟩⟩ := hright
    · obtain ⟨visited, hvisit, hsorted, hmem⟩ := ih j (by omega) hj fun hje => by
        obtain h0 | h3 | hnone := hlast
        · exact Or.inl h0
        · exact Or.inr h3
        · rw [← hje, Nat.add_sub_cancel, hv] at hnone
          simp at hnone
      refine ⟨(j, v) :: visited, ?_, ?_, ?_⟩
      · unfold visitFrom
        simp [hresult, hvisit]
      · rw [List.map_cons, List.pairwise_cons]
        refine ⟨fun k hk => ?_, hsorted⟩
        obtain ⟨⟨k', u⟩, hku, rfl⟩ := List.mem_map.mp hk
        exact ((hmem k' u).mp hku).1
      · intro k u
        rw [List.mem_cons, hmem k u]
        constructor
        · rintro (heq | ⟨hjk, hk, hu⟩)
          · obtain ⟨rfl, rfl⟩ := Prod.mk.inj heq
            exact ⟨hij, hj, hv⟩
          · exact ⟨by omega, hk, hu⟩
        · rintro ⟨hik, hk, hu⟩
          obtain hlt | rfl | hgt := lt_trichotomy k j
          · rw [hbefore k hik hlt] at hu
            simp at hu
          · rw [hv] at hu
            exact Or.inl (by simpa using hu.symm)
          · exact Or.inr ⟨hgt, hk, hu⟩
    · refine ⟨[], ?_, by simp, fun j v => ?_⟩
      · unfold visitFrom
        simp [hresult]
      · simp only [List.not_mem_nil, false_iff, not_and]
        intro hij hj
        rw [hnone j hij hj]
        simp

/-- In an array of 16 or 24 bits with a value at its last index, every call finds a value. -/
theorem loop_never_ends (ha : IsArray h l p) (h0 : l ≠ 0) (h3 : l ≠ 3)
    (hlast : valueAt h l p (arraySize l - 1) ≠ none) :
    ∀ (fuel i : ℕ), i < arraySize l → visitFrom h p fuel i = none := by
  have hlevel := ha.level
  have hlarge : 2 ^ 16 ≤ arraySize l := Nat.pow_le_pow_right (by decide) (by omega)
  have hsmall : arraySize l ≤ 2 ^ 24 := Nat.pow_le_pow_right (by decide) (by omega)
  intro fuel
  induction fuel with
  | zero => intro i _; rfl
  | succ fuel ih =>
    intro i hi
    have hfrom : searchFrom (arraySize l) (i + 1) 0 ≤ arraySize l - 1 := by
      unfold searchFrom
      split
      · omega
      · rw [show i + 1 = arraySize l by omega, Nat.mod_self]
        omega
    obtain ⟨j, v, hj, hnext⟩ := ha.next_some (by unfold indexMax; omega) hfrom (by omega) hlast
    unfold visitFrom
    simp [hnext, ih j hj]

theorem visitsAll_iff (ha : IsArray h l p) :
    VisitsAll h l p ↔ l = 0 ∨ l = 3 ∨ valueAt h l p (arraySize l - 1) = none := by
  have hge := arraySize_ge l
  constructor
  · rintro ⟨fuel, visited, hvisit, -⟩
    by_contra hnot
    simp only [not_or] at hnot
    rw [loop_never_ends ha hnot.1 hnot.2.1 hnot.2.2 fuel 0 (by omega)] at hvisit
    simp at hvisit
  · intro hlast
    obtain ⟨visited, hvisit, hsorted, hmem⟩ := loop_ends ha hlast (arraySize l) 0 (by omega) (by omega)
      fun hone => by omega
    exact ⟨_, visited, hvisit, hsorted, hmem⟩

/-- **Enumeration.** A call is right exactly from the indices that stay within the array or have
    no value to wrap to, and the loop over all values is right exactly when the array has 8 or
    32 bits or no value at its last index. -/
theorem sparseArrayNext_exhaustive_iff (ha : IsArray h l p) :
    (∀ i < 2 ^ 32, (∃ result, sparseArrayNext h p i = some result ∧
      NextIs (valueAt h l p) (arraySize l) i result) ↔ i = indexMax ∨ i + 1 < arraySize l ∨
        ∀ j < arraySize l, (i + 1) % arraySize l / 256 < j / 256 → valueAt h l p j = none) ∧
    (VisitsAll h l p ↔ l = 0 ∨ l = 3 ∨ valueAt h l p (arraySize l - 1) = none) :=
  ⟨fun i _ => sparseArrayNext_iff ha i, visitsAll_iff ha⟩

/-- Every array of a well-shaped heap is one. -/
theorem Shaped.isArray {X : Finset ℕ} (hs : Shaped h X) {b : Body V} (hp : p ∉ X) (hb : h.body p = some b) :
    ∃ l, b.shift = 8 * l ∧ IsArray h l p := by
  obtain ⟨l, hl, hshift⟩ := hs.level p b hb
  have htree : ∀ (m q : ℕ) (c : Body V), q ∉ X → h.body q = some c → c.shift = 8 * m → IsTree h m q := by
    intro m
    induction m with
    | zero =>
      intro q c _ hc h0
      obtain ⟨n, hn, rfl⟩ := body_eq_some_iff.mp hc
      exact ⟨n, hn, h0, hs.leaf q _ hc h0⟩
    | succ m ih =>
      intro q c hq hc hm
      obtain ⟨n, hn, rfl⟩ := body_eq_some_iff.mp hc
      refine ⟨n, hn, hm, fun i => ?_⟩
      obtain ⟨r, d, hr, hrX, hd, hds⟩ := hs.child q _ hq hc (by omega) i
      exact ⟨r, hr, ih r d hrX hd (by omega)⟩
  refine ⟨l, hshift, hl, ?_, hs.statics, htree l p b hp hb hshift⟩
  rintro rfl
  obtain ⟨n, hn, -⟩ := body_eq_some_iff.mp hb
  rw [hs.statics null (by decide)] at hn
  simp [null, emptyNode] at hn

end Next

/-- An array of 16 bits with one value, at its last index. -/
def lastValue : Heap ℕ where
  nodes p :=
    if p = 5 then some ⟨8, 1, fun i => .pointer (if i.val = 255 then 6 else 1)⟩
    else if p = 6 then some ⟨0, 1, fun i => .value (if i.val = 255 then some 42 else none)⟩
    else emptyNode p
  next := 7
  freed := []
  fails _ := false

theorem lastValue_isArray : IsArray lastValue 1 5 where
  level := by decide
  notNull := by decide
  statics q hq := by
    have h5 : q ≠ 5 := by omega
    have h6 : q ≠ 6 := by omega
    simp [lastValue, h5, h6]
  tree := by
    refine ⟨_, rfl, rfl, fun i => ⟨_, rfl, ?_⟩⟩
    by_cases hi : i.val = 255
    · rw [if_pos hi]
      exact ⟨_, rfl, rfl, fun j => ⟨_, rfl⟩⟩
    · rw [if_neg hi]
      exact ⟨_, rfl, rfl, fun j => ⟨_, rfl⟩⟩

theorem sparseArrayNext_exhaustive_iff_lastValue : ¬ VisitsAll lastValue 1 5 := fun hv =>
  absurd ((sparseArrayNext_exhaustive_iff lastValue_isArray).2.mp hv) (by decide)

/-- A call from the last index finds the value there once more, and the loop never ends. -/
theorem lastValue_wraps : sparseArrayNext lastValue 5 65535 = some (some 42, 65535) ∧
    ¬ ∀ (h : Heap ℕ) (l p : ℕ), IsArray h l p →
      (∀ i < 2 ^ 32, ∃ result, sparseArrayNext h p i = some result ∧
        NextIs (valueAt h l p) (arraySize l) i result) ∧ VisitsAll h l p := by
  refine ⟨by decide +kernel, fun hall => ?_⟩
  obtain ⟨-, fuel, visited, hvisit, -⟩ := hall lastValue 1 5 lastValue_isArray
  rw [loop_never_ends lastValue_isArray (by decide) (by decide) (by decide) fuel 0 (by decide)] at hvisit
  simp at hvisit

end Libobjc2.Dispatch
