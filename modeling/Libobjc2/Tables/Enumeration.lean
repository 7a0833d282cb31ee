import Libobjc2.Dispatch.Classes
import Libobjc2.Tables.HashTable

/-!
# Enumerating a hash table (`src/internal/support/hash_table.h`, `src/runtime/class_table.c`)

`_next` allocates its enumerator on the first call and counts it in the table. When it has no
further value it takes the enumerator out of the count and frees it. `objc_getClassList` stops
when its buffer is full or `_next` has nothing more, and frees the enumerator in both cases.

Results:
* `tableNext_spec`: the enumerator walks over the values in the order of their cells.
* `getClassList_spec`: what is written, and what becomes of the enumerator on either exit.
* `getClassList_bound_iff`: no call that can write its buffer leaves the enumerator as it should.
* `copyClassList_spec`: the copy is complete, and leaves an enumerator in the count.
-/

namespace Libobjc2.Tables

abbrev Class := Dispatch.Class

/-! ## The enumerator -/

/-- `struct PREFIX(_table_enumerator)`; its `table` is the one that is enumerated. -/
structure Enumerator where
  seen : BitVec 32
  index : BitVec 32

/-- A table, the enumerator that `*state` points to, and how many enumerators were allocated and
    how often one was freed. Freeing leaves the pointer as it is. -/
structure Enumeration (α : Type) where
  table : Table α
  state : Option Enumerator
  allocated : ℕ
  freed : ℕ

variable {α : Type}

/-- Lines 502–511 of `_next`, after `CALLOC` succeeded. -/
def openEnumerator (r : Enumeration α) : Enumeration α :=
  { r with
    table := { r.table with enumeratorCount := r.table.enumeratorCount + 1 }
    state := some ⟨0, -1⟩
    allocated := r.allocated + 1 }

/-- Lines 515–519 and 540–543 of `_next`. -/
def closeEnumerator (r : Enumeration α) : Enumeration α :=
  { r with
    table := { r.table with enumeratorCount := r.table.enumeratorCount - 1 }
    freed := r.freed + 1 }

/-- The loop of `_next` over the cells (lines 527–537): the index of the next value. -/
def scanCells (t : Table α) : ℕ → BitVec 32 → Option (BitVec 32)
  | 0, _ => none
  | fuel + 1, index =>
    let index := index + 1
    if index.toNat < t.tableSize then
      if (t.cells index.toNat).value.isSome then some index else scanCells t fuel index
    else none

/-- Lines 513–550 of `_next`, with the enumerator `e`. -/
def advance (r : Enumeration α) (e : Enumerator) : Option α × Enumeration α :=
  if r.table.tableUsed ≤ e.seen then (none, closeEnumerator r)
  else
    match scanCells r.table (r.table.tableSize + 1) e.index with
    | some index => ((r.table.cells index.toNat).value, { r with state := some ⟨e.seen + 1, index⟩ })
    | none => (none, closeEnumerator r)

/-- `_next` (lines 499–551); `calloc` says whether the allocation of an enumerator succeeds. Its
    result is used unchecked: `none` is the use of a null pointer. -/
def tableNext (calloc : Bool) (r : Enumeration α) : Option (Option α × Enumeration α) :=
  match r.state with
  | some e => some (advance r e)
  | none => if calloc then some (advance (openEnumerator r) ⟨0, -1⟩) else none

/-! ## Class lists -/

/-- What a call of `objc_getClassList` returns, what it wrote, and what it left behind. -/
structure ClassList where
  count : ℕ
  buffer : List Class
  after : Enumeration Class

/-- The enumeration of a table before the first call of `_next`. -/
def startEnumeration (t : Table α) : Enumeration α := ⟨t, none, 0, 0⟩

/-- The loop of `objc_getClassList` (lines 1067–1071), with `remaining = bufferLen - count`. -/
def getClassListLoop (calloc : Bool) : ℕ → Enumeration Class → List Class →
    Option (List Class × Enumeration Class)
  | 0, r, buffer => some (buffer, r)
  | remaining + 1, r, buffer =>
    match tableNext calloc r with
    | none => none
    | some (none, r) => some (buffer, r)
    | some (some next, r) => getClassListLoop calloc remaining r (buffer ++ [next])

/-- `free(e)` for a possibly null `e` (line 1072). -/
def freeState (r : Enumeration α) : Enumeration α :=
  if r.state.isSome then { r with freed := r.freed + 1 } else r

/-- `objc_getClassList` (lines 1058–1074); `hasBuffer` says that `buffer` is not `NULL`. -/
def getClassList (calloc : Bool) (t : Table Class) (hasBuffer : Bool) (bufferLen : ℤ) : Option ClassList :=
  if !hasBuffer || bufferLen == 0 then some ⟨t.tableUsed.toNat, [], startEnumeration t⟩
  else (getClassListLoop calloc bufferLen.toNat (startEnumeration t) []).map fun (buffer, r) =>
    ⟨buffer.length, buffer, freeState r⟩

/-- `objc_copyClassList` (lines 1075–1085); `hasBuffer` says whether its `calloc` succeeded. -/
def copyClassList (calloc : Bool) (t : Table Class) (hasBuffer : Bool) : Option (ℕ × ClassList) :=
  (getClassList calloc t hasBuffer t.tableUsed.toNat).map fun result => (t.tableUsed.toNat, result)

/-! ## Bounds and the enumerator -/

/-- The values of the cells below `m`, in order. -/
def valuesBelow (t : Table α) (m : ℕ) : List α := (List.range m).filterMap fun i => (t.cells i).value

/-- The values of a table. -/
def values (t : Table α) : List α := valuesBelow t t.tableSize

/-- The used count is the number of values, and fits its type. -/
structure Counted (t : Table α) : Prop where
  used : t.tableUsed.toNat = (values t).length
  size : t.tableSize < 2 ^ 32

/-- The call wrote min(n, bufferLen) distinct classes of the table and returned their number,
    freed each enumerator it allocated once, and left the count of enumerators as it was. -/
structure Bounded (t : Table Class) (bufferLen : ℤ) (result : ClassList) : Prop where
  distinct : result.buffer.Nodup
  listed : ∀ c ∈ result.buffer, c ∈ values t
  length : (result.buffer.length : ℤ) = min ((values t).length : ℤ) bufferLen
  count : result.count = result.buffer.length
  freed : result.after.freed = result.after.allocated
  enumerators : result.after.table.enumeratorCount = t.enumeratorCount

/-! ## Walking over the cells -/

theorem valuesBelow_succ_none {t : Table α} {m : ℕ} (h : (t.cells m).value = none) :
    valuesBelow t (m + 1) = valuesBelow t m := by
  simp [valuesBelow, List.range_succ, h]

theorem valuesBelow_succ_some {t : Table α} {m : ℕ} {v : α} (h : (t.cells m).value = some v) :
    valuesBelow t (m + 1) = valuesBelow t m ++ [v] := by
  simp [valuesBelow, List.range_succ, h]

theorem valuesBelow_mono (t : Table α) {m n : ℕ} (h : m ≤ n) : valuesBelow t m <+: valuesBelow t n := by
  obtain ⟨d, rfl⟩ := Nat.exists_eq_add_of_le h
  refine ⟨(List.range d).filterMap fun i => (t.cells (m + i)).value, ?_⟩
  simp [valuesBelow, List.range_add, List.filterMap_append, List.filterMap_map]

/-- The scan stops at the next value, or at the end when there is none. -/
theorem scanCells_spec {t : Table α} (hsize : t.tableSize < 2 ^ 32) : ∀ (fuel : ℕ) (index : BitVec 32),
    t.tableSize < (index + 1).toNat + fuel →
    match scanCells t fuel index with
    | some i => ∃ v, (t.cells i.toNat).value = some v ∧ i.toNat < t.tableSize ∧
        valuesBelow t (i.toNat + 1) = valuesBelow t (index + 1).toNat ++ [v]
    | none => t.tableSize ≤ (index + 1).toNat ∨ values t = valuesBelow t (index + 1).toNat := by
  intro fuel
  induction fuel with
  | zero =>
    intro index h
    exact Or.inl (by omega)
  | succ fuel ih =>
    intro index h
    unfold scanCells
    simp only
    by_cases hlt : (index + 1).toNat < t.tableSize
    · rw [if_pos hlt]
      cases hv : (t.cells (index + 1).toNat).value with
      | some v =>
        simp only [Option.isSome_some, if_true]
        exact ⟨v, hv, hlt, valuesBelow_succ_some hv⟩
      | none =>
        simp only [Option.isSome_none, Bool.false_eq_true, if_false]
        have hnext : (index + 1 + 1).toNat = (index + 1).toNat + 1 := by
          rw [BitVec.toNat_add, Nat.mod_eq_of_lt]
          · rfl
          · show (index + 1).toNat + 1 < 2 ^ 32
            omega
        have hih := ih (index + 1) (by omega)
        rw [hnext, valuesBelow_succ_none hv] at hih
        cases hs : scanCells t fuel (index + 1) with
        | some i =>
          rw [hs] at hih
          exact hih
        | none =>
          rw [hs] at hih
          right
          obtain hend | hend := hih
          · unfold values
            rw [show t.tableSize = (index + 1).toNat + 1 by omega, valuesBelow_succ_none hv]
          · exact hend
    · rw [if_neg hlt]
      exact Or.inl (by omega)

/-- The enumerator `e` of `r` has passed the values `done`. -/
structure Passed (r : Enumeration α) (e : Enumerator) (done : List α) : Prop where
  counted : Counted r.table
  state : r.state = some e
  bound : (e.index + 1).toNat ≤ r.table.tableSize
  passed : done = valuesBelow r.table (e.index + 1).toNat
  seen : e.seen.toNat = done.length

/-- With values left, `_next` returns the next one and moves on. -/
theorem tableNext_spec {r : Enumeration α} {e : Enumerator} {done : List α} (h : Passed r e done)
    (calloc : Bool)
    (hleft : done.length < (values r.table).length) : ∃ v e', Passed { r with state := some e' } e'
    (done ++ [v]) ∧
      tableNext calloc r = some (some v, { r with state := some e' }) := by
  have hused := h.counted.used
  have hseen := h.seen
  have hmore : ¬ r.table.tableUsed ≤ e.seen := by
    rw [BitVec.le_def]
    omega
  have hscan := scanCells_spec h.counted.size (r.table.tableSize + 1) e.index (by omega)
  unfold tableNext
  rw [h.state]
  simp only [advance, if_neg hmore]
  cases hs : scanCells r.table (r.table.tableSize + 1) e.index with
  | none =>
    rw [hs] at hscan
    exfalso
    obtain hend | hend := hscan
    · rw [h.passed, show (e.index + 1).toNat = r.table.tableSize from le_antisymm h.bound hend] at hleft
      exact lt_irrefl _ hleft
    · rw [h.passed, ← hend] at hleft
      exact lt_irrefl _ hleft
  | some i =>
    rw [hs] at hscan
    obtain ⟨v, hv, hlt, hvalues⟩ := hscan
    have hsize := h.counted.size
    have hi : (i + 1).toNat = i.toNat + 1 := by
      rw [BitVec.toNat_add, Nat.mod_eq_of_lt]
      · rfl
      · show i.toNat + 1 < 2 ^ 32
        omega
    refine ⟨v, ⟨e.seen + 1, i⟩, ⟨h.counted, rfl, ?_, ?_, ?_⟩, ?_⟩
    · show (i + 1).toNat ≤ r.table.tableSize
      omega
    · show done ++ [v] = valuesBelow r.table (i + 1).toNat
      rw [hi, hvalues, ← h.passed]
    · have hfit := r.table.tableUsed.isLt
      rw [BitVec.toNat_add, Nat.mod_eq_of_lt]
      · show e.seen.toNat + 1 = _
        simp [h.seen]
      · show e.seen.toNat + 1 < 2 ^ 32
        omega
    · simp [hv]

/-- With no value left, `_next` gives the enumerator up. -/
theorem tableNext_end {r : Enumeration α} {e : Enumerator} {done : List α} (h : Passed r e done)
    (calloc : Bool)
    (hleft : (values r.table).length ≤ done.length) :
    tableNext calloc r = some (none, closeEnumerator r) := by
  have hused := h.counted.used
  have hseen := h.seen
  have hnomore : r.table.tableUsed ≤ e.seen := by
    rw [BitVec.le_def]
    omega
  unfold tableNext
  rw [h.state]
  simp only [advance, if_pos hnomore]

theorem Passed.before {r : Enumeration α} {e : Enumerator} {done : List α} (h : Passed r e done) :
    done <+: values r.table := by
  rw [h.passed]
  exact valuesBelow_mono r.table h.bound

/-- What the loop of `objc_getClassList` does from an open enumerator: it fills the buffer up,
    and closes the enumerator when it asks for more than there is. -/
theorem getClassListLoop_spec (calloc : Bool) : ∀ (remaining : ℕ) {r : Enumeration Class} {e : Enumerator}
    {done : List Class}, Passed r e done → ∃ e', getClassListLoop calloc remaining r done = some
      ((values r.table).take (done.length + remaining),
        if (values r.table).length < done.length + remaining then closeEnumerator { r with state := some e' }
        else { r with state := some e' }) := by
  intro remaining
  induction remaining with
  | zero =>
    intro r e done h
    refine ⟨e, ?_⟩
    have hle := h.before.length_le
    unfold getClassListLoop
    rw [Nat.add_zero, if_neg (by omega), ← List.prefix_iff_eq_take.mp h.before, ← h.state]
  | succ remaining ih =>
    intro r e done h
    unfold getClassListLoop
    by_cases hleft : done.length < (values r.table).length
    · obtain ⟨v, e', hpassed, hnext⟩ := tableNext_spec h calloc hleft
      rw [hnext]
      obtain ⟨e'', hloop⟩ := ih hpassed
      refine ⟨e'', ?_⟩
      rw [List.length_append, List.length_singleton, Nat.add_assoc, Nat.add_comm 1] at hloop
      exact hloop
    · rw [tableNext_end h calloc (by omega)]
      refine ⟨e, ?_⟩
      have hle := h.before.length_le
      rw [if_pos (by omega), List.take_of_length_le (by omega), ← h.state]
      have hall : done = values r.table := h.before.eq_of_length (by omega)
      rw [hall]

theorem passed_open {t : Table α} (h : Counted t) :
    Passed (openEnumerator (startEnumeration t)) ⟨0, -1⟩ [] where
  counted := ⟨h.used, h.size⟩
  state := rfl
  bound := Nat.zero_le _
  passed := rfl
  seen := rfl

/-- A call that can write its buffer: the first min(n, bufferLen) classes, and an enumerator
    that is freed twice, or freed once and still counted. -/
theorem getClassList_spec {t : Table Class} (h : Counted t) {bufferLen : ℤ} (hpos : 0 < bufferLen) :
    ∃ result, getClassList true t true bufferLen = some result ∧
      result.buffer = (values t).take bufferLen.toNat ∧ result.count = result.buffer.length ∧
      result.after.allocated = 1 ∧
      (if (values t).length < bufferLen.toNat
        then result.after.freed = 2 ∧ result.after.table.enumeratorCount = t.enumeratorCount
        else result.after.freed = 1 ∧ result.after.table.enumeratorCount = t.enumeratorCount + 1) := by
  have hstep : getClassListLoop true bufferLen.toNat (startEnumeration t) [] =
      getClassListLoop true bufferLen.toNat (openEnumerator (startEnumeration t)) [] := by
    obtain ⟨len, hlen⟩ : ∃ len, bufferLen.toNat = len + 1 := ⟨bufferLen.toNat - 1, by omega⟩
    rw [hlen]
    rfl
  obtain ⟨e, hloop⟩ := getClassListLoop_spec true bufferLen.toNat (passed_open h)
  rw [List.length_nil, Nat.zero_add] at hloop
  have hne : bufferLen ≠ 0 := by omega
  unfold getClassList
  rw [hstep, hloop]
  simp only [Bool.not_true, Bool.false_or, beq_iff_eq, hne, if_false, Option.map_some]
  refine ⟨_, rfl, rfl, rfl, ?_, ?_⟩
  · split <;> rfl
  · show if (values t).length < _ then _ else _
    by_cases hlt : (values t).length < bufferLen.toNat
    · have hlt' : (values (openEnumerator (startEnumeration t)).table).length < bufferLen.toNat := hlt
      rw [if_pos hlt, if_pos hlt']
      refine ⟨rfl, ?_⟩
      exact BitVec.add_sub_cancel _ _
    · have hlt' : ¬ (values (openEnumerator (startEnumeration t)).table).length < bufferLen.toNat := hlt
      rw [if_neg hlt, if_neg hlt']
      exact ⟨rfl, rfl⟩

/-- A class list leaves its enumerator freed once and uncounted only when there is nothing to
    enumerate with: without a buffer, and then the bound holds only of an empty table. -/
theorem getClassList_bound_iff {t : Table Class} (h : Counted t) (calloc hasBuffer : Bool) {bufferLen : ℤ}
    (hpos : 0 < bufferLen) : (∃ result, getClassList calloc t hasBuffer bufferLen = some result ∧
      Bounded t bufferLen result) ↔ hasBuffer = false ∧ values t = [] := by
  constructor
  · rintro ⟨result, hcall, hb⟩
    cases hasBuffer with
    | false =>
      have hres : result = ⟨t.tableUsed.toNat, [], startEnumeration t⟩ := by
        simpa [getClassList, eq_comm] using hcall
      have hlen := hb.length
      rw [hres, List.length_nil] at hlen
      refine ⟨rfl, List.length_eq_zero_iff.mp ?_⟩
      omega
    | true =>
      cases calloc with
      | false =>
        obtain ⟨len, hlen⟩ : ∃ len, bufferLen.toNat = len + 1 := ⟨bufferLen.toNat - 1, by omega⟩
        have hne : bufferLen ≠ 0 := by omega
        simp [getClassList, hne, hlen, getClassListLoop, tableNext, startEnumeration] at hcall
      | true =>
        obtain ⟨result', hcall', -, -, hallocated, hfreed⟩ := getClassList_spec h hpos
        obtain rfl : result = result' := by simpa [hcall] using hcall'
        have hf := hb.freed
        have he := hb.enumerators
        split at hfreed
        · omega
        · have hcount := hfreed.2
          rw [he] at hcount
          simp at hcount
  · rintro ⟨rfl, hempty⟩
    refine ⟨⟨t.tableUsed.toNat, [], startEnumeration t⟩, by simp [getClassList], ?_⟩
    refine ⟨List.nodup_nil, by simp, ?_, ?_, rfl, rfl⟩
    · rw [hempty]
      simp
      omega
    · simp [h.used, hempty]

/-- `objc_copyClassList` copies every class of a table that is not empty, and leaves one more
    enumerator in the count. -/
theorem copyClassList_spec {t : Table Class} (h : Counted t) (hne : values t ≠ []) :
    ∃ result, copyClassList true t true = some (t.tableUsed.toNat, result) ∧ result.buffer = values t ∧
      result.after.freed = 1 ∧ result.after.table.enumeratorCount = t.enumeratorCount + 1 := by
  have hpos : 0 < (values t).length := List.length_pos_iff.mpr hne
  have hused := h.used
  obtain ⟨result, hcall, hbuffer, -, -, hfreed⟩ := @getClassList_spec t h t.tableUsed.toNat (by omega)
  unfold copyClassList
  rw [hcall]
  rw [Int.toNat_natCast, hused] at hfreed hbuffer
  rw [if_neg (lt_irrefl _)] at hfreed
  rw [List.take_of_length_le le_rfl] at hbuffer
  exact ⟨result, rfl, hbuffer, hfreed⟩

/-- A table of 64 cells with one class. -/
def oneClass : Table Class := ⟨64, 1, 0, none, fun i => if i = 5 then ⟨0, some 7⟩ else ⟨0, none⟩⟩

theorem oneClass_counted : Counted oneClass := ⟨by decide, by decide⟩

theorem getClassList_bound_iff_oneClass : ¬ ∃ result, getClassList true oneClass true 1 = some result ∧
    Bounded oneClass 1 result := fun h =>
  absurd ((getClassList_bound_iff oneClass_counted true true (by decide)).mp h).1 (by decide)

/-- Asking one class for two entries frees the enumerator twice; asking for one leaves it counted. -/
theorem getClassList_frees_twice :
    (getClassList true oneClass true 2).map
    (fun o => (o.buffer, o.after.allocated, o.after.freed)) = some ([7], 1, 2) ∧
    (getClassList true oneClass true 1).map
    (fun o => (o.buffer, o.after.freed, o.after.table.enumeratorCount)) =
      some ([7], 1, 1) ∧
    ¬ ∀ (t : Table Class) (bufferLen : ℤ), Counted t → 0 < bufferLen →
      ∃ result, getClassList true t true bufferLen = some result ∧ Bounded t bufferLen result := by
  refine ⟨by decide, by decide, fun h => ?_⟩
  obtain ⟨result, hcall, hb⟩ := h oneClass 2 oneClass_counted (by decide)
  have hfreed : (getClassList true oneClass true 2).map
      (fun o => (o.after.allocated, o.after.freed)) = some (1, 2) := by
    decide
  rw [hcall] at hfreed
  have hf := hb.freed
  simp at hfreed
  omega

end Libobjc2.Tables
