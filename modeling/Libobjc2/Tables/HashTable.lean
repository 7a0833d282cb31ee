import Mathlib.Algebra.Group.Nat.Defs
import Mathlib.Data.Nat.ModEq

/-!
# Hopscotch hash tables (`src/internal/support/hash_table.h`)

A value lives in its home cell, the cell its hash selects, or at most 32 cells after it; bit
`j - 1` of `secondMaps` in the home cell says that the cell `j` places on holds a value of this
home. Positions are computed in 32-bit arithmetic before the remainder by the table size is
taken. The header is a template: here the macros are the fields of `Keying`.

Results:
* `ffs_spec`: `__builtin_ffs` finds the lowest set bit.
* `tableLookup_add`: when the table size divides 2^32, the cell `j` places after a hash is the
  cell `j` places after its home.
* `tableGetCell_some`, `tableGetCell_none`: in a valid table the search finds exactly the keys
  that are present.
-/

namespace Libobjc2.Tables

/-! ## The table -/

/-- `struct PREFIX(_table_cell_struct)`; `none` is the placeholder `NULL`. -/
structure Cell (α : Type) where
  secondMaps : BitVec 32
  value : Option α

/-- `struct PREFIX(_table_struct)`, without the lock; `cells` is read below `tableSize`. -/
structure Table (α : Type) where
  tableSize : ℕ
  tableUsed : BitVec 32
  enumeratorCount : BitVec 32
  old : Option (Table α)
  cells : ℕ → Cell α

/-- `MAP_TABLE_HASH_KEY` and the key that `MAP_TABLE_HASH_VALUE` and
    `MAP_TABLE_COMPARE_FUNCTION` read in a value. -/
structure Keying (κ α : Type) where
  hashKey : κ → BitVec 32
  keyOf : α → κ

variable {κ α : Type}

/-- `MAP_TABLE_HASH_VALUE`. -/
def Keying.hashValue (K : Keying κ α) (value : α) : BitVec 32 := K.hashKey (K.keyOf value)

/-- `MAP_TABLE_COMPARE_FUNCTION`. -/
def Keying.compare [DecidableEq κ] (K : Keying κ α) (key : κ) (value : Option α) : Bool :=
  value.any fun v => K.keyOf v = key

/-- `__builtin_ffs`: one more than the index of the lowest set bit, 0 when there is none. -/
def ffs (w : BitVec 32) : ℕ :=
  match (List.range 32).find? w.getLsbD with
  | some i => i + 1
  | none => 0

/-- `UINT32_C(1) << (hop - 1)`. -/
def hopBit (hop : ℕ) : BitVec 32 := 1#32 <<< (hop - 1)

/-- `_table_lookup` (lines 241–246): the index of the cell. -/
def tableLookup (t : Table α) (hash : BitVec 32) : ℕ := hash.toNat % t.tableSize

/-- The loop of `_table_get_cell` over the bits of `jump` (lines 376–385). -/
def searchHops [DecidableEq κ] (K : Keying κ α) (t : Table α) (key : κ) (hash : BitVec 32) :
    ℕ → BitVec 32 → Option ℕ
  | 0, _ => none
  | fuel + 1, jump =>
    let hop := ffs jump
    if hop = 0 then none
    else
      let hopCell := tableLookup t (hash + BitVec.ofNat 32 hop)
      if K.compare key (t.cells hopCell).value then some hopCell
      else searchHops K t key hash fuel (jump &&& ~~~hopBit hop)

/-- The part of `_table_get_cell` that looks at the table itself (lines 365–386). A jump word
    has 32 bits, so its loop ends within 33 rounds. -/
def searchCells [DecidableEq κ] (K : Keying κ α) (t : Table α) (key : κ) : Option ℕ :=
  let hash := K.hashKey key
  let cell := tableLookup t hash
  if (t.cells cell).value.isSome then
    if K.compare key (t.cells cell).value then some cell
    else searchHops K t key hash 33 (t.cells cell).secondMaps
  else none

/-- `_table_get_cell` (lines 363–395): how many tables back the cell is, and its index there. -/
def tableGetCell [DecidableEq κ] (K : Keying κ α) : Table α → κ → Option (ℕ × ℕ)
  | t@⟨_, _, _, old, _⟩, key =>
    match searchCells K t key with
    | some cell => some (0, cell)
    | none =>
      match old with
      | some o => (tableGetCell K o key).map fun (back, cell) => (back + 1, cell)
      | none => none

/-- The value in the cell that `_table_get_cell` found. -/
def valueAt : Table α → ℕ × ℕ → Option α
  | ⟨_, _, _, _, cells⟩, (0, cell) => (cells cell).value
  | ⟨_, _, _, some o, _⟩, (back + 1, cell) => valueAt o (back, cell)
  | ⟨_, _, _, none, _⟩, (_ + 1, _) => none

/-- `_table_get` (lines 453–474). -/
def tableGet [DecidableEq κ] (K : Keying κ α) (t : Table α) (key : κ) : Option α :=
  (tableGetCell K t key).bind (valueAt t)

/-- Write one cell. -/
def Table.setCell (t : Table α) (cell : ℕ) (c : Cell α) : Table α :=
  { t with cells := Function.update t.cells cell c }

/-! ## Valid layouts -/

/-- The home cell of a value. -/
def home (K : Keying κ α) (t : Table α) (value : α) : ℕ := tableLookup t (K.hashValue value)

/-- A layout from which every key that is present is found. -/
structure Valid (K : Keying κ α) (t : Table α) : Prop where
  noResize : t.old = none
  distinct : ∀ i j v w, i < t.tableSize → j < t.tableSize → (t.cells i).value = some v →
    (t.cells j).value = some w → K.keyOf v = K.keyOf w → i = j
  empty : ∀ i < t.tableSize, (t.cells i).value = none → (t.cells i).secondMaps = 0
  near : ∀ i < t.tableSize, ∀ v, (t.cells i).value = some v → ∃ d ≤ 32, i = (home K t v + d) % t.tableSize
  hops : ∀ h < t.tableSize, ∀ j, 1 ≤ j → j ≤ 32 → ((t.cells h).secondMaps.getLsbD (j - 1) = true ↔
    ∃ v, (t.cells ((h + j) % t.tableSize)).value = some v ∧ home K t v = h)

/-- The table holds the value `v`. -/
def Holds (t : Table α) (v : α) : Prop := ∃ i < t.tableSize, (t.cells i).value = some v

/-! ## Words of hop bits -/

theorem ffs_zero {w : BitVec 32} (h : ffs w = 0) : ∀ i, w.getLsbD i = false := by
  intro i
  by_cases hi : i < 32
  · unfold ffs at h
    split at h
    · omega
    · next hnone => simpa using List.find?_eq_none.mp hnone i (List.mem_range.mpr hi)
  · exact BitVec.getLsbD_of_ge w i (by omega)

theorem ffs_spec {w : BitVec 32} (h : ffs w ≠ 0) : ∃ i < 32, ffs w = i + 1 ∧ w.getLsbD i = true ∧
    ∀ j < i, w.getLsbD j = false := by
  unfold ffs at h ⊢
  split at h
  · next i hi =>
    obtain ⟨hbit, hlt, hleast⟩ := List.find?_range_eq_some.mp hi
    exact ⟨i, List.mem_range.mp hlt, rfl, hbit, fun j hj => by simpa using hleast j hj⟩
  · exact absurd rfl h

theorem ffs_ne_zero {w : BitVec 32} (h : w ≠ 0) : ffs w ≠ 0 := by
  intro h0
  apply h
  apply BitVec.eq_of_getLsbD_eq
  intro i _
  simpa using ffs_zero h0 i

theorem getLsbD_hopBit {hop j : ℕ} (hpos : 1 ≤ hop) (hle : hop ≤ 32) :
    (hopBit hop).getLsbD j = decide (j + 1 = hop) := by
  unfold hopBit
  simp only [BitVec.getLsbD_shiftLeft, BitVec.getLsbD_one]
  by_cases hj : j + 1 = hop
  · subst hj
    simp
    omega
  · simp only [hj, decide_false]
    by_cases hlt : j < hop - 1
    · simp [hlt]
    · have : j - (hop - 1) ≠ 0 := by omega
      simp [this]

/-- Clearing the bit of `hop` changes no other bit. -/
theorem getLsbD_clearHop (w : BitVec 32) {hop j : ℕ} (hpos : 1 ≤ hop) (hle : hop ≤ 32) :
    (w &&& ~~~hopBit hop).getLsbD j = (w.getLsbD j && !decide (j + 1 = hop)) := by
  rw [BitVec.getLsbD_and, BitVec.getLsbD_not, getLsbD_hopBit hpos hle]
  by_cases hj : j < 32
  · simp [hj]
  · simp [BitVec.getLsbD_of_ge w j (by omega)]

/-! ## Positions -/

theorem tableLookup_lt {t : Table α} (hN : 0 < t.tableSize) (hash : BitVec 32) :
    tableLookup t hash < t.tableSize := Nat.mod_lt _ hN

/-- When the table size divides 2^32, the 32-bit sum is taken modulo the table size too. -/
theorem tableLookup_add {t : Table α} (hN : t.tableSize ∣ 2 ^ 32) (hash : BitVec 32) (hop : ℕ) :
    tableLookup t (hash + BitVec.ofNat 32 hop) = (tableLookup t hash + hop) % t.tableSize := by
  unfold tableLookup
  rw [BitVec.toNat_add, BitVec.toNat_ofNat, Nat.add_mod_mod, Nat.mod_mod_of_dvd _ hN]
  rw [Nat.mod_add_mod]

/-- Steps of at most 32 cells from one cell end in different cells. -/
theorem step_injective {N a i j : ℕ} (hN : 32 < N) (hi : i ≤ 32) (hj : j ≤ 32)
    (h : (a + i) % N = (a + j) % N) : i = j := by
  have hmod : i ≡ j [MOD N] := Nat.ModEq.add_left_cancel' a h
  have hi' : i % N = i := Nat.mod_eq_of_lt (by omega)
  have hj' : j % N = j := Nat.mod_eq_of_lt (by omega)
  unfold Nat.ModEq at hmod
  omega

/-! ## Searching -/

section Search

variable [DecidableEq κ] {K : Keying κ α} {t : Table α} {key : κ}

theorem compare_eq_true {value : Option α} : K.compare key value = true ↔ ∃ v, value = some v ∧
    K.keyOf v = key := by
  cases value <;> simp [Keying.compare]

theorem searchHops_some {hash : BitVec 32} {cell : ℕ} : ∀ {fuel : ℕ} {jump : BitVec 32},
    searchHops K t key hash fuel jump = some cell →
      (∃ x, cell = tableLookup t x) ∧ K.compare key (t.cells cell).value = true := by
  intro fuel
  induction fuel with
  | zero => intro jump h; simp [searchHops] at h
  | succ fuel ih =>
    intro jump h
    unfold searchHops at h
    simp only at h
    split at h
    · simp at h
    · split at h
      · next hc =>
        obtain rfl : _ = cell := by simpa using h
        exact ⟨⟨_, rfl⟩, hc⟩
      · exact ih h

/-- No cell that a bit of the jump word names holds the key. The bits below `n` are clear, so
    `33 - n` rounds are enough. -/
theorem searchHops_none {hash : BitVec 32} : ∀ {fuel n : ℕ} {jump : BitVec 32}, 33 ≤ fuel + n →
    (∀ i < n, jump.getLsbD i = false) → searchHops K t key hash fuel jump = none →
    ∀ i, jump.getLsbD i = true →
      K.compare key (t.cells (tableLookup t (hash + BitVec.ofNat 32 (i + 1)))).value = false := by
  intro fuel
  induction fuel with
  | zero =>
    intro n jump hn hlow _ i hi
    by_cases h : i < n
    · simp [hlow i h] at hi
    · rw [BitVec.getLsbD_of_ge jump i (by omega)] at hi
      simp at hi
  | succ fuel ih =>
    intro n jump hn hlow h i hi
    unfold searchHops at h
    simp only at h
    split at h
    · next h0 => simp [ffs_zero h0 i] at hi
    · next h0 =>
      obtain ⟨l, hl32, hl, hbit, hleast⟩ := ffs_spec h0
      rw [hl] at h
      split at h
      · simp at h
      · next hc =>
        by_cases hil : i = l
        · subst hil
          simpa using hc
        · have hnl : n ≤ l := by
            by_contra hlt
            simp [hlow l (by omega)] at hbit
          refine ih (n := l + 1) (by omega) (fun j hj => ?_) h i ?_
          · rw [getLsbD_clearHop _ (by omega) (by omega)]
            by_cases hjl : j = l
            · simp [hjl]
            · simp [hleast j (by omega)]
          · rw [getLsbD_clearHop _ (by omega) (by omega), hi]
            simp
            omega

theorem searchCells_some {cell : ℕ} (hN : 0 < t.tableSize) (h : searchCells K t key = some cell) :
    cell < t.tableSize ∧ ∃ v, (t.cells cell).value = some v ∧ K.keyOf v = key := by
  unfold searchCells at h
  simp only at h
  split at h
  · split at h
    · next hc =>
      obtain rfl : _ = cell := by simpa using h
      exact ⟨tableLookup_lt hN _, compare_eq_true.mp hc⟩
    · obtain ⟨⟨x, rfl⟩, hc⟩ := searchHops_some h
      exact ⟨tableLookup_lt hN _, compare_eq_true.mp hc⟩
  · simp at h

theorem searchCells_none (hv : Valid K t) (hN : 32 < t.tableSize) (hdvd : t.tableSize ∣ 2 ^ 32)
    (h : searchCells K t key = none) : ∀ v, Holds t v → K.keyOf v ≠ key := by
  intro v ⟨i, hi, hiv⟩ hkey
  have hhome : home K t v = tableLookup t (K.hashKey key) := by
    rw [← hkey]
    rfl
  have hcell := tableLookup_lt (t := t) (by omega) (K.hashKey key)
  obtain ⟨d, hd, hid⟩ := hv.near i hi v hiv
  rw [hhome] at hid
  have hcmp : K.compare key (t.cells i).value = true := compare_eq_true.mpr ⟨v, hiv, hkey⟩
  unfold searchCells at h
  simp only at h
  by_cases hd0 : d = 0
  · -- the value is in its home cell
    subst hd0
    rw [Nat.add_zero, Nat.mod_eq_of_lt hcell] at hid
    subst hid
    rw [hiv] at hcmp
    simp [hiv, hcmp] at h
  · have hbit : (t.cells (tableLookup t (K.hashKey key))).secondMaps.getLsbD (d - 1) = true :=
      (hv.hops _ hcell d (by omega) hd).mpr ⟨v, by rw [← hid]; exact hiv, hhome⟩
    split at h
    · split at h
      · simp at h
      · have hnot := searchHops_none (n := 0) (by omega) (by simp) h (d - 1) hbit
        rw [Nat.sub_add_cancel (by omega), tableLookup_add hdvd, ← hid, hcmp] at hnot
        simp at hnot
    · next hempty =>
      rw [hv.empty _ hcell (by simpa using hempty)] at hbit
      simp at hbit

/-- In a valid table the search finds exactly the cells whose value has the key. -/
theorem searchCells_eq_some_iff (hv : Valid K t) (hN : 32 < t.tableSize) (hdvd : t.tableSize ∣ 2 ^ 32)
    {cell : ℕ} : searchCells K t key = some cell ↔
      cell < t.tableSize ∧ ∃ v, (t.cells cell).value = some v ∧ K.keyOf v = key := by
  constructor
  · exact searchCells_some (by omega)
  · rintro ⟨hlt, v, hcell, hkey⟩
    cases hs : searchCells K t key with
    | none => exact absurd hkey (searchCells_none hv hN hdvd hs v ⟨cell, hlt, hcell⟩)
    | some other =>
      obtain ⟨hlt', w, hother, hkey'⟩ := searchCells_some (by omega) hs
      rw [hv.distinct other cell w v hlt' hlt hother hcell (by rw [hkey', hkey])]

theorem tableGetCell_eq (hold : t.old = none) :
    tableGetCell K t key = (searchCells K t key).map fun cell => (0, cell) := by
  obtain ⟨size, used, enumerators, old, cells⟩ := t
  subst hold
  unfold tableGetCell
  cases searchCells K _ key <;> rfl

theorem valueAt_zero (t : Table α) (cell : ℕ) : valueAt t (0, cell) = (t.cells cell).value := by
  obtain ⟨size, used, enumerators, old, cells⟩ := t
  simp [valueAt]

/-- In a valid table `_table_get` returns the value that has the key. -/
theorem tableGet_eq_some_iff (hv : Valid K t) (hN : 32 < t.tableSize) (hdvd : t.tableSize ∣ 2 ^ 32) {v : α} :
    tableGet K t key = some v ↔ Holds t v ∧ K.keyOf v = key := by
  unfold tableGet
  rw [tableGetCell_eq hv.noResize]
  constructor
  · intro h
    obtain ⟨cell, hcell, hval⟩ : ∃ cell, searchCells K t key = some cell ∧ (t.cells cell).value = some v := by
      simpa [Option.bind_map, Option.bind_eq_some_iff, valueAt_zero] using h
    obtain ⟨hlt, w, hw, hkey⟩ := searchCells_some (by omega) hcell
    obtain rfl : w = v := by simpa [hw] using hval
    exact ⟨⟨cell, hlt, hw⟩, hkey⟩
  · rintro ⟨⟨cell, hlt, hcell⟩, hkey⟩
    rw [(searchCells_eq_some_iff hv hN hdvd).mpr ⟨hlt, v, hcell, hkey⟩]
    simp [valueAt_zero, hcell]

theorem tableGet_eq_none_iff (hv : Valid K t) (hN : 32 < t.tableSize) (hdvd : t.tableSize ∣ 2 ^ 32) :
    tableGet K t key = none ↔ ∀ v, Holds t v → K.keyOf v ≠ key := by
  constructor
  · intro h v hheld hkey
    rw [(tableGet_eq_some_iff hv hN hdvd).mpr ⟨hheld, hkey⟩] at h
    simp at h
  · intro h
    cases hg : tableGet K t key with
    | none => rfl
    | some v =>
      obtain ⟨hheld, hkey⟩ := (tableGet_eq_some_iff hv hN hdvd).mp hg
      exact absurd hkey (h v hheld)

end Search

end Libobjc2.Tables
