import Libobjc2.Tables.HashTable
import Mathlib.Data.Finset.Card
import Mathlib.Data.Finset.Prod

/-!
# Removing from a hash table (`src/internal/support/hash_table.h`, lines 397–451)

`_remove` empties the cell of its key. When that cell is also the home of displaced values,
`_table_move_second` moves the nearest one into it, which empties another cell, and goes on
there. In between the table has one hole: a cell whose value is stale and that no hop bit may
name, while its own hop bits still stand.

Results:
* `Punched.move`: moving a displaced value home moves the hole and keeps everything else.
* `moveSecond_spec`: each round clears a hop bit, so the chain ends, in a valid table.
* `remove_exact`: in a table whose size is a power of two, removing takes out its key and
  nothing else.
* `remove_wraps`: in a table of 33 cells the 32-bit sum of a hash and a hop can lose a key.
-/

namespace Libobjc2.Tables

variable {κ α : Type}

/-! ## Removal -/

/-- `_table_move_second` (lines 397–415); `none` means that `fuel` cells were not enough. -/
def moveSecond : ℕ → Table α → ℕ → Option (Table α)
  | 0, _, _ => none
  | fuel + 1, t, emptyCell =>
    let hop := ffs (t.cells emptyCell).secondMaps
    let hopCell := tableLookup t (BitVec.ofNat 32 (emptyCell + hop))
    let t := t.setCell emptyCell
      ⟨(t.cells emptyCell).secondMaps &&& ~~~hopBit hop, (t.cells hopCell).value⟩
    if (t.cells hopCell).secondMaps = 0 then some (t.setCell hopCell { t.cells hopCell with value := none })
    else moveSecond fuel t hopCell

/-- Lines 423–437 of `_remove`: the bit that the home cell has for a displaced cell. -/
def clearBase (t : Table α) (baseCell cell : ℕ) : Table α :=
  if baseCell ≠ cell then
    let displacement := (cell + t.tableSize - baseCell) % t.tableSize
    let jump := hopBit displacement
    if (t.cells baseCell).secondMaps &&& jump ≠ 0 then
      t.setCell baseCell { t.cells baseCell with secondMaps := (t.cells baseCell).secondMaps &&& ~~~jump }
    else t
  else t

/-- Lines 439–448 of `_remove`. -/
def emptyCell (fuel : ℕ) (t : Table α) (cell : ℕ) : Option (Table α) :=
  if (t.cells cell).secondMaps = 0 then some (t.setCell cell { t.cells cell with value := none })
  else moveSecond fuel t cell

/-- `_remove` (lines 417–451). A cell of the table that is being copied is not in `table`, and
    the distance to its home is undefined. -/
def remove [DecidableEq κ] (K : Keying κ α) (fuel : ℕ) (t : Table α) (key : κ) : Option (Table α) :=
  match tableGetCell K t key with
  | none => some t
  | some (0, cell) =>
    (emptyCell fuel (clearBase t (tableLookup t (K.hashKey key)) cell) cell).map fun t =>
      { t with tableUsed := t.tableUsed - 1 }
  | some (_ + 1, _) => none

/-- Removing `key` ends, keeps the layout valid, takes out `key` and nothing else, and counts it. -/
def RemovesExactly [DecidableEq κ] (K : Keying κ α) (t : Table α) (key : κ) : Prop :=
  ∃ bound, ∀ fuel ≥ bound, ∃ t', remove K fuel t key = some t' ∧ Valid K t' ∧ tableGet K t' key = none ∧
    (∀ other, other ≠ key → tableGet K t' other = tableGet K t other) ∧
    ((∃ v, Holds t v ∧ K.keyOf v = key) → t'.tableUsed = t.tableUsed - 1) ∧
    ((¬ ∃ v, Holds t v ∧ K.keyOf v = key) → t'.tableUsed = t.tableUsed)

/-! ## A table with a hole -/

/-- A valid layout but for the value of the cell `c`, which is stale. -/
structure Punched (K : Keying κ α) (t : Table α) (c : ℕ) : Prop where
  hole : c < t.tableSize
  noResize : t.old = none
  distinct : ∀ i j v w, i < t.tableSize → j < t.tableSize → i ≠ c → j ≠ c → (t.cells i).value = some v →
    (t.cells j).value = some w → K.keyOf v = K.keyOf w → i = j
  empty : ∀ i < t.tableSize, i ≠ c → (t.cells i).value = none → (t.cells i).secondMaps = 0
  near : ∀ i < t.tableSize, i ≠ c → ∀ v, (t.cells i).value = some v →
    ∃ d ≤ 32, i = (home K t v + d) % t.tableSize
  hops : ∀ h < t.tableSize, ∀ j, 1 ≤ j → j ≤ 32 → ((t.cells h).secondMaps.getLsbD (j - 1) = true ↔
    (h + j) % t.tableSize ≠ c ∧ ∃ v, (t.cells ((h + j) % t.tableSize)).value = some v ∧ home K t v = h)

/-- The table holds `v` outside the cell `c`. -/
def HoldsOutside (t : Table α) (c : ℕ) (v : α) : Prop :=
  ∃ i < t.tableSize, i ≠ c ∧ (t.cells i).value = some v

/-- The hop bits that are set. -/
def hopBits (t : Table α) : Finset (ℕ × ℕ) :=
  (Finset.range t.tableSize ×ˢ Finset.range 32).filter fun p => (t.cells p.1).secondMaps.getLsbD p.2 = true

theorem card_hopBits_le (t : Table α) : (hopBits t).card ≤ 32 * t.tableSize := by
  calc (hopBits t).card ≤ (Finset.range t.tableSize ×ˢ Finset.range 32).card := Finset.card_filter_le _ _
    _ = 32 * t.tableSize := by rw [Finset.card_product, Finset.card_range, Finset.card_range, Nat.mul_comm]

section Hole

variable {K : Keying κ α} {t : Table α} {c : ℕ}

@[simp] theorem setCell_tableSize (t : Table α) (i : ℕ) (x : Cell α) : (t.setCell i x).tableSize =
    t.tableSize := rfl

@[simp] theorem setCell_tableUsed (t : Table α) (i : ℕ) (x : Cell α) : (t.setCell i x).tableUsed =
    t.tableUsed := rfl

@[simp] theorem setCell_old (t : Table α) (i : ℕ) (x : Cell α) : (t.setCell i x).old = t.old := rfl

@[simp] theorem setCell_same (t : Table α) (i : ℕ) (x : Cell α) : (t.setCell i x).cells i = x := by
  simp [Table.setCell]

theorem setCell_other (t : Table α) {i j : ℕ} (x : Cell α) (h : j ≠ i) :
    (t.setCell i x).cells j = t.cells j := by
  simp [Table.setCell, h]

@[simp] theorem home_setCell (t : Table α) (i : ℕ) (x : Cell α) (v : α) :
    home K (t.setCell i x) v = home K t v := rfl

/-- No step of 1 to 32 cells comes back to where it started. -/
theorem step_ne {N a j : ℕ} (hN : 32 < N) (ha : a < N) (hpos : 1 ≤ j) (hj : j ≤ 32) : (a + j) % N ≠ a := by
  intro h
  have h0 : (a + j) % N = (a + 0) % N := by rw [h, Nat.add_zero, Nat.mod_eq_of_lt ha]
  have := step_injective hN hj (by omega) h0
  omega

/-- A hole without hop bits is closed by clearing it. -/
theorem Punched.close (h : Punched K t c) (h0 : (t.cells c).secondMaps = 0) :
    Valid K (t.setCell c { t.cells c with value := none }) ∧
      ∀ v, Holds (t.setCell c { t.cells c with value := none }) v ↔ HoldsOutside t c v := by
  refine ⟨⟨h.noResize, ?_, ?_, ?_, ?_⟩, ?_⟩
  · intro i j v w hi hj hiv hjw hkey
    have hic : i ≠ c := by rintro rfl; simp at hiv
    have hjc : j ≠ c := by rintro rfl; simp at hjw
    rw [setCell_other _ _ hic] at hiv
    rw [setCell_other _ _ hjc] at hjw
    exact h.distinct i j v w hi hj hic hjc hiv hjw hkey
  · intro i hi hnone
    by_cases hic : i = c
    · subst hic
      simpa using h0
    · rw [setCell_other _ _ hic] at hnone ⊢
      exact h.empty i hi hic hnone
  · intro i hi v hiv
    have hic : i ≠ c := by rintro rfl; simp at hiv
    rw [setCell_other _ _ hic] at hiv
    exact h.near i hi hic v hiv
  · intro a ha j hpos hj
    have hbits : ((t.setCell c { t.cells c with value := none }).cells a).secondMaps =
        (t.cells a).secondMaps := by
      by_cases hac : a = c
      · subst hac
        simp
      · rw [setCell_other _ _ hac]
    rw [hbits, h.hops a ha j hpos hj]
    by_cases hc : (a + j) % t.tableSize = c
    · simp [hc]
    · simp [hc, setCell_other _ _ hc]
  · intro v
    constructor
    · rintro ⟨i, hi, hiv⟩
      have hic : i ≠ c := by rintro rfl; simp at hiv
      rw [setCell_other _ _ hic] at hiv
      exact ⟨i, hi, hic, hiv⟩
    · rintro ⟨i, hi, hic, hiv⟩
      exact ⟨i, hi, by rw [setCell_other _ _ hic]; exact hiv⟩

/-- The table after the nearest displaced value of the hole `c`, `hop` cells on, was moved home. -/
def moved (t : Table α) (c hop : ℕ) : Table α :=
  t.setCell c ⟨(t.cells c).secondMaps &&& ~~~hopBit hop, (t.cells ((c + hop) % t.tableSize)).value⟩

theorem moved_bit (t : Table α) {c hop h j : ℕ} (hpos : 1 ≤ hop) (hle : hop ≤ 32) :
    ((moved t c hop).cells h).secondMaps.getLsbD j =
      ((t.cells h).secondMaps.getLsbD j && !decide (h = c ∧ j + 1 = hop)) := by
  unfold moved
  by_cases hc : h = c
  · subst hc
    simp [getLsbD_clearHop _ hpos hle]
  · rw [setCell_other _ _ hc]
    simp [hc]

/-- Moving a displaced value home leaves the hole where it was. -/
theorem Punched.move (h : Punched K t c) (hN : 32 < t.tableSize) (hop : ℕ) (hpos : 1 ≤ hop) (hle : hop ≤ 32)
    (hbit : (t.cells c).secondMaps.getLsbD (hop - 1) = true) :
    (c + hop) % t.tableSize ≠ c ∧ Punched K (moved t c hop) ((c + hop) % t.tableSize) ∧
      (∀ v, HoldsOutside (moved t c hop) ((c + hop) % t.tableSize) v ↔ HoldsOutside t c v) ∧
      (hopBits (moved t c hop)).card < (hopBits t).card := by
  obtain ⟨hne, w, hw, hhome⟩ := (h.hops c h.hole hop hpos hle).mp hbit
  have hhop : (c + hop) % t.tableSize < t.tableSize := Nat.mod_lt _ (by omega)
  have hself : ((moved t c hop).cells c).value = some w := by
    unfold moved
    simpa using hw
  have hother : ∀ i, i ≠ c → (moved t c hop).cells i = t.cells i := fun i hi => setCell_other _ _ hi
  refine ⟨hne, ⟨hhop, h.noResize, ?_, ?_, ?_, ?_⟩, ?_, ?_⟩
  · intro i j v u hi hj hie hje hiv hju hkey
    by_cases hic : i = c
    · subst hic
      obtain rfl : w = v := by simpa [hself] using hiv
      by_cases hji : j = i
      · exact hji.symm
      · rw [hother j hji] at hju
        exact absurd (h.distinct _ j w u hhop hj hne hji hw hju hkey).symm hje
    · rw [hother i hic] at hiv
      by_cases hjc : j = c
      · subst hjc
        obtain rfl : w = u := by simpa [hself] using hju
        exact absurd (h.distinct i _ v w hi hhop hic hne hiv hw hkey) hie
      · rw [hother j hjc] at hju
        exact h.distinct i j v u hi hj hic hjc hiv hju hkey
  · intro i hi _ hnone
    by_cases hic : i = c
    · subst hic
      simp [hself] at hnone
    · rw [hother i hic] at hnone ⊢
      exact h.empty i hi hic hnone
  · intro i hi _ v hiv
    by_cases hic : i = c
    · subst hic
      obtain rfl : w = v := by simpa [hself] using hiv
      refine ⟨0, by omega, ?_⟩
      show i = (home K t w + 0) % t.tableSize
      rw [hhome, Nat.add_zero, Nat.mod_eq_of_lt h.hole]
    · rw [hother i hic] at hiv
      exact h.near i hi hic v hiv
  · intro a ha j hj1 hj32
    show _ ↔ (a + j) % t.tableSize ≠ _ ∧ ∃ v, ((moved t c hop).cells ((a + j) % t.tableSize)).value = some v ∧
      home K t v = a
    rw [moved_bit _ hpos hle, Nat.sub_add_cancel hj1]
    by_cases hnew : (a + j) % t.tableSize = (c + hop) % t.tableSize
    · -- the cell that became the hole: its only bit was the one of `c`, which is cleared
      simp only [hnew, ne_eq, not_true_eq_false, false_and, iff_false, Bool.and_eq_true, Bool.not_eq_true',
        decide_eq_false_iff_not, not_and]
      intro hset hnot
      obtain ⟨-, v, hv, hva⟩ := (h.hops a ha j hj1 hj32).mp hset
      rw [hnew, hw] at hv
      obtain rfl : w = v := by simpa using hv
      obtain rfl : a = c := by rw [← hva, hhome]
      exact hnot rfl (step_injective hN hj32 hle hnew)
    · have hkeep : ¬ (a = c ∧ j = hop) := by
        rintro ⟨rfl, rfl⟩
        exact hnew rfl
      simp only [hkeep, decide_false, Bool.not_false, Bool.and_true, ne_eq, hnew, not_false_eq_true, true_and]
      rw [h.hops a ha j hj1 hj32]
      by_cases hold : (a + j) % t.tableSize = c
      · -- the old hole now holds a value of home `c`, and no bit of `c` names `c`
        rw [hold, hself]
        simp only [ne_eq, not_true_eq_false, false_and, Option.some.injEq, false_iff, not_exists, not_and]
        rintro v rfl hva
        have hac : a = c := by rw [← hva, hhome]
        rw [hac] at hold
        exact step_ne hN h.hole hj1 hj32 hold
      · rw [hother _ hold]
        simp [hold]
  · intro v
    constructor
    · rintro ⟨i, hi, hie, hiv⟩
      by_cases hic : i = c
      · subst hic
        exact ⟨_, hhop, hne, by rw [hw, ← hself, hiv]⟩
      · rw [hother i hic] at hiv
        exact ⟨i, hi, hic, hiv⟩
    · rintro ⟨i, hi, hic, hiv⟩
      by_cases hie : i = (c + hop) % t.tableSize
      · subst hie
        exact ⟨c, h.hole, fun he => hne he.symm, by rw [hself, ← hw, hiv]⟩
      · exact ⟨i, hi, hie, by rw [hother i hic]; exact hiv⟩
  · apply Finset.card_lt_card
    refine ⟨fun p hp => ?_, fun hsub => ?_⟩
    · simp only [hopBits, Finset.mem_filter, moved_bit _ hpos hle, Bool.and_eq_true] at hp ⊢
      exact ⟨hp.1, hp.2.1⟩
    · have hmem : (c, hop - 1) ∈ hopBits t := by
        have hc := h.hole
        simp only [hopBits, Finset.mem_filter, Finset.mem_product, Finset.mem_range]
        exact ⟨⟨hc, by omega⟩, hbit⟩
      have hgone := hsub hmem
      simp [hopBits, moved_bit _ hpos hle, Nat.sub_add_cancel hpos] at hgone

/-- The chain of moves ends, and closes the hole. -/
theorem moveSecond_spec : ∀ {fuel : ℕ} {t : Table α} {c : ℕ}, Punched K t c → 32 < t.tableSize →
    t.tableSize ∣ 2 ^ 32 → (t.cells c).secondMaps ≠ 0 → (hopBits t).card ≤ fuel →
    ∃ t', moveSecond fuel t c = some t' ∧ Valid K t' ∧ t'.tableSize = t.tableSize ∧
      t'.tableUsed = t.tableUsed ∧ ∀ v, Holds t' v ↔ HoldsOutside t c v := by
  intro fuel
  induction fuel with
  | zero =>
    intro t c h hN hdvd h0 hcard
    obtain ⟨i, hi, -, hbit, -⟩ := ffs_spec (ffs_ne_zero h0)
    have hmem : (c, i) ∈ hopBits t := by
      simp only [hopBits, Finset.mem_filter, Finset.mem_product, Finset.mem_range]
      exact ⟨⟨h.hole, hi⟩, hbit⟩
    have := Finset.card_pos.mpr ⟨_, hmem⟩
    omega
  | succ fuel ih =>
    intro t c h hN hdvd h0 hcard
    obtain ⟨i, hi, hffs, hbit, -⟩ := ffs_spec (ffs_ne_zero h0)
    obtain ⟨hne, hp, hvalues, hless⟩ := h.move hN (i + 1) (by omega) (by omega) hbit
    have hlook : tableLookup t (BitVec.ofNat 32 (c + (i + 1))) = (c + (i + 1)) % t.tableSize := by
      unfold tableLookup
      rw [BitVec.toNat_ofNat, Nat.mod_mod_of_dvd _ hdvd]
    unfold moveSecond
    simp only [hffs, hlook]
    split
    · next hclosed =>
      obtain ⟨hv, hh⟩ := hp.close hclosed
      exact ⟨_, rfl, hv, rfl, rfl, fun v => (hh v).trans (hvalues v)⟩
    · next hopen =>
      obtain ⟨t', ht', hv, hsize, hused, hh⟩ := ih hp hN hdvd hopen (by omega)
      exact ⟨t', ht', hv, hsize, hused, fun v => (hh v).trans (hvalues v)⟩

/-- `emptyCell` closes the hole, whether or not it is a home. -/
theorem emptyCell_spec (h : Punched K t c) (hN : 32 < t.tableSize) (hdvd : t.tableSize ∣ 2 ^ 32) (fuel : ℕ)
    (hfuel : 32 * t.tableSize ≤ fuel) : ∃ t', emptyCell fuel t c = some t' ∧ Valid K t' ∧
      t'.tableSize = t.tableSize ∧ t'.tableUsed = t.tableUsed ∧ ∀ v, Holds t' v ↔ HoldsOutside t c v := by
  unfold emptyCell
  split
  · next h0 =>
    obtain ⟨hv, hh⟩ := h.close h0
    exact ⟨_, rfl, hv, rfl, rfl, hh⟩
  · next h0 => exact moveSecond_spec h hN hdvd h0 (le_trans (card_hopBits_le t) hfuel)

/-- The distance from a cell back to the home it was reached from. -/
theorem displacement_eq {N base d : ℕ} (hN : 32 < N) (hbase : base < N) (hd : d ≤ 32) :
    ((base + d) % N + N - base) % N = d := by
  by_cases hwrap : base + d < N
  · rw [Nat.mod_eq_of_lt hwrap, show base + d + N - base = d + N by omega, Nat.add_mod_right,
      Nat.mod_eq_of_lt (by omega)]
  · have hmod : (base + d) % N = base + d - N := by
      rw [Nat.mod_eq_sub_mod (by omega), Nat.mod_eq_of_lt (by omega)]
    rw [hmod, show base + d - N + N - base = d by omega, Nat.mod_eq_of_lt (by omega)]

/-- Clearing the home cell's bit for the cell of a value makes that cell a hole. -/
theorem Valid.clearBase (hv : Valid K t) (hN : 32 < t.tableSize) {v : α} (hc : c < t.tableSize)
    (hval : (t.cells c).value = some v) : Punched K (clearBase t (home K t v) c) c ∧
      (clearBase t (home K t v) c).tableSize = t.tableSize ∧
      (clearBase t (home K t v) c).tableUsed = t.tableUsed ∧
      ∀ u, HoldsOutside (clearBase t (home K t v) c) c u ↔ HoldsOutside t c u := by
  have hhome : home K t v < t.tableSize := tableLookup_lt (by omega) _
  unfold Tables.clearBase
  by_cases hb : home K t v = c
  · -- the value is in its home cell, and no bit names that cell
    rw [if_neg (not_not.mpr hb)]
    refine ⟨⟨hc, hv.noResize, fun i j v w hi hj _ _ => hv.distinct i j v w hi hj, fun i hi _ => hv.empty i hi,
      fun i hi _ => hv.near i hi, fun h hh j hj1 hj32 => ?_⟩, rfl, rfl, fun u => Iff.rfl⟩
    rw [hv.hops h hh j hj1 hj32]
    by_cases hhc : (h + j) % t.tableSize = c
    · simp only [hhc, hval, not_true_eq_false, ne_eq, false_and, iff_false, Option.some.injEq,
        not_exists, not_and]
      rintro u rfl hu
      rw [← hu, hb] at hhc
      exact step_ne hN hc hj1 hj32 hhc
    · simp [hhc]
  · obtain ⟨d, hd, hcd⟩ := hv.near c hc v hval
    have hd1 : 1 ≤ d := by
      by_contra h0
      obtain rfl : d = 0 := by omega
      rw [Nat.add_zero, Nat.mod_eq_of_lt hhome] at hcd
      exact hb hcd.symm
    have hdisp : (c + t.tableSize - home K t v) % t.tableSize = d := by
      conv_lhs => rw [hcd]
      exact displacement_eq hN hhome hd
    have hbit : (t.cells (home K t v)).secondMaps.getLsbD (d - 1) = true :=
      (hv.hops _ hhome d hd1 hd).mpr ⟨v, by rw [← hcd]; exact hval, rfl⟩
    have hset : (t.cells (home K t v)).secondMaps &&& hopBit d ≠ 0 := by
      intro h0
      have hget := congrArg (fun w => w.getLsbD (d - 1)) h0
      simp only [BitVec.getLsbD_and, hbit, getLsbD_hopBit hd1 hd, Nat.sub_add_cancel hd1, decide_true,
        Bool.and_self] at hget
      simp at hget
    simp only [ne_eq, hb, not_false_eq_true, if_true, hdisp, hset]
    have hself : (t.setCell (home K t v) { t.cells (home K t v) with
        secondMaps := (t.cells (home K t v)).secondMaps &&& ~~~hopBit d }).cells c = t.cells c :=
      setCell_other _ _ (Ne.symm hb)
    have hvalue : ∀ i, ((t.setCell (home K t v) { t.cells (home K t v) with
        secondMaps := (t.cells (home K t v)).secondMaps &&& ~~~hopBit d }).cells i).value =
            (t.cells i).value := by
      intro i
      by_cases hi : i = home K t v
      · subst hi
        simp
      · rw [setCell_other _ _ hi]
    refine ⟨⟨hc, hv.noResize, ?_, ?_, ?_, ?_⟩, rfl, rfl, ?_⟩
    · intro i j u w hi hj _ _ hiu hjw hkey
      rw [hvalue] at hiu hjw
      exact hv.distinct i j u w hi hj hiu hjw hkey
    · intro i hi _ hnone
      rw [hvalue] at hnone
      by_cases hih : i = home K t v
      · subst hih
        simp [hv.empty _ hi hnone]
      · rw [setCell_other _ _ hih]
        exact hv.empty i hi hnone
    · intro i hi _ u hiu
      rw [hvalue] at hiu
      exact hv.near i hi u hiu
    · intro h hh j hj1 hj32
      simp only [setCell_tableSize, hvalue, home_setCell]
      have hclear : ((t.setCell (home K t v) { t.cells (home K t v) with
          secondMaps := (t.cells (home K t v)).secondMaps &&& ~~~hopBit d }).cells
              h).secondMaps.getLsbD (j - 1) =
          ((t.cells h).secondMaps.getLsbD (j - 1) && !decide (h = home K t v ∧ j = d)) := by
        by_cases hhv : h = home K t v
        · subst hhv
          simp [getLsbD_clearHop _ hd1 hd, Nat.sub_add_cancel hj1]
        · rw [setCell_other _ _ hhv]
          simp [hhv]
      rw [hclear]
      by_cases hhc : (h + j) % t.tableSize = c
      · simp only [hhc, ne_eq, not_true_eq_false, false_and, iff_false, Bool.and_eq_true, Bool.not_eq_true',
          decide_eq_false_iff_not, not_and]
        intro hold hnot
        obtain ⟨u, hu, hhu⟩ := (hv.hops h hh j hj1 hj32).mp hold
        rw [hhc, hval] at hu
        obtain rfl : v = u := by simpa using hu
        apply hnot hhu.symm
        apply step_injective hN hj32 hd
        rw [hhc, ← hhu, ← hcd]
      · have hkeep : ¬ (h = home K t v ∧ j = d) := by
          rintro ⟨rfl, rfl⟩
          exact hhc hcd.symm
        simp only [hkeep, decide_false, Bool.not_false, Bool.and_true, ne_eq, hhc,
          not_false_eq_true, true_and]
        exact hv.hops h hh j hj1 hj32
    · intro u
      unfold HoldsOutside
      simp only [setCell_tableSize, hvalue]

/-- Outside the cell of a key, a valid table holds the values of the other keys. -/
theorem Valid.holdsOutside (hv : Valid K t) {c : ℕ} {v : α} (hc : c < t.tableSize)
    (hval : (t.cells c).value = some v) (u : α) : HoldsOutside t c u ↔ Holds t u ∧ K.keyOf u ≠ K.keyOf v := by
  constructor
  · rintro ⟨i, hi, hic, hiu⟩
    exact ⟨⟨i, hi, hiu⟩, fun hkey => hic (hv.distinct i c u v hi hc hiu hval hkey)⟩
  · rintro ⟨⟨i, hi, hiu⟩, hkey⟩
    refine ⟨i, hi, ?_, hiu⟩
    rintro rfl
    rw [hval] at hiu
    obtain rfl : v = u := by simpa using hiu
    exact hkey rfl

end Hole

/-! ## Removal is exact -/

section Remove

variable [DecidableEq κ] {K : Keying κ α} {t : Table α}

/-- Two valid tables that hold the same values of a key answer alike for it. -/
theorem tableGet_congr {t' : Table α} {key : κ} (hv : Valid K t) (hv' : Valid K t') (hN : 32 < t.tableSize)
    (hdvd : t.tableSize ∣ 2 ^ 32) (hsize : t'.tableSize = t.tableSize)
    (h : ∀ v, K.keyOf v = key → (Holds t' v ↔ Holds t v)) : tableGet K t' key = tableGet K t key := by
  apply Option.ext
  intro v
  rw [tableGet_eq_some_iff hv hN hdvd, tableGet_eq_some_iff hv' (by omega) (by rw [hsize]; exact hdvd)]
  constructor
  · exact fun ⟨hheld, hkey⟩ => ⟨(h v hkey).mp hheld, hkey⟩
  · exact fun ⟨hheld, hkey⟩ => ⟨(h v hkey).mpr hheld, hkey⟩

/-- In every valid table whose size is a power of two above 32, `_remove` ends, keeps the table
    valid, and takes out its key and nothing else. -/
theorem remove_exact (hv : Valid K t) (hN : 32 < t.tableSize) {e : ℕ} (he : e ≤ 31)
    (hpow : t.tableSize = 2 ^ e) (key : κ) : RemovesExactly K t key := by
  have hdvd : t.tableSize ∣ 2 ^ 32 := by
    rw [hpow]
    exact pow_dvd_pow 2 (by omega)
  refine ⟨32 * t.tableSize, fun fuel hfuel => ?_⟩
  unfold remove
  rw [tableGetCell_eq hv.noResize]
  cases hs : searchCells K t key with
  | none =>
    have habsent := searchCells_none hv hN hdvd hs
    refine ⟨t, rfl, hv, (tableGet_eq_none_iff hv hN hdvd).mpr habsent, fun _ _ => rfl, ?_, fun _ => rfl⟩
    rintro ⟨v, hheld, hkey⟩
    exact absurd hkey (habsent v hheld)
  | some cell =>
    obtain ⟨hcell, v, hval, hkey⟩ := searchCells_some (by omega) hs
    have hbase : tableLookup t (K.hashKey key) = home K t v := by
      rw [← hkey]
      rfl
    obtain ⟨hp, hsize, hused, hout⟩ := hv.clearBase hN hcell hval
    obtain ⟨t', ht', hv', hsize', hused', hheld⟩ :=
      emptyCell_spec hp (by rw [hsize]; exact hN) (by rw [hsize]; exact hdvd) fuel
      (by rw [hsize]; exact hfuel)
    have hmem : ∀ u, Holds t' u ↔ Holds t u ∧ K.keyOf u ≠ key := by
      intro u
      rw [hheld u, hout u, hv.holdsOutside hcell hval, hkey]
    simp only [Option.map_some, hbase, ht']
    have hv'' : Valid K { t' with tableUsed := t'.tableUsed - 1 } :=
      ⟨hv'.noResize, hv'.distinct, hv'.empty, hv'.near, hv'.hops⟩
    have hN' : 32 < t'.tableSize := by omega
    have hdvd' : t'.tableSize ∣ 2 ^ 32 := by
      rw [hsize', hsize]
      exact hdvd
    refine ⟨_, rfl, hv'', ?_, ?_, ?_, ?_⟩
    · apply (tableGet_eq_none_iff hv'' hN' hdvd').mpr
      intro u hu
      exact ((hmem u).mp hu).2
    · intro other hne
      refine tableGet_congr hv hv'' hN hdvd (by rw [← hsize, ← hsize']) fun u hu => ?_
      show Holds t' u ↔ _
      rw [hmem u, hu]
      exact and_iff_left hne
    · intro _
      show t'.tableUsed - 1 = _
      rw [hused', hused]
    · intro habsent
      exact absurd ⟨v, ⟨cell, hcell, hval⟩, hkey⟩ habsent

end Remove

/-- Every key has the same hash. -/
def sameHash (hash : BitVec 32) : Keying ℕ ℕ := ⟨fun _ => hash, id⟩

/-- Two keys of one home, the cell 3: the second one is displaced into the next cell. -/
def twoKeys (size : ℕ) : Table ℕ where
  tableSize := size
  tableUsed := 2
  enumeratorCount := 0
  old := none
  cells i := if i = 3 then ⟨1, some 0⟩ else if i = 4 then ⟨0, some 1⟩ else ⟨0, none⟩

theorem twoKeys_value {size i v : ℕ} : ((twoKeys size).cells i).value = some v ↔ i = 3 ∧ v = 0 ∨
    i = 4 ∧ v = 1 := by
  unfold twoKeys
  by_cases h3 : i = 3
  · subst h3
    simp [eq_comm]
  · by_cases h4 : i = 4
    · subst h4
      simp [eq_comm]
    · simp [h3, h4]

theorem twoKeys_bit {size h j : ℕ} : ((twoKeys size).cells h).secondMaps.getLsbD j = true ↔ h = 3 ∧
    j = 0 := by
  unfold twoKeys
  by_cases h3 : h = 3
  · subst h3
    simp [BitVec.getLsbD_one]
  · by_cases h4 : h = 4
    · simp [h4]
    · simp [h3, h4]

theorem twoKeys_valid {size : ℕ} {hash : BitVec 32} (hN : 32 < size) (hhash : hash.toNat % size = 3) :
    Valid (sameHash hash) (twoKeys size) := by
  have hhome : ∀ v, home (sameHash hash) (twoKeys size) v = 3 := fun _ => hhash
  refine ⟨rfl, ?_, ?_, ?_, ?_⟩
  · intro i j v w _ _ hi hj hkey
    obtain rfl : v = w := hkey
    rw [twoKeys_value] at hi hj
    omega
  · intro i _ hi
    by_cases h3 : i = 3
    · simp [twoKeys, h3] at hi
    · by_cases h4 : i = 4
      · simp [twoKeys, h4] at hi
      · simp [twoKeys, h3, h4]
  · intro i hi v hv
    show ∃ d ≤ 32, i = (home (sameHash hash) (twoKeys size) v + d) % size
    rw [hhome]
    obtain ⟨rfl, -⟩ | ⟨rfl, -⟩ := twoKeys_value.mp hv
    · exact ⟨0, by omega, (Nat.mod_eq_of_lt hi).symm⟩
    · exact ⟨1, by omega, (Nat.mod_eq_of_lt hi).symm⟩
  · intro h hh j hj1 hj32
    change h < size at hh
    show _ ↔ ∃ v, ((twoKeys size).cells ((h + j) % size)).value = some v ∧ _
    simp only [twoKeys_bit, twoKeys_value, hhome]
    constructor
    · rintro ⟨rfl, hj⟩
      exact ⟨1, Or.inr ⟨by rw [Nat.mod_eq_of_lt (by omega)]; omega, rfl⟩, rfl⟩
    · rintro ⟨v, ⟨h3, -⟩ | ⟨h4, -⟩, rfl⟩
      · exact absurd h3 (step_ne hN hh hj1 hj32)
      · have hone : (3 + 1) % size = 4 := Nat.mod_eq_of_lt (by omega)
        have := step_injective hN hj32 (by omega) (h4.trans hone.symm)
        omega

theorem remove_exact_twoKeys : RemovesExactly (sameHash 3) (twoKeys 64) 0 :=
  remove_exact (twoKeys_valid (by decide) (by decide)) (by decide) (e := 6) (by decide) rfl 0

/-- In a table of 33 cells, which does not divide 2^32, the hash 2^32 - 1 and the hop 1 add up
    to 0: the displaced key is looked for in the cell 0, and cannot be removed. -/
theorem remove_wraps : ¬ ∀ (K : Keying ℕ ℕ) (t : Table ℕ), 32 < t.tableSize → t.tableSize < 2 ^ 32 →
    Valid K t →
    ∀ key, RemovesExactly K t key := by
  intro h
  obtain ⟨bound, hb⟩ := h (sameHash 0xFFFFFFFF) (twoKeys 33) (by decide) (by decide)
    (twoKeys_valid (by decide) (by decide)) 1
  obtain ⟨t', ht', -, -, -, hused, -⟩ := hb bound (le_refl _)
  have hmiss : tableGetCell (sameHash 0xFFFFFFFF) (twoKeys 33) 1 = none := by decide
  unfold remove at ht'
  rw [hmiss] at ht'
  obtain rfl : twoKeys 33 = t' := by simpa using ht'
  exact absurd (hused ⟨1, ⟨4, by decide, rfl⟩, rfl⟩) (by decide)

end Libobjc2.Tables
