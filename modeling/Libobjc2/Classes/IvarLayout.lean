import Libobjc2.Common.Alignment
import Mathlib.Algebra.Ring.Int.Defs
import Mathlib.Algebra.Group.Nat.Defs
import Mathlib.Tactic.Linarith

/-!
# Late-bound layouts of instance variables (`src/runtime/ivar.c`)

A class that is compiled for late-bound ivars has an instance size that is not positive, and offsets
from the start of its own ivars. `objc_compute_ivar_offsets` lays its ivars out behind those of its
superclass. Ivars that have the offset of the one before them are bit-fields of its storage unit, or
are taken for them, and get its offset again.

The first class of a list is the class itself, and the rest are its superclasses. `long` and `size_t`
have 64 bits and `int` has 32; a sum that leaves its type wraps around.

Results:
* `layoutIvars_aligned`: an ivar is aligned if it asks for no more than the first of its run.
* `layoutIvars_eq`: while the offsets fit into an `int`, they are those of `naturalLayout`.
* `computeIvarOffsets_placed`: then the ivars lie behind the superclass and inside the object, and
  do not overlap, if no ivar is larger than the first of its run.
* `computeIvarOffsets_overlap`: a zero-sized ivar takes the next one along.
-/

namespace Libobjc2.Classes.Ivars

open Libobjc2.Alignment

/-! ## Model -/

/-- Conversion to `int`. -/
def toInt (x : ℤ) : ℤ := x.bmod (2 ^ 32)

/-- Conversion to `long`. -/
def toLong (x : ℤ) : ℤ := x.bmod (2 ^ 64)

/-- `LONG_MIN`. -/
def longMin : ℤ := -2 ^ 63

/-- `sizeof(uintptr_t)`, the word in front of an object. -/
def refcountSize : ℕ := 8

/-- `ivarGetAlign` (`src/internal/runtime/ivar.h`, lines 89–95). -/
def ivarGetAlign (flags : UInt32) : ℕ := 2 ^ ((flags &&& 0x1f8) >>> 3).toNat

/-- `struct objc_ivar`, with `*offset` in the place of `offset`. -/
structure Ivar where
  type : List Char
  offset : ℤ
  size : UInt32
  flags : UInt32
deriving DecidableEq, Repr

/-- The alignment that an ivar asks for. -/
def Ivar.align (ivar : Ivar) : ℕ := ivarGetAlign ivar.flags

/-- A `_Bool` whose size was encoded as 0 gets its size (lines 73–78). -/
def Ivar.fixBool (ivar : Ivar) : Ivar :=
  if ivar.size = 0 ∧ ivar.type.head? = some 'B' then { ivar with size := 1 } else ivar

/-- The variables of the loop, and the instance size. -/
structure Layout where
  nextIvar : ℤ
  lastOffset : ℤ
  lastComputedOffset : ℤ
  instanceSize : ℤ
deriving DecidableEq, Repr

/-- `align - ((*ivar->offset + refcount_size) % align)`, or nothing to add. -/
def padding (offset : ℤ) (align : ℕ) : ℕ :=
  let misaligned := ((offset + refcountSize) % 2 ^ 64).toNat % align
  if misaligned = 0 then 0 else align - misaligned

/-- One turn of the loop (lines 70–110). The alignment is never 0, and the assertion in line 108 holds by
    `toInt_padding_dvd`. -/
def layoutIvar (first : Bool) (st : Layout) (ivar : Ivar) : Layout × Ivar :=
  let ivar := ivar.fixBool
  if first = false ∧ ivar.offset = st.lastOffset then
    (st, { ivar with offset := toInt st.lastComputedOffset })
  else
    let start := toInt st.nextIvar
    let pad := padding start ivar.align
    let offset := toInt (start + pad)
    ({ nextIvar := toLong (st.nextIvar + ivar.size.toNat + pad)
       lastOffset := ivar.offset
       lastComputedOffset := offset
       instanceSize := toLong (st.instanceSize + pad + ivar.size.toNat) },
     { ivar with offset := offset })

/-- The loop. -/
def layoutIvars : Bool → Layout → List Ivar → Layout × List Ivar
  | _, st, [] => (st, [])
  | first, st, ivar :: ivars =>
    let (st, ivar) := layoutIvar first st ivar
    let (st, ivars) := layoutIvars false st ivars
    (st, ivar :: ivars)

/-- The instance size of a class and its ivars, or `NULL`. -/
structure Class where
  instanceSize : ℤ
  ivars : Option (List Ivar)
deriving DecidableEq, Repr

/-- The instance size that the layout of a class starts from. -/
def superSize (supers : List Class) : ℤ := supers.head?.elim 0 Class.instanceSize

/-- `objc_compute_ivar_offsets` (lines 15–115) of the first class. -/
def objcComputeIvarOffsets : List Class → List Class
  | [] => []
  | cls :: supers =>
    match cls.ivars with
    | none => { cls with instanceSize := supers.head?.elim cls.instanceSize Class.instanceSize } :: supers
    | some ivars =>
      if cls.instanceSize ≤ 0 then
        let supers := if superSize supers ≤ 0 then objcComputeIvarOffsets supers else supers
        let ivarStart := superSize supers
        let (st, ivars) := layoutIvars true ⟨ivarStart, longMin, -1, ivarStart⟩ ivars
        ⟨st.instanceSize, some ivars⟩ :: supers
      else cls :: supers

/-! ## Specification -/

/-- The bytes of an ivar. -/
def Ivar.Occupies (ivar : Ivar) (byte : ℤ) : Prop :=
  ivar.offset ≤ byte ∧ byte < ivar.offset + ivar.size.toNat

/-- Ivars as a compiler declares them: in the order of their offsets, where those with one offset are
    bit-fields of one storage unit, unless one of them is empty. -/
structure Declared (ivars : List Ivar) (sameUnit : ℕ → ℕ → Prop) : Prop where
  sorted : ivars.Pairwise (·.offset ≤ ·.offset)
  shared : ∀ i j : Fin ivars.length, i < j → ivars[i].offset = ivars[j].offset →
    sameUnit i j ∨ ivars[i].fixBool.size = 0 ∨ ivars[j].fixBool.size = 0

/-- Ivars between two offsets that share no byte, except within a storage unit. -/
structure Placed (ivars : List Ivar) (start stop : ℤ) (sameUnit : ℕ → ℕ → Prop) : Prop where
  within : ∀ ivar ∈ ivars, start ≤ ivar.offset ∧ ivar.offset + ivar.size.toNat ≤ stop
  apart : ∀ i j : Fin ivars.length, i < j → ¬sameUnit i j →
    ∀ byte, ¬(ivars[i].Occupies byte ∧ ivars[j].Occupies byte)

/-- The size that is laid out. -/
def Ivar.fixedSize (ivar : Ivar) : ℕ := ivar.fixBool.size.toNat

/-- What is recorded of the run that the list goes on with, if the ivar has its offset. -/
def continued {α : Type} (run : Option (ℤ × α)) (ivar : Ivar) : Option α :=
  run.bind fun r => if ivar.offset = r.1 then some r.2 else none

/-- In every run of equal compile-time offsets the first ivar has the largest measure. `run` is the
    offset of the run that the list goes on with, and the measure of its first ivar. -/
def FirstLargest (measure : Ivar → ℕ) : Option (ℤ × ℕ) → List Ivar → Prop
  | _, [] => True
  | run, ivar :: ivars =>
    match continued run ivar with
    | some limit => measure ivar ≤ limit ∧ FirstLargest measure run ivars
    | none => FirstLargest measure (some (ivar.offset, measure ivar)) ivars

instance FirstLargest.decidable (measure : Ivar → ℕ) (run : Option (ℤ × ℕ)) (ivars : List Ivar) :
    Decidable (FirstLargest measure run ivars) :=
  match ivars with
  | [] => isTrue trivial
  | ivar :: ivars =>
    match h : continued run ivar with
    | some limit =>
      have := FirstLargest.decidable measure run ivars
      decidable_of_iff (measure ivar ≤ limit ∧ FirstLargest measure run ivars) (by rw [FirstLargest, h])
    | none =>
      have := FirstLargest.decidable measure (some (ivar.offset, measure ivar)) ivars
      decidable_of_iff (FirstLargest measure (some (ivar.offset, measure ivar)) ivars)
      (by rw [FirstLargest, h])

/-- Where an ivar goes that must not start before `next`. -/
def naturalOffset (next align : ℕ) : ℕ := nextMultiple align (next + refcountSize) - refcountSize

/-- The layout in unbounded numbers: the offset of each ivar, and the end of the last one. `run` is the
    compile-time offset of the run that the list goes on with, and where the run was put. -/
def naturalLayout : Option (ℤ × ℕ) → ℕ → List Ivar → List ℕ × ℕ
  | _, next, [] => ([], next)
  | run, next, ivar :: ivars =>
    match continued run ivar with
    | some placed =>
      let (offsets, stop) := naturalLayout run next ivars
      (placed :: offsets, stop)
    | none =>
      let offset := naturalOffset next ivar.align
      let (offsets, stop) := naturalLayout (some (ivar.offset, offset)) (offset + ivar.fixedSize) ivars
      (offset :: offsets, stop)

/-! ## Numbers -/

theorem toInt_of_lt {x : ℤ} (h0 : 0 ≤ x) (h : x < 2 ^ 31) : toInt x = x := by
  unfold toInt
  apply Int.bmod_eq_of_le
  · omega
  · omega

theorem toInt_lt (x : ℤ) : toInt x < 2 ^ 31 := by
  have := Int.bmod_lt (x := x) (m := 2 ^ 32) (by norm_num)
  unfold toInt
  omega

theorem le_toInt (x : ℤ) : -2 ^ 31 ≤ toInt x := by
  have := Int.le_bmod (x := x) (m := 2 ^ 32) (by norm_num)
  unfold toInt
  omega

/-- A number that is not negative survives the conversion if it is an `int`. -/
theorem toInt_natCast_iff (n : ℕ) : toInt n = n ↔ n < 2 ^ 31 := by
  constructor
  · intro h
    have hlt := toInt_lt n
    rw [h] at hlt
    exact_mod_cast hlt
  · intro h
    exact toInt_of_lt (by omega) (by exact_mod_cast h)

theorem toLong_of_lt {x : ℤ} (h0 : 0 ≤ x) (h : x < 2 ^ 63) : toLong x = x := by
  unfold toLong
  apply Int.bmod_eq_of_le
  · omega
  · omega

theorem ivarGetAlign_eq (flags : UInt32) : ∃ k < 64, ivarGetAlign flags = 2 ^ k := by
  refine ⟨_, ?_, rfl⟩
  have hle : (flags &&& 0x1f8).toNat ≤ 504 := by
    rw [UInt32.toNat_and]
    exact Nat.and_le_right
  rw [UInt32.toNat_shiftRight, Nat.shiftRight_eq_div_pow]
  change (flags &&& 0x1f8).toNat / 2 ^ 3 < 64
  omega

theorem ivarGetAlign_pos (flags : UInt32) : 0 < ivarGetAlign flags := Nat.two_pow_pos _

/-- The padding reaches the next offset that is one word short of a multiple. -/
theorem padding_dvd (offset : ℤ) {k : ℕ} (hk : k < 64) :
    ((2 ^ k : ℕ) : ℤ) ∣ offset + padding offset (2 ^ k) + refcountSize := by
  have hpow : ((2 ^ k : ℕ) : ℤ) ∣ 2 ^ 64 := by exact_mod_cast pow_dvd_pow 2 hk.le
  have hpos : (0 : ℤ) < (2 ^ k : ℕ) := by exact_mod_cast Nat.two_pow_pos k
  have hmod : ((((offset + refcountSize) % 2 ^ 64).toNat % 2 ^ k : ℕ) : ℤ) =
      (offset + refcountSize) % (2 ^ k : ℕ) := by
    rw [Int.natCast_mod, Int.toNat_of_nonneg (Int.emod_nonneg _ (by norm_num)),
      Int.emod_emod_of_dvd _ hpow]
  have hlt := Nat.mod_lt ((offset + refcountSize) % 2 ^ 64).toNat (Nat.two_pow_pos k)
  have hdvd := Int.dvd_self_sub_emod (x := offset + refcountSize) (m := ((2 ^ k : ℕ) : ℤ))
  rw [← hmod] at hdvd
  unfold padding
  simp only
  split_ifs with h0
  · rw [h0] at hdvd
    simpa using hdvd
  · have h := Int.dvd_add hdvd (dvd_refl ((2 ^ k : ℕ) : ℤ))
    rw [Nat.cast_sub hlt.le]
    convert h using 1
    ring

/-- The assertion of the loop: no conversion to `int` takes the alignment away. -/
theorem toInt_padding_dvd (offset : ℤ) {k : ℕ} (hk : k < 64) :
    ((2 ^ k : ℕ) : ℤ) ∣ toInt (offset + padding offset (2 ^ k)) + refcountSize := by
  have hdvd := padding_dvd offset hk
  set x := offset + padding offset (2 ^ k) with hx
  have hcut : (2 ^ 32 : ℤ) ∣ toInt x - x := Int.dvd_bmod_sub_self
  by_cases hk32 : k ≤ 32
  · have hpow : ((2 ^ k : ℕ) : ℤ) ∣ 2 ^ 32 := by exact_mod_cast pow_dvd_pow 2 hk32
    have h := Int.dvd_add (hpow.trans hcut) hdvd
    convert h using 1
    ring
  · -- the only `int` that is one word short of a multiple is the one in front of 0
    have hpow : (2 ^ 32 : ℤ) ∣ (2 ^ k : ℕ) := by
      exact_mod_cast pow_dvd_pow 2 (show 32 ≤ k by omega)
    have h : (2 ^ 32 : ℤ) ∣ toInt x + refcountSize := by
      have h := Int.dvd_add hcut (hpow.trans hdvd)
      convert h using 1
      ring
    have hge := le_toInt x
    have hlt := toInt_lt x
    have hzero : toInt x + refcountSize = 0 := by
      unfold refcountSize at *
      omega
    rw [hzero]
    exact dvd_zero _

theorem toInt_toInt (x : ℤ) : toInt (toInt x) = toInt x := Int.bmod_bmod

theorem padding_eq {next align : ℕ} (ha : 0 < align) (hnext : next < 2 ^ 31) :
    next + padding next align = naturalOffset next align := by
  have hword : ((((next : ℤ) + refcountSize) % 2 ^ 64).toNat : ℕ) = next + refcountSize := by
    unfold refcountSize
    omega
  unfold padding naturalOffset
  simp only [hword]
  have hlt := Nat.mod_lt (next + refcountSize) ha
  split_ifs with h0
  · rw [nextMultiple_of_dvd ha (Nat.dvd_of_mod_eq_zero h0)]
    omega
  · have hdvd : align ∣ next + refcountSize + (align - (next + refcountSize) % align) := by
      have h := Nat.dvd_add (Nat.dvd_sub_mod (n := align) (next + refcountSize)) (dvd_refl align)
      have hle := Nat.mod_le (next + refcountSize) align
      convert h using 1
      omega
    rw [nextMultiple_eq hdvd (Nat.le_add_right _ _) (by omega)]
    omega

theorem le_naturalOffset {align : ℕ} (ha : 0 < align) (next : ℕ) : next ≤ naturalOffset next align := by
  have := le_nextMultiple ha (next + refcountSize)
  unfold naturalOffset
  omega

/-! ## The `_Bool` fix -/

@[simp] theorem Ivar.fixBool_offset (ivar : Ivar) : ivar.fixBool.offset = ivar.offset := by
  unfold Ivar.fixBool
  split <;> rfl

@[simp] theorem Ivar.fixBool_flags (ivar : Ivar) : ivar.fixBool.flags = ivar.flags := by
  unfold Ivar.fixBool
  split <;> rfl

@[simp] theorem Ivar.fixBool_align (ivar : Ivar) : ivar.fixBool.align = ivar.align := by
  rw [Ivar.align, Ivar.fixBool_flags, Ivar.align]

/-! ## One turn of the loop -/

/-- An ivar with the offset of the one before it gets its place. -/
theorem layoutIvar_same {st : Layout} {ivar : Ivar} (h : ivar.offset = st.lastOffset) :
    layoutIvar false st ivar = (st, { ivar.fixBool with offset := toInt st.lastComputedOffset }) := by
  rw [layoutIvar]
  simp [h]

/-- Any other ivar begins a storage unit. -/
theorem layoutIvar_new {first : Bool} {st : Layout} {ivar : Ivar}
    (h : first = true ∨ ivar.offset ≠ st.lastOffset) :
    layoutIvar first st ivar =
      (⟨toLong (st.nextIvar + ivar.fixedSize + padding (toInt st.nextIvar) ivar.align), ivar.offset,
        toInt (toInt st.nextIvar + padding (toInt st.nextIvar) ivar.align),
        toLong (st.instanceSize + padding (toInt st.nextIvar) ivar.align + ivar.fixedSize)⟩,
       { ivar.fixBool with offset := toInt (toInt st.nextIvar + padding (toInt st.nextIvar) ivar.align) }) := by
  have hnot : ¬(first = false ∧ ivar.offset = st.lastOffset) := by
    rintro ⟨rfl, heq⟩
    rcases h with h | h
    · simp at h
    · exact h heq
  rw [layoutIvar]
  simp only [Ivar.fixBool_align, Ivar.fixBool_offset, Ivar.fixedSize]
  rw [if_neg hnot]

/-- The loop is in a run that `run` records. -/
def InRun {α : Type} (first : Bool) (st : Layout) (run : Option (ℤ × α)) : Prop :=
  (first = true ∧ run = none) ∨ (first = false ∧ ∃ a, run = some (st.lastOffset, a))

theorem continued_of_inRun {α : Type} {first : Bool} {st : Layout} {run : Option (ℤ × α)} (ivar : Ivar)
    (h : InRun first st run) :
    (∃ a, run = some (st.lastOffset, a) ∧ first = false ∧ ivar.offset = st.lastOffset ∧
      continued run ivar = some a) ∨
    ((first = true ∨ ivar.offset ≠ st.lastOffset) ∧ continued run ivar = none) := by
  obtain ⟨rfl, rfl⟩ | ⟨rfl, a, rfl⟩ := h
  · exact .inr ⟨.inl rfl, rfl⟩
  · by_cases heq : ivar.offset = st.lastOffset
    · exact .inl ⟨a, rfl, rfl, heq, by simp [continued, heq]⟩
    · exact .inr ⟨.inr heq, by simp [continued, heq]⟩

/-! ## Alignment -/

theorem align_dvd_of_le {ivar ivar' : Ivar} (h : ivar.align ≤ ivar'.align) : ivar.align ∣ ivar'.align := by
  obtain ⟨k, -, hk⟩ := ivarGetAlign_eq ivar.flags
  obtain ⟨k', -, hk'⟩ := ivarGetAlign_eq ivar'.flags
  exact IsAlignment.dvd_of_le ⟨k, hk⟩ ⟨k', hk'⟩ h

/-- **Every ivar is aligned** in an object that stands one word behind an aligned block, if no ivar of a
    run asks for more than the first one. -/
theorem layoutIvars_aligned (ivars : List Ivar) (first : Bool) (st : Layout) (run : Option (ℤ × Ivar))
    (hrun : InRun first st run)
    (hplaced : ∀ r ∈ run, (r.2.align : ℤ) ∣ toInt st.lastComputedOffset + refcountSize)
    (h : FirstLargest Ivar.align (run.map fun r => (r.1, r.2.align)) ivars) :
    ∀ ivar ∈ (layoutIvars first st ivars).2, (ivar.align : ℤ) ∣ ivar.offset + refcountSize := by
  induction ivars generalizing first st run with
  | nil => simp [layoutIvars]
  | cons ivar ivars ih =>
    have hmap : InRun first st (run.map fun r => (r.1, r.2.align)) := by
      obtain ⟨hf, rfl⟩ | ⟨hf, a, rfl⟩ := hrun
      · exact .inl ⟨hf, rfl⟩
      · exact .inr ⟨hf, a.align, rfl⟩
    rw [FirstLargest] at h
    obtain ⟨a, hr, rfl, hoffset, hcont⟩ | ⟨hnew, hcont⟩ := continued_of_inRun ivar hmap
    · -- the run goes on
      obtain ⟨r, hr', hra⟩ := Option.map_eq_some_iff.mp hr
      rw [hcont] at h
      obtain ⟨hle, h⟩ := h
      have hdvd : ivar.align ∣ r.2.align := align_dvd_of_le (by
        rw [← (Prod.mk.inj hra).2] at hle
        exact hle)
      simp only [layoutIvars, layoutIvar_same hoffset, List.mem_cons, forall_eq_or_imp]
      refine ⟨?_, ih false st run hrun hplaced h⟩
      change (ivar.fixBool.align : ℤ) ∣ toInt st.lastComputedOffset + refcountSize
      rw [Ivar.fixBool_align]
      exact (Int.natCast_dvd_natCast.mpr hdvd).trans (hplaced r hr')
    · -- a storage unit begins
      rw [hcont] at h
      obtain ⟨k, hk, hpow⟩ := ivarGetAlign_eq ivar.flags
      have hdvd : (ivar.align : ℤ) ∣ toInt
          (toInt st.nextIvar + padding (toInt st.nextIvar) ivar.align) + refcountSize := by
        rw [Ivar.align, hpow]
        exact toInt_padding_dvd _ hk
      simp only [layoutIvars, layoutIvar_new hnew, List.mem_cons, forall_eq_or_imp]
      refine ⟨?_, ih false _ (some (ivar.offset, ivar)) (.inr ⟨rfl, ivar, rfl⟩) ?_ h⟩
      · change (ivar.fixBool.align : ℤ) ∣ _
        rw [Ivar.fixBool_align]
        exact hdvd
      · rintro r ⟨⟩
        rw [toInt_toInt]
        exact hdvd

/-! ## The layout in unbounded numbers -/

theorem Ivar.fixedSize_lt (ivar : Ivar) : ivar.fixedSize < 2 ^ 32 := ivar.fixBool.size.toNat_lt

/-- A storage unit whose natural offset fits into an `int` is put there. -/
theorem layoutIvar_natural {first : Bool} {st : Layout} {ivar : Ivar} {next : ℕ}
    (h : first = true ∨ ivar.offset ≠ st.lastOffset) (hnext : st.nextIvar = next)
    (hsize : st.instanceSize = next) (hp : naturalOffset next ivar.align < 2 ^ 31) :
    layoutIvar first st ivar =
      (⟨(naturalOffset next ivar.align + ivar.fixedSize : ℕ), ivar.offset,
        (naturalOffset next ivar.align : ℕ),
        (naturalOffset next ivar.align + ivar.fixedSize : ℕ)⟩,
       { ivar.fixBool with offset := (naturalOffset next ivar.align : ℕ) }) := by
  have hle : next ≤ naturalOffset next ivar.align := le_naturalOffset (ivarGetAlign_pos ivar.flags) next
  have hs := ivar.fixedSize_lt
  have hstart : toInt next = next := toInt_of_lt (by omega) (by omega)
  have hend : (next : ℤ) + padding next ivar.align = (naturalOffset next ivar.align : ℕ) := by
    rw [← Int.natCast_add]
    exact congrArg Nat.cast (padding_eq (ivarGetAlign_pos ivar.flags) (by omega))
  have hlong : toLong ((naturalOffset next ivar.align + ivar.fixedSize : ℕ) : ℤ) =
      (naturalOffset next ivar.align + ivar.fixedSize : ℕ) := toLong_of_lt (by omega) (by omega)
  have hint : toInt (naturalOffset next ivar.align : ℕ) = (naturalOffset next ivar.align : ℕ) :=
    toInt_of_lt (by omega) (by omega)
  rw [layoutIvar_new h, hnext, hsize, hstart, add_right_comm, hend, hint, ← Int.natCast_add, hlong]

/-- **No wrap-around.** While the natural offsets fit into an `int`, the loop computes them. -/
theorem layoutIvars_eq (ivars : List Ivar) (first : Bool) (st : Layout) (run : Option (ℤ × ℕ)) (next : ℕ)
    (hrun : InRun first st run) (hplaced : ∀ r ∈ run, toInt st.lastComputedOffset = r.2)
    (hnext : st.nextIvar = next) (hsize : st.instanceSize = next)
    (hfit : ∀ p ∈ (naturalLayout run next ivars).1, p < 2 ^ 31) :
    (layoutIvars first st ivars).1.instanceSize = (naturalLayout run next ivars).2 ∧
    (layoutIvars first st ivars).2 =
      List.zipWith (fun ivar p => { ivar.fixBool with offset := (p : ℕ) }) ivars
      (naturalLayout run next ivars).1 := by
  induction ivars generalizing first st run next with
  | nil => exact ⟨hsize, rfl⟩
  | cons ivar ivars ih =>
    obtain ⟨a, hr, rfl, hoffset, hcont⟩ | ⟨hnew, hcont⟩ := continued_of_inRun ivar hrun
    · -- the run goes on
      rw [naturalLayout, hcont] at hfit ⊢
      obtain ⟨hstop, hout⟩ := ih false st run next hrun hplaced hnext hsize
        fun p hp => hfit p (List.mem_cons_of_mem a hp)
      simp only [layoutIvars, layoutIvar_same hoffset]
      refine ⟨hstop, ?_⟩
      rw [List.zipWith_cons_cons, hout, hplaced (st.lastOffset, a) hr]
    · -- a storage unit begins
      rw [naturalLayout, hcont] at hfit ⊢
      have hp : naturalOffset next ivar.align < 2 ^ 31 := hfit _ List.mem_cons_self
      have hint : toInt (naturalOffset next ivar.align : ℕ) = (naturalOffset next ivar.align : ℕ) :=
        toInt_of_lt (by omega) (by omega)
      simp only [layoutIvars, layoutIvar_natural hnew hnext hsize hp]
      obtain ⟨hstop, hout⟩ := ih false
        ⟨(naturalOffset next ivar.align + ivar.fixedSize : ℕ), ivar.offset,
         (naturalOffset next ivar.align : ℕ),
          (naturalOffset next ivar.align + ivar.fixedSize : ℕ)⟩
        (some (ivar.offset, naturalOffset next ivar.align)) (naturalOffset next ivar.align + ivar.fixedSize)
        (.inr ⟨rfl, _, rfl⟩) (fun r hr => Option.some.inj hr ▸ hint) rfl rfl
        fun p hp => hfit p (List.mem_cons_of_mem _ hp)
      refine ⟨hstop, ?_⟩
      rw [List.zipWith_cons_cons, hout]

theorem length_naturalLayout (ivars : List Ivar) (run : Option (ℤ × ℕ)) (next : ℕ) :
    (naturalLayout run next ivars).1.length = ivars.length := by
  induction ivars generalizing run next with
  | nil => rfl
  | cons ivar ivars ih =>
    rw [naturalLayout]
    split <;> simp [ih]

/-- An ivar behind another one, of another run, starts behind its end. -/
def Follows (x y : Ivar × ℕ) : Prop := x.1.offset ≠ y.1.offset → x.2 + x.1.fixedSize ≤ y.2

/-- **The natural layout is a layout**: its runs stand behind each other, if no ivar of a run is larger than
    the first one. `run` also records the size of the first ivar of the run. -/
theorem naturalLayout_spec (ivars : List Ivar) (run : Option (ℤ × ℕ × ℕ)) (next : ℕ)
    (hnext : ∀ r ∈ run, r.2.1 + r.2.2 ≤ next)
    (h : FirstLargest Ivar.fixedSize (run.map fun r => (r.1, r.2.2)) ivars) :
    let (offsets, stop) := naturalLayout (run.map fun r => (r.1, r.2.1)) next ivars
    next ≤ stop ∧
    (∀ x ∈ ivars.zip offsets, x.2 + x.1.fixedSize ≤ stop ∧
      ((∃ r ∈ run, x.1.offset = r.1 ∧ x.2 = r.2.1 ∧ x.1.fixedSize ≤ r.2.2) ∨ next ≤ x.2)) ∧
    (ivars.zip offsets).Pairwise Follows := by
  induction ivars generalizing run next with
  | nil => simp [naturalLayout]
  | cons ivar ivars ih =>
    rw [FirstLargest] at h
    by_cases hcont : ∃ r ∈ run, ivar.offset = r.1
    · -- the run goes on
      obtain ⟨⟨d, placed, limit⟩, rfl, rfl⟩ := hcont
      have hc : ∀ n : ℕ, continued (some (ivar.offset, n)) ivar = some n := fun n => by simp [continued]
      simp only [Option.map_some, hc] at h
      obtain ⟨hlimit, h⟩ := h
      have hend := hnext _ rfl
      obtain ⟨hstop, hmem, hpair⟩ := ih (some (ivar.offset, placed, limit)) next hnext h
      simp only [naturalLayout, Option.map_some, hc, List.zip_cons_cons]
      refine ⟨hstop, ?_, ?_⟩
      · simp only [List.mem_cons, forall_eq_or_imp]
        refine ⟨⟨?_, .inl ⟨_, rfl, rfl, rfl, hlimit⟩⟩, hmem⟩
        simp only at hend
        have := hstop
        simp only [Option.map_some] at this ⊢
        omega
      · refine List.pairwise_cons.mpr ⟨fun y hy hne => ?_, hpair⟩
        obtain ⟨-, ⟨r, hr, hyd, -⟩ | hy⟩ := hmem y hy
        · obtain rfl := Option.some.inj hr
          exact absurd hyd.symm hne
        · simp only at hend
          change placed + ivar.fixedSize ≤ y.2
          omega
    · -- a storage unit begins
      have hc : ∀ f : ℤ × ℕ × ℕ → ℕ, continued (run.map fun r => (r.1, f r)) ivar = none := by
        intro f
        cases run with
        | none => rfl
        | some r =>
          have hne : ivar.offset ≠ r.1 := fun heq => hcont ⟨r, rfl, heq⟩
          simp [continued, hne]
      rw [hc fun r => r.2.2] at h
      rw [naturalLayout, hc fun r => r.2.1]
      have hle := le_naturalOffset (ivarGetAlign_pos ivar.flags) next
      obtain ⟨hstop, hmem, hpair⟩ := ih
        (some (ivar.offset, naturalOffset next ivar.align, ivar.fixedSize))
        (naturalOffset next ivar.align + ivar.fixedSize) (by
          rintro r ⟨⟩
          exact le_rfl) h
      simp only [List.zip_cons_cons]
      simp only [Option.map_some] at hstop hmem hpair
      unfold Ivar.align at hstop hmem hpair ⊢
      refine ⟨by omega, ?_, ?_⟩
      · simp only [List.mem_cons, forall_eq_or_imp]
        refine ⟨⟨hstop, .inr hle⟩, fun x hx => ?_⟩
        obtain ⟨hxstop, ⟨r, hr, -, hplaced, -⟩ | hx⟩ := hmem x hx
        · obtain rfl := Option.some.inj hr
          exact ⟨hxstop, .inr (hplaced ▸ hle)⟩
        · exact ⟨hxstop, .inr (by omega)⟩
      · refine List.pairwise_cons.mpr ⟨fun y hy hne => ?_, hpair⟩
        obtain ⟨-, ⟨r, hr, hyd, -⟩ | hy⟩ := hmem y hy
        · obtain rfl := Option.some.inj hr
          exact absurd hyd.symm hne
        · exact hy

/-! ## Classes -/

theorem objcComputeIvarOffsets_late {cls : Class} {ivars : List Ivar} (supers : List Class)
    (hivars : cls.ivars = some ivars) (hlate : cls.instanceSize ≤ 0) :
    ∃ supers', objcComputeIvarOffsets (cls :: supers) =
      ⟨(layoutIvars true ⟨superSize supers', longMin, -1, superSize supers'⟩ ivars).1.instanceSize,
        some (layoutIvars true ⟨superSize supers', longMin, -1, superSize supers'⟩ ivars).2⟩ :: supers' := by
  rw [objcComputeIvarOffsets]
  simp only [hivars, if_pos hlate]
  exact ⟨_, rfl⟩

/-- Every ivar of a late-bound class is aligned as seen from the word in front of the object. -/
theorem objcComputeIvarOffsets_aligned {cls : Class} {ivars : List Ivar} {supers : List Class}
    (hivars : cls.ivars = some ivars) (hlate : cls.instanceSize ≤ 0)
    (hfirst : FirstLargest Ivar.align none ivars)
    {cls' : Class} {supers' : List Class} (h : objcComputeIvarOffsets (cls :: supers) = cls' :: supers') :
    ∀ ivar ∈ cls'.ivars.getD [], (ivar.align : ℤ) ∣ ivar.offset + refcountSize := by
  obtain ⟨_, heq⟩ := objcComputeIvarOffsets_late supers hivars hlate
  rw [heq] at h
  obtain ⟨rfl, -⟩ := List.cons.inj h
  exact layoutIvars_aligned ivars true _ none (.inl ⟨rfl, rfl⟩) (by simp) hfirst

/-- The natural layout places the ivars. -/
theorem placed_of_natural {ivars : List Ivar} {start : ℕ} {sameUnit : ℕ → ℕ → Prop}
    (hdecl : Declared ivars sameUnit) (hfirst : FirstLargest Ivar.fixedSize none ivars) :
    Placed (List.zipWith (fun ivar p => { ivar.fixBool with offset := (p : ℕ) }) ivars
      (naturalLayout none start ivars).1) start (naturalLayout none start ivars).2 sameUnit := by
  obtain ⟨-, hmem, hpair⟩ := naturalLayout_spec ivars none start (by simp) hfirst
  simp only [Option.map_none] at hmem hpair
  have hlen := length_naturalLayout ivars none start
  constructor
  · intro ivar hivar
    rw [← List.map_uncurry_zip_eq_zipWith] at hivar
    obtain ⟨x, hx, rfl⟩ := List.mem_map.mp hivar
    obtain ⟨hstop, ⟨r, hr, -⟩ | hstart⟩ := hmem x hx
    · simp at hr
    · change (start : ℤ) ≤ x.2 ∧ (x.2 : ℤ) + x.1.fixedSize ≤ (naturalLayout none start ivars).2
      omega
  · rintro ⟨i, hi⟩ ⟨j, hj⟩ hij hunit byte hboth
    simp only [List.length_zipWith, hlen, min_self] at hi hj
    simp only [Fin.mk_lt_mk] at hij
    have hfollows := List.pairwise_iff_getElem.mp hpair i j (by simpa [hlen]) (by simpa [hlen]) hij
    simp only [List.getElem_zip, Follows, Fin.getElem_fin, List.getElem_zipWith,
      Ivar.Occupies] at hfollows hboth
    obtain ⟨⟨hxl, hxr⟩, ⟨hyl, hyr⟩⟩ := hboth
    by_cases heq : ivars[i].offset = ivars[j].offset
    · -- one of the two is empty
      have hshared : sameUnit i j ∨ ivars[i].fixBool.size = 0 ∨ ivars[j].fixBool.size = 0 :=
        hdecl.shared ⟨i, hi⟩ ⟨j, hj⟩ hij heq
      obtain h | h | h := hshared
      · exact hunit h
      · rw [h] at hxr
        simp only [UInt32.toNat_zero] at hxr
        omega
      · rw [h] at hyr
        simp only [UInt32.toNat_zero] at hyr
        omega
    · have hle := hfollows heq
      unfold Ivar.fixedSize at hle
      omega

/-- **The late-bound layout places the ivars.** Behind a superclass of any size, the ivars of a class lie in
    its object and share no byte but in a storage unit, if no ivar is larger than the first one of its run
    and no offset of the layout leaves the range of an `int`. -/
theorem computeIvarOffsets_placed {cls : Class} {ivars : List Ivar} (supers : List Class)
    {sameUnit : ℕ → ℕ → Prop} (hivars : cls.ivars = some ivars) (hlate : cls.instanceSize ≤ 0)
    (hdecl : Declared ivars sameUnit) (hfirst : FirstLargest Ivar.fixedSize none ivars) :
    ∃ cls' supers' out, objcComputeIvarOffsets (cls :: supers) = cls' :: supers' ∧ cls'.ivars = some out ∧
      out.length = ivars.length ∧
      ∀ start : ℕ, superSize supers' = start → (∀ p ∈ (naturalLayout none start ivars).1, p < 2 ^ 31) →
        Placed out start cls'.instanceSize sameUnit := by
  obtain ⟨supers', h⟩ := objcComputeIvarOffsets_late supers hivars hlate
  have hlen : ∀ (l : List Ivar) (first : Bool) (st : Layout), (layoutIvars first st l).2.length =
      l.length := by
    intro l
    induction l with
    | nil => exact fun _ _ => rfl
    | cons ivar l ih => exact fun first st => congrArg (· + 1) (ih false _)
  refine ⟨_, _, _, h, rfl, hlen _ _ _, fun start hstart hfit => ?_⟩
  obtain ⟨hstop, hout⟩ := layoutIvars_eq ivars true ⟨start, longMin, -1, start⟩ none start (.inl ⟨rfl, rfl⟩)
    (by simp) rfl rfl hfit
  simp only [hstart]
  rw [hstop, hout]
  exact placed_of_natural hdecl hfirst

/-- An object with a class pointer, two bit-fields of an `int` and a pointer. -/
theorem computeIvarOffsets_placed_bitfields :
    ∃ cls' supers' out, objcComputeIvarOffsets
        [⟨-16, some [⟨['b', '0', 'i', '3'], 0, 4, 16⟩, ⟨['b', '3', 'i', '5'], 0, 4, 16⟩, ⟨['@'], 8, 8, 24⟩]⟩,
          ⟨0, some [⟨['#'], 0, 8, 24⟩]⟩] = cls' :: supers' ∧
      cls'.ivars = some out ∧ out.length = 3 ∧ superSize supers' = 8 ∧
      Placed out 8 cls'.instanceSize fun i j => i = 0 ∧ j = 1 := by
  obtain ⟨cls', supers', out, h, hout, hlen, hplaced⟩ := @computeIvarOffsets_placed
    ⟨-16, some [⟨['b', '0', 'i', '3'], 0, 4, 16⟩, ⟨['b', '3', 'i', '5'], 0, 4, 16⟩, ⟨['@'], 8, 8, 24⟩]⟩ _
    [⟨0, some [⟨['#'], 0, 8, 24⟩]⟩] (fun i j => i = 0 ∧ j = 1) rfl
    (by decide) ⟨by decide, by decide⟩ (by decide)
  have hsuper : superSize supers' = 8 := by
    have h' := congrArg (fun l => superSize l.tail) h
    exact h'.symm.trans (by decide)
  exact ⟨cls', supers', out, h, hout, hlen, hsuper, hplaced 8 hsuper (by decide)⟩

/-- A zero-sized ivar takes the next one along: with both at offset 0, the second lies behind the object. -/
theorem computeIvarOffsets_overlap :
    ¬∀ (cls : Class) (ivars : List Ivar) (supers : List Class) (sameUnit : ℕ → ℕ → Prop),
      cls.ivars = some ivars → ivars ≠ [] → cls.instanceSize ≤ 0 → Declared ivars sameUnit →
      ∃ cls' supers' out, objcComputeIvarOffsets (cls :: supers) = cls' :: supers' ∧ cls'.ivars = some out ∧
        (0 ≤ superSize supers' → Placed out (superSize supers') cls'.instanceSize sameUnit) := by
  intro h
  obtain ⟨cls', supers', out, heq, hout, hplaced⟩ := h
    ⟨-4, some [⟨['[', '0', 'i', ']'], 0, 0, 16⟩, ⟨['i'], 0, 4, 16⟩]⟩ _ [⟨8, none⟩]
    (fun _ _ => False) rfl (by simp)
    (by decide) ⟨by decide, by decide⟩
  have hcode : objcComputeIvarOffsets
      [⟨-4, some [⟨['[', '0', 'i', ']'], 0, 0, 16⟩, ⟨['i'], 0, 4, 16⟩]⟩, ⟨8, none⟩] =
      [⟨8, some [⟨['[', '0', 'i', ']'], 8, 0, 16⟩, ⟨['i'], 8, 4, 16⟩]⟩, ⟨8, none⟩] := by decide +kernel
  rw [hcode] at heq
  obtain ⟨rfl, rfl⟩ := List.cons.inj heq
  obtain rfl := Option.some.inj hout
  have := ((hplaced (by decide)).within ⟨['i'], 8, 4, 16⟩ (by simp)).2
  revert this
  decide

end Libobjc2.Classes.Ivars
