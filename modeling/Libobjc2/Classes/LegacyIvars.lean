import Libobjc2.Classes.IvarAddition
import Libobjc2.Encoding.Layout
import Mathlib.Order.Bounds.Basic

/-!
# Instance memory of legacy classes

Model of `upgradeIvarList` in `runtime/legacy.c` (lines 83–175), with `objc_bitfield_test`
(`bitfield.h`) and the accessors of `ivar.h`. The legacy list records an offset for each ivar and no
size; the upgraded one takes the sizes from the distances between the offsets and from the instance
size, which a compiler for the non-fragile ABI writes as a negative number.

`abort()` is `none`. The answer of the allocator is a parameter. An offset is kept where it was: the
upgraded list points at the field of the legacy list, or at the offset variable of the class.

Results:
* `storedSize_reaches`: the size of an ivar is the distance to the next larger offset or to the end of
  the class, unless the size is negative and the list ends in ivars that share their offset.
* `upgradeIvarList_upgraded_iff`: exactly then, if the distance to the end fits into 32 bits, the list
  is upgraded without loss; otherwise the function aborts.
-/

namespace Libobjc2.Classes.Legacy

open Encoding
open Ivars (ivarSetAlign)

/-! ## Model -/

/-- `struct objc_ivar_gcc`. -/
structure IvarGcc where
  name : Option (List Char)
  type : Option (List Char)
  offset : ℤ
deriving DecidableEq, Repr

/-- A `uintptr_t` bit-field: zero, the word itself if its lowest bit is set, or a pointer to words. -/
inductive Bitfield
  | zero
  | inline (bits : UInt64)
  | overflow (values : List UInt32)
deriving DecidableEq, Repr

/-- `objc_bitfield_test` (`bitfield.h`, lines 18–34). -/
def objcBitfieldTest (bitfield : Bitfield) (field : ℕ) : Bool :=
  match bitfield with
  | .zero => false
  | .inline bits => field < 63 && bits.toNat.testBit (field + 1)
  | .overflow values => values[field / 32]?.any fun word => word.toNat.testBit (field % 32)

/-- The fields of `struct objc_class_gsv1` that the functions read. An entry of `ivarOffsets` is the
    number of an offset variable. -/
structure ClassGsv1 where
  info : UInt64
  instanceSize : ℤ
  ivars : Option (List IvarGcc)
  abiVersion : ℤ
  ivarOffsets : Option (List ℕ)
  strongPointers : Bitfield
  weakPointers : Bitfield
deriving DecidableEq, Repr

/-- `objc_class_flag_new_abi_gsv1`. -/
def ClassGsv1.usesNewABI (cls : ClassGsv1) : Bool := cls.info &&& 16 = 16

/-- `objc_get_class_version_gsv1` (lines 80–87). -/
def ClassGsv1.version (cls : ClassGsv1) : ℤ := if cls.usesNewABI then cls.abiVersion + 1 else 0

/-- `objc_ivar_ownership` (`ivar.h`). -/
inductive Ownership
  | unsafePointer
  | strong
  | weak
deriving DecidableEq, Repr

/-- The two bits of an ownership. -/
def Ownership.bits : Ownership → UInt32
  | .unsafePointer => 3
  | .strong => 1
  | .weak => 2

/-- `ownershipForIvar` (lines 89–104). -/
def ownershipForIvar (cls : ClassGsv1) (idx : ℕ) : Ownership :=
  if cls.version < 2 then .unsafePointer
  else if objcBitfieldTest cls.strongPointers idx then .strong
  else if objcBitfieldTest cls.weakPointers idx then .weak
  else .unsafePointer

/-- `ivarSetOwnership`. -/
def ivarSetOwnership (flags : UInt32) (o : Ownership) : UInt32 := (flags &&& ~~~(3 : UInt32)) ||| o.bits

/-- Where an upgraded ivar finds its offset. -/
inductive OffsetPointer
  | field (index : ℕ)
  | ivarOffset (number : ℕ)
deriving DecidableEq, Repr

/-- `struct objc_ivar`. -/
structure Ivar where
  name : Option (List Char)
  type : Option (List Char)
  offset : OffsetPointer
  size : UInt32
  flags : UInt32
deriving DecidableEq, Repr

/-- `UINT32_MAX`. -/
def uint32Max : ℤ := 2 ^ 32 - 1

/-- Lines 130–143: the size of an ivar that has the offset of the one behind it. -/
def bitfieldSize (instanceSize currentOffset : ℤ) (later : List IvarGcc) : ℤ :=
  let bitfieldSize := ((later.find? fun ivar => currentOffset ≠ ivar.offset).map
    fun ivar => ivar.offset - currentOffset).getD 0
  if bitfieldSize = 0 then instanceSize - currentOffset else bitfieldSize

/-- Lines 121–152: the size of an ivar in front of the rest of the list. -/
def storedSize (instanceSize : ℤ) (ivar : IvarGcc) : List IvarGcc → ℤ
  | [] => instanceSize.natAbs - ivar.offset
  | next :: later =>
    if ivar.offset = next.offset then bitfieldSize instanceSize ivar.offset later
    else next.offset.natAbs - ivar.offset

section

variable (abi : Abi) (cls : ClassGsv1)

/-- Lines 166–171: the alignment of an ivar with this type and size. -/
def upgradedAlign (type : Option (List Char)) (size : ℤ) : Option ℕ :=
  match type with
  | none => some (abi.alignof .voidPointer)
  | some [] => some size.toNat
  | some type => objcAlignofType abi type

/-- Lines 158–165: the pointer to the offset. -/
def upgradedOffset (i : ℕ) : Option OffsetPointer :=
  if cls.usesNewABI then (cls.ivarOffsets.bind fun offsets => offsets[i]?).map .ivarOffset
  else some (.field i)

/-- The body of the loop (lines 119–172) for the ivar at index `i`, in front of the rest of the list. -/
def upgradeIvar (i : ℕ) (ivar : IvarGcc) (rest : List IvarGcc) : Option Ivar :=
  let size := storedSize cls.instanceSize ivar rest
  if size < 0 ∨ uint32Max < size then none
  else do
    let offset ← upgradedOffset cls i
    let align ← upgradedAlign abi ivar.type size
    some ⟨ivar.name, ivar.type, offset, UInt32.ofNat size.toNat,
      ivarSetOwnership (ivarSetAlign 0 align) (ownershipForIvar cls i)⟩

/-- The loop from index `i` on. -/
def upgradeIvars : ℕ → List IvarGcc → Option (List Ivar)
  | _, [] => some []
  | i, ivar :: rest => do
    let upgraded ← upgradeIvar abi cls i ivar rest
    let others ← upgradeIvars (i + 1) rest
    some (upgraded :: others)

/-- `upgradeIvarList` (lines 106–175). `calloc` says whether a list of that many ivars is allocated. -/
def upgradeIvarList (calloc : ℕ → Bool) : Option (Option (List Ivar)) :=
  match cls.ivars with
  | none => some none
  | some l =>
    if ¬calloc l.length then none
    else if cls.usesNewABI ∧ l ≠ [] ∧ cls.ivarOffsets = none then none
    else (upgradeIvars abi cls 0 l).map some

end

/-- Two bit-fields of one storage unit in a class of the non-fragile ABI. -/
def packedIvars : List IvarGcc :=
  [⟨some ['a'], some ['b', '0', 'I', '3'], 0⟩, ⟨some ['b'], some ['b', '3', 'I', '5'], 0⟩]

/-- The class of `packedIvars`, with the sign of its instance size. -/
def packedClass (instanceSize : ℤ) : ClassGsv1 := ⟨16, instanceSize, some packedIvars, 2, some [0, 1], .zero, .zero⟩

example : upgradeIvarList lp64 (packedClass 4) (fun _ => true) =
    some (some [⟨some ['a'], some ['b', '0', 'I', '3'], .ivarOffset 0, 4, 19⟩,
      ⟨some ['b'], some ['b', '3', 'I', '5'], .ivarOffset 1, 4, 19⟩]) := by decide +kernel

/-! ## Specification -/

/-- A legacy class as a compiler emits it: offsets in increasing order up to the end of the class, types
    that can be read, and in the new ABI a variable with the offset of every ivar. -/
structure WellFormed (abi : Abi) (memory : ℕ → ℤ) (cls : ClassGsv1) (l : List IvarGcc) : Prop where
  sorted : l.Pairwise (·.offset ≤ ·.offset)
  nonneg : ∀ ivar ∈ l, 0 ≤ ivar.offset
  int : ∀ ivar ∈ l, ivar.offset < 2 ^ 31
  within : ∀ ivar ∈ l, ivar.offset ≤ cls.instanceSize.natAbs
  types : ∀ ivar ∈ l, ∀ type ∈ ivar.type, type ≠ [] → (objcAlignofType abi type).isSome
  offsets : cls.usesNewABI → ∃ numbers, cls.ivarOffsets = some numbers ∧
    numbers.map memory = l.map IvarGcc.offset

/-- Where the storage at an offset ends: at the next larger offset of the list, or at the end of the
    class, which is the absolute value of the instance size. -/
def Reaches (l : List IvarGcc) (instanceSize offset stop : ℤ) : Prop :=
  IsLeast {y | offset < y ∧ ∃ ivar ∈ l, ivar.offset = y} stop ∨
    (∀ ivar ∈ l, ivar.offset ≤ offset) ∧ stop = instanceSize.natAbs

/-- The list ends in ivars that share their offset. -/
def EndsInRun (l : List IvarGcc) : Prop := ∃ front a b, l = front ++ [a, b] ∧ a.offset = b.offset

/-- The offset that an upgraded ivar points at. -/
def OffsetPointer.load (memory : ℕ → ℤ) (l : List IvarGcc) : OffsetPointer → Option ℤ
  | .field i => l[i]?.map IvarGcc.offset
  | .ivarOffset number => some (memory number)

/-- What an upgrade without loss produces. -/
structure Upgraded (memory : ℕ → ℤ) (cls : ClassGsv1) (l : List IvarGcc) (out : List Ivar) : Prop where
  names : out.map Ivar.name = l.map IvarGcc.name
  types : out.map Ivar.type = l.map IvarGcc.type
  offsets : out.map (fun ivar => ivar.offset.load memory l) = l.map fun ivar => some ivar.offset
  sizes : ∀ (i : ℕ) (hl : i < l.length) (ho : i < out.length),
    Reaches l cls.instanceSize l[i].offset (l[i].offset + out[i].size.toNat)
  /-- The bit-fields of a storage unit have one size. -/
  units : ∀ (i j : ℕ) (hi : i < l.length) (hj : j < l.length) (hio : i < out.length) (hjo : j < out.length),
    l[i].offset = l[j].offset → out[i].size = out[j].size
  /-- The ivars leave no gap between the first of them and the end of the class. -/
  cover : ∀ byte : ℤ, (∃ ivar ∈ l, ivar.offset ≤ byte) → byte < cls.instanceSize.natAbs →
    ∃ (i : ℕ) (_ : i < l.length) (_ : i < out.length),
      l[i].offset ≤ byte ∧ byte < l[i].offset + out[i].size.toNat

/-! ## The sizes -/

theorem Reaches.unique {l : List IvarGcc} {instanceSize offset a b : ℤ} (ha : Reaches l instanceSize offset a)
    (hb : Reaches l instanceSize offset b) : a = b := by
  rcases ha with ha | ⟨ha, rfl⟩ <;> rcases hb with hb | ⟨hb, rfl⟩
  · exact ha.unique hb
  · obtain ⟨hlt, ivar, hmem, rfl⟩ := ha.1
    exact absurd hlt (hb ivar hmem).not_gt
  · obtain ⟨hlt, ivar, hmem, rfl⟩ := hb.1
    exact absurd hlt (ha ivar hmem).not_gt
  · rfl

/-- Every ivar behind the one at `k` shares its offset, and there is one. -/
def RunFrom (ivar : IvarGcc) (rest : List IvarGcc) : Prop :=
  rest ≠ [] ∧ ∀ next ∈ rest, next.offset = ivar.offset

/-- What the list behind an ivar reaches, the whole list reaches. -/
theorem reaches_of_rest {l front rest : List IvarGcc} {ivar : IvarGcc} {instanceSize stop : ℤ}
    (hl : l = front ++ ivar :: rest) (hsorted : l.Pairwise (·.offset ≤ ·.offset))
    (h : Reaches rest instanceSize ivar.offset stop) : Reaches l instanceSize ivar.offset stop := by
  subst hl
  have hfront : ∀ a ∈ front, a.offset ≤ ivar.offset := fun a ha =>
    (List.pairwise_append.mp hsorted).2.2 a ha ivar List.mem_cons_self
  rcases h with ⟨⟨hlt, next, hmem, hnext⟩, hleast⟩ | ⟨hall, hstop⟩
  · refine Or.inl ⟨⟨hlt, next, List.mem_append_right _ (List.mem_cons_of_mem _ hmem), hnext⟩, ?_⟩
    rintro y ⟨hy, a, ha, rfl⟩
    rcases List.mem_append.mp ha with ha | ha
    · exact absurd hy (hfront a ha).not_gt
    · rcases List.mem_cons.mp ha with rfl | ha
      · exact absurd hy (lt_irrefl _)
      · exact hleast ⟨hy, a, ha, rfl⟩
  · refine Or.inr ⟨fun a ha => ?_, hstop⟩
    rcases List.mem_append.mp ha with ha | ha
    · exact hfront a ha
    · rcases List.mem_cons.mp ha with rfl | ha
      · exact le_refl _
      · exact hall a ha

/-- In a sorted list the first larger offset is the next larger one. -/
theorem isLeast_of_find? {rest : List IvarGcc} {offset : ℤ} {next : IvarGcc}
    (hsorted : rest.Pairwise (·.offset ≤ ·.offset)) (hge : ∀ ivar ∈ rest, offset ≤ ivar.offset)
    (h : rest.find? (fun ivar => offset ≠ ivar.offset) = some next) :
    IsLeast {y | offset < y ∧ ∃ ivar ∈ rest, ivar.offset = y} next.offset := by
  obtain ⟨hne, front, later, rfl, hfront⟩ := List.find?_eq_some_iff_append.mp h
  have hmem : next ∈ front ++ next :: later := by simp
  refine ⟨⟨lt_of_le_of_ne (hge next hmem) (by simpa using hne), next, hmem, rfl⟩, ?_⟩
  rintro y ⟨hy, a, ha, rfl⟩
  rcases List.mem_append.mp ha with ha | ha
  · have heq := hfront a ha
    simp only [ne_eq, decide_not, Bool.not_not, decide_eq_true_eq] at heq
    omega
  · rcases List.mem_cons.mp ha with rfl | ha
    · exact le_refl _
    · exact (List.pairwise_cons.mp (List.pairwise_append.mp hsorted).2.1).1 a ha

/-- The size of a bit-field, unless all that follow share its offset. -/
theorem bitfieldSize_of_find? {instanceSize offset : ℤ} {later : List IvarGcc} {next : IvarGcc}
    (h : later.find? (fun ivar => offset ≠ ivar.offset) = some next) :
    bitfieldSize instanceSize offset later = next.offset - offset := by
  have hne : offset ≠ next.offset := by simpa using List.find?_some h
  unfold bitfieldSize
  rw [h]
  simp only [Option.map_some, Option.getD_some]
  exact if_neg (by omega)

theorem bitfieldSize_of_run {instanceSize offset : ℤ} {later : List IvarGcc}
    (h : ∀ next ∈ later, next.offset = offset) :
    bitfieldSize instanceSize offset later = instanceSize - offset := by
  have hnone : later.find? (fun ivar => offset ≠ ivar.offset) = none := by
    rw [List.find?_eq_none]
    intro next hnext
    simp [h next hnext]
  unfold bitfieldSize
  rw [hnone]
  simp

/-- The size in a run at the end of the list keeps the sign of the instance size. -/
theorem storedSize_of_run {instanceSize : ℤ} {ivar : IvarGcc} {rest : List IvarGcc} (h : RunFrom ivar rest) :
    storedSize instanceSize ivar rest = instanceSize - ivar.offset := by
  obtain ⟨hne, hall⟩ := h
  cases rest with
  | nil => exact absurd rfl hne
  | cons next later =>
    rw [storedSize, if_pos (hall next List.mem_cons_self).symm]
    exact bitfieldSize_of_run fun a ha => hall a (List.mem_cons_of_mem _ ha)

/-- **Sizes.** The stored size is the distance to where the storage ends. -/
theorem storedSize_reaches {instanceSize : ℤ} {ivar : IvarGcc} {rest : List IvarGcc}
    (hsorted : (ivar :: rest).Pairwise (·.offset ≤ ·.offset)) (hnonneg : 0 ≤ ivar.offset)
    (hrun : instanceSize < 0 → ¬RunFrom ivar rest) :
    Reaches rest instanceSize ivar.offset (ivar.offset + storedSize instanceSize ivar rest) := by
  obtain ⟨hge, hrest⟩ := List.pairwise_cons.mp hsorted
  by_cases hr : RunFrom ivar rest
  · have hpos : 0 ≤ instanceSize := not_lt.mp fun h => hrun h hr
    rw [storedSize_of_run hr]
    exact Or.inr ⟨fun next hnext => (hr.2 next hnext).le, by omega⟩
  cases rest with
  | nil =>
    rw [storedSize]
    exact Or.inr ⟨by simp, by omega⟩
  | cons next later =>
    rw [storedSize]
    split_ifs with heq
    · cases hfind : later.find? (fun a => ivar.offset ≠ a.offset) with
      | none =>
        refine absurd ⟨List.cons_ne_nil _ _, fun a ha => ?_⟩ hr
        rcases List.mem_cons.mp ha with rfl | ha
        · exact heq.symm
        · have hsame : ivar.offset = a.offset := by simpa using List.find?_eq_none.mp hfind a ha
          exact hsame.symm
      | some larger =>
        rw [bitfieldSize_of_find? hfind]
        refine Or.inl ?_
        have h : (next :: later).find? (fun a => ivar.offset ≠ a.offset) = some larger := by
          rw [List.find?_cons_of_neg (by simpa using heq), hfind]
        simpa using isLeast_of_find? hrest hge h
    · refine Or.inl ?_
      have h : (next :: later).find? (fun a => ivar.offset ≠ a.offset) = some next :=
        List.find?_cons_of_pos (by simpa using heq)
      have hle := hge next List.mem_cons_self
      have hstop : ivar.offset + ((next.offset.natAbs : ℤ) - ivar.offset) = next.offset := by omega
      rw [hstop]
      exact isLeast_of_find? hrest hge h

/-- A run at the end of the list and a negative instance size make the size negative. -/
theorem storedSize_neg {instanceSize : ℤ} {ivar : IvarGcc} {rest : List IvarGcc} (hnonneg : 0 ≤ ivar.offset)
    (hneg : instanceSize < 0) (hrun : RunFrom ivar rest) : storedSize instanceSize ivar rest < 0 := by
  rw [storedSize_of_run hrun]
  omega

/-! ## One ivar -/

section

variable {abi : Abi} {cls : ClassGsv1} {memory : ℕ → ℤ} {l : List IvarGcc}

/-- What an upgraded ivar takes over. -/
theorem upgradeIvar_eq_some {i : ℕ} {ivar : IvarGcc} {rest : List IvarGcc} {out : Ivar}
    (h : upgradeIvar abi cls i ivar rest = some out) :
    0 ≤ storedSize cls.instanceSize ivar rest ∧ storedSize cls.instanceSize ivar rest ≤ uint32Max ∧
      out.name = ivar.name ∧ out.type = ivar.type ∧ upgradedOffset cls i = some out.offset ∧
      (out.size.toNat : ℤ) = storedSize cls.instanceSize ivar rest := by
  unfold upgradeIvar at h
  dsimp only at h
  split_ifs at h with hsize
  obtain ⟨offset, hoffset, h⟩ := Option.bind_eq_some_iff.mp h
  obtain ⟨align, -, h⟩ := Option.bind_eq_some_iff.mp h
  obtain rfl := Option.some.inj h
  push Not at hsize
  refine ⟨hsize.1, hsize.2, rfl, rfl, hoffset, ?_⟩
  have hlt : (storedSize cls.instanceSize ivar rest).toNat < UInt32.size := by
    have := hsize.2
    unfold uint32Max at this
    simp only [UInt32.size]
    omega
  rw [UInt32.toNat_ofNat_of_lt' hlt]
  omega

/-- An ivar is upgraded if its size fits and its offset and its type can be read. -/
theorem upgradeIvar_isSome {i : ℕ} {ivar : IvarGcc} {rest : List IvarGcc}
    (h0 : 0 ≤ storedSize cls.instanceSize ivar rest) (hmax : storedSize cls.instanceSize ivar rest ≤ uint32Max)
    (hoffset : (upgradedOffset cls i).isSome)
    (htype : ∀ type ∈ ivar.type, type ≠ [] → (objcAlignofType abi type).isSome) :
    (upgradeIvar abi cls i ivar rest).isSome := by
  obtain ⟨offset, hoffset⟩ := Option.isSome_iff_exists.mp hoffset
  have halign : ∃ align, upgradedAlign abi ivar.type (storedSize cls.instanceSize ivar rest) = some align := by
    cases hty : ivar.type with
    | none => exact ⟨_, rfl⟩
    | some type =>
      cases type with
      | nil => exact ⟨_, rfl⟩
      | cons c cs => exact Option.isSome_iff_exists.mp (htype (c :: cs) hty (List.cons_ne_nil _ _))
  obtain ⟨align, halign⟩ := halign
  unfold upgradeIvar
  dsimp only
  rw [if_neg (by omega), hoffset, Option.bind_eq_bind, Option.bind_some, halign]
  rfl

/-- The offset pointer of a well-formed class. -/
theorem upgradedOffset_eq (hwf : WellFormed abi memory cls l) {i : ℕ} (hi : i < l.length) :
    ∃ pointer, upgradedOffset cls i = some pointer ∧ pointer.load memory l = some l[i].offset := by
  unfold upgradedOffset
  split_ifs with hnew
  · obtain ⟨numbers, hnumbers, hmap⟩ := hwf.offsets hnew
    have hlen : numbers.length = l.length := by simpa using congrArg List.length hmap
    have hin : i < numbers.length := by omega
    refine ⟨.ivarOffset numbers[i], by simp [hnumbers, hin], ?_⟩
    have hget : (numbers.map memory)[i]? = (l.map IvarGcc.offset)[i]? := by rw [hmap]
    simpa [OffsetPointer.load, hi, hin] using hget
  · exact ⟨.field i, rfl, by simp [OffsetPointer.load, hi]⟩

/-! ## The loop -/

/-- The loop goes through if every turn does. -/
theorem upgradeIvars_isSome (i : ℕ) (l : List IvarGcc)
    (h : ∀ (k : ℕ) (hk : k < l.length), (upgradeIvar abi cls (i + k) l[k] (l.drop (k + 1))).isSome) :
    (upgradeIvars abi cls i l).isSome := by
  induction l generalizing i with
  | nil => rfl
  | cons ivar rest ih =>
    obtain ⟨upgraded, hupgraded⟩ := Option.isSome_iff_exists.mp (h 0 (Nat.zero_lt_succ _))
    have hothers : (upgradeIvars abi cls (i + 1) rest).isSome := by
      refine ih (i + 1) fun k hk => ?_
      have hstep := h (k + 1) (Nat.succ_lt_succ hk)
      rwa [← Nat.add_assoc, Nat.add_right_comm] at hstep
    obtain ⟨others, hothers⟩ := Option.isSome_iff_exists.mp hothers
    simp only [Nat.add_zero, List.getElem_cons_zero, Nat.zero_add, List.drop_succ_cons, List.drop_zero] at hupgraded
    rw [upgradeIvars, hupgraded, Option.bind_eq_bind, Option.bind_some, hothers]
    rfl

/-- The turns of a loop that went through. -/
theorem upgradeIvars_getElem {i : ℕ} {l : List IvarGcc} {out : List Ivar} (h : upgradeIvars abi cls i l = some out) :
    out.length = l.length ∧ ∀ (k : ℕ) (hk : k < l.length) (ho : k < out.length),
      upgradeIvar abi cls (i + k) l[k] (l.drop (k + 1)) = some out[k] := by
  induction l generalizing i out with
  | nil =>
    obtain rfl := Option.some.inj h
    exact ⟨rfl, fun k hk => absurd hk (Nat.not_lt_zero k)⟩
  | cons ivar rest ih =>
    rw [upgradeIvars] at h
    obtain ⟨upgraded, hupgraded, h⟩ := Option.bind_eq_some_iff.mp h
    obtain ⟨others, hothers, h⟩ := Option.bind_eq_some_iff.mp h
    obtain rfl := Option.some.inj h
    obtain ⟨hlen, hget⟩ := ih hothers
    refine ⟨by simp [hlen], fun k hk ho => ?_⟩
    cases k with
    | zero => simpa using hupgraded
    | succ k =>
      have hstep := hget k (Nat.lt_of_succ_lt_succ hk) (Nat.lt_of_succ_lt_succ ho)
      rwa [Nat.add_right_comm, Nat.add_assoc] at hstep

/-! ## Runs at the end -/

/-- A run at the end begins somewhere if the last two ivars share their offset. -/
theorem runFrom_iff_endsInRun :
    (∃ (k : ℕ) (hk : k < l.length), RunFrom l[k] (l.drop (k + 1))) ↔ EndsInRun l := by
  constructor
  · rintro ⟨k, hk, hne, hall⟩
    obtain ⟨front, b, hb⟩ := (List.eq_nil_or_concat' (l.drop (k + 1))).resolve_left hne
    have hl : l = (l.take k ++ [l[k]]) ++ l.drop (k + 1) := by
      rw [List.append_assoc, List.singleton_append, List.getElem_cons_drop, List.take_append_drop]
    rcases List.eq_nil_or_concat' front with rfl | ⟨front, a, rfl⟩
    · refine ⟨l.take k, l[k], b, ?_, (hall b (by simp [hb])).symm⟩
      rw [List.nil_append] at hb
      conv_lhs => rw [hl, hb, List.append_assoc, List.singleton_append]
    · refine ⟨l.take k ++ [l[k]] ++ front, a, b, ?_, ?_⟩
      · conv_lhs => rw [hl, hb]
        simp
      · rw [hall a (by simp [hb]), hall b (by simp [hb])]
  · rintro ⟨front, a, b, rfl, hab⟩
    refine ⟨front.length, by simp, ?_⟩
    have hdrop : (front ++ [a, b]).drop (front.length + 1) = [b] := by simp [List.drop_append]
    rw [hdrop]
    exact ⟨List.cons_ne_nil _ _, by simp [hab]⟩

/-! ## The list -/

/-- A list is cut at each of its ivars. -/
theorem eq_take_getElem_drop {k : ℕ} (hk : k < l.length) : l = l.take k ++ l[k] :: l.drop (k + 1) := by
  rw [List.getElem_cons_drop, List.take_append_drop]

/-- The size of the ivar at `k` is the distance to where its storage ends. -/
theorem storedSize_reaches_getElem (hwf : WellFormed abi memory cls l)
    (hrun : cls.instanceSize < 0 → ¬EndsInRun l) {k : ℕ} (hk : k < l.length) :
    Reaches l cls.instanceSize l[k].offset
      (l[k].offset + storedSize cls.instanceSize l[k] (l.drop (k + 1))) := by
  have hcut := eq_take_getElem_drop hk
  have hsorted : (l[k] :: l.drop (k + 1)).Pairwise (·.offset ≤ ·.offset) := by
    rw [List.getElem_cons_drop]
    exact hwf.sorted.drop
  refine reaches_of_rest hcut hwf.sorted (storedSize_reaches hsorted (hwf.nonneg _ (List.getElem_mem hk)) ?_)
  intro hneg hk'
  exact hrun hneg (runFrom_iff_endsInRun.mp ⟨k, hk, hk'⟩)

/-- Storage ends behind its offset, and within the class. -/
theorem Reaches.le (hwf : WellFormed abi memory cls l) {k : ℕ} (hk : k < l.length) {stop : ℤ}
    (h : Reaches l cls.instanceSize l[k].offset stop) :
    l[k].offset ≤ stop ∧ (stop < 2 ^ 31 ∨ stop = cls.instanceSize.natAbs ∧ l[k].offset = (l.getLast
      (List.ne_nil_of_length_pos (Nat.zero_lt_of_lt hk))).offset) := by
  rcases h with ⟨⟨hlt, ivar, hmem, rfl⟩, -⟩ | ⟨hall, rfl⟩
  · exact ⟨hlt.le, Or.inl (hwf.int ivar hmem)⟩
  · refine ⟨hwf.within _ (List.getElem_mem hk), Or.inr ⟨rfl, ?_⟩⟩
    have hle := hall _ (List.getLast_mem (List.ne_nil_of_length_pos (Nat.zero_lt_of_lt hk)))
    have hge : l[k].offset ≤ (l.getLast (List.ne_nil_of_length_pos (Nat.zero_lt_of_lt hk))).offset := by
      rw [List.getLast_eq_getElem]
      rcases Nat.lt_or_ge k (l.length - 1) with hlt | hge
      · exact List.pairwise_iff_getElem.mp hwf.sorted k (l.length - 1) hk (by omega) hlt
      · have heq : k = l.length - 1 := by omega
        subst heq
        exact le_refl _
    exact le_antisymm hge hle

/-- The last ivar whose offset is not behind a byte. -/
theorem exists_maximal_before {byte : ℤ} {m : ℕ} (hm : m < l.length) (hle : l[m].offset ≤ byte) :
    ∃ k, (∃ hk : k < l.length, l[k].offset ≤ byte) ∧
      ∀ (j : ℕ) (hj : j < l.length), l[j].offset ≤ byte → j ≤ k := by
  have hbound : ∀ n, (∃ hn : n < l.length, l[n].offset ≤ byte) → n ≤ l.length := fun n hn => hn.1.le
  refine ⟨Nat.findGreatest (fun n => ∃ hn : n < l.length, l[n].offset ≤ byte) l.length, ?_, ?_⟩
  · exact Nat.findGreatest_spec (P := fun n => ∃ hn : n < l.length, l[n].offset ≤ byte) hm.le ⟨hm, hle⟩
  · intro j hj hjle
    exact Nat.le_findGreatest hj.le ⟨hj, hjle⟩

/-- A list of ivars that went through the loop with the right sizes is an upgrade without loss. -/
theorem upgraded_of_upgradeIvars (hwf : WellFormed abi memory cls l)
    (hrun : cls.instanceSize < 0 → ¬EndsInRun l) {out : List Ivar} (h : upgradeIvars abi cls 0 l = some out) :
    Upgraded memory cls l out := by
  obtain ⟨hlen, hget⟩ := upgradeIvars_getElem h
  have hturn : ∀ (k : ℕ) (hk : k < l.length) (ho : k < out.length), out[k].name = l[k].name ∧
      out[k].type = l[k].type ∧ out[k].offset.load memory l = some l[k].offset ∧
      Reaches l cls.instanceSize l[k].offset (l[k].offset + out[k].size.toNat) := by
    intro k hk ho
    have hstep := hget k hk ho
    rw [Nat.zero_add] at hstep
    obtain ⟨-, -, hname, htype, hoffset, hsize⟩ := upgradeIvar_eq_some hstep
    obtain ⟨pointer, hpointer, hload⟩ := upgradedOffset_eq hwf hk
    obtain rfl := Option.some.inj (hoffset.symm.trans hpointer)
    rw [hsize]
    exact ⟨hname, htype, hload, storedSize_reaches_getElem hwf hrun hk⟩
  have hunits : ∀ (i j : ℕ) (hi : i < l.length) (hj : j < l.length) (hio : i < out.length)
      (hjo : j < out.length), l[i].offset = l[j].offset → out[i].size = out[j].size := by
    intro i j hi hj hio hjo heq
    have hreach := (hturn i hi hio).2.2.2
    rw [heq] at hreach
    have hstop := hreach.unique (hturn j hj hjo).2.2.2
    exact UInt32.toNat_inj.mp (by omega)
  refine ⟨?_, ?_, ?_, fun k hk ho => (hturn k hk ho).2.2.2, hunits, ?_⟩
  · refine List.ext_getElem (by simp [hlen]) fun k hk hk' => ?_
    simp only [List.length_map] at hk hk'
    simpa using (hturn k hk' hk).1
  · refine List.ext_getElem (by simp [hlen]) fun k hk hk' => ?_
    simp only [List.length_map] at hk hk'
    simpa using (hturn k hk' hk).2.1
  · refine List.ext_getElem (by simp [hlen]) fun k hk hk' => ?_
    simp only [List.length_map] at hk hk'
    simpa using (hturn k hk' hk).2.2.1
  · -- the last ivar whose offset is not behind the byte reaches over it
    rintro byte ⟨ivar, hmem, hle⟩ hlt
    obtain ⟨m, hm, rfl⟩ := List.mem_iff_getElem.mp hmem
    obtain ⟨k, ⟨hk, hkle⟩, hmax⟩ := exists_maximal_before hm hle
    have ho : k < out.length := by omega
    refine ⟨k, hk, ho, hkle, ?_⟩
    rcases (hturn k hk ho).2.2.2 with ⟨⟨hgt, next, hnext, hoff⟩, -⟩ | ⟨-, hstop⟩
    · obtain ⟨j, hj, rfl⟩ := List.mem_iff_getElem.mp hnext
      by_contra hcon
      have hjle : l[j].offset ≤ byte := by omega
      have hjk : j ≤ k := hmax j hj hjle
      have hsort : l[j].offset ≤ l[k].offset := by
        rcases Nat.lt_or_ge j k with h | h
        · exact List.pairwise_iff_getElem.mp hwf.sorted j k hj hk h
        · obtain rfl : j = k := by omega
          exact le_refl _
      omega
    · omega

/-- **Legacy ivars.** The list of a well-formed class is upgraded without loss if and only if the
    instance size is not negative or the list does not end in ivars that share their offset, and the
    distance from the last ivar to the end of the class fits into 32 bits. -/
theorem upgradeIvarList_upgraded_iff {calloc : ℕ → Bool} (hl : cls.ivars = some l)
    (hwf : WellFormed abi memory cls l) (hcalloc : calloc l.length) :
    (∃ out, upgradeIvarList abi cls calloc = some (some out) ∧ Upgraded memory cls l out) ↔
      (cls.instanceSize < 0 → ¬EndsInRun l) ∧
        ∀ last ∈ l.getLast?, cls.instanceSize.natAbs - last.offset ≤ uint32Max := by
  have habort : ¬(cls.usesNewABI = true ∧ l ≠ [] ∧ cls.ivarOffsets = none) := by
    rintro ⟨hnew, -, hnone⟩
    obtain ⟨numbers, hsome, -⟩ := hwf.offsets hnew
    exact absurd (hsome.symm.trans hnone) (Option.some_ne_none _)
  have hcode : upgradeIvarList abi cls calloc = (upgradeIvars abi cls 0 l).map some := by
    unfold upgradeIvarList
    rw [hl]
    simp only [hcalloc, not_true_eq_false, if_false]
    rw [if_neg habort]
  rw [hcode]
  constructor
  · rintro ⟨out, hout, -⟩
    obtain ⟨out', hloop, hsame⟩ := Option.map_eq_some_iff.mp hout
    obtain ⟨hlen, hget⟩ := upgradeIvars_getElem hloop
    have hbounds : ∀ (k : ℕ) (hk : k < l.length),
        0 ≤ storedSize cls.instanceSize l[k] (l.drop (k + 1)) ∧
          storedSize cls.instanceSize l[k] (l.drop (k + 1)) ≤ uint32Max := by
      intro k hk
      obtain ⟨h0, hmax, -⟩ := upgradeIvar_eq_some (hget k hk (by omega))
      exact ⟨h0, hmax⟩
    refine ⟨fun hneg hrun => ?_, fun last hlast => ?_⟩
    · obtain ⟨k, hk, hfrom⟩ := runFrom_iff_endsInRun.mpr hrun
      have hsize := storedSize_neg (hwf.nonneg _ (List.getElem_mem hk)) hneg hfrom
      exact absurd (hbounds k hk).1 (not_le.mpr hsize)
    · obtain ⟨front, rfl⟩ := List.getLast?_eq_some_iff.mp hlast
      have hsize := (hbounds front.length (by simp)).2
      simpa [storedSize] using hsize
  · rintro ⟨hrun, hfits⟩
    have hsome : (upgradeIvars abi cls 0 l).isSome := by
      refine upgradeIvars_isSome 0 l fun k hk => ?_
      have hreach := storedSize_reaches_getElem hwf hrun hk
      obtain ⟨hle, hstop⟩ := Reaches.le hwf hk hreach
      have hlast := hfits _ (List.getLast_mem_getLast? (List.ne_nil_of_length_pos (Nat.zero_lt_of_lt hk)))
      have hnonneg := hwf.nonneg _ (List.getElem_mem hk)
      obtain ⟨pointer, hpointer, -⟩ := upgradedOffset_eq hwf hk
      refine upgradeIvar_isSome (by omega) ?_ ?_ (hwf.types _ (List.getElem_mem hk))
      · unfold uint32Max at hlast ⊢
        rcases hstop with h | ⟨h, hoff⟩
        · omega
        · omega
      · rw [Nat.zero_add, hpointer]
        rfl
    obtain ⟨out, hout⟩ := Option.isSome_iff_exists.mp hsome
    exact ⟨out, by rw [hout]; rfl, upgraded_of_upgradeIvars hwf hrun hout⟩

end

theorem wellFormed_packedClass (instanceSize : ℤ) :
    WellFormed lp64 (fun _ => 0) (packedClass instanceSize) packedIvars where
  sorted := by decide
  nonneg := by decide
  int := by decide
  within := by
    intro ivar hivar
    have hzero : ivar.offset = 0 := by
      revert ivar
      decide
    omega
  types := by decide +kernel
  offsets _ := ⟨[0, 1], rfl, rfl⟩

/-- With a positive instance size both bit-fields get the size of their unit. -/
theorem upgradeIvarList_upgraded_packed : ∃ out,
    upgradeIvarList lp64 (packedClass 4) (fun _ => true) = some (some out) ∧
      Upgraded (fun _ => 0) (packedClass 4) packedIvars out :=
  (upgradeIvarList_upgraded_iff rfl (wellFormed_packedClass 4) rfl).mpr
    ⟨fun hneg => absurd hneg (by decide), by decide⟩

/-- With the sign that the compiler gives it the class is not upgraded at all. -/
theorem upgradeIvarList_aborts : ¬∀ (abi : Abi) (cls : ClassGsv1) (memory : ℕ → ℤ) (l : List IvarGcc),
    cls.ivars = some l → WellFormed abi memory cls l → cls.instanceSize.natAbs ≤ 2 ^ 31 →
    ∃ out, upgradeIvarList abi cls (fun _ => true) = some (some out) ∧ Upgraded memory cls l out := by
  intro h
  obtain ⟨out, hout, -⟩ := h lp64 (packedClass (-4)) (fun _ => 0) packedIvars rfl
    (wellFormed_packedClass (-4)) (by decide)
  have hcode : upgradeIvarList lp64 (packedClass (-4)) (fun _ => true) = none := by decide +kernel
  exact absurd (hcode.symm.trans hout) (Option.some_ne_none _).symm

end Libobjc2.Classes.Legacy
