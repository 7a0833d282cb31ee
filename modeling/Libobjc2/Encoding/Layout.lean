import Libobjc2.Encoding.TypeParser

/-!
# `objc_sizeof_type` and the layout of C

`sizeof_type` on well-formed encodings, and when the size that it adds up is
the one of C.

The cases of `^`, `[`, `{` and `(` add at the running size without rounding it
up first, and the size of a union is not rounded up to its alignment. So
`{S=c^ic}`, a character, a pointer and a character, has 16 bytes instead of 24.
An array's element count is an `int`.

Results:

* `sizeofType_encode`: `sizeof_type` adds a well-formed type to the running
  size, `TypeEncoding.runningSize`.
* `TypeEncoding.addsLayout`: the running size is the C layout when nothing is
  misplaced.
* `computesLayout_of_placed`: `objc_alignof_type` is the C alignment, and
  `objc_sizeof_type` the C size when nothing is misplaced.
* `size_misplaced`: a structure with a misplaced pointer.
-/

namespace Libobjc2.Encoding

open Libobjc2.Alignment

/-! ## The running size -/

mutual

/-- What the cases of `sizeof_type` do to the running size in bits. -/
def TypeEncoding.runningSize (abi : Abi) : TypeEncoding → ℕ → ℕ
  | .arithmetic a, size => abi.addType (.arithmetic a) size
  | .bool, size => abi.addType .bool size
  | .classPointer, size => abi.addType .classPointer size
  | .sel, size => abi.addType .sel size
  | .cString, size => abi.addType .cString size
  | .complex a, size => abi.addType (.complex a) size
  | .object _, size => abi.addType .id size
  | .pointer _, size => (size + abi.sizeof .voidPointer * 8) % abi.sizeMod
  | .array count t, size =>
    (size + t.runningSize abi 0 * abi.toSize (toInt (min (count.value : ℤ) abi.longMax)) %
      abi.sizeMod) % abi.sizeMod
  | .struct _ ms, size => abi.roundUp (ms.runningSize abi size) (ms.align abi * 8)
  | .union _ ms, size => (size + ms.largestRunningSize abi 0) % abi.sizeMod

/-- The members of a structure, one after the other. -/
def Members.runningSize (abi : Abi) : Members → ℕ → ℕ
  | .last _ t, size => t.runningSize abi size
  | .cons _ t rest, size => rest.runningSize abi (t.runningSize abi size)

/-- The members of a union, each from the start. -/
def Members.largestRunningSize (abi : Abi) : Members → ℕ → ℕ
  | .last _ t, size => max size (t.runningSize abi 0)
  | .cons _ t rest, size => rest.largestRunningSize abi (max size (t.runningSize abi 0))

end

theorem foldl_runningSize (abi : Abi) (ms : Members) (size : ℕ) :
    ms.types.foldl (fun c t => t.runningSize abi c) size = ms.runningSize abi size := by
  induction ms using Members.induct generalizing size with
  | last name t => rfl
  | cons name t rest ih => exact ih (t.runningSize abi size)

theorem foldl_largestRunningSize (abi : Abi) (ms : Members) (size : ℕ) :
    ms.types.foldl (fun c t => max c (t.runningSize abi 0)) size = ms.largestRunningSize abi size := by
  induction ms using Members.induct generalizing size with
  | last name t => rfl
  | cons name t rest ih => exact ih (max size (t.runningSize abi 0))

theorem sizeofType_object (abi : Abi) (fuel : ℕ) (form : ObjectForm) {rest : List Char} (h : Follows rest)
    (size : ℕ) : sizeofType abi (fuel + 1) ((TypeEncoding.object form).encode ++ rest) size =
      some ((TypeEncoding.object form).after rest, abi.addType .id size) := by
  have hskip := skipObjectExtendedQualifiers_encode form h
  have hform : (TypeEncoding.object form).encode = '@' :: form.encode.tail := by cases form <;> rfl
  have hcase : sizeofType abi (fuel + 1) ('@' :: (form.encode.tail ++ rest)) size =
      (skipObjectExtendedQualifiers (form.encode.tail ++ rest)).bind
        fun rest => some (rest, abi.addType .id size) := rfl
  rw [hform, List.cons_append, hcase, hskip]
  rfl

theorem sizeofStruct_encode (abi : Abi) {callback : List Char → ℕ → Option (List Char × ℕ)}
    (name : NameWithout ['=', '}']) (ms : Members) (h : ∀ t ∈ ms.types, Parses callback (t.runningSize abi) t)
    {rest : List Char} (hr : Follows rest) (size : ℕ) :
    sizeofStruct abi callback ((TypeEncoding.struct name ms).encode ++ rest)
      ((TypeEncoding.struct name ms).encode.tail ++ rest) size =
      some (rest, abi.roundUp (ms.runningSize abi size) (ms.align abi * 8)) := by
  have hparse := parseStructOrUnion_encode (by decide) name ms h rest size
  have hcs : (TypeEncoding.struct name ms).encode.tail ++ rest =
      name.chars ++ '=' :: (ms.encode ++ '}' :: rest) := by
    simp [TypeEncoding.encode]
  rw [sizeofStruct, parseStruct, hcs, hparse, objcAlignofType_encode abi _ hr, foldl_runningSize]
  rfl

mutual

/-- On a well-formed encoding `sizeof_type` adds the type to the running size. -/
theorem sizeofType_encode (abi : Abi) : ∀ (t : TypeEncoding) (fuel : ℕ), t.encode.length ≤ fuel →
    Parses (sizeofType abi fuel) (t.runningSize abi) t
  | .arithmetic a, fuel + 1, _ => by
    intro rest _ context
    cases a <;> rfl
  | .bool, fuel + 1, _ | .classPointer, fuel + 1, _ | .sel, fuel + 1, _ | .cString, fuel + 1, _ =>
      fun _ _ _ => rfl
  | .complex a, fuel + 1, _ => by
    intro rest _ context
    cases a <;> rfl
  | .object form, fuel + 1, _ => fun rest hr size => sizeofType_object abi fuel form hr size
  | .pointer p, fuel + 1, h => by
    intro rest hr size
    obtain ⟨s, hs⟩ := sizeofType_pointee abi p fuel (by simpa [TypeEncoding.encode] using h) rest hr 0
    have hcase : sizeofType abi (fuel + 1) ('^' :: (p.encode ++ rest)) size =
        (sizeofType abi fuel (p.encode ++ rest) 0).bind
          fun r => some (r.1, (size + abi.sizeof .voidPointer * 8) % abi.sizeMod) := rfl
    rw [TypeEncoding.encode, List.cons_append, hcase, hs, TypeEncoding.after_pointer]
    rfl
  | .array count t, fuel + 1, h => by
    intro rest hr size
    have ht := sizeofType_encode abi t fuel (by simp [TypeEncoding.encode] at h; omega)
    have hcase (cs : List Char) : sizeofType abi (fuel + 1) ('[' :: cs) size =
        (parseArray (sizeofType abi fuel) abi cs 0).bind fun r =>
          some (r.2.1, (size + r.2.2 * abi.toSize r.1 % abi.sizeMod) % abi.sizeMod) := rfl
    rw [TypeEncoding.encode, List.cons_append, List.append_assoc, List.append_assoc, hcase]
    rw [List.singleton_append, parseArray_encode abi count t ht]
    rfl
  | .struct name ms, fuel + 1, h => by
    intro rest hr size
    have hms := sizeofType_members abi ms fuel (by simp [TypeEncoding.encode] at h; omega)
    have hcase (cs : List Char) : sizeofType abi (fuel + 1) ('{' :: cs) size =
        sizeofStruct abi (sizeofType abi fuel) ('{' :: cs) cs size := rfl
    rw [TypeEncoding.encode, List.cons_append, hcase]
    exact sizeofStruct_encode abi name ms hms hr size
  | .union name ms, fuel + 1, h => by
    intro rest hr size
    have hms := sizeofType_members abi ms fuel (by simp [TypeEncoding.encode] at h; omega)
    have hfield : ∀ t ∈ ms.types, Parses (sizeofUnionField (sizeofType abi fuel))
        (fun c => max c (t.runningSize abi 0)) t := by
      intro t ht rest hr c
      rw [sizeofUnionField, hms t ht rest hr 0]
      rfl
    have hcase (cs : List Char) : sizeofType abi (fuel + 1) ('(' :: cs) size =
        (parseStructOrUnion (sizeofUnionField (sizeofType abi fuel)) cs 0 ')').bind fun r =>
          some (r.1, (size + r.2) % abi.sizeMod) := rfl
    rw [TypeEncoding.encode, List.cons_append, List.append_assoc, List.cons_append, List.append_assoc, hcase]
    rw [List.singleton_append, parseStructOrUnion_encode (by decide) name ms hfield, foldl_largestRunningSize]
    rfl
  | t, 0, h => absurd t.length_encode_pos (by omega)

theorem sizeofType_pointee (abi : Abi) : ∀ (p : Pointee) (fuel : ℕ), p.encode.length ≤ fuel →
    ∀ rest, Follows rest →
    ∀ s, ∃ s', sizeofType abi fuel (p.encode ++ rest) s = some (p.after rest, s')
  | .void, fuel + 1, _, rest, _, s => ⟨s, rfl⟩
  | .function, fuel + 1, _, rest, _, s => ⟨s, rfl⟩
  | .opaqueStruct name, fuel + 1, _, rest, hr, s => by
    have hcase (cs : List Char) : sizeofType abi (fuel + 1) ('{' :: cs) s =
        sizeofStruct abi (sizeofType abi fuel) ('{' :: cs) cs s := rfl
    obtain ⟨a, ha⟩ := alignofType_pointee abi (.opaqueStruct name) ('{' :: (name.chars ++ '}' :: rest)).length
      (by simp [Pointee.encode]) rest hr 0
    refine ⟨abi.roundUp s (a / 8 * 8), ?_⟩
    rw [Pointee.encode, List.cons_append, List.append_assoc, List.singleton_append] at ha
    rw [Pointee.encode, List.cons_append, List.append_assoc, hcase, List.singleton_append,
      sizeofStruct, parseStruct,
      parseStructOrUnion_opaque, objcAlignofType, ha]
    rfl
  | .opaqueUnion name, fuel + 1, _, rest, _, s => by
    have hcase (cs : List Char) : sizeofType abi (fuel + 1) ('(' :: cs) s =
        (parseStructOrUnion (sizeofUnionField (sizeofType abi fuel)) cs 0 ')').bind fun r =>
          some (r.1, (s + r.2) % abi.sizeMod) := rfl
    refine ⟨(s + 0) % abi.sizeMod, ?_⟩
    rw [Pointee.encode, List.cons_append, List.append_assoc, hcase, List.singleton_append,
      parseStructOrUnion_opaque]
    rfl
  | .type t, fuel, h, rest, hr, s => ⟨_, sizeofType_encode abi t fuel h rest hr s⟩
  | .void, 0, h, _, _, _ | .function, 0, h, _, _, _ | .opaqueStruct _, 0, h, _, _, _
  | .opaqueUnion _, 0, h, _, _, _ => absurd h (by simp [Pointee.encode])

theorem sizeofType_members (abi : Abi) : ∀ (ms : Members) (fuel : ℕ), ms.encode.length ≤ fuel →
    ∀ t ∈ ms.types, Parses (sizeofType abi fuel) (t.runningSize abi) t
  | .last _ t, fuel, h, t', ht' => by
    rw [Members.types, List.mem_singleton] at ht'
    subst ht'
    exact sizeofType_encode abi t' fuel (by simp [Members.encode] at h; omega)
  | .cons _ t rest, fuel, h, t', ht' => by
    simp only [Members.encode, List.length_append] at h
    rw [Members.types, List.mem_cons] at ht'
    rcases ht' with rfl | ht'
    · exact sizeofType_encode abi t' fuel (by omega)
    · exact sizeofType_members abi rest fuel (by omega) t' ht'

end

/-- `objc_sizeof_type` returns a result on every well-formed type. -/
theorem objcSizeofType_encode (abi : Abi) (t : TypeEncoding) :
    objcSizeofType abi t.encode = some (t.runningSize abi 0 / 8) := by
  have ht := sizeofType_encode abi t t.encode.length le_rfl [] follows_nil 0
  rw [List.append_nil] at ht
  rw [objcSizeofType, ht]
  rfl


/-! ## Layouts without a misplaced part -/

/-- The types whose case of `sizeof_type` rounds up before it adds. -/
def TypeEncoding.RoundsUp : TypeEncoding → Prop
  | .arithmetic _ | .bool | .classPointer | .sel | .cString | .complex _ | .object _ => True
  | .pointer _ | .array _ _ | .struct _ _ | .union _ _ => False

mutual

/-- Nothing in the type needs the padding that `sizeof_type` leaves out: in
front of a pointer, an array, a structure or a union that is a member of a
structure, and behind the largest member of a union. An element count fits an
`int`, and an element `size_t` in bits. -/
def TypeEncoding.Placed (abi : Abi) : TypeEncoding → Prop
  | .array count t => t.Placed abi ∧ count.value < 2 ^ 31 ∧ t.size abi * 8 < abi.sizeMod
  | .struct _ ms => ms.PlacedFrom abi 0
  | .union _ ms => ms.EachPlaced abi ∧ ms.align abi ∣ ms.largest abi
  | _ => True

/-- The members of a structure, the first one at `offset` or behind it. -/
def Members.PlacedFrom (abi : Abi) : Members → ℕ → Prop
  | .last _ t, offset => t.Placed abi ∧ (t.RoundsUp ∨ t.align abi ∣ offset)
  | .cons _ t rest, offset => t.Placed abi ∧ (t.RoundsUp ∨ t.align abi ∣ offset) ∧
    rest.PlacedFrom abi (nextMultiple (t.align abi) offset + t.size abi)

/-- The members of a union. -/
def Members.EachPlaced (abi : Abi) : Members → Prop
  | .last _ t => t.Placed abi
  | .cons _ t rest => t.Placed abi ∧ rest.EachPlaced abi

end

/-! ## Arithmetic in bits -/

/-- `round_up` is the next multiple, unless it overflows. -/
theorem Abi.roundUp_eq (abi : Abi) {a n : ℕ} (ha : 0 < a) (h : nextMultiple a n < abi.sizeMod) :
    abi.roundUp n a = nextMultiple a n := by
  unfold roundUp
  rw [if_neg (by omega)]
  split
  · rename_i hmod
    have hlt := Nat.mod_lt n ha
    have hnext : nextMultiple a n = n + (a - n % a) := by
      apply nextMultiple_eq
      · refine ⟨n / a + 1, ?_⟩
        have := Nat.div_add_mod n a
        rw [Nat.mul_add]
        omega
      · omega
      · omega
    rw [← hnext]
    exact Nat.mod_eq_of_lt h
  · rename_i hmod
    exact (nextMultiple_of_dvd ha (Nat.dvd_of_mod_eq_zero (by omega))).symm

theorem Abi.roundUp_bits (abi : Abi) {a n : ℕ} (ha : 0 < a) (h : nextMultiple a n * 8 < abi.sizeMod) :
    abi.roundUp (n * 8) (a * 8) = nextMultiple a n * 8 := by
  have hscale : nextMultiple (a * 8) (n * 8) = nextMultiple a n * 8 := by
    simpa [Nat.mul_comm] using nextMultiple_mul ha (show 0 < 8 by decide) n
  rw [abi.roundUp_eq (by omega) (by rw [hscale]; exact h), hscale]

theorem Abi.addType_bits (abi : Abi) (τ : CType) {n : ℕ}
    (h : (nextMultiple (abi.alignof τ) n + abi.sizeof τ) * 8 < abi.sizeMod) :
    abi.addType τ (n * 8) = (nextMultiple (abi.alignof τ) n + abi.sizeof τ) * 8 := by
  rw [Nat.add_mul] at h
  rw [addType, abi.roundUp_bits (abi.alignof_isAlignment τ).pos (by omega), Nat.add_mul]
  exact Nat.mod_eq_of_lt h

theorem Abi.toSize_count (abi : Abi) {n : ℕ} (h : n < 2 ^ 31) :
    abi.toSize (toInt (min (n : ℤ) abi.longMax)) = n := by
  have hlong := abi.int_le_long
  have hsize := abi.int_lt_sizeMod
  have hmin : min (n : ℤ) abi.longMax = n := min_eq_left (by omega)
  have hint : toInt n = n := by
    unfold toInt
    exact Int.bmod_eq_of_le (by omega) (by omega)
  rw [hmin, hint, toSize, Int.emod_eq_of_lt (by omega) (by omega), Int.toNat_natCast]

/-! ## The running size is the layout -/

theorem Members.le_layoutEnd (abi : Abi) (ms : Members) (offset : ℕ) : offset ≤ ms.layoutEnd abi offset := by
  induction ms using Members.induct generalizing offset with
  | last name t =>
    have := le_nextMultiple (t.isAlignment_align abi).pos offset
    rw [layoutEnd]
    omega
  | cons name t rest ih =>
    have := le_nextMultiple (t.isAlignment_align abi).pos offset
    have := ih (nextMultiple (t.align abi) offset + t.size abi)
    rw [layoutEnd]
    omega

/-- A placed type that is aligned or rounds up itself gets its C size at its C offset. -/
def TypeEncoding.AddsLayout (abi : Abi) (t : TypeEncoding) : Prop :=
  ∀ offset, (t.RoundsUp ∨ t.align abi ∣ offset) →
    (nextMultiple (t.align abi) offset + t.size abi) * 8 < abi.sizeMod →
      t.runningSize abi (offset * 8) = (nextMultiple (t.align abi) offset + t.size abi) * 8

/-- The members of a structure at `base` end where C ends them. -/
def Members.AddLayout (abi : Abi) (ms : Members) : Prop :=
  ∀ offset, ms.PlacedFrom abi offset → ∀ base, ms.align abi ∣ base →
    (base + ms.layoutEnd abi offset) * 8 < abi.sizeMod →
      ms.runningSize abi ((base + offset) * 8) = (base + ms.layoutEnd abi offset) * 8

theorem addsLayout_pointer (abi : Abi) (p : Pointee) : (TypeEncoding.pointer p).AddsLayout abi := by
  intro offset ha hfit
  have ha' : (TypeEncoding.pointer p).align abi ∣ offset := ha.resolve_left id
  rw [nextMultiple_of_dvd ((TypeEncoding.pointer p).isAlignment_align abi).pos ha'] at hfit ⊢
  rw [TypeEncoding.size] at hfit ⊢
  rw [TypeEncoding.runningSize, ← Nat.add_mul, Nat.mod_eq_of_lt hfit]

theorem addsLayout_array (abi : Abi) (count : Numeral) {t : TypeEncoding} (ht : t.AddsLayout abi)
    (hcount : count.value < 2 ^ 31) (helement : t.size abi * 8 < abi.sizeMod) :
    (TypeEncoding.array count t).AddsLayout abi := by
  intro offset ha hfit
  have ha' : (TypeEncoding.array count t).align abi ∣ offset := ha.resolve_left id
  have hzero : nextMultiple (t.align abi) 0 = 0 := nextMultiple_of_dvd (t.isAlignment_align abi).pos
      (dvd_zero _)
  have helem := ht 0 (.inr (dvd_zero _)) (by rw [hzero, Nat.zero_add]; exact helement)
  rw [hzero, Nat.zero_mul, Nat.zero_add] at helem
  rw [nextMultiple_of_dvd ((TypeEncoding.array count t).isAlignment_align abi).pos ha'] at hfit ⊢
  rw [TypeEncoding.size] at hfit ⊢
  have hproduct : t.size abi * 8 * count.value = count.value * t.size abi * 8 := by ring
  rw [TypeEncoding.runningSize, abi.toSize_count hcount, helem, hproduct]
  rw [Nat.mod_eq_of_lt (show count.value * t.size abi * 8 < abi.sizeMod by omega), ← Nat.add_mul]
  exact Nat.mod_eq_of_lt hfit

theorem addsLayout_struct (abi : Abi) (name : NameWithout ['=', '}']) {ms : Members} (hms : ms.AddLayout abi)
    (hplaced : ms.PlacedFrom abi 0) : (TypeEncoding.struct name ms).AddsLayout abi := by
  intro offset ha hfit
  have ha' : ms.align abi ∣ offset := ha.resolve_left id
  have hpos := (ms.isAlignment_align abi).pos
  have hle := le_nextMultiple hpos (ms.layoutEnd abi 0)
  have hnext := nextMultiple_add hpos ha' (ms.layoutEnd abi 0)
  rw [TypeEncoding.align, nextMultiple_of_dvd hpos ha', TypeEncoding.size] at hfit ⊢
  have hend := hms 0 hplaced offset ha' (by omega)
  rw [Nat.add_zero] at hend
  rw [TypeEncoding.runningSize, hend, abi.roundUp_bits hpos (by rw [hnext]; exact hfit), hnext]

theorem Members.largestRunningSize_bits (abi : Abi) (ms : Members)
    (h : ∀ t ∈ ms.types, t.runningSize abi 0 = t.size abi * 8) (largest : ℕ) :
    ms.largestRunningSize abi (largest * 8) = max largest (ms.largest abi) * 8 := by
  induction ms using Members.induct generalizing largest with
  | last name t =>
    rw [largestRunningSize, h t (by simp [types]), Members.largest]
    omega
  | cons name t rest ih =>
    have ht := h t (by simp [types])
    have hmax : max (largest * 8) (t.size abi * 8) = max largest (t.size abi) * 8 := by omega
    rw [largestRunningSize, ht, hmax, ih fun t' ht' => h t' (List.mem_cons_of_mem _ ht'), Members.largest]
    omega

theorem Members.size_le_largest (abi : Abi) (ms : Members) : ∀ t ∈ ms.types, t.size abi ≤ ms.largest abi := by
  induction ms using Members.induct with
  | last name t =>
    intro t' ht'
    rw [types, List.mem_singleton] at ht'
    exact ht' ▸ le_rfl
  | cons name t rest ih =>
    intro t' ht'
    rw [types, List.mem_cons] at ht'
    rw [Members.largest]
    rcases ht' with rfl | ht'
    · exact le_max_left _ _
    · exact (ih t' ht').trans (le_max_right _ _)

theorem addsLayout_union (abi : Abi) (name : NameWithout ['=', ')']) {ms : Members}
    (hms : ∀ t ∈ ms.types, t.AddsLayout abi) (hlargest : ms.align abi ∣ ms.largest abi) :
    (TypeEncoding.union name ms).AddsLayout abi := by
  intro offset ha hfit
  have ha' : ms.align abi ∣ offset := ha.resolve_left id
  have hpos := (ms.isAlignment_align abi).pos
  rw [TypeEncoding.align, nextMultiple_of_dvd hpos ha', TypeEncoding.size,
    nextMultiple_of_dvd hpos hlargest] at hfit ⊢
  have hsize : ∀ t ∈ ms.types, t.runningSize abi 0 = t.size abi * 8 := by
    intro t ht
    have hle := ms.size_le_largest abi t ht
    have hzero : nextMultiple (t.align abi) 0 = 0 :=
        nextMultiple_of_dvd (t.isAlignment_align abi).pos (dvd_zero _)
    have hadds := hms t ht 0 (.inr (dvd_zero _)) (by rw [hzero]; omega)
    rwa [hzero, Nat.zero_mul, Nat.zero_add] at hadds
  have hunion := ms.largestRunningSize_bits abi hsize 0
  rw [Nat.zero_mul, Nat.zero_max] at hunion
  rw [TypeEncoding.runningSize, hunion, ← Nat.add_mul, Nat.mod_eq_of_lt hfit]

mutual

theorem TypeEncoding.addsLayout (abi : Abi) : ∀ t : TypeEncoding, t.Placed abi → t.AddsLayout abi
  | .arithmetic _, _ | .bool, _ | .classPointer, _ | .sel, _ | .cString, _ | .complex _, _ | .object _, _ =>
    fun _ _ hfit => abi.addType_bits _ hfit
  | .pointer p, _ => addsLayout_pointer abi p
  | .array count t, h => addsLayout_array abi count (t.addsLayout abi h.1) h.2.1 h.2.2
  | .struct name ms, h => addsLayout_struct abi name (ms.addLayout abi) h
  | .union name ms, h => addsLayout_union abi name (ms.addsLayout abi h.1) h.2

theorem Members.addLayout (abi : Abi) : ∀ ms : Members, ms.AddLayout abi
  | .last _ t => by
    intro offset hplaced base hbase hfit
    have hnext := nextMultiple_add (t.isAlignment_align abi).pos hbase offset
    have halign := hplaced.2.imp_right fun h => Nat.dvd_add hbase h
    rw [Members.layoutEnd, ← Nat.add_assoc, ← hnext] at hfit ⊢
    exact t.addsLayout abi hplaced.1 (base + offset) halign hfit
  | .cons _ t rest => by
    intro offset hplaced base hbase hfit
    have hta := t.isAlignment_align abi
    have hra := rest.isAlignment_align abi
    -- every member's alignment divides the start of the structure
    have htbase : t.align abi ∣ base := (hta.dvd_max_left hra).trans hbase
    have hrbase : rest.align abi ∣ base := (hta.dvd_max_right hra).trans hbase
    have hnext := nextMultiple_add hta.pos htbase offset
    have halign := hplaced.2.1.imp_right fun h => Nat.dvd_add htbase h
    have hle := rest.le_layoutEnd abi (nextMultiple (t.align abi) offset + t.size abi)
    rw [Members.layoutEnd] at hfit ⊢
    have ht := t.addsLayout abi hplaced.1 (base + offset) halign (by rw [hnext]; omega)
    rw [hnext, Nat.add_assoc] at ht
    rw [Members.runningSize, ht]
    exact rest.addLayout abi _ hplaced.2.2 base hrbase hfit

theorem Members.addsLayout (abi : Abi) : ∀ ms : Members, ms.EachPlaced abi → ∀ t ∈ ms.types, t.AddsLayout abi
  | .last _ t, h => by
    intro t' ht'
    rw [Members.types, List.mem_singleton] at ht'
    rw [ht']
    exact t.addsLayout abi h
  | .cons _ t rest, h => by
    intro t' ht'
    rw [Members.types, List.mem_cons] at ht'
    rcases ht' with ht' | ht'
    · rw [ht']
      exact t.addsLayout abi h.1
    · exact rest.addsLayout abi h.2 t' ht'

end

/-! ## `objc_sizeof_type` and `objc_alignof_type` -/

/-- The two functions compute the size and the alignment that C gives the type. -/
def ComputesLayout (abi : Abi) (t : TypeEncoding) : Prop :=
  objcSizeofType abi t.encode = some (t.size abi) ∧ objcAlignofType abi t.encode = some (t.align abi)

/-- The alignment of every type is the one of C. The size is, too, when nothing
in the type is misplaced and `size_t` holds it in bits. -/
theorem computesLayout_of_placed (abi : Abi) (t : TypeEncoding) :
    objcAlignofType abi t.encode = some (t.align abi) ∧
      (t.Placed abi → t.size abi * 8 < abi.sizeMod → ComputesLayout abi t) := by
  have halign : objcAlignofType abi t.encode = some (t.align abi) := by
    simpa using objcAlignofType_encode abi t follows_nil
  refine ⟨halign, fun hplaced hfit => ⟨?_, halign⟩⟩
  have hzero : nextMultiple (t.align abi) 0 = 0 := nextMultiple_of_dvd (t.isAlignment_align abi).pos
      (dvd_zero _)
  have hsize := t.addsLayout abi hplaced 0 (.inr (dvd_zero _)) (by rwa [hzero, Nat.zero_add])
  rw [hzero, Nat.zero_mul, Nat.zero_add] at hsize
  rw [objcSizeofType_encode, hsize, Nat.mul_div_cancel _ (by decide)]

/-! ## A misplaced pointer -/

/-- The arithmetic types of 64-bit Unix systems. -/
def lp64Arithmetic : ArithmeticType → ℕ
  | .signedChar | .unsignedChar => 1
  | .short | .unsignedShort => 2
  | .float | .int | .unsignedInt => 4
  | .double | .long | .longLong | .unsignedLong | .unsignedLongLong => 8
  | .longDouble => 16

theorem isAlignment_lp64Arithmetic (a : ArithmeticType) : IsAlignment (lp64Arithmetic a) := by
  cases a
  case signedChar | unsignedChar => exact ⟨0, rfl⟩
  case short | unsignedShort => exact ⟨1, rfl⟩
  case float | int | unsignedInt => exact ⟨2, rfl⟩
  case longDouble => exact ⟨4, rfl⟩
  all_goals exact ⟨3, rfl⟩

/-- The sizes and alignments of 64-bit Unix systems. -/
def lp64 : Abi where
  sizeof
    | .arithmetic a => lp64Arithmetic a
    | .complex a => 2 * lp64Arithmetic a
    | .bool => 1
    | .classPointer | .sel | .cString | .id | .voidPointer => 8
  alignof
    | .arithmetic a | .complex a => lp64Arithmetic a
    | .bool => 1
    | .classPointer | .sel | .cString | .id | .voidPointer => 8
  alignof_isAlignment τ := by
    cases τ with
    | arithmetic a | complex a => exact isAlignment_lp64Arithmetic a
    | bool => exact ⟨0, rfl⟩
    | _ => exact ⟨3, rfl⟩
  sizeMod := 2 ^ 64
  longMax := 2 ^ 63 - 1
  int_lt_sizeMod := by decide
  int_le_long := by decide

/-- `{S="p"^d"c"c"i"i"u"(U=i[4c])}`, in which every member stands where it should. -/
theorem computesLayout_of_placed_nested :
    ComputesLayout lp64 (.struct ⟨['S'], by simp⟩
      (.cons (some ⟨['p'], by simp⟩) (.pointer (.type (.arithmetic .double)))
        (.cons (some ⟨['c'], by simp⟩) (.arithmetic .signedChar)
          (.cons (some ⟨['i'], by simp⟩) (.arithmetic .int)
            (.last (some ⟨['u'], by simp⟩) (.union ⟨['U'], by simp⟩
              (.cons none (.arithmetic .int)
                (.last none (.array ⟨['4'], by simp, by simp [Char.isDigit]⟩
                  (.arithmetic .signedChar)))))))))) := by
  refine (computesLayout_of_placed lp64 _).2 ⟨trivial, .inr (by decide +kernel), trivial,
      .inl trivial, trivial,
    .inl trivial, ⟨⟨trivial, trivial, by decide +kernel, by decide +kernel⟩, by decide +kernel⟩,
    .inr (by decide +kernel)⟩ (by decide +kernel)

/-- `{S=c^ic}` takes 24 bytes, and `objc_sizeof_type` returns 16. -/
theorem size_misplaced :
    ¬∀ abi t, ComputesLayout abi t := by
  intro h
  have hsize := (h lp64 (.struct ⟨['S'], by simp⟩ (.cons none (.arithmetic .signedChar)
    (.cons none (.pointer (.type (.arithmetic .int))) (.last none (.arithmetic .signedChar)))))).1
  have hcode : objcSizeofType lp64 ['{', 'S', '=', 'c', '^', 'i', 'c', '}'] = some 16 := by decide +kernel
  exact absurd (hcode.symm.trans hsize) (by decide +kernel)

end Libobjc2.Encoding
