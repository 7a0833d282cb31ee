import Libobjc2.Common.Bytes
import Libobjc2.Common.Leb128

/-!
# `read_leb128` (`src/internal/exceptions/dwarf_eh.h`, lines 93–140)

The number is added up in 64 bits, but a digit is shifted to its place as an `int`. An operation whose
result C leaves open is `none`, as are an assertion that fails and a read where nothing can be read: a
shift by the width of its operand or more, and a shift of a signed number whose result is not in the type.
A shift of a negative number is the product, as the compilers define it.

Results:
* `readLeb128_groups`: what is read, for groups of any number and its place.
* `shiftsFit_iff`: the groups whose shifts are defined.
* `leb128_inverted_iff`: which encodings the two readers decode.
* `uleb128_overflows`: the encoding of `2 ^ 31`.
-/

namespace Libobjc2.Exceptions

open Libobjc2.Common

/-! ## Model -/

/-- `digit << bit`, an `int`. -/
def shiftDigit (digit bit : ℕ) : Option ℕ :=
  if bit < 32 ∧ digit * 2 ^ bit < 2 ^ 31 then some (digit * 2 ^ bit) else none

/-- The loop of `read_leb128`, with the number of digits that the assertion still allows. The results are
    the number, the value of `bit` and the position behind the number. -/
def readDigits (m : Bytes) : ℕ → ℕ → BitVec 64 → ℕ → Option (BitVec 64 × ℕ × ℕ)
  | 0, _, _, _ => none
  | left + 1, data, uleb, bit =>
    if bit < 64 then
      (m data).bind fun byte =>
        let digit := byte &&& 0x7f
        (shiftDigit digit.toNat bit).bind fun term =>
          let uleb := uleb + BitVec.ofNat 64 term
          if byte ≠ digit then readDigits m left (data + 1) uleb (bit + 7)
          else some (uleb, bit + 7, data + 1)
    else none

/-- `read_leb128`; `bit` is 70 after ten digits. -/
def readLeb128 (m : Bytes) (data : ℕ) : Option (BitVec 64 × ℕ × ℕ) := readDigits m 10 data 0 0

def readUleb128 (m : Bytes) (data : ℕ) : Option (BitVec 64 × ℕ) :=
  (readLeb128 m data).map fun (uleb, _, data) => (uleb, data)

/-- `((int64_t)-1) << bits`. -/
def shiftOnes (bits : ℕ) : Option (BitVec 64) :=
  if bits < 64 then some (BitVec.allOnes 64 <<< bits) else none

def readSleb128 (m : Bytes) (data : ℕ) : Option (BitVec 64 × ℕ) :=
  (readLeb128 m data).bind fun (uleb, bits, data) =>
    if bits - 1 < 64 then
      if uleb >>> (bits - 1) = 1 then (shiftOnes bits).map fun ones => (uleb ||| ones, data)
      else some (uleb, data)
    else none

/-! ## Specification -/

/-- The unsigned number is read from wherever its encoding is, whatever else the memory has. -/
def UlebInverted (v : BitVec 64) : Prop :=
  ∀ m data, HoldsAt m data (encodeUleb v.toNat) →
    readUleb128 m data = some (v, data + (encodeUleb v.toNat).length)

/-- The same for a signed number. -/
def SlebInverted (v : BitVec 64) : Prop :=
  ∀ m data, HoldsAt m data (encodeSleb v.toInt) →
    readSleb128 m data = some (v, data + (encodeSleb v.toInt).length)

/-! ## The loop -/

/-- Every digit can be shifted to its place. -/
def ShiftsFit : ℕ → List ℕ → Prop
  | _, [] => True
  | bit, d :: ds => (bit < 32 ∧ d * 2 ^ bit < 2 ^ 31) ∧ ShiftsFit (bit + 7) ds

instance ShiftsFit.decidable : ∀ (bit : ℕ) (ds : List ℕ), Decidable (ShiftsFit bit ds)
  | _, [] => isTrue trivial
  | bit, d :: ds =>
    have := ShiftsFit.decidable (bit + 7) ds
    inferInstanceAs (Decidable ((bit < 32 ∧ d * 2 ^ bit < 2 ^ 31) ∧ ShiftsFit (bit + 7) ds))

theorem digit_last {d : ℕ} (h : d < 128) : BitVec.ofNat 8 d &&& 0x7f = BitVec.ofNat 8 d := by
  apply BitVec.eq_of_toNat_eq
  rw [BitVec.toNat_and, BitVec.toNat_ofNat, Nat.mod_eq_of_lt (by omega)]
  exact (Nat.and_two_pow_sub_one_eq_mod d 7).trans (Nat.mod_eq_of_lt h)

theorem digit_continued {d : ℕ} (h : d < 128) : BitVec.ofNat 8 (d + 128) &&& 0x7f = BitVec.ofNat 8 d := by
  apply BitVec.eq_of_toNat_eq
  rw [BitVec.toNat_and, BitVec.toNat_ofNat, BitVec.toNat_ofNat, Nat.mod_eq_of_lt (by omega),
    Nat.mod_eq_of_lt (by omega)]
  refine (Nat.and_two_pow_sub_one_eq_mod (d + 128) 7).trans ?_
  omega

/-- The first digit and the ones behind it. -/
theorem ofDigits_cons_shifted (d : ℕ) (ds : List ℕ) (bit : ℕ) :
    Nat.ofDigits 128 (d :: ds) * 2 ^ bit = d * 2 ^ bit + Nat.ofDigits 128 ds * 2 ^ (bit + 7) := by
  rw [Nat.ofDigits_cons, pow_add]
  ring

/-- What is below a multiple of a place stays below it with a digit under that place. -/
theorem low_digit_lt {d rest bit k : ℕ} (hd : d < 128) (h : rest * 2 ^ (bit + 7) < k * 2 ^ (bit + 7)) :
    d * 2 ^ bit + rest * 2 ^ (bit + 7) < k * 2 ^ (bit + 7) := by
  have hroom : rest < k := Nat.lt_of_mul_lt_mul_right h
  have hlow : d * 2 ^ bit < 2 ^ (bit + 7) := by
    rw [pow_add, Nat.mul_comm (2 ^ bit)]
    exact Nat.mul_lt_mul_of_pos_right hd (Nat.two_pow_pos bit)
  calc d * 2 ^ bit + rest * 2 ^ (bit + 7) < 2 ^ (bit + 7) + rest * 2 ^ (bit + 7) :=
        Nat.add_lt_add_right hlow _
    _ = (rest + 1) * 2 ^ (bit + 7) := by ring
    _ ≤ k * 2 ^ (bit + 7) := Nat.mul_le_mul_right _ hroom

/-- One digit. -/
theorem readDigits_byte {m : Bytes} {byte : BitVec 8} {data d : ℕ} (hbyte : m data = some byte)
    (hdigit : byte &&& 0x7f = BitVec.ofNat 8 d) (hd : d < 128) (left : ℕ) (uleb : BitVec 64) (bit : ℕ) :
    readDigits m (left + 1) data uleb bit =
      if bit < 32 ∧ d * 2 ^ bit < 2 ^ 31 then
        if byte ≠ BitVec.ofNat 8 d then
          readDigits m left (data + 1) (uleb + BitVec.ofNat 64 (d * 2 ^ bit)) (bit + 7)
        else some (uleb + BitVec.ofNat 64 (d * 2 ^ bit), bit + 7, data + 1)
      else none := by
  have htoNat : (BitVec.ofNat 8 d).toNat = d := by
    rw [BitVec.toNat_ofNat]
    exact Nat.mod_eq_of_lt (by omega)
  rw [readDigits, hbyte, Option.bind_some, hdigit]
  dsimp only
  rw [htoNat]
  by_cases hfit : bit < 32 ∧ d * 2 ^ bit < 2 ^ 31
  · rw [shiftDigit, if_pos hfit, if_pos (by omega), if_pos hfit, Option.bind_some]
  · rw [shiftDigit, if_neg hfit, if_neg hfit, Option.bind_none]
    exact ite_self none

theorem readDigits_groups {m : Bytes} {ds : List ℕ} (hne : ds ≠ []) (hdigits : ∀ d ∈ ds, d < 128)
    {left data bit : ℕ} (h : HoldsAt m data (groups ds)) (hleft : bit + 7 * left = 70) (uleb : BitVec 64) :
    readDigits m left data uleb bit = if ShiftsFit bit ds then
      some (uleb + BitVec.ofNat 64 (Nat.ofDigits 128 ds * 2 ^ bit), bit + 7 * ds.length, data + ds.length)
    else none := by
  induction ds using groups.induct generalizing left data bit uleb with
  | case1 => exact absurd rfl hne
  | case2 d =>
    have hd : d < 128 := hdigits d (List.mem_singleton_self d)
    cases left with
    | zero => rw [readDigits, if_neg fun hfit => by have := hfit.1.1; omega]
    | succ left =>
      rw [readDigits_byte h.1 (digit_last hd) hd, if_neg (not_not_intro rfl), Nat.ofDigits_singleton]
      simp only [ShiftsFit, and_true]
      rfl
  | case3 d d' ds ih =>
    have hd : d < 128 := hdigits d List.mem_cons_self
    have hcontinued : BitVec.ofNat 8 (d + 128) ≠ BitVec.ofNat 8 d := fun heq => by
      have := congrArg BitVec.toNat heq
      simp only [BitVec.toNat_ofNat] at this
      omega
    cases left with
    | zero => rw [readDigits, if_neg fun hfit => by have := hfit.1.1; omega]
    | succ left =>
      have hrest := ih (List.cons_ne_nil _ _) (List.forall_mem_cons.mp hdigits).2 h.2
        (show bit + 7 + 7 * left = 70 by omega) (uleb + BitVec.ofNat 64 (d * 2 ^ bit))
      rw [readDigits_byte h.1 (digit_continued hd) hd, if_pos hcontinued, hrest, BitVec.add_assoc,
        ← BitVec.ofNat_add, ← ofDigits_cons_shifted]
      have hbits : bit + 7 + 7 * (d' :: ds).length = bit + 7 * (d :: d' :: ds).length := by
        simp only [List.length_cons]
        omega
      have hdata : data + 1 + (d' :: ds).length = data + (d :: d' :: ds).length := by
        simp only [List.length_cons]
        omega
      rw [hbits, hdata]
      by_cases hfit : bit < 32 ∧ d * 2 ^ bit < 2 ^ 31
      · have hiff : ShiftsFit bit (d :: d' :: ds) ↔ ShiftsFit (bit + 7) (d' :: ds) := by
          rw [ShiftsFit]
          exact and_iff_right hfit
        rw [if_pos hfit]
        exact if_congr hiff.symm rfl rfl
      · rw [if_neg hfit, if_neg fun h => hfit h.1]

/-- What is read where groups are. -/
theorem readLeb128_groups {m : Bytes} {ds : List ℕ} (hne : ds ≠ []) (hdigits : ∀ d ∈ ds, d < 128) {data : ℕ}
    (h : HoldsAt m data (groups ds)) :
    readLeb128 m data = if ShiftsFit 0 ds then
      some (BitVec.ofNat 64 (Nat.ofDigits 128 ds), 7 * ds.length, data + ds.length) else none := by
  rw [readLeb128, readDigits_groups hne hdigits h (by decide), pow_zero, Nat.mul_one, Nat.zero_add,
    show (0 : BitVec 64) = 0#64 from rfl, BitVec.zero_add]

/-- The groups of a number below `2 ^ 31`, with at most five digits, can be shifted to their places. -/
theorem shiftsFit_iff {ds : List ℕ} (hne : ds ≠ []) (hdigits : ∀ d ∈ ds, d < 128) (bit : ℕ) :
    ShiftsFit bit ds ↔ bit + 7 * (ds.length - 1) < 32 ∧ Nat.ofDigits 128 ds * 2 ^ bit < 2 ^ 31 := by
  induction ds using groups.induct generalizing bit with
  | case1 => exact absurd rfl hne
  | case2 d => simp [ShiftsFit]
  | case3 d d' ds ih =>
    have hd : d < 128 := hdigits d List.mem_cons_self
    have hlength : (d :: d' :: ds).length - 1 = (d' :: ds).length - 1 + 1 := rfl
    rw [ShiftsFit, ih (List.cons_ne_nil _ _) (List.forall_mem_cons.mp hdigits).2,
      ofDigits_cons_shifted d, hlength]
    generalize (d' :: ds).length - 1 = n, Nat.ofDigits 128 (d' :: ds) = rest
    constructor
    · rintro ⟨-, hplace, hrest⟩
      refine ⟨by omega, ?_⟩
      obtain ⟨k, hk⟩ : ∃ k, 2 ^ 31 = k * 2 ^ (bit + 7) := pow_dvd_pow 2 (by omega : bit + 7 ≤ 31) |>.imp
        fun k hk => hk.trans (Nat.mul_comm _ k)
      rw [hk] at hrest ⊢
      exact low_digit_lt hd hrest
    · rintro ⟨hplace, hsum⟩
      omega

/-! ## Unsigned numbers -/

theorem ulebDigits_fit (v : ℕ) : ShiftsFit 0 (ulebDigits v) ↔ v < 2 ^ 31 := by
  rw [shiftsFit_iff (ulebDigits_ne_nil v) (ulebDigits_lt v), ofDigits_ulebDigits, pow_zero, Nat.mul_one]
  refine and_iff_right_of_imp fun h => ?_
  have := length_ulebDigits_le (k := 4) (h.trans (by norm_num) : v < 128 ^ 5)
  omega

/-- **What `read_uleb128` reads.** -/
theorem readUleb128_encodeUleb {m : Bytes} {data v : ℕ} (h : HoldsAt m data (encodeUleb v)) :
    readUleb128 m data =
      if v < 2 ^ 31 then some (BitVec.ofNat 64 v, data + (encodeUleb v).length) else none := by
  rw [readUleb128, readLeb128_groups (ulebDigits_ne_nil v) (ulebDigits_lt v) h, ofDigits_ulebDigits,
    encodeUleb, length_groups, if_congr (ulebDigits_fit v) rfl rfl]
  split
  · rfl
  · rfl

theorem ulebInverted_iff (v : BitVec 64) : UlebInverted v ↔ v.toNat < 2 ^ 31 := by
  refine ⟨fun h => by_contra fun hge => ?_, fun hlt m data hm => ?_⟩
  · have hread := h _ 0 (holdsAt_placed 0 _)
    rw [readUleb128_encodeUleb (holdsAt_placed 0 _), if_neg hge] at hread
    cases hread
  · rw [readUleb128_encodeUleb hm, if_pos hlt, BitVec.ofNat_toNat, BitVec.setWidth_eq]

/-! ## Signed numbers -/

theorem slebDigits_fit (v : ℤ) : ShiftsFit 0 (slebDigits v) ↔ -2 ^ 27 ≤ v ∧ v < 2 ^ 31 := by
  rw [shiftsFit_iff (slebDigits_ne_nil v) (slebDigits_lt v), pow_zero, Nat.mul_one, Nat.zero_add]
  have hvalue := ofDigits_slebDigits v
  have hrange := slebDigits_range v
  have hpos := List.length_pos_iff.mpr (slebDigits_ne_nil v)
  generalize Nat.ofDigits 128 (slebDigits v) = w at hvalue ⊢
  constructor
  · rintro ⟨hplace, hw⟩
    generalize (slebDigits v).length = n at hvalue hrange hpos hplace
    have hn : n ≤ 5 := by omega
    interval_cases n <;> split at hvalue <;> omega
  · rintro ⟨hge, hlt⟩
    rcases lt_or_ge v 0 with hneg | hnonneg
    · have hn := length_slebDigits_le (k := 3) (v := v) (by omega)
      generalize (slebDigits v).length = n at hvalue hrange hpos hn ⊢
      rw [if_pos hneg] at hvalue
      interval_cases n <;> omega
    · have hn := length_slebDigits_le (k := 4) (v := v) (by omega)
      rw [if_neg (by omega)] at hvalue
      omega

/-- The bits in front of a negative number are set. -/
theorem or_shiftOnes {w bits : ℕ} (hw : w < 2 ^ bits) (hbits : bits < 64) :
    BitVec.ofNat 64 w ||| BitVec.allOnes 64 <<< bits = BitVec.ofInt 64 (w - 2 ^ bits) := by
  have hsplit : 2 ^ (64 - bits) * 2 ^ bits = 2 ^ 64 := by
    rw [← pow_add]
    congr 1
    omega
  have hlt : 2 ^ bits < 2 ^ 64 := Nat.pow_lt_pow_right (by decide) hbits
  have hones : (2 ^ 64 - 1) <<< bits % 2 ^ 64 = (2 ^ (64 - bits) - 1) <<< bits := by
    rw [Nat.shiftLeft_eq, Nat.shiftLeft_eq, Nat.sub_mul, Nat.sub_mul, hsplit, Nat.one_mul]
    have hpos := Nat.two_pow_pos bits
    generalize 2 ^ bits = p at hlt hpos ⊢
    omega
  apply BitVec.eq_of_toNat_eq
  rw [BitVec.toNat_or, BitVec.toNat_shiftLeft, BitVec.toNat_allOnes, hones, BitVec.toNat_ofNat,
    Nat.mod_eq_of_lt (hw.trans hlt), Nat.or_comm, ← Nat.shiftLeft_add_eq_or_of_lt hw, Nat.shiftLeft_eq,
    Nat.sub_mul, hsplit, BitVec.toNat_ofInt]
  have hcast : ((2 ^ bits : ℕ) : ℤ) = 2 ^ bits := by push_cast; rfl
  rw [← hcast]
  generalize 2 ^ bits = p at hw hlt ⊢
  omega

/-- The bit that is looked at is the sign. -/
theorem signBit_iff {w bits : ℕ} (hw : w < 2 ^ (bits + 1)) (hbits : bits < 63) :
    BitVec.ofNat 64 w >>> bits = 1 ↔ 2 ^ bits ≤ w := by
  have hlt : 2 ^ (bits + 1) < 2 ^ 64 := Nat.pow_lt_pow_right (by decide) (by omega)
  rw [← BitVec.toNat_inj, BitVec.toNat_ushiftRight, BitVec.toNat_ofNat, Nat.mod_eq_of_lt (hw.trans hlt),
    Nat.shiftRight_eq_div_pow]
  have hdiv : w / 2 ^ bits < 2 := Nat.div_lt_of_lt_mul (by rwa [← pow_succ])
  have hpos : 1 ≤ w / 2 ^ bits ↔ 2 ^ bits ≤ w := by
    rw [Nat.one_le_div_iff (Nat.two_pow_pos bits)]
  rw [← hpos]
  change w / 2 ^ bits = 1 ↔ _
  omega

/-- **What `read_sleb128` reads.** -/
theorem readSleb128_encodeSleb {m : Bytes} {data : ℕ} {v : ℤ} (h : HoldsAt m data (encodeSleb v)) :
    readSleb128 m data =
      if -2 ^ 27 ≤ v ∧ v < 2 ^ 31 then some (BitVec.ofInt 64 v, data + (encodeSleb v).length) else none := by
  rw [readSleb128, readLeb128_groups (slebDigits_ne_nil v) (slebDigits_lt v) h, encodeSleb, length_groups,
    if_congr (slebDigits_fit v) rfl rfl]
  split
  · next hfit =>
    have hplace := ((shiftsFit_iff (slebDigits_ne_nil v) (slebDigits_lt v) 0).mp
        ((slebDigits_fit v).mpr hfit)).1
    have hvalue := ofDigits_slebDigits v
    have hrange := slebDigits_range v
    have hpos := List.length_pos_iff.mpr (slebDigits_ne_nil v)
    generalize Nat.ofDigits 128 (slebDigits v) = w at hvalue ⊢
    generalize (slebDigits v).length = n at hvalue hrange hpos hplace ⊢
    obtain ⟨bits, hbits⟩ : ∃ bits, 7 * n = bits + 1 := ⟨7 * n - 1, by omega⟩
    have hpow : (128 : ℤ) ^ n = 2 * 2 ^ bits := by
      rw [show (128 : ℤ) = 2 ^ 7 by norm_num, ← pow_mul, hbits, pow_succ, mul_comm]
    have hcast : ((2 ^ bits : ℕ) : ℤ) = 2 ^ bits := by push_cast; rfl
    rw [hpow, ← hcast] at hrange hvalue
    have hw : w < 2 ^ (bits + 1) := by
      rw [pow_succ]
      split at hvalue <;> omega
    rw [Option.bind_some, hbits]
    dsimp only
    rw [Nat.add_sub_cancel, if_pos (by omega), if_congr (signBit_iff hw (by omega)) rfl rfl]
    rcases lt_or_ge v 0 with hneg | hnonneg
    · rw [if_pos hneg] at hvalue
      rw [if_pos (by omega), shiftOnes, if_pos (by omega), Option.map_some,
        or_shiftOnes hw (by omega), pow_succ,
        ← hcast]
      congr 3
      omega
    · rw [if_neg (by omega)] at hvalue
      rw [if_neg (by omega), ← hvalue, BitVec.ofInt_natCast]
  · rfl

theorem slebInverted_iff (v : BitVec 64) : SlebInverted v ↔ -2 ^ 27 ≤ v.toInt ∧ v.toInt < 2 ^ 31 := by
  refine ⟨fun h => by_contra fun hout => ?_, fun hin m data hm => ?_⟩
  · have hread := h _ 0 (holdsAt_placed 0 _)
    rw [readSleb128_encodeSleb (holdsAt_placed 0 _), if_neg hout] at hread
    cases hread
  · rw [readSleb128_encodeSleb hm, if_pos hin, BitVec.ofInt_toInt]

/-- **The readers decode what was encoded exactly for these numbers**: below `2 ^ 31` in both cases, and from
    `-2 ^ 27` on. -/
theorem leb128_inverted_iff (v : BitVec 64) : (UlebInverted v ↔ v.toNat < 2 ^ 31) ∧
    (SlebInverted v ↔ -2 ^ 27 ≤ v.toInt ∧ v.toInt < 2 ^ 31) :=
  ⟨ulebInverted_iff v, slebInverted_iff v⟩

/-- The fifth digit of `2 ^ 31` is shifted out of the range of `int`. -/
theorem uleb128_overflows : ¬ ∀ v : BitVec 64, UlebInverted v := by
  intro h
  have hread := h 0x80000000#64 (placed 0 [0x80, 0x80, 0x80, 0x80, 0x08]) 0
      (by simp [encodeUleb, ulebDigits, groups, HoldsAt, placed])
  have hnone : readUleb128 (placed 0 [0x80, 0x80, 0x80, 0x80, 0x08]) 0 = none := by decide
  rw [hnone] at hread
  cases hread

end Libobjc2.Exceptions
