import Libobjc2.Encoding.ExtendedParser
import Libobjc2.Encoding.ParserBounds
import Libobjc2.Properties.LegacyProperties

/-!
# The types in a method signature

How `encoding2.c` (lines 35–80 and 446–511) splits the signature of a method: each type is followed by
its frame offset. `abort()` is `none`, and so is a failed allocation; an index is below `UINT_MAX`.

Results:
* `objcSkipTypespec_simple`: a type is skipped up to its end, where the block signatures in it are simple.
* `objcSkipTypespec_overlooked`: a block whose signature is not simple is not.
* `splits_exactly`: the signatures that are split into their types.
-/

namespace Libobjc2.Encoding

open Libobjc2.Properties

/-! ## Model -/

section

variable (abi : Abi)

/-- `objc_skip_typespec` (lines 35–40). -/
def objcSkipTypespec (type : List Char) : Option (List Char) := position (sizeofType abi type.length type 0)

/-- `objc_skip_argspec` (lines 42–48). -/
def objcSkipArgspec (type : List Char) : Option (List Char) :=
  (objcSkipTypespec abi type).map fun type => type.dropWhile Char.isDigit

/-- `copyTypeEncoding` (lines 58–65). -/
def copyTypeEncoding (types : List Char) : Option (List Char) :=
  (lengthOfTypeEncoding abi (some types)).map fun length => types.take length

/-- The loop of `findParameterStart`, which goes around `n` more times. The inner `none` is NULL. -/
def skipParameters : ℕ → List Char → Option (Option (List Char))
  | 0, types => some (some types)
  | n + 1, types =>
    (objcSkipArgspec abi types).bind fun types =>
      if types.isEmpty then some none else skipParameters n types

/-- `findParameterStart` (lines 67–80). The bound is inclusive, for the return type. -/
def findParameterStart (types : List Char) (index : ℕ) : Option (Option (List Char)) :=
  skipParameters abi (index + 1) types

/-- The loop of `method_getNumberOfArguments`. -/
def countSpecs : ℕ → List Char → Option ℕ
  | _, [] => some 0
  | 0, _ :: _ => none
  | fuel + 1, types => (objcSkipArgspec abi types).bind fun types => (countSpecs fuel types).map (· + 1)

/-- `method_getNumberOfArguments` (lines 471–483), an `unsigned int`. -/
def methodGetNumberOfArguments (types : List Char) : Option ℕ :=
  (countSpecs abi types.length types).map fun count => (count + (2 ^ 32 - 1)) % 2 ^ 32

/-- `method_copyArgumentType` (lines 491–501). -/
def methodCopyArgumentType (types : List Char) (index : ℕ) : Option (Option (List Char)) :=
  (findParameterStart abi types index).bind fun start =>
    match start with
    | none => some none
    | some types => (copyTypeEncoding abi types).map some

/-- `method_copyReturnType` (lines 503–508). -/
def methodCopyReturnType (types : List Char) : Option (List Char) := copyTypeEncoding abi types

end

/-! ## Signatures -/

/-- A type with its frame offset. -/
structure Spec where
  type : Referent
  offset : Numeral

def Spec.encode (s : Spec) : List Char := s.type.encode ++ s.offset.digits

/-- The specs, one behind the other: the return type first. -/
def encodeSpecs (specs : List Spec) : List Char := specs.flatMap Spec.encode

/-- The signature is split into its types. -/
structure SplitsExactly (abi : Abi) (result : Spec) (args : List Spec) : Prop where
  count : methodGetNumberOfArguments abi (encodeSpecs (result :: args)) = some args.length
  arg : ∀ i (hi : i < args.length),
    methodCopyArgumentType abi (encodeSpecs (result :: args)) i = some (some args[i].type.encode)
  last : ∀ i, args.length ≤ i → methodCopyArgumentType abi (encodeSpecs (result :: args)) i = some none
  result : methodCopyReturnType abi (encodeSpecs (result :: args)) = some result.type.encode

mutual

/-- A block whose signature is not simple, a pointer to one or an array of them. -/
def ExtendedType.Overlooked : ExtendedType → Prop
  | .qualified _ t => t.Overlooked
  | .object (.signed signature) => '>' ∈ signature
  | .pointer referent => referent.Overlooked
  | .array _ element => element.Overlooked
  | _ => False

def Referent.Overlooked : Referent → Prop
  | .qualified _ r => r.Overlooked
  | .type t => t.Overlooked
  | _ => False

end

variable {abi : Abi}

/-! ## One type -/

theorem skipQuoted_digit {c : Char} (h : c.isDigit = true) (rest : List Char) :
    skipQuoted (c :: rest) = c :: rest := by
  refine skipQuoted_cons ?_ rest
  rintro rfl
  exact absurd h (by decide)

theorem Piece.after_digit (p : Piece) {c : Char} (h : c.isDigit = true) (rest : List Char) :
    p.after (c :: rest) = c :: rest := by
  rw [Piece.after, skipQuoted_digit h, ite_self]

/-- In front of a frame offset, a type is skipped up to its end. -/
theorem objcSkipTypespec_simple {r : Referent} (hs : r.Simple) (n : Numeral) (rest : List Char) :
    objcSkipTypespec abi (r.encode ++ (n.digits ++ rest)) = some (n.digits ++ rest) := by
  obtain ⟨d, ds, hn, hd⟩ := n.exists_cons
  have hlen : r.encode.length ≤ (r.encode ++ (n.digits ++ rest)).length := by simp
  rw [hn, List.cons_append] at hlen ⊢
  have hr := sizeofType_referent abi r hs _ hlen _ (follows_of_digit hd (ds ++ rest)) 0
  rw [Piece.after_digit _ hd] at hr
  have hr : sizeofType abi (r.encode ++ d :: (ds ++ rest)).length (r.encode ++ d :: (ds ++ rest)) 0 = _ := hr
  rw [objcSkipTypespec, hr]
  rfl

/-- Behind a type stands what is left of the string. -/
theorem objcSkipTypespec_leftOf {type rest : List Char} (h : objcSkipTypespec abi type = some rest) :
    LeftOf rest type := by
  have hpos := sizeofType_end abi type.length type 0
  have hpos : objcSkipTypespec abi type = (sizeofEnd abi type.length type).toOption := hpos
  rw [h] at hpos
  cases hrun : sizeofEnd abi type.length type with
  | error e =>
    rw [hrun] at hpos
    cases hpos
  | ok r =>
    rw [hrun] at hpos
    obtain rfl := Option.some.inj hpos
    exact ((scan_explained abi .size type.length).reads type _ hrun).leftOf

/-- A text with a bracket in it is skipped up to the first one. -/
theorem skipPast_mem {c : Char} : ∀ {l : List Char}, c ∈ l → ∀ rest,
    ∃ l', skipPast c (l ++ c :: rest) = some (l' ++ c :: rest)
  | [], h, _ => absurd h List.not_mem_nil
  | a :: l, h, rest => by
    rw [List.cons_append, skipPast]
    by_cases ha : a = c
    · rw [if_pos ha]
      exact ⟨l, rfl⟩
    · rw [if_neg ha]
      exact skipPast_mem ((List.mem_cons.mp h).resolve_left fun heq => ha heq.symm) rest

mutual

theorem sizeofType_overlooked (abi : Abi) : ∀ (t : ExtendedType), t.Overlooked →
    ∀ fuel, t.encode.length ≤ fuel →
    ∀ rest size, ∃ l c size', (c = '>' ∨ c = ']') ∧
      sizeofType abi fuel (t.encode ++ rest) size = some (l ++ c :: rest, size')
  | .qualified q t, ho, fuel + 1, h, rest, size => by
    obtain ⟨l, c, size', hc, ht⟩ := sizeofType_overlooked abi t ho (fuel + 1) (by
      rw [ExtendedType.encode, List.length_cons] at h
      omega) rest size
    rw [← sizeofType_qualified abi q] at ht
    exact ⟨l, c, size', hc, ht⟩
  | .object (.signed signature), ho, fuel + 1, _, rest, size => by
    obtain ⟨l, hskip⟩ := skipPast_mem ho rest
    have hcase : sizeofType abi (fuel + 1) ('@' :: '?' :: '<' :: (signature ++ '>' :: rest)) size =
        (skipPast '>' (signature ++ '>' :: rest)).bind fun rest => some (rest, abi.addType .id size) := rfl
    rw [hskip] at hcase
    refine ⟨l, '>', abi.addType .id size, .inl rfl, ?_⟩
    rw [ExtendedType.encode, ExtendedObject.encode, ExtendedObject.extension]
    simpa using hcase
  | .pointer r, ho, fuel + 1, h, rest, size => by
    obtain ⟨l, c, size', hc, hr⟩ := sizeofType_overlookedReferent abi r ho fuel (by
      rw [ExtendedType.encode, List.length_cons] at h
      omega) rest 0
    have hcase : sizeofType abi (fuel + 1) ('^' :: (r.encode ++ rest)) size =
        (sizeofType abi fuel (r.encode ++ rest) 0).bind
          fun x => some (x.1, (size + abi.sizeof .voidPointer * 8) % abi.sizeMod) := rfl
    rw [hr] at hcase
    exact ⟨l, c, _, hc, hcase⟩
  | .array count t, ho, fuel + 1, h, rest, size => by
    obtain ⟨l, c, size', hc, ht⟩ := sizeofType_overlooked abi t ho fuel (by
      simp only [ExtendedType.encode, List.length_cons, List.length_append] at h
      omega) (']' :: rest) 0
    have hnumeral := strtol_numeral abi count (t.starts.follows (']' :: rest)).2
    have hnumeral : strtol abi (count.digits ++ (t.encode ++ ']' :: rest)) =
        (min (count.value : ℤ) abi.longMax, t.encode ++ ']' :: rest) := hnumeral
    have hcase (cs : List Char) : sizeofType abi (fuel + 1) ('[' :: cs) size =
        (parseArray (sizeofType abi fuel) abi cs 0).bind fun r =>
          some (r.2.1, (size + r.2.2 * abi.toSize r.1 % abi.sizeMod) % abi.sizeMod) := rfl
    rw [ExtendedType.encode, List.cons_append, List.append_assoc, List.append_assoc,
      List.singleton_append, hcase,
      parseArray, hnumeral]
    let size'' := (size + size' * abi.toSize (toInt (min (count.value : ℤ) abi.longMax)) %
        abi.sizeMod) % abi.sizeMod
    -- the character in front of which the element ends is taken for the bracket
    cases l with
    | nil =>
      refine ⟨[], ']', size'', .inr rfl, ?_⟩
      dsimp only
      rw [ht]
      rfl
    | cons a l =>
      refine ⟨l ++ [c], ']', size'', .inr rfl, ?_⟩
      dsimp only
      rw [ht, List.append_assoc]
      rfl
  | .qualified q t, _, 0, h, _, _ => absurd (ExtendedType.qualified q t).length_pos (by omega)
  | .array count t, _, 0, h, _, _ => absurd (ExtendedType.array count t).length_pos (by omega)
  | .object (.signed s), _, 0, h, _, _ => absurd (ExtendedType.object (.signed s)).length_pos (by omega)
  | .pointer r, _, 0, h, _, _ => absurd (ExtendedType.pointer r).length_pos (by omega)

theorem sizeofType_overlookedReferent (abi : Abi) : ∀ (r : Referent), r.Overlooked →
    ∀ fuel, r.encode.length ≤ fuel →
    ∀ rest size, ∃ l c size', (c = '>' ∨ c = ']') ∧
      sizeofType abi fuel (r.encode ++ rest) size = some (l ++ c :: rest, size')
  | .qualified q r, ho, fuel + 1, h, rest, size => by
    obtain ⟨l, c, size', hc, hr⟩ := sizeofType_overlookedReferent abi r ho (fuel + 1) (by
      rw [Referent.encode, List.length_cons] at h
      omega) rest size
    rw [← sizeofType_qualified abi q] at hr
    exact ⟨l, c, size', hc, hr⟩
  | .type t, ho, fuel, h, rest, size => sizeofType_overlooked abi t ho fuel h rest size
  | .qualified q r, _, 0, h, _, _ => absurd (Referent.qualified q r).length_pos (by omega)

end

/-- A block whose signature is not simple is not skipped up to its end. -/
theorem objcSkipTypespec_overlooked {r : Referent} (ho : r.Overlooked) (rest : List Char) :
    ∃ l c, (c = '>' ∨ c = ']') ∧ objcSkipTypespec abi (r.encode ++ rest) = some (l ++ c :: rest) := by
  obtain ⟨l, c, size', hc, hr⟩ := sizeofType_overlookedReferent abi r ho (r.encode ++ rest).length
    (by simp) rest 0
  refine ⟨l, c, hc, ?_⟩
  rw [objcSkipTypespec, hr]
  rfl

/-! ## The types of a signature -/

theorem Referent.exists_head (r : Referent) : ∃ c cs, r.encode = c :: cs ∧ c.isDigit = false := by
  cases r with
  | qualified q r => exact ⟨q.encodingChar, r.encode, rfl, by cases q <;> decide⟩
  | void => exact ⟨'v', [], rfl, by decide⟩
  | function => exact ⟨'?', [], rfl, by decide⟩
  | opaqueStruct name => exact ⟨'{', _, rfl, by decide⟩
  | opaqueUnion name => exact ⟨'(', _, rfl, by decide⟩
  | type t =>
    obtain ⟨c, hc, cs, ht⟩ := t.starts
    exact ⟨c, cs, ht, (fieldStarters_ne hc).2.2.2⟩

theorem encodeSpecs_cons (s : Spec) (specs : List Spec) :
    encodeSpecs (s :: specs) = s.type.encode ++ (s.offset.digits ++ encodeSpecs specs) := by
  rw [encodeSpecs, List.flatMap_cons, Spec.encode, List.append_assoc]
  rfl

theorem encodeSpecs_head (specs : List Spec) : ∀ c ∈ (encodeSpecs specs).head?, c.isDigit = false := by
  intro c hc
  cases specs with
  | nil => cases hc
  | cons s specs =>
    obtain ⟨d, ds, hs, hd⟩ := s.type.exists_head
    rw [encodeSpecs_cons, hs, List.cons_append, List.head?_cons, Option.mem_def, Option.some.injEq] at hc
    rw [← hc, hd]

theorem encodeSpecs_ne_nil (s : Spec) (specs : List Spec) : encodeSpecs (s :: specs) ≠ [] := by
  obtain ⟨d, ds, hs, -⟩ := s.type.exists_head
  rw [encodeSpecs_cons, hs]
  exact List.cons_ne_nil _ _

/-- The type is skipped up to its end. -/
def Skips (abi : Abi) (s : Spec) (rest : List Char) : Prop :=
  objcSkipTypespec abi (s.type.encode ++ (s.offset.digits ++ rest)) = some (s.offset.digits ++ rest)

/-- All types are. -/
def SkipsAll (abi : Abi) : List Spec → Prop
  | [] => True
  | s :: specs => Skips abi s (encodeSpecs specs) ∧ SkipsAll abi specs

theorem Skips.argspec {s : Spec} {specs : List Spec} (h : Skips abi s (encodeSpecs specs)) :
    objcSkipArgspec abi (encodeSpecs (s :: specs)) = some (encodeSpecs specs) := by
  have hdrop := (takeWhile_digits s.offset.isDigit (encodeSpecs_head specs)).2
  rw [objcSkipArgspec, encodeSpecs_cons, h, Option.map_some, hdrop]

/-- The length of a type is how far `objc_skip_typespec` goes. -/
theorem lengthOfTypeEncoding_eq {types : List Char} (h : types ≠ []) :
    lengthOfTypeEncoding abi (some types) =
      (objcSkipTypespec abi types).map fun rest => types.length - rest.length := by
  obtain ⟨c, cs, rfl⟩ := List.exists_cons_of_ne_nil h
  rw [objcSkipTypespec, position, Option.map_map]
  rfl

/-- The text of a type is copied exactly where the type is skipped up to its end. -/
theorem copyTypeEncoding_eq_iff {t rest : List Char} (ht : t ≠ []) :
    copyTypeEncoding abi (t ++ rest) = some t ↔ objcSkipTypespec abi (t ++ rest) = some rest := by
  rw [copyTypeEncoding, lengthOfTypeEncoding_eq (List.append_ne_nil_of_left_ne_nil ht rest), Option.map_map]
  cases hskip : objcSkipTypespec abi (t ++ rest) with
  | none => exact iff_of_false (fun h => (nomatch h)) fun h => (nomatch h)
  | some r =>
    obtain ⟨pre, hpre⟩ := (objcSkipTypespec_leftOf hskip).1
    have htake : (t ++ rest).take ((t ++ rest).length - r.length) = pre := by
      rw [← hpre, List.length_append, Nat.add_sub_cancel, List.take_left]
    rw [Option.map_some, Option.some.injEq, Option.some.injEq, Function.comp_apply, htake]
    constructor
    · rintro rfl
      exact List.append_cancel_left hpre
    · rintro rfl
      exact List.append_cancel_right hpre

/-- The type that is copied from behind `n` specs. -/
def copyAt (abi : Abi) (n : ℕ) (types : List Char) : Option (Option (List Char)) :=
  (skipParameters abi n types).bind fun start =>
    match start with
    | none => some none
    | some types => (copyTypeEncoding abi types).map some

theorem methodCopyReturnType_iff {types t : List Char} :
    methodCopyReturnType abi types = some t ↔ copyAt abi 0 types = some (some t) := by
  have hzero : copyAt abi 0 types = (copyTypeEncoding abi types).map some := rfl
  rw [methodCopyReturnType, hzero]
  cases copyTypeEncoding abi types with
  | none => exact iff_of_false (fun h => (nomatch h)) fun h => (nomatch h)
  | some u => simp

theorem copyAt_succ {s : Spec} {specs : List Spec} (h : Skips abi s (encodeSpecs specs)) (n : ℕ) :
    copyAt abi (n + 1) (encodeSpecs (s :: specs)) =
      if (encodeSpecs specs).isEmpty then some none else copyAt abi n (encodeSpecs specs) := by
  rw [copyAt, skipParameters, h.argspec, Option.bind_some]
  split <;> rfl

theorem copyAt_zero_iff {s : Spec} {specs : List Spec} :
    copyAt abi 0 (encodeSpecs (s :: specs)) = some (some s.type.encode) ↔
    Skips abi s (encodeSpecs specs) := by
  have hne : s.type.encode ≠ [] := List.ne_nil_of_length_pos s.type.length_pos
  rw [← methodCopyReturnType_iff, methodCopyReturnType, encodeSpecs_cons]
  exact copyTypeEncoding_eq_iff hne

theorem copyAt_iff : ∀ specs : List Spec,
    (∀ i (hi : i < specs.length), copyAt abi i (encodeSpecs specs) = some (some specs[i].type.encode)) ↔
      SkipsAll abi specs
  | [] => iff_of_true (fun i hi => absurd hi (Nat.not_lt_zero i)) trivial
  | s :: specs => by
    have hempty : ∀ i, i < specs.length → (encodeSpecs specs).isEmpty = false := by
      intro i hi
      cases specs with
      | nil => exact absurd hi (Nat.not_lt_zero i)
      | cons s' specs => exact List.isEmpty_eq_false_iff.mpr (encodeSpecs_ne_nil s' specs)
    rw [SkipsAll, ← copyAt_iff specs]
    constructor
    · intro h
      have hskip := copyAt_zero_iff.mp (h 0 (Nat.zero_lt_succ _))
      refine ⟨hskip, fun i hi => ?_⟩
      have hsucc := h (i + 1) (Nat.succ_lt_succ hi)
      rw [copyAt_succ hskip, hempty i hi, if_neg Bool.false_ne_true] at hsucc
      exact hsucc
    · intro h i hi
      cases i with
      | zero => exact copyAt_zero_iff.mpr h.1
      | succ i =>
        have hi : i < specs.length := Nat.lt_of_succ_lt_succ hi
        rw [copyAt_succ h.1, hempty i hi, if_neg Bool.false_ne_true]
        exact h.2 i hi

theorem SkipsAll.last : ∀ {specs : List Spec}, SkipsAll abi specs → specs ≠ [] → ∀ i, specs.length ≤ i →
    copyAt abi i (encodeSpecs specs) = some none
  | [], _, hne, _, _ => absurd rfl hne
  | [s], h, _, i, hi => by
    obtain ⟨i, rfl⟩ := Nat.exists_eq_succ_of_ne_zero (by simp at hi; omega : i ≠ 0)
    rw [copyAt_succ h.1]
    rfl
  | s :: s' :: specs, h, _, i, hi => by
    have hi : specs.length + 1 + 1 ≤ i := hi
    obtain ⟨i, rfl⟩ := Nat.exists_eq_succ_of_ne_zero (by omega : i ≠ 0)
    rw [copyAt_succ h.1, List.isEmpty_eq_false_iff.mpr (encodeSpecs_ne_nil s' specs),
      if_neg Bool.false_ne_true]
    exact h.2.last (List.cons_ne_nil _ _) i (Nat.le_of_succ_le_succ hi)

theorem SkipsAll.count : ∀ {specs : List Spec}, SkipsAll abi specs → ∀ fuel, specs.length ≤ fuel →
    countSpecs abi fuel (encodeSpecs specs) = some specs.length
  | [], _, fuel, _ => by
    rw [encodeSpecs, List.flatMap_nil]
    cases fuel <;> rfl
  | s :: specs, h, 0, hfuel => absurd hfuel (Nat.not_succ_le_zero _)
  | s :: specs, h, fuel + 1, hfuel => by
    obtain ⟨c, cs, hcs⟩ := List.exists_cons_of_ne_nil (encodeSpecs_ne_nil s specs)
    have hstep : countSpecs abi (fuel + 1) (encodeSpecs (s :: specs)) =
        (objcSkipArgspec abi (encodeSpecs (s :: specs))).bind fun types =>
          (countSpecs abi fuel types).map (· + 1) := by
      rw [hcs]
      rfl
    rw [hstep, h.1.argspec, Option.bind_some, h.2.count fuel (Nat.le_of_succ_le_succ hfuel)]
    rfl

theorem length_le_encodeSpecs : ∀ specs : List Spec, specs.length ≤ (encodeSpecs specs).length
  | [] => Nat.le_refl 0
  | s :: specs => by
    have hrest := length_le_encodeSpecs specs
    have hs := s.type.length_pos
    rw [encodeSpecs_cons, List.length_append, List.length_append, List.length_cons]
    omega

/-- A signature is split into its types where each of them is skipped up to its end. -/
theorem splitsExactly_iff {result : Spec} {args : List Spec} (hcount : args.length < 2 ^ 32) :
    SplitsExactly abi result args ↔ SkipsAll abi (result :: args) := by
  constructor
  · intro h
    refine (copyAt_iff (result :: args)).mp fun i hi => ?_
    cases i with
    | zero => exact methodCopyReturnType_iff.mp h.result
    | succ i => exact h.arg i (Nat.lt_of_succ_lt_succ hi)
  · intro h
    have hcopy := (copyAt_iff (result :: args)).mpr h
    refine ⟨?_, fun i hi => hcopy (i + 1) (Nat.succ_lt_succ hi),
      fun i hi => h.last (List.cons_ne_nil _ _) (i + 1) (Nat.succ_le_succ hi),
      methodCopyReturnType_iff.mpr (hcopy 0 (Nat.zero_lt_succ _))⟩
    have hmod : (args.length + 1 + (2 ^ 32 - 1)) % 2 ^ 32 = args.length := by omega
    rw [methodGetNumberOfArguments, h.count _ (length_le_encodeSpecs _), Option.map_some,
      List.length_cons, hmod]

theorem skipsAll_of_simple : ∀ {specs : List Spec}, (∀ s ∈ specs, s.type.Simple) → SkipsAll abi specs
  | [], _ => trivial
  | s :: _, h =>
    ⟨objcSkipTypespec_simple (h s List.mem_cons_self) s.offset _,
      skipsAll_of_simple fun s' hs' => h s' (List.mem_cons_of_mem s hs')⟩

theorem SkipsAll.not_overlooked : ∀ {specs : List Spec}, SkipsAll abi specs → ∀ s ∈ specs, ¬ s.type.Overlooked
  | [], _, _, hs => absurd hs List.not_mem_nil
  | s :: _, h, s', hs' => by
    rcases List.mem_cons.mp hs' with rfl | hs'
    · intro ho
      obtain ⟨l, c, -, hskip⟩ := objcSkipTypespec_overlooked ho (s'.offset.digits ++ encodeSpecs _)
      have hlen := congrArg List.length (Option.some.inj (hskip.symm.trans h.1))
      rw [List.length_append, List.length_cons] at hlen
      omega
    · exact h.2.not_overlooked s' hs'

/-- **Signatures.** A signature with fewer than `2 ^ 32` arguments is split into its types where no block
    signature in them contains a `>`, and it is not where one of the types is such a block, a pointer
    to one or an array of them. -/
theorem splits_exactly (abi : Abi) (result : Spec) (args : List Spec) (hcount : args.length < 2 ^ 32) :
    ((∀ s ∈ result :: args, s.type.Simple) → SplitsExactly abi result args) ∧
      ((∃ s ∈ result :: args, s.type.Overlooked) → ¬ SplitsExactly abi result args) := by
  rw [splitsExactly_iff hcount]
  refine ⟨skipsAll_of_simple, fun h hall => ?_⟩
  obtain ⟨s, hs, ho⟩ := h
  exact hall.not_overlooked s hs ho

/-- The frame offset 0. -/
def zeroOffset : Numeral := ⟨['0'], by simp, by simp⟩

/-- `r^{S="a"@"b"[4b0i3]}0@"Class"0@?<v@?>0`. -/
theorem splits_exactly_three : SplitsExactly lp64
    ⟨.qualified .const (.type (.pointer (.type (.struct ⟨['S'], by simp⟩
      (.cons (some ⟨['a'], by simp⟩) (.type (.object .any))
        (.cons (some ⟨['b'], by simp⟩) (.type (.array zeroOffset (.primitive (.arithmetic .int))))
          (.cons none (.bitfield zeroOffset (.arithmetic .int) zeroOffset) .nil))))))), zeroOffset⟩
    [⟨.type (.object (.named ⟨['C'], by simp⟩)), zeroOffset⟩,
      ⟨.type (.object (.signed ['v', '@', '?'])), zeroOffset⟩] := by
  refine (splits_exactly lp64 _ _ (by decide)).1 fun s hs => ?_
  rcases List.mem_cons.mp hs with rfl | hs
  · exact ⟨trivial, trivial, trivial, trivial⟩
  rcases List.mem_cons.mp hs with rfl | hs
  · trivial
  rcases List.mem_cons.mp hs with rfl | hs
  · have hmem : '>' ∉ ['v', '@', '?'] := by decide
    exact hmem
  · cases hs

/-- `v0@?<v@?<v>>0`: the type of the argument is cut off behind its first `>`. -/
theorem splits_inexactly : ∃ result args, ¬ SplitsExactly lp64 result args ∧
    methodCopyArgumentType lp64 (encodeSpecs (result :: args)) 0 = some (some "@?<v@?<v>".toList) ∧
    methodGetNumberOfArguments lp64 (encodeSpecs (result :: args)) = none := by
  refine ⟨⟨.void, zeroOffset⟩, [⟨.type (.object (.signed "v@?<v>".toList)), zeroOffset⟩], fun h => ?_,
    by decide +kernel, by decide +kernel⟩
  have hcount := h.count
  rw [show methodGetNumberOfArguments lp64 _ = none by decide +kernel] at hcount
  cases hcount

end Libobjc2.Encoding
