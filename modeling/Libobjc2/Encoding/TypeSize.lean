import Mathlib.Algebra.Group.Nat.Defs
import Mathlib.Algebra.Ring.Int.Defs
import Libobjc2.Common.Alignment

/-!
# Sizes of encoded types

Model of `sizeof_type`, `sizeof_union_field` and `alignof_type` in
`encoding/encoding2.c` (lines 18–396) with the parsers they share, and of the
table in `encoding/type_encoding_cases.h`.

A type encoding is the list of its characters, without the terminator. A
`const char*` that has moved forward is the rest of that list. Reading past
the terminator, `abort()` and an exhausted recursion are `none`; the recursion
over types is bounded by the length of the encoding, which is always enough
(`Libobjc2.Encoding.objcAlignofType_encode` and `objcSizeofType_encode`).

The sizes and alignments that the compiler gives to the C types, `SIZE_MAX` and
`LONG_MAX` are a parameter; `int` has 32 bits.
-/

namespace Libobjc2.Encoding

open Libobjc2.Alignment

/-! ## The platform -/

/-- The arithmetic types of the table, which are also the ones with a complex variant. -/
inductive ArithmeticType
  | longDouble
  | double
  | float
  | signedChar
  | int
  | short
  | long
  | longLong
  | unsignedChar
  | unsignedShort
  | unsignedInt
  | unsignedLong
  | unsignedLongLong
  deriving DecidableEq, Repr

/-- The C types whose size and alignment the compiler supplies. -/
inductive CType
  | arithmetic (a : ArithmeticType)
  | bool
  | classPointer
  | sel
  | cString
  | complex (a : ArithmeticType)
  | id
  | voidPointer
  deriving DecidableEq, Repr

/-- What the compiler decides: `sizeof`, the alignment of a member (the macro
of line 20) and the ranges of `size_t` and `long`. -/
structure Abi where
  sizeof : CType → ℕ
  alignof : CType → ℕ
  alignof_isAlignment : ∀ τ, IsAlignment (alignof τ)
  /-- `SIZE_MAX + 1`. -/
  sizeMod : ℕ
  longMax : ℕ
  int_lt_sizeMod : 2 ^ 31 ≤ sizeMod
  int_le_long : 2 ^ 31 ≤ longMax + 1

/-! ## Reading characters -/

/-- `objc_skip_type_qualifiers` (lines 23–31). -/
def objcSkipTypeQualifiers (type : List Char) : List Char :=
  type.dropWhile fun c => c ∈ ['r', 'n', 'N', 'o', 'O', 'R', 'V', 'A']

/-- Move to the next `endchar` and past it. -/
def skipPast (endchar : Char) : List Char → Option (List Char)
  | [] => none
  | c :: cs => if c = endchar then some cs else skipPast endchar cs

/-- The number that decimal digits spell. -/
def decimal (digits : List Char) : ℕ := digits.foldl (fun n c => 10 * n + (c.toNat - 48)) 0

/-- `isspace` in the C locale. -/
def isSpace (c : Char) : Bool := c ∈ [' ', '\t', '\n', '\x0b', '\x0c', '\r']

/-- `strtol` with base ten: spaces, a sign and digits, clamped to the range of
`long`; without digits nothing is consumed. -/
def strtol (abi : Abi) (s : List Char) : ℤ × List Char :=
  let unsigned (t : List Char) : Option (ℕ × List Char) :=
    if (t.takeWhile Char.isDigit).isEmpty then none
    else some (decimal (t.takeWhile Char.isDigit), t.dropWhile Char.isDigit)
  match s.dropWhile isSpace with
  | '-' :: t => ((unsigned t).map fun (n, r) => (max (-(n : ℤ)) (-abi.longMax - 1), r)).getD (0, s)
  | '+' :: t => ((unsigned t).map fun (n, r) => (min (n : ℤ) abi.longMax, r)).getD (0, s)
  | t => ((unsigned t).map fun (n, r) => (min (n : ℤ) abi.longMax, r)).getD (0, s)

/-- The conversion of a signed number to `size_t`. -/
def Abi.toSize (abi : Abi) (z : ℤ) : ℕ := (z % (abi.sizeMod : ℤ)).toNat

/-- The conversion of a `long` to `int`. -/
def toInt (z : ℤ) : ℤ := z.bmod (2 ^ 32)

/-! ## The table of types -/

/-- The arithmetic part of `type_encoding_cases.h`. -/
def arithmeticCase : Char → Option ArithmeticType
  | 'D' => some .longDouble
  | 'd' => some .double
  | 'f' => some .float
  | 'c' => some .signedChar
  | 'i' => some .int
  | 's' => some .short
  | 'l' => some .long
  | 'q' => some .longLong
  | 'C' => some .unsignedChar
  | 'S' => some .unsignedShort
  | 'I' => some .unsignedInt
  | 'L' => some .unsignedLong
  | 'Q' => some .unsignedLongLong
  | _ => none

/-- `type_encoding_cases.h` with `NON_INTEGER_TYPES` and `SKIP_ID`. -/
def typeCase (c : Char) : Option CType :=
  match c with
  | 'B' => some .bool
  | '#' => some .classPointer
  | ':' => some .sel
  | '*' => some .cString
  | c => (arithmeticCase c).map .arithmetic

/-! ## Arrays, structures and unions -/

section

variable {σ : Type} (callback : List Char → σ → Option (List Char × σ))

/-- `parse_array` (lines 90–99) without the bracket that `type` points at: the
element count, the encoding behind the array and the context. -/
def parseArray (abi : Abi) (type : List Char) (context : σ) : Option (ℤ × List Char × σ) := do
  let (count, rest) := strtol abi type
  let (rest, context) ← callback rest context
  match rest with
  | [] => none
  | _ :: rest => some (toInt count, rest, context)

/-- Lines 103–110: the name is skipped. Without a definition the encoding ends
at the bracket (`inl`), otherwise the members follow (`inr`). -/
def skipName (endchar : Char) : List Char → Option (List Char ⊕ List Char)
  | [] => none
  | c :: cs =>
    if c = endchar then some (.inl cs) else if c = '=' then some (.inr cs) else skipName endchar cs

/-- Lines 112–133: the members up to the end bracket. -/
def parseMembers (endchar : Char) : ℕ → List Char → σ → Option (List Char × σ)
  | 0, _, _ => none
  | _ + 1, [], _ => none
  | n + 1, c :: cs, context =>
    if c = endchar then some (cs, context)
    else do
      -- member names are not part of the type
      let type ← if c = '\x22' then skipPast '\x22' cs else some (c :: cs)
      let (rest, context) ← callback type context
      parseMembers endchar n rest context

/-- `parse_struct_or_union` (lines 101–136) without the bracket that `type` points at. -/
def parseStructOrUnion (type : List Char) (context : σ) (endchar : Char) : Option (List Char × σ) :=
  match skipName endchar type with
  | none => none
  | some (.inl rest) => some (rest, context)
  | some (.inr members) => parseMembers callback endchar (members.length + 1) members context

/-- `parse_struct` (lines 143–146). -/
def parseStruct (type : List Char) (context : σ) : Option (List Char × σ) :=
  parseStructOrUnion callback type context '}'

/-- `parse_union` (lines 138–141). -/
def parseUnion (type : List Char) (context : σ) : Option (List Char × σ) :=
  parseStructOrUnion callback type context ')'

end

/-- `skip_object_extended_qualifiers` (lines 165–187) and the `+ 1` of its
callers, on what follows the `@`. -/
def skipObjectExtendedQualifiers : List Char → Option (List Char)
  | '?' :: '<' :: cs => skipPast '>' cs
  | '?' :: cs => some cs
  | '\x22' :: cs => skipPast '\x22' cs
  | cs => some cs

/-! ## `alignof_type` -/

/-- `alignof_type` (lines 301–375). The context is an alignment in bits. -/
def alignofType (abi : Abi) : ℕ → List Char → ℕ → Option (List Char × ℕ)
  | 0, _, _ => none
  | fuel + 1, type, align =>
    match objcSkipTypeQualifiers type with
    | [] => none
    | c :: cs =>
      if let some τ := typeCase c then some (cs, max (abi.alignof τ * 8) align)
      else if c = '@' then do
        let rest ← skipObjectExtendedQualifiers cs
        some (rest, max (abi.alignof .id * 8) align)
      else if c = '?' ∨ c = 'v' then some (cs, align)
      else if c = 'j' then
        match cs with
        | [] => none
        | d :: ds =>
          match arithmeticCase d with
          | some a => some (ds, max (abi.alignof (.complex a) * 8) align)
          -- the switch falls through to the structure
          | none => parseStruct (alignofType abi fuel) ds align
      else if c = '{' then parseStruct (alignofType abi fuel) cs align
      else if c = '(' then parseUnion (alignofType abi fuel) cs align
      else if c = '[' then do
        let (_, rest, align) ← parseArray (alignofType abi fuel) abi cs align
        some (rest, align)
      else if c = 'b' then do
        let (rest, align) ← alignofType abi fuel (strtol abi cs).2 align
        some ((strtol abi rest).2, align)
      else if c = '^' then do
        let (rest, _) ← alignofType abi fuel cs 0
        some (rest, max (abi.alignof .voidPointer * 8) align)
      else none

/-- `objc_alignof_type` (lines 385–391). -/
def objcAlignofType (abi : Abi) (type : List Char) : Option ℕ := do
  let (_, align) ← alignofType abi type.length type 0
  some (align / 8)

/-! ## `sizeof_type` -/

/-- `round_up` (lines 148–159). -/
def Abi.roundUp (abi : Abi) (v b : ℕ) : ℕ :=
  if b = 0 then v else if v % b ≠ 0 then (v + (b - v % b)) % abi.sizeMod else v

/-- The body of the cases that round up and add (lines 206–209). -/
def Abi.addType (abi : Abi) (τ : CType) (size : ℕ) : ℕ :=
  (abi.roundUp size (abi.alignof τ * 8) + abi.sizeof τ * 8) % abi.sizeMod

/-- The case of a structure (lines 238–245), behind its bracket. `type` is the
whole encoding, which `objc_alignof_type` reads once more. -/
def sizeofStruct (abi : Abi) (callback : List Char → ℕ → Option (List Char × ℕ)) (type cs : List Char)
    (size : ℕ) : Option (List Char × ℕ) := do
  let (t, size) ← parseStruct callback cs size
  let align ← objcAlignofType abi type
  some (t, abi.roundUp size (align * 8))

/-- `sizeof_union_field` (lines 286–292) over a given `sizeof_type`. -/
def sizeofUnionField (sizeofType : List Char → ℕ → Option (List Char × ℕ)) (type : List Char) (size : ℕ) :
    Option (List Char × ℕ) := do
  let (rest, fieldSize) ← sizeofType type 0
  some (rest, max size fieldSize)

/-- `sizeof_type` (lines 196–284). The context is the running size in bits. -/
def sizeofType (abi : Abi) : ℕ → List Char → ℕ → Option (List Char × ℕ)
  | 0, _, _ => none
  | fuel + 1, type, size =>
    match objcSkipTypeQualifiers type with
    | [] => none
    | c :: cs =>
      if let some τ := typeCase c then some (cs, abi.addType τ size)
      else if c = '@' then do
        let rest ← skipObjectExtendedQualifiers cs
        some (rest, abi.addType .id size)
      else if c = '?' ∨ c = 'v' then some (cs, size)
      else if c = 'j' then
        match cs with
        | [] => none
        | d :: ds =>
          match arithmeticCase d with
          | some a => some (ds, abi.addType (.complex a) size)
          -- the switch falls through to the structure
          | none => sizeofStruct abi (sizeofType abi fuel) (d :: ds) ds size
      else if c = '{' then sizeofStruct abi (sizeofType abi fuel) (c :: cs) cs size
      else if c = '[' then do
        let (count, rest, elementSize) ← parseArray (sizeofType abi fuel) abi cs 0
        some (rest, (size + elementSize * abi.toSize count % abi.sizeMod) % abi.sizeMod)
      else if c = '(' then do
        let (rest, unionSize) ← parseUnion (sizeofUnionField (sizeofType abi fuel)) cs 0
        some (rest, (size + unionSize) % abi.sizeMod)
      else if c = 'b' then
        -- the offset, the element type and the number of bits
        match (strtol abi cs).2 with
        | [] => none
        | _ :: rest => some ((strtol abi rest).2, (size + abi.toSize (strtol abi rest).1) % abi.sizeMod)
      else if c = '^' then do
        let (rest, _) ← sizeofType abi fuel cs 0
        some (rest, (size + abi.sizeof .voidPointer * 8) % abi.sizeMod)
      else none

/-- `objc_sizeof_type` (lines 377–383). -/
def objcSizeofType (abi : Abi) (type : List Char) : Option ℕ := do
  let (_, size) ← sizeofType abi type.length type 0
  some (size / 8)

end Libobjc2.Encoding
