import Libobjc2.Encoding.TypeSize

/-!
# Well-formed type encodings

The types that encodings spell, with their spelling and with the layout that C
gives them: the specification that `encoding2.c` is compared with.

A structure's or a union's name has no `=` and not the end bracket, a class
name and a member name have no quote. Only a pointer may point at `void`, at a
function or at a structure or union without definition. A member name that
follows an `@` without class name is read as its class name; `after` is what
the parsers leave of the rest of the encoding then.
-/

namespace Libobjc2.Encoding

open Libobjc2.Alignment

/-! ## Types -/

/-- A decimal number in an encoding. -/
structure Numeral where
  digits : List Char
  ne_nil : digits ≠ []
  isDigit : ∀ c ∈ digits, c.isDigit

/-- The number that is spelled. -/
def Numeral.value (n : Numeral) : ℕ := decimal n.digits

/-- A text without some characters. -/
structure NameWithout (excluded : List Char) where
  chars : List Char
  notMem : ∀ c ∈ excluded, c ∉ chars

/-- The name of a member or of a class, which is quoted. -/
abbrev QuotedName := NameWithout ['\x22']

/-- An object: `@`, `@"Class"` or the block `@?`. -/
inductive ObjectForm
  | any
  | named (className : QuotedName)
  | block

mutual

/-- The types of the encodings, bit-fields excluded. -/
inductive TypeEncoding
  | arithmetic (a : ArithmeticType)
  | bool
  | classPointer
  | sel
  | cString
  | complex (a : ArithmeticType)
  | object (form : ObjectForm)
  | pointer (pointee : Pointee)
  | array (count : Numeral) (element : TypeEncoding)
  | struct (name : NameWithout ['=', '}']) (members : Members)
  | union (name : NameWithout ['=', ')']) (members : Members)

/-- What a pointer may point at. -/
inductive Pointee
  | void
  | function
  | opaqueStruct (name : NameWithout ['=', '}'])
  | opaqueUnion (name : NameWithout ['=', ')'])
  | type (t : TypeEncoding)

/-- The members of a structure or union, at least one, with or without names. -/
inductive Members
  | last (name : Option QuotedName) (t : TypeEncoding)
  | cons (name : Option QuotedName) (t : TypeEncoding) (rest : Members)

end

/-- Induction over members alone. -/
@[elab_as_elim]
theorem Members.induct {motive : Members → Prop} (last : ∀ name t, motive (.last name t))
    (cons : ∀ name t rest, motive rest → motive (.cons name t rest)) : ∀ ms, motive ms
  | .last name t => last name t
  | .cons name t rest => cons name t rest (Members.induct last cons rest)

/-! ## Spelling -/

/-- The character of an arithmetic type. -/
def ArithmeticType.encodingChar : ArithmeticType → Char
  | .longDouble => 'D'
  | .double => 'd'
  | .float => 'f'
  | .signedChar => 'c'
  | .int => 'i'
  | .short => 's'
  | .long => 'l'
  | .longLong => 'q'
  | .unsignedChar => 'C'
  | .unsignedShort => 'S'
  | .unsignedInt => 'I'
  | .unsignedLong => 'L'
  | .unsignedLongLong => 'Q'

/-- A name between quotes. -/
def QuotedName.encode (name : QuotedName) : List Char := '\x22' :: (name.chars ++ ['\x22'])

/-- The name in front of a member. -/
def encodeLabel (name : Option QuotedName) : List Char := name.elim [] QuotedName.encode

def ObjectForm.encode : ObjectForm → List Char
  | .any => ['@']
  | .named className => '@' :: className.encode
  | .block => ['@', '?']

mutual

def TypeEncoding.encode : TypeEncoding → List Char
  | .arithmetic a => [a.encodingChar]
  | .bool => ['B']
  | .classPointer => ['#']
  | .sel => [':']
  | .cString => ['*']
  | .complex a => ['j', a.encodingChar]
  | .object form => form.encode
  | .pointer pointee => '^' :: pointee.encode
  | .array count element => '[' :: (count.digits ++ (element.encode ++ [']']))
  | .struct name members => '{' :: (name.chars ++ '=' :: (members.encode ++ ['}']))
  | .union name members => '(' :: (name.chars ++ '=' :: (members.encode ++ [')']))

def Pointee.encode : Pointee → List Char
  | .void => ['v']
  | .function => ['?']
  | .opaqueStruct name => '{' :: (name.chars ++ ['}'])
  | .opaqueUnion name => '(' :: (name.chars ++ [')'])
  | .type t => t.encode

def Members.encode : Members → List Char
  | .last name t => encodeLabel name ++ t.encode
  | .cons name t rest => encodeLabel name ++ (t.encode ++ rest.encode)

end

/-! ## The layout of C -/

mutual

/-- The alignment of a type. -/
def TypeEncoding.align (abi : Abi) : TypeEncoding → ℕ
  | .arithmetic a => abi.alignof (.arithmetic a)
  | .bool => abi.alignof .bool
  | .classPointer => abi.alignof .classPointer
  | .sel => abi.alignof .sel
  | .cString => abi.alignof .cString
  | .complex a => abi.alignof (.complex a)
  | .object _ => abi.alignof .id
  | .pointer _ => abi.alignof .voidPointer
  | .array _ element => element.align abi
  | .struct _ members => members.align abi
  | .union _ members => members.align abi

/-- The largest alignment of the members. -/
def Members.align (abi : Abi) : Members → ℕ
  | .last _ t => t.align abi
  | .cons _ t rest => max (t.align abi) (rest.align abi)

end

mutual

/-- The size of a type: an array is its elements, a structure its members one
after the other with padding, a union its largest member with padding. -/
def TypeEncoding.size (abi : Abi) : TypeEncoding → ℕ
  | .arithmetic a => abi.sizeof (.arithmetic a)
  | .bool => abi.sizeof .bool
  | .classPointer => abi.sizeof .classPointer
  | .sel => abi.sizeof .sel
  | .cString => abi.sizeof .cString
  | .complex a => abi.sizeof (.complex a)
  | .object _ => abi.sizeof .id
  | .pointer _ => abi.sizeof .voidPointer
  | .array count element => count.value * element.size abi
  | .struct _ members => nextMultiple (members.align abi) (members.layoutEnd abi 0)
  | .union _ members => nextMultiple (members.align abi) (members.largest abi)

/-- The end of the members when the first one is placed at `offset` or behind it. -/
def Members.layoutEnd (abi : Abi) : Members → ℕ → ℕ
  | .last _ t, offset => nextMultiple (t.align abi) offset + t.size abi
  | .cons _ t rest, offset => rest.layoutEnd abi (nextMultiple (t.align abi) offset + t.size abi)

/-- The size of the largest member. -/
def Members.largest (abi : Abi) : Members → ℕ
  | .last _ t => t.size abi
  | .cons _ t rest => max (t.size abi) (rest.largest abi)

end

mutual

theorem TypeEncoding.isAlignment_align (abi : Abi) : ∀ t : TypeEncoding, IsAlignment (t.align abi)
  | .arithmetic _ | .bool | .classPointer | .sel | .cString | .complex _ | .object _ | .pointer _ =>
    abi.alignof_isAlignment _
  | .array _ element => element.isAlignment_align abi
  | .struct _ members => members.isAlignment_align abi
  | .union _ members => members.isAlignment_align abi

theorem Members.isAlignment_align (abi : Abi) : ∀ ms : Members, IsAlignment (ms.align abi)
  | .last _ t => t.isAlignment_align abi
  | .cons _ t rest => (t.isAlignment_align abi).max (rest.isAlignment_align abi)

end

/-! ## What follows a type -/

/-- Whether the type ends with an `@` that reads a name behind it as its own. -/
def TypeEncoding.endsInObject : TypeEncoding → Bool
  | .object .any => true
  | .pointer (.type t) => t.endsInObject
  | _ => false

/-- The encoding without a quoted name at its front. -/
def skipQuoted (rest : List Char) : List Char :=
  match rest with
  | '\x22' :: cs => (skipPast '\x22' cs).getD []
  | cs => cs

/-- What the parsers leave behind the type. -/
def TypeEncoding.after (t : TypeEncoding) (rest : List Char) : List Char :=
  if t.endsInObject then skipQuoted rest else rest

/-- What can stand behind a type in an encoding. -/
def Follows (rest : List Char) : Prop :=
  ∀ c ∈ rest.head?, c ≠ '?' ∧ c ≠ '<' ∧ (c = '\x22' → '\x22' ∈ rest.tail)

end Libobjc2.Encoding
