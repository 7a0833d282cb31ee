import Libobjc2.Common.Fields
import Mathlib.Algebra.GroupWithZero.Nat

/-!
# Property attributes

Model of `runtime/properties.mm` (lines 230–734): adding a property to a class
with the attributes that its caller lists, and reading them back.

A C string is the list of its characters without the terminator, `NULL` is
`none`. The answers of the allocator and of `sel_registerTypedName_np` are a
parameter. A size that overflows `size_t` is refused like an allocation that
fails: the source returns in the same way for both.
-/

namespace Libobjc2.Properties

open Common

/-! ## What the functions rely on -/

/-- The allocations of the functions below. -/
inductive AllocationSite
  | name
  | attributes
  | type
  | canonicalType (setter : Bool)
  | signature (setter : Bool)
  | list
  | copy
  deriving DecidableEq, Repr

/-- The allocator and the selector table. -/
structure Runtime where
  alloc : AllocationSite → ℕ → Bool
  /-- `sel_registerTypedName_np`, or `sel_registerName` without types. -/
  registerName : List Char → Option (List Char) → Option ℕ

/-- `objc_property_attribute_t`. -/
structure Attribute where
  name : Option (List Char)
  value : Option (List Char)
  deriving DecidableEq, Repr

/-- `struct objc_property` (`properties.h`, lines 95–117). -/
structure Property where
  name : Option (List Char)
  attributes : Option (List Char)
  type : Option (List Char)
  getter : Option ℕ
  setter : Option ℕ
  deriving DecidableEq, Repr

/-- A class with its property lists. -/
structure Class where
  properties : List (List Property)
  deriving DecidableEq, Repr

/-! ## The attribute string -/

/-- `nextPropertyAttributeToken` (lines 328–346): the name and the value of the
next token, and the cursor behind it. -/
def nextPropertyAttributeToken (cursor : List Char) : Option (Char × List Char × List Char) :=
  match cursor.dropWhile (· = ',') with
  | [] => none
  | name :: token => some (name, token.takeWhile (· ≠ ','), (token.dropWhile (· ≠ ',')).tail)

/-- The tokens of the loops over `nextPropertyAttributeToken`. -/
def propertyAttributeTokens : ℕ → List Char → List (Char × List Char)
  | 0, _ => []
  | n + 1, cursor =>
    match nextPropertyAttributeToken cursor with
    | none => []
    | some (name, value, cursor) => (name, value) :: propertyAttributeTokens n cursor

/-- The loop over an attribute string, which may be `NULL`. -/
def tokensOf (attributes : Option (List Char)) : List (Char × List Char) :=
  attributes.elim [] fun s => propertyAttributeTokens (s.length + 1) s

/-- `propertyAttributeName` (lines 348–364). -/
def propertyAttributeName (name : Char) : Option (List Char) :=
  match name with
  | 'T' => some ['T']
  | 'R' => some ['R']
  | 'C' => some ['C']
  | '&' => some ['&']
  | 'D' => some ['D']
  | 'W' => some ['W']
  | 'N' => some ['N']
  | 'G' => some ['G']
  | 'S' => some ['S']
  | 'V' => some ['V']
  | _ => none

/-- `propertyAttributeHasValue` (lines 366–369). -/
def propertyAttributeHasValue (name : Char) : Bool := name = 'G' ∨ name = 'S' ∨ name = 'V'

/-! ## Adding a property -/

/-- `findAttribute` (lines 428–443). -/
def findAttribute (attr : Char) (attributes : Option (List Attribute)) (attributeCount : ℕ) :
    Option Attribute :=
  attributes.bind fun l => (l.take attributeCount).find? fun a => a.name.any fun n => n.head? = some attr

/-- `addAttrIfExists` (lines 444–462). -/
def addAttrIfExists (attributes : Option (List Attribute)) (attributeCount : ℕ) (buffer : List Char)
    (a : Char) :
    List Char :=
  match findAttribute a attributes attributeCount with
  | some attr => buffer ++ a :: (attr.value.getD [] ++ [','])
  | none => buffer

/-- The order in which `encodingFromAttrs` writes the attributes. -/
def encodingOrder : List Char := ['T', 'R', '&', 'C', 'W', 'D', 'N', 'G', 'S', 'V']

/-- `encodingFromAttrs` (lines 464–513). -/
def encodingFromAttrs (rt : Runtime) (attributes : Option (List Attribute)) (attributeCount : ℕ) :
    Option (List Char) :=
  if attributeCount ≠ 0 ∧ attributes = none then none
  else
    let values := ((attributes.getD []).take attributeCount).map fun a => (a.value.getD []).length
    let attributesSize := attributeCount * 2 + values.sum
    if attributesSize = 0 then none
    else if ¬rt.alloc .attributes attributesSize then none
    else
      let out := encodingOrder.foldl (addAttrIfExists attributes attributeCount) []
      if out = [] then none else some out.dropLast

/-- The loop of `copyCanonicalPropertyType` (lines 524–545), outside or inside
the quoted class name behind an `@`, in which a backslash takes the character
behind it along. An open quote is refused. -/
def canonicalPropertyType : Bool → List Char → Option (List Char)
  | false, [] => some []
  | false, '@' :: '\x22' :: cs => (canonicalPropertyType true cs).map fun out => '@' :: out
  | false, c :: cs => (canonicalPropertyType false cs).map fun out => c :: out
  | true, [] => none
  | true, '\x22' :: cs => canonicalPropertyType false cs
  | true, '\\' :: _ :: cs => canonicalPropertyType true cs
  | true, _ :: cs => canonicalPropertyType true cs

/-- `registerPropertyAccessor` (lines 550–581). -/
def registerPropertyAccessor (rt : Runtime) (name : List Char) (type : Option (List Char)) (setter : Bool) :
    Option ℕ := do
  match type with
  | none => rt.registerName name none
  | some [] => rt.registerName name none
  | some type =>
    guard (rt.alloc (.canonicalType setter) (type.length + 1))
    let canonicalType ← canonicalPropertyType false type
    guard (rt.alloc (.signature setter) (canonicalType.length + if setter then 4 else 3))
    rt.registerName name
      (some (if setter then ['v', '@', ':'] ++ canonicalType else canonicalType ++ ['@', ':']))

/-- `objc2_strdup`. -/
def strdup (rt : Runtime) (site : AllocationSite) (s : List Char) : Option (List Char) :=
  if rt.alloc site (s.length + 1) then some s else none

/-- `propertyFromAttrs` (lines 583–610). -/
def propertyFromAttrs (rt : Runtime) (attributes : Option (List Attribute)) (attributeCount : ℕ)
    (name : List Char) :
    Property :=
  let valueOf (attr : Char) := (findAttribute attr attributes attributeCount).bind Attribute.value
  let type := (valueOf 'T').bind (strdup rt .type)
  { name := strdup rt .name name
    attributes := encodingFromAttrs rt attributes attributeCount
    type := type
    getter := (valueOf 'G').bind fun getter => registerPropertyAccessor rt getter type false
    setter := (valueOf 'S').bind fun setter => registerPropertyAccessor rt setter type true }

/-- `propertyConstructionFailed` (lines 612–624). -/
def propertyConstructionFailed (property : Property) (attributes : Option (List Attribute))
    (attributeCount : ℕ) :
    Bool :=
  let given (attr : Char) := ((findAttribute attr attributes attributeCount).bind Attribute.value).isSome
  property.name.isNone || (attributeCount ≠ 0 && property.attributes.isNone) ||
    (given 'T' && property.type.isNone) || (given 'G' && property.getter.isNone) ||
      (given 'S' && property.setter.isNone)

/-- `property_getName` (lines 294–304). A name that starts with a zero byte is
preceded by the type encoding whose length is the byte behind it. -/
def propertyGetName (property : Property) : Option (List Char) :=
  property.name.map fun name =>
    if name.head? = some '\x00' then name.drop (name.getD 1 '\x00').toNat else name

/-- `class_getProperty` (lines 231–254). -/
def classGetProperty (cls : Class) (name : List Char) : Option Property :=
  cls.properties.flatten.find? fun p => propertyGetName p = some name

/-- `class_addProperty` (lines 633–663). `none` is `NO`. -/
def classAddProperty (rt : Runtime) (cls : Option Class) (name : Option (List Char))
    (attributes : Option (List Attribute)) (attributeCount : ℕ) : Option Class := do
  let cls ← cls
  let name ← name
  guard (classGetProperty cls name).isNone
  let p := propertyFromAttrs rt attributes attributeCount name
  guard ¬propertyConstructionFailed p attributes attributeCount
  guard (rt.alloc .list 56)
  some { cls with properties := [p] :: cls.properties }

/-! ## Reading a property -/

/-- The tokens that `property_copyAttributeList` counts and copies: not the
type, and with a name that the runtime knows. -/
def listedTokens (attributes : Option (List Char)) : List (Char × List Char) :=
  (tokensOf attributes).filter fun t => t.1 ≠ 'T' ∧ (propertyAttributeName t.1).isSome

/-- The value that is stored for a token: a flag has none. -/
def storedValue (t : Char × List Char) : List Char := if propertyAttributeHasValue t.1 then t.2 else []

/-- `property_copyAttributeList` (lines 371–426): the names and values, whose
number is `*outCount`. `NULL` goes with a count of zero. -/
def propertyCopyAttributeList (rt : Runtime) (property : Option Property) :
    Option (List (List Char × List Char)) := do
  let property ← property
  let tokens := listedTokens property.attributes
  let type := property.type.elim [] fun types => [(['T'], types)]
  let count := type.length + tokens.length
  let valueBytes := property.type.elim 0 (fun types => types.length + 1) +
    (tokens.map fun t => (storedValue t).length + 1).sum
  -- `count` is an `unsigned int`
  guard (count < 2 ^ 32)
  guard (count ≠ 0)
  guard (rt.alloc .copy (count * 16 + valueBytes))
  some (type ++ tokens.filterMap fun t => (propertyAttributeName t.1).map fun name => (name, storedValue t))

/-- `copyPropertyAttributeTokenValue` (lines 692–709). -/
def copyPropertyAttributeTokenValue (rt : Runtime) (attributes : Option (List Char)) (requested : Char) :
    Option (List Char) := do
  let (_, value) ← (tokensOf attributes).find? fun t => t.1 = requested
  guard (rt.alloc .copy (value.length + 1))
  some value

/-- `property_copyAttributeValue` (lines 711–733). -/
def propertyCopyAttributeValue (rt : Runtime) (property : Option Property)
    (attributeName : Option (List Char)) :
    Option (List Char) := do
  let property ← property
  match ← attributeName with
  | [] => none
  | a :: _ =>
    if a = 'T' then property.type.bind (strdup rt .copy)
    else if (propertyAttributeName a).isNone then none
    else if ¬propertyAttributeHasValue a then
      (copyPropertyAttributeTokenValue rt property.attributes a).map fun _ => []
    else copyPropertyAttributeTokenValue rt property.attributes a

end Libobjc2.Properties
