import Libobjc2.Encoding.TypeParser

/-!
# Extended type encodings

The encodings of `TypeTree` with what compilers add to them: qualifiers in front of any type, blocks with
their signatures, bit-fields, and structures without members. A block signature is any text.

Results:
* `parseMembers_piecesAt`: what the loop over the members does, for any kind of member.
* `parseStructOrUnion_fields`: a structure or union is its fields, one after the other.
-/

namespace Libobjc2.Encoding

open Libobjc2.Alignment

/-! ## Types -/

/-- What `objc_skip_type_qualifiers` skips. -/
inductive Qualifier
  | const
  | in
  | inout
  | out
  | bycopy
  | byref
  | oneway
  | atomic
  deriving DecidableEq, Repr

/-- The types with a character of their own. -/
inductive PrimitiveType
  | arithmetic (a : ArithmeticType)
  | bool
  | classPointer
  | sel
  | cString
  deriving DecidableEq, Repr

/-- An object: `@`, `@"Class"`, the block `@?` or `@?<signature>`. -/
inductive ExtendedObject
  | any
  | named (className : QuotedName)
  | block
  | signed (signature : List Char)

mutual

/-- The types that can be members of a structure. -/
inductive ExtendedType
  | qualified (q : Qualifier) (t : ExtendedType)
  | primitive (p : PrimitiveType)
  | complex (a : ArithmeticType)
  | object (form : ExtendedObject)
  | pointer (referent : Referent)
  | array (count : Numeral) (element : ExtendedType)
  | struct (name : NameWithout ['=', '}']) (fields : Fields)
  | union (name : NameWithout ['=', ')']) (fields : Fields)

/-- What a pointer may point at, and what a method may return. -/
inductive Referent
  | qualified (q : Qualifier) (r : Referent)
  | void
  | function
  | opaqueStruct (name : NameWithout ['=', '}'])
  | opaqueUnion (name : NameWithout ['=', ')'])
  | type (t : ExtendedType)

/-- A member: a type or a bit-field. -/
inductive Field
  | type (t : ExtendedType)
  | bitfield (offset : Numeral) (kind : PrimitiveType) (bits : Numeral)

/-- The members, with or without names. -/
inductive Fields
  | nil
  | cons (label : Option QuotedName) (field : Field) (rest : Fields)

end

/-! ## Spelling -/

def Qualifier.encodingChar : Qualifier → Char
  | .const => 'r'
  | .in => 'n'
  | .inout => 'N'
  | .out => 'o'
  | .bycopy => 'O'
  | .byref => 'R'
  | .oneway => 'V'
  | .atomic => 'A'

def PrimitiveType.encodingChar : PrimitiveType → Char
  | .arithmetic a => a.encodingChar
  | .bool => 'B'
  | .classPointer => '#'
  | .sel => ':'
  | .cString => '*'

def PrimitiveType.ctype : PrimitiveType → CType
  | .arithmetic a => .arithmetic a
  | .bool => .bool
  | .classPointer => .classPointer
  | .sel => .sel
  | .cString => .cString

/-- The encoding behind the `@`. -/
def ExtendedObject.extension : ExtendedObject → List Char
  | .any => []
  | .named className => className.encode
  | .block => ['?']
  | .signed signature => '?' :: '<' :: (signature ++ ['>'])

def ExtendedObject.encode (form : ExtendedObject) : List Char := '@' :: form.extension

mutual

def ExtendedType.encode : ExtendedType → List Char
  | .qualified q t => q.encodingChar :: t.encode
  | .primitive p => [p.encodingChar]
  | .complex a => ['j', a.encodingChar]
  | .object form => form.encode
  | .pointer referent => '^' :: referent.encode
  | .array count element => '[' :: (count.digits ++ (element.encode ++ [']']))
  | .struct name fields => '{' :: (name.chars ++ '=' :: (fields.encode ++ ['}']))
  | .union name fields => '(' :: (name.chars ++ '=' :: (fields.encode ++ [')']))

def Referent.encode : Referent → List Char
  | .qualified q r => q.encodingChar :: r.encode
  | .void => ['v']
  | .function => ['?']
  | .opaqueStruct name => '{' :: (name.chars ++ ['}'])
  | .opaqueUnion name => '(' :: (name.chars ++ [')'])
  | .type t => t.encode

def Field.encode : Field → List Char
  | .type t => t.encode
  | .bitfield offset kind bits => 'b' :: (offset.digits ++ kind.encodingChar :: bits.digits)

def Fields.encode : Fields → List Char
  | .nil => []
  | .cons label field rest => encodeLabel label ++ (field.encode ++ rest.encode)

end

mutual

/-- Whether the encoding ends with an `@` that reads a name behind it as its own. -/
def ExtendedType.endsInObject : ExtendedType → Bool
  | .qualified _ t => t.endsInObject
  | .object .any => true
  | .pointer referent => referent.endsInObject
  | _ => false

def Referent.endsInObject : Referent → Bool
  | .qualified _ r => r.endsInObject
  | .type t => t.endsInObject
  | _ => false

end

/-- The members in their order. -/
def Fields.items : Fields → List (Option QuotedName × Field)
  | .nil => []
  | .cons label field rest => (label, field) :: rest.items

/-! ## Blocks in blocks -/

/-- The signature of a block does not contain the character that ends it. -/
def ExtendedObject.Simple : ExtendedObject → Prop
  | .signed signature => '>' ∉ signature
  | _ => True

mutual

/-- The signatures of the blocks in the type do not contain the character that ends them. -/
def ExtendedType.Simple : ExtendedType → Prop
  | .qualified _ t => t.Simple
  | .primitive _ | .complex _ => True
  | .object form => form.Simple
  | .pointer referent => referent.Simple
  | .array _ element => element.Simple
  | .struct _ fields | .union _ fields => fields.Simple

def Referent.Simple : Referent → Prop
  | .qualified _ r => r.Simple
  | .type t => t.Simple
  | _ => True

def Field.Simple : Field → Prop
  | .type t => t.Simple
  | .bitfield .. => True

def Fields.Simple : Fields → Prop
  | .nil => True
  | .cons _ field rest => field.Simple ∧ rest.Simple

end

/-! ## Pieces of a structure -/

/-- A text, and whether it ends with an `@` that reads a name behind it as its own. -/
structure Piece where
  chars : List Char
  endsInObject : Bool

/-- What the parsers leave behind the piece. -/
def Piece.after (p : Piece) (rest : List Char) : List Char :=
  if p.endsInObject then skipQuoted rest else rest

def ExtendedType.piece (t : ExtendedType) : Piece := ⟨t.encode, t.endsInObject⟩

def Referent.piece (r : Referent) : Piece := ⟨r.encode, r.endsInObject⟩

def Field.piece : Field → Piece
  | .type t => t.piece
  | .bitfield offset kind bits => ⟨(Field.bitfield offset kind bits).encode, false⟩

/-- The characters that a member can start with. -/
def fieldStarters : List Char := 'b' :: ['r', 'n', 'N', 'o', 'O', 'R', 'V', 'A'] ++ starters

/-- The piece starts like a member. -/
def Piece.Starts (p : Piece) : Prop := ∃ c ∈ fieldStarters, ∃ cs, p.chars = c :: cs

/-- What can stand behind a member. -/
def FollowsField (rest : List Char) : Prop := Follows rest ∧ ∀ c ∈ rest.head?, c.isDigit = false

/-- In front of such an encoding, the callback moves behind the piece and has this effect on its context. -/
def Piece.ParsedBy {σ : Type} (callback : List Char → σ → Option (List Char × σ)) (effect : σ → σ)
    (ok : List Char → Prop) (p : Piece) : Prop :=
  ∀ rest, ok rest → ∀ context, callback (p.chars ++ rest) context = some (p.after rest, effect context)

theorem fieldStarters_ne {c : Char} (h : c ∈ fieldStarters) :
    c ≠ '?' ∧ c ≠ '<' ∧ c ≠ '\x22' ∧ c.isDigit = false := by
  have hall : ∀ c ∈ fieldStarters, c ≠ '?' ∧ c ≠ '<' ∧ c ≠ '\x22' ∧ c.isDigit = false := by
    simp [fieldStarters, starters, Char.isDigit]
  exact hall c h

theorem followsField_cons {c : Char} (h : c ≠ '?' ∧ c ≠ '<' ∧ c ≠ '\x22') (hd : c.isDigit = false)
    (rest : List Char) : FollowsField (c :: rest) := by
  refine ⟨follows_cons h rest, fun d hd' => ?_⟩
  rw [List.head?_cons, Option.mem_def, Option.some.injEq] at hd'
  rw [← hd', hd]

theorem Piece.Starts.follows {p : Piece} (h : p.Starts) (rest : List Char) :
    FollowsField (p.chars ++ rest) := by
  obtain ⟨c, hc, cs, hp⟩ := h
  obtain ⟨h1, h2, h3, h4⟩ := fieldStarters_ne hc
  rw [hp, List.cons_append]
  exact followsField_cons ⟨h1, h2, h3⟩ h4 _

theorem Piece.Starts.skipQuoted {p : Piece} (h : p.Starts) (rest : List Char) :
    skipQuoted (p.chars ++ rest) = p.chars ++ rest := by
  obtain ⟨c, hc, cs, hp⟩ := h
  rw [hp, List.cons_append, skipQuoted_cons (fieldStarters_ne hc).2.2.1]

theorem skipQuoted_label (label : QuotedName) (rest : List Char) :
    skipQuoted (label.encode ++ rest) = rest := by
  have hskip := skipPast_append (label.notMem '\x22' (by simp)) rest
  rw [QuotedName.encode, List.cons_append, List.append_assoc, List.singleton_append, skipQuoted, hskip]
  rfl

section

variable {σ ι : Type} {piece : ι → Piece} {endchar : Char}
    {callback : List Char → σ → Option (List Char × σ)}

/-- The text of labelled pieces; `read`: the first label has been read already. -/
def encodePieces (piece : ι → Piece) : Bool → List (Option QuotedName × ι) → List Char
  | _, [] => []
  | read, (label, i) :: rest =>
    (if read then [] else encodeLabel label) ++ ((piece i).chars ++ encodePieces piece false rest)

/-- The pieces with the strings that start with them. -/
def piecesAt (piece : ι → Piece) (tail : List Char) : List (Option QuotedName × ι) → List (ι × List Char)
  | [] => []
  | (_, i) :: rest =>
    (i, (piece i).chars ++ (encodePieces piece false rest ++ tail)) :: piecesAt piece tail rest

theorem followsField_pieces {l : List (Option QuotedName × ι)} (h : ∀ i ∈ l, (piece i.2).Starts)
    {rest : List Char} (hr : FollowsField rest) : FollowsField (encodePieces piece false l ++ rest) := by
  cases l with
  | nil => exact hr
  | cons i l =>
    have hi := h i List.mem_cons_self
    rw [encodePieces, if_neg Bool.false_ne_true, List.append_assoc, List.append_assoc]
    cases i.1 with
    | none => exact hi.follows _
    | some label =>
      refine ⟨fun d hd => ?_, fun d hd => ?_⟩
      · obtain rfl := Option.some.inj hd
        exact ⟨by decide, by decide, fun _ => by simp [encodeLabel, QuotedName.encode]⟩
      · obtain rfl := Option.some.inj hd
        decide

theorem after_pieces (p : Piece) {l : List (Option QuotedName × ι)} (h : ∀ i ∈ l, (piece i.2).Starts)
    {rest : List Char} (hr : skipQuoted rest = rest) :
    p.after (encodePieces piece false l ++ rest) = encodePieces piece p.endsInObject l ++ rest := by
  rw [Piece.after]
  cases p.endsInObject with
  | false => rfl
  | true =>
    rw [if_pos rfl]
    cases l with
    | nil => exact hr
    | cons i l =>
      have hi := h i List.mem_cons_self
      rw [encodePieces, encodePieces, if_neg Bool.false_ne_true, if_pos rfl, List.nil_append,
        List.append_assoc, List.append_assoc]
      cases i.1 with
      | none => exact hi.skipQuoted _
      | some label => exact skipQuoted_label label _

/-- One turn of the loop over the members. -/
theorem parseMembers_piece (hend : endchar ∉ '\x22' :: fieldStarters) {p : Piece} (hp : p.Starts)
    (label : Option QuotedName) (read : Bool) (n : ℕ) (cs : List Char) (context : σ) :
    parseMembers callback endchar (n + 1)
    ((if read then [] else encodeLabel label) ++ (p.chars ++ cs)) context =
      (callback (p.chars ++ cs) context).bind fun r => parseMembers callback endchar n r.1 r.2 := by
  have hplain : parseMembers callback endchar (n + 1) (p.chars ++ cs) context =
      (callback (p.chars ++ cs) context).bind fun r => parseMembers callback endchar n r.1 r.2 := by
    obtain ⟨c, hc, ds, hchars⟩ := hp
    have hce : c ≠ endchar := fun h => hend (h ▸ List.mem_cons_of_mem _ hc)
    rw [hchars, List.cons_append, parseMembers, if_neg hce, if_neg (fieldStarters_ne hc).2.2.1]
    rfl
  cases read with
  | true => simpa using hplain
  | false =>
    cases label with
    | none => simpa [encodeLabel] using hplain
    | some label =>
      have hqe : '\x22' ≠ endchar := fun h => hend (h ▸ List.mem_cons_self)
      have hskip := skipPast_append (label.notMem '\x22' (by simp)) (p.chars ++ cs)
      simp only [Bool.false_eq_true, if_false, encodeLabel, Option.elim, QuotedName.encode, List.cons_append,
        List.append_assoc, List.nil_append, parseMembers, if_neg hqe, if_true, hskip]
      rfl

/-- The loop applies the callback to the pieces in their order, each at its place. -/
theorem parseMembers_piecesAt (effect : ι → List Char → σ → σ)
    (hend : endchar ∉ '\x22' :: '?' :: '<' :: fieldStarters) (hdigit : endchar.isDigit = false)
    {l : List (Option QuotedName × ι)} (hstart : ∀ i ∈ l, (piece i.2).Starts)
    (h : ∀ i ∈ l, ∀ rest, FollowsField rest → ∀ context, callback ((piece i.2).chars ++ rest) context =
      some ((piece i.2).after rest, effect i.2 ((piece i.2).chars ++ rest) context))
    (read : Bool) (rest : List Char) (context : σ) {n : ℕ} (hn : l.length < n) :
    parseMembers callback endchar n (encodePieces piece read l ++ endchar :: rest) context =
      some (rest, (piecesAt piece (endchar :: rest) l).foldl (fun c x => effect x.1 x.2 c) context) := by
  have hend' : endchar ∉ '\x22' :: fieldStarters := by
    intro hm
    simp only [List.mem_cons, not_or] at hend hm
    exact hm.elim hend.1 hend.2.2.2
  have hne : endchar ≠ '?' ∧ endchar ≠ '<' ∧ endchar ≠ '\x22' := by
    simp only [List.mem_cons, not_or] at hend
    exact ⟨hend.2.1, hend.2.2.1, hend.1⟩
  induction l generalizing read context n with
  | nil =>
    obtain ⟨m, rfl⟩ := Nat.exists_eq_succ_of_ne_zero (by omega : n ≠ 0)
    rw [encodePieces, List.nil_append, parseMembers, if_pos rfl]
    rfl
  | cons i l ih =>
    have hn' : l.length + 1 < n := hn
    obtain ⟨m, rfl⟩ : ∃ m, n = m + 1 := ⟨n - 1, by omega⟩
    have htail : ∀ j ∈ l, (piece j.2).Starts := fun j hj => hstart j (List.mem_cons_of_mem i hj)
    have hfollows := followsField_pieces htail (followsField_cons hne hdigit rest)
    have hi := h i List.mem_cons_self _ hfollows context
    have hafter := after_pieces (piece i.2) htail (skipQuoted_cons hne.2.2 rest)
    rw [encodePieces, List.append_assoc, List.append_assoc,
      parseMembers_piece hend' (hstart i List.mem_cons_self), hi, hafter]
    exact ih htail (fun j hj => h j (List.mem_cons_of_mem i hj)) _ _ (by omega)

theorem foldl_piecesAt (effect : ι → σ → σ) (tail : List Char) : ∀ (l : List (Option QuotedName × ι)) (c : σ),
    (piecesAt piece tail l).foldl (fun c x => effect x.1 c) c = l.foldl (fun c i => effect i.2 c) c
  | [], _ => rfl
  | (_, i) :: l, c => foldl_piecesAt effect tail l (effect i c)

end

/-! ## The fields of a structure -/

theorem ExtendedType.starts (t : ExtendedType) : t.piece.Starts := by
  cases t with
  | qualified q t => exact ⟨q.encodingChar, by cases q <;> decide, t.encode, rfl⟩
  | primitive p =>
    cases p with
    | arithmetic a => exact ⟨a.encodingChar, by cases a <;> decide, [], rfl⟩
    | bool => exact ⟨'B', by decide, [], rfl⟩
    | classPointer => exact ⟨'#', by decide, [], rfl⟩
    | sel => exact ⟨':', by decide, [], rfl⟩
    | cString => exact ⟨'*', by decide, [], rfl⟩
  | complex a => exact ⟨'j', by decide, _, rfl⟩
  | object form => exact ⟨'@', by decide, _, rfl⟩
  | pointer r => exact ⟨'^', by decide, _, rfl⟩
  | array count t => exact ⟨'[', by decide, _, rfl⟩
  | struct name fields => exact ⟨'{', by decide, _, rfl⟩
  | union name fields => exact ⟨'(', by decide, _, rfl⟩

theorem Field.starts (f : Field) : f.piece.Starts := by
  cases f with
  | type t => exact t.starts
  | bitfield offset kind bits => exact ⟨'b', by decide, _, rfl⟩

theorem Field.chars_piece (f : Field) : f.piece.chars = f.encode := by
  cases f <;> rfl

theorem Fields.encode_eq : ∀ fs : Fields, fs.encode = encodePieces Field.piece false fs.items
  | .nil => rfl
  | .cons label field rest => by
    rw [Fields.encode, Fields.items, encodePieces, Field.chars_piece, rest.encode_eq]
    rfl

theorem Fields.length_items_le : ∀ fs : Fields, fs.items.length ≤ fs.encode.length
  | .nil => Nat.le_refl 0
  | .cons label field rest => by
    have hrest := rest.length_items_le
    obtain ⟨c, -, cs, hfield⟩ := field.starts
    rw [Field.chars_piece] at hfield
    rw [Fields.items, Fields.encode, hfield]
    simp only [List.length_cons, List.length_append]
    omega

section

variable {σ : Type} {callback : List Char → σ → Option (List Char × σ)} {endchar : Char}

/-- A structure or union is its fields, one after the other, each at its place. -/
theorem parseStructOrUnion_fieldsAt (effect : Field → List Char → σ → σ)
    (hend : endchar ∉ '\x22' :: '?' :: '<' :: '=' :: fieldStarters) (hdigit : endchar.isDigit = false)
    (name : NameWithout ['=', endchar]) (fs : Fields)
    (h : ∀ i ∈ fs.items, ∀ rest, FollowsField rest → ∀ context, callback (i.2.piece.chars ++ rest) context =
      some (i.2.piece.after rest, effect i.2 (i.2.piece.chars ++ rest) context)) (rest : List Char)
    (context : σ) :
    parseStructOrUnion callback (name.chars ++ '=' :: (fs.encode ++ endchar :: rest)) context endchar =
      some (rest, (piecesAt Field.piece (endchar :: rest) fs.items).foldl
        (fun c x => effect x.1 x.2 c) context) := by
  simp only [List.mem_cons, not_or] at hend
  have hend' : endchar ∉ '\x22' :: '?' :: '<' :: fieldStarters := by
    simp only [List.mem_cons, not_or]
    exact ⟨hend.1, hend.2.1, hend.2.2.1, hend.2.2.2.2⟩
  have hlen := fs.length_items_le
  have hn : fs.items.length < (fs.encode ++ endchar :: rest).length + 1 := by
    rw [List.length_append]
    omega
  rw [parseStructOrUnion, skipName_definition name.notMem hend.2.2.2.1]
  rw [fs.encode_eq] at hn ⊢
  exact parseMembers_piecesAt effect hend' hdigit (fun i _ => i.2.starts) h false rest context hn

/-- A structure or union is its fields, one after the other. -/
theorem parseStructOrUnion_fields (effect : Field → σ → σ)
    (hend : endchar ∉ '\x22' :: '?' :: '<' :: '=' :: fieldStarters) (hdigit : endchar.isDigit = false)
    (name : NameWithout ['=', endchar]) (fs : Fields)
    (h : ∀ i ∈ fs.items, i.2.piece.ParsedBy callback (effect i.2) FollowsField) (rest : List Char)
    (context : σ) :
    parseStructOrUnion callback (name.chars ++ '=' :: (fs.encode ++ endchar :: rest)) context endchar =
      some (rest, fs.items.foldl (fun c i => effect i.2 c) context) := by
  rw [parseStructOrUnion_fieldsAt (fun f _ => effect f) hend hdigit name fs h rest context]
  exact congrArg (fun c => some (rest, c)) (foldl_piecesAt effect (endchar :: rest) fs.items context)

/-- An array is its element. -/
theorem parseArray_piece (abi : Abi) (count : Numeral) {p : Piece} (hp : p.Starts) {effect : σ → σ}
    (h : p.ParsedBy callback effect Follows) (rest : List Char) (context : σ) :
    parseArray callback abi (count.digits ++ (p.chars ++ ']' :: rest)) context =
      some (toInt (min (count.value : ℤ) abi.longMax), rest, effect context) := by
  have hafter : p.after (']' :: rest) = ']' :: rest := by
    rw [Piece.after, skipQuoted_cons (by decide), ite_self]
  have hi := h (']' :: rest) (follows_cons (by decide) rest) context
  rw [hafter] at hi
  simp only [parseArray, strtol_numeral abi count (hp.follows _).2, hi, Option.bind_eq_bind, Option.bind_some]

end

/-! ## Objects -/

/-- The object encodings are read up to their end, except that a signature is read up to its first `>`. -/
theorem skipObjectExtendedQualifiers_extension {form : ExtendedObject} (hform : form.Simple)
    {rest : List Char} (h : Follows rest) :
    skipObjectExtendedQualifiers (form.extension ++ rest) =
      some ((ExtendedType.object form).piece.after rest) := by
  cases form with
  | any => exact skipObjectExtendedQualifiers_follows h
  | named className => exact skipObjectExtendedQualifiers_named className rest
  | block => exact skipObjectExtendedQualifiers_block h
  | signed signature =>
    have hskip := skipPast_append hform rest
    simpa [ExtendedObject.extension, skipObjectExtendedQualifiers, ExtendedType.piece, Piece.after,
      ExtendedType.endsInObject] using hskip

end Libobjc2.Encoding
