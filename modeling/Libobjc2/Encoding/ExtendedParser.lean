import Libobjc2.Encoding.ExtendedTypes

/-!
# The type parsers on extended encodings

`alignof_type` and `sizeof_type` on the encodings of `ExtendedTypes`, where the signatures of blocks are
simple.

Results:
* `alignofType_text`, `sizeofType_text`: what the parsers do on a type, whatever follows it. They leave
  `ExtendedType.behind`, and have the effect `ExtendedType.align` and `ExtendedType.running` on their context.
* `alignofType_extended`, `sizeofType_extended`: the same where the text behind the type is not read as a part
  of it.
* `sizeofType_referent`: the same for what a pointer may point at.
-/

namespace Libobjc2.Encoding

open Libobjc2.Alignment

/-! ## Effects -/

mutual

/-- The alignment that `alignof_type` finds, in bytes: none for a structure without members. -/
def ExtendedType.align (abi : Abi) : ExtendedType → ℕ
  | .qualified _ t => t.align abi
  | .primitive p => abi.alignof p.ctype
  | .complex a => abi.alignof (.complex a)
  | .object _ => abi.alignof .id
  | .pointer _ => abi.alignof .voidPointer
  | .array _ element => element.align abi
  | .struct _ fields | .union _ fields => fields.align abi

def Referent.align (abi : Abi) : Referent → ℕ
  | .qualified _ r => r.align abi
  | .void | .function | .opaqueStruct _ | .opaqueUnion _ => 0
  | .type t => t.align abi

def Field.align (abi : Abi) : Field → ℕ
  | .type t => t.align abi
  | .bitfield _ kind _ => abi.alignof kind.ctype

def Fields.align (abi : Abi) : Fields → ℕ
  | .nil => 0
  | .cons _ field rest => max (field.align abi) (rest.align abi)

end

mutual

/-- What `sizeof_type` does to the running size in bits. -/
def ExtendedType.running (abi : Abi) : ExtendedType → ℕ → ℕ
  | .qualified _ t, size => t.running abi size
  | .primitive p, size => abi.addType p.ctype size
  | .complex a, size => abi.addType (.complex a) size
  | .object _, size => abi.addType .id size
  | .pointer _, size => (size + abi.sizeof .voidPointer * 8) % abi.sizeMod
  | .array count t, size =>
    (size + t.running abi 0 * abi.toSize (toInt (min (count.value : ℤ) abi.longMax)) %
      abi.sizeMod) % abi.sizeMod
  | .struct _ fields, size => abi.roundUp (fields.running abi size) (fields.align abi * 8)
  | .union _ fields, size => (size + fields.largestRunning abi 0) % abi.sizeMod

def Referent.running (abi : Abi) : Referent → ℕ → ℕ
  | .qualified _ r, size => r.running abi size
  | .void, size | .function, size | .opaqueStruct _, size => size
  | .opaqueUnion _, size => size % abi.sizeMod
  | .type t, size => t.running abi size

def Field.running (abi : Abi) : Field → ℕ → ℕ
  | .type t, size => t.running abi size
  | .bitfield _ _ bits, size => (size + abi.toSize (min (bits.value : ℤ) abi.longMax)) % abi.sizeMod

/-- The members of a structure, one after the other. -/
def Fields.running (abi : Abi) : Fields → ℕ → ℕ
  | .nil, size => size
  | .cons _ field rest, size => rest.running abi (field.running abi size)

/-- The members of a union, each from the start. -/
def Fields.largestRunning (abi : Abi) : Fields → ℕ → ℕ
  | .nil, size => size
  | .cons _ field rest, size => rest.largestRunning abi (max size (field.running abi 0))

end

theorem foldl_fieldAlign (abi : Abi) : ∀ (fs : Fields) (a : ℕ),
    fs.items.foldl (fun c i => max (i.2.align abi * 8) c) a = max (fs.align abi * 8) a
  | .nil, a => (Nat.zero_max a).symm
  | .cons _ field rest, a => by
    rw [Fields.items, List.foldl_cons, foldl_fieldAlign abi rest, Fields.align]
    dsimp only
    omega

theorem foldl_fieldRunning (abi : Abi) : ∀ (fs : Fields) (size : ℕ),
    fs.items.foldl (fun c i => i.2.running abi c) size = fs.running abi size
  | .nil, _ => rfl
  | .cons _ field rest, size => foldl_fieldRunning abi rest (field.running abi size)

theorem foldl_largestRunning (abi : Abi) : ∀ (fs : Fields) (size : ℕ),
    fs.items.foldl (fun c i => max c (i.2.running abi 0)) size = fs.largestRunning abi size
  | .nil, _ => rfl
  | .cons _ field rest, size => foldl_largestRunning abi rest (max size (field.running abi 0))

/-! ## Single characters -/

theorem objcSkipTypeQualifiers_cons (q : Qualifier) (cs : List Char) :
    objcSkipTypeQualifiers (q.encodingChar :: cs) = objcSkipTypeQualifiers cs := by
  cases q <;> rfl

theorem alignofType_qualified (abi : Abi) (q : Qualifier) (fuel : ℕ) (cs : List Char) (a : ℕ) :
    alignofType abi (fuel + 1) (q.encodingChar :: cs) a = alignofType abi (fuel + 1) cs a := by
  rw [alignofType, alignofType, objcSkipTypeQualifiers_cons]

theorem sizeofType_qualified (abi : Abi) (q : Qualifier) (fuel : ℕ) (cs : List Char) (size : ℕ) :
    sizeofType abi (fuel + 1) (q.encodingChar :: cs) size = sizeofType abi (fuel + 1) cs size := by
  rw [sizeofType, sizeofType, objcSkipTypeQualifiers_cons]

theorem alignofType_primitive (abi : Abi) (p : PrimitiveType) (fuel : ℕ) (cs : List Char) (a : ℕ) :
    alignofType abi (fuel + 1) (p.encodingChar :: cs) a = some (cs, max (abi.alignof p.ctype * 8) a) := by
  cases p with
  | arithmetic b => cases b <;> rfl
  | _ => rfl

theorem sizeofType_primitive (abi : Abi) (p : PrimitiveType) (fuel : ℕ) (cs : List Char) (size : ℕ) :
    sizeofType abi (fuel + 1) (p.encodingChar :: cs) size = some (cs, abi.addType p.ctype size) := by
  cases p with
  | arithmetic b => cases b <;> rfl
  | _ => rfl

theorem PrimitiveType.not_isDigit (p : PrimitiveType) : p.encodingChar.isDigit = false := by
  cases p with
  | arithmetic b => cases b <;> decide
  | _ => decide

theorem follows_of_digit {c : Char} (h : c.isDigit = true) (rest : List Char) : Follows (c :: rest) := by
  have hne : ∀ d, d.isDigit = false → c ≠ d := by
    intro d hd heq
    rw [heq, hd] at h
    cases h
  exact follows_cons ⟨hne '?' (by decide), hne '<' (by decide), hne '\x22' (by decide)⟩ rest

theorem Numeral.exists_cons (n : Numeral) : ∃ d ds, n.digits = d :: ds ∧ d.isDigit := by
  obtain ⟨d, ds, hn⟩ := List.exists_cons_of_ne_nil n.ne_nil
  exact ⟨d, ds, hn, n.isDigit d (by simp [hn])⟩

theorem ExtendedType.length_pos (t : ExtendedType) : 0 < t.encode.length := by
  obtain ⟨c, -, cs, h⟩ := t.starts
  have h : t.encode = c :: cs := h
  rw [h]
  exact Nat.zero_lt_succ _

theorem Referent.length_pos (r : Referent) : 0 < r.encode.length := by
  cases r with
  | type t => exact t.length_pos
  | _ => exact Nat.zero_lt_succ _

theorem Piece.after_closed {p : Piece} (h : p.endsInObject = false) (rest : List Char) :
    p.after rest = rest := by
  rw [Piece.after, h, if_neg Bool.false_ne_true]

/-! ## What is left of a text -/

mutual

/-- The text behind the type, when `rest` follows it. -/
def ExtendedType.behind : ExtendedType → List Char → Option (List Char)
  | .qualified _ t, rest => t.behind rest
  | .object form, rest => skipObjectExtendedQualifiers (form.extension ++ rest)
  | .pointer referent, rest => referent.behind rest
  | _, rest => some rest

def Referent.behind : Referent → List Char → Option (List Char)
  | .qualified _ r, rest => r.behind rest
  | .type t, rest => t.behind rest
  | _, rest => some rest

end

mutual

theorem ExtendedType.behind_follows : ∀ (t : ExtendedType), t.Simple → ∀ {rest : List Char}, Follows rest →
    t.behind rest = some (t.piece.after rest)
  | .qualified _ t, hs, _, hr => t.behind_follows hs hr
  | .object _, hs, _, hr => skipObjectExtendedQualifiers_extension hs hr
  | .pointer r, hs, _, hr => r.behind_follows hs hr
  | .primitive _, _, _, _ | .complex _, _, _, _ | .array _ _, _, _, _ | .struct _ _, _, _, _
  | .union _ _, _, _, _ => rfl

theorem Referent.behind_follows : ∀ (r : Referent), r.Simple → ∀ {rest : List Char}, Follows rest →
    r.behind rest = some (r.piece.after rest)
  | .qualified _ r, hs, _, hr => r.behind_follows hs hr
  | .type t, hs, _, hr => t.behind_follows hs hr
  | .void, _, _, _ | .function, _, _, _ | .opaqueStruct _, _, _, _ | .opaqueUnion _, _, _, _ => rfl

end

/-- In front of such a text, the callback moves behind it and has this effect on its context. -/
def ReadBy {σ : Type} (callback : List Char → σ → Option (List Char × σ)) (chars : List Char)
    (behind : List Char → Option (List Char)) (effect : σ → σ) : Prop :=
  ∀ rest context, callback (chars ++ rest) context = (behind rest).map fun r => (r, effect context)

theorem ReadBy.parsedBy {σ : Type} {callback : List Char → σ → Option (List Char × σ)} {p : Piece}
    {behind : List Char → Option (List Char)} {effect : σ → σ} (h : ReadBy callback p.chars behind effect)
    (hbehind : ∀ {rest}, Follows rest → behind rest = some (p.after rest)) :
    p.ParsedBy callback effect Follows := by
  intro rest hr context
  rw [h rest context, hbehind hr, Option.map_some]

/-! ## `alignof_type` -/

/-- The number of bits is read up to the last digit, whatever follows it. -/
theorem alignofType_bitfield_text (abi : Abi) (fuel : ℕ) (offset : Numeral) (kind : PrimitiveType)
    (bits : Numeral) (rest : List Char) (a : ℕ) :
    alignofType abi (fuel + 2) ((Field.bitfield offset kind bits).encode ++ rest) a =
      some ((strtol abi (bits.digits ++ rest)).2,
        max ((Field.bitfield offset kind bits).align abi * 8) a) := by
  have hoffset := @strtol_numeral abi offset (kind.encodingChar :: (bits.digits ++ rest)) (by
    intro c hc
    obtain rfl := Option.some.inj hc
    exact kind.not_isDigit)
  have hcase (cs : List Char) : alignofType abi (fuel + 2) ('b' :: cs) a =
      (alignofType abi (fuel + 1) (strtol abi cs).2 a).bind fun r => some ((strtol abi r.1).2, r.2) := rfl
  rw [Field.encode, List.cons_append, List.append_assoc, List.cons_append, hcase, hoffset,
    alignofType_primitive, Option.bind_some]
  rfl

theorem alignofType_bitfield (abi : Abi) (fuel : ℕ) (offset : Numeral) (kind : PrimitiveType)
    (bits : Numeral) :
    (Field.bitfield offset kind bits).piece.ParsedBy (alignofType abi (fuel + 2))
      (fun a => max ((Field.bitfield offset kind bits).align abi * 8) a) FollowsField := by
  intro rest hr a
  rw [Field.piece, alignofType_bitfield_text, strtol_numeral abi bits hr.2, Piece.after_closed rfl]

mutual

/-- `alignof_type` accumulates the alignment of the type. -/
theorem alignofType_text (abi : Abi) : ∀ (t : ExtendedType), t.Simple → ∀ fuel, t.encode.length ≤ fuel →
    ReadBy (alignofType abi fuel) t.encode t.behind (fun a => max (t.align abi * 8) a)
  | .qualified q t, hs, fuel + 1, h => by
    intro rest a
    have ht := alignofType_text abi t hs (fuel + 1) (by
      rw [ExtendedType.encode, List.length_cons] at h
      omega) rest a
    rw [← alignofType_qualified abi q] at ht
    exact ht
  | .primitive p, _, fuel + 1, _ => fun rest a => alignofType_primitive abi p fuel rest a
  | .complex b, _, fuel + 1, _ => by
    intro rest a
    cases b <;> rfl
  | .object form, hs, fuel + 1, _ => by
    intro rest a
    have hcase : alignofType abi (fuel + 1) ('@' :: (form.extension ++ rest)) a =
        (skipObjectExtendedQualifiers (form.extension ++ rest)).bind
          fun rest => some (rest, max (abi.alignof .id * 8) a) := rfl
    exact hcase.trans Option.map_eq_bind.symm
  | .pointer r, hs, fuel + 1, h => by
    intro rest a
    have hlen : r.encode.length ≤ fuel := by
      rw [ExtendedType.encode, List.length_cons] at h
      omega
    have hreferent := alignofType_referent_text abi r hs fuel hlen rest 0
    have hcase : alignofType abi (fuel + 1) ('^' :: (r.encode ++ rest)) a =
        (alignofType abi fuel (r.encode ++ rest) 0).bind
          fun x => some (x.1, max (abi.alignof .voidPointer * 8) a) := rfl
    rw [hreferent] at hcase
    refine hcase.trans ?_
    rw [ExtendedType.behind]
    cases r.behind rest <;> rfl
  | .array count t, hs, fuel + 1, h => by
    intro rest a
    have hlen : t.encode.length ≤ fuel := by
      simp only [ExtendedType.encode, List.length_cons, List.length_append] at h
      omega
    have ht := (alignofType_text abi t hs fuel hlen).parsedBy (p := t.piece) (t.behind_follows hs)
    have hcase (cs : List Char) : alignofType abi (fuel + 1) ('[' :: cs) a =
        (parseArray (alignofType abi fuel) abi cs a).bind fun r => some (r.2.1, r.2.2) := rfl
    rw [ExtendedType.encode, List.cons_append, List.append_assoc,
      List.append_assoc, List.singleton_append, hcase, show t.encode = t.piece.chars from rfl,
      parseArray_piece abi count t.starts ht]
    rfl
  | .struct name fs, hs, fuel + 1, h => by
    intro rest a
    have hlen : fs.encode.length ≤ fuel := by
      simp only [ExtendedType.encode, List.length_cons, List.length_append] at h
      omega
    have hcase (cs : List Char) : alignofType abi (fuel + 1) ('{' :: cs) a =
        parseStructOrUnion (alignofType abi fuel) cs a '}' := rfl
    rw [ExtendedType.encode, List.cons_append, List.append_assoc,
      List.cons_append, List.append_assoc, List.singleton_append, hcase,
      parseStructOrUnion_fields (fun f a => max (f.align abi * 8) a) (by decide) (by decide) name fs
        (alignofType_fields abi fs hs fuel hlen),
      foldl_fieldAlign]
    rfl
  | .union name fs, hs, fuel + 1, h => by
    intro rest a
    have hlen : fs.encode.length ≤ fuel := by
      simp only [ExtendedType.encode, List.length_cons, List.length_append] at h
      omega
    have hcase (cs : List Char) : alignofType abi (fuel + 1) ('(' :: cs) a =
        parseStructOrUnion (alignofType abi fuel) cs a ')' := rfl
    rw [ExtendedType.encode, List.cons_append, List.append_assoc,
      List.cons_append, List.append_assoc, List.singleton_append, hcase,
      parseStructOrUnion_fields (fun f a => max (f.align abi * 8) a) (by decide) (by decide) name fs
        (alignofType_fields abi fs hs fuel hlen),
      foldl_fieldAlign]
    rfl
  | t, _, 0, h => absurd t.length_pos (by omega)

theorem alignofType_referent_text (abi : Abi) : ∀ (r : Referent), r.Simple → ∀ fuel, r.encode.length ≤ fuel →
    ReadBy (alignofType abi fuel) r.encode r.behind (fun a => max (r.align abi * 8) a)
  | .qualified q r, hs, fuel + 1, h => by
    intro rest a
    have ht := alignofType_referent_text abi r hs (fuel + 1) (by
      rw [Referent.encode, List.length_cons] at h
      omega) rest a
    rw [← alignofType_qualified abi q] at ht
    exact ht
  | .void, _, fuel + 1, _ | .function, _, fuel + 1, _ => by
    intro rest a
    have hmax : max (0 * 8) a = a := by omega
    simp only [Referent.align, hmax]
    rfl
  | .opaqueStruct name, _, fuel + 1, _ => by
    intro rest a
    have hcase (cs : List Char) : alignofType abi (fuel + 1) ('{' :: cs) a =
        parseStructOrUnion (alignofType abi fuel) cs a '}' := rfl
    rw [Referent.encode, List.cons_append, List.append_assoc,
      List.singleton_append, hcase, parseStructOrUnion_opaque]
    simp [Referent.align, Referent.behind]
  | .opaqueUnion name, _, fuel + 1, _ => by
    intro rest a
    have hcase (cs : List Char) : alignofType abi (fuel + 1) ('(' :: cs) a =
        parseStructOrUnion (alignofType abi fuel) cs a ')' := rfl
    rw [Referent.encode, List.cons_append, List.append_assoc,
      List.singleton_append, hcase, parseStructOrUnion_opaque]
    simp [Referent.align, Referent.behind]
  | .type t, hs, fuel, h => alignofType_text abi t hs fuel h
  | .qualified q r, _, 0, h => absurd (Referent.qualified q r).length_pos (by omega)
  | .void, _, 0, h => absurd Referent.void.length_pos (by omega)
  | .function, _, 0, h => absurd Referent.function.length_pos (by omega)
  | .opaqueStruct name, _, 0, h => absurd (Referent.opaqueStruct name).length_pos (by omega)
  | .opaqueUnion name, _, 0, h => absurd (Referent.opaqueUnion name).length_pos (by omega)

theorem alignofType_field (abi : Abi) : ∀ (f : Field), f.Simple → ∀ fuel, f.encode.length ≤ fuel →
    f.piece.ParsedBy (alignofType abi fuel) (fun a => max (f.align abi * 8) a) FollowsField
  | .type t, hs, fuel, h => fun rest hr a =>
    ((alignofType_text abi t hs fuel h).parsedBy (p := t.piece) (t.behind_follows hs)) rest hr.1 a
  | .bitfield offset kind bits, _, fuel + 2, _ => alignofType_bitfield abi fuel offset kind bits
  | .bitfield offset kind bits, _, 0, h | .bitfield offset kind bits, _, 1, h => by
    simp only [Field.encode, List.length_cons, List.length_append] at h
    omega

theorem alignofType_fields (abi : Abi) : ∀ (fs : Fields), fs.Simple → ∀ fuel, fs.encode.length ≤ fuel →
    ∀ i ∈ fs.items, i.2.piece.ParsedBy (alignofType abi fuel) (fun a => max (i.2.align abi * 8) a)
    FollowsField
  | .nil, _, _, _, i, hi => absurd hi List.not_mem_nil
  | .cons label field rest, hs, fuel, h, i, hi => by
    rw [Fields.encode, List.length_append, List.length_append] at h
    rcases List.mem_cons.mp hi with rfl | hi
    · exact alignofType_field abi field hs.1 fuel (by omega)
    · exact alignofType_fields abi rest hs.2 fuel (by omega) i hi

end

/-- `alignof_type` moves behind the type. -/
theorem alignofType_extended (abi : Abi) (t : ExtendedType) (hs : t.Simple) (fuel : ℕ)
    (h : t.encode.length ≤ fuel) :
    t.piece.ParsedBy (alignofType abi fuel) (fun a => max (t.align abi * 8) a) Follows :=
  (alignofType_text abi t hs fuel h).parsedBy (p := t.piece) (t.behind_follows hs)

/-- `objc_alignof_type` on a type, whatever follows it. -/
theorem objcAlignofType_text (abi : Abi) (r : Referent) (hs : r.Simple) {rest rest' : List Char}
    (h : r.behind rest = some rest') : objcAlignofType abi (r.encode ++ rest) = some (r.align abi) := by
  have hr := alignofType_referent_text abi r hs (r.encode ++ rest).length (by
    rw [List.length_append]
    omega) rest 0
  rw [objcAlignofType, hr, h]
  simp

/-! ## `sizeof_type` -/

theorem sizeofType_bitfield_text (abi : Abi) (fuel : ℕ) (offset : Numeral) (kind : PrimitiveType)
    (bits : Numeral) (rest : List Char) (size : ℕ) :
    sizeofType abi (fuel + 1) ((Field.bitfield offset kind bits).encode ++ rest) size =
      some ((strtol abi (bits.digits ++ rest)).2,
        (size + abi.toSize (strtol abi (bits.digits ++ rest)).1) % abi.sizeMod) := by
  have hoffset := @strtol_numeral abi offset (kind.encodingChar :: (bits.digits ++ rest)) (by
    intro c hc
    obtain rfl := Option.some.inj hc
    exact kind.not_isDigit)
  have hcase {cs bitsAt : List Char} {c : Char} (h : (strtol abi cs).2 = c :: bitsAt) :
      sizeofType abi (fuel + 1) ('b' :: cs) size =
        some ((strtol abi bitsAt).2, (size + abi.toSize (strtol abi bitsAt).1) % abi.sizeMod) := by
    have hnone : typeCase 'b' = none := rfl
    unfold sizeofType
    simp [objcSkipTypeQualifiers, hnone, h]
  rw [Field.encode, List.cons_append, List.append_assoc, List.cons_append, hcase (congrArg Prod.snd hoffset)]

theorem sizeofType_bitfield (abi : Abi) (fuel : ℕ) (offset : Numeral) (kind : PrimitiveType)
    (bits : Numeral) :
    (Field.bitfield offset kind bits).piece.ParsedBy (sizeofType abi (fuel + 1))
      ((Field.bitfield offset kind bits).running abi) FollowsField := by
  intro rest hr size
  rw [Field.piece, sizeofType_bitfield_text, strtol_numeral abi bits hr.2, Piece.after_closed rfl]
  rfl

/-- The case of a structure, whose members the callback goes through. -/
theorem sizeofStruct_fields (abi : Abi) {callback : List Char → ℕ → Option (List Char × ℕ)}
    (name : NameWithout ['=', '}']) (fs : Fields) (hs : fs.Simple)
    (h : ∀ i ∈ fs.items, i.2.piece.ParsedBy callback (i.2.running abi) FollowsField) (rest : List Char)
    (size : ℕ) :
    sizeofStruct abi callback ((ExtendedType.struct name fs).encode ++ rest)
      (name.chars ++ '=' :: (fs.encode ++ '}' :: rest)) size =
      some (rest, abi.roundUp (fs.running abi size) (fs.align abi * 8)) := by
  have hbehind : (Referent.type (.struct name fs)).behind rest = some rest := rfl
  have halign := objcAlignofType_text abi (.type (.struct name fs)) hs hbehind
  have halign : objcAlignofType abi ((ExtendedType.struct name fs).encode ++ rest) =
      some (fs.align abi) := halign
  rw [sizeofStruct, parseStruct, parseStructOrUnion_fields (fun f => f.running abi) (by decide)
    (by decide) name fs h, halign,
    foldl_fieldRunning]
  rfl

mutual

/-- `sizeof_type` adds the type to the running size. -/
theorem sizeofType_text (abi : Abi) : ∀ (t : ExtendedType), t.Simple → ∀ fuel, t.encode.length ≤ fuel →
    ReadBy (sizeofType abi fuel) t.encode t.behind (t.running abi)
  | .qualified q t, hs, fuel + 1, h => by
    intro rest size
    have ht := sizeofType_text abi t hs (fuel + 1) (by
      rw [ExtendedType.encode, List.length_cons] at h
      omega) rest size
    rw [← sizeofType_qualified abi q] at ht
    exact ht
  | .primitive p, _, fuel + 1, _ => fun rest size => sizeofType_primitive abi p fuel rest size
  | .complex b, _, fuel + 1, _ => by
    intro rest size
    cases b <;> rfl
  | .object form, hs, fuel + 1, _ => by
    intro rest size
    have hcase : sizeofType abi (fuel + 1) ('@' :: (form.extension ++ rest)) size =
        (skipObjectExtendedQualifiers (form.extension ++ rest)).bind
          fun rest => some (rest, abi.addType .id size) := rfl
    exact hcase.trans Option.map_eq_bind.symm
  | .pointer r, hs, fuel + 1, h => by
    intro rest size
    have hlen : r.encode.length ≤ fuel := by
      rw [ExtendedType.encode, List.length_cons] at h
      omega
    have hreferent := sizeofType_referent_text abi r hs fuel hlen rest 0
    have hcase : sizeofType abi (fuel + 1) ('^' :: (r.encode ++ rest)) size =
        (sizeofType abi fuel (r.encode ++ rest) 0).bind
          fun x => some (x.1, (size + abi.sizeof .voidPointer * 8) % abi.sizeMod) := rfl
    rw [hreferent] at hcase
    refine hcase.trans ?_
    rw [ExtendedType.behind]
    cases r.behind rest <;> rfl
  | .array count t, hs, fuel + 1, h => by
    intro rest size
    have hlen : t.encode.length ≤ fuel := by
      simp only [ExtendedType.encode, List.length_cons, List.length_append] at h
      omega
    have ht := (sizeofType_text abi t hs fuel hlen).parsedBy (p := t.piece) (t.behind_follows hs)
    have hcase (cs : List Char) : sizeofType abi (fuel + 1) ('[' :: cs) size =
        (parseArray (sizeofType abi fuel) abi cs 0).bind fun r =>
          some (r.2.1, (size + r.2.2 * abi.toSize r.1 % abi.sizeMod) % abi.sizeMod) := rfl
    rw [ExtendedType.encode, List.cons_append, List.append_assoc,
      List.append_assoc, List.singleton_append, hcase, show t.encode = t.piece.chars from rfl,
      parseArray_piece abi count t.starts ht]
    rfl
  | .struct name fs, hs, fuel + 1, h => by
    intro rest size
    have hlen : fs.encode.length ≤ fuel := by
      simp only [ExtendedType.encode, List.length_cons, List.length_append] at h
      omega
    have hcase (cs : List Char) : sizeofType abi (fuel + 1) ('{' :: cs) size =
        sizeofStruct abi (sizeofType abi fuel) ('{' :: cs) cs size := rfl
    have hstruct := sizeofStruct_fields abi name fs hs (sizeofType_fields abi fs hs fuel hlen) rest size
    rw [ExtendedType.encode, List.cons_append, List.append_assoc, List.cons_append, List.append_assoc,
      List.singleton_append] at hstruct ⊢
    rw [hcase]
    exact hstruct
  | .union name fs, hs, fuel + 1, h => by
    intro rest size
    have hlen : fs.encode.length ≤ fuel := by
      simp only [ExtendedType.encode, List.length_cons, List.length_append] at h
      omega
    have hfields := sizeofType_fields abi fs hs fuel hlen
    have hunion : ∀ i ∈ fs.items, i.2.piece.ParsedBy (sizeofUnionField (sizeofType abi fuel))
        (fun c => max c (i.2.running abi 0)) FollowsField := by
      intro i hi rest hr c
      rw [sizeofUnionField, hfields i hi rest hr 0]
      rfl
    have hcase (cs : List Char) : sizeofType abi (fuel + 1) ('(' :: cs) size =
        (parseStructOrUnion (sizeofUnionField (sizeofType abi fuel)) cs 0 ')').bind fun r =>
          some (r.1, (size + r.2) % abi.sizeMod) := rfl
    rw [ExtendedType.encode, List.cons_append, List.append_assoc,
      List.cons_append, List.append_assoc, List.singleton_append, hcase,
      parseStructOrUnion_fields (fun f c => max c (f.running abi 0)) (by decide) (by decide) name fs
      hunion, foldl_largestRunning]
    rfl
  | t, _, 0, h => absurd t.length_pos (by omega)

/-- The same for what a pointer may point at, and a method return. -/
theorem sizeofType_referent_text (abi : Abi) : ∀ (r : Referent), r.Simple → ∀ fuel, r.encode.length ≤ fuel →
    ReadBy (sizeofType abi fuel) r.encode r.behind (r.running abi)
  | .qualified q r, hs, fuel + 1, h => by
    intro rest size
    have ht := sizeofType_referent_text abi r hs (fuel + 1) (by
      rw [Referent.encode, List.length_cons] at h
      omega) rest size
    rw [← sizeofType_qualified abi q] at ht
    exact ht
  | .void, _, fuel + 1, _ | .function, _, fuel + 1, _ => fun _ _ => rfl
  | .opaqueStruct name, hs, fuel + 1, _ => by
    intro rest size
    have hcase (cs : List Char) : sizeofType abi (fuel + 1) ('{' :: cs) size =
        sizeofStruct abi (sizeofType abi fuel) ('{' :: cs) cs size := rfl
    have hbehind : (Referent.opaqueStruct name).behind rest = some rest := rfl
    have halign := objcAlignofType_text abi (.opaqueStruct name) hs hbehind
    rw [Referent.encode, List.cons_append, List.append_assoc, List.singleton_append] at halign
    rw [Referent.encode, List.cons_append, List.append_assoc,
      List.singleton_append, hcase, sizeofStruct, parseStruct, parseStructOrUnion_opaque, halign]
    rfl
  | .opaqueUnion name, _, fuel + 1, _ => by
    intro rest size
    have hcase (cs : List Char) : sizeofType abi (fuel + 1) ('(' :: cs) size =
        (parseStructOrUnion (sizeofUnionField (sizeofType abi fuel)) cs 0 ')').bind fun r =>
          some (r.1, (size + r.2) % abi.sizeMod) := rfl
    rw [Referent.encode, List.cons_append, List.append_assoc,
      List.singleton_append, hcase, parseStructOrUnion_opaque]
    rfl
  | .type t, hs, fuel, h => sizeofType_text abi t hs fuel h
  | .qualified q r, _, 0, h => absurd (Referent.qualified q r).length_pos (by omega)
  | .void, _, 0, h => absurd Referent.void.length_pos (by omega)
  | .function, _, 0, h => absurd Referent.function.length_pos (by omega)
  | .opaqueStruct name, _, 0, h => absurd (Referent.opaqueStruct name).length_pos (by omega)
  | .opaqueUnion name, _, 0, h => absurd (Referent.opaqueUnion name).length_pos (by omega)

theorem sizeofType_field (abi : Abi) : ∀ (f : Field), f.Simple → ∀ fuel, f.encode.length ≤ fuel →
    f.piece.ParsedBy (sizeofType abi fuel) (f.running abi) FollowsField
  | .type t, hs, fuel, h => fun rest hr size =>
    ((sizeofType_text abi t hs fuel h).parsedBy (p := t.piece) (t.behind_follows hs)) rest hr.1 size
  | .bitfield offset kind bits, _, fuel + 1, _ => sizeofType_bitfield abi fuel offset kind bits
  | .bitfield offset kind bits, _, 0, h => by
    simp only [Field.encode, List.length_cons] at h
    omega

theorem sizeofType_fields (abi : Abi) : ∀ (fs : Fields), fs.Simple → ∀ fuel, fs.encode.length ≤ fuel →
    ∀ i ∈ fs.items, i.2.piece.ParsedBy (sizeofType abi fuel) (i.2.running abi) FollowsField
  | .nil, _, _, _, i, hi => absurd hi List.not_mem_nil
  | .cons label field rest, hs, fuel, h, i, hi => by
    rw [Fields.encode, List.length_append, List.length_append] at h
    rcases List.mem_cons.mp hi with rfl | hi
    · exact sizeofType_field abi field hs.1 fuel (by omega)
    · exact sizeofType_fields abi rest hs.2 fuel (by omega) i hi

end

/-- `sizeof_type` moves behind the type. -/
theorem sizeofType_extended (abi : Abi) (t : ExtendedType) (hs : t.Simple) (fuel : ℕ)
    (h : t.encode.length ≤ fuel) : t.piece.ParsedBy (sizeofType abi fuel) (t.running abi) Follows :=
  (sizeofType_text abi t hs fuel h).parsedBy (p := t.piece) (t.behind_follows hs)

theorem sizeofType_referent (abi : Abi) (r : Referent) (hs : r.Simple) (fuel : ℕ)
    (h : r.encode.length ≤ fuel) : r.piece.ParsedBy (sizeofType abi fuel) (r.running abi) Follows :=
  (sizeofType_referent_text abi r hs fuel h).parsedBy (p := r.piece) (r.behind_follows hs)

end Libobjc2.Encoding
