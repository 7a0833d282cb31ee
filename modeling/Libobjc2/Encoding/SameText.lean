import Libobjc2.Encoding.ExtendedParser
import Libobjc2.Encoding.Layout

/-!
# Where the two type parsers stop

`sizeof_type` and `alignof_type` (`encoding2.c`, lines 196–380) are two recursive parsers over one grammar.
The grammar is not free of prefixes: `@` starts `@?` and `@"Class"`, `@?` starts `@?<signature>`, and the
number of bits of a bit-field has any number of digits. The parsers read on where the text goes on in one of
these ways.

Results:
* `sameText`: the two parsers stop at one place, and at the end of the encoding if the text behind it is no
  continuation.
* `object_continued`: an object in front of a question mark.
-/

namespace Libobjc2.Encoding

/-- What the parsers can be called on. -/
inductive TypeText
  | referent (r : Referent)
  | bitfield (offset : Numeral) (kind : PrimitiveType) (bits : Numeral)

/-! ## Continuations -/

mutual

/-- The object encoding that the type ends with. -/
def ExtendedType.lastObject : ExtendedType → Option ExtendedObject
  | .qualified _ t => t.lastObject
  | .object form => some form
  | .pointer referent => referent.lastObject
  | _ => none

def Referent.lastObject : Referent → Option ExtendedObject
  | .qualified _ r => r.lastObject
  | .type t => t.lastObject
  | _ => none

end

/-- The character starts a longer object encoding. -/
def ExtendedObject.ContinuedBy : ExtendedObject → Char → Prop
  | .any, c => c = '?' ∨ c = '\x22'
  | .block, c => c = '<'
  | .named _, _ | .signed _, _ => False

namespace TypeText

def encode : TypeText → List Char
  | .referent r => r.encode
  | .bitfield offset kind bits => (Field.bitfield offset kind bits).encode

def Simple : TypeText → Prop
  | .referent r => r.Simple
  | .bitfield .. => True

/-- The text goes on with a part of a longer encoding. -/
def ContinuedBy : TypeText → List Char → Prop
  | .referent r, rest => ∃ form ∈ r.lastObject, ∃ c ∈ rest.head?, form.ContinuedBy c
  | .bitfield .., rest => ∃ c ∈ rest.head?, c.isDigit = true

end TypeText

theorem skipObjectExtendedQualifiers_not_continued {form : ExtendedObject} (hform : form.Simple)
    {rest : List Char} (h : ¬ ∃ c ∈ rest.head?, form.ContinuedBy c) :
    skipObjectExtendedQualifiers (form.extension ++ rest) = some rest := by
  cases form with
  | any =>
    cases rest with
    | nil => rfl
    | cons c cs =>
      have hc : ¬ (c = '?' ∨ c = '\x22') := fun hc => h ⟨c, rfl, hc⟩
      rw [not_or] at hc
      change skipObjectExtendedQualifiers (c :: cs) = _
      unfold skipObjectExtendedQualifiers
      split
      · next heq => exact absurd (List.cons.inj heq).1 hc.1
      · next heq => exact absurd (List.cons.inj heq).1 hc.1
      · next heq => exact absurd (List.cons.inj heq).1 hc.2
      · rfl
  | named className => exact skipObjectExtendedQualifiers_named className rest
  | block =>
    cases rest with
    | nil => rfl
    | cons c cs =>
      have hc : c ≠ '<' := fun hc => h ⟨c, rfl, hc⟩
      change skipObjectExtendedQualifiers ('?' :: c :: cs) = _
      unfold skipObjectExtendedQualifiers
      split
      · next heq => exact absurd (List.cons.inj (List.cons.inj heq).2).1 hc
      · next heq => rw [(List.cons.inj heq).2]
      · next heq => cases heq
      · next hne _ => exact absurd rfl (hne _)
  | signed signature =>
    have hskip := skipPast_append hform rest
    simpa [ExtendedObject.extension, skipObjectExtendedQualifiers] using hskip

mutual

theorem ExtendedType.behind_not_continued : ∀ (t : ExtendedType), t.Simple → ∀ {rest : List Char},
    (¬ ∃ form ∈ t.lastObject, ∃ c ∈ rest.head?, form.ContinuedBy c) → t.behind rest = some rest
  | .qualified _ t, hs, _, h => t.behind_not_continued hs h
  | .object form, hs, _, h => skipObjectExtendedQualifiers_not_continued hs fun hc => h ⟨form, rfl, hc⟩
  | .pointer r, hs, _, h => r.behind_not_continued hs h
  | .primitive _, _, _, _ | .complex _, _, _, _ | .array _ _, _, _, _ | .struct _ _, _, _, _
  | .union _ _, _, _, _ => rfl

theorem Referent.behind_not_continued : ∀ (r : Referent), r.Simple → ∀ {rest : List Char},
    (¬ ∃ form ∈ r.lastObject, ∃ c ∈ rest.head?, form.ContinuedBy c) → r.behind rest = some rest
  | .qualified _ r, hs, _, h => r.behind_not_continued hs h
  | .type t, hs, _, h => t.behind_not_continued hs h
  | .void, _, _, _ | .function, _, _, _ | .opaqueStruct _, _, _, _ | .opaqueUnion _, _, _, _ => rfl

end

/-! ## The two parsers -/

/-- What both parsers leave of the text. -/
def TypeText.behind (abi : Abi) : TypeText → List Char → Option (List Char)
  | .referent r, rest => r.behind rest
  | .bitfield _ _ bits, rest => some (strtol abi (bits.digits ++ rest)).2

theorem TypeText.behind_not_continued (abi : Abi) (x : TypeText) (hs : x.Simple) {rest : List Char}
    (h : ¬ x.ContinuedBy rest) : x.behind abi rest = some rest := by
  cases x with
  | referent r => exact r.behind_not_continued hs h
  | bitfield offset kind bits =>
    rw [behind, strtol_numeral abi bits fun c hc => Bool.eq_false_iff.mpr fun hd => h ⟨c, hc, hd⟩]

theorem TypeText.alignofType_behind (abi : Abi) (x : TypeText) (hs : x.Simple) {fuel : ℕ}
    (h : x.encode.length ≤ fuel) (rest : List Char) (align : ℕ) :
    (alignofType abi fuel (x.encode ++ rest) align).map Prod.fst = x.behind abi rest := by
  cases x with
  | referent r =>
    rw [encode, alignofType_referent_text abi r hs fuel h rest align, Option.map_map, behind]
    exact Option.map_id'
  | bitfield offset kind bits =>
    obtain ⟨fuel, rfl⟩ : ∃ n, fuel = n + 2 := ⟨fuel - 2, by
      simp only [encode, Field.encode, List.length_cons, List.length_append] at h
      omega⟩
    rw [encode, alignofType_bitfield_text, Option.map_some, behind]

theorem TypeText.sizeofType_behind (abi : Abi) (x : TypeText) (hs : x.Simple) {fuel : ℕ}
    (h : x.encode.length ≤ fuel) (rest : List Char) (size : ℕ) :
    (sizeofType abi fuel (x.encode ++ rest) size).map Prod.fst = x.behind abi rest := by
  cases x with
  | referent r =>
    rw [encode, sizeofType_referent_text abi r hs fuel h rest size, Option.map_map, behind]
    exact Option.map_id'
  | bitfield offset kind bits =>
    obtain ⟨fuel, rfl⟩ : ∃ n, fuel = n + 1 := ⟨fuel - 1, by
      simp only [encode, Field.encode, List.length_cons] at h
      omega⟩
    rw [encode, sizeofType_bitfield_text, Option.map_some, behind]

/-- **The two parsers consume the same text**, whatever follows the encoding, and this is the encoding alone
    if the text behind it does not continue it. -/
theorem sameText (abi : Abi) (x : TypeText) (hs : x.Simple) {fuel : ℕ} (h : x.encode.length ≤ fuel)
    (rest : List Char) (size align : ℕ) :
    (sizeofType abi fuel (x.encode ++ rest) size).map Prod.fst =
        (alignofType abi fuel (x.encode ++ rest) align).map Prod.fst ∧
      (¬ x.ContinuedBy rest → (sizeofType abi fuel (x.encode ++ rest) size).map Prod.fst = some rest) := by
  rw [x.sizeofType_behind abi hs h, x.alignofType_behind abi hs h]
  exact ⟨rfl, x.behind_not_continued abi hs⟩

/-- `^@` in front of `i`. -/
theorem sameText_objectPointer :
    (sizeofType lp64 2 ['^', '@', 'i'] 0).map Prod.fst = (alignofType lp64 2 ['^', '@', 'i'] 0).map Prod.fst ∧
      (¬ (TypeText.referent (.type (.pointer (.type (.object .any))))).ContinuedBy ['i'] →
        (sizeofType lp64 2 ['^', '@', 'i'] 0).map Prod.fst = some ['i']) :=
  sameText lp64 (.referent (.type (.pointer (.type (.object .any))))) trivial (Nat.le_refl 2) ['i'] 0 0

/-- `@` in front of `?`. -/
theorem object_continued : ¬ ∀ (x : TypeText) (rest : List Char), x.Simple →
    (sizeofType lp64 (x.encode ++ rest).length (x.encode ++ rest) 0).map Prod.fst = some rest := by
  intro h
  have hrest := h (.referent (.type (.object .any))) ['?'] trivial
  have hcode : (sizeofType lp64 2 ['@', '?'] 0).map Prod.fst = some [] := rfl
  exact absurd (hcode.symm.trans hrest) (by decide)

end Libobjc2.Encoding
