import Libobjc2.Encoding.MethodSignatures

/-!
# Method encodings of blocks

Model of `block_copyIMPTypeEncoding_np` (`blocks/block_to_imp.c`, lines 458–488), which turns the signature
of a block into the one of a method by deleting a `?` and replacing an `@`. A failed assertion is `none`,
and the inner `none` is NULL; allocations succeed.

Results:
* `copyIMPTypeEncoding_eq`: what becomes of a signature whose return type is skipped up to its end.
* `method_encoding_iff`: the signatures that become method encodings.
-/

namespace Libobjc2.Blocks

open Encoding Properties

/-! ## Model -/

/-- `block_copyIMPTypeEncoding_np`; `types` is what `block_getType_np` returns. -/
def blockCopyIMPTypeEncoding (abi : Abi) (types : Option (List Char)) : Option (Option (List Char)) :=
  match types with
  | none => some none
  | some buffer =>
    (lengthOfTypeEncoding abi (some buffer)).bind fun length =>
      let result := buffer.take length ++ (buffer.drop length).takeWhile Char.isDigit
      match (buffer.drop length).dropWhile Char.isDigit with
      | '@' :: '?' :: rest =>
        match rest.dropWhile Char.isDigit with
        | '@' :: args => some (some (result ++ '@' :: (rest.takeWhile Char.isDigit ++ ':' :: args)))
        | _ => some none
      -- one of the assertions fails
      | _ => none

/-! ## Signatures of blocks -/

/-- The argument for the block itself, with its signature if it is extended. -/
def blockArgument (signature : Option (List Char)) : ExtendedObject :=
  match signature with
  | none => .block
  | some signature => .signed signature

/-- A return type, the block, an object and further arguments, with their frame offsets. -/
structure BlockSignature where
  result : Spec
  signature : Option (List Char)
  blockOffset : Numeral
  first : ExtendedObject
  firstOffset : Numeral
  args : List Spec

namespace BlockSignature

def encode (b : BlockSignature) : List Char :=
  b.result.type.encode ++
  (b.result.offset.digits ++ ((blockArgument b.signature).encode ++ (b.blockOffset.digits ++
    (b.first.encode ++ (b.firstOffset.digits ++ encodeSpecs b.args)))))

/-- The block becomes the receiver, and the object the selector. -/
def methodEncoding (b : BlockSignature) : List Char :=
  b.result.type.encode ++ (b.result.offset.digits ++ ('@' :: (b.blockOffset.digits ++
    (':' :: (b.firstOffset.digits ++ encodeSpecs b.args)))))

/-- The signature becomes the method encoding. -/
def Becomes (abi : Abi) (b : BlockSignature) : Prop :=
  blockCopyIMPTypeEncoding abi (some b.encode) = some (some b.methodEncoding)

end BlockSignature

variable {abi : Abi}

/-! ## The rewriting -/

theorem takeWhile_numeral (n : Numeral) {c : Char} (h : c.isDigit = false) (rest : List Char) :
    (n.digits ++ c :: rest).takeWhile Char.isDigit = n.digits ∧
      (n.digits ++ c :: rest).dropWhile Char.isDigit = c :: rest := by
  refine takeWhile_digits n.isDigit fun d hd => ?_
  rw [← Option.some.inj hd, h]

/-- The length is where the type is skipped to. -/
theorem lengthOfTypeEncoding_append {front rest : List Char} (hne : front ≠ [])
    (h : objcSkipTypespec abi (front ++ rest) = some rest) :
    lengthOfTypeEncoding abi (some (front ++ rest)) = some front.length := by
  rw [lengthOfTypeEncoding_eq (List.append_ne_nil_of_left_ne_nil hne rest), h, Option.map_some, List.length_append, Nat.add_sub_cancel]

/-- What the rewriting makes of the text behind the return type. -/
def rewriteArguments (front : List Char) (rest : List Char) : Option (Option (List Char)) :=
  match rest.dropWhile Char.isDigit with
  | '@' :: '?' :: tail =>
    match tail.dropWhile Char.isDigit with
    | '@' :: args =>
      some (some (front ++ rest.takeWhile Char.isDigit ++ '@' ::
        (tail.takeWhile Char.isDigit ++ ':' :: args)))
    | _ => some none
  | _ => none

theorem copyIMPTypeEncoding_append {front rest : List Char} (hne : front ≠ [])
    (h : objcSkipTypespec abi (front ++ rest) = some rest) :
    blockCopyIMPTypeEncoding abi (some (front ++ rest)) = rewriteArguments front rest := by
  rw [blockCopyIMPTypeEncoding, lengthOfTypeEncoding_append hne h, Option.bind_some, List.drop_left,
    List.take_left, rewriteArguments]

/-- Where the return type is skipped up to its end, only a plain block argument and a plain object are
    replaced as a whole. -/
theorem becomes_iff {b : BlockSignature} (hresult : objcSkipTypespec abi b.encode =
      some (b.encode.drop b.result.type.encode.length)) :
    b.Becomes abi ↔ b.signature = none ∧ b.first = .any := by
  have hne : b.result.type.encode ≠ [] := List.ne_nil_of_length_pos b.result.type.length_pos
  have hdrop : b.encode.drop b.result.type.encode.length = b.result.offset.digits ++
      ((blockArgument b.signature).encode ++ (b.blockOffset.digits ++
        (b.first.encode ++ (b.firstOffset.digits ++ encodeSpecs b.args)))) := List.drop_left
  rw [hdrop] at hresult
  rw [BlockSignature.Becomes, BlockSignature.encode, copyIMPTypeEncoding_append hne hresult, rewriteArguments]
  have hblock : ∀ s rest, (blockArgument s).encode ++ rest = '@' :: ((blockArgument s).extension ++ rest) :=
    fun s rest => rfl
  rw [hblock, (takeWhile_numeral b.result.offset (by decide) _).1,
    (takeWhile_numeral b.result.offset (by decide) _).2]
  cases hsignature : b.signature with
  | some signature =>
    -- the bracket in front of the signature is neither a digit nor an object
    refine iff_of_false ?_ fun h => (nomatch h.1)
    intro h
    cases h
  | none =>
    have hfirst : b.first.encode ++ (b.firstOffset.digits ++ encodeSpecs b.args) =
        '@' :: (b.first.extension ++ (b.firstOffset.digits ++ encodeSpecs b.args)) := rfl
    have hbehind := takeWhile_numeral b.blockOffset (by decide : '@'.isDigit = false)
      (b.first.extension ++ (b.firstOffset.digits ++ encodeSpecs b.args))
    show (match (b.blockOffset.digits ++ (b.first.encode ++ _)).dropWhile Char.isDigit with
      | '@' :: args => some (some (b.result.type.encode ++ b.result.offset.digits ++
          '@' :: ((b.blockOffset.digits ++ (b.first.encode ++ _)).takeWhile Char.isDigit ++ ':' :: args)))
      | _ => some none) = _ ↔ _
    rw [hfirst, hbehind.1, hbehind.2]
    show some (some (b.result.type.encode ++ b.result.offset.digits ++ '@' :: (b.blockOffset.digits ++
      ':' :: (b.first.extension ++ (b.firstOffset.digits ++ encodeSpecs b.args))))) = _ ↔ _
    rw [BlockSignature.methodEncoding, Option.some.injEq, Option.some.injEq, List.append_assoc,
      List.append_right_inj, List.append_right_inj, List.cons_inj_right, List.append_right_inj,
      List.cons_inj_right]
    rw [and_iff_right rfl]
    constructor
    · intro h
      have hlen := congrArg List.length h
      rw [List.length_append] at hlen
      cases hform : b.first with
      | any => rfl
      | named name =>
        rw [hform] at hlen
        simp [ExtendedObject.extension, QuotedName.encode] at hlen
      | block =>
        rw [hform] at hlen
        simp [ExtendedObject.extension] at hlen
      | signed signature =>
        rw [hform] at hlen
        simp [ExtendedObject.extension] at hlen
    · intro h
      rw [h]
      rfl

theorem getElem?_append_cons (l : List Char) (c : Char) (xs ys : List Char) {k : ℕ} (hk : k ≤ l.length) :
    (l ++ c :: xs)[k]? = (l ++ c :: ys)[k]? := by
  rcases Nat.lt_or_eq_of_le hk with hlt | rfl
  · rw [List.getElem?_append_left hlt, List.getElem?_append_left hlt]
  · rw [List.getElem?_append_right (Nat.le_refl _), List.getElem?_append_right (Nat.le_refl _), Nat.sub_self]
    rfl

/-- Where a bracket is left of the return type, the `?` that is deleted stands in front of it. -/
theorem rewriteArguments_ne {front l rest xs : List Char} {c : Char} (hc : c = '>' ∨ c = ']') :
    rewriteArguments front (l ++ c :: rest) ≠ some (some (front ++ (l ++ c :: xs))) := by
  intro h
  have hdigit : c.isDigit = false := by
    rcases hc with rfl | rfl <;> decide
  have hat : c ≠ '@' := by
    rcases hc with rfl | rfl <;> decide
  have hsplit := List.takeWhile_append_dropWhile (p := Char.isDigit) (l := l ++ c :: rest)
  have hdigits : ∀ d ∈ (l ++ c :: rest).takeWhile Char.isDigit, d.isDigit = true :=
    fun d hd => List.mem_takeWhile_imp hd
  rw [rewriteArguments] at h
  generalize (l ++ c :: rest).takeWhile Char.isDigit = digits at h hsplit hdigits
  generalize (l ++ c :: rest).dropWhile Char.isDigit = tail at h hsplit
  split at h
  · rename_i tail
    split at h
    · rename_i args _
      -- the digits end in front of the bracket, and the `@` stands there, too
      have hshort : digits.length < l.length := by
        rcases Nat.lt_trichotomy digits.length l.length with hlt | heq | hgt
        · exact hlt
        · obtain ⟨-, htail⟩ := List.append_inj hsplit heq
          exact absurd (List.cons.inj htail).1.symm hat
        · have hmem : (l ++ c :: rest)[l.length]? = some c := by simp
          rw [← hsplit, List.getElem?_append_left hgt] at hmem
          rw [hdigits c (List.mem_of_getElem? hmem)] at hdigit
          cases hdigit
      have hin : (l ++ c :: xs)[digits.length + 1]? = some '?' := by
        rw [getElem?_append_cons l c xs rest (by omega), ← hsplit, List.getElem?_append_right (by omega)]
        simp
      have hout := Option.some.inj (Option.some.inj h)
      rw [List.append_assoc] at hout
      rw [← List.append_cancel_left hout, List.getElem?_append_right (by omega)] at hin
      have hsub : digits.length + 1 - digits.length = 1 := by omega
      rw [hsub, List.getElem?_cons_succ] at hin
      have hnumber : ∀ d ∈ tail.takeWhile Char.isDigit, d.isDigit = true := fun d hd =>
          List.mem_takeWhile_imp hd
      cases hn : tail.takeWhile Char.isDigit with
      | nil =>
        rw [hn] at hin
        simp at hin
      | cons d ds =>
        rw [hn] at hin hnumber
        obtain rfl : d = '?' := by simpa using hin
        exact absurd (hnumber '?' List.mem_cons_self) (by decide)
    · cases h
  · cases h

/-- A signature whose return type is overlooked does not become a method encoding. -/
theorem not_becomes_of_overlooked {b : BlockSignature} (ho : b.result.type.Overlooked) : ¬ b.Becomes abi := by
  intro h
  let rest := b.encode.drop b.result.type.encode.length
  have hencode : b.encode = b.result.type.encode ++ rest := by
    show _ = _ ++ (b.result.type.encode ++ _).drop b.result.type.encode.length
    rw [List.drop_left]
    rfl
  obtain ⟨l, c, hc, hskip⟩ := @objcSkipTypespec_overlooked abi _ ho rest
  obtain ⟨⟨front, hfront⟩, hlen⟩ := objcSkipTypespec_leftOf hskip
  have hresult : b.result.type.encode = front ++ (l ++ [c]) := by
    have heq : front ++ (l ++ [c]) ++ rest = b.result.type.encode ++ rest := by
      rw [← hfront]
      simp
    exact (List.append_cancel_right heq).symm
  have hne : front ≠ [] := by
    rintro rfl
    rw [hresult] at hlen
    simp at hlen
  have hmethod : ∃ xs, b.methodEncoding = front ++ (l ++ c :: xs) := by
    rw [BlockSignature.methodEncoding, hresult]
    refine ⟨b.result.offset.digits ++ ('@' :: (b.blockOffset.digits ++
      (':' :: (b.firstOffset.digits ++ encodeSpecs b.args)))), ?_⟩
    simp only [List.append_assoc, List.singleton_append]
  obtain ⟨xs, hxs⟩ := hmethod
  rw [← hfront] at hskip
  rw [BlockSignature.Becomes, hencode, ← hfront, copyIMPTypeEncoding_append hne hskip, hxs] at h
  exact rewriteArguments_ne hc h

/-- **Method encodings.** Where no block signature in the return type contains a `>`, the signature of a
    block becomes a method encoding if and only if the block argument is plain `@?` and the first argument
    plain `@`. Where the return type is a block whose signature contains one, a pointer to one or an array
    of them, it does not. -/
theorem method_encoding_iff (abi : Abi) (b : BlockSignature) :
    (b.result.type.Simple → (b.Becomes abi ↔ b.signature = none ∧ b.first = .any)) ∧
      (b.result.type.Overlooked → ¬ b.Becomes abi) := by
  refine ⟨fun hs => becomes_iff ?_, not_becomes_of_overlooked⟩
  rw [BlockSignature.encode, List.drop_left]
  exact objcSkipTypespec_simple hs b.result.offset _

/-- `v0@?0@0`. -/
def plainBlock : BlockSignature := ⟨⟨.void, zeroOffset⟩, none, zeroOffset, .any, zeroOffset, []⟩

theorem method_encoding_plain : plainBlock.Becomes lp64 :=
  ((method_encoding_iff lp64 plainBlock).1 trivial).mpr ⟨rfl, rfl⟩

/-- `v0@?0@"C"0` keeps the class name behind the selector, and for `v0@?<v@?@>0@0` there is no encoding. -/
theorem method_encoding_extended :
    ¬ (BlockSignature.mk ⟨.void, zeroOffset⟩ none zeroOffset (.named ⟨['C'], by simp⟩) zeroOffset
      []).Becomes lp64 ∧
    blockCopyIMPTypeEncoding lp64 (some "v0@?0@\"C\"0".toList) = some (some "v0@0:\"C\"0".toList) ∧
    blockCopyIMPTypeEncoding lp64 (some "v0@?<v@?@>0@0".toList) = some none := by
  have hnamed : blockCopyIMPTypeEncoding lp64 (some "v0@?0@\"C\"0".toList) =
      some (some "v0@0:\"C\"0".toList) := by
    decide +kernel
  refine ⟨fun h => ?_, hnamed, by decide +kernel⟩
  have hbecomes : blockCopyIMPTypeEncoding lp64 (some "v0@?0@\"C\"0".toList) =
      some (some "v0@0:0".toList) := h
  rw [hnamed] at hbecomes
  exact absurd hbecomes (by decide +kernel)

end Libobjc2.Blocks
