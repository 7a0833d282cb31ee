import Libobjc2.Encoding.ExtendedParser
import Libobjc2.Encoding.Layout

/-!
# Going through the members of a structure

`objc_layout_structure` and its companions (encoding2.c, lines 536–598) against `objc_sizeof_type`. A
pointer into the encoding is the string that starts there. The position of a member is found by comparing
pointers, and the offset by adding up the members in front of it, in bits and in an `unsigned int`.

Results:
* `ExtendedType.running_eq`: what `sizeof_type` does to a running size that does not overflow, in bytes.
* `visits_iff`: the members are visited in their order, with the offsets of their sizes and alignments,
  if and only if every member but the last has an alignment.
* `structure_members`: when the offsets agree with the size of the structure.
-/

namespace Libobjc2.Encoding

open Libobjc2.Alignment

/-! ## Model -/

/-- `struct objc_struct_layout`. -/
structure StructLayout where
  originalType : List Char
  type : Option (List Char)
  prevType : Option (List Char)
  recordSize : ℕ
  recordAlign : ℕ
  deriving DecidableEq, Repr

/-- The values of an `unsigned int`. -/
def uintMod : ℕ := 2 ^ 32

/-- `objc_layout_structure` (lines 537–542). -/
def objcLayoutStructure (type : List Char) (layout : StructLayout) : StructLayout :=
  { layout with originalType := type, type := none }

/-- `prev < type`, for two pointers into one string, or for NULL. -/
def isBehind (prev : Option (List Char)) (type : List Char) : Bool :=
  match prev with
  | none => true
  | some prev => type.length < prev.length

/-- What `layout_structure_callback` does to the layout, for a size and an alignment in bits. -/
def StructLayout.record (abi : Abi) (layout : StructLayout) (type : List Char) (size align : ℕ) :
    StructLayout :=
  if isBehind layout.prevType type then
    if layout.recordAlign = 0 then { layout with recordAlign := align % uintMod, type := some type }
        else layout
  else { layout with recordSize := (abi.roundUp layout.recordSize align + size) % abi.sizeMod % uintMod }

/-- `layout_structure_callback` (lines 544–567). -/
def layoutStructureCallback (abi : Abi) (type : List Char) (layout : StructLayout) :
    Option (List Char × StructLayout) :=
  (sizeofType abi type.length type 0).bind fun s =>
    (alignofType abi type.length type 0).bind fun a => some (s.1, layout.record abi type s.2 a.2)

/-- `objc_layout_structure_next_member` (lines 574–586): the layout, and whether there was a member. -/
def objcLayoutStructureNextMember (abi : Abi) (layout : StructLayout) : Option (StructLayout × Bool) :=
  let start := { layout with recordSize := 0, recordAlign := 0, prevType := layout.type }
  (parseStruct (layoutStructureCallback abi) layout.originalType.tail start).map fun r =>
    (r.2, decide (r.2.type ≠ layout.type))

/-- `objc_layout_structure_get_info` (lines 588–598): the type, the offset and the alignment. -/
def objcLayoutStructureGetInfo (abi : Abi) (layout : StructLayout) : Option (List Char) × ℕ × ℕ :=
  let align := layout.recordAlign / 8
  (layout.type, abi.roundUp (layout.recordSize / 8) align % uintMod, align)

/-- The members that are visited until there is none. -/
def visit (abi : Abi) : ℕ → StructLayout → Option (List (Option (List Char) × ℕ × ℕ))
  | 0, _ => none
  | fuel + 1, layout =>
    (objcLayoutStructureNextMember abi layout).bind fun r =>
      if r.2 then (visit abi fuel r.1).map (objcLayoutStructureGetInfo abi r.1 :: ·) else some []

/-! ## Sizes in bytes -/

/-- Rounded up, unless there is no alignment. -/
def padTo (align n : ℕ) : ℕ := if align = 0 then n else nextMultiple align n

mutual

/-- What `sizeof_type` does to the running size, in bytes and without overflow; a bit-field has no size. -/
def ExtendedType.bytes (abi : Abi) : ExtendedType → ℕ → ℕ
  | .qualified _ t, n => t.bytes abi n
  | .primitive p, n => nextMultiple (abi.alignof p.ctype) n + abi.sizeof p.ctype
  | .complex a, n => nextMultiple (abi.alignof (.complex a)) n + abi.sizeof (.complex a)
  | .object _, n => nextMultiple (abi.alignof .id) n + abi.sizeof .id
  | .pointer _, n => n + abi.sizeof .voidPointer
  | .array count t, n => n + t.bytes abi 0 * count.value
  | .struct _ fields, n => padTo (fields.align abi) (fields.bytes abi n)
  | .union _ fields, n => n + fields.largestBytes abi 0

def Field.bytes (abi : Abi) : Field → ℕ → ℕ
  | .type t, n => t.bytes abi n
  | .bitfield .., n => n

def Fields.bytes (abi : Abi) : Fields → ℕ → ℕ
  | .nil, n => n
  | .cons _ field rest, n => rest.bytes abi (field.bytes abi n)

def Fields.largestBytes (abi : Abi) : Fields → ℕ → ℕ
  | .nil, n => n
  | .cons _ field rest, n => rest.largestBytes abi (max n (field.bytes abi 0))

end

mutual

/-- There is no bit-field in the type, and element counts fit an `int`. -/
def ExtendedType.Regular : ExtendedType → Prop
  | .qualified _ t => t.Regular
  | .array count t => t.Regular ∧ count.value < 2 ^ 31
  | .struct _ fields | .union _ fields => fields.Regular
  | _ => True

def Field.Regular : Field → Prop
  | .type t => t.Regular
  | .bitfield .. => False

def Fields.Regular : Fields → Prop
  | .nil => True
  | .cons _ field rest => field.Regular ∧ rest.Regular

end

theorem le_padTo (align n : ℕ) : n ≤ padTo align n := by
  rw [padTo]
  split
  · exact Nat.le_refl n
  · exact le_nextMultiple (by omega) n

theorem Abi.roundUp_padTo (abi : Abi) {a n : ℕ} (h : padTo a n * 8 < abi.sizeMod) :
    abi.roundUp (n * 8) (a * 8) = padTo a n * 8 := by
  rw [padTo] at h ⊢
  split
  · rename_i ha
    rw [Abi.roundUp, if_pos (by omega)]
  · rename_i ha
    rw [if_neg ha] at h
    exact abi.roundUp_bits (by omega) h

mutual

theorem ExtendedType.le_bytes (abi : Abi) : ∀ (t : ExtendedType) (n : ℕ), n ≤ t.bytes abi n
  | .qualified _ t, n => t.le_bytes abi n
  | .primitive _, n => Nat.le_add_right_of_le (le_nextMultiple (abi.alignof_isAlignment _).pos n)
  | .complex _, n => Nat.le_add_right_of_le (le_nextMultiple (abi.alignof_isAlignment _).pos n)
  | .object _, n => Nat.le_add_right_of_le (le_nextMultiple (abi.alignof_isAlignment _).pos n)
  | .pointer _, n | .array _ _, n | .union _ _, n => Nat.le_add_right n _
  | .struct _ fields, n => (fields.le_bytes abi n).trans (le_padTo _ _)

theorem Field.le_bytes (abi : Abi) : ∀ (f : Field) (n : ℕ), n ≤ f.bytes abi n
  | .type t, n => t.le_bytes abi n
  | .bitfield .., n => Nat.le_refl n

theorem Fields.le_bytes (abi : Abi) : ∀ (fs : Fields) (n : ℕ), n ≤ fs.bytes abi n
  | .nil, n => Nat.le_refl n
  | .cons _ field rest, n => (field.le_bytes abi n).trans (rest.le_bytes abi (field.bytes abi n))

end

theorem Fields.le_largestBytes (abi : Abi) : ∀ (fs : Fields) (n : ℕ), n ≤ fs.largestBytes abi n
  | .nil, n => Nat.le_refl n
  | .cons _ _ rest, n => (Nat.le_max_left n _).trans (rest.le_largestBytes abi _)

mutual

/-- In bytes, `sizeof_type` does to the running size what `bytes` says, unless it overflows. -/
theorem ExtendedType.running_eq (abi : Abi) : ∀ (t : ExtendedType), t.Regular → ∀ n,
    t.bytes abi n * 8 < abi.sizeMod → t.running abi (n * 8) = t.bytes abi n * 8
  | .qualified _ t, hr, n, h => t.running_eq abi hr n h
  | .primitive p, _, n, h => abi.addType_bits p.ctype h
  | .complex a, _, n, h => abi.addType_bits (.complex a) h
  | .object _, _, n, h => abi.addType_bits .id h
  | .pointer _, _, n, h => by
    rw [ExtendedType.bytes] at h ⊢
    rw [ExtendedType.running, ← Nat.add_mul, Nat.mod_eq_of_lt h]
  | .array count t, hr, n, h => by
    rw [ExtendedType.bytes] at h ⊢
    rw [ExtendedType.running, abi.toSize_count hr.2]
    have helement : t.running abi 0 * count.value = t.bytes abi 0 * count.value * 8 := by
      rcases Nat.eq_zero_or_pos count.value with hzero | hpos
      · rw [hzero, Nat.mul_zero, Nat.mul_zero, Nat.zero_mul]
      · have hle := Nat.le_mul_of_pos_right (t.bytes abi 0) hpos
        have ht := t.running_eq abi hr.1 0 (by omega)
        rw [Nat.zero_mul] at ht
        rw [ht, Nat.mul_right_comm]
    rw [helement, Nat.mod_eq_of_lt (show t.bytes abi 0 * count.value * 8 < abi.sizeMod by omega),
      ← Nat.add_mul,
      Nat.mod_eq_of_lt h]
  | .struct _ fields, hr, n, h => by
    rw [ExtendedType.bytes] at h ⊢
    have hle := le_padTo (fields.align abi) (fields.bytes abi n)
    rw [ExtendedType.running, fields.running_eq abi hr n (by omega), abi.roundUp_padTo h]
  | .union _ fields, hr, n, h => by
    rw [ExtendedType.bytes] at h ⊢
    have hlargest := fields.largest_eq abi hr 0 (by omega)
    rw [Nat.zero_mul] at hlargest
    rw [ExtendedType.running, hlargest, ← Nat.add_mul, Nat.mod_eq_of_lt h]

theorem Field.running_eq (abi : Abi) : ∀ (f : Field), f.Regular → ∀ n,
    f.bytes abi n * 8 < abi.sizeMod → f.running abi (n * 8) = f.bytes abi n * 8
  | .type t, hr, n, h => t.running_eq abi hr n h

theorem Fields.running_eq (abi : Abi) : ∀ (fs : Fields), fs.Regular → ∀ n,
    fs.bytes abi n * 8 < abi.sizeMod → fs.running abi (n * 8) = fs.bytes abi n * 8
  | .nil, _, _, _ => rfl
  | .cons _ field rest, hr, n, h => by
    rw [Fields.bytes] at h ⊢
    have hle := rest.le_bytes abi (field.bytes abi n)
    rw [Fields.running, field.running_eq abi hr.1 n (by omega), rest.running_eq abi hr.2 _ h]

theorem Fields.largest_eq (abi : Abi) : ∀ (fs : Fields), fs.Regular → ∀ n,
    fs.largestBytes abi n * 8 < abi.sizeMod → fs.largestRunning abi (n * 8) = fs.largestBytes abi n * 8
  | .nil, _, _, _ => rfl
  | .cons _ field rest, hr, n, h => by
    rw [Fields.largestBytes] at h ⊢
    have hle := rest.le_largestBytes abi (max n (field.bytes abi 0))
    have hfield := field.running_eq abi hr.1 0 (by omega)
    rw [Nat.zero_mul] at hfield
    have hmax : max (n * 8) (field.bytes abi 0 * 8) = max n (field.bytes abi 0) * 8 := by omega
    rw [Fields.largestRunning, hfield, hmax, rest.largest_eq abi hr.2 _ h]

end

/-! ## Sizes at an aligned offset -/

/-- An offset at which a type with this alignment may stand. -/
def AlignedAt (align base : ℕ) : Prop := align = 0 ∨ align ∣ base

theorem padTo_add {align base : ℕ} (h : AlignedAt align base) (n : ℕ) :
    padTo align (base + n) = base + padTo align n := by
  rw [padTo, padTo]
  split
  · rfl
  · rename_i hne
    exact nextMultiple_add (by omega) (h.resolve_left hne) n

theorem padTo_of_aligned {align base : ℕ} (h : AlignedAt align base) : padTo align base = base := by
  rw [padTo]
  split
  · rfl
  · rename_i hne
    exact nextMultiple_of_dvd (by omega) (h.resolve_left hne)

mutual

theorem ExtendedType.zero_or_isAlignment (abi : Abi) : ∀ t : ExtendedType,
    t.align abi = 0 ∨ IsAlignment (t.align abi)
  | .qualified _ t => t.zero_or_isAlignment abi
  | .primitive _ | .complex _ | .object _ | .pointer _ => .inr (abi.alignof_isAlignment _)
  | .array _ t => t.zero_or_isAlignment abi
  | .struct _ fields | .union _ fields => fields.zero_or_isAlignment abi

theorem Field.zero_or_isAlignment (abi : Abi) : ∀ f : Field, f.align abi = 0 ∨ IsAlignment (f.align abi)
  | .type t => t.zero_or_isAlignment abi
  | .bitfield .. => .inr (abi.alignof_isAlignment _)

theorem Fields.zero_or_isAlignment (abi : Abi) : ∀ fs : Fields, fs.align abi = 0 ∨ IsAlignment (fs.align abi)
  | .nil => .inl rfl
  | .cons _ field rest => by
    rw [Fields.align]
    rcases field.zero_or_isAlignment abi with hf | hf
    · rw [hf, Nat.zero_max]
      exact rest.zero_or_isAlignment abi
    · rcases rest.zero_or_isAlignment abi with hr | hr
      · rw [hr, Nat.max_zero]
        exact .inr hf
      · exact .inr (hf.max hr)

end

theorem AlignedAt.of_max {a b base : ℕ} (ha : a = 0 ∨ IsAlignment a) (hb : b = 0 ∨ IsAlignment b)
    (h : AlignedAt (max a b) base) : AlignedAt a base ∧ AlignedAt b base := by
  rcases ha with rfl | ha
  · rw [Nat.zero_max] at h
    exact ⟨.inl rfl, h⟩
  · rcases hb with rfl | hb
    · rw [Nat.max_zero] at h
      exact ⟨h, .inl rfl⟩
    · have hpos := ha.pos
      have hdvd := h.resolve_left (by omega)
      exact ⟨.inr ((ha.dvd_max_left hb).trans hdvd), .inr ((ha.dvd_max_right hb).trans hdvd)⟩

mutual

/-- At an offset for its alignment, a type takes what it takes at the start. -/
theorem ExtendedType.bytes_add (abi : Abi) : ∀ (t : ExtendedType) {base : ℕ}, AlignedAt (t.align abi) base →
    ∀ n, t.bytes abi (base + n) = base + t.bytes abi n
  | .qualified _ t, _, h, n => t.bytes_add abi h n
  | .primitive p, base, h, n => by
    have hpos := (abi.alignof_isAlignment p.ctype).pos
    have hdvd : abi.alignof p.ctype ∣ base := h.resolve_left (Nat.ne_of_gt hpos)
    rw [ExtendedType.bytes, ExtendedType.bytes, nextMultiple_add hpos hdvd, Nat.add_assoc]
  | .complex a, base, h, n => by
    have hpos := (abi.alignof_isAlignment (.complex a)).pos
    have hdvd : abi.alignof (.complex a) ∣ base := h.resolve_left (Nat.ne_of_gt hpos)
    rw [ExtendedType.bytes, ExtendedType.bytes, nextMultiple_add hpos hdvd, Nat.add_assoc]
  | .object _, base, h, n => by
    have hpos := (abi.alignof_isAlignment .id).pos
    have hdvd : abi.alignof .id ∣ base := h.resolve_left (Nat.ne_of_gt hpos)
    rw [ExtendedType.bytes, ExtendedType.bytes, nextMultiple_add hpos hdvd, Nat.add_assoc]
  | .pointer _, _, _, n | .array _ _, _, _, n | .union _ _, _, _, n => Nat.add_assoc _ _ _
  | .struct _ fields, _, h, n => by
    rw [ExtendedType.bytes, ExtendedType.bytes, fields.bytes_add abi h n]
    exact padTo_add h _

theorem Field.bytes_add (abi : Abi) : ∀ (f : Field) {base : ℕ}, AlignedAt (f.align abi) base →
    ∀ n, f.bytes abi (base + n) = base + f.bytes abi n
  | .type t, _, h, n => t.bytes_add abi h n
  | .bitfield .., _, _, _ => rfl

theorem Fields.bytes_add (abi : Abi) : ∀ (fs : Fields) {base : ℕ}, AlignedAt (fs.align abi) base →
    ∀ n, fs.bytes abi (base + n) = base + fs.bytes abi n
  | .nil, _, _, _ => rfl
  | .cons _ field rest, _, h, n => by
    have hboth := AlignedAt.of_max (field.zero_or_isAlignment abi) (rest.zero_or_isAlignment abi) h
    rw [Fields.bytes, Fields.bytes, field.bytes_add abi hboth.1, rest.bytes_add abi hboth.2]

end

/-! ## The callback -/

theorem Abi.roundUp_eq_padTo (abi : Abi) {a n : ℕ} (h : padTo a n < abi.sizeMod) :
    abi.roundUp n a = padTo a n := by
  rw [padTo] at h ⊢
  split
  · rename_i ha
    rw [Abi.roundUp, if_pos ha]
  · rename_i ha
    rw [if_neg ha] at h
    exact abi.roundUp_eq (by omega) h

theorem layoutStructureCallback_field (abi : Abi) {f : Field} (hs : f.Simple) {rest : List Char}
    (hr : FollowsField rest) (layout : StructLayout) :
    layoutStructureCallback abi (f.piece.chars ++ rest) layout = some (f.piece.after rest,
      layout.record abi (f.piece.chars ++ rest) (f.running abi 0) (f.align abi * 8)) := by
  have hlen : f.encode.length ≤ (f.piece.chars ++ rest).length := by
    rw [f.chars_piece, List.length_append]
    omega
  rw [layoutStructureCallback, sizeofType_field abi f hs _ hlen rest hr 0, Option.bind_some,
    alignofType_field abi f hs _ hlen rest hr 0, Option.bind_some]
  dsimp only
  rw [Nat.max_zero]

/-- The members with the pointers to them. -/
def Fields.members (fs : Fields) : List (Field × List Char) := piecesAt Field.piece ['}'] fs.items

/-- What the callback does to the layout at a member. -/
def StructLayout.see (abi : Abi) (layout : StructLayout) (x : Field × List Char) : StructLayout :=
  layout.record abi x.2 (x.1.running abi 0) (x.1.align abi * 8)

theorem Fields.simple_items : ∀ {fs : Fields}, fs.Simple → ∀ i ∈ fs.items, i.2.Simple
  | .nil, _, _, hi => absurd hi List.not_mem_nil
  | .cons _ _ _, hs, i, hi => by
    rcases List.mem_cons.mp hi with rfl | hi
    · exact hs.1
    · exact Fields.simple_items hs.2 i hi

theorem Fields.regular_items : ∀ {fs : Fields}, fs.Regular → ∀ i ∈ fs.items, i.2.Regular
  | .nil, _, _, hi => absurd hi List.not_mem_nil
  | .cons _ _ _, hr, i, hi => by
    rcases List.mem_cons.mp hi with rfl | hi
    · exact hr.1
    · exact Fields.regular_items hr.2 i hi

/-- The callback sees the members in their order. -/
theorem nextMember_eq (abi : Abi) (name : NameWithout ['=', '}']) {fs : Fields} (hs : fs.Simple)
    {layout : StructLayout} (h : layout.originalType = (ExtendedType.struct name fs).encode) :
    objcLayoutStructureNextMember abi layout =
      let seen := fs.members.foldl (StructLayout.see abi)
        { layout with recordSize := 0, recordAlign := 0, prevType := layout.type }
      some (seen, decide (seen.type ≠ layout.type)) := by
  have hparse := parseStructOrUnion_fieldsAt
    (fun f type (layout : StructLayout) => layout.record abi type (f.running abi 0) (f.align abi * 8))
    (by decide : '}' ∉ '\x22' :: '?' :: '<' :: '=' :: fieldStarters) (by decide) name fs
    (fun i hi rest hr layout => layoutStructureCallback_field abi (Fields.simple_items hs i hi) hr layout) []
    { layout with recordSize := 0, recordAlign := 0, prevType := layout.type }
  have htail : layout.originalType.tail = name.chars ++ '=' :: (fs.encode ++ ['}']) := by
    rw [h]
    rfl
  rw [objcLayoutStructureNextMember, parseStruct, htail, hparse]
  rfl

/-! ## Pointers to the members -/

section

variable {ι : Type} {piece : ι → Piece}

theorem length_piecesAt (tail : List Char) : ∀ (l : List (Option QuotedName × ι)),
    ∀ x ∈ piecesAt piece tail l,
    x.2.length ≤ (encodePieces piece false l ++ tail).length
  | [], _, hx => absurd hx List.not_mem_nil
  | (label, i) :: l, x, hx => by
    rw [encodePieces]
    rcases List.mem_cons.mp hx with rfl | hx
    · simp only [List.length_append]
      omega
    · have hx := length_piecesAt tail l x hx
      simp only [List.length_append] at hx ⊢
      omega

/-- A pointer is the text of its piece with what may stand behind one. -/
theorem mem_piecesAt {tail : List Char} (ht : FollowsField tail) : ∀ {l : List (Option QuotedName × ι)},
    (∀ i ∈ l, (piece i.2).Starts) → ∀ x ∈ piecesAt piece tail l,
    (∃ label, (label, x.1) ∈ l) ∧ ∃ rest, FollowsField rest ∧ x.2 = (piece x.1).chars ++ rest
  | [], _, _, hx => absurd hx List.not_mem_nil
  | (label, i) :: l, h, x, hx => by
    have htail : ∀ j ∈ l, (piece j.2).Starts := fun j hj => h j (List.mem_cons_of_mem _ hj)
    rcases List.mem_cons.mp hx with rfl | hx
    · exact ⟨⟨label, List.mem_cons_self⟩, _, followsField_pieces htail ht, rfl⟩
    · obtain ⟨⟨label', hmem⟩, hrest⟩ := mem_piecesAt ht htail x hx
      exact ⟨⟨label', List.mem_cons_of_mem _ hmem⟩, hrest⟩

/-- The pointers go forward. -/
theorem piecesAt_pairwise (tail : List Char) : ∀ {l : List (Option QuotedName × ι)},
    (∀ i ∈ l, (piece i.2).Starts) → (piecesAt piece tail l).Pairwise fun x y => y.2.length < x.2.length
  | [], _ => List.Pairwise.nil
  | (label, i) :: l, h => by
    refine List.Pairwise.cons (fun y hy => ?_)
        (piecesAt_pairwise tail fun j hj => h j (List.mem_cons_of_mem _ hj))
    have hy := length_piecesAt tail l y hy
    obtain ⟨c, -, cs, hchars⟩ := h (label, i) List.mem_cons_self
    have hchars : (piece i).chars = c :: cs := hchars
    show y.2.length < ((piece i).chars ++ (encodePieces piece false l ++ tail)).length
    rw [List.length_append, hchars, List.length_cons]
    omega

end

theorem Fields.pairwise_members (fs : Fields) : fs.members.Pairwise fun x y => y.2.length < x.2.length :=
  piecesAt_pairwise ['}'] fun i _ => i.2.starts

theorem Fields.mem_members {fs : Fields} {x : Field × List Char} (hx : x ∈ fs.members) :
    (∃ label, (label, x.1) ∈ fs.items) ∧ ∃ rest, FollowsField rest ∧ x.2 = x.1.piece.chars ++ rest :=
  mem_piecesAt (followsField_cons (by decide) (by decide) []) (fun i _ => i.2.starts) x hx

/-- The pointer to the last of some members, NULL without one. -/
def lastType (l : List (Field × List Char)) : Option (List Char) := l.getLast?.map Prod.snd

theorem isBehind_front {front back : List (Field × List Char)}
    (h : (front ++ back).Pairwise fun x y => y.2.length < x.2.length) :
    (∀ x ∈ front, isBehind (lastType front) x.2 = false) ∧
    ∀ x ∈ back, isBehind (lastType front) x.2 = true := by
  rcases List.eq_nil_or_concat' front with rfl | ⟨l, z, rfl⟩
  · exact ⟨fun x hx => absurd hx List.not_mem_nil, fun _ _ => rfl⟩
  · have hlast : lastType (l ++ [z]) = some z.2 := by
      rw [lastType, List.getLast?_concat, Option.map_some]
    obtain ⟨hfront, -, hback⟩ := List.pairwise_append.mp h
    rw [hlast]
    refine ⟨fun x hx => ?_, fun x hx => ?_⟩
    · rw [isBehind, decide_eq_false_iff_not]
      rcases List.mem_append.mp hx with hx | hx
      · have := (List.pairwise_append.mp hfront).2.2 x hx z (List.mem_singleton.mpr rfl)
        omega
      · rw [List.mem_singleton.mp hx]
        omega
    · rw [isBehind, decide_eq_true_eq]
      exact hback z (List.mem_append_right l (List.mem_singleton.mpr rfl)) x hx

/-! ## One step -/

/-- Where the members end, each behind the one before. -/
def endOf (abi : Abi) (e : ℕ) (l : List (Field × List Char)) : ℕ :=
  l.foldl (fun e x => padTo (x.1.align abi) e + x.1.bytes abi 0) e

theorem le_endOf (abi : Abi) : ∀ (l : List (Field × List Char)) (e : ℕ), e ≤ endOf abi e l
  | [], e => Nat.le_refl e
  | x :: l, e => (Nat.le_add_right_of_le (le_padTo (x.1.align abi) e)).trans (le_endOf abi l _)

theorem endOf_append (abi : Abi) (e : ℕ) (front back : List (Field × List Char)) :
    endOf abi e (front ++ back) = endOf abi (endOf abi e front) back :=
  List.foldl_append

/-- The sizes of the members in bits fit an `unsigned int` and a `size_t`, and so do their alignments. -/
structure FitsFrom (abi : Abi) (e : ℕ) (l : List (Field × List Char)) : Prop where
  regular : ∀ x ∈ l, x.1.Regular
  uint : endOf abi e l * 8 < uintMod
  size : endOf abi e l * 8 < abi.sizeMod
  align : ∀ x ∈ l, x.1.align abi * 8 < uintMod

theorem FitsFrom.tail {abi : Abi} {e : ℕ} {x : Field × List Char} {l : List (Field × List Char)}
    (h : FitsFrom abi e (x :: l)) : FitsFrom abi (padTo (x.1.align abi) e + x.1.bytes abi 0) l :=
  ⟨fun y hy => h.regular y (List.mem_cons_of_mem x hy), h.uint, h.size,
    fun y hy => h.align y (List.mem_cons_of_mem x hy)⟩

/-- The members up to the previous one are added up. -/
theorem see_front (abi : Abi) : ∀ {l : List (Field × List Char)} {layout : StructLayout} {e : ℕ},
    FitsFrom abi e l → (∀ x ∈ l, isBehind layout.prevType x.2 = false) → layout.recordSize = e * 8 →
    l.foldl (StructLayout.see abi) layout = { layout with recordSize := endOf abi e l * 8 }
  | [], layout, e, _, _, he => by
    rw [List.foldl_nil, endOf, List.foldl_nil, ← he]
  | x :: l, layout, e, hfits, hfront, he => by
    have hle : padTo (x.1.align abi) e + x.1.bytes abi 0 ≤ endOf abi e (x :: l) := le_endOf abi l _
    have huint := hfits.uint
    have hsize := hfits.size
    have hrunning := x.1.running_eq abi (hfits.regular x List.mem_cons_self) 0 (by omega)
    rw [Nat.zero_mul] at hrunning
    have hsum : (padTo (x.1.align abi) e + x.1.bytes abi 0) * 8 =
        padTo (x.1.align abi) e * 8 + x.1.bytes abi 0 * 8 := Nat.add_mul _ _ _
    have huint : (padTo (x.1.align abi) e + x.1.bytes abi 0) * 8 < uintMod := by omega
    have hsize : (padTo (x.1.align abi) e + x.1.bytes abi 0) * 8 < abi.sizeMod := by omega
    have hsee : layout.see abi x =
        { layout with recordSize := (padTo (x.1.align abi) e + x.1.bytes abi 0) * 8 } := by
      rw [StructLayout.see, StructLayout.record, hfront x List.mem_cons_self,
        if_neg Bool.false_ne_true, he, hrunning,
        abi.roundUp_padTo (by omega), ← hsum, Nat.mod_eq_of_lt hsize, Nat.mod_eq_of_lt huint]
    rw [List.foldl_cons, hsee]
    exact see_front abi hfits.tail (fun y hy => hfront y (List.mem_cons_of_mem x hy)) rfl

/-- The member that is found among those behind the previous one: the first that has an alignment, or the
    last. -/
def found (abi : Abi) : List (Field × List Char) → Option (Field × List Char)
  | [] => none
  | x :: l => if x.1.align abi = 0 ∧ l ≠ [] then found abi l else some x

theorem found_eq_some (abi : Abi) : ∀ (x : Field × List Char) (l : List (Field × List Char)),
    ∃ z ∈ x :: l, found abi (x :: l) = some z
  | x, [] => ⟨x, List.mem_cons_self, by rw [found, if_neg fun h => h.2 rfl]⟩
  | x, y :: l => by
    rw [found]
    split
    · obtain ⟨z, hz, hfound⟩ := found_eq_some abi y l
      exact ⟨z, List.mem_cons_of_mem x hz, hfound⟩
    · exact ⟨x, List.mem_cons_self, rfl⟩

theorem see_aligned (abi : Abi) : ∀ {l : List (Field × List Char)} {layout : StructLayout},
    (∀ x ∈ l, isBehind layout.prevType x.2 = true) → layout.recordAlign ≠ 0 →
    l.foldl (StructLayout.see abi) layout = layout
  | [], _, _, _ => rfl
  | x :: l, layout, hback, halign => by
    have hsee : layout.see abi x = layout := by
      rw [StructLayout.see, StructLayout.record, hback x List.mem_cons_self, if_pos rfl, if_neg halign]
    rw [List.foldl_cons, hsee]
    exact see_aligned abi (fun y hy => hback y (List.mem_cons_of_mem x hy)) halign

/-- Of the members behind the previous one, `found` is kept. -/
theorem see_back (abi : Abi) : ∀ {l : List (Field × List Char)} {layout : StructLayout},
    (∀ x ∈ l, isBehind layout.prevType x.2 = true) → (∀ x ∈ l, x.1.align abi * 8 < uintMod) →
    layout.recordAlign = 0 →
    l.foldl (StructLayout.see abi) layout =
      match found abi l with
      | none => layout
      | some x => { layout with recordAlign := x.1.align abi * 8, type := some x.2 }
  | [], _, _, _, _ => rfl
  | x :: l, layout, hback, hfits, halign => by
    have hsee : layout.see abi x = { layout with recordAlign := x.1.align abi * 8, type := some x.2 } := by
      rw [StructLayout.see, StructLayout.record, hback x List.mem_cons_self, if_pos rfl, if_pos halign,
        Nat.mod_eq_of_lt (hfits x List.mem_cons_self)]
    have hback' : ∀ y ∈ l, isBehind layout.prevType y.2 = true := fun y hy =>
        hback y (List.mem_cons_of_mem x hy)
    rw [List.foldl_cons, hsee, found]
    by_cases hzero : x.1.align abi = 0
    · have hl := @see_back abi l { layout with recordAlign := x.1.align abi * 8, type := some x.2 }
        hback' (fun y hy => hfits y (List.mem_cons_of_mem x hy)) (by rw [hzero])
      rw [hl]
      cases l with
      | nil => rw [if_neg fun h => h.2 rfl, found]
      | cons y l =>
        obtain ⟨z, -, hz⟩ := found_eq_some abi y l
        rw [if_pos ⟨hzero, List.cons_ne_nil y l⟩, hz]
    · rw [if_neg fun h => hzero h.1]
      exact see_aligned abi hback' fun h => hzero (by
        have h : x.1.align abi * 8 = 0 := h
        omega)

/-! ## What the iteration should report -/

/-- `objc_sizeof_type` of a text that it can read. -/
def sizeof (abi : Abi) (text : List Char) : ℕ := (objcSizeofType abi text).getD 0

/-- `objc_alignof_type` of a text that it can read. -/
def alignof (abi : Abi) (text : List Char) : ℕ := (objcAlignofType abi text).getD 0

/-- The members at these pointers with their offsets and alignments, the first one behind `e` bytes. -/
def placed (abi : Abi) : ℕ → List (List Char) → List (List Char × ℕ × ℕ)
  | _, [] => []
  | e, text :: texts =>
    let offset := padTo (alignof abi text) e
    (text, offset, alignof abi text) :: placed abi (offset + sizeof abi text) texts

/-- The member reads as what it is, whatever follows it. -/
def ReadsAs (abi : Abi) (x : Field × List Char) : Prop :=
  objcSizeofType abi x.2 = some (x.1.bytes abi 0) ∧ objcAlignofType abi x.2 = some (x.1.align abi)

theorem reads_field (abi : Abi) {f : Field} (hs : f.Simple) (hr : f.Regular)
    (hsize : f.bytes abi 0 * 8 < abi.sizeMod)
    {rest : List Char} (hrest : FollowsField rest) : ReadsAs abi (f, f.piece.chars ++ rest) := by
  have hlen : f.encode.length ≤ (f.piece.chars ++ rest).length := by
    rw [f.chars_piece, List.length_append]
    omega
  have hrunning := f.running_eq abi hr 0 hsize
  rw [Nat.zero_mul] at hrunning
  constructor
  · show objcSizeofType abi (f.piece.chars ++ rest) = _
    rw [objcSizeofType, sizeofType_field abi f hs _ hlen rest hrest 0, hrunning]
    exact congrArg some (Nat.mul_div_cancel _ (by decide))
  · show objcAlignofType abi (f.piece.chars ++ rest) = _
    rw [objcAlignofType, alignofType_field abi f hs _ hlen rest hrest 0]
    show some (max (f.align abi * 8) 0 / 8) = some (f.align abi)
    rw [Nat.max_zero, Nat.mul_div_cancel _ (by decide)]

/-- The signatures of blocks do not contain the character that ends them, there are no bit-fields, element counts
fit an `int`, and the members' sizes and alignments in bits fit an `unsigned int` and the sizes a `size_t`. -/
structure Fits (abi : Abi) (fs : Fields) : Prop where
  simple : fs.Simple
  regular : fs.Regular
  uint : endOf abi 0 fs.members * 8 < uintMod
  align : ∀ x ∈ fs.members, x.1.align abi * 8 < uintMod
  size : padTo (fs.align abi) (endOf abi 0 fs.members) * 8 < abi.sizeMod

theorem Fits.fitsFrom {abi : Abi} {fs : Fields} (h : Fits abi fs) : FitsFrom abi 0 fs.members := by
  have hle := le_padTo (fs.align abi) (endOf abi 0 fs.members)
  have hsize := h.size
  refine ⟨fun x hx => ?_, h.uint, by omega, h.align⟩
  obtain ⟨⟨label, hmem⟩, -⟩ := Fields.mem_members hx
  exact Fields.regular_items h.regular _ hmem

theorem FitsFrom.append {abi : Abi} {e : ℕ} {front back : List (Field × List Char)}
    (h : FitsFrom abi e (front ++ back)) : FitsFrom abi e front ∧ FitsFrom abi (endOf abi e front) back := by
  have hle := le_endOf abi back (endOf abi e front)
  have huint := h.uint
  have hsize := h.size
  rw [endOf_append] at huint hsize
  exact ⟨⟨fun x hx => h.regular x (List.mem_append_left back hx), by omega, by omega,
      fun x hx => h.align x (List.mem_append_left back hx)⟩,
    ⟨fun x hx => h.regular x (List.mem_append_right front hx), huint, hsize,
      fun x hx => h.align x (List.mem_append_right front hx)⟩⟩

/-- A member reads as what it is where it stands. -/
theorem Fits.reads {abi : Abi} {fs : Fields} (h : Fits abi fs) {front back : List (Field × List Char)}
    {x : Field × List Char} (hmembers : fs.members = front ++ x :: back) : ReadsAs abi x := by
  have hx : x ∈ fs.members := by
    rw [hmembers]
    exact List.mem_append_right front List.mem_cons_self
  have hfits := h.fitsFrom
  rw [hmembers] at hfits
  have hsize := hfits.append.2.size
  have hle : padTo (x.1.align abi) (endOf abi 0 front) + x.1.bytes abi 0 ≤
      endOf abi (endOf abi 0 front) (x :: back) := le_endOf abi back _
  obtain ⟨⟨label, hmem⟩, rest, hrest, htext⟩ := Fields.mem_members hx
  have hbytes : x.1.bytes abi 0 * 8 < abi.sizeMod := by omega
  have hreads := reads_field abi (Fields.simple_items h.simple _ hmem) (Fields.regular_items h.regular _ hmem)
    hbytes hrest
  rw [← htext] at hreads
  exact hreads

/-! ## The iteration -/

section

variable {abi : Abi} {name : NameWithout ['=', '}']} {fs : Fields} {front back : List (Field × List Char)}
    {layout : StructLayout}

/-- One step behind the members in `front`. -/
theorem nextMember_found (hfits : Fits abi fs) (hmembers : fs.members = front ++ back)
    (htype : layout.originalType = (ExtendedType.struct name fs).encode)
    (hlast : layout.type = lastType front) :
    objcLayoutStructureNextMember abi layout =
      match found abi back with
      | none =>
          some ({ layout with recordSize := endOf abi 0 front * 8, recordAlign := 0, prevType := layout.type },
          false)
      | some x => some ({ layout with
          recordSize := endOf abi 0 front * 8
          recordAlign := x.1.align abi * 8
          prevType := layout.type
          type := some x.2 }, true) := by
  have hall := hfits.fitsFrom
  rw [hmembers] at hall
  have hpairwise := fs.pairwise_members
  rw [hmembers] at hpairwise
  obtain ⟨hfront, hback⟩ := isBehind_front hpairwise
  rw [← hlast] at hfront hback
  have hseefront := @see_front abi _
      { layout with recordSize := 0, recordAlign := 0, prevType := layout.type } 0
    hall.append.1 hfront (Nat.zero_mul 8).symm
  have hseeback := @see_back abi _
    { layout with recordSize := endOf abi 0 front * 8, recordAlign := 0, prevType := layout.type }
    hback hall.append.2.align rfl
  rw [nextMember_eq abi name hfits.simple htype, hmembers, List.foldl_append, hseefront]
  dsimp only at hseeback ⊢
  rw [hseeback]
  cases back with
  | nil => simp [found]
  | cons y back =>
    obtain ⟨z, hz, hfound⟩ := found_eq_some abi y back
    have hne : some z.2 ≠ layout.type := by
      intro heq
      have hbehind := hback z hz
      rw [← heq, isBehind, decide_eq_true_eq] at hbehind
      omega
    rw [hfound]
    simp [hne]

/-- The info on a member that was found where it should be. -/
theorem getInfo_found (hfits : Fits abi fs) {x : Field × List Char}
    (hmembers : fs.members = front ++ x :: back)
    (hsize : layout.recordSize = endOf abi 0 front * 8) (halign : layout.recordAlign = x.1.align abi * 8)
    (htype : layout.type = some x.2) : objcLayoutStructureGetInfo abi layout =
      (some x.2, padTo (alignof abi x.2) (endOf abi 0 front), alignof abi x.2) := by
  have hreads : alignof abi x.2 = x.1.align abi := by
    rw [alignof, (hfits.reads hmembers).2, Option.getD_some]
  have hall := hfits.fitsFrom
  rw [hmembers] at hall
  have hle : padTo (x.1.align abi) (endOf abi 0 front) + x.1.bytes abi 0 ≤
      endOf abi (endOf abi 0 front) (x :: back) := le_endOf abi back _
  have huint := hall.append.2.uint
  have hsizeMod := hall.append.2.size
  have hpad : padTo (x.1.align abi) (endOf abi 0 front) < uintMod := by omega
  rw [objcLayoutStructureGetInfo, hsize, halign, htype, Nat.mul_div_cancel _ (by decide),
    Nat.mul_div_cancel _ (by decide), abi.roundUp_eq_padTo (by omega), Nat.mod_eq_of_lt hpad, hreads]

/-- The iteration behind some members reports the others if and only if those but the last have an alignment. -/
theorem visit_back (hfits : Fits abi fs) : ∀ (back front : List (Field × List Char)) (layout : StructLayout),
    fs.members = front ++ back → layout.originalType = (ExtendedType.struct name fs).encode →
    layout.type = lastType front →
    (visit abi (back.length + 1) layout =
        some ((placed abi (endOf abi 0 front) (back.map Prod.snd)).map fun p => (some p.1, p.2)) ↔
      ∀ x ∈ back.dropLast, x.1.align abi ≠ 0)
  | [], front, layout, hmembers, htype, hlast => by
    have hnext := nextMember_found hfits hmembers htype hlast
    rw [List.length_nil, visit, hnext]
    exact iff_of_true rfl fun x hx => absurd hx List.not_mem_nil
  | x :: back, front, layout, hmembers, htype, hlast => by
    have hnext := nextMember_found hfits hmembers htype hlast
    have hreads := hfits.reads hmembers
    have halignof : alignof abi x.2 = x.1.align abi := by rw [alignof, hreads.2, Option.getD_some]
    have hsizeof : sizeof abi x.2 = x.1.bytes abi 0 := by rw [sizeof, hreads.1, Option.getD_some]
    rw [List.length_cons, visit, hnext, found, List.map_cons, placed]
    by_cases hskip : x.1.align abi = 0 ∧ back ≠ []
    · -- a member behind it is found instead
      obtain ⟨y, back, rfl⟩ := List.exists_cons_of_ne_nil hskip.2
      obtain ⟨z, hz, hfound⟩ := found_eq_some abi y back
      rw [if_pos hskip, hfound]
      refine iff_of_false (fun heq => ?_) fun hall => hall x List.mem_cons_self hskip.1
      have hpairwise := fs.pairwise_members
      rw [hmembers] at hpairwise
      have hlt := (List.pairwise_cons.mp (List.pairwise_append.mp hpairwise).2.1).1 z hz
      obtain ⟨l, -, hl⟩ := Option.map_eq_some_iff.mp heq
      have htext : z.2 = x.2 := Option.some.inj (congrArg Prod.fst (List.cons.inj hl).1)
      rw [htext] at hlt
      omega
    · have hinfo := @getInfo_found abi fs front back { layout with
          recordSize := endOf abi 0 front * 8
          recordAlign := x.1.align abi * 8
          prevType := layout.type
          type := some x.2 } hfits x hmembers rfl rfl rfl
      have hrest := visit_back hfits back (front ++ [x]) { layout with
          recordSize := endOf abi 0 front * 8
          recordAlign := x.1.align abi * 8
          prevType := layout.type
          type := some x.2 } (by rw [hmembers, List.append_assoc, List.singleton_append]) htype
        (by rw [lastType, List.getLast?_concat, Option.map_some])
      have hend : endOf abi 0 (front ++ [x]) = padTo (alignof abi x.2) (endOf abi 0 front) + sizeof
          abi x.2 := by
        rw [endOf_append, halignof, hsizeof]
        rfl
      rw [hend] at hrest
      have hdrop : (∀ y ∈ (x :: back).dropLast, y.1.align abi ≠ 0) ↔ ∀ y ∈ back.dropLast,
          y.1.align abi ≠ 0 := by
        cases back with
        | nil => exact Iff.rfl
        | cons y back =>
          have hx : x.1.align abi ≠ 0 := fun h => hskip ⟨h, List.cons_ne_nil y back⟩
          rw [List.dropLast_cons_cons, List.forall_mem_cons, and_iff_right hx]
      rw [if_neg hskip, hdrop, ← hrest, Option.bind_some, if_pos rfl, hinfo, List.map_cons]
      constructor
      · intro heq
        obtain ⟨l, hl, hcons⟩ := Option.map_eq_some_iff.mp heq
        rw [hl, (List.cons.inj hcons).2]
      · intro heq
        rw [heq, Option.map_some]

end

/-! ## The size of the structure -/

/-- `sizeof_type` rounds up to the alignment of the type before it adds its size. -/
def ExtendedType.RoundsUp : ExtendedType → Prop
  | .qualified _ t => t.RoundsUp
  | .primitive _ | .complex _ | .object _ => True
  | _ => False

def Field.RoundsUp : Field → Prop
  | .type t => t.RoundsUp
  | .bitfield .. => False

/-- The padding that the members need is padding that `sizeof_type` adds. -/
def PaddedFrom (abi : Abi) : ℕ → List (Field × List Char) → Prop
  | _, [] => True
  | e, x :: l => (x.1.RoundsUp ∨ AlignedAt (x.1.align abi) e) ∧
      PaddedFrom abi (padTo (x.1.align abi) e + x.1.bytes abi 0) l

theorem nextMultiple_add_eq {a : ℕ} (h : IsAlignment a) (e size : ℕ) :
    nextMultiple a e + size = padTo a e + (nextMultiple a 0 + size) := by
  have hzero : nextMultiple a 0 = 0 := nextMultiple_of_dvd h.pos (Nat.dvd_zero a)
  rw [padTo, if_neg (Nat.ne_of_gt h.pos), hzero, Nat.zero_add]

theorem ExtendedType.bytes_eq (abi : Abi) : ∀ (t : ExtendedType), t.RoundsUp → ∀ e,
    t.bytes abi e = padTo (t.align abi) e + t.bytes abi 0
  | .qualified _ t, h, e => t.bytes_eq abi h e
  | .primitive _, _, e | .complex _, _, e | .object _, _, e =>
    nextMultiple_add_eq (abi.alignof_isAlignment _) e _

theorem Field.bytes_eq (abi : Abi) {f : Field} {e : ℕ} (h : f.RoundsUp ∨ AlignedAt (f.align abi) e) :
    f.bytes abi e = padTo (f.align abi) e + f.bytes abi 0 := by
  rcases h with h | h
  · cases f with
    | type t => exact t.bytes_eq abi h e
    | bitfield => exact h.elim
  · rw [padTo_of_aligned h]
    exact f.bytes_add abi h 0

/-- `sizeof_type` adds up the members as the iteration does. -/
theorem Fields.bytes_eq (abi : Abi) (tail : List Char) : ∀ (fs : Fields) {e : ℕ},
    PaddedFrom abi e (piecesAt Field.piece tail fs.items) →
    fs.bytes abi e = endOf abi e (piecesAt Field.piece tail fs.items)
  | .nil, _, _ => rfl
  | .cons _ field rest, e, h => by
    rw [Fields.bytes, Field.bytes_eq abi h.1, rest.bytes_eq abi tail h.2]
    rfl

/-- The last offset and the size behind it are where the members end. -/
theorem placed_last (abi : Abi) : ∀ {l : List (Field × List Char)} {e : ℕ}, (∀ x ∈ l, ReadsAs abi x) →
    ∀ p ∈ (placed abi e (l.map Prod.snd)).getLast?, p.2.1 + sizeof abi p.1 = endOf abi e l
  | [], _, _, p, hp => nomatch hp
  | x :: l, e, h, p, hp => by
    have hx := h x List.mem_cons_self
    have halignof : alignof abi x.2 = x.1.align abi := by rw [alignof, hx.2, Option.getD_some]
    have hsizeof : sizeof abi x.2 = x.1.bytes abi 0 := by rw [sizeof, hx.1, Option.getD_some]
    cases l with
    | nil =>
      have hp : (x.2, padTo (alignof abi x.2) e, alignof abi x.2) = p := Option.some.inj hp
      rw [← hp, halignof, hsizeof]
      rfl
    | cons y l =>
      rw [List.map_cons, placed, List.map_cons, placed, List.getLast?_cons_cons, ← placed, ← List.map_cons,
        halignof, hsizeof] at hp
      exact placed_last abi (fun z hz => h z (List.mem_cons_of_mem x hz)) p hp

/-- The iteration visits the members in their order and stops, with the offsets of their sizes and alignments. -/
def VisitsMembers (abi : Abi) (name : NameWithout ['=', '}']) (fs : Fields) : Prop :=
  ∀ layout, visit abi (fs.members.length + 1)
  (objcLayoutStructure (ExtendedType.struct name fs).encode layout) =
    some ((placed abi 0 (fs.members.map Prod.snd)).map fun p => (some p.1, p.2))

/-- The last offset with the size of the last member, rounded up, is the size of the structure. -/
def SizesAgree (abi : Abi) (name : NameWithout ['=', '}']) (fs : Fields) : Prop :=
  ∀ p ∈ (placed abi 0 (fs.members.map Prod.snd)).getLast?,
    objcSizeofType abi (ExtendedType.struct name fs).encode =
      some (padTo (alignof abi (ExtendedType.struct name fs).encode) (p.2.1 + sizeof abi p.1))

/-- The members are visited with the offsets of their sizes and alignments if and only if every member but the
last has an alignment, and the offsets agree with the size of the structure when padding is only needed where
`sizeof_type` adds it. -/
theorem structure_members (abi : Abi) (name : NameWithout ['=', '}']) {fs : Fields} (hfits : Fits abi fs) :
    (VisitsMembers abi name fs ↔ ∀ x ∈ fs.members.dropLast, x.1.align abi ≠ 0) ∧
      (PaddedFrom abi 0 fs.members → SizesAgree abi name fs) := by
  constructor
  · have hvisit : ∀ layout, _ := fun layout => @visit_back abi name fs hfits fs.members []
      (objcLayoutStructure (ExtendedType.struct name fs).encode layout) rfl rfl rfl
    constructor
    · intro h
      exact (hvisit ⟨[], none, none, 0, 0⟩).mp (h _)
    · intro h layout
      exact (hvisit layout).mpr h
  · intro hpadded p hp
    have hreads : ∀ x ∈ fs.members, ReadsAs abi x := by
      intro x hx
      obtain ⟨front, back, hmembers⟩ := List.append_of_mem hx
      exact hfits.reads hmembers
    have hbytes := fs.bytes_eq abi ['}'] hpadded
    have hstruct : (ExtendedType.struct name fs).bytes abi 0 = padTo (fs.align abi)
        (endOf abi 0 fs.members) :=
      congrArg (padTo (fs.align abi)) hbytes
    have hfit : (Field.type (.struct name fs)).bytes abi 0 * 8 < abi.sizeMod := by
      rw [Field.bytes, hstruct]
      exact hfits.size
    have hread : ReadsAs abi (.type (.struct name fs), (ExtendedType.struct name fs).encode ++ []) :=
      @reads_field abi (.type (.struct name fs)) hfits.simple hfits.regular hfit
      [] ⟨follows_nil, fun _ h => nomatch h⟩
    rw [List.append_nil] at hread
    have halignof : alignof abi (ExtendedType.struct name fs).encode = fs.align abi := by
      rw [alignof, hread.2, Option.getD_some]
      rfl
    rw [placed_last abi hreads p hp, halignof, ← hstruct]
    exact hread.1

/-- `{S=ci}`: the second member has offset 4. -/
theorem structure_members_padded :
    VisitsMembers lp64 ⟨['S'], by simp⟩ (.cons none (.type (.primitive (.arithmetic .signedChar)))
        (.cons none (.type (.primitive (.arithmetic .int))) .nil)) ∧
      SizesAgree lp64 ⟨['S'], by simp⟩ (.cons none (.type (.primitive (.arithmetic .signedChar)))
        (.cons none (.type (.primitive (.arithmetic .int))) .nil)) := by
  have hfits : Fits lp64 (.cons none (.type (.primitive (.arithmetic .signedChar)))
      (.cons none (.type (.primitive (.arithmetic .int))) .nil)) :=
    ⟨⟨trivial, trivial, trivial⟩,
     ⟨trivial, trivial, trivial⟩, by decide +kernel, by decide +kernel, by decide +kernel⟩
  have h := structure_members lp64 ⟨['S'], by simp⟩ hfits
  exact ⟨h.1.mpr (by decide +kernel), h.2 ⟨.inl trivial, .inl trivial, trivial⟩⟩

/-- `{S=c^ic}`: the last member has offset 16, and `objc_sizeof_type` returns 16. -/
theorem sizes_disagree : ¬∀ abi name (fs : Fields), fs.Regular → fs ≠ .nil →
    VisitsMembers abi name fs ∧ SizesAgree abi name fs := by
  intro h
  have hagree := (h lp64 ⟨['S'], by simp⟩ (.cons none (.type (.primitive (.arithmetic .signedChar)))
    (.cons none (.type (.pointer (.type (.primitive (.arithmetic .int)))))
      (.cons none (.type (.primitive (.arithmetic .signedChar))) .nil))) ⟨trivial, trivial, trivial, trivial⟩
    (fun h => nomatch h)).2 (['c', '}'], 16, 1) (by decide +kernel)
  exact absurd hagree (by decide +kernel)

/-- `{S=i{E=}i}`: the member without an alignment is left out. -/
example : visit lp64 4
    (objcLayoutStructure ['{', 'S', '=', 'i', '{', 'E', '=', '}', 'i', '}'] ⟨[], none, none, 0, 0⟩) =
    some [(some ['i', '{', 'E', '=', '}', 'i', '}'], 0, 4), (some ['i', '}'], 4, 4)] := by
  decide +kernel

end Libobjc2.Encoding
