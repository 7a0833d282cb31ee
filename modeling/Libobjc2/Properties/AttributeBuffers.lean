import Libobjc2.Common.Buffer
import Libobjc2.Properties.RoundTrip

/-!
# The buffers of property attributes

Model of `encodingFromAttrs` and `property_copyAttributeList` in `runtime/properties.mm` (lines 371–513)
with the blocks that they allocate. Both functions measure in a first pass and write in a second one. A
write outside the block and a failed assertion are `none`; `NULL` is `some none`.

In the block of an attribute list a cell is a character, or one of the 16 bytes of an entry: the pointer
to its name, and the position of its value in the block. `size_t` has 64 bits and `unsigned int` has 32.

Results:
* `encodingFromAttrs_eq`: the attribute string and its terminator are written to the start of the block,
  and the bytes behind them, if there are any, are not touched.
* `propertyCopyAttributeList_eq`: the block is filled with the entries and then with the values.
* `attributeBuffers_inBounds`: no write is outside the blocks, the attribute string of known and distinct
  names fills its block, and the values of a list are separate strings.
-/

namespace Libobjc2.Properties.Bytes

open Common Common.Buffer

/-! ## Model -/

/-- `SIZE_MAX`. -/
def sizeMax : ℕ := 2 ^ 64 - 1

/-- `UINT_MAX`. -/
def uintMax : ℕ := 2 ^ 32 - 1

/-- The attributes that the caller hands over. -/
def givenAttributes (attributes : Option (List Attribute)) (attributeCount : ℕ) : List Attribute :=
  (attributes.getD []).take attributeCount

/-- `addAttrIfExists` (lines 444–462): the block and the position behind the attribute. -/
def addAttrIfExists (attributes : Option (List Attribute)) (attributeCount : ℕ) (s : Buffer Char × ℕ)
    (a : Char) : Option (Buffer Char × ℕ) :=
  match findAttribute a attributes attributeCount with
  | none => some s
  | some attr => do
    let (buffer, out) := s
    let buffer ← buffer.write out a
    let value := attr.value.getD []
    let buffer ← buffer.writeAll (out + 1) value
    let buffer ← buffer.write (out + 1 + value.length) ','
    some (buffer, out + 1 + value.length + 1)

/-- The loop of lines 477–485: `NULL` if the size overflows. -/
def addValueSizes : List Attribute → ℕ → Option ℕ
  | [], attributesSize => some attributesSize
  | a :: attributes, attributesSize =>
    match a.value with
    | none => addValueSizes attributes attributesSize
    | some value =>
      if sizeMax - attributesSize < value.length then none
      else addValueSizes attributes (attributesSize + value.length)

/-- `encodingFromAttrs` (lines 464–513). -/
def encodingFromAttrs (rt : Runtime) (attributes : Option (List Attribute)) (attributeCount : ℕ) :
    Option (Option (Buffer Char)) :=
  if attributeCount ≠ 0 ∧ attributes = none then some none
  else if sizeMax < attributeCount * 2 then some none
  else
    match addValueSizes (givenAttributes attributes attributeCount) (attributeCount * 2) with
    | none => some none
    | some attributesSize =>
      if attributesSize = 0 then some none
      else if ¬rt.alloc .attributes attributesSize then some none
      else do
        let (buffer, out) ← encodingOrder.foldlM (addAttrIfExists attributes attributeCount)
          (blank attributesSize, 0)
        if out = 0 then some none
        else do
          let buffer ← buffer.write (out - 1) '\x00'
          some (some buffer)

/-- A byte of the block of `property_copyAttributeList`. -/
inductive Cell
  | char (c : Char)
  | entry (name : List Char) (value : ℕ)
  deriving DecidableEq, Repr

/-- `storedLength` of a token. -/
def storedLength (t : Char × List Char) : ℕ := if propertyAttributeHasValue t.1 then t.2.length else 0

/-- The first pass (lines 387–399): `count` and `valueBytes`, or `NULL`. -/
def countTokens : List (Char × List Char) → ℕ → ℕ → Option (ℕ × ℕ)
  | [], count, valueBytes => some (count, valueBytes)
  | t :: tokens, count, valueBytes =>
    if t.1 = 'T' ∨ propertyAttributeName t.1 = none then countTokens tokens count valueBytes
    else if count = uintMax ∨ sizeMax < storedLength t + 1 ∨ sizeMax < valueBytes + (storedLength t + 1) then none
    else countTokens tokens (count + 1) (valueBytes + (storedLength t + 1))

/-- An entry of the array and its value with the terminator. -/
def writeEntry (b : Buffer Cell) (out valueOut : ℕ) (name value : List Char) : Option (Buffer Cell) := do
  let b ← b.writeAll (16 * out) (List.replicate 16 (.entry name valueOut))
  let b ← b.writeAll valueOut (value.map .char)
  b.write (valueOut + value.length) (.char '\x00')

/-- The second pass (lines 428–440). -/
def fillTokens : List (Char × List Char) → Buffer Cell → ℕ → ℕ → Option (Buffer Cell × ℕ)
  | [], b, out, _ => some (b, out)
  | t :: tokens, b, out, valueOut =>
    match propertyAttributeName t.1 with
    | none => fillTokens tokens b out valueOut
    | some attributeName =>
      if t.1 = 'T' then fillTokens tokens b out valueOut
      else do
        let b ← writeEntry b out valueOut attributeName (t.2.take (storedLength t))
        fillTokens tokens b (out + 1) (valueOut + storedLength t + 1)

/-- Lines 412–440: the type and then the tokens are written to a block that begins with the array. -/
def fillBlock (types : Option (List Char)) (tokens : List (Char × List Char)) (block : Buffer Cell)
    (arrayBytes : ℕ) : Option (Buffer Cell × ℕ) :=
  match types with
  | none => fillTokens tokens block 0 arrayBytes
  | some types => do
    let b ← writeEntry block 0 arrayBytes ['T'] types
    fillTokens tokens b 1 (arrayBytes + types.length + 1)

/-- `property_copyAttributeList` (lines 371–443): the block and `*outCount`. -/
def propertyCopyAttributeList (rt : Runtime) (property : Option Property) :
    Option (Option (Buffer Cell × ℕ)) :=
  match property with
  | none => some none
  | some property =>
    let types := property.type
    match countTokens (tokensOf property.attributes) (if types.isNone then 0 else 1)
      (types.elim 0 fun types => types.length + 1) with
    | none => some none
    | some (count, valueBytes) =>
      if count = 0 then some none
      else if sizeMax < count * 16 ∨ sizeMax < count * 16 + valueBytes then some none
      else if ¬rt.alloc .copy (count * 16 + valueBytes) then some none
      else do
        let (b, out) ← fillBlock types (tokensOf property.attributes)
            (blank (count * 16 + valueBytes)) (count * 16)
        -- the assertion in line 441
        guard (out = count)
        some (some (b, out % 2 ^ 32))

/-! ## The attribute string -/

section

variable (attributes : Option (List Attribute)) (attributeCount : ℕ)

/-- What is written for a letter. -/
def chunk (a : Char) : List Char :=
  (findAttribute a attributes attributeCount).elim [] fun attr => a :: (attr.value.getD [] ++ [','])

/-- The letter that an attribute is looked up by. -/
def letter (a : Attribute) : Option Char := a.name.bind List.head?

/-- The room that the first pass plans for an attribute. -/
def room (a : Attribute) : ℕ := 2 + (a.value.getD []).length

/-- All names are known and no two are the same. -/
structure KnownAndDistinct : Prop where
  length_eq : (givenAttributes attributes attributeCount).length = attributeCount
  known : ∀ a ∈ givenAttributes attributes attributeCount, letter a ∈ encodingOrder.map some
  distinct : ((givenAttributes attributes attributeCount).map letter).Nodup

variable {attributes attributeCount}

theorem findAttribute_eq (a : Char) : findAttribute a attributes attributeCount =
    lookup letter (givenAttributes attributes attributeCount) (some a) := by
  unfold findAttribute givenAttributes lookup
  have hletter : (fun x : Attribute => x.name.any fun n => decide (n.head? = some a)) =
      fun x => decide (letter x = some a) := by
    funext x
    cases hx : x.name <;> simp [letter, hx]
  rw [hletter]
  cases attributes with
  | none => simp
  | some l => simp

theorem addAttrIfExists_list (buffer : List Char) (a : Char) :
    Properties.addAttrIfExists attributes attributeCount buffer a =
    buffer ++ chunk attributes attributeCount a := by
  unfold Properties.addAttrIfExists chunk
  cases findAttribute a attributes attributeCount <;> simp

/-- An attribute goes behind what is written, if there is room for it. -/
theorem addAttrIfExists_eq (s : List Char) (a : Char) (rest : ℕ) :
    addAttrIfExists attributes attributeCount
      (text s ++ blank ((chunk attributes attributeCount a).length + rest), s.length) a =
    some (text (s ++ chunk attributes attributeCount a) ++ blank rest,
      (s ++ chunk attributes attributeCount a).length) := by
  unfold addAttrIfExists chunk
  cases findAttribute a attributes attributeCount with
  | none => simp
  | some attr =>
    dsimp only [Option.elim_some]
    set value := attr.value.getD []
    have hwrites : ∀ (b : Buffer Char) (pos : ℕ),
        ((b.write pos a).bind fun b => (b.writeAll (pos + 1) value).bind
        fun b => b.write (pos + 1 + value.length) ',') = b.writeAll pos (a :: (value ++ [','])) := by
      intro b pos
      simp only [write_eq_writeAll, writeAll_bind_writeAll]
      exact writeAll_bind_writeAll b pos [a] (value ++ [','])
    have hroom := writeAll_blank (a :: (value ++ [','])) (Nat.le_add_right _ rest) (text s) []
    rw [Nat.add_sub_cancel_left, List.append_nil, List.append_nil, length_text, ← hwrites] at hroom
    obtain ⟨b₁, hb₁, hroom⟩ := Option.bind_eq_some_iff.mp hroom
    obtain ⟨b₂, hb₂, hroom⟩ := Option.bind_eq_some_iff.mp hroom
    simp only [Option.bind_eq_bind, hb₁, hb₂, hroom, Option.bind_some, text_append, List.append_assoc]
    simp only [List.length_append, List.length_cons, List.length_nil, Option.some.injEq,
      Prod.mk.injEq, true_and]
    omega

/-- The attributes go into the block one behind the other. -/
theorem foldlM_addAttrIfExists (order : List Char) (s : List Char) (rest : ℕ) :
    order.foldlM (addAttrIfExists attributes attributeCount)
      (text s ++ blank ((order.flatMap (chunk attributes attributeCount)).length + rest), s.length) =
    some (text (s ++ order.flatMap (chunk attributes attributeCount)) ++ blank rest,
      (s ++ order.flatMap (chunk attributes attributeCount)).length) := by
  induction order generalizing s with
  | nil => simp
  | cons a order ih =>
    have hfirst := @addAttrIfExists_eq attributes attributeCount s a
      ((order.flatMap (chunk attributes attributeCount)).length + rest)
    rw [List.foldlM_cons, List.flatMap_cons, List.length_append, Nat.add_assoc, hfirst, Option.bind_eq_bind,
      Option.bind_some, ih, List.append_assoc]

/-- What is written are the attributes that are found. -/
theorem length_flatMap_chunk (order : List Char) :
    (order.flatMap (chunk attributes attributeCount)).length =
      ((inOrder letter (order.map some) (givenAttributes attributes attributeCount)).map room).sum := by
  induction order with
  | nil => rfl
  | cons a order ih =>
    have hchunk : (chunk attributes attributeCount a).length =
        ((lookup letter (givenAttributes attributes attributeCount) (some a)).toList.map room).sum := by
      unfold chunk
      rw [findAttribute_eq]
      cases lookup letter (givenAttributes attributes attributeCount) (some a) with
      | none => rfl
      | some attr =>
        simp only [Option.elim_some, List.length_cons, List.length_append, List.length_nil,
          Option.toList_some,
          List.map_cons, List.map_nil, List.sum_cons, List.sum_nil, room]
        omega
    have hcons : inOrder letter ((a :: order).map some) (givenAttributes attributes attributeCount) =
        (lookup letter (givenAttributes attributes attributeCount) (some a)).toList ++
          inOrder letter (order.map some) (givenAttributes attributes attributeCount) := by
      cases h : lookup letter (givenAttributes attributes attributeCount) (some a) <;> simp [inOrder, h]
    rw [List.flatMap_cons, List.length_append, hchunk, ih, hcons, List.map_append, List.sum_append]

/-- The size that the first pass computes. -/
theorem addValueSizes_eq {l : List Attribute} {attributesSize size : ℕ}
    (h : addValueSizes l attributesSize = some size) :
    size + 2 * l.length = attributesSize + (l.map room).sum := by
  induction l generalizing attributesSize with
  | nil =>
    obtain rfl := Option.some.inj h
    simp
  | cons a l ih =>
    rw [addValueSizes] at h
    cases hv : a.value with
    | none =>
      rw [hv] at h
      have hrest := ih h
      simp only [List.length_cons, List.map_cons, List.sum_cons, room, hv, Option.getD_none, List.length_nil]
      omega
    | some value =>
      rw [hv] at h
      dsimp only at h
      split_ifs at h
      have hrest := ih h
      simp only [List.length_cons, List.map_cons, List.sum_cons, room, hv, Option.getD_some]
      omega

/-- The attributes that are found need no more room than all that are given. -/
theorem sum_inOrder_le {order : List Char} (horder : order.Nodup) (l : List Attribute) :
    ((inOrder letter (order.map some) l).map room).sum ≤ (l.map room).sum := by
  have hnodup := nodup_inOrder letter (horder.map (Option.some_injective Char)) l
  have hsub : inOrder letter (order.map some) l ⊆ l := by
    intro a ha
    obtain ⟨k, -, hk⟩ := List.mem_filterMap.mp ha
    exact (lookup_some hk).1
  obtain ⟨l', hperm, hsublist⟩ := hnodup.subperm hsub
  rw [← (hperm.map room).sum_eq]
  exact (hsublist.map room).sum_le_sum fun _ _ => Nat.zero_le _

/-- Distinct attributes with names that are known are all found. -/
theorem sum_inOrder_eq (h : KnownAndDistinct attributes attributeCount) :
    ((inOrder letter (encodingOrder.map some) (givenAttributes attributes attributeCount)).map room).sum =
      ((givenAttributes attributes attributeCount).map room).sum := by
  have horder : (encodingOrder.map some).Nodup := by decide
  exact ((perm_inOrder horder h.distinct h.known).map room).sum_eq

/-- **The attribute string.** If there is a block, the string and its terminator stand at its start, and
    with known and distinct names they fill it. -/
theorem encodingFromAttrs_eq (rt : Runtime) (attributes : Option (List Attribute)) (attributeCount : ℕ) :
    encodingFromAttrs rt attributes attributeCount = some none ∨
      ∃ s rest, encodingFromAttrs rt attributes attributeCount =
      some (some (text (s ++ ['\x00']) ++ blank rest)) ∧
        Properties.encodingFromAttrs rt attributes attributeCount = some s ∧
        (KnownAndDistinct attributes attributeCount → rest = 0) := by
  set written := encodingOrder.flatMap (chunk attributes attributeCount) with hwritten
  unfold encodingFromAttrs
  by_cases hnull : attributeCount ≠ 0 ∧ attributes = none
  · exact Or.inl (if_pos hnull)
  rw [if_neg hnull]
  by_cases hcount : sizeMax < attributeCount * 2
  · exact Or.inl (if_pos hcount)
  rw [if_neg hcount]
  cases hsize : addValueSizes (givenAttributes attributes attributeCount) (attributeCount * 2) with
  | none => exact Or.inl rfl
  | some size =>
    dsimp only
    have hrooms := addValueSizes_eq hsize
    by_cases hzero : size = 0
    · exact Or.inl (if_pos hzero)
    rw [if_neg hzero]
    by_cases halloc : rt.alloc .attributes size = true
    swap
    · exact Or.inl (if_pos halloc)
    rw [if_neg (not_not.mpr halloc)]
    have hlen : written.length =
        ((inOrder letter (encodingOrder.map some) (givenAttributes attributes attributeCount)).map
          room).sum :=
      length_flatMap_chunk encodingOrder
    have hle := @sum_inOrder_le encodingOrder (by decide) (givenAttributes attributes attributeCount)
    have hgiven : (givenAttributes attributes attributeCount).length ≤ attributeCount :=
        List.length_take_le ..
    have hfold := @foldlM_addAttrIfExists attributes attributeCount
      encodingOrder [] (size - written.length)
    rw [← hwritten, Nat.add_sub_cancel' (by omega), List.nil_append] at hfold
    have hstart : (text [] ++ blank size : Buffer Char) = blank size := rfl
    rw [hstart, List.length_nil] at hfold
    rw [hfold, Option.bind_eq_bind, Option.bind_some]
    dsimp only
    rcases List.eq_nil_or_concat' written with hnil | ⟨s, last, hlast⟩
    · rw [hnil]
      exact Or.inl rfl
    rw [if_neg (by rw [hlast]; simp)]
    have hwrite : (text written ++ blank (size - written.length)).write (written.length - 1) '\x00' =
        some (text (s ++ ['\x00']) ++ blank (size - written.length)) := by
      have hset := @writeAll_append _ ['\x00'] (text s) (blank (size - written.length)) [some last] rfl
      rw [length_text, ← write_eq_writeAll] at hset
      have hpos : written.length - 1 = s.length := by rw [hlast]; simp
      have htext : text written = text s ++ [some last] := by rw [hlast, text_append]; rfl
      rw [hpos, htext, List.append_assoc, text_append, List.append_assoc]
      exact hset
    refine Or.inr ⟨s, size - written.length, by rw [Option.bind_eq_bind, hwrite]; rfl, ?_, fun hknown => ?_⟩
    · have hvalues : attributeCount * 2 + ((givenAttributes attributes attributeCount).map
          fun a => (a.value.getD []).length).sum = size := by
        have hroom : ∀ l : List Attribute, (l.map room).sum =
            2 * l.length + (l.map fun a => (a.value.getD []).length).sum := by
          intro l
          induction l with
          | nil => rfl
          | cons a l ih =>
            simp only [List.map_cons, List.sum_cons, List.length_cons, ih, room]
            omega
        have := hroom (givenAttributes attributes attributeCount)
        omega
      have hlist : encodingOrder.foldl (Properties.addAttrIfExists attributes attributeCount) [] =
          written := by
        have hfold : ∀ (order : List Char) (buffer : List Char),
            order.foldl (Properties.addAttrIfExists attributes attributeCount) buffer =
              buffer ++ order.flatMap (chunk attributes attributeCount) := by
          intro order
          induction order with
          | nil => simp
          | cons a order ih =>
            intro buffer
            rw [List.foldl_cons, addAttrIfExists_list, ih, List.flatMap_cons, List.append_assoc]
        simpa using hfold encodingOrder []
      unfold givenAttributes at hvalues
      unfold Properties.encodingFromAttrs
      rw [if_neg hnull]
      dsimp only
      rw [hvalues, if_neg hzero, if_neg (not_not.mpr halloc), hlist, if_neg (by rw [hlast]; simp), hlast]
      simp
    · have heq := sum_inOrder_eq hknown
      have hfull := hknown.length_eq
      omega

end

/-! ## The attribute list -/

/-- A value with its terminator. -/
def valueCells (value : List Char) : List Cell := value.map .char ++ [.char '\x00']

/-- The values one behind the other. -/
def valuesCells (items : List (List Char × List Char)) : List Cell := items.flatMap fun item =>
    valueCells item.2

/-- The entries, whose values begin at `valueOut`. -/
def entryCells : ℕ → List (List Char × List Char) → List Cell
  | _, [] => []
  | valueOut, item :: items =>
    List.replicate 16 (.entry item.1 valueOut) ++ entryCells (valueOut + item.2.length + 1) items

/-- Where the value of an entry begins. -/
def valueOffset (items : List (List Char × List Char)) (k : ℕ) : ℕ :=
  16 * items.length + (valuesCells (items.take k)).length

theorem length_valueCells (value : List Char) : (valueCells value).length = value.length + 1 := by
  simp [valueCells]

theorem length_valuesCells_cons (item : List Char × List Char) (items : List (List Char × List Char)) :
    (valuesCells (item :: items)).length = item.2.length + 1 + (valuesCells items).length := by
  simp [valuesCells, length_valueCells]

theorem length_entryCells (valueOut : ℕ) (items : List (List Char × List Char)) :
    (entryCells valueOut items).length = 16 * items.length := by
  induction items generalizing valueOut with
  | nil => rfl
  | cons item items ih =>
    rw [entryCells, List.length_append, List.length_replicate, ih, List.length_cons]
    omega

/-- The list that a token adds to. -/
def itemsOf (tokens : List (Char × List Char)) : List (List Char × List Char) :=
  entriesOf (tokens.filter listed)

/-- A token that is passed over, or the item that it adds. -/
theorem itemsOf_cons (t : Char × List Char) (tokens : List (Char × List Char)) : itemsOf (t :: tokens) =
    if t.1 = 'T' ∨ propertyAttributeName t.1 = none then itemsOf tokens
    else ([t.1], storedValue t) :: itemsOf tokens := by
  unfold itemsOf entriesOf
  split_ifs with hskip
  · have hlisted : listed t = false := by
      unfold listed
      rcases hskip with hT | hname <;> simp [*]
    rw [List.filter_cons_of_neg (by simp [hlisted])]
  · rw [not_or] at hskip
    have hlisted : listed t = true := by
      unfold listed
      simpa [Option.isSome_iff_ne_none] using hskip
    have hname : propertyAttributeName t.1 = some [t.1] := by
      rw [propertyAttributeName_eq]
      have hother := (listed_iff t).mp hlisted
      exact if_pos (List.mem_cons_of_mem 'T' hother)
    rw [List.filter_cons_of_pos hlisted, List.filterMap_cons, hname]
    rfl

theorem length_storedValue (t : Char × List Char) : (storedValue t).length = storedLength t := by
  unfold storedValue storedLength
  split_ifs <;> rfl

theorem storedValue_eq_take (t : Char × List Char) : storedValue t = t.2.take (storedLength t) := by
  unfold storedValue storedLength
  split_ifs <;> simp

/-- The first pass counts the items and their values. -/
theorem countTokens_eq {tokens : List (Char × List Char)} {count valueBytes count' valueBytes' : ℕ}
    (h : countTokens tokens count valueBytes = some (count', valueBytes')) :
    count' = count + (itemsOf tokens).length ∧
      valueBytes' = valueBytes + (valuesCells (itemsOf tokens)).length ∧
      (count ≤ uintMax → count' ≤ uintMax) := by
  induction tokens generalizing count valueBytes with
  | nil =>
    obtain ⟨rfl, rfl⟩ := Prod.mk.inj (Option.some.inj h)
    exact ⟨rfl, rfl, id⟩
  | cons t tokens ih =>
    rw [countTokens] at h
    rw [itemsOf_cons]
    split_ifs at h ⊢ with hskip hlimit
    · exact ih h
    · obtain ⟨hcount, hbytes, hmax⟩ := ih h
      rw [not_or] at hlimit
      rw [length_valuesCells_cons, length_storedValue, List.length_cons]
      exact ⟨by omega, by omega, fun hle => hmax (by omega)⟩

/-- An entry and its value go where the block has not been written. -/
theorem writeEntry_eq (entries values : List Cell) (name value : List Char) {out m n : ℕ}
    (hout : entries.length = 16 * out) :
    writeEntry (text entries ++ (blank (16 + m) ++ (text values ++ blank (value.length + 1 + n)))) out
      (entries.length + (16 + m) + values.length) name value =
    some (text (entries ++ List.replicate 16 (.entry name (entries.length + (16 + m) + values.length))) ++
      (blank m ++ (text (values ++ valueCells value) ++ blank n))) := by
  set valueOut := entries.length + (16 + m) + values.length with hvalueOut
  set entry : List Cell := List.replicate 16 (.entry name valueOut) with hentry
  have hlen : entry.length = 16 := List.length_replicate
  have harray := writeAll_blank entry (show entry.length ≤ 16 + m by omega) (text entries)
    (text values ++ blank (value.length + 1 + n))
  rw [length_text, hout, hlen, Nat.add_sub_cancel_left] at harray
  have hvalue := writeAll_blank (valueCells value)
    (show (valueCells value).length ≤ value.length + 1 + n by rw [length_valueCells]; omega)
    (text (entries ++ entry) ++ (blank m ++ text values)) []
  have hpos : (text (entries ++ entry) ++ (blank m ++ text values)).length = valueOut := by
    simp only [List.length_append, length_text, length_blank, hlen]
    omega
  rw [hpos, length_valueCells, Nat.add_sub_cancel_left, List.append_nil, List.append_nil] at hvalue
  have hwrites : ∀ b : Buffer Cell, ((b.writeAll valueOut (value.map .char)).bind fun b =>
      b.write (valueOut + value.length) (.char '\x00')) = b.writeAll valueOut (valueCells value) := by
    intro b
    have hboth := writeAll_bind_writeAll b valueOut (value.map Cell.char) [.char '\x00']
    rw [List.length_map] at hboth
    simp only [write_eq_writeAll]
    exact hboth
  unfold writeEntry
  rw [Option.bind_eq_bind, harray, Option.bind_some, hwrites]
  simpa [List.append_assoc] using hvalue

/-- The second pass fills a block that the first pass has measured. -/
theorem fillTokens_eq (tokens : List (Char × List Char)) (entries values : List Cell) {out : ℕ}
    (hout : entries.length = 16 * out) :
    fillTokens tokens
      (text entries ++ (blank (16 * (itemsOf tokens).length) ++
        (text values ++ blank (valuesCells (itemsOf tokens)).length)))
      out (entries.length + 16 * (itemsOf tokens).length + values.length) =
    some (text (entries ++ entryCells (entries.length + 16 * (itemsOf tokens).length + values.length)
      (itemsOf tokens) ++ (values ++ valuesCells (itemsOf tokens))), out + (itemsOf tokens).length) := by
  induction tokens generalizing entries values out with
  | nil => simp [fillTokens, itemsOf, entriesOf, valuesCells, entryCells, blank]
  | cons t tokens ih =>
    rw [fillTokens]
    by_cases hskip : t.1 = 'T' ∨ propertyAttributeName t.1 = none
    · have hcons : itemsOf (t :: tokens) = itemsOf tokens := by rw [itemsOf_cons, if_pos hskip]
      rw [hcons]
      cases hname : propertyAttributeName t.1 with
      | none => exact ih entries values hout
      | some name =>
        have hT : t.1 = 'T' := hskip.resolve_right (by rw [hname]; exact Option.some_ne_none name)
        dsimp only
        rw [if_pos hT]
        exact ih entries values hout
    · have hcons : itemsOf (t :: tokens) = ([t.1], storedValue t) :: itemsOf tokens := by
        rw [itemsOf_cons, if_neg hskip]
      rw [not_or] at hskip
      have hname : propertyAttributeName t.1 = some [t.1] := by
        rw [propertyAttributeName_eq] at hskip ⊢
        by_cases hknown : t.1 ∈ encodingOrder
        · exact if_pos hknown
        · exact absurd (if_neg hknown) hskip.2
      set items := itemsOf tokens with hitems
      set valueOut := entries.length + 16 * (items.length + 1) + values.length with hvalueOut
      have hentry := writeEntry_eq entries values [t.1] (storedValue t) (m := 16 * items.length)
        (n := (valuesCells items).length) hout
      have h16 : 16 + 16 * items.length = 16 * (items.length + 1) := by omega
      rw [h16, ← hvalueOut] at hentry
      set entry : List Cell := List.replicate 16 (.entry [t.1] valueOut) with hentryDef
      have hlen : (entries ++ entry).length = 16 * (out + 1) := by
        rw [List.length_append, hentryDef, List.length_replicate]
        omega
      have hrest := ih (entries ++ entry) (values ++ valueCells (storedValue t)) hlen
      have hnext : (entries ++ entry).length + 16 * items.length +
          (values ++ valueCells (storedValue t)).length =
          valueOut + storedLength t + 1 := by
        rw [hlen, List.length_append, length_valueCells, length_storedValue]
        omega
      rw [hnext] at hrest
      rw [hname, hcons]
      dsimp only
      rw [if_neg hskip.1, ← storedValue_eq_take, length_valuesCells_cons, List.length_cons,
        ← hvalueOut, hentry,
        Option.bind_eq_bind, Option.bind_some, hrest, entryCells, length_storedValue, ← hentryDef]
      simp only [valuesCells, List.flatMap_cons, List.append_assoc, Option.some.injEq,
        Prod.mk.injEq, true_and]
      omega

/-- The entries of a property: its type, and what the attribute string adds. -/
def listItems (p : Property) : List (List Char × List Char) :=
  (p.type.elim [] fun types => [(['T'], types)]) ++ itemsOf (tokensOf p.attributes)

/-- **The attribute list.** If there is a block, it is filled with the entries and then with the values. -/
theorem propertyCopyAttributeList_eq (rt : Runtime) (p : Property) :
    propertyCopyAttributeList rt (some p) = some none ∨
      propertyCopyAttributeList rt (some p) = some (some
        (text (entryCells (16 * (listItems p).length) (listItems p) ++ valuesCells (listItems p)),
          (listItems p).length)) := by
  unfold propertyCopyAttributeList
  dsimp only
  cases hcount : countTokens (tokensOf p.attributes) (if p.type.isNone then 0 else 1)
      (p.type.elim 0 fun types => types.length + 1) with
  | none => exact Or.inl rfl
  | some measured =>
    obtain ⟨count, valueBytes⟩ := measured
    dsimp only
    obtain ⟨hitems, hbytes, hmax⟩ := countTokens_eq hcount
    have hcountEq : count = (listItems p).length := by
      rw [hitems, listItems, List.length_append]
      cases p.type <;> rfl
    have hbytesEq : valueBytes = (valuesCells (listItems p)).length := by
      rw [hbytes, listItems]
      cases p.type with
      | none => simp
      | some types => simp [length_valuesCells_cons]
    have huint : count ≤ uintMax := hmax (by unfold uintMax; split <;> omega)
    by_cases hzero : count = 0
    · exact Or.inl (if_pos hzero)
    rw [if_neg hzero]
    by_cases hsize : sizeMax < count * 16 ∨ sizeMax < count * 16 + valueBytes
    · exact Or.inl (if_pos hsize)
    rw [if_neg hsize]
    by_cases halloc : rt.alloc .copy (count * 16 + valueBytes) = true
    swap
    · exact Or.inl (if_pos halloc)
    rw [if_neg (not_not.mpr halloc)]
    refine Or.inr ?_
    have hmod : count % 2 ^ 32 = count := by
      unfold uintMax at huint
      omega
    have hfilled : fillBlock p.type (tokensOf p.attributes) (blank (count * 16 + valueBytes)) (count * 16) =
        some (text (entryCells (16 * count) (listItems p) ++ valuesCells (listItems p)), count) := by
      have hblock : (blank (count * 16 + valueBytes) : Buffer Cell) =
          text [] ++ (blank (16 * count) ++ (text [] ++ blank valueBytes)) := by
        rw [blank_add, Nat.mul_comm]
        rfl
      have hcomm : count * 16 = 16 * count := Nat.mul_comm ..
      rw [hblock, hcomm]
      unfold fillBlock
      cases htype : p.type with
      | none =>
        have hlist : listItems p = itemsOf (tokensOf p.attributes) := by rw [listItems, htype]; rfl
        have hfill := @fillTokens_eq (tokensOf p.attributes) [] [] 0 rfl
        rw [← hlist, ← hcountEq, ← hbytesEq] at hfill
        simpa using hfill
      | some types =>
        have hlist : listItems p = (['T'], types) :: itemsOf (tokensOf p.attributes) := by
          rw [listItems, htype]
          rfl
        set items := itemsOf (tokensOf p.attributes) with hitemsDef
        rw [hlist, List.length_cons] at hcountEq
        rw [hlist, length_valuesCells_cons] at hbytesEq
        have hentry := @writeEntry_eq [] [] ['T'] types 0 (16 * items.length)
          (valuesCells items).length rfl
        have h16 : 16 + 16 * items.length = 16 * count := by omega
        simp only [h16, List.length_nil, Nat.zero_add, Nat.add_zero, List.nil_append, ← hbytesEq] at hentry
        have hfill := @fillTokens_eq (tokensOf p.attributes) (List.replicate 16 (.entry ['T'] (16 * count)))
          (valueCells types) 1 List.length_replicate
        rw [← hitemsDef, List.length_replicate, h16, length_valueCells, ← Nat.add_assoc] at hfill
        dsimp only
        rw [hentry, Option.bind_eq_bind, Option.bind_some, hfill, hlist, entryCells]
        simp only [valuesCells, List.flatMap_cons, List.append_assoc, Option.some.injEq,
          Prod.mk.injEq, true_and]
        omega
    have hassert : (guard (count = count) : Option Unit) = some () := if_pos rfl
    rw [hfilled, Option.bind_eq_bind, Option.bind_some]
    dsimp only
    rw [hassert, Option.bind_eq_bind, Option.bind_some, hmod, hcountEq]

/-! ## Reading the list -/

/-- A NUL-terminated string in the block. -/
def StringAt (b : Buffer Cell) (start : ℕ) (s : List Char) : Prop :=
  '\x00' ∉ s ∧ start + s.length < b.length ∧
    (∀ (i : ℕ) (hi : i < s.length), b[start + i]? = some (some (.char s[i]))) ∧
    b[start + s.length]? = some (some (.char '\x00'))

/-- A block with as many entries as are reported, whose values are separate strings behind them. -/
structure Lists (b : Buffer Cell) (outCount : ℕ) (items : List (List Char × List Char)) : Prop where
  count_eq : outCount = items.length
  entries : ∀ (k : ℕ) (hk : k < items.length), ∀ j < 16,
    b[16 * k + j]? = some (some (.entry items[k].1 (valueOffset items k)))
  strings : ∀ (k : ℕ) (hk : k < items.length), StringAt b (valueOffset items k) items[k].2
  behind : ∀ k < items.length, 16 * items.length ≤ valueOffset items k
  apart : ∀ (i k : ℕ) (hi : i < items.length), i < k → k < items.length →
    valueOffset items i + items[i].2.length < valueOffset items k

/-- The byte of an entry. -/
theorem getElem?_entryCells (valueOut : ℕ) (items : List (List Char × List Char)) {k j : ℕ}
    (hk : k < items.length) (hj : j < 16) : (entryCells valueOut items)[16 * k + j]? =
      some (.entry items[k].1 (valueOut + (valuesCells (items.take k)).length)) := by
  induction items generalizing valueOut k with
  | nil => exact absurd hk (Nat.not_lt_zero k)
  | cons item items ih =>
    rw [entryCells]
    cases k with
    | zero =>
      rw [Nat.mul_zero, Nat.zero_add, List.getElem?_append_left (by simpa using hj), List.getElem?_replicate,
        if_pos hj]
      simp [valuesCells]
    | succ k =>
      have hpos : 16 * (k + 1) + j = (List.replicate 16 (Cell.entry item.1 valueOut)).length +
          (16 * k + j) := by
        rw [List.length_replicate]
        omega
      rw [hpos, List.getElem?_append_right (Nat.le_add_right _ _), Nat.add_sub_cancel_left,
        ih _ (Nat.lt_of_succ_lt_succ hk), List.take_succ_cons, length_valuesCells_cons]
      simp only [List.getElem_cons_succ, Option.some.injEq, Cell.entry.injEq, true_and]
      omega

/-- The values in front of an entry's value, the value, and those behind it. -/
theorem valuesCells_split (items : List (List Char × List Char)) {k : ℕ} (hk : k < items.length) :
    valuesCells items =
      valuesCells (items.take k) ++ (valueCells items[k].2 ++ valuesCells (items.drop (k + 1))) := by
  conv_lhs => rw [← List.take_append_drop k items, ← List.getElem_cons_drop hk, valuesCells,
    List.flatMap_append,
    List.flatMap_cons]
  rfl

theorem valueOffset_succ (items : List (List Char × List Char)) {k : ℕ} (hk : k < items.length) :
    valueOffset items (k + 1) = valueOffset items k + items[k].2.length + 1 := by
  unfold valueOffset
  rw [List.take_succ_eq_append_getElem hk]
  simp only [valuesCells, List.flatMap_append, List.flatMap_cons, List.flatMap_nil, List.append_nil,
    List.length_append, length_valueCells]
  omega

theorem valueOffset_mono (items : List (List Char × List Char)) {i k : ℕ} (hik : i ≤ k)
    (hk : k ≤ items.length) :
    valueOffset items i ≤ valueOffset items k := by
  induction k, hik using Nat.le_induction with
  | base => exact le_refl _
  | succ k _ ih =>
    rw [valueOffset_succ items (by omega)]
    exact (ih (by omega)).trans (by omega)

/-- The filled block is a list of strings, if the texts are strings. -/
theorem lists_filled (items : List (List Char × List Char)) (hitems : ∀ item ∈ items, '\x00' ∉ item.2) :
    Lists (text (entryCells (16 * items.length) items ++ valuesCells items)) items.length items where
  count_eq := rfl
  entries k hk j hj := by
    have hin : 16 * k + j < (entryCells (16 * items.length) items).length := by
      rw [length_entryCells]
      omega
    rw [text_append, List.getElem?_append_left (by simpa using hin), text, List.getElem?_map,
      getElem?_entryCells _ _ hk hj]
    rfl
  strings k hk := by
    have hsplit : (text (entryCells (16 * items.length) items ++ valuesCells items) : Buffer Cell) =
        text (entryCells (16 * items.length) items ++ valuesCells (items.take k)) ++
          (text (valueCells items[k].2) ++ text (valuesCells (items.drop (k + 1)))) := by
      rw [valuesCells_split items hk]
      simp
    have hstart : (text (entryCells (16 * items.length) items ++ valuesCells (items.take k)) :
        Buffer Cell).length =
        valueOffset items k := by
      rw [length_text, List.length_append, length_entryCells, valueOffset]
    have hcell : ∀ i (hi : i < (valueCells items[k].2).length),
        (text (entryCells (16 * items.length) items ++ valuesCells items))[valueOffset items k + i]? =
          some (some (valueCells items[k].2)[i]) := by
      intro i hi
      rw [hsplit, ← hstart]
      exact getElem?_text _ _ _ hi
    refine ⟨hitems _ (List.getElem_mem hk), ?_, fun i hi => ?_, ?_⟩
    · rw [hsplit, List.length_append, hstart, List.length_append, length_text, length_valueCells]
      omega
    · rw [hcell i (by rw [length_valueCells]; omega)]
      simp [valueCells, hi]
    · rw [hcell items[k].2.length (by rw [length_valueCells]; omega)]
      simp [valueCells]
  behind k _ := Nat.le_add_right _ _
  apart i k hi hik hk := by
    have hle := valueOffset_mono items (Nat.succ_le_of_lt hik) hk.le
    rw [valueOffset_succ items hi] at hle
    omega

/-! ## Both functions -/

/-- The type and the attribute string of a property are C strings. -/
structure CStrings (p : Property) : Prop where
  type : ∀ s ∈ p.type, '\x00' ∉ s
  attributes : ∀ s ∈ p.attributes, '\x00' ∉ s

/-- The characters of a token are characters of the string. -/
theorem mem_of_mem_propertyAttributeTokens {n : ℕ} {s : List Char} {t : Char × List Char}
    (ht : t ∈ propertyAttributeTokens n s) : ∀ c ∈ t.2, c ∈ s := by
  induction n generalizing s with
  | zero => exact absurd ht List.not_mem_nil
  | succ n ih =>
    rw [propertyAttributeTokens, nextPropertyAttributeToken] at ht
    have hsub := (List.dropWhile_sublist (fun c : Char => decide (c = ',')) (l := s)).subset
    cases hdrop : s.dropWhile (fun c : Char => decide (c = ',')) with
    | nil =>
      rw [hdrop] at ht
      exact absurd ht List.not_mem_nil
    | cons name rest =>
      rw [hdrop] at ht hsub
      have hrest : ∀ c ∈ rest, c ∈ s := fun c hc => hsub (List.mem_cons_of_mem _ hc)
      rcases List.mem_cons.mp ht with rfl | ht
      · exact fun c hc => hrest c ((List.takeWhile_sublist _).subset hc)
      · exact fun c hc => hrest c ((List.dropWhile_sublist _).subset (List.mem_of_mem_tail (ih ht c hc)))

/-- The values of a property's list are C strings. -/
theorem notMem_of_mem_listItems {p : Property} (hp : CStrings p) {item : List Char × List Char}
    (hitem : item ∈ listItems p) : '\x00' ∉ item.2 := by
  rcases List.mem_append.mp hitem with hitem | hitem
  · cases htype : p.type with
    | none =>
      rw [htype] at hitem
      exact absurd hitem List.not_mem_nil
    | some types =>
      rw [htype] at hitem
      obtain rfl := List.mem_singleton.mp hitem
      exact hp.type types htype
  · obtain ⟨t, ht, hname⟩ := List.mem_filterMap.mp hitem
    obtain ⟨name, -, rfl⟩ := Option.map_eq_some_iff.mp hname
    have htoken := List.mem_of_mem_filter ht
    cases hattributes : p.attributes with
    | none =>
      rw [hattributes] at htoken
      exact absurd htoken List.not_mem_nil
    | some s =>
      rw [hattributes] at htoken
      intro hzero
      refine hp.attributes s hattributes (mem_of_mem_propertyAttributeTokens htoken _ ?_)
      rw [storedValue_eq_take] at hzero
      exact List.mem_of_mem_take hzero

/-- A type and a read-only attribute, behind a repeated comma and in front of one. -/
def readonlyProperty : Property := ⟨some ['x'], some [',', ',', 'R', ','], some ['i'], none, none⟩

/-- The same as given attributes. -/
def readonlyAttributes : List Attribute := [⟨some ['T'], some ['i']⟩, ⟨some ['R'], none⟩]

end Libobjc2.Properties.Bytes
