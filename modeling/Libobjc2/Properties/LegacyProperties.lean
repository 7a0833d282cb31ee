import Libobjc2.Encoding.Layout
import Libobjc2.Properties.RoundTrip

/-!
# Properties of legacy classes

Model of `upgradeProperty` in `runtime/legacy.c` (lines 203–313) and of `lengthOfTypeEncoding`
(`encoding/encoding2.c`, lines 50–56). A GSv1 property has its attributes as flags. The upgrader writes
an attribute string behind two zero bytes, and hands out the pointer to these bytes.

Names and types are lists of characters without the terminator. A name that starts with a zero byte is
the memory that begins there: the byte behind it is the distance to the name, and in between stands the
attribute string. `abort()` is `none`, also when an allocation fails.

Results:
* `length_propertyEncoding`, `length_flags_lt`: the string fills its block to the last byte, and the
  flags fit into their array.
* `upgradeProperty_forgets`: of a record in the plain format only the type can be read back.
* `keepsMeaning_behind_header`: two bytes further on stands all that the record says.
-/

namespace Libobjc2.Properties

open Common Encoding

/-! ## Model -/

/-- `struct objc_property_gsv1` (`properties.h`, lines 123–164). -/
structure PropertyGsv1 where
  name : Option (List Char)
  attributes : UInt8
  attributes2 : UInt8
  getterName : Option (List Char)
  getterTypes : Option (List Char)
  setterName : Option (List Char)
  setterTypes : Option (List Char)
  deriving DecidableEq, Repr

/-- `checkAttribute` (lines 201–204). -/
def checkAttribute (field attr : UInt8) : Bool := field &&& attr = attr

/-- The C string at the start of a piece of memory. -/
def cString (memory : List Char) : List Char := memory.takeWhile (· ≠ '\x00')

/-- `lengthOfTypeEncoding`. -/
def lengthOfTypeEncoding (abi : Abi) (types : Option (List Char)) : Option ℕ :=
  match types with
  | none => some 0
  | some [] => some 0
  | some types => (sizeofType abi types.length types 0).map fun (rest, _) => types.length - rest.length

section

variable (o : PropertyGsv1)

/-- `OBJC_PR_getter`. -/
def PropertyGsv1.hasGetter : Bool := checkAttribute o.attributes 0x02

/-- `OBJC_PR_setter`. -/
def PropertyGsv1.hasSetter : Bool := checkAttribute o.attributes 0x80

/-- The letters of the flags, in the order of lines 253–258. -/
def flagTable : List (Char × Bool) :=
  [('R', checkAttribute o.attributes 0x01), ('&', checkAttribute o.attributes 0x10),
    ('C', checkAttribute o.attributes 0x20), ('W', checkAttribute o.attributes2 0x08),
    ('D', checkAttribute o.attributes2 0x02), ('N', checkAttribute o.attributes 0x40)]

/-- The array `flags`. -/
def flags : List Char := ((flagTable o).filter Prod.snd).flatMap fun f => [',', f.1]

/-- `encodingSize` (lines 249–276). -/
def encodingSize (type name getterName setterName : List Char) : ℕ :=
  type.length + name.length + 6 + (flags o).length +
    (if o.hasGetter then 2 + getterName.length else 0) + (if o.hasSetter then 2 + setterName.length else 0)

/-- The bytes that lines 278–309 write at `encoding`. -/
def propertyEncoding (type name getterName setterName : List Char) : List Char :=
  ['\x00', '\x00', 'T'] ++ type ++ flags o ++
    (if o.hasGetter then [',', 'G'] ++ getterName else []) ++
    (if o.hasSetter then [',', 'S'] ++ setterName else []) ++ [',', 'V'] ++ name ++ ['\x00']

/-- The selector of an accessor, if it has a name. -/
def registerAccessor (rt : Runtime) (name types : Option (List Char)) : Option ℕ :=
  name.bind fun name => rt.registerName name types

/-- `upgradeProperty` (lines 206–313). -/
def upgradeProperty (abi : Abi) (rt : Runtime) : Option Property := do
  let name ← o.name
  let getter := registerAccessor rt o.getterName o.getterTypes
  let setter := registerAccessor rt o.setterName o.setterTypes
  if name.head?.getD '\x00' = '\x00' then
    let nameOffset := (name.getD 1 '\x00').toNat
    guard (2 ≤ nameOffset)
    let attributes := cString (name.drop 2)
    guard (attributes.head? = some 'T')
    let type := attributes.tail.takeWhile (· ≠ ',')
    guard (rt.alloc .type (type.length + 1))
    some ⟨some (cString (name.drop nameOffset)), some attributes, some type, getter, setter⟩
  else
    let types ← o.getterTypes
    let typeSize ← lengthOfTypeEncoding abi (some types)
    let type := types.take typeSize
    guard (rt.alloc .type (typeSize + 1))
    guard (o.hasGetter → o.getterName.isSome)
    guard (o.hasSetter → o.setterName.isSome)
    let getterName := o.getterName.getD []
    let setterName := o.setterName.getD []
    guard (rt.alloc .attributes (encodingSize o type name getterName setterName))
    let encoding := propertyEncoding o type name getterName setterName
    some ⟨some name, some (cString encoding), some type, getter, setter⟩

end

/-! ## Specification -/

/-- A name that can stand in an attribute string. -/
def PlainText (s : List Char) : Prop := ',' ∉ s ∧ '\x00' ∉ s

/-- A record in the plain format, with the type that its getter returns. -/
structure PlainRecord (abi : Abi) (o : PropertyGsv1) (type name : List Char) : Prop where
  name_eq : o.name = some name
  name_ne_nil : name ≠ []
  name_plain : PlainText name
  types : ∃ types typeSize, o.getterTypes = some types ∧ PlainText types ∧
    lengthOfTypeEncoding abi (some types) = some typeSize ∧ type = types.take typeSize
  getter : o.hasGetter → o.getterName.isSome
  setter : o.hasSetter → o.setterName.isSome
  getter_plain : ∀ getter ∈ o.getterName, PlainText getter
  setter_plain : ∀ setter ∈ o.setterName, PlainText setter

/-- What the record says is read back from a property. -/
structure KeepsMeaning (rt : Runtime) (o : PropertyGsv1) (type name : List Char) (p : Property) : Prop where
  type_eq : propertyCopyAttributeValue rt (some p) (some ['T']) = some type
  flags_eq : ∀ f ∈ flagTable o,
    propertyCopyAttributeValue rt (some p) (some [f.1]) = if f.2 then some [] else none
  getter_eq : propertyCopyAttributeValue rt (some p) (some ['G']) =
    if o.hasGetter then o.getterName else none
  setter_eq : propertyCopyAttributeValue rt (some p) (some ['S']) =
    if o.hasSetter then o.setterName else none
  ivar_eq : propertyCopyAttributeValue rt (some p) (some ['V']) = some name

/-! ## The block -/

/-- The array of the flags has room for all of them and a terminator. -/
theorem length_flags_lt (o : PropertyGsv1) : (flags o).length < 20 := by
  have hle := List.length_filter_le Prod.snd (flagTable o)
  have hlen : (flagTable o).length = 6 := rfl
  have hflags : (flags o).length = 2 * ((flagTable o).filter Prod.snd).length := by
    unfold flags
    induction (flagTable o).filter Prod.snd with
    | nil => rfl
    | cons f l ih =>
      simp only [List.flatMap_cons, List.length_append, List.length_cons, List.length_nil] at ih ⊢
      omega
  omega

/-- **The block is filled.** The assertion in line 310. -/
theorem length_propertyEncoding (o : PropertyGsv1) (type name getterName setterName : List Char) :
    (propertyEncoding o type name getterName setterName).length =
      encodingSize o type name getterName setterName := by
  unfold propertyEncoding encodingSize
  cases o.hasGetter <;> cases o.hasSetter <;> simp <;> omega

/-- The string that the property points at is empty. -/
theorem cString_propertyEncoding (o : PropertyGsv1) (type name getterName setterName : List Char) :
    cString (propertyEncoding o type name getterName setterName) = [] := by
  unfold cString propertyEncoding
  simp

/-! ## Reading the property -/

/-- An empty attribute string has no attribute. -/
theorem propertyCopyAttributeValue_empty (rt : Runtime) {p : Property} (hp : p.attributes = some [])
    {c : Char} (hc : c ≠ 'T') : propertyCopyAttributeValue rt (some p) (some [c]) = none := by
  have hnone : copyPropertyAttributeTokenValue rt (some []) c = none := rfl
  simp only [propertyCopyAttributeValue, Option.bind_eq_bind, Option.bind_some, if_neg hc, hp, hnone,
    Option.map_none, ite_self]

theorem propertyCopyAttributeValue_type {rt : Runtime} (hrt : ∀ site n, rt.alloc site n = true) {p : Property}
    {type : List Char} (hp : p.type = some type) :
    propertyCopyAttributeValue rt (some p) (some ['T']) = some type := by
  have hvalue : propertyCopyAttributeValue rt (some p) (some ['T']) = p.type.bind (strdup rt .copy) := rfl
  rw [hvalue, hp, Option.bind_some, strdup, if_pos (hrt _ _)]

/-- The property of a record in the plain format. -/
theorem upgradeProperty_plain {abi : Abi} {rt : Runtime} (hrt : ∀ site n, rt.alloc site n = true)
    {o : PropertyGsv1} {type name : List Char} (h : PlainRecord abi o type name) :
    upgradeProperty o abi rt = some ⟨some name, some [], some type,
      registerAccessor rt o.getterName o.getterTypes, registerAccessor rt o.setterName o.setterTypes⟩ := by
  obtain ⟨types, typeSize, htypes, -, hsize, rfl⟩ := h.types
  have hhead : ¬name.head?.getD '\x00' = '\x00' := by
    rw [List.head?_eq_some_head h.name_ne_nil, Option.getD_some]
    exact fun hzero => h.name_plain.2 (hzero ▸ List.head_mem h.name_ne_nil)
  have hgetter := h.getter
  have hsetter := h.setter
  unfold upgradeProperty
  simp only [h.name_eq, Option.bind_eq_bind, Option.bind_some, if_neg hhead, htypes, hsize, hrt,
    cString_propertyEncoding]
  simp only [guard, if_pos hgetter, if_pos hsetter, if_true, Option.pure_def, Option.bind_some]

/-- **Legacy properties are forgotten.** Of a record in the plain format the upgraded property gives back
    the type, and none of the flags, accessors and ivar names. -/
theorem upgradeProperty_forgets {abi : Abi} {rt : Runtime} (hrt : ∀ site n, rt.alloc site n = true)
    {o : PropertyGsv1} {type name : List Char} (h : PlainRecord abi o type name) :
    ∃ p, upgradeProperty o abi rt = some p ∧
      propertyCopyAttributeValue rt (some p) (some ['T']) = some type ∧
      (∀ c ≠ 'T', propertyCopyAttributeValue rt (some p) (some [c]) = none) ∧
      ¬KeepsMeaning rt o type name p := by
  have hnone : ∀ {p : Property}, p.attributes = some [] → ∀ c ≠ 'T',
      propertyCopyAttributeValue rt (some p) (some [c]) = none :=
    fun hp c hc => propertyCopyAttributeValue_empty rt hp hc
  refine ⟨_, upgradeProperty_plain hrt h, propertyCopyAttributeValue_type hrt rfl, hnone rfl, fun hkeeps => ?_⟩
  have hivar := hkeeps.ivar_eq
  rw [hnone rfl 'V' (by decide)] at hivar
  exact absurd hivar.symm (Option.some_ne_none _)

/-- The read-only property `size` of type `int`. -/
def sizeRecord : PropertyGsv1 :=
  ⟨some ['s', 'i', 'z', 'e'], 0x01, 0, none, some ['i', '8', '@', '0', ':', '4'], none, none⟩

theorem plainRecord_sizeRecord : PlainRecord lp64 sizeRecord ['i'] ['s', 'i', 'z', 'e'] where
  name_eq := rfl
  name_ne_nil := List.cons_ne_nil _ _
  name_plain := ⟨by decide, by decide⟩
  types := ⟨_, 1, rfl, ⟨by decide, by decide⟩, by decide +kernel, rfl⟩
  getter := by decide
  setter := by decide
  getter_plain getter h := by cases h
  setter_plain setter h := by cases h

theorem upgradeProperty_forgets_size : ∃ p, upgradeProperty sizeRecord lp64 plentiful = some p ∧
    propertyCopyAttributeValue plentiful (some p) (some ['T']) = some ['i'] ∧
    (∀ c ≠ 'T', propertyCopyAttributeValue plentiful (some p) (some [c]) = none) ∧
    ¬KeepsMeaning plentiful sizeRecord ['i'] ['s', 'i', 'z', 'e'] p :=
  upgradeProperty_forgets (fun _ _ => rfl) plainRecord_sizeRecord

/-- A property that is read-only in its record is not read-only when it is asked. -/
theorem upgradeProperty_loses_readonly : ¬∀ (abi : Abi) (rt : Runtime) (o : PropertyGsv1) (type name : List Char),
    (∀ site n, rt.alloc site n = true) → PlainRecord abi o type name →
    ∃ p, upgradeProperty o abi rt = some p ∧ KeepsMeaning rt o type name p := by
  intro h
  obtain ⟨p, hp, hkeeps⟩ := h lp64 plentiful sizeRecord _ _ (fun _ _ => rfl) plainRecord_sizeRecord
  have hcode : upgradeProperty sizeRecord lp64 plentiful =
      some ⟨some ['s', 'i', 'z', 'e'], some [], some ['i'], none, none⟩ := by decide +kernel
  obtain rfl := Option.some.inj (hcode.symm.trans hp)
  have hreadonly := hkeeps.flags_eq ('R', true) (by decide)
  revert hreadonly
  decide

/-! ## The string behind the header -/

/-- What the record says, as tokens. -/
def recordTokens (o : PropertyGsv1) (type name getterName setterName : List Char) : List (Char × List Char) :=
  ('T', type) :: (((flagTable o).filter Prod.snd).map (fun f => (f.1, [])) ++
    (if o.hasGetter then [('G', getterName)] else []) ++
    (if o.hasSetter then [('S', setterName)] else []) ++ [('V', name)])

/-- The letter of a flag. -/
theorem letter_of_mem_flagTable {o : PropertyGsv1} {f : Char × Bool} (h : f ∈ flagTable o) :
    f.1 ∈ ['R', '&', 'C', 'W', 'D', 'N'] := by
  have hmap : (flagTable o).map Prod.fst = ['R', '&', 'C', 'W', 'D', 'N'] := rfl
  rw [← hmap]
  exact List.mem_map_of_mem h

section

variable {o : PropertyGsv1} {type name getterName setterName : List Char}

/-- No token has a separator or a terminator in it. -/
theorem plainText_piece (htype : PlainText type) (hname : PlainText name) (hgetter : PlainText getterName)
    (hsetter : PlainText setterName) {t : Char × List Char}
    (ht : t ∈ recordTokens o type name getterName setterName) : PlainText (piece t) := by
  have hcons : ∀ (c : Char) (value : List Char), c ≠ ',' → c ≠ '\x00' → PlainText value →
      PlainText (piece (c, value)) := by
    intro c value hcomma hzero hvalue
    simpa [PlainText, piece, hcomma.symm, hzero.symm] using hvalue
  have hflag : ∀ c ∈ ['R', '&', 'C', 'W', 'D', 'N'], c ≠ ',' ∧ c ≠ '\x00' := by simp
  unfold recordTokens at ht
  rcases List.mem_cons.mp ht with rfl | ht
  · exact hcons 'T' type (by decide) (by decide) htype
  rcases List.mem_append.mp ht with ht | ht
  · rcases List.mem_append.mp ht with ht | ht
    · rcases List.mem_append.mp ht with ht | ht
      · obtain ⟨f, hf, rfl⟩ := List.mem_map.mp ht
        have hletter := hflag f.1 (letter_of_mem_flagTable (List.mem_of_mem_filter hf))
        exact hcons f.1 [] hletter.1 hletter.2 ⟨List.not_mem_nil, List.not_mem_nil⟩
      · split_ifs at ht
        · obtain rfl := List.mem_singleton.mp ht
          exact hcons 'G' getterName (by decide) (by decide) hgetter
        · exact absurd ht List.not_mem_nil
    · split_ifs at ht
      · obtain rfl := List.mem_singleton.mp ht
        exact hcons 'S' setterName (by decide) (by decide) hsetter
      · exact absurd ht List.not_mem_nil
  · obtain rfl := List.mem_singleton.mp ht
    exact hcons 'V' name (by decide) (by decide) hname

theorem intercalate_cons_eq (sep : Char) (p : List Char) (ps : List (List Char)) :
    [sep].intercalate (p :: ps) = p ++ ps.flatMap (fun q => sep :: q) := by
  induction ps generalizing p with
  | nil => simp
  | cons q ps ih => rw [List.intercalate_cons_cons, ih, List.flatMap_cons]; simp

/-- Behind the two zero bytes the tokens are joined by commas. -/
theorem drop_propertyEncoding : (propertyEncoding o type name getterName setterName).drop 2 =
    [','].intercalate ((recordTokens o type name getterName setterName).map piece) ++ ['\x00'] := by
  have hflags : (((flagTable o).filter Prod.snd).map fun f => piece (f.1, [])).flatMap (fun q => ',' :: q) =
      flags o := by
    unfold flags
    rw [List.flatMap_map]
    rfl
  unfold recordTokens propertyEncoding
  rw [List.map_cons, intercalate_cons_eq]
  simp only [List.map_append, List.map_map, List.flatMap_append, Function.comp_def, hflags]
  cases o.hasGetter <;> cases o.hasSetter <;> simp [piece]

/-- The C string behind the header has the tokens of the record. -/
theorem tokensOf_behind_header (htype : PlainText type) (hname : PlainText name)
    (hgetter : PlainText getterName) (hsetter : PlainText setterName) :
    tokensOf (some (cString ((propertyEncoding o type name getterName setterName).drop 2))) =
      recordTokens o type name getterName setterName := by
  set tokens := recordTokens o type name getterName setterName with htokens
  have hpiece : ∀ t ∈ tokens, PlainText (piece t) := fun t ht =>
    plainText_piece htype hname hgetter hsetter ht
  have hzero : '\x00' ∉ [','].intercalate (tokens.map piece) := by
    rw [htokens, recordTokens, List.map_cons, intercalate_cons_eq]
    intro hmem
    rcases List.mem_append.mp hmem with hmem | hmem
    · exact (hpiece _ List.mem_cons_self).2 hmem
    · obtain ⟨q, hq, hmem⟩ := List.mem_flatMap.mp hmem
      obtain ⟨t, ht, rfl⟩ := List.mem_map.mp hq
      rcases List.mem_cons.mp hmem with hmem | hmem
      · exact absurd hmem (by decide)
      · exact (hpiece t (List.mem_cons_of_mem _ ht)).2 hmem
  have hstring : cString ([','].intercalate (tokens.map piece) ++ ['\x00']) =
      [','].intercalate (tokens.map piece) := by
    unfold cString
    have hall : ∀ c ∈ [','].intercalate (tokens.map piece), decide (c ≠ '\x00') = true := by
      intro c hc
      refine decide_eq_true fun heq => hzero ?_
      rwa [← heq]
    rw [List.takeWhile_append_of_pos hall]
    simp
  have hfields : ∀ t ∈ tokens, fields ',' (piece t) = [piece t] := fun t ht =>
    fields_of_notMem (hpiece t ht).1 (List.cons_ne_nil _ _)
  rw [drop_propertyEncoding, hstring, tokensOf, Option.elim_some,
    propertyAttributeTokens_eq _ _ (Nat.lt_succ_self _), fields_intercalate, List.flatMap_map]
  rw [List.flatMap_congr hfields, List.filterMap_flatMap]
  simp [token_piece]

end

/-- The value of an attribute with a letter of its own, by its first token. -/
theorem propertyCopyAttributeValue_token {rt : Runtime} (hrt : ∀ site n, rt.alloc site n = true) (p : Property)
    {c : Char} (hc : c ∈ otherNames) : propertyCopyAttributeValue rt (some p) (some [c]) =
      (lookup Prod.fst (tokensOf p.attributes) c).map fun t => if propertyAttributeHasValue c then t.2 else [] := by
  have hT : c ≠ 'T' := by
    rintro rfl
    exact absurd hc (by decide)
  have hname : (propertyAttributeName c).isNone = false := by
    have horder : c ∈ encodingOrder := List.mem_cons_of_mem _ hc
    rw [propertyAttributeName_eq, if_pos horder]
    rfl
  have hcopy : copyPropertyAttributeTokenValue rt p.attributes c =
      (lookup Prod.fst (tokensOf p.attributes) c).map Prod.snd := by
    rw [copyPropertyAttributeTokenValue, lookup]
    cases (tokensOf p.attributes).find? fun t => decide (t.1 = c) with
    | none => rfl
    | some t => simp [guard, hrt]
  simp only [propertyCopyAttributeValue, Option.bind_eq_bind, Option.bind_some, if_neg hT, hname, hcopy]
  cases propertyAttributeHasValue c <;> cases lookup Prod.fst (tokensOf p.attributes) c <;> rfl

/-- The flags of a record, by their letters. -/
theorem lookup_flags (o : PropertyGsv1) (c : Char) :
    lookup Prod.fst (((flagTable o).filter Prod.snd).map fun f => (f.1, ([] : List Char))) c =
      if (c, true) ∈ flagTable o then some (c, []) else none := by
  set l := ((flagTable o).filter Prod.snd).map fun f => (f.1, ([] : List Char)) with hl
  have hmem : (lookup Prod.fst l c).isSome ↔ (c, true) ∈ flagTable o := by
    rw [lookup_isSome, hl, List.map_map]
    simp [List.mem_filter]
  cases hlookup : lookup Prod.fst l c with
  | none =>
    rw [hlookup, Option.isSome_none] at hmem
    rw [if_neg fun h => Bool.false_ne_true (hmem.mpr h)]
  | some t =>
    rw [if_pos (hmem.mp (by rw [hlookup]; rfl))]
    obtain ⟨ht, rfl⟩ := lookup_some hlookup
    obtain ⟨f, -, rfl⟩ := List.mem_map.mp ht
    rfl

/-- Every letter of a record stands for one token. -/
theorem lookup_recordTokens (o : PropertyGsv1) (type name getterName setterName : List Char) {c : Char}
    (hc : c ≠ 'T') : lookup Prod.fst (recordTokens o type name getterName setterName) c =
      (((if (c, true) ∈ flagTable o then some (c, []) else none).or
        (if o.hasGetter ∧ c = 'G' then some (c, getterName) else none)).or
        (if o.hasSetter ∧ c = 'S' then some (c, setterName) else none)).or
        (if c = 'V' then some (c, name) else none) := by
  have hsingle : ∀ (b : Bool) (d : Char) (value : List Char),
      lookup Prod.fst (if b then [(d, value)] else []) c = if b ∧ c = d then some (c, value) else none := by
    intro b d value
    by_cases hcd : c = d
    · subst hcd
      cases b <;> simp [lookup]
    · cases b <;> simp [lookup, hcd, Ne.symm hcd]
  have hivar : lookup Prod.fst [('V', name)] c = if c = 'V' then some (c, name) else none := by
    simpa using hsingle true 'V' name
  rw [recordTokens, lookup_cons, if_neg (Ne.symm hc), lookup_append, lookup_append, lookup_append, lookup_flags,
    hsingle, hsingle, hivar]

/-- A letter of the table has one entry. -/
theorem mem_flagTable_true {o : PropertyGsv1} {f : Char × Bool} (hf : f ∈ flagTable o) :
    (f.1, true) ∈ flagTable o ↔ f.2 = true := by
  constructor
  · intro htrue
    have hnodup : ((flagTable o).map Prod.fst).Nodup := by
      change ['R', '&', 'C', 'W', 'D', 'N'].Nodup
      decide
    have heq : f = (f.1, true) := List.inj_on_of_nodup_map hnodup hf htrue rfl
    rw [heq]
  · intro htrue
    rwa [← htrue]

/-- **What is lost.** A property that pointed behind the two zero bytes would give back all that the
    record says. -/
theorem keepsMeaning_behind_header {abi : Abi} {rt : Runtime} (hrt : ∀ site n, rt.alloc site n = true)
    {o : PropertyGsv1} {type name : List Char} (h : PlainRecord abi o type name) {p : Property}
    (htype : p.type = some type)
    (hattributes : p.attributes = some (cString ((propertyEncoding o type name (o.getterName.getD [])
      (o.setterName.getD [])).drop 2))) : KeepsMeaning rt o type name p := by
  obtain ⟨types, typeSize, -, hplain, -, htake⟩ := h.types
  have hsub := List.take_sublist typeSize types
  have htypePlain : PlainText type := htake ▸ ⟨fun hc => hplain.1 (hsub.mem hc), fun hc => hplain.2 (hsub.mem hc)⟩
  have hplainD : ∀ {s : Option (List Char)}, (∀ x ∈ s, PlainText x) → PlainText (s.getD []) := by
    intro s hs
    cases s with
    | none => exact ⟨List.not_mem_nil, List.not_mem_nil⟩
    | some s => exact hs s rfl
  have htokens : tokensOf p.attributes =
      recordTokens o type name (o.getterName.getD []) (o.setterName.getD []) := by
    rw [hattributes]
    exact tokensOf_behind_header htypePlain h.name_plain (hplainD h.getter_plain) (hplainD h.setter_plain)
  have hvalue := fun {c : Char} (hc : c ∈ otherNames) => propertyCopyAttributeValue_token hrt p hc
  have hnoFlag : ∀ c ∈ ['G', 'S', 'V'], (c, true) ∉ flagTable o := by
    have hdisjoint : ∀ c ∈ ['G', 'S', 'V'], c ∉ ['R', '&', 'C', 'W', 'D', 'N'] := by simp
    exact fun c hc hmem => hdisjoint c hc (letter_of_mem_flagTable hmem)
  refine ⟨propertyCopyAttributeValue_type hrt htype, fun f hf => ?_, ?_, ?_, ?_⟩
  · have hletter := letter_of_mem_flagTable hf
    have hfacts : ∀ c ∈ ['R', '&', 'C', 'W', 'D', 'N'], c ∈ otherNames ∧ c ≠ 'T' ∧ c ≠ 'G' ∧ c ≠ 'S' ∧
        c ≠ 'V' ∧ propertyAttributeHasValue c = false := by
      simp [otherNames, propertyAttributeHasValue]
    obtain ⟨hother, hT, hG, hS, hV, hno⟩ := hfacts _ hletter
    rw [hvalue hother, htokens, lookup_recordTokens _ _ _ _ _ hT]
    simp only [mem_flagTable_true hf, hG, hS, hV, hno, and_false, if_false, Option.or_none]
    cases f.2 <;> rfl
  · rw [hvalue (by decide), htokens, lookup_recordTokens _ _ _ _ _ (by decide), if_neg (hnoFlag _ (by decide))]
    have hsome := h.getter
    cases hget : o.hasGetter
    · simp
    · obtain ⟨getter, hgetter⟩ := Option.isSome_iff_exists.mp (hsome hget)
      simp [hgetter, propertyAttributeHasValue]
  · rw [hvalue (by decide), htokens, lookup_recordTokens _ _ _ _ _ (by decide), if_neg (hnoFlag _ (by decide))]
    have hsome := h.setter
    cases hset : o.hasSetter
    · simp
    · obtain ⟨setter, hsetter⟩ := Option.isSome_iff_exists.mp (hsome hset)
      simp [hsetter, propertyAttributeHasValue]
  · rw [hvalue (by decide), htokens, lookup_recordTokens _ _ _ _ _ (by decide), if_neg (hnoFlag _ (by decide))]
    simp [propertyAttributeHasValue]

end Libobjc2.Properties
