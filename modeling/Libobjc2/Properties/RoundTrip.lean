import Mathlib.Algebra.Order.BigOperators.Group.List
import Mathlib.Algebra.Order.Ring.Nat
import Libobjc2.Encoding.TypeTree
import Libobjc2.Properties.Attributes

/-!
# Reading back the attributes of a property

`encodingFromAttrs` joins the attributes with commas, and the two readers look
for the letters behind the commas. A comma in the type, as in the name of a
class template, so has the next character read as an attribute: the blank that
compilers put behind such a comma is no attribute's letter and is skipped, but
`{pair<int,Value>=ii}` gains an instance variable.

Results:

* `propertyAttributeTokens_eq`: the tokens are the non-empty fields between the
  commas.
* `encodingFromAttrs_given`, `GivenAttributes.listedTokens_eq`: what is written,
  and what is listed from it.
* `extraTokens_eq_nil_iff`: which types add tokens of their own.
* `attributes_roundTrip`: the attributes are read back as given exactly when the
  type adds none.
* `attribute_invented`: a type that adds one.
-/

namespace Libobjc2.Properties

open Common

/-! ## Tokens -/

/-- A field of the attribute string as a token. -/
def token : List Char → Option (Char × List Char)
  | [] => none
  | c :: value => some (c, value)

theorem token_eq_some {f : List Char} {c : Char} {value : List Char} :
    token f = some (c, value) ↔ f = c :: value := by
  cases f <;> simp [token]

/-- The loop over `nextPropertyAttributeToken` sees the fields between the commas. -/
theorem propertyAttributeTokens_eq (n : ℕ) (s : List Char) (h : s.length < n) :
    propertyAttributeTokens n s = (fields ',' s).filterMap token := by
  induction n generalizing s with
  | zero => omega
  | succ n ih =>
    have hlen : (s.dropWhile (· = ',')).length ≤ s.length := (List.dropWhile_sublist _).length_le
    have hhead := List.head?_dropWhile_not (fun c : Char => decide (c = ',')) s
    rw [propertyAttributeTokens, nextPropertyAttributeToken, ← fields_dropWhile s]
    cases hs : s.dropWhile (· = ',') with
    | nil => rw [fields_nil]; rfl
    | cons c cs =>
      rw [hs] at hlen hhead
      have hc : c ≠ ',' := by simpa using hhead
      have htail : (cs.dropWhile (· ≠ ',')).length ≤ cs.length := (List.dropWhile_sublist _).length_le
      have hrest : fields ',' (cs.dropWhile (· ≠ ',')).tail = fields ',' (cs.dropWhile (· ≠ ',')) := by
        cases hdrop : cs.dropWhile (· ≠ ',') with
        | nil => rfl
        | cons d ds =>
          have hd := List.head?_dropWhile_not (fun c : Char => decide (c ≠ ',')) cs
          rw [hdrop] at hd
          have hd' : d = ',' := by simpa using hd
          rw [hd', fields_cons_sep]
          rfl
      have hloop := ih (cs.dropWhile (· ≠ ',')).tail
          (by simp only [List.length_tail, List.length_cons] at *; omega)
      rw [fields_takeWhile hc, List.filterMap_cons, ← hrest, ← hloop]
      rfl

theorem propertyAttributeName_eq (c : Char) :
    propertyAttributeName c = if c ∈ encodingOrder then some [c] else none := by
  unfold propertyAttributeName
  split <;> simp_all [encodingOrder]

/-- The attributes that the caller of `class_addProperty` gives: known names,
each at most once; a flag has no value, and a name has one without commas. -/
structure GivenAttributes where
  attrs : List (Char × List Char)
  known : ∀ a ∈ attrs, a.1 ∈ encodingOrder
  nodup : (attrs.map Prod.fst).Nodup
  flag : ∀ a ∈ attrs, a.1 ∉ ['T', 'G', 'S', 'V'] → a.2 = []
  named : ∀ a ∈ attrs, a.1 ∈ ['G', 'S', 'V'] → a.2 ≠ [] ∧ ',' ∉ a.2

/-- The attribute as the caller passes it. -/
def attributeOf (a : Char × List Char) : Attribute := ⟨some [a.1], some a.2⟩

theorem findAttribute_given (c : Char) (l : List (Char × List Char)) :
    findAttribute c (some (l.map attributeOf)) l.length = (lookup Prod.fst l c).map attributeOf := by
  rw [findAttribute, Option.bind_some, List.take_of_length_le (by simp), List.find?_map, lookup]
  congr 2
  funext a
  simp [attributeOf]

/-- The attribute string without its last comma, piece by piece. -/
def piece (a : Char × List Char) : List Char := a.1 :: a.2

theorem foldl_addAttrIfExists (l : List (Char × List Char)) (order buffer : List Char) :
    order.foldl (addAttrIfExists (some (l.map attributeOf)) l.length) buffer =
      buffer ++ (inOrder Prod.fst order l).flatMap fun a => piece a ++ [','] := by
  induction order generalizing buffer with
  | nil => simp [inOrder]
  | cons c order ih =>
    rw [List.foldl_cons, ih, addAttrIfExists, findAttribute_given]
    cases hc : lookup Prod.fst l c with
    | none => simp [inOrder, hc]
    | some a =>
      have hkey : a.1 = c := (lookup_some hc).2
      simp [inOrder, hc, attributeOf, piece, hkey]

theorem dropLast_flatMap (l : List (List Char)) : (l.flatMap (· ++ [','])).dropLast =
    [','].intercalate l := by
  induction l with
  | nil => rfl
  | cons p l ih =>
    cases l with
    | nil => simp
    | cons q l =>
      have hne : (q :: l).flatMap (· ++ [',']) ≠ [] := by simp
      rw [List.flatMap_cons, List.dropLast_append_of_ne_nil hne, ih, List.intercalate_cons_cons]

/-- `encodingFromAttrs` writes the given attributes in its order, between commas. -/
theorem encodingFromAttrs_given (rt : Runtime) (g : GivenAttributes) {s : List Char}
    (h : encodingFromAttrs rt (some (g.attrs.map attributeOf)) g.attrs.length = some s) :
    s = [','].intercalate ((inOrder Prod.fst encodingOrder g.attrs).map piece) := by
  rw [encodingFromAttrs, if_neg (by simp)] at h
  simp only [foldl_addAttrIfExists, List.nil_append] at h
  split at h
  · simp at h
  · split at h
    · simp at h
    · split at h
      · simp at h
      · rw [← List.flatMap_map piece (· ++ [',']), dropLast_flatMap] at h
        exact (Option.some.inj h).symm

/-! ## The tokens of the given attributes -/

/-- The attributes that can be listed in front of or behind the type. -/
def otherNames : List Char := ['R', '&', 'C', 'W', 'D', 'N', 'G', 'S', 'V']

/-- No comma in the type has the letter of an attribute right behind it. -/
def NoAttributeBehindComma (type : List Char) : Prop :=
  ∀ pre c post, type = pre ++ ',' :: c :: post → c ∉ otherNames

def listed (t : Char × List Char) : Bool := t.1 ≠ 'T' ∧ (propertyAttributeName t.1).isSome

theorem listed_iff (t : Char × List Char) : listed t = true ↔ t.1 ∈ otherNames := by
  rw [listed, decide_eq_true_iff, propertyAttributeName_eq]
  by_cases h : t.1 = 'T'
  · simp [h, otherNames]
  · simp [h, encodingOrder, otherNames]

/-- The tokens that the type adds to the list of attributes. -/
def extraTokens (type : List Char) : List (Char × List Char) :=
  ((fields ',' ('T' :: type)).filterMap token).filter listed

theorem extraTokens_eq_nil_iff (type : List Char) : extraTokens type = [] ↔ NoAttributeBehindComma type := by
  obtain ⟨h, t, ht⟩ := List.exists_cons_of_ne_nil (List.splitOn_ne_nil ',' type)
  have hfields : fields ',' ('T' :: type) = ('T' :: h) :: t.filter (· ≠ []) := by
    rw [fields, List.splitOn_cons_eq_if_modifyHead, ht]
    simp
  have htail : (type.splitOn ',').tail = t := by rw [ht, List.tail_cons]
  have hmem (c : Char) (f : List Char) :
      (c, f) ∈ (fields ',' ('T' :: type)).filterMap token ↔ (c = 'T' ∧ f = h) ∨ c :: f ∈ t := by
    simp [hfields, List.mem_filterMap, token_eq_some]
  rw [extraTokens, List.filter_eq_nil_iff]
  constructor
  · intro hnone pre c post heq hc
    have hcomma : c ≠ ',' := by
      rintro rfl
      exact absurd hc (by decide)
    obtain ⟨f, hf⟩ := (exists_field_iff type c).mpr ⟨hcomma, pre, post, heq⟩
    exact hnone (c, f) ((hmem c f).mpr (.inr (htail ▸ hf))) ((listed_iff (c, f)).mpr hc)
  · intro hno a ha hlisted
    have hother := (listed_iff a).mp hlisted
    rcases (hmem a.1 a.2).mp ha with ⟨hT, -⟩ | hf
    · rw [hT] at hother
      exact absurd hother (by decide)
    · obtain ⟨-, pre, post, heq⟩ := (exists_field_iff type a.1).mp ⟨a.2, htail ▸ hf⟩
      exact hno pre a.1 post heq hother

theorem token_piece (a : Char × List Char) : token (piece a) = some a := rfl

/-- A flag and a name are one field. -/
theorem GivenAttributes.fields_piece (g : GivenAttributes) {a : Char × List Char} (ha : a ∈ g.attrs)
    (hT : a.1 ≠ 'T') : fields ',' (piece a) = [piece a] := by
  apply fields_of_notMem
  · have hknown := g.known a ha
    have hcomma : a.1 ≠ ',' := by
      intro heq
      rw [heq] at hknown
      exact absurd hknown (by decide)
    have hvalue : ',' ∉ a.2 := by
      by_cases hn : a.1 ∈ ['G', 'S', 'V']
      · exact (g.named a ha hn).2
      · rw [g.flag a ha (by simpa [hT] using hn)]
        exact List.not_mem_nil
    rw [piece, List.mem_cons, not_or]
    exact ⟨Ne.symm hcomma, hvalue⟩
  · exact List.cons_ne_nil _ _

/-- The tokens of the attribute string are listed as the type's and then the given ones in their order. -/
theorem GivenAttributes.listedTokens_eq (g : GivenAttributes) {s : List Char}
    (hs : s = [','].intercalate ((inOrder Prod.fst encodingOrder g.attrs).map piece)) :
    listedTokens (some s) =
      ((lookup Prod.fst g.attrs 'T').elim [] fun a => extraTokens a.2) ++ inOrder Prod.fst
      otherNames g.attrs := by
  have hothers : (inOrder Prod.fst otherNames g.attrs).flatMap
      (fun a => ((fields ',' (piece a)).filterMap token).filter listed) =
      inOrder Prod.fst otherNames g.attrs := by
    calc (inOrder Prod.fst otherNames g.attrs).flatMap
          (fun a => ((fields ',' (piece a)).filterMap token).filter listed)
        = (inOrder Prod.fst otherNames g.attrs).flatMap fun a => [a] := by
          apply List.flatMap_congr
          intro a ha
          obtain ⟨hmem, hname⟩ := (mem_inOrder g.nodup).mp ha
          have hT : a.1 ≠ 'T' := by
            intro hT
            rw [hT] at hname
            exact absurd hname (by decide)
          simp [g.fields_piece hmem hT, token_piece, (listed_iff a).mpr hname]
      _ = inOrder Prod.fst otherNames g.attrs := List.flatMap_singleton' _
  have htokens : tokensOf (some s) = (fields ',' s).filterMap token :=
    propertyAttributeTokens_eq (s.length + 1) s (by omega)
  have horder : inOrder Prod.fst encodingOrder g.attrs =
      (lookup Prod.fst g.attrs 'T').toList ++ inOrder Prod.fst otherNames g.attrs := by
    cases hT : lookup Prod.fst g.attrs 'T' <;> simp [inOrder, encodingOrder, otherNames, hT]
  have hlisted : listedTokens (some s) = (tokensOf (some s)).filter listed := rfl
  rw [hlisted, htokens, hs, fields_intercalate, List.flatMap_map, List.filterMap_flatMap, List.filter_flatMap,
    horder, List.flatMap_append, hothers]
  congr 1
  cases hT : lookup Prod.fst g.attrs 'T' with
  | none => rfl
  | some a =>
    have hkey : a.1 = 'T' := (lookup_some hT).2
    simp [extraTokens, piece, hkey]

/-! ## The property that is added -/

theorem encodingFromAttrs_nil (rt : Runtime) : encodingFromAttrs rt (some []) 0 = none := by
  simp [encodingFromAttrs]

/-- What a property has when it has been added with the given attributes. -/
structure Holds (g : GivenAttributes) (name : List Char) (p : Property) : Prop where
  name_eq : p.name = some name
  type_eq : p.type = (lookup Prod.fst g.attrs 'T').map Prod.snd
  listed_eq : listedTokens p.attributes =
    ((lookup Prod.fst g.attrs 'T').elim [] fun a => extraTokens a.2) ++ inOrder Prod.fst otherNames g.attrs

theorem holds_propertyFromAttrs (rt : Runtime) (g : GivenAttributes) (name : List Char)
    (h : propertyConstructionFailed
      (propertyFromAttrs rt (some (g.attrs.map attributeOf)) g.attrs.length name)
      (some (g.attrs.map attributeOf)) g.attrs.length = false) :
    Holds g name (propertyFromAttrs rt (some (g.attrs.map attributeOf)) g.attrs.length name) := by
  simp only [propertyConstructionFailed, Bool.or_eq_false_iff] at h
  obtain ⟨⟨⟨⟨hname, hattributes⟩, htype⟩, -⟩, -⟩ := h
  refine ⟨?_, ?_, ?_⟩
  · simp only [propertyFromAttrs, strdup] at hname ⊢
    split at hname <;> simp_all
  · simp only [propertyFromAttrs, findAttribute_given] at htype ⊢
    cases hT : lookup Prod.fst g.attrs 'T' with
    | none => rfl
    | some a =>
      simp only [hT, Option.map_some, attributeOf, Option.bind_some, Option.isSome_some, Bool.true_and,
        strdup] at htype ⊢
      split at htype <;> simp_all
  · by_cases hnil : g.attrs = []
    · have hnone : encodingFromAttrs rt (some (g.attrs.map attributeOf)) g.attrs.length = none := by
        rw [hnil]
        exact encodingFromAttrs_nil rt
      rw [propertyFromAttrs, hnone, hnil]
      rfl
    · have hlen : g.attrs.length ≠ 0 := by simpa using hnil
      simp only [propertyFromAttrs, hlen, ne_eq, not_false_eq_true, decide_true,
        Bool.true_and] at hattributes ⊢
      obtain ⟨s, hs⟩ := Option.isSome_iff_exists.mp (Option.isNone_eq_false_iff.mp hattributes)
      rw [hs]
      exact g.listedTokens_eq (encodingFromAttrs_given rt g hs)

theorem exists_guard_eq_some {c : Prop} [Decidable c] : (∃ x, (guard c : Option Unit) = some x) ↔ c := by
  by_cases h : c <;> simp [guard, h]

/-- `class_addProperty` puts a property with the given attributes in front of
the class's lists, where `class_getProperty` finds it. -/
theorem classAddProperty_given (rt : Runtime) (cls : Class) (name : List Char) (hname : '\x00' ∉ name)
    (g : GivenAttributes) {cls' : Class}
    (h : classAddProperty rt (some cls) (some name) (some (g.attrs.map attributeOf))
      g.attrs.length = some cls') :
    ∃ p, classGetProperty cls' name = some p ∧ Holds g name p := by
  simp only [classAddProperty, Option.bind_eq_bind, Option.bind_some, Option.bind_eq_some_iff,
    exists_and_right, exists_guard_eq_some, Option.some.injEq] at h
  obtain ⟨-, hbuilt, -, rfl⟩ := h
  have hp := holds_propertyFromAttrs rt g name (by simpa using hbuilt)
  refine ⟨_, ?_, hp⟩
  have hhead : name.head? ≠ some '\x00' := fun hhead => hname (List.mem_of_head? hhead)
  have hget : propertyGetName (propertyFromAttrs rt (some (g.attrs.map attributeOf)) g.attrs.length name) =
      some name := by
    simp [propertyGetName, hp.name_eq, hhead]
  simp [classGetProperty, hget]

/-! ## Reading the attributes -/

/-- The sizes that the two readers ask for stay below this one when ten
attributes are listed. -/
def copyBound (p : Property) : ℕ :=
  160 + (p.type.elim 0 fun types => types.length + 1) + (p.attributes.elim 0 fun s => s.length + 1)

/-- `property_copyAttributeList` lists the given attributes, each once and with
its value, in some order, and `property_copyAttributeValue` has the value of
every given attribute and of no other name. -/
def RoundTrips (rt : Runtime) (g : GivenAttributes) (p : Property) : Prop :=
  ((propertyCopyAttributeList rt (some p)).getD []).Perm (g.attrs.map fun a => ([a.1], a.2)) ∧
    ∀ c, propertyCopyAttributeValue rt (some p) (some [c]) = (lookup Prod.fst g.attrs c).map Prod.snd

theorem sum_propertyAttributeTokens_le (n : ℕ) (s : List Char) :
    ((propertyAttributeTokens n s).map fun t => t.2.length + 1).sum ≤ s.length := by
  induction n generalizing s with
  | zero => simp [propertyAttributeTokens]
  | succ n ih =>
    have hlen : (s.dropWhile (· = ',')).length ≤ s.length := (List.dropWhile_sublist _).length_le
    rw [propertyAttributeTokens, nextPropertyAttributeToken]
    cases hs : s.dropWhile (· = ',') with
    | nil => simp
    | cons c cs =>
      have hloop := ih (cs.dropWhile (· ≠ ',')).tail
      have hsplit := congrArg List.length (List.takeWhile_append_dropWhile (p := (· ≠ ',')) (l := cs))
      rw [hs, List.length_cons] at hlen
      rw [List.length_append] at hsplit
      rw [List.length_tail] at hloop
      simp only [List.map_cons, List.sum_cons]
      omega

theorem sum_tokensOf_le (attributes : Option (List Char)) :
    ((tokensOf attributes).map fun t => t.2.length + 1).sum ≤ attributes.elim 0 fun s => s.length + 1 := by
  cases attributes with
  | none => rfl
  | some s => exact (sum_propertyAttributeTokens_le (s.length + 1) s).trans (Nat.le_succ _)

theorem length_storedValue_le (t : Char × List Char) : (storedValue t).length ≤ t.2.length := by
  unfold storedValue
  split
  · exact le_rfl
  · exact Nat.zero_le _

theorem sum_listedTokens_le (attributes : Option (List Char)) :
    ((listedTokens attributes).map fun t => (storedValue t).length + 1).sum ≤
      attributes.elim 0 fun s => s.length + 1 := by
  refine le_trans ?_ (sum_tokensOf_le attributes)
  rw [listedTokens]
  induction tokensOf attributes with
  | nil => exact le_rfl
  | cons t l ih =>
    have := length_storedValue_le t
    rw [List.filter_cons]
    split
    · simp only [List.map_cons, List.sum_cons]
      omega
    · rw [List.map_cons, List.sum_cons]
      omega

/-! ## The list -/

/-- The entries of the tokens that are listed. -/
def entriesOf (tokens : List (Char × List Char)) : List (List Char × List Char) :=
  tokens.filterMap fun t => (propertyAttributeName t.1).map fun name => (name, storedValue t)

theorem length_entriesOf {tokens : List (Char × List Char)} (h : ∀ t ∈ tokens, listed t = true) :
    (entriesOf tokens).length = tokens.length := by
  induction tokens with
  | nil => rfl
  | cons t l ih =>
    have ht := (listed_iff t).mp (h t List.mem_cons_self)
    have hname : t.1 ∈ encodingOrder := List.mem_cons_of_mem 'T' ht
    have hl := ih fun t' ht' => h t' (List.mem_cons_of_mem t ht')
    rw [entriesOf] at hl ⊢
    rw [List.filterMap_cons, propertyAttributeName_eq, if_pos hname, Option.map_some, List.length_cons, hl,
      List.length_cons]

/-- The entries of given attributes are what has been given. -/
theorem GivenAttributes.entriesOf_eq (g : GivenAttributes) {l : List (Char × List Char)}
    (hl : ∀ a ∈ l, a ∈ g.attrs)
    (hT : ∀ a ∈ l, a.1 ≠ 'T') : entriesOf l = l.map fun a => ([a.1], a.2) := by
  induction l with
  | nil => rfl
  | cons a l ih =>
    have hmem := hl a List.mem_cons_self
    have hl' := ih (fun b hb => hl b (List.mem_cons_of_mem a hb)) fun b hb => hT b (List.mem_cons_of_mem a hb)
    have hstored : storedValue a = a.2 := by
      unfold storedValue
      split
      · rfl
      · rename_i hvalue
        refine (g.flag a hmem ?_).symm
        simpa [propertyAttributeHasValue, hT a List.mem_cons_self] using hvalue
    rw [entriesOf] at hl' ⊢
    rw [List.filterMap_cons, propertyAttributeName_eq, if_pos (g.known a hmem), Option.map_some, hl', hstored,
      List.map_cons]

/-- The list is the type and the entries of the listed tokens; without any, or
without the memory for them, there is none. -/
theorem propertyCopyAttributeList_eq (rt : Runtime) (p : Property) :
    (propertyCopyAttributeList rt (some p)).getD [] = [] ∨
      (propertyCopyAttributeList rt (some p)).getD [] =
        (p.type.elim [] fun types => [(['T'], types)]) ++ entriesOf (listedTokens p.attributes) := by
  cases h : propertyCopyAttributeList rt (some p) with
  | none => exact .inl rfl
  | some l =>
    refine .inr ?_
    simp only [propertyCopyAttributeList, Option.bind_eq_bind, Option.bind_some, Option.bind_eq_some_iff,
      exists_and_right, exists_guard_eq_some, Option.some.injEq] at h
    exact h.2.2.2.symm

/-- With the memory for it the list is made. -/
theorem propertyCopyAttributeList_available (rt : Runtime) (p : Property)
    (hcount : (listedTokens p.attributes).length ≤ 9) (hmem : ∀ n ≤ copyBound p, rt.alloc .copy n = true) :
    (propertyCopyAttributeList rt (some p)).getD [] =
      (p.type.elim [] fun types => [(['T'], types)]) ++ entriesOf (listedTokens p.attributes) := by
  have hsum := sum_listedTokens_le p.attributes
  have htype : (p.type.elim [] fun types => [((['T'] : List Char), types)]).length ≤ 1 := by
    cases p.type <;> simp
  have halloc := hmem (((p.type.elim [] fun types => [((['T'] : List Char), types)]).length +
      (listedTokens p.attributes).length) * 16 + (p.type.elim 0 (fun types => types.length + 1) +
        ((listedTokens p.attributes).map fun t => (storedValue t).length + 1).sum)) (by
    rw [copyBound]
    omega)
  by_cases hzero : (p.type.elim [] fun types => [((['T'] : List Char), types)]).length +
      (listedTokens p.attributes).length = 0
  · have htype' := List.eq_nil_of_length_eq_zero (Nat.eq_zero_of_add_eq_zero_right hzero)
    have hlisted := List.eq_nil_of_length_eq_zero (Nat.eq_zero_of_add_eq_zero_left hzero)
    rcases propertyCopyAttributeList_eq rt p with h | h
    · rw [h, htype', hlisted]
      rfl
    · exact h
  · have hlt : (p.type.elim [] fun types => [((['T'] : List Char), types)]).length +
      (listedTokens p.attributes).length < 2 ^ 32 := by omega
    simp only [propertyCopyAttributeList, Option.bind_eq_bind, Option.bind_some, guard, hlt, hzero,
      halloc, ne_eq,
      not_false_eq_true, if_true]
    rfl

theorem inOrder_encodingOrder (l : List (Char × List Char)) :
    inOrder Prod.fst encodingOrder l = (lookup Prod.fst l 'T').toList ++ inOrder Prod.fst otherNames l := by
  cases hT : lookup Prod.fst l 'T' <;> simp [inOrder, encodingOrder, otherNames, hT]

theorem GivenAttributes.perm (g : GivenAttributes) : (inOrder Prod.fst encodingOrder g.attrs).Perm g.attrs :=
  perm_inOrder (by decide) g.nodup g.known

theorem GivenAttributes.other (g : GivenAttributes) {a : Char × List Char}
    (ha : a ∈ inOrder Prod.fst otherNames g.attrs) : a ∈ g.attrs ∧ a.1 ≠ 'T' := by
  obtain ⟨hmem, hname⟩ := (mem_inOrder g.nodup).mp ha
  refine ⟨hmem, fun hT => ?_⟩
  rw [hT] at hname
  exact absurd hname (by decide)

/-- Without tokens from the type the given attributes are listed. -/
theorem Holds.listed_eq_of_extra {g : GivenAttributes} {name : List Char} {p : Property} (hp : Holds g name p)
    (h : ∀ a ∈ lookup Prod.fst g.attrs 'T', extraTokens a.2 = []) :
    listedTokens p.attributes = inOrder Prod.fst otherNames g.attrs := by
  rw [hp.listed_eq]
  cases hT : lookup Prod.fst g.attrs 'T' with
  | none => rfl
  | some a => simp [h a hT]

/-- The attributes are listed as given exactly when the type adds no token. -/
theorem GivenAttributes.list_iff (g : GivenAttributes) (rt : Runtime) {name : List Char} {p : Property}
    (hp : Holds g name p) (hmem : ∀ n ≤ copyBound p, rt.alloc .copy n = true) :
    ((propertyCopyAttributeList rt (some p)).getD []).Perm (g.attrs.map fun a => ([a.1], a.2)) ↔
      ∀ a ∈ lookup Prod.fst g.attrs 'T', extraTokens a.2 = [] := by
  constructor
  · intro hperm a ha
    have hcount := hperm.length_eq
    have hgiven := g.perm.length_eq
    rw [inOrder_encodingOrder, List.length_append, ha] at hgiven
    rcases propertyCopyAttributeList_eq rt p with h | h
    · rw [h, List.length_map, ← hgiven] at hcount
      rw [Option.toList_some, List.length_nil, List.length_singleton] at hcount
      omega
    · have hlen : (entriesOf (listedTokens p.attributes)).length = (listedTokens p.attributes).length :=
        length_entriesOf fun t ht => (List.mem_filter.mp ht).2
      rw [h, List.length_append, hlen, hp.listed_eq, hp.type_eq, ha, List.length_map, ← hgiven] at hcount
      simp only [Option.map_some, Option.elim_some, List.length_append, List.length_singleton,
        Option.toList_some] at hcount
      exact List.eq_nil_of_length_eq_zero (by omega)
  · intro hextra
    have hlisted := hp.listed_eq_of_extra hextra
    have hcount : (listedTokens p.attributes).length ≤ 9 := by
      rw [hlisted]
      exact List.length_filterMap_le _ otherNames
    have hentries := g.entriesOf_eq (fun a ha => (g.other ha).1) fun a ha => (g.other ha).2
    have htype : (p.type.elim [] fun types => [((['T'] : List Char), types)]) =
        (lookup Prod.fst g.attrs 'T').toList.map fun a => ([a.1], a.2) := by
      rw [hp.type_eq]
      cases hT : lookup Prod.fst g.attrs 'T' with
      | none => rfl
      | some a => simp [(lookup_some hT).2]
    rw [propertyCopyAttributeList_available rt p hcount hmem, hlisted, hentries, htype, ← List.map_append,
      ← inOrder_encodingOrder]
    exact g.perm.map _

/-! ## The values -/

/-- A token that is listed is found among the listed ones. -/
theorem find?_tokensOf (attributes : Option (List Char)) {c : Char} (hc : c ∈ otherNames) :
    (tokensOf attributes).find? (fun t => t.1 = c) = lookup Prod.fst (listedTokens attributes) c := by
  have hlisted : listedTokens attributes = (tokensOf attributes).filter listed := rfl
  rw [lookup, hlisted, List.find?_filter]
  congr 1
  funext t
  by_cases ht : t.1 = c
  · have hl : listed t = true := (listed_iff t).mpr (ht ▸ hc)
    simp [ht, hl]
  · simp [ht]

theorem length_token_le {attributes : Option (List Char)} {t : Char × List Char}
    (ht : t ∈ tokensOf attributes) :
    t.2.length + 1 ≤ attributes.elim 0 fun s => s.length + 1 :=
  (List.le_sum_of_mem (List.mem_map_of_mem (f := fun t : Char × List Char => t.2.length + 1) ht)).trans
    (sum_tokensOf_le attributes)

/-- When the type adds no token every attribute has the value it has been given. -/
theorem GivenAttributes.value_eq (g : GivenAttributes) (rt : Runtime) {name : List Char} {p : Property}
    (hp : Holds g name p) (hmem : ∀ n ≤ copyBound p, rt.alloc .copy n = true)
    (h : ∀ a ∈ lookup Prod.fst g.attrs 'T', extraTokens a.2 = []) (c : Char) :
    propertyCopyAttributeValue rt (some p) (some [c]) = (lookup Prod.fst g.attrs c).map Prod.snd := by
  by_cases hT : c = 'T'
  · subst hT
    have hvalue : propertyCopyAttributeValue rt (some p) (some ['T']) = p.type.bind (strdup rt .copy) := rfl
    rw [hvalue, ← hp.type_eq]
    cases htype : p.type with
    | none => rfl
    | some types =>
      have halloc := hmem (types.length + 1) (by rw [copyBound, htype, Option.elim_some]; omega)
      rw [Option.bind_some, strdup, if_pos halloc]
  · by_cases hknown : c ∈ encodingOrder
    · have hother : c ∈ otherNames := (List.mem_cons.mp hknown).resolve_left hT
      have hfind := find?_tokensOf p.attributes hother
      rw [hp.listed_eq_of_extra h, lookup_inOrder, if_pos hother] at hfind
      have hcopy : copyPropertyAttributeTokenValue rt p.attributes c =
          (lookup Prod.fst g.attrs c).map Prod.snd := by
        rw [copyPropertyAttributeTokenValue, hfind]
        cases hc : lookup Prod.fst g.attrs c with
        | none => rfl
        | some a =>
          have hle := length_token_le (List.mem_of_find?_eq_some (hfind.trans hc))
          have halloc := hmem (a.2.length + 1) (by rw [copyBound]; omega)
          simp [guard, halloc]
      have hname : (propertyAttributeName c).isNone = false := by
        rw [propertyAttributeName_eq, if_pos hknown]
        rfl
      simp only [propertyCopyAttributeValue, Option.bind_eq_bind, Option.bind_some, if_neg hT, hname, hcopy]
      rw [if_neg (by decide)]
      split
      · rename_i hvalue
        cases hc : lookup Prod.fst g.attrs c with
        | none => rfl
        | some a =>
          obtain ⟨ha, rfl⟩ := lookup_some hc
          have hflag := g.flag a ha (by simpa [propertyAttributeHasValue, hT] using hvalue)
          rw [Option.map_some, Option.map_some, hflag]
      · rfl
    · have hname : (propertyAttributeName c).isNone = true := by
        rw [propertyAttributeName_eq, if_neg hknown]
        rfl
      have hnone : lookup Prod.fst g.attrs c = none := by
        rw [← Option.not_isSome_iff_eq_none, lookup_isSome, List.mem_map]
        rintro ⟨a, ha, rfl⟩
        exact hknown (g.known a ha)
      simp only [propertyCopyAttributeValue, Option.bind_eq_bind, Option.bind_some, if_neg hT, hname, hnone]
      rfl

/-- A property that `class_addProperty` has added round-trips exactly when the
type has no comma with the letter of an attribute right behind it. -/
theorem attributes_roundTrip (rt : Runtime) (cls : Class) (name : List Char) (hname : '\x00' ∉ name)
    (g : GivenAttributes) {cls' : Class}
    (h : classAddProperty rt (some cls) (some name) (some (g.attrs.map attributeOf))
      g.attrs.length = some cls') :
    ∃ p, classGetProperty cls' name = some p ∧ ((∀ n ≤ copyBound p, rt.alloc .copy n = true) →
      (RoundTrips rt g p ↔ ∀ a ∈ g.attrs, a.1 = 'T' → NoAttributeBehindComma a.2)) := by
  obtain ⟨p, hget, hp⟩ := classAddProperty_given rt cls name hname g h
  have hcond : (∀ a ∈ lookup Prod.fst g.attrs 'T', extraTokens a.2 = []) ↔
      ∀ a ∈ g.attrs, a.1 = 'T' → NoAttributeBehindComma a.2 := by
    constructor
    · intro hall a ha hT
      exact (extraTokens_eq_nil_iff a.2).mp (hall a (hT ▸ lookup_of_nodup g.nodup ha))
    · intro hall a ha
      exact (extraTokens_eq_nil_iff a.2).mpr (hall a (lookup_some ha).1 (lookup_some ha).2)
  refine ⟨p, hget, fun hmem => ?_⟩
  rw [← hcond, RoundTrips, g.list_iff rt hp hmem]
  exact ⟨And.left, fun hextra => ⟨hextra, g.value_eq rt hp hmem hextra⟩⟩

/-! ## A class template -/

/-- Memory is there and selectors can be registered. -/
def plentiful : Runtime where
  alloc _ _ := true
  registerName _ _ := some 0

/-- The structure `{pair<int, Value>=ii}`, as compilers spell it. -/
def pairType : Encoding.TypeEncoding :=
  .struct ⟨['p', 'a', 'i', 'r', '<', 'i', 'n', 't', ',', ' ', 'V', 'a', 'l', 'u', 'e', '>'], by simp⟩
    (.cons none (.arithmetic .int) (.last none (.arithmetic .int)))

/-- The structure `{pair<int,Value>=ii}`. -/
def tightPairType : Encoding.TypeEncoding :=
  .struct ⟨['p', 'a', 'i', 'r', '<', 'i', 'n', 't', ',', 'V', 'a', 'l', 'u', 'e', '>'], by simp⟩
    (.cons none (.arithmetic .int) (.last none (.arithmetic .int)))

/-- A property of this type with a getter, the attributes in another order than the encoder's. -/
def pairAttributes (t : Encoding.TypeEncoding) : GivenAttributes where
  attrs := [('G', ['g', 'e', 't']), ('N', []), ('T', t.encode)]
  known := by simp [encodingOrder]
  nodup := by simp
  flag := by simp
  named := by simp

/-- `{pair<int, Value>=ii}` has a blank behind its comma and round-trips. -/
theorem attributes_roundTrip_pair : ∃ cls' p,
    classAddProperty plentiful (some ⟨[]⟩) (some ['x'])
    (some ((pairAttributes pairType).attrs.map attributeOf)) 3 =
      some cls' ∧
    classGetProperty cls' ['x'] = some p ∧ RoundTrips plentiful (pairAttributes pairType) p := by
  obtain ⟨cls', h⟩ := Option.isSome_iff_exists.mp (show (classAddProperty plentiful (some ⟨[]⟩) (some ['x'])
    (some ((pairAttributes pairType).attrs.map attributeOf)) 3).isSome = true by decide +kernel)
  obtain ⟨p, hget, hiff⟩ := attributes_roundTrip plentiful ⟨[]⟩ ['x'] (by decide) (pairAttributes pairType) h
  refine ⟨cls', p, h, hget, (hiff fun _ _ => rfl).mpr fun a ha hT => ?_⟩
  have hblank : NoAttributeBehindComma pairType.encode := (extraTokens_eq_nil_iff _).mp (by decide +kernel)
  simp only [pairAttributes, List.mem_cons, List.not_mem_nil, or_false] at ha
  rcases ha with rfl | rfl | rfl
  · exact absurd hT (by decide)
  · exact absurd hT (by decide)
  · exact hblank

/-- The type `{pair<int,Value>=ii}` is read back with an instance variable `alue>=ii}`. -/
theorem attribute_invented : ¬∀ (rt : Runtime) (cls : Class) (name : List Char)
    (g : GivenAttributes) (cls' : Class),
    '\x00' ∉ name → (∀ a ∈ g.attrs, a.1 = 'T' → ∃ t : Encoding.TypeEncoding, a.2 = t.encode) →
    classAddProperty rt (some cls) (some name) (some (g.attrs.map attributeOf)) g.attrs.length = some cls' →
    ∃ p, classGetProperty cls' name = some p ∧
      ((∀ n ≤ copyBound p, rt.alloc .copy n = true) → RoundTrips rt g p) := by
  intro hall
  have hadded : (classAddProperty plentiful (some ⟨[]⟩) (some ['x'])
      (some ((pairAttributes tightPairType).attrs.map attributeOf)) 3).isSome = true ∧
      ∀ cls' ∈ classAddProperty plentiful (some ⟨[]⟩) (some ['x'])
        (some ((pairAttributes tightPairType).attrs.map attributeOf)) 3,
        ∀ p ∈ classGetProperty cls' ['x'],
          propertyCopyAttributeValue plentiful (some p) (some ['V']) =
            some ['a', 'l', 'u', 'e', '>', '=', 'i', 'i', '}'] := by decide +kernel
  obtain ⟨hsome, hread⟩ := hadded
  obtain ⟨cls', h⟩ := Option.isSome_iff_exists.mp hsome
  have htype : ∀ a ∈ (pairAttributes tightPairType).attrs, a.1 = 'T' →
      ∃ t : Encoding.TypeEncoding, a.2 = t.encode := by
    intro a ha hT
    simp only [pairAttributes, List.mem_cons, List.not_mem_nil, or_false] at ha
    rcases ha with rfl | rfl | rfl
    · exact absurd hT (by decide)
    · exact absurd hT (by decide)
    · exact ⟨tightPairType, rfl⟩
  obtain ⟨p, hget, hround⟩ := hall plentiful ⟨[]⟩ ['x'] (pairAttributes tightPairType) cls'
      (by decide) htype h
  have hvalue := (hround fun _ _ => rfl).2 'V'
  rw [hread cls' h p hget] at hvalue
  exact absurd hvalue (by decide +kernel)

end Libobjc2.Properties
