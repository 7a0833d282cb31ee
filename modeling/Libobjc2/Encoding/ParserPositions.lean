import Libobjc2.Encoding.TypeSize
import Mathlib.Data.List.Infix

/-!
# Positions of the type parsers

`sizeof_type` and `alignof_type` (encoding2.c, lines 90–380) on any string, as far as their positions go,
with the reasons to fail apart: an encoding is refused with `abort()`, or a loop goes past the terminator.

Results:
* `alignofType_end`: the positions are those of `alignofType`.
* `scan_succ`: one call of either parser, by the case that it comes to.
* `kind_within`: what a case goes on with is left of the string.
-/

namespace Libobjc2.Encoding

/-! ## Model -/

/-- Why there is no position behind a type: `abort()`, a byte behind the terminator, or no fuel. -/
inductive Fault
  | aborted
  | pastEnd
  | exhausted
  deriving DecidableEq, Repr

/-- Move to the next `endchar` and past it. -/
def endOfText (endchar : Char) : List Char → Except Fault (List Char)
  | [] => .error .pastEnd
  | c :: cs => if c = endchar then .ok cs else endOfText endchar cs

/-- Lines 103–110. -/
def endOfName (endchar : Char) : List Char → Except Fault (List Char ⊕ List Char)
  | [] => .error .pastEnd
  | c :: cs =>
    if c = endchar then .ok (.inl cs) else if c = '=' then .ok (.inr cs) else endOfName endchar cs

/-- `skip_object_extended_qualifiers` (lines 165–187). -/
def endOfObject : List Char → Except Fault (List Char)
  | '?' :: '<' :: cs => endOfText '>' cs
  | '?' :: cs => .ok cs
  | '\x22' :: cs => endOfText '\x22' cs
  | cs => .ok cs

section

variable (callback : List Char → Except Fault (List Char))

/-- `parse_array` (lines 90–99). -/
def endOfArray (abi : Abi) (type : List Char) : Except Fault (List Char) :=
  (callback (strtol abi type).2).bind fun rest =>
    match rest with
    | [] => .error .pastEnd
    | _ :: rest => .ok rest

/-- The type of the member, behind its name. -/
def memberType : List Char → Except Fault (List Char)
  | '\x22' :: cs => endOfText '\x22' cs
  | cs => .ok cs

/-- Lines 114–133. At the terminator the callback is called, and refuses it. -/
def endOfMembers (endchar : Char) : ℕ → List Char → Except Fault (List Char)
  | 0, _ => .error .exhausted
  | n + 1, type =>
    if type.head? = some endchar then .ok type.tail
    else (memberType type).bind fun type => (callback type).bind fun rest => endOfMembers endchar n rest

/-- `parse_struct_or_union` (lines 101–136). -/
def endOfStructOrUnion (type : List Char) (endchar : Char) : Except Fault (List Char) :=
  (endOfName endchar type).bind fun
    | .inl rest => .ok rest
    | .inr members => endOfMembers callback endchar (members.length + 1) members

/-- The case of a structure, which is read again for its alignment by `sizeof_type` (lines 238–245). -/
def endOfStruct (again : List Char → Except Fault (List Char)) (type cs : List Char) :
    Except Fault (List Char) :=
  (endOfStructOrUnion callback cs '}').bind fun t => (again type).bind fun _ => .ok t

/-- The cases that `sizeof_type` and `alignof_type` have in common; `bitfield` is the case of `b`. -/
def endOfType (abi : Abi) (bitfield again : List Char → Except Fault (List Char)) (type : List Char) :
    Except Fault (List Char) :=
  match objcSkipTypeQualifiers type with
  | [] => .error .aborted
  | c :: cs =>
    if (typeCase c).isSome then .ok cs
    else if c = '@' then endOfObject cs
    else if c = '?' ∨ c = 'v' then .ok cs
    else if c = 'j' then
      match cs with
      | [] => .error .pastEnd
      | d :: ds => if (arithmeticCase d).isSome then .ok ds else endOfStruct callback again (d :: ds) ds
    else if c = '{' then endOfStruct callback again (c :: cs) cs
    else if c = '[' then endOfArray callback abi cs
    else if c = '(' then endOfStructOrUnion callback cs ')'
    else if c = 'b' then bitfield cs
    else if c = '^' then callback cs
    else .error .aborted

end

/-- `alignof_type` (lines 301–375), which has no use for the type of a structure once more. -/
def alignofEnd (abi : Abi) : ℕ → List Char → Except Fault (List Char)
  | 0, _ => .error .exhausted
  | fuel + 1, type =>
    endOfType (alignofEnd abi fuel) abi
      (fun cs => (alignofEnd abi fuel (strtol abi cs).2).bind fun rest => .ok (strtol abi rest).2) .ok type

/-- `sizeof_type` (lines 196–284). -/
def sizeofEnd (abi : Abi) : ℕ → List Char → Except Fault (List Char)
  | 0, _ => .error .exhausted
  | fuel + 1, type =>
    endOfType (sizeofEnd abi fuel) abi
      (fun cs =>
        -- the element type is one character
        match (strtol abi cs).2 with
        | [] => .error .pastEnd
        | _ :: rest => .ok (strtol abi rest).2)
      (fun type => alignofEnd abi (type.length + 1) type) type

/-! ## The sizes and alignments -/

/-- The position, where there is one. -/
def position {σ : Type} (r : Option (List Char × σ)) : Option (List Char) := r.map Prod.fst

/-- What a parser with a context has for positions. -/
def Positions {σ : Type} (callback : List Char → σ → Option (List Char × σ))
    (ends : List Char → Except Fault (List Char)) : Prop :=
  ∀ type context, position (callback type context) = (ends type).toOption

theorem endOfText_toOption (endchar : Char) : ∀ cs, (endOfText endchar cs).toOption = skipPast endchar cs
  | [] => rfl
  | c :: cs => by
    rw [endOfText, skipPast]
    split
    · rfl
    · exact endOfText_toOption endchar cs

theorem endOfName_toOption (endchar : Char) : ∀ cs, (endOfName endchar cs).toOption = skipName endchar cs
  | [] => rfl
  | c :: cs => by
    rw [endOfName, skipName]
    split
    · rfl
    · split
      · rfl
      · exact endOfName_toOption endchar cs

theorem endOfObject_toOption (cs : List Char) :
    (endOfObject cs).toOption = skipObjectExtendedQualifiers cs := by
  unfold endOfObject
  split
  · exact endOfText_toOption _ _
  · rename_i cs hne
    rw [skipObjectExtendedQualifiers]
    · rfl
    · exact hne
  · exact endOfText_toOption _ _
  · rename_i h1 h2 h3
    rw [skipObjectExtendedQualifiers]
    · rfl
    · exact h1
    · exact h2
    · exact h3

theorem memberType_toOption (c : Char) (cs : List Char) : (memberType (c :: cs)).toOption =
    if c = '\x22' then skipPast '\x22' cs else some (c :: cs) := by
  unfold memberType
  split
  · rename_i heq
    obtain ⟨rfl, rfl⟩ := List.cons.inj heq
    rw [if_pos rfl]
    exact endOfText_toOption _ _
  · rename_i hne
    rw [if_neg fun heq => hne cs (by rw [heq])]
    rfl

theorem toOption_bind {α β : Type} (x : Except Fault α) (f : α → Except Fault β) :
    (x.bind f).toOption = x.toOption.bind fun a => (f a).toOption := by
  cases x <;> rfl

section

variable {σ : Type} {callback : List Char → σ → Option (List Char × σ)}
    {ends : List Char → Except Fault (List Char)}

theorem Positions.cases (h : Positions callback ends) (type : List Char) (context : σ) :
    (∃ rest c, callback type context = some (rest, c) ∧ ends type = .ok rest) ∨
    (callback type context = none ∧ (ends type).toOption = none) := by
  have heq := h type context
  cases hc : callback type context with
  | none =>
    rw [hc] at heq
    exact .inr ⟨rfl, heq.symm⟩
  | some r =>
    rw [hc] at heq
    cases he : ends type with
    | error e =>
      rw [he] at heq
      cases heq
    | ok rest =>
      rw [he] at heq
      obtain rfl : r.1 = rest := Option.some.inj heq
      exact .inl ⟨r.1, r.2, rfl, rfl⟩

theorem Positions.array (h : Positions callback ends) (abi : Abi) (type : List Char) (context : σ) :
    ((parseArray callback abi type context).map fun r => r.2.1) = (endOfArray ends abi type).toOption := by
  rw [parseArray, endOfArray, toOption_bind]
  obtain ⟨rest, c, hc, he⟩ | ⟨hc, he⟩ := h.cases (strtol abi type).2 context
  · simp only [hc, he, Option.bind_eq_bind, Option.bind_some]
    cases rest <;> rfl
  · simp only [hc, he, Option.bind_eq_bind]
    rfl

theorem Positions.members (h : Positions callback ends) (endchar : Char) (hnil : ∃ e, ends [] = .error e) :
    ∀ (n : ℕ) (type : List Char) (context : σ),
    position (parseMembers callback endchar n type context) = (endOfMembers ends endchar n type).toOption
  | 0, _, _ => rfl
  | n + 1, [], context => by
    obtain ⟨e, he⟩ := hnil
    have hempty : endOfMembers ends endchar (n + 1) [] =
        (ends []).bind fun rest => endOfMembers ends endchar n rest := rfl
    rw [hempty, he]
    rfl
  | n + 1, c :: cs, context => by
    rw [endOfMembers]
    by_cases hc : c = endchar
    · rw [parseMembers, if_pos hc, if_pos (by rw [List.head?_cons, hc])]
      rfl
    · have hhead : (c :: cs).head? ≠ some endchar := fun heq => hc (Option.some.inj heq)
      have hturn : parseMembers callback endchar (n + 1) (c :: cs) context =
          (memberType (c :: cs)).toOption.bind fun type =>
            (callback type context).bind fun r => parseMembers callback endchar n r.1 r.2 := by
        rw [parseMembers, if_neg hc, memberType_toOption]
        split <;> rfl
      rw [hturn, if_neg hhead]
      cases memberType (c :: cs) with
      | error e => rfl
      | ok type =>
        show position ((callback type context).bind fun r => parseMembers callback endchar n r.1 r.2) =
          ((ends type).bind fun rest => endOfMembers ends endchar n rest).toOption
        rw [toOption_bind]
        obtain ⟨rest, c', hcall, he⟩ | ⟨hcall, he⟩ := h.cases type context
        · rw [hcall, he]
          exact h.members endchar hnil n rest c'
        · rw [hcall, he]
          rfl

theorem Positions.structOrUnion (h : Positions callback ends) (endchar : Char)
    (hnil : ∃ e, ends [] = .error e)
    (type : List Char) (context : σ) :
    position (parseStructOrUnion callback type context endchar) =
      (endOfStructOrUnion ends type endchar).toOption := by
  rw [parseStructOrUnion, endOfStructOrUnion, toOption_bind, endOfName_toOption]
  cases skipName endchar type with
  | none => rfl
  | some r =>
    cases r with
    | inl rest => rfl
    | inr members => exact h.members endchar hnil _ members context

end

theorem alignofEnd_nil (abi : Abi) (fuel : ℕ) : ∃ e, alignofEnd abi fuel [] = .error e := by
  cases fuel with
  | zero => exact ⟨_, rfl⟩
  | succ fuel => exact ⟨_, rfl⟩

theorem sizeofEnd_nil (abi : Abi) (fuel : ℕ) : ∃ e, sizeofEnd abi fuel [] = .error e := by
  cases fuel with
  | zero => exact ⟨_, rfl⟩
  | succ fuel => exact ⟨_, rfl⟩

/-- The positions of `alignof_type`. -/
theorem alignofType_end (abi : Abi) (fuel : ℕ) : Positions (alignofType abi fuel) (alignofEnd abi fuel) := by
  induction fuel with
  | zero => exact fun _ _ => rfl
  | succ fuel ih =>
    intro type align
    have hstruct : ∀ type cs, position (parseStruct (alignofType abi fuel) cs align) =
        (endOfStruct (alignofEnd abi fuel) .ok type cs).toOption := by
      intro type cs
      rw [parseStruct, ih.structOrUnion '}' (alignofEnd_nil abi fuel), endOfStruct]
      cases endOfStructOrUnion (alignofEnd abi fuel) cs '}' <;> rfl
    rw [alignofType, alignofEnd, endOfType]
    cases objcSkipTypeQualifiers type with
    | nil => rfl
    | cons c cs =>
      dsimp only
      cases typeCase c with
      | some τ => rfl
      | none =>
        rw [if_neg (by simp : ¬ (none : Option CType).isSome = true)]
        dsimp only
        by_cases h1 : c = '@'
        · rw [if_pos h1, if_pos h1, ← endOfObject_toOption]
          cases endOfObject cs <;> rfl
        rw [if_neg h1, if_neg h1]
        by_cases h2 : c = '?' ∨ c = 'v'
        · rw [if_pos h2, if_pos h2]
          rfl
        rw [if_neg h2, if_neg h2]
        by_cases h3 : c = 'j'
        · rw [if_pos h3, if_pos h3]
          cases cs with
          | nil => rfl
          | cons d ds =>
            dsimp only
            cases arithmeticCase d with
            | some a => rfl
            | none => exact hstruct (d :: ds) ds
        rw [if_neg h3, if_neg h3]
        by_cases h4 : c = '{'
        · rw [if_pos h4, if_pos h4]
          exact hstruct (c :: cs) cs
        rw [if_neg h4, if_neg h4]
        by_cases h5 : c = '['
        · have h6 : c ≠ '(' := by
            rw [h5]
            decide
          rw [if_neg h6, if_pos h5, if_pos h5, ← ih.array abi cs align]
          cases parseArray (alignofType abi fuel) abi cs align <;> rfl
        rw [if_neg h5, if_neg h5]
        by_cases h6 : c = '('
        · rw [if_pos h6, if_pos h6]
          exact ih.structOrUnion ')' (alignofEnd_nil abi fuel) cs align
        rw [if_neg h6, if_neg h6]
        by_cases h7 : c = 'b'
        · rw [if_pos h7, if_pos h7]
          obtain ⟨rest, a, hcall, he⟩ | ⟨hcall, he⟩ := ih.cases (strtol abi cs).2 align
          · rw [hcall, he]
            rfl
          · rw [hcall, toOption_bind, he]
            rfl
        rw [if_neg h7, if_neg h7]
        by_cases h8 : c = '^'
        · rw [if_pos h8, if_pos h8, ← ih cs 0]
          cases alignofType abi fuel cs 0 <;> rfl
        rw [if_neg h8, if_neg h8]
        rfl

/-! ## Cases -/

/-- What the first characters of an encoding say, behind its qualifiers. The string of a structure that
    is read again is kept. -/
inductive Kind
  | refused
  | read (rest : List Char)
  | unfinished
  | object (cs : List Char)
  | aggregate (endchar : Char) (cs : List Char) (again : Option (List Char))
  | array (cs : List Char)
  | bitfield (cs : List Char)
  | pointer (cs : List Char)

def kind (type : List Char) : Kind :=
  match objcSkipTypeQualifiers type with
  | [] => .refused
  | c :: cs =>
    if (typeCase c).isSome then .read cs
    else if c = '@' then .object cs
    else if c = '?' ∨ c = 'v' then .read cs
    else if c = 'j' then
      match cs with
      | [] => .unfinished
      | d :: ds => if (arithmeticCase d).isSome then .read ds else .aggregate '}' ds (some (d :: ds))
    else if c = '{' then .aggregate '}' cs (some (c :: cs))
    else if c = '[' then .array cs
    else if c = '(' then .aggregate ')' cs none
    else if c = 'b' then .bitfield cs
    else if c = '^' then .pointer cs
    else .refused

/-- The two parsers. -/
inductive Mode
  | size
  | align
  deriving DecidableEq, Repr

/-- The case of `b`. -/
def endOfBitfield (abi : Abi) (callback : List Char → Except Fault (List Char)) (cs : List Char) :
    Mode → Except Fault (List Char)
  | .align => (callback (strtol abi cs).2).bind fun rest => .ok (strtol abi rest).2
  | .size =>
    match (strtol abi cs).2 with
    | [] => .error .pastEnd
    | _ :: rest => .ok (strtol abi rest).2

/-- The second reading of a structure. -/
def readAgain (abi : Abi) (type : List Char) : Mode → Except Fault (List Char)
  | .align => .ok type
  | .size => alignofEnd abi (type.length + 1) type

/-- `sizeof_type` or `alignof_type`. -/
def scan (abi : Abi) : Mode → ℕ → List Char → Except Fault (List Char)
  | .align => alignofEnd abi
  | .size => sizeofEnd abi

theorem endOfType_kind (callback bitfield again : List Char → Except Fault (List Char)) (abi : Abi)
    (type : List Char) : endOfType callback abi bitfield again type =
      match kind type with
      | .refused => .error .aborted
      | .read rest => .ok rest
      | .unfinished => .error .pastEnd
      | .object cs => endOfObject cs
      | .aggregate endchar cs none => endOfStructOrUnion callback cs endchar
      | .aggregate endchar cs (some t) =>
        (endOfStructOrUnion callback cs endchar).bind fun rest => (again t).bind fun _ => .ok rest
      | .array cs => endOfArray callback abi cs
      | .bitfield cs => bitfield cs
      | .pointer cs => callback cs := by
  rw [endOfType, kind]
  cases objcSkipTypeQualifiers type with
  | nil => rfl
  | cons c cs =>
    dsimp only
    split
    · rfl
    split
    · rfl
    split
    · rfl
    split
    · cases cs with
      | nil => rfl
      | cons d ds =>
        dsimp only
        split <;> rfl
    split
    · rfl
    split
    · rfl
    split
    · rfl
    split
    · rfl
    split
    · rfl
    · rfl

/-- One call. -/
theorem scan_succ (abi : Abi) (m : Mode) (fuel : ℕ) (type : List Char) : scan abi m (fuel + 1) type =
    match kind type with
    | .refused => .error .aborted
    | .read rest => .ok rest
    | .unfinished => .error .pastEnd
    | .object cs => endOfObject cs
    | .aggregate endchar cs none => endOfStructOrUnion (scan abi m fuel) cs endchar
    | .aggregate endchar cs (some t) =>
      (endOfStructOrUnion (scan abi m fuel) cs endchar).bind fun rest =>
      (readAgain abi t m).bind fun _ => .ok rest
    | .array cs => endOfArray (scan abi m fuel) abi cs
    | .bitfield cs => endOfBitfield abi (scan abi m fuel) cs m
    | .pointer cs => scan abi m fuel cs := by
  cases m with
  | align => exact endOfType_kind (alignofEnd abi fuel) _ _ abi type
  | size => exact endOfType_kind (sizeofEnd abi fuel) _ _ abi type

/-! ## Shorter strings -/

/-- What is left of a string of which something has been read. -/
def LeftOf (rest type : List Char) : Prop := rest <:+ type ∧ rest.length < type.length

theorem LeftOf.of_suffix {a b c : List Char} (h : a <:+ b) (h' : LeftOf b c) : LeftOf a c :=
  ⟨h.trans h'.1, Nat.lt_of_le_of_lt h.length_le h'.2⟩

theorem LeftOf.suffix_of {a b c : List Char} (h : LeftOf a b) (h' : b <:+ c) : LeftOf a c :=
  ⟨h.1.trans h', Nat.lt_of_lt_of_le h.2 h'.length_le⟩

theorem leftOf_cons (c : Char) (cs : List Char) : LeftOf cs (c :: cs) :=
  ⟨List.suffix_cons c cs, Nat.lt_succ_self _⟩

theorem objcSkipTypeQualifiers_suffix (type : List Char) : objcSkipTypeQualifiers type <:+ type :=
  List.dropWhile_suffix _

theorem strtol_suffix (abi : Abi) (s : List Char) : (strtol abi s).2 <:+ s := by
  have hspace := List.dropWhile_suffix (l := s) isSpace
  have hnumber : ∀ (t : List Char) (f : ℕ × List Char → ℤ × List Char), (∀ x, (f x).2 = x.2) → t <:+ s →
      (((if (t.takeWhile Char.isDigit).isEmpty then none
        else some (decimal (t.takeWhile Char.isDigit), t.dropWhile Char.isDigit)).map f).getD
            (0, s)).2 <:+ s := by
    intro t f hf ht
    split
    · exact List.suffix_refl s
    · rw [Option.map_some, Option.getD_some, hf]
      exact (List.dropWhile_suffix _).trans ht
  rw [strtol]
  split
  · rename_i t heq
    exact hnumber t _ (fun _ => rfl) ((List.suffix_cons '-' t).trans (heq ▸ hspace))
  · rename_i t heq
    exact hnumber t _ (fun _ => rfl) ((List.suffix_cons '+' t).trans (heq ▸ hspace))
  · exact hnumber _ _ (fun _ => rfl) hspace

theorem endOfText_leftOf {endchar : Char} : ∀ {cs rest : List Char}, endOfText endchar cs = .ok rest →
    LeftOf rest cs
  | [], _, h => by cases h
  | c :: cs, rest, h => by
    rw [endOfText] at h
    split at h
    · obtain rfl := Except.ok.inj h
      exact leftOf_cons c cs
    · exact (endOfText_leftOf h).suffix_of (List.suffix_cons c cs)

theorem endOfName_leftOf {endchar : Char} : ∀ {cs : List Char} {r : List Char ⊕ List Char},
    endOfName endchar cs = .ok r → LeftOf (r.elim id id) cs
  | [], _, h => by cases h
  | c :: cs, r, h => by
    rw [endOfName] at h
    split at h
    · obtain rfl := Except.ok.inj h
      exact leftOf_cons c cs
    · split at h
      · obtain rfl := Except.ok.inj h
        exact leftOf_cons c cs
      · exact (endOfName_leftOf h).suffix_of (List.suffix_cons c cs)

theorem endOfObject_suffix {cs rest : List Char} (h : endOfObject cs = .ok rest) : rest <:+ cs := by
  unfold endOfObject at h
  split at h
  · exact (endOfText_leftOf h).1.trans ((List.suffix_cons '<' _).trans (List.suffix_cons '?' _))
  · obtain rfl := Except.ok.inj h
    exact List.suffix_cons '?' _
  · exact (endOfText_leftOf h).1.trans (List.suffix_cons '\x22' _)
  · obtain rfl := Except.ok.inj h
    exact List.suffix_refl _

theorem memberType_suffix {type s : List Char} (h : memberType type = .ok s) : s <:+ type := by
  unfold memberType at h
  split at h
  · exact (endOfText_leftOf h).1.trans (List.suffix_cons '\x22' _)
  · obtain rfl := Except.ok.inj h
    exact List.suffix_refl _

/-- The strings of a case are left of the encoding. -/
def Kind.Within (type : List Char) : Kind → Prop
  | .refused | .unfinished => True
  | .read cs | .object cs | .array cs | .bitfield cs | .pointer cs => LeftOf cs type
  | .aggregate _ cs again => LeftOf cs type ∧ ∀ t ∈ again, t <:+ type

theorem kind_within (type : List Char) : (kind type).Within type := by
  have hskip := objcSkipTypeQualifiers_suffix type
  rw [kind]
  cases hq : objcSkipTypeQualifiers type with
  | nil => trivial
  | cons c cs =>
    rw [hq] at hskip
    have hcs : LeftOf cs type := (leftOf_cons c cs).suffix_of hskip
    have hagain : ∀ t ∈ some (c :: cs), t <:+ type := by
      intro t ht
      rw [← Option.some.inj ht]
      exact hskip
    dsimp only
    split
    · exact hcs
    split
    · exact hcs
    split
    · exact hcs
    split
    · cases cs with
      | nil => trivial
      | cons d ds =>
        have hds : LeftOf ds type := (leftOf_cons d ds).suffix_of hcs.1
        dsimp only
        split
        · exact hds
        · refine ⟨hds, fun t ht => ?_⟩
          rw [← Option.some.inj ht]
          exact hcs.1
    split
    · exact ⟨hcs, hagain⟩
    split
    · exact hcs
    split
    · exact ⟨hcs, fun t ht => (nomatch ht)⟩
    split
    · exact hcs
    split
    · exact hcs
    · trivial

end Libobjc2.Encoding
