import Libobjc2.Encoding.TypeTree

/-!
# The type parsers on well-formed encodings

What the shared parsers of `encoding2.c` do with the spelling of a type, for
any callback that moves behind the types it is given.

Results:

* `parseStructOrUnion_encode`, `parseArray_encode`: the callback is applied to
  the member types in their order, and once to the element type.
* `alignofType_encode`: `alignof_type` accumulates the C alignment.
* `objcAlignofType_encode`: `objc_alignof_type` is the C alignment of every
  well-formed type.
-/

namespace Libobjc2.Encoding

open Libobjc2.Alignment

/-! ## Characters -/

theorem skipPast_append {c : Char} {l : List Char} (h : c ∉ l) (rest : List Char) :
    skipPast c (l ++ c :: rest) = some rest := by
  induction l with
  | nil => simp [skipPast]
  | cons a l ih =>
    rw [List.mem_cons, not_or] at h
    simp only [List.cons_append, skipPast, if_neg (Ne.symm h.1), ih h.2]

theorem skipName_definition {endchar : Char} {l : List Char} (h : ∀ c ∈ ['=', endchar], c ∉ l)
    (hend : endchar ≠ '=')
    (rest : List Char) : skipName endchar (l ++ '=' :: rest) = some (.inr rest) := by
  induction l with
  | nil => simp [skipName, Ne.symm hend]
  | cons a l ih =>
    have ha : a ≠ endchar ∧ a ≠ '=' := by
      constructor
      · rintro rfl
        exact h a (by simp) (by simp)
      · rintro rfl
        exact h '=' (by simp) (by simp)
    have hl : ∀ c ∈ ['=', endchar], c ∉ l := fun c hc hm => h c hc (List.mem_cons_of_mem a hm)
    simp only [List.cons_append, skipName, if_neg ha.1, if_neg ha.2, ih hl]

theorem skipName_opaque {endchar : Char} {l : List Char} (h : ∀ c ∈ ['=', endchar], c ∉ l)
    (rest : List Char) :
    skipName endchar (l ++ endchar :: rest) = some (.inl rest) := by
  induction l with
  | nil => simp [skipName]
  | cons a l ih =>
    have ha : a ≠ endchar ∧ a ≠ '=' := by
      constructor
      · rintro rfl
        exact h a (by simp) (by simp)
      · rintro rfl
        exact h '=' (by simp) (by simp)
    have hl : ∀ c ∈ ['=', endchar], c ∉ l := fun c hc hm => h c hc (List.mem_cons_of_mem a hm)
    simp only [List.cons_append, skipName, if_neg ha.1, if_neg ha.2, ih hl]

theorem isSpace_of_isDigit {c : Char} (h : c.isDigit) : isSpace c = false := by
  rw [isSpace, decide_eq_false_iff_not]
  intro hc
  have hne : ∀ s ∈ [' ', '\t', '\n', '\x0b', '\x0c', '\r'], s.isDigit = false := by simp [Char.isDigit]
  rw [hne c hc] at h
  exact Bool.false_ne_true h

theorem takeWhile_digits {l rest : List Char} (hl : ∀ c ∈ l, c.isDigit)
    (h : ∀ c ∈ rest.head?, c.isDigit = false) :
    (l ++ rest).takeWhile Char.isDigit = l ∧ (l ++ rest).dropWhile Char.isDigit = rest := by
  rw [List.takeWhile_append_of_pos hl, List.dropWhile_append_of_pos hl]
  cases rest with
  | nil => simp
  | cons c cs =>
    have hc : c.isDigit = false := h c rfl
    simp [hc]

theorem strtol_numeral (abi : Abi) (n : Numeral) {rest : List Char}
    (h : ∀ c ∈ rest.head?, c.isDigit = false) :
    strtol abi (n.digits ++ rest) = (min (n.value : ℤ) abi.longMax, rest) := by
  obtain ⟨d, ds, hn⟩ := List.exists_cons_of_ne_nil n.ne_nil
  have hd : d.isDigit := n.isDigit d (by simp [hn])
  have hspace : (n.digits ++ rest).dropWhile isSpace = n.digits ++ rest := by
    simp [hn, isSpace_of_isDigit hd]
  obtain ⟨htake, hdrop⟩ := takeWhile_digits n.isDigit h
  unfold strtol
  rw [hspace]
  -- a number starts with no sign
  split
  · rename_i t heq
    rw [hn, List.cons_append, List.cons.injEq] at heq
    rw [heq.1] at hd
    exact absurd hd (by decide)
  · rename_i t heq
    rw [hn, List.cons_append, List.cons.injEq] at heq
    rw [heq.1] at hd
    exact absurd hd (by decide)
  · simp [htake, hdrop, n.ne_nil, Numeral.value]

/-! ## The start of an encoding -/

/-- The characters an encoding can start with. -/
def starters : List Char :=
  ['D', 'd', 'f', 'c', 'i', 's', 'l', 'q', 'C', 'S', 'I', 'L', 'Q', 'B', '#', ':', '*', 'j', '@',
    '^', '[', '{', '(']

theorem TypeEncoding.exists_starter (t : TypeEncoding) : ∃ c ∈ starters, ∃ cs, t.encode = c :: cs := by
  cases t with
  | arithmetic a => exact ⟨a.encodingChar, by cases a <;> decide, [], rfl⟩
  | object form => cases form <;> exact ⟨'@', by decide, _, rfl⟩
  | _ => exact ⟨_, by decide, _, rfl⟩

theorem TypeEncoding.length_encode_pos (t : TypeEncoding) : 0 < t.encode.length := by
  obtain ⟨c, -, cs, h⟩ := t.exists_starter
  rw [h]
  exact Nat.zero_lt_succ _

/-- The members without the name of the first one when it has been read already. -/
def Members.encodeFrom (read : Bool) : Members → List Char
  | .last name t => (if read then [] else encodeLabel name) ++ t.encode
  | .cons name t rest => (if read then [] else encodeLabel name) ++ (t.encode ++ rest.encode)

theorem Members.encodeFrom_false (ms : Members) : ms.encodeFrom false = ms.encode := by
  cases ms <;> simp [encodeFrom, encode]

/-- The members start with a quoted name or with a type. -/
theorem Members.encode_eq (ms : Members) : ∃ name t cs, ms.encode = encodeLabel name ++
    (TypeEncoding.encode t ++ cs) ∧
    ms.encodeFrom true = t.encode ++ cs := by
  cases ms with
  | last name t => exact ⟨name, t, [], by simp [encode], by simp [encodeFrom]⟩
  | cons name t rest => exact ⟨name, t, rest.encode, rfl, by simp [encodeFrom]⟩

theorem Members.follows (ms : Members) (rest : List Char) : Follows (ms.encode ++ rest) := by
  obtain ⟨name, t, cs, hms, -⟩ := ms.encode_eq
  rw [hms]
  cases name with
  | none =>
    obtain ⟨c, hc, ds, ht⟩ := t.exists_starter
    have hstart : ∀ c ∈ starters, c ≠ '?' ∧ c ≠ '<' ∧ c ≠ '\x22' := by simp [starters]
    obtain ⟨h1, h2, h3⟩ := hstart c hc
    intro d hd
    simp only [encodeLabel, Option.elim, List.nil_append, ht, List.cons_append, List.head?_cons,
      Option.mem_def,
      Option.some.injEq] at hd
    subst hd
    exact ⟨h1, h2, fun h => absurd h h3⟩
  | some name =>
    intro d hd
    simp only [encodeLabel, Option.elim, QuotedName.encode, List.cons_append, List.head?_cons, Option.mem_def,
      Option.some.injEq] at hd
    subst hd
    exact ⟨by decide, by decide, fun _ => by simp [encodeLabel, QuotedName.encode]⟩

theorem follows_cons {c : Char} (h : c ≠ '?' ∧ c ≠ '<' ∧ c ≠ '\x22') (rest : List Char) :
    Follows (c :: rest) := by
  intro d hd
  rw [List.head?_cons, Option.mem_def, Option.some.injEq] at hd
  subst hd
  exact ⟨h.1, h.2.1, fun hq => absurd hq h.2.2⟩

theorem follows_nil : Follows [] := fun _ h => absurd h (by simp)

theorem skipQuoted_cons {c : Char} (h : c ≠ '\x22') (rest : List Char) :
    skipQuoted (c :: rest) = c :: rest := by
  unfold skipQuoted
  split
  · rename_i heq
    rw [List.cons.injEq] at heq
    exact absurd heq.1 h
  · rfl

theorem TypeEncoding.after_cons (t : TypeEncoding) {c : Char} (h : c ≠ '\x22') (rest : List Char) :
    t.after (c :: rest) = c :: rest := by
  unfold after
  rw [skipQuoted_cons h, ite_self]

theorem skipQuoted_members (ms : Members) (rest : List Char) :
    skipQuoted (ms.encode ++ rest) = ms.encodeFrom true ++ rest := by
  obtain ⟨name, t, cs, hms, hfrom⟩ := ms.encode_eq
  rw [hms, hfrom]
  cases name with
  | none =>
    obtain ⟨c, hc, ds, ht⟩ := t.exists_starter
    have hq : ∀ c ∈ starters, c ≠ '\x22' := by simp [starters]
    simp only [encodeLabel, Option.elim, List.nil_append, ht, List.cons_append]
    exact skipQuoted_cons (hq c hc) _
  | some name =>
    have hskip := skipPast_append (name.notMem '\x22' (by simp)) (t.encode ++ cs ++ rest)
    simp only [encodeLabel, Option.elim, QuotedName.encode, skipQuoted, List.cons_append, List.append_assoc,
      List.nil_append] at hskip ⊢
    rw [hskip]
    rfl

theorem TypeEncoding.after_members (t : TypeEncoding) (ms : Members) (rest : List Char) :
    t.after (ms.encode ++ rest) = ms.encodeFrom t.endsInObject ++ rest := by
  unfold after
  cases t.endsInObject with
  | true => simpa using skipQuoted_members ms rest
  | false => simp [ms.encodeFrom_false]

/-! ## A callback on the parts of a type -/

/-- On the encoding of `t` the callback moves behind it and has this effect on its context. -/
def Parses {σ : Type} (callback : List Char → σ → Option (List Char × σ)) (effect : σ → σ)
    (t : TypeEncoding) :
    Prop :=
  ∀ rest, Follows rest → ∀ context, callback (t.encode ++ rest) context = some (t.after rest, effect context)

/-- The types of the members. -/
def Members.types : Members → List TypeEncoding
  | .last _ t => [t]
  | .cons _ t rest => t :: rest.types

theorem Members.length_types_le (ms : Members) (read : Bool) :
    ms.types.length ≤ (ms.encodeFrom read).length := by
  induction ms using Members.induct generalizing read with
  | last name t =>
    have := t.length_encode_pos
    simp only [types, encodeFrom, List.length_append, List.length_cons, List.length_nil]
    omega
  | cons name t rest ih =>
    have := t.length_encode_pos
    have := ih false
    rw [rest.encodeFrom_false] at this
    simp only [types, encodeFrom, List.length_append, List.length_cons]
    omega

section

variable {σ : Type} {callback : List Char → σ → Option (List Char × σ)}
    {effect : TypeEncoding → σ → σ} {endchar : Char}

/-- One turn of the loop over the members: the name is skipped, if it has not
been read, and the callback sees the type. -/
theorem parseMembers_step (hend : endchar ∉ '\x22' :: starters) (name : Option QuotedName) (t : TypeEncoding)
    (read : Bool) (n : ℕ) (cs : List Char) (context : σ) :
    parseMembers callback endchar (n + 1)
    ((if read then [] else encodeLabel name) ++ (t.encode ++ cs)) context =
      (callback (t.encode ++ cs) context).bind fun r => parseMembers callback endchar n r.1 r.2 := by
  obtain ⟨c, hc, ds, ht⟩ := t.exists_starter
  have hq : ∀ c ∈ starters, c ≠ '\x22' := by simp [starters]
  have hce : c ≠ endchar := fun h => hend (h ▸ List.mem_cons_of_mem _ hc)
  have hplain : parseMembers callback endchar (n + 1) (t.encode ++ cs) context =
      (callback (t.encode ++ cs) context).bind fun r => parseMembers callback endchar n r.1 r.2 := by
    rw [ht, List.cons_append, parseMembers, if_neg hce, if_neg (hq c hc)]
    rfl
  cases read with
  | true => simpa using hplain
  | false =>
    cases name with
    | none => simpa [encodeLabel] using hplain
    | some name =>
      have hqe : '\x22' ≠ endchar := fun h => hend (h ▸ List.mem_cons_self)
      have hskip := skipPast_append (name.notMem '\x22' (by simp)) (t.encode ++ cs)
      simp only [Bool.false_eq_true, if_false, encodeLabel, Option.elim, QuotedName.encode, List.cons_append,
        List.append_assoc, List.nil_append, parseMembers, if_neg hqe, if_true, hskip]
      rfl

theorem parseMembers_encode (hend : endchar ∉ '\x22' :: '?' :: '<' :: starters) (ms : Members)
    (h : ∀ t ∈ ms.types, Parses callback (effect t) t) (read : Bool) (rest : List Char) (context : σ) (n : ℕ)
    (hn : ms.types.length < n) :
    parseMembers callback endchar n (ms.encodeFrom read ++ endchar :: rest) context =
      some (rest, ms.types.foldl (fun c t => effect t c) context) := by
  have hstart : endchar ∉ '\x22' :: starters := fun hm => hend (by simp at hm ⊢; tauto)
  have hne : endchar ≠ '?' ∧ endchar ≠ '<' ∧ endchar ≠ '\x22' := by
    simp only [List.mem_cons, not_or] at hend
    exact ⟨hend.2.1, hend.2.2.1, hend.1⟩
  induction ms using Members.induct generalizing read context n with
  | last name t =>
    obtain ⟨m, rfl⟩ : ∃ m, n = m + 2 := ⟨n - 2, by simp [Members.types] at hn; omega⟩
    have ht := h t (by simp [Members.types]) (endchar :: rest) (follows_cons hne rest) context
    rw [Members.encodeFrom, List.append_assoc, parseMembers_step hstart, ht, t.after_cons hne.2.2]
    simp [parseMembers, Members.types]
  | cons name t more ih =>
    obtain ⟨m, rfl⟩ : ∃ m, n = m + 1 := ⟨n - 1, by omega⟩
    have ht := h t (by simp [Members.types]) (more.encode ++ endchar :: rest) (more.follows _) context
    have hmore := ih (fun t' ht' => h t' (List.mem_cons_of_mem _ ht')) t.endsInObject (effect t context) m
      (by simp [Members.types] at hn; omega)
    rw [Members.encodeFrom, List.append_assoc, List.append_assoc, parseMembers_step hstart, ht,
      t.after_members]
    exact hmore

/-- A structure or union is its members, one after the other. -/
theorem parseStructOrUnion_encode (hend : endchar ∉ '\x22' :: '?' :: '<' :: '=' :: starters)
    (name : NameWithout ['=', endchar]) (ms : Members) (h : ∀ t ∈ ms.types, Parses callback (effect t) t)
    (rest : List Char) (context : σ) :
    parseStructOrUnion callback (name.chars ++ '=' :: (ms.encode ++ endchar :: rest)) context endchar =
      some (rest, ms.types.foldl (fun c t => effect t c) context) := by
  have hend' : endchar ∉ '\x22' :: '?' :: '<' :: starters := fun hm => hend (by simp at hm ⊢; tauto)
  have heq : endchar ≠ '=' := by
    simp only [List.mem_cons, not_or] at hend
    exact hend.2.2.2.1
  have hlen := ms.length_types_le false
  have hmembers := parseMembers_encode hend' ms h false rest context
      ((ms.encode ++ endchar :: rest).length + 1) (by
    rw [ms.encodeFrom_false] at hlen
    rw [List.length_append]
    omega)
  rw [ms.encodeFrom_false] at hmembers
  rw [parseStructOrUnion, skipName_definition name.notMem heq]
  exact hmembers

theorem parseStructOrUnion_opaque (name : NameWithout ['=', endchar]) (rest : List Char) (context : σ) :
    parseStructOrUnion callback (name.chars ++ endchar :: rest) context endchar = some (rest, context) := by
  rw [parseStructOrUnion, skipName_opaque name.notMem]

theorem parseArray_encode (abi : Abi) (count : Numeral) (t : TypeEncoding) {effect : σ → σ}
    (h : Parses callback effect t) (rest : List Char) (context : σ) :
    parseArray callback abi (count.digits ++ (t.encode ++ ']' :: rest)) context =
      some (toInt (min (count.value : ℤ) abi.longMax), rest, effect context) := by
  have hhead : ∀ c ∈ (t.encode ++ ']' :: rest).head?, c.isDigit = false := by
    obtain ⟨c, hc, cs, ht⟩ := t.exists_starter
    have hstart : ∀ c ∈ starters, c.isDigit = false := by simp [starters, Char.isDigit]
    intro d hd
    rw [ht, List.cons_append, List.head?_cons, Option.mem_def, Option.some.injEq] at hd
    exact hd ▸ hstart c hc
  have ht := h (']' :: rest) (follows_cons (by decide) rest) context
  rw [t.after_cons (by decide)] at ht
  simp only [parseArray, strtol_numeral abi count hhead, ht, Option.bind_eq_bind, Option.bind_some]

end

theorem skipObjectExtendedQualifiers_follows {rest : List Char} (h : Follows rest) :
    skipObjectExtendedQualifiers rest = some (skipQuoted rest) := by
  unfold skipObjectExtendedQualifiers
  split
  · exact absurd rfl (h '?' rfl).1
  · exact absurd rfl (h '?' rfl).1
  · rename_i cs
    have hmem : '\x22' ∈ cs := (h '\x22' rfl).2.2 rfl
    obtain ⟨l, r, rfl, hnot⟩ := List.eq_append_cons_of_mem hmem
    rw [skipQuoted, skipPast_append hnot]
    rfl
  · rename_i hq
    unfold skipQuoted
    split
    · exact absurd rfl (hq _)
    · rfl

theorem skipObjectExtendedQualifiers_named (className : QuotedName) (rest : List Char) :
    skipObjectExtendedQualifiers (className.encode ++ rest) = some rest := by
  have h := skipPast_append (className.notMem '\x22' (by simp)) rest
  simpa [QuotedName.encode, skipObjectExtendedQualifiers] using h

theorem skipObjectExtendedQualifiers_block {rest : List Char} (h : Follows rest) :
    skipObjectExtendedQualifiers ('?' :: rest) = some rest := by
  unfold skipObjectExtendedQualifiers
  split
  · rename_i heq
    exact absurd rfl (h '<' (by rw [(List.cons.inj heq).2]; rfl)).2.1
  · rename_i heq
    rw [(List.cons.inj heq).2]
  · rename_i heq
    exact absurd (List.cons.inj heq).1 (by decide)
  · rename_i hq _
    exact absurd rfl (hq rest)

/-- The object encodings are read up to their end. -/
theorem skipObjectExtendedQualifiers_encode (form : ObjectForm) {rest : List Char} (h : Follows rest) :
    skipObjectExtendedQualifiers (form.encode.tail ++ rest) =
    some ((TypeEncoding.object form).after rest) := by
  cases form with
  | any => exact skipObjectExtendedQualifiers_follows h
  | named className => exact skipObjectExtendedQualifiers_named className rest
  | block => exact skipObjectExtendedQualifiers_block h

/-- What is left behind a pointer. -/
def Pointee.after (p : Pointee) (rest : List Char) : List Char :=
  match p with
  | .type t => t.after rest
  | _ => rest

theorem TypeEncoding.after_pointer (p : Pointee) (rest : List Char) :
    (TypeEncoding.pointer p).after rest = p.after rest := by
  cases p <;> rfl

/-! ## `objc_alignof_type` -/

theorem alignofType_object (abi : Abi) (fuel : ℕ) (form : ObjectForm) {rest : List Char}
    (h : Follows rest) (a : ℕ) :
    alignofType abi (fuel + 1) ((TypeEncoding.object form).encode ++ rest) a =
      some ((TypeEncoding.object form).after rest, max (abi.alignof .id * 8) a) := by
  have hskip := skipObjectExtendedQualifiers_encode form h
  have hform : (TypeEncoding.object form).encode = '@' :: form.encode.tail := by cases form <;> rfl
  have hcase : alignofType abi (fuel + 1) ('@' :: (form.encode.tail ++ rest)) a =
      (skipObjectExtendedQualifiers (form.encode.tail ++ rest)).bind
        fun rest => some (rest, max (abi.alignof .id * 8) a) := rfl
  rw [hform, List.cons_append, hcase, hskip]
  rfl

theorem foldl_max_align (abi : Abi) (ms : Members) (a : ℕ) :
    ms.types.foldl (fun c t => max (t.align abi * 8) c) a = max (ms.align abi * 8) a := by
  induction ms using Members.induct generalizing a with
  | last name t => rfl
  | cons name t rest ih =>
    rw [Members.types, List.foldl_cons, ih, Members.align]
    omega

mutual

/-- `alignof_type` accumulates the C alignment of every type. -/
theorem alignofType_encode (abi : Abi) : ∀ (t : TypeEncoding) (fuel : ℕ), t.encode.length ≤ fuel →
    Parses (alignofType abi fuel) (fun a => max (t.align abi * 8) a) t
  | .arithmetic a, fuel + 1, _ => by
    intro rest _ context
    cases a <;> rfl
  | .bool, fuel + 1, _ | .classPointer, fuel + 1, _ | .sel, fuel + 1, _ | .cString, fuel + 1, _ =>
      fun _ _ _ => rfl
  | .complex a, fuel + 1, _ => by
    intro rest _ context
    cases a <;> rfl
  | .object form, fuel + 1, _ => fun rest hr context => alignofType_object abi fuel form hr context
  | .pointer p, fuel + 1, h => by
    intro rest hr context
    obtain ⟨a, ha⟩ := alignofType_pointee abi p fuel (by simpa [TypeEncoding.encode] using h) rest hr 0
    have hcase : alignofType abi (fuel + 1) ('^' :: (p.encode ++ rest)) context =
        (alignofType abi fuel (p.encode ++ rest) 0).bind
          fun r => some (r.1, max (abi.alignof .voidPointer * 8) context) := rfl
    rw [TypeEncoding.encode, List.cons_append, hcase, ha, TypeEncoding.after_pointer]
    rfl
  | .array count t, fuel + 1, h => by
    intro rest hr context
    have ht := alignofType_encode abi t fuel (by simp [TypeEncoding.encode] at h; omega)
    have hcase (cs : List Char) : alignofType abi (fuel + 1) ('[' :: cs) context =
        (parseArray (alignofType abi fuel) abi cs context).bind fun r => some (r.2.1, r.2.2) := rfl
    rw [TypeEncoding.encode, List.cons_append, List.append_assoc, List.append_assoc, hcase]
    rw [List.singleton_append, parseArray_encode abi count t ht]
    rfl
  | .struct name ms, fuel + 1, h => by
    intro rest hr context
    have hms := alignofType_members abi ms fuel (by simp [TypeEncoding.encode] at h; omega)
    have hcase (cs : List Char) : alignofType abi (fuel + 1) ('{' :: cs) context =
        parseStructOrUnion (alignofType abi fuel) cs context '}' := rfl
    rw [TypeEncoding.encode, List.cons_append, List.append_assoc, List.cons_append, List.append_assoc, hcase]
    rw [List.singleton_append, parseStructOrUnion_encode (by decide) name ms hms, foldl_max_align]
    rfl
  | .union name ms, fuel + 1, h => by
    intro rest hr context
    have hms := alignofType_members abi ms fuel (by simp [TypeEncoding.encode] at h; omega)
    have hcase (cs : List Char) : alignofType abi (fuel + 1) ('(' :: cs) context =
        parseStructOrUnion (alignofType abi fuel) cs context ')' := rfl
    rw [TypeEncoding.encode, List.cons_append, List.append_assoc, List.cons_append, List.append_assoc, hcase]
    rw [List.singleton_append, parseStructOrUnion_encode (by decide) name ms hms, foldl_max_align]
    rfl
  | t, 0, h => absurd t.length_encode_pos (by omega)

theorem alignofType_pointee (abi : Abi) : ∀ (p : Pointee) (fuel : ℕ), p.encode.length ≤ fuel →
    ∀ rest, Follows rest →
    ∀ a, ∃ a', alignofType abi fuel (p.encode ++ rest) a = some (p.after rest, a')
  | .void, fuel + 1, _, rest, _, a => ⟨a, rfl⟩
  | .function, fuel + 1, _, rest, _, a => ⟨a, rfl⟩
  | .opaqueStruct name, fuel + 1, _, rest, _, a => by
    have hcase (cs : List Char) : alignofType abi (fuel + 1) ('{' :: cs) a =
        parseStructOrUnion (alignofType abi fuel) cs a '}' := rfl
    refine ⟨a, ?_⟩
    rw [Pointee.encode, List.cons_append, List.append_assoc, hcase, List.singleton_append,
      parseStructOrUnion_opaque]
    rfl
  | .opaqueUnion name, fuel + 1, _, rest, _, a => by
    have hcase (cs : List Char) : alignofType abi (fuel + 1) ('(' :: cs) a =
        parseStructOrUnion (alignofType abi fuel) cs a ')' := rfl
    refine ⟨a, ?_⟩
    rw [Pointee.encode, List.cons_append, List.append_assoc, hcase, List.singleton_append,
      parseStructOrUnion_opaque]
    rfl
  | .type t, fuel, h, rest, hr, a => ⟨_, alignofType_encode abi t fuel h rest hr a⟩
  | .void, 0, h, _, _, _ | .function, 0, h, _, _, _ | .opaqueStruct _, 0, h, _, _, _
  | .opaqueUnion _, 0, h, _, _, _ => absurd h (by simp [Pointee.encode])

theorem alignofType_members (abi : Abi) : ∀ (ms : Members) (fuel : ℕ), ms.encode.length ≤ fuel →
    ∀ t ∈ ms.types, Parses (alignofType abi fuel) (fun a => max (t.align abi * 8) a) t
  | .last _ t, fuel, h, t', ht' => by
    rw [Members.types, List.mem_singleton] at ht'
    subst ht'
    exact alignofType_encode abi t' fuel (by simp [Members.encode] at h; omega)
  | .cons _ t rest, fuel, h, t', ht' => by
    simp only [Members.encode, List.length_append] at h
    rw [Members.types, List.mem_cons] at ht'
    rcases ht' with rfl | ht'
    · exact alignofType_encode abi t' fuel (by omega)
    · exact alignofType_members abi rest fuel (by omega) t' ht'

end

/-- `objc_alignof_type` is the C alignment, whatever follows the type. -/
theorem objcAlignofType_encode (abi : Abi) (t : TypeEncoding) {rest : List Char} (h : Follows rest) :
    objcAlignofType abi (t.encode ++ rest) = some (t.align abi) := by
  have ht := alignofType_encode abi t (t.encode ++ rest).length (by simp) rest h 0
  rw [objcAlignofType, ht]
  simp

end Libobjc2.Encoding
