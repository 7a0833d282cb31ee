import Libobjc2.Encoding.Layout
import Libobjc2.Encoding.ParserPositions

/-!
# Where the type parsers stop

What `sizeof_type` and `alignof_type` (encoding2.c, lines 90–380) do at the end of any string.

Results:
* `scan_explained`: what an outcome of the parsers says about the string.
* `readsAll`, `Reaches.scan`: the converse.
* `sizeofType_end`: the positions are those of `sizeofType`.
* `stays_inside_iff`: the parsers stay in the string if and only if they come to no encoding that the string
  cuts short.
-/

namespace Libobjc2.Encoding

/-! ## What is read, and what is cut short -/

mutual

/-- The encoding is read up to `rest`. -/
inductive Reads (abi : Abi) : Mode → List Char → List Char → Prop
  | plain {m : Mode} {type rest : List Char} : kind type = .read rest → Reads abi m type rest
  | object {m : Mode} {type cs rest : List Char} : kind type = .object cs → endOfObject cs = .ok rest →
      Reads abi m type rest
  | union {m : Mode} {endchar : Char} {type cs rest : List Char} : kind type = .aggregate endchar cs none →
      ReadsBody abi m endchar cs rest → Reads abi m type rest
  | struct {endchar : Char} {type cs t rest : List Char} : kind type = .aggregate endchar cs (some t) →
      ReadsBody abi .align endchar cs rest → Reads abi .align type rest
  | measured {endchar : Char} {type cs t t' rest : List Char} : kind type = .aggregate endchar cs (some t) →
      ReadsBody abi .size endchar cs rest → Reads abi .align t t' → Reads abi .size type rest
  | array {m : Mode} {c : Char} {type cs rest : List Char} : kind type = .array cs →
      Reads abi m (strtol abi cs).2 (c :: rest) → Reads abi m type rest
  | bits {c : Char} {type cs rest : List Char} : kind type = .bitfield cs → (strtol abi cs).2 = c :: rest →
      Reads abi .size type (strtol abi rest).2
  | container {type cs rest : List Char} : kind type = .bitfield cs →
      Reads abi .align (strtol abi cs).2 rest → Reads abi .align type (strtol abi rest).2
  | pointer {m : Mode} {type cs rest : List Char} : kind type = .pointer cs → Reads abi m cs rest →
      Reads abi m type rest

/-- The structure or union, behind its bracket, is read up to `rest`. -/
inductive ReadsBody (abi : Abi) : Mode → Char → List Char → List Char → Prop
  | undefined {m : Mode} {endchar : Char} {cs rest : List Char} : endOfName endchar cs = .ok (.inl rest) →
      ReadsBody abi m endchar cs rest
  | definition {m : Mode} {endchar : Char} {cs members rest : List Char} :
      endOfName endchar cs = .ok (.inr members) → Comes abi m endchar members (endchar :: rest) →
      ReadsBody abi m endchar cs rest

/-- The loop over the members comes from the one string to the other. -/
inductive Comes (abi : Abi) : Mode → Char → List Char → List Char → Prop
  | refl {m : Mode} {endchar : Char} (type : List Char) : Comes abi m endchar type type
  | next {m : Mode} {endchar : Char} {type s rest type' : List Char} : type.head? ≠ some endchar →
      memberType type = .ok s → Reads abi m s rest → Comes abi m endchar rest type' →
      Comes abi m endchar type type'

end

mutual

theorem Reads.leftOf {abi : Abi} {m : Mode} {type rest : List Char} : Reads abi m type rest → LeftOf rest type
  | .plain hk => by
    have h := kind_within type
    rw [hk] at h
    exact h
  | .object hk hrest => by
    have h := kind_within type
    rw [hk] at h
    exact h.of_suffix (endOfObject_suffix hrest)
  | .union hk hbody => by
    have h := kind_within type
    rw [hk] at h
    exact hbody.leftOf.suffix_of h.1.1
  | .struct hk hbody => by
    have h := kind_within type
    rw [hk] at h
    exact hbody.leftOf.suffix_of h.1.1
  | .measured hk hbody _ => by
    have h := kind_within type
    rw [hk] at h
    exact hbody.leftOf.suffix_of h.1.1
  | .array hk helement => by
    have h := kind_within type
    rw [hk] at h
    exact ((leftOf_cons _ _).suffix_of helement.leftOf.1).suffix_of ((strtol_suffix abi _).trans h.1)
  | .bits hk hrest => by
    have h := kind_within type
    rw [hk] at h
    have hcs := hrest ▸ strtol_suffix abi _
    exact ((leftOf_cons _ _).suffix_of (hcs.trans h.1)).of_suffix (strtol_suffix abi _)
  | .container hk helement => by
    have h := kind_within type
    rw [hk] at h
    exact (helement.leftOf.suffix_of ((strtol_suffix abi _).trans h.1)).of_suffix (strtol_suffix abi _)
  | .pointer hk hreferent => by
    have h := kind_within type
    rw [hk] at h
    exact hreferent.leftOf.suffix_of h.1

theorem ReadsBody.leftOf {abi : Abi} {m : Mode} {endchar : Char} {cs rest : List Char} :
    ReadsBody abi m endchar cs rest → LeftOf rest cs
  | .undefined hname => endOfName_leftOf hname
  | .definition hname hmembers =>
    (leftOf_cons _ _).suffix_of (hmembers.suffix.trans (endOfName_leftOf hname).1)

theorem Comes.suffix {abi : Abi} {m : Mode} {endchar : Char} {type type' : List Char} :
    Comes abi m endchar type type' → type' <:+ type
  | .refl type => List.suffix_refl type
  | .next _ hs hread hcomes => hcomes.suffix.trans (hread.leftOf.1.trans (memberType_suffix hs))

end

/-- The parser comes to an encoding, which it reads as the second mode says. -/
inductive Reaches (abi : Abi) : Mode → List Char → Mode → List Char → Prop
  | here {m : Mode} {type : List Char} : Reaches abi m type m type
  | element {m m' : Mode} {type cs p : List Char} : kind type = .array cs →
      Reaches abi m (strtol abi cs).2 m' p → Reaches abi m type m' p
  | container {m' : Mode} {type cs p : List Char} : kind type = .bitfield cs →
      Reaches abi .align (strtol abi cs).2 m' p → Reaches abi .align type m' p
  | referent {m m' : Mode} {type cs p : List Char} : kind type = .pointer cs → Reaches abi m cs m' p →
      Reaches abi m type m' p
  | member {m m' : Mode} {endchar : Char} {type cs members q s p : List Char} {again : Option (List Char)} :
      kind type = .aggregate endchar cs again → endOfName endchar cs = .ok (.inr members) →
      Comes abi m endchar members q → q.head? ≠ some endchar → memberType q = .ok s →
      Reaches abi m s m' p → Reaches abi m type m' p
  | again {m' : Mode} {endchar : Char} {type cs t rest p : List Char} :
      kind type = .aggregate endchar cs (some t) → ReadsBody abi .size endchar cs rest →
      Reaches abi .align t m' p → Reaches abi .size type m' p

/-- The end of the string cuts the encoding short where the parser does not look for it: behind a `j`, in
    the text of an object, in the name of a structure or union, in the name of a member, in front of the
    bracket that ends an array, or, for `sizeof_type`, in front of the type of a bit-field. -/
inductive CutShort (abi : Abi) : Mode → List Char → Prop
  | complex {m : Mode} {type : List Char} : kind type = .unfinished → CutShort abi m type
  | signature {m : Mode} {type cs : List Char} : kind type = .object ('?' :: '<' :: cs) → '>' ∉ cs →
      CutShort abi m type
  | className {m : Mode} {type cs : List Char} : kind type = .object ('\x22' :: cs) → '\x22' ∉ cs →
      CutShort abi m type
  | name {m : Mode} {endchar : Char} {type cs : List Char} {again : Option (List Char)} :
      kind type = .aggregate endchar cs again → endchar ∉ cs → '=' ∉ cs → CutShort abi m type
  | label {m : Mode} {endchar : Char} {type cs members q : List Char} {again : Option (List Char)} :
      kind type = .aggregate endchar cs again → endOfName endchar cs = .ok (.inr members) →
      Comes abi m endchar members ('\x22' :: q) → endchar ≠ '\x22' → '\x22' ∉ q → CutShort abi m type
  | bracket {m : Mode} {type cs : List Char} : kind type = .array cs → Reads abi m (strtol abi cs).2 [] →
      CutShort abi m type
  | bits {type cs : List Char} : kind type = .bitfield cs → (strtol abi cs).2 = [] → CutShort abi .size type

/-- The parser comes to an encoding that is cut short. -/
def ComesToCut (abi : Abi) (m : Mode) (type : List Char) : Prop :=
  ∃ m' p, Reaches abi m type m' p ∧ CutShort abi m' p

/-! ## Past the end of a text -/

theorem endOfText_eq_pastEnd {endchar : Char} : ∀ {cs : List Char},
    endOfText endchar cs = .error .pastEnd ↔ endchar ∉ cs
  | [] => iff_of_true rfl List.not_mem_nil
  | c :: cs => by
    rw [endOfText, List.mem_cons, not_or]
    split
    · rename_i heq
      exact iff_of_false (by simp) fun h => h.1 heq.symm
    · rename_i hne
      rw [endOfText_eq_pastEnd]
      exact ⟨fun h => ⟨fun heq => hne heq.symm, h⟩, fun h => h.2⟩

theorem endOfText_cases (endchar : Char) (cs : List Char) :
    (∃ rest, endOfText endchar cs = .ok rest) ∨ endOfText endchar cs = .error .pastEnd := by
  induction cs with
  | nil => exact .inr rfl
  | cons c cs ih =>
    rw [endOfText]
    split
    · exact .inl ⟨cs, rfl⟩
    · exact ih

theorem endOfName_eq_pastEnd {endchar : Char} : ∀ {cs : List Char},
    endOfName endchar cs = .error .pastEnd ↔ endchar ∉ cs ∧ '=' ∉ cs
  | [] => iff_of_true rfl ⟨List.not_mem_nil, List.not_mem_nil⟩
  | c :: cs => by
    rw [endOfName, List.mem_cons, not_or, List.mem_cons, not_or]
    split
    · rename_i heq
      exact iff_of_false (by simp) fun h => h.1.1 heq.symm
    · rename_i hne
      split
      · rename_i heq
        exact iff_of_false (by simp) fun h => h.2.1 heq.symm
      · rename_i hne'
        rw [endOfName_eq_pastEnd]
        exact ⟨fun h => ⟨⟨fun heq => hne heq.symm, h.1⟩, fun heq => hne' heq.symm, h.2⟩,
          fun h => ⟨h.1.2, h.2.2⟩⟩

theorem endOfName_cases (endchar : Char) (cs : List Char) :
    (∃ r, endOfName endchar cs = .ok r) ∨ endOfName endchar cs = .error .pastEnd := by
  induction cs with
  | nil => exact .inr rfl
  | cons c cs ih =>
    rw [endOfName]
    split
    · exact .inl ⟨_, rfl⟩
    · split
      · exact .inl ⟨_, rfl⟩
      · exact ih

theorem endOfObject_cases (cs : List Char) : (∃ rest, endOfObject cs = .ok rest) ∨
    (endOfObject cs = .error .pastEnd ∧
      ((∃ t, cs = '?' :: '<' :: t ∧ '>' ∉ t) ∨ ∃ t, cs = '\x22' :: t ∧ '\x22' ∉ t)) := by
  unfold endOfObject
  split
  · rename_i t
    rcases endOfText_cases '>' t with hok | hpast
    · exact .inl hok
    · exact .inr ⟨hpast, .inl ⟨t, rfl, endOfText_eq_pastEnd.mp hpast⟩⟩
  · exact .inl ⟨_, rfl⟩
  · rename_i t
    rcases endOfText_cases '\x22' t with hok | hpast
    · exact .inl hok
    · exact .inr ⟨hpast, .inr ⟨t, rfl, endOfText_eq_pastEnd.mp hpast⟩⟩
  · exact .inl ⟨_, rfl⟩

theorem memberType_cases (type : List Char) : (∃ s, memberType type = .ok s) ∨
    (memberType type = .error .pastEnd ∧ ∃ t, type = '\x22' :: t ∧ '\x22' ∉ t) := by
  unfold memberType
  split
  · rename_i t
    rcases endOfText_cases '\x22' t with hok | hpast
    · exact .inl hok
    · exact .inr ⟨hpast, t, rfl, endOfText_eq_pastEnd.mp hpast⟩
  · exact .inl ⟨_, rfl⟩

/-! ## Outcomes of the parsers are explained -/

/-- What the outcome of a parser for the mode says. -/
structure Explained (abi : Abi) (m : Mode) (callback : List Char → Except Fault (List Char)) : Prop where
  reads : ∀ type rest, callback type = .ok rest → Reads abi m type rest
  cut : ∀ type, callback type = .error .pastEnd → ComesToCut abi m type

section

variable {abi : Abi} {m : Mode} {callback : List Char → Except Fault (List Char)} {endchar : Char}

theorem bind_eq_ok {α β : Type} {x : Except Fault α} {f : α → Except Fault β} {b : β}
    (h : x.bind f = .ok b) : ∃ a, x = .ok a ∧ f a = .ok b := by
  cases x with
  | error e => cases h
  | ok a => exact ⟨a, rfl, h⟩

theorem bind_eq_error {α β : Type} {x : Except Fault α} {f : α → Except Fault β} {e : Fault}
    (h : x.bind f = .error e) : x = .error e ∨ ∃ a, x = .ok a ∧ f a = .error e := by
  cases x with
  | error e' =>
    have h : (Except.error e' : Except Fault β) = .error e := h
    exact .inl (congrArg Except.error (Except.error.inj h))
  | ok a => exact .inr ⟨a, rfl, h⟩

theorem Explained.members_ok (h : Explained abi m callback) : ∀ {n : ℕ} {type rest : List Char},
    endOfMembers callback endchar n type = .ok rest → Comes abi m endchar type (endchar :: rest)
  | 0, _, _, hrun => by cases hrun
  | n + 1, type, rest, hrun => by
    rw [endOfMembers] at hrun
    split at hrun
    · rename_i hhead
      obtain rfl := Except.ok.inj hrun
      obtain ⟨t, rfl⟩ := List.head?_eq_some_iff.mp hhead
      exact .refl _
    · rename_i hhead
      obtain ⟨s, hs, hrun⟩ := bind_eq_ok hrun
      obtain ⟨r, hr, hrun⟩ := bind_eq_ok hrun
      exact .next hhead hs (h.reads s r hr) (h.members_ok hrun)

theorem Explained.members_cut (h : Explained abi m callback) : ∀ {n : ℕ} {type : List Char},
    endOfMembers callback endchar n type = .error .pastEnd →
    ∃ q, Comes abi m endchar type q ∧ q.head? ≠ some endchar ∧
      (memberType q = .error .pastEnd ∨ ∃ s, memberType q = .ok s ∧ ComesToCut abi m s)
  | 0, _, hrun => by cases hrun
  | n + 1, type, hrun => by
    rw [endOfMembers] at hrun
    split at hrun
    · cases hrun
    · rename_i hhead
      rcases bind_eq_error hrun with hs | ⟨s, hs, hrun⟩
      · exact ⟨type, .refl type, hhead, .inl hs⟩
      · rcases bind_eq_error hrun with hr | ⟨r, hr, hrun⟩
        · exact ⟨type, .refl type, hhead, .inr ⟨s, hs, h.cut s hr⟩⟩
        · obtain ⟨q, hcomes, hq, hcut⟩ := h.members_cut hrun
          exact ⟨q, .next hhead hs (h.reads s r hr) hcomes, hq, hcut⟩

theorem Explained.body_ok (h : Explained abi m callback) {cs rest : List Char}
    (hrun : endOfStructOrUnion callback cs endchar = .ok rest) : ReadsBody abi m endchar cs rest := by
  obtain ⟨r, hname, hrun⟩ := bind_eq_ok hrun
  cases r with
  | inl t =>
    obtain rfl := Except.ok.inj hrun
    exact .undefined hname
  | inr members => exact .definition hname (h.members_ok hrun)

theorem Explained.body_cut (h : Explained abi m callback) {type cs : List Char} {again : Option (List Char)}
    (hk : kind type = .aggregate endchar cs again)
    (hrun : endOfStructOrUnion callback cs endchar = .error .pastEnd) : ComesToCut abi m type := by
  rcases bind_eq_error hrun with hname | ⟨r, hname, hrun⟩
  · obtain ⟨hend, heq⟩ := endOfName_eq_pastEnd.mp hname
    exact ⟨m, type, .here, .name hk hend heq⟩
  · cases r with
    | inl t => cases hrun
    | inr members =>
      obtain ⟨q, hcomes, hq, hcut⟩ := h.members_cut hrun
      rcases hcut with hlabel | ⟨s, hs, m', p, hreach, hcut⟩
      · obtain ⟨s, hs⟩ | ⟨-, t, rfl, ht⟩ := memberType_cases q
        · rw [hs] at hlabel
          cases hlabel
        · exact ⟨m, type, .here, .label hk hname hcomes (fun he => hq (by rw [he]; rfl)) ht⟩
      · exact ⟨m', p, .member hk hname hcomes hq hs hreach, hcut⟩

end

/-- Every outcome but `abort()` is explained. -/
theorem scan_explained (abi : Abi) : ∀ (m : Mode) (fuel : ℕ), Explained abi m (scan abi m fuel) := by
  -- the second reading of a structure is one by `alignof_type`
  have hstep : ∀ (m : Mode) (fuel : ℕ), Explained abi m (scan abi m fuel) →
      (m = .size → ∀ fuel, Explained abi .align (scan abi .align fuel)) →
      Explained abi m (scan abi m (fuel + 1)) := by
    intro m fuel ih halign
    constructor
    · intro type rest hrun
      rw [scan_succ] at hrun
      split at hrun
      · cases hrun
      · rename_i hk
        obtain rfl := Except.ok.inj hrun
        exact .plain hk
      · cases hrun
      · rename_i hk
        exact .object hk hrun
      · rename_i hk
        exact .union hk (ih.body_ok hrun)
      · rename_i hk
        obtain ⟨r, hbody, hrun⟩ := bind_eq_ok hrun
        obtain ⟨t', hagain, hrun⟩ := bind_eq_ok hrun
        obtain rfl := Except.ok.inj hrun
        cases m with
        | align => exact .struct hk (ih.body_ok hbody)
        | size => exact .measured hk (ih.body_ok hbody) ((halign rfl _).reads _ _ hagain)
      · rename_i hk
        obtain ⟨r, helement, hrun⟩ := bind_eq_ok hrun
        cases r with
        | nil => cases hrun
        | cons c r =>
          obtain rfl := Except.ok.inj hrun
          exact .array hk (ih.reads _ _ helement)
      · rename_i hk
        cases m with
        | align =>
          obtain ⟨r, helement, hrun⟩ := bind_eq_ok hrun
          obtain rfl := Except.ok.inj hrun
          exact .container hk (ih.reads _ _ helement)
        | size =>
          rw [endOfBitfield] at hrun
          split at hrun
          · cases hrun
          · rename_i hrest
            obtain rfl := Except.ok.inj hrun
            exact .bits hk hrest
      · rename_i hk
        exact .pointer hk (ih.reads _ _ hrun)
    · intro type hrun
      rw [scan_succ] at hrun
      split at hrun
      · cases hrun
      · cases hrun
      · rename_i hk
        exact ⟨m, type, .here, .complex hk⟩
      · rename_i cs hk
        obtain ⟨r, hr⟩ | ⟨-, ⟨t, rfl, ht⟩ | ⟨t, rfl, ht⟩⟩ := endOfObject_cases cs
        · rw [hr] at hrun
          cases hrun
        · exact ⟨m, type, .here, .signature hk ht⟩
        · exact ⟨m, type, .here, .className hk ht⟩
      · rename_i hk
        exact ih.body_cut hk hrun
      · rename_i hk
        rcases bind_eq_error hrun with hbody | ⟨r, hbody, hrun⟩
        · exact ih.body_cut hk hbody
        · cases m with
          | align => cases hrun
          | size =>
            rcases bind_eq_error hrun with hagain | ⟨t', hagain, hrun⟩
            · obtain ⟨m', p, hreach, hcut⟩ := (halign rfl _).cut _ hagain
              exact ⟨m', p, .again hk (ih.body_ok hbody) hreach, hcut⟩
            · cases hrun
      · rename_i hk
        rcases bind_eq_error hrun with helement | ⟨r, helement, hrun⟩
        · obtain ⟨m', p, hreach, hcut⟩ := ih.cut _ helement
          exact ⟨m', p, .element hk hreach, hcut⟩
        · cases r with
          | nil => exact ⟨m, type, .here, .bracket hk (ih.reads _ _ helement)⟩
          | cons c r => cases hrun
      · rename_i hk
        cases m with
        | align =>
          rcases bind_eq_error hrun with helement | ⟨r, helement, hrun⟩
          · obtain ⟨m', p, hreach, hcut⟩ := ih.cut _ helement
            exact ⟨m', p, .container hk hreach, hcut⟩
          · cases hrun
        | size =>
          rw [endOfBitfield] at hrun
          split at hrun
          · rename_i hrest
            exact ⟨.size, type, .here, .bits hk hrest⟩
          · cases hrun
      · rename_i hk
        obtain ⟨m', p, hreach, hcut⟩ := ih.cut _ hrun
        exact ⟨m', p, .referent hk hreach, hcut⟩
  have hzero : ∀ m, Explained abi m (scan abi m 0) := by
    intro m
    constructor
    · intro type rest hrun
      cases m <;> cases hrun
    · intro type hrun
      cases m <;> cases hrun
  have halign : ∀ fuel, Explained abi .align (scan abi .align fuel) := by
    intro fuel
    induction fuel with
    | zero => exact hzero .align
    | succ fuel ih => exact hstep .align fuel ih fun h => (nomatch h)
  intro m fuel
  cases m with
  | align => exact halign fuel
  | size =>
    induction fuel with
    | zero => exact hzero .size
    | succ fuel ih => exact hstep .size fuel ih fun _ => halign

/-! ## What is read, is read by the parsers -/

section

variable {abi : Abi} {m : Mode} {callback : List Char → Except Fault (List Char)} {endchar : Char} {limit : ℕ}

/-- The loop goes on with what it has come to. -/
theorem Comes.run (h : ∀ s r, s.length ≤ limit → Reads abi m s r → callback s = .ok r) :
    ∀ {type q : List Char}, Comes abi m endchar type q → type.length ≤ limit → ∀ n, type.length < n →
    ∃ n', q.length < n' ∧ endOfMembers callback endchar n type = endOfMembers callback endchar n' q := by
  intro type q hcomes hlimit n hn
  cases hcomes with
  | refl => exact ⟨n, hn, rfl⟩
  | @next _ _ _ s r _ hhead hs hread hcomes =>
    obtain ⟨n, rfl⟩ := Nat.exists_eq_succ_of_ne_zero (by omega : n ≠ 0)
    have hs' := (memberType_suffix hs).length_le
    have hr := hread.leftOf.2
    obtain ⟨n', hn', heq⟩ := Comes.run h hcomes (by omega) n (by omega)
    refine ⟨n', hn', ?_⟩
    rw [endOfMembers, if_neg hhead, hs]
    show (callback s).bind _ = _
    rw [h s r (by omega) hread]
    exact heq
termination_by type => type.length
decreasing_by omega

theorem ReadsBody.run (h : ∀ s r, s.length ≤ limit → Reads abi m s r → callback s = .ok r)
    {cs rest : List Char}
    (hbody : ReadsBody abi m endchar cs rest) (hlimit : cs.length ≤ limit) :
    endOfStructOrUnion callback cs endchar = .ok rest := by
  cases hbody with
  | undefined hname =>
    rw [endOfStructOrUnion, hname]
    rfl
  | definition hname hcomes =>
    rename_i members
    have hmembers := (endOfName_leftOf hname).2
    have hmembers : members.length < cs.length := hmembers
    obtain ⟨n', hn', heq⟩ := hcomes.run h (by omega) (members.length + 1) (by omega)
    obtain ⟨n', rfl⟩ := Nat.exists_eq_succ_of_ne_zero (by omega : n' ≠ 0)
    rw [endOfStructOrUnion, hname]
    show endOfMembers callback endchar (members.length + 1) members = _
    rw [heq, endOfMembers, if_pos (by rfl)]
    rfl

end

theorem Reads.ne_nil {abi : Abi} {m : Mode} {type rest : List Char} (h : Reads abi m type rest) :
    0 < type.length :=
  Nat.lt_of_le_of_lt (Nat.zero_le _) h.leftOf.2

/-- What is read, is read by the parser for the mode. -/
def ReadsAll (abi : Abi) (m : Mode) : Prop :=
  ∀ fuel type rest, type.length ≤ fuel → Reads abi m type rest → scan abi m fuel type = .ok rest

theorem readsAll_of (abi : Abi) (m : Mode) (halign : m = .size → ReadsAll abi .align) : ReadsAll abi m := by
  intro fuel
  induction fuel with
  | zero =>
    intro type rest hlen hread
    have := hread.ne_nil
    omega
  | succ fuel ih =>
    intro type rest hlen hread
    have hwithin := kind_within type
    -- the calls are on strings that are left of `type`
    have hleft : ∀ {cs : List Char}, LeftOf cs type → cs.length ≤ fuel := by
      intro cs hcs
      have := hcs.2
      omega
    have hcallback : ∀ s r, s.length ≤ fuel → Reads abi m s r → scan abi m fuel s = .ok r :=
      fun s r hs hr => ih s r hs hr
    rw [scan_succ]
    cases hread with
    | plain hk =>
      rw [hk]
    | object hk hrest =>
      rw [hk]
      exact hrest
    | union hk hbody =>
      rw [hk] at hwithin ⊢
      exact hbody.run hcallback (hleft hwithin.1)
    | struct hk hbody =>
      rw [hk] at hwithin ⊢
      dsimp only
      rw [hbody.run hcallback (hleft hwithin.1)]
      rfl
    | measured hk hbody hagain =>
      rw [hk] at hwithin ⊢
      dsimp only
      rw [hbody.run hcallback (hleft hwithin.1)]
      show (scan abi .align _ _).bind _ = _
      rw [halign rfl _ _ _ (Nat.le_succ _) hagain]
      rfl
    | array hk helement =>
      rw [hk] at hwithin ⊢
      have hlen' := hleft (LeftOf.of_suffix (strtol_suffix abi _) hwithin)
      dsimp only
      rw [endOfArray, ih _ _ hlen' helement]
      rfl
    | bits hk hrest =>
      rw [hk]
      dsimp only
      rw [endOfBitfield, hrest]
    | container hk helement =>
      rw [hk] at hwithin ⊢
      have hlen' := hleft (LeftOf.of_suffix (strtol_suffix abi _) hwithin)
      dsimp only
      rw [endOfBitfield, ih _ _ hlen' helement]
      rfl
    | pointer hk hreferent =>
      rw [hk] at hwithin ⊢
      exact ih _ _ (hleft hwithin) hreferent

theorem readsAll (abi : Abi) (m : Mode) : ReadsAll abi m :=
  readsAll_of abi m fun _ => readsAll_of abi .align fun h => (nomatch h)

theorem ReadsAll.callback {abi : Abi} {m : Mode} (h : ReadsAll abi m) (fuel : ℕ) :
    ∀ s r, s.length ≤ fuel → Reads abi m s r → scan abi m fuel s = .ok r :=
  fun s r hs hr => h fuel s r hs hr

/-! ## The parsers leave a string that is cut short -/

theorem kind_ne_nil {type : List Char} (h : kind type ≠ .refused) : 0 < type.length := by
  cases type with
  | nil => exact absurd rfl h
  | cons c cs => exact Nat.zero_lt_succ _

theorem CutShort.scan {abi : Abi} {m : Mode} {type : List Char} (h : CutShort abi m type) {fuel : ℕ}
    (hlen : type.length ≤ fuel) : scan abi m fuel type = .error .pastEnd := by
  have hwithin := kind_within type
  have hpos : 0 < type.length := by
    cases h <;> exact kind_ne_nil fun hk => by simp_all
  obtain ⟨fuel, rfl⟩ := Nat.exists_eq_succ_of_ne_zero (by omega : fuel ≠ 0)
  rw [scan_succ]
  cases h with
  | complex hk => rw [hk]
  | signature hk ht =>
    rw [hk]
    exact endOfText_eq_pastEnd.mpr ht
  | className hk ht =>
    rw [hk]
    exact endOfText_eq_pastEnd.mpr ht
  | name hk hend heq =>
    rename_i again
    rw [hk]
    cases again with
    | none =>
      dsimp only
      rw [endOfStructOrUnion, endOfName_eq_pastEnd.mpr ⟨hend, heq⟩]
      rfl
    | some t =>
      dsimp only
      rw [endOfStructOrUnion, endOfName_eq_pastEnd.mpr ⟨hend, heq⟩]
      rfl
  | label hk hname hcomes hend ht =>
    rename_i endchar cs members q again
    rw [hk] at hwithin ⊢
    have hcs := hwithin.1.2
    have hmembers : members.length < cs.length := (endOfName_leftOf hname).2
    obtain ⟨n', hn', heq⟩ := hcomes.run ((readsAll abi m).callback fuel) (by omega) (members.length + 1)
      (Nat.lt_succ_self _)
    obtain ⟨n', rfl⟩ := Nat.exists_eq_succ_of_ne_zero (by omega : n' ≠ 0)
    have hhead : ('\x22' :: q).head? ≠ some endchar := fun h => hend (Option.some.inj h).symm
    have hbody : endOfStructOrUnion (Encoding.scan abi m fuel) cs endchar = .error .pastEnd := by
      rw [endOfStructOrUnion, hname]
      show endOfMembers _ _ _ _ = _
      rw [heq, endOfMembers, if_neg hhead, memberType,
        endOfText_eq_pastEnd.mpr ht]
      rfl
    cases again with
    | none => exact hbody
    | some t =>
      dsimp only
      rw [hbody]
      rfl
  | bracket hk helement =>
    rw [hk] at hwithin ⊢
    have hlen' := (LeftOf.of_suffix (strtol_suffix abi _) hwithin).2
    dsimp only
    rw [endOfArray, readsAll abi m _ _ _ (by omega) helement]
    rfl
  | bits hk hrest =>
    rw [hk]
    dsimp only
    rw [endOfBitfield, hrest]

theorem Reaches.scan {abi : Abi} {m m' : Mode} {type p : List Char} (h : Reaches abi m type m' p)
    (hcut : CutShort abi m' p) : ∀ {fuel : ℕ}, type.length ≤ fuel →
    scan abi m fuel type = .error .pastEnd := by
  induction h with
  | here => exact fun hlen => hcut.scan hlen
  | element hk _ ih =>
    rename_i type cs _ _
    intro fuel hlen
    have hwithin := kind_within type
    rw [hk] at hwithin
    have hlen' := (LeftOf.of_suffix (strtol_suffix abi _) hwithin).2
    obtain ⟨fuel, rfl⟩ := Nat.exists_eq_succ_of_ne_zero (by omega : fuel ≠ 0)
    rw [scan_succ, hk]
    dsimp only
    rw [endOfArray, ih hcut (by omega)]
    rfl
  | container hk _ ih =>
    rename_i type cs _ _
    intro fuel hlen
    have hwithin := kind_within type
    rw [hk] at hwithin
    have hlen' := (LeftOf.of_suffix (strtol_suffix abi _) hwithin).2
    obtain ⟨fuel, rfl⟩ := Nat.exists_eq_succ_of_ne_zero (by omega : fuel ≠ 0)
    rw [scan_succ, hk]
    dsimp only
    rw [endOfBitfield, ih hcut (by omega)]
    rfl
  | referent hk _ ih =>
    rename_i type cs _ _
    intro fuel hlen
    have hwithin := kind_within type
    rw [hk] at hwithin
    have hlen' := hwithin.2
    obtain ⟨fuel, rfl⟩ := Nat.exists_eq_succ_of_ne_zero (by omega : fuel ≠ 0)
    rw [scan_succ, hk]
    exact ih hcut (by omega)
  | member hk hname hcomes hhead hs _ ih =>
    rename_i m m' endchar type cs members q s p again _
    intro fuel hlen
    have hwithin := kind_within type
    rw [hk] at hwithin
    have hcs := hwithin.1.2
    have hmembers : members.length < cs.length := (endOfName_leftOf hname).2
    have hq := hcomes.suffix.length_le
    have hs' := (memberType_suffix hs).length_le
    obtain ⟨fuel, rfl⟩ := Nat.exists_eq_succ_of_ne_zero (by omega : fuel ≠ 0)
    obtain ⟨n', hn', heq⟩ := hcomes.run ((readsAll abi m).callback fuel) (by omega) (members.length + 1)
      (Nat.lt_succ_self _)
    obtain ⟨n', rfl⟩ := Nat.exists_eq_succ_of_ne_zero (by omega : n' ≠ 0)
    have hbody : endOfStructOrUnion (Encoding.scan abi m fuel) cs endchar = .error .pastEnd := by
      rw [endOfStructOrUnion, hname]
      show endOfMembers _ _ _ _ = _
      rw [heq, endOfMembers, if_neg hhead, hs]
      show (Encoding.scan abi m fuel s).bind _ = _
      rw [ih hcut (by omega)]
      rfl
    rw [scan_succ, hk]
    cases again with
    | none => exact hbody
    | some t =>
      dsimp only
      rw [hbody]
      rfl
  | again hk hbody _ ih =>
    rename_i type cs _ _ _ _
    intro fuel hlen
    have hwithin := kind_within type
    rw [hk] at hwithin
    have hcs := hwithin.1.2
    obtain ⟨fuel, rfl⟩ := Nat.exists_eq_succ_of_ne_zero (by omega : fuel ≠ 0)
    rw [scan_succ, hk]
    dsimp only
    rw [hbody.run ((readsAll abi .size).callback fuel) (by omega)]
    show (Encoding.scan abi .align _ _).bind _ = _
    rw [ih hcut (Nat.le_succ _)]
    rfl

/-! ## There are enough calls -/

section

variable {abi : Abi} {m : Mode} {callback : List Char → Except Fault (List Char)} {endchar : Char} {limit : ℕ}

theorem endOfMembers_ne_exhausted (h : Explained abi m callback)
    (hcallback : ∀ s, s.length ≤ limit → callback s ≠ .error .exhausted) : ∀ {n : ℕ} {type : List Char},
    type.length ≤ limit → type.length < n → endOfMembers callback endchar n type ≠ .error .exhausted
  | 0, _, _, hn => absurd hn (Nat.not_lt_zero _)
  | n + 1, type, hlimit, hn => by
    intro hrun
    rw [endOfMembers] at hrun
    split at hrun
    · cases hrun
    · rcases bind_eq_error hrun with hs | ⟨s, hs, hrun⟩
      · obtain ⟨s, hs'⟩ | ⟨hs', -⟩ := memberType_cases type
        · rw [hs'] at hs
          cases hs
        · rw [hs'] at hs
          cases hs
      · have hs' := (memberType_suffix hs).length_le
        rcases bind_eq_error hrun with hr | ⟨r, hr, hrun⟩
        · exact hcallback s (by omega) hr
        · have hr' := (h.reads s r hr).leftOf.2
          exact endOfMembers_ne_exhausted h hcallback (by omega) (by omega) hrun

theorem endOfStructOrUnion_ne_exhausted (h : Explained abi m callback)
    (hcallback : ∀ s, s.length ≤ limit → callback s ≠ .error .exhausted) {cs : List Char}
    (hlimit : cs.length ≤ limit) : endOfStructOrUnion callback cs endchar ≠ .error .exhausted := by
  intro hrun
  rcases bind_eq_error hrun with hname | ⟨r, hname, hrun⟩
  · rcases endOfName_cases endchar cs with ⟨r, hr⟩ | hpast
    · rw [hr] at hname
      cases hname
    · rw [hpast] at hname
      cases hname
  · cases r with
    | inl t => cases hrun
    | inr members =>
      have hmembers : members.length < cs.length := (endOfName_leftOf hname).2
      exact endOfMembers_ne_exhausted h hcallback (by omega) (Nat.lt_succ_self _) hrun

end

theorem scan_ne_exhausted_of (abi : Abi) (m : Mode)
    (halign : m = .size → ∀ t, scan abi .align (t.length + 1) t ≠ .error .exhausted) :
    ∀ (fuel : ℕ) (type : List Char), type.length < fuel → scan abi m fuel type ≠ .error .exhausted := by
  intro fuel
  induction fuel with
  | zero => exact fun type hlen => absurd hlen (Nat.not_lt_zero _)
  | succ fuel ih =>
    intro type hlen hrun
    have hwithin := kind_within type
    have hexplained := scan_explained abi m fuel
    have hcallback : ∀ s, s.length ≤ fuel - 1 → 0 < fuel → scan abi m fuel s ≠ .error .exhausted :=
      fun s hs hpos => ih s (by omega)
    rw [scan_succ] at hrun
    split at hrun
    · cases hrun
    · cases hrun
    · cases hrun
    · rename_i cs hk
      obtain ⟨r, hr⟩ | ⟨hr, -⟩ := endOfObject_cases cs
      · rw [hr] at hrun
        cases hrun
      · rw [hr] at hrun
        cases hrun
    · rename_i hk
      rw [hk] at hwithin
      have hcs := hwithin.1.2
      exact endOfStructOrUnion_ne_exhausted hexplained (fun s hs => hcallback s hs (by omega)) (by omega) hrun
    · rename_i hk
      rw [hk] at hwithin
      have hcs := hwithin.1.2
      rcases bind_eq_error hrun with hbody | ⟨r, hbody, hrun⟩
      · exact endOfStructOrUnion_ne_exhausted hexplained (fun s hs => hcallback s hs (by omega))
            (by omega) hbody
      · rcases bind_eq_error hrun with hagain | ⟨t, hagain, hrun⟩
        · cases m with
          | align => cases hagain
          | size => exact halign rfl _ hagain
        · cases hrun
    · rename_i hk
      rw [hk] at hwithin
      have hcs := (LeftOf.of_suffix (strtol_suffix abi _) hwithin).2
      rcases bind_eq_error hrun with helement | ⟨r, helement, hrun⟩
      · exact ih _ (by omega) helement
      · cases r <;> cases hrun
    · rename_i hk
      rw [hk] at hwithin
      have hcs := (LeftOf.of_suffix (strtol_suffix abi _) hwithin).2
      cases m with
      | align =>
        rcases bind_eq_error hrun with helement | ⟨r, helement, hrun⟩
        · exact ih _ (by omega) helement
        · cases hrun
      | size =>
        rw [endOfBitfield] at hrun
        split at hrun <;> cases hrun
    · rename_i hk
      rw [hk] at hwithin
      have hcs := hwithin.2
      exact ih _ (by omega) hrun

/-- As many calls as there are characters, and one for the terminator, are enough. -/
theorem scan_ne_exhausted (abi : Abi) (m : Mode) {fuel : ℕ} {type : List Char} (hlen : type.length < fuel) :
    scan abi m fuel type ≠ .error .exhausted := by
  refine scan_ne_exhausted_of abi m (fun _ t => ?_) fuel type hlen
  exact scan_ne_exhausted_of abi .align (fun h => (nomatch h)) _ t (Nat.lt_succ_self _)

/-! ## The positions of `sizeof_type` -/

/-- One call more than there are characters finds no other positions. -/
theorem scan_toOption_succ (abi : Abi) (m : Mode) {fuel : ℕ} {type : List Char} (hlen : type.length ≤ fuel) :
    (scan abi m (fuel + 1) type).toOption = (scan abi m fuel type).toOption := by
  have hreads : ∀ n, type.length ≤ n → ∀ n', type.length ≤ n' → ∀ rest,
      scan abi m n type = .ok rest → scan abi m n' type = .ok rest := by
    intro n _ n' hn' rest hrest
    exact readsAll abi m n' type rest hn' ((scan_explained abi m n).reads type rest hrest)
  cases h : scan abi m (fuel + 1) type with
  | ok rest => rw [hreads (fuel + 1) (by omega) fuel hlen rest h]
  | error e =>
    cases h' : scan abi m fuel type with
    | ok rest =>
      rw [hreads fuel hlen (fuel + 1) (by omega) rest h'] at h
      cases h
    | error e' => rfl

/-- The positions of `sizeof_type`. -/
theorem sizeofType_end (abi : Abi) (fuel : ℕ) : Positions (sizeofType abi fuel) (sizeofEnd abi fuel) := by
  induction fuel with
  | zero => exact fun _ _ => rfl
  | succ fuel ih =>
    intro type size
    have hstruct : ∀ type cs, position (sizeofStruct abi (sizeofType abi fuel) type cs size) =
        (endOfStruct (sizeofEnd abi fuel) (fun type => alignofEnd abi (type.length + 1) type) type
          cs).toOption := by
      intro type cs
      have hparse := ih.structOrUnion '}' (sizeofEnd_nil abi fuel) cs size
      rw [sizeofStruct, parseStruct, endOfStruct, toOption_bind, ← hparse]
      cases parseStructOrUnion (sizeofType abi fuel) cs size '}' with
      | none => rfl
      | some r =>
        rw [objcAlignofType]
        show position (((alignofType abi type.length type 0).bind fun a => some (a.2 / 8)).bind
          fun a => some (r.1, abi.roundUp r.2 (a * 8))) =
          ((alignofEnd abi (type.length + 1) type).bind fun _ => Except.ok r.1).toOption
        have hsucc : (alignofEnd abi (type.length + 1) type).toOption =
            (alignofEnd abi type.length type).toOption :=
          scan_toOption_succ abi .align (Nat.le_refl _)
        rw [toOption_bind, hsucc]
        obtain ⟨rest, a, hcall, he⟩ | ⟨hcall, he⟩ := (alignofType_end abi type.length).cases type 0
        · rw [hcall, he]
          rfl
        · rw [hcall, he]
          rfl
    have hunion : Positions (sizeofUnionField (sizeofType abi fuel)) (sizeofEnd abi fuel) := by
      intro type size
      rw [← ih type 0, sizeofUnionField]
      cases sizeofType abi fuel type 0 <;> rfl
    rw [sizeofType, sizeofEnd, endOfType]
    cases objcSkipTypeQualifiers type with
    | nil => rfl
    | cons c cs =>
      dsimp only
      cases typeCase c with
      | some τ => rfl
      | none =>
        rw [if_neg (by simp : ¬ (none : Option CType).isSome = true)]
        dsimp only
        by_cases h1 : c = '@'
        · rw [if_pos h1, if_pos h1, ← endOfObject_toOption]
          cases endOfObject cs <;> rfl
        rw [if_neg h1, if_neg h1]
        by_cases h2 : c = '?' ∨ c = 'v'
        · rw [if_pos h2, if_pos h2]
          rfl
        rw [if_neg h2, if_neg h2]
        by_cases h3 : c = 'j'
        · rw [if_pos h3, if_pos h3]
          cases cs with
          | nil => rfl
          | cons d ds =>
            dsimp only
            cases arithmeticCase d with
            | some a => rfl
            | none => exact hstruct (d :: ds) ds
        rw [if_neg h3, if_neg h3]
        by_cases h4 : c = '{'
        · rw [if_pos h4, if_pos h4]
          exact hstruct (c :: cs) cs
        rw [if_neg h4, if_neg h4]
        by_cases h5 : c = '['
        · rw [if_pos h5, if_pos h5, ← ih.array abi cs 0]
          cases parseArray (sizeofType abi fuel) abi cs 0 <;> rfl
        rw [if_neg h5, if_neg h5]
        by_cases h6 : c = '('
        · have hparse := hunion.structOrUnion ')' (sizeofEnd_nil abi fuel) cs 0
          rw [if_pos h6, if_pos h6, ← hparse, parseUnion]
          cases parseStructOrUnion (sizeofUnionField (sizeofType abi fuel)) cs 0 ')' <;> rfl
        rw [if_neg h6, if_neg h6]
        by_cases h7 : c = 'b'
        · rw [if_pos h7, if_pos h7]
          cases (strtol abi cs).2 <;> rfl
        rw [if_neg h7, if_neg h7]
        by_cases h8 : c = '^'
        · rw [if_pos h8, if_pos h8, ← ih cs 0]
          cases sizeofType abi fuel cs 0 <;> rfl
        rw [if_neg h8, if_neg h8]
        rfl


/-! ## The parsers and their string -/

/-- The parser for the mode, `objc_skip_typespec` and `objc_sizeof_type` or `objc_alignof_type`: it refuses
    the string, or it returns a position in it. -/
def StaysInside (abi : Abi) (m : Mode) (type : List Char) : Prop :=
  scan abi m (type.length + 1) type = .error .aborted ∨
    ∃ rest, scan abi m (type.length + 1) type = .ok rest ∧ rest <:+ type

/-- **Bounds.** The parsers stay in the string if and only if they come to no encoding that its end cuts
    short where they do not look for it. -/
theorem stays_inside_iff (abi : Abi) (m : Mode) (type : List Char) :
    StaysInside abi m type ↔ ¬ ComesToCut abi m type := by
  constructor
  · intro h hcut
    obtain ⟨m', p, hreach, hcut⟩ := hcut
    have hpast := hreach.scan hcut (Nat.le_succ type.length)
    obtain habort | ⟨rest, hok, -⟩ := h
    · rw [hpast] at habort
      cases habort
    · rw [hpast] at hok
      cases hok
  · intro h
    have hexplained := scan_explained abi m (type.length + 1)
    cases hrun : scan abi m (type.length + 1) type with
    | ok rest => exact .inr ⟨rest, hrun, (hexplained.reads type rest hrun).leftOf.1⟩
    | error e =>
      cases e with
      | aborted => exact .inl hrun
      | pastEnd => exact absurd (hexplained.cut type hrun) h
      | exhausted => exact absurd hrun (scan_ne_exhausted abi m (Nat.lt_succ_self _))

/-- `{S=i}`, `@"Class"`, `@?<v@?>`, `[4i]`, `ji` and `b0i8`, each without its end. -/
theorem leaves_string : ¬ StaysInside lp64 .align ['{', 'S'] ∧
    ¬ StaysInside lp64 .size ['@', '\x22', 'C', 'l'] ∧ ¬ StaysInside lp64 .size ['@', '?', '<', 'v'] ∧
    ¬ StaysInside lp64 .size ['[', '4', 'i'] ∧ ¬ StaysInside lp64 .align ['j'] ∧
    ¬ StaysInside lp64 .size ['b', '0'] := by
  have hpast : ∀ m type, scan lp64 m (type.length + 1) type = .error .pastEnd →
      ¬ StaysInside lp64 m type := by
    intro m type hpast h
    obtain habort | ⟨rest, hok, -⟩ := h
    · rw [hpast] at habort
      cases habort
    · rw [hpast] at hok
      cases hok
  exact ⟨hpast _ _ (by decide +kernel), hpast _ _ (by decide +kernel), hpast _ _ (by decide +kernel),
    hpast _ _ (by decide +kernel), hpast _ _ (by decide +kernel), hpast _ _ (by decide +kernel)⟩

end Libobjc2.Encoding
