import Mathlib.Data.List.Basic
import Mathlib.Order.Nat
import Mathlib.Tactic.Tauto

/-!
# Comparing the types of selectors (`src/dispatch/selector_table.cc`, lines 161–221)

`selector_types_equal` compares two type encodings from left to right, with one pointer into
each. It skips qualifiers and frame offsets, and takes `*` for `^c` and `^C`. An encoding is the
list of its characters without the NUL behind them.

Results:
* `selectorTypesEqual_iff`: what the loop accepts.
* `selectorTypesEqual_refl`, `selectorTypesEqual_comm`: it is reflexive and symmetric.
* `selectorTypesEqual_normalForm_iff`: when the loop compares normal forms.
* `selectorTypesEqual_prefix`: it accepts an encoding that is cut off.
-/

namespace Libobjc2.Dispatch

/-! ## Model -/

/-- The characters that `skip_irrelevant_type_info` steps over. -/
def isIrrelevant (c : Char) : Bool := c ∈ ['r', 'n', 'N', 'o', 'O', 'R', 'V', 'A', '!'] || c.isDigit

/-- `skip_irrelevant_type_info` (lines 165–174). -/
def skipIrrelevantTypeInfo : List Char → List Char
  | [] => []
  | c :: t => if isIrrelevant c then skipIrrelevantTypeInfo t else c :: t

/-- `*t == '^' && (*(t+1) == 'C' || *(t+1) == 'c')`. -/
def pointsToChar : List Char → Bool
  | '^' :: c :: _ => c = 'C' ∨ c = 'c'
  | _ => false

/-- One turn of the loop (lines 182–217): the pointers behind it, or nothing if it returns `NO`. -/
def turn (t1 t2 : List Char) : Option (List Char × List Char) :=
  let t1 := skipIrrelevantTypeInfo t1
  let t2 := skipIrrelevantTypeInfo t2
  if t1.head? = some '*' ∧ t2.head? ≠ some '*' then
    if pointsToChar t2 then some (t1.tail, t2.tail.tail) else none
  else if t2.head? = some '*' ∧ t1.head? ≠ some '*' then
    if pointsToChar t1 then some (t1.tail.tail, t2.tail) else none
  else if t1.head? ≠ t2.head? then none
  else some (t1.tail, t2.tail)

/-- The loop; every turn moves the first pointer. -/
def compareTypes : ℕ → List Char → List Char → Bool
  | 0, _, _ => true
  | fuel + 1, t1, t2 =>
    if t1 = [] ∨ t2 = [] then true
    else
      match turn t1 t2 with
      | none => false
      | some (t1, t2) => compareTypes fuel t1 t2

/-- `selector_types_equal` (lines 176–221), of pointers that are not null. -/
def selectorTypesEqual (t1 t2 : List Char) : Bool := compareTypes t1.length t1 t2

/-! ## Specification -/

/-- The encoding without the characters that are skipped. -/
def strip (a : List Char) : List Char := a.filter fun c => !isIrrelevant c

/-- `^c` and `^C` rewritten to `*`. -/
def shortenStrings : List Char → List Char
  | '^' :: 'c' :: t => '*' :: shortenStrings t
  | '^' :: 'C' :: t => '*' :: shortenStrings t
  | c :: t => c :: shortenStrings t
  | [] => []

/-- The normal form of an encoding. -/
def normalForm (a : List Char) : List Char := shortenStrings (strip a)

/-- Two encodings are spelled alike: they differ in characters that are skipped, and in `*` in the
    place of a `^` with its `c` or `C` right behind it. -/
inductive Agrees : List Char → List Char → Prop
  | nil : Agrees [] []
  | skipLeft {c : Char} {a b : List Char} : isIrrelevant c = true → Agrees a b → Agrees (c :: a) b
  | skipRight {c : Char} {a b : List Char} : isIrrelevant c = true → Agrees a b → Agrees a (c :: b)
  | same {c : Char} {a b : List Char} : isIrrelevant c = false → Agrees a b → Agrees (c :: a) (c :: b)
  | starLeft {l : Char} {a b : List Char} : l = 'C' ∨ l = 'c' → Agrees a b → Agrees ('*' :: a) ('^' :: l :: b)
  | starRight {l : Char} {a b : List Char} : l = 'C' ∨ l = 'c' → Agrees a b →
      Agrees ('^' :: l :: a) ('*' :: b)

/-- The encoding does not end in a character that is skipped. -/
def EndsRelevant (a : List Char) : Prop := ∀ c ∈ a.getLast?, isIrrelevant c = false

/-- The encoding `a` is spelled like a part of `b` in front, and ends there. -/
def EndsWithin (a b : List Char) : Prop := EndsRelevant a ∧ ∃ b₁ b₂, b = b₁ ++ b₂ ∧ Agrees a b₁

/-- `EndsWithin`, where something that is not skipped follows in `b`. -/
def CutOff (a b : List Char) : Prop :=
  EndsRelevant a ∧ ∃ b₁ b₂, b = b₁ ++ b₂ ∧ Agrees a b₁ ∧ ∃ c ∈ b₂, isIrrelevant c = false

/-! ## Skipped characters -/

variable {a b t1 t2 : List Char} {c l x y : Char}

theorem isIrrelevant_star : isIrrelevant '*' = false := by decide

theorem isIrrelevant_caret : isIrrelevant '^' = false := by decide

theorem isIrrelevant_letter (h : l = 'C' ∨ l = 'c') : isIrrelevant l = false := by
  rcases h with rfl | rfl <;> decide

/-- What is left after skipping is empty or starts with a character that counts. -/
theorem skipIrrelevantTypeInfo_cases (a : List Char) :
    skipIrrelevantTypeInfo a = [] ∨ ∃ c t, skipIrrelevantTypeInfo a = c :: t ∧ isIrrelevant c = false := by
  induction a with
  | nil => exact .inl rfl
  | cons c t ih =>
    cases hc : isIrrelevant c with
    | true => rwa [skipIrrelevantTypeInfo, if_pos hc]
    | false => exact .inr ⟨c, t, by rw [skipIrrelevantTypeInfo, if_neg (by simp [hc])], hc⟩

theorem length_skipIrrelevantTypeInfo_le (a : List Char) : (skipIrrelevantTypeInfo a).length ≤ a.length := by
  induction a with
  | nil => exact le_rfl
  | cons c t ih =>
    unfold skipIrrelevantTypeInfo
    split
    · exact ih.trans (Nat.le_succ _)
    · exact le_rfl

/-- A relation that does not see a skipped character in front does not see the skipping. -/
theorem skip_iff (P : List Char → Prop) (h : ∀ c t, isIrrelevant c = true → (P (c :: t) ↔ P t))
    (a : List Char) :
    P (skipIrrelevantTypeInfo a) ↔ P a := by
  induction a with
  | nil => exact Iff.rfl
  | cons c t ih =>
    cases hc : isIrrelevant c with
    | true => rw [skipIrrelevantTypeInfo, if_pos hc, ih, h c t hc]
    | false => rw [skipIrrelevantTypeInfo, if_neg (by simp [hc])]

/-! ## Encodings that are spelled alike -/

theorem Agrees.symm (h : Agrees a b) : Agrees b a := by
  induction h with
  | nil => exact .nil
  | skipLeft hc _ ih => exact .skipRight hc ih
  | skipRight hc _ ih => exact .skipLeft hc ih
  | same hc _ ih => exact .same hc ih
  | starLeft hl _ ih => exact .starRight hl ih
  | starRight hl _ ih => exact .starLeft hl ih

theorem agrees_comm : Agrees a b ↔ Agrees b a := ⟨Agrees.symm, Agrees.symm⟩

theorem Agrees.refl (a : List Char) : Agrees a a := by
  induction a with
  | nil => exact .nil
  | cons c t ih =>
    cases hc : isIrrelevant c with
    | true => exact .skipLeft hc (.skipRight hc ih)
    | false => exact .same hc ih

theorem agrees_cons_irrelevant (hc : isIrrelevant c = true) : Agrees (c :: a) b ↔ Agrees a b := by
  refine ⟨fun h => ?_, .skipLeft hc⟩
  generalize hca : c :: a = ca at h
  induction h with
  | nil => simp at hca
  | skipLeft _ h _ => exact (List.cons.inj hca).2 ▸ h
  | skipRight hd _ ih => exact .skipRight hd (ih hca)
  | same hd _ _ =>
    rw [(List.cons.inj hca).1, hd] at hc
    simp at hc
  | starLeft _ _ _ =>
    rw [(List.cons.inj hca).1, isIrrelevant_star] at hc
    simp at hc
  | starRight _ _ _ =>
    rw [(List.cons.inj hca).1, isIrrelevant_caret] at hc
    simp at hc

theorem agrees_skip_left (a b : List Char) : Agrees (skipIrrelevantTypeInfo a) b ↔ Agrees a b :=
  skip_iff (Agrees · b) (fun _ _ hc => agrees_cons_irrelevant hc) a

theorem agrees_skip_right (a b : List Char) : Agrees a (skipIrrelevantTypeInfo b) ↔ Agrees a b := by
  rw [agrees_comm, agrees_skip_left, agrees_comm]

theorem not_agrees_cons_nil (hx : isIrrelevant x = false) : ¬Agrees (x :: a) [] := by
  intro h
  cases h with
  | skipLeft hc _ =>
    rw [hx] at hc
    simp at hc

/-- The encoding starts with a `^` and its letter, and `P` holds behind them. -/
def PastString (t : List Char) (P : List Char → Prop) : Prop :=
  ∃ l t', t = '^' :: l :: t' ∧ (l = 'C' ∨ l = 'c') ∧ P t'

/-- What one turn does to a relation between the pointers: it moves past two equal characters, or past
    a `*` and a `^` with its letter. -/
def Advance (R : List Char → List Char → Prop) (x : Char) (a : List Char) (y : Char) (b : List Char) : Prop :=
  (x = y ∧ R a b) ∨ (x = '*' ∧ PastString (y :: b) (R a)) ∨ (y = '*' ∧ PastString (x :: a) (R · b))

theorem agrees_cons_cons (hx : isIrrelevant x = false) (hy : isIrrelevant y = false) :
    Agrees (x :: a) (y :: b) ↔ Advance Agrees x a y b := by
  constructor
  · intro h
    cases h with
    | skipLeft hc _ => simp [hx] at hc
    | skipRight hc _ => simp [hy] at hc
    | same _ h => exact .inl ⟨rfl, h⟩
    | starLeft hl h => exact .inr (.inl ⟨rfl, _, _, rfl, hl, h⟩)
    | starRight hl h => exact .inr (.inr ⟨rfl, _, _, rfl, hl, h⟩)
  · rintro (⟨rfl, h⟩ | ⟨rfl, l, t, heq, hl, h⟩ | ⟨rfl, l, t, heq, hl, h⟩)
    · exact .same hx h
    · rw [heq]
      exact .starLeft hl h
    · rw [heq]
      exact .starRight hl h

/-! ## Encodings that end within another one -/

theorem endsRelevant_nil : EndsRelevant [] := fun _ h => by simp at h

theorem endsRelevant_cons (hc : isIrrelevant c = false) : EndsRelevant (c :: a) ↔ EndsRelevant a := by
  cases a with
  | nil => simp [EndsRelevant, hc]
  | cons d t => rw [EndsRelevant, EndsRelevant, List.getLast?_cons_cons]

theorem endsRelevant_of_skip (h : EndsRelevant a) (ha : a ≠ []) : skipIrrelevantTypeInfo a ≠ [] := by
  induction a with
  | nil => exact absurd rfl ha
  | cons c t ih =>
    cases hc : isIrrelevant c with
    | false =>
      rw [skipIrrelevantTypeInfo, if_neg (by simp [hc])]
      exact List.cons_ne_nil c t
    | true =>
      rw [skipIrrelevantTypeInfo, if_pos hc]
      cases t with
      | nil =>
        have := h c rfl
        simp [hc] at this
      | cons d t =>
        rw [EndsRelevant, List.getLast?_cons_cons] at h
        exact ih h (List.cons_ne_nil d t)

theorem endsRelevant_skip (h : skipIrrelevantTypeInfo a ≠ []) :
    EndsRelevant (skipIrrelevantTypeInfo a) ↔ EndsRelevant a := by
  induction a with
  | nil => exact absurd rfl h
  | cons c t ih =>
    cases hc : isIrrelevant c with
    | false => rw [skipIrrelevantTypeInfo, if_neg (by simp [hc])]
    | true =>
      rw [skipIrrelevantTypeInfo, if_pos hc] at h ⊢
      rw [ih h]
      cases t with
      | nil => exact absurd rfl h
      | cons d t => rw [EndsRelevant, EndsRelevant, List.getLast?_cons_cons]

theorem endsWithin_nil (b : List Char) : EndsWithin [] b := ⟨endsRelevant_nil, [], b, rfl, .nil⟩

theorem endsWithin_cons_irrelevant (hc : isIrrelevant c = true) : EndsWithin a (c :: b) ↔ EndsWithin a b := by
  constructor
  · rintro ⟨hend, b₁, b₂, heq, h⟩
    cases b₁ with
    | nil => exact ⟨hend, [], b, rfl, h⟩
    | cons d b₁ =>
      obtain ⟨rfl, rfl⟩ := List.cons.inj heq
      exact ⟨hend, b₁, b₂, rfl, ((agrees_cons_irrelevant hc).mp h.symm).symm⟩
  · rintro ⟨hend, b₁, b₂, rfl, h⟩
    exact ⟨hend, c :: b₁, b₂, rfl, .skipRight hc h⟩

theorem endsWithin_skip_right (a b : List Char) : EndsWithin a (skipIrrelevantTypeInfo b) ↔ EndsWithin a b :=
  skip_iff (EndsWithin a) (fun _ _ hc => endsWithin_cons_irrelevant hc) b

theorem endsWithin_skip_left (h : skipIrrelevantTypeInfo a ≠ []) :
    EndsWithin (skipIrrelevantTypeInfo a) b ↔ EndsWithin a b := by
  simp only [EndsWithin, endsRelevant_skip h, agrees_skip_left]

theorem not_endsWithin_cons_nil (hx : isIrrelevant x = false) : ¬EndsWithin (x :: a) [] := by
  rintro ⟨-, b₁, b₂, heq, h⟩
  rw [(List.append_eq_nil_iff.mp heq.symm).1] at h
  exact not_agrees_cons_nil hx h

theorem endsWithin_cons_cons (hx : isIrrelevant x = false) (hy : isIrrelevant y = false) :
    EndsWithin (x :: a) (y :: b) ↔ Advance EndsWithin x a y b := by
  constructor
  · rintro ⟨hend, b₁, b₂, heq, h⟩
    rw [endsRelevant_cons hx] at hend
    cases b₁ with
    | nil => exact absurd h (not_agrees_cons_nil hx)
    | cons d b₁ =>
      obtain ⟨rfl, rfl⟩ := List.cons.inj heq
      obtain ⟨hxy, hab⟩ | ⟨hstar, l, t, hpast, hl, hab⟩ | ⟨hstar, l, t, hpast, hl, hab⟩ :=
        (agrees_cons_cons hx hy).mp h
      · exact .inl ⟨hxy, hend, b₁, b₂, rfl, hab⟩
      · obtain ⟨rfl, rfl⟩ := List.cons.inj hpast
        exact .inr (.inl ⟨hstar, l, t ++ b₂, rfl, hl, hend, t, b₂, rfl, hab⟩)
      · obtain ⟨rfl, rfl⟩ := List.cons.inj hpast
        rw [endsRelevant_cons (isIrrelevant_letter hl)] at hend
        exact .inr (.inr ⟨hstar, l, t, rfl, hl, hend, b₁, b₂, rfl, hab⟩)
  · rintro (⟨rfl, hend, b₁, b₂, rfl, h⟩ | ⟨rfl, l, t, hpast, hl, hend, b₁, b₂, rfl, h⟩ |
      ⟨rfl, l, t, hpast, hl, hend, b₁, b₂, rfl, h⟩)
    · exact ⟨(endsRelevant_cons hx).mpr hend, x :: b₁, b₂, rfl, .same hx h⟩
    · exact ⟨(endsRelevant_cons hx).mpr hend, '^' :: l :: b₁, b₂, hpast, .starLeft hl h⟩
    · refine ⟨?_, '*' :: b₁, b₂, rfl, ?_⟩
      · rw [hpast, endsRelevant_cons isIrrelevant_caret, endsRelevant_cons (isIrrelevant_letter hl)]
        exact hend
      · rw [hpast]
        exact .starRight hl h

/-! ## What the loop accepts -/

/-- The encodings are spelled alike, or one ends within the other. -/
def Accepted (a b : List Char) : Prop := Agrees a b ∨ EndsWithin a b ∨ EndsWithin b a

theorem accepted_comm : Accepted a b ↔ Accepted b a := by
  unfold Accepted
  rw [agrees_comm]
  tauto

theorem pastString_or (t : List Char) (P Q : List Char → Prop) :
    PastString t (fun t => P t ∨ Q t) ↔ PastString t P ∨ PastString t Q := by
  simp only [PastString, and_or_left, exists_or]

theorem advance_or (R S : List Char → List Char → Prop) :
    Advance (fun a b => R a b ∨ S a b) x a y b ↔ Advance R x a y b ∨ Advance S x a y b := by
  simp only [Advance, pastString_or, and_or_left]
  tauto

theorem advance_flip (R : List Char → List Char → Prop) :
    Advance (fun a b => R b a) x a y b ↔ Advance R y b x a := by
  simp only [Advance, eq_comm (a := x)]
  tauto

theorem accepted_cons_cons (hx : isIrrelevant x = false) (hy : isIrrelevant y = false) :
    Accepted (x :: a) (y :: b) ↔ Advance Accepted x a y b := by
  have hflip := advance_flip (x := x) (a := a) (y := y) (b := b) EndsWithin
  have hor := advance_or (x := x) (a := a) (y := y) (b := b) EndsWithin fun a b => EndsWithin b a
  rw [Accepted, agrees_cons_cons hx hy, endsWithin_cons_cons hx hy, endsWithin_cons_cons hy hx,
    ← hflip, ← hor]
  exact (advance_or Agrees fun a b => EndsWithin a b ∨ EndsWithin b a).symm

/-- If only one of the encodings has nothing left that counts, they are not accepted. -/
theorem not_accepted_of_skip (ha : a ≠ []) (hskip : skipIrrelevantTypeInfo a = [])
    (hb : skipIrrelevantTypeInfo b ≠ []) : ¬Accepted a b := by
  obtain hb' | ⟨y, t, hy, hrel⟩ := skipIrrelevantTypeInfo_cases b
  · exact absurd hb' hb
  rintro (h | h | h)
  · rw [← agrees_skip_left, hskip, ← agrees_skip_right, hy] at h
    exact not_agrees_cons_nil hrel h.symm
  · exact endsRelevant_of_skip h.1 ha hskip
  · rw [← endsWithin_skip_left hb, ← endsWithin_skip_right, hskip, hy] at h
    exact not_endsWithin_cons_nil hrel h

theorem accepted_skip (ha : skipIrrelevantTypeInfo a ≠ []) (hb : skipIrrelevantTypeInfo b ≠ []) :
    Accepted (skipIrrelevantTypeInfo a) (skipIrrelevantTypeInfo b) ↔ Accepted a b := by
  rw [Accepted, agrees_skip_left, agrees_skip_right, endsWithin_skip_left ha, endsWithin_skip_right,
    endsWithin_skip_left hb, endsWithin_skip_right, Accepted]

theorem pastString_iff (t : List Char) (P : List Char → Prop) :
    PastString t P ↔ pointsToChar t = true ∧ P t.tail.tail := by
  constructor
  · rintro ⟨l, t, rfl, hl, h⟩
    exact ⟨by simpa [pointsToChar] using hl, h⟩
  · rintro ⟨hp, h⟩
    unfold pointsToChar at hp
    split at hp
    · exact ⟨_, _, rfl, of_decide_eq_true hp, h⟩
    · simp at hp

theorem exists_ite_some {α : Type} {p : Prop} [Decidable p] {v : α} {Q : α → Prop} :
    (∃ u, (if p then some v else none) = some u ∧ Q u) ↔ p ∧ Q v := by
  by_cases hp : p <;> simp [hp]

/-- One turn, on the characters that count. -/
theorem exists_turn_iff (R : List Char → List Char → Prop) (h1 : skipIrrelevantTypeInfo t1 = x :: a)
    (h2 : skipIrrelevantTypeInfo t2 = y :: b) :
    (∃ u, turn t1 t2 = some u ∧ R u.1 u.2) ↔ Advance R x a y b := by
  simp only [turn, h1, h2, List.head?_cons, Option.some.injEq, List.tail_cons, Advance, pastString_iff]
  by_cases hx : x = '*' <;> by_cases hy : y = '*'
  · simp [hx, hy, pointsToChar]
  · rw [if_pos ⟨hx, by simpa using hy⟩, exists_ite_some]
    simp [hx, hy, Ne.symm hy]
  · rw [if_neg (by simp [hx]), if_pos ⟨hy, by simpa using hx⟩, exists_ite_some]
    simp [hx, hy]
  · rw [if_neg (by simp [hx]), if_neg (by simp [hy])]
    by_cases hxy : x = y <;> simp [hx, hy, hxy]

/-- Where only one pointer has reached the end, the loop returns `NO`. -/
theorem turn_eq_none (h : skipIrrelevantTypeInfo t1 = [] ↔ skipIrrelevantTypeInfo t2 ≠ []) :
    turn t1 t2 = none := by
  by_cases h1 : skipIrrelevantTypeInfo t1 = []
  · obtain ⟨y, b, h2⟩ := List.exists_cons_of_ne_nil (h.mp h1)
    by_cases hy : y = '*' <;> simp [turn, h1, h2, pointsToChar, hy]
  · obtain ⟨x, a, h1'⟩ := List.exists_cons_of_ne_nil h1
    have h2 := not_not.mp (mt h.mpr h1)
    by_cases hx : x = '*' <;> simp [turn, h1', h2, pointsToChar, hx]

theorem length_turn_lt {u : List Char × List Char} (ht : t1 ≠ []) (h : turn t1 t2 = some u) :
    u.1.length < t1.length := by
  have hle := length_skipIrrelevantTypeInfo_le t1
  have hpos := List.length_pos_of_ne_nil ht
  unfold turn at h
  simp only at h
  split_ifs at h
  all_goals
    obtain rfl := Option.some.inj h
    simp only [List.length_tail]
    omega

theorem compareTypes_iff (fuel : ℕ) (t1 t2 : List Char) (h : t1.length ≤ fuel) :
    compareTypes fuel t1 t2 = true ↔ Accepted t1 t2 := by
  induction fuel generalizing t1 t2 with
  | zero =>
    rw [List.length_eq_zero_iff.mp (Nat.le_zero.mp h)]
    simp [compareTypes, Accepted, endsWithin_nil]
  | succ fuel ih =>
    unfold compareTypes
    by_cases hnil : t1 = [] ∨ t2 = []
    · rw [if_pos hnil]
      rcases hnil with rfl | rfl <;> simp [Accepted, endsWithin_nil]
    rw [if_neg hnil]
    obtain ⟨hne1, hne2⟩ := not_or.mp hnil
    obtain hs1 | ⟨x, a, hs1, hx⟩ := skipIrrelevantTypeInfo_cases t1 <;>
      obtain hs2 | ⟨y, b, hs2, hy⟩ := skipIrrelevantTypeInfo_cases t2
    · -- both pointers are at the end
      have hturn : turn t1 t2 = some ([], []) := by simp [turn, hs1, hs2]
      have hagree : Agrees t1 t2 := by
        rw [← agrees_skip_left, ← agrees_skip_right, hs1, hs2]
        exact .nil
      simp only [hturn]
      rw [ih [] [] (Nat.zero_le _)]
      exact ⟨fun _ => .inl hagree, fun _ => .inl .nil⟩
    · simp only [turn_eq_none
        (show skipIrrelevantTypeInfo t1 = [] ↔ skipIrrelevantTypeInfo t2 ≠ [] by simp [hs1, hs2])]
      have hnot := not_accepted_of_skip hne1 hs1 (b := t2) (by simp [hs2])
      simp [hnot]
    · simp only [turn_eq_none
        (show skipIrrelevantTypeInfo t1 = [] ↔ skipIrrelevantTypeInfo t2 ≠ [] by simp [hs1, hs2])]
      have hnot := not_accepted_of_skip hne2 hs2 (b := t1) (by simp [hs1])
      simp [mt accepted_comm.mp hnot]
    · -- the turn of two characters that count
      rw [← accepted_skip (by simp [hs1]) (by simp [hs2]), hs1, hs2, accepted_cons_cons hx hy,
        ← exists_turn_iff Accepted hs1 hs2]
      cases hturn : turn t1 t2 with
      | none => simp
      | some u =>
        have hlt := length_turn_lt hne1 hturn
        simp only [Option.some.injEq, exists_eq_left']
        exact ih u.1 u.2 (by omega)

/-- The loop accepts two encodings that are spelled alike, and one that ends within the other. -/
theorem selectorTypesEqual_iff (a b : List Char) : selectorTypesEqual a b = true ↔ Accepted a b :=
  compareTypes_iff a.length a b le_rfl

theorem selectorTypesEqual_refl (a : List Char) : selectorTypesEqual a a = true :=
  (selectorTypesEqual_iff a a).mpr (.inl (.refl a))

theorem selectorTypesEqual_comm (a b : List Char) : selectorTypesEqual a b = selectorTypesEqual b a := by
  rw [Bool.eq_iff_iff, selectorTypesEqual_iff, selectorTypesEqual_iff, accepted_comm]

/-! ## Normal forms -/

theorem strip_cons_irrelevant (hc : isIrrelevant c = true) : strip (c :: a) = strip a := by
  simp [strip, hc]

theorem strip_cons (hc : isIrrelevant c = false) : strip (c :: a) = c :: strip a := by
  simp [strip, hc]

theorem shortenStrings_letter (hl : l = 'C' ∨ l = 'c') (t : List Char) :
    shortenStrings ('^' :: l :: t) = '*' :: shortenStrings t := by
  rcases hl with rfl | rfl <;> rfl

theorem shortenStrings_cons (h : c = '^' → ∀ l, l = 'C' ∨ l = 'c' → a.head? ≠ some l) :
    shortenStrings (c :: a) = c :: shortenStrings a := by
  refine shortenStrings.eq_3 c a (fun t hc ha => ?_) (fun t hc ha => ?_)
  · exact h hc 'c' (.inr rfl) (by rw [ha, List.head?_cons])
  · exact h hc 'C' (.inl rfl) (by rw [ha, List.head?_cons])

/-- Encodings that are spelled alike have the same normal form, and the same letter in front. -/
theorem Agrees.normalForm_eq (h : Agrees a b) : normalForm a = normalForm b ∧
    ∀ l, l = 'C' ∨ l = 'c' → ((strip a).head? = some l ↔ (strip b).head? = some l) := by
  unfold normalForm
  induction h with
  | nil => exact ⟨rfl, fun _ _ => Iff.rfl⟩
  | skipLeft hc _ ih => rwa [strip_cons_irrelevant hc]
  | skipRight hc _ ih => rwa [strip_cons_irrelevant hc]
  | @same c a b hc _ ih =>
    rw [strip_cons hc, strip_cons hc]
    refine ⟨?_, fun _ _ => Iff.rfl⟩
    obtain ⟨heq, hhead⟩ := ih
    by_cases hs : c = '^' ∧ ∃ l, (l = 'C' ∨ l = 'c') ∧ (strip a).head? = some l
    · -- the character behind the `^` is the same letter in both
      obtain ⟨rfl, l, hl, ha⟩ := hs
      obtain ⟨s, hs⟩ := List.head?_eq_some_iff.mp ha
      obtain ⟨s', hs'⟩ := List.head?_eq_some_iff.mp ((hhead l hl).mp ha)
      have hne : l = '^' → ∀ l', l' = 'C' ∨ l' = 'c' → s.head? ≠ some l' := by
        rintro rfl
        simp at hl
      have hne' : l = '^' → ∀ l', l' = 'C' ∨ l' = 'c' → s'.head? ≠ some l' := by
        rintro rfl
        simp at hl
      rw [hs, hs', shortenStrings_cons hne, shortenStrings_cons hne'] at heq
      rw [hs, hs', shortenStrings_letter hl, shortenStrings_letter hl, (List.cons.inj heq).2]
    · have hno : c = '^' → ∀ l, l = 'C' ∨ l = 'c' → (strip a).head? ≠ some l :=
        fun hc l hl ha => hs ⟨hc, l, hl, ha⟩
      rw [shortenStrings_cons hno, shortenStrings_cons fun hc l hl => mt (hhead l hl).mpr (hno hc l hl), heq]
  | @starLeft l a b hl _ ih =>
    rw [strip_cons isIrrelevant_star, strip_cons isIrrelevant_caret, strip_cons (isIrrelevant_letter hl),
      shortenStrings_letter hl, shortenStrings_cons (by simp), ih.1]
    refine ⟨rfl, fun l' hl' => ?_⟩
    rcases hl' with rfl | rfl <;> simp
  | @starRight l a b hl _ ih =>
    rw [strip_cons isIrrelevant_star, strip_cons isIrrelevant_caret, strip_cons (isIrrelevant_letter hl),
      shortenStrings_letter hl, shortenStrings_cons (by simp), ih.1]
    refine ⟨rfl, fun l' hl' => ?_⟩
    rcases hl' with rfl | rfl <;> simp

/-- More characters at the end give another normal form. -/
theorem shortenStrings_append_ne (s : List Char) {r : List Char} (hr : r ≠ []) :
    shortenStrings (s ++ r) ≠ shortenStrings s := by
  induction s using shortenStrings.induct with
  | case1 t ih => simpa [shortenStrings] using ih
  | case2 t ih => simpa [shortenStrings] using ih
  | case3 c t h1 h2 ih =>
    have hshort : shortenStrings (c :: t) = c :: shortenStrings t := by
      rw [shortenStrings_cons]
      rintro rfl l hl ha
      obtain ⟨t', rfl⟩ := List.head?_eq_some_iff.mp ha
      rcases hl with rfl | rfl
      · exact h2 t' rfl rfl
      · exact h1 t' rfl rfl
    rw [hshort, List.cons_append]
    by_cases hs : c = '^' ∧ ∃ l, (l = 'C' ∨ l = 'c') ∧ (t ++ r).head? = some l
    · obtain ⟨rfl, l, hl, ha⟩ := hs
      obtain ⟨t', ht'⟩ := List.head?_eq_some_iff.mp ha
      rw [ht', shortenStrings_letter hl]
      simp
    · rw [shortenStrings_cons fun hc l hl ha => hs ⟨hc, l, hl, ha⟩]
      exact fun h => ih (List.cons.inj h).2
  | case4 =>
    obtain ⟨c, r, rfl⟩ := List.exists_cons_of_ne_nil hr
    intro h
    have hnil : shortenStrings ([] ++ c :: r) = [] := h
    unfold shortenStrings at hnil
    split at hnil <;> simp_all

/-- An encoding that is cut off has another normal form. -/
theorem CutOff.normalForm_ne (h : CutOff a b) : normalForm a ≠ normalForm b := by
  obtain ⟨-, b₁, b₂, rfl, hagree, c, hc, hrel⟩ := h
  rw [hagree.normalForm_eq.1, normalForm, normalForm, strip, strip, List.filter_append]
  refine (shortenStrings_append_ne _ ?_).symm
  intro hnil
  have := List.filter_eq_nil_iff.mp hnil c hc
  simp [hrel] at this

theorem agrees_append_irrelevant {b₂ : List Char} (h : Agrees a b) (hb : ∀ c ∈ b₂, isIrrelevant c = true) :
    Agrees a (b ++ b₂) := by
  induction h with
  | nil =>
    induction b₂ with
    | nil => exact .nil
    | cons c t ih =>
      exact .skipRight (hb c List.mem_cons_self) (ih fun d hd => hb d (List.mem_cons_of_mem c hd))
  | skipLeft hc _ ih => exact .skipLeft hc ih
  | skipRight hc _ ih => exact .skipRight hc ih
  | same hc _ ih => exact .same hc ih
  | starLeft hl _ ih => exact .starLeft hl ih
  | starRight hl _ ih => exact .starRight hl ih

theorem agrees_or_cutOff (h : EndsWithin a b) : Agrees a b ∨ CutOff a b := by
  obtain ⟨hend, b₁, b₂, rfl, hagree⟩ := h
  by_cases hb : ∀ c ∈ b₂, isIrrelevant c = true
  · exact .inl (agrees_append_irrelevant hagree hb)
  · push Not at hb
    obtain ⟨c, hc, hrel⟩ := hb
    exact .inr ⟨hend, b₁, b₂, rfl, hagree, c, hc, by simpa using hrel⟩

theorem CutOff.endsWithin (h : CutOff a b) : EndsWithin a b := by
  obtain ⟨hend, b₁, b₂, heq, hagree, -⟩ := h
  exact ⟨hend, b₁, b₂, heq, hagree⟩

theorem accepted_iff : Accepted a b ↔ Agrees a b ∨ CutOff a b ∨ CutOff b a := by
  constructor
  · rintro (h | h | h)
    · exact .inl h
    · exact (agrees_or_cutOff h).imp_right .inl
    · exact (agrees_or_cutOff h).imp Agrees.symm .inr
  · rintro (h | h | h)
    · exact .inl h
    · exact .inr (.inl h.endsWithin)
    · exact .inr (.inr h.endsWithin)

/-- **When the loop compares normal forms.** It does, except for two encodings of one normal form
    that are not spelled alike, and for two of which one is cut off: it ends, in a character that is
    not skipped, where something that is not skipped follows in the other one. -/
theorem selectorTypesEqual_normalForm_iff (a b : List Char) :
    (selectorTypesEqual a b = true ↔ normalForm a = normalForm b) ↔
      ¬(normalForm a = normalForm b ∧ ¬Agrees a b) ∧ ¬CutOff a b ∧ ¬CutOff b a := by
  rw [selectorTypesEqual_iff, accepted_iff]
  have hagree : Agrees a b → normalForm a = normalForm b := fun h => h.normalForm_eq.1
  have hcut : CutOff a b → normalForm a ≠ normalForm b := CutOff.normalForm_ne
  have hcut' : CutOff b a → normalForm a ≠ normalForm b := fun h => h.normalForm_ne.symm
  tauto

/-- `v` is taken for `v@`. -/
theorem selectorTypesEqual_prefix :
    ¬∀ a b : List Char, selectorTypesEqual a b = true ↔ normalForm a = normalForm b := fun h =>
  absurd ((h ['v'] ['v', '@']).mp (by decide)) (by decide)

end Libobjc2.Dispatch
