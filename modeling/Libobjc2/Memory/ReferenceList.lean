import Libobjc2.Memory.AssociationSlot
import Mathlib.Data.List.GetD
import Mathlib.Algebra.Order.Group.Multiset
import Mathlib.Tactic.Abel

/-!
# The references of one object (`src/memory/associate.mm`, lines 49–112, 132–257, 434–494)

The lists of ten references that hang on one another are one list here, whose length is a multiple of
ten. `setReference` looks for the slot with its key, then for a free one, and hangs another ten slots on
the last list if there is none. The value that it takes out of a slot is released when the lock of the
list is given up.

Results:
* `getAssociatedObject_eq`: a lookup returns what the first slot with the key has.
* `WellFormed.set`, `lookup_set`: one slot is written.
* `WellFormed.store`, `lookup_store`: a set writes its own key only, as long as it has one.
* `ownedBy_set`, `ownedBy_store`: the values of which the slots own a reference.
-/

namespace Libobjc2.Memory.Associations

open AssociationSlot (Policy)

variable {Key Value : Type}

/-! ## Model -/

/-- `struct reference`; `none` is `NULL`. -/
structure Reference (Key Value : Type) where
  key : Option Key
  object : Option Value
  policy : Policy
  deriving DecidableEq

def Reference.zeroed : Reference Key Value := ⟨none, none, .assign⟩

/-- The value that is to be released when the slot is cleared. -/
def Reference.owned (r : Reference Key Value) : Option Value :=
  if r.policy = .assign then none else r.object

def referenceListSize : ℕ := 10

/-- What `allocate_zeroed<struct reference_list>` adds to the slots. -/
def zeroedList : List (Reference Key Value) := List.replicate referenceListSize .zeroed

/-- `struct reference_list`, with the slots of the lists behind it. -/
structure ReferenceList (Key Value : Type) where
  list : List (Reference Key Value)
  removing : Bool
  deallocating : Bool
  deriving DecidableEq

/-- The list of a new hidden class. -/
def ReferenceList.new : ReferenceList Key Value := ⟨zeroedList, false, false⟩

/-- `publishReference` (lines 101–112), when nothing else writes the slot. -/
def publishReference (list : List (Reference Key Value)) (i : ℕ) (r : Reference Key Value) :
    List (Reference Key Value) := list.set i r

variable [DecidableEq Key]

/-- `findReferenceLocked` (lines 84–99): the number of the slot. -/
def findReferenceLocked (list : List (Reference Key Value)) (key : Option Key) : Option ℕ :=
  list.findIdx? fun r => r.key = key

/-- The slot for a value (lines 213–234), in the list that may have become longer for it; `fails` is
    whether the allocation of another list fails. -/
def slotFor (list : List (Reference Key Value)) (key : Option Key) (obj : Option Value) (fails : Bool) :
    List (Reference Key Value) × Option ℕ :=
  match findReferenceLocked list key with
  | some r => (list, some r)
  | none =>
    if obj.isNone then (list, none)
    else match findReferenceLocked list none with
      | some r => (list, some r)
      | none => if fails then (list, none) else (list ++ zeroedList, some list.length)

/-- What `setReference` publishes (lines 240–243). -/
def newReference (key : Option Key) (obj : Option Value) (policy : Policy) : Reference Key Value :=
  if obj.isNone then ⟨none, obj, .assign⟩ else ⟨key, obj, policy⟩

/-- The slots that `setReference` leaves (lines 213–245), the reference that it displaced, and whether it
    had a slot. -/
def store (list : List (Reference Key Value)) (key : Option Key) (obj : Option Value) (policy : Policy)
    (fails : Bool) : List (Reference Key Value) × Reference Key Value × Bool :=
  match slotFor list key obj fails with
  | (list, some r) => (publishReference list r (newReference key obj policy), list.getD r .zeroed, true)
  | (list, none) => (list, .zeroed, false)

/-- `setReference` behind the preparation of the value (lines 207–256): the list, the values that are
    released in the end, and whether there was a slot. -/
def setReference (l : ReferenceList Key Value) (key : Option Key) (obj : Option Value) (policy : Policy)
    (fails : Bool) : ReferenceList Key Value × List Value × Bool :=
  let (list, oldReference, stored) :=
    if !l.deallocating && !l.removing then store l.list key obj policy fails else (l.list, .zeroed, false)
  let installed := stored && obj.isSome
  ({ l with list := list },
    (if installed then [] else (Reference.owned ⟨key, obj, policy⟩).toList) ++ oldReference.owned.toList, stored)

/-- `getReferenceFrom` (lines 434–449): the value of the first slot with the key from `firstIndex` on.
    A retained value is looked up once more, and autoreleased. -/
def getReferenceFrom (list : List (Reference Key Value)) (key : Option Key) (firstIndex : ℕ) : Option Value :=
  ((list.drop firstIndex).find? fun r => r.key = key).bind (·.object)

/-- `objc_getAssociatedObject` (lines 451–467) with the list of the object itself. -/
def getAssociatedObject (list : List (Reference Key Value)) (key : Option Key) : Option Value :=
  match list.head? with
  | none => none
  | some first => if first.key = key then first.object else getReferenceFrom list key 1

/-! ## Lookups -/

/-- The value of the first slot with the key. -/
def lookup (list : List (Reference Key Value)) (key : Option Key) : Option Value :=
  (list.find? fun r => r.key = key).bind (·.object)

theorem getAssociatedObject_eq (list : List (Reference Key Value)) (key : Option Key) :
    getAssociatedObject list key = lookup list key := by
  unfold getAssociatedObject getReferenceFrom lookup
  cases list with
  | nil => rfl
  | cons first rest =>
    by_cases h : first.key = key
    · simp [h]
    · simp [h]

/-- A slot without a key has no value, and no two slots have the same key. -/
structure WellFormed (list : List (Reference Key Value)) : Prop where
  free : ∀ r ∈ list, r.key = none → r.object = none
  unique : ∀ (i j : ℕ) (r s : Reference Key Value), list[i]? = some r → list[j]? = some s → r.key ≠ none →
    r.key = s.key → i = j

variable {list : List (Reference Key Value)} {i : ℕ} {r r' : Reference Key Value} {key k : Option Key}
  {obj : Option Value} {policy : Policy} {fails : Bool}

omit [DecidableEq Key] in
theorem wellFormed_zeroed : WellFormed (zeroedList : List (Reference Key Value)) where
  free r hr _ := by rw [List.eq_of_mem_replicate hr]; rfl
  unique i j r s hr _ hkey _ := by
    rw [List.eq_of_mem_replicate (List.mem_of_getElem? hr)] at hkey
    exact absurd rfl hkey

theorem store_noSlot {list' : List (Reference Key Value)} (hslot : slotFor list key obj fails = (list', none)) :
    store list key obj policy fails = (list', .zeroed, false) := by
  unfold store
  rw [hslot]

theorem store_slot {list' : List (Reference Key Value)} (hslot : slotFor list key obj fails = (list', some i)) :
    store list key obj policy fails =
      (publishReference list' i (newReference key obj policy), list'.getD i .zeroed, true) := by
  unfold store
  rw [hslot]

theorem lookup_eq_none (h : ∀ r ∈ list, r.key = key → r.object = none) : lookup list key = none := by
  unfold lookup
  cases hfind : list.find? (fun r => r.key = key) with
  | none => rfl
  | some r => exact h r (List.mem_of_find?_eq_some hfind) (by simpa using List.find?_some hfind)

theorem WellFormed.lookup_none (h : WellFormed list) : lookup list none = none := lookup_eq_none h.free

/-- In a well formed list every slot is the first one with its key. -/
theorem WellFormed.lookup_eq (h : WellFormed list) (hr : list[i]? = some r) : lookup list r.key = r.object := by
  by_cases hkey : r.key = none
  · rw [h.free r (List.mem_of_getElem? hr) hkey, hkey, h.lookup_none]
  · unfold lookup
    cases hfind : list.find? (fun s => s.key = r.key) with
    | none =>
      rw [List.find?_eq_none] at hfind
      exact absurd (hfind r (List.mem_of_getElem? hr)) (by simp)
    | some s =>
      have hs : s.key = r.key := by simpa using List.find?_some hfind
      obtain ⟨j, hj⟩ := List.getElem?_of_mem (List.mem_of_find?_eq_some hfind)
      have hij := h.unique i j r s hr hj hkey hs.symm
      rw [hij, hj] at hr
      obtain rfl : s = r := by simpa using hr
      rfl

/-! ## Writing a slot -/

omit [DecidableEq Key] in
/-- No other slot has the key of `r'`, or `r'` has none. -/
theorem WellFormed.set (h : WellFormed list) (hi : i < list.length) (hfree : r'.key = none → r'.object = none)
    (hother : ∀ (j : ℕ) (s : Reference Key Value), j ≠ i → list[j]? = some s → s.key = r'.key → s.key = none) :
    WellFormed (list.set i r') := by
  constructor
  · intro r hr hkey
    rcases List.mem_or_eq_of_mem_set hr with hr | rfl
    · exact h.free r hr hkey
    · exact hfree hkey
  · intro j l s t hs ht hkey heq
    by_cases hj : i = j
    · by_cases hl : i = l
      · exact hj.symm.trans hl
      · rw [← hj, List.getElem?_set_self hi] at hs
        rw [List.getElem?_set_ne hl] at ht
        obtain rfl : r' = s := by simpa using hs
        exact absurd (heq.trans (hother l t (Ne.symm hl) ht heq.symm)) hkey
    · rw [List.getElem?_set_ne hj] at hs
      by_cases hl : i = l
      · rw [← hl, List.getElem?_set_self hi] at ht
        obtain rfl : r' = t := by simpa using ht
        exact absurd (hother j s (Ne.symm hj) hs heq) hkey
      · rw [List.getElem?_set_ne hl] at ht
        exact h.unique j l s t hs ht hkey heq

/-- The key of the slot is gone, and its new key has the new value. -/
theorem lookup_set (h : WellFormed list) (hr : list[i]? = some r) (hfree : r'.key = none → r'.object = none)
    (hother : ∀ (j : ℕ) (s : Reference Key Value), j ≠ i → list[j]? = some s → s.key = r'.key → s.key = none)
    (k : Option Key) :
    lookup (list.set i r') k = if k = r'.key then r'.object else if k = r.key then none else lookup list k := by
  have hi : i < list.length := (List.getElem?_eq_some_iff.mp hr).1
  have hset := h.set hi hfree hother
  by_cases hk : k = r'.key
  · rw [if_pos hk, hk]
    exact hset.lookup_eq (List.getElem?_set_self hi)
  · rw [if_neg hk]
    by_cases hmem : ∃ j s, j ≠ i ∧ list[j]? = some s ∧ s.key = k
    · obtain ⟨j, s, hj, hs, rfl⟩ := hmem
      have hs' : (list.set i r')[j]? = some s := by rw [List.getElem?_set_ne (Ne.symm hj), hs]
      rw [hset.lookup_eq hs', h.lookup_eq hs]
      by_cases hold : s.key = r.key
      · rw [if_pos hold]
        by_cases hnone : s.key = none
        · exact h.free s (List.mem_of_getElem? hs) hnone
        · exact absurd (h.unique j i s r hs hr hnone hold) hj
      · rw [if_neg hold]
    · have hgone : lookup (list.set i r') k = none := by
        apply lookup_eq_none
        intro s hs hkey
        obtain ⟨j, hj⟩ := List.getElem?_of_mem hs
        by_cases hij : i = j
        · rw [← hij, List.getElem?_set_self hi] at hj
          obtain rfl : r' = s := by simpa using hj
          exact absurd hkey.symm hk
        · rw [List.getElem?_set_ne hij] at hj
          exact absurd ⟨j, s, Ne.symm hij, hj, hkey⟩ hmem
      rw [hgone]
      by_cases hold : k = r.key
      · rw [if_pos hold]
      · rw [if_neg hold, lookup_eq_none]
        intro s hs hkey
        obtain ⟨j, hj⟩ := List.getElem?_of_mem hs
        by_cases hij : j = i
        · rw [hij, hr] at hj
          obtain rfl : r = s := by simpa using hj
          exact absurd hkey.symm hold
        · exact absurd ⟨j, s, hij, hj, hkey⟩ hmem

/-! ## The slot for a value -/

omit [DecidableEq Key] in
theorem WellFormed.append (h : WellFormed list) : WellFormed (list ++ zeroedList) := by
  have hkey : ∀ (j : ℕ) (s : Reference Key Value), (list ++ zeroedList)[j]? = some s → s.key ≠ none →
      list[j]? = some s := by
    intro j s hs hne
    rcases Nat.lt_or_ge j list.length with hj | hj
    · rwa [List.getElem?_append_left hj] at hs
    · rw [List.getElem?_append_right hj] at hs
      rw [List.eq_of_mem_replicate (List.mem_of_getElem? hs)] at hne
      exact absurd rfl hne
  constructor
  · intro r hr hnone
    rcases List.mem_append.mp hr with hr | hr
    · exact h.free r hr hnone
    · rw [List.eq_of_mem_replicate hr]
      rfl
  · intro i j r s hr hs hne heq
    exact h.unique i j r s (hkey i r hr hne) (hkey j s hs (heq ▸ hne)) hne heq

theorem lookup_append (list : List (Reference Key Value)) (k : Option Key) :
    lookup (list ++ zeroedList) k = lookup list k := by
  unfold lookup
  rw [List.find?_append]
  cases hfind : list.find? (fun r => r.key = k) with
  | some r => rfl
  | none =>
    rw [Option.none_or]
    exact lookup_eq_none fun r hr _ => by rw [List.eq_of_mem_replicate hr]; rfl

/-- The values of which the slots own a reference. -/
def ownedBy (list : List (Reference Key Value)) : Multiset Value := (list.filterMap (·.owned) : List Value)

omit [DecidableEq Key] in
theorem ownedBy_zeroed : ownedBy (zeroedList : List (Reference Key Value)) = 0 := rfl

omit [DecidableEq Key] in
theorem ownedBy_append : ownedBy (list ++ zeroedList) = ownedBy list := by
  unfold ownedBy
  rw [List.filterMap_append, ← Multiset.coe_add]
  exact add_zero (M := Multiset Value) _

omit [DecidableEq Key] in
/-- A slot owns what it has, and no longer what it had. -/
theorem ownedBy_set (hr : list[i]? = some r) (r' : Reference Key Value) :
    ownedBy (list.set i r') + (r.owned.toList : Multiset Value) = ownedBy list + (r'.owned.toList : Multiset Value) := by
  have hcons : ∀ (a : Reference Key Value) l, ownedBy (a :: l) = (a.owned.toList : Multiset Value) + ownedBy l := by
    intro a l
    unfold ownedBy
    cases ha : a.owned with
    | none => simp [ha]
    | some v => simp [ha]
  induction list generalizing i with
  | nil => simp at hr
  | cons a l ih =>
    cases i with
    | zero =>
      obtain rfl : a = r := by simpa using hr
      rw [List.set_cons_zero, hcons, hcons]
      abel
    | succ i =>
      have hrest := ih (i := i) (by simpa using hr)
      rw [List.set_cons_succ, hcons, hcons, add_assoc, hrest]
      abel

omit [DecidableEq Key] in
/-- Slots without keys own nothing. -/
theorem WellFormed.ownedBy_free (h : WellFormed list) (hfree : ∀ r ∈ list, r.key = none) : ownedBy list = 0 := by
  unfold ownedBy
  rw [Multiset.coe_eq_zero, List.filterMap_eq_nil_iff]
  intro r hr
  unfold Reference.owned
  rw [h.free r hr (hfree r hr), ite_self]

/-- What `slotFor` finds. -/
structure SlotFound (list : List (Reference Key Value)) (key : Option Key) (obj : Option Value) (fails : Bool)
    (list' : List (Reference Key Value)) (r : Option ℕ) : Prop where
  longer : list' = list ∨ list' = list ++ zeroedList
  slot : ∀ i, r = some i → ∃ s, list'[i]? = some s ∧
    (s.key = key ∨ obj ≠ none ∧ s.key = none ∧ ∀ t ∈ list', t.key = key → t.key = none)
  noSlot : r = none → list' = list ∧ (∀ t ∈ list, t.key ≠ key) ∧ (obj = none ∨ fails = true)

theorem findReferenceLocked_some {key : Option Key} (h : findReferenceLocked list key = some i) :
    ∃ s, list[i]? = some s ∧ s.key = key := by
  obtain ⟨hi, hs, -⟩ := List.findIdx?_eq_some_iff_getElem.mp h
  exact ⟨list[i], List.getElem?_eq_getElem hi, by simpa using hs⟩

theorem findReferenceLocked_none {key : Option Key} (h : findReferenceLocked list key = none) :
    ∀ t ∈ list, t.key ≠ key := by
  intro t ht
  simpa using List.findIdx?_eq_none_iff.mp h t ht

theorem slotFor_found (list : List (Reference Key Value)) (key : Option Key) (obj : Option Value) (fails : Bool) :
    SlotFound list key obj fails (slotFor list key obj fails).1 (slotFor list key obj fails).2 := by
  unfold slotFor
  cases hfind : findReferenceLocked list key with
  | some j =>
    obtain ⟨s, hs, hkey⟩ := findReferenceLocked_some hfind
    refine ⟨.inl rfl, fun i hi => ?_, fun h => absurd h (by simp)⟩
    obtain rfl : j = i := by simpa using hi
    exact ⟨s, hs, .inl hkey⟩
  | none =>
    have habsent := findReferenceLocked_none hfind
    cases obj with
    | none => exact ⟨.inl rfl, fun i hi => absurd hi (by simp), fun _ => ⟨rfl, habsent, .inl rfl⟩⟩
    | some v =>
      simp only [Option.isNone_some, Bool.false_eq_true, if_false]
      cases hfree : findReferenceLocked list none with
      | some j =>
        obtain ⟨s, hs, hkey⟩ := findReferenceLocked_some hfree
        refine ⟨.inl rfl, fun i hi => ?_, fun h => absurd h (by simp)⟩
        obtain rfl : j = i := by simpa using hi
        exact ⟨s, hs, .inr ⟨by simp, hkey, fun t ht heq => absurd heq (habsent t ht)⟩⟩
      | none =>
        cases fails with
        | true => exact ⟨.inl rfl, fun i hi => absurd hi (by simp), fun _ => ⟨rfl, habsent, .inr rfl⟩⟩
        | false =>
          refine ⟨.inr rfl, fun i hi => ?_, fun h => absurd h (by simp)⟩
          obtain rfl : list.length = i := by simpa using hi
          refine ⟨.zeroed, ?_, .inr ⟨by simp, rfl, fun t ht heq => ?_⟩⟩
          · simp [zeroedList, referenceListSize]
          · rcases List.mem_append.mp ht with ht | ht
            · exact absurd heq (habsent t ht)
            · rw [List.eq_of_mem_replicate ht]
              rfl

/-- A set leaves the slots well formed, and the other keys their values. -/
theorem store_spec (h : WellFormed list)
    (hkey : obj ≠ none → (slotFor list key obj fails).2 ≠ none → key ≠ none) (policy : Policy) :
    WellFormed (store list key obj policy fails).1 ∧
    ∀ k, lookup (store list key obj policy fails).1 k =
      if k = key ∧ ((store list key obj policy fails).2.2 = true ∨ obj = none) then obj else lookup list k := by
  have hfound := slotFor_found list key obj fails
  rcases hslotFor : slotFor list key obj fails with ⟨list', r⟩
  rw [hslotFor] at hkey hfound
  have hwf : WellFormed list' ∧ ∀ k, lookup list' k = lookup list k := by
    rcases hfound.longer with rfl | rfl
    · exact ⟨h, fun _ => rfl⟩
    · exact ⟨h.append, lookup_append list⟩
  cases r with
  | none =>
    rw [store_noSlot hslotFor]
    obtain ⟨rfl, habsent, hobj⟩ := hfound.noSlot rfl
    refine ⟨h, fun k => ?_⟩
    by_cases hk : k = key
    · have hnone : lookup list' k = none :=
        lookup_eq_none fun t ht heq => absurd (heq.trans hk) (habsent t ht)
      show lookup list' k = _
      rw [hnone]
      split
      · next hcond => exact (by simpa using hcond.2 : obj = none).symm
      · rfl
    · rw [if_neg (fun hcond => hk hcond.1)]
  | some i =>
    rw [store_slot hslotFor]
    obtain ⟨s, hs, hslot⟩ := hfound.slot i rfl
    have hi : i < list'.length := (List.getElem?_eq_some_iff.mp hs).1
    cases obj with
    | none =>
      -- the slot is cleared
      have hskey : s.key = key := hslot.resolve_right fun hr => hr.1 rfl
      have hother : ∀ (j : ℕ) (t : Reference Key Value), j ≠ i → list'[j]? = some t → t.key = none → t.key = none :=
        fun _ _ _ _ ht => ht
      refine ⟨hwf.1.set hi (fun _ => rfl) hother, fun k => ?_⟩
      show lookup (list'.set i ⟨none, none, .assign⟩) k = if k = key ∧ (true = true ∨ none = none) then none else _
      rw [lookup_set hwf.1 hs (fun _ => rfl) hother, hwf.2, hskey]
      show (if k = none then none else if k = key then none else lookup list k) = _
      by_cases hk : k = key
      · have hcond : k = key ∧ (true = true ∨ (none : Option Value) = none) := ⟨hk, .inr rfl⟩
        rw [if_pos hcond, if_pos hk, ite_self]
      · have hcond : ¬(k = key ∧ (true = true ∨ (none : Option Value) = none)) := fun hc => hk hc.1
        rw [if_neg hcond, if_neg hk]
        by_cases hnone : k = none
        · rw [if_pos hnone, hnone, h.lookup_none]
        · rw [if_neg hnone]
    | some v =>
      have hne : key ≠ none := hkey (by simp) (by simp)
      have hother : ∀ (j : ℕ) (t : Reference Key Value), j ≠ i → list'[j]? = some t → t.key = key →
          t.key = none := by
        intro j t hj ht heq
        rcases hslot with hskey | ⟨-, -, habsent⟩
        · exact absurd (hwf.1.unique j i t s ht hs (heq ▸ hne) (heq.trans hskey.symm)) hj
        · exact habsent t (List.mem_of_getElem? ht) heq
      refine ⟨hwf.1.set hi (fun hnone => absurd hnone hne) hother, fun k => ?_⟩
      show lookup (list'.set i ⟨key, some v, policy⟩) k = if k = key ∧ (true = true ∨ some v = none) then some v else _
      rw [lookup_set hwf.1 hs (fun hnone => absurd hnone hne) hother, hwf.2]
      show (if k = key then some v else if k = s.key then none else lookup list k) = _
      by_cases hk : k = key
      · have hcond : k = key ∧ (true = true ∨ some v = none) := ⟨hk, .inl rfl⟩
        rw [if_pos hcond, if_pos hk]
      · have hcond : ¬(k = key ∧ (true = true ∨ some v = none)) := fun hc => hk hc.1
        rw [if_neg hcond, if_neg hk]
        by_cases hold : k = s.key
        · rw [if_pos hold]
          rcases hslot with hskey | ⟨-, hnone, -⟩
          · exact absurd (hold.trans hskey) hk
          · rw [hold, hnone, h.lookup_none]
        · rw [if_neg hold]

/-- What the displaced reference and the new one own. -/
theorem ownedBy_store (list : List (Reference Key Value)) (key : Option Key) (obj : Option Value)
    (policy : Policy) (fails : Bool) :
    ownedBy (store list key obj policy fails).1 +
        ((store list key obj policy fails).2.1.owned.toList : Multiset Value) =
      ownedBy list + (if (store list key obj policy fails).2.2 then
        (newReference key obj policy).owned.toList else [] : List Value) := by
  have hfound := slotFor_found list key obj fails
  rcases hslotFor : slotFor list key obj fails with ⟨list', r⟩
  rw [hslotFor] at hfound
  have howned : ownedBy list' = ownedBy list := by
    rcases hfound.longer with rfl | rfl
    · rfl
    · exact ownedBy_append
  cases r with
  | none =>
    obtain ⟨rfl, -, -⟩ := hfound.noSlot rfl
    rw [store_noSlot hslotFor]
    rfl
  | some i =>
    obtain ⟨s, hs, -⟩ := hfound.slot i rfl
    rw [store_slot hslotFor]
    show ownedBy (list'.set i _) + ((list'.getD i .zeroed).owned.toList : Multiset Value) = _
    rw [List.getD_eq_getElem?_getD, hs, Option.getD_some, ownedBy_set hs, howned]
    rfl

/-- A slot without a key that the set does not write has none afterwards. -/
theorem store_free {j : ℕ} (hfree : ∀ r, list[j]? = some r → r.key = none)
    (hslot : ∀ i, (slotFor list key obj fails).2 = some i → obj ≠ none → i ≠ j) :
    ∀ r, (store list key obj policy fails).1[j]? = some r → r.key = none := by
  have hfound := slotFor_found list key obj fails
  rcases hslotFor : slotFor list key obj fails with ⟨list', r'⟩
  rw [hslotFor] at hfound hslot
  have hfree' : ∀ r, list'[j]? = some r → r.key = none := by
    intro r hr
    rcases hfound.longer with rfl | rfl
    · exact hfree r hr
    · rcases Nat.lt_or_ge j list.length with hj | hj
      · exact hfree r (by rwa [List.getElem?_append_left hj] at hr)
      · rw [List.getElem?_append_right hj] at hr
        rw [List.eq_of_mem_replicate (List.mem_of_getElem? hr)]
        rfl
  intro r hr
  cases r' with
  | none =>
    rw [store_noSlot hslotFor] at hr
    exact hfree' r hr
  | some i =>
    rw [store_slot hslotFor] at hr
    by_cases hij : i = j
    · have hobj : obj = none := by
        by_contra hne
        exact hslot i rfl hne hij
      have hi : i < list'.length := by
        obtain ⟨s, hs, -⟩ := hfound.slot i rfl
        exact (List.getElem?_eq_some_iff.mp hs).1
      rw [← hij, publishReference, List.getElem?_set_self hi] at hr
      obtain rfl : newReference key obj policy = r := by simpa using hr
      rw [hobj]
      rfl
    · rw [publishReference, List.getElem?_set_ne hij] at hr
      exact hfree' r hr

theorem setReference_busy {l : ReferenceList Key Value} (h : l.deallocating = true ∨ l.removing = true)
    (key : Option Key) (obj : Option Value) (policy : Policy) (fails : Bool) :
    (setReference l key obj policy fails).1 = l ∧ (setReference l key obj policy fails).2.2 = false := by
  have hflags : ¬(!l.deallocating && !l.removing) = true := by
    rcases h with h | h <;> simp [h]
  unfold setReference
  rw [if_neg hflags]
  exact ⟨rfl, rfl⟩

theorem setReference_free {l : ReferenceList Key Value} (hd : l.deallocating = false) (hr : l.removing = false)
    (key : Option Key) (obj : Option Value) (policy : Policy) (fails : Bool) :
    (setReference l key obj policy fails).1 = { l with list := (store l.list key obj policy fails).1 } ∧
      (setReference l key obj policy fails).2.2 = (store l.list key obj policy fails).2.2 := by
  have hflags : (!l.deallocating && !l.removing) = true := by simp [hd, hr]
  unfold setReference
  rw [if_pos hflags]
  exact ⟨rfl, rfl⟩

/-- A set finds no slot only if it sets `nil` or cannot get one. -/
theorem store_refused (h : (store list key obj policy fails).2.2 = false) :
    (store list key obj policy fails).1 = list ∧ (obj = none ∨ fails = true) := by
  have hfound := slotFor_found list key obj fails
  rcases hslotFor : slotFor list key obj fails with ⟨list', r'⟩
  rw [hslotFor] at hfound
  cases r' with
  | none =>
    obtain ⟨hlist, -, hobj⟩ := hfound.noSlot rfl
    rw [store_noSlot hslotFor]
    exact ⟨hlist, hobj⟩
  | some i =>
    rw [store_slot hslotFor] at h
    exact absurd h (by simp)

/-- What a set owns beforehand it has put into a slot, or it releases it. -/
theorem ownedBy_setReference (l : ReferenceList Key Value) (key : Option Key) (obj : Option Value)
    (policy : Policy) (fails : Bool) :
    ownedBy (setReference l key obj policy fails).1.list +
        ((setReference l key obj policy fails).2.1 : Multiset Value) =
      ownedBy l.list + ((Reference.owned ⟨key, obj, policy⟩).toList : Multiset Value) := by
  unfold setReference
  by_cases hflags : (!l.deallocating && !l.removing) = true
  · rw [if_pos hflags]
    have hstore := ownedBy_store l.list key obj policy fails
    rcases hafter : store l.list key obj policy fails with ⟨list', old, stored⟩
    show ownedBy list' + (((if (stored && obj.isSome) = true then [] else
      (Reference.owned ⟨key, obj, policy⟩).toList) ++ old.owned.toList : List Value) : Multiset Value) = _
    rw [hafter] at hstore
    rw [← Multiset.coe_add, add_left_comm, hstore, add_left_comm]
    congr 1
    cases stored with
    | false => simp
    | true =>
      cases obj with
      | none => simp [newReference, Reference.owned]
      | some v => simp [newReference, Reference.owned]
  · rw [if_neg hflags]
    show ownedBy l.list + (((Reference.owned ⟨key, obj, policy⟩).toList ++ [] : List Value) : Multiset Value) = _
    rw [List.append_nil]

end Libobjc2.Memory.Associations
