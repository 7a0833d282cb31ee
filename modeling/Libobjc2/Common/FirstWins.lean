import Mathlib.Data.List.Nodup
import Mathlib.Tactic.Common

/-!
# Unions in which the first one wins

Lists of entries with keys, joined so that of the entries with one key only the first is kept.

Results:
* `firstsFrom_append`: several lists are joined one after the other.
* `nodup_firsts`, `find?_firsts`, `firsts_sublist`: every key has one entry, which is the first one, and the
  entries keep their order.
* `firstsFrom_of_known`: what is known already adds nothing.
* `clashes_eq`: the entries that are reported while joining are those that differ from the first of their key.
-/

namespace Libobjc2.Common

variable {α κ : Type*} [DecidableEq κ]

section

variable (key : α → κ)

/-- The first entry with this key. -/
def lookup (l : List α) (k : κ) : Option α := l.find? fun a => key a = k

/-- `merged` with the entries of `l` whose key is not there when their turn comes. -/
def firstsFrom : List α → List α → List α
  | merged, [] => merged
  | merged, a :: l =>
      if (lookup key merged (key a)).isSome then firstsFrom merged l else firstsFrom (merged ++ [a]) l

/-- The first entries of all keys, in their order. -/
def firsts (l : List α) : List α := firstsFrom key [] l

variable (same : α → α → Bool)

/-- The entries of `l` that are not the same as the entry of their key when their turn comes. -/
def clashes : List α → List α → List α
  | _, [] => []
  | merged, a :: l =>
    match lookup key merged (key a) with
    | some b => if same b a then clashes merged l else a :: clashes merged l
    | none => clashes (merged ++ [a]) l

/-- Whether an entry differs from the first one of its key. -/
def differs (l : List α) (a : α) : Bool := (lookup key l (key a)).any fun b => !same b a

end

variable {key : α → κ} {same : α → α → Bool}

/-! ## Looking up -/

theorem lookup_append (l l' : List α) (k : κ) : lookup key (l ++ l') k = (lookup key l k).or
    (lookup key l' k) :=
  List.find?_append

theorem lookup_cons (a : α) (l : List α) (k : κ) :
    lookup key (a :: l) k = if key a = k then some a else lookup key l k := by
  rw [lookup, List.find?_cons]
  by_cases h : key a = k <;> simp [h, lookup]

theorem lookup_some {l : List α} {k : κ} {a : α} (h : lookup key l k = some a) : a ∈ l ∧ key a = k := by
  rw [lookup] at h
  exact ⟨List.mem_of_find?_eq_some h, by simpa using List.find?_some h⟩

theorem lookup_isSome {l : List α} {k : κ} : (lookup key l k).isSome = true ↔ k ∈ l.map key := by
  simp [lookup]

theorem lookup_of_nodup {l : List α} (h : (l.map key).Nodup) {a : α} (ha : a ∈ l) :
    lookup key l (key a) = some a := by
  have hmem : key a ∈ l.map key := List.mem_map_of_mem ha
  obtain ⟨b, hb⟩ := Option.isSome_iff_exists.mp (lookup_isSome.mpr hmem)
  obtain ⟨hmem, hkey⟩ := lookup_some hb
  rwa [List.inj_on_of_nodup_map h hmem ha hkey] at hb

/-! ## Joining -/

theorem firstsFrom_append (merged l l' : List α) :
    firstsFrom key merged (l ++ l') = firstsFrom key (firstsFrom key merged l) l' := by
  induction l generalizing merged with
  | nil => rfl
  | cons a l ih =>
    rw [List.cons_append, firstsFrom, firstsFrom]
    split <;> exact ih _

theorem firstsFrom_map {β : Type*} (f : α → β) {key : β → κ} (merged l : List α) :
    firstsFrom key (merged.map f) (l.map f) = (firstsFrom (fun a => key (f a)) merged l).map f := by
  induction l generalizing merged with
  | nil => rfl
  | cons a l ih =>
    have hlookup : lookup key (merged.map f) (key (f a)) =
        (lookup (fun a => key (f a)) merged (key (f a))).map f := by
      simp [lookup, List.find?_map, Function.comp_def]
    rw [List.map_cons, firstsFrom, firstsFrom, hlookup, Option.isSome_map]
    split
    · exact ih merged
    · simpa using ih (merged ++ [a])

theorem nodup_firstsFrom (merged l : List α) (h : (merged.map key).Nodup) :
    ((firstsFrom key merged l).map key).Nodup := by
  induction l generalizing merged with
  | nil => exact h
  | cons a l ih =>
    rw [firstsFrom]
    split
    · exact ih merged h
    · rename_i hnew
      refine ih _ ?_
      rw [lookup_isSome] at hnew
      rw [List.map_append]
      exact h.append (List.nodup_singleton _) (by simpa using hnew)

theorem lookup_firstsFrom (merged l : List α) (k : κ) :
    lookup key (firstsFrom key merged l) k = lookup key (merged ++ l) k := by
  induction l generalizing merged with
  | nil => rw [firstsFrom, List.append_nil]
  | cons a l ih =>
    rw [firstsFrom]
    split
    · rename_i hold
      rw [ih, lookup_append, lookup_append, lookup_cons]
      by_cases hk : key a = k
      · obtain ⟨b, hb⟩ := Option.isSome_iff_exists.mp hold
        rw [← hk, hb, Option.some_or, Option.some_or]
      · rw [if_neg hk]
    · rw [ih, List.append_assoc, List.singleton_append]

theorem firstsFrom_sublist (merged l : List α) : (firstsFrom key merged l).Sublist (merged ++ l) := by
  induction l generalizing merged with
  | nil => rw [firstsFrom, List.append_nil]
  | cons a l ih =>
    rw [firstsFrom]
    split
    · exact (ih merged).trans ((List.Sublist.refl merged).append (List.sublist_cons_self a l))
    · simpa using ih (merged ++ [a])

/-- Entries whose keys are there already add nothing. -/
theorem firstsFrom_of_known {merged l : List α} (h : ∀ a ∈ l, key a ∈ merged.map key) :
    firstsFrom key merged l = merged := by
  induction l with
  | nil => rfl
  | cons a l ih =>
    rw [firstsFrom, if_pos (lookup_isSome.mpr (h a List.mem_cons_self))]
    exact ih fun b hb => h b (List.mem_cons_of_mem a hb)

theorem firstsFrom_of_nodup {merged l : List α} (h : ((merged ++ l).map key).Nodup) :
    firstsFrom key merged l = merged ++ l := by
  induction l generalizing merged with
  | nil => rw [firstsFrom, List.append_nil]
  | cons a l ih =>
    have hnew : ¬ (lookup key merged (key a)).isSome := by
      rw [lookup_isSome]
      intro hmem
      rw [List.map_append, List.map_cons] at h
      exact (List.nodup_append.mp h).2.2 _ hmem _ List.mem_cons_self rfl
    rw [firstsFrom, if_neg hnew, ih (by simpa using h)]
    simp

theorem nodup_firsts (l : List α) : ((firsts key l).map key).Nodup := nodup_firstsFrom [] l List.nodup_nil

theorem lookup_firsts (l : List α) (k : κ) : lookup key (firsts key l) k = lookup key l k :=
    lookup_firstsFrom [] l k

theorem firsts_sublist (l : List α) : (firsts key l).Sublist l := firstsFrom_sublist [] l

theorem firsts_of_nodup {l : List α} (h : (l.map key).Nodup) : firsts key l = l := firstsFrom_of_nodup h

theorem firsts_append (l l' : List α) : firsts key (l ++ l') = firstsFrom key (firsts key l) l' :=
  firstsFrom_append [] l l'

theorem mem_map_firsts {l : List α} {k : κ} : k ∈ (firsts key l).map key ↔ k ∈ l.map key := by
  rw [← lookup_isSome, lookup_firsts, lookup_isSome]

/-! ## Reports -/

/-- What is reported when `l` is joined to `merged`, which is what is left of `before`. -/
theorem clashes_eq (hrefl : ∀ a, same a a = true) (before l : List α) :
    clashes key same (firsts key before) l = l.filter (differs key same (before ++ l)) := by
  induction l generalizing before with
  | nil => rfl
  | cons a l ih =>
    have hfirst : lookup key (before ++ a :: l) (key a) =
        (lookup key (firsts key before) (key a)).or (some a) := by
      rw [lookup_append, lookup_cons, if_pos rfl, lookup_firsts]
    have hrest := ih (before ++ [a])
    rw [List.append_assoc, List.singleton_append, firsts_append, firstsFrom, firstsFrom, firstsFrom] at hrest
    rw [clashes]
    cases hold : lookup key (firsts key before) (key a) with
    | some b =>
      rw [hold, Option.some_or] at hfirst
      rw [hold, Option.isSome_some, if_pos rfl] at hrest
      by_cases hsame : same b a = true
      · rw [List.filter_cons_of_neg (by simp [differs, hfirst, hsame])]
        simpa [hsame] using hrest
      · rw [List.filter_cons_of_pos (by simp [differs, hfirst, hsame])]
        simpa [hsame] using hrest
    | none =>
      rw [hold, Option.none_or] at hfirst
      rw [hold, Option.isSome_none, if_neg (by simp)] at hrest
      rw [List.filter_cons_of_neg (by simp [differs, hfirst, hrefl])]
      exact hrest

theorem clashes_map {β : Type*} (f : α → β) {key : β → κ} {same : β → β → Bool} (merged l : List α) :
    clashes key same (merged.map f) (l.map f) =
      (clashes (fun a => key (f a)) (fun b a => same (f b) (f a)) merged l).map f := by
  induction l generalizing merged with
  | nil => rfl
  | cons a l ih =>
    have hlookup : lookup key (merged.map f) (key (f a)) =
        (lookup (fun a => key (f a)) merged (key (f a))).map f := by
      simp [lookup, List.find?_map, Function.comp_def]
    rw [List.map_cons, clashes, clashes, hlookup]
    cases lookup (fun a => key (f a)) merged (key (f a)) with
    | none => simpa using ih (merged ++ [a])
    | some b =>
      rw [Option.map_some]
      by_cases hsame : same (f b) (f a) = true
      · simpa [hsame] using ih merged
      · simpa [hsame] using ih merged

/-- More entries behind the others do not change what is first. -/
theorem filter_differs_append (l l' : List α) :
    (l ++ l').filter (differs key same (l ++ l')) = l.filter (differs key same l) ++ l'.filter
    (differs key same (l ++ l')) := by
  rw [List.filter_append]
  congr 1
  refine List.filter_congr fun a ha => ?_
  have hmem : key a ∈ l.map key := List.mem_map_of_mem ha
  obtain ⟨b, hb⟩ := Option.isSome_iff_exists.mp (lookup_isSome.mpr hmem)
  rw [differs, differs, lookup_append, hb, Option.some_or]

/-- The first entries do not differ from themselves. -/
theorem filter_differs_of_nodup (hrefl : ∀ a, same a a = true) {l : List α} (h : (l.map key).Nodup) :
    l.filter (differs key same l) = [] := by
  rw [List.filter_eq_nil_iff]
  intro a ha
  simp [differs, lookup_of_nodup h ha, hrefl]

end Libobjc2.Common
