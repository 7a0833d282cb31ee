import Mathlib.Data.List.Perm.Basic
import Mathlib.Data.List.TakeWhile
import Mathlib.Tactic.Common
import Libobjc2.Common.FirstWins

/-!
# Fields between separators

The non-empty fields of a text with a separator, and lists of entries with
keys that are put into a fixed order of the keys.

Results:

* `fields_append`, `fields_intercalate`: the fields of texts that are joined by
  the separator.
* `fields_dropWhile`, `fields_takeWhile`: the first field and the ones behind it.
* `exists_field_iff`: which elements can start a field that is not the first one.
* `perm_inOrder`: entries with distinct keys keep their number and themselves
  when they are put into an order that has all keys.
-/

namespace Libobjc2.Common

/-! ## Fields -/

theorem exists_intercalate_eq {α : Type*} (sep : α) {f : List α} {t : List (List α)} (h : f ∈ t)
    (g : List α) :
    ∃ pre post, [sep].intercalate (g :: t) = pre ++ sep :: (f ++ post) := by
  induction t generalizing g with
  | nil => exact absurd h List.not_mem_nil
  | cons g' t ih =>
    rw [List.intercalate_cons_cons]
    rcases List.mem_cons.mp h with rfl | h
    · cases t with
      | nil => exact ⟨g, [], by simp⟩
      | cons g'' t => exact ⟨g, sep :: [sep].intercalate (g'' :: t), by simp [List.intercalate_cons_cons]⟩
    · obtain ⟨pre, post, heq⟩ := ih h g'
      exact ⟨g ++ sep :: pre, post, by simp [heq]⟩

section

variable {α : Type*} [DecidableEq α] {sep : α}

/-- The fields that are not empty. -/
def fields (sep : α) (l : List α) : List (List α) := (l.splitOn sep).filter (· ≠ [])

theorem fields_nil : fields sep [] = [] := by simp [fields]

theorem fields_of_notMem {l : List α} (h : sep ∉ l) (hne : l ≠ []) : fields sep l = [l] := by
  simp [fields, List.splitOn_eq_singleton h, hne]

theorem fields_append (sep : α) (a b : List α) : fields sep (a ++ sep :: b) =
    fields sep a ++ fields sep b := by
  simp [fields, List.splitOn_append_cons_self]

theorem fields_cons_sep (l : List α) : fields sep (sep :: l) = fields sep l := by
  simpa [fields_nil] using fields_append sep [] l

theorem fields_intercalate {ps : List (List α)} : fields sep ([sep].intercalate ps) =
    ps.flatMap (fields sep) := by
  induction ps with
  | nil => simp [fields_nil]
  | cons p ps ih =>
    cases ps with
    | nil => simp
    | cons q ps =>
      rw [List.intercalate_cons_cons, List.flatMap_cons, ← ih]
      simpa using fields_append sep p ([sep].intercalate (q :: ps))

/-- Separators in front do not count. -/
theorem fields_dropWhile (l : List α) : fields sep (l.dropWhile (· = sep)) = fields sep l := by
  induction l with
  | nil => rfl
  | cons a l ih =>
    by_cases h : a = sep
    · subst h
      rw [List.dropWhile_cons_of_pos (by simp), ih, fields_cons_sep]
    · rw [List.dropWhile_cons_of_neg (by simpa using h)]

/-- The first field ends at the first separator. -/
theorem fields_takeWhile {a : α} (ha : a ≠ sep) (l : List α) :
    fields sep (a :: l) = (a :: l.takeWhile (· ≠ sep)) :: fields sep (l.dropWhile (· ≠ sep)) := by
  have hnot : sep ∉ a :: l.takeWhile (· ≠ sep) := by
    rw [List.mem_cons, not_or]
    refine ⟨Ne.symm ha, fun h => ?_⟩
    have := List.mem_takeWhile_imp h
    simp at this
  have hfirst := fields_of_notMem hnot (by simp)
  cases hdrop : l.dropWhile (· ≠ sep) with
  | nil =>
    have htake := List.takeWhile_append_dropWhile (p := (· ≠ sep)) (l := l)
    rw [hdrop, List.append_nil] at htake
    rw [htake] at hfirst ⊢
    rw [hfirst, fields_nil]
  | cons b rest =>
    have hb : b = sep := by
      have := List.head?_dropWhile_not (· ≠ sep) l
      rw [hdrop] at this
      simpa using this
    subst hb
    have hl := List.takeWhile_append_dropWhile (p := (· ≠ b)) (l := l)
    rw [hdrop] at hl
    conv_lhs => rw [← hl, ← List.cons_append]
    rw [fields_append, hfirst, fields_cons_sep]
    rfl

theorem notMem_of_mem_splitOn {l f : List α} (h : f ∈ l.splitOn sep) : sep ∉ f := by
  induction l generalizing f with
  | nil =>
    rw [List.splitOn_nil, List.mem_singleton] at h
    exact h ▸ List.not_mem_nil
  | cons a l ih =>
    rw [List.splitOn_cons_eq_if_modifyHead] at h
    split at h
    · rcases List.mem_cons.mp h with rfl | h
      · exact List.not_mem_nil
      · exact ih h
    · rename_i ha
      obtain ⟨g, t, ht⟩ := List.exists_cons_of_ne_nil (List.splitOn_ne_nil sep l)
      rw [ht] at h ih
      rcases List.mem_cons.mp h with rfl | h
      · rw [List.mem_cons, not_or]
        exact ⟨fun heq => ha (by simp [heq]), ih List.mem_cons_self⟩
      · exact ih (List.mem_cons_of_mem g h)

/-- What stands behind the first field's end: a field that starts behind a separator. -/
theorem exists_field_iff (l : List α) (a : α) :
    (∃ f, a :: f ∈ (l.splitOn sep).tail) ↔ a ≠ sep ∧ ∃ pre post, l = pre ++ sep :: a :: post := by
  constructor
  · rintro ⟨f, hf⟩
    obtain ⟨h, t, ht⟩ := List.exists_cons_of_ne_nil (List.splitOn_ne_nil sep l)
    rw [ht, List.tail_cons] at hf
    have hnot : sep ∉ a :: f := notMem_of_mem_splitOn (ht ▸ List.mem_cons_of_mem h hf)
    obtain ⟨pre, post, heq⟩ := exists_intercalate_eq sep hf h
    rw [← ht, List.intercalate_splitOn] at heq
    exact ⟨fun ha => hnot (ha ▸ List.mem_cons_self), pre, f ++ post, heq⟩
  · rintro ⟨ha, pre, post, rfl⟩
    obtain ⟨h, t, ht⟩ := List.exists_cons_of_ne_nil (List.splitOn_ne_nil sep pre)
    obtain ⟨h', t', ht'⟩ := List.exists_cons_of_ne_nil (List.splitOn_ne_nil sep post)
    refine ⟨h', ?_⟩
    rw [List.splitOn_append_cons_self, ht, List.splitOn_cons_eq_if_modifyHead (a := sep) a post, ht']
    simp [ha]

end

/-! ## A fixed order of the keys -/

section

variable {α κ : Type*} [DecidableEq κ] {key : α → κ}

/-- The entries in the order of their keys. -/
def inOrder (key : α → κ) (order : List κ) (l : List α) : List α := order.filterMap (lookup key l)

theorem mem_inOrder {order : List κ} {l : List α} {a : α} (hl : (l.map key).Nodup) :
    a ∈ inOrder key order l ↔ a ∈ l ∧ key a ∈ order := by
  rw [inOrder, List.mem_filterMap]
  constructor
  · rintro ⟨k, hk, ha⟩
    obtain ⟨hmem, rfl⟩ := lookup_some ha
    exact ⟨hmem, hk⟩
  · rintro ⟨ha, hk⟩
    exact ⟨key a, hk, lookup_of_nodup hl ha⟩

theorem lookup_inOrder (order : List κ) (l : List α) (k : κ) :
    lookup key (inOrder key order l) k = if k ∈ order then lookup key l k else none := by
  induction order with
  | nil => simp [inOrder, lookup]
  | cons k' order ih =>
    have hcons : inOrder key (k' :: order) l = (lookup key l k').toList ++ inOrder key order l := by
      cases h : lookup key l k' <;> simp [inOrder, h]
    have hfirst : lookup key (lookup key l k').toList k = if k' = k then lookup key l k' else none := by
      cases h : lookup key l k' with
      | none => simp [lookup]
      | some a => rw [Option.toList_some, lookup_cons, (lookup_some h).2]; rfl
    rw [hcons, lookup_append, ih, hfirst]
    by_cases hk : k' = k
    · subst hk
      cases lookup key l k' <;> simp
    · simp [hk, Ne.symm hk]

theorem nodup_inOrder (key : α → κ) {order : List κ} (h : order.Nodup) (l : List α) :
    (inOrder key order l).Nodup := by
  apply h.filterMap
  intro k k' a hk hk'
  rw [← (lookup_some hk).2, (lookup_some hk').2]

/-- Entries with distinct keys are all there, once. -/
theorem perm_inOrder {order : List κ} {l : List α} (horder : order.Nodup) (hl : (l.map key).Nodup)
    (h : ∀ a ∈ l, key a ∈ order) : (inOrder key order l).Perm l := by
  rw [List.perm_ext_iff_of_nodup (nodup_inOrder key horder l) hl.of_map]
  intro a
  rw [mem_inOrder hl]
  exact ⟨And.left, fun ha => ⟨ha, h a ha⟩⟩

end

end Libobjc2.Common
