import Mathlib.Data.List.FinRange
import Mathlib.Order.Monotone.Basic

/-!
# The first entry of a table in an interval

A table of optional values over the naturals is searched from a position on. `FirstIn val m e r`
says that `r` is the first entry at an index from `m` up to, but not including, `e`.

* `FirstIn.append`: a search of an interval, and then of the next one.
* `FirstIn.unique`: an interval has one first entry.
* `firstSome`: the search of a list of parts, with an early exit and a failing read.
-/

namespace Libobjc2.Common

variable {V : Type*}

/-- `r` is the first entry of `val` in `[m, e)`, with its index. -/
def FirstIn (val : ℕ → Option V) (m e : ℕ) : Option (ℕ × V) → Prop
  | some (j, v) => m ≤ j ∧ j < e ∧ val j = some v ∧ ∀ k, m ≤ k → k < j → val k = none
  | none => ∀ k, m ≤ k → k < e → val k = none

variable {val val' : ℕ → Option V} {m e e' : ℕ} {r r' : Option (ℕ × V)}

theorem FirstIn.empty (h : e ≤ m) : FirstIn val m e none := fun k hm he => by omega

/-- One position. -/
theorem FirstIn.single (val : ℕ → Option V) (m : ℕ) :
    FirstIn val m (m + 1) ((val m).map fun v => (m, v)) := by
  cases hv : val m with
  | none =>
    intro k hm hk
    rw [show k = m by omega, hv]
  | some v => exact ⟨le_rfl, by omega, hv, fun k hm hk => by omega⟩

theorem FirstIn.append (h : FirstIn val m e r) (h' : FirstIn val e e' r') (hme : m ≤ e) (hee : e ≤ e') :
    FirstIn val m e' (r <|> r') := by
  cases r with
  | some jv =>
    obtain ⟨j, v⟩ := jv
    obtain ⟨hm, hj, hv, hbefore⟩ := h
    exact ⟨hm, by omega, hv, hbefore⟩
  | none =>
    cases r' with
    | none =>
      intro k hm hk
      by_cases hke : k < e
      · exact h k hm hke
      · exact h' k (by omega) hk
    | some jv =>
      obtain ⟨j, v⟩ := jv
      obtain ⟨hm, hj, hv, hbefore⟩ := h'
      refine ⟨by omega, hj, hv, fun k hk hkj => ?_⟩
      by_cases hke : k < e
      · exact h k hk hke
      · exact hbefore k (by omega) hkj

theorem FirstIn.congr (h : FirstIn val m e r) (hval : ∀ k, m ≤ k → k < e → val' k = val k) :
    FirstIn val' m e r := by
  cases r with
  | none => exact fun k hm he => by rw [hval k hm he, h k hm he]
  | some jv =>
    obtain ⟨j, v⟩ := jv
    obtain ⟨hm, hj, hv, hbefore⟩ := h
    exact ⟨hm, hj, by rw [hval j hm hj, hv], fun k hk hkj => by rw [hval k hk (by omega), hbefore k hk hkj]⟩

theorem FirstIn.unique (h : FirstIn val m e r) (h' : FirstIn val m e r') : r = r' := by
  cases r with
  | none =>
    cases r' with
    | none => rfl
    | some jv =>
      obtain ⟨hm, hj, hv, -⟩ := h'
      rw [h _ hm hj] at hv
      simp at hv
  | some jv =>
    obtain ⟨j, v⟩ := jv
    obtain ⟨hm, hj, hv, hbefore⟩ := h
    cases r' with
    | none =>
      rw [h' j hm hj] at hv
      simp at hv
    | some jv' =>
      obtain ⟨j', v'⟩ := jv'
      obtain ⟨hm', hj', hv', hbefore'⟩ := h'
      obtain hlt | heq | hgt := lt_trichotomy j j'
      · rw [hbefore' j hm hlt] at hv
        simp at hv
      · subst heq
        rw [hv] at hv'
        simpa using hv'
      · rw [hbefore j' hm' hgt] at hv'
        simp at hv'

/-- Search the parts in turn; a part whose search is undefined ends it. -/
def firstSome {α β : Type*} (f : α → Option (Option β)) : List α → Option (Option β)
  | [] => some none
  | a :: as =>
    match f a with
    | none => none
    | some (some b) => some (some b)
    | some none => firstSome f as

theorem firstSome_cons {α β : Type*} {f : α → Option (Option β)} {a : α} {as : List α} {x y : Option β}
    (h : f a = some x) (h' : firstSome f as = some y) : firstSome f (a :: as) = some (x <|> y) := by
  unfold firstSome
  rw [h]
  cases x with
  | none => exact h'
  | some b => rfl

/-- The parts `[bound s, bound (s + 1))` from `s = lo` on make up one interval. -/
theorem firstSome_interval {N : ℕ} (val : ℕ → Option V) (f : Fin N → Option (Option (ℕ × V))) (bound : ℕ → ℕ)
    (hmono : ∀ s, bound s ≤ bound (s + 1)) : ∀ (k lo : ℕ), lo + k = N →
    (∀ s : Fin N, lo ≤ s.val → ∃ r, f s = some r ∧ FirstIn val (bound s) (bound (s + 1)) r) →
    ∃ r, firstSome f ((List.finRange N).drop lo) = some r ∧ FirstIn val (bound lo) (bound N) r := by
  intro k
  induction k with
  | zero =>
    intro lo hlo _
    refine ⟨none, ?_, FirstIn.empty (by rw [show lo = N by omega])⟩
    rw [List.drop_eq_nil_of_le (by simp; omega)]
    rfl
  | succ k ih =>
    intro lo hlo hf
    have hlt : lo < (List.finRange N).length := by simp; omega
    obtain ⟨r, hr, hfirst⟩ := hf ⟨lo, by omega⟩ le_rfl
    obtain ⟨r', hr', hfirst'⟩ := ih (lo + 1) (by omega) fun s hs => hf s (by omega)
    rw [List.drop_eq_getElem_cons hlt]
    refine ⟨(r <|> r'), firstSome_cons (by simpa using hr) hr', hfirst.append hfirst' (hmono lo) ?_⟩
    exact monotone_nat_of_le_succ hmono (by omega)

end Libobjc2.Common
