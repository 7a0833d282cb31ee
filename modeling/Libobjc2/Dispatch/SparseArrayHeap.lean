import Libobjc2.Common.Holders
import Libobjc2.Dispatch.SparseArray

/-!
# Ownership of sparse-array nodes (`src/dispatch/sarray2.c`)

Every node but the static ones is owned by the slots that hold a pointer to it and by the
handles that callers have on it. `WellFormed h ext X` says that the reference count of each
node is the number of its owners, where `ext p` counts the handles on `p` and the nodes of
`X` are the ones that are being destroyed, whose slots own nothing any more.

Results:
* `WellFormed.survives`: a node keeps its owners, and so its place in the heap, as long as
  the nodes above it keep their data.
* `sparseArrayDestroyFuel_spec`: destroying gives up one handle, and frees exactly what no
  one owns any longer.
* `sparseArrayCopy_spec`: a copy owns the children of the original.
-/

namespace Libobjc2.Dispatch

open Libobjc2.Common

variable {V : Type}

/-! ## The invariant -/

/-- The number of slots that hold a pointer to `p`. -/
def Body.out (b : Body V) (p : ℕ) : ℕ := slots.countP fun i => (b.data i).toPointer = some p

/-- The number of slots of nodes outside `X` that hold a pointer to `p`. -/
def refs (h : Heap V) (X : Finset ℕ) (p : ℕ) : ℕ := holders h.body Body.out h.next X p

/-- The nodes form a forest of levels over the static nodes; the nodes in `X` are being
    destroyed and no one points to them. -/
structure Shaped (h : Heap V) (X : Finset ℕ) : Prop where
  statics : ∀ p < 5, h.nodes p = emptyNode p
  next_ge : 5 ≤ h.next
  fresh : ∀ p, h.next ≤ p → h.nodes p = none
  dying : ∀ x ∈ X, 5 ≤ x
  level : ∀ p b, h.body p = some b → ∃ l ≤ 3, b.shift = 8 * l
  leaf : ∀ p b, h.body p = some b → b.shift = 0 → ∀ i, ∃ v, b.data i = .value v
  child : ∀ p b, p ∉ X → h.body p = some b → b.shift ≠ 0 → ∀ i, ∃ q c,
    b.data i = .pointer q ∧ q ∉ X ∧ h.body q = some c ∧ c.shift + 8 = b.shift
  once : ∀ p b, p ∉ X → h.body p = some b → ∀ q, 5 ≤ q → b.out q ≤ 1
  failed : ∀ p, 5 ≤ p → h.fails p = true → h.nodes p = none
  freed_nodup : h.freed.Nodup
  mem_freed : ∀ p, p ∈ h.freed ↔ 5 ≤ p ∧ p < h.next ∧ h.fails p = false ∧ h.nodes p = none

/-- The reference counts are the numbers of owners. -/
structure WellFormed (h : Heap V) (ext : ℕ → ℕ) (X : Finset ℕ) : Prop extends Shaped h X where
  counts : ∀ p n, 5 ≤ p → p ∉ X → h.nodes p = some n →
    n.refCount = refs h X p + ext p ∧ 0 < n.refCount ∧ n.refCount < 2 ^ 32
  live : ∀ p, 0 < ext p → 5 ≤ p ∧ p ∉ X ∧ ∃ n, h.nodes p = some n

/-- One handle on `p`; handles on static nodes are not counted. -/
def credit (p q : ℕ) : ℕ := if q = p ∧ 5 ≤ p then 1 else 0

@[simp] theorem credit_self {p : ℕ} (hp : 5 ≤ p) : credit p p = 1 := by simp [credit, hp]

theorem credit_of_ne {p q : ℕ} (h : q ≠ p) : credit p q = 0 := by simp [credit, h]

theorem credit_of_lt {p : ℕ} (hp : p < 5) (q : ℕ) : credit p q = 0 := by
  simp only [credit]
  rw [if_neg (by omega)]

theorem isEmptyChild_iff (p : ℕ) : isEmptyChild p = true ↔ 1 ≤ p ∧ p < 5 := by
  simp only [isEmptyChild, Bool.or_eq_true, decide_eq_true_eq]
  simp only [emptyArray, emptyArray8, emptyArray16, emptyArray24]
  omega

/-! ## Contents of updated heaps -/

theorem body_eq_some {h : Heap V} {p : ℕ} {n : SparseArray V} (hn : h.nodes p = some n) :
    h.body p = some n.body := by
  simp [Heap.body, hn]

theorem body_eq_some_iff {h : Heap V} {p : ℕ} {b : Body V} :
    h.body p = some b ↔ ∃ n, h.nodes p = some n ∧ n.body = b := by
  rw [Heap.body, Option.map_eq_some_iff]

theorem body_eq_none_iff {h : Heap V} {p : ℕ} : h.body p = none ↔ h.nodes p = none := by
  simp [Heap.body]

/-- The heap after a store to the node at `p`. -/
def Heap.store (h : Heap V) (p : ℕ) (n : Option (SparseArray V)) : Heap V :=
  { h with nodes := Function.update h.nodes p n }

section Store

variable (h : Heap V) (p : ℕ) (n : Option (SparseArray V))

@[simp] theorem store_next : (h.store p n).next = h.next := rfl
@[simp] theorem store_freed : (h.store p n).freed = h.freed := rfl
@[simp] theorem store_fails : (h.store p n).fails = h.fails := rfl
@[simp] theorem store_nodes_self : (h.store p n).nodes p = n := Function.update_self ..

theorem store_nodes_of_ne {q : ℕ} (hne : q ≠ p) : (h.store p n).nodes q = h.nodes q :=
  Function.update_of_ne hne ..

theorem body_store : (h.store p n).body = Function.update h.body p (n.map SparseArray.body) := by
  funext q
  unfold Heap.body
  rcases eq_or_ne q p with rfl | hne
  · simp
  · rw [store_nodes_of_ne h p n hne, Function.update_of_ne hne]

end Store

theorem modify_eq_some {h : Heap V} {p : ℕ} {n : SparseArray V} (hn : h.nodes p = some n)
    (f : SparseArray V → SparseArray V) : h.modify p f = some (h.store p (some (f n))) := by
  simp [Heap.modify, hn, Heap.store]

theorem free_eq_some {h : Heap V} {p : ℕ} {n : SparseArray V} (hn : h.nodes p = some n) :
    h.free p = some { h.store p none with freed := p :: h.freed } := by
  simp [Heap.free, hn, Heap.store]

/-- Storing a reference count leaves the contents alone. -/
theorem body_store_setRefCount {h : Heap V} {p : ℕ} {n : SparseArray V} (hn : h.nodes p = some n)
    (c : ℕ) : (h.store p (some (n.setRefCount c))).body = h.body := by
  rw [body_store]
  exact Function.update_eq_self_iff.mpr (by rw [body_eq_some hn]; rfl)

/-! ## Consequences of the invariant -/

section

variable {h h' : Heap V} {ext : ℕ → ℕ} {X : Finset ℕ}

theorem Shaped.lt_next (hs : Shaped h X) {p : ℕ} {b : Body V} (hb : h.body p = some b) : p < h.next := by
  by_contra hge
  rw [body_eq_none_iff.mpr (hs.fresh p (by omega))] at hb
  cases hb

theorem Body.out_eq_zero {b : Body V} {p : ℕ} (h : ∀ i, b.data i ≠ .pointer p) : b.out p = 0 := by
  rw [Body.out, List.countP_eq_zero]
  intro i _ hi
  cases hw : b.data i with
  | value v => simp [hw, Word.toPointer] at hi
  | pointer q =>
    refine h i ?_
    rw [hw]
    simpa [hw, Word.toPointer] using hi

theorem Body.out_pos_iff {b : Body V} {p : ℕ} : 0 < b.out p ↔ ∃ i, b.data i = .pointer p := by
  rw [Body.out, List.countP_pos_iff]
  constructor
  · rintro ⟨i, _, hi⟩
    cases hw : b.data i with
    | value v => simp [hw, Word.toPointer] at hi
    | pointer q =>
      have : q = p := by simpa [hw, Word.toPointer] using hi
      exact ⟨i, by rw [hw, this]⟩
  · rintro ⟨i, hi⟩
    exact ⟨i, by simp [slots], by simp [hi, Word.toPointer]⟩

theorem refs_pos_iff {p : ℕ} : 0 < refs h X p ↔
    ∃ q < h.next, q ∉ X ∧ ∃ b, h.body q = some b ∧ ∃ i, b.data i = .pointer p := by
  simp only [refs, holders_pos_iff, Body.out_pos_iff]

/-- A slot that holds a pointer keeps the count of its target positive. -/
theorem Shaped.refs_pos (hs : Shaped h X) {p q : ℕ} {b : Body V} {i : Fin 256} (hX : q ∉ X)
    (hb : h.body q = some b) (hi : b.data i = .pointer p) : 0 < refs h X p :=
  refs_pos_iff.mpr ⟨q, hs.lt_next hb, hX, b, hb, i, hi⟩

/-- A pointer in a node points one level down. -/
theorem Shaped.child_of_pointer (hs : Shaped h X) {p q : ℕ} {b : Body V} {i : Fin 256} (hX : p ∉ X)
    (hb : h.body p = some b) (hi : b.data i = .pointer q) :
    q ∉ X ∧ ∃ c, h.body q = some c ∧ c.shift + 8 = b.shift := by
  have hne : b.shift ≠ 0 := by
    intro h0
    obtain ⟨v, hv⟩ := hs.leaf p b hb h0 i
    rw [hv] at hi
    cases hi
  obtain ⟨q', c, hq', hqX, hc, hshift⟩ := hs.child p b hX hb hne i
  rw [hi] at hq'
  cases hq'
  exact ⟨hqX, c, hc, hshift⟩

theorem Shaped.shift_le (hs : Shaped h X) {p : ℕ} {b : Body V} (hb : h.body p = some b) : b.shift ≤ 24 := by
  obtain ⟨l, hl, hbl⟩ := hs.level p b hb
  omega

theorem Shaped.static_slots (hs : Shaped h X) {p : ℕ} {b : Body V} (hp : p < 5) (hb : h.body p = some b)
    {i : Fin 256} {q : ℕ} (hi : b.data i = .pointer q) : q < 5 := by
  obtain ⟨n, hn, rfl⟩ := body_eq_some_iff.mp hb
  rw [hs.statics p hp] at hn
  interval_cases p <;> simp only [emptyNode, Option.some.injEq, reduceCtorEq] at hn <;> subst hn <;>
    simp only [SparseArray.body, Word.pointer.injEq, reduceCtorEq] at hi <;> subst hi <;> decide

/-- Nodes keep their place: where `h'` has no contents but those of `h`, and the nodes of
    `h₀` are all in `h` unchanged with their handles, they are in `h'` as well. The induction
    goes down from the top level. -/
theorem WellFormed.survives {h₀ : Heap V} {ext₀ : ℕ → ℕ} (hw₀ : WellFormed h₀ ext₀ ∅)
    (hw' : WellFormed h' ext ∅) (hext : ∀ p, 0 < ext₀ p → 0 < ext p)
    (hback : ∀ p b, h'.body p = some b → h.body p = some b)
    (hkept : ∀ p b, h₀.body p = some b → h.body p = some b) {p : ℕ} {b : Body V}
    (hb : h₀.body p = some b) : h'.body p = some b := by
  -- the distance to the top level
  obtain ⟨d, hd⟩ : ∃ d, b.shift + d = 24 := ⟨24 - b.shift, by have := hw₀.shift_le hb; omega⟩
  induction d using Nat.strong_induction_on generalizing p b with
  | _ d ih =>
    suffices hlive : ∃ c, h'.body p = some c by
      obtain ⟨c, hc⟩ := hlive
      have : c = b := Option.some.inj ((hback p c hc).symm.trans (hkept p b hb))
      rw [hc, this]
    by_cases hp : p < 5
    · obtain ⟨n, hn, rfl⟩ := body_eq_some_iff.mp hb
      rw [hw₀.statics p hp, ← hw'.statics p hp] at hn
      exact ⟨_, body_eq_some hn⟩
    obtain ⟨n, hn, rfl⟩ := body_eq_some_iff.mp hb
    obtain ⟨hcount, hpos, _⟩ := hw₀.counts p n (by omega) (by simp) hn
    rcases Nat.eq_zero_or_pos (ext₀ p) with h0 | hext0
    · obtain ⟨q, _, _, c, hc, i, hi⟩ := refs_pos_iff.mp (show 0 < refs h₀ ∅ p by omega)
      obtain ⟨_, e, he, hshift⟩ := hw₀.child_of_pointer (by simp) hc hi
      have heq : e = n.body := Option.some.inj (he.symm.trans hb)
      subst heq
      have hc' := ih (d - 8) (by have := hw₀.shift_le hc; omega) hc (by
        have := hw₀.shift_le hc
        omega)
      obtain ⟨_, e, he, _⟩ := hw'.child_of_pointer (by simp) hc' hi
      exact ⟨e, he⟩
    · obtain ⟨_, _, m, hm⟩ := hw'.live p (hext p hext0)
      exact ⟨_, body_eq_some hm⟩

end

/-- The heap before the first call. -/
theorem wellFormed_initial (fails : ℕ → Bool) : WellFormed (Heap.initial fails : Heap V) (fun _ => 0) ∅ := by
  have hnone : ∀ p, 5 ≤ p → (emptyNode p : Option (SparseArray V)) = none := by
    intro p hp
    obtain ⟨k, rfl⟩ := Nat.exists_eq_add_of_le' hp
    rfl
  have hcases : ∀ p b, (Heap.initial fails : Heap V).body p = some b →
      (p = 1 ∧ b = ⟨0, fun _ => .value none⟩) ∨ (p = 2 ∧ b = ⟨8, fun _ => .pointer emptyArray⟩) ∨
        (p = 3 ∧ b = ⟨16, fun _ => .pointer emptyArray8⟩) ∨
        (p = 4 ∧ b = ⟨24, fun _ => .pointer emptyArray16⟩) := by
    intro p b hb
    obtain ⟨n, hn, rfl⟩ := body_eq_some_iff.mp hb
    replace hn : emptyNode p = some n := hn
    by_cases hp : 5 ≤ p
    · rw [hnone p hp] at hn
      cases hn
    · interval_cases p <;> simp only [emptyNode, Option.some.injEq, reduceCtorEq] at hn <;> subst hn <;>
        simp [SparseArray.body]
  refine ⟨⟨fun _ _ => rfl, le_rfl, hnone, by simp, ?_, ?_, ?_, ?_, fun p hp _ => hnone p hp, List.nodup_nil,
    fun p => ?_⟩, fun p n hp _ hn => ?_, by simp⟩
  · intro p b hb
    rcases hcases p b hb with ⟨-, rfl⟩ | ⟨-, rfl⟩ | ⟨-, rfl⟩ | ⟨-, rfl⟩
    exacts [⟨0, by decide, rfl⟩, ⟨1, by decide, rfl⟩, ⟨2, by decide, rfl⟩, ⟨3, by decide, rfl⟩]
  · intro p b hb h0 i
    rcases hcases p b hb with ⟨-, rfl⟩ | ⟨-, rfl⟩ | ⟨-, rfl⟩ | ⟨-, rfl⟩
    exacts [⟨none, rfl⟩, absurd h0 (by simp), absurd h0 (by simp), absurd h0 (by simp)]
  · intro p b _ hb h0 i
    rcases hcases p b hb with ⟨-, rfl⟩ | ⟨-, rfl⟩ | ⟨-, rfl⟩ | ⟨-, rfl⟩
    exacts [absurd rfl h0, ⟨_, _, rfl, by simp, rfl, rfl⟩, ⟨_, _, rfl, by simp, rfl, rfl⟩,
      ⟨_, _, rfl, by simp, rfl, rfl⟩]
  · intro p b _ hb q hq
    have : b.out q = 0 := Body.out_eq_zero fun i hi => by
      rcases hcases p b hb with ⟨-, rfl⟩ | ⟨-, rfl⟩ | ⟨-, rfl⟩ | ⟨-, rfl⟩ <;>
        simp only [Word.pointer.injEq, reduceCtorEq, emptyArray, emptyArray8, emptyArray16] at hi <;> omega
    omega
  · constructor
    · intro hmem
      cases hmem
    · rintro ⟨h5, hlt, -⟩
      exact absurd hlt (Nat.not_lt.mpr h5)
  · rw [show (Heap.initial fails : Heap V).nodes p = emptyNode p from rfl, hnone p hp] at hn
    cases hn

/-! ## Reference counts -/

section

variable {h h' : Heap V} {ext ext' : ℕ → ℕ} {X : Finset ℕ} {p : ℕ} {n : SparseArray V}

/-- The shape of the heap is a matter of the contents. -/
theorem Shaped.congr (hs : Shaped h X) (hbody : h'.body = h.body) (hnext : h'.next = h.next)
    (hfreed : h'.freed = h.freed) (hfails : h'.fails = h.fails)
    (hstatics : ∀ p < 5, h'.nodes p = h.nodes p) : Shaped h' X := by
  have hnone : ∀ p, h'.nodes p = none ↔ h.nodes p = none := fun p => by
    rw [← body_eq_none_iff, hbody, body_eq_none_iff]
  refine ⟨fun p hp => (hstatics p hp).trans (hs.statics p hp), by rw [hnext]; exact hs.next_ge,
    fun p hp => (hnone p).mpr (hs.fresh p (by omega)), hs.dying, ?_, ?_, ?_, ?_,
    fun p hp hf => (hnone p).mpr (hs.failed p hp (by rwa [← hfails])), ?_, ?_⟩
  · rw [hbody]; exact hs.level
  · rw [hbody]; exact hs.leaf
  · rw [hbody]; exact hs.child
  · rw [hbody]; exact hs.once
  · rw [hfreed]; exact hs.freed_nodup
  · intro p
    rw [hfreed, hnext, hfails, hnone]
    exact hs.mem_freed p

theorem refs_congr (hbody : h'.body = h.body) (hnext : h'.next = h.next) (q : ℕ) :
    refs h' X q = refs h X q := by
  rw [refs, refs, hbody, hnext]

theorem Shaped.store_setRefCount (hs : Shaped h X) (hp : 5 ≤ p) (hn : h.nodes p = some n) (c : ℕ) :
    Shaped (h.store p (some (n.setRefCount c))) X :=
  hs.congr (body_store_setRefCount hn c) rfl rfl rfl fun q hq =>
    store_nodes_of_ne _ _ _ (by omega)

/-- Storing the reference count that the owners of one node ask for. -/
theorem WellFormed.store_setRefCount (hw : WellFormed h ext X) (hp : 5 ≤ p) (hX : p ∉ X)
    (hn : h.nodes p = some n) {c : ℕ} (hc : c = refs h X p + ext' p) (hpos : 0 < c) (hlt : c < 2 ^ 32)
    (hext : ∀ q ≠ p, ext' q = ext q) : WellFormed (h.store p (some (n.setRefCount c))) ext' X := by
  have hrefs : ∀ q, refs (h.store p (some (n.setRefCount c))) X q = refs h X q :=
    refs_congr (body_store_setRefCount hn c) rfl
  refine ⟨hw.toShaped.store_setRefCount hp hn c, fun q m hq hqX hm => ?_, fun q hq => ?_⟩
  · rw [hrefs]
    rcases eq_or_ne q p with rfl | hne
    · rw [store_nodes_self, Option.some.injEq] at hm
      subst hm
      exact ⟨hc, hpos, hlt⟩
    · rw [store_nodes_of_ne _ _ _ hne] at hm
      rw [hext q hne]
      exact hw.counts q m hq hqX hm
  · rcases eq_or_ne q p with rfl | hne
    · exact ⟨hp, hX, _, store_nodes_self ..⟩
    · rw [hext q hne] at hq
      rw [store_nodes_of_ne _ _ _ hne]
      exact hw.live q hq

/-! ## Destroying -/

/-- What destroying may do: nodes disappear, but keep their contents as long as they are
    there, and the nodes that are being destroyed are not touched. -/
structure Shrinks (h h' : Heap V) (X : Finset ℕ) : Prop where
  next_eq : h'.next = h.next
  fails_eq : h'.fails = h.fails
  back : ∀ p b, h'.body p = some b → h.body p = some b
  dying : ∀ x ∈ X, h'.nodes x = h.nodes x

theorem Shrinks.refl (h : Heap V) (X : Finset ℕ) : Shrinks h h X :=
  ⟨rfl, rfl, fun _ _ hb => hb, fun _ _ => rfl⟩

theorem Shrinks.trans {h'' : Heap V} (h1 : Shrinks h h' X) (h2 : Shrinks h' h'' X) : Shrinks h h'' X :=
  ⟨h2.next_eq.trans h1.next_eq, h2.fails_eq.trans h1.fails_eq, fun p b hb => h1.back p b (h2.back p b hb),
    fun x hx => (h2.dying x hx).trans (h1.dying x hx)⟩

/-- The handles that the slots `is` of a node that is being destroyed still have to give up. -/
def pending (data : Fin 256 → Word V) (is : List (Fin 256)) (q : ℕ) : ℕ :=
  if 5 ≤ q then is.countP fun i => (data i).toPointer = some q else 0

theorem pending_slots {n : SparseArray V} {q : ℕ} (hq : 5 ≤ q) :
    pending n.data slots q = n.body.out q := by
  rw [pending, if_pos hq]
  rfl

theorem pending_cons {data : Fin 256 → Word V} {i : Fin 256} {p : ℕ} (hi : data i = .pointer p)
    (is : List (Fin 256)) (q : ℕ) : pending data (i :: is) q = pending data is q + credit p q := by
  unfold pending credit
  rw [List.countP_cons, hi]
  by_cases hq : 5 ≤ q <;> by_cases hpq : q = p
  · subst hpq
    simp [hq, Word.toPointer]
  · have : p ≠ q := Ne.symm hpq
    simp [hq, hpq, this, Word.toPointer]
  · subst hpq
    simp [hq]
  · simp [hq, hpq]

/-- The last owner of a node gives it up: its slots become handles. -/
theorem WellFormed.start_dying (hw : WellFormed h (fun q => ext q + credit p q) X) (hp : 5 ≤ p)
    (hX : p ∉ X) (hn : h.nodes p = some n) (hlast : n.refCount = 1) :
    WellFormed (h.store p (some (n.setRefCount 0))) (fun q => ext q + pending n.data slots q)
      (insert p X) := by
  have hbody := body_store_setRefCount hn 0
  have hb := body_eq_some hn
  obtain ⟨hcount, -, -⟩ := hw.counts p n hp hX hn
  simp only [credit_self hp] at hcount
  have hnorefs : refs h X p = 0 := by omega
  have hnoext : ext p = 0 := by omega
  have hnoslot : ∀ q b i, q ∉ X → h.body q = some b → b.data i ≠ .pointer p := by
    intro q b i hqX hqb hi
    have := hw.refs_pos hqX hqb hi
    omega
  have hs := hw.toShaped.store_setRefCount hp hn 0
  refine ⟨⟨hs.statics, hs.next_ge, hs.fresh, ?_, hs.level, hs.leaf, ?_, ?_, hs.failed, hs.freed_nodup,
    hs.mem_freed⟩, ?_, ?_⟩
  · intro x hx
    rcases Finset.mem_insert.mp hx with rfl | hx
    · exact hp
    · exact hw.dying x hx
  · intro q b hq hqb h0 i
    rw [hbody] at hqb ⊢
    have hqX : q ∉ X := fun hx => hq (Finset.mem_insert_of_mem hx)
    obtain ⟨r, c, hr, hrX, hc, hshift⟩ := hw.child q b hqX hqb h0 i
    refine ⟨r, c, hr, fun hx => ?_, hc, hshift⟩
    rcases Finset.mem_insert.mp hx with rfl | hx
    · exact hnoslot q b i hqX hqb hr
    · exact hrX hx
  · intro q b hq hqb
    exact hs.once q b (fun hx => hq (Finset.mem_insert_of_mem hx)) hqb
  · intro q m hq hqX hm
    have hne : q ≠ p := fun h => hqX (h ▸ Finset.mem_insert_self ..)
    rw [store_nodes_of_ne _ _ _ hne] at hm
    obtain ⟨hc, hpos, hlt⟩ := hw.counts q m hq (fun hx => hqX (Finset.mem_insert_of_mem hx)) hm
    refine ⟨?_, hpos, hlt⟩
    have hins : refs h (insert p X) q + n.body.out q = refs h X q := by
      have := @holders_insert _ h.body Body.out h.next X q p (hw.lt_next hb) hX
      rwa [hb, outOf_some] at this
    rw [refs_congr hbody rfl, pending_slots hq, hc, credit_of_ne hne]
    omega
  · intro q hq
    by_cases hext : 0 < ext q
    · have hne : q ≠ p := by rintro rfl; omega
      obtain ⟨h1, h2, m, hm⟩ := hw.live q (by omega)
      exact ⟨h1, by simp [hne, h2], m, by rw [store_nodes_of_ne _ _ _ hne, hm]⟩
    · have hpend : 0 < pending n.data slots q := by omega
      have h5 : 5 ≤ q := by
        by_contra h5
        rw [pending, if_neg h5] at hpend
        omega
      rw [pending, if_pos h5] at hpend
      obtain ⟨i, hi⟩ := Body.out_pos_iff.mp (show 0 < n.body.out q from hpend)
      obtain ⟨hqX, c, hc, hshift⟩ := hw.child_of_pointer hX hb hi
      have hne : q ≠ p := by
        rintro rfl
        exact hnoslot _ _ i hX hb hi
      obtain ⟨m, hm, -⟩ := body_eq_some_iff.mp hc
      exact ⟨h5, by simp [hne, hqX], m, by rw [store_nodes_of_ne _ _ _ hne, hm]⟩

/-- A node whose slots own nothing any more is freed. -/
theorem WellFormed.free (hw : WellFormed h ext (insert p X)) (hX : p ∉ X) (hn : h.nodes p = some n) :
    WellFormed { h.store p none with freed := p :: h.freed } ext X := by
  have hp : 5 ≤ p := hw.dying p (Finset.mem_insert_self ..)
  have hbody : ({ h.store p none with freed := p :: h.freed } : Heap V).body =
      Function.update h.body p none := body_store h p none
  have hlt : p < h.next := hw.lt_next (body_eq_some hn)
  have hold : ∀ q b, Function.update h.body p none q = some b → q ≠ p ∧ h.body q = some b := by
    intro q b hb
    rcases eq_or_ne q p with rfl | hne
    · simp at hb
    · exact ⟨hne, by rwa [Function.update_of_ne hne] at hb⟩
  have hnodes : ∀ q, ({ h.store p none with freed := p :: h.freed } : Heap V).nodes q =
      if q = p then none else h.nodes q := by
    intro q
    split_ifs with he
    · rw [he]; exact store_nodes_self ..
    · exact store_nodes_of_ne _ _ _ he
  refine ⟨⟨?_, hw.next_ge, ?_, fun x hx => hw.dying x (Finset.mem_insert_of_mem hx), ?_, ?_, ?_, ?_, ?_,
    ?_, ?_⟩, ?_, ?_⟩
  · intro q hq
    rw [hnodes, if_neg (by omega)]
    exact hw.statics q hq
  · intro q hq
    rw [hnodes]
    split_ifs
    · rfl
    · exact hw.fresh q hq
  · intro q b hb
    rw [hbody] at hb
    exact hw.level q b (hold q b hb).2
  · intro q b hb
    rw [hbody] at hb
    exact hw.leaf q b (hold q b hb).2
  · intro q b hqX hb h0 i
    rw [hbody] at hb ⊢
    obtain ⟨hne, hb⟩ := hold q b hb
    obtain ⟨r, c, hr, hrX, hc, hshift⟩ := hw.child q b (by simp [hne, hqX]) hb h0 i
    rw [Finset.mem_insert, not_or] at hrX
    exact ⟨r, c, hr, hrX.2, by rw [Function.update_of_ne hrX.1, hc], hshift⟩
  · intro q b hqX hb
    rw [hbody] at hb
    obtain ⟨hne, hb⟩ := hold q b hb
    exact hw.once q b (by simp [hne, hqX]) hb
  · intro q hq hf
    rw [hnodes]
    split_ifs
    · rfl
    · exact hw.failed q hq hf
  · refine List.nodup_cons.mpr ⟨fun hmem => ?_, hw.freed_nodup⟩
    rw [hw.mem_freed, hn] at hmem
    simp at hmem
  · intro q
    rw [hnodes, List.mem_cons, hw.mem_freed]
    rcases eq_or_ne q p with rfl | hne
    · have : h.fails q = false := by
        by_contra hf
        rw [hw.failed q hp (by simpa using hf)] at hn
        cases hn
      simp [hp, this, hlt]
    · simp [hne]
  · intro q m hq hqX hm
    rw [hnodes] at hm
    split_ifs at hm with hne
    obtain ⟨hc, hpos, hlt'⟩ := hw.counts q m hq (by simp [hne, hqX]) hm
    refine ⟨?_, hpos, hlt'⟩
    rw [hc]
    congr 1
    have h1 := @holders_insert _ (Function.update h.body p none) Body.out h.next X q p hlt hX
    rw [Function.update_self, outOf_none, Nat.add_zero] at h1
    have h2 := @holders_write_of_mem _ h.body Body.out h.next (insert p X) q p
      (Finset.mem_insert_self ..) none
    rw [refs, refs, hbody]
    exact (h2.symm.trans h1)
  · intro q hq
    obtain ⟨h1, h2, m, hm⟩ := hw.live q hq
    rw [Finset.mem_insert, not_or] at h2
    exact ⟨h1, h2.2, m, by rw [hnodes, if_neg h2.1, hm]⟩

end

/-- Giving up a handle on a node that has other owners only decrements its count. -/
theorem sparseArrayDestroyFuel_shared {h : Heap V} {ext : ℕ → ℕ} {X : Finset ℕ} {p : ℕ}
    {n : SparseArray V} (fuel : ℕ) (hw : WellFormed h (fun q => ext q + credit p q) X) (hp : 5 ≤ p)
    (hX : p ∉ X) (hn : h.nodes p = some n) (hshared : 1 < n.refCount) :
    sparseArrayDestroyFuel (fuel + 1) h p = some (h.store p (some (n.setRefCount (n.refCount - 1)))) ∧
      WellFormed (h.store p (some (n.setRefCount (n.refCount - 1)))) ext X := by
  obtain ⟨hcount, _, hlt⟩ := hw.counts p n hp hX hn
  simp only [credit_self hp] at hcount
  have hsub : subRef n.refCount = n.refCount - 1 := by
    have := subRef_succ (show n.refCount - 1 < 2 ^ 32 by omega)
    rwa [Nat.sub_add_cancel (by omega)] at this
  constructor
  · have hstatic : (decide (p = null) || isEmptyChild p) = false := by
      rw [Bool.or_eq_false_iff, decide_eq_false_iff_not]
      refine ⟨by unfold null; omega, Bool.eq_false_iff.mpr fun h => ?_⟩
      have := (isEmptyChild_iff p).mp h
      omega
    rw [sparseArrayDestroyFuel, hstatic]
    simp only [Bool.false_eq_true, if_false, hn, Option.bind_eq_bind, Option.bind_some, hsub]
    rw [modify_eq_some hn, Option.bind_some, if_pos (by omega)]
    rfl
  · refine hw.store_setRefCount hp hX hn (by omega) (by omega) (by omega) fun q hne => ?_
    rw [credit_of_ne hne, Nat.add_zero]

/-- **Destroying gives up one handle.** The tree below `p` has fewer than `fuel` levels. -/
theorem sparseArrayDestroyFuel_spec : ∀ (fuel : ℕ) {h : Heap V} {ext : ℕ → ℕ} {X : Finset ℕ} {p : ℕ},
    WellFormed h (fun q => ext q + credit p q) X → (p < 5 → 0 < fuel) →
    (5 ≤ p → ∀ b, h.body p = some b → b.shift < 8 * fuel) →
    ∃ h', sparseArrayDestroyFuel fuel h p = some h' ∧ WellFormed h' ext X ∧ Shrinks h h' X := by
  intro fuel
  induction fuel with
  | zero =>
    intro h ext X p hw h0 hfuel
    have hp : 5 ≤ p := by
      by_contra hlt
      exact absurd (h0 (by omega)) (by omega)
    obtain ⟨-, -, n, hn⟩ := hw.live p (by simp [hp])
    have := hfuel hp _ (body_eq_some hn)
    omega
  | succ fuel ih =>
    intro h ext X p hw _ hfuel
    by_cases hp : 5 ≤ p
    swap
    · -- `NULL` and the static nodes are left alone
      have hstatic : (decide (p = null) || isEmptyChild p) = true := by
        rw [Bool.or_eq_true, decide_eq_true_eq, isEmptyChild_iff]
        unfold null
        omega
      refine ⟨h, by rw [sparseArrayDestroyFuel, hstatic]; rfl, ?_, Shrinks.refl h X⟩
      simpa [credit_of_lt (show p < 5 by omega)] using hw
    obtain ⟨-, hX, n, hn⟩ := hw.live p (by simp [hp])
    obtain ⟨hcount, hpos, hlt⟩ := hw.counts p n hp hX hn
    rcases Nat.lt_or_ge 1 n.refCount with hshared | hlast
    · obtain ⟨heq, hw'⟩ := sparseArrayDestroyFuel_shared fuel hw hp hX hn hshared
      refine ⟨_, heq, hw', rfl, rfl, fun q b hb => ?_, fun x hx => ?_⟩
      · rwa [body_store_setRefCount hn] at hb
      · exact store_nodes_of_ne _ _ _ (ne_of_mem_of_not_mem hx hX)
    · have hone : n.refCount = 1 := by omega
      have hshift := hfuel hp _ (body_eq_some hn)
      -- the slots are given up one after the other
      have hloop : ∀ (is : List (Fin 256)) (h₁ : Heap V), n.shift ≠ 0 →
          (∀ q b, h₁.body q = some b → h.body q = some b) →
          WellFormed h₁ (fun q => ext q + pending n.data is q) (insert p X) →
          ∃ h₂, is.foldlM (fun h i => (n.data i).toPointer.bind (sparseArrayDestroyFuel fuel h))
          h₁ = some h₂ ∧
            WellFormed h₂ ext (insert p X) ∧ Shrinks h₁ h₂ (insert p X) := by
        intro is
        induction is with
        | nil =>
          intro h₁ _ _ hw₁
          exact ⟨h₁, rfl, by simpa [pending] using hw₁, Shrinks.refl _ _⟩
        | cons i is ihis =>
          intro h₁ h0 hback hw₁
          obtain ⟨q, c, hq, -, hc, hcs⟩ := hw.child p _ hX (body_eq_some hn) h0 i
          replace hq : n.data i = .pointer q := hq
          have hcs' : c.shift + 8 = n.shift := hcs
          have hw₁' : WellFormed h₁ (fun r => (ext r + pending n.data is r) + credit q r) (insert p X) := by
            simpa only [pending_cons hq, ← Nat.add_assoc] using hw₁
          have hfuel0 : n.shift < 8 * (fuel + 1) := hshift
          obtain ⟨h₂, heq, hw₂, hshr⟩ := ih hw₁' (fun _ => by omega) fun _ b hb => by
            rw [Option.some.inj ((hback q b hb).symm.trans hc)]
            omega
          obtain ⟨h₃, heq', hw₃, hshr'⟩ := ihis h₂ h0 (fun r b hb => hback r b (hshr.back r b hb)) hw₂
          refine ⟨h₃, ?_, hw₃, hshr.trans hshr'⟩
          rw [List.foldlM_cons, hq]
          simp only [Word.toPointer, Option.bind_some, heq, Option.bind_eq_bind]
          exact heq'
      have hdying := hw.start_dying hp hX hn hone
      have hsub : subRef n.refCount = 0 := by rw [hone]; rfl
      have hstatic : (decide (p = null) || isEmptyChild p) = false := by
        rw [Bool.or_eq_false_iff, decide_eq_false_iff_not]
        refine ⟨by unfold null; omega, Bool.eq_false_iff.mpr fun h => ?_⟩
        have := (isEmptyChild_iff p).mp h
        omega
      obtain ⟨h₂, heq, hw₂, hshr⟩ : ∃ h₂,
          (if n.shift > 0 then
            slots.foldlM (fun h i => (n.data i).toPointer.bind (sparseArrayDestroyFuel fuel h))
              (h.store p (some (n.setRefCount 0)))
          else some (h.store p (some (n.setRefCount 0)))) = some h₂ ∧
          WellFormed h₂ ext (insert p X) ∧ Shrinks (h.store p (some (n.setRefCount 0))) h₂ (insert p X) := by
        split_ifs with h0
        · refine hloop slots _ (by omega) (fun q b hb => ?_) hdying
          rwa [body_store_setRefCount hn] at hb
        · refine ⟨_, rfl, ?_, Shrinks.refl _ _⟩
          have : ∀ q, pending n.data slots q = 0 := by
            intro q
            unfold pending
            split_ifs
            · refine Body.out_eq_zero (b := n.body) fun i hi => ?_
              obtain ⟨v, hv⟩ := hw.leaf p _ (body_eq_some hn) (by show n.shift = 0; omega) i
              rw [hv] at hi
              cases hi
            · rfl
          simpa [this] using hdying
      have hn₂ : h₂.nodes p = some (n.setRefCount 0) := by
        rw [hshr.dying p (Finset.mem_insert_self ..), store_nodes_self]
      refine ⟨_, ?_, hw₂.free hX hn₂, hshr.next_eq, hshr.fails_eq, fun q b hb => ?_, fun x hx => ?_⟩
      · rw [sparseArrayDestroyFuel, hstatic]
        simp only [Bool.false_eq_true, if_false, hn, Option.bind_eq_bind, Option.bind_some, hsub]
        rw [modify_eq_some hn, Option.bind_some, if_neg (Nat.lt_irrefl 0), ← free_eq_some hn₂]
        split_ifs at heq ⊢ with h0
        · rw [heq]
          rfl
        · rw [Option.some.inj heq]
      · have hbody : ({ h₂.store p none with freed := p :: h₂.freed } : Heap V).body =
            Function.update h₂.body p none := body_store h₂ p none
        rw [hbody] at hb
        rcases eq_or_ne q p with rfl | hne
        · simp at hb
        · rw [Function.update_of_ne hne] at hb
          have := hshr.back q b hb
          rwa [body_store_setRefCount hn] at this
      · have hne : x ≠ p := ne_of_mem_of_not_mem hx hX
        show (h₂.store p none).nodes x = _
        rw [store_nodes_of_ne _ _ _ hne, hshr.dying x (Finset.mem_insert_of_mem hx),
          store_nodes_of_ne _ _ _ hne]

/-! ## Allocating -/

section Alloc

variable {h h' : Heap V} {ext ext' : ℕ → ℕ}

/-- A request that fails uses up an address. -/
theorem WellFormed.calloc_fails (hw : WellFormed h ext ∅) (hf : h.fails h.next = true) :
    WellFormed { h with next := h.next + 1 } ext ∅ := by
  have hrefs : ∀ q, refs { h with next := h.next + 1 } ∅ q = refs h ∅ q := by
    intro q
    have hnone : h.body h.next = none := body_eq_none_iff.mpr (hw.fresh _ le_rfl)
    have := @holders_alloc _ h.body Body.out h.next ∅ q (by simp) none
    rwa [Function.update_eq_self_iff.mpr hnone.symm, outOf_none, Nat.add_zero] at this
  refine ⟨⟨hw.statics, Nat.le_succ_of_le hw.next_ge, fun p hp => hw.fresh p (Nat.le_of_succ_le hp),
    hw.dying, hw.level, hw.leaf, hw.child, hw.once, hw.failed, hw.freed_nodup, fun p => ?_⟩,
    fun p n hp hX hn => ?_, hw.live⟩
  · rw [hw.mem_freed]
    constructor
    · rintro ⟨h1, h2, h3⟩
      exact ⟨h1, Nat.lt_succ_of_lt h2, h3⟩
    · rintro ⟨h1, h2, h3, h4⟩
      rcases Nat.lt_succ_iff_lt_or_eq.mp h2 with h2 | rfl
      · exact ⟨h1, h2, h3, h4⟩
      · rw [show h.fails h.next = false from h3] at hf
        cases hf
  · rw [hrefs]
    exact hw.counts p n hp hX hn

/-- A new node with one handle, whose children gain an owner. -/
theorem WellFormed.calloc (hw : WellFormed h ext ∅) {b : Body V} (hok : h.fails h.next = false)
    (hbody : h'.body = Function.update h.body h.next (some b)) (hnext : h'.next = h.next + 1)
    (hfreed : h'.freed = h.freed) (hfails : h'.fails = h.fails)
    (hstatics : ∀ p < 5, h'.nodes p = h.nodes p) (hlevel : ∃ l ≤ 3, b.shift = 8 * l)
    (hleaf : b.shift = 0 → ∀ i, ∃ v, b.data i = .value v)
    (hchild : b.shift ≠ 0 → ∀ i, ∃ q c, b.data i = .pointer q ∧ h.body q = some c ∧ c.shift + 8 = b.shift)
    (honce : ∀ q, 5 ≤ q → b.out q ≤ 1)
    (hnew : ∃ m, h'.nodes h.next = some m ∧ m.refCount = 1) (hext : ext' h.next = 1)
    (hold : ∀ q m', 5 ≤ q → q ≠ h.next → h'.nodes q = some m' → ∃ m, h.nodes q = some m ∧
      m'.refCount + ext q = m.refCount + b.out q + ext' q ∧ 0 < m'.refCount ∧ m'.refCount < 2 ^ 32)
    (hlive : ∀ q ≠ h.next, 0 < ext' q → 0 < ext q) : WellFormed h' ext' ∅ := by
  have hge := hw.next_ge
  have hbody_old : ∀ q c, h.body q = some c → h'.body q = some c := by
    intro q c hc
    have hne : q ≠ h.next := (hw.lt_next hc).ne
    rw [hbody, Function.update_of_ne hne, hc]
  have hbody_cases : ∀ q c, h'.body q = some c → (q = h.next ∧ c = b) ∨ (q ≠ h.next ∧ h.body q = some c) := by
    intro q c hc
    rw [hbody] at hc
    rcases eq_or_ne q h.next with rfl | hne
    · rw [Function.update_self, Option.some.injEq] at hc
      exact Or.inl ⟨rfl, hc.symm⟩
    · rw [Function.update_of_ne hne] at hc
      exact Or.inr ⟨hne, hc⟩
  have hnone : ∀ q, q ≠ h.next → (h'.nodes q = none ↔ h.nodes q = none) := by
    intro q hne
    rw [← body_eq_none_iff, hbody, Function.update_of_ne hne, body_eq_none_iff]
  have hlive_new : h'.nodes h.next ≠ none := by
    obtain ⟨m, hm, -⟩ := hnew
    simp [hm]
  refine ⟨⟨fun p hp => (hstatics p hp).trans
      (hw.statics p hp), by omega, ?_, by simp, ?_, ?_, ?_, ?_, ?_, ?_, ?_⟩,
    ?_, ?_⟩
  · intro p hp
    exact (hnone p (by omega)).mpr (hw.fresh p (by omega))
  · intro p c hc
    rcases hbody_cases p c hc with ⟨-, rfl⟩ | ⟨-, hc⟩
    · exact hlevel
    · exact hw.level p c hc
  · intro p c hc
    rcases hbody_cases p c hc with ⟨-, rfl⟩ | ⟨-, hc⟩
    · exact hleaf
    · exact hw.leaf p c hc
  · intro p c hX hc h0 i
    rcases hbody_cases p c hc with ⟨-, rfl⟩ | ⟨-, hc⟩
    · obtain ⟨q, d, hq, hd, hs⟩ := hchild h0 i
      exact ⟨q, d, hq, by simp, hbody_old q d hd, hs⟩
    · obtain ⟨q, d, hq, -, hd, hs⟩ := hw.child p c hX hc h0 i
      exact ⟨q, d, hq, by simp, hbody_old q d hd, hs⟩
  · intro p c hX hc
    rcases hbody_cases p c hc with ⟨-, rfl⟩ | ⟨-, hc⟩
    · exact honce
    · exact hw.once p c hX hc
  · intro p hp hf
    rw [hfails] at hf
    have hne : p ≠ h.next := by
      rintro rfl
      rw [hok] at hf
      cases hf
    exact (hnone p hne).mpr (hw.failed p hp hf)
  · rw [hfreed]
    exact hw.freed_nodup
  · intro p
    rw [hfreed, hfails, hnext, hw.mem_freed]
    rcases eq_or_ne p h.next with rfl | hne
    · simp [hlive_new]
    · rw [hnone p hne]
      constructor
      · rintro ⟨h1, h2, h3⟩
        exact ⟨h1, by omega, h3⟩
      · rintro ⟨h1, h2, h3⟩
        exact ⟨h1, by omega, h3⟩
  · intro q m' hq _ hm'
    have hrefs : refs h' ∅ q = refs h ∅ q + b.out q := by
      rw [refs, hbody, hnext, holders_alloc (by simp), outOf_some]
      rfl
    rcases eq_or_ne q h.next with rfl | hne
    · -- no one knows the new address yet
      obtain ⟨m, hm, hone⟩ := hnew
      rw [hm, Option.some.injEq] at hm'
      subst hm'
      have hnorefs : refs h ∅ h.next = 0 := by
        by_contra hne
        obtain ⟨q, -, -, c, hc, i, hi⟩ := refs_pos_iff.mp (Nat.pos_of_ne_zero hne)
        obtain ⟨-, d, hd, -⟩ := hw.child_of_pointer (by simp) hc hi
        exact (hw.lt_next hd).ne rfl
      have hnoout : b.out h.next = 0 := by
        refine Body.out_eq_zero fun i hi => ?_
        by_cases h0 : b.shift = 0
        · obtain ⟨v, hv⟩ := hleaf h0 i
          rw [hi] at hv
          cases hv
        · obtain ⟨q, c, hq, hc, -⟩ := hchild h0 i
          rw [hi] at hq
          cases hq
          exact (hw.lt_next hc).ne rfl
      omega
    · obtain ⟨m, hm, hcount, hpos, hlt⟩ := hold q m' hq hne hm'
      obtain ⟨hc, -, -⟩ := hw.counts q m hq (by simp) hm
      exact ⟨by omega, hpos, hlt⟩
  · intro q hq
    rcases eq_or_ne q h.next with rfl | hne
    · obtain ⟨m, hm, -⟩ := hnew
      exact ⟨hge, by simp, m, hm⟩
    · obtain ⟨h1, -, m, hm⟩ := hw.live q (hlive q hne hq)
      have : h'.nodes q ≠ none := fun hn => by
        rw [hnone q hne, hm] at hn
        cases hn
      exact ⟨h1, by simp, Option.ne_none_iff_exists'.mp this⟩

end Alloc

/-! ## Copying -/

/-- Incrementing the children in the slots `is`, one after the other. -/
theorem foldlM_incrementChild {data : Fin 256 → Word V} : ∀ (is : List (Fin 256)) (h : Heap V),
    (∀ i ∈ is, ∃ q, data i = .pointer q ∧ q ≠ 0 ∧ ∃ m, h.nodes q = some m) →
    ∃ h', is.foldlM (fun h i => incrementChild h (data i)) h = some h' ∧
      h'.next = h.next ∧ h'.freed = h.freed ∧ h'.fails = h.fails ∧
      ∀ q, h'.nodes q =
        (h.nodes q).map fun m => m.setRefCount (addRef^[pending data is q] m.refCount) := by
  intro is
  induction is with
  | nil =>
    intro h _
    refine ⟨h, rfl, rfl, rfl, rfl, fun q => ?_⟩
    have : pending data [] q = 0 := by simp [pending]
    rw [this]
    cases h.nodes q <;> rfl
  | cons i is ih =>
    intro h hall
    obtain ⟨q, hq, hq0, m, hm⟩ := hall i (by simp)
    rw [List.foldlM_cons]
    by_cases hstatic : q < 5
    · have hinc : incrementChild h (data i) = some h := by
        have : isEmptyChild q = true := (isEmptyChild_iff q).mpr ⟨by omega, hstatic⟩
        simp [incrementChild, hq, Word.toPointer, this]
      obtain ⟨h', heq, hnext, hfreed, hfails, hnodes⟩ := ih h fun j hj => hall j (by simp [hj])
      refine ⟨h', ?_, hnext, hfreed, hfails, fun r => ?_⟩
      · rw [hinc]
        exact heq
      · rw [hnodes, pending_cons hq, credit_of_lt hstatic, Nat.add_zero]
    · have hinc : incrementChild h (data i) =
          some (h.store q (some (m.setRefCount (addRef m.refCount)))) := by
        have : isEmptyChild q = false := Bool.eq_false_iff.mpr fun he =>
          hstatic ((isEmptyChild_iff q).mp he).2
        simp [incrementChild, hq, Word.toPointer, this, modify_eq_some hm]
      obtain ⟨h', heq, hnext, hfreed, hfails, hnodes⟩ :=
        ih (h.store q (some (m.setRefCount (addRef m.refCount)))) fun j hj => by
          obtain ⟨r, hr, hr0, k, hk⟩ := hall j (by simp [hj])
          rcases eq_or_ne r q with rfl | hne
          · exact ⟨r, hr, hr0, _, store_nodes_self ..⟩
          · exact ⟨r, hr, hr0, k, by rw [store_nodes_of_ne _ _ _ hne, hk]⟩
      refine ⟨h', ?_, hnext, hfreed, hfails, fun r => ?_⟩
      · rw [hinc]
        exact heq
      · rw [hnodes, pending_cons hq]
        rcases eq_or_ne r q with rfl | hne
        · rw [store_nodes_self, hm, credit_self (by omega)]
          simp [SparseArray.setRefCount]
        · rw [store_nodes_of_ne _ _ _ hne, credit_of_ne hne, Nat.add_zero]

/-- What `SparseArrayCopy` does to the nodes. -/
theorem sparseArrayCopy_eq {h : Heap V} {p : ℕ} {n : SparseArray V} (hp : p ≠ null) (hnext : h.next ≠ null)
    (hn : h.nodes p = some n) (hf : h.fails h.next = false)
    (hchild : n.shift ≠ 0 → ∀ i, ∃ q, n.data i = .pointer q ∧ q ≠ 0 ∧ q ≠ h.next ∧ ∃ m, h.nodes q = some m)
    (hleaf : n.shift = 0 → ∀ i, ∃ v, n.data i = .value v) :
    ∃ h', sparseArrayCopy h p = some (h.next, h') ∧
      h'.next = h.next + 1 ∧ h'.freed = h.freed ∧ h'.fails = h.fails ∧
      ∀ q, h'.nodes q = (Function.update h.nodes h.next (some (n.setRefCount 1)) q).map fun m =>
        m.setRefCount (addRef^[pending n.data slots q] m.refCount) := by
  obtain ⟨h₁, hh₁⟩ : ∃ h₁ : Heap V, h₁ = { h with
    nodes := Function.update h.nodes h.next (some (n.setRefCount 1)), next := h.next + 1 } := ⟨_, rfl⟩
  have hcalloc : h.calloc (n.setRefCount 1) = (h.next, h₁) := by simp [Heap.calloc, hf, hh₁]
  rw [show Function.update h.nodes h.next (some (n.setRefCount 1)) = h₁.nodes by rw [hh₁]]
  suffices hloop : ∃ h', sparseArrayCopy h p = some (h.next, h') ∧
      h'.next = h₁.next ∧ h'.freed = h₁.freed ∧ h'.fails = h₁.fails ∧
      ∀ q, h'.nodes q =
        (h₁.nodes q).map fun m => m.setRefCount (addRef^[pending n.data slots q] m.refCount) by
    obtain ⟨h', heq, h1, h2, h3, h4⟩ := hloop
    exact ⟨h', heq, h1.trans (by rw [hh₁]), h2.trans (by rw [hh₁]), h3.trans (by rw [hh₁]), h4⟩
  by_cases h0 : n.shift = 0
  · have hpend : ∀ q, pending n.data slots q = 0 := by
      intro q
      by_cases hq : 5 ≤ q
      · rw [pending_slots hq]
        refine Body.out_eq_zero fun i hi => ?_
        obtain ⟨v, hv⟩ := hleaf h0 i
        rw [show n.data i = .pointer q from hi] at hv
        cases hv
      · rw [pending, if_neg hq]
    refine ⟨h₁, ?_, rfl, rfl, rfl, fun q => ?_⟩
    · simp [sparseArrayCopy, hp, hn, hcalloc, hnext, h0]
    · rw [hpend]
      cases h₁.nodes q <;> rfl
  · obtain ⟨h', heq, hrest⟩ := @foldlM_incrementChild _ n.data slots h₁ fun i _ => by
      obtain ⟨q, hq, hq0, hqn, m, hm⟩ := hchild h0 i
      refine ⟨q, hq, hq0, m, ?_⟩
      rw [hh₁]
      exact (Function.update_of_ne hqn ..).trans hm
    refine ⟨h', ?_, hrest⟩
    simp only [sparseArrayCopy, hp, hn, hcalloc, hnext, if_false, Option.bind_eq_bind, Option.bind_some]
    rw [if_pos (by omega), heq]
    rfl

/-- **A copy owns the children of the original.** The count of no child may overflow. -/
theorem sparseArrayCopy_spec {h : Heap V} {ext : ℕ → ℕ} {p : ℕ} {n : SparseArray V}
    (hw : WellFormed h ext ∅) (hp : 5 ≤ p) (hn : h.nodes p = some n)
    (hfew : ∀ i q m, n.data i = .pointer q → 5 ≤ q → h.nodes q = some m → m.refCount + 1 < 2 ^ 32) :
    (h.fails h.next = true ∧ sparseArrayCopy h p = some (null, { h with next := h.next + 1 })) ∨
    (h.fails h.next = false ∧ ∃ h', sparseArrayCopy h p = some (h.next, h') ∧
      WellFormed h' (fun q => ext q + credit h.next q) ∅ ∧ h'.next = h.next + 1 ∧ h'.fails = h.fails ∧
      h'.body = Function.update h.body h.next (some n.body) ∧
      ∀ q, q ≠ h.next → h'.nodes q =
        (h.nodes q).map fun m => m.setRefCount (m.refCount + pending n.data slots q)) := by
  have hge := hw.next_ge
  have hp0 : p ≠ null := by unfold null; omega
  have hnext0 : h.next ≠ null := by unfold null; omega
  have hb := body_eq_some hn
  cases hf : h.fails h.next with
  | true =>
    refine Or.inl ⟨rfl, ?_⟩
    simp [sparseArrayCopy, hp0, hn, Heap.calloc, hf]
  | false =>
    refine Or.inr ⟨rfl, ?_⟩
    obtain ⟨h', hcopy, hnext, hfreed, hfails, hnodes⟩ :=
      sparseArrayCopy_eq hp0 hnext0 hn hf (fun h0 i => by
        obtain ⟨q, c, hq, -, hc, -⟩ := hw.child p _ (by simp) hb h0 i
        obtain ⟨m, hm, -⟩ := body_eq_some_iff.mp hc
        refine ⟨q, hq, ?_, (hw.lt_next hc).ne, m, hm⟩
        rintro rfl
        rw [hw.statics 0 (by omega)] at hm
        cases hm) (hw.leaf p _ hb)
    -- no child is counted twice, and no count overflows
    have hout : ∀ q m, 5 ≤ q → h.nodes q = some m →
        addRef^[pending n.data slots q] m.refCount = m.refCount + pending n.data slots q ∧
          m.refCount + pending n.data slots q < 2 ^ 32 := by
      intro q m hq hm
      obtain ⟨-, -, hlt⟩ := hw.counts q m hq (by simp) hm
      have honce := hw.once p _ (by simp) hb q hq
      rw [pending_slots hq]
      rcases Nat.eq_zero_or_pos (n.body.out q) with h0 | hpos
      · rw [h0]
        exact ⟨rfl, hlt⟩
      · obtain ⟨i, hi⟩ := Body.out_pos_iff.mp hpos
        have hlt' := hfew i q m hi hq hm
        rw [show n.body.out q = 1 by omega]
        exact ⟨addRef_of_lt hlt', hlt'⟩
    have hold : ∀ q, q ≠ h.next → h'.nodes q =
        (h.nodes q).map fun m => m.setRefCount (m.refCount + pending n.data slots q) := by
      intro q hne
      rw [hnodes, Function.update_of_ne hne]
      cases hm : h.nodes q with
      | none => rfl
      | some m =>
        by_cases hq : 5 ≤ q
        · simp only [Option.map_some, (hout q m hq hm).1]
        · have : pending n.data slots q = 0 := by rw [pending, if_neg hq]
          simp only [Option.map_some, this]
          rfl
    have hself : h'.nodes h.next = some (n.setRefCount 1) := by
      have hpend : pending n.data slots h.next = 0 := by
        rw [pending_slots hge]
        refine Body.out_eq_zero fun i hi => ?_
        obtain ⟨-, c, hc, -⟩ := hw.child_of_pointer (by simp) hb hi
        exact (hw.lt_next hc).ne rfl
      rw [hnodes, Function.update_self, hpend]
      rfl
    have hbody : h'.body = Function.update h.body h.next (some n.body) := by
      funext q
      rcases eq_or_ne q h.next with rfl | hne
      · rw [Function.update_self, body_eq_some hself]
        rfl
      · rw [Function.update_of_ne hne, Heap.body, hold q hne]
        unfold Heap.body
        cases h.nodes q <;> rfl
    refine ⟨h', hcopy, ?_, hnext, hfails, hbody, hold⟩
    refine hw.calloc hf hbody hnext hfreed hfails ?_ (hw.level p _ hb) (hw.leaf p _ hb) ?_
        (hw.once p _ (by simp) hb) ⟨_, hself, rfl⟩ ?_ ?_ ?_
    · intro q hq
      rw [hold q (by omega), pending, if_neg (by omega)]
      cases h.nodes q <;> rfl
    · intro h0 i
      obtain ⟨q, c, hq, -, hc, hs⟩ := hw.child p _ (by simp) hb h0 i
      exact ⟨q, c, hq, hc, hs⟩
    · have : ext h.next = 0 := by
        by_contra hne
        obtain ⟨-, -, m, hm⟩ := hw.live h.next (by omega)
        rw [hw.fresh _ le_rfl] at hm
        cases hm
      simp [this, credit_self hge]
    · intro q m' hq hne hm'
      rw [hold q hne] at hm'
      obtain ⟨m, hm, rfl⟩ := Option.map_eq_some_iff.mp hm'
      obtain ⟨-, hpos, -⟩ := hw.counts q m hq (by simp) hm
      have hpend : pending n.data slots q = n.body.out q := pending_slots hq
      refine ⟨m, hm, ?_, ?_, (hout q m hq hm).2⟩
      · show m.refCount + pending n.data slots q + ext q = _
        rw [credit_of_ne hne, hpend]
        omega
      · show 0 < m.refCount + pending n.data slots q
        omega
    · intro q hne hq
      rwa [credit_of_ne hne, Nat.add_zero] at hq

end Libobjc2.Dispatch
