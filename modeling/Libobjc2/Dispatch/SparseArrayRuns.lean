import Libobjc2.Common.Run
import Libobjc2.Dispatch.SparseArrayInsert

/-!
# Sparse arrays are independent total functions

Callers hold any number of roots, made by `SparseArrayNewWithDepth`, `SparseArrayCopy` and
`SparseArrayExpandingArray`, which share sub-trees. To a caller each root is a table: a
depth `d` and a value for every index below `2 ^ d`.

Results:
* `refines_next`: every call keeps the relation `Refines` between heap and tables.
* `sharing_safe`: in every run in which no node ever has `2 ^ 32 - 1` owners, lookups read the
  tables, the reference counts are the numbers of owners, the nodes in the heap are those
  the roots reach, and the static nodes are never written.
* `sharing_overflows`: the 32-bit reference count is exact only up to that bound.
-/

namespace Libobjc2.Dispatch

open Libobjc2.Common

variable {V : Type}

/-! ## Calls and tables -/

/-- What a root means to its owner: the values at the indices below `2 ^ depth`. -/
structure Table (V : Type) where
  depth : ℕ
  content : ℕ → Option V

/-- Only the low `depth` bits of an index count. -/
def Table.insert (t : Table V) (index : ℕ) (value : Option V) : Table V :=
  { t with content := Function.update t.content (index % 2 ^ t.depth) value }

def Table.expand (t : Table V) (depth : ℕ) : Table V :=
  ⟨depth, fun i => if i < 2 ^ t.depth then t.content i else none⟩

inductive SparseOp (V : Type) where
  | new (depth : ℕ)
  | insert (root index : ℕ) (value : Option V)
  | copy (root : ℕ)
  | expand (root depth : ℕ)
  | destroy (root : ℕ)

/-- The heap, and the tables of the live roots. -/
structure Arrays (V : Type) where
  heap : Heap V
  tables : ℕ → Option (Table V)

/-- Before the first call; every allocation will succeed. -/
def Arrays.initial : Arrays V := ⟨Heap.initial fun _ => false, fun _ => none⟩

namespace Arrays

/-- One call: the heap after it, and the tables as the caller sees them. -/
def perform (s : Arrays V) : SparseOp V → Option (Arrays V)
  | .new depth => do
    let (r, h) ← sparseArrayNewWithDepth s.heap depth
    return ⟨h, if r = null then s.tables else Function.update s.tables r (some ⟨depth, fun _ => none⟩)⟩
  | .insert root index value => do
    let (inserted, h) ← sparseArrayInsert s.heap root index value
    return ⟨h, if inserted then Function.update s.tables root ((s.tables root).map (·.insert index value))
      else s.tables⟩
  | .copy root => do
    let (r, h) ← sparseArrayCopy s.heap root
    return ⟨h, if r = null then s.tables else Function.update s.tables r (s.tables root)⟩
  | .expand root depth => do
    let (r, h) ← sparseArrayExpandingArray s.heap root depth
    return ⟨h, if r = null || r = root then s.tables
      else Function.update (Function.update s.tables root none) r ((s.tables root).map (·.expand depth))⟩
  | .destroy root => do
    return ⟨← sparseArrayDestroy s.heap root, Function.update s.tables root none⟩

/-- The state after a call. -/
def next (s : Arrays V) (op : SparseOp V) : Arrays V := (s.perform op).getD s

/-- Calls are made on live roots. -/
def Callable (s : Arrays V) : SparseOp V → Prop
  | .new _ => True
  | .insert root _ _ | .copy root | .expand root _ | .destroy root => (s.tables root).isSome

/-- Every node has fewer than `2 ^ 32 - 1` owners. -/
def FewOwners (s : Arrays V) : Prop :=
  ∀ p < s.heap.next, ∀ n ∈ s.heap.nodes p, n.refCount + 1 < 2 ^ 32

instance (s : Arrays V) (op : SparseOp V) : Decidable (s.Callable op) := by
  unfold Callable
  split <;> infer_instance

instance (s : Arrays V) : Decidable s.FewOwners := inferInstanceAs (Decidable (∀ p < _, _))

end Arrays

/-! ## Specification -/

/-- The nodes that are found from `p`. -/
def Reaches (h : Heap V) : ℕ → ℕ → Prop :=
  Relation.ReflTransGen fun p q => ∃ b i, h.body p = some b ∧ b.data i = .pointer q

/-- The number of handles on `p`. -/
def handles (tables : ℕ → Option (Table V)) (p : ℕ) : ℕ := if (tables p).isSome then 1 else 0

/-- The roots are independent tables, and the nodes are owned exactly. -/
structure SharingSafe (s : Arrays V) : Prop where
  lookup : ∀ r t, s.tables r = some t → ∀ i < 2 ^ t.depth,
    sparseArrayLookup s.heap r i = some (t.content i)
  others : ∀ root index value r t, s.Callable (.insert root index value) → r ≠ root →
    s.tables r = some t → ∀ i < 2 ^ t.depth,
      sparseArrayLookup (s.next (.insert root index value)).heap r i = sparseArrayLookup s.heap r i
  owners : ∀ p n, 5 ≤ p → s.heap.nodes p = some n →
    n.refCount = refs s.heap ∅ p + handles s.tables p
  reached : ∀ p n, 5 ≤ p → s.heap.nodes p = some n → ∃ r, (s.tables r).isSome ∧ Reaches s.heap r p
  not_freed : ∀ r p, (s.tables r).isSome → Reaches s.heap r p → p ∉ s.heap.freed
  freed_once : s.heap.freed.Nodup ∧ ∀ p, p ∈ s.heap.freed ↔ 5 ≤ p ∧ p < s.heap.next ∧ s.heap.nodes p = none
  statics : ∀ p < 5, s.heap.nodes p = emptyNode p
  defined : ∀ op, s.Callable op → (s.perform op).isSome

/-! ## The refinement relation -/

/-- The root `r` reads like the table `t`, and no slot points to it. -/
structure RootOk (h : Heap V) (r : ℕ) (t : Table V) : Prop where
  reads : ∃ l ≤ 3, t.depth = 8 * (l + 1) ∧ (∃ b, h.body r = some b ∧ b.shift = 8 * l) ∧
    ∀ i, walk h l r i = some (t.content (i % 2 ^ t.depth))
  top : ¬ Referenced h r

structure Refines (s : Arrays V) : Prop where
  wf : WellFormed s.heap (handles s.tables) ∅
  succeeds : ∀ a, s.heap.fails a = false
  root : ∀ r t, s.tables r = some t → RootOk s.heap r t

section

variable {h h' : Heap V} {s : Arrays V} {r : ℕ} {t : Table V}

theorem handles_eq_one (hr : s.tables r = some t) : handles s.tables r = 1 := by simp [handles, hr]

theorem handles_eq_zero (hr : s.tables r = none) : handles s.tables r = 0 := by simp [handles, hr]

theorem Refines.root_live (hs : Refines s) (hr : s.tables r = some t) :
    5 ≤ r ∧ ∃ n, s.heap.nodes r = some n := by
  obtain ⟨h5, -, hn⟩ := hs.wf.live r (by rw [handles_eq_one hr]; omega)
  exact ⟨h5, hn⟩

theorem Shaped.not_referenced_next (hs : Shaped h ∅) : ¬ Referenced h h.next := by
  rintro ⟨q, b, i, hq, hi⟩
  obtain ⟨-, c, hc, -⟩ := hs.child_of_pointer (by simp) hq hi
  exact (hs.lt_next hc).ne rfl

theorem Refines.tables_next (hs : Refines s) : s.tables s.heap.next = none := by
  cases hr : s.tables s.heap.next with
  | none => rfl
  | some t =>
    obtain ⟨-, n, hn⟩ := hs.root_live hr
    rw [hs.wf.fresh _ le_rfl] at hn
    cases hn

/-- A root that does not lead to changed nodes reads as before. -/
theorem RootOk.keep (hr : RootOk h r t) (hs : Shaped h ∅) {W : Set ℕ}
    (hkept : ∀ q b, q ∉ W → h.body q = some b → h'.body q = some b)
    (hclosed : ∀ q b i c, q ∉ W → h.body q = some b → b.data i = .pointer c → c ∉ W) (hrW : r ∉ W)
    (href : Referenced h' r → Referenced h r) : RootOk h' r t := by
  obtain ⟨l, hl, hd, ⟨b, hb, hbs⟩, hwalk⟩ := hr.reads
  refine ⟨⟨l, hl, hd, ⟨b, hkept r b hrW hb, hbs⟩, fun i => ?_⟩, fun h' => hr.top (href h')⟩
  rw [← hwalk]
  exact walk_keep hs (L := 25) hkept (fun q b i c hq hqb _ hi => hclosed q b i c hq hqb hi) hrW hb
    (by omega) l i

/-- What an insert found, as the content of the new table. -/
theorem found_content {l index : ℕ} {value : Option V} (hd : t.depth = 8 * (l + 1))
    (hwalk : ∀ i, walk h l r i = some (t.content (i % 2 ^ t.depth)))
    (hfound : ∀ j, walk h' l r j =
      if j % 2 ^ (8 * (l + 1)) = index % 2 ^ (8 * (l + 1)) then some value else walk h l r j) (i : ℕ) :
    walk h' l r i = some ((t.insert index value).content (i % 2 ^ (t.insert index value).depth)) := by
  rw [hfound, ← hd, hwalk]
  show _ = some (Function.update t.content _ value (i % 2 ^ t.depth))
  by_cases hi : i % 2 ^ t.depth = index % 2 ^ t.depth
  · rw [if_pos hi, hi, Function.update_self]
  · rw [if_neg hi, Function.update_of_ne hi]

/-- A new root for a new node that only shares what was shared before. -/
theorem Refines.add_root (hs : Refines s) {b : Body V}
    (hw : WellFormed h' (fun q => handles s.tables q + credit s.heap.next q) ∅)
    (hfails : h'.fails = s.heap.fails) (hbody : h'.body = Function.update s.heap.body s.heap.next (some b))
    (href : ∀ q, 5 ≤ q → Referenced h' q → Referenced s.heap q)
    (hreads : ∃ l ≤ 3, t.depth = 8 * (l + 1) ∧ (∃ b, h'.body s.heap.next = some b ∧ b.shift = 8 * l) ∧
      ∀ i, walk h' l s.heap.next i = some (t.content (i % 2 ^ t.depth))) :
    Refines ⟨h', Function.update s.tables s.heap.next (some t)⟩ := by
  have hge := hs.wf.next_ge
  have hhandles : handles (Function.update s.tables s.heap.next (some t)) =
      fun q => handles s.tables q + credit s.heap.next q := by
    funext q
    rcases eq_or_ne q s.heap.next with rfl | hne
    · rw [credit_self hge, handles_eq_zero hs.tables_next]
      simp [handles]
    · rw [credit_of_ne hne, Nat.add_zero]
      simp [handles, Function.update_of_ne hne]
  refine ⟨?_, fun a => ?_, fun q u hq => ?_⟩
  · show WellFormed h' (handles (Function.update s.tables s.heap.next (some t))) ∅
    rw [hhandles]
    exact hw
  · show h'.fails a = false
    rw [hfails]
    exact hs.succeeds a
  · replace hq : Function.update s.tables s.heap.next (some t) q = some u := hq
    rcases eq_or_ne q s.heap.next with rfl | hne
    · rw [Function.update_self, Option.some.injEq] at hq
      subst hq
      exact ⟨hreads, fun hr => hs.wf.not_referenced_next (href _ hge hr)⟩
    · rw [Function.update_of_ne hne] at hq
      refine (hs.root q u hq).keep hs.wf.toShaped (W := ∅) (fun r c _ hr => ?_) (by simp) (by simp)
        (href q (hs.root_live hq).1)
      show h'.body r = some c
      rw [hbody, Function.update_of_ne (hs.wf.lt_next hr).ne, hr]

end

/-! ## Every call keeps the relation -/

section Calls

variable {s : Arrays V}

theorem refines_new (hs : Refines s) (depth : ℕ) :
    ∃ s', s.perform (.new depth) = some s' ∧ Refines s' := by
  by_cases hd : validDepth depth = true
  swap
  · refine ⟨s, ?_, hs⟩
    simp [Arrays.perform, sparseArrayNewWithDepth, hd]
  obtain ⟨l, hl, rfl⟩ : ∃ l ≤ 3, depth = 8 * (l + 1) := by
    simp only [validDepth, Bool.and_eq_true, decide_eq_true_eq] at hd
    exact ⟨depth / 8 - 1, by omega, by omega⟩
  obtain ⟨d, hdata, -⟩ := initPointers_spec hs.wf.toShaped hl
  obtain ⟨h₁, hcalloc, hw₁, -, hfails, hbody, -, hstatic, hreads⟩ :=
    hs.wf.calloc_empty hl hdata (hs.succeeds _)
  have hge := hs.wf.next_ge
  refine ⟨_, ?_, hs.add_root (t := ⟨8 * (l + 1), fun _ => none⟩) hw₁ hfails hbody ?_
    ⟨l, hl, rfl, ⟨_, by rw [hbody, Function.update_self], rfl⟩, hreads⟩⟩
  · have hdepth : 8 * (l + 1) - 8 = 8 * l := by omega
    have hne : s.heap.next ≠ null := by unfold null; omega
    simp [Arrays.perform, sparseArrayNewWithDepth, hd, hdepth, hdata, hcalloc, hne]
  · rintro q hq ⟨p, b, i, hp, hi⟩
    rw [hbody] at hp
    rcases eq_or_ne p s.heap.next with rfl | hne
    · rw [Function.update_self, Option.some.injEq] at hp
      subst hp
      exact absurd (hstatic i q hi) (by omega)
    · rw [Function.update_of_ne hne] at hp
      exact ⟨p, b, i, hp, hi⟩

theorem refines_copy (hs : Refines s) (hfew : s.FewOwners) {root : ℕ} {t : Table V}
    (hr : s.tables root = some t) : ∃ s', s.perform (.copy root) = some s' ∧ Refines s' := by
  obtain ⟨h5, n, hn⟩ := hs.root_live hr
  have hb := body_eq_some hn
  have hge := hs.wf.next_ge
  rcases sparseArrayCopy_spec hs.wf h5 hn (fun i q m _ _ hm => hfew q (hs.wf.lt_next (body_eq_some hm)) m hm)
    with ⟨hf, -⟩ | ⟨-, h', hcopy, hw', -, hfails, hbody, -⟩
  · rw [hs.succeeds] at hf
    cases hf
  have hold : ∀ q b, s.heap.body q = some b → h'.body q = some b := by
    intro q b hq
    rw [hbody, Function.update_of_ne (hs.wf.lt_next hq).ne, hq]
  have hself : h'.body s.heap.next = some n.body := by rw [hbody, Function.update_self]
  obtain ⟨l, hl, hd, ⟨b, hb', hbs⟩, hwalk⟩ := (hs.root root t hr).reads
  have hbn : b = n.body := Option.some.inj (hb'.symm.trans hb)
  subst hbn
  refine ⟨_, ?_, hs.add_root hw' hfails hbody ?_ ⟨l, hl, hd, ⟨_, hself, hbs⟩, fun i => ?_⟩⟩
  · have hne : s.heap.next ≠ null := by unfold null; omega
    simp [Arrays.perform, hcopy, hne, hr]
  · rintro q - ⟨p, b, i, hp, hi⟩
    rw [hbody] at hp
    rcases eq_or_ne p s.heap.next with rfl | hne
    · rw [Function.update_self, Option.some.injEq] at hp
      subst hp
      exact ⟨root, _, i, hb, hi⟩
    · rw [Function.update_of_ne hne] at hp
      exact ⟨p, b, i, hp, hi⟩
  · rw [walk_eq_of_body_eq hs.wf.toShaped hb hself hold, hwalk]

theorem refines_insert (hs : Refines s) (hfew : s.FewOwners) {root : ℕ} {t : Table V}
    (hr : s.tables root = some t) (index : ℕ) (value : Option V) :
    ∃ s', s.perform (.insert root index value) = some s' ∧ Refines s' ∧
      s'.tables = Function.update s.tables root (some (t.insert index value)) := by
  obtain ⟨h5, n, hn⟩ := hs.root_live hr
  have hb := body_eq_some hn
  obtain ⟨l, hl, hd, ⟨b, hb', hbs⟩, hwalk⟩ := (hs.root root t hr).reads
  have hbn : b = n.body := Option.some.inj (hb'.symm.trans hb)
  subst hbn
  obtain ⟨ok, h', W, heq, hins⟩ := sparseArrayInsertFuel_spec l 4 index value (by omega) hs.wf h5 hn hbs
    fun q m _ hm _ => hfew q (hs.wf.lt_next (body_eq_some hm)) m hm
  have hok : ok = true := hins.succeeds hs.succeeds
  subst hok
  have hhandles : handles (Function.update s.tables root (some (t.insert index value))) =
      handles s.tables := by
    funext q
    rcases eq_or_ne q root with rfl | hne
    · simp [handles, hr]
    · simp [handles, Function.update_of_ne hne]
  have hnew := @found_content _ s.heap h' root t l index value hd hwalk (hins.found rfl)
  refine ⟨⟨h', Function.update s.tables root (some (t.insert index value))⟩, ?_, ⟨?_, fun a => ?_,
    fun q u hq => ?_⟩, rfl⟩
  · simp [Arrays.perform, sparseArrayInsert, heq, hr]
  · show WellFormed h' (handles (Function.update s.tables root _)) ∅
    rw [hhandles]
    exact hins.wf
  · show h'.fails a = false
    rw [hins.fails_eq]
    exact hs.succeeds a
  · replace hq : Function.update s.tables root (some (t.insert index value)) q = some u := hq
    rcases eq_or_ne q root with rfl | hne
    · rw [Function.update_self, Option.some.injEq] at hq
      subst hq
      refine ⟨⟨l, hl, hd, hins.self, hnew⟩, fun href => (hs.root q t hr).top ?_⟩
      exact hins.referenced q h5 (hs.wf.lt_next hb) href
    · rw [Function.update_of_ne hne] at hq
      obtain ⟨hq5, m, hm⟩ := hs.root_live hq
      refine (hs.root q u hq).keep hs.wf.toShaped hins.kept (fun p b i c hp hpb hi hc => ?_) (fun hqW => ?_)
        (hins.referenced q hq5 (hs.wf.lt_next (body_eq_some hm)))
      · rcases eq_or_ne c root with rfl | hcr
        · exact (hs.root c t hr).top ⟨p, b, i, hpb, hi⟩
        · exact hp ((hins.owned c hc hcr).2 p b i hpb hi)
      · have := (hins.owned q hqW hne).1
        rw [handles_eq_one hq] at this
        omega

theorem refines_destroy (hs : Refines s) {root : ℕ} {t : Table V} (hr : s.tables root = some t) :
    ∃ s', s.perform (.destroy root) = some s' ∧ Refines s' := by
  obtain ⟨h5, n, hn⟩ := hs.root_live hr
  have hhandles : handles s.tables =
      fun q => handles (Function.update s.tables root none) q + credit root q := by
    funext q
    rcases eq_or_ne q root with rfl | hne
    · simp [handles, hr, credit_self h5]
    · simp [handles, Function.update_of_ne hne, credit_of_ne hne]
  have hw := hs.wf
  rw [hhandles] at hw
  obtain ⟨h', heq, hw', hshr⟩ := sparseArrayDestroyFuel_spec 4 hw (by omega) fun _ b hb => by
    have := hs.wf.shift_le hb
    omega
  refine ⟨⟨h', Function.update s.tables root none⟩, ?_, hw', fun a => ?_, fun q u hq => ?_⟩
  · simp [Arrays.perform, sparseArrayDestroy, heq]
  · show h'.fails a = false
    rw [hshr.fails_eq]
    exact hs.succeeds a
  · -- what is left reads as before
    obtain ⟨-, -, m, hm⟩ := hw'.live q (by
      replace hq : Function.update s.tables root none q = some u := hq
      simp [handles, hq])
    replace hq : Function.update s.tables root none q = some u := hq
    rcases eq_or_ne q root with rfl | hne
    · simp at hq
    rw [Function.update_of_ne hne] at hq
    obtain ⟨l, hl, hd, ⟨b, hb, hbs⟩, hwalk⟩ := (hs.root q u hq).reads
    have hmb : m.body = b := Option.some.inj ((hshr.back q _ (body_eq_some hm)).symm.trans hb)
    subst hmb
    refine ⟨⟨l, hl, hd, ⟨_, body_eq_some hm, hbs⟩, fun i => ?_⟩, ?_⟩
    · rw [← hwalk]
      exact (walk_keep hw'.toShaped (W := ∅) (L := 25) (fun p c _ hp => hshr.back p c hp) (by simp) (by simp)
        (body_eq_some hm) (by omega) l i).symm
    · rintro ⟨p, c, i, hp, hi⟩
      exact (hs.root q u hq).top ⟨p, c, i, hshr.back p c hp, hi⟩

theorem Table.expand_expand (t : Table V) {d d' : ℕ} (h : t.depth ≤ d) :
    (t.expand d).expand d' = t.expand d' := by
  unfold Table.expand
  congr 1
  funext i
  by_cases hi : i < 2 ^ t.depth
  · have := Nat.pow_le_pow_right (show 0 < 2 by decide) h
    simp [hi, show i < 2 ^ d by omega]
  · simp [hi]

theorem topData_out {empty root q shift : ℕ} (hempty : empty < 5) (hroot : 5 ≤ root) (hq : 5 ≤ q) :
    Body.out (⟨shift, topData empty root⟩ : Body V) q = credit root q := by
  have hout := out_setData (⟨shift, 1, fun _ => .pointer empty⟩ : SparseArray V) 0 (.pointer root) q
  have hzero : (⟨shift, 1, fun _ => .pointer empty⟩ : SparseArray V).body.out q = 0 :=
    Body.out_eq_zero fun i hi => by
      have : empty = q := Word.pointer.inj (show Word.pointer empty = Word.pointer q from hi)
      omega
  have hold : holds (.pointer empty : Word V) q = 0 := by
    have : empty ≠ q := by omega
    simp [holds, Word.toPointer, this]
  have hnew : holds (.pointer root : Word V) q = credit root q := by
    unfold holds credit Word.toPointer
    by_cases hqr : q = root
    · simp [hqr, hroot]
    · simp [hqr, Ne.symm hqr]
  rw [hzero, hnew] at hout
  have hdata : (⟨shift, 1, fun _ => .pointer empty⟩ : SparseArray V).data 0 = .pointer empty := rfl
  rw [hdata, hold] at hout
  exact (Nat.add_zero _).symm.trans (hout.trans (Nat.zero_add _))

/-- One turn of the loop of `SparseArrayExpandingArray`. -/
theorem Refines.expandOnce (hs : Refines s) {root : ℕ} {t : Table V} (hr : s.tables root = some t) {l : ℕ}
    (hd : t.depth = 8 * (l + 1)) (hl : l + 1 ≤ 3) :
    ∃ n empty h₁, s.heap.nodes root = some n ∧ emptyChildForShift (n.shift + 8) = some empty ∧
      s.heap.calloc ⟨n.shift + 8, 1, topData empty root⟩ = (s.heap.next, h₁) ∧
      s.heap.next < h₁.next ∧
      Refines ⟨h₁, Function.update (Function.update s.tables root none) s.heap.next
        (some (t.expand (t.depth + 8)))⟩ := by
  obtain ⟨h5, n, hn⟩ := hs.root_live hr
  have hb := body_eq_some hn
  have hge := hs.wf.next_ge
  have hlt := hs.wf.lt_next hb
  obtain ⟨l', hl', hd', ⟨b, hb', hbs⟩, hwalk⟩ := (hs.root root t hr).reads
  obtain rfl : b = n.body := Option.some.inj (hb'.symm.trans hb)
  obtain rfl : l' = l := by omega
  have hshift : n.shift = 8 * l' := hbs
  -- the static child of the new level
  obtain ⟨d, hdata, -, hinner⟩ := initPointers_spec hs.wf.toShaped hl
  obtain ⟨e, c, he5, hc, hcs, hptr⟩ := hinner (by omega)
  have hempty : emptyChildForShift (n.shift + 8) = some e := by
    rw [initPointers, if_pos (by omega), Option.map_eq_some_iff] at hdata
    obtain ⟨e', he', hd⟩ := hdata
    have := congrFun hd 0
    rw [hptr] at this
    cases this
    rw [hshift, show 8 * l' + 8 = 8 * (l' + 1) by ring, he']
  obtain ⟨h₁, hh₁⟩ : ∃ h₁ : Heap V, h₁ = { s.heap with
    nodes := Function.update s.heap.nodes s.heap.next (some ⟨n.shift + 8, 1, topData e root⟩),
    next := s.heap.next + 1 } := ⟨_, rfl⟩
  have hself : h₁.nodes s.heap.next = some ⟨n.shift + 8, 1, topData e root⟩ := by
    rw [hh₁]
    exact Function.update_self ..
  have hold : ∀ q, q ≠ s.heap.next → h₁.nodes q = s.heap.nodes q := fun q hne => by
    rw [hh₁]
    exact Function.update_of_ne hne ..
  have hbody : h₁.body = Function.update s.heap.body s.heap.next (some ⟨n.shift + 8, topData e root⟩) := by
    rw [hh₁]
    exact body_store s.heap s.heap.next (some ⟨n.shift + 8, 1, topData e root⟩)
  have hkept : ∀ q b, s.heap.body q = some b → h₁.body q = some b := by
    intro q b hq
    rw [hbody, Function.update_of_ne (hs.wf.lt_next hq).ne, hq]
  have hslot : ∀ i, topData e root i = if i = 0 then (.pointer root : Word V) else .pointer e := by
    intro i
    unfold topData
    by_cases hi : i = 0
    · rw [hi, Function.update_self, if_pos rfl]
    · rw [Function.update_of_ne hi, if_neg hi]
  have hroot_ne : root ≠ s.heap.next := hlt.ne
  have hhandles : ∀ q, handles (Function.update (Function.update s.tables root none) s.heap.next
      (some (t.expand (t.depth + 8)))) q + credit root q = handles s.tables q + credit s.heap.next q := by
    intro q
    rcases eq_or_ne q s.heap.next with rfl | hne
    · rw [credit_self hge, credit_of_ne hroot_ne.symm, handles_eq_zero hs.tables_next]
      simp [handles]
    · rw [credit_of_ne hne]
      rcases eq_or_ne q root with rfl | hqr
      · rw [handles_eq_one hr, credit_self h5]
        simp [handles, Function.update_of_ne hne]
      · rw [credit_of_ne hqr]
        simp [handles, Function.update_of_ne hne, Function.update_of_ne hqr]
  have hw₁ : WellFormed h₁ (handles (Function.update (Function.update s.tables root none) s.heap.next
      (some (t.expand (t.depth + 8))))) ∅ := by
    refine hs.wf.calloc (hs.succeeds _) hbody (by rw [hh₁]) (by rw [hh₁]) (by rw [hh₁])
      (fun q hq => hold q (by omega)) ⟨l' + 1, hl, by show n.shift + 8 = _; omega⟩
      (fun h0 => absurd h0 (by simp)) (fun _ i => ?_) (fun q hq => ?_) ⟨_, hself, rfl⟩
      (by simp [handles]) (fun q m hq hne hm => ?_) (fun q hne hq => ?_)
    · show ∃ q c, topData e root i = .pointer q ∧ _
      rw [hslot]
      by_cases hi : i = 0
      · exact ⟨root, _, by rw [if_pos hi], hb, rfl⟩
      · refine ⟨e, c, by rw [if_neg hi], hc, ?_⟩
        show c.shift + 8 = n.shift + 8
        omega
    · rw [topData_out he5 h5 hq]
      unfold credit
      split_ifs <;> omega
    · rw [hold q hne] at hm
      obtain ⟨-, hpos, hlt'⟩ := hs.wf.counts q m hq (by simp) hm
      refine ⟨m, hm, ?_, hpos, hlt'⟩
      have := hhandles q
      rw [topData_out he5 h5 hq]
      rw [credit_of_ne hne] at this
      omega
    · have := hhandles q
      rw [credit_of_ne hne] at this
      omega
  refine ⟨n, e, h₁, hn,
      hempty, by simp [Heap.calloc, hs.succeeds, hh₁], by rw [hh₁]; exact Nat.lt_succ_self _,
    hw₁, fun a => ?_, fun q u hq => ?_⟩
  · show h₁.fails a = false
    rw [hh₁]
    exact hs.succeeds a
  · replace hq : Function.update (Function.update s.tables root none) s.heap.next
      (some (t.expand (t.depth + 8))) q = some u := hq
    have href : ∀ q, 5 ≤ q → q ≠ root → Referenced h₁ q → Referenced s.heap q := by
      rintro q hq hne ⟨p, b, i, hp, hi⟩
      rw [hbody] at hp
      rcases eq_or_ne p s.heap.next with rfl | hpn
      · rw [Function.update_self, Option.some.injEq] at hp
        subst hp
        replace hi : topData e root i = .pointer q := hi
        rw [hslot] at hi
        split_ifs at hi
        · exact absurd (by simpa using hi) hne.symm
        · have : e = q := by simpa using hi
          omega
      · rw [Function.update_of_ne hpn] at hp
        exact ⟨p, b, i, hp, hi⟩
    rcases eq_or_ne q s.heap.next with rfl | hne
    · rw [Function.update_self, Option.some.injEq] at hq
      subst hq
      refine ⟨⟨l' + 1, hl, ?_, ⟨_, body_eq_some hself, ?_⟩, fun i => ?_⟩, fun hr' =>
        hs.wf.not_referenced_next (href _ hge hroot_ne.symm hr')⟩
      · show t.depth + 8 = _
        omega
      · show n.shift + 8 = _
        omega
      · -- the old root sits in slot 0
        have hdeep : t.depth + 8 = 8 * (l' + 1 + 1) := by omega
        have hmask := maskIndex_eq_iff (l' + 1) i (i % 2 ^ t.depth)
        rw [← hd, ← hdeep, Nat.mod_mod] at hmask
        have hzero : maskIndex t.depth (i % 2 ^ t.depth) = 0 := by
          refine Fin.ext ?_
          show (i % 2 ^ t.depth) >>> t.depth % 256 = 0
          rw [Nat.shiftRight_eq_div_pow, Nat.div_eq_of_lt (Nat.mod_lt _ (Nat.two_pow_pos _))]
        have hsmall : i % 2 ^ t.depth % 2 ^ (t.depth + 8) = i % 2 ^ t.depth :=
          Nat.mod_eq_of_lt ((Nat.mod_lt _ (Nat.two_pow_pos _)).trans_le
            (Nat.pow_le_pow_right (by decide) (by omega)))
        rw [hsmall, hzero, and_iff_left rfl] at hmask
        show walk h₁ (l' + 1) s.heap.next i = some (if i % 2 ^ (t.depth + 8) < 2 ^ t.depth then
          t.content (i % 2 ^ (t.depth + 8)) else none)
        by_cases hi0 : maskIndex t.depth i = 0
        · rw [walk_succ (body_eq_some hself) (q := root) (by
            show topData e root _ = _
            rw [← hd, hslot, if_pos hi0])]
          rw [walk_keep hs.wf.toShaped (W := ∅) (L := 25) (fun q b _ => hkept q b) (by simp) (by simp) hb
            (by show n.shift < 25; omega) l' i, hwalk, hmask.mpr hi0,
            if_pos (Nat.mod_lt _ (Nat.two_pow_pos _))]
        · have hbig : ¬ i % 2 ^ (t.depth + 8) < 2 ^ t.depth := by
            intro hlt'
            refine hi0 (hmask.mp ?_)
            rw [← Nat.mod_mod_of_dvd i (Nat.pow_dvd_pow 2 (show t.depth ≤ t.depth + 8 by omega)),
              Nat.mod_eq_of_lt hlt']
          rw [if_neg hbig, walk_succ (body_eq_some hself) (q := e) (by
            show topData e root _ = _
            rw [← hd, hslot, if_neg hi0])]
          have hc₁ := hkept e c hc
          refine walk_eq_none_of_static hw₁.toShaped i l' e c hc₁ (by omega) ?_
            (fun j q hq => hw₁.static_slots he5 hc₁ hq) (by simp)
          rintro rfl j
          obtain ⟨m, hm, rfl⟩ := body_eq_some_iff.mp hc
          rw [hs.wf.statics e he5] at hm
          have : m.shift + 8 = 8 * (0 + 1) := hcs
          exact emptyNode_leaf he5 hm (by omega) j
    · rw [Function.update_of_ne hne] at hq
      rcases eq_or_ne q root with rfl | hqr
      · simp at hq
      · rw [Function.update_of_ne hqr] at hq
        exact (hs.root q u hq).keep hs.wf.toShaped (W := ∅) (fun p b _ => hkept p b) (by simp) (by simp)
          (href q (hs.root_live hq).1 hqr)

/-- The loop of `SparseArrayExpandingArray`, with at least one turn to go. -/
theorem Refines.expandLoop : ∀ (levels done : ℕ) {s : Arrays V}, Refines s → ∀ {root : ℕ} {t : Table V},
    s.tables root = some t → ∀ {l : ℕ}, t.depth = 8 * (l + 1) → l + (levels + 1) ≤ 3 →
    ∃ a h', Dispatch.expandLoop (levels + 1) done s.heap root = some (a, h') ∧ s.heap.next ≤ a ∧
      Refines ⟨h', Function.update (Function.update s.tables root none) a
        (some (t.expand (t.depth + 8 * (levels + 1))))⟩ := by
  intro levels
  induction levels with
  | zero =>
    intro done s hs root t hr l hd hl
    obtain ⟨n, e, h₁, hn, he, hcalloc, -, hs₁⟩ := hs.expandOnce hr hd hl
    have hne : s.heap.next ≠ null := by
      have := hs.wf.next_ge
      unfold null
      omega
    refine ⟨s.heap.next, h₁, ?_, le_rfl, hs₁⟩
    have hcalloc' : s.heap.calloc ⟨n.shift + 8, 1, Function.update (fun _ => .pointer e) 0 (.pointer root)⟩ =
        (s.heap.next, h₁) := hcalloc
    simp [Dispatch.expandLoop, hn, he, hcalloc', hne]
  | succ levels ih =>
    intro done s hs root t hr l hd hl
    obtain ⟨n, e, h₁, hn, he, hcalloc, hlt, hs₁⟩ := hs.expandOnce hr hd (by omega)
    have hne : s.heap.next ≠ null := by
      have := hs.wf.next_ge
      unfold null
      omega
    have hcalloc' : s.heap.calloc ⟨n.shift + 8, 1, Function.update (fun _ => .pointer e) 0 (.pointer root)⟩ =
        (s.heap.next, h₁) := hcalloc
    obtain ⟨a, h', heq, hle, hs'⟩ := ih (done + 1) hs₁ (Function.update_self ..) (l := l + 1)
      (by show t.depth + 8 = _; omega) (by omega)
    refine ⟨a, h', ?_, le_trans hlt.le hle, ?_⟩
    · rw [Dispatch.expandLoop]
      simp only [hn, he, hcalloc', if_neg hne, Option.bind_eq_bind, Option.bind_some]
      exact heq
    · have htables : Function.update (Function.update (Function.update s.tables root none) s.heap.next
          (some (t.expand (t.depth + 8)))) s.heap.next none = Function.update s.tables root none := by
        rw [Function.update_idem]
        refine Function.update_eq_self_iff.mpr ?_
        by_cases hr' : s.heap.next = root
        · rw [hr', Function.update_self]
        · rw [Function.update_of_ne hr', hs.tables_next]
      rw [htables, Table.expand_expand t (Nat.le_add_right _ _)] at hs'
      have hdepth : (t.expand (t.depth + 8)).depth + 8 * (levels + 1) = t.depth + 8 * (levels + 1 + 1) := by
        show t.depth + 8 + _ = _
        ring
      rwa [hdepth] at hs'

theorem refines_expand (hs : Refines s) {root : ℕ} {t : Table V} (hr : s.tables root = some t) (depth : ℕ) :
    ∃ s', s.perform (.expand root depth) = some s' ∧ Refines s' := by
  obtain ⟨h5, n, hn⟩ := hs.root_live hr
  have hb := body_eq_some hn
  have hroot0 : root ≠ null := by unfold null; omega
  obtain ⟨l, hl, hd, ⟨b, hb', hbs⟩, -⟩ := (hs.root root t hr).reads
  obtain rfl : b = n.body := Option.some.inj (hb'.symm.trans hb)
  have hshift : n.shift = 8 * l := hbs
  by_cases hvalid : validDepth depth = true
  swap
  · refine ⟨s, ?_, hs⟩
    simp [Arrays.perform, sparseArrayExpandingArray, hvalid]
  have hdepth : depth % 8 = 0 ∧ depth ≤ 32 := by
    simp only [validDepth, Bool.and_eq_true, decide_eq_true_eq] at hvalid
    exact ⟨hvalid.2, hvalid.1.2⟩
  have hstart : sparseArrayExpandingArray s.heap root depth =
      if depth = n.shift + 8 then some (root, s.heap)
      else if depth < n.shift + 8 then some (null, s.heap)
      else if n.refCount ≠ 1 then none
      else expandLoop ((depth - (n.shift + 8)) / 8) 0 s.heap root := by
    simp only [sparseArrayExpandingArray, hroot0, hvalid, hn, decide_false, Bool.not_true, Bool.or_self,
      Bool.false_eq_true, if_false, Option.bind_eq_bind, Option.bind_some]
    rfl
  by_cases heq : depth = n.shift + 8
  · refine ⟨s, ?_, hs⟩
    rw [Arrays.perform, hstart, if_pos heq]
    simp
  by_cases hlt : depth < n.shift + 8
  · refine ⟨s, ?_, hs⟩
    rw [Arrays.perform, hstart, if_neg heq, if_pos hlt]
    simp
  -- a root has no owner but its caller
  have hone : n.refCount = 1 := by
    obtain ⟨hcount, hpos, -⟩ := hs.wf.counts root n h5 (by simp) hn
    have hzero : refs s.heap ∅ root = 0 := by
      by_contra hne
      obtain ⟨q, -, -, c, hc, i, hi⟩ := refs_pos_iff.mp (Nat.pos_of_ne_zero hne)
      exact (hs.root root t hr).top ⟨q, c, i, hc, hi⟩
    rw [handles_eq_one hr] at hcount
    omega
  obtain ⟨levels, hlevels⟩ : ∃ levels, (depth - (n.shift + 8)) / 8 = levels + 1 :=
    ⟨(depth - (n.shift + 8)) / 8 - 1, by omega⟩
  obtain ⟨a, h', hloop, hle, hs'⟩ := hs.expandLoop levels 0 hr hd (by omega)
  refine ⟨_, ?_, hs'⟩
  have hne : ¬ (a = null ∨ a = root) := by
    have := hs.wf.lt_next hb
    have := hs.wf.next_ge
    unfold null
    omega
  have hdepth' : t.depth + 8 * (levels + 1) = depth := by omega
  rw [Arrays.perform, hstart, if_neg heq, if_neg hlt, if_neg (by simp [hone]), hlevels, hloop, hdepth']
  simp only [Option.bind_eq_bind, Option.bind_some, Bool.or_eq_true, decide_eq_true_eq, if_neg hne, hr,
    Option.map_some]
  rfl

/-- **The step lemma.** -/
theorem refines_perform (hs : Refines s) (hfew : s.FewOwners) (op : SparseOp V) (hop : s.Callable op) :
    ∃ s', s.perform op = some s' ∧ Refines s' := by
  cases op with
  | new depth => exact refines_new hs depth
  | insert root index value =>
    obtain ⟨t, hr⟩ := Option.isSome_iff_exists.mp hop
    obtain ⟨s', heq, hs', -⟩ := refines_insert hs hfew hr index value
    exact ⟨s', heq, hs'⟩
  | copy root =>
    obtain ⟨t, hr⟩ := Option.isSome_iff_exists.mp hop
    exact refines_copy hs hfew hr
  | expand root depth =>
    obtain ⟨t, hr⟩ := Option.isSome_iff_exists.mp hop
    exact refines_expand hs hr depth
  | destroy root =>
    obtain ⟨t, hr⟩ := Option.isSome_iff_exists.mp hop
    exact refines_destroy hs hr

theorem refines_next (hs : Refines s) (hfew : s.FewOwners) (op : SparseOp V) (hop : s.Callable op) :
    Refines (s.next op) := by
  obtain ⟨s', heq, hs'⟩ := refines_perform hs hfew op hop
  rwa [Arrays.next, heq, Option.getD_some]

end Calls

theorem refines_initial : Refines (Arrays.initial : Arrays V) :=
  ⟨wellFormed_initial fun _ => false, fun _ => rfl, fun _ _ hr => by cases hr⟩

/-! ## Reachable states -/

section

variable {s : Arrays V}

theorem Refines.lookup (hs : Refines s) {r : ℕ} {t : Table V} (hr : s.tables r = some t) {i : ℕ}
    (hi : i < 2 ^ t.depth) : sparseArrayLookup s.heap r i = some (t.content i) := by
  obtain ⟨l, hl, -, ⟨b, hb, hbs⟩, hwalk⟩ := (hs.root r t hr).reads
  obtain ⟨n, hn, rfl⟩ := body_eq_some_iff.mp hb
  rw [sparseArrayLookup_eq hn hl hbs, hwalk, Nat.mod_eq_of_lt hi]

/-- Every node that is not static is owned by a root in the end. The induction goes down from
    the top level. -/
theorem Refines.reached (hs : Refines s) {p : ℕ} {n : SparseArray V} (hp : 5 ≤ p)
    (hn : s.heap.nodes p = some n) : ∃ r, (s.tables r).isSome ∧ Reaches s.heap r p := by
  obtain ⟨d, hd⟩ : ∃ d, n.shift + d = 24 := ⟨24 - n.shift, by
    have : n.shift ≤ 24 := hs.wf.shift_le (body_eq_some hn)
    omega⟩
  induction d using Nat.strong_induction_on generalizing p n with
  | _ d ih =>
    obtain ⟨hcount, hpos, -⟩ := hs.wf.counts p n hp (by simp) hn
    by_cases hroot : (s.tables p).isSome
    · exact ⟨p, hroot, Relation.ReflTransGen.refl⟩
    · have hzero : handles s.tables p = 0 := by simp [handles, hroot]
      obtain ⟨q, -, -, c, hc, i, hi⟩ := refs_pos_iff.mp (show 0 < refs s.heap ∅ p by omega)
      obtain ⟨-, e, he, hes⟩ := hs.wf.child_of_pointer (by simp) hc hi
      rw [body_eq_some hn, Option.some.injEq] at he
      subst he
      have hes' : n.shift + 8 = c.shift := hes
      have hq : 5 ≤ q := by
        by_contra hq
        exact absurd (hs.wf.static_slots (by omega) hc hi) (by omega)
      obtain ⟨m, hm, rfl⟩ := body_eq_some_iff.mp hc
      have hms : m.shift ≤ 24 := hs.wf.shift_le hc
      have hms' : n.shift + 8 = m.shift := hes
      obtain ⟨r, hr, hreach⟩ := ih (24 - m.shift) (by omega) hq hm (by omega)
      exact ⟨r, hr, hreach.tail ⟨_, i, hc, hi⟩⟩

theorem Refines.not_freed (hs : Refines s) {r p : ℕ} (hr : (s.tables r).isSome)
    (hreach : Reaches s.heap r p) :
    p ∉ s.heap.freed := by
  have hlive : ∃ b, s.heap.body p = some b := by
    induction hreach with
    | refl =>
      obtain ⟨t, ht⟩ := Option.isSome_iff_exists.mp hr
      obtain ⟨-, n, hn⟩ := hs.root_live ht
      exact ⟨_, body_eq_some hn⟩
    | tail _ hstep _ =>
      obtain ⟨b, i, hb, hi⟩ := hstep
      obtain ⟨-, c, hc, -⟩ := hs.wf.child_of_pointer (by simp) hb hi
      exact ⟨c, hc⟩
  obtain ⟨b, hb⟩ := hlive
  obtain ⟨n, hn, -⟩ := body_eq_some_iff.mp hb
  intro hmem
  rw [hs.wf.mem_freed, hn] at hmem
  simp at hmem

theorem Refines.sharingSafe (hs : Refines s) (hfew : s.FewOwners) : SharingSafe s where
  lookup _ _ hr _ hi := hs.lookup hr hi
  others root index value r t hop hne hr i hi := by
    obtain ⟨u, hu⟩ := Option.isSome_iff_exists.mp hop
    obtain ⟨s', heq, hs', htables⟩ := refines_insert hs hfew hu index value
    rw [Arrays.next, heq, Option.getD_some, hs.lookup hr hi]
    exact hs'.lookup (by rw [htables, Function.update_of_ne hne, hr]) hi
  owners p n hp hn := (hs.wf.counts p n hp (by simp) hn).1
  reached _ _ hp hn := hs.reached hp hn
  not_freed _ _ hr hreach := hs.not_freed hr hreach
  freed_once := ⟨hs.wf.freed_nodup, fun p => by rw [hs.wf.mem_freed]; simp [hs.succeeds]⟩
  statics := hs.wf.statics
  defined op hop := by
    obtain ⟨s', heq, -⟩ := refines_perform hs hfew op hop
    simp [heq]

/-- **Sparse arrays are independent tables that share their nodes.** In every state of every
run of calls on live roots, with all allocations succeeding, in which no node ever has
`2 ^ 32 - 1` owners: lookups read the tables of the roots, an insert through one root changes
no lookup through another, the reference count of every node that is not static is the number
of slots and handles that hold it, the nodes in the heap are those the roots reach, all others
were freed once, the static nodes are as at first, and every call is defined. -/
theorem sharing_safe
    (hrun : Runs (guarded (fun s op => s.FewOwners ∧ s.Callable op) Arrays.next) Arrays.initial s)
    (hfew : s.FewOwners) : SharingSafe s := by
  have hs : Refines s := hrun.invariant refines_initial fun u op u' hu hstep => by
    obtain ⟨⟨hfew, hop⟩, rfl⟩ := hstep
    exact refines_next hu hfew op hop
  exact hs.sharingSafe hfew

end

/-- Two roots share a leaf of values; one is changed, the other destroyed. -/
theorem sharing_safe_pair :
    SharingSafe (runList Arrays.next (Arrays.initial : Arrays ℕ)
      [.new 8, .insert 5 7 (some 1), .copy 5, .insert 6 7 (some 2), .destroy 5]) :=
  sharing_safe (runs_of_allOk _ _ (by decide)) (by decide)

/-! ## The reference count overflows -/

/-- After `k` copies of the root 5, whose slot 0 holds the leaf 6. -/
structure Copied (k : ℕ) (s : Arrays ℕ) : Prop where
  root : s.heap.nodes 5 = some ⟨8, 1, topData emptyArray 6⟩
  leaf : ∃ d, s.heap.nodes 6 = some ⟨0, (1 + k) % 2 ^ 32, d⟩
  static : s.heap.nodes emptyArray = emptyNode emptyArray
  next_ge : 7 ≤ s.heap.next
  succeeds : ∀ a, s.heap.fails a = false
  live : (s.tables 5).isSome

theorem copied_next {k : ℕ} {s : Arrays ℕ} (hs : Copied k s) : Copied (k + 1) (s.next (.copy 5)) := by
  obtain ⟨d, hleaf⟩ := hs.leaf
  have hge := hs.next_ge
  have hslot : ∀ i, ∃ q, topData emptyArray 6 i = (.pointer q : Word ℕ) ∧ q ≠ 0 ∧ q ≠ s.heap.next ∧
      ∃ m, s.heap.nodes q = some m := by
    intro i
    unfold topData
    by_cases hi : i = 0
    · exact ⟨6, by rw [hi, Function.update_self], by decide, by omega, _, hleaf⟩
    · refine ⟨emptyArray, by rw [Function.update_of_ne hi], by decide, by unfold emptyArray; omega, _, hs.static⟩
  obtain ⟨h', hcopy, hnext, -, hfails, hnodes⟩ := sparseArrayCopy_eq (by decide : 5 ≠ null)
    (by unfold null; omega) hs.root (hs.succeeds _) (fun _ => hslot) (fun h0 => by cases h0)
  have hpend : ∀ q, 5 ≤ q → pending (topData emptyArray 6 : Fin 256 → Word ℕ) slots q = credit 6 q := by
    intro q hq
    have : pending (topData emptyArray 6 : Fin 256 → Word ℕ) slots q =
        Body.out (⟨8, topData emptyArray 6⟩ : Body ℕ) q := by
      rw [pending, if_pos hq]
      rfl
    rw [this, topData_out (by decide) (by decide) hq]
  have hperform : s.next (.copy 5) = ⟨h', Function.update s.tables s.heap.next (s.tables 5)⟩ := by
    have : s.heap.next ≠ null := by unfold null; omega
    simp [Arrays.next, Arrays.perform, hcopy, this]
  rw [hperform]
  refine ⟨?_, ⟨d, ?_⟩, ?_, by show 7 ≤ h'.next; omega, fun a => ?_, ?_⟩
  · show h'.nodes 5 = _
    rw [hnodes, Function.update_of_ne (by omega), hs.root, hpend 5 le_rfl, credit_of_ne (by decide)]
    rfl
  · show h'.nodes 6 = _
    rw [hnodes, Function.update_of_ne (by omega), hleaf, hpend 6 (by decide), credit_self (by decide)]
    have hadd : addRef ((1 + k) % 2 ^ 32) = (1 + (k + 1)) % 2 ^ 32 := by
      rw [addRef, Nat.mod_add_mod, Nat.add_assoc]
    rw [← hadd]
    rfl
  · show h'.nodes emptyArray = _
    have hne : emptyArray ≠ s.heap.next := by
      unfold emptyArray
      omega
    rw [hnodes, Function.update_of_ne hne, hs.static, pending, if_neg (by decide)]
    rfl
  · show h'.fails a = false
    rw [hfails]
    exact hs.succeeds a
  · show (Function.update s.tables s.heap.next (s.tables 5) 5).isSome
    rw [Function.update_of_ne (by omega)]
    exact hs.live

theorem exists_copied (k : ℕ) :
    ∃ s : Arrays ℕ, Runs (guarded Arrays.Callable Arrays.next) Arrays.initial s ∧ Copied k s := by
  induction k with
  | zero =>
    refine ⟨_, runs_of_allOk [.new 16, .insert 5 0 (some 1)] _ (by decide), ?_⟩
    exact ⟨rfl, ⟨_, rfl⟩, rfl, le_rfl, fun _ => rfl, rfl⟩
  | succ k ih =>
    obtain ⟨s, hrun, hs⟩ := ih
    exact ⟨_, hrun.tail (a := .copy 5) ⟨hs.live, rfl⟩, copied_next hs⟩

/-- After `2 ^ 32 - 1` copies of a root the count of its child is 0, though `2 ^ 32` slots
hold it. -/
theorem sharing_overflows :
    ¬ ∀ s : Arrays ℕ, Runs (guarded Arrays.Callable Arrays.next) Arrays.initial s → SharingSafe s := by
  intro h
  obtain ⟨s, hrun, hs⟩ := exists_copied (2 ^ 32 - 1)
  obtain ⟨d, hleaf⟩ := hs.leaf
  have howners := (h s hrun).owners 6 _ (by decide) hleaf
  have hpos : 0 < refs s.heap ∅ 6 := by
    have hge := hs.next_ge
    exact refs_pos_iff.mpr ⟨5, by omega, by simp, _, body_eq_some hs.root, 0,
      (Function.update_self .. : topData emptyArray 6 0 = .pointer 6)⟩
  have hzero : (1 + (2 ^ 32 - 1)) % 2 ^ 32 = 0 := by decide
  simp only [hzero] at howners
  omega

end Libobjc2.Dispatch
