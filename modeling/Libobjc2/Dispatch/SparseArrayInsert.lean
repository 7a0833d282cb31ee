import Libobjc2.Dispatch.SparseArrayHeap

/-!
# Inserting into a shared tree (`src/dispatch/sarray2.c`, `SparseArrayInsert`)

An insert writes along one path from a root. A child that is static or has other owners is
replaced by a new node before anything below it is written; a child owned by this slot alone
is written in place. So all written nodes are owned by written nodes, and no one who does
not come through the root sees a change.

Results:
* `WellFormed.store_pointer`: redirecting a slot moves one ownership.
* `replacementFor_spec`: the three ways to go on below a child.
* `sparseArrayInsertFuel_spec`: **an insert changes one value below one node**, or fails and
  changes nothing.
-/

namespace Libobjc2.Dispatch

open Libobjc2.Common

variable {V : Type}

/-! ## Writing to a slot -/

/-- What one slot holds, counted. -/
def holds (w : Word V) (q : ℕ) : ℕ := if w.toPointer = some q then 1 else 0

theorem countP_update {ι : Type} [DecidableEq ι] {α : Type} (g : α → Bool) (d : ι → α) (i : ι) (w : α) :
    ∀ is : List ι, is.Nodup → i ∈ is →
      (is.countP fun j => g (Function.update d i w j)) + (if g (d i) then 1 else 0) =
        (is.countP fun j => g (d j)) + (if g w then 1 else 0)
  | [], _, h => by simp at h
  | j :: is, hnd, h => by
    rw [List.countP_cons, List.countP_cons]
    rcases eq_or_ne j i with rfl | hne
    · have hrest : (is.countP fun k => g (Function.update d j w k)) = is.countP fun k => g (d k) := by
        refine List.countP_congr fun k hk => ?_
        have : k ≠ j := by
          rintro rfl
          exact (List.nodup_cons.mp hnd).1 hk
        rw [Function.update_of_ne this]
      rw [hrest, Function.update_self]
      omega
    · have ih := countP_update g d i w is (List.nodup_cons.mp hnd).2
        ((List.mem_cons.mp h).resolve_left hne.symm)
      rw [Function.update_of_ne hne]
      omega

theorem out_setData (n : SparseArray V) (i : Fin 256) (w : Word V) (q : ℕ) :
    (n.setData i w).body.out q + holds (n.data i) q = n.body.out q + holds w q := by
  have := countP_update (fun w : Word V => decide (w.toPointer = some q)) n.data i w slots
    (List.nodup_finRange 256) (List.mem_finRange i)
  simp only [decide_eq_true_eq] at this
  exact this

section

variable {h : Heap V} {ext ext' : ℕ → ℕ} {p : ℕ} {n : SparseArray V}

theorem body_store_setData (i : Fin 256) (w : Word V) :
    (h.store p (some (n.setData i w))).body =
      Function.update h.body p (some ⟨n.shift, Function.update n.data i w⟩) :=
  body_store h p (some (n.setData i w))

/-- Writing to one slot of a node, with handles in exchange for the owners it makes and
    unmakes. -/
theorem WellFormed.store_setData (hw : WellFormed h ext ∅) (hp : 5 ≤ p) (hn : h.nodes p = some n)
    {i : Fin 256} {w : Word V} (hleaf : n.shift = 0 → ∃ v, w = .value v)
    (hchild : n.shift ≠ 0 → ∃ q c, w = .pointer q ∧ h.body q = some c ∧ c.shift + 8 = n.shift)
    (honce : ∀ q, 5 ≤ q → n.body.out q + holds w q ≤ 1 + holds (n.data i) q)
    (hext : ∀ q, 5 ≤ q → holds w q + ext' q = holds (n.data i) q + ext q)
    (hlive : ∀ q, 0 < ext' q → 5 ≤ q ∧ ∃ m, h.nodes q = some m) :
    WellFormed (h.store p (some (n.setData i w))) ext' ∅ := by
  have hb := body_eq_some hn
  have hbody := @body_store_setData _ h p n i w
  have hold : ∀ q b, q ≠ p → (h.store p (some (n.setData i w))).body q = some b → h.body q = some b := by
    intro q b hne hq
    rwa [hbody, Function.update_of_ne hne] at hq
  have hself : ∀ b, (h.store p (some (n.setData i w))).body p = some b → b = (n.setData i w).body := by
    intro b hq
    rw [hbody, Function.update_self, Option.some.injEq] at hq
    exact hq.symm
  have hkeep : ∀ q c, h.body q = some c → ∃ c', (h.store p (some (n.setData i w))).body q = some c' ∧
      c'.shift = c.shift := by
    intro q c hc
    rcases eq_or_ne q p with rfl | hne
    · rw [hb, Option.some.injEq] at hc
      exact ⟨_, by rw [hbody, Function.update_self], by rw [← hc]; rfl⟩
    · exact ⟨c, by rw [hbody, Function.update_of_ne hne, hc], rfl⟩
  have hnone : ∀ q, (h.store p (some (n.setData i w))).nodes q = none ↔ h.nodes q = none := by
    intro q
    rcases eq_or_ne q p with rfl | hne
    · simp [hn]
    · rw [store_nodes_of_ne _ _ _ hne]
  refine ⟨⟨fun q hq => ?_, hw.next_ge, fun q hq => (hnone q).mpr (hw.fresh q hq), by simp, ?_, ?_, ?_, ?_,
    fun q hq hf => (hnone q).mpr (hw.failed q hq hf), hw.freed_nodup, fun q => ?_⟩, ?_, ?_⟩
  · rw [store_nodes_of_ne _ _ _ (by omega)]
    exact hw.statics q hq
  · intro q b hq
    rcases eq_or_ne q p with rfl | hne
    · rw [hself b hq]
      exact hw.level q n.body hb
    · exact hw.level q b (hold q b hne hq)
  · intro q b hq h0 j
    rcases eq_or_ne q p with rfl | hne
    · rw [hself b hq] at h0 ⊢
      rcases eq_or_ne j i with rfl | hji
      · obtain ⟨v, hv⟩ := hleaf h0
        exact ⟨v, by rw [← hv]; exact Function.update_self ..⟩
      · obtain ⟨v, hv⟩ := hw.leaf q _ hb h0 j
        exact ⟨v, by rw [← hv]; exact Function.update_of_ne hji ..⟩
    · exact hw.leaf q b (hold q b hne hq) h0 j
  · intro q b hX hq h0 j
    have hslot : ∃ r c, b.data j = .pointer r ∧ h.body r = some c ∧ c.shift + 8 = b.shift := by
      rcases eq_or_ne q p with rfl | hne
      · rw [hself b hq] at h0 ⊢
        rcases eq_or_ne j i with rfl | hji
        · obtain ⟨r, c, hr, hc, hs⟩ := hchild h0
          exact ⟨r, c, by rw [← hr]; exact Function.update_self .., hc, hs⟩
        · obtain ⟨r, c, hr, -, hc, hs⟩ := hw.child q _ hX hb h0 j
          exact ⟨r, c, by rw [← hr]; exact Function.update_of_ne hji .., hc, hs⟩
      · obtain ⟨r, c, hr, -, hc, hs⟩ := hw.child q b hX (hold q b hne hq) h0 j
        exact ⟨r, c, hr, hc, hs⟩
    obtain ⟨r, c, hr, hc, hs⟩ := hslot
    obtain ⟨c', hc', hs'⟩ := hkeep r c hc
    exact ⟨r, c', hr, by simp, hc', by rw [hs', hs]⟩
  · intro q b hX hq r hr
    rcases eq_or_ne q p with rfl | hne
    · rw [hself b hq]
      have h1 := out_setData n i w r
      have h2 := honce r hr
      omega
    · exact hw.once q b hX (hold q b hne hq) r hr
  · rw [hnone]
    exact hw.mem_freed q
  · intro q m hq _ hm
    have hrefs : refs (h.store p (some (n.setData i w))) ∅ q + n.body.out q =
        refs h ∅ q + (n.setData i w).body.out q := by
      have := @holders_write _ h.body Body.out h.next ∅ q p (hw.lt_next hb) (by simp)
        (some (n.setData i w).body)
      rw [hb, outOf_some, outOf_some] at this
      rw [refs, hbody]
      exact this
    have hout := out_setData n i w q
    have hx := hext q hq
    rcases eq_or_ne q p with rfl | hne
    · rw [store_nodes_self, Option.some.injEq] at hm
      subst hm
      obtain ⟨hc, hpos, hlt⟩ := hw.counts q n hq (by simp) hn
      refine ⟨?_, hpos, hlt⟩
      show n.refCount = _
      omega
    · rw [store_nodes_of_ne _ _ _ hne] at hm
      obtain ⟨hc, hpos, hlt⟩ := hw.counts q m hq (by simp) hm
      exact ⟨by omega, hpos, hlt⟩
  · intro q hq
    obtain ⟨h5, m, hm⟩ := hlive q hq
    refine ⟨h5, by simp, ?_⟩
    have : (h.store p (some (n.setData i w))).nodes q ≠ none := fun hc => by
      rw [hnone, hm] at hc
      cases hc
    exact Option.ne_none_iff_exists'.mp this

/-- Storing a value into a leaf. -/
theorem WellFormed.store_value (hw : WellFormed h ext ∅) (hp : 5 ≤ p) (hn : h.nodes p = some n)
    (h0 : n.shift = 0) (i : Fin 256) (v : Option V) :
    WellFormed (h.store p (some (n.setData i (.value v)))) ext ∅ := by
  have hheld : ∀ q, holds (n.data i) q = 0 := by
    intro q
    obtain ⟨u, hu⟩ := hw.leaf p _ (body_eq_some hn) h0 i
    rw [show n.data i = .value u from hu]
    rfl
  refine hw.store_setData hp hn (fun _ => ⟨v, rfl⟩) (fun h => absurd h0 h) (fun q hq => ?_) (fun q _ => ?_)
    fun q hq => ⟨(hw.live q hq).1, (hw.live q hq).2.2⟩
  · have := hw.once p _ (by simp) (body_eq_some hn) q hq
    rw [hheld]
    exact this
  · rw [hheld]
    rfl

/-- Redirecting a slot from `c` to `r` turns the handle on `r` into one on `c`. -/
theorem WellFormed.store_pointer {r c : ℕ} {b : Body V} {i : Fin 256}
    (hw : WellFormed h (fun q => ext q + credit r q) ∅) (hp : 5 ≤ p) (hn : h.nodes p = some n)
    (hi : n.data i = .pointer c) (hr : 5 ≤ r) (hb : h.body r = some b) (hs : b.shift + 8 = n.shift)
    (hnew : n.body.out r = 0) :
    WellFormed (h.store p (some (n.setData i (.pointer r)))) (fun q => ext q + credit c q) ∅ := by
  have hpn := body_eq_some hn
  have hheld : ∀ q, 5 ≤ q → holds (.pointer r : Word V) q = credit r q := by
    intro q _
    unfold holds credit Word.toPointer
    by_cases hqr : q = r
    · simp [hqr, hr]
    · simp [hqr, Ne.symm hqr]
  have hgone : ∀ q, 5 ≤ q → holds (n.data i) q = credit c q := by
    intro q hq
    rw [hi]
    unfold holds credit Word.toPointer
    by_cases hqc : q = c
    · subst hqc
      simp [hq]
    · simp [hqc, Ne.symm hqc]
  refine hw.store_setData hp hn (fun h0 => by omega) (fun _ => ⟨r, b, rfl, hb, hs⟩) (fun q hq => ?_)
    (fun q hq => ?_) fun q hq => ?_
  · rw [hheld q hq]
    rcases eq_or_ne q r with rfl | hne
    · rw [credit_self hr, hnew]
      omega
    · have := hw.once p _ (by simp) hpn q hq
      rw [credit_of_ne hne]
      omega
  · rw [hheld q hq, hgone q hq]
    omega
  · by_cases hq0 : 0 < ext q
    · obtain ⟨h5, -, hm⟩ := hw.live q (by omega)
      exact ⟨h5, hm⟩
    · -- the new handle is on the old child
      have hqc : q = c ∧ 5 ≤ c := by
        by_contra hne
        simp only [credit, if_neg hne] at hq
        omega
      obtain ⟨-, d, hd, -⟩ := hw.child_of_pointer (by simp) hpn (show n.body.data i = .pointer c from hi)
      obtain ⟨m, hm, -⟩ := body_eq_some_iff.mp hd
      exact ⟨by omega, m, by rw [hqc.1, hm]⟩

end

/-! ## Walks -/

theorem walk_succ {h : Heap V} {p q l index : ℕ} {b : Body V} (hb : h.body p = some b)
    (hq : b.data (maskIndex (8 * (l + 1)) index) = .pointer q) :
    walk h (l + 1) p index = walk h l q index := by
  simp [walk, loadChild_eq, hb, hq, Word.toPointer]

/-- The static leaf holds no values. -/
theorem emptyNode_leaf {p : ℕ} {n : SparseArray V} (hp : p < 5) (hn : emptyNode p = some n)
    (h0 : n.shift = 0) (i : Fin 256) : n.data i = .value none := by
  interval_cases p <;> simp only [emptyNode, Option.some.injEq, reduceCtorEq] at hn <;> subst hn <;>
    first | rfl | (simp at h0)

theorem pointer_of_loadChild {h : Heap V} {p q : ℕ} {b : Body V} {i : Fin 256} (hb : h.body p = some b)
    (hq : loadChild h p i = some q) : b.data i = .pointer q := by
  rw [loadChild_eq, hb, Option.bind_some] at hq
  cases hi : b.data i with
  | value v => simp [hi, Word.toPointer] at hq
  | pointer r => rw [show r = q by simpa [hi, Word.toPointer] using hq]

/-- A node that holds only static children, or no values, is empty. -/
theorem walk_eq_none_of_static {h : Heap V} {X : Finset ℕ} (hs : Shaped h X) (index : ℕ) :
    ∀ (l p : ℕ) (b : Body V), h.body p = some b → b.shift = 8 * l →
      (l = 0 → ∀ i, b.data i = .value none) →
      (∀ i q, b.data i = .pointer q → q < 5) → p ∉ X → walk h l p index = some none := by
  intro l
  induction l with
  | zero =>
    intro p b hb _ hleaf _ _
    simp [walk, loadValue_eq, hb, hleaf rfl, Word.toValue]
  | succ l ih =>
    intro p b hb hshift _ hstatic hX
    obtain ⟨q, c, hq, hqX, hc, hcs⟩ := hs.child p b hX hb (by omega) (maskIndex (8 * (l + 1)) index)
    rw [walk_succ hb hq]
    have hq5 := hstatic _ q hq
    refine ih q c hc (by omega) ?_ (fun i r hr => hs.static_slots hq5 hc hr) hqX
    rintro rfl i
    obtain ⟨m, hm, rfl⟩ := body_eq_some_iff.mp hc
    rw [hs.statics q hq5] at hm
    have hms : m.shift + 8 = b.shift := hcs
    exact emptyNode_leaf hq5 hm (by omega) i

/-! ## New nodes -/

/-- What `init_pointers` puts into a node of level `l`. -/
theorem initPointers_spec {h : Heap V} {X : Finset ℕ} (hs : Shaped h X) {l : ℕ} (hl : l ≤ 3) :
    ∃ d : Fin 256 → Word V, initPointers (8 * l) = some d ∧ (l = 0 → ∀ i, d i = .value none) ∧
      (l ≠ 0 → ∃ e c, e < 5 ∧ h.body e = some c ∧ c.shift + 8 = 8 * l ∧ ∀ i, d i = .pointer e) := by
  have hbody : ∀ e < 5, ∀ m, emptyNode e = some m → h.body e = some m.body := by
    intro e he m hm
    exact body_eq_some ((hs.statics e he).trans hm)
  interval_cases l
  · exact ⟨_, rfl, fun _ _ => rfl, fun h => absurd rfl h⟩
  · exact ⟨_, rfl, nofun, fun _ => ⟨emptyArray, _, by decide, hbody _ (by decide) _ rfl, rfl, fun _ => rfl⟩⟩
  · exact ⟨_, rfl, nofun, fun _ => ⟨emptyArray8, _, by decide, hbody _ (by decide) _ rfl, rfl, fun _ => rfl⟩⟩
  · exact ⟨_, rfl, nofun, fun _ => ⟨emptyArray16, _, by decide, hbody _ (by decide) _ rfl, rfl, fun _ => rfl⟩⟩

/-- A new node of level `l`: it is empty, and no other node changes. -/
theorem WellFormed.calloc_empty {h : Heap V} {ext : ℕ → ℕ} (hw : WellFormed h ext ∅) {l : ℕ} (hl : l ≤ 3)
    {d : Fin 256 → Word V} (hd : initPointers (8 * l) = some d) (hok : h.fails h.next = false) :
    ∃ h₁, h.calloc ⟨8 * l, 1, d⟩ = (h.next, h₁) ∧
      WellFormed h₁ (fun q => ext q + credit h.next q) ∅ ∧ h₁.next = h.next + 1 ∧ h₁.fails = h.fails ∧
      h₁.body = Function.update h.body h.next (some ⟨8 * l, d⟩) ∧
      (∀ q, q ≠ h.next → h₁.nodes q = h.nodes q) ∧
      (∀ i q, d i = .pointer q → q < 5) ∧
      ∀ index, walk h₁ l h.next index = some none := by
  obtain ⟨d', hd', hleaf, hinner⟩ := initPointers_spec hw.toShaped hl
  obtain rfl : d' = d := Option.some.inj (hd'.symm.trans hd)
  have hge := hw.next_ge
  obtain ⟨h₁, hh₁⟩ : ∃ h₁ : Heap V, h₁ = { h with
    nodes := Function.update h.nodes h.next (some ⟨8 * l, 1, d'⟩), next := h.next + 1 } := ⟨_, rfl⟩
  have hself : h₁.nodes h.next = some ⟨8 * l, 1, d'⟩ := by
    rw [hh₁]
    exact Function.update_self ..
  have hold : ∀ q, q ≠ h.next → h₁.nodes q = h.nodes q := fun q hne => by
    rw [hh₁]
    exact Function.update_of_ne hne ..
  have hbody : h₁.body = Function.update h.body h.next (some ⟨8 * l, d'⟩) := by
    rw [hh₁]
    exact body_store h h.next (some ⟨8 * l, 1, d'⟩)
  have hstatic : ∀ i q, d' i = .pointer q → q < 5 := by
    intro i q hq
    by_cases h0 : l = 0
    · rw [hleaf h0 i] at hq
      cases hq
    · obtain ⟨e, -, he, -, -, hptr⟩ := hinner h0
      rw [hptr i] at hq
      cases hq
      exact he
  have hout : ∀ q, 5 ≤ q → Body.out ⟨8 * l, d'⟩ q = 0 := fun q hq =>
    Body.out_eq_zero fun i hi => absurd (hstatic i q hi) (by omega)
  have hw₁ : WellFormed h₁ (fun q => ext q + credit h.next q) ∅ := by
    refine hw.calloc hok hbody (by rw [hh₁]) (by rw [hh₁]) (by rw [hh₁]) (fun q hq => hold q (by omega))
      ⟨l, hl, rfl⟩ (fun h0 i => ⟨none, hleaf (by simpa using h0) i⟩) (fun h0 i => ?_)
      (fun q hq => by rw [hout q hq]; omega) ⟨_, hself, rfl⟩ ?_ (fun q m hq hne hm => ?_) fun q hne hq => ?_
    · obtain ⟨e, c, -, hc, hs, hptr⟩ := hinner (by rintro rfl; exact h0 rfl)
      exact ⟨e, c, hptr i, hc, hs⟩
    · have : ext h.next = 0 := by
        by_contra hne
        obtain ⟨-, -, m, hm⟩ := hw.live h.next (by omega)
        rw [hw.fresh _ le_rfl] at hm
        cases hm
      simp [this, credit_self hge]
    · rw [hold q hne] at hm
      obtain ⟨-, hpos, hlt⟩ := hw.counts q m hq (by simp) hm
      exact ⟨m, hm, by rw [hout q hq, credit_of_ne hne]; omega, hpos, hlt⟩
    · rwa [credit_of_ne hne, Nat.add_zero] at hq
  refine ⟨h₁, by simp [Heap.calloc, hok, hh₁], hw₁, by rw [hh₁], by rw [hh₁], hbody, hold, hstatic,
    fun index => ?_⟩
  exact walk_eq_none_of_static hw₁.toShaped index l h.next ⟨8 * l, d'⟩ (body_eq_some hself) rfl hleaf
    hstatic (by simp)

/-- A copied node reads like the original. -/
theorem walk_eq_of_body_eq {h h' : Heap V} (hs : Shaped h ∅) {p q l : ℕ} {b : Body V}
    (hb : h.body p = some b) (hb' : h'.body q = some b)
    (hsame : ∀ r c, h.body r = some c → h'.body r = some c) (index : ℕ) :
    walk h' l q index = walk h l p index := by
  cases l with
  | zero => simp only [walk, loadValue_eq, hb, hb']
  | succ l =>
    simp only [walk, loadChild_eq, hb, hb', Option.bind_eq_bind, Option.bind_some]
    cases hw : b.data (maskIndex (8 * (l + 1)) index) with
    | value v => rfl
    | pointer r =>
      obtain ⟨-, c, hc, -⟩ := hs.child_of_pointer (by simp) hb hw
      refine @walk_congr _ h h' {r | ∃ c, h.body r = some c} ?_ ?_ index l r ⟨c, hc⟩
      · rintro r ⟨c, hc⟩
        rw [hc, hsame r c hc]
      · rintro r ⟨c, hc⟩ i t ht
        obtain ⟨-, d, hd, -⟩ := hs.child_of_pointer (by simp) hc (pointer_of_loadChild hc ht)
        exact ⟨d, hd⟩

/-! ## Going on below a child -/

/-- Some slot holds a pointer to `c`. -/
def Referenced (h : Heap V) (c : ℕ) : Prop := ∃ q b i, h.body q = some b ∧ b.data i = .pointer c

/-- `h₁` has a new node of level `l` that reads like `child`. -/
structure Replaced (h h₁ : Heap V) (ext : ℕ → ℕ) (l child : ℕ) : Prop where
  wf : WellFormed h₁ (fun q => ext q + credit h.next q) ∅
  ok : h.fails h.next = false
  next_eq : h₁.next = h.next + 1
  fails_eq : h₁.fails = h.fails
  body : ∃ b : Body V, h₁.body = Function.update h.body h.next (some b) ∧ b.shift = 8 * l
  reads : ∀ index, walk h₁ l h.next index = walk h l child index
  few : ∀ q m, 5 ≤ q → h₁.nodes q = some m → m.shift + 16 ≤ 8 * l → m.refCount + 1 < 2 ^ 32
  shared : 5 ≤ child → 2 ≤ refs h ∅ child + ext child
  referenced : ∀ t, 5 ≤ t → Referenced h₁ t → Referenced h t

/-- The counts that an insert at level `l` increments do not overflow: those of the nodes at
    least two levels below. -/
def CountsFit (h : Heap V) (l : ℕ) : Prop :=
  ∀ q m, 5 ≤ q → h.nodes q = some m → m.shift + 16 ≤ 8 * l → m.refCount + 1 < 2 ^ 32

theorem replacementFor_spec {h : Heap V} {ext : ℕ → ℕ} {p c l : ℕ} {n : SparseArray V} {i : Fin 256}
    (hw : WellFormed h ext ∅) (hn : h.nodes p = some n) (hshift : n.shift = 8 * (l + 1))
    (hi : n.data i = .pointer c) (hfew : CountsFit h (l + 1)) :
    (replacementFor h n.shift c = some (null, true, { h with next := h.next + 1 }) ∧
      h.fails h.next = true) ∨
    (∃ h₁, replacementFor h n.shift c = some (h.next, true, h₁) ∧ Replaced h h₁ ext l c) ∨
    (replacementFor h n.shift c = some (c, false, h) ∧ 5 ≤ c ∧ refs h ∅ c + ext c = 1) := by
  have hb := body_eq_some hn
  have hl : l ≤ 3 := by
    have : n.shift ≤ 24 := hw.shift_le hb
    omega
  obtain ⟨-, d, hd, hds⟩ := hw.child_of_pointer (by simp) hb (show n.body.data i = .pointer c from hi)
  have hds' : d.shift = 8 * l := by
    have : d.shift + 8 = n.shift := hds
    omega
  obtain ⟨m, hm, rfl⟩ := body_eq_some_iff.mp hd
  have hms : m.shift = 8 * l := hds'
  by_cases hc : 5 ≤ c
  · have hempty : isEmptyChild c = false := Bool.eq_false_iff.mpr fun he => by
      have := (isEmptyChild_iff c).mp he
      omega
    obtain ⟨hcount, hpos, -⟩ := hw.counts c m hc (by simp) hm
    by_cases hshared : m.refCount > 1
    · -- a child with other owners is copied
      have hchildren : ∀ j q k, m.data j = .pointer q → 5 ≤ q → h.nodes q = some k →
          k.refCount + 1 < 2 ^ 32 := by
        intro j q k hq hq5 hk
        obtain ⟨-, e, he, hes⟩ := hw.child_of_pointer (by simp) hd (show m.body.data j = .pointer q from hq)
        rw [body_eq_some hk, Option.some.injEq] at he
        subst he
        have : k.shift + 8 = m.shift := hes
        exact hfew q k hq5 hk (by omega)
      rcases sparseArrayCopy_spec hw hc hm hchildren with ⟨hf, hcopy⟩ | ⟨hok, h₁, hcopy, hw₁, hnext,
          hfails, hbody, hnodes⟩
      · refine Or.inl ⟨?_, hf⟩
        simp [replacementFor, hempty, hm, hshared, hcopy]
      · refine Or.inr (Or.inl ⟨h₁, by simp [replacementFor, hempty, hm, hshared, hcopy], ?_⟩)
        have hold : ∀ q b, h.body q = some b → h₁.body q = some b := by
          intro q b hq
          rw [hbody, Function.update_of_ne (hw.lt_next hq).ne, hq]
        refine ⟨hw₁, hok, hnext, hfails, ⟨_, hbody, hms⟩, fun index => ?_, fun q k hq hk hks => ?_,
          fun _ => by omega, ?_⟩
        · exact walk_eq_of_body_eq hw.toShaped hd (by rw [hbody, Function.update_self]) hold index
        · rcases eq_or_ne q h.next with rfl | hne
          · -- the copy itself is not below itself
            have hk' := body_eq_some hk
            rw [hbody, Function.update_self, Option.some.injEq] at hk'
            have : m.shift = k.shift := congrArg Body.shift hk'
            omega
          · rw [hnodes q hne] at hk
            obtain ⟨k', hk', rfl⟩ := Option.map_eq_some_iff.mp hk
            have hks' : k'.shift + 16 ≤ 8 * l := hks
            have hpend : pending m.data slots q = 0 := by
              rw [pending_slots hq]
              refine Body.out_eq_zero fun j hj => ?_
              obtain ⟨-, e, he, hes⟩ := hw.child_of_pointer (by simp) hd hj
              rw [body_eq_some hk', Option.some.injEq] at he
              subst he
              have : k'.shift + 8 = m.shift := hes
              omega
            rw [hpend]
            exact hfew q k' hq hk' (by omega)
        · rintro t - ⟨q, b, j, hq, ht⟩
          rw [hbody] at hq
          rcases eq_or_ne q h.next with rfl | hne
          · rw [Function.update_self, Option.some.injEq] at hq
            subst hq
            exact ⟨c, _, j, hd, ht⟩
          · rw [Function.update_of_ne hne] at hq
            exact ⟨q, b, j, hq, ht⟩
    · refine Or.inr (Or.inr ⟨by simp [replacementFor, hempty, hm, hshared], hc, by omega⟩)
  · -- a static child is replaced by an empty node
    have hc0 : c ≠ 0 := by
      rintro rfl
      rw [hw.statics 0 (by omega)] at hm
      cases hm
    have hempty : isEmptyChild c = true := (isEmptyChild_iff c).mpr ⟨by omega, by omega⟩
    have hchildShift : (if 8 ≥ n.shift then 0 else n.shift - 8) = 8 * l := by
      split_ifs <;> omega
    obtain ⟨data, hdata, -⟩ := initPointers_spec hw.toShaped hl
    cases hf : h.fails h.next with
    | true =>
      refine Or.inl ⟨?_, rfl⟩
      simp only [replacementFor, hempty, if_true, hchildShift, hdata, Option.bind_eq_bind, Option.bind_some,
        Heap.calloc, hf]
      rfl
    | false =>
      obtain ⟨h₁, hcalloc, hw₁, hnext, hfails, hbody, hnodes, hstatic, hreads⟩ :=
        hw.calloc_empty hl hdata hf
      refine Or.inr (Or.inl ⟨h₁, ?_, hw₁, hf, hnext, hfails, ⟨_, hbody, rfl⟩, fun index => ?_,
        fun q k hq hk hks => ?_, fun h5 => absurd h5 hc, ?_⟩)
      · simp only [replacementFor, hempty, if_true, hchildShift, hdata, Option.bind_eq_bind,
          Option.bind_some, hcalloc]
        rfl
      · rw [hreads]
        refine (walk_eq_none_of_static hw.toShaped index l c m.body hd hms ?_ (fun j q hq =>
          hw.static_slots (by omega) hd hq) (by simp)).symm
        rintro rfl j
        rw [hw.statics c (by omega)] at hm
        exact emptyNode_leaf (by omega) hm hms j
      · rcases eq_or_ne q h.next with rfl | hne
        · have hk' := body_eq_some hk
          rw [hbody, Function.update_self, Option.some.injEq] at hk'
          have : 8 * l = k.shift := congrArg Body.shift hk'
          omega
        · rw [hnodes q hne] at hk
          exact hfew q k hq hk (by omega)
      · rintro t ht5 ⟨q, b, j, hq, ht⟩
        rw [hbody] at hq
        rcases eq_or_ne q h.next with rfl | hne
        · rw [Function.update_self, Option.some.injEq] at hq
          subst hq
          exact absurd (hstatic j t ht) (by omega)
        · rw [Function.update_of_ne hne] at hq
          exact ⟨q, b, j, hq, ht⟩

/-! ## Inserting -/

/-- What `SparseArrayInsert` did below the node at `p` of level `l`. `W` are the nodes written
    in place: `p`, and nodes that only nodes of `W` own. -/
structure Inserted (h h' : Heap V) (ext : ℕ → ℕ) (p l index : ℕ) (value : Option V) (ok : Bool)
    (W : Set ℕ) : Prop where
  wf : WellFormed h' ext ∅
  next_le : h.next ≤ h'.next
  fails_eq : h'.fails = h.fails
  kept : ∀ q b, q ∉ W → h.body q = some b → h'.body q = some b
  self : ∃ b, h'.body p = some b ∧ b.shift = 8 * l
  owned : ∀ w ∈ W, w ≠ p → ext w = 0 ∧ ∀ q b i, h.body q = some b → b.data i = .pointer w → q ∈ W
  below : ∀ w ∈ W, w ≠ p → ∀ b, h.body w = some b → b.shift < 8 * l
  failed : ok = false → ∀ q b, h.body q = some b → h'.body q = some b
  found : ok = true → ∀ j, walk h' l p j =
    if j % 2 ^ (8 * (l + 1)) = index % 2 ^ (8 * (l + 1)) then some value else walk h l p j
  succeeds : (∀ a, h.fails a = false) → ok = true
  referenced : ∀ t, 5 ≤ t → t < h.next → Referenced h' t → Referenced h t

/-- A failing insert wrote nothing. -/
theorem Inserted.of_failed {h h' : Heap V} {ext : ℕ → ℕ} {p l index : ℕ} {value : Option V} {b : Body V}
    (hw' : WellFormed h' ext ∅) (hnext : h.next ≤ h'.next) (hfails : h'.fails = h.fails)
    (hb : h.body p = some b) (hs : b.shift = 8 * l)
    (hkept : ∀ q b, h.body q = some b → h'.body q = some b) (hfail : ¬ ∀ a, h.fails a = false)
    (href : ∀ t, 5 ≤ t → t < h.next → Referenced h' t → Referenced h t) :
    Inserted h h' ext p l index value false ∅ where
  wf := hw'
  next_le := hnext
  fails_eq := hfails
  kept := fun q b _ => hkept q b
  self := ⟨b, hkept p b hb, hs⟩
  owned := fun _ hw => absurd hw (by simp)
  below := fun _ hw => absurd hw (by simp)
  failed := fun _ => hkept
  found := nofun
  succeeds := fun h => absurd h hfail
  referenced := href

/-- Nodes outside `W` that do not lead into `W` read as before. -/
theorem walk_keep {h h' : Heap V} (hs : Shaped h ∅) {W : Set ℕ} {L : ℕ}
    (hkept : ∀ q b, q ∉ W → h.body q = some b → h'.body q = some b)
    (hclosed : ∀ q b i c, q ∉ W → h.body q = some b → b.shift < L → b.data i = .pointer c → c ∉ W)
    {q : ℕ} {b : Body V} (hq : q ∉ W) (hb : h.body q = some b) (hlt : b.shift < L) (l index : ℕ) :
    walk h' l q index = walk h l q index := by
  refine @walk_congr _ h h' {q | q ∉ W ∧ ∃ b, h.body q = some b ∧ b.shift < L} ?_ ?_ index l q
      ⟨hq, b, hb, hlt⟩
  · rintro r ⟨hr, c, hc, -⟩
    rw [hc, hkept r c hr hc]
  · rintro r ⟨hr, c, hc, hcl⟩ i t ht
    have hi := pointer_of_loadChild hc ht
    obtain ⟨-, d, hd, hds⟩ := hs.child_of_pointer (by simp) hc hi
    exact ⟨hclosed r c i t hr hc hcl hi, d, hd, by omega⟩

/-- One level of `SparseArrayInsert`. -/
theorem sparseArrayInsertFuel_inner {h h₁ : Heap V} {p c r : ℕ} {n : SparseArray V} {index : ℕ}
    {publish : Bool} (fuel : ℕ) (value : Option V) (hp : p ≠ null) (hn : h.nodes p = some n)
    (hshift : n.shift ≠ 0)
    (hi : n.data (maskIndex n.shift index) = .pointer c)
    (hrep : replacementFor h n.shift c = some (r, publish, h₁)) :
    sparseArrayInsertFuel (fuel + 1) h p index value =
      if r = null then some (false, h₁)
      else (sparseArrayInsertFuel fuel h₁ r index value).bind fun res =>
        if res.1 = false then
          (if publish then sparseArrayDestroy res.2 r else some res.2).bind fun h₂ => some (false, h₂)
        else if publish then
          (res.2.modify p (·.setData (maskIndex n.shift index) (.pointer r))).bind fun h₃ =>
            (if isEmptyChild c then some h₃ else sparseArrayDestroy h₃ c).bind fun h₄ => some (true, h₄)
        else some (true, res.2) := by
  rw [sparseArrayInsertFuel, if_neg hp, hn]
  simp only [Option.bind_eq_bind, Option.bind_some, if_neg hshift, hi, Word.toPointer, hrep]
  by_cases hr : r = null
  · rw [if_pos hr, if_pos hr]
    rfl
  · rw [if_neg hr, if_neg hr]
    congr 1
    funext res
    cases res.1 <;> cases publish <;> cases isEmptyChild c <;> rfl

/-- Inserting into a leaf. -/
theorem inserted_leaf {h : Heap V} {ext : ℕ → ℕ} {p : ℕ} {n : SparseArray V} (hw : WellFormed h ext ∅)
    (hp : 5 ≤ p) (hn : h.nodes p = some n) (h0 : n.shift = 0) (fuel index : ℕ) (value : Option V) :
    ∃ h', sparseArrayInsertFuel (fuel + 1) h p index value = some (true, h') ∧
      Inserted h h' ext p 0 index value true {p} := by
  have hp0 : p ≠ null := by unfold null; omega
  have hb := body_eq_some hn
  have hbody := @body_store_setData _ h p n (maskIndex 0 index) (.value value)
  refine ⟨_, ?_, hw.store_value hp hn h0 (maskIndex 0 index) value, le_rfl, rfl, fun q b hq hqb => ?_,
    ⟨_, by rw [hbody, Function.update_self], h0⟩, fun w hw hne => absurd hw hne,
    fun w hw hne => absurd hw hne, nofun, fun _ j => ?_, fun _ => rfl, ?_⟩
  · rw [sparseArrayInsertFuel, if_neg hp0, hn]
    simp only [Option.bind_eq_bind, Option.bind_some, if_pos h0, modify_eq_some hn]
    rfl
  · rw [hbody, Function.update_of_ne hq, hqb]
  · simp only [walk, loadValue_eq, hbody, Function.update_self, Option.bind_some, hb]
    have hmod : j % 2 ^ (8 * (0 + 1)) = index % 2 ^ (8 * (0 + 1)) ↔ _ := maskIndex_zero_eq_iff j index
    by_cases hj : maskIndex 0 j = maskIndex 0 index
    · rw [hj, Function.update_self, if_pos (hmod.mpr hj)]
      rfl
    · rw [Function.update_of_ne hj, if_neg (mt hmod.mp hj)]
      rfl
  · rintro t - - ⟨q, b, j, hq, ht⟩
    rw [hbody] at hq
    rcases eq_or_ne q p with rfl | hne
    · -- a leaf holds no pointers
      rw [Function.update_self, Option.some.injEq] at hq
      subst hq
      rcases eq_or_ne j (maskIndex 0 index) with rfl | hj
      · exact absurd ((Function.update_self ..).symm.trans ht) (by simp)
      · exact ⟨q, _, j, hb, (Function.update_of_ne hj ..).symm.trans ht⟩
    · rw [Function.update_of_ne hne] at hq
      exact ⟨q, b, j, hq, ht⟩

/-- Inserting below a child of which the slot is the only owner. -/
theorem inserted_inPlace {h h' : Heap V} {ext : ℕ → ℕ} {p c l index : ℕ} {n : SparseArray V}
    {value : Option V} {ok : Bool} {W : Set ℕ} (hw : WellFormed h ext ∅) (hn : h.nodes p = some n)
    (hshift : n.shift = 8 * (l + 1)) (hi : n.data (maskIndex n.shift index) = .pointer c)
    (hc5 : 5 ≤ c) (hcount : refs h ∅ c + ext c = 1) (hins : Inserted h h' ext c l index value ok W) :
    Inserted h h' ext p (l + 1) index value ok (insert p (insert c W)) := by
  have hb := body_eq_some hn
  obtain ⟨-, d, hd, hds⟩ := hw.child_of_pointer (by simp) hb (show n.body.data _ = .pointer c from hi)
  have hds' : d.shift + 8 = n.shift := hds
  -- the only owner of the child is the slot
  have hrefs := hw.refs_pos (by simp) hb (show n.body.data _ = .pointer c from hi)
  have hparent : ∀ q b i, h.body q = some b → b.data i = .pointer c → q = p := by
    intro q b i hq hqc
    by_contra hne
    have h1 := @holders_insert _ h.body Body.out h.next ∅ c p (hw.lt_next hb) (by simp)
    have h2 : 0 < holders h.body Body.out h.next (insert p ∅) c :=
      holders_pos_iff.mpr ⟨q, hw.lt_next hq, by simp [hne], b, hq, Body.out_pos_iff.mpr ⟨i, hqc⟩⟩
    have h3 : 0 < n.body.out c := Body.out_pos_iff.mpr ⟨_, hi⟩
    rw [hb, outOf_some] at h1
    have h4 : holders h.body Body.out h.next ∅ c = refs h ∅ c := rfl
    omega
  have hcp : c ≠ p := by
    rintro rfl
    rw [hb, Option.some.injEq] at hd
    have : n.shift = d.shift := congrArg Body.shift hd
    omega
  have hpW : p ∉ W := by
    intro hpW
    have := hins.below p hpW (Ne.symm hcp) _ hb
    have : n.shift < 8 * l := this
    omega
  have hself : h'.body p = some n.body := hins.kept p _ hpW hb
  have hkept : ∀ q b, q ∉ insert c W → h.body q = some b → h'.body q = some b := fun q b hq =>
    hins.kept q b fun hqW => hq (Set.mem_insert_of_mem c hqW)
  refine ⟨hins.wf, hins.next_le, hins.fails_eq, fun q b hq => ?_, ⟨_, hself, hshift⟩, ?_, ?_, hins.failed,
    fun hok j => ?_, hins.succeeds, hins.referenced⟩
  · exact hkept q b fun hqW => hq (Set.mem_insert_of_mem p hqW)
  · intro w hwW hne
    rcases Set.mem_insert_iff.mp hwW with rfl | hwW
    · exact absurd rfl hne
    rcases eq_or_ne w c with rfl | hwc
    · exact ⟨by omega, fun q b i hq hqw => by rw [hparent q b i hq hqw]; exact Set.mem_insert ..⟩
    · obtain ⟨h1, h2⟩ := hins.owned w ((Set.mem_insert_iff.mp hwW).resolve_left hwc) hwc
      exact ⟨h1, fun q b i hq hqw =>
        Set.mem_insert_of_mem p (Set.mem_insert_of_mem c (h2 q b i hq hqw))⟩
  · intro w hwW hne b hwb
    rcases Set.mem_insert_iff.mp hwW with rfl | hwW
    · exact absurd rfl hne
    rcases eq_or_ne w c with rfl | hwc
    · rw [hd, Option.some.injEq] at hwb
      subst hwb
      omega
    · have := hins.below w ((Set.mem_insert_iff.mp hwW).resolve_left hwc) hwc b hwb
      omega
  · have hmod := maskIndex_eq_iff (l + 1) j index
    rw [← hshift] at hmod
    obtain ⟨q, e, hq, -, he, hes⟩ := hw.child p _ (by simp) hb (show n.shift ≠ 0 by omega)
      (maskIndex n.shift j)
    have hes' : e.shift + 8 = n.shift := hes
    have hq' : n.data (maskIndex n.shift j) = .pointer q := hq
    have hwalk : walk h (l + 1) p j = walk h l q j := walk_succ hb (by rw [← hshift]; exact hq)
    have hwalk' : walk h' (l + 1) p j = walk h' l q j := walk_succ hself (by rw [← hshift]; exact hq)
    rw [hwalk, hwalk']
    by_cases hslot : maskIndex n.shift j = maskIndex n.shift index
    · rw [hslot, hi] at hq'
      cases hq'
      rw [hins.found hok j]
      exact if_congr (by rw [hmod, and_iff_right hslot, hshift]) rfl rfl
    · -- the other slots of the node do not lead to what was written
      rw [if_neg (by rw [hmod]; simp [hslot])]
      have hqc : q ≠ c := by
        rintro rfl
        have honce := hw.once p _ (by simp) hb q hc5
        have htwo := @out_setData _ n (maskIndex n.shift index) (.value none) q
        have hheld : holds (n.data (maskIndex n.shift index)) q = 1 := by simp [holds, hi, Word.toPointer]
        have hpos : 0 < (n.setData (maskIndex n.shift index) (.value none)).body.out q :=
          Body.out_pos_iff.mpr ⟨maskIndex n.shift j, by
            show Function.update n.data _ _ _ = _
            rw [Function.update_of_ne hslot, hq']⟩
        rw [hheld] at htwo
        simp only [holds, Word.toPointer, reduceCtorEq, if_false] at htwo
        omega
      have hqW : q ∉ insert c W := by
        intro hqW
        have hqW' := (Set.mem_insert_iff.mp hqW).resolve_left hqc
        exact hpW ((hins.owned q hqW' hqc).2 p _ _ hb hq)
      refine walk_keep hw.toShaped (L := n.shift) hkept (fun r b i t hr hrb hlt hrt htW => ?_) hqW he
        (by omega) l j
      rcases eq_or_ne t c with rfl | htc
      · have := hparent r b i hrb hrt
        subst this
        rw [hb, Option.some.injEq] at hrb
        subst hrb
        exact absurd hlt (lt_irrefl _)
      · have htW' := (Set.mem_insert_iff.mp htW).resolve_left htc
        exact hr (Set.mem_insert_of_mem c ((hins.owned t htW' htc).2 r b i hrb hrt))

/-- Publishing a new node in a slot after the insert below it, and giving up the old child. -/
theorem inserted_published {h h₁ h₂ : Heap V} {ext : ℕ → ℕ} {p c l index : ℕ} {n : SparseArray V}
    {value : Option V} {W : Set ℕ} (hw : WellFormed h ext ∅) (hp : 5 ≤ p) (hn : h.nodes p = some n)
    (hshift : n.shift = 8 * (l + 1)) (hi : n.data (maskIndex n.shift index) = .pointer c)
    (hrep : Replaced h h₁ ext l c)
    (hins : Inserted h₁ h₂ (fun q => ext q + credit h.next q) h.next l index value true W) :
    ∃ h', ((h₂.modify p (·.setData (maskIndex n.shift index) (.pointer h.next))).bind fun h₃ =>
        if isEmptyChild c then some h₃ else sparseArrayDestroy h₃ c) = some h' ∧
      Inserted h h' ext p (l + 1) index value true (insert p {w ∈ W | w < h.next}) := by
  have hb := body_eq_some hn
  have hge := hw.next_ge
  obtain ⟨b, hbody₁, hbs⟩ := hrep.body
  have hlt : ∀ q e, h.body q = some e → q < h.next := fun q e => hw.lt_next
  have hold₁ : ∀ q e, h.body q = some e → h₁.body q = some e := by
    intro q e hq
    rw [hbody₁, Function.update_of_ne (hlt q e hq).ne, hq]
  -- the written nodes are below the new one, and only they lead to each other
  have hlow : ∀ q e, q ∈ W → h.body q = some e → e.shift < 8 * l := fun q e hqW hq =>
    hins.below q hqW (hlt q e hq).ne e (hold₁ q e hq)
  have hinto : ∀ q e i w, h.body q = some e → e.data i = .pointer w → w ∈ W → q ∈ W := by
    intro q e i w hq hqw hwW
    obtain ⟨-, d, hd, -⟩ := hw.child_of_pointer (by simp) hq hqw
    exact (hins.owned w hwW (hlt w d hd).ne).2 q e i (hold₁ q e hq) hqw
  have hpW : p ∉ W := fun hpW => by
    have : n.shift < 8 * l := hlow p _ hpW hb
    omega
  have hkept₂ : ∀ q e, q ∉ W → h.body q = some e → h₂.body q = some e := fun q e hq hqe =>
    hins.kept q e hq (hold₁ q e hqe)
  have hb₂ : h₂.body p = some n.body := hkept₂ p _ hpW hb
  obtain ⟨n₂, hn₂, hbody_eq⟩ := body_eq_some_iff.mp hb₂
  have hshift₂ : n₂.shift = n.shift := congrArg Body.shift hbody_eq
  have hdata₂ : n₂.data = n.data := congrArg Body.data hbody_eq
  obtain ⟨br, hbr, hbrs⟩ := hins.self
  -- the slot is redirected to the new node
  have hnew : n₂.body.out h.next = 0 := by
    rw [hbody_eq]
    refine Body.out_eq_zero fun i hin => ?_
    obtain ⟨-, d, hd, -⟩ := hw.child_of_pointer (by simp) hb hin
    exact (hlt _ d hd).ne rfl
  have hw₃ : WellFormed (h₂.store p (some (n₂.setData (maskIndex n.shift index) (.pointer h.next))))
      (fun q => ext q + credit c q) ∅ :=
    hins.wf.store_pointer hp hn₂ (by rw [hdata₂, hi]) hge hbr (by omega) hnew
  have hbody₃ := @body_store_setData _ h₂ p n₂ (maskIndex n.shift index) (.pointer h.next)
  rw [hshift₂, hdata₂] at hbody₃
  have hkept₃ : ∀ q e, q ∉ W → q ≠ p → h.body q = some e →
      (h₂.store p (some (n₂.setData (maskIndex n.shift index) (.pointer h.next)))).body q = some e := by
    intro q e hq hne hqe
    rw [hbody₃, Function.update_of_ne hne]
    exact hkept₂ q e hq hqe
  -- the old child keeps another owner, if it is not static
  obtain ⟨h', heq, hw', hbody', hnext', hfails'⟩ : ∃ h',
      (if isEmptyChild c then
        some (h₂.store p (some (n₂.setData (maskIndex n.shift index) (.pointer h.next))))
      else sparseArrayDestroy
        (h₂.store p (some (n₂.setData (maskIndex n.shift index) (.pointer h.next)))) c) = some h' ∧
      WellFormed h' ext ∅ ∧
      h'.body = (h₂.store p (some (n₂.setData (maskIndex n.shift index) (.pointer h.next)))).body ∧
      h'.next = h₂.next ∧ h'.fails = h₂.fails := by
    obtain ⟨-, d, hd, hds⟩ := hw.child_of_pointer (by simp) hb (show n.body.data _ = .pointer c from hi)
    have hds' : d.shift + 8 = n.shift := hds
    by_cases hc : 5 ≤ c
    · have hempty : isEmptyChild c = false := Bool.eq_false_iff.mpr fun he => by
        have := (isEmptyChild_iff c).mp he
        omega
      rw [hempty, if_neg (by simp)]
      have hcW : c ∉ W := fun hcW => hpW (hinto p _ _ c hb hi hcW)
      have hcp : c ≠ p := by
        rintro rfl
        rw [hb, Option.some.injEq] at hd
        have : n.shift = d.shift := congrArg Body.shift hd
        omega
      obtain ⟨m, hm, -⟩ := body_eq_some_iff.mp (hkept₃ c d hcW hcp hd)
      obtain ⟨hcount, -, -⟩ := hw₃.counts c m hc (by simp) hm
      simp only [credit_self hc] at hcount
      have hother : 0 < refs (h₂.store p (some (n₂.setData (maskIndex n.shift index) (.pointer h.next)))) ∅ c
          + ext c := by
        by_contra hnone
        have hshared := hrep.shared hc
        have hone := hw.once p _ (by simp) hb c hc
        have hins' := @holders_insert _ h.body Body.out h.next ∅ c p (hlt p _ hb) (by simp)
        rw [hb, outOf_some] at hins'
        have hrefs : holders h.body Body.out h.next ∅ c = refs h ∅ c := rfl
        obtain ⟨q, hq, hqp, e, he, hout⟩ := holders_pos_iff.mp
          (show 0 < holders h.body Body.out h.next (insert p ∅) c by omega)
        obtain ⟨i, hqc⟩ := Body.out_pos_iff.mp hout
        have hqW : q ∉ W := by
          intro hqW
          have h1 := hlow q e hqW he
          obtain ⟨-, d', hd', hds''⟩ := hw.child_of_pointer (by simp) he hqc
          rw [hd, Option.some.injEq] at hd'
          subst hd'
          omega
        have := hw₃.refs_pos (by simp) (hkept₃ q e hqW (by simpa using hqp) he) hqc
        omega
      obtain ⟨heq, hw'⟩ := sparseArrayDestroyFuel_shared 3 hw₃ hc (by simp) hm (by omega)
      exact ⟨_, heq, hw', body_store_setRefCount hm _, rfl, rfl⟩
    · have hempty : isEmptyChild c = true := by
        rw [isEmptyChild_iff]
        refine ⟨Nat.one_le_iff_ne_zero.mpr ?_, by omega⟩
        rintro rfl
        obtain ⟨m, hm, -⟩ := body_eq_some_iff.mp hd
        rw [hw.statics 0 (by omega)] at hm
        cases hm
      rw [hempty, if_pos rfl]
      refine ⟨_, rfl, ?_, rfl, rfl, rfl⟩
      simpa [credit_of_lt (show c < 5 by omega)] using hw₃
  have hself : h'.body p =
      some ⟨n.shift, Function.update n.data (maskIndex n.shift index) (.pointer h.next)⟩ := by
    rw [hbody', hbody₃, Function.update_self]
  have hkept : ∀ q e, q ∉ insert p W → h.body q = some e → h'.body q = some e := by
    intro q e hq hqe
    rw [hbody']
    exact hkept₃ q e (fun h => hq (Set.mem_insert_of_mem p h)) (fun h => hq (h ▸ Set.mem_insert ..)) hqe
  refine ⟨h', ?_, hw', ?_, ?_, fun q e hq hqe => ?_, ⟨_, hself, hshift⟩, ?_, ?_, nofun, fun _ j => ?_,
    fun _ => rfl, ?_⟩
  · rw [modify_eq_some hn₂]
    exact heq
  · have := hins.next_le
    rw [hrep.next_eq] at this
    omega
  · rw [hfails', hins.fails_eq, hrep.fails_eq]
  · refine hkept q e (fun hqW => hq ?_) hqe
    rcases Set.mem_insert_iff.mp hqW with rfl | hqW
    · exact Set.mem_insert ..
    · exact Set.mem_insert_of_mem p ⟨hqW, hlt q e hqe⟩
  · rintro w hwW hne
    obtain ⟨hwW, hwlt⟩ := (Set.mem_insert_iff.mp hwW).resolve_left hne
    obtain ⟨h1, -⟩ := hins.owned w hwW (by omega)
    exact ⟨by omega, fun q e i hq hqw =>
      Set.mem_insert_of_mem p ⟨hinto q e i w hq hqw hwW, hlt q e hq⟩⟩
  · rintro w hwW hne e hwe
    obtain ⟨hwW, -⟩ := (Set.mem_insert_iff.mp hwW).resolve_left hne
    have := hlow w e hwW hwe
    omega
  · have hmod := maskIndex_eq_iff (l + 1) j index
    rw [← hshift] at hmod
    obtain ⟨q, e, hq, -, he, hes⟩ := hw.child p _ (by simp) hb (show n.shift ≠ 0 by omega)
      (maskIndex n.shift j)
    have hes' : e.shift + 8 = n.shift := hes
    have hq' : n.data (maskIndex n.shift j) = .pointer q := hq
    have hwalk : walk h (l + 1) p j = walk h l q j := walk_succ hb (by rw [← hshift]; exact hq)
    rw [hwalk]
    by_cases hslot : maskIndex n.shift j = maskIndex n.shift index
    · -- through the new node
      rw [hslot, hi] at hq'
      cases hq'
      have hwalk' : walk h' (l + 1) p j = walk h' l h.next j := walk_succ hself (by
        rw [← hshift, hslot]
        exact Function.update_self ..)
      have hbelow : walk h' l h.next j = walk h₂ l h.next j := by
        refine walk_keep hins.wf.toShaped (W := {p}) (L := n.shift) (fun r d hr hrd => ?_)
          (fun r d i t hr hrd hlt' hrt htp => ?_) (fun hp' => ?_) hbr (by omega) l j
        · rw [hbody', hbody₃, Function.update_of_ne hr, hrd]
        · obtain ⟨-, d', hd', hds'⟩ := hins.wf.child_of_pointer (by simp) hrd hrt
          rw [Set.mem_singleton_iff.mp htp, hb₂, Option.some.injEq] at hd'
          have : n.shift = d'.shift := congrArg Body.shift hd'
          omega
        · have := hlt p _ hb
          have hp' : h.next = p := hp'
          omega
      rw [hwalk', hbelow, hins.found rfl j, hrep.reads]
      exact if_congr (by rw [hmod, and_iff_right hslot, hshift]) rfl rfl
    · -- through another slot
      have hwalk' : walk h' (l + 1) p j = walk h' l q j := walk_succ hself (by
        rw [← hshift]
        show Function.update n.data _ _ _ = _
        rw [Function.update_of_ne hslot, hq'])
      rw [hwalk', if_neg (by rw [hmod]; simp [hslot])]
      refine walk_keep hw.toShaped (W := insert p W) (L := n.shift) hkept
        (fun r d i t hr hrd hlt' hrt htW => ?_) (fun hqW => ?_) he (by omega) l j
      · rcases Set.mem_insert_iff.mp htW with rfl | htW
        · obtain ⟨-, d', hd', hds'⟩ := hw.child_of_pointer (by simp) hrd hrt
          rw [hb, Option.some.injEq] at hd'
          have : n.shift = d'.shift := congrArg Body.shift hd'
          omega
        · exact hr (Set.mem_insert_of_mem p (hinto r d i t hrd hrt htW))
      · rcases Set.mem_insert_iff.mp hqW with rfl | hqW
        · rw [hb, Option.some.injEq] at he
          have : n.shift = e.shift := congrArg Body.shift he
          omega
        · exact hpW (hinto p _ _ q hb hq hqW)
  · rintro t ht5 htn ⟨q, e, i, hq, ht⟩
    rw [hbody', hbody₃] at hq
    rcases eq_or_ne q p with rfl | hne
    · rw [Function.update_self, Option.some.injEq] at hq
      subst hq
      rcases eq_or_ne i (maskIndex n.shift index) with rfl | hislot
      · have : h.next = t := by simpa using (Function.update_self ..).symm.trans ht
        omega
      · exact ⟨q, _, i, hb, (Function.update_of_ne hislot ..).symm.trans ht⟩
    · rw [Function.update_of_ne hne] at hq
      refine hrep.referenced t ht5 (hins.referenced t ht5 ?_ ⟨q, e, i, hq, ht⟩)
      rw [hrep.next_eq]
      omega

/-- **An insert changes one value below one node, or fails and changes nothing.** -/
theorem sparseArrayInsertFuel_spec : ∀ (l fuel : ℕ) {h : Heap V} {ext : ℕ → ℕ} {p : ℕ} {n : SparseArray V}
    (index : ℕ) (value : Option V), l < fuel → WellFormed h ext ∅ → 5 ≤ p → h.nodes p = some n →
    n.shift = 8 * l → CountsFit h l →
    ∃ ok h' W, sparseArrayInsertFuel fuel h p index value = some (ok, h') ∧
      Inserted h h' ext p l index value ok W := by
  intro l
  induction l with
  | zero =>
    intro fuel h ext p n index value hfuel hw hp hn hshift _
    obtain ⟨fuel, rfl⟩ := Nat.exists_eq_succ_of_ne_zero (by omega : fuel ≠ 0)
    obtain ⟨h', heq, hins⟩ := inserted_leaf hw hp hn hshift fuel index value
    exact ⟨true, h', _, heq, hins⟩
  | succ l ih =>
    intro fuel h ext p n index value hfuel hw hp hn hshift hfit
    obtain ⟨fuel, rfl⟩ := Nat.exists_eq_succ_of_ne_zero (by omega : fuel ≠ 0)
    have hb := body_eq_some hn
    have hp0 : p ≠ null := by unfold null; omega
    have hge := hw.next_ge
    obtain ⟨c, d, hi, -, hd, hds⟩ := hw.child p _ (by simp) hb (show n.shift ≠ 0 by omega)
      (maskIndex n.shift index)
    have hds' : d.shift + 8 = n.shift := hds
    have hi' : n.data (maskIndex n.shift index) = .pointer c := hi
    rcases replacementFor_spec hw hn hshift hi' hfit with
      ⟨hrep, hf⟩ | ⟨h₁, hrep, hr⟩ | ⟨hrep, hc5, hcount⟩
    · -- no memory for a new node
      refine ⟨false, _, ∅, ?_, Inserted.of_failed (hw.calloc_fails hf) (Nat.le_succ _) rfl hb hshift
        (fun _ _ hq => hq) (fun hall => ?_) fun _ _ _ href => href⟩
      · rw [sparseArrayInsertFuel_inner fuel value hp0 hn (by omega) hi' hrep, if_pos rfl]
      · rw [hall] at hf
        cases hf
    · obtain ⟨b, hbody₁, hbs⟩ := hr.body
      obtain ⟨m, hm, hmb⟩ := body_eq_some_iff.mp (show h₁.body h.next = some b by
        rw [hbody₁, Function.update_self])
      obtain ⟨ok, h₂, W, hrec, hins⟩ := ih fuel index value (by omega) hr.wf hge hm
        ((congrArg Body.shift hmb).trans hbs) hr.few
      have hinner := sparseArrayInsertFuel_inner fuel value hp0 hn (by omega) hi' hrep
      rw [if_neg (by unfold null; omega), hrec, Option.bind_some] at hinner
      cases ok with
      | false =>
        -- the new node is given back
        have hold : ∀ q e, h.body q = some e → h₂.body q = some e := by
          intro q e hq
          refine hins.failed rfl q e ?_
          rw [hbody₁, Function.update_of_ne (hw.lt_next hq).ne, hq]
        obtain ⟨h₃, hdestroy, hw₃, hshr⟩ := sparseArrayDestroyFuel_spec 4 hins.wf (by omega)
          fun _ e he => by
            have := hins.wf.shift_le he
            omega
        refine ⟨false, h₃, ∅, ?_, Inserted.of_failed hw₃ ?_ ?_ hb hshift (fun q e hq => ?_)
          (fun hall => ?_) ?_⟩
        · rw [hinner, if_pos rfl, if_pos rfl, sparseArrayDestroy, hdestroy]
          rfl
        · have := hins.next_le
          rw [hr.next_eq] at this
          rw [hshr.next_eq]
          omega
        · rw [hshr.fails_eq, hins.fails_eq, hr.fails_eq]
        · exact hw.survives hw₃ (fun _ h0 => h0) hshr.back hold hq
        · have := hins.succeeds (by rwa [hr.fails_eq])
          cases this
        · rintro t ht5 htn ⟨q, e, i, hq, ht⟩
          refine hr.referenced t ht5 (hins.referenced t ht5 ?_ ⟨q, e, i, hshr.back q e hq, ht⟩)
          rw [hr.next_eq]
          omega
      | true =>
        obtain ⟨h', heq, hins'⟩ := inserted_published hw hp hn hshift hi' hr hins
        refine ⟨true, h', _, ?_, hins'⟩
        rw [hinner, if_neg (by simp), if_pos rfl]
        rw [Option.bind_eq_some_iff] at heq
        obtain ⟨h₃, hmod, hdestroy⟩ := heq
        rw [hmod, Option.bind_some, hdestroy]
        rfl
    · obtain ⟨m, hm, rfl⟩ := body_eq_some_iff.mp hd
      have hms : m.shift + 8 = n.shift := hds
      obtain ⟨ok, h', W, hrec, hins⟩ := ih fuel index value (by omega) hw hc5 hm (by omega)
        fun q k hq hk hks => hfit q k hq hk (by omega)
      refine ⟨ok, h', _, ?_, inserted_inPlace hw hn hshift hi' hc5 hcount hins⟩
      rw [sparseArrayInsertFuel_inner fuel value hp0 hn (by omega) hi' hrep,
        if_neg (by unfold null; omega), hrec]
      cases ok <;> rfl

end Libobjc2.Dispatch
