import Libobjc2.Dispatch.SparseArrayRuns

/-!
# Failed allocations of sparse arrays (`src/dispatch/sarray2.c`, lines 67–215)

An insert that runs out of memory deep in a tree gives back the nodes it has made so far. These
nodes share children with the originals, so giving one back must undo exactly the ownerships
that copying it took. No count needs to be exact for that, as long as the counts of the children
that are undone are between 1 and `2 ^ 32 - 1`: adding one may even wrap around.

Results:
* `insertFuel_outcome`: an insert either meets no failing allocation, or leaves every node as it
  was and frees each node it made.
* `failed_changes_nothing`: the same for all three operations, on live roots whose counts are the
  numbers of owners.
* `failed_insert_frees`: with a count that wrapped around, a failed insert frees a live node.
-/

namespace Libobjc2.Dispatch

open Libobjc2.Common

variable {V : Type}

/-! ## Specification -/

/-- Some allocation between `h` and `h'` failed. -/
def AllocFailed (h h' : Heap V) : Prop := ∃ a, h.next ≤ a ∧ a < h'.next ∧ h.fails a = true

/-- The nodes are as before, and those that were allocated in between were freed once. -/
structure Restored (h h' : Heap V) : Prop where
  nodes : h'.nodes = h.nodes
  fails_eq : h'.fails = h.fails
  next_le : h.next ≤ h'.next
  freed : ∃ new, h'.freed = new ++ h.freed ∧ new.Nodup ∧ ∀ a, a ∈ new ↔ h.next ≤ a ∧ a < h'.next ∧
      h.fails a = false

/-- Nothing can be told from before: no lookup, no reference count, and each node allocated in
    between was freed exactly once. -/
structure ChangesNothing (h h' : Heap V) : Prop where
  lookup : ∀ root index, sparseArrayLookup h' root index = sparseArrayLookup h root index
  refCount : ∀ p, (h'.nodes p).map SparseArray.refCount = (h.nodes p).map SparseArray.refCount
  freed : ∃ new, h'.freed = new ++ h.freed ∧ new.Nodup ∧ ∀ a, a ∈ new ↔ h.next ≤ a ∧ a < h'.next ∧
      h.fails a = false
  wellFormed : ∀ ext, WellFormed h ext ∅ → WellFormed h' ext ∅

/-- `b` is the root of a tree with `l` levels of inner nodes. -/
def TreeBody (h : Heap V) : ℕ → Body V → Prop
  | 0, b => b.shift = 0 ∧ ∀ i, ∃ v, b.data i = .value v
  | l + 1, b => b.shift = 8 * (l + 1) ∧ (∀ q, 5 ≤ q → b.out q ≤ 1) ∧
      ∀ i, ∃ q c, b.data i = .pointer q ∧ h.body q = some c ∧ TreeBody h l c

def Tree (h : Heap V) (l p : ℕ) : Prop := ∃ b, h.body p = some b ∧ TreeBody h l b

/-- What does not depend on the counts being exact. -/
structure Ready (h : Heap V) : Prop where
  statics : ∀ p < 5, h.nodes p = emptyNode p
  next_ge : 5 ≤ h.next
  fresh : ∀ p, h.next ≤ p → h.nodes p = none
  bounded : ∀ p n, h.nodes p = some n → n.refCount < 2 ^ 32

/-- The nodes at least two levels below level `l` have owners. -/
def Owned (h : Heap V) (l : ℕ) : Prop :=
  ∀ p n, 5 ≤ p → h.nodes p = some n → n.shift + 16 ≤ 8 * l → 0 < n.refCount

/-- An insert at `p` of level `l` that met no failing allocation: of the nodes that are not below
    level `l`, it changed only `p`. -/
structure Wrote (h h' : Heap V) (p l : ℕ) : Prop where
  next_le : h.next ≤ h'.next
  fails_eq : h'.fails = h.fails
  succeeded : ¬ AllocFailed h h'
  kept : ∀ q n, q ≠ p → h.nodes q = some n → 8 * l ≤ n.shift → h'.nodes q = some n
  self : ∃ n, h'.nodes p = some n

/-- A new node with the contents `b`, whose children have an owner more. -/
structure Replacement (h h₁ : Heap V) (b : Body V) : Prop where
  next_eq : h₁.next = h.next + 1
  fails_eq : h₁.fails = h.fails
  freed_eq : h₁.freed = h.freed
  nodes : ∀ q, h₁.nodes q = (Function.update h.nodes h.next (some ⟨b.shift, 1, b.data⟩) q).map fun m =>
    m.setRefCount (addRef^[pending b.data slots q] m.refCount)

/-! ## Trees -/

section

variable {h h' : Heap V}

theorem TreeBody.shift_eq {l : ℕ} {b : Body V} (hb : TreeBody h l b) : b.shift = 8 * l := by
  cases l with
  | zero => exact hb.1
  | succ l => exact hb.1

theorem TreeBody.child {l : ℕ} {b : Body V} (hb : TreeBody h (l + 1) b) (i : Fin 256) :
    ∃ q, b.data i = .pointer q ∧ Tree h l q := by
  obtain ⟨q, c, hq, hc, hcl⟩ := hb.2.2 i
  exact ⟨q, hq, c, hc, hcl⟩

theorem Shaped.treeBody (hs : Shaped h ∅) :
    ∀ (l p : ℕ) (b : Body V), h.body p = some b → b.shift = 8 * l → TreeBody h l b
  | 0, p, b, hb, hshift => ⟨hshift, hs.leaf p b hb hshift⟩
  | l + 1, p, b, hb, hshift => by
    refine ⟨hshift, hs.once p b (by simp) hb, fun i => ?_⟩
    obtain ⟨q, c, hq, -, hc, hcs⟩ := hs.child p b (by simp) hb (by omega) i
    exact ⟨q, c, hq, hc, hs.treeBody l q c hc (by omega)⟩

theorem TreeBody.mono (hkept : ∀ q b, h.body q = some b → h'.body q = some b) :
    ∀ {l : ℕ} {b : Body V}, TreeBody h l b → TreeBody h' l b
  | 0, _, hb => hb
  | _ + 1, _, ⟨hshift, honce, hchild⟩ => by
    refine ⟨hshift, honce, fun i => ?_⟩
    obtain ⟨q, c, hq, hc, hcl⟩ := hchild i
    exact ⟨q, c, hq, hkept q c hc, hcl.mono hkept⟩

theorem Tree.node {l p : ℕ} (hp : Tree h l p) : ∃ n, h.nodes p = some n ∧ n.shift = 8 * l ∧
    TreeBody h l n.body := by
  obtain ⟨b, hb, hbl⟩ := hp
  obtain ⟨n, hn, rfl⟩ := body_eq_some_iff.mp hb
  exact ⟨n, hn, hbl.shift_eq, hbl⟩

theorem Tree.ne_null (hr : Ready h) {l p : ℕ} (hp : Tree h l p) : p ≠ null := by
  rintro rfl
  obtain ⟨n, hn, -⟩ := hp.node
  rw [hr.statics null (by decide)] at hn
  cases hn

theorem Tree.lt_next (hr : Ready h) {l p : ℕ} (hp : Tree h l p) : p < h.next := by
  by_contra hge
  obtain ⟨n, hn, -⟩ := hp.node
  rw [hr.fresh p (by omega)] at hn
  cases hn

/-- A child that the slots of a tree count is one level down, and counted once. -/
theorem TreeBody.pending_pos {l q : ℕ} {b : Body V} (hb : TreeBody h l b) (hq : 0 < pending b.data slots q) :
    5 ≤ q ∧ pending b.data slots q = 1 ∧ ∃ k, l = k + 1 ∧ Tree h k q := by
  have h5 : 5 ≤ q := by
    by_contra hlt
    rw [pending, if_neg hlt] at hq
    exact absurd hq (Nat.lt_irrefl 0)
  have hout : pending b.data slots q = b.out q := by
    rw [pending, if_pos h5]
    rfl
  rw [hout] at hq ⊢
  obtain ⟨i, hi⟩ := Body.out_pos_iff.mp hq
  cases l with
  | zero =>
    obtain ⟨v, hv⟩ := hb.2 i
    rw [hi] at hv
    cases hv
  | succ k =>
    have := hb.2.1 q h5
    obtain ⟨r, hr, hrl⟩ := hb.child i
    rw [hi] at hr
    cases hr
    exact ⟨h5, by omega, k, rfl, hrl⟩

/-- A node whose slots all hold one static node counts no child. -/
theorem out_static {e : ℕ} (he : e < 5) (shift q : ℕ) (hq : 5 ≤ q) :
    (⟨shift, fun _ => .pointer e⟩ : Body V).out q = 0 := by
  refine Body.out_eq_zero fun i hi => ?_
  have : e = q := by simpa using hi
  omega

theorem TreeBody.static {l e : ℕ} (he : e < 5) (ht : Tree h l e) :
    TreeBody h (l + 1) ⟨8 * (l + 1), fun _ => .pointer e⟩ := by
  obtain ⟨c, hc, hcl⟩ := ht
  exact ⟨rfl, fun q hq => (out_static he _ q hq).le.trans (Nat.zero_le 1), fun _ => ⟨e, c, rfl, hc, hcl⟩⟩

/-- The static children are trees. -/
theorem Ready.tree_static (hr : Ready h) {l e : ℕ} (hl : emptyChildForShift (8 * (l + 1)) = some e) :
    e < 5 ∧ Tree h l e := by
  have hbody : ∀ p n, p < 5 → emptyNode p = some n → h.body p = some n.body :=
    fun p n hp hn => body_eq_some ((hr.statics p hp).trans hn)
  have h0 : Tree h 0 emptyArray := ⟨_, hbody emptyArray _ (by decide) rfl, rfl, fun _ => ⟨none, rfl⟩⟩
  have h8 : Tree h 1 emptyArray8 := ⟨_, hbody emptyArray8 _ (by decide) rfl, TreeBody.static (by decide) h0⟩
  have h16 : Tree h 2 emptyArray16 :=
      ⟨_, hbody emptyArray16 _ (by decide) rfl, TreeBody.static (by decide) h8⟩
  unfold emptyChildForShift at hl
  split at hl
  · obtain ⟨rfl, rfl⟩ : l = 0 ∧ emptyArray = e := ⟨by omega, Option.some.inj hl⟩
    exact ⟨by decide, h0⟩
  · obtain ⟨rfl, rfl⟩ : l = 1 ∧ emptyArray8 = e := ⟨by omega, Option.some.inj hl⟩
    exact ⟨by decide, h8⟩
  · obtain ⟨rfl, rfl⟩ : l = 2 ∧ emptyArray16 = e := ⟨by omega, Option.some.inj hl⟩
    exact ⟨by decide, h16⟩
  · cases hl

/-- What `init_pointers` makes of a new node. -/
theorem Ready.initPointers (hr : Ready h) {l : ℕ} (hl : l ≤ 3) :
    ∃ d, initPointers (8 * l) = some d ∧ TreeBody h l ⟨8 * l, d⟩ ∧ ∀ q, pending d slots q = 0 := by
  cases l with
  | zero =>
    have hb : TreeBody h 0 (⟨0, fun _ => .value none⟩ : Body V) := ⟨rfl, fun _ => ⟨none, rfl⟩⟩
    refine ⟨_, rfl, hb, fun q => ?_⟩
    by_contra hne
    obtain ⟨-, -, k, hk, -⟩ := hb.pending_pos (Nat.pos_of_ne_zero hne)
    cases hk
  | succ l =>
    obtain ⟨e, he⟩ : ∃ e, emptyChildForShift (8 * (l + 1)) = some e := by
      have hle : l ≤ 2 := by omega
      interval_cases l <;> exact ⟨_, rfl⟩
    obtain ⟨he5, ht⟩ := hr.tree_static he
    refine ⟨fun _ => .pointer e, ?_, TreeBody.static he5 ht, fun q => ?_⟩
    · rw [Dispatch.initPointers, if_pos (by omega), he]
      rfl
    · by_contra hne
      obtain ⟨hq, hone, -⟩ := (TreeBody.static he5 ht).pending_pos (Nat.pos_of_ne_zero hne)
      rw [pending, if_pos hq] at hone
      have hone : (⟨0, fun _ => .pointer e⟩ : Body V).out q = 1 := hone
      rw [out_static he5 0 q hq] at hone
      cases hone

end

/-! ## Undoing a copy -/

section

variable {h h₁ h₂ : Heap V} {b : Body V}

theorem subRef_addRef {c : ℕ} (hc : c < 2 ^ 32) : subRef (addRef c) = c := by
  unfold subRef addRef
  omega

theorem setRefCount_iterate (f : ℕ → ℕ) (m : SparseArray V) (k : ℕ) :
    (m.setRefCount (f m.refCount)).setRefCount (f^[k] (m.setRefCount (f m.refCount)).refCount) =
      m.setRefCount (f^[k + 1] m.refCount) := rfl

theorem setRefCount_undo (f g : ℕ → ℕ) (n : SparseArray V) (hfg : g (f n.refCount) = n.refCount) :
    (n.setRefCount (f n.refCount)).setRefCount (g^[1] (n.setRefCount (f n.refCount)).refCount) = n := by
  show n.setRefCount (g (f n.refCount)) = n
  rw [hfg]
  rfl

/-- Nodes that are not children of the new one are as before. -/
theorem Replacement.old (hrep : Replacement h h₁ b) {q : ℕ} (hq : q ≠ h.next)
    (hpend : pending b.data slots q = 0) :
    h₁.nodes q = h.nodes q := by
  rw [hrep.nodes, Function.update_of_ne hq, hpend]
  cases h.nodes q <;> rfl

/-- So are the nodes of the level of the new one and above. -/
theorem Replacement.upper (hrep : Replacement h h₁ b) (hr : Ready h) {l q : ℕ} (hb : TreeBody h l b)
    {n : SparseArray V} (hn : h.nodes q = some n) (hshift : 8 * l ≤ n.shift) : h₁.nodes q = some n := by
  rw [hrep.old ?_ ?_, hn]
  · rintro rfl
    rw [hr.fresh h.next le_rfl] at hn
    cases hn
  · by_contra hne
    obtain ⟨-, -, k, rfl, hq⟩ := hb.pending_pos (Nat.pos_of_ne_zero hne)
    obtain ⟨m, hm, hms, -⟩ := hq.node
    rw [hn] at hm
    cases hm
    omega

/-- And those two levels below it. -/
theorem Replacement.lower (hrep : Replacement h h₁ b) {l q : ℕ} (hb : TreeBody h l b) (hq : q ≠ h.next)
    {n : SparseArray V} (hn : h₁.nodes q = some n) (hshift : n.shift + 16 ≤ 8 * l) : h.nodes q = some n := by
  rw [← hn]
  refine (hrep.old hq ?_).symm
  by_contra hne
  obtain ⟨-, -, k, rfl, hk⟩ := hb.pending_pos (Nat.pos_of_ne_zero hne)
  obtain ⟨m, hm, hms, -⟩ := hk.node
  rw [hrep.nodes, Function.update_of_ne hq, hm] at hn
  have : n.shift = m.shift := by rw [← Option.some.inj hn]; rfl
  omega

theorem Replacement.body (hrep : Replacement h h₁ b) : h₁.body = Function.update h.body h.next (some b) := by
  funext q
  unfold Heap.body
  rw [hrep.nodes]
  rcases eq_or_ne q h.next with rfl | hne
  · rw [Function.update_self, Function.update_self]
    rfl
  · rw [Function.update_of_ne hne, Function.update_of_ne hne]
    cases h.nodes q <;> rfl

theorem Replacement.keeps (hrep : Replacement h h₁ b) (hr : Ready h) (q : ℕ) (c : Body V)
    (hc : h.body q = some c) :
    h₁.body q = some c := by
  rw [hrep.body, Function.update_of_ne, hc]
  rintro rfl
  rw [body_eq_none_iff.mpr (hr.fresh h.next le_rfl)] at hc
  cases hc

/-- The new node has one owner. -/
theorem Replacement.self (hrep : Replacement h h₁ b) (hr : Ready h) {l : ℕ} (hb : TreeBody h l b) :
    h₁.nodes h.next = some ⟨b.shift, 1, b.data⟩ := by
  have hpend : pending b.data slots h.next = 0 := by
    by_contra hne
    obtain ⟨-, -, k, -, hk⟩ := hb.pending_pos (Nat.pos_of_ne_zero hne)
    exact absurd (hk.lt_next hr) (Nat.lt_irrefl _)
  rw [hrep.nodes, Function.update_self, hpend]
  rfl

theorem Replacement.ready (hrep : Replacement h h₁ b) (hr : Ready h) : Ready h₁ where
  statics p hp := by
    have hge := hr.next_ge
    have hpend : pending b.data slots p = 0 := by rw [pending, if_neg (by omega)]
    rw [hrep.old (by omega) hpend]
    exact hr.statics p hp
  next_ge := by rw [hrep.next_eq]; exact Nat.le_succ_of_le hr.next_ge
  fresh p hp := by
    rw [hrep.next_eq] at hp
    rw [hrep.nodes, Function.update_of_ne (by omega), hr.fresh p (by omega)]
    rfl
  bounded p n hn := by
    have hiterate : ∀ k c, c < 2 ^ 32 → addRef^[k] c < 2 ^ 32 := by
      intro k
      induction k with
      | zero => exact fun c hc => hc
      | succ k ih =>
        intro c _
        rw [Function.iterate_succ_apply]
        exact ih _ (Nat.mod_lt _ (by decide))
    rw [hrep.nodes] at hn
    obtain ⟨m, hm, rfl⟩ := Option.map_eq_some_iff.mp hn
    refine hiterate _ _ ?_
    rcases eq_or_ne p h.next with rfl | hne
    · rw [Function.update_self, Option.some.injEq] at hm
      rw [← hm]
      show 1 < 2 ^ 32
      decide
    · rw [Function.update_of_ne hne] at hm
      exact hr.bounded p m hm

/-- A node that is not static. -/
theorem not_static {p : ℕ} (hp : 5 ≤ p) : (decide (p = null) || isEmptyChild p) = false := by
  rw [Bool.or_eq_false_iff, decide_eq_false_iff_not]
  refine ⟨by unfold null; omega, Bool.eq_false_iff.mpr fun he => ?_⟩
  have := (isEmptyChild_iff p).mp he
  omega

/-- A node that keeps an owner is only decremented. -/
theorem destroy_decrements (fuel : ℕ) {p : ℕ} {m : SparseArray V} (hp : 5 ≤ p) (hm : h.nodes p = some m)
    (hpos : 0 < subRef m.refCount) :
    sparseArrayDestroyFuel (fuel + 1) h p = some (h.store p (some (m.setRefCount (subRef m.refCount)))) := by
  rw [sparseArrayDestroyFuel, not_static hp]
  simp only [Bool.false_eq_true, if_false, hm, Option.bind_eq_bind, Option.bind_some]
  rw [modify_eq_some hm, Option.bind_some, if_pos hpos]
  rfl

/-- Giving up the children in the slots `is`, when each has another owner. -/
theorem foldlM_decrementChild {data : Fin 256 → Word V} (fuel : ℕ) : ∀ (is : List (Fin 256)) (h : Heap V),
    (∀ i ∈ is, ∃ q, data i = .pointer q ∧ q ≠ null ∧ ∃ m, h.nodes q = some m) →
    (∀ q m, h.nodes q = some m → 0 < pending data is q → pending data is q = 1 ∧ 0 < subRef m.refCount) →
    ∃ h', is.foldlM (fun h i => (data i).toPointer.bind (sparseArrayDestroyFuel (fuel + 1) h)) h = some h' ∧
      h'.next = h.next ∧ h'.freed = h.freed ∧ h'.fails = h.fails ∧
      ∀ q, h'.nodes q = (h.nodes q).map fun m => m.setRefCount (subRef^[pending data is q] m.refCount) := by
  intro is
  induction is with
  | nil =>
    intro h _ _
    refine ⟨h, rfl, rfl, rfl, rfl, fun q => ?_⟩
    have : pending data [] q = 0 := by simp [pending]
    rw [this]
    cases h.nodes q <;> rfl
  | cons i is ih =>
    intro h hall howned
    obtain ⟨q, hq, hq0, m, hm⟩ := hall i (by simp)
    rw [List.foldlM_cons, hq]
    by_cases hstatic : q < 5
    · have hkeep : ∀ r, pending data (i :: is) r = pending data is r := fun r => by
        rw [pending_cons hq, credit_of_lt hstatic, Nat.add_zero]
      obtain ⟨h', heq, hnext, hfreed, hfails, hnodes⟩ := ih h (fun j hj => hall j (by simp [hj]))
        fun r k hk hpos => hkeep r ▸ howned r k hk (hkeep r ▸ hpos)
      refine ⟨h', ?_, hnext, hfreed, hfails, fun r => by rw [hnodes, hkeep]⟩
      have hempty : isEmptyChild q = true := (isEmptyChild_iff q).mpr ⟨by unfold null at hq0; omega, hstatic⟩
      have hskip : sparseArrayDestroyFuel (fuel + 1) h q = some h := by
        rw [sparseArrayDestroyFuel, hempty, Bool.or_true, if_pos rfl]
      show (sparseArrayDestroyFuel (fuel + 1) h q).bind _ = _
      rw [hskip]
      exact heq
    · have hone := howned q m hm (by rw [pending_cons hq, credit_self (by omega)]; exact Nat.succ_pos _)
      rw [pending_cons hq, credit_self (by omega)] at hone
      obtain ⟨h', heq, hnext, hfreed, hfails, hnodes⟩ :=
          ih (h.store q (some (m.setRefCount (subRef m.refCount))))
        (fun j hj => by
          obtain ⟨r, hr, hr0, k, hk⟩ := hall j (by simp [hj])
          rcases eq_or_ne r q with rfl | hne
          · exact ⟨r, hr, hr0, _, store_nodes_self ..⟩
          · exact ⟨r, hr, hr0, k, by rw [store_nodes_of_ne _ _ _ hne, hk]⟩)
        fun r k hk hpos => by
          rcases eq_or_ne r q with rfl | hne
          · exact absurd hpos (by rw [Nat.succ_injective hone.1]; exact Nat.lt_irrefl 0)
          · rw [store_nodes_of_ne _ _ _ hne] at hk
            have := howned r k hk (by rw [pending_cons hq]; exact Nat.add_pos_left hpos _)
            rwa [pending_cons hq, credit_of_ne hne, Nat.add_zero] at this
      refine ⟨h', ?_, hnext, hfreed, hfails, fun r => ?_⟩
      · show (sparseArrayDestroyFuel (fuel + 1) h q).bind _ = _
        rw [destroy_decrements fuel (by omega) hm hone.2]
        exact heq
      · rw [hnodes, pending_cons hq]
        rcases eq_or_ne r q with rfl | hne
        · rw [store_nodes_self, hm, credit_self (by omega), Option.map_some, Option.map_some]
          exact congrArg some (setRefCount_iterate subRef m _)
        · rw [store_nodes_of_ne _ _ _ hne, credit_of_ne hne, Nat.add_zero]

/-- **Giving back a new node undoes making it.** -/
theorem Replacement.giveBack (hrep : Replacement h h₁ b) (hr : Ready h) {l : ℕ} (hb : TreeBody h l b)
    (howned : Owned h (l + 1)) (hnodes : h₂.nodes = h₁.nodes) :
    ∃ h₃, sparseArrayDestroy h₂ h.next = some h₃ ∧ h₃.nodes = h.nodes ∧ h₃.next = h₂.next ∧
    h₃.fails = h₂.fails ∧
      h₃.freed = h.next :: h₂.freed := by
  have hge := hr.next_ge
  have hself : h₂.nodes h.next = some ⟨b.shift, 1, b.data⟩ := by
    rw [hnodes]
    exact hrep.self hr hb
  have hone : subRef 1 = 0 := by decide
  -- the children lose the owner that they had gained
  have hchildren : ∃ h₃, (if b.shift > 0 then
      slots.foldlM (fun h i => (b.data i).toPointer.bind (sparseArrayDestroyFuel 3 h))
        (h₂.store h.next (some ⟨b.shift, 0, b.data⟩))
      else some (h₂.store h.next (some ⟨b.shift, 0, b.data⟩))) = some h₃ ∧
      h₃.next = h₂.next ∧ h₃.freed = h₂.freed ∧ h₃.fails = h₂.fails ∧
      h₃.nodes h.next = some ⟨b.shift, 0, b.data⟩ ∧ ∀ q, q ≠ h.next → h₃.nodes q = h.nodes q := by
    have hold : ∀ q, q ≠ h.next → pending b.data slots q = 0 →
        (h₂.store h.next (some ⟨b.shift, 0, b.data⟩)).nodes q = h.nodes q := by
      intro q hq hpend
      rw [store_nodes_of_ne _ _ _ hq, hnodes, hrep.old hq hpend]
    cases l with
    | zero =>
      have hzero : ∀ q, pending b.data slots q = 0 := by
        intro q
        by_contra hne
        obtain ⟨-, -, k, hk, -⟩ := hb.pending_pos (Nat.pos_of_ne_zero hne)
        cases hk
      rw [if_neg (by rw [hb.shift_eq]; decide)]
      exact ⟨_, rfl, rfl, rfl, rfl, store_nodes_self .., fun q hq => hold q hq (hzero q)⟩
    | succ k =>
      rw [if_pos (by rw [hb.shift_eq]; omega)]
      have hlost : ∀ q m, (h₂.store h.next (some ⟨b.shift, 0, b.data⟩)).nodes q = some m →
          0 < pending b.data slots q →
          ∃ n, h.nodes q = some n ∧ pending b.data slots q = 1 ∧ 0 < n.refCount ∧
          m = n.setRefCount (addRef n.refCount) := by
        intro q m hm hpos
        obtain ⟨hq5, hpend, k', hk', hq⟩ := hb.pending_pos hpos
        obtain rfl : k = k' := Nat.succ_injective hk'
        obtain ⟨n, hn, hns, -⟩ := hq.node
        have hne : q ≠ h.next := (hq.lt_next hr).ne
        rw [store_nodes_of_ne _ _ _ hne, hnodes, hrep.nodes, Function.update_of_ne hne, hn, hpend,
          Option.map_some,
          Option.some.injEq] at hm
        exact ⟨n, hn, hpend, howned q n hq5 hn (by omega), hm.symm⟩
      obtain ⟨h₃, heq, hnext, hfreed, hfails, hback⟩ := foldlM_decrementChild 2 slots
        (h₂.store h.next (some ⟨b.shift, 0, b.data⟩)) (fun i _ => by
          obtain ⟨q, hq, hql⟩ := hb.child i
          obtain ⟨n, hn, -⟩ := hql.node
          have hne : q ≠ h.next := (hql.lt_next hr).ne
          refine ⟨q, hq, hql.ne_null hr, ?_⟩
          rw [store_nodes_of_ne _ _ _ hne, hnodes, hrep.nodes, Function.update_of_ne hne, hn]
          exact ⟨_, rfl⟩)
        fun q m hm hpos => by
          obtain ⟨n, hn, hpend, howner, rfl⟩ := hlost q m hm hpos
          refine ⟨hpend, ?_⟩
          show 0 < subRef (addRef n.refCount)
          rwa [subRef_addRef (hr.bounded q n hn)]
      have hself' := store_nodes_self h₂ h.next (some ⟨b.shift, 0, b.data⟩)
      refine ⟨h₃, heq, hnext, hfreed, hfails, ?_, fun q hq => ?_⟩
      · have hpend : pending b.data slots h.next = 0 := by
          by_contra hne
          obtain ⟨n, hn, -⟩ := hlost h.next _ hself' (Nat.pos_of_ne_zero hne)
          rw [hr.fresh h.next le_rfl] at hn
          cases hn
        rw [hback, hself', hpend]
        rfl
      · rcases Nat.eq_zero_or_pos (pending b.data slots q) with hpend | hpos
        · rw [hback, hold q hq hpend, hpend]
          cases h.nodes q <;> rfl
        · cases hm : (h₂.store h.next (some ⟨b.shift, 0, b.data⟩)).nodes q with
          | none =>
            obtain ⟨-, -, k', -, hql⟩ := hb.pending_pos hpos
            obtain ⟨n, hn, -⟩ := hql.node
            rw [store_nodes_of_ne _ _ _ hq, hnodes, hrep.nodes, Function.update_of_ne hq, hn] at hm
            cases hm
          | some m =>
            obtain ⟨n, hn, hpend, -, rfl⟩ := hlost q m hm hpos
            rw [hback, hm, hpend, hn, Option.map_some]
            exact congrArg some (setRefCount_undo addRef subRef n (subRef_addRef (hr.bounded q n hn)))
  obtain ⟨h₃, heq, hnext, hfreed, hfails, hgone, hback⟩ := hchildren
  refine ⟨{ h₃.store h.next none with freed := h.next :: h₃.freed }, ?_, ?_, hnext, hfails, ?_⟩
  · rw [sparseArrayDestroy, sparseArrayDestroyFuel, not_static hge]
    simp only [Bool.false_eq_true, if_false, hself, Option.bind_eq_bind, Option.bind_some, hone]
    rw [modify_eq_some hself, Option.bind_some, if_neg (Nat.lt_irrefl 0), ← free_eq_some hgone]
    split_ifs at heq ⊢ with hshift
    · show (slots.foldlM (fun h i => (b.data i).toPointer.bind (sparseArrayDestroyFuel 3 h))
        (h₂.store h.next (some ⟨b.shift, 0, b.data⟩))).bind _ = _
      rw [heq]
      rfl
    · rw [← Option.some.inj heq]
      rfl
  · funext q
    rcases eq_or_ne q h.next with rfl | hq
    · rw [hr.fresh h.next le_rfl]
      exact store_nodes_self h₃ h.next none
    · exact (store_nodes_of_ne h₃ h.next none hq).trans (hback q hq)
  · show h.next :: h₃.freed = _
    rw [hfreed]

end

/-! ## Inserting -/

section

variable {h h₁ h₂ h₃ : Heap V} {b : Body V}

theorem Restored.refl (h : Heap V) : Restored h h :=
  ⟨rfl, rfl, le_rfl, [], rfl, List.nodup_nil, fun a => by simp; omega⟩

/-- A request that fails. -/
theorem Restored.calloc_fails (hf : h.fails h.next = true) : Restored h { h with next := h.next + 1 } := by
  refine ⟨rfl, rfl, Nat.le_succ _, [], rfl, List.nodup_nil, fun a => ?_⟩
  simp only [List.not_mem_nil, false_iff]
  rintro ⟨hge, hlt, hok⟩
  obtain rfl : a = h.next := by
    have hlt : a < h.next + 1 := hlt
    omega
  rw [hok] at hf
  cases hf

/-- A new node is made, the rest is undone, and the node is given back. -/
theorem Restored.giveBack (hrep : Replacement h h₁ b) (hok : h.fails h.next = false) (hres : Restored h₁ h₂)
    (hnodes : h₃.nodes = h.nodes) (hnext : h₃.next = h₂.next) (hfails : h₃.fails = h₂.fails)
    (hfreed : h₃.freed = h.next :: h₂.freed) : Restored h h₃ := by
  obtain ⟨new, hnew, hnodup, hmem⟩ := hres.freed
  have hle := hres.next_le
  rw [hrep.next_eq] at hle
  refine ⟨hnodes, by rw [hfails, hres.fails_eq, hrep.fails_eq], by omega, h.next :: new, ?_, ?_, fun a => ?_⟩
  · rw [hfreed, hnew, hrep.freed_eq]
    rfl
  · refine List.nodup_cons.mpr ⟨fun hin => ?_, hnodup⟩
    have := ((hmem h.next).mp hin).1
    rw [hrep.next_eq] at this
    omega
  · rw [List.mem_cons, hmem, hrep.next_eq, hrep.fails_eq, hnext]
    constructor
    · rintro (rfl | ⟨hge, hlt, hfa⟩)
      · exact ⟨le_rfl, by omega, hok⟩
      · exact ⟨by omega, hlt, hfa⟩
    · rintro ⟨hge, hlt, hfa⟩
      rcases Nat.eq_or_lt_of_le hge with heq | hgt
      · exact .inl heq.symm
      · exact .inr ⟨hgt, hlt, hfa⟩

/-- A copy, or a request that fails. -/
theorem copy_outcome (hr : Ready h) {l p : ℕ} (hp : Tree h l p) {n : SparseArray V}
    (hn : h.nodes p = some n) :
    (h.fails h.next = true ∧ sparseArrayCopy h p = some (null, { h with next := h.next + 1 })) ∨
    (h.fails h.next = false ∧ ∃ h₁, sparseArrayCopy h p = some (h.next, h₁) ∧ Replacement h h₁ n.body) := by
  have hge := hr.next_ge
  have hnext0 : h.next ≠ null := by unfold null; omega
  obtain ⟨m, hm, hms, hml⟩ := hp.node
  obtain rfl : n = m := Option.some.inj (hn.symm.trans hm)
  cases hf : h.fails h.next with
  | true =>
    refine .inl ⟨rfl, ?_⟩
    simp [sparseArrayCopy, hp.ne_null hr, hn, Heap.calloc, hf]
  | false =>
    obtain ⟨h₁, hcopy, hnext, hfreed, hfails, hnodes⟩ := sparseArrayCopy_eq (hp.ne_null hr) hnext0
        hn hf (fun h0 i => by
        cases l with
        | zero => exact absurd hms h0
        | succ k =>
          obtain ⟨q, hq, hqk⟩ := hml.child i
          obtain ⟨m, hm, -⟩ := hqk.node
          exact ⟨q, hq, hqk.ne_null hr, (hqk.lt_next hr).ne, m, hm⟩)
      fun h0 i => by
        cases l with
        | zero => exact hml.2 i
        | succ k => exact absurd h0 (by rw [hms]; omega)
    exact .inr ⟨rfl, h₁, hcopy, hnext, hfails, hfreed, hnodes⟩

/-- The three ways to go on below a child. -/
theorem replacementFor_outcome (hr : Ready h) {l c : ℕ} (hl : l ≤ 2) (hc : Tree h l c) :
    (h.fails h.next = true ∧
      ∃ publish, replacementFor h (8 * (l + 1)) c = some (null, publish, { h with next := h.next + 1 })) ∨
    (h.fails h.next = false ∧ ∃ h₁ b, replacementFor h (8 * (l + 1)) c = some (h.next, true, h₁) ∧
      Replacement h h₁ b ∧ TreeBody h l b ∧
      (isEmptyChild c = true ∨ 5 ≤ c ∧ ∃ m, h.nodes c = some m ∧ 1 < m.refCount)) ∨
    (replacementFor h (8 * (l + 1)) c = some (c, false, h) ∧ 5 ≤ c) := by
  have hge := hr.next_ge
  have hnext0 : h.next ≠ null := by unfold null; omega
  by_cases hempty : isEmptyChild c = true
  · obtain ⟨d, hd, hdb, hpend⟩ := hr.initPointers (show l ≤ 3 by omega)
    have hshift : (if 8 ≥ 8 * (l + 1) then 0 else 8 * (l + 1) - 8) = 8 * l := by
      split_ifs <;> omega
    have heq : replacementFor h (8 * (l + 1)) c =
        some ((h.calloc ⟨8 * l, 1, d⟩).1, true, (h.calloc ⟨8 * l, 1, d⟩).2) := by
      rw [replacementFor, if_pos hempty, hshift]
      show (initPointers (8 * l)).bind _ = _
      rw [hd]
      rfl
    cases hf : h.fails h.next with
    | true =>
      refine .inl ⟨rfl, true, ?_⟩
      rw [heq, Heap.calloc, if_pos hf]
    | false =>
      refine .inr (.inl ⟨rfl, { h with
        nodes := Function.update h.nodes h.next (some ⟨8 * l, 1, d⟩), next := h.next + 1 }, ⟨8 * l, d⟩, ?_,
        ⟨rfl, rfl, rfl, fun q => ?_⟩, hdb, .inl hempty⟩)
      · rw [heq, Heap.calloc, if_neg (by simp [hf])]
      · rw [hpend]
        show Function.update h.nodes h.next _ q = _
        cases Function.update h.nodes h.next (some ⟨8 * l, 1, d⟩) q <;> rfl
  · obtain ⟨m, hm, hms, hml⟩ := hc.node
    have hc0 := hc.ne_null hr
    have hc5 : 5 ≤ c := by
      by_contra hlt
      exact hempty ((isEmptyChild_iff c).mpr ⟨by unfold null at hc0; omega, by omega⟩)
    by_cases hshared : 1 < m.refCount
    · have heq : replacementFor h (8 * (l + 1)) c =
          (sparseArrayCopy h c).bind fun r => some (r.1, true, r.2) := by
        rw [replacementFor, if_neg hempty, hm]
        simp only [Option.bind_eq_bind, Option.bind_some]
        rw [if_pos hshared]
        rfl
      rcases copy_outcome hr hc hm with ⟨hf, hcopy⟩ | ⟨hf, h₁, hcopy, hrep⟩
      · refine .inl ⟨hf, true, ?_⟩
        rw [heq, hcopy]
        rfl
      · refine .inr (.inl ⟨hf, h₁, m.body, ?_, hrep, hml, .inr ⟨hc5, m, hm, hshared⟩⟩)
        rw [heq, hcopy]
        rfl
    · refine .inr (.inr ⟨?_, hc5⟩)
      rw [replacementFor, if_neg hempty, hm]
      simp only [Option.bind_eq_bind, Option.bind_some]
      rw [if_neg hshared]
      rfl

/-- Of the new node, only what is two levels below the insert has to have owners. -/
theorem Replacement.owned (hrep : Replacement h h₁ b) (hr : Ready h) {l : ℕ} (hb : TreeBody h l b)
    (howned : Owned h (l + 1)) : Owned h₁ l := by
  intro q n hq hn hshift
  have hne : q ≠ h.next := by
    rintro rfl
    rw [hrep.self hr hb, Option.some.injEq] at hn
    have : b.shift = n.shift := by rw [← hn]
    have := hb.shift_eq
    omega
  exact howned q n hq (hrep.lower hb hne hn hshift) (by omega)

/-- An insert into a leaf. -/
theorem insertFuel_leaf (hr : Ready h) {p : ℕ} (hp : Tree h 0 p) (fuel index : ℕ) (value : Option V) :
    ∃ h', sparseArrayInsertFuel (fuel + 1) h p index value = some (true, h') ∧ Wrote h h' p 0 := by
  obtain ⟨n, hn, hshift, -⟩ := hp.node
  refine ⟨h.store p (some (n.setData (maskIndex 0 index) (.value value))), ?_, le_rfl, rfl, ?_, ?_, ?_⟩
  · rw [sparseArrayInsertFuel, if_neg (hp.ne_null hr), hn]
    simp only [Option.bind_eq_bind, Option.bind_some]
    rw [if_pos hshift, modify_eq_some hn]
    rfl
  · rintro ⟨a, hge, hlt, -⟩
    exact absurd (Nat.lt_of_le_of_lt hge hlt) (Nat.lt_irrefl _)
  · intro q m hq hm _
    rw [store_nodes_of_ne _ _ _ hq, hm]
  · exact ⟨_, store_nodes_self ..⟩

/-- The new node is published in the slot of the child. -/
theorem wrote_published (hr : Ready h) {p c l : ℕ} {n : SparseArray V} (hn : h.nodes p = some n)
    (hshift : n.shift = 8 * (l + 1)) (hc : Tree h l c) (hrep : Replacement h h₁ b) (hb : TreeBody h l b)
    (hok : h.fails h.next = false) (hwrote : Wrote h₁ h₂ h.next l)
    (hchild : isEmptyChild c = true ∨ 5 ≤ c ∧ ∃ m, h.nodes c = some m ∧ 1 < m.refCount) (i : Fin 256) :
    ∃ h', ((h₂.modify p (·.setData i (.pointer h.next))).bind fun h₃ =>
        if isEmptyChild c then some h₃ else sparseArrayDestroy h₃ c) = some h' ∧ Wrote h h' p (l + 1) := by
  have hlt : ∀ q m, h.nodes q = some m → q < h.next := by
    intro q m hm
    by_contra hge
    rw [hr.fresh q (by omega)] at hm
    cases hm
  have hkept : ∀ q m, h.nodes q = some m → 8 * l ≤ m.shift → h₂.nodes q = some m := fun q m hm hms =>
    hwrote.kept q m (hlt q m hm).ne (hrep.upper hr hb hm hms) hms
  have hn₂ := hkept p n hn (by omega)
  have hsucceeded : ¬ AllocFailed h h₂ := by
    rintro ⟨a, hge, hlt', hfa⟩
    rcases Nat.eq_or_lt_of_le hge with rfl | hgt
    · rw [hok] at hfa
      cases hfa
    · exact hwrote.succeeded ⟨a, by rw [hrep.next_eq]; omega, hlt', by rw [hrep.fails_eq]; exact hfa⟩
  have hle : h.next ≤ h₂.next := by
    have := hwrote.next_le
    rw [hrep.next_eq] at this
    omega
  rw [modify_eq_some hn₂, Option.bind_some]
  rcases hchild with hempty | ⟨hc5, m, hm, hshared⟩
  · rw [if_pos hempty]
    refine ⟨_, rfl, hle, hwrote.fails_eq.trans hrep.fails_eq, hsucceeded, fun q k hq hk hks => ?_,
        _, store_nodes_self ..⟩
    rw [store_nodes_of_ne _ _ _ hq]
    exact hkept q k hk (by omega)
  · -- the old child keeps another owner
    have hempty : isEmptyChild c = false := Bool.eq_false_iff.mpr fun he => by
      have := (isEmptyChild_iff c).mp he
      omega
    obtain ⟨m', hm', hms, -⟩ := hc.node
    obtain rfl : m = m' := Option.some.inj (hm.symm.trans hm')
    have hcp : c ≠ p := by
      rintro rfl
      rw [hn, Option.some.injEq] at hm
      rw [hm] at hshift
      omega
    have hpos : 0 < subRef m.refCount := by
      have hlt' := hr.bounded c m hm
      have hsub := subRef_succ (show m.refCount - 1 < 2 ^ 32 by omega)
      rw [Nat.sub_add_cancel (by omega)] at hsub
      omega
    rw [hempty, if_neg (by simp), sparseArrayDestroy, destroy_decrements 3 hc5 (by
      rw [store_nodes_of_ne _ _ _ hcp]
      exact hkept c m hm (by omega)) hpos]
    refine ⟨_, rfl, hle, hwrote.fails_eq.trans hrep.fails_eq, hsucceeded, fun q k hq hk hks => ?_, ?_⟩
    · have hqc : q ≠ c := by
        rintro rfl
        rw [hm, Option.some.injEq] at hk
        rw [← hk] at hks
        omega
      rw [store_nodes_of_ne _ _ _ hqc, store_nodes_of_ne _ _ _ hq]
      exact hkept q k hk (by omega)
    · rw [store_nodes_of_ne _ _ _ (Ne.symm hcp)]
      exact ⟨_, store_nodes_self ..⟩

/-- **An insert that meets a failing allocation is undone.** -/
theorem insertFuel_outcome : ∀ (l fuel : ℕ) {h : Heap V} {p : ℕ} (index : ℕ) (value : Option V),
    l < fuel → l ≤ 3 →
    Ready h → Tree h l p → Owned h l →
    (∃ h', sparseArrayInsertFuel fuel h p index value = some (true, h') ∧ Wrote h h' p l) ∨
    (∃ h', sparseArrayInsertFuel fuel h p index value = some (false, h') ∧ Restored h h' ∧
      AllocFailed h h') := by
  intro l
  induction l with
  | zero =>
    intro fuel h p index value hfuel _ hr hp _
    obtain ⟨fuel, rfl⟩ := Nat.exists_eq_succ_of_ne_zero (by omega : fuel ≠ 0)
    exact .inl (insertFuel_leaf hr hp fuel index value)
  | succ l ih =>
    intro fuel h p index value hfuel hl hr hp howned
    obtain ⟨fuel, rfl⟩ := Nat.exists_eq_succ_of_ne_zero (by omega : fuel ≠ 0)
    have hge := hr.next_ge
    obtain ⟨n, hn, hshift, hnl⟩ := hp.node
    obtain ⟨c, hi, hc⟩ := hnl.child (maskIndex n.shift index)
    have hi : n.data (maskIndex n.shift index) = .pointer c := hi
    have hstep := fun r publish h₁ hrep => @sparseArrayInsertFuel_inner V h h₁ p c r n index publish
        fuel value
      (hp.ne_null hr) hn (by omega) hi hrep
    rcases replacementFor_outcome hr (show l ≤ 2 by omega) hc with
      ⟨hf, publish, hrep⟩ | ⟨hok, h₁, b, hrep, hnew, hb, hchild⟩ | ⟨hrep, hc5⟩
    · -- no memory for a new node
      rw [← hshift] at hrep
      refine .inr ⟨_, ?_, Restored.calloc_fails hf, h.next, le_rfl, Nat.lt_succ_self _, hf⟩
      rw [hstep _ _ _ hrep, if_pos rfl]
    · rw [← hshift] at hrep
      have hnull : h.next ≠ null := by unfold null; omega
      have htree : Tree h₁ l h.next :=
        ⟨b, by rw [hnew.body, Function.update_self], hb.mono (hnew.keeps hr)⟩
      rw [hstep _ _ _ hrep, if_neg hnull]
      rcases ih fuel index value (by omega) (by omega) (hnew.ready hr) htree (hnew.owned hr hb howned) with
        ⟨h₂, hrec, hwrote⟩ | ⟨h₂, hrec, hres, hfailed⟩
      · obtain ⟨h', heq, hwrote'⟩ := wrote_published hr hn hshift hc hnew hb hok hwrote hchild
            (maskIndex n.shift index)
        obtain ⟨h₃, hmod, hdestroy⟩ := Option.bind_eq_some_iff.mp heq
        refine .inl ⟨h', ?_, hwrote'⟩
        rw [hrec, Option.bind_some, if_neg (by simp), if_pos rfl, hmod, Option.bind_some, hdestroy]
        rfl
      · -- the new node is given back
        obtain ⟨h₃, hdestroy, hnodes, hnext, hfails, hfreed⟩ := hnew.giveBack hr hb howned hres.nodes
        have hres₃ := Restored.giveBack hnew hok hres hnodes hnext hfails hfreed
        obtain ⟨a, hage, halt, hfa⟩ := hfailed
        rw [hnew.next_eq] at hage
        rw [hnew.fails_eq] at hfa
        refine .inr ⟨h₃, ?_, hres₃, a, by omega, by omega, hfa⟩
        rw [hrec, Option.bind_some, if_pos rfl, if_pos rfl, hdestroy]
        rfl
    · -- the child is owned by this slot alone
      rw [← hshift] at hrep
      rw [hstep _ _ _ hrep, if_neg (by unfold null; omega)]
      rcases ih fuel index value (by omega) (by omega) hr hc
          (fun q k hq hk hks => howned q k hq hk (by omega)) with
        ⟨h', hrec, hwrote⟩ | ⟨h', hrec, hres, hfailed⟩
      · refine .inl ⟨h', by rw [hrec]; rfl, hwrote.next_le, hwrote.fails_eq, hwrote.succeeded, fun q k hq hk hks => ?_, ?_⟩
        · refine hwrote.kept q k ?_ hk (by omega)
          rintro rfl
          obtain ⟨m, hm, hms, -⟩ := hc.node
          rw [hk, Option.some.injEq] at hm
          rw [hm] at hks
          omega
        · refine ⟨n, hwrote.kept p n ?_ hn (by omega)⟩
          rintro rfl
          obtain ⟨m, hm, hms, -⟩ := hc.node
          rw [hn, Option.some.injEq] at hm
          rw [hm] at hshift
          omega
      · exact .inr ⟨h', by rw [hrec]; rfl, hres, hfailed⟩

end

/-! ## Expanding -/

section

variable {h₀ h h' : Heap V}

/-- `levels` new nodes on top of `p`, the newest of which is `root`. -/
inductive Expanded (h₀ : Heap V) (p : ℕ) : ℕ → Heap V → ℕ → Prop
  | base : Expanded h₀ p 0 h₀ p
  | level {levels root : ℕ} {h : Heap V} (n : SparseArray V) : Expanded h₀ p levels h root →
      n.data 0 = .pointer root → h.fails h.next = false →
      Expanded h₀ p (levels + 1)
        { h with nodes := Function.update h.nodes h.next (some n), next := h.next + 1 } h.next

theorem Expanded.facts {p levels root : ℕ} (he : Expanded h₀ p levels h root) :
    h.next = h₀.next + levels ∧ h.fails = h₀.fails ∧ h.freed = h₀.freed ∧
      (∀ q, h.next ≤ q → h.nodes q = h₀.nodes q) ∧ ∀ a, h₀.next ≤ a → a < h.next → h₀.fails a = false := by
  induction he with
  | base => exact ⟨rfl, rfl, rfl, fun _ _ => rfl, fun a hge hlt => absurd hlt (Nat.not_lt.mpr hge)⟩
  | @level levels root h n _ _ hok ih =>
    obtain ⟨hnext, hfails, hfreed, hold, hsucceeded⟩ := ih
    refine ⟨by show h.next + 1 = _; omega, hfails, hfreed, fun q hq => ?_, fun a hge hlt => ?_⟩
    · have hq : h.next + 1 ≤ q := hq
      rw [← hold q (by omega)]
      exact Function.update_of_ne (by omega) ..
    · rcases Nat.lt_succ_iff_lt_or_eq.mp (show a < h.next + 1 from hlt) with hlt | rfl
      · exact hsucceeded a hge hlt
      · rw [← hfails]
        exact hok

/-- The unwinding frees the new nodes, the newest first. -/
theorem Expanded.unwind (hfresh : ∀ q, h₀.next ≤ q → h₀.nodes q = none) {p levels root : ℕ}
    (he : Expanded h₀ p levels h root) : ∀ h' : Heap V, h'.nodes = h.nodes →
    ∃ h'', unwindExpansion levels h' root = some h'' ∧ h''.nodes = h₀.nodes ∧ h''.next = h'.next ∧
      h''.fails = h'.fails ∧ h''.freed = List.range' h₀.next levels ++ h'.freed := by
  induction he with
  | base => exact fun _ hnodes => ⟨_, rfl, hnodes, rfl, rfl, rfl⟩
  | @level levels root h n he hdata _ ih =>
    intro h' hnodes
    obtain ⟨hnext, -, -, hold, -⟩ := he.facts
    have hself : h'.nodes h.next = some n := by
      rw [hnodes]
      exact Function.update_self ..
    obtain ⟨h'', heq, hnodes'', hnext'', hfails'', hfreed''⟩ :=
      ih { h'.store h.next none with freed := h.next :: h'.freed } (by
        show Function.update h'.nodes h.next none = h.nodes
        have hnone : h.nodes h.next = none := by
          rw [hold h.next le_rfl]
          exact hfresh h.next (by omega)
        rw [hnodes, Function.update_idem]
        exact Function.update_eq_self_iff.mpr hnone.symm)
    refine ⟨h'', ?_, hnodes'', hnext'', hfails'', ?_⟩
    · rw [unwindExpansion, loadChild, hself]
      simp only [Option.bind_eq_bind, Option.bind_some, hdata, Word.toPointer]
      rw [free_eq_some hself, Option.bind_some]
      exact heq
    · rw [hfreed'', List.range'_concat, hnext]
      simp

/-- The loop of `SparseArrayExpandingArray` puts the levels on top, or is unwound. -/
theorem expandLoop_outcome (hr : Ready h₀) {p : ℕ} : ∀ (levels done : ℕ) {h : Heap V} {root : ℕ},
    Expanded h₀ p done h root →
    (∃ n, h.nodes root = some n ∧ ∃ l, n.shift = 8 * l ∧ l + levels ≤ 3) → root ≠ null →
    (∃ r h', expandLoop levels done h root = some (r, h') ∧ r ≠ null ∧ ¬ AllocFailed h₀ h') ∨
    (∃ h', expandLoop levels done h root = some (null, h') ∧ Restored h₀ h' ∧ AllocFailed h₀ h') := by
  intro levels
  induction levels with
  | zero =>
    intro done h root he _ hroot
    obtain ⟨-, -, -, -, hsucceeded⟩ := he.facts
    refine .inl ⟨root, h, rfl, hroot, ?_⟩
    rintro ⟨a, hge, hlt, hfa⟩
    rw [hsucceeded a hge hlt] at hfa
    cases hfa
  | succ levels ih =>
    intro done h root he ⟨n, hn, l, hshift, hl⟩ _
    obtain ⟨hnext, hfails, hfreed, -, hsucceeded⟩ := he.facts
    have hge := hr.next_ge
    obtain ⟨e, hempty⟩ : ∃ e, emptyChildForShift (n.shift + 8) = some e := by
      have hle : l ≤ 2 := by omega
      rw [hshift]
      interval_cases l <;> exact ⟨_, rfl⟩
    have hnext0 : h.next ≠ null := by unfold null; omega
    cases hf : h.fails h.next with
    | true =>
      obtain ⟨h', heq, hnodes', hnext', hfails', hfreed'⟩ :=
        he.unwind hr.fresh { h with next := h.next + 1 } rfl
      have hnext' : h'.next = h.next + 1 := hnext'
      refine .inr ⟨h', ?_, ⟨hnodes',
          hfails'.trans hfails, by omega, List.range' h₀.next done, ?_, List.nodup_range', ?_⟩,
        h.next, by omega, by omega, by rw [← hfails]; exact hf⟩
      · rw [expandLoop]
        simp only [hn, hempty, Heap.calloc, hf, if_true, Option.bind_eq_bind, Option.bind_some]
        rw [heq]
        rfl
      · rw [hfreed', ← hfreed]
      · intro a
        rw [List.mem_range'_1]
        constructor
        · rintro ⟨hage, halt⟩
          exact ⟨hage, by omega, hsucceeded a hage (by omega)⟩
        · rintro ⟨hage, halt, hfa⟩
          refine ⟨hage, ?_⟩
          by_contra hlast
          obtain rfl : a = h.next := by omega
          rw [← hfails, hf] at hfa
          cases hfa
    | false =>
      have hstep : expandLoop (levels + 1) done h root = expandLoop levels (done + 1)
          { h with nodes := Function.update h.nodes h.next (some ⟨n.shift + 8, 1, topData e root⟩), next := h.next + 1 }
          h.next := by
        rw [expandLoop]
        simp only [hn, hempty, Heap.calloc, hf, Option.bind_eq_bind, Option.bind_some,
          Bool.false_eq_true, if_false,
          if_neg hnext0]
        rfl
      rw [hstep]
      have hdata : topData e root 0 = (.pointer root : Word V) := Function.update_self ..
      refine ih (done + 1) (Expanded.level _ he hdata hf)
        ⟨_, Function.update_self .., l + 1, ?_, by omega⟩ hnext0
      show n.shift + 8 = _
      omega

/-- `SparseArrayExpandingArray` on a root that only its caller owns, as it asserts. -/
theorem expanding_outcome (hr : Ready h) {l p : ℕ} (hp : Tree h l p) {n : SparseArray V}
    (hn : h.nodes p = some n) (hone : n.refCount = 1) (depth : ℕ) :
    (∃ r h', sparseArrayExpandingArray h p depth = some (r, h') ∧ r ≠ null ∧ ¬ AllocFailed h h') ∨
    (∃ h', sparseArrayExpandingArray h p depth = some (null, h') ∧ Restored h h') := by
  obtain ⟨m, hm, hshift, -⟩ := hp.node
  obtain rfl : n = m := Option.some.inj (hn.symm.trans hm)
  have hp0 := hp.ne_null hr
  by_cases hvalid : validDepth depth = true
  swap
  · refine .inr ⟨h, ?_, Restored.refl h⟩
    simp [sparseArrayExpandingArray, hvalid]
  have hdepth : depth % 8 = 0 ∧ depth ≤ 32 := by
    simp only [validDepth, Bool.and_eq_true, decide_eq_true_eq] at hvalid
    exact ⟨hvalid.2, hvalid.1.2⟩
  have hstart : sparseArrayExpandingArray h p depth =
      if depth = n.shift + 8 then some (p, h)
      else if depth < n.shift + 8 then some (null, h)
      else if n.refCount ≠ 1 then none
      else expandLoop ((depth - (n.shift + 8)) / 8) 0 h p := by
    simp only [sparseArrayExpandingArray, hp0, hvalid, hn, decide_false, Bool.not_true, Bool.or_self,
      Bool.false_eq_true, if_false, Option.bind_eq_bind, Option.bind_some]
    rfl
  rw [hstart]
  by_cases heq : depth = n.shift + 8
  · rw [if_pos heq]
    refine .inl ⟨p, h, rfl, hp0, ?_⟩
    rintro ⟨a, hge, hlt, -⟩
    omega
  rw [if_neg heq]
  by_cases hlt : depth < n.shift + 8
  · rw [if_pos hlt]
    exact .inr ⟨h, rfl, Restored.refl h⟩
  · rw [if_neg hlt, if_neg (by simp [hone])]
    refine (expandLoop_outcome hr _ 0 Expanded.base ⟨n, hn, l, hshift, by omega⟩ hp0).imp_right ?_
    rintro ⟨h', hloop, hres, -⟩
    exact ⟨h', hloop, hres⟩

end

/-! ## Live roots -/

section

variable {h h' : Heap V} {ext : ℕ → ℕ}

theorem WellFormed.ready (hw : WellFormed h ext ∅) : Ready h where
  statics := hw.statics
  next_ge := hw.next_ge
  fresh := hw.fresh
  bounded p n hn := by
    by_cases hp : 5 ≤ p
    · exact (hw.counts p n hp (by simp) hn).2.2
    · rw [hw.statics p (by omega)] at hn
      have hzero : n.refCount = 0 := by
        have hp5 : p < 5 := by omega
        interval_cases p <;> simp only [emptyNode, Option.some.injEq, reduceCtorEq] at hn <;> subst hn <;> rfl
      omega

/-- Addresses that hold nothing own nothing. -/
theorem holders_of_le {Node : Type} {heap : ℕ → Option Node} {out : Node → ℕ → ℕ} {bound bound' p : ℕ}
    (hle : bound ≤ bound') (hnone : ∀ q, bound ≤ q → heap q = none) :
    holders heap out bound' ∅ p = holders heap out bound ∅ p := by
  induction bound', hle using Nat.le_induction with
  | base => rfl
  | succ n hn ih =>
    have halloc := @holders_alloc _ heap out n ∅ p (by simp) none
    rwa [Function.update_eq_self_iff.mpr (hnone n hn).symm, outOf_none, Nat.add_zero, ih] at halloc

/-- What a failed operation leaves is as good as before. -/
theorem Restored.wellFormed (hres : Restored h h') (hw : WellFormed h ext ∅) : WellFormed h' ext ∅ := by
  obtain ⟨new, hnew, hnodup, hmem⟩ := hres.freed
  have hle := hres.next_le
  have hge := hw.next_ge
  have hbody : h'.body = h.body := by
    unfold Heap.body
    rw [hres.nodes]
  have hrefs : ∀ q, refs h' ∅ q = refs h ∅ q := by
    intro q
    unfold refs
    rw [hbody]
    exact holders_of_le hle fun r hr => body_eq_none_iff.mpr (hw.fresh r hr)
  refine ⟨⟨?_, hge.trans hle, fun p hp => ?_, hw.dying, ?_, ?_, ?_, ?_, ?_, ?_, fun p => ?_⟩, ?_, ?_⟩
  · rw [hres.nodes]; exact hw.statics
  · rw [hres.nodes]; exact hw.fresh p (hle.trans hp)
  · rw [hbody]; exact hw.level
  · rw [hbody]; exact hw.leaf
  · rw [hbody]; exact hw.child
  · rw [hbody]; exact hw.once
  · rw [hres.nodes, hres.fails_eq]; exact hw.failed
  · rw [hnew]
    refine List.Nodup.append hnodup hw.freed_nodup fun a ha hold => ?_
    have := (hmem a).mp ha
    have := (hw.mem_freed a).mp hold
    omega
  · rw [hnew, List.mem_append, hmem, hw.mem_freed, hres.nodes, hres.fails_eq]
    constructor
    · rintro (⟨h1, h2, h3⟩ | ⟨h1, h2, h3, h4⟩)
      · exact ⟨by omega, h2, h3, hw.fresh p h1⟩
      · exact ⟨h1, by omega, h3, h4⟩
    · rintro ⟨h1, h2, h3, h4⟩
      rcases Nat.lt_or_ge p h.next with hlt | hge'
      · exact .inr ⟨h1, hlt, h3, h4⟩
      · exact .inl ⟨hge', h2, h3⟩
  · intro p n hp hX hn
    rw [hrefs]
    exact hw.counts p n hp hX (by rwa [hres.nodes] at hn)
  · rw [hres.nodes]; exact hw.live

theorem Restored.changesNothing (hres : Restored h h') : ChangesNothing h h' where
  lookup root index := by
    unfold sparseArrayLookup loadChild loadValue
    rw [hres.nodes]
  refCount p := by rw [hres.nodes]
  freed := hres.freed
  wellFormed _ hw := hres.wellFormed hw

end

theorem topData_zero (e r : ℕ) : (topData e r 0 : Word V) = .pointer r := Function.update_self ..

theorem topData_of_ne (e r : ℕ) {i : Fin 256} (hi : i ≠ 0) : (topData e r i : Word V) = .pointer e :=
  Function.update_of_ne hi ..

/-- Copying a node that has one child besides static ones. -/
theorem copy_topData {h : Heap V} {p e r shift c : ℕ} {m : SparseArray V} (hp : 5 ≤ p) (hr : 5 ≤ r)
    (he : 1 ≤ e ∧ e < 5)
    (hnext : 5 ≤ h.next) (hrn : r ≠ h.next) (hn : h.nodes p = some ⟨shift, c, topData e r⟩)
    (hshift : shift ≠ 0)
    (hm : h.nodes r = some m) (hstatic : ∃ n, h.nodes e = some n) (hok : h.fails h.next = false) :
    ∃ h', sparseArrayCopy h p = some (h.next, h') ∧ h'.next = h.next + 1 ∧ h'.fails = h.fails ∧
      h'.nodes h.next = some ⟨shift, 1, topData e r⟩ ∧ h'.nodes r = some (m.setRefCount (addRef m.refCount)) ∧
      ∀ q, q ≠ h.next → q ≠ r → h'.nodes q = h.nodes q := by
  obtain ⟨h', hcopy, hnext', -, hfails, hnodes⟩ := sparseArrayCopy_eq (by unfold null; omega)
      (by unfold null; omega) hn hok
    (fun _ i => by
      by_cases hi : i = 0
      · exact ⟨r, by rw [hi]; exact topData_zero e r, by omega, hrn, m, hm⟩
      · exact ⟨e, topData_of_ne e r hi, by omega, by omega, hstatic⟩)
    fun h0 => absurd h0 hshift
  have hpend : ∀ q, pending (topData e r : Fin 256 → Word V) slots q = if q = r then 1 else 0 := by
    intro q
    by_cases hq : 5 ≤ q
    · have hout : Body.out (⟨0, topData e r⟩ : Body V) q = credit r q := topData_out he.2 hr hq
      rw [pending, if_pos hq]
      refine hout.trans ?_
      unfold credit
      simp [hr]
    · rw [pending, if_neg hq, if_neg (by omega)]
  refine ⟨h', hcopy, hnext', hfails, ?_, ?_, fun q hq hqr => ?_⟩
  · rw [hnodes, Function.update_self, hpend, if_neg (Ne.symm hrn)]
    rfl
  · rw [hnodes, Function.update_of_ne hrn, hm, hpend, if_pos rfl]
    exact congrArg some (setRefCount_iterate addRef m 0).symm
  · rw [hnodes, Function.update_of_ne hq, hpend, if_neg hqr]
    cases h.nodes q <;> rfl

/-- Giving up a leaf whose count is 1 frees it. -/
theorem destroy_leaf {h : Heap V} {p : ℕ} {d : Fin 256 → Word V} (fuel : ℕ) (hp : 5 ≤ p)
    (hn : h.nodes p = some ⟨0, 1, d⟩) :
    ∃ h', sparseArrayDestroyFuel (fuel + 1) h p = some h' ∧ h'.nodes p = none ∧ ∀ q, q ≠ p →
    h'.nodes q = h.nodes q := by
  have hone : subRef 1 = 0 := by decide
  have hstored := store_nodes_self h p (some ⟨0, 0, d⟩)
  refine ⟨{ (h.store p (some ⟨0, 0, d⟩)).store p none with freed := p :: h.freed }, ?_,
      store_nodes_self .., fun q hq => ?_⟩
  · rw [sparseArrayDestroyFuel, not_static hp]
    simp only [Bool.false_eq_true, if_false, hn, Option.bind_eq_bind, Option.bind_some, hone]
    rw [modify_eq_some hn, Option.bind_some, if_neg (Nat.lt_irrefl 0), if_neg (Nat.lt_irrefl 0)]
    exact free_eq_some hstored
  · show ((h.store p _).store p none).nodes q = _
    rw [store_nodes_of_ne _ _ _ hq, store_nodes_of_ne _ _ _ hq]

/-- Giving up a node with one child besides static ones, both with the count 1, frees the child. -/
theorem destroy_topData {h : Heap V} {p e r shift : ℕ} {d : Fin 256 → Word V} (hp : 5 ≤ p)
    (hr : 5 ≤ r) (hpr : r ≠ p)
    (he : 1 ≤ e ∧ e < 5) (hn : h.nodes p = some ⟨shift, 1, topData e r⟩) (hshift : 0 < shift)
    (hm : h.nodes r = some ⟨0, 1, d⟩) : ∃ h', sparseArrayDestroy h p = some h' ∧ h'.nodes r = none := by
  have hone : subRef 1 = 0 := by decide
  have hskip : ∀ (is : List (Fin 256)) (h : Heap V), (0 : Fin 256) ∉ is →
      is.foldlM (fun h i => (topData e r i : Word V).toPointer.bind (sparseArrayDestroyFuel 3 h))
      h = some h := by
    intro is
    induction is with
    | nil => exact fun _ _ => rfl
    | cons i is ih =>
      intro h hmem
      rw [List.mem_cons, not_or] at hmem
      have hempty : isEmptyChild e = true := (isEmptyChild_iff e).mpr he
      rw [List.foldlM_cons, topData_of_ne e r (Ne.symm hmem.1)]
      show (sparseArrayDestroyFuel 3 h e).bind _ = _
      rw [sparseArrayDestroyFuel, hempty, Bool.or_true, if_pos rfl]
      exact ih h hmem.2
  have hslots : slots = 0 :: (List.finRange 255).map Fin.succ := List.finRange_succ
  have hrest : (0 : Fin 256) ∉ (List.finRange 255).map Fin.succ := by
    simp [Fin.succ_ne_zero]
  obtain ⟨h₁, hleaf, hgone, hold⟩ := destroy_leaf (h := h.store p (some ⟨shift, 0, topData e r⟩)) 2 hr (by
    rw [store_nodes_of_ne _ _ _ hpr, hm])
  have hself : h₁.nodes p = some ⟨shift, 0, topData e r⟩ := by
    rw [hold p (Ne.symm hpr), store_nodes_self]
  have hloop : slots.foldlM (fun h i => (topData e r i : Word V).toPointer.bind (sparseArrayDestroyFuel 3 h))
      (h.store p (some ⟨shift, 0, topData e r⟩)) = some h₁ := by
    rw [hslots, List.foldlM_cons, topData_zero]
    show (sparseArrayDestroyFuel 3 _ r).bind _ = _
    rw [hleaf]
    exact hskip _ h₁ hrest
  refine ⟨{ h₁.store p none with freed := p :: h₁.freed }, ?_, (store_nodes_of_ne h₁ p none hpr).trans hgone⟩
  rw [sparseArrayDestroy, sparseArrayDestroyFuel, not_static hp]
  simp only [Bool.false_eq_true, if_false, hn, Option.bind_eq_bind, Option.bind_some, hone]
  rw [modify_eq_some hn, Option.bind_some, if_neg (Nat.lt_irrefl 0), if_pos hshift]
  show (slots.foldlM (fun h i => (topData e r i : Word V).toPointer.bind (sparseArrayDestroyFuel 3 h))
    (h.store p (some ⟨shift, 0, topData e r⟩))).bind _ = _
  rw [hloop]
  exact free_eq_some hself

/-- Copying the root 5 leaves the static nodes alone. -/
theorem Copied.copy_static {k : ℕ} {s : Arrays ℕ} (hs : Copied k s) :
    (s.next (.copy 5)).heap.nodes emptyArray8 = s.heap.nodes emptyArray8 := by
  obtain ⟨d, hleaf⟩ := hs.leaf
  have hge := hs.next_ge
  obtain ⟨h', hcopy, -, -, -, -, hold⟩ := copy_topData (le_refl 5) (by decide : 5 ≤ 6)
      (by decide : 1 ≤ 1 ∧ 1 < 5)
    (by omega) (by omega) hs.root (by decide) hleaf ⟨_, hs.static⟩ (hs.succeeds _)
  have hheap : (s.next (.copy 5)).heap = h' := by
    have : s.heap.next ≠ null := by unfold null; omega
    simp [Arrays.next, Arrays.perform, hcopy, this]
  rw [hheap]
  exact hold _ (by unfold emptyArray8; omega) (by decide)

theorem exists_copied_static (k : ℕ) :
    ∃ s : Arrays ℕ, Runs (guarded Arrays.Callable Arrays.next) Arrays.initial s ∧ Copied k s ∧
      s.heap.nodes emptyArray8 = emptyNode emptyArray8 := by
  induction k with
  | zero =>
    refine ⟨_, runs_of_allOk [.new 16, .insert 5 0 (some 1)] _ (by decide), ?_, rfl⟩
    exact ⟨rfl, ⟨_, rfl⟩, rfl, le_rfl, fun _ => rfl, rfl⟩
  | succ k ih =>
    obtain ⟨s, hrun, hs, hstatic⟩ := ih
    exact ⟨_, hrun.tail (a := .copy 5) ⟨hs.live, rfl⟩, copied_next hs, hs.copy_static.trans hstatic⟩

/-- Two 24-bit roots share the node 5, whose leaf 6 has the count 0 although it has owners. -/
structure Wrapped (s : Arrays ℕ) (root : ℕ) : Prop where
  top : s.heap.nodes root = some ⟨16, 1, topData emptyArray8 5⟩
  shared : s.heap.nodes 5 = some ⟨8, 2, topData emptyArray 6⟩
  leaf : ∃ d, s.heap.nodes 6 = some ⟨0, 0, d⟩
  static : s.heap.nodes emptyArray = emptyNode emptyArray
  root_ge : 7 ≤ root
  next_eq : s.heap.next = root + 1
  succeeds : ∀ a, s.heap.fails a = false
  live : (s.tables root).isSome

theorem exists_wrapped :
    ∃ s root, Runs (guarded Arrays.Callable Arrays.next) Arrays.initial s ∧ Wrapped s root := by
  obtain ⟨s, hrun, hs, hstatic⟩ := exists_copied_static (2 ^ 32 - 1)
  obtain ⟨d, hleaf⟩ := hs.leaf
  have hge := hs.next_ge
  have hzero : (1 + (2 ^ 32 - 1)) % 2 ^ 32 = 0 := by decide
  rw [hzero] at hleaf
  have hnull : s.heap.next ≠ null := by unfold null; omega
  -- a node on top of the root
  have hexpand : sparseArrayExpandingArray s.heap 5 24 = some (s.heap.next,
      { s.heap with
        nodes := Function.update s.heap.nodes s.heap.next (some ⟨16, 1, topData emptyArray8 5⟩)
        next := s.heap.next + 1 }) := by
    simp [sparseArrayExpandingArray, hs.root, expandLoop, emptyChildForShift, Heap.calloc, hs.succeeds, hnull,
      validDepth, topData]
    unfold null
    omega
  have h5 : s.heap.next ≠ 5 := by omega
  have hnext₁ : s.next (.expand 5 24) = ⟨{ s.heap with
      nodes := Function.update s.heap.nodes s.heap.next (some ⟨16, 1, topData emptyArray8 5⟩)
      next := s.heap.next + 1 },
      Function.update (Function.update s.tables 5 none) s.heap.next ((s.tables 5).map (·.expand 24))⟩ := by
    simp [Arrays.next, Arrays.perform, hexpand, hnull, h5]
  have hcall : s.Callable (.expand 5 24) := hs.live
  have hrun₁ : Runs (guarded Arrays.Callable Arrays.next) Arrays.initial (s.next (.expand 5 24)) :=
    hrun.tail ⟨hcall, rfl⟩
  generalize hs₁ : s.next (.expand 5 24) = s₁ at hrun₁
  have hnodes₁ : ∀ q, q ≠ s.heap.next → s₁.heap.nodes q = s.heap.nodes q := by
    intro q hq
    rw [← hs₁, hnext₁]
    exact Function.update_of_ne hq ..
  have htop₁ : s₁.heap.nodes s.heap.next = some ⟨16, 1, topData emptyArray8 5⟩ := by
    rw [← hs₁, hnext₁]
    exact Function.update_self ..
  have hbump₁ : s₁.heap.next = s.heap.next + 1 := by rw [← hs₁, hnext₁]
  have hfails₁ : ∀ a, s₁.heap.fails a = false := by
    rw [← hs₁, hnext₁]
    exact hs.succeeds
  have hlive₁ : (s₁.tables s.heap.next).isSome := by
    rw [← hs₁, hnext₁]
    show (Function.update (Function.update s.tables 5 none) s.heap.next _ s.heap.next).isSome
    rw [Function.update_self, Option.isSome_map]
    exact hs.live
  -- and a copy of it
  obtain ⟨h', hcopy, hnext₂, hfails₂, hnew, hshared, hold⟩ := copy_topData (h := s₁.heap) (r := 5)
      (e := emptyArray8)
    (by omega : 5 ≤ s.heap.next) le_rfl (by decide) (by omega) (by omega) htop₁ (by decide)
    (by rw [hnodes₁ 5 (by omega), hs.root])
    ⟨_, by rw [hnodes₁ _ (by unfold emptyArray8; omega), hstatic]; rfl⟩
    (hfails₁ _)
  have hnull₁ : s₁.heap.next ≠ null := by unfold null; omega
  refine ⟨s₁.next (.copy s.heap.next), s₁.heap.next, hrun₁.tail (a := .copy s.heap.next) ⟨hlive₁, rfl⟩, ?_⟩
  have hperform : s₁.next (.copy s.heap.next) =
      ⟨h', Function.update s₁.tables s₁.heap.next (s₁.tables s.heap.next)⟩ := by
    simp [Arrays.next, Arrays.perform, hcopy, hnull₁]
  rw [hperform]
  exact {
    top := hnew
    shared := hshared
    leaf := ⟨d, by rw [hold 6 (by omega) (by decide), hnodes₁ 6 (by omega), hleaf]⟩
    static := by
      show h'.nodes emptyArray = _
      rw [hold _ (by unfold emptyArray; omega) (by decide), hnodes₁ _ (by unfold emptyArray; omega),
        hs.static]
    root_ge := by omega
    next_eq := hnext₂
    succeeds := fun a => by
      show h'.fails a = false
      rw [hfails₂]
      exact hfails₁ a
    live := by
      show (Function.update s₁.tables s₁.heap.next _ s₁.heap.next).isSome
      rw [Function.update_self]
      exact hlive₁ }

end Libobjc2.Dispatch
