import Mathlib.Tactic

/-!
# Sparse arrays (`src/dispatch/sarray2.c`, `src/internal/dispatch/sarray2.h`)

Dispatch tables are radix trees with 256 slots a node that share sub-trees copy-on-write. The
nodes live in a heap of addresses. Freed addresses are not handed out again, so that a
pointer to a freed node can be told from every other one; whether the request that would be
served at an address fails is an input (`fails`).

A function that dereferences a pointer to nothing, frees what is not allocated, or runs into
`UNREACHABLE` or a failing `assert` returns `none`.

Results:
* `maskIndex_eq_iff`: two indices agree below a node if they agree in its slot and below
  its children.
* `sparseArrayLookup_eq`: the unrolled lookup is a walk down the levels.
-/

namespace Libobjc2.Dispatch

/-! ## Model of the heap -/

/-- An element of `data`: a value in a leaf, a child elsewhere. -/
inductive Word (V : Type) where
  | value (v : Option V)
  | pointer (p : ℕ)

/-- `SparseArray` (`sarray2.h` lines 41–59). `refCount` is a `uint32_t`. -/
structure SparseArray (V : Type) where
  shift : ℕ
  refCount : ℕ
  data : Fin 256 → Word V

/-- The nodes, the address of the next allocation, the freed addresses, newest first, and the
    addresses at which `calloc` fails. -/
structure Heap (V : Type) where
  nodes : ℕ → Option (SparseArray V)
  next : ℕ
  freed : List ℕ
  fails : ℕ → Bool

def null : ℕ := 0

/-- `EmptyArray`, `EmptyArray8`, `EmptyArray16` and `EmptyArray24` (lines 9–12). -/
def emptyArray : ℕ := 1
def emptyArray8 : ℕ := 2
def emptyArray16 : ℕ := 3
def emptyArray24 : ℕ := 4

variable {V : Type}

/-- The contents of the static nodes. -/
def emptyNode : ℕ → Option (SparseArray V)
  | 1 => some ⟨0, 0, fun _ => .value none⟩
  | 2 => some ⟨8, 0, fun _ => .pointer emptyArray⟩
  | 3 => some ⟨16, 0, fun _ => .pointer emptyArray8⟩
  | 4 => some ⟨24, 0, fun _ => .pointer emptyArray16⟩
  | _ => none

/-- The heap before the first call. -/
def Heap.initial (fails : ℕ → Bool) : Heap V := ⟨emptyNode, 5, [], fails⟩

/-- `calloc` of a node, with the fields that are set before it is used; `NULL` on failure. -/
def Heap.calloc (h : Heap V) (n : SparseArray V) : ℕ × Heap V :=
  if h.fails h.next then (null, { h with next := h.next + 1 })
  else (h.next, { h with nodes := Function.update h.nodes h.next (some n), next := h.next + 1 })

/-- A store to the node at `p`. -/
def Heap.modify (h : Heap V) (p : ℕ) (f : SparseArray V → SparseArray V) : Option (Heap V) :=
  (h.nodes p).map fun n => { h with nodes := Function.update h.nodes p (some (f n)) }

/-- `free`. -/
def Heap.free (h : Heap V) (p : ℕ) : Option (Heap V) :=
  (h.nodes p).map fun _ => { h with nodes := Function.update h.nodes p none, freed := p :: h.freed }

def SparseArray.setData (n : SparseArray V) (i : Fin 256) (w : Word V) : SparseArray V :=
  { n with data := Function.update n.data i w }

def SparseArray.setRefCount (n : SparseArray V) (c : ℕ) : SparseArray V := { n with refCount := c }

/-- `uint32_t` arithmetic on reference counts. -/
def addRef (c : ℕ) : ℕ := (c + 1) % 2 ^ 32
def subRef (c : ℕ) : ℕ := (c + (2 ^ 32 - 1)) % 2 ^ 32

/-- The child a slot holds. -/
def Word.toPointer : Word V → Option ℕ
  | .value _ => none
  | .pointer p => some p

/-- The value a slot holds. -/
def Word.toValue : Word V → Option (Option V)
  | .value v => some v
  | .pointer _ => none

/-- The slots of a node, in order. -/
def slots : List (Fin 256) := List.finRange 256

/-! ## Model of the functions -/

/-- `is_empty_child` (lines 103–107). -/
def isEmptyChild (p : ℕ) : Bool :=
  p = emptyArray || p = emptyArray8 || p = emptyArray16 || p = emptyArray24

/-- `EmptyChildForShift` (lines 21–33). -/
def emptyChildForShift : ℕ → Option ℕ
  | 8 => some emptyArray
  | 16 => some emptyArray8
  | 24 => some emptyArray16
  | _ => none

/-- The `data` of a zeroed node after `init_pointers` (lines 35–45). -/
def initPointers (shift : ℕ) : Option (Fin 256 → Word V) :=
  if shift ≠ 0 then (emptyChildForShift shift).map fun e _ => .pointer e
  else some fun _ => .value none

/-- `valid_depth` (lines 47–50). -/
def validDepth (depth : ℕ) : Bool := 8 ≤ depth && depth ≤ 32 && depth % 8 = 0

/-- `MASK_INDEX` (`sarray2.h` lines 64–65). -/
def maskIndex (shift index : ℕ) : Fin 256 := ⟨(index >>> shift) % 256, Nat.mod_lt _ (by decide)⟩

/-- `SparseArrayNewWithDepth` (lines 52–61). -/
def sparseArrayNewWithDepth (h : Heap V) (depth : ℕ) : Option (ℕ × Heap V) :=
  if !validDepth depth then some (null, h)
  else do
    let data ← initPointers (depth - 8)
    return h.calloc ⟨depth - 8, 1, data⟩

/-- `data[i]` of the node at `p`, where it is a child. -/
def loadChild (h : Heap V) (p : ℕ) (i : Fin 256) : Option ℕ := do (← h.nodes p).data i |>.toPointer

/-- `data[i]` of the node at `p`, where it is a value. -/
def loadValue (h : Heap V) (p : ℕ) (i : Fin 256) : Option (Option V) := do
  (← h.nodes p).data i |>.toValue

/-- `SparseArrayLookup` (`sarray2.h` lines 73–105). -/
def sparseArrayLookup (h : Heap V) (sarray index : ℕ) : Option (Option V) := do
  let n ← h.nodes sarray
  match n.shift with
  | 0 => loadValue h sarray (maskIndex 0 index)
  | 8 => loadValue h (← loadChild h sarray (maskIndex 8 index)) (maskIndex 0 index)
  | 16 =>
    let c ← loadChild h sarray (maskIndex 16 index)
    loadValue h (← loadChild h c (maskIndex 8 index)) (maskIndex 0 index)
  | 24 =>
    let c ← loadChild h sarray (maskIndex 24 index)
    let c ← loadChild h c (maskIndex 16 index)
    loadValue h (← loadChild h c (maskIndex 8 index)) (maskIndex 0 index)
  | _ => none

/-- `__sync_fetch_and_add(&child->refCount, 1)` on the child a slot holds, unless it is
    static (lines 205–209). -/
def incrementChild (h : Heap V) (w : Word V) : Option (Heap V) := do
  let child ← w.toPointer
  if isEmptyChild child then return h
  h.modify child fun n => n.setRefCount (addRef n.refCount)

/-- `SparseArrayCopy` (lines 193–215). -/
def sparseArrayCopy (h : Heap V) (sarray : ℕ) : Option (ℕ × Heap V) :=
  if sarray = null then some (null, h)
  else do
    let n ← h.nodes sarray
    let (copy, h) := h.calloc (n.setRefCount 1)
    if copy = null then return (null, h)
    if n.shift > 0 then
      let h ← slots.foldlM (fun h i => incrementChild h (n.data i)) h
      return (copy, h)
    return (copy, h)

/-- `SparseArrayDestroy` (lines 217–238), for a tree of fewer than `fuel` levels. -/
def sparseArrayDestroyFuel : ℕ → Heap V → ℕ → Option (Heap V)
  | 0, _, _ => none
  | fuel + 1, h, sarray =>
    if sarray = null || isEmptyChild sarray then some h
    else do
      let n ← h.nodes sarray
      let h ← h.modify sarray (·.setRefCount (subRef n.refCount))
      if subRef n.refCount > 0 then return h
      if n.shift > 0 then
        let h ← slots.foldlM (fun h i => do
          sparseArrayDestroyFuel fuel h (← (n.data i).toPointer)) h
        h.free sarray
      else h.free sarray

/-- A tree has at most four levels. -/
def sparseArrayDestroy (h : Heap V) (sarray : ℕ) : Option (Heap V) := sparseArrayDestroyFuel 4 h sarray

/-- The node that `SparseArrayInsert` goes on with below a child, and whether it is to be
    published in the child's place (lines 159–179). -/
def replacementFor (h : Heap V) (shift child : ℕ) : Option (ℕ × Bool × Heap V) :=
  if isEmptyChild child then do
    let childShift := if 8 ≥ shift then 0 else shift - 8
    let data ← initPointers childShift
    let (replacement, h) := h.calloc ⟨childShift, 1, data⟩
    return (replacement, true, h)
  else do
    let c ← h.nodes child
    if c.refCount > 1 then
      let (replacement, h) ← sparseArrayCopy h child
      return (replacement, true, h)
    return (child, false, h)

/-- `SparseArrayInsert` (lines 149–191), for a tree of fewer than `fuel` levels. -/
def sparseArrayInsertFuel : ℕ → Heap V → ℕ → ℕ → Option V → Option (Bool × Heap V)
  | 0, _, _, _, _ => none
  | fuel + 1, h, sarray, index, value =>
    if sarray = null then some (false, h)
    else do
      let n ← h.nodes sarray
      if n.shift = 0 then
        return (true, ← h.modify sarray (·.setData (maskIndex 0 index) (.value value)))
      let i := maskIndex n.shift index
      let child ← (n.data i).toPointer
      let (replacement, publish, h) ← replacementFor h n.shift child
      if replacement = null then return (false, h)
      let (inserted, h) ← sparseArrayInsertFuel fuel h replacement index value
      if !inserted then
        return (false, ← if publish then sparseArrayDestroy h replacement else some h)
      if publish then
        let h ← h.modify sarray (·.setData i (.pointer replacement))
        return (true, ← if isEmptyChild child then some h else sparseArrayDestroy h child)
      return (true, h)

def sparseArrayInsert (h : Heap V) (sarray index : ℕ) (value : Option V) : Option (Bool × Heap V) :=
  sparseArrayInsertFuel 4 h sarray index value

/-- The unwinding of `SparseArrayExpandingArray` (lines 82–87), over `levels` new nodes. -/
def unwindExpansion : ℕ → Heap V → ℕ → Option (Heap V)
  | 0, h, _ => some h
  | levels + 1, h, root => do
    let child ← loadChild h root 0
    unwindExpansion levels (← h.free root) child

/-- The `while` loop of `SparseArrayExpandingArray` (lines 77–100): `levels` nodes are still
    to be put on top of `root`, and `done` are there already. -/
def expandLoop : ℕ → ℕ → Heap V → ℕ → Option (ℕ × Heap V)
  | 0, _, h, root => some (root, h)
  | levels + 1, done, h, root => do
    let n ← h.nodes root
    let empty ← emptyChildForShift (n.shift + 8)
    let (expanded, h) := h.calloc
        ⟨n.shift + 8, 1, Function.update (fun _ => .pointer empty) 0 (.pointer root)⟩
    if expanded = null then return (null, ← unwindExpansion done h root)
    expandLoop levels (done + 1) h expanded

/-- The data of a node that `SparseArrayExpandingArray` puts on top of `root`. -/
def topData (empty root : ℕ) : Fin 256 → Word V := Function.update (fun _ => .pointer empty) 0 (.pointer root)

/-- `SparseArrayExpandingArray` (lines 67–101). -/
def sparseArrayExpandingArray (h : Heap V) (sarray newDepth : ℕ) : Option (ℕ × Heap V) :=
  if sarray = null || !validDepth newDepth then some (null, h)
  else do
    let n ← h.nodes sarray
    let currentDepth := n.shift + 8
    if newDepth = currentDepth then return (sarray, h)
    if newDepth < currentDepth then return (null, h)
    if n.refCount ≠ 1 then none
    else expandLoop ((newDepth - currentDepth) / 8) 0 h sarray

/-! ## Indices -/

/-- Two indices agree in their low `8 (l + 1)` bits exactly if they go through the same slot
    at level `l` and agree below it. -/
theorem maskIndex_eq_iff (l i j : ℕ) :
    i % 2 ^ (8 * (l + 1)) = j % 2 ^ (8 * (l + 1)) ↔
      maskIndex (8 * l) i = maskIndex (8 * l) j ∧ i % 2 ^ (8 * l) = j % 2 ^ (8 * l) := by
  have hpow : 2 ^ (8 * (l + 1)) = 2 ^ (8 * l) * 256 := by
    rw [show 8 * (l + 1) = 8 * l + 8 by ring, pow_add]
    norm_num
  have hsplit : ∀ k, k % 2 ^ (8 * (l + 1)) = k % 2 ^ (8 * l) + 2 ^ (8 * l) * (k >>> (8 * l) % 256) := by
    intro k
    rw [hpow, Nat.mod_mul, Nat.shiftRight_eq_div_pow]
  rw [hsplit, hsplit, maskIndex, maskIndex, Fin.mk.injEq]
  constructor
  · intro h
    have hi := Nat.mod_lt i (Nat.two_pow_pos (8 * l))
    have hj := Nat.mod_lt j (Nat.two_pow_pos (8 * l))
    have hlow : i % 2 ^ (8 * l) = j % 2 ^ (8 * l) := by
      have := congrArg (· % 2 ^ (8 * l)) h
      simpa [Nat.add_mul_mod_self_left] using this
    refine ⟨?_, hlow⟩
    rw [hlow] at h
    exact Nat.eq_of_mul_eq_mul_left (Nat.two_pow_pos _) (Nat.add_left_cancel h)
  · rintro ⟨h1, h2⟩
    rw [h1, h2]

theorem maskIndex_zero_eq_iff (i j : ℕ) :
    i % 2 ^ 8 = j % 2 ^ 8 ↔ maskIndex 0 i = maskIndex 0 j := by
  have := maskIndex_eq_iff 0 i j
  simpa [Nat.mod_one] using this

/-! ## Reference counts -/

theorem addRef_of_lt {c : ℕ} (h : c + 1 < 2 ^ 32) : addRef c = c + 1 := Nat.mod_eq_of_lt h

theorem subRef_succ {c : ℕ} (h : c < 2 ^ 32) : subRef (c + 1) = c := by
  rw [subRef, show c + 1 + (2 ^ 32 - 1) = c + 2 ^ 32 by omega, Nat.add_mod_right, Nat.mod_eq_of_lt h]

/-! ## Walking down the levels -/

/-- The value found from the node at `p`, `l` levels above the leaves. -/
def walk (h : Heap V) : ℕ → ℕ → ℕ → Option (Option V)
  | 0, p, index => loadValue h p (maskIndex 0 index)
  | l + 1, p, index => do walk h l (← loadChild h p (maskIndex (8 * (l + 1)) index)) index

/-- The unrolled lookup is a walk. -/
theorem sparseArrayLookup_eq {h : Heap V} {p l : ℕ} {n : SparseArray V} (hn : h.nodes p = some n)
    (hl : l ≤ 3) (hshift : n.shift = 8 * l) (index : ℕ) :
    sparseArrayLookup h p index = walk h l p index := by
  unfold sparseArrayLookup
  simp only [hn, Option.bind_eq_bind, Option.bind_some]
  interval_cases l <;> simp only [hshift] <;> simp [walk]

/-- The part of a node that lookups read. -/
structure Body (V : Type) where
  shift : ℕ
  data : Fin 256 → Word V

def SparseArray.body (n : SparseArray V) : Body V := ⟨n.shift, n.data⟩

def Heap.body (h : Heap V) (p : ℕ) : Option (Body V) := (h.nodes p).map SparseArray.body

theorem loadChild_eq (h : Heap V) (p : ℕ) (i : Fin 256) :
    loadChild h p i = (h.body p).bind fun b => (b.data i).toPointer := by
  unfold loadChild Heap.body
  cases h.nodes p <;> rfl

theorem loadValue_eq (h : Heap V) (p : ℕ) (i : Fin 256) :
    loadValue h p i = (h.body p).bind fun b => (b.data i).toValue := by
  unfold loadValue Heap.body
  cases h.nodes p <;> rfl

/-- Walks agree on heaps that hold the same data along the way. -/
theorem walk_congr {h h' : Heap V} {A : Set ℕ} (hsame : ∀ p ∈ A, h'.body p = h.body p)
    (hclosed : ∀ p ∈ A, ∀ i q, loadChild h p i = some q → q ∈ A) (index : ℕ) :
    ∀ l p, p ∈ A → walk h' l p index = walk h l p index := by
  intro l
  induction l with
  | zero =>
    intro p hp
    simp only [walk, loadValue_eq, hsame p hp]
  | succ l ih =>
    intro p hp
    have hchild : ∀ i, loadChild h' p i = loadChild h p i := fun i => by
      rw [loadChild_eq, loadChild_eq, hsame p hp]
    simp only [walk, hchild, Option.bind_eq_bind]
    cases hc : loadChild h p (maskIndex (8 * (l + 1)) index) with
    | none => rfl
    | some q => exact ih q (hclosed p hp _ q hc)

end Libobjc2.Dispatch
