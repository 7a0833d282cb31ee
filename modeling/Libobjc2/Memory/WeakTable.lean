import Libobjc2.Common.LockOrder
import Libobjc2.Common.Run
import Mathlib.Data.Multiset.AddSub
import Mathlib.Data.Finset.Card

/-!
# The table of weak references (`src/memory/arc.mm`, lines 809–1143)

A weak slot holds `nil`, a pointer to an object that is never deallocated, or a pointer to a control block
(`WeakRef`), which has the object and counts the slots. The blocks of an object belong to the stripe of its
address, and are recycled through the free list of the stripe but never freed.

Here are the operations of `WeakRefTable` on the blocks of one stripe, whose lock the caller holds. Ghost
fields of a block say for which allocation it was made and who holds it: a slot, or a thread that is about
to write it into a slot.

Results:
* `Table.releaseRef`, `Table.increment`, `Table.deleteRef`: what the operations keep. The count of a block is
  the number of its holders, the free blocks are those without, and the maps have the blocks with an object.
-/

namespace Libobjc2.Memory.WeakTable

/-! ## Model -/

/-- Who holds a reference to a control block. -/
inductive Holder (Thread : Type) where
  | slot (s : ℕ)
  | thread (t : Thread)
  deriving DecidableEq

/-- `struct WeakRef`. The `isa` is always `weakref_class`. -/
structure WeakRef (Thread : Type) where
  obj : Option ℕ
  weakCount : ℕ
  shardIndex : ℕ
  allocation : ℕ
  holders : Finset (Holder Thread)

/-- The stripes; the blocks below `refCount` exist. -/
structure Shards (Thread : Type) where
  refs : ℕ → WeakRef Thread
  refCount : ℕ
  map : ℕ → ℕ → Option ℕ
  freeList : ℕ → List ℕ

/-- `indexFor` (lines 980–984). -/
def indexFor (numShards obj : ℕ) : ℕ := ((obj >>> 4) ^^^ (obj >>> 12) ^^^ (obj >>> 20)) &&& (numShards - 1)

variable {Thread : Type}

namespace Shards

def empty : Shards Thread := ⟨fun _ => ⟨none, 0, 0, 0, ∅⟩, 0, fun _ _ => none, fun _ => []⟩

def setRef (τ : Shards Thread) (b : ℕ) (ref : WeakRef Thread) : Shards Thread :=
  { τ with refs := Function.update τ.refs b ref }

/-- `map.erase(obj)` in one stripe. -/
def erase (τ : Shards Thread) (s : ℕ) : Option ℕ → Shards Thread
  | none => τ
  | some a => { τ with map := Function.update τ.map s (Function.update (τ.map s) a none) }

/-- `recycle` (lines 1130–1136). -/
def recycle (τ : Shards Thread) (b : ℕ) : Shards Thread :=
  let s := (τ.refs b).shardIndex
  { τ.setRef b { τ.refs b with obj := none } with freeList := Function.update τ.freeList s (b :: τ.freeList s) }

variable [DecidableEq Thread]

/-- `release` (lines 1094–1104): the reference of `holder` goes. -/
def releaseRef (τ : Shards Thread) (b : ℕ) (holder : Holder Thread) : Shards Thread :=
  let ref := τ.refs b
  let τ := τ.setRef b { ref with weakCount := ref.weakCount - 1, holders := ref.holders.erase holder }
  if ref.weakCount - 1 = 0 then (τ.erase ref.shardIndex ref.obj).recycle b else τ

/-- `alloc` (lines 1108–1127): the block that is reused, or a new one. -/
def alloc (τ : Shards Thread) (obj shard allocation : ℕ) (t : Thread) : Shards Thread × ℕ :=
  match τ.freeList shard with
  | b :: rest =>
    ({ τ.setRef b { τ.refs b with obj := some obj, weakCount := 1, allocation := allocation, holders := {.thread t} }
      with freeList := Function.update τ.freeList shard rest }, b)
  | [] => ({ τ.setRef τ.refCount ⟨some obj, 1, shard, allocation, {.thread t}⟩ with refCount := τ.refCount + 1 },
      τ.refCount)

/-- `increment` (lines 1077–1091) by the thread `t`. There is no result when the assertion fails. -/
def increment (τ : Shards Thread) (numShards obj allocation : ℕ) (t : Thread) : Option (Shards Thread × ℕ) :=
  let shard := indexFor numShards obj
  match τ.map shard obj with
  | none =>
    let (τ, b) := τ.alloc obj shard allocation t
    some ({ τ with map := Function.update τ.map shard (Function.update (τ.map shard) obj (some b)) }, b)
  | some b =>
    let ref := τ.refs b
    if ref.obj = some obj then
      some (τ.setRef b { ref with weakCount := ref.weakCount + 1, holders := insert (.thread t) ref.holders }, b)
    else none

/-- The removal in `objc_delete_weak_refs` (lines 1278–1305). There is no result when the assertion fails. -/
def deleteRef (τ : Shards Thread) (numShards obj : ℕ) : Option (Shards Thread) :=
  let shard := indexFor numShards obj
  match τ.map shard obj with
  | none => some τ
  | some b =>
    let ref := τ.refs b
    if 0 < ref.weakCount then some ((τ.erase shard (some obj)).setRef b { ref with obj := none }) else none

/-- The holder `h` of a block is now `h'`. -/
def transfer (τ : Shards Thread) (b : ℕ) (h h' : Holder Thread) : Shards Thread :=
  τ.setRef b { τ.refs b with holders := insert h' ((τ.refs b).holders.erase h) }

/-- `weak_count++` for the slot `s`. -/
def addSlot (τ : Shards Thread) (b s : ℕ) : Shards Thread :=
  τ.setRef b { τ.refs b with weakCount := (τ.refs b).weakCount + 1, holders := insert (.slot s) (τ.refs b).holders }

end Shards

/-! ## What the operations keep -/

/-- The stripes agree with the holders of the blocks. `mapped a n` says that the allocation `n` is at the
    address `a` and may have weak references, and `gone n` that its deallocation has begun. -/
structure Table (numShards : ℕ) (mapped : ℕ → ℕ → Prop) (gone : ℕ → Prop) (τ : Shards Thread) : Prop where
  card : ∀ b < τ.refCount, (τ.refs b).weakCount = (τ.refs b).holders.card
  free : ∀ s b, b ∈ τ.freeList s ↔ b < τ.refCount ∧ (τ.refs b).shardIndex = s ∧ (τ.refs b).holders = ∅
  nodup : ∀ s, (τ.freeList s).Nodup
  map : ∀ s a b, τ.map s a = some b ↔ b < τ.refCount ∧ (τ.refs b).obj = some a ∧ (τ.refs b).shardIndex = s
  home : ∀ b < τ.refCount, ∀ a, (τ.refs b).obj = some a → (τ.refs b).shardIndex = indexFor numShards a
  idle : ∀ b < τ.refCount, (τ.refs b).holders = ∅ → (τ.refs b).obj = none
  mapped : ∀ b < τ.refCount, ∀ a, (τ.refs b).obj = some a → mapped a (τ.refs b).allocation
  deleted : ∀ b < τ.refCount, (τ.refs b).holders ≠ ∅ → (τ.refs b).obj = none → gone (τ.refs b).allocation
  bounded : ∀ b, τ.refCount ≤ b → (τ.refs b).holders = ∅

variable {numShards : ℕ} {mapped mapped' : ℕ → ℕ → Prop} {gone gone' : ℕ → Prop} {τ : Shards Thread} {b : ℕ}

theorem table_empty : Table numShards mapped gone (.empty : Shards Thread) where
  card _ h := absurd h (Nat.not_lt_zero _)
  free s b := by simp [Shards.empty]
  nodup _ := List.nodup_nil
  map s a b := by simp [Shards.empty]
  home _ h := absurd h (Nat.not_lt_zero _)
  idle _ h := absurd h (Nat.not_lt_zero _)
  mapped _ h := absurd h (Nat.not_lt_zero _)
  deleted _ h := absurd h (Nat.not_lt_zero _)
  bounded _ _ := rfl

/-- The objects may change where the blocks do not see it. -/
theorem Table.objects (h : Table numShards mapped gone τ)
    (hmapped : ∀ b < τ.refCount, ∀ a, (τ.refs b).obj = some a → mapped' a (τ.refs b).allocation)
    (hgone : ∀ n, gone n → gone' n) : Table numShards mapped' gone' τ :=
  { h with
    mapped := hmapped
    deleted := fun b hb hne hobj => hgone _ (h.deleted b hb hne hobj) }

theorem Table.lt_of_holder (h : Table numShards mapped gone τ) {x : Holder Thread} (hx : x ∈ (τ.refs b).holders) :
    b < τ.refCount := by
  by_contra hb
  rw [h.bounded b (not_lt.mp hb)] at hx
  cases hx

/-- What a block is to have by itself. -/
structure WeakRef.Fits (numShards : ℕ) (mapped : ℕ → ℕ → Prop) (gone : ℕ → Prop) (ref : WeakRef Thread) : Prop where
  card : ref.weakCount = ref.holders.card
  home : ∀ a, ref.obj = some a → ref.shardIndex = indexFor numShards a
  idle : ref.holders = ∅ → ref.obj = none
  mapped : ∀ a, ref.obj = some a → mapped a ref.allocation
  deleted : ref.holders ≠ ∅ → ref.obj = none → gone ref.allocation

theorem Table.fits (h : Table numShards mapped gone τ) (hb : b < τ.refCount) : (τ.refs b).Fits numShards mapped gone :=
  ⟨h.card b hb, h.home b hb, h.idle b hb, h.mapped b hb, h.deleted b hb⟩

/-- The block `b` is written or added, and the maps and the free lists follow. -/
theorem Table.write (h : Table numShards mapped gone τ) {τ' : Shards Thread} {ref : WeakRef Thread}
    (hfits : ref.Fits numShards mapped gone) (hrefs : τ'.refs = Function.update τ.refs b ref)
    (hcount : ∀ c, c < τ'.refCount ↔ c = b ∨ c < τ.refCount)
    (hfree : ∀ s c, c ∈ τ'.freeList s ↔
      c = b ∧ ref.shardIndex = s ∧ ref.holders = ∅ ∨ c ≠ b ∧ c ∈ τ.freeList s) (hnodup : ∀ s, (τ'.freeList s).Nodup)
    (hmap : ∀ s a c, τ'.map s a = some c ↔
      c = b ∧ ref.obj = some a ∧ ref.shardIndex = s ∨ c ≠ b ∧ τ.map s a = some c) :
    Table numShards mapped gone τ' := by
  have hself : τ'.refs b = ref := by rw [hrefs, Function.update_self]
  have hother : ∀ c, c ≠ b → τ'.refs c = τ.refs c := fun c hc => by rw [hrefs, Function.update_of_ne hc]
  have hb : b < τ'.refCount := (hcount b).mpr (.inl rfl)
  have hfits' : ∀ c < τ'.refCount, (τ'.refs c).Fits numShards mapped gone := by
    intro c hc
    rcases eq_or_ne c b with rfl | hcb
    · rw [hself]
      exact hfits
    · rw [hother c hcb]
      exact h.fits (((hcount c).mp hc).resolve_left hcb)
  refine ⟨fun c hc => (hfits' c hc).card, fun s c => ?_, hnodup, fun s a c => ?_, fun c hc => (hfits' c hc).home,
    fun c hc => (hfits' c hc).idle, fun c hc => (hfits' c hc).mapped, fun c hc => (hfits' c hc).deleted, fun c hc => ?_⟩
  · rw [hfree]
    rcases eq_or_ne c b with rfl | hcb
    · simp [hself, hb]
    · simp [hcb, hother c hcb, hcount, h.free]
  · rw [hmap]
    rcases eq_or_ne c b with rfl | hcb
    · simp [hself, hb]
    · simp [hcb, hother c hcb, hcount, h.map]
  · have hc : ¬(c = b ∨ c < τ.refCount) := fun hor => not_lt.mpr hc ((hcount c).mpr hor)
    rw [not_or, not_lt] at hc
    rw [hother c hc.1]
    exact h.bounded c hc.2

theorem lt_iff_eq_or {n : ℕ} (hb : b < n) (c : ℕ) : c < n ↔ c = b ∨ c < n :=
  ⟨.inr, fun h => h.elim (fun heq => heq ▸ hb) id⟩

theorem Table.setHolders (h : Table numShards mapped gone τ) (hb : b < τ.refCount) {holders : Finset (Holder Thread)}
    (hbefore : (τ.refs b).holders ≠ ∅) (hafter : holders ≠ ∅) {n : ℕ} (hn : n = holders.card) :
    Table numShards mapped gone (τ.setRef b { τ.refs b with weakCount := n, holders := holders }) := by
  have hfits : WeakRef.Fits numShards mapped gone { τ.refs b with weakCount := n, holders := holders } :=
    ⟨hn, h.home b hb, fun hempty => absurd hempty hafter, h.mapped b hb, fun _ => h.deleted b hb hbefore⟩
  refine h.write hfits rfl (lt_iff_eq_or hb) (fun s c => ?_) h.nodup fun s a c => ?_
  · have hnot : b ∉ τ.freeList s := fun hmem => hbefore ((h.free s b).mp hmem).2.2
    show c ∈ τ.freeList s ↔ _
    constructor
    · exact fun hc => .inr ⟨fun heq => hnot (heq ▸ hc), hc⟩
    · rintro (⟨-, -, hempty⟩ | ⟨-, hc⟩)
      · exact absurd hempty hafter
      · exact hc
  · show τ.map s a = some c ↔ _
    rcases eq_or_ne c b with rfl | hcb
    · simp [h.map, hb]
    · simp [hcb]

/-- Without the block `b` in the map. -/
theorem Table.erase_map (h : Table numShards mapped gone τ) (hb : b < τ.refCount) (s a c : ℕ) :
    (τ.erase (τ.refs b).shardIndex (τ.refs b).obj).map s a = some c ↔ c ≠ b ∧ τ.map s a = some c := by
  have hself : τ.map s a = some b ↔ (τ.refs b).obj = some a ∧ (τ.refs b).shardIndex = s := by simp [h.map, hb]
  cases hobj : (τ.refs b).obj with
  | none =>
    show τ.map s a = some c ↔ _
    refine ⟨fun hmap => ⟨?_, hmap⟩, And.right⟩
    rintro rfl
    rw [hself, hobj] at hmap
    cases hmap.1
  | some a' =>
    show Function.update τ.map _ _ s a = some c ↔ _
    rcases eq_or_ne s (τ.refs b).shardIndex with rfl | hs
    · rw [Function.update_self]
      rcases eq_or_ne a a' with rfl | ha
      · rw [Function.update_self, hself.mpr ⟨hobj, rfl⟩]
        simp [eq_comm]
      · rw [Function.update_of_ne ha]
        refine ⟨fun hmap => ⟨?_, hmap⟩, And.right⟩
        rintro rfl
        rw [hself, hobj] at hmap
        exact ha (Option.some.inj hmap.1).symm
    · rw [Function.update_of_ne hs]
      refine ⟨fun hmap => ⟨?_, hmap⟩, And.right⟩
      rintro rfl
      exact hs (hself.mp hmap).2.symm

section

variable [DecidableEq Thread]

/-- A reference goes from one holder to another. -/
theorem Table.transfer (h : Table numShards mapped gone τ) {x y : Holder Thread} (hx : x ∈ (τ.refs b).holders)
    (hy : y ∉ (τ.refs b).holders) : Table numShards mapped gone (τ.transfer b x y) := by
  have hb := h.lt_of_holder hx
  refine h.setHolders hb (Finset.ne_empty_of_mem hx) (Finset.insert_ne_empty _ _) ?_
  rw [Finset.card_insert_of_notMem fun hmem => hy (Finset.mem_of_mem_erase hmem), h.card b hb,
    Finset.card_erase_add_one hx]

/-- One more slot holds the block. -/
theorem Table.addSlot (h : Table numShards mapped gone τ) {x : Holder Thread} (hx : x ∈ (τ.refs b).holders) {s : ℕ}
    (hs : .slot s ∉ (τ.refs b).holders) : Table numShards mapped gone (τ.addSlot b s) := by
  have hb := h.lt_of_holder hx
  refine h.setHolders hb (Finset.ne_empty_of_mem hx) (Finset.insert_ne_empty _ _) ?_
  rw [Finset.card_insert_of_notMem hs, h.card b hb]

/-- The block that is left when `holder` gives up its reference. -/
def WeakRef.released (ref : WeakRef Thread) (holder : Holder Thread) : WeakRef Thread :=
  { ref with
    obj := if ref.weakCount - 1 = 0 then none else ref.obj
    weakCount := ref.weakCount - 1
    holders := ref.holders.erase holder }

theorem releaseRef_refs (x : Holder Thread) :
    (τ.releaseRef b x).refs = Function.update τ.refs b ((τ.refs b).released x) := by
  by_cases hzero : (τ.refs b).weakCount - 1 = 0
  · cases hobj : (τ.refs b).obj <;>
      simp [Shards.releaseRef, WeakRef.released, hzero, hobj, Shards.recycle, Shards.erase, Shards.setRef]
  · simp [Shards.releaseRef, WeakRef.released, hzero, Shards.setRef]

@[simp] theorem releaseRef_refCount (x : Holder Thread) : (τ.releaseRef b x).refCount = τ.refCount := by
  by_cases hzero : (τ.refs b).weakCount - 1 = 0
  · cases hobj : (τ.refs b).obj <;>
      simp [Shards.releaseRef, hzero, hobj, Shards.recycle, Shards.erase, Shards.setRef]
  · simp [Shards.releaseRef, hzero, Shards.setRef]

theorem releaseRef_last (x : Holder Thread) (hzero : (τ.refs b).weakCount - 1 = 0) :
    (τ.releaseRef b x).map = (τ.erase (τ.refs b).shardIndex (τ.refs b).obj).map ∧
      (τ.releaseRef b x).freeList =
        Function.update τ.freeList (τ.refs b).shardIndex (b :: τ.freeList (τ.refs b).shardIndex) := by
  cases hobj : (τ.refs b).obj <;>
    simp [Shards.releaseRef, hzero, hobj, Shards.recycle, Shards.erase, Shards.setRef]

/-- A reference is dropped. With the last one the block leaves the map and becomes free. -/
theorem Table.releaseRef (h : Table numShards mapped gone τ) {x : Holder Thread} (hx : x ∈ (τ.refs b).holders) :
    Table numShards mapped gone (τ.releaseRef b x) := by
  have hb := h.lt_of_holder hx
  have hcard : (τ.refs b).weakCount - 1 = ((τ.refs b).holders.erase x).card := by
    rw [Finset.card_erase_of_mem hx, h.card b hb]
  by_cases hzero : (τ.refs b).weakCount - 1 = 0
  · have hempty : (τ.refs b).holders.erase x = ∅ := Finset.card_eq_zero.mp (hcard.symm.trans hzero)
    have hobj : ((τ.refs b).released x).obj = none := if_pos hzero
    have hfits : ((τ.refs b).released x).Fits numShards mapped gone :=
      ⟨hcard, by simp [hobj], fun _ => hobj, by simp [hobj], fun hne => absurd hempty hne⟩
    have hnot : b ∉ τ.freeList (τ.refs b).shardIndex := fun hmem =>
      Finset.ne_empty_of_mem hx ((h.free _ b).mp hmem).2.2
    obtain ⟨hmap, hfree⟩ := releaseRef_last x hzero
    refine h.write hfits (releaseRef_refs x) ?_ (fun s c => ?_) (fun s => ?_) fun s a c => ?_
    · rw [releaseRef_refCount]
      exact lt_iff_eq_or hb
    · have hholders : ((τ.refs b).released x).holders = ∅ := hempty
      have hshard : ((τ.refs b).released x).shardIndex = (τ.refs b).shardIndex := rfl
      rw [hfree, hholders, hshard]
      have hnone : ∀ s, b ∉ τ.freeList s := fun s hmem => Finset.ne_empty_of_mem hx ((h.free s b).mp hmem).2.2
      rcases eq_or_ne s (τ.refs b).shardIndex with rfl | hs
      · rw [Function.update_self, List.mem_cons]
        rcases eq_or_ne c b with rfl | hcb
        · simp
        · simp [hcb]
      · rw [Function.update_of_ne hs]
        rcases eq_or_ne c b with rfl | hcb
        · simp [hnone s, hs.symm]
        · simp [hcb]
    · rw [hfree]
      rcases eq_or_ne s (τ.refs b).shardIndex with rfl | hs
      · rw [Function.update_self]
        exact List.nodup_cons.mpr ⟨hnot, h.nodup _⟩
      · rw [Function.update_of_ne hs]
        exact h.nodup s
    · rw [hmap, h.erase_map hb, hobj]
      simp
  · have hτ : τ.releaseRef b x = τ.setRef b
        { τ.refs b with weakCount := (τ.refs b).weakCount - 1, holders := (τ.refs b).holders.erase x } := by
      simp [Shards.releaseRef, hzero]
    rw [hτ]
    refine h.setHolders hb (Finset.ne_empty_of_mem hx) (fun hempty => hzero ?_) hcard
    rw [hcard, hempty, Finset.card_empty]

end

theorem setRef_refs_of_ne {c : ℕ} (hc : c ≠ b) (ref : WeakRef Thread) : (τ.setRef b ref).refs c = τ.refs c :=
  Function.update_of_ne hc ..

@[simp] theorem setRef_refs_self (ref : WeakRef Thread) : (τ.setRef b ref).refs b = ref := Function.update_self ..

/-- What the deletion of the object at the address `a` does. -/
structure Deleted (a : ℕ) (τ τ' : Shards Thread) : Prop where
  refCount : τ'.refCount = τ.refCount
  absent : ∀ b < τ.refCount, (τ'.refs b).obj ≠ some a
  refs : ∀ b, τ'.refs b = τ.refs b ∨
    b < τ.refCount ∧ (τ.refs b).obj = some a ∧ τ'.refs b = { τ.refs b with obj := none }

/-- The block of the object keeps its holders and loses the object; the assertion holds. -/
theorem Table.deleteRef (h : Table numShards mapped gone τ) {a : ℕ} (hgone : ∀ n, mapped a n → gone n) :
    ∃ τ', τ.deleteRef numShards a = some τ' ∧ Table numShards mapped gone τ' ∧ Deleted a τ τ' := by
  cases hmap : τ.map (indexFor numShards a) a with
  | none =>
    refine ⟨τ, by simp [Shards.deleteRef, hmap], h, rfl, fun b hb hobj => ?_, fun b => .inl rfl⟩
    have hb' := (h.map (indexFor numShards a) a b).mpr ⟨hb, hobj, h.home b hb a hobj⟩
    rw [hmap] at hb'
    cases hb'
  | some b =>
    obtain ⟨hb, hobj, hshard⟩ := (h.map _ _ _).mp hmap
    have hne : (τ.refs b).holders ≠ ∅ := fun hempty => by rw [h.idle b hb hempty] at hobj; cases hobj
    have hpos : 0 < (τ.refs b).weakCount := by
      rw [h.card b hb]
      exact Finset.card_pos.mpr (Finset.nonempty_iff_ne_empty.mpr hne)
    have herase := h.erase_map hb
    rw [hobj, hshard] at herase
    refine ⟨(τ.erase (indexFor numShards a) (some a)).setRef b { τ.refs b with obj := none },
      by simp [Shards.deleteRef, hmap, hpos], ?_, rfl, fun c hc hc' => ?_, fun c => ?_⟩
    · have hfits : WeakRef.Fits numShards mapped gone { τ.refs b with obj := none } :=
        ⟨h.card b hb, by simp, fun _ => rfl, by simp, fun _ _ => hgone _ (h.mapped b hb a hobj)⟩
      refine h.write hfits (by simp [Shards.setRef, Shards.erase]) (lt_iff_eq_or hb) (fun s c => ?_) h.nodup
        fun s a' c => ?_
      · have hnot : b ∉ τ.freeList s := fun hmem => hne ((h.free s b).mp hmem).2.2
        show c ∈ τ.freeList s ↔ _
        constructor
        · exact fun hc => .inr ⟨fun heq => hnot (heq ▸ hc), hc⟩
        · rintro (⟨-, -, hempty⟩ | ⟨-, hc⟩)
          · exact absurd hempty hne
          · exact hc
      · refine (herase s a' c).trans ?_
        simp
    · rcases eq_or_ne c b with rfl | hcb
      · rw [setRef_refs_self] at hc'
        cases hc'
      · rw [setRef_refs_of_ne hcb] at hc'
        have hc' : (τ.refs c).obj = some a := hc'
        have hmap' := (h.map (indexFor numShards a) a c).mpr ⟨hc, hc', h.home c hc a hc'⟩
        exact hcb (Option.some.inj (hmap'.symm.trans hmap))
    · rcases eq_or_ne c b with rfl | hcb
      · exact .inr ⟨hb, hobj, setRef_refs_self _⟩
      · exact .inl (setRef_refs_of_ne hcb _)

/-- What an increment for the allocation `n` at the address `a` by the thread `t` does: the block `b` gets one
    holder more. -/
structure Incremented (shard n : ℕ) (t : Thread) (τ τ' : Shards Thread) (b : ℕ) : Prop where
  refCount : τ.refCount ≤ τ'.refCount
  lt : b < τ'.refCount
  added : ∀ c < τ'.refCount, c ≠ b → c < τ.refCount
  others : ∀ c, c ≠ b → τ'.refs c = τ.refs c
  holders : ∀ x, x ∈ (τ'.refs b).holders ↔ x = .thread t ∨ x ∈ (τ.refs b).holders
  allocation : (τ'.refs b).allocation = n
  home : (τ'.refs b).shardIndex = shard
  home_before : b < τ.refCount → (τ.refs b).shardIndex = shard
  allocation_before : (τ.refs b).holders ≠ ∅ → (τ.refs b).allocation = n

/-- It is the block that the object has, a free one or a new one; the assertion holds. -/
theorem Table.increment [DecidableEq Thread] (h : Table numShards mapped gone τ) {a n : ℕ} {t : Thread} (ha : mapped a n)
    (hunique : ∀ m, mapped a m → m = n) (ht : ∀ b, .thread t ∉ (τ.refs b).holders) :
    ∃ τ' b, τ.increment numShards a n t = some (τ', b) ∧ Table numShards mapped gone τ' ∧
      Incremented (indexFor numShards a) n t τ τ' b := by
  cases hmap : τ.map (indexFor numShards a) a with
  | some b =>
    obtain ⟨hb, hobj, hshard⟩ := (h.map _ _ _).mp hmap
    have hne : (τ.refs b).holders ≠ ∅ := fun hempty => by rw [h.idle b hb hempty] at hobj; cases hobj
    have hn : (τ.refs b).allocation = n := hunique _ (h.mapped b hb a hobj)
    refine ⟨τ.setRef b { τ.refs b with
      weakCount := (τ.refs b).weakCount + 1, holders := insert (.thread t) (τ.refs b).holders }, b,
      by simp [Shards.increment, hmap, hobj], ?_, le_rfl, hb, fun c hc _ => hc, fun c hc => setRef_refs_of_ne hc _,
      fun x => ?_, ?_, ?_, fun _ => hshard, fun _ => hn⟩
    · refine h.setHolders hb hne (Finset.insert_ne_empty _ _) ?_
      rw [Finset.card_insert_of_notMem (ht b), h.card b hb]
    · rw [setRef_refs_self]
      exact Finset.mem_insert
    · rw [setRef_refs_self]
      exact hn
    · rw [setRef_refs_self]
      exact hshard
  | none =>
    have hfits : WeakRef.Fits numShards mapped gone ⟨some a, 1, indexFor numShards a, n, {.thread t}⟩ :=
      ⟨rfl, fun a' heq => by rw [Option.some.inj heq], fun hempty => absurd hempty (Finset.singleton_ne_empty _),
        fun a' heq => by rwa [← Option.some.inj heq], fun _ hobj => by cases hobj⟩
    -- the entry of `a` is the only one that is added to the maps
    have hadd : ∀ b, (∀ s a', τ.map s a' ≠ some b) → ∀ s a' c,
        Function.update τ.map (indexFor numShards a) (Function.update (τ.map (indexFor numShards a)) a (some b)) s a' =
          some c ↔ c = b ∧ some a = some a' ∧ indexFor numShards a = s ∨ c ≠ b ∧ τ.map s a' = some c := by
      intro b hb s a' c
      rcases eq_or_ne s (indexFor numShards a) with rfl | hs
      · rw [Function.update_self]
        rcases eq_or_ne a' a with rfl | ha'
        · rw [Function.update_self, hmap]
          simp [eq_comm]
        · rw [Function.update_of_ne ha']
          refine ⟨fun hc => .inr ⟨fun heq => hb _ _ (heq ▸ hc), hc⟩, ?_⟩
          rintro (⟨-, heq, -⟩ | ⟨-, hc⟩)
          · exact absurd (Option.some.inj heq).symm ha'
          · exact hc
      · rw [Function.update_of_ne hs]
        refine ⟨fun hc => .inr ⟨fun heq => hb _ _ (heq ▸ hc), hc⟩, ?_⟩
        rintro (⟨-, -, heq⟩ | ⟨-, hc⟩)
        · exact absurd heq.symm hs
        · exact hc
    cases hfree : τ.freeList (indexFor numShards a) with
    | cons b rest =>
      obtain ⟨hb, hshard, hempty⟩ := (h.free (indexFor numShards a) b).mp (by rw [hfree]; exact List.mem_cons_self)
      have hrest : b ∉ rest ∧ rest.Nodup := List.nodup_cons.mp (hfree ▸ h.nodup (indexFor numShards a))
      refine ⟨⟨Function.update τ.refs b ⟨some a, 1, indexFor numShards a, n, {.thread t}⟩, τ.refCount,
        Function.update τ.map (indexFor numShards a) (Function.update (τ.map (indexFor numShards a)) a (some b)),
        Function.update τ.freeList (indexFor numShards a) rest⟩, b, ?_, ?_, le_rfl, hb, fun c hc _ => hc,
        fun c hc => Function.update_of_ne hc .., fun x => ?_, ?_, ?_, fun _ => hshard, fun hne => absurd hempty hne⟩
      · simp [Shards.increment, Shards.alloc, hmap, hfree, Shards.setRef, hshard]
      · refine h.write hfits rfl (lt_iff_eq_or hb) (fun s c => ?_) (fun s => ?_) (hadd b fun s a' hmap' => ?_)
        · have hne : ({.thread t} : Finset (Holder Thread)) ≠ ∅ := Finset.singleton_ne_empty _
          show c ∈ Function.update τ.freeList (indexFor numShards a) rest s ↔ _
          rcases eq_or_ne s (indexFor numShards a) with rfl | hs
          · rw [Function.update_self, hfree]
            rcases eq_or_ne c b with rfl | hcb
            · simp [hrest.1]
            · simp [hcb]
          · rw [Function.update_of_ne hs]
            rcases eq_or_ne c b with rfl | hcb
            · have hnot : c ∉ τ.freeList s := fun hmem => hs (((h.free s c).mp hmem).2.1.symm.trans hshard)
              simp [hnot]
            · simp [hcb]
        · show (Function.update τ.freeList (indexFor numShards a) rest s).Nodup
          rcases eq_or_ne s (indexFor numShards a) with rfl | hs
          · rw [Function.update_self]
            exact hrest.2
          · rw [Function.update_of_ne hs]
            exact h.nodup s
        · have hobj := ((h.map s a' b).mp hmap').2.1
          rw [h.idle b hb hempty] at hobj
          cases hobj
      · simp [hempty]
      · simp
      · simp
    | nil =>
      have hlt : ∀ c, c < τ.refCount + 1 ↔ c = τ.refCount ∨ c < τ.refCount := fun c => by omega
      refine ⟨⟨Function.update τ.refs τ.refCount ⟨some a, 1, indexFor numShards a, n, {.thread t}⟩, τ.refCount + 1,
        Function.update τ.map (indexFor numShards a)
          (Function.update (τ.map (indexFor numShards a)) a (some τ.refCount)), τ.freeList⟩, τ.refCount, ?_, ?_,
        Nat.le_succ _, Nat.lt_succ_self _, fun c hc hne => ?_, fun c hc => Function.update_of_ne hc .., fun x => ?_, ?_,
        ?_, fun hb => absurd hb (lt_irrefl _), fun hne => absurd (h.bounded _ le_rfl) hne⟩
      · simp [Shards.increment, Shards.alloc, hmap, hfree, Shards.setRef]
      · refine h.write hfits rfl hlt (fun s c => ?_) h.nodup (hadd _ fun s a' hmap' => ?_)
        · have hnot : τ.refCount ∉ τ.freeList s := fun hmem => lt_irrefl _ ((h.free s _).mp hmem).1
          show c ∈ τ.freeList s ↔ _
          rcases eq_or_ne c τ.refCount with rfl | hcb
          · simp [hnot]
          · simp [hcb]
        · exact lt_irrefl _ ((h.map s a' _).mp hmap').1
      · exact ((hlt c).mp hc).resolve_left hne
      · simp [h.bounded _ le_rfl]
      · simp
      · simp

end Libobjc2.Memory.WeakTable
