import Libobjc2.Memory.WeakTable

/-!
# Weak references under threads (`src/memory/arc.mm`, lines 1024–1074 and 1179–1438)

Threads store, load, copy, move and destroy weak references while others drop the last reference to an
object, delete its weak references and free it; its address may then be used again. An operation looks at
its slot without a lock, takes the locks of one or two stripes in ascending order, and looks again. Each
read or write of a slot or of a count and each lock is a step; what only the holder of a stripe reads or
writes is part of the step next to it.

Objects are those with the count word of `RefCount` and blocks of the heap. A thread passes only objects
that it owns a reference to, or whose deallocation it runs. Slots that are initialised or destroyed belong
to one operation at a time.
-/

namespace Libobjc2.Memory.WeakTable

open Libobjc2.Common

/-! ## Model -/

/-- What a weak reference is to be made to: `nil`, an object that is never deallocated, or one at an
    address. -/
inductive Target where
  | nil
  | persistent (p : ℕ)
  | counted (a : ℕ)
  deriving DecidableEq

/-- The word in a slot. -/
inductive Pointer where
  | nil
  | persistent (p : ℕ)
  | ref (b : ℕ)
  deriving DecidableEq

/-- The block that a word points to. -/
def Pointer.block : Pointer → Option ℕ
  | .ref b => some b
  | _ => none

/-- What a slot stands for; objects are the numbers of their allocations. -/
inductive Value where
  | nil
  | persistent (p : ℕ)
  | object (n : ℕ)
  deriving DecidableEq

/-- An object: who owns the references to it, the weak flag, the thread that dropped the last reference, and
    whether `objc_delete_weak_refs` has been there. -/
structure Object (Thread : Type) where
  allocation : ℕ
  isBlock : Bool
  owners : Multiset Thread
  weaklyReferenced : Bool
  dying : Option Thread
  weakDeleted : Bool

/-- A load that has returned, with what the slot stood for. -/
structure Loaded where
  slot : ℕ
  result : Value
  expected : Value
  deriving DecidableEq

/-- What the threads share, but for the locks. `live` are the initialised slots. `designated` is what they stand for: what was stored, copied or moved
    last. `gone` are the allocations whose deallocation has begun. -/
structure Shared (Thread : Type) where
  slot : ℕ → Pointer
  live : Finset ℕ
  shards : Shards Thread
  object : ℕ → Option (Object Thread)
  allocations : ℕ
  gone : ℕ → Bool
  designated : ℕ → Value
  history : List Loaded

/-- The operations that take locks. -/
inductive Op where
  | init (s a : ℕ)
  | store (s : ℕ) (obj : Target)
  | load (s : ℕ)
  | copy (dest src : ℕ)
  | move (dest src : ℕ)
  | destroy (s : ℕ)
  | deleteRefs (a : ℕ)
  deriving DecidableEq

/-- Where a thread is in an operation. `raw` is what its slot held, and `held` are the stripes that it has
    locked, the latest first. -/
inductive Pc where
  | idle
  | peeking (op : Op)
  | locking (op : Op) (raw : Pointer) (held ahead : List ℕ)
  | checking (op : Op) (raw : Pointer) (held : List ℕ)
  | marking (op : Op) (raw : Pointer) (held : List ℕ)
  | inspecting (op : Op) (raw : Pointer) (held : List ℕ)
  | storing (op : Op) (raw new : Pointer) (held : List ℕ)
  | copying (dest src : ℕ) (raw : Pointer) (value : Value) (held : List ℕ)
  | moving (dest src : ℕ) (raw : Pointer) (held : List ℕ)
  | clearing (dest src : ℕ) (raw : Pointer) (held : List ℕ)
  | retaining (s b a : ℕ) (held : List ℕ)
  | deleting (a : ℕ) (held : List ℕ)
  | unlocking (again : Option Op) (held : List ℕ)
  deriving DecidableEq

structure State (Thread : Type) where
  shared : Shared Thread
  lock : ℕ → Option Thread
  pc : Thread → Pc

variable {Thread : Type}

def Shared.initial : Shared Thread where
  slot _ := .nil
  live := ∅
  shards := .empty
  object _ := none
  allocations := 0
  gone _ := false
  designated _ := .nil
  history := []

def State.initial : State Thread := ⟨.initial, fun _ => none, fun _ => .idle⟩

/-- The slot that an operation looks at. -/
def Op.src : Op → Option ℕ
  | .store s _ | .load s | .copy _ s | .move _ s | .destroy s => some s
  | .init .. | .deleteRefs _ => none

def Op.object : Op → Option ℕ
  | .init _ a | .store _ (.counted a) | .deleteRefs a => some a
  | _ => none

/-- The slots that no other operation uses meanwhile. -/
def Op.exclusive : Op → List ℕ
  | .init s _ | .copy s _ | .move s _ | .destroy s => [s]
  | _ => []

def Op.uses (op : Op) : List ℕ := op.exclusive ++ op.src.toList

def Pc.op : Pc → Option Op
  | .idle => none
  | .peeking op | .locking op .. | .checking op .. | .marking op .. | .inspecting op .. | .storing op .. => some op
  | .copying dest src .. => some (.copy dest src)
  | .moving dest src .. | .clearing dest src .. => some (.move dest src)
  | .retaining s .. => some (.load s)
  | .deleting a _ => some (.deleteRefs a)
  | .unlocking again _ => again

def Pc.exclusive (pc : Pc) : List ℕ := pc.op.elim [] Op.exclusive

def Pc.uses (pc : Pc) : List ℕ := pc.op.elim [] Op.uses

def Pc.held : Pc → List ℕ
  | .idle | .peeking _ => []
  | .locking _ _ held _ | .checking _ _ held | .marking _ _ held | .inspecting _ _ held | .storing _ _ _ held
  | .copying _ _ _ _ held | .moving _ _ _ held | .clearing _ _ _ held | .retaining _ _ _ held | .deleting _ held
  | .unlocking _ held => held

/-- The stripes that `Guard` locks, in this order (lines 1000–1010). -/
def guardOrder : Option ℕ → Option ℕ → List ℕ
  | none, none => []
  | some i, none | none, some i => [i]
  | some i, some j => if i = j then [i] else if i < j then [i, j] else [j, i]

/-- `withSlotLocked` and `withStoreLocked` check their slot again once they have the locks; `objc_initWeak`
    and `objc_delete_weak_refs` need not. -/
def Op.locked : Op → Pointer → List ℕ → Pc
  | .init s a, raw, held => .marking (.init s a) raw held
  | .deleteRefs a, _, held => .deleting a held
  | op, raw, held => .checking op raw held

namespace Shared

variable [DecidableEq Thread] (m : Shared Thread)

/-- What a value still is. -/
def current : Value → Value
  | .object n => if m.gone n then .nil else .object n
  | v => v

def valueOf : Target → Value
  | .nil => .nil
  | .persistent p => .persistent p
  | .counted a => (m.object a).elim .nil fun o => .object o.allocation

/-- A load from the slot `s` returns. -/
def loaded (s : ℕ) (result : Value) : Shared Thread :=
  { m with history := ⟨s, result, m.current (m.designated s)⟩ :: m.history }

/-- The stripe of the block that a slot points to. -/
def stripe (raw : Pointer) : Option ℕ := raw.block.map fun b => (m.shards.refs b).shardIndex

/-- The object that a slot refers to, in `objc_storeWeak`. -/
def old : Pointer → Target
  | .nil => .nil
  | .persistent p => .persistent p
  | .ref b => (m.shards.refs b).obj.elim .nil .counted

/-- `t.release(ref)` for the slot `s`, if there is a block. -/
def releaseRef (s : ℕ) : Pointer → Shared Thread
  | .ref b => { m with shards := m.shards.releaseRef b (.slot s) }
  | _ => m

/-- The body of an operation behind its last look at the slot. -/
def body (op : Op) (raw : Pointer) (held : List ℕ) : Shared Thread × Pc :=
  match op, raw with
  | .store s obj, raw =>
    if m.old raw = obj ∧ (obj ≠ .nil ∨ m.stripe raw = none) then (m, .unlocking none held)
    else (m, .marking (.store s obj) raw held)
  | .load s, .nil => (m.loaded s .nil, .unlocking none held)
  | .load s, .persistent p => (m.loaded s (.persistent p), .unlocking none held)
  | .load s, .ref b =>
    match (m.shards.refs b).obj with
    | none => ((m.loaded s .nil).releaseRef s (.ref b), .storing (.load s) (.ref b) .nil held)
    | some a => (m, .retaining s b a held)
  | .copy dest src, raw => (m, .copying dest src raw (m.designated src) held)
  | .move dest src, raw => (m, .moving dest src raw held)
  | .destroy s, raw => ({ m.releaseRef s raw with live := m.live.erase s }, .unlocking none held)
  | .init .., _ | .deleteRefs _, _ => (m, .unlocking none held)

/-- `markWeaklyReferenced`, for the objects that have a weak flag. -/
def mark (a : ℕ) : Option (Shared Thread) := do
  let o ← m.object a
  some (if o.isBlock ∨ o.owners = 0 then m
    else { m with object := Function.update m.object a (some { o with weaklyReferenced := true }) })

/-- The steps between locking and unlocking. There is no result when a freed object is used or an assertion
    fails. -/
def run (numShards : ℕ) (t : Thread) : Pc → Option (Shared Thread × Pc)
  | .peeking op => do
    let src ← op.src
    let raw := m.slot src
    match op, raw with
    | .store _ obj, raw =>
      some (m, .locking op raw [] (guardOrder (m.stripe raw) ((Op.store src obj).object.map (indexFor numShards))))
    | _, .ref b => some (m, .locking op raw [] [(m.shards.refs b).shardIndex])
    | _, _ => some (m.body op raw [])
  | .checking op raw held => do
    let src ← op.src
    some (if m.slot src = raw then m.body op raw held else (m, .unlocking (some op) held))
  | .marking (.init s a) raw held => do
    let m ← m.mark a
    some (m, .inspecting (.init s a) raw held)
  | .marking (.store s obj) raw held =>
    match obj with
    | .nil => some (m.releaseRef s raw, .storing (.store s obj) raw .nil held)
    | .persistent p => some (m.releaseRef s raw, .storing (.store s obj) raw (.persistent p) held)
    | .counted a => do
      let m ← m.mark a
      some (m.releaseRef s raw, .inspecting (.store s obj) raw held)
  | .inspecting op raw held => do
    let a ← op.object
    let o ← m.object a
    if o.owners = 0 then some (m, .storing op raw .nil held)
    else do
      let (shards, b) ← m.shards.increment numShards a o.allocation t
      some ({ m with shards := shards }, .storing op raw (.ref b) held)
  | .storing op _ new held =>
    let written (s : ℕ) (obj : Target) : Shared Thread :=
      { m with
        slot := Function.update m.slot s new
        live := insert s m.live
        designated := Function.update m.designated s (m.valueOf obj)
        shards := match new with
          | .ref b => m.shards.transfer b (.thread t) (.slot s)
          | _ => m.shards }
    match op with
    | .init s a => some (written s (.counted a), .unlocking none held)
    | .store s obj => some (written s obj, .unlocking none held)
    | .load s => some ({ m with slot := Function.update m.slot s .nil }, .unlocking none held)
    | _ => none
  | .copying dest _ raw value held => some
    ({ m with
      slot := Function.update m.slot dest raw
      live := insert dest m.live
      designated := Function.update m.designated dest value
      shards := match raw with
        | .ref b => m.shards.addSlot b dest
        | _ => m.shards }, .unlocking none held)
  | .moving dest src raw held =>
    some ({ m with slot := Function.update m.slot dest raw }, .clearing dest src raw held)
  | .clearing dest src raw held => some
    ({ m with
      slot := Function.update m.slot src .nil
      live := insert dest m.live
      designated := Function.update (Function.update m.designated dest (m.designated src)) src .nil
      shards := match raw with
        | .ref b => m.shards.transfer b (.slot src) (.slot dest)
        | _ => m.shards }, .unlocking none held)
  | .retaining s _ a held => do
    let o ← m.object a
    if o.owners = 0 then some (m.loaded s .nil, .unlocking none held)
    else some ({ m.loaded s (.object o.allocation) with
      object := Function.update m.object a (some { o with owners := t ::ₘ o.owners }) }, .unlocking none held)
  | .deleting a held => do
    let o ← m.object a
    if ¬o.isBlock ∧ o.owners ≠ 0 then some (m, .unlocking none held)
    else do
      let shards ← m.shards.deleteRef numShards a
      some ({ m with
        shards := shards
        object := Function.update m.object a (some { o with weakDeleted := true }) }, .unlocking none held)
  | _ => none

end Shared

/-- What the threads do: a call, the initialisation of a slot with `nil` or a persistent object, a step of the
    operation in progress, and what happens to objects: a new one, a reference that is added, passed to another
    thread or dropped, and the end of the deallocation. -/
inductive Action (Thread : Type) where
  | call (t : Thread) (op : Op)
  | initPersistent (t : Thread) (s : ℕ) (p : Option ℕ)
  | run (t : Thread)
  | alloc (t : Thread) (a : ℕ) (isBlock : Bool)
  | retain (t : Thread) (a : ℕ)
  | pass (t : Thread) (a : ℕ) (u : Thread)
  | release (t : Thread) (a : ℕ)
  | free (t : Thread) (a : ℕ)

/-- Where an operation begins. -/
def Op.start (numShards : ℕ) : Op → Pc
  | .init s a => .locking (.init s a) .nil [] [indexFor numShards a]
  | .deleteRefs a => .locking (.deleteRefs a) .nil [] [indexFor numShards a]
  | op => .peeking op

/-- A thread may pass the object at the address `a`. -/
def Shared.Usable (m : Shared Thread) (t : Thread) (a : ℕ) : Prop :=
  ∃ o, m.object a = some o ∧ (t ∈ o.owners ∨ o.dying = some t)

/-- An operation may begin. -/
def Shared.Ready (m : Shared Thread) (t : Thread) : Op → Prop
  | .init s a => s ∉ m.live ∧ m.Usable t a
  | .store s obj => s ∈ m.live ∧ ∀ a, obj = .counted a → m.Usable t a
  | .load s | .destroy s => s ∈ m.live
  | .copy dest src | .move dest src => dest ∉ m.live ∧ src ∈ m.live
  | .deleteRefs a => ∃ o, m.object a = some o ∧ o.dying = some t ∧ o.weakDeleted = false

section Steps

variable [DecidableEq Thread]

def Shared.setObject (m : Shared Thread) (a : ℕ) (o : Option (Object Thread)) : Shared Thread :=
  { m with object := Function.update m.object a o }

/-- A reference to an object is dropped (lines 514–527, and `_Block_release`). -/
def Shared.release (m : Shared Thread) (t : Thread) (a : ℕ) (o : Object Thread) : Shared Thread :=
  let owners := o.owners.erase t
  if owners = 0 then
    { m.setObject a (some { o with owners := 0, dying := some t }) with gone := Function.update m.gone o.allocation true }
  else m.setObject a (some { o with owners := owners })

variable (numShards : ℕ) (σ : State Thread)

def State.go (t : Thread) (pc : Pc) : State Thread := { σ with pc := Function.update σ.pc t pc }

/-- One step of the thread `t`. A thread that waits for a lock has none. -/
def State.run (t : Thread) : Option (State Thread) :=
  match σ.pc t with
  | .locking op raw held (l :: ahead) =>
    if σ.lock l = none then
      some ({ σ with lock := Function.update σ.lock l (some t) }.go t (.locking op raw (l :: held) ahead))
    else none
  | .locking op raw held [] => some (σ.go t (op.locked raw held))
  | .unlocking again (l :: held) =>
    some ({ σ with lock := Function.update σ.lock l none }.go t (.unlocking again held))
  | .unlocking again [] => some (σ.go t (again.elim .idle .peeking))
  | pc => do
    let (m, pc) ← σ.shared.run numShards t pc
    some ({ σ with shared := m }.go t pc)

def next : Action Thread → Option (State Thread)
  | .call t op => some (σ.go t (op.start numShards))
  | .initPersistent _ s p => some { σ with shared := { σ.shared with
      slot := Function.update σ.shared.slot s (p.elim .nil .persistent)
      live := insert s σ.shared.live
      designated := Function.update σ.shared.designated s (p.elim .nil .persistent) } }
  | .run t => σ.run numShards t
  | .alloc t a isBlock => some { σ with shared := { σ.shared.setObject a
      (some ⟨σ.shared.allocations, isBlock, {t}, false, none, false⟩) with allocations := σ.shared.allocations + 1 } }
  | .retain t a => do
    let o ← σ.shared.object a
    some { σ with shared := σ.shared.setObject a (some { o with owners := t ::ₘ o.owners }) }
  | .pass t a u => do
    let o ← σ.shared.object a
    some { σ with shared := σ.shared.setObject a (some { o with owners := u ::ₘ o.owners.erase t }) }
  | .release t a => do
    let o ← σ.shared.object a
    some { σ with shared := σ.shared.release t a o }
  | .free _ a => some { σ with shared := σ.shared.setObject a none }

/-- A slot that held no block is written as the operation found it. Where it held one, the lock sees to it. -/
def State.Undisturbed (t : Thread) : Prop :=
  match σ.pc t with
  | .storing (.store s _) raw _ _ | .clearing _ s raw _ => raw.block ≠ none ∨ σ.shared.slot s = raw
  | _ => True

instance (t : Thread) : Decidable (σ.Undisturbed t) := by
  unfold State.Undisturbed
  split <;> infer_instance

def enabled : Action Thread → Prop
  | .call t op => σ.pc t = .idle ∧ σ.shared.Ready t op ∧ (∀ u, ∀ s ∈ op.exclusive, s ∉ (σ.pc u).uses) ∧
      ∀ u, ∀ s ∈ op.uses, s ∉ (σ.pc u).exclusive
  | .initPersistent t s _ => σ.pc t = .idle ∧ s ∉ σ.shared.live ∧ ∀ u, s ∉ (σ.pc u).uses
  | .run t => σ.pc t ≠ .idle ∧ σ.Undisturbed t
  | .alloc t a _ => σ.pc t = .idle ∧ σ.shared.object a = none
  | .retain t a | .pass t a _ | .release t a =>
    σ.pc t = .idle ∧ ∃ o, σ.shared.object a = some o ∧ t ∈ o.owners
  | .free t a => σ.pc t = .idle ∧ ∃ o, σ.shared.object a = some o ∧ o.dying = some t ∧
      (o.weakDeleted = true ∨ o.isBlock = false ∧ o.weaklyReferenced = false)

def step (σ : State Thread) (a : Action Thread) (σ' : State Thread) : Prop :=
  enabled σ a ∧ next numShards σ a = some σ'

end Steps

/-! ## Invariants -/

/-- The object has its weak references deleted before it is freed. -/
def Object.Marked (o : Object Thread) : Prop := o.isBlock = true ∨ o.weaklyReferenced = true

structure Objects (m : Shared Thread) : Prop where
  lt : ∀ a o, m.object a = some o → o.allocation < m.allocations
  unique : ∀ a o a' o', m.object a = some o → m.object a' = some o' → o.allocation = o'.allocation → a = a'
  gone : ∀ a o, m.object a = some o → (m.gone o.allocation = true ↔ o.owners = 0)
  dying : ∀ a o, m.object a = some o → (o.dying = none ↔ o.owners ≠ 0)
  deleted : ∀ a o, m.object a = some o → o.weakDeleted = true → o.owners = 0
  fresh : ∀ n, m.allocations ≤ n → m.gone n = false

/-- The allocation `n` is at the address `a`, and is to have its weak references deleted. -/
def Shared.Mapped (m : Shared Thread) (a n : ℕ) : Prop :=
  ∃ o, m.object a = some o ∧ o.allocation = n ∧ o.weakDeleted = false ∧ o.Marked

/-- The slot whose block a thread has released and that it has not yet written. -/
def Pc.givenUp : Pc → Option ℕ
  | .inspecting (.store s _) (.ref _) _ | .storing (.store s _) (.ref _) _ _ | .storing (.load s) (.ref _) _ _ => some s
  | _ => none

/-- The block that a thread is about to write into a slot. -/
def Pc.carried : Pc → Option ℕ
  | .storing _ _ (.ref b) _ => some b
  | _ => none

/-- A slot is held by the block that it points to, unless a thread has released it, and the block or the word
    is what the slot stands for. -/
structure Shared.SlotOk (m : Shared Thread) (pc : Thread → Pc) (s : ℕ) : Prop where
  holds : ∀ b, .slot s ∈ (m.shards.refs b).holders →
    s ∈ m.live ∧ m.slot s = .ref b ∧ m.designated s = .object (m.shards.refs b).allocation
  held : s ∈ m.live → ∀ b, m.slot s = .ref b →
    b < m.shards.refCount ∧ (.slot s ∈ (m.shards.refs b).holders ∨ ∃ t, (pc t).givenUp = some s)
  nil : s ∈ m.live → m.slot s = .nil → m.current (m.designated s) = .nil
  persistent : s ∈ m.live → ∀ p, m.slot s = .persistent p → m.designated s = .persistent p

structure Slots (m : Shared Thread) (pc : Thread → Pc) : Prop where
  slot : ∀ s, m.SlotOk pc s
  carried : ∀ b t, .thread t ∈ (m.shards.refs b).holders ↔ (pc t).carried = some b

namespace Shared

variable (numShards : ℕ) (m : Shared Thread) (t : Thread)

/-- The stripes of the block and of the object of an operation are among `locks`. -/
def Locked (op : Op) (raw : Pointer) (locks : List ℕ) : Prop :=
  (∀ b, raw = .ref b → b < m.shards.refCount ∧ (m.shards.refs b).shardIndex ∈ locks) ∧
    ∀ a, op.object = some a → indexFor numShards a ∈ locks

/-- The slot still holds the block, and the block the slot. -/
def Stable (s : ℕ) (raw : Pointer) : Prop :=
  ∀ b, raw = .ref b → m.slot s = .ref b ∧ .slot s ∈ (m.shards.refs b).holders

/-- The slot still holds the block, which was released. -/
def GivenUp (s : ℕ) (raw : Pointer) : Prop :=
  ∀ b, raw = .ref b → m.slot s = .ref b ∧ .slot s ∉ (m.shards.refs b).holders

/-- What is about to be written into a slot fits the target. -/
def Fresh (obj : Target) (held : List ℕ) : Pointer → Prop
  | .nil => obj = .nil ∨ ∃ a o, obj = .counted a ∧ m.object a = some o ∧ o.dying = some t
  | .persistent p => obj = .persistent p
  | .ref b => b < m.shards.refCount ∧ (m.shards.refs b).shardIndex ∈ held ∧ ∃ a o, obj = .counted a ∧
      m.object a = some o ∧ t ∈ o.owners ∧ (m.shards.refs b).allocation = o.allocation

/-- What a copy is to stand for. -/
def Copied (value : Value) : Pointer → Prop
  | .nil => m.current value = .nil
  | .persistent p => value = .persistent p
  | .ref b => value = .object (m.shards.refs b).allocation

/-- What a thread relies on. -/
def OnPc : Pc → Prop
  | .idle => True
  | .peeking op => m.Ready t op ∧ op.src ≠ none
  | .locking op raw held ahead => m.Ready t op ∧ m.Locked numShards op raw (held ++ ahead) ∧
      (∀ l ∈ held, ∀ k ∈ ahead, l < k) ∧ ahead.Pairwise (· < ·) ∧ (op.src = none → raw = .nil)
  | .checking op raw held => m.Ready t op ∧ m.Locked numShards op raw held ∧ op.src ≠ none
  | .marking op raw held => m.Ready t op ∧ m.Locked numShards op raw held ∧ match op with
    | .init .. => raw = .nil
    | .store s _ => m.Stable s raw
    | _ => False
  | .inspecting op raw held => m.Ready t op ∧ m.Locked numShards op raw held ∧
      (∃ a o, op.object = some a ∧ m.object a = some o ∧ (o.Marked ∨ o.dying = some t)) ∧ match op with
    | .init .. => raw = .nil
    | .store s _ => m.GivenUp s raw
    | _ => False
  | .storing op raw new held => m.Ready t op ∧ m.Locked numShards op raw held ∧ match op with
    | .init _ a => raw = .nil ∧ m.Fresh t (.counted a) held new
    | .store s obj => m.GivenUp s raw ∧ m.Fresh t obj held new
    | .load s => m.GivenUp s raw ∧ (∃ b, raw = .ref b) ∧ new = .nil ∧ m.current (m.designated s) = .nil
    | _ => False
  | .copying dest src raw value held => m.Ready t (.copy dest src) ∧ m.Locked numShards (.copy dest src) raw held ∧
      m.Stable src raw ∧ m.Copied value raw
  | .moving dest src raw held => m.Ready t (.move dest src) ∧ m.Locked numShards (.move dest src) raw held ∧
      m.Stable src raw
  | .clearing dest src raw held => m.Ready t (.move dest src) ∧ m.Locked numShards (.move dest src) raw held ∧
      m.Stable src raw ∧ m.slot dest = raw
  | .retaining s b a held => m.Ready t (.load s) ∧ m.Locked numShards (.load s) (.ref b) held ∧ m.Stable s (.ref b) ∧
      (m.shards.refs b).obj = some a
  | .deleting a held => m.Ready t (.deleteRefs a) ∧ indexFor numShards a ∈ held
  | .unlocking again _ => ∀ op, again = some op → m.Ready t op ∧ op.src ≠ none

end Shared

/-- Everything that holds in each state that is reached. -/
structure Inv (numShards : ℕ) (σ : State Thread) : Prop where
  table : Table numShards σ.shared.Mapped (σ.shared.gone · = true) σ.shared.shards
  locks : Held σ.lock fun t => (σ.pc t).held
  nodup : ∀ t, (σ.pc t).held.Nodup
  threads : ∀ t, σ.shared.OnPc numShards t (σ.pc t)
  exclusive : ∀ t u, t ≠ u → ∀ s ∈ (σ.pc t).exclusive, s ∉ (σ.pc u).uses
  objects : Objects σ.shared
  slots : Slots σ.shared σ.pc
  history : ∀ e ∈ σ.shared.history, e.result = e.expected

/-! ## What the others rely on -/

/-- The change from `o` to `o'` keeps what the thread `u` knows of the object. -/
structure Object.Keeps (u : Thread) (o o' : Object Thread) : Prop where
  allocation : o'.allocation = o.allocation
  owners : u ∈ o.owners → u ∈ o'.owners
  dying : o.dying = some u → o'.dying = some u ∧ o'.weakDeleted = o.weakDeleted
  marked : o.Marked → o'.Marked

theorem Object.Keeps.refl (u : Thread) (o : Object Thread) : o.Keeps u o := ⟨rfl, id, fun h => ⟨h, rfl⟩, id⟩

/-- What a step of the thread `t`, with its slots and stripes, leaves alone. -/
structure Keeps (t : Thread) (exclusive uses held : List ℕ) (m m' : Shared Thread) : Prop where
  live : ∀ s ∉ exclusive, s ∈ m'.live ↔ s ∈ m.live
  slot : ∀ s ∉ uses, m'.slot s = m.slot s
  ref : ∀ s ∉ exclusive, ∀ b < m.shards.refCount, m.slot s = .ref b → (m.shards.refs b).shardIndex ∉ held →
    m'.slot s = .ref b ∧ m'.designated s = m.designated s
  refCount : m.shards.refCount ≤ m'.shards.refCount
  shard : ∀ b < m.shards.refCount, (m'.shards.refs b).shardIndex = (m.shards.refs b).shardIndex
  refs : ∀ b < m.shards.refCount, (m.shards.refs b).shardIndex ∉ held → m'.shards.refs b = m.shards.refs b
  object : ∀ a o u, u ≠ t → m.object a = some o → (u ∈ o.owners ∨ o.dying = some u) →
    ∃ o', m'.object a = some o' ∧ o.Keeps u o'
  gone : ∀ n, m.gone n = true → m'.gone n = true

section Frame

variable {numShards : ℕ} {m m' : Shared Thread} {t u : Thread} {exclusive uses held : List ℕ}

theorem Keeps.refl : Keeps t exclusive uses held m m :=
  ⟨fun _ _ => Iff.rfl, fun _ _ => rfl, fun _ _ _ _ h _ => ⟨h, rfl⟩, le_rfl, fun _ _ => rfl, fun _ _ _ => rfl,
    fun _ o u _ ho _ => ⟨o, ho, .refl u o⟩, fun _ => id⟩

theorem Keeps.current_nil (h : Keeps t exclusive uses held m m') {v : Value} (hv : m.current v = .nil) :
    m'.current v = .nil := by
  cases v with
  | nil => rfl
  | persistent p => cases hv
  | object n =>
    have hgone : m.gone n = true := by
      by_contra hn
      simp [Shared.current, hn] at hv
    exact if_pos (h.gone n hgone)

theorem Keeps.usable (h : Keeps t exclusive uses held m m') (hu : u ≠ t) {a : ℕ} (ha : m.Usable u a) :
    m'.Usable u a := by
  obtain ⟨o, ho, hor⟩ := ha
  obtain ⟨o', ho', hk⟩ := h.object a o u hu ho hor
  exact ⟨o', ho', hor.imp hk.owners fun hd => (hk.dying hd).1⟩

theorem Keeps.ready (h : Keeps t exclusive uses held m m') (hu : u ≠ t) {op : Op} (hop : m.Ready u op)
    (hexclusive : ∀ s ∈ exclusive, s ∉ op.uses) : m'.Ready u op := by
  have hlive : ∀ s ∈ op.uses, (s ∈ m'.live ↔ s ∈ m.live) := fun s hs => h.live s fun hmem => hexclusive s hmem hs
  cases op with
  | init s a => exact ⟨fun hs => hop.1 ((hlive s (by simp [Op.uses, Op.exclusive])).mp hs), h.usable hu hop.2⟩
  | store s obj =>
    exact ⟨(hlive s (by simp [Op.uses, Op.src])).mpr hop.1, fun a ha => h.usable hu (hop.2 a ha)⟩
  | load s => exact (hlive s (by simp [Op.uses, Op.src])).mpr hop
  | destroy s => exact (hlive s (by simp [Op.uses, Op.src])).mpr hop
  | copy dest src =>
    exact ⟨fun hs => hop.1 ((hlive dest (by simp [Op.uses, Op.exclusive])).mp hs),
      (hlive src (by simp [Op.uses, Op.src])).mpr hop.2⟩
  | move dest src =>
    exact ⟨fun hs => hop.1 ((hlive dest (by simp [Op.uses, Op.exclusive])).mp hs),
      (hlive src (by simp [Op.uses, Op.src])).mpr hop.2⟩
  | deleteRefs a =>
    obtain ⟨o, ho, hdying, hdeleted⟩ := hop
    obtain ⟨o', ho', hk⟩ := h.object a o u hu ho (.inr hdying)
    exact ⟨o', ho', (hk.dying hdying).1, (hk.dying hdying).2.trans hdeleted⟩

theorem Keeps.locked (h : Keeps t exclusive uses held m m') {op : Op} {raw : Pointer} {locks : List ℕ}
    (hl : m.Locked numShards op raw locks) : m'.Locked numShards op raw locks := by
  refine ⟨fun b hb => ?_, hl.2⟩
  obtain ⟨hlt, hmem⟩ := hl.1 b hb
  exact ⟨hlt.trans_le h.refCount, by rwa [h.shard b hlt]⟩

/-- A block whose stripe the thread holds is as it was. -/
theorem Keeps.refs_eq (h : Keeps t exclusive uses held m m') {op : Op} {raw : Pointer} {held' : List ℕ}
    (hl : m.Locked numShards op raw held') (hheld : ∀ l ∈ held, l ∉ held') {b : ℕ} (hb : raw = .ref b) :
    b < m.shards.refCount ∧ m'.shards.refs b = m.shards.refs b ∧ (m.shards.refs b).shardIndex ∉ held := by
  obtain ⟨hlt, hmem⟩ := hl.1 b hb
  have hnot : (m.shards.refs b).shardIndex ∉ held := fun hmem' => hheld _ hmem' hmem
  exact ⟨hlt, h.refs b hlt hnot, hnot⟩

theorem Keeps.stable (h : Keeps t exclusive uses held m m') {op : Op} {raw : Pointer} {held' : List ℕ}
    (hl : m.Locked numShards op raw held') (hheld : ∀ l ∈ held, l ∉ held') {s : ℕ} (hs : s ∉ exclusive)
    (hst : m.Stable s raw) : m'.Stable s raw := by
  intro b hb
  obtain ⟨hlt, hrefs, hnot⟩ := h.refs_eq hl hheld hb
  obtain ⟨hslot, hholder⟩ := hst b hb
  exact ⟨(h.ref s hs b hlt hslot hnot).1, by rwa [hrefs]⟩

theorem Keeps.givenUp (h : Keeps t exclusive uses held m m') {op : Op} {raw : Pointer} {held' : List ℕ}
    (hl : m.Locked numShards op raw held') (hheld : ∀ l ∈ held, l ∉ held') {s : ℕ} (hs : s ∉ exclusive)
    (hst : m.GivenUp s raw) : m'.GivenUp s raw := by
  intro b hb
  obtain ⟨hlt, hrefs, hnot⟩ := h.refs_eq hl hheld hb
  obtain ⟨hslot, hholder⟩ := hst b hb
  exact ⟨(h.ref s hs b hlt hslot hnot).1, by rwa [hrefs]⟩

theorem Keeps.fresh (h : Keeps t exclusive uses held m m') (hu : u ≠ t) {obj : Target} {new : Pointer}
    {held' : List ℕ} (hheld : ∀ l ∈ held, l ∉ held') (hf : m.Fresh u obj held' new) : m'.Fresh u obj held' new := by
  cases new with
  | nil =>
    refine hf.imp_right ?_
    rintro ⟨a, o, hobj, ho, hdying⟩
    obtain ⟨o', ho', hk⟩ := h.object a o u hu ho (.inr hdying)
    exact ⟨a, o', hobj, ho', (hk.dying hdying).1⟩
  | persistent p => exact hf
  | ref b =>
    obtain ⟨hlt, hmem, a, o, hobj, ho, howner, halloc⟩ := hf
    obtain ⟨o', ho', hk⟩ := h.object a o u hu ho (.inl howner)
    have hrefs := h.refs b hlt fun hmem' => hheld _ hmem' hmem
    exact ⟨hlt.trans_le h.refCount, by rwa [hrefs], a, o', hobj, ho', hk.owners howner,
      by rw [hrefs, halloc, hk.allocation]⟩

theorem Keeps.copied (h : Keeps t exclusive uses held m m') {op : Op} {raw : Pointer} {held' : List ℕ}
    (hl : m.Locked numShards op raw held') (hheld : ∀ l ∈ held, l ∉ held') {value : Value}
    (hc : m.Copied value raw) : m'.Copied value raw := by
  cases raw with
  | nil => exact h.current_nil hc
  | persistent p => exact hc
  | ref b =>
    have hrefs := (h.refs_eq hl hheld rfl).2.1
    show value = .object (m'.shards.refs b).allocation
    rwa [hrefs]

/-- **The frame rule.** What a thread relies on is kept by the steps of the others. -/
theorem Keeps.onPc (h : Keeps t exclusive uses held m m') (hu : u ≠ t) {pc : Pc} (hpc : m.OnPc numShards u pc)
    (hexclusive : ∀ s ∈ exclusive, s ∉ pc.uses) (huses : ∀ s ∈ pc.exclusive, s ∉ uses)
    (hheld : ∀ l ∈ held, l ∉ pc.held) : m'.OnPc numShards u pc := by
  have hnot : ∀ s ∈ pc.uses, s ∉ exclusive := fun s hs hmem => hexclusive s hmem hs
  cases pc with
  | idle => trivial
  | peeking op => exact ⟨h.ready hu hpc.1 hexclusive, hpc.2⟩
  | locking op raw held' ahead => exact ⟨h.ready hu hpc.1 hexclusive, h.locked hpc.2.1, hpc.2.2⟩
  | checking op raw held' => exact ⟨h.ready hu hpc.1 hexclusive, h.locked hpc.2.1, hpc.2.2⟩
  | marking op raw held' =>
    obtain ⟨hready, hlocked, hop⟩ := hpc
    refine ⟨h.ready hu hready hexclusive, h.locked hlocked, ?_⟩
    cases op with
    | init s a => exact hop
    | store s obj => exact h.stable hlocked hheld (hnot s (by simp [Pc.uses, Pc.op, Op.uses, Op.src])) hop
    | _ => exact hop
  | inspecting op raw held' =>
    obtain ⟨hready, hlocked, ⟨a, o, ha, ho, hmarked⟩, hop⟩ := hpc
    refine ⟨h.ready hu hready hexclusive, h.locked hlocked, ?_, ?_⟩
    · have husable : u ∈ o.owners ∨ o.dying = some u := by
        cases op with
        | init s a' =>
          obtain rfl : a' = a := Option.some.inj ha
          obtain ⟨o', ho', hor⟩ := hready.2
          rwa [Option.some.inj (ho.symm.trans ho')]
        | store s obj =>
          cases obj with
          | counted a' =>
            obtain rfl : a' = a := Option.some.inj ha
            obtain ⟨o', ho', hor⟩ := hready.2 a' rfl
            rwa [Option.some.inj (ho.symm.trans ho')]
          | _ => cases ha
        | _ => exact hop.elim
      obtain ⟨o', ho', hk⟩ := h.object a o u hu ho husable
      exact ⟨a, o', ha, ho', hmarked.imp hk.marked fun hd => (hk.dying hd).1⟩
    · cases op with
      | init s a => exact hop
      | store s obj => exact h.givenUp hlocked hheld (hnot s (by simp [Pc.uses, Pc.op, Op.uses, Op.src])) hop
      | _ => exact hop
  | storing op raw new held' =>
    obtain ⟨hready, hlocked, hop⟩ := hpc
    refine ⟨h.ready hu hready hexclusive, h.locked hlocked, ?_⟩
    cases op with
    | init s a => exact ⟨hop.1, h.fresh hu hheld hop.2⟩
    | store s obj =>
      exact ⟨h.givenUp hlocked hheld (hnot s (by simp [Pc.uses, Pc.op, Op.uses, Op.src])) hop.1,
        h.fresh hu hheld hop.2⟩
    | load s =>
      obtain ⟨hgiven, ⟨b, hb⟩, hnew, hnil⟩ := hop
      have hs : s ∈ (Pc.storing (.load s) raw new held').uses := by simp [Pc.uses, Pc.op, Op.uses, Op.src]
      refine ⟨h.givenUp hlocked hheld (hnot s hs) hgiven, ⟨b, hb⟩, hnew, ?_⟩
      obtain ⟨hlt, -, hheld'⟩ := h.refs_eq hlocked hheld hb
      rw [(h.ref s (hnot s hs) b hlt (hgiven b hb).1 hheld').2]
      exact h.current_nil hnil
    | _ => exact hop
  | copying dest src raw value held' =>
    obtain ⟨hready, hlocked, hstable, hcopied⟩ := hpc
    exact ⟨h.ready hu hready hexclusive, h.locked hlocked,
      h.stable hlocked hheld (hnot src (by simp [Pc.uses, Pc.op, Op.uses, Op.src])) hstable,
      h.copied hlocked hheld hcopied⟩
  | moving dest src raw held' =>
    obtain ⟨hready, hlocked, hstable⟩ := hpc
    exact ⟨h.ready hu hready hexclusive, h.locked hlocked,
      h.stable hlocked hheld (hnot src (by simp [Pc.uses, Pc.op, Op.uses, Op.src])) hstable⟩
  | clearing dest src raw held' =>
    obtain ⟨hready, hlocked, hstable, hdest⟩ := hpc
    refine ⟨h.ready hu hready hexclusive, h.locked hlocked,
      h.stable hlocked hheld (hnot src (by simp [Pc.uses, Pc.op, Op.uses, Op.src])) hstable, ?_⟩
    rw [h.slot dest (huses dest (by simp [Pc.exclusive, Pc.op, Op.exclusive])), hdest]
  | retaining s b a held' =>
    obtain ⟨hready, hlocked, hstable, hobj⟩ := hpc
    refine ⟨h.ready hu hready hexclusive, h.locked hlocked,
      h.stable hlocked hheld (hnot s (by simp [Pc.uses, Pc.op, Op.uses, Op.src])) hstable, ?_⟩
    rw [(h.refs_eq hlocked hheld rfl).2.1]
    exact hobj
  | deleting a held' => exact ⟨h.ready hu hpc.1 hexclusive, hpc.2⟩
  | unlocking again held' =>
    intro op hop
    obtain ⟨hready, hsrc⟩ := hpc op hop
    refine ⟨h.ready hu hready fun s hs => ?_, hsrc⟩
    have := hexclusive s hs
    rwa [show (Pc.unlocking again held').uses = op.uses by simp [Pc.uses, Pc.op, hop]] at this

end Frame

/-! ## Steps -/

section Change

variable {numShards : ℕ} {σ : State Thread} {t : Thread} [DecidableEq Thread]

/-- **The step rule.** The thread `t` moves on and changes what is shared; `exclusive`, `uses` and `held` are
    what the others do not touch meanwhile. -/
theorem Inv.change (h : Inv numShards σ) {m' : Shared Thread} {pc' : Pc} {exclusive uses held : List ℕ}
    (hexclusive : ∀ u, u ≠ t → ∀ s ∈ exclusive, s ∉ (σ.pc u).uses)
    (huses : ∀ u, u ≠ t → ∀ s ∈ uses, s ∉ (σ.pc u).exclusive) (hheld : ∀ u, u ≠ t → ∀ l ∈ held, l ∉ (σ.pc u).held)
    (hkeeps : Keeps t exclusive uses held σ.shared m')
    (htable : Table numShards m'.Mapped (m'.gone · = true) m'.shards) (hobjects : Objects m')
    (hslots : Slots m' (Function.update σ.pc t pc')) (hhistory : ∀ e ∈ m'.history, e.result = e.expected)
    (hpc : m'.OnPc numShards t pc') (hsame : pc'.held = (σ.pc t).held) (hop : pc'.op = (σ.pc t).op ∨ pc'.op = none) :
    Inv numShards ({ σ with shared := m' }.go t pc') := by
  have hself : ({ σ with shared := m' }.go t pc' : State Thread).pc t = pc' := Function.update_self ..
  have hothers : ∀ u, u ≠ t → ({ σ with shared := m' }.go t pc' : State Thread).pc u = σ.pc u :=
    fun u hu => Function.update_of_ne hu ..
  have hheld' : ∀ u, (({ σ with shared := m' }.go t pc' : State Thread).pc u).held = (σ.pc u).held := by
    intro u
    rcases eq_or_ne u t with rfl | hu
    · rw [hself, hsame]
    · rw [hothers u hu]
  have hsub : ∀ u s, s ∈ (({ σ with shared := m' }.go t pc' : State Thread).pc u).uses → s ∈ (σ.pc u).uses := by
    intro u s hs
    rcases eq_or_ne u t with rfl | hu
    · rw [hself] at hs
      rcases hop with hop | hop
      · rwa [Pc.uses, hop] at hs
      · rw [Pc.uses, hop] at hs
        cases hs
    · rwa [hothers u hu] at hs
  have hsub' : ∀ u s, s ∈ (({ σ with shared := m' }.go t pc' : State Thread).pc u).exclusive →
      s ∈ (σ.pc u).exclusive := by
    intro u s hs
    rcases eq_or_ne u t with rfl | hu
    · rw [hself] at hs
      rcases hop with hop | hop
      · rwa [Pc.exclusive, hop] at hs
      · rw [Pc.exclusive, hop] at hs
        cases hs
    · rwa [hothers u hu] at hs
  refine ⟨htable, h.locks.keep fun u l => by rw [hheld'], fun u => ?_, fun u => ?_, fun u v huv s hs hs' => ?_,
    hobjects, hslots, hhistory⟩
  · rw [hheld']
    exact h.nodup u
  · rcases eq_or_ne u t with rfl | hu
    · rw [hself]
      exact hpc
    · rw [hothers u hu]
      refine hkeeps.onPc hu (h.threads u) (hexclusive u hu) (fun s hs hs' => huses u hu s hs' hs) (hheld u hu)
  · exact h.exclusive u v huv s (hsub' u s hs) (hsub v s hs')

/-- The step rule for what belongs to the operation in progress. -/
theorem Inv.advance (h : Inv numShards σ) {m' : Shared Thread} {pc' : Pc}
    (hkeeps : Keeps t (σ.pc t).exclusive (σ.pc t).uses (σ.pc t).held σ.shared m')
    (htable : Table numShards m'.Mapped (m'.gone · = true) m'.shards) (hobjects : Objects m')
    (hslots : Slots m' (Function.update σ.pc t pc')) (hhistory : ∀ e ∈ m'.history, e.result = e.expected)
    (hpc : m'.OnPc numShards t pc') (hsame : pc'.held = (σ.pc t).held) (hop : pc'.op = (σ.pc t).op ∨ pc'.op = none) :
    Inv numShards ({ σ with shared := m' }.go t pc') := by
  refine h.change (fun u hu s hs => h.exclusive t u hu.symm s hs) (fun u hu s hs hs' => h.exclusive u t hu s hs' hs)
    (fun u hu l hl hl' => hu (h.locks.only hl' hl)) hkeeps htable hobjects hslots hhistory hpc hsame hop

omit [DecidableEq Thread] in
/-- The slot `s` is as it was. -/
theorem Shared.SlotOk.congr {m m' : Shared Thread} {pc pc' : Thread → Pc} {s : ℕ} (h : m.SlotOk pc s)
    (hlive : s ∈ m'.live ↔ s ∈ m.live) (hslot : m'.slot s = m.slot s) (hdesignated : m'.designated s = m.designated s)
    (hholders : ∀ b, .slot s ∈ (m'.shards.refs b).holders ↔ .slot s ∈ (m.shards.refs b).holders)
    (hallocation : ∀ b, .slot s ∈ (m.shards.refs b).holders →
      (m'.shards.refs b).allocation = (m.shards.refs b).allocation)
    (hcount : m.shards.refCount ≤ m'.shards.refCount) (hgone : ∀ n, m.gone n = true → m'.gone n = true)
    (hgiven : ∀ t, (pc t).givenUp = some s → (pc' t).givenUp = some s) : m'.SlotOk pc' s where
  holds b hb := by
    have hb := (hholders b).mp hb
    obtain ⟨hs, heq, hd⟩ := h.holds b hb
    exact ⟨hlive.mpr hs, hslot.trans heq, by rw [hdesignated, hd, hallocation b hb]⟩
  held hs b hb := by
    obtain ⟨hlt, hor⟩ := h.held (hlive.mp hs) b (hslot.symm.trans hb)
    refine ⟨hlt.trans_le hcount, hor.imp (hholders b).mpr ?_⟩
    rintro ⟨t, ht⟩
    exact ⟨t, hgiven t ht⟩
  nil hs hb := by
    have hnil := h.nil (hlive.mp hs) (hslot.symm.trans hb)
    rw [hdesignated]
    cases hd : m.designated s with
    | nil => rfl
    | persistent p => rw [hd] at hnil; cases hnil
    | object n =>
      rw [hd] at hnil
      refine if_pos (hgone n ?_)
      by_contra hn
      simp [Shared.current, hn] at hnil
  persistent hs p hp := hdesignated.trans (h.persistent (hlive.mp hs) p (hslot.symm.trans hp))

theorem givenUp_update {pc : Thread → Pc} {pc' : Pc} (hgiven : pc'.givenUp = (pc t).givenUp) (u : Thread) :
    (Function.update pc t pc' u).givenUp = (pc u).givenUp := by
  rcases eq_or_ne u t with rfl | hu
  · rw [Function.update_self, hgiven]
  · rw [Function.update_of_ne hu]

theorem carried_update {pc : Thread → Pc} {pc' : Pc} (hcarried : pc'.carried = (pc t).carried) (u : Thread) :
    (Function.update pc t pc' u).carried = (pc u).carried := by
  rcases eq_or_ne u t with rfl | hu
  · rw [Function.update_self, hcarried]
  · rw [Function.update_of_ne hu]

/-- Neither a given-up slot nor a carried block changes. -/
theorem Slots.go {m : Shared Thread} {pc : Thread → Pc} (h : Slots m pc) {pc' : Pc}
    (hgiven : pc'.givenUp = (pc t).givenUp) (hcarried : pc'.carried = (pc t).carried) :
    Slots m (Function.update pc t pc') := by
  refine ⟨fun s => ?_, fun b u => ?_⟩
  · refine (h.slot s).congr Iff.rfl rfl rfl (fun _ => Iff.rfl) (fun _ _ => rfl) le_rfl (fun _ => id) fun u hu => ?_
    rwa [givenUp_update hgiven]
  · rw [carried_update hcarried]
    exact h.carried b u

/-- A step that changes nothing that is shared. -/
theorem Inv.goOn (h : Inv numShards σ) {pc' : Pc} (hpc : σ.shared.OnPc numShards t pc')
    (hsame : pc'.held = (σ.pc t).held) (hop : pc'.op = (σ.pc t).op ∨ pc'.op = none)
    (hgiven : pc'.givenUp = (σ.pc t).givenUp) (hcarried : pc'.carried = (σ.pc t).carried) :
    Inv numShards (σ.go t pc') :=
  h.advance .refl h.table h.objects (h.slots.go hgiven hcarried) h.history hpc hsame hop

end Change

/-! ## What the operations do to the slots -/

section Slots

variable [DecidableEq Thread] {m m' : Shared Thread} {pc : Thread → Pc} {pc' : Pc} {t : Thread} {s : ℕ}

/-- Other threads have given up what they had. -/
theorem givenUp_of_ne {u : Thread} {x : ℕ} (hne : (pc t).givenUp ≠ some x) (hu : (pc u).givenUp = some x) :
    (Function.update pc t pc' u).givenUp = some x := by
  have hut : u ≠ t := by
    rintro rfl
    exact hne hu
  rwa [Function.update_of_ne hut]

omit [DecidableEq Thread] in
/-- No block holds a slot that holds no block. -/
theorem Slots.not_held (h : Slots m pc) (hs : s ∉ m.live ∨ ∀ b, m.slot s ≠ .ref b) (b : ℕ) :
    .slot s ∉ (m.shards.refs b).holders := by
  intro hb
  obtain ⟨hlive, hslot, -⟩ := (h.slot s).holds b hb
  rcases hs with hs | hs
  · exact hs hlive
  · exact hs b hslot

theorem block_ne_none {raw : Pointer} (h : raw.block ≠ none) : ∃ b, raw = .ref b := by
  cases raw with
  | ref b => exact ⟨b, rfl⟩
  | _ => exact absurd rfl h

omit [DecidableEq Thread] in
/-- No block holds a slot that has been given up. -/
theorem Slots.not_held_givenUp (h : Slots m pc) {raw : Pointer} (hgiven : m.GivenUp s raw)
    (hraw : raw.block ≠ none ∨ m.slot s = raw) (b : ℕ) : .slot s ∉ (m.shards.refs b).holders := by
  intro hb
  obtain ⟨-, hslot, -⟩ := (h.slot s).holds b hb
  rcases hraw with hraw | hraw
  · obtain ⟨c, hc⟩ := block_ne_none hraw
    obtain ⟨hslot', hnot⟩ := hgiven c hc
    rw [hslot] at hslot'
    exact hnot (Pointer.ref.inj hslot' ▸ hb)
  · exact (hgiven b (hraw.symm.trans hslot)).2 hb

theorem released_holders {b : ℕ} {x : Holder Thread} (hx : x ≠ .slot s) (c : ℕ) :
    x ∈ ((m.releaseRef s (.ref b)).shards.refs c).holders ↔ x ∈ (m.shards.refs c).holders := by
  show x ∈ ((m.shards.releaseRef b (.slot s)).refs c).holders ↔ _
  rw [releaseRef_refs]
  rcases eq_or_ne c b with rfl | hc
  · rw [Function.update_self]
    show x ∈ (m.shards.refs c).holders.erase (.slot s) ↔ _
    simp [hx]
  · rw [Function.update_of_ne hc]

theorem released_allocation {b : ℕ} (c : ℕ) :
    ((m.releaseRef s (.ref b)).shards.refs c).allocation = (m.shards.refs c).allocation := by
  show ((m.shards.releaseRef b (.slot s)).refs c).allocation = _
  rw [releaseRef_refs]
  rcases eq_or_ne c b with rfl | hc
  · rw [Function.update_self]
    rfl
  · rw [Function.update_of_ne hc]

theorem released_not_held {b : ℕ} (hslot : m.slot s = .ref b) (h : Slots m pc) (c : ℕ) :
    .slot s ∉ ((m.releaseRef s (.ref b)).shards.refs c).holders := by
  show .slot s ∉ ((m.shards.releaseRef b (.slot s)).refs c).holders
  rw [releaseRef_refs]
  rcases eq_or_ne c b with rfl | hc
  · rw [Function.update_self]
    exact Finset.notMem_erase _ _
  · rw [Function.update_of_ne hc]
    intro hmem
    have hslot' := ((h.slot s).holds c hmem).2.1
    rw [hslot] at hslot'
    exact hc (Pointer.ref.inj hslot').symm

/-- The block of a slot is released, and the slot is given up. -/
theorem Slots.giveUp (h : Slots m pc) {b : ℕ} (hslot : m.slot s = .ref b) (hb : b < m.shards.refCount)
    (hbefore : (pc t).givenUp = none) (hafter : pc'.givenUp = some s) (hcarried : pc'.carried = (pc t).carried) :
    Slots (m.releaseRef s (.ref b)) (Function.update pc t pc') := by
  have hcount : m.shards.refCount = (m.releaseRef s (.ref b)).shards.refCount := (releaseRef_refCount _).symm
  refine ⟨fun x => ?_, fun c u => ?_⟩
  · by_cases hx : x = s
    · rw [hx]
      refine ⟨fun c hc => absurd hc (released_not_held hslot h c), fun _ c hc => ?_, fun _ hnil => ?_, fun _ p hp => ?_⟩
      · obtain rfl := Pointer.ref.inj (hslot.symm.trans hc)
        refine ⟨hb.trans_eq hcount, .inr ⟨t, ?_⟩⟩
        rwa [Function.update_self]
      · cases hslot.symm.trans hnil
      · cases hslot.symm.trans hp
    · refine (h.slot x).congr Iff.rfl rfl rfl (fun c => released_holders (by simpa using hx) c)
        (fun c _ => released_allocation c) hcount.le (fun _ => id) fun u hu => ?_
      exact givenUp_of_ne (by rw [hbefore]; simp) hu
  · rw [carried_update hcarried, released_holders (by simp)]
    exact h.carried c u

/-- A slot is destroyed, and its block released if it has one. -/
theorem Slots.destroy (h : Slots m pc) {raw : Pointer} (hslot : m.slot s = raw) (hbefore : (pc t).givenUp = none)
    (hcarried : pc'.carried = (pc t).carried) :
    Slots { m.releaseRef s raw with live := m.live.erase s } (Function.update pc t pc') := by
  have hrest : ∀ (τ : Shards Thread), m.shards.refCount = τ.refCount → (∀ x c, x ≠ .slot s →
      (x ∈ (τ.refs c).holders ↔ x ∈ (m.shards.refs c).holders)) → (∀ c, .slot s ∉ (τ.refs c).holders) →
      (∀ c, (τ.refs c).allocation = (m.shards.refs c).allocation) →
      Slots { m with live := m.live.erase s, shards := τ } (Function.update pc t pc') := by
    intro τ hcount hholders hnot hallocation
    refine ⟨fun x => ?_, fun c u => ?_⟩
    · by_cases hx : x = s
      · rw [hx]
        exact ⟨fun b hb => absurd hb (hnot b), fun hs => absurd hs (Finset.notMem_erase _ _),
          fun hs => absurd hs (Finset.notMem_erase _ _), fun hs => absurd hs (Finset.notMem_erase _ _)⟩
      · refine (h.slot x).congr (by simp [hx]) rfl rfl (fun c => hholders _ c (by simpa using hx))
          (fun c _ => hallocation c) hcount.le (fun _ => id) fun u hu => ?_
        exact givenUp_of_ne (by rw [hbefore]; simp) hu
    · rw [carried_update hcarried, hholders _ _ (by simp)]
      exact h.carried c u
  cases raw with
  | ref b =>
    exact hrest (m.shards.releaseRef b (.slot s)) (releaseRef_refCount _).symm (fun x c hx => released_holders hx c)
      (released_not_held hslot h) released_allocation
  | nil => exact hrest m.shards rfl (fun _ _ _ => Iff.rfl) (h.not_held (.inr fun b => by simp [hslot])) fun _ => rfl
  | persistent p =>
    exact hrest m.shards rfl (fun _ _ _ => Iff.rfl) (h.not_held (.inr fun b => by simp [hslot])) fun _ => rfl

/-- The block of an object is about to be written. -/
theorem Slots.carry (h : Slots m pc) {shard n b : ℕ} {τ : Shards Thread} (hinc : Incremented shard n t m.shards τ b)
    (hbefore : (pc t).carried = none) (hafter : pc'.carried = some b) (hgiven : pc'.givenUp = (pc t).givenUp) :
    Slots { m with shards := τ } (Function.update pc t pc') := by
  have hholders : ∀ x c, x ∈ (τ.refs c).holders ↔ (c = b ∧ x = .thread t) ∨ x ∈ (m.shards.refs c).holders := by
    intro x c
    rcases eq_or_ne c b with rfl | hc
    · simp [hinc.holders]
    · simp [hinc.others c hc, hc]
  refine ⟨fun s => ?_, fun c u => ?_⟩
  · refine (h.slot s).congr Iff.rfl rfl rfl (fun c => by simp [hholders]) (fun c hc => ?_) hinc.refCount (fun _ => id)
      fun u hu => by rwa [givenUp_update hgiven]
    rcases eq_or_ne c b with rfl | hcb
    · exact hinc.allocation.trans (hinc.allocation_before (Finset.ne_empty_of_mem hc)).symm
    · exact congrArg WeakRef.allocation (hinc.others c hcb)
  · show .thread u ∈ (τ.refs c).holders ↔ _
    rw [hholders]
    rcases eq_or_ne u t with rfl | hu
    · rw [Function.update_self, hafter, h.carried, hbefore]
      simp [eq_comm]
    · rw [Function.update_of_ne hu, h.carried]
      simp [hu]

/-- The holders of a block once one of them is replaced. -/
theorem transfer_holders {τ : Shards Thread} {b : ℕ} {x y z : Holder Thread} (c : ℕ) :
    z ∈ ((τ.transfer b x y).refs c).holders ↔
      c = b ∧ z = y ∨ z ∈ (τ.refs c).holders ∧ (c = b → z ≠ x) := by
  rcases eq_or_ne c b with rfl | hc
  · simp [Shards.transfer, and_comm]
  · simp [Shards.transfer, setRef_refs_of_ne hc, hc]

theorem transfer_allocation {τ : Shards Thread} {b : ℕ} {x y : Holder Thread} (c : ℕ) :
    ((τ.transfer b x y).refs c).allocation = (τ.refs c).allocation := by
  rcases eq_or_ne c b with rfl | hc
  · simp [Shards.transfer]
  · simp [Shards.transfer, setRef_refs_of_ne hc]

/-- A slot that no block holds is written. -/
theorem Slots.write (h : Slots m pc) (hnot : ∀ b, .slot s ∉ (m.shards.refs b).holders) {new : Pointer} {v : Value}
    (hcarried : (pc t).carried = none) (hcarried' : pc'.carried = none) (hnew : ∀ b, new ≠ .ref b)
    (hgiven : ∀ x, (pc t).givenUp = some x → x = s) (hnil : new = .nil → m.current v = .nil)
    (hpersistent : ∀ p, new = .persistent p → v = .persistent p) :
    Slots { m with
      slot := Function.update m.slot s new, live := insert s m.live
      designated := Function.update m.designated s v } (Function.update pc t pc') := by
  refine ⟨fun x => ?_, fun c u => ?_⟩
  · by_cases hx : x = s
    · rw [hx]
      refine ⟨fun b hb => absurd hb (hnot b), fun _ b hb => ?_, fun _ hn => ?_, fun _ p hp => ?_⟩
      · exact absurd ((Function.update_self ..).symm.trans hb) (hnew b)
      · have hn := (Function.update_self ..).symm.trans hn
        show m.current (Function.update m.designated s v s) = .nil
        rw [Function.update_self]
        exact hnil hn
      · exact (Function.update_self ..).trans (hpersistent p ((Function.update_self ..).symm.trans hp))
    · refine (h.slot x).congr (by simp [hx]) (Function.update_of_ne hx ..) (Function.update_of_ne hx ..)
        (fun _ => Iff.rfl) (fun _ _ => rfl) le_rfl (fun _ => id) fun u hu => ?_
      exact givenUp_of_ne (fun heq => hx (hgiven x heq)) hu
  · rw [carried_update (hcarried'.trans hcarried.symm)]
    exact h.carried c u

/-- A slot that no block holds gets the block that the thread carries. -/
theorem Slots.writeRef (h : Slots m pc) (hnot : ∀ b, .slot s ∉ (m.shards.refs b).holders) {b : ℕ}
    (hb : b < m.shards.refCount) (hcarried : (pc t).carried = some b) (hcarried' : pc'.carried = none)
    (hgiven : ∀ x, (pc t).givenUp = some x → x = s) :
    Slots { m with
      slot := Function.update m.slot s (.ref b), live := insert s m.live
      designated := Function.update m.designated s (.object (m.shards.refs b).allocation)
      shards := m.shards.transfer b (.thread t) (.slot s) } (Function.update pc t pc') := by
  refine ⟨fun x => ?_, fun c u => ?_⟩
  · by_cases hx : x = s
    · rw [hx]
      refine ⟨fun c hc => ?_, fun _ c hc => ?_, fun _ hn => ?_, fun _ p hp => ?_⟩
      · rcases (transfer_holders c).mp hc with ⟨rfl, -⟩ | ⟨hc, -⟩
        · refine ⟨Finset.mem_insert_self _ _, Function.update_self .., ?_⟩
          exact (Function.update_self ..).trans (by rw [transfer_allocation])
        · exact absurd hc (hnot c)
      · obtain rfl := Pointer.ref.inj ((Function.update_self ..).symm.trans hc)
        exact ⟨hb, .inl ((transfer_holders _).mpr (.inl ⟨rfl, rfl⟩))⟩
      · cases (Function.update_self ..).symm.trans hn
      · cases (Function.update_self ..).symm.trans hp
    · refine (h.slot x).congr (by simp [hx]) (Function.update_of_ne hx ..) (Function.update_of_ne hx ..)
        (fun c => ?_) (fun c _ => transfer_allocation c) le_rfl (fun _ => id) fun u hu => ?_
      · exact (transfer_holders c).trans (by simp [hx])
      · exact givenUp_of_ne (fun heq => hx (hgiven x heq)) hu
  · refine (transfer_holders c).trans ?_
    rw [h.carried]
    rcases eq_or_ne u t with rfl | hu
    · rw [Function.update_self, hcarried, hcarried']
      simp [eq_comm]
    · rw [Function.update_of_ne hu]
      simp [hu]

/-- A slot that no block holds becomes a copy of one that holds a block. -/
theorem Slots.copyRef (h : Slots m pc) (hnot : ∀ b, .slot s ∉ (m.shards.refs b).holders) {b : ℕ}
    (hb : b < m.shards.refCount) (hcarried : (pc t).carried = none) (hcarried' : pc'.carried = none)
    (hgiven : (pc t).givenUp = none) :
    Slots { m with
      slot := Function.update m.slot s (.ref b), live := insert s m.live
      designated := Function.update m.designated s (.object (m.shards.refs b).allocation)
      shards := m.shards.addSlot b s } (Function.update pc t pc') := by
  have hholders : ∀ x c, x ∈ ((m.shards.addSlot b s).refs c).holders ↔
      c = b ∧ x = .slot s ∨ x ∈ (m.shards.refs c).holders := by
    intro x c
    rcases eq_or_ne c b with rfl | hc
    · simp [Shards.addSlot]
    · simp [Shards.addSlot, setRef_refs_of_ne hc, hc]
  have hallocation : ∀ c, ((m.shards.addSlot b s).refs c).allocation = (m.shards.refs c).allocation := by
    intro c
    rcases eq_or_ne c b with rfl | hc
    · simp [Shards.addSlot]
    · simp [Shards.addSlot, setRef_refs_of_ne hc]
  refine ⟨fun x => ?_, fun c u => ?_⟩
  · by_cases hx : x = s
    · rw [hx]
      refine ⟨fun c hc => ?_, fun _ c hc => ?_, fun _ hn => ?_, fun _ p hp => ?_⟩
      · rcases (hholders _ c).mp hc with ⟨rfl, -⟩ | hc
        · refine ⟨Finset.mem_insert_self _ _, Function.update_self .., ?_⟩
          exact (Function.update_self ..).trans (by rw [hallocation])
        · exact absurd hc (hnot c)
      · obtain rfl := Pointer.ref.inj ((Function.update_self ..).symm.trans hc)
        exact ⟨hb, .inl ((hholders _ _).mpr (.inl ⟨rfl, rfl⟩))⟩
      · cases (Function.update_self ..).symm.trans hn
      · cases (Function.update_self ..).symm.trans hp
    · refine (h.slot x).congr (by simp [hx]) (Function.update_of_ne hx ..) (Function.update_of_ne hx ..)
        (fun c => ?_) (fun c _ => hallocation c) le_rfl (fun _ => id) fun u hu => ?_
      · exact (hholders _ c).trans (by simp [hx])
      · exact givenUp_of_ne (by rw [hgiven]; simp) hu
  · refine (hholders _ c).trans ?_
    rw [carried_update (hcarried'.trans hcarried.symm), ← h.carried]
    simp

/-- A slot that is not initialised may hold anything. -/
theorem Slots.scratch (h : Slots m pc) (hs : s ∉ m.live) (raw : Pointer) (hcarried : pc'.carried = (pc t).carried)
    (hgiven : pc'.givenUp = (pc t).givenUp) :
    Slots { m with slot := Function.update m.slot s raw } (Function.update pc t pc') := by
  refine ⟨fun x => ?_, (h.go hgiven hcarried).carried⟩
  by_cases hx : x = s
  · rw [hx]
    exact ⟨fun b hb => absurd hb (h.not_held (.inl hs) b), fun hlive => absurd hlive hs,
      fun hlive => absurd hlive hs, fun hlive => absurd hlive hs⟩
  · exact (h.slot x).congr Iff.rfl (Function.update_of_ne hx ..) rfl (fun _ => Iff.rfl) (fun _ _ => rfl) le_rfl
      (fun _ => id) fun u hu => by rwa [givenUp_update hgiven]

/-- The content of `src` has been written to `dest`, and `src` is cleared. -/
theorem Slots.clear (h : Slots m pc) {dest src : ℕ} (hdest : dest ∉ m.live) (hsrc : src ∈ m.live) {raw : Pointer}
    (hwritten : m.slot dest = raw) (hslot : m.slot src = raw) (hstable : m.Stable src raw)
    (hcarried : (pc t).carried = none) (hcarried' : pc'.carried = none) (hgiven : (pc t).givenUp = none) :
    Slots { m with
      slot := Function.update m.slot src .nil, live := insert dest m.live
      designated := Function.update (Function.update m.designated dest (m.designated src)) src .nil
      shards := match raw with
        | .ref b => m.shards.transfer b (.slot src) (.slot dest)
        | _ => m.shards } (Function.update pc t pc') := by
  have hne : dest ≠ src := fun heq => hdest (heq ▸ hsrc)
  have hcarried'' : ∀ u, (Function.update pc t pc' u).carried = (pc u).carried :=
    carried_update (hcarried'.trans hcarried.symm)
  have hsrc' : (Function.update (Function.update m.designated dest (m.designated src)) src .nil) src = .nil :=
    Function.update_self ..
  have hdest' : (Function.update (Function.update m.designated dest (m.designated src)) src .nil) dest =
      m.designated src := by rw [Function.update_of_ne hne, Function.update_self]
  have hother : ∀ x, x ≠ dest → x ≠ src →
      (Function.update (Function.update m.designated dest (m.designated src)) src .nil) x = m.designated x :=
    fun x hx hx' => by rw [Function.update_of_ne hx', Function.update_of_ne hx]
  have hslotDest : Function.update m.slot src .nil dest = raw := (Function.update_of_ne hne ..).trans hwritten
  cases raw with
  | ref b =>
    obtain ⟨-, hholder⟩ := hstable b rfl
    have hdesignated := ((h.slot src).holds b hholder).2.2
    have hb := ((h.slot src).held hsrc b hslot).1
    refine ⟨fun x => ?_, fun c u => ?_⟩
    · by_cases hx : x = dest
      · rw [hx]
        refine ⟨fun c hc => ?_, fun _ c hc => ?_, fun _ hn => ?_, fun _ p hp => ?_⟩
        · rcases (transfer_holders c).mp hc with ⟨rfl, -⟩ | ⟨hc, -⟩
          · refine ⟨Finset.mem_insert_self _ _, hslotDest, hdest'.trans ?_⟩
            rw [hdesignated, transfer_allocation]
          · exact absurd hc (h.not_held (.inl hdest) c)
        · obtain rfl := Pointer.ref.inj (hslotDest.symm.trans hc)
          exact ⟨hb, .inl ((transfer_holders _).mpr (.inl ⟨rfl, rfl⟩))⟩
        · cases hslotDest.symm.trans hn
        · cases hslotDest.symm.trans hp
      · by_cases hx' : x = src
        · rw [hx']
          refine ⟨fun c hc => ?_, fun _ c hc => ?_, fun _ _ => ?_, fun _ p hp => ?_⟩
          · rcases (transfer_holders c).mp hc with ⟨-, heq⟩ | ⟨hc, hcb⟩
            · exact absurd (Holder.slot.inj heq) hne.symm
            · have hc' := ((h.slot src).holds c hc).2.1
              rw [hslot] at hc'
              exact absurd rfl (hcb (Pointer.ref.inj hc').symm)
          · cases (Function.update_self ..).symm.trans hc
          · exact congrArg _ hsrc'
          · cases (Function.update_self ..).symm.trans hp
        · refine (h.slot x).congr (by simp [hx]) (Function.update_of_ne hx' ..) (hother x hx hx') (fun c => ?_)
            (fun c _ => transfer_allocation c) le_rfl (fun _ => id) fun u hu => ?_
          · exact (transfer_holders c).trans (by simp [hx, hx'])
          · exact givenUp_of_ne (by rw [hgiven]; simp) hu
    · refine (transfer_holders c).trans ?_
      rw [hcarried'', ← h.carried]
      simp
  | nil =>
    refine ⟨fun x => ?_, fun c u => ?_⟩
    · by_cases hx : x = dest
      · rw [hx]
        refine ⟨fun c hc => absurd hc (h.not_held (.inl hdest) c), fun _ c hc => ?_, fun _ _ => ?_, fun _ p hp => ?_⟩
        · cases hslotDest.symm.trans hc
        · exact (congrArg _ hdest').trans ((h.slot src).nil hsrc hslot)
        · cases hslotDest.symm.trans hp
      · by_cases hx' : x = src
        · rw [hx']
          refine ⟨fun c hc => absurd hc (h.not_held (.inr fun b => by simp [hslot]) c), fun _ c hc => ?_,
            fun _ _ => congrArg _ hsrc', fun _ p hp => ?_⟩
          · cases (Function.update_self ..).symm.trans hc
          · cases (Function.update_self ..).symm.trans hp
        · exact (h.slot x).congr (by simp [hx]) (Function.update_of_ne hx' ..) (hother x hx hx') (fun _ => Iff.rfl)
            (fun _ _ => rfl) le_rfl (fun _ => id) fun u hu => givenUp_of_ne (by rw [hgiven]; simp) hu
    · rw [hcarried'']
      exact h.carried c u
  | persistent q =>
    refine ⟨fun x => ?_, fun c u => ?_⟩
    · by_cases hx : x = dest
      · rw [hx]
        refine ⟨fun c hc => absurd hc (h.not_held (.inl hdest) c), fun _ c hc => ?_, fun _ hn => ?_, fun _ p hp => ?_⟩
        · cases hslotDest.symm.trans hc
        · cases hslotDest.symm.trans hn
        · exact hdest'.trans ((h.slot src).persistent hsrc p (hslot.trans (hslotDest.symm.trans hp)))
      · by_cases hx' : x = src
        · rw [hx']
          refine ⟨fun c hc => absurd hc (h.not_held (.inr fun b => by simp [hslot]) c), fun _ c hc => ?_,
            fun _ _ => congrArg _ hsrc', fun _ p hp => ?_⟩
          · cases (Function.update_self ..).symm.trans hc
          · cases (Function.update_self ..).symm.trans hp
        · exact (h.slot x).congr (by simp [hx]) (Function.update_of_ne hx' ..) (hother x hx hx') (fun _ => Iff.rfl)
            (fun _ _ => rfl) le_rfl (fun _ => id) fun u hu => givenUp_of_ne (by rw [hgiven]; simp) hu
    · rw [hcarried'']
      exact h.carried c u

omit [DecidableEq Thread] in
/-- What the slots see of the objects and blocks stays. -/
theorem Slots.congr (h : Slots m pc) (hlive : m'.live = m.live) (hslot : m'.slot = m.slot)
    (hdesignated : m'.designated = m.designated)
    (hholders : ∀ b, (m'.shards.refs b).holders = (m.shards.refs b).holders)
    (hallocation : ∀ b, (m'.shards.refs b).allocation = (m.shards.refs b).allocation)
    (hcount : m'.shards.refCount = m.shards.refCount) (hgone : ∀ n, m.gone n = true → m'.gone n = true) : Slots m' pc := by
  refine ⟨fun s => ?_, fun b u => ?_⟩
  · exact (h.slot s).congr (by rw [hlive]) (by rw [hslot]) (by rw [hdesignated]) (fun b => by rw [hholders])
      (fun b _ => hallocation b) hcount.ge hgone fun _ => id
  · rw [hholders]
    exact h.carried b u

end Slots

/-! ## Objects -/

section Objects

variable {m m' : Shared Thread} {a : ℕ} {o o' : Object Thread}

theorem Objects.congr (h : Objects m) (hobject : m'.object = m.object) (hgone : m'.gone = m.gone)
    (hcount : m'.allocations = m.allocations) : Objects m' :=
  ⟨by rw [hobject, hcount]; exact h.lt, by rw [hobject]; exact h.unique, by rw [hobject, hgone]; exact h.gone,
    by rw [hobject]; exact h.dying, by rw [hobject]; exact h.deleted, by rw [hcount, hgone]; exact h.fresh⟩

/-- An object changes, but not whether it is gone. -/
theorem Objects.set (h : Objects m) (ho : m.object a = some o) (hobject : m'.object = Function.update m.object a (some o'))
    (hgone : m'.gone = m.gone) (hcount : m'.allocations = m.allocations) (hallocation : o'.allocation = o.allocation)
    (howners : o'.owners = 0 ↔ o.owners = 0) (hdying : o'.dying = o.dying)
    (hdeleted : o'.weakDeleted = true → o'.owners = 0) : Objects m' := by
  have hcases : ∀ x p, m'.object x = some p → ∃ p₀, m.object x = some p₀ ∧ p.allocation = p₀.allocation ∧
      (p.owners = 0 ↔ p₀.owners = 0) ∧ p.dying = p₀.dying ∧ (p.weakDeleted = true → p.owners = 0) := by
    intro x p hp
    rw [hobject] at hp
    rcases eq_or_ne x a with rfl | hx
    · rw [Function.update_self] at hp
      obtain rfl := Option.some.inj hp
      exact ⟨o, ho, hallocation, howners, hdying, hdeleted⟩
    · rw [Function.update_of_ne hx] at hp
      exact ⟨p, hp, rfl, Iff.rfl, rfl, h.deleted x p hp⟩
  refine ⟨fun x p hp => ?_, fun x p y q hp hq heq => ?_, fun x p hp => ?_, fun x p hp => ?_, fun x p hp => ?_, ?_⟩
  · obtain ⟨p₀, hp₀, heq, -⟩ := hcases x p hp
    rw [hcount, heq]
    exact h.lt x p₀ hp₀
  · obtain ⟨p₀, hp₀, hpeq, -⟩ := hcases x p hp
    obtain ⟨q₀, hq₀, hqeq, -⟩ := hcases y q hq
    exact h.unique x p₀ y q₀ hp₀ hq₀ (by rw [← hpeq, ← hqeq, heq])
  · obtain ⟨p₀, hp₀, heq, howners, -⟩ := hcases x p hp
    rw [hgone, heq, howners]
    exact h.gone x p₀ hp₀
  · obtain ⟨p₀, hp₀, -, howners, hd, -⟩ := hcases x p hp
    rw [hd, Ne, howners]
    exact h.dying x p₀ hp₀
  · obtain ⟨p₀, hp₀, -, -, -, hd⟩ := hcases x p hp
    exact hd
  · rw [hcount, hgone]
    exact h.fresh

/-- The threads that may use an object know how it is. -/
theorem Objects.owners_ne_zero {t : Thread} (ht : t ∈ o.owners) : o.owners ≠ 0 := fun h => by
  rw [h] at ht
  exact Multiset.notMem_zero t ht

end Objects

section Keeps

variable {m m' : Shared Thread} {t : Thread} {exclusive uses held : List ℕ}

/-- Only blocks of the stripes that are held change, and new ones may come. -/
theorem Keeps.shards (hlive : m'.live = m.live) (hslot : m'.slot = m.slot) (hdesignated : m'.designated = m.designated)
    (hobject : m'.object = m.object) (hgone : m'.gone = m.gone) (hcount : m.shards.refCount ≤ m'.shards.refCount)
    (hshard : ∀ b < m.shards.refCount, (m'.shards.refs b).shardIndex = (m.shards.refs b).shardIndex)
    (hrefs : ∀ b < m.shards.refCount, (m.shards.refs b).shardIndex ∉ held → m'.shards.refs b = m.shards.refs b) :
    Keeps t exclusive uses held m m' :=
  ⟨fun s _ => by rw [hlive], fun s _ => by rw [hslot], fun s _ b _ hb _ => by rw [hslot, hdesignated]; exact ⟨hb, rfl⟩, hcount,
    hshard, hrefs, fun a o u _ ho _ => ⟨o, by rw [hobject]; exact ho, .refl u o⟩, fun n hn => by rw [hgone]; exact hn⟩

/-- An object changes, but not for its owners. -/
theorem Keeps.setObject {a : ℕ} {o o' : Object Thread} (ho : m.object a = some o)
    (hobject : m'.object = Function.update m.object a (some o')) (hlive : m'.live = m.live) (hslot : m'.slot = m.slot)
    (hdesignated : m'.designated = m.designated) (hshards : m'.shards = m.shards)
    (hgone : ∀ n, m.gone n = true → m'.gone n = true) (hkeeps : ∀ u, u ≠ t → o.Keeps u o') :
    Keeps t exclusive uses held m m' := by
  refine ⟨fun s _ => by rw [hlive], fun s _ => by rw [hslot], fun s _ b _ hb _ => by rw [hslot, hdesignated]; exact ⟨hb, rfl⟩,
    by rw [hshards], fun b _ => by rw [hshards], fun b _ _ => by rw [hshards], fun x p u hu hp hor => ?_, hgone⟩
  rw [hobject]
  rcases eq_or_ne x a with rfl | hx
  · obtain rfl := Option.some.inj (ho.symm.trans hp)
    exact ⟨o', Function.update_self .., hkeeps u hu⟩
  · exact ⟨p, by rw [Function.update_of_ne hx]; exact hp, .refl u p⟩

theorem Keeps.trans {m'' : Shared Thread} (h : Keeps t exclusive uses held m m')
    (h' : Keeps t exclusive uses held m' m'') : Keeps t exclusive uses held m m'' where
  live s hs := (h'.live s hs).trans (h.live s hs)
  slot s hs := (h'.slot s hs).trans (h.slot s hs)
  ref s hs b hb hslot hnot := by
    obtain ⟨hslot', hd⟩ := h.ref s hs b hb hslot hnot
    obtain ⟨hslot'', hd'⟩ := h'.ref s hs b (hb.trans_le h.refCount) hslot' (by rwa [h.shard b hb])
    exact ⟨hslot'', hd'.trans hd⟩
  refCount := h.refCount.trans h'.refCount
  shard b hb := (h'.shard b (hb.trans_le h.refCount)).trans (h.shard b hb)
  refs b hb hnot := by
    rw [h'.refs b (hb.trans_le h.refCount) (by rwa [h.shard b hb]), h.refs b hb hnot]
  object a o u hu ho hor := by
    obtain ⟨o', ho', hk⟩ := h.object a o u hu ho hor
    obtain ⟨o'', ho'', hk'⟩ := h'.object a o' u hu ho' (hor.imp hk.owners fun hd => (hk.dying hd).1)
    refine ⟨o'', ho'', hk'.allocation.trans hk.allocation, fun hu => hk'.owners (hk.owners hu), fun hd => ?_,
      fun hm => hk'.marked (hk.marked hm)⟩
    obtain ⟨hd', heq⟩ := hk.dying hd
    obtain ⟨hd'', heq'⟩ := hk'.dying hd'
    exact ⟨hd'', heq'.trans heq⟩
  gone n hn := h'.gone n (h.gone n hn)

end Keeps

end Libobjc2.Memory.WeakTable
