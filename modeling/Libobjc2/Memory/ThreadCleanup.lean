import Libobjc2.Memory.PoolDraining

/-!
# Thread cleanup (`src/memory/arc.mm`, lines 110–219)

When a thread ends, `cleanupPools` releases the object in the return slot of its `arc_tls`, drains
its pools, calls itself if a new object was put into the slot meanwhile, and frees the block. The
objects released may autorelease others and return others with `objc_autoreleaseReturnValue`.

Whether they work on the same block is a matter of the platform: POSIX clears the key before it
calls the destructor, so `getARCThreadData` allocates another block; `sees` says that
`objc_platform_tls_get` still returns the block. With `useARCAutoreleasePool` set a returned
object goes to the pools, otherwise into the slot.

Results:
* `cleanup_iff`: a cleanup ends with everything released and the block freed once exactly when the
  objects released work on another block, or on their own pools, or return nothing.
* `cleanup_frees_twice`: an object of a pool that returns another makes it free the block twice.
-/

namespace Libobjc2.Memory.Draining.Cleanup

/-! ## Model -/

/-- A call made while an object is released. -/
inductive Act (Name : Type) where
  | autorelease (name : Name) (onRelease : List (Act Name))
  | autoreleaseReturnValue (name : Name) (onRelease : List (Act Name))

/-- A reference that is to be released: to which object, and the calls that releasing it makes. -/
structure Reference (Name : Type) where
  name : Name
  onRelease : List (Act Name)

/-- The block is used, or freed. -/
inductive BlockEvent where
  | used
  | freed
  deriving DecidableEq

/-- Around the block: the one that `getARCThreadData` allocates when the platform does not return
    this one any more, what was handed to `NSAutoreleasePool`, what was put into the return slot of
    the block and what was taken out of it to make place, and what happened to the block. The
    lists have the newest first. -/
structure Outside (Name : Type) where
  other : ArcTls (Reference Name)
  external : List (Reference Name)
  stored : List (Reference Name)
  displaced : List (Reference Name)
  events : List BlockEvent

variable {Name : Type}

abbrev State (Name : Type) := Drain (Reference Name) (Outside Name)

def State.record (s : State Name) (event : BlockEvent) : State Name :=
  { s with world := { s.world with events := event :: s.world.events } }

def State.setReturnRetained (s : State Name) (obj : Option (Reference Name)) : State Name :=
  { s with tls := { s.tls with returnRetained := obj } }

section Model

variable (N : ℕ) (calloc : ℕ → List ℕ → ℕ) (sees useARCAutoreleasePool : Bool)

/-- `autorelease` (lines 585–617). -/
def autorelease (s : State Name) (obj : Reference Name) : State Name :=
  if useARCAutoreleasePool then
    if sees then State.record (s.autorelease N calloc obj) .used
    else { s with
      allocations := s.allocations + 1
      world := { s.world with other := Memory.autorelease N (calloc s.allocations) s.world.other obj } }
  else { s with world := { s.world with external := obj :: s.world.external } }

/-- `objc_autoreleaseReturnValue` (lines 721–734). -/
def autoreleaseReturnValue (s : State Name) (obj : Reference Name) : State Name :=
  if useARCAutoreleasePool then autorelease N calloc sees useARCAutoreleasePool s obj
  else if sees then
    State.record { s.setReturnRetained (some obj) with
      world := { s.world with
        external := s.tls.returnRetained.toList ++ s.world.external
        stored := obj :: s.world.stored
        displaced := s.tls.returnRetained.toList ++ s.world.displaced } } .used
  else { s with
    world := { s.world with
      other := { s.world.other with returnRetained := some obj }
      external := s.world.other.returnRetained.toList ++ s.world.external } }

/-- One call of a release. -/
def act (s : State Name) : Act Name → State Name
  | .autorelease name onRelease => autorelease N calloc sees useARCAutoreleasePool s ⟨name, onRelease⟩
  | .autoreleaseReturnValue name onRelease =>
    autoreleaseReturnValue N calloc sees useARCAutoreleasePool s ⟨name, onRelease⟩

/-- `release`: the calls that the object makes. -/
def release (s : State Name) (o : Reference Name) : State Name :=
  o.onRelease.foldl (act N calloc sees useARCAutoreleasePool) s

/-- Lines 204–208. -/
def releaseReturned (s : State Name) : State Name :=
  match s.tls.returnRetained with
  | none => s.record .used
  | some obj =>
    let s := State.record { s with released := obj :: s.released } .used
    State.record ((release N calloc sees useARCAutoreleasePool s obj).setReturnRetained none) .used

/-- Lines 209–213. -/
def drainPools (fuel : ℕ) (s : State Name) : Option (State Name) :=
  if s.pool = [] then some (s.record .used)
  else (emptyPool N (fun s o => some (release N calloc sees useARCAutoreleasePool s o)) fuel s 0).map
    fun s => State.record s .used

/-- `cleanupPools` (lines 201–219). -/
def cleanupPools : ℕ → State Name → Option (State Name)
  | 0, _ => none
  | fuel + 1, s => do
    let s ← drainPools N calloc sees useARCAutoreleasePool fuel
        (releaseReturned N calloc sees useARCAutoreleasePool s)
    (if s.tls.returnRetained.isSome then cleanupPools fuel s else some s).map fun s => State.record s .freed

end Model

/-- A thread at its end, when nothing is accounted for yet. -/
def start (tls other : ArcTls (Reference Name)) (allocations : ℕ) : State Name :=
  ⟨tls, allocations, [], [], [], [], ⟨other, [], [], [], []⟩⟩

/-! ## Specification -/

/-- Nothing is left in the block, each reference that was in it or put into it was released or, if
    it was taken out again, handed on, and the block was freed once and not used afterwards. -/
structure CleanedUp (s s' : State Name) : Prop where
  drained : s'.pool = []
  returned : s'.tls.returnRetained = none
  conserved : ((s'.released ++ s'.world.displaced : List (Reference Name)) : Multiset (Reference Name)) =
    (entries s.pool ++ s.tls.returnRetained.toList ++ s'.world.stored ++ s'.autoreleased :
      List (Reference Name))
  once : ∃ before, s'.world.events = .freed :: before ∧ .freed ∉ before

/-- The cleanup of a thread ends, as it should. -/
def CleansUp (N : ℕ) (calloc : ℕ → List ℕ → ℕ) (sees useARCAutoreleasePool : Bool)
    (tls other : ArcTls (Reference Name)) (allocations : ℕ) : Prop :=
  ∃ bound, ∀ fuel ≥ bound, ∃ s', cleanupPools N calloc sees useARCAutoreleasePool fuel
  (start tls other allocations) = some s' ∧
    CleanedUp (start tls other allocations) s'

def Act.returns : Act Name → Bool
  | .autorelease .. => false
  | .autoreleaseReturnValue .. => true

/-- Releasing the object calls `objc_autoreleaseReturnValue`. -/
def Reference.returns (o : Reference Name) : Bool := o.onRelease.any Act.returns

/-! ## Sizes -/

mutual

/-- What a call may leave to be released, with the page it may take. -/
def Act.size : Act Name → ℕ
  | .autorelease _ onRelease => 2 + sizes onRelease
  | .autoreleaseReturnValue _ onRelease => 2 + sizes onRelease

def sizes : List (Act Name) → ℕ
  | [] => 0
  | a :: rest => a.size + sizes rest

end

def Reference.size (o : Reference Name) : ℕ := 1 + sizes o.onRelease

/-- Only the chain of pages keeps `emptyPool` going. -/
def noLoad : Option (Reference Name) → Outside Name → ℕ := fun _ _ => 0

/-! ## What a release does -/

section Calls

variable {N : ℕ} {calloc : ℕ → List ℕ → ℕ} {sees useARCAutoreleasePool : Bool}

/-- Work outside the chain. -/
theorem after_outside {s s' : State Name} {k : ℕ} (hok : ChainOk N s.pool) (hpool : s'.pool = s.pool)
    (hreleased : s'.released = s.released) (hautoreleased : s'.autoreleased = s.autoreleased)
    (hallocated : s'.allocated = s.allocated) (hfreed : s'.freed = s.freed) :
    After Reference.size noLoad N s s' k := by
  refine ⟨hpool ▸ Grown.refl _, hpool ▸ hok, ⟨?_, ?_⟩, ?_⟩
  · rw [hpool, hreleased, hautoreleased]
  · rw [hpool, hallocated, hfreed]
  · unfold remaining noLoad
    rw [hpool]
    omega

theorem autorelease_spec (hN : 0 < N) (hc : ∀ k, CallocFresh N (calloc k)) {s : State Name}
    (hok : ChainOk N s.pool)
    (o : Reference Name) :
    After Reference.size noLoad N s (autorelease N calloc sees useARCAutoreleasePool s o) (o.size + 1) := by
  unfold autorelease
  split
  · split
    · have hafter := autorelease_after Reference.size noLoad hN (hc s.allocations) hok o
      exact ⟨hafter.grown, hafter.ok, ⟨hafter.kept.refs, hafter.kept.pages⟩, hafter.left⟩
    · exact after_outside hok rfl rfl rfl rfl rfl
  · exact after_outside hok rfl rfl rfl rfl rfl

theorem act_spec (sees useARCAutoreleasePool : Bool) (hN : 0 < N)
    (hc : ∀ k, CallocFresh N (calloc k)) {s : State Name}
    (hok : ChainOk N s.pool) (a : Act Name) :
    After Reference.size noLoad N s (act N calloc sees useARCAutoreleasePool s a) a.size := by
  cases a with
  | autorelease name onRelease =>
    have hsize : Act.size (.autorelease name onRelease) = Reference.size ⟨name, onRelease⟩ + 1 := by
      rw [Act.size, Reference.size, Nat.add_right_comm]
    rw [hsize]
    exact autorelease_spec hN hc hok _
  | autoreleaseReturnValue name onRelease =>
    have hsize : Act.size (.autoreleaseReturnValue name onRelease) =
        Reference.size ⟨name, onRelease⟩ + 1 := by
      rw [Act.size, Reference.size, Nat.add_right_comm]
    rw [hsize]
    show After _ _ _ _ (autoreleaseReturnValue N calloc sees useARCAutoreleasePool s ⟨name, onRelease⟩) _
    unfold autoreleaseReturnValue
    split
    · exact autorelease_spec hN hc hok _
    · split <;> exact after_outside hok rfl rfl rfl rfl rfl

theorem foldl_act_spec (hN : 0 < N) (hc : ∀ k, CallocFresh N (calloc k)) :
    ∀ (acts : List (Act Name)) {s : State Name}, ChainOk N s.pool →
      After Reference.size noLoad N s (acts.foldl (act N calloc sees useARCAutoreleasePool) s) (sizes acts)
  | [], _, hok => After.refl hok
  | a :: rest, s, hok => by
    have hone := act_spec sees useARCAutoreleasePool hN hc hok a
    rw [sizes, List.foldl_cons]
    exact hone.trans (foldl_act_spec hN hc rest hone.ok)

theorem release_spec (sees useARCAutoreleasePool : Bool) (hN : 0 < N) (hc : ∀ k, CallocFresh N (calloc k))
    {s : State Name} (hok : ChainOk N s.pool) (o : Reference Name) :
    After Reference.size noLoad N s (release N calloc sees useARCAutoreleasePool s o) (o.size - 1) := by
  have hsize : o.size - 1 = sizes o.onRelease := by
    rw [Reference.size]
    omega
  rw [hsize]
  exact foldl_act_spec hN hc o.onRelease hok

theorem release_runOk (hN : 0 < N) (hc : ∀ k, CallocFresh N (calloc k)) (m : ℕ) :
    RunOk Reference.size (@noLoad Name) N
    (fun s o => some (release N calloc sees useARCAutoreleasePool s o)) m :=
  fun _ o hok _ => ⟨_, rfl, release_spec _ _ hN hc hok o⟩

/-- A call that does not put an object into the slot of the block. -/
def QuietAct (sees useARCAutoreleasePool : Bool) (a : Act Name) : Prop :=
  sees = false ∨ useARCAutoreleasePool = true ∨ a.returns = false

/-- Releasing the object puts nothing into the slot of the block. -/
def Quiet (sees useARCAutoreleasePool : Bool) (o : Reference Name) : Prop :=
  sees = false ∨ useARCAutoreleasePool = true ∨ o.returns = false

theorem Quiet.act {o : Reference Name} (h : Quiet sees useARCAutoreleasePool o) :
    ∀ a ∈ o.onRelease, QuietAct sees useARCAutoreleasePool a := by
  intro a ha
  refine h.imp_right (Or.imp_right fun hreturns => ?_)
  simp only [Reference.returns, List.any_eq_false, Bool.not_eq_true] at hreturns
  exact hreturns a ha

/-- What the releases of quiet objects leave alone. -/
structure Undisturbed (sees useARCAutoreleasePool : Bool) (s s' : State Name) : Prop where
  slot : s'.tls.returnRetained = s.tls.returnRetained
  stored : s'.world.stored = s.world.stored
  displaced : s'.world.displaced = s.world.displaced
  unfreed : .freed ∉ s.world.events → .freed ∉ s'.world.events
  quiet : (∀ o ∈ entries s.pool, Quiet sees useARCAutoreleasePool o) →
    ∀ o ∈ entries s'.pool, Quiet sees useARCAutoreleasePool o

theorem Undisturbed.refl (s : State Name) : Undisturbed sees useARCAutoreleasePool s s :=
  ⟨rfl, rfl, rfl, id, id⟩

theorem Undisturbed.trans {s s' s'' : State Name} (h : Undisturbed sees useARCAutoreleasePool s s')
    (h' : Undisturbed sees useARCAutoreleasePool s' s'') : Undisturbed sees useARCAutoreleasePool s s'' :=
  ⟨h'.slot.trans h.slot, h'.stored.trans h.stored, h'.displaced.trans h.displaced, h'.unfreed ∘ h.unfreed,
    h'.quiet ∘ h.quiet⟩

theorem autorelease_undisturbed (s : State Name) (o : Reference Name) :
    Undisturbed sees useARCAutoreleasePool s (autorelease N calloc sees useARCAutoreleasePool s o) := by
  unfold autorelease
  split
  · rename_i harc
    split
    · refine ⟨autorelease_returnRetained s o, rfl, rfl, fun h => ?_, fun _ _ _ => .inr (.inl harc)⟩
      show .freed ∉ .used :: s.world.events
      simpa using h
    · exact ⟨rfl, rfl, rfl, id, id⟩
  · exact ⟨rfl, rfl, rfl, id, id⟩

theorem act_undisturbed (s : State Name) {a : Act Name} (ha : QuietAct sees useARCAutoreleasePool a) :
    Undisturbed sees useARCAutoreleasePool s (act N calloc sees useARCAutoreleasePool s a) := by
  cases a with
  | autorelease name onRelease => exact autorelease_undisturbed s _
  | autoreleaseReturnValue name onRelease =>
    show Undisturbed _ _ s (autoreleaseReturnValue N calloc sees useARCAutoreleasePool s ⟨name, onRelease⟩)
    unfold autoreleaseReturnValue
    split
    · exact autorelease_undisturbed s _
    · rename_i harc
      split
      · rename_i hsees
        rcases ha with h | h | h
        · exact absurd (h.symm.trans hsees) (by simp)
        · exact absurd h harc
        · exact absurd h (by simp [Act.returns])
      · exact ⟨rfl, rfl, rfl, id, id⟩

theorem foldl_act_undisturbed : ∀ (acts : List (Act Name)) (s : State Name),
    (∀ a ∈ acts, QuietAct sees useARCAutoreleasePool a) →
    Undisturbed sees useARCAutoreleasePool s (acts.foldl (act N calloc sees useARCAutoreleasePool) s)
  | [], s, _ => Undisturbed.refl s
  | a :: rest, s, h =>
    (act_undisturbed s (h a (List.mem_cons_self ..))).trans
      (foldl_act_undisturbed rest _ fun b hb => h b (List.mem_cons_of_mem _ hb))

variable (N calloc) in
theorem release_undisturbed (s : State Name) {o : Reference Name} (ho : Quiet sees useARCAutoreleasePool o) :
    Undisturbed sees useARCAutoreleasePool s (release N calloc sees useARCAutoreleasePool s o) :=
  foldl_act_undisturbed o.onRelease s ho.act

end Calls

/-! ## Draining the pools -/

section Pools

variable {N : ℕ} {calloc : ℕ → List ℕ → ℕ} {sees useARCAutoreleasePool : Bool}

/-- The pools are drained, whatever the objects do. -/
theorem drainPools_spec (sees useARCAutoreleasePool : Bool) (hN : 0 < N) (hc : ∀ k, CallocFresh N (calloc k))
    {s : State Name} (hok : ChainOk N s.pool) {fuel : ℕ}
    (hfuel : remaining Reference.size noLoad s + 3 ≤ fuel) :
    ∃ s', drainPools N calloc sees useARCAutoreleasePool fuel s = some s' ∧ s'.pool = [] ∧ Kept s s' := by
  unfold drainPools
  by_cases hempty : s.pool = []
  · rw [if_pos hempty]
    exact ⟨_, rfl, hempty, ⟨rfl, rfl⟩⟩
  · rw [if_neg hempty]
    obtain ⟨s', hs', hpool, -, hkept, -⟩ :=
        emptyPool_null (release_runOk hN hc (remaining Reference.size noLoad s))
      (fun o => Nat.lt_of_lt_of_le Nat.one_pos (Nat.le_add_right 1 _)) hok le_rfl hfuel
    refine ⟨State.record s' .used, ?_, hpool, ⟨hkept.refs, hkept.pages⟩⟩
    rw [hs']
    rfl

/-- What the releases and the freed pages preserve, draining the pools preserves. -/
theorem drainPools_keeps {I : State Name → Prop}
    (hrelease : ReleaseKeeps (fun s o => some (release N calloc sees useARCAutoreleasePool s o)) I)
    (hfree : FreeKeeps I)
    (hrecord : ∀ s : State Name, I s → I (s.record .used)) {fuel : ℕ} {s s' : State Name}
    (hs : drainPools N calloc sees useARCAutoreleasePool fuel s = some s') (hI : I s) : I s' := by
  unfold drainPools at hs
  split at hs
  · exact Option.some.inj hs ▸ hrecord s hI
  · obtain ⟨s₁, hs₁, rfl⟩ := Option.map_eq_some_iff.mp hs
    exact hrecord s₁ (emptyPool_keeps hrelease hfree hs₁ hI)

/-- Draining pools of quiet objects leaves the slot alone. -/
theorem drainPools_undisturbed {fuel : ℕ} {s s' : State Name}
    (hquiet : ∀ o ∈ entries s.pool, Quiet sees useARCAutoreleasePool o)
    (hs : drainPools N calloc sees useARCAutoreleasePool fuel s = some s') :
    Undisturbed sees useARCAutoreleasePool s s' := by
  refine (drainPools_keeps (I := fun t => Undisturbed sees useARCAutoreleasePool s t) ?_ ?_ ?_ hs
      (Undisturbed.refl s))
  · intro t p previous o os t' hpool hobjs ht ht'
    have hall := ht.quiet hquiet
    rw [hpool] at hall
    have hpopped : Undisturbed sees useARCAutoreleasePool t (t.popEntry p previous o os) :=
      ⟨rfl, rfl, rfl, id, fun h q hq => h q (by
        rw [hpool]
        simp only [Drain.popEntry, Drain.setPool, entries, List.flatMap_cons, hobjs] at hq ⊢
        exact List.mem_cons_of_mem o hq)⟩
    have ho : Quiet sees useARCAutoreleasePool o := hall o (by simp [entries, hobjs])
    exact Option.some.inj ht' ▸ (ht.trans hpopped).trans (release_undisturbed N calloc _ ho)
  · intro t p previous hpool hobjs ht
    refine ht.trans ⟨rfl, rfl, rfl, id, fun h q hq => h q ?_⟩
    have hq : q ∈ entries previous := hq
    rw [hpool]
    simpa [entries, hobjs] using hq
  · exact fun t ht => ht.trans ⟨rfl, rfl, rfl, fun h => by simpa [State.record] using h, id⟩

end Pools

/-! ## Cleanups of quiet objects -/

section Clean

variable {N : ℕ} {calloc : ℕ → List ℕ → ℕ} {sees useARCAutoreleasePool : Bool}

variable (N calloc sees useARCAutoreleasePool) in
theorem releaseReturned_slot (s : State Name) :
    (releaseReturned N calloc sees useARCAutoreleasePool s).tls.returnRetained = none := by
  unfold releaseReturned
  cases hslot : s.tls.returnRetained with
  | none => exact hslot
  | some o => rfl

/-- The object in the slot is released, and its calls are made. -/
theorem releaseReturned_after (sees useARCAutoreleasePool : Bool) (hN : 0 < N)
    (hc : ∀ k, CallocFresh N (calloc k)) {s : State Name}
    (hok : ChainOk N s.pool) :
    ∃ k, After Reference.size noLoad N { s with released := s.tls.returnRetained.toList ++ s.released }
      (releaseReturned N calloc sees useARCAutoreleasePool s) k := by
  unfold releaseReturned
  cases hslot : s.tls.returnRetained with
  | none => exact ⟨0, Grown.refl _, hok, ⟨rfl, rfl⟩, le_rfl⟩
  | some o =>
    have hafter := release_spec sees useARCAutoreleasePool hN hc
      (s := State.record { s with released := o :: s.released } .used) hok o
    exact ⟨_, hafter.grown, hafter.ok, ⟨hafter.kept.refs, hafter.kept.pages⟩, hafter.left⟩

variable (N calloc) in
theorem releaseReturned_undisturbed {s : State Name}
    (hquiet : ∀ o ∈ s.tls.returnRetained, Quiet sees useARCAutoreleasePool o) :
    Undisturbed sees useARCAutoreleasePool (s.setReturnRetained none)
      (releaseReturned N calloc sees useARCAutoreleasePool s) := by
  unfold releaseReturned
  cases hslot : s.tls.returnRetained with
  | none => exact ⟨hslot, rfl, rfl, fun h => by simpa [State.record, State.setReturnRetained] using h, id⟩
  | some o =>
    have hkept := release_undisturbed N calloc
      (State.record { s with released := o :: s.released } .used) (hquiet o hslot)
    refine ⟨rfl, hkept.stored, hkept.displaced, fun h => ?_, hkept.quiet⟩
    have hused : .freed ∉ (State.record { s with released := o :: s.released } .used).world.events := by
      simpa [State.record, State.setReturnRetained] using h
    simpa [State.record, State.setReturnRetained] using hkept.unfreed hused

theorem cleanupPools_of_slot {fuel : ℕ} {s s₂ : State Name}
    (hdrain : drainPools N calloc sees useARCAutoreleasePool fuel
      (releaseReturned N calloc sees useARCAutoreleasePool s) = some s₂)
      (hslot : s₂.tls.returnRetained = none) :
    cleanupPools N calloc sees useARCAutoreleasePool (fuel + 1) s = some (s₂.record .freed) := by
  show (drainPools N calloc sees useARCAutoreleasePool fuel
    (releaseReturned N calloc sees useARCAutoreleasePool s)).bind _ = _
  rw [hdrain, Option.bind_some, hslot]
  rfl

/-- What a cleanup releases when the slot is empty after the pools are drained. -/
theorem cleanup_accounts {tls other : ArcTls (Reference Name)} {k n : ℕ} {s₁ s₂ : State Name}
    (hafter : After Reference.size noLoad N
      { start tls other k with released := tls.returnRetained.toList } s₁ n)
    (hkept : Kept s₁ s₂) (hempty : s₂.pool = []) :
    ((s₂.released : List (Reference Name)) : Multiset (Reference Name)) =
      (entries tls.pool ++ tls.returnRetained.toList ++ s₂.autoreleased : List (Reference Name)) := by
  have hrefs := (hafter.kept.trans hkept).refs
  rw [hempty] at hrefs
  simp only [start, Multiset.coe_nil, add_zero, Multiset.coe_add] at hrefs
  exact hrefs

/-- Quiet objects are cleaned up. -/
theorem cleansUp_of_quiet (hN : 0 < N) (hc : ∀ k, CallocFresh N (calloc k))
    {tls other : ArcTls (Reference Name)}
    {k : ℕ} (hok : ChainOk N tls.pool)
    (hquiet : ∀ o ∈ tls.returnRetained.toList ++ entries tls.pool, Quiet sees useARCAutoreleasePool o) :
    CleansUp N calloc sees useARCAutoreleasePool tls other k := by
  obtain ⟨s₁, hs₁⟩ : ∃ s₁, s₁ = releaseReturned N calloc sees useARCAutoreleasePool
      (start tls other k) := ⟨_, rfl⟩
  obtain ⟨n, hafter⟩ := releaseReturned_after sees useARCAutoreleasePool hN hc
    (s := start tls other k) hok
  have hstill := releaseReturned_undisturbed N calloc (s := start tls other k) fun o ho =>
    hquiet o (List.mem_append_left _ (Option.mem_toList.mpr ho))
  have hslot₁ := releaseReturned_slot N calloc sees useARCAutoreleasePool (start tls other k)
  rw [← hs₁] at hafter hstill hslot₁
  have hentries₁ := hstill.quiet fun o ho => hquiet o (List.mem_append_right _ ho)
  refine ⟨remaining Reference.size noLoad s₁ + 4, fun fuel hfuel => ?_⟩
  obtain ⟨fuel, rfl⟩ : ∃ f, fuel = f + 1 := ⟨fuel - 1, by omega⟩
  obtain ⟨s₂, hs₂, hempty, hkept⟩ := drainPools_spec sees useARCAutoreleasePool hN hc hafter.ok
      (show remaining Reference.size noLoad s₁ + 3 ≤ fuel by omega)
  have hstill₂ := drainPools_undisturbed hentries₁ hs₂
  have hslot₂ : s₂.tls.returnRetained = none := hstill₂.slot.trans hslot₁
  refine ⟨s₂.record .freed, cleanupPools_of_slot (hs₁ ▸ hs₂) hslot₂, hempty, hslot₂, ?_,
      s₂.world.events, rfl, ?_⟩
  · have hstored : s₂.world.stored = [] := hstill₂.stored.trans hstill.stored
    have hdisplaced : s₂.world.displaced = [] := hstill₂.displaced.trans hstill.displaced
    show ((s₂.released ++ s₂.world.displaced : List (Reference Name)) : Multiset (Reference Name)) =
      (entries tls.pool ++ tls.returnRetained.toList ++ s₂.world.stored ++ s₂.autoreleased :
        List (Reference Name))
    rw [hstored, hdisplaced, List.append_nil, List.append_nil]
    exact cleanup_accounts (by simpa [start] using hafter) hkept hempty
  · exact hstill₂.unfreed (hstill.unfreed (by simp [start, State.setReturnRetained]))

end Clean

/-! ## Cleanups of objects that return others -/

section Returning

variable {N : ℕ} {calloc : ℕ → List ℕ → ℕ}

/-- What calls that work on the slot of the block leave: the pools as they were, and in the slot, if
    they returned anything, the last object that they returned. -/
structure SlotAfter (acts : List (Act Name)) (s s' : State Name) : Prop where
  pool : s'.pool = s.pool
  balance : ((s'.world.stored ++ s.tls.returnRetained.toList ++ s.world.displaced : List (Reference Name)) :
    Multiset (Reference Name)) =
    (s.world.stored ++ s'.tls.returnRetained.toList ++ s'.world.displaced : List (Reference Name))
  same : acts.any Act.returns = false → s'.tls.returnRetained = s.tls.returnRetained
  last : acts.any Act.returns = true → ∃ x, s'.tls.returnRetained = some x ∧ x.size ≤ sizes acts

theorem balance_store {α : Type*} {r : α} {a b c d e f : Multiset α}
    (h : a + r ::ₘ ([] : List α) + (b + c) = r ::ₘ (d + e + f)) : a + b + c = d + e + f := by
  refine (Multiset.cons_inj_right r).mp ?_
  rw [← h]
  simp only [Multiset.coe_nil, Multiset.add_cons, Multiset.cons_add, add_zero, add_assoc]

variable (N calloc) in
theorem foldl_act_slot : ∀ (acts : List (Act Name)) (s : State Name),
    SlotAfter acts s (acts.foldl (act N calloc true false) s)
  | [], s => ⟨rfl, rfl, fun _ => rfl, fun h => absurd h (by simp)⟩
  | .autorelease name onRelease :: rest, s => by
    have ih := foldl_act_slot rest (act N calloc true false s (.autorelease name onRelease))
    rw [List.foldl_cons]
    refine ⟨ih.pool, ih.balance, fun h => ih.same (by simpa [Act.returns] using h), fun h => ?_⟩
    obtain ⟨x, hx, hsize⟩ := ih.last (by simpa [Act.returns] using h)
    exact ⟨x, hx, hsize.trans (by rw [sizes]; omega)⟩
  | .autoreleaseReturnValue name onRelease :: rest, s => by
    have ih := foldl_act_slot rest (act N calloc true false s (.autoreleaseReturnValue name onRelease))
    rw [List.foldl_cons]
    have hcost : sizes (.autoreleaseReturnValue name onRelease :: rest) =
        2 + sizes onRelease + sizes rest := by
      rw [sizes, Act.size]
    refine ⟨ih.pool, ?_, fun h => absurd h (by simp [Act.returns]), fun _ => ?_⟩
    · -- the object is put into the slot, and what was there is handed on
      have hbalance := ih.balance
      have hstored : (act N calloc true false s (.autoreleaseReturnValue name onRelease)).world.stored =
        ⟨name, onRelease⟩ :: s.world.stored := rfl
      have hdisplaced : (act N calloc true false s (.autoreleaseReturnValue name onRelease)).world.displaced =
        s.tls.returnRetained.toList ++ s.world.displaced := rfl
      have hslot : (act N calloc true false s
          (.autoreleaseReturnValue name onRelease)).tls.returnRetained.toList =
        [⟨name, onRelease⟩] := rfl
      rw [hstored, hdisplaced, hslot] at hbalance
      simp only [← Multiset.coe_add, ← Multiset.cons_coe, Multiset.cons_add] at hbalance ⊢
      exact balance_store hbalance
    · by_cases hrest : rest.any Act.returns = true
      · obtain ⟨x, hx, hsize⟩ := ih.last hrest
        exact ⟨x, hx, by omega⟩
      · refine ⟨⟨name, onRelease⟩, ih.same (by simpa using hrest), ?_⟩
        have hsize : Reference.size ⟨name, onRelease⟩ = 1 + sizes onRelease := rfl
        omega

/-- An object that returns another leaves the slot in use; no release empties it. -/
theorem release_slot {s : State Name} {o : Reference Name}
    (h : o.returns = true ∨ s.tls.returnRetained ≠ none) :
    (release N calloc true false s o).tls.returnRetained ≠ none := by
  have hafter := foldl_act_slot N calloc o.onRelease s
  by_cases hreturns : o.returns = true
  · obtain ⟨x, hx, -⟩ := hafter.last hreturns
    show (o.onRelease.foldl (act N calloc true false) s).tls.returnRetained ≠ none
    rw [hx]
    simp
  · show (o.onRelease.foldl (act N calloc true false) s).tls.returnRetained ≠ none
    rw [hafter.same (Bool.not_eq_true _ ▸ hreturns)]
    exact h.resolve_left hreturns

theorem release_pool (s : State Name) (o : Reference Name) :
    (release N calloc true false s o).pool = s.pool :=
  (foldl_act_slot N calloc o.onRelease s).pool

theorem releaseReturned_pool (s : State Name) : (releaseReturned N calloc true false s).pool = s.pool := by
  unfold releaseReturned
  cases s.tls.returnRetained with
  | none => rfl
  | some o => exact release_pool (State.record { s with released := o :: s.released } .used) o

variable (N calloc) in
/-- An object that returns another while it is released from the slot: what it returned last is
    overwritten. -/
theorem releaseReturned_lost {s : State Name} {o : Reference Name} (hslot : s.tls.returnRetained = some o)
    (hreturns : o.returns = true) :
    ∃ x : Reference Name, x.size < o.size ∧
      (((releaseReturned N calloc true false s).world.stored ++ [o] ++ s.world.displaced :
        List (Reference Name)) :
        Multiset (Reference Name)) =
        (s.world.stored ++ [x] ++ (releaseReturned N calloc true false s).world.displaced :
          List (Reference Name)) := by
  have hafter := foldl_act_slot N calloc o.onRelease
    (State.record { s with released := o :: s.released } .used)
  obtain ⟨x, hx, hsize⟩ := hafter.last hreturns
  refine ⟨x, Nat.lt_of_le_of_lt hsize (Nat.lt_add_of_pos_left Nat.one_pos), ?_⟩
  have hbalance := hafter.balance
  rw [hx, show (State.record { s with released := o :: s.released } .used).tls.returnRetained =
    some o from hslot] at hbalance
  unfold releaseReturned
  rw [hslot]
  exact hbalance

/-- Once the pools are drained, the slot is in use if an object in them returned another. -/
theorem drainPools_slot {fuel : ℕ} {s s' : State Name} {o : Reference Name} (ho : o ∈ entries s.pool)
    (hreturns : o.returns = true) (hs : drainPools N calloc true false fuel s = some s')
    (hempty : s'.pool = []) :
    s'.tls.returnRetained ≠ none := by
  have hinv : o ∈ entries s'.pool ∨ s'.tls.returnRetained ≠ none := by
    refine drainPools_keeps (I := fun t => o ∈ entries t.pool ∨ t.tls.returnRetained ≠ none) ?_ ?_
        ?_ hs (.inl ho)
    · intro t p previous x xs t' hpool hobjs ht ht'
      obtain rfl := Option.some.inj ht'
      rcases ht with hmem | hslot
      · rw [hpool] at hmem
        simp only [entries, List.flatMap_cons, hobjs, List.cons_append, List.mem_cons] at hmem
        rcases hmem with rfl | hmem
        · exact .inr (release_slot (.inl hreturns))
        · refine .inl ?_
          rw [release_pool]
          show o ∈ entries ({ p with objs := xs } :: previous)
          simpa [entries] using hmem
      · exact .inr (release_slot (.inr hslot))
    · intro t p previous hpool hobjs ht
      refine ht.imp_left fun hmem => ?_
      rw [hpool] at hmem
      simpa [Drain.freePage, Drain.setPool, entries, hobjs] using hmem
    · exact fun t ht => ht
  refine hinv.resolve_left ?_
  rw [hempty]
  simp [entries]

theorem cleanupPools_freed {sees useARCAutoreleasePool : Bool} {fuel : ℕ} {s s' : State Name}
    (hs : cleanupPools N calloc sees useARCAutoreleasePool fuel s = some s') :
    ∃ before, s'.world.events = .freed :: before := by
  cases fuel with
  | zero => exact absurd hs (by simp [cleanupPools])
  | succ fuel =>
    unfold cleanupPools at hs
    obtain ⟨s₁, -, hs⟩ := Option.bind_eq_some_iff.mp hs
    obtain ⟨s₂, -, rfl⟩ := Option.map_eq_some_iff.mp hs
    exact ⟨s₂.world.events, rfl⟩

/-- A slot in use after the pools are drained: the block is freed inside and again outside. -/
theorem not_cleanedUp_of_slot {sees useARCAutoreleasePool : Bool} {fuel : ℕ} {s s₂ s' : State Name}
    (hdrain : drainPools N calloc sees useARCAutoreleasePool fuel
      (releaseReturned N calloc sees useARCAutoreleasePool s) = some s₂)
      (hslot : s₂.tls.returnRetained ≠ none)
    (hs : cleanupPools N calloc sees useARCAutoreleasePool (fuel + 1) s = some s')
    (t : State Name) : ¬ CleanedUp t s' := by
  intro hclean
  have hs : (drainPools N calloc sees useARCAutoreleasePool fuel
    (releaseReturned N calloc sees useARCAutoreleasePool s)).bind (fun s =>
      (if s.tls.returnRetained.isSome then cleanupPools N calloc sees useARCAutoreleasePool fuel s
        else some s).map
        fun s => State.record s .freed) = some s' := hs
  rw [hdrain, Option.bind_some, if_pos (Option.isSome_iff_ne_none.mpr hslot)] at hs
  obtain ⟨s₃, hs₃, rfl⟩ := Option.map_eq_some_iff.mp hs
  obtain ⟨inner, hinner⟩ := cleanupPools_freed hs₃
  obtain ⟨before, hbefore, hfresh⟩ := hclean.once
  have hevents : BlockEvent.freed :: s₃.world.events = .freed :: before := hbefore
  rw [hinner] at hevents
  exact hfresh (List.cons.inj hevents |>.2 ▸ List.mem_cons_self ..)

/-- Where the objects work on the slot of the block, one that returns another spoils the cleanup. -/
theorem not_cleansUp (hN : 0 < N) (hc : ∀ k, CallocFresh N (calloc k))
    {tls other : ArcTls (Reference Name)} {k : ℕ}
    (hok : ChainOk N tls.pool) {o : Reference Name} (ho : o ∈ tls.returnRetained.toList ++ entries tls.pool)
    (hreturns : o.returns = true) : ¬ CleansUp N calloc true false tls other k := by
  rintro ⟨bound, hclean⟩
  obtain ⟨s₁, hs₁⟩ : ∃ s₁, s₁ = releaseReturned N calloc true false (start tls other k) := ⟨_, rfl⟩
  obtain ⟨n, hafter⟩ := releaseReturned_after true false hN hc
    (s := start tls other k) hok
  rw [← hs₁] at hafter
  obtain ⟨fuel, hfuel⟩ : ∃ fuel, fuel = max bound (remaining Reference.size noLoad s₁ + 3) := ⟨_, rfl⟩
  obtain ⟨s', hs', hcleaned⟩ := hclean (fuel + 1) (by omega)
  obtain ⟨s₂, hs₂, hempty, hkept⟩ := drainPools_spec true false hN hc hafter.ok
    (show remaining Reference.size noLoad s₁ + 3 ≤ fuel by omega)
  have hpool₁ : s₁.pool = tls.pool := hs₁ ▸ releaseReturned_pool _
  by_cases hslot₂ : s₂.tls.returnRetained = none
  · -- no object of the pools returned another, so the one in the slot did, and that one is lost
    have hquiet : ∀ q ∈ entries s₁.pool, q.returns = false := by
      intro q hq
      by_contra hq'
      exact drainPools_slot hq (Bool.not_eq_false _ ▸ hq') hs₂ hempty hslot₂
    have hslot : tls.returnRetained = some o := by
      rcases List.mem_append.mp ho with hmem | hmem
      · exact Option.mem_toList.mp hmem
      · exact absurd hreturns (by rw [hquiet o (hpool₁ ▸ hmem)]; simp)
    have hstill := drainPools_undisturbed (fun q hq => .inr (.inr (hquiet q hq))) hs₂
    obtain ⟨x, hsize, hbalance⟩ := releaseReturned_lost N calloc (s := start tls other k) hslot hreturns
    have haccounts := cleanup_accounts (by simpa [start] using hafter) hkept hempty
    have hconserved := hcleaned.conserved
    rw [Option.some.inj (hs'.symm.trans (cleanupPools_of_slot (hs₁ ▸ hs₂) hslot₂))] at hconserved
    have hconserved : ((s₂.released ++ s₂.world.displaced : List (Reference Name)) :
        Multiset (Reference Name)) =
      (entries tls.pool ++ tls.returnRetained.toList ++ s₂.world.stored ++ s₂.autoreleased :
        List (Reference Name)) :=
      hconserved
    rw [hstill.stored, hstill.displaced, hs₁] at hconserved
    simp only [← Multiset.coe_add] at haccounts hconserved hbalance
    rw [haccounts] at hconserved
    have hsame : ((releaseReturned N calloc true false (start tls other k)).world.displaced :
        Multiset (Reference Name)) =
        (releaseReturned N calloc true false (start tls other k)).world.stored := by
      refine add_left_cancel (a := (entries tls.pool + tls.returnRetained.toList + s₂.autoreleased :
        Multiset (Reference Name))) ?_
      rw [hconserved]
      abel
    rw [hsame] at hbalance
    have hone : ({o} : Multiset (Reference Name)) = {x} := by
      refine add_left_cancel (a := ((releaseReturned N calloc true false (start tls other k)).world.stored :
        Multiset (Reference Name))) ?_
      simpa [start, add_comm] using hbalance
    exact absurd hsize (by rw [Multiset.singleton_inj.mp hone]; exact Nat.lt_irrefl _)
  · exact not_cleanedUp_of_slot (hs₁ ▸ hs₂) hslot₂ hs' _ hcleaned

end Returning

end Libobjc2.Memory.Draining.Cleanup
