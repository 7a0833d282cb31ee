import Libobjc2.Common.Run
import Libobjc2.Memory.ReferenceList

/-!
# Hidden classes and the destruction of objects (`src/memory/associate.mm`, lines 261–413, 497–581, and
`call_cxx_destruct`, `src/runtime/runtime.c`, lines 37–56)

An object gets a hidden class with its first association or method of its own, and a clone is an instance
of the hidden class of its prototype, with a hidden class of its own below that one. `call_cxx_destruct`
walks up the classes of an object; the `.cxx_destruct` of every hidden class is `deallocHiddenClass`, which
frees the first hidden class that it finds from the `isa` of the object on and moves the `isa` up. The
associations that are released there may be the last references to other objects, whose destructors then
run inside; so the walks in progress form a stack.

A hidden class is one block of the heap here, with its references, its table and its methods.

Result:
* `walk_frees_chain`: in every run each completed walk has freed exactly the hidden classes from the class
  of the object on, its own one and those of its prototypes.
-/

namespace Libobjc2.Memory.HiddenClasses

open Libobjc2.Common
open AssociationSlot (Policy)
open Associations (Reference ReferenceList setReference publishReference ownedBy)

/-! ## Model -/

/-- A class of the program or of an image, or a hidden class. -/
inductive Class where
  | plain (c : ℕ)
  | hidden (h : ℕ)
  deriving DecidableEq

/-- The superclasses of the plain classes. -/
structure Hierarchy where
  superClass : ℕ → Option ℕ
  descends : ∀ c d, superClass c = some d → d < c

/-- What `allocateHiddenClass` allocates. `owner` is the object that it was made for. -/
structure HiddenClass (Key : Type) where
  superClass : Class
  owner : ℕ
  references : ReferenceList Key ℕ
  dtable : Bool
  methods : List ℕ
  deriving DecidableEq

/-- What is in progress: `call_cxx_destruct`, with the class that is next; `deallocHiddenClass` inside of
    it, with the slot that is next and the class behind; the removal of the associations of an object; and
    the releases at the end of a set. `start` is the class with which a walk began, and `freed` are the
    hidden classes that it has freed. -/
inductive Frame where
  | walking (obj : ℕ) (cls : Option Class) (start : Class) (freed : List ℕ)
  | cleaning (obj h i : ℕ) (cls start : Class) (freed : List ℕ)
  | removing (obj h i : ℕ)
  | releasing (pending : List ℕ)
  deriving DecidableEq

/-- A completed walk. -/
structure Destroyed where
  obj : ℕ
  start : Class
  freed : List ℕ
  deriving DecidableEq

/-- Objects and hidden classes are numbered as they are allocated. `owned` are the references that the
    program holds, of those that `count` counts; `superOf` and `ownerOf` are the superclass that each hidden
    class was made with and the object that it was made for. -/
structure State (Key : Type) where
  objects : ℕ
  isa : ℕ → Class
  count : ℕ → ℕ
  owned : ℕ → ℕ
  heap : ℕ → Option (HiddenClass Key)
  superOf : ℕ → Class
  ownerOf : ℕ → ℕ
  classCount : ℕ
  subclassList : Class → List ℕ
  frames : List Frame
  destroyed : List Destroyed

variable {Key : Type}

def State.initial : State Key where
  objects := 0
  isa _ := .plain 0
  count _ := 0
  owned _ := 0
  heap _ := none
  superOf _ := .plain 0
  ownerOf _ := 0
  classCount := 0
  subclassList _ := []
  frames := []
  destroyed := []

/-- The number of `.cxx_destruct` among the methods. -/
def cxxDestruct : ℕ := 0

/-- `initHiddenClassForObject` (lines 299–322), when nothing fails. -/
def State.initHiddenClass (σ : State Key) (obj : ℕ) : State Key :=
  let superclass := σ.isa obj
  { σ with
    heap := Function.update σ.heap σ.classCount (some ⟨superclass, obj, .new, false, [cxxDestruct]⟩)
    superOf := Function.update σ.superOf σ.classCount superclass
    ownerOf := Function.update σ.ownerOf σ.classCount obj
    classCount := σ.classCount + 1
    subclassList := Function.update σ.subclassList superclass (σ.classCount :: σ.subclassList superclass)
    isa := Function.update σ.isa obj (.hidden σ.classCount) }

/-- `findHiddenClass` (lines 261–270): nothing above a plain class is hidden. -/
def State.findHiddenClass (σ : State Key) (obj : ℕ) : Option ℕ :=
  match σ.isa obj with
  | .hidden h => some h
  | .plain _ => none

/-- `hiddenClassForObject` and `referenceListForObject(object, YES)` (lines 367–403, 532–553). -/
def State.hiddenClassForObject (σ : State Key) (obj : ℕ) : State Key :=
  if (σ.findHiddenClass obj).isSome then σ else σ.initHiddenClass obj

/-- `objc_release`: with the last reference the object is deallocated, and its destructors begin to run.
    There is no result when the object is gone already. -/
def State.release (σ : State Key) (v : ℕ) : Option (State Key) :=
  match σ.count v with
  | 0 => none
  | 1 => some { σ with
      count := Function.update σ.count v 0
      frames := .walking v (some (σ.isa v)) (σ.isa v) [] :: σ.frames }
  | n + 2 => some { σ with count := Function.update σ.count v (n + 1) }

def State.releaseIf (σ : State Key) : Option ℕ → Option (State Key)
  | none => some σ
  | some v => σ.release v

def State.setReferences (σ : State Key) (h : ℕ) (cls : HiddenClass Key) (references : ReferenceList Key ℕ) :
    State Key :=
  { σ with heap := Function.update σ.heap h (some { cls with references := references }) }

/-- One round of `cleanupReferenceList` (lines 157–166). -/
def State.clearSlot (σ : State Key) (h : ℕ) (cls : HiddenClass Key) (i : ℕ) (r : Reference Key ℕ) :
    Option (State Key) :=
  if r.key.isNone then some σ
  else (σ.setReferences h cls { cls.references with
    list := publishReference cls.references.list i .zeroed }).releaseIf r.owned

/-- `deallocHiddenClass` from line 333 on: the table and the methods go with the class. The assertion stops
    the program. -/
def State.freeHiddenClass (σ : State Key) (obj h : ℕ) (cls : HiddenClass Key) : Option (State Key) :=
  if σ.subclassList (.hidden h) ≠ [] then none
  else some { σ with
    subclassList := Function.update σ.subclassList cls.superClass ((σ.subclassList cls.superClass).erase h)
    isa := Function.update σ.isa obj cls.superClass
    heap := Function.update σ.heap h none }

/-- The next step of what is in progress. A freed class that is used, or a failed assertion, has no next
    step. -/
def State.run (H : Hierarchy) (σ : State Key) : Option (State Key) :=
  match σ.frames with
  | [] => some σ
  | .walking obj none start freed :: frames =>
    some { σ with frames := frames, destroyed := ⟨obj, start, freed⟩ :: σ.destroyed }
  | .walking obj (some (.plain c)) start freed :: frames =>
    some { σ with frames := .walking obj ((H.superClass c).map .plain) start freed :: frames }
  | .walking obj (some (.hidden h)) start freed :: frames => do
    let cls ← σ.heap h
    let hiddenClass ← σ.findHiddenClass obj
    let found ← σ.heap hiddenClass
    some { (σ.setReferences hiddenClass found { found.references with deallocating := true }) with
      frames := .cleaning obj hiddenClass 0 cls.superClass start freed :: frames }
  | .cleaning obj h i next start freed :: frames => do
    let cls ← σ.heap h
    match cls.references.list[i]? with
    | some r => ({ σ with frames := .cleaning obj h (i + 1) next start freed :: frames } : State Key).clearSlot h cls i r
    | none =>
      ({ σ with frames := .walking obj (some next) start (freed ++ [h]) :: frames } : State Key).freeHiddenClass obj h cls
  | .removing obj h i :: frames => do
    let cls ← σ.heap h
    match cls.references.list[i]? with
    | some r => ({ σ with frames := .removing obj h (i + 1) :: frames } : State Key).clearSlot h cls i r
    | none => some (({ σ with frames := frames } : State Key).setReferences h cls { cls.references with removing := false })
  | .releasing [] :: frames => some { σ with frames := frames }
  | .releasing (v :: pending) :: frames => ({ σ with frames := .releasing pending :: frames } : State Key).release v

/-- What the program does, and the next step of what is in progress. `obj` of a set is what `-copy` or
    `-retain` returned; `fails` is whether an allocation fails. -/
inductive Action (Key : Type) where
  | new (c : ℕ)
  | retain (obj : ℕ)
  | release (obj : ℕ)
  | set (obj : ℕ) (key : Option Key) (value : Option ℕ) (policy : Policy) (fails : Bool)
  | remove (obj : ℕ)
  | addMethod (obj method : ℕ)
  | install (h : ℕ)
  | clone (obj : ℕ) (fails : Bool)
  | run

section Steps

variable [DecidableEq Key] (H : Hierarchy) (prototypeKey : Key)

/-- The counts after `prepareReferenceValue`. -/
def countRetained (count : ℕ → ℕ) : Option ℕ → ℕ → ℕ
  | none => count
  | some v => Function.update count v (count v + 1)

/-- `objc_setAssociatedObject` (lines 405–413). -/
def State.setAssociatedObject (σ : State Key) (obj : ℕ) (key : Option Key) (value : Option ℕ) (policy : Policy)
    (fails : Bool) : Option (State Key) := do
  let σ := σ.hiddenClassForObject obj
  let h ← σ.findHiddenClass obj
  let cls ← σ.heap h
  let prepared := Reference.owned ⟨key, value, policy⟩
  let (references, releases, _) := setReference cls.references key value policy fails
  some { (σ.setReferences h cls references) with
    count := countRetained σ.count prepared
    frames := .releasing releases :: σ.frames }

/-- `object_clone_np` (lines 566–581). -/
def State.clone (σ : State Key) (obj : ℕ) (fails : Bool) : Option (State Key) :=
  let σ := σ.hiddenClassForObject obj
  let newInstance := σ.objects
  let σ := { σ with objects := σ.objects + 1, isa := Function.update σ.isa newInstance (σ.isa obj) }
  if fails then
    -- `object_dispose(newInstance)`, whatever its count
    some { σ with
      count := Function.update σ.count newInstance 0
      frames := .walking newInstance (some (σ.isa newInstance)) (σ.isa newInstance) [] :: σ.frames }
  else
    let σ := { σ with
      count := Function.update σ.count newInstance 1
      owned := Function.update σ.owned newInstance 1 }
    (σ.initHiddenClass newInstance).setAssociatedObject newInstance (some prototypeKey) (some obj)
      .retainNonatomic false

def next (σ : State Key) : Action Key → Option (State Key)
  | .new c => some { σ with
      objects := σ.objects + 1
      isa := Function.update σ.isa σ.objects (.plain c)
      count := Function.update σ.count σ.objects 1
      owned := Function.update σ.owned σ.objects 1 }
  | .retain obj => some { σ with
      count := Function.update σ.count obj (σ.count obj + 1)
      owned := Function.update σ.owned obj (σ.owned obj + 1) }
  | .release obj => ({ σ with owned := Function.update σ.owned obj (σ.owned obj - 1) } : State Key).release obj
  | .set obj key value policy fails => σ.setAssociatedObject obj key value policy fails
  | .remove obj =>
    match σ.findHiddenClass obj with
    | none => some σ
    | some h => do
      let cls ← σ.heap h
      some { (σ.setReferences h cls { cls.references with removing := true }) with
        frames := .removing obj h 0 :: σ.frames }
  | .addMethod obj method => do
    let σ := σ.hiddenClassForObject obj
    let h ← σ.findHiddenClass obj
    let cls ← σ.heap h
    some { σ with heap := Function.update σ.heap h (some { cls with
      methods := if method ∈ cls.methods then cls.methods else method :: cls.methods }) }
  | .install h => do
    let cls ← σ.heap h
    some { σ with heap := Function.update σ.heap h (some { cls with dtable := true }) }
  | .clone obj fails => σ.clone prototypeKey obj fails
  | .run => σ.run H

/-- The program goes on when nothing is in progress, with objects and values that it holds references to. -/
def enabled (σ : State Key) : Action Key → Prop
  | .new _ => σ.frames = []
  | .retain obj | .release obj | .remove obj | .addMethod obj _ | .clone obj _ =>
    σ.frames = [] ∧ 0 < σ.owned obj
  | .set obj key value policy _ => σ.frames = [] ∧ 0 < σ.owned obj ∧
    ∀ v, Reference.owned (⟨key, value, policy⟩ : Reference Key ℕ) = some v → 0 < σ.owned v
  | .install _ => σ.frames = []
  | .run => σ.frames ≠ []

def step (σ : State Key) (a : Action Key) (σ' : State Key) : Prop :=
  enabled σ a ∧ next H prototypeKey σ a = some σ'

end Steps

/-! ## What the walks have freed -/

/-- The hidden classes from a class on. -/
inductive Chain (superOf : ℕ → Class) : Class → List ℕ → Prop where
  | plain (c : ℕ) : Chain superOf (.plain c) []
  | hidden {h : ℕ} {l : List ℕ} (hl : Chain superOf (superOf h) l) : Chain superOf (.hidden h) (h :: l)

theorem Chain.mono {superOf superOf' : ℕ → Class} {cls : Class} {l : List ℕ} (hl : Chain superOf cls l)
    (h : ∀ k ∈ l, superOf' k = superOf k) : Chain superOf' cls l := by
  induction hl with
  | plain c => exact .plain c
  | @hidden k l hl ih =>
    refine .hidden ?_
    rw [h k List.mem_cons_self]
    exact ih fun j hj => h j (List.mem_cons_of_mem _ hj)

theorem chain_exists {superOf : ℕ → Class} (hdescends : ∀ h k, superOf h = .hidden k → k < h) (cls : Class) :
    ∃ l, Chain superOf cls l := by
  have hhidden : ∀ h, ∃ l, Chain superOf (.hidden h) l := by
    intro h
    induction h using Nat.strong_induction_on with
    | _ h ih =>
      cases hs : superOf h with
      | plain c => exact ⟨[h], .hidden (hs ▸ .plain c)⟩
      | hidden k =>
        obtain ⟨l, hl⟩ := ih k (hdescends h k hs)
        exact ⟨h :: l, .hidden (hs ▸ hl)⟩
  cases cls with
  | plain c => exact ⟨[], .plain c⟩
  | hidden h => exact hhidden h

theorem Chain.eq_hidden {superOf : ℕ → Class} {cls : Class} {h : ℕ} {l : List ℕ} (hl : Chain superOf cls (h :: l)) :
    cls = .hidden h ∧ Chain superOf (superOf h) l := by
  cases hl with
  | hidden hl => exact ⟨rfl, hl⟩

theorem Chain.of_plain {superOf : ℕ → Class} {c : ℕ} {l : List ℕ} (hl : Chain superOf (.plain c) l) : l = [] := by
  cases hl
  rfl

/-- The object whose destructors a frame runs. -/
def Frame.walker : Frame → Option ℕ
  | .walking obj .. | .cleaning obj .. => some obj
  | _ => none

def walkers (frames : List Frame) : List ℕ := frames.filterMap Frame.walker

/-- What a walk has freed and what is still ahead are the chain that it began with, and the `isa` of the object
    is where the rest begins. -/
def OnChain (σ : State Key) : Frame → Prop
  | .walking obj cls start freed => (∀ h ∈ freed, h < σ.classCount) ∧ ∃ rest,
      cls.elim (rest = []) (Chain σ.superOf · rest) ∧ Chain σ.superOf start (freed ++ rest) ∧
        Chain σ.superOf (σ.isa obj) rest
  | .cleaning obj h _ cls start freed => (∀ h ∈ freed, h < σ.classCount) ∧ σ.isa obj = .hidden h ∧
      σ.superOf h = cls ∧ ∃ rest, Chain σ.superOf cls rest ∧ Chain σ.superOf start (freed ++ h :: rest)
  | _ => True

structure Walks (σ : State Key) : Prop where
  zero : ∀ x ∈ walkers σ.frames, σ.count x = 0
  nodup : (walkers σ.frames).Nodup
  onChain : ∀ f ∈ σ.frames, OnChain σ f
  destroyed : ∀ d ∈ σ.destroyed, Chain σ.superOf d.start d.freed ∧ ∀ h ∈ d.freed, h < σ.classCount
  heap : ∀ h cls, σ.heap h = some cls → cls.superClass = σ.superOf h ∧ h < σ.classCount
  isa : ∀ x h, σ.isa x = .hidden h → h < σ.classCount
  descends : ∀ h k, σ.superOf h = .hidden k → k < h

variable {σ σ' : State Key} {H : Hierarchy}

theorem walks_initial : Walks (State.initial : State Key) where
  zero _ hx := absurd hx (by simp [State.initial, walkers])
  nodup := List.nodup_nil
  onChain _ hf := absurd hf (by simp [State.initial])
  destroyed _ hd := absurd hd (by simp [State.initial])
  heap _ _ h := absurd h (by simp [State.initial])
  isa _ _ h := absurd h (by simp [State.initial])
  descends _ _ h := absurd h (by simp [State.initial])

theorem walkers_cons_of_some (f : Frame) (frames : List Frame) {x : ℕ} (hf : f.walker = some x) :
    walkers (f :: frames) = x :: walkers frames := by
  unfold walkers
  rw [List.filterMap_cons_some hf]

theorem release_cases {v : ℕ} (h : σ.release v = some σ') :
    (∃ n, σ.count v = n + 2 ∧ σ' = { σ with count := Function.update σ.count v (n + 1) }) ∨
      σ.count v = 1 ∧ σ' = { σ with
        count := Function.update σ.count v 0
        frames := .walking v (some (σ.isa v)) (σ.isa v) [] :: σ.frames } := by
  unfold State.release at h
  split at h
  · simp at h
  · next hcount => exact .inr ⟨hcount, by simpa using h.symm⟩
  · next n hcount => exact .inl ⟨n, hcount, by simpa using h.symm⟩

/-- A walk begins with the whole chain ahead. -/
theorem Walks.begin (h : Walks σ) (v : ℕ) : OnChain σ (.walking v (some (σ.isa v)) (σ.isa v) []) := by
  obtain ⟨l, hl⟩ := chain_exists h.descends (σ.isa v)
  exact ⟨by simp, l, hl, hl, hl⟩

theorem Walks.release (h : Walks σ) {v : ℕ} (hr : σ.release v = some σ') : Walks σ' := by
  have hnot : σ.count v ≠ 0 → v ∉ walkers σ.frames := fun hne hmem => hne (h.zero v hmem)
  rcases release_cases hr with ⟨n, hcount, rfl⟩ | ⟨hcount, rfl⟩
  · refine { h with zero := fun x hx => ?_ }
    have hx' : x ≠ v := fun heq => hnot (by omega) (heq ▸ hx)
    show Function.update _ _ _ _ = 0
    rw [Function.update_of_ne hx']
    exact h.zero x hx
  · have hwalkers := walkers_cons_of_some (.walking v (some (σ.isa v)) (σ.isa v) []) σ.frames rfl
    refine { h with zero := fun x hx => ?_, nodup := ?_, onChain := fun f hf => ?_ }
    · rw [hwalkers] at hx
      show Function.update _ _ _ _ = 0
      rcases List.mem_cons.mp hx with rfl | hx
      · exact Function.update_self ..
      · have hx' : x ≠ v := fun heq => hnot (by omega) (heq ▸ hx)
        rw [Function.update_of_ne hx']
        exact h.zero x hx
    · show (walkers (_ :: σ.frames)).Nodup
      rw [hwalkers]
      exact List.nodup_cons.mpr ⟨hnot (by omega), h.nodup⟩
    · rcases List.mem_cons.mp hf with rfl | hf
      · exact h.begin v
      · exact h.onChain f hf

/-- The innermost frame goes on. -/
theorem Walks.turn (h : Walks σ) (f' : Frame) {f : Frame} {frames : List Frame} (hframes : σ.frames = f :: frames)
    (hwalker : f'.walker = f.walker) (hf' : OnChain σ f') : Walks { σ with frames := f' :: frames } := by
  have hwalkers : walkers (f' :: frames) = walkers σ.frames := by
    rw [hframes]
    unfold walkers
    rw [List.filterMap_cons, List.filterMap_cons, hwalker]
  refine { h with zero := ?_, nodup := ?_, onChain := fun g hg => ?_ }
  · show ∀ x ∈ walkers (f' :: frames), _
    rw [hwalkers]
    exact h.zero
  · show (walkers (f' :: frames)).Nodup
    rw [hwalkers]
    exact h.nodup
  · rcases List.mem_cons.mp hg with rfl | hg
    · exact hf'
    · exact h.onChain g (by rw [hframes]; exact List.mem_cons_of_mem _ hg)

/-- The innermost frame ends. -/
theorem Walks.pop (h : Walks σ) {f : Frame} {frames : List Frame} (hframes : σ.frames = f :: frames) :
    Walks { σ with frames := frames } := by
  have hsub : (walkers frames).Sublist (walkers σ.frames) := by
    rw [hframes]
    exact (List.sublist_cons_self f frames).filterMap _
  refine { h with zero := fun x hx => h.zero x (hsub.subset hx), nodup := h.nodup.sublist hsub, onChain := ?_ }
  intro g hg
  exact h.onChain g (by rw [hframes]; exact List.mem_cons_of_mem _ hg)

/-- A hidden class is written, but not its superclass. -/
theorem Walks.write (h : Walks σ) (cls' : HiddenClass Key) {k : ℕ} {cls : HiddenClass Key} (hk : σ.heap k = some cls)
    (hsuper : cls'.superClass = cls.superClass) : Walks { σ with heap := Function.update σ.heap k (some cls') } := by
  refine { h with heap := fun j c hj => ?_ }
  have hj : Function.update σ.heap k (some cls') j = some c := hj
  by_cases hjk : j = k
  · rw [hjk, Function.update_self] at hj
    obtain rfl := Option.some.inj hj
    rw [hjk]
    exact ⟨hsuper.trans (h.heap k cls hk).1, (h.heap k cls hk).2⟩
  · rw [Function.update_of_ne hjk] at hj
    exact h.heap j c hj

theorem Walks.clearSlot (h : Walks σ) {k i : ℕ} {cls : HiddenClass Key} {r : Reference Key ℕ}
    (hk : σ.heap k = some cls) (hs : σ.clearSlot k cls i r = some σ') : Walks σ' := by
  unfold State.clearSlot at hs
  split at hs
  · obtain rfl : σ = σ' := by simpa using hs
    exact h
  · have hwritten := h.write { cls with references := { cls.references with
      list := publishReference cls.references.list i .zeroed } } hk rfl
    cases howned : r.owned with
    | none =>
      rw [howned] at hs
      obtain rfl := Option.some.inj hs
      exact hwritten
    | some v =>
      rw [howned] at hs
      exact hwritten.release hs

/-- The end of `deallocHiddenClass`: the walk has freed one class more. -/
theorem Walks.freeHiddenClass (h : Walks σ) {obj k i : ℕ} {next start : Class} {freed : List ℕ}
    {frames : List Frame} (hframes : σ.frames = .cleaning obj k i next start freed :: frames)
    {cls : HiddenClass Key} (hk : σ.heap k = some cls)
    (hs : ({ σ with frames := .walking obj (some next) start (freed ++ [k]) :: frames } : State Key).freeHiddenClass
      obj k cls = some σ') : Walks σ' := by
  unfold State.freeHiddenClass at hs
  split at hs
  · simp at hs
  obtain rfl := Option.some.inj hs
  obtain ⟨hfreed, hisa, hnext, rest, hrest, hstart⟩ := h.onChain _ (hframes ▸ List.mem_cons_self)
  obtain ⟨hsuper, hlt⟩ := h.heap k cls hk
  have hwalkers : walkers σ.frames = obj :: walkers frames := by
    rw [hframes]
    exact walkers_cons_of_some _ frames rfl
  have hnodup := h.nodup
  rw [hwalkers, List.nodup_cons] at hnodup
  have hzero := h.zero
  rw [hwalkers] at hzero
  have hother : ∀ f ∈ frames, ∀ x, f.walker = some x → x ≠ obj := by
    rintro f hf x hx rfl
    exact hnodup.1 (List.mem_filterMap.mpr ⟨f, hf, hx⟩)
  refine ⟨?_, ?_, ?_, h.destroyed, fun j c hj => ?_, fun x j hx => ?_, h.descends⟩
  · show ∀ x ∈ walkers (_ :: frames), _
    rw [walkers_cons_of_some (.walking obj (some next) start (freed ++ [k])) frames rfl]
    exact hzero
  · show (walkers (_ :: frames)).Nodup
    rw [walkers_cons_of_some (.walking obj (some next) start (freed ++ [k])) frames rfl]
    exact List.nodup_cons.mpr hnodup
  · intro f hf
    rcases List.mem_cons.mp hf with rfl | hf
    · refine ⟨fun j hj => ?_, rest, hrest, ?_, ?_⟩
      · rcases List.mem_append.mp hj with hj | hj
        · exact hfreed j hj
        · rw [List.mem_singleton.mp hj]
          exact hlt
      · rw [List.append_assoc]
        exact hstart
      · show Chain σ.superOf (Function.update σ.isa obj cls.superClass obj) rest
        rw [Function.update_self, hsuper, hnext]
        exact hrest
    · have hold := h.onChain f (by rw [hframes]; exact List.mem_cons_of_mem _ hf)
      cases f with
      | walking x c s l =>
        obtain ⟨hl, r, hc, hs, hx⟩ := hold
        refine ⟨hl, r, hc, hs, ?_⟩
        show Chain σ.superOf (Function.update σ.isa obj cls.superClass x) r
        rw [Function.update_of_ne (hother _ hf x rfl)]
        exact hx
      | cleaning x j i' c s l =>
        obtain ⟨hl, hx, hc, r, hr, hs⟩ := hold
        refine ⟨hl, ?_, hc, r, hr, hs⟩
        show Function.update σ.isa obj cls.superClass x = .hidden j
        rw [Function.update_of_ne (hother _ hf x rfl)]
        exact hx
      | removing => trivial
      | releasing => trivial
  · have hj : Function.update σ.heap k none j = some c := hj
    by_cases hjk : j = k
    · rw [hjk, Function.update_self] at hj
      exact absurd hj (by simp)
    · rw [Function.update_of_ne hjk] at hj
      exact h.heap j c hj
  · have hx : Function.update σ.isa obj cls.superClass x = .hidden j := hx
    by_cases hxo : x = obj
    · rw [hxo, Function.update_self, hsuper] at hx
      exact (h.descends k j hx).trans hlt
    · rw [Function.update_of_ne hxo] at hx
      exact h.isa x j hx

/-- **A step of what is in progress.** -/
theorem Walks.run (h : Walks σ) (hr : σ.run H = some σ') : Walks σ' := by
  unfold State.run at hr
  split at hr
  · obtain rfl := Option.some.inj hr
    exact h
  · next obj start freed frames hframes =>
    obtain rfl := Option.some.inj hr
    obtain ⟨hfreed, rest, hrest, hstart, -⟩ := h.onChain _ (hframes ▸ List.mem_cons_self)
    obtain rfl : rest = [] := hrest
    rw [List.append_nil] at hstart
    refine { h.pop hframes with destroyed := fun d hd => ?_ }
    rcases List.mem_cons.mp hd with rfl | hd
    · exact ⟨hstart, hfreed⟩
    · exact h.destroyed d hd
  · next obj c start freed frames hframes =>
    obtain rfl := Option.some.inj hr
    obtain ⟨hfreed, rest, hrest, hstart, hisa⟩ := h.onChain _ (hframes ▸ List.mem_cons_self)
    obtain rfl : rest = [] := Chain.of_plain hrest
    refine h.turn _ hframes rfl ⟨hfreed, [], ?_, hstart, hisa⟩
    cases H.superClass c with
    | none => rfl
    | some d => exact .plain d
  · next obj k start freed frames hframes =>
    obtain ⟨hfreed, rest, hrest, hstart, hisa⟩ := h.onChain _ (hframes ▸ List.mem_cons_self)
    obtain ⟨cls, hcls, hr⟩ := Option.bind_eq_some_iff.mp hr
    obtain ⟨g, hg, hr⟩ := Option.bind_eq_some_iff.mp hr
    obtain ⟨found, hfound, hr⟩ := Option.bind_eq_some_iff.mp hr
    obtain rfl := Option.some.inj hr
    have hrest : Chain σ.superOf (.hidden k) rest := hrest
    cases hrest with
    | @hidden _ l hl =>
      obtain ⟨hisa, -⟩ := hisa.eq_hidden
      have hgk : g = k := by
        unfold State.findHiddenClass at hg
        rw [hisa] at hg
        simpa using hg.symm
      subst hgk
      obtain ⟨hsuper, -⟩ := h.heap g cls hcls
      have hwritten := h.write { found with
        references := { found.references with deallocating := true } } hfound rfl
      refine hwritten.turn (.cleaning obj g 0 cls.superClass start freed) hframes rfl
        ⟨hfreed, hisa, hsuper.symm, l, ?_, hstart⟩
      rw [hsuper]
      exact hl
  · next obj k i next start freed frames hframes =>
    obtain ⟨cls, hcls, hr⟩ := Option.bind_eq_some_iff.mp hr
    split at hr
    · have hold := h.onChain _ (hframes ▸ List.mem_cons_self)
      exact (h.turn (.cleaning obj k (i + 1) next start freed) hframes rfl hold).clearSlot hcls hr
    · exact h.freeHiddenClass hframes hcls hr
  · next obj k i frames hframes =>
    obtain ⟨cls, hcls, hr⟩ := Option.bind_eq_some_iff.mp hr
    split at hr
    · exact (h.turn (.removing obj k (i + 1)) hframes rfl trivial).clearSlot hcls hr
    · obtain rfl := Option.some.inj hr
      exact (h.pop hframes).write _ hcls rfl
  · next frames hframes =>
    obtain rfl := Option.some.inj hr
    exact h.pop hframes
  · next v pending frames hframes =>
    exact (h.turn (.releasing pending) hframes rfl trivial).release hr

/-! ## Whole runs -/

/-- A new hidden class, while nothing is in progress. -/
theorem Walks.initHiddenClass (h : Walks σ) (hframes : σ.frames = []) (obj : ℕ) : Walks (σ.initHiddenClass obj) := by
  have hsame : ∀ k < σ.classCount, Function.update σ.superOf σ.classCount (σ.isa obj) k = σ.superOf k :=
    fun k hk => Function.update_of_ne hk.ne _ _
  refine ⟨?_, ?_, ?_, fun d hd => ?_, fun j c hj => ?_, fun x j hx => ?_, fun j k hk => ?_⟩
  · show ∀ x ∈ walkers σ.frames, _
    rw [hframes]
    simp [walkers]
  · exact h.nodup
  · show ∀ f ∈ σ.frames, _
    rw [hframes]
    simp
  · obtain ⟨hchain, hlt⟩ := h.destroyed d hd
    exact ⟨hchain.mono fun k hk => hsame k (hlt k hk), fun k hk => Nat.lt_succ_of_lt (hlt k hk)⟩
  · have hj : Function.update σ.heap σ.classCount _ j = some c := hj
    by_cases hjn : j = σ.classCount
    · rw [hjn, Function.update_self] at hj
      obtain rfl := Option.some.inj hj
      rw [hjn]
      exact ⟨(Function.update_self _ (σ.isa obj) σ.superOf).symm, Nat.lt_succ_self _⟩
    · rw [Function.update_of_ne hjn] at hj
      obtain ⟨hsuper, hlt⟩ := h.heap j c hj
      exact ⟨hsuper.trans (hsame j hlt).symm, Nat.lt_succ_of_lt hlt⟩
  · have hx : Function.update σ.isa obj (.hidden σ.classCount) x = .hidden j := hx
    by_cases hxo : x = obj
    · rw [hxo, Function.update_self] at hx
      obtain rfl : σ.classCount = j := by simpa using hx
      exact Nat.lt_succ_self _
    · rw [Function.update_of_ne hxo] at hx
      exact Nat.lt_succ_of_lt (h.isa x j hx)
  · have hk : Function.update σ.superOf σ.classCount (σ.isa obj) j = .hidden k := hk
    by_cases hj : j = σ.classCount
    · rw [hj, Function.update_self] at hk
      rw [hj]
      exact h.isa obj k hk
    · rw [Function.update_of_ne hj] at hk
      exact h.descends j k hk

theorem hiddenClassForObject_frames (σ : State Key) (obj : ℕ) :
    (σ.hiddenClassForObject obj).frames = σ.frames := by
  unfold State.hiddenClassForObject
  split <;> rfl

theorem Walks.hiddenClassForObject (h : Walks σ) (hframes : σ.frames = []) (obj : ℕ) :
    Walks (σ.hiddenClassForObject obj) := by
  unfold State.hiddenClassForObject
  split
  · exact h
  · exact h.initHiddenClass hframes obj

/-- The counts matter only of the objects that are walked. -/
theorem Walks.setCounts (h : Walks σ) (count owned : ℕ → ℕ) (frames : List Frame)
    (hnone : ∀ f ∈ frames, f.walker = none) :
    Walks { σ with count := count, owned := owned, frames := frames } := by
  have hwalkers : walkers frames = [] := List.filterMap_eq_nil_iff.mpr hnone
  refine { h with zero := ?_, nodup := ?_, onChain := fun f hf => ?_ }
  · show ∀ x ∈ walkers frames, _
    rw [hwalkers]
    simp
  · show (walkers frames).Nodup
    rw [hwalkers]
    exact List.nodup_nil
  · have hf := hnone f hf
    cases f with
    | walking => simp [Frame.walker] at hf
    | cleaning => simp [Frame.walker] at hf
    | removing => trivial
    | releasing => trivial

/-- A new object of a class that is there. -/
theorem Walks.alloc (h : Walks σ) (hframes : σ.frames = []) (obj : ℕ) (cls : Class)
    (hcls : ∀ k, cls = .hidden k → k < σ.classCount) (n : ℕ) :
    Walks { σ with objects := n, isa := Function.update σ.isa obj cls } := by
  refine { h with onChain := ?_, isa := fun x k hx => ?_ }
  · show ∀ f ∈ σ.frames, _
    rw [hframes]
    simp
  · have hx : Function.update σ.isa obj cls x = .hidden k := hx
    by_cases hxo : x = obj
    · rw [hxo, Function.update_self] at hx
      exact hcls k hx
    · rw [Function.update_of_ne hxo] at hx
      exact h.isa x k hx

section Steps

variable [DecidableEq Key] {prototypeKey : Key}

theorem Walks.setAssociatedObject (h : Walks σ) (hframes : σ.frames = []) {obj : ℕ} {key : Option Key}
    {value : Option ℕ} {policy : Policy} {fails : Bool}
    (hs : σ.setAssociatedObject obj key value policy fails = some σ') : Walks σ' := by
  have hmade := h.hiddenClassForObject hframes obj
  have hmadeFrames := (hiddenClassForObject_frames σ obj).trans hframes
  unfold State.setAssociatedObject at hs
  obtain ⟨k, -, hs⟩ := Option.bind_eq_some_iff.mp hs
  obtain ⟨cls, hcls, hs⟩ := Option.bind_eq_some_iff.mp hs
  obtain rfl := Option.some.inj hs
  refine (hmade.write _ hcls ?_).setCounts _ _ _ ?_
  · rfl
  · rw [hmadeFrames]
    simp [Frame.walker]

theorem Walks.clone (h : Walks σ) (hframes : σ.frames = []) {obj : ℕ} {fails : Bool}
    (hs : σ.clone prototypeKey obj fails = some σ') : Walks σ' := by
  have hmade := h.hiddenClassForObject hframes obj
  have hmadeFrames := (hiddenClassForObject_frames σ obj).trans hframes
  have hnew := hmade.alloc hmadeFrames (σ.hiddenClassForObject obj).objects _
    (hmade.isa obj) ((σ.hiddenClassForObject obj).objects + 1)
  unfold State.clone at hs
  cases fails with
  | true =>
    obtain rfl := Option.some.inj hs
    -- the new instance has no reference, and what begins is a walk of it
    have hbegin := hnew.begin (σ.hiddenClassForObject obj).objects
    refine { hnew with zero := fun x hx => ?_, nodup := ?_, onChain := fun f hf => ?_ }
    · rw [hmadeFrames] at hx
      obtain rfl : x = (σ.hiddenClassForObject obj).objects := by simpa [walkers, Frame.walker] using hx
      exact Function.update_self ..
    · rw [hmadeFrames]
      simp [walkers, Frame.walker]
    · rw [hmadeFrames] at hf
      obtain rfl := List.mem_singleton.mp hf
      exact hbegin
  | false =>
    have hcounted := hnew.setCounts
      (Function.update (σ.hiddenClassForObject obj).count (σ.hiddenClassForObject obj).objects 1)
      (Function.update (σ.hiddenClassForObject obj).owned (σ.hiddenClassForObject obj).objects 1)
      (σ.hiddenClassForObject obj).frames (by rw [hmadeFrames]; simp)
    exact (hcounted.initHiddenClass hmadeFrames _).setAssociatedObject hmadeFrames hs

/-- **What an action keeps.** -/
theorem Walks.next (h : Walks σ) {a : Action Key} (hstep : step H prototypeKey σ a σ') : Walks σ' := by
  obtain ⟨hen, hs⟩ := hstep
  cases a with
  | new c =>
    obtain rfl := Option.some.inj hs
    exact (h.alloc hen σ.objects (.plain c) (by simp) (σ.objects + 1)).setCounts _ _ σ.frames (by rw [hen]; simp)
  | retain obj =>
    obtain rfl := Option.some.inj hs
    exact h.setCounts _ _ σ.frames (by rw [hen.1]; simp)
  | release obj => exact (h.setCounts σ.count _ σ.frames (by rw [hen.1]; simp)).release hs
  | set obj key value policy fails => exact h.setAssociatedObject hen.1 hs
  | remove obj =>
    simp only [HiddenClasses.next] at hs
    cases hfind : σ.findHiddenClass obj with
    | none =>
      rw [hfind] at hs
      obtain rfl := Option.some.inj hs
      exact h
    | some k =>
      rw [hfind] at hs
      obtain ⟨cls, hcls, hs⟩ := Option.bind_eq_some_iff.mp hs
      obtain rfl := Option.some.inj hs
      refine (h.write _ hcls ?_).setCounts _ _ _ ?_
      · rfl
      · rw [hen.1]
        simp [Frame.walker]
  | addMethod obj method =>
    have hmade := h.hiddenClassForObject hen.1 obj
    simp only [HiddenClasses.next] at hs
    obtain ⟨k, -, hs⟩ := Option.bind_eq_some_iff.mp hs
    obtain ⟨cls, hcls, hs⟩ := Option.bind_eq_some_iff.mp hs
    obtain rfl := Option.some.inj hs
    exact hmade.write _ hcls rfl
  | install k =>
    simp only [HiddenClasses.next] at hs
    obtain ⟨cls, hcls, hs⟩ := Option.bind_eq_some_iff.mp hs
    obtain rfl := Option.some.inj hs
    exact h.write _ hcls rfl
  | clone obj fails => exact h.clone hen.1 hs
  | run => exact h.run hs

/-- **A walk frees the chain.** Whatever the program does, in every run each call of `call_cxx_destruct` that
    has returned has freed exactly the hidden classes from the class on that the object had: the own one,
    and those of the prototypes that it was cloned from. -/
theorem walk_frees_chain (h : Runs (step H prototypeKey) (State.initial : State Key) σ) :
    ∀ d ∈ σ.destroyed, Chain σ.superOf d.start d.freed := by
  have hwalks : Walks σ := h.invariant walks_initial fun _ _ _ hI hs => hI.next hs
  exact fun d hd => (hwalks.destroyed d hd).1


/-- What is in progress runs to its end, if no other walk begins meanwhile. -/
def State.finish (H : Hierarchy) : ℕ → State Key → Option (State Key)
  | 0, σ => if σ.frames = [] then some σ else none
  | n + 1, σ =>
    if σ.frames = [] then some σ
    else match σ.run H with
      | some τ => if (walkers τ.frames).length ≤ (walkers σ.frames).length then State.finish H n τ else none
      | none => none

theorem runs_finish {R : State Key → Action Key → State Key → Prop}
    (hR : ∀ σ τ, step H prototypeKey σ .run τ → (walkers τ.frames).length ≤ (walkers σ.frames).length → R σ .run τ)
    (n : ℕ) {σ σ' : State Key} (h : σ.finish H n = some σ') : Runs R σ σ' := by
  induction n generalizing σ with
  | zero =>
    unfold State.finish at h
    split at h
    · obtain rfl := Option.some.inj h
      exact Runs.refl σ
    · simp at h
  | succ n ih =>
    unfold State.finish at h
    split at h
    · obtain rfl := Option.some.inj h
      exact Runs.refl σ
    · next hne =>
      split at h
      · next τ hτ =>
        split at h
        · next hlength => exact (Runs.single (hR σ τ ⟨hne, hτ⟩ hlength)).trans (ih h)
        · simp at h
      · simp at h

end Steps

/-- A root class. -/
def rootOnly : Hierarchy := ⟨fun _ => none, by simp⟩

def after (σ : State ℕ) (a : Action ℕ) : State ℕ := (next rootOnly 0 σ a).getD σ

def finished (σ : State ℕ) : State ℕ := (σ.finish rootOnly 30).getD σ

/-- A clone of an object that the program keeps. -/
def cloned : State ℕ := finished (after (after .initial (.new 0)) (.clone 0 false))

/-- The walk of the clone frees the hidden class of its prototype as well. -/
theorem walk_frees_chain_clone : ∃ d ∈ (finished (after cloned (.release 1))).destroyed,
    d.obj = 1 ∧ d.freed = [1, 0] ∧ Chain (finished (after cloned (.release 1))).superOf d.start d.freed := by
  have hnew : step rootOnly 0 .initial (.new 0) (after .initial (.new 0)) := ⟨rfl, rfl⟩
  have hclone : step rootOnly 0 (after .initial (.new 0)) (.clone 0 false)
      (after (after .initial (.new 0)) (.clone 0 false)) := ⟨⟨rfl, by decide⟩, rfl⟩
  have hrelease : step rootOnly 0 cloned (.release 1) (after cloned (.release 1)) := ⟨⟨rfl, by decide⟩, rfl⟩
  have hcloned : Runs (step rootOnly 0) .initial cloned :=
    ((Runs.single hnew).tail hclone).trans (runs_finish (fun _ _ hs _ => hs) 30 rfl)
  have hgone : Runs (step rootOnly 0) .initial (finished (after cloned (.release 1))) :=
    (hcloned.tail hrelease).trans (runs_finish (fun _ _ hs _ => hs) 30 rfl)
  refine ⟨⟨1, .hidden 1, [1, 0]⟩, ?_, rfl, rfl, ?_⟩
  · decide
  · exact walk_frees_chain hgone _ (by decide)

end Libobjc2.Memory.HiddenClasses
