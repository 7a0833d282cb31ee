import Libobjc2.Common.Run
import Libobjc2.Memory.ReferenceList

/-!
# The associated objects of one object (`src/memory/associate.mm`, lines 150–257, 367–507)

An object without a prototype, whose class is no metaclass, and the calls that are made about it, from
its first association to the end of its deallocation. `prepareReferenceValue` and `objc_release` run code
of the values, and this code makes such calls again; so the calls in progress form a stack. Everything
else that a call does is one step, because the lock of the list is held meanwhile.

The sets are numbered. Ghost fields hold which sets retained or copied their value and whose value was
released, the sets that were without effect, and what each key is to have: the value of the last set that
had an effect, and nothing when a removal has cleared it.

Results:
* `Inv.next`: what the steps keep as long as they are `WellPlaced`.
* `associations_faithful`: in the runs of such steps the associations are the expected map, and every
  value that was retained or copied is released once in the end. Two examples leave these runs.
-/

namespace Libobjc2.Memory.Associations

open Libobjc2.Common
open AssociationSlot (Policy)

/-! ## Model -/

/-- A value in a slot, and the number of the set that put it there. -/
structure Stored (Object : Type) where
  object : Object
  set : ℕ
  deriving DecidableEq

/-- A call in progress: in `prepareReferenceValue`, at the end of `setReference` with the sets whose values
    are still to be released, and in the `cleanupReferenceList` of `objc_removeAssociatedObjects` and
    of `deallocHiddenClass`, with the slot that is next. -/
inductive Frame (Key Object : Type) where
  | preparing (key : Option Key) (value : Option Object) (policy : Policy)
  | releasing (pending : List ℕ)
  | removing (i : ℕ)
  | destroying (i : ℕ)
  deriving DecidableEq

variable {Key Object : Type}

/-- The sets whose values a call has yet to release. -/
def Frame.pending : Frame Key Object → List ℕ
  | .releasing pending => pending
  | _ => []

/-- The slots that a clean-up has passed are those before this one. -/
def Frame.passed : Frame Key Object → Option ℕ
  | .removing i | .destroying i => some i
  | _ => none

/-- A set without effect: was a clean-up in progress, and did an allocation fail? -/
structure Refusal where
  set : ℕ
  underway : Bool
  failed : Bool
  deriving DecidableEq

/-- The list of the object's hidden class, if it has one, and the calls in progress, the innermost first. -/
structure State (Key Object : Type) where
  list : Option (ReferenceList Key (Stored Object))
  frames : List (Frame Key Object)
  deallocated : Bool
  sets : ℕ
  retained : List ℕ
  released : List ℕ
  refused : List Refusal
  expected : Option Key → Option Object

/-- An object that was just allocated. -/
def State.initial : State Key Object := ⟨none, [], false, 0, [], [], [], fun _ => none⟩

/-- What happens next. `prepared` is the return of `-copy` or `objc_retain`, with what it returned; `fails`
    is whether an allocation of another list fails then. `release` and `cleanup` are the next step of the
    innermost call. -/
inductive Action (Key Object : Type) where
  | set (key : Option Key) (value : Option Object) (policy : Policy)
  | prepared (result : Option Object) (fails : Bool)
  | release
  | remove
  | dealloc
  | cleanup

/-- `prepareReferenceValue` (lines 182–198); a message to `nil` returns `nil`. -/
def prepareReferenceValue (value : Option Object) (policy : Policy) (result : Option Object) : Option Object :=
  match policy with
  | .assign => value
  | .retainNonatomic | .copyNonatomic | .retain | .copy => value.bind fun _ => result

/-- What a set puts into a slot. -/
def State.new (σ : State Key Object) (obj : Option Object) : Option (Stored Object) :=
  obj.map fun o => ⟨o, σ.sets⟩

section Steps

variable [DecidableEq Key]

/-- `objc_getAssociatedObject` (lines 451–494). Without a prototype there is no list but the own one. -/
def State.get (σ : State Key Object) (key : Option Key) : Option Object :=
  (σ.list.bind fun l => getAssociatedObject l.list key).map (·.object)

/-- Whether a set has an effect. -/
def effective (l : ReferenceList Key (Stored Object)) (stored : Bool) (obj : Option Object) : Bool :=
  !l.deallocating && !l.removing && (stored || obj.isNone)

/-- `setReference` from the lock on (lines 207–256), and what it means for the ghost fields. -/
def State.finishSet (σ : State Key Object) (l : ReferenceList Key (Stored Object)) (key : Option Key)
    (obj : Option Object) (policy : Policy) (fails : Bool) (frames : List (Frame Key Object)) :
    State Key Object :=
  let (l', releases, stored) := setReference l key (σ.new obj) policy fails
  { σ with
    list := some l'
    frames := .releasing (releases.map (·.set)) :: frames
    sets := σ.sets + 1
    retained := (Reference.owned ⟨key, σ.new obj, policy⟩).toList.map (·.set) ++ σ.retained
    refused := if effective l stored obj then σ.refused
      else ⟨σ.sets, σ.frames.any (·.passed.isSome), fails⟩ :: σ.refused
    expected := if effective l stored obj then Function.update σ.expected key obj else σ.expected }

/-- The body of the loops of `cleanupReferenceList` (lines 157–166). -/
def State.clear (σ : State Key Object) (l : ReferenceList Key (Stored Object)) (i : ℕ)
    (r : Reference Key (Stored Object)) : State Key Object :=
  if r.key = none then σ
  else { σ with
    list := some { l with list := publishReference l.list i .zeroed }
    released := r.owned.toList.map (·.set) ++ σ.released
    expected := Function.update σ.expected r.key none }

/-- The state after an action. -/
def next (σ : State Key Object) : Action Key Object → State Key Object
  | .set key value policy =>
    -- `referenceListForObject(object, YES)`
    { σ with list := some (σ.list.getD .new), frames := .preparing key value policy :: σ.frames }
  | .prepared result fails =>
    match σ.frames, σ.list with
    | .preparing key value policy :: frames, some l =>
      σ.finishSet l key (prepareReferenceValue value policy result) policy fails frames
    | _, _ => σ
  | .release =>
    match σ.frames with
    | .releasing (n :: pending) :: frames =>
      { σ with frames := .releasing pending :: frames, released := n :: σ.released }
    | .releasing [] :: frames => { σ with frames := frames }
    | _ => σ
  | .remove =>
    match σ.list with
    | some l => { σ with list := some { l with removing := true }, frames := .removing 0 :: σ.frames }
    | none => σ
  | .dealloc =>
    match σ.list with
    | some l => { σ with list := some { l with deallocating := true }, frames := .destroying 0 :: σ.frames }
    | none => { σ with deallocated := true }
  | .cleanup =>
    match σ.frames, σ.list with
    | .removing i :: frames, some l =>
      match l.list[i]? with
      | some r => { σ.clear l i r with frames := .removing (i + 1) :: frames }
      | none => { σ with
        list := some { l with removing := false }, frames := frames, expected := fun _ => none }
    | .destroying i :: frames, some l =>
      match l.list[i]? with
      | some r => { σ.clear l i r with frames := .destroying (i + 1) :: frames }
      | none => { σ with list := none, frames := frames, deallocated := true, expected := fun _ => none }
    | _, _ => σ

/-- The steps there are: nobody calls with an object that is gone, and the last reference to it is not
    given up in a call that uses it. -/
def enabled (σ : State Key Object) : Action Key Object → Prop
  | .set .. => σ.deallocated = false
  | .prepared .. => ∃ key value policy frames, σ.frames = .preparing key value policy :: frames
  | .release => ∃ pending frames, σ.frames = .releasing pending :: frames
  | .remove => σ.deallocated = false
  | .dealloc => σ.deallocated = false ∧ σ.frames = []
  | .cleanup => ∃ f frames, σ.frames = f :: frames ∧ f.passed.isSome = true

/-- A value that is put into a slot has a key that is not `NULL`, and no removal has passed the slot. -/
def WellPlaced (σ : State Key Object) : Action Key Object → Prop
  | .prepared result fails => ∀ key value policy frames l i, σ.frames = .preparing key value policy :: frames →
      σ.list = some l → l.deallocating = false → l.removing = false →
      prepareReferenceValue value policy result ≠ none →
      (slotFor l.list key (σ.new (prepareReferenceValue value policy result)) fails).2 = some i →
      key ≠ none ∧ ∀ f ∈ σ.frames, ∀ n, f.passed = some n → n ≤ i
  | _ => True

/-- What the associations promise in a state. -/
structure Faithful (σ : State Key Object) : Prop where
  get : ∀ key, σ.get key = σ.expected key
  refused : ∀ r ∈ σ.refused, (r.underway = true ∨ r.failed = true) ∧
    (r.set ∈ σ.retained → r.set ∈ σ.released ∨ ∃ f ∈ σ.frames, r.set ∈ f.pending)
  releasedOnce : σ.released.Nodup ∧ ∀ n ∈ σ.released, n ∈ σ.retained
  complete : σ.deallocated = true → σ.frames = [] ∧ σ.released.Perm σ.retained

/-! ## Invariant -/

/-- The sets whose values the slots own. -/
def owners (list : Option (ReferenceList Key (Stored Object))) : Multiset ℕ :=
  list.elim 0 fun l => (ownedBy l.list).map (·.set)

/-- The sets whose values the calls in progress have yet to release. -/
def awaited (frames : List (Frame Key Object)) : Multiset ℕ := (frames.flatMap Frame.pending : List ℕ)

/-- Only the outermost call destroys the object. -/
def Outermost : List (Frame Key Object) → Prop
  | [] => True
  | .destroying _ :: rest => rest = []
  | _ :: rest => Outermost rest

/-- The clean-ups in progress. -/
def cleanups (frames : List (Frame Key Object)) : List (Frame Key Object) := frames.filter (·.passed.isSome)

/-- The slots that the clean-ups have passed are free. -/
def Passed (frames : List (Frame Key Object)) (list : List (Reference Key (Stored Object))) : Prop :=
  ∀ f ∈ frames, ∀ n, f.passed = some n → ∀ j < n, ∀ r, list[j]? = some r → r.key = none

structure Inv (σ : State Key Object) : Prop where
  wellFormed : ∀ l, σ.list = some l → WellFormed l.list
  get : ∀ key, σ.get key = σ.expected key
  balance : (σ.retained : Multiset ℕ) = owners σ.list + (awaited σ.frames + (σ.released : Multiset ℕ))
  numbered : σ.retained.Nodup ∧ ∀ n ∈ σ.retained, n < σ.sets
  passed : ∀ l, σ.list = some l → Passed (cleanups σ.frames) l.list
  removing : ∀ l, σ.list = some l → l.removing = true → cleanups σ.frames ≠ []
  deallocating : ∀ l, σ.list = some l → l.deallocating = true → ∃ i, .destroying i ∈ cleanups σ.frames
  outermost : Outermost σ.frames
  gone : σ.deallocated = true → σ.list = none ∧ σ.frames = []
  refused : ∀ r ∈ σ.refused, r.underway = true ∨ r.failed = true
  handed : ∀ r ∈ σ.refused, r.set < σ.sets ∧ r.set ∉ owners σ.list

variable {σ : State Key Object} {l : ReferenceList Key (Stored Object)}

theorem get_some (hl : σ.list = some l) (key : Option Key) : σ.get key = (lookup l.list key).map (·.object) := by
  unfold State.get
  rw [hl, Option.bind_some, getAssociatedObject_eq]

theorem get_none (hl : σ.list = none) (key : Option Key) : σ.get key = none := by
  unfold State.get
  rw [hl]
  rfl

omit [DecidableEq Key] in
theorem awaited_cons (f : Frame Key Object) (frames : List (Frame Key Object)) :
    awaited (f :: frames) = (f.pending : Multiset ℕ) + awaited frames := by
  unfold awaited
  rw [List.flatMap_cons, ← Multiset.coe_add]

omit [DecidableEq Key] in
theorem lookup_zeroedList [DecidableEq Key] (key : Option Key) :
    lookup (zeroedList : List (Reference Key (Stored Object))) key = none :=
  lookup_eq_none fun r hr _ => by rw [List.eq_of_mem_replicate hr]; rfl

theorem inv_initial : Inv (State.initial : State Key Object) where
  wellFormed _ hl := absurd hl (by simp [State.initial])
  get _ := rfl
  balance := rfl
  numbered := ⟨List.nodup_nil, by simp [State.initial]⟩
  passed _ hl := absurd hl (by simp [State.initial])
  removing _ hl := absurd hl (by simp [State.initial])
  deallocating _ hl := absurd hl (by simp [State.initial])
  outermost := trivial
  gone h := absurd h (by simp [State.initial])
  refused := by simp [State.initial]
  handed := by simp [State.initial]

/-! ## The steps -/

/-- `referenceListForObject(object, YES)`. -/
theorem Inv.create (h : Inv σ) (hd : σ.deallocated = false) : Inv { σ with list := some (σ.list.getD .new) } := by
  cases hl : σ.list with
  | some l =>
    have heq : { σ with list := some ((some l).getD .new) } = σ := by
      rw [Option.getD_some, ← hl]
    rw [heq]
    exact h
  | none =>
    have hbalance := h.balance
    rw [hl] at hbalance
    have hhanded := h.handed
    rw [hl] at hhanded
    refine { h with
      wellFormed := ?_, get := fun key => ?_, balance := hbalance, passed := ?_, removing := ?_,
      deallocating := ?_, gone := fun hgone => absurd (hd.symm.trans hgone) (by simp), handed := hhanded }
    · rintro l ⟨⟩
      exact wellFormed_zeroed
    · rw [get_some rfl, ← h.get key, get_none hl]
      exact congrArg _ (lookup_zeroedList key)
    · rintro l ⟨⟩ f hf n hn j hj r hr
      rw [List.eq_of_mem_replicate (List.mem_of_getElem? hr)]
      rfl
    · rintro l ⟨⟩ hremoving
      exact absurd hremoving (by simp [ReferenceList.new])
    · rintro l ⟨⟩ hdeallocating
      exact absurd hdeallocating (by simp [ReferenceList.new])

/-- A step that leaves the slots and the clean-ups alone. -/
theorem Inv.turn (h : Inv σ) {frames : List (Frame Key Object)} (released : List ℕ)
    (hcleanups : cleanups frames = cleanups σ.frames)
    (hawaited : awaited frames + (released : Multiset ℕ) = awaited σ.frames + (σ.released : Multiset ℕ))
    (houter : Outermost frames) (hgone : σ.deallocated = false) :
    Inv { σ with frames := frames, released := released } where
  wellFormed := h.wellFormed
  get := h.get
  balance := by
    show (σ.retained : Multiset ℕ) = owners σ.list + (awaited frames + (released : Multiset ℕ))
    rw [hawaited]
    exact h.balance
  numbered := h.numbered
  passed l hl := by
    show Passed (cleanups frames) l.list
    rw [hcleanups]
    exact h.passed l hl
  removing l hl := by
    show _ → cleanups frames ≠ []
    rw [hcleanups]
    exact h.removing l hl
  deallocating l hl := by
    show _ → ∃ i, .destroying i ∈ cleanups frames
    rw [hcleanups]
    exact h.deallocating l hl
  outermost := houter
  gone hg := absurd (hgone.symm.trans hg) (by simp)
  refused := h.refused
  handed := h.handed

omit [DecidableEq Key] in
theorem Outermost.tail {f : Frame Key Object} {frames : List (Frame Key Object)} (h : Outermost (f :: frames)) :
    Outermost frames := by
  cases f with
  | destroying i =>
    obtain rfl : frames = [] := h
    trivial
  | preparing => exact h
  | releasing => exact h
  | removing => exact h

/-- A call in progress means that the object is there. -/
theorem Inv.there (h : Inv σ) {f : Frame Key Object} {frames : List (Frame Key Object)}
    (hframes : σ.frames = f :: frames) : σ.deallocated = false := by
  by_contra hd
  have hnil := (h.gone (by simpa using hd)).2
  rw [hframes] at hnil
  exact absurd hnil (by simp)

/-- A set begins. -/
theorem Inv.preparing (h : Inv σ) (hd : σ.deallocated = false) (key : Option Key) (value : Option Object)
    (policy : Policy) : Inv { σ with frames := .preparing key value policy :: σ.frames } := by
  apply h.turn σ.released
  · rfl
  · rw [awaited_cons]
    exact congrArg (· + _) (zero_add _)
  · exact h.outermost
  · exact hd

/-- One of the releases at the end of a set. -/
theorem Inv.release (h : Inv σ) {n : ℕ} {pending : List ℕ} {frames : List (Frame Key Object)}
    (hframes : σ.frames = .releasing (n :: pending) :: frames) :
    Inv { σ with frames := .releasing pending :: frames, released := n :: σ.released } := by
  have houter := h.outermost
  apply h.turn (n :: σ.released)
  · rw [hframes]
    rfl
  · rw [hframes, awaited_cons, awaited_cons]
    show ((pending : Multiset ℕ) + _) + _ = (((n :: pending : List ℕ) : Multiset ℕ) + _) + _
    rw [← Multiset.cons_coe, ← Multiset.cons_coe, ← Multiset.singleton_add, ← Multiset.singleton_add]
    abel
  · rw [hframes] at houter
    exact houter
  · exact h.there hframes

/-- The end of a set. -/
theorem Inv.returned (h : Inv σ) {frames : List (Frame Key Object)} (hframes : σ.frames = .releasing [] :: frames) :
    Inv { σ with frames := frames } := by
  have houter := h.outermost
  apply h.turn σ.released
  · rw [hframes]
    rfl
  · rw [hframes, awaited_cons]
    exact congrArg (· + _) (zero_add _).symm
  · rw [hframes] at houter
    exact houter
  · exact h.there hframes

/-- `objc_removeAssociatedObjects` and `deallocHiddenClass` set their flag and begin with the first slot. -/
theorem Inv.begin (h : Inv σ) (hl : σ.list = some l) {f : Frame Key Object} {l' : ReferenceList Key (Stored Object)}
    (hlist : l'.list = l.list) (hf : f.passed = some 0) (hpending : f.pending = [])
    (hdeallocating : l'.deallocating = true → l.deallocating = true ∨ f = .destroying 0)
    (houter : Outermost (f :: σ.frames)) : Inv { σ with list := some l', frames := f :: σ.frames } := by
  have hcleanups : cleanups (f :: σ.frames) = f :: cleanups σ.frames := by
    unfold cleanups
    rw [List.filter_cons_of_pos (by rw [hf]; rfl)]
  refine { h with
    wellFormed := ?_, get := fun key => ?_, balance := ?_, passed := ?_, removing := ?_, deallocating := ?_,
    outermost := houter, gone := fun hgone => absurd hl (by rw [(h.gone hgone).1]; simp), handed := ?_ }
  · rintro _ ⟨⟩
    rw [hlist]
    exact h.wellFormed l hl
  · rw [get_some rfl, hlist, ← h.get key, get_some hl]
  · show (σ.retained : Multiset ℕ) = owners (some l') + (awaited (f :: σ.frames) + _)
    rw [awaited_cons, h.balance, hl, hpending]
    show _ = (ownedBy l'.list).map _ + ((0 + _) + _)
    rw [hlist, zero_add]
    rfl
  · rintro _ ⟨⟩ f' hf' n hn j hj r hr
    rw [hlist] at hr
    rw [hcleanups] at hf'
    rcases List.mem_cons.mp hf' with rfl | hf'
    · rw [hf] at hn
      obtain rfl : 0 = n := by simpa using hn
      omega
    · exact h.passed l hl f' hf' n hn j hj r hr
  · rintro _ ⟨⟩ _
    rw [hcleanups]
    simp
  · rintro _ ⟨⟩ hr
    rw [hcleanups]
    rcases hdeallocating hr with hr | rfl
    · obtain ⟨i, hi⟩ := h.deallocating l hl hr
      exact ⟨i, List.mem_cons_of_mem _ hi⟩
    · exact ⟨0, List.mem_cons_self⟩
  · intro r hr
    refine ⟨(h.handed r hr).1, ?_⟩
    have hnot := (h.handed r hr).2
    rw [hl] at hnot
    show r.set ∉ (ownedBy l'.list).map _
    rw [hlist]
    exact hnot

theorem Inv.owners_lt (h : Inv σ) {n : ℕ} (hn : n ∈ owners σ.list) : n < σ.sets := by
  apply h.numbered.2
  rw [← Multiset.mem_coe, h.balance]
  exact Multiset.mem_add.mpr (.inl hn)

omit [DecidableEq Key] in
/-- What a set owns is numbered by it. -/
theorem mem_owned_new {obj : Option Object} {key : Option Key} {policy : Policy} {n : ℕ}
    (h : n ∈ (Reference.owned ⟨key, σ.new obj, policy⟩).toList.map (·.set)) : n = σ.sets := by
  obtain ⟨stored, hstored, rfl⟩ := List.mem_map.mp h
  unfold Reference.owned at hstored
  split at hstored
  · simp at hstored
  · cases obj with
    | none => simp [State.new] at hstored
    | some o =>
      obtain rfl : stored = ⟨o, σ.sets⟩ := by simpa [State.new] using hstored
      rfl

/-- What a set does to the slots. -/
theorem Inv.setSlots (h : Inv σ) (hl : σ.list = some l) (key : Option Key) (obj : Option Object)
    (policy : Policy) (fails : Bool)
    (hplaced : l.deallocating = false → l.removing = false → obj ≠ none → ∀ i,
      (slotFor l.list key (σ.new obj) fails).2 = some i →
      key ≠ none ∧ ∀ f ∈ σ.frames, ∀ n, f.passed = some n → n ≤ i) :
    WellFormed (setReference l key (σ.new obj) policy fails).1.list ∧
      (∀ k, (lookup (setReference l key (σ.new obj) policy fails).1.list k).map (·.object) =
        (if effective l (setReference l key (σ.new obj) policy fails).2.2 obj then
          Function.update σ.expected key obj else σ.expected) k) ∧
      Passed (cleanups σ.frames) (setReference l key (σ.new obj) policy fails).1.list ∧
      (setReference l key (σ.new obj) policy fails).1.removing = l.removing ∧
      (setReference l key (σ.new obj) policy fails).1.deallocating = l.deallocating ∧
      (effective l (setReference l key (σ.new obj) policy fails).2.2 obj = false →
        (setReference l key (σ.new obj) policy fails).1 = l ∧
          (σ.frames.any (·.passed.isSome) = true ∨ fails = true)) := by
  have hnew : σ.new obj = none ↔ obj = none := by simp [State.new]
  have hmap : (σ.new obj).map (·.object) = obj := by
    unfold State.new
    cases obj <;> rfl
  by_cases hbusy : l.deallocating = true ∨ l.removing = true
  · obtain ⟨hlist, hstored⟩ := setReference_busy hbusy key (σ.new obj) policy fails
    have hineffective : effective l false obj = false := by
      unfold effective
      rcases hbusy with hb | hb <;> simp [hb]
    rw [hlist, hstored, hineffective]
    refine ⟨h.wellFormed l hl, fun k => ?_, h.passed l hl, rfl, rfl, fun _ => ⟨rfl, .inl ?_⟩⟩
    · rw [← get_some hl]
      exact h.get k
    · have hcleanup : cleanups σ.frames ≠ [] := by
        rcases hbusy with hb | hb
        · obtain ⟨i, hi⟩ := h.deallocating l hl hb
          exact List.ne_nil_of_mem hi
        · exact h.removing l hl hb
      obtain ⟨f, hf⟩ := List.exists_mem_of_ne_nil _ hcleanup
      exact List.any_eq_true.mpr ⟨f, List.mem_filter.mp hf⟩
  · rw [not_or] at hbusy
    have hd : l.deallocating = false := by simpa using hbusy.1
    have hr : l.removing = false := by simpa using hbusy.2
    obtain ⟨hlist, hstored⟩ := setReference_free hd hr key (σ.new obj) policy fails
    have hkey : σ.new obj ≠ none → (slotFor l.list key (σ.new obj) fails).2 ≠ none → key ≠ none := by
      intro hobj hslot
      obtain ⟨i, hi⟩ := Option.ne_none_iff_exists'.mp hslot
      exact (hplaced hd hr (fun hn => hobj (hnew.mpr hn)) i hi).1
    have hspec := store_spec (h.wellFormed l hl) hkey policy
    rw [hlist, hstored]
    refine ⟨hspec.1, fun k => ?_, fun f hf n hn j hj => ?_, rfl, rfl, fun hineffective => ?_⟩
    · show (lookup (store _ _ _ _ _).1 k).map _ = _
      rw [hspec.2 k]
      by_cases hstored' : (store l.list key (σ.new obj) policy fails).2.2 = true ∨ σ.new obj = none
      · have heffective : effective l (store l.list key (σ.new obj) policy fails).2.2 obj = true := by
          unfold effective
          rw [hd, hr]
          rcases hstored' with hs | hs
          · simp [hs]
          · simp [hnew.mp hs]
        rw [heffective, if_pos rfl]
        by_cases hk : k = key
        · rw [if_pos ⟨hk, hstored'⟩, hk, Function.update_self, hmap]
        · rw [if_neg (fun hc => hk hc.1), Function.update_of_ne hk, ← get_some hl]
          exact h.get k
      · have heffective : ¬effective l (store l.list key (σ.new obj) policy fails).2.2 obj = true := by
          intro he
          unfold effective at he
          simp only [Bool.and_eq_true, Bool.or_eq_true, Option.isNone_iff_eq_none] at he
          exact hstored' (he.2.imp id hnew.mpr)
        rw [if_neg (fun hc => hstored' hc.2), if_neg heffective, ← get_some hl]
        exact h.get k
    · refine store_free (h.passed l hl f hf n hn j hj) fun i hi hobj hij => ?_
      have hle := (hplaced hd hr (fun hnone => hobj (hnew.mpr hnone)) i hi).2 f (List.mem_filter.mp hf).1 n hn
      omega
    · have hnot : (store l.list key (σ.new obj) policy fails).2.2 = false ∧ obj ≠ none := by
        unfold effective at hineffective
        rw [hd, hr] at hineffective
        simpa [Option.isSome_iff_ne_none] using hineffective
      obtain ⟨hsame, hfails⟩ := store_refused hnot.1
      refine ⟨by rw [hsame], .inr (hfails.resolve_left fun hn => hnot.2 (hnew.mp hn))⟩

/-- The rest of a set. -/
theorem Inv.finishSet (h : Inv σ) (hl : σ.list = some l) {key : Option Key} {value obj : Option Object}
    {policy : Policy} {fails : Bool} {frames : List (Frame Key Object)}
    (hframes : σ.frames = .preparing key value policy :: frames)
    (hplaced : l.deallocating = false → l.removing = false → obj ≠ none → ∀ i,
      (slotFor l.list key (σ.new obj) fails).2 = some i →
      key ≠ none ∧ ∀ f ∈ σ.frames, ∀ n, f.passed = some n → n ≤ i) :
    Inv (σ.finishSet l key obj policy fails frames) := by
  rcases hset : setReference l key (σ.new obj) policy fails with ⟨l', releases, stored⟩
  have hfinish : σ.finishSet l key obj policy fails frames = { σ with
      list := some l'
      frames := .releasing (releases.map (·.set)) :: frames
      sets := σ.sets + 1
      retained := (Reference.owned ⟨key, σ.new obj, policy⟩).toList.map (·.set) ++ σ.retained
      refused := if effective l stored obj then σ.refused
        else ⟨σ.sets, σ.frames.any (·.passed.isSome), fails⟩ :: σ.refused
      expected := if effective l stored obj then Function.update σ.expected key obj else σ.expected } := by
    unfold State.finishSet
    rw [hset]
  have hcleanups : cleanups (.releasing (releases.map (·.set)) :: frames) = cleanups σ.frames := by
    rw [hframes]
    rfl
  have houter := h.outermost
  rw [hframes] at houter
  -- what was owned before, and by the set, is in the slots or is about to be released
  have howned := congrArg (Multiset.map (·.set)) (ownedBy_setReference l key (σ.new obj) policy fails)
  rw [hset, Multiset.map_add, Multiset.map_add, Multiset.map_coe, Multiset.map_coe] at howned
  replace howned : owners (some l') + (releases.map (·.set) : List ℕ) = owners σ.list +
      ((Reference.owned ⟨key, σ.new obj, policy⟩).toList.map (·.set) : List ℕ) := by
    rw [hl]
    exact howned
  have hslots := h.setSlots hl key obj policy fails hplaced
  rw [hset] at hslots
  obtain ⟨hwf, hlookup, hpassed, hremoving, hdeallocating, hrefused⟩ := hslots
  rw [hfinish]
  constructor
  · rintro _ ⟨⟩
    exact hwf
  · intro k
    rw [get_some rfl, hlookup k]
  · show ((_ ++ σ.retained : List ℕ) : Multiset ℕ) = owners (some l') + (awaited (_ :: frames) + _)
    rw [← Multiset.coe_add, awaited_cons, h.balance, hframes, awaited_cons]
    show _ + (_ + ((0 + awaited frames) + (σ.released : Multiset ℕ))) =
      owners (some l') + (((releases.map (·.set) : List ℕ) : Multiset ℕ) + awaited frames + σ.released)
    rw [zero_add, add_assoc _ (awaited frames), ← add_assoc (owners (some l')), howned]
    abel
  · refine ⟨?_, ?_⟩
    · show (_ ++ σ.retained).Nodup
      refine List.Nodup.append ?_ h.numbered.1 ?_
      · cases (Reference.owned ⟨key, σ.new obj, policy⟩) <;> simp
      · intro n hn hmem
        have := h.numbered.2 n hmem
        rw [mem_owned_new hn] at this
        exact absurd this (lt_irrefl _)
    · intro n hn
      rcases List.mem_append.mp hn with hn | hn
      · rw [mem_owned_new hn]
        exact Nat.lt_succ_self _
      · exact (h.numbered.2 n hn).trans (Nat.lt_succ_self _)
  · rintro _ ⟨⟩
    show Passed (cleanups (_ :: frames)) _
    rw [hcleanups]
    exact hpassed
  · rintro _ ⟨⟩ hr
    show cleanups (_ :: frames) ≠ []
    rw [hcleanups]
    exact h.removing l hl (hremoving ▸ hr)
  · rintro _ ⟨⟩ hr
    show ∃ i, _ ∈ cleanups (_ :: frames)
    rw [hcleanups]
    exact h.deallocating l hl (hdeallocating ▸ hr)
  · exact houter
  · intro hgone
    exact absurd ((h.there hframes).symm.trans hgone) (by simp)
  · intro r hr
    by_cases heffective : effective l stored obj = true
    · exact h.refused r (by simpa [heffective] using hr)
    · rcases List.mem_cons.mp (by simpa [heffective] using hr) with rfl | hr
      · exact (hrefused (by simpa using heffective)).2
      · exact h.refused r hr
  · intro r hr
    by_cases heffective : effective l stored obj = true
    · obtain ⟨hlt, hnot⟩ := h.handed r (by simpa [heffective] using hr)
      refine ⟨Nat.lt_succ_of_lt hlt, fun hmem => ?_⟩
      rcases Multiset.mem_add.mp (howned ▸ Multiset.mem_add.mpr (.inl hmem)) with hmem | hmem
      · exact hnot hmem
      · exact absurd (mem_owned_new hmem) hlt.ne
    · have hsame : owners (some l') = owners σ.list := by
        have hlist : l' = l := (hrefused (by simpa using heffective)).1
        rw [hlist, hl]
      rcases List.mem_cons.mp (by simpa [heffective] using hr) with rfl | hr
      · refine ⟨Nat.lt_succ_self _, fun hmem => ?_⟩
        exact lt_irrefl _ (h.owners_lt (hsame ▸ hmem))
      · obtain ⟨hlt, hnot⟩ := h.handed r hr
        refine ⟨Nat.lt_succ_of_lt hlt, ?_⟩
        show r.set ∉ owners (some l')
        rw [hsame]
        exact hnot

/-- What one round of a clean-up does to the slots. -/
structure Cleared (i : ℕ) (key : Option Key) (list list' : List (Reference Key (Stored Object)))
    (released : List ℕ) : Prop where
  wellFormed : WellFormed list'
  lookup : ∀ k, lookup list' k = if k = key then none else lookup list k
  owned : (ownedBy list').map (·.set) + (released : Multiset ℕ) = (ownedBy list).map (·.set)
  free : ∀ j, (j = i ∨ ∀ r, list[j]? = some r → r.key = none) → ∀ r, list'[j]? = some r → r.key = none

theorem Inv.clear (h : Inv σ) (hl : σ.list = some l) {i : ℕ} {r : Reference Key (Stored Object)}
    (hr : l.list[i]? = some r) : ∃ list' released, Cleared i r.key l.list list' released ∧
      σ.clear l i r = { σ with
        list := some { l with list := list' }
        released := released ++ σ.released
        expected := Function.update σ.expected r.key none } := by
  have hwf := h.wellFormed l hl
  have hi : i < l.list.length := (List.getElem?_eq_some_iff.mp hr).1
  unfold State.clear
  by_cases hkey : r.key = none
  · refine ⟨l.list, [], ⟨hwf, fun k => ?_, add_zero _, fun j hj s hs => ?_⟩, ?_⟩
    · by_cases hk : k = r.key
      · rw [if_pos hk, hk, hkey, hwf.lookup_none]
      · rw [if_neg hk]
    · rcases hj with rfl | hj
      · rw [hr] at hs
        obtain rfl : r = s := by simpa using hs
        exact hkey
      · exact hj s hs
    · have hexpected : σ.expected none = none := by
        rw [← h.get none, get_some hl, hwf.lookup_none]
        rfl
      have hupdate : Function.update σ.expected none none = σ.expected := by
        rw [← hexpected]
        exact Function.update_eq_self _ _
      rw [if_pos hkey, hkey, hupdate, ← hl]
      rfl
  · have hother : ∀ (j : ℕ) (s : Reference Key (Stored Object)), j ≠ i → l.list[j]? = some s →
        s.key = (Reference.zeroed : Reference Key (Stored Object)).key → s.key = none := fun _ _ _ _ hs => hs
    refine ⟨publishReference l.list i .zeroed, r.owned.toList.map (·.set), ⟨?_, fun k => ?_, ?_, fun j hj s hs => ?_⟩,
      by rw [if_neg hkey]⟩
    · exact hwf.set hi (fun _ => rfl) hother
    · rw [publishReference, lookup_set hwf hr (fun _ => rfl) hother]
      by_cases hk : k = r.key
      · rw [if_pos hk]
        show (if k = none then none else none) = none
        rw [ite_self]
      · rw [if_neg hk]
        by_cases hnone : k = (Reference.zeroed : Reference Key (Stored Object)).key
        · rw [if_pos hnone, hnone]
          exact hwf.lookup_none.symm
        · rw [if_neg hnone]
    · have howned := congrArg (Multiset.map (·.set)) (ownedBy_set hr (.zeroed : Reference Key (Stored Object)))
      rw [Multiset.map_add, Multiset.map_add, Multiset.map_coe] at howned
      exact howned.trans (add_zero _)
    · by_cases hij : i = j
      · rw [publishReference, ← hij, List.getElem?_set_self hi] at hs
        obtain rfl : Reference.zeroed = s := by simpa using hs
        rfl
      · rw [publishReference, List.getElem?_set_ne hij] at hs
        exact hj.resolve_left (fun heq => hij heq.symm) s hs

/-- One round of a clean-up. -/
theorem Inv.cleanup (h : Inv σ) (hl : σ.list = some l) {i : ℕ} {r : Reference Key (Stored Object)}
    (hr : l.list[i]? = some r) {f f' : Frame Key Object} {frames : List (Frame Key Object)}
    (hframes : σ.frames = f :: frames)
    (hf : f = .removing i ∧ f' = .removing (i + 1) ∨ f = .destroying i ∧ f' = .destroying (i + 1)) :
    Inv { σ.clear l i r with frames := f' :: frames } := by
  obtain ⟨list', released, hcleared, heq⟩ := h.clear hl hr
  have hpassed' : f.passed = some i ∧ f'.passed = some (i + 1) ∧ f.pending = [] ∧ f'.pending = [] := by
    rcases hf with ⟨rfl, rfl⟩ | ⟨rfl, rfl⟩ <;> exact ⟨rfl, rfl, rfl, rfl⟩
  obtain ⟨hfi, hfi', hpending, hpending'⟩ := hpassed'
  have hcleanups : ∀ g n, g.passed = some n → cleanups (g :: frames) = g :: cleanups frames := by
    intro g n hg
    unfold cleanups
    rw [List.filter_cons_of_pos (by rw [hg]; rfl)]
  have houter := h.outermost
  rw [hframes] at houter
  rw [heq]
  refine { h with
    wellFormed := ?_, get := fun k => ?_, balance := ?_, passed := ?_, removing := ?_, deallocating := ?_,
    outermost := ?_, gone := fun hgone => absurd ((h.there hframes).symm.trans hgone) (by simp), handed := ?_ }
  · rintro _ ⟨⟩
    exact hcleared.wellFormed
  · rw [get_some rfl, hcleared.lookup k]
    show _ = Function.update σ.expected r.key none k
    by_cases hk : k = r.key
    · rw [if_pos hk, hk, Function.update_self]
      rfl
    · rw [if_neg hk, Function.update_of_ne hk, ← get_some hl]
      exact h.get k
  · have howned : owners σ.list = (ownedBy list').map (·.set) + (released : Multiset ℕ) := by
      rw [hl]
      exact hcleared.owned.symm
    show (σ.retained : Multiset ℕ) = (ownedBy list').map (·.set) + (awaited (f' :: frames) +
      ((released ++ σ.released : List ℕ) : Multiset ℕ))
    rw [h.balance, howned, hframes, awaited_cons, awaited_cons, hpending, hpending', ← Multiset.coe_add]
    abel
  · rintro _ ⟨⟩ g hg n hn j hj s hs
    rw [hcleanups f' (i + 1) hfi'] at hg
    refine hcleared.free j ?_ s hs
    have hold := h.passed l hl
    rw [hframes, hcleanups f i hfi] at hold
    rcases List.mem_cons.mp hg with rfl | hg
    · rw [hfi'] at hn
      obtain rfl : i + 1 = n := by simpa using hn
      rcases Nat.lt_or_ge j i with hji | hji
      · exact .inr (hold f List.mem_cons_self i hfi j hji)
      · exact .inl (by omega)
    · exact .inr (hold g (List.mem_cons_of_mem _ hg) n hn j hj)
  · rintro _ ⟨⟩ _
    rw [hcleanups f' (i + 1) hfi']
    simp
  · rintro _ ⟨⟩ hd
    obtain ⟨n, hn⟩ := h.deallocating l hl hd
    rw [hframes, hcleanups f i hfi] at hn
    rw [hcleanups f' (i + 1) hfi']
    rcases List.mem_cons.mp hn with rfl | hn
    · rcases hf with ⟨hf, -⟩ | ⟨-, rfl⟩
      · exact absurd hf (by simp)
      · exact ⟨i + 1, List.mem_cons_self⟩
    · exact ⟨n, List.mem_cons_of_mem _ hn⟩
  · rcases hf with ⟨rfl, rfl⟩ | ⟨rfl, rfl⟩ <;> exact houter
  · intro s hs
    refine ⟨(h.handed s hs).1, fun hmem => (h.handed s hs).2 ?_⟩
    rw [hl]
    show s.set ∈ (ownedBy l.list).map _
    rw [← hcleared.owned]
    exact Multiset.mem_add.mpr (.inl hmem)

/-- At its end a clean-up has passed every slot. -/
theorem Inv.all_free (h : Inv σ) (hl : σ.list = some l) {i : ℕ} (hend : l.list[i]? = none) {f : Frame Key Object}
    {frames : List (Frame Key Object)} (hframes : σ.frames = f :: frames) (hf : f.passed = some i) :
    ∀ r ∈ l.list, r.key = none := by
  intro r hr
  obtain ⟨j, hj⟩ := List.getElem?_of_mem hr
  have hlt : j < l.list.length := (List.getElem?_eq_some_iff.mp hj).1
  have hmem : f ∈ cleanups σ.frames := by
    rw [hframes]
    exact List.mem_filter.mpr ⟨List.mem_cons_self, by rw [hf]; rfl⟩
  exact h.passed l hl f hmem i hf j (by have := List.getElem?_eq_none_iff.mp hend; omega) r hj

theorem WellFormed.lookup_free {list : List (Reference Key (Stored Object))} (h : WellFormed list)
    (hfree : ∀ r ∈ list, r.key = none) (k : Option Key) : lookup list k = none :=
  lookup_eq_none fun r hr _ => h.free r hr (hfree r hr)

/-- The end of `objc_removeAssociatedObjects`. -/
theorem Inv.removed (h : Inv σ) (hl : σ.list = some l) {i : ℕ} (hend : l.list[i]? = none)
    {frames : List (Frame Key Object)} (hframes : σ.frames = .removing i :: frames) :
    Inv { σ with list := some { l with removing := false }, frames := frames, expected := fun _ => none } := by
  have hfree := h.all_free hl hend hframes rfl
  have houter := h.outermost
  rw [hframes] at houter
  have hcleanups : cleanups σ.frames = .removing i :: cleanups frames := by
    rw [hframes]
    rfl
  refine { h with
    wellFormed := ?_, get := fun k => ?_, balance := ?_, passed := ?_, removing := ?_, deallocating := ?_,
    outermost := houter, gone := fun hgone => absurd ((h.there hframes).symm.trans hgone) (by simp), handed := ?_ }
  · rintro _ ⟨⟩
    exact h.wellFormed l hl
  · rw [get_some rfl, (h.wellFormed l hl).lookup_free hfree k]
    rfl
  · have hbalance := h.balance
    rw [hl, hframes, awaited_cons] at hbalance
    rw [hbalance]
    show _ + ((0 + _) + _) = _
    rw [zero_add]
    rfl
  · rintro _ ⟨⟩ g hg
    exact h.passed l hl g (by rw [hcleanups]; exact List.mem_cons_of_mem _ hg)
  · rintro _ ⟨⟩ hr
    exact absurd hr (by simp)
  · rintro _ ⟨⟩ hd
    obtain ⟨n, hn⟩ := h.deallocating l hl hd
    rw [hcleanups] at hn
    exact ⟨n, by simpa using hn⟩
  · intro r hr
    have hhanded := h.handed r hr
    rw [hl] at hhanded
    exact hhanded

/-- The end of `deallocHiddenClass`. -/
theorem Inv.destroyed (h : Inv σ) (hl : σ.list = some l) {i : ℕ} (hend : l.list[i]? = none)
    {frames : List (Frame Key Object)} (hframes : σ.frames = .destroying i :: frames) :
    Inv { σ with list := none, frames := frames, deallocated := true, expected := fun _ => none } := by
  have hfree := h.all_free hl hend hframes rfl
  have houter := h.outermost
  rw [hframes] at houter
  obtain rfl : frames = [] := houter
  have hnone : owners σ.list = 0 := by
    rw [hl]
    show (ownedBy l.list).map _ = 0
    rw [(h.wellFormed l hl).ownedBy_free hfree, Multiset.map_zero]
  refine { h with
    wellFormed := ?_, get := fun k => get_none rfl k, balance := ?_, passed := ?_, removing := ?_,
    deallocating := ?_, outermost := trivial, gone := fun _ => ⟨rfl, rfl⟩, handed := ?_ }
  · rintro _ ⟨⟩
  · have hbalance := h.balance
    rw [hnone, hframes, awaited_cons] at hbalance
    rw [hbalance]
    show _ + ((0 + _) + _) = 0 + _
    rw [zero_add, zero_add, zero_add]
  · rintro _ ⟨⟩
  · rintro _ ⟨⟩
  · rintro _ ⟨⟩
  · intro r hr
    exact ⟨(h.handed r hr).1, Multiset.notMem_zero _⟩

/-- **What a step keeps.** -/
theorem Inv.next (h : Inv σ) {a : Action Key Object} (hen : enabled σ a) (hplaced : WellPlaced σ a) :
    Inv (next σ a) := by
  cases a with
  | set key value policy => exact (h.create hen).preparing hen key value policy
  | prepared result fails =>
    obtain ⟨key, value, policy, frames, hframes⟩ := hen
    unfold Associations.next
    rw [hframes]
    cases hl : σ.list with
    | none => exact h
    | some l =>
      apply h.finishSet hl hframes
      intro hd hr hobj i hi
      exact hplaced key value policy frames l i hframes hl hd hr hobj hi
  | release =>
    obtain ⟨pending, frames, hframes⟩ := hen
    unfold Associations.next
    rw [hframes]
    cases pending with
    | nil => exact h.returned hframes
    | cons n pending => exact h.release hframes
  | remove =>
    unfold Associations.next
    cases hl : σ.list with
    | none => exact h
    | some l => exact h.begin hl rfl rfl rfl .inl h.outermost
  | dealloc =>
    cases hl : σ.list with
    | none =>
      have hnext : Associations.next σ .dealloc = { σ with deallocated := true } := by
        simp only [Associations.next, hl]
      rw [hnext]
      exact { h with gone := fun _ => ⟨hl, hen.2⟩ }
    | some l =>
      simp only [Associations.next, hl]
      exact h.begin hl rfl rfl rfl (fun _ => .inr rfl) hen.2
  | cleanup =>
    obtain ⟨f, frames, hframes, hf⟩ := hen
    unfold Associations.next
    rw [hframes]
    cases f with
    | preparing => exact absurd hf (by simp [Frame.passed])
    | releasing => exact absurd hf (by simp [Frame.passed])
    | removing i =>
      cases hl : σ.list with
      | none => exact h
      | some l =>
        cases hr : l.list[i]? with
        | some r => simpa only [hr] using h.cleanup hl hr hframes (.inl ⟨rfl, rfl⟩)
        | none => simpa only [hr] using h.removed hl hr hframes
    | destroying i =>
      cases hl : σ.list with
      | none => exact h
      | some l =>
        cases hr : l.list[i]? with
        | some r => simpa only [hr] using h.cleanup hl hr hframes (.inr ⟨rfl, rfl⟩)
        | none => simpa only [hr] using h.destroyed hl hr hframes

/-- The steps of the runs in which the associations are faithful. -/
abbrev step : State Key Object → Action Key Object → State Key Object → Prop :=
  guarded (fun σ a => enabled σ a ∧ WellPlaced σ a) next

theorem Inv.of_runs (h : Runs step State.initial σ) : Inv σ :=
  h.invariant inv_initial fun _ _ _ hI ⟨⟨hen, hplaced⟩, heq⟩ => heq ▸ hI.next hen hplaced

theorem Inv.faithful (h : Inv σ) : Faithful σ where
  get := h.get
  refused r hr := by
    refine ⟨h.refused r hr, fun hret => ?_⟩
    have hmem : r.set ∈ owners σ.list + (awaited σ.frames + (σ.released : Multiset ℕ)) := by
      rw [← h.balance]
      exact hret
    rcases Multiset.mem_add.mp hmem with hmem | hmem
    · exact absurd hmem (h.handed r hr).2
    · rcases Multiset.mem_add.mp hmem with hmem | hmem
      · exact .inr (List.mem_flatMap.mp hmem)
      · exact .inl hmem
  releasedOnce := by
    have hle : (σ.released : Multiset ℕ) ≤ σ.retained := by
      rw [h.balance, ← add_assoc]
      exact Multiset.le_add_left _ _
    refine ⟨?_, fun n hn => ?_⟩
    · exact Multiset.coe_nodup.mp (Multiset.nodup_of_le hle (Multiset.coe_nodup.mpr h.numbered.1))
    · exact Multiset.mem_of_le hle hn
  complete hgone := by
    obtain ⟨hlist, hframes⟩ := h.gone hgone
    refine ⟨hframes, Multiset.coe_eq_coe.mp ?_⟩
    rw [h.balance, hlist, hframes]
    show _ = 0 + (0 + _)
    rw [zero_add, zero_add]

/-- **Associations are faithful.** In every run in which no value is put into a slot with the key `NULL` or
    into a slot that a removal in progress has passed, a lookup returns the value of the last set of its
    key that had an effect, and nothing after a removal; a set is without effect only during a clean-up or
    when an allocation failed; and when the object is gone, each value that was retained or copied has been
    released once, and no other one. -/
theorem associations_faithful (h : Runs step State.initial σ) : Faithful σ := (Inv.of_runs h).faithful

/-- Outside of the clean-ups only the key matters. -/
theorem wellPlaced_of_key {k : Key} {value result : Option Object} {policy : Policy} {fails : Bool}
    {frames : List (Frame Key Object)} (hframes : σ.frames = .preparing (some k) value policy :: frames)
    (hcleanups : cleanups frames = []) : WellPlaced σ (.prepared result fails) := by
  intro key value' policy' frames' l i heq _ _ _ _ _
  rw [hframes] at heq
  simp only [List.cons.injEq, Frame.preparing.injEq] at heq
  obtain ⟨⟨rfl, -, -⟩, -⟩ := heq
  refine ⟨by simp, fun f hf n hn => ?_⟩
  rw [hframes] at hf
  rcases List.mem_cons.mp hf with rfl | hf
  · exact absurd hn (by simp [Frame.passed])
  · have hmem : f ∈ cleanups frames := List.mem_filter.mpr ⟨hf, by rw [hn]; rfl⟩
    rw [hcleanups] at hmem
    exact absurd hmem (by simp)

end Steps

/-- A value is retained and displaced by a copy; then the object goes. -/
def replaced : List (Action ℕ Char) :=
  [.set (some 1) (some 'a') .retain, .prepared (some 'a') false, .release,
    .set (some 1) (some 'b') .copy, .prepared (some 'c') false, .release, .release,
    .dealloc] ++ List.replicate 11 .cleanup

theorem associations_faithful_replaced :
    (runList next State.initial replaced).deallocated = true ∧
      (runList next State.initial replaced).released.Perm (runList next State.initial replaced).retained := by
  have hcleanup : ∀ (σ : State ℕ Char), (∃ f frames, σ.frames = f :: frames ∧ f.passed.isSome = true) →
      enabled σ .cleanup ∧ WellPlaced σ .cleanup := fun _ h => ⟨h, trivial⟩
  have hok : AllOk (fun σ a => enabled σ a ∧ WellPlaced σ a) next State.initial replaced := by
    refine ⟨⟨rfl, trivial⟩, ⟨⟨_, _, _, _, rfl⟩, wellPlaced_of_key rfl rfl⟩, ⟨⟨_, _, rfl⟩, trivial⟩,
      ⟨rfl, trivial⟩, ⟨⟨_, _, _, _, rfl⟩, wellPlaced_of_key rfl rfl⟩, ⟨⟨_, _, rfl⟩, trivial⟩,
      ⟨⟨_, _, rfl⟩, trivial⟩, ⟨⟨rfl, rfl⟩, trivial⟩, ?_⟩
    refine ⟨hcleanup _ ⟨_, _, rfl, rfl⟩, hcleanup _ ⟨_, _, rfl, rfl⟩, hcleanup _ ⟨_, _, rfl, rfl⟩,
      hcleanup _ ⟨_, _, rfl, rfl⟩, hcleanup _ ⟨_, _, rfl, rfl⟩, hcleanup _ ⟨_, _, rfl, rfl⟩,
      hcleanup _ ⟨_, _, rfl, rfl⟩, hcleanup _ ⟨_, _, rfl, rfl⟩, hcleanup _ ⟨_, _, rfl, rfl⟩,
      hcleanup _ ⟨_, _, rfl, rfl⟩, hcleanup _ ⟨_, _, rfl, rfl⟩, trivial⟩
  have hgone : (runList next State.initial replaced).deallocated = true := rfl
  exact ⟨hgone, ((associations_faithful (runs_of_allOk _ _ hok)).complete hgone).2⟩

/-- A value under the key `NULL` sits in a slot that counts as free: it is never released. -/
example :
    let σ := runList next (State.initial : State ℕ Char)
      ([.set none (some 'a') .retain, .prepared (some 'a') false, .release, .dealloc] ++ List.replicate 11 .cleanup)
    σ.deallocated = true ∧ σ.retained = [0] ∧ σ.released = [] := ⟨rfl, rfl, rfl⟩

/-- A removal inside a removal clears the flag of the outer one, which a set then outlives. -/
example :
    let σ := runList next (State.initial : State ℕ Char)
      ([.set (some 1) (some 'a') .retain, .prepared (some 'a') false, .release, .remove, .cleanup, .remove] ++
        List.replicate 11 .cleanup ++ [.set (some 2) (some 'b') .retain, .prepared (some 'b') false, .release] ++
        List.replicate 10 .cleanup)
    σ.frames = [] ∧ σ.expected (some 2) = none ∧ σ.get (some 2) = some 'b' := ⟨rfl, rfl, rfl⟩

end Libobjc2.Memory.Associations
