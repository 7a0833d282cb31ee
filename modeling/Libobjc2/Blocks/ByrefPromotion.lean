import Libobjc2.Common.Run
import Libobjc2.Common.Tally
import Mathlib.Algebra.BigOperators.Intervals

/-!
# Promotion of `__block` variables (`src/blocks/blocks_runtime.m`)

One `__block` variable of a stack frame is captured by any number of blocks, which are copied to the heap and
disposed of by any threads. Object 0 is the variable in the frame and the other objects are copies on the heap.
The frame is participant 0; every other participant is a block that is copied, and lives until its copy is
disposed of. Atomic loads, compare-exchanges and calls of the helpers are single steps.

A block is copied from the frame only while the frame is there. A variable with `BLOCK_HAS_COPY_DISPOSE` has
both helpers. An abort is the absence of a step.

Results:
* `Promoted.step`: what every step keeps.
* `promotion_linear`: while there are fewer than 2^24 − 1 owners, one copy is published, its count is the
  number of its owners, and it is freed once, after the last owner has gone.
* `promotion_saturated`: with more owners the count falls behind.
-/

namespace Libobjc2.Blocks.Byref

open Libobjc2.Common

/-! ## Model -/

/-- `flags & BLOCK_REFCOUNT_MASK`. -/
def count (flags : ℕ) : ℕ := flags % 2 ^ 24

def refcountMask : ℕ := 2 ^ 24 - 1

/-- `IS_SET(flags, BLOCK_HAS_COPY_DISPOSE)`. -/
def hasCopyDispose (flags : ℕ) : Bool := flags / 2 ^ 25 % 2 = 1

/-- Where a participant is: in the frame, in `_Block_object_assign`, holding a copy, in
    `_Block_object_dispose`, or gone. The values are those of the local variables. -/
inductive Pc where
  | onStack
  | load (src : ℕ)
  | test (src : ℕ)
  | allocate (src : ℕ)
  | keep (candidate src : ℕ)
  | publish (candidate src : ℕ)
  | disposeLoser (candidate expected : ℕ)
  | freeLoser (candidate expected : ℕ)
  | loadFlags (ref : ℕ)
  | increment (ref old : ℕ)
  | held (copy : ℕ)
  | disposeLoad (src : ℕ)
  | disposeTest (src : ℕ)
  | disposeLoadFlags (ref : ℕ)
  | decrement (ref old : ℕ)
  | disposeCopy (src : ℕ)
  | freeCopy (src : ℕ)
  | gone
deriving DecidableEq, Repr

/-- `struct block_byref_obj`; and how often its helpers ran and it was freed. -/
structure Object where
  forwarding : ℕ
  flags : ℕ
  kept : ℕ
  disposed : ℕ
  freed : ℕ
deriving DecidableEq, Repr

/-- The objects, of which those below `next` exist; the copies that were published, the latest first; and the
    places of the participants. -/
structure State where
  object : ℕ → Object
  next : ℕ
  published : List ℕ
  place : ℕ → Pc
  started : ℕ

namespace State

def go (σ : State) (i : ℕ) (pc : Pc) : State := { σ with place := Function.update σ.place i pc }

def write (σ : State) (o : ℕ) (x : Object) : State := { σ with object := Function.update σ.object o x }

/-- One if the object has helpers. -/
def helperRuns (x : Object) : ℕ := if hasCopyDispose x.flags then 1 else 0

/-- `_Block_object_assign` (lines 131–169) and `increment24` (lines 64–75). -/
def assign (σ : State) (i : ℕ) (spurious : Bool) : Pc → Option State
  | .load src => some (σ.go i (.test (σ.object src).forwarding))
  | .test src => some (σ.go i (if count (σ.object src).flags = 0 then .allocate src else .loadFlags src))
  | .allocate src =>
    let candidate := σ.next
    -- the copy has one reference for the frame and one for the block
    let x := σ.object src
    some (({ σ with next := σ.next + 1 }.write candidate ⟨x.forwarding, x.flags + 2, 0, 0, 0⟩).go i
      (.keep candidate src))
  | .keep candidate src =>
    let x := σ.object candidate
    some ((σ.write candidate { x with
      kept := x.kept + helperRuns (σ.object src), forwarding := candidate }).go i (.publish candidate src))
  | .publish candidate src =>
    let x := σ.object src
    if x.forwarding = src then
      some (({ σ with published := candidate :: σ.published }.write src
        { x with forwarding := candidate }).go i
        (.held candidate))
    else some (σ.go i (.disposeLoser candidate x.forwarding))
  | .disposeLoser candidate expected =>
    let x := σ.object candidate
    some ((σ.write candidate { x with disposed := x.disposed + helperRuns x }).go i
      (.freeLoser candidate expected))
  | .freeLoser candidate expected =>
    let x := σ.object candidate
    some ((σ.write candidate { x with freed := x.freed + 1 }).go i (.loadFlags expected))
  | .loadFlags ref => some (σ.go i (.increment ref (σ.object ref).flags))
  | .increment ref old =>
    let x := σ.object ref
    if count old = refcountMask then some (σ.go i (.held ref))
    else if x.flags = old ∧ spurious = false then
      some ((σ.write ref { x with flags := old + 1 }).go i (.held ref))
    else some (σ.go i (.increment ref x.flags))
  | _ => none

/-- `_Block_object_dispose` (lines 195–211) and `decrement24` (lines 77–93). -/
def dispose (σ : State) (i : ℕ) (spurious : Bool) : Pc → Option State
  | .disposeLoad src =>
    let src := (σ.object src).forwarding
    some (σ.go i (if src = 0 then .gone else .disposeTest src))
  | .disposeTest src =>
      some (σ.go i (if count (σ.object src).flags = 0 then .gone else .disposeLoadFlags src))
  | .disposeLoadFlags ref => some (σ.go i (.decrement ref (σ.object ref).flags))
  | .decrement ref old =>
    let x := σ.object ref
    if count old = refcountMask then some (σ.go i .gone)
    else if count old = 0 then none
    else if x.flags = old ∧ spurious = false then
      some ((σ.write ref { x with flags := old - 1 }).go i
        (if count old - 1 = 0 then .disposeCopy ref else .gone))
    else some (σ.go i (.decrement ref x.flags))
  | .disposeCopy src =>
    let x := σ.object src
    some ((σ.write src { x with disposed := x.disposed + helperRuns x }).go i (.freeCopy src))
  | .freeCopy src =>
    let x := σ.object src
    some ((σ.write src { x with freed := x.freed + 1 }).go i .gone)
  | _ => none

end State

/-- A copy of the block that is being made, one step, or the start of the disposal of a copy or at the end
    of the frame. -/
inductive Act where
  | copy
  | step (i : ℕ) (spurious : Bool)
  | dispose (i : ℕ)
  | leave
deriving Repr

/-- In `_Block_object_assign`. -/
def Pc.assigning : Pc → Bool
  | .load _ | .test _ | .allocate _ | .keep .. | .publish .. | .disposeLoser .. | .freeLoser .. | .loadFlags _
  | .increment .. => true
  | _ => false

/-- In the frame, or with a copy that has not been given up. -/
def Pc.holds : Pc → Bool
  | .onStack | .held _ | .disposeLoad _ | .disposeTest _ | .disposeLoadFlags _ | .decrement .. => true
  | _ => false

namespace State

/-- What an action does, where it can happen. A block is copied from the frame, and the frame is left when no
    block is being copied. -/
def perform (σ : State) : Act → Option State
  | .copy =>
    if σ.place 0 = .onStack then
      some { σ with place := Function.update σ.place σ.started (.load 0), started := σ.started + 1 }
    else none
  | .step i spurious =>
    if i < σ.started then (σ.assign i spurious (σ.place i)).or (σ.dispose i spurious (σ.place i)) else none
  | .dispose i =>
    if i < σ.started then
      match σ.place i with
      | .held c => some (σ.go i (.disposeLoad c))
      | _ => none
    else none
  | .leave =>
    if σ.place 0 = .onStack ∧ ∀ i < σ.started, (σ.place i).assigning = false then
      some (σ.go 0 (.disposeLoad 0))
    else none

def Step (σ : State) (a : Act) (σ' : State) : Prop := σ.perform a = some σ'

/-- A variable in a new frame, with the flags that the compiler gives it. -/
structure Initial (σ : State) : Prop where
  forwarding : (σ.object 0).forwarding = 0
  flags : count (σ.object 0).flags = 0
  next : σ.next = 1
  published : σ.published = []
  place : σ.place 0 = .onStack
  started : σ.started = 1

end State

/-! ## Weights -/

/-- The participant owns a reference to the copy `h`; `h = 0` when there is none yet. -/
def own (h : ℕ) : Pc → ℕ
  | .onStack => if h = 0 then 0 else 1
  | .disposeLoad src => if src = 0 ∧ h = 0 then 0 else 1
  | .held _ | .disposeTest _ | .disposeLoadFlags _ | .decrement .. => 1
  | _ => 0

/-- The participant has `c` as its candidate. -/
def candidate (c : ℕ) : Pc → ℕ
  | .keep d _ | .publish d _ | .disposeLoser d _ | .freeLoser d _ => if d = c then 1 else 0
  | _ => 0

/-- The keep helper has not run for the candidate `c` yet. -/
def keeping (c : ℕ) : Pc → ℕ
  | .keep d _ => if d = c then 1 else 0
  | _ => 0

/-- The dispose helper has run for the candidate `c`. -/
def losing (c : ℕ) : Pc → ℕ
  | .freeLoser d _ => if d = c then 1 else 0
  | _ => 0

/-- The participant is about to free the published copy. -/
def freeing : Pc → ℕ
  | .disposeCopy _ | .freeCopy _ => 1
  | _ => 0

/-- The dispose helper has not run for the published copy yet. -/
def disposing : Pc → ℕ
  | .disposeCopy _ => 1
  | _ => 0

/-! ## The invariant -/

/-- What holds of the local variables of participant `i`: `h` is where the frame's variable forwards to, and
    `on` says that the frame is there. -/
def PcOk (h : ℕ) (on : Prop) (i : ℕ) : Pc → Prop
  | .onStack => i = 0
  | .load src | .allocate src => i ≠ 0 ∧ on ∧ src = 0
  | .test src => i ≠ 0 ∧ on ∧ (src = 0 ∨ src = h)
  | .keep c src | .publish c src => i ≠ 0 ∧ on ∧ src = 0 ∧ c ≠ 0
  | .disposeLoser c expected | .freeLoser c expected => i ≠ 0 ∧ on ∧ c ≠ 0 ∧ expected = h ∧ h ≠ 0
  | .loadFlags ref => i ≠ 0 ∧ on ∧ ref = h ∧ h ≠ 0
  | .increment ref old => i ≠ 0 ∧ on ∧ ref = h ∧ h ≠ 0 ∧ count old < refcountMask
  | .held c => i ≠ 0 ∧ c = h ∧ h ≠ 0
  | .disposeLoad src => (i = 0 ∧ src = 0) ∨ (i ≠ 0 ∧ src = h ∧ h ≠ 0)
  | .disposeTest src | .disposeLoadFlags src | .disposeCopy src | .freeCopy src => src = h ∧ h ≠ 0
  | .decrement ref old => ref = h ∧ h ≠ 0 ∧ 0 < count old ∧ count old < refcountMask
  | .gone => True

namespace State

variable {σ σ' : State}

/-- The weight of all participants. -/
def total (σ : State) (f : Pc → ℕ) : ℕ := tally f σ.place σ.started

/-- A copy `c` that was not published has one participant, or is freed. -/
structure Loser (helpers : Bool) (c : ℕ) (x : Object) (owner keeping losing : ℕ) : Prop where
  count : count x.flags = 2
  flags : hasCopyDispose x.flags = helpers
  owner : owner + x.freed = 1
  forwarding : keeping = 0 → x.forwarding = c
  with_helpers : helpers = true → x.kept + keeping = 1 ∧ x.disposed = losing + x.freed
  no_helpers : helpers = false → x.kept = 0 ∧ x.disposed = 0

/-- The published copy `h` has owners, or is about to be freed, or is freed. -/
structure Winner (helpers : Bool) (h : ℕ) (x : Object) (candidates owners freeing disposing : ℕ) : Prop where
  forwarding : x.forwarding = h
  flags : hasCopyDispose x.flags = helpers
  candidates : candidates = 0
  count : count x.flags = owners
  owner : (if owners = 0 then 0 else 1) + freeing + x.freed = 1
  with_helpers : helpers = true → x.kept = 1 ∧ (if owners = 0 then 0 else 1) + disposing + x.disposed = 1
  no_helpers : helpers = false → x.kept = 0 ∧ x.disposed = 0

/-- Where the variable of the frame forwards to. -/
def promoted (σ : State) : ℕ := (σ.object 0).forwarding

def helpers (σ : State) : Bool := hasCopyDispose (σ.object 0).flags

/-- The invariant. -/
structure Promoted (σ : State) : Prop where
  pcs : ∀ i < σ.started, PcOk σ.promoted (σ.place 0 = .onStack) i (σ.place i)
  started : 0 < σ.started
  count_zero : count (σ.object 0).flags = 0
  next : σ.promoted < σ.next
  published : σ.published = if σ.promoted = 0 then [] else [σ.promoted]
  fresh : ∀ c, c = 0 ∨ σ.next ≤ c → σ.total (candidate c) = 0
  loser : ∀ c, 0 < c → c < σ.next → c ≠ σ.promoted →
    Loser σ.helpers c (σ.object c) (σ.total (candidate c)) (σ.total (keeping c)) (σ.total (losing c))
  winner : σ.promoted ≠ 0 → Winner σ.helpers σ.promoted (σ.object σ.promoted) (σ.total (candidate σ.promoted))
    (σ.total (own σ.promoted)) (σ.total freeing) (σ.total disposing)

/-- Fewer owners than the count can tell. -/
def FewOwners (σ : State) : Prop := σ.total (own σ.promoted) < refcountMask

theorem total_go {i : ℕ} (hi : i < σ.started) (f : Pc → ℕ) (pc : Pc) :
    (σ.go i pc).total f + f (σ.place i) = σ.total f + f pc :=
  tally_move hi pc

theorem total_go_eq {i : ℕ} {f : Pc → ℕ} {pc : Pc} (hi : i < σ.started) (hf : f pc = f (σ.place i)) :
    (σ.go i pc).total f = σ.total f := by
  have := total_go hi f pc
  omega

theorem le_total {i : ℕ} (hi : i < σ.started) (f : Pc → ℕ) : f (σ.place i) ≤ σ.total f := le_tally hi

theorem total_zero {f g : Pc → ℕ} (hle : ∀ pc, f pc ≤ g pc) (hg : σ.total g = 0) : σ.total f = 0 := by
  apply tally_eq_zero.mpr
  intro i hi
  have := tally_eq_zero.mp hg i hi
  have := hle (σ.place i)
  omega

theorem keeping_le (c : ℕ) (pc : Pc) : keeping c pc ≤ candidate c pc := by
  cases pc <;> simp [keeping, candidate]

theorem losing_le (c : ℕ) (pc : Pc) : losing c pc ≤ candidate c pc := by
  cases pc <;> simp [losing, candidate]

theorem count_add {flags n : ℕ} (h : count flags + n ≤ refcountMask) :
    count (flags + n) = count flags + n := by
  unfold count refcountMask at h
  unfold count
  omega

theorem hasCopyDispose_add {flags n : ℕ} (h : count flags + n ≤ refcountMask) :
    hasCopyDispose (flags + n) = hasCopyDispose flags := by
  unfold hasCopyDispose
  unfold count refcountMask at h
  have : (flags + n) / 2 ^ 25 % 2 = flags / 2 ^ 25 % 2 := by omega
  rw [this]

/-! ## Steps that keep the weights -/

/-- The local variables of the other participants stay as they are. -/
theorem Promoted.pcs_go (h : Promoted σ) {i : ℕ} {pc : Pc} (hframe : i = 0 → σ.place 0 ≠ .onStack ∧
    pc ≠ .onStack)
    (hpc : PcOk σ.promoted (σ.place 0 = .onStack) i pc) :
    ∀ j < σ.started, PcOk σ.promoted ((σ.go i pc).place 0 = .onStack) j ((σ.go i pc).place j) := by
  have hon : ((σ.go i pc).place 0 = .onStack) = (σ.place 0 = .onStack) := by
    apply propext
    show Function.update σ.place i pc 0 = .onStack ↔ _
    by_cases hi : i = 0
    · subst hi
      obtain ⟨hold, hnew⟩ := hframe rfl
      rw [Function.update_self]
      exact ⟨fun h => absurd h hnew, fun h => absurd h hold⟩
    · rw [Function.update_of_ne (Ne.symm hi)]
  intro j hj
  rw [hon]
  show PcOk _ _ j (Function.update σ.place i pc j)
  by_cases hji : j = i
  · subst hji
    rwa [Function.update_self]
  · rw [Function.update_of_ne hji]
    exact h.pcs j hj

/-- As a candidate `c` is weighed the same at the two places. -/
structure SameCandidate (c : ℕ) (pc pc' : Pc) : Prop where
  candidate : candidate c pc' = candidate c pc
  keeping : keeping c pc' = keeping c pc
  losing : losing c pc' = losing c pc

/-- As the published copy `h` is weighed the same at the two places. -/
structure SameOwner (h : ℕ) (pc pc' : Pc) : Prop where
  own : own h pc' = own h pc
  freeing : freeing pc' = freeing pc
  disposing : disposing pc' = disposing pc

/-- A step that only moves a participant to a place of the same weight. -/
theorem Promoted.quiet (h : Promoted σ) {i : ℕ} {pc : Pc} (hi : i < σ.started)
    (hpcs : ∀ j < σ.started, PcOk σ.promoted ((σ.go i pc).place 0 = .onStack) j ((σ.go i pc).place j))
    (hcandidate : ∀ c, SameCandidate c (σ.place i) pc) (howner : SameOwner σ.promoted (σ.place i) pc) :
    Promoted (σ.go i pc) := by
  refine ⟨hpcs, h.started, h.count_zero, h.next, h.published, fun c hc => ?_, fun c hc hc' hne =>
      ?_, fun hne => ?_⟩
  · rw [total_go_eq hi (hcandidate c).candidate]
    exact h.fresh c hc
  · obtain ⟨h₁, h₂, h₃⟩ := hcandidate c
    rw [total_go_eq hi h₁, total_go_eq hi h₂, total_go_eq hi h₃]
    exact h.loser c hc hc' hne
  · obtain ⟨h₁, h₂, h₃⟩ := howner
    have hw := h.winner hne
    rw [← total_go_eq hi (hcandidate _).candidate, ← total_go_eq hi h₁, ← total_go_eq hi h₂,
      ← total_go_eq hi h₃] at hw
    exact hw

/-- A step of participant `i` that writes the object `o`. -/
theorem Promoted.act (h : Promoted σ) {i o : ℕ} {pc : Pc} {x : Object} (hi : i < σ.started)
    (hpcs : ∀ j < σ.started, PcOk σ.promoted ((σ.go i pc).place 0 = .onStack) j ((σ.go i pc).place j))
    (ho : 0 < o ∧ o < σ.next) (hcandidate : ∀ c, c ≠ o → SameCandidate c (σ.place i) pc)
    (howner : o ≠ σ.promoted → SameOwner σ.promoted (σ.place i) pc)
    (hloser : o ≠ σ.promoted → Loser σ.helpers o x ((σ.go i pc).total (Byref.candidate o))
      ((σ.go i pc).total (keeping o)) ((σ.go i pc).total (losing o)))
    (hwinner : o = σ.promoted → Winner σ.helpers o x ((σ.go i pc).total (Byref.candidate o))
      ((σ.go i pc).total (own o)) ((σ.go i pc).total freeing) ((σ.go i pc).total disposing)) :
    Promoted ((σ.write o x).go i pc) := by
  have hzero : (σ.write o x).object 0 = σ.object 0 := Function.update_of_ne (by omega) ..
  have hpromoted : ((σ.write o x).go i pc).promoted = σ.promoted := congrArg Object.forwarding hzero
  have hhelpers : ((σ.write o x).go i pc).helpers = σ.helpers :=
      congrArg (fun y : Object => hasCopyDispose y.flags) hzero
  refine ⟨?_, h.started, ?_, ?_, ?_, fun c hc => ?_, fun c hc hc' hne => ?_, fun hne => ?_⟩
  · rw [hpromoted]
    exact hpcs
  · exact (congrArg (fun y : Object => count y.flags) hzero).trans h.count_zero
  · rw [hpromoted]
    exact h.next
  · rw [hpromoted]
    exact h.published
  · have hc : c = 0 ∨ σ.next ≤ c := hc
    exact (total_go_eq hi (hcandidate c (by omega)).candidate).trans (h.fresh c hc)
  · rw [hpromoted] at hne
    rw [hhelpers]
    by_cases hco : c = o
    · subst hco
      have hself : ((σ.write c x).go i pc).object c = x := Function.update_self ..
      rw [hself]
      exact hloser hne
    · obtain ⟨h₁, h₂, h₃⟩ := hcandidate c hco
      have hother : ((σ.write o x).go i pc).object c = σ.object c := Function.update_of_ne hco ..
      have hl := h.loser c hc hc' hne
      rw [← total_go_eq hi h₁, ← total_go_eq hi h₂, ← total_go_eq hi h₃] at hl
      rw [hother]
      exact hl
  · rw [hpromoted] at hne ⊢
    rw [hhelpers]
    by_cases hco : σ.promoted = o
    · have hself : ((σ.write o x).go i pc).object o = x := Function.update_self ..
      rw [hco, hself]
      exact hwinner hco.symm
    · obtain ⟨h₁, h₂, h₃⟩ := howner (Ne.symm hco)
      have hother : ((σ.write o x).go i pc).object σ.promoted = σ.object σ.promoted :=
          Function.update_of_ne hco ..
      have hw := h.winner hne
      rw [← total_go_eq hi (hcandidate _ hco).candidate, ← total_go_eq hi h₁, ← total_go_eq hi h₂,
        ← total_go_eq hi h₃] at hw
      rw [hother]
      exact hw

/-! ## Candidates -/

/-- A participant has a candidate of its own. -/
theorem Promoted.candidate_loser (h : Promoted σ) {i c : ℕ} (hi : i < σ.started)
    (hc : candidate c (σ.place i) = 1) :
    0 < c ∧ c < σ.next ∧ c ≠ σ.promoted ∧
    Loser σ.helpers c (σ.object c) (σ.total (Byref.candidate c)) (σ.total (keeping c))
    (σ.total (losing c)) := by
  have hle := le_total hi (Byref.candidate c)
  have hfresh : ¬ (c = 0 ∨ σ.next ≤ c) := by
    intro hc'
    have := h.fresh c hc'
    omega
  have hne : c ≠ σ.promoted := by
    rintro rfl
    have := (h.winner (by omega)).candidates
    omega
  exact ⟨by omega, by omega, hne, h.loser c (by omega) (by omega) hne⟩

theorem helperRuns_true {x : Object} (h : hasCopyDispose x.flags = true) : helperRuns x = 1 := if_pos h

theorem helperRuns_false {x : Object} (h : hasCopyDispose x.flags = false) : helperRuns x = 0 := by
  unfold helperRuns
  rw [h]
  rfl

/-- A new candidate is a copy of the variable in the frame. -/
theorem Promoted.allocate (h : Promoted σ) {i : ℕ} (hi : i < σ.started) (hpc : σ.place i = .allocate 0) :
    Promoted (({ σ with next := σ.next + 1 }.write σ.next
      ⟨(σ.object 0).forwarding, (σ.object 0).flags + 2, 0, 0, 0⟩).go i (.keep σ.next 0)) := by
  have hok := h.pcs i hi
  rw [hpc] at hok
  obtain ⟨hi0, hon, -⟩ := hok
  have hnext := h.next
  have hpos : (0 : ℕ) ≠ σ.next := by omega
  have hsmall : count (σ.object 0).flags + 2 ≤ refcountMask := by
    rw [h.count_zero]
    decide
  generalize hσ' : ({ σ with next := σ.next + 1 }.write σ.next
    ⟨(σ.object 0).forwarding, (σ.object 0).flags + 2, 0, 0, 0⟩).go i (.keep σ.next 0) = σ'
  have hother : ∀ c, c ≠ σ.next → σ'.object c = σ.object c := by
    intro c hc
    rw [← hσ']
    exact Function.update_of_ne hc ..
  have hself : σ'.object σ.next = ⟨(σ.object 0).forwarding, (σ.object 0).flags + 2, 0, 0, 0⟩ := by
    rw [← hσ']
    exact Function.update_self ..
  have htotal : ∀ f : Pc → ℕ, f (.allocate 0) = 0 → σ'.total f = σ.total f + f (.keep σ.next 0) := by
    intro f hf
    have hgo := total_go hi f (.keep σ.next 0)
    rw [hpc, hf] at hgo
    rw [← hσ']
    exact hgo
  have hpromoted : σ'.promoted = σ.promoted := congrArg Object.forwarding (hother 0 hpos)
  have hhelpers : σ'.helpers = σ.helpers := congrArg (fun y : Object => hasCopyDispose y.flags)
      (hother 0 hpos)
  have hnext' : σ'.next = σ.next + 1 := by rw [← hσ']; rfl
  refine ⟨?_, ?_, ?_, ?_, ?_, fun c hc => ?_, fun c hc hc' hne => ?_, fun hne => ?_⟩
  · rw [hpromoted, ← hσ']
    exact h.pcs_go (fun h0 => absurd h0 hi0) ⟨hi0, hon, rfl, hpos.symm⟩
  · rw [← hσ']
    exact h.started
  · rw [hother 0 hpos]
    exact h.count_zero
  · omega
  · rw [hpromoted, ← hσ']
    exact h.published
  · have hne : σ.next ≠ c := by omega
    rw [htotal _ rfl, h.fresh c (by omega), candidate, if_neg hne]
  · rw [hhelpers]
    rw [hpromoted] at hne
    by_cases hcn : c = σ.next
    · subst hcn
      have hfresh := h.fresh σ.next (.inr le_rfl)
      have hkeep := total_zero (keeping_le σ.next) hfresh
      have hlose := total_zero (losing_le σ.next) hfresh
      rw [hself, htotal (candidate σ.next) rfl, htotal (keeping σ.next) rfl,
        htotal (losing σ.next) rfl, hfresh, hkeep,
        hlose]
      refine ⟨?_, hasCopyDispose_add hsmall, ?_, fun hz => ?_, fun _ => ⟨?_, ?_⟩, fun _ => ⟨rfl, rfl⟩⟩
      · show count ((σ.object 0).flags + 2) = 2
        rw [count_add hsmall, h.count_zero]
      · simp [candidate]
      · simp [keeping] at hz
      · simp [keeping]
      · simp [losing]
    · have hne' : σ.next ≠ c := Ne.symm hcn
      have h₁ : candidate c (.keep σ.next 0) = 0 := if_neg hne'
      have h₂ : keeping c (.keep σ.next 0) = 0 := if_neg hne'
      have h₃ : losing c (.keep σ.next 0) = 0 := rfl
      rw [hother c hcn, htotal (candidate c) rfl, htotal (keeping c) rfl, htotal (losing c) rfl, h₁, h₂, h₃]
      exact h.loser c hc (by omega) hne
  · rw [hhelpers, hpromoted]
    rw [hpromoted] at hne
    have h₁ : candidate σ.promoted (.keep σ.next 0) = 0 := if_neg (by omega)
    have h₂ : own σ.promoted (.keep σ.next 0) = 0 := rfl
    have h₃ : freeing (.keep σ.next 0) = 0 := rfl
    have h₄ : disposing (.keep σ.next 0) = 0 := rfl
    rw [hother _ (by omega), htotal (candidate _) rfl, htotal (own _) rfl, htotal freeing rfl,
      htotal disposing rfl, h₁,
      h₂, h₃, h₄]
    exact h.winner hne

/-- The keep helper runs for a candidate. -/
theorem Promoted.keep (h : Promoted σ) {i c : ℕ} (hi : i < σ.started) (hpc : σ.place i = .keep c 0) :
    Promoted ((σ.write c { σ.object c with
      kept := (σ.object c).kept + helperRuns (σ.object 0), forwarding := c }).go i (.publish c 0)) := by
  have hok := h.pcs i hi
  rw [hpc] at hok
  obtain ⟨hi0, hon, -, hc0⟩ := hok
  obtain ⟨hpos, hlt, hne, hcount, hflags, howner, -, hb, hb'⟩ := h.candidate_loser (c := c) hi
      (by simp [hpc, candidate])
  have h₁ := total_go hi (candidate c) (.publish c 0)
  have h₂ := total_go hi (keeping c) (.publish c 0)
  have h₃ := total_go hi (losing c) (.publish c 0)
  simp only [hpc, candidate, keeping, losing, if_true] at h₁ h₂ h₃
  refine h.act hi (h.pcs_go (fun h0 => absurd h0 hi0) ⟨hi0, hon, rfl, hc0⟩) ⟨hpos, hlt⟩
      (fun d hd => ?_) (fun _ => ?_)
    (fun _ => ⟨hcount, hflags, ?_, fun _ => rfl, fun hb₁ => ?_, fun hb₁ => ?_⟩) fun heq => absurd heq hne
  · rw [hpc]
    constructor <;> simp [candidate, keeping, losing, Ne.symm hd]
  · rw [hpc]
    exact ⟨rfl, rfl, rfl⟩
  · show _ + (σ.object c).freed = 1
    omega
  · obtain ⟨hk, hd⟩ := hb hb₁
    have hruns : helperRuns (σ.object 0) = 1 := if_pos hb₁
    constructor
    · show (σ.object c).kept + helperRuns (σ.object 0) + _ = 1
      omega
    · show (σ.object c).disposed = _ + (σ.object c).freed
      omega
  · obtain ⟨hk, hd⟩ := hb' hb₁
    have hruns : helperRuns (σ.object 0) = 0 := if_neg (by rw [helpers] at hb₁; rw [hb₁]; simp)
    refine ⟨?_, hd⟩
    show (σ.object c).kept + helperRuns (σ.object 0) = 0
    omega

/-- The dispose helper runs for a candidate that was not published. -/
theorem Promoted.disposeLoser (h : Promoted σ) {i c expected : ℕ} (hi : i < σ.started)
    (hpc : σ.place i = .disposeLoser c expected) :
    Promoted ((σ.write c { σ.object c with
      disposed := (σ.object c).disposed + helperRuns (σ.object c) }).go i (.freeLoser c expected)) := by
  have hok := h.pcs i hi
  rw [hpc] at hok
  obtain ⟨hi0, -⟩ := id hok
  obtain ⟨hpos, hlt, hne, hcount, hflags, howner, hfwd, hb, hb'⟩ := h.candidate_loser (c := c) hi
      (by simp [hpc, candidate])
  have h₁ := total_go hi (candidate c) (.freeLoser c expected)
  have h₂ := total_go hi (keeping c) (.freeLoser c expected)
  have h₃ := total_go hi (losing c) (.freeLoser c expected)
  simp only [hpc, candidate, keeping, losing, if_true] at h₁ h₂ h₃
  refine h.act hi (h.pcs_go (fun h0 => absurd h0 hi0) hok) ⟨hpos, hlt⟩ (fun d hd => ?_) (fun _ => ?_)
    (fun _ => ⟨hcount, hflags, ?_, fun hz => hfwd (by omega), fun hb₁ => ?_, fun hb₁ => ?_⟩)
    fun heq => absurd heq hne
  · rw [hpc]
    constructor <;> simp [candidate, keeping, losing, Ne.symm hd]
  · rw [hpc]
    exact ⟨rfl, rfl, rfl⟩
  · show _ + (σ.object c).freed = 1
    omega
  · obtain ⟨hk, hd⟩ := hb hb₁
    have hruns := helperRuns_true (hflags.trans hb₁)
    constructor
    · show (σ.object c).kept + _ = 1
      omega
    · show (σ.object c).disposed + helperRuns (σ.object c) = _ + (σ.object c).freed
      omega
  · obtain ⟨hk, hd⟩ := hb' hb₁
    have hruns := helperRuns_false (hflags.trans hb₁)
    refine ⟨hk, ?_⟩
    show (σ.object c).disposed + helperRuns (σ.object c) = 0
    omega

/-- A candidate that was not published is freed. -/
theorem Promoted.freeLoser (h : Promoted σ) {i c expected : ℕ} (hi : i < σ.started)
    (hpc : σ.place i = .freeLoser c expected) :
    Promoted ((σ.write c { σ.object c with freed := (σ.object c).freed + 1 }).go i
      (.loadFlags expected)) := by
  have hok := h.pcs i hi
  rw [hpc] at hok
  obtain ⟨hi0, hon, -, hexpected⟩ := hok
  obtain ⟨hpos, hlt, hne, hcount, hflags, howner, hfwd, hb, hb'⟩ := h.candidate_loser (c := c) hi
      (by simp [hpc, candidate])
  have h₁ := total_go hi (candidate c) (.loadFlags expected)
  have h₂ := total_go hi (keeping c) (.loadFlags expected)
  have h₃ := total_go hi (losing c) (.loadFlags expected)
  simp only [hpc, candidate, keeping, losing, if_true] at h₁ h₂ h₃
  refine h.act hi (h.pcs_go (fun h0 => absurd h0 hi0) ⟨hi0, hon, hexpected⟩) ⟨hpos, hlt⟩
      (fun d hd => ?_) (fun _ => ?_)
    (fun _ => ⟨hcount, hflags, ?_, fun hz => hfwd (by omega), fun hb₁ => ?_, hb'⟩) fun heq => absurd heq hne
  · rw [hpc]
    constructor <;> simp [candidate, keeping, losing, Ne.symm hd]
  · rw [hpc]
    exact ⟨rfl, rfl, rfl⟩
  · show _ + ((σ.object c).freed + 1) = 1
    omega
  · obtain ⟨hk, hd⟩ := hb hb₁
    constructor
    · show (σ.object c).kept + _ = 1
      omega
    · show (σ.object c).disposed = _ + ((σ.object c).freed + 1)
      omega

/-! ## The published copy -/

/-- Before the promotion nobody is at a place that needs a published copy. -/
theorem PcOk.promote {on : Prop} {i c : ℕ} {pc : Pc} (h : PcOk 0 on i pc) : PcOk c on i pc := by
  cases pc <;> simp_all [PcOk]

theorem own_of_pcOk {on : Prop} {i c : ℕ} {pc : Pc} (h : PcOk 0 on i pc) (hi : i ≠ 0) : own c pc = 0 := by
  cases pc <;> simp_all [PcOk, own]

theorem freeing_of_pcOk {on : Prop} {i : ℕ} {pc : Pc} (h : PcOk 0 on i pc) : freeing pc = 0 := by
  cases pc <;> simp_all [PcOk, freeing]

theorem disposing_le (pc : Pc) : disposing pc ≤ freeing pc := by
  cases pc <;> simp [disposing, freeing]

/-- The compare-exchange publishes the candidate. -/
theorem Promoted.publish (h : Promoted σ) {i c : ℕ} (hi : i < σ.started) (hpc : σ.place i = .publish c 0)
    (hfirst : (σ.object 0).forwarding = 0) :
    Promoted (({ σ with published := c :: σ.published }.write 0
      { σ.object 0 with forwarding := c }).go i (.held c)) := by
  have hok := h.pcs i hi
  rw [hpc] at hok
  obtain ⟨hi0, hon, -, hc0⟩ := hok
  have hzero : σ.promoted = 0 := hfirst
  obtain ⟨hpos, hlt, hne, hcount, hflags, howner, hfwd, hb, hb'⟩ := h.candidate_loser (c := c) hi
      (by simp [hpc, candidate])
  have hpcs : ∀ j < σ.started, PcOk 0 (σ.place 0 = .onStack) j (σ.place j) := hzero ▸ h.pcs
  generalize hσ' : ({ σ with published := c :: σ.published }.write 0
      { σ.object 0 with forwarding := c }).go i (.held c)
    = σ'
  have hother : ∀ d, d ≠ 0 → σ'.object d = σ.object d := by
    intro d hd
    rw [← hσ']
    exact Function.update_of_ne hd ..
  have hself : σ'.object 0 = { σ.object 0 with forwarding := c } := by
    rw [← hσ']
    show Function.update σ.object 0 { σ.object 0 with forwarding := c } 0 = _
    rw [Function.update_self]
  have hpromoted : σ'.promoted = c := by
    unfold promoted
    rw [hself]
  have hhelpers : σ'.helpers = σ.helpers := by
    unfold helpers
    rw [hself]
  have hgo : ∀ f : Pc → ℕ, σ'.total f + f (.publish c 0) = σ.total f + f (.held c) := by
    intro f
    rw [← hσ', ← hpc]
    exact total_go hi f (.held c)
  -- nobody else has the candidate
  have hnobody : (σ.go i .gone).total (candidate c) = 0 := by
    have := total_go hi (candidate c) .gone
    simp only [hpc, candidate, if_true] at this
    omega
  have hkeeping : σ.total (keeping c) = 0 := by
    have h₁ := total_go hi (keeping c) .gone
    have h₂ := total_zero (keeping_le c) hnobody
    simp only [hpc, keeping] at h₁
    omega
  have hlosing : σ.total (losing c) = 0 := by
    have h₁ := total_go hi (losing c) .gone
    have h₂ := total_zero (losing_le c) hnobody
    simp only [hpc, losing] at h₁
    omega
  have hfreeing : σ.total freeing = 0 := tally_eq_zero.mpr fun j hj => freeing_of_pcOk (hpcs j hj)
  have hdisposing := total_zero disposing_le hfreeing
  -- the frame owns the copy now
  have hframe : σ.total (own c) = 1 := by
    have h₁ := total_go h.started (own c) .gone
    have h₂ : (σ.go 0 .gone).total (own c) = 0 := by
      apply tally_eq_zero.mpr
      intro j hj
      show own c (Function.update σ.place 0 .gone j) = 0
      by_cases hj0 : j = 0
      · rw [hj0, Function.update_self]
        rfl
      · rw [Function.update_of_ne hj0]
        exact own_of_pcOk (hpcs j hj) hj0
    simp only [hon, own, if_neg hc0] at h₁
    omega
  refine ⟨?_, ?_, ?_, ?_, ?_, fun d hd => ?_, fun d hd hd' hdne => ?_, fun _ => ?_⟩
  · rw [hpromoted]
    intro j hj
    have hj : j < σ.started := by rwa [← hσ'] at hj
    have hframe' : (σ'.place 0 = .onStack) = (σ.place 0 = .onStack) := by
      have : σ'.place 0 = σ.place 0 := by
        rw [← hσ']
        exact Function.update_of_ne (Ne.symm hi0) ..
      rw [this]
    rw [hframe']
    by_cases hji : j = i
    · have : σ'.place j = .held c := by
        rw [← hσ', hji]
        exact Function.update_self ..
      rw [this, hji]
      exact ⟨hi0, rfl, hc0⟩
    · have : σ'.place j = σ.place j := by
        rw [← hσ']
        exact Function.update_of_ne hji ..
      rw [this]
      exact PcOk.promote (hpcs j hj)
  · rw [← hσ']
    exact h.started
  · rw [hself]
    exact h.count_zero
  · rw [hpromoted, ← hσ']
    exact hlt
  · have hpublished := h.published
    rw [hzero, if_pos rfl] at hpublished
    rw [hpromoted, if_neg hc0, ← hσ']
    show c :: σ.published = [c]
    rw [hpublished]
  · have hd : d = 0 ∨ σ.next ≤ d := by rwa [← hσ'] at hd
    have hg := hgo (candidate d)
    have hf := h.fresh d hd
    simp only [candidate] at hg
    omega
  · have hd' : d < σ.next := by rwa [← hσ'] at hd'
    rw [hpromoted] at hdne
    have hl := h.loser d hd hd' (by omega)
    have h₁ := hgo (candidate d)
    have h₂ := hgo (keeping d)
    have h₃ := hgo (losing d)
    simp only [candidate, keeping, losing, if_neg (Ne.symm hdne), Nat.add_zero] at h₁ h₂ h₃
    rw [hhelpers, hother d (by omega), h₁, h₂, h₃]
    exact hl
  · have h₁ := hgo (candidate c)
    have h₂ := hgo (own c)
    have h₃ := hgo freeing
    have h₄ := hgo disposing
    simp only [candidate, own, freeing, disposing, if_true, Nat.add_zero] at h₁ h₂ h₃ h₄
    have hown : σ'.total (own c) = 2 := by omega
    rw [hhelpers, hpromoted, hother c hc0, hown, h₃, h₄, hfreeing, hdisposing]
    refine ⟨hfwd hkeeping, hflags, by omega, hcount, ?_, fun hb₁ => ?_, hb'⟩
    · rw [if_neg (by decide)]
      omega
    · obtain ⟨hk, hd⟩ := hb hb₁
      rw [if_neg (by decide)]
      omega

/-- While the frame is there, it owns the published copy. -/
theorem Promoted.owned_by_frame (h : Promoted σ) (hon : σ.place 0 = .onStack) (hne : σ.promoted ≠ 0) :
    0 < σ.total (own σ.promoted) := by
  have hle := le_total h.started (own σ.promoted)
  simp only [hon, own, if_neg hne] at hle
  omega

theorem Promoted.promoted_lt (h : Promoted σ) (hne : σ.promoted ≠ 0) : 0 < σ.promoted ∧ σ.promoted < σ.next :=
  ⟨by omega, h.next⟩

/-- The compare-exchange of `increment24`. -/
theorem Promoted.increment (h : Promoted σ) {i old : ℕ} (hi : i < σ.started)
    (hpc : σ.place i = .increment σ.promoted old) (hold : (σ.object σ.promoted).flags = old) :
    Promoted ((σ.write σ.promoted { σ.object σ.promoted with flags := old + 1 }).go i
      (.held σ.promoted)) := by
  have hok := h.pcs i hi
  rw [hpc] at hok
  obtain ⟨hi0, hon, -, hne, hfew⟩ := hok
  obtain ⟨hfwd, hflags, hcand, hcount, howner, hb, hb'⟩ := h.winner hne
  have hframe := h.owned_by_frame hon hne
  have hsmall : count old + 1 ≤ refcountMask := hfew
  have h₁ := total_go hi (candidate σ.promoted) (.held σ.promoted)
  have h₂ := total_go hi (own σ.promoted) (.held σ.promoted)
  have h₃ := total_go hi freeing (.held σ.promoted)
  have h₄ := total_go hi disposing (.held σ.promoted)
  simp only [hpc, candidate, own, freeing, disposing, Nat.add_zero] at h₁ h₂ h₃ h₄
  rw [hold] at hcount hflags
  rw [if_neg (by omega)] at howner
  refine h.act hi (h.pcs_go (fun h0 => absurd h0 hi0) ⟨hi0, rfl, hne⟩) (h.promoted_lt hne)
    (fun d hd => by rw [hpc]; exact ⟨rfl, rfl, rfl⟩) (fun hd => absurd rfl hd) (fun hd => absurd rfl hd)
    fun _ => ⟨hfwd, (hasCopyDispose_add hsmall).trans hflags, by omega, ?_, ?_, fun hb₁ => ?_, hb'⟩
  · show count (old + 1) = _
    rw [count_add hsmall]
    omega
  · rw [if_neg (by omega)]
    show _ + (σ.object σ.promoted).freed = 1
    omega
  · obtain ⟨hk, hd⟩ := hb hb₁
    rw [if_neg (by omega)] at hd
    rw [if_neg (by omega)]
    refine ⟨hk, ?_⟩
    show _ + (σ.object σ.promoted).disposed = 1
    omega

/-- The compare-exchange of `decrement24`. -/
theorem Promoted.decrement (h : Promoted σ) {i old : ℕ} (hi : i < σ.started)
    (hpc : σ.place i = .decrement σ.promoted old) (hold : (σ.object σ.promoted).flags = old) :
    Promoted ((σ.write σ.promoted { σ.object σ.promoted with flags := old - 1 }).go i
      (if count old - 1 = 0 then .disposeCopy σ.promoted else .gone)) := by
  have hok := h.pcs i hi
  rw [hpc] at hok
  obtain ⟨-, hne, hpos, hfew⟩ := hok
  obtain ⟨hfwd, hflags, hcand, hcount, howner, hb, hb'⟩ := h.winner hne
  rw [hold] at hcount hflags
  have hpred : count (old - 1) = count old - 1 ∧ hasCopyDispose (old - 1) = hasCopyDispose old := by
    have hle : count old ≤ old := Nat.mod_le ..
    have h₁ : count (old - 1) = count old - 1 := by
      unfold count refcountMask at *
      omega
    have h₂ : count (old - 1) + 1 ≤ refcountMask := by omega
    have h₃ := hasCopyDispose_add h₂
    rw [Nat.sub_add_cancel (by omega)] at h₃
    exact ⟨h₁, h₃.symm⟩
  obtain ⟨hcount', hflags'⟩ := hpred
  generalize hpc' : (if count old - 1 = 0 then Pc.disposeCopy σ.promoted else .gone) = pc'
  have hweights : own σ.promoted pc' = 0 ∧ (∀ c, candidate c pc' = 0) ∧ (∀ c, keeping c pc' = 0) ∧
      (∀ c, losing c pc' = 0) ∧ freeing pc' = (if count old - 1 = 0 then 1 else 0) ∧
      disposing pc' = (if count old - 1 = 0 then 1 else 0) ∧ pc' ≠ .onStack ∧
      PcOk σ.promoted (σ.place 0 = .onStack) i pc' := by
    rw [← hpc']
    split
    · exact ⟨rfl, fun _ => rfl, fun _ => rfl, fun _ => rfl, rfl, rfl, nofun, rfl, hne⟩
    · exact ⟨rfl, fun _ => rfl, fun _ => rfl, fun _ => rfl, rfl, rfl, nofun, trivial⟩
  obtain ⟨hown, hcandidate, hkeeping, hlosing, hfreeing, hdisposing, hnot, hok'⟩ := hweights
  have h₁ := total_go hi (candidate σ.promoted) pc'
  have h₂ := total_go hi (own σ.promoted) pc'
  have h₃ := total_go hi freeing pc'
  have h₄ := total_go hi disposing pc'
  rw [hpc, hcandidate] at h₁
  rw [hpc, hown] at h₂
  rw [hpc, hfreeing] at h₃
  rw [hpc, hdisposing] at h₄
  simp only [candidate, own, freeing, disposing, Nat.add_zero] at h₁ h₂ h₃ h₄
  have hframe : i = 0 → σ.place 0 ≠ .onStack ∧ pc' ≠ .onStack := by
    rintro rfl
    rw [hpc]
    exact ⟨nofun, hnot⟩
  rw [if_neg (by omega)] at howner
  refine h.act hi (h.pcs_go hframe hok') (h.promoted_lt hne)
    (fun d hd => ?_) (fun hd => absurd rfl hd) (fun hd => absurd rfl hd)
    fun _ => ⟨hfwd, hflags'.trans hflags, by omega, ?_, ?_, fun hb₁ => ?_, hb'⟩
  · rw [hpc]
    exact ⟨hcandidate d, hkeeping d, hlosing d⟩
  · show count (old - 1) = _
    omega
  · show _ + _ + (σ.object σ.promoted).freed = 1
    split <;> split at h₃ <;> omega
  · obtain ⟨hk, hd⟩ := hb hb₁
    rw [if_neg (by omega)] at hd
    refine ⟨hk, ?_⟩
    show _ + _ + (σ.object σ.promoted).disposed = 1
    split <;> split at h₄ <;> omega

/-- A participant frees the published copy. -/
theorem Promoted.free_pending (h : Promoted σ) {i : ℕ} (hi : i < σ.started) (hf : freeing (σ.place i) = 1)
    (hne : σ.promoted ≠ 0) : σ.total (own σ.promoted) = 0 ∧ (σ.object σ.promoted).freed = 0 ∧
    σ.total freeing = 1 := by
  have hle := le_total hi freeing
  have howner := (h.winner hne).owner
  split at howner <;> omega

/-- The dispose helper runs for the published copy. -/
theorem Promoted.disposeCopy (h : Promoted σ) {i : ℕ} (hi : i < σ.started)
    (hpc : σ.place i = .disposeCopy σ.promoted) :
    Promoted ((σ.write σ.promoted { σ.object σ.promoted with
      disposed := (σ.object σ.promoted).disposed + helperRuns (σ.object σ.promoted) }).go i
          (.freeCopy σ.promoted)) := by
  have hok := h.pcs i hi
  rw [hpc] at hok
  have hne := hok.2
  obtain ⟨hfwd, hflags, hcand, hcount, howner, hb, hb'⟩ := h.winner hne
  obtain ⟨hown, hfreed, hone⟩ := h.free_pending hi (by rw [hpc]; rfl) hne
  have h₁ := total_go hi (candidate σ.promoted) (.freeCopy σ.promoted)
  have h₂ := total_go hi (own σ.promoted) (.freeCopy σ.promoted)
  have h₃ := total_go hi freeing (.freeCopy σ.promoted)
  have h₄ := total_go hi disposing (.freeCopy σ.promoted)
  simp only [hpc, candidate, own, freeing, disposing, Nat.add_zero] at h₁ h₂ h₃ h₄
  have hframe : i = 0 → σ.place 0 ≠ .onStack ∧ Pc.freeCopy σ.promoted ≠ .onStack := by
    rintro rfl
    rw [hpc]
    exact ⟨nofun, nofun⟩
  refine h.act hi (h.pcs_go hframe ⟨rfl, hne⟩) (h.promoted_lt hne)
    (fun d hd => by rw [hpc]; exact ⟨rfl, rfl, rfl⟩) (fun hd => absurd rfl hd) (fun hd => absurd rfl hd)
    fun _ => ⟨hfwd, hflags, by omega, by rw [h₂]; exact hcount, ?_, fun hb₁ => ?_, fun hb₁ => ?_⟩
  · rw [h₂, if_pos hown]
    show _ + _ + (σ.object σ.promoted).freed = 1
    omega
  · obtain ⟨hk, hd⟩ := hb hb₁
    have hruns := helperRuns_true (hflags.trans hb₁)
    rw [if_pos hown] at hd
    rw [h₂, if_pos hown]
    refine ⟨hk, ?_⟩
    show _ + _ + ((σ.object σ.promoted).disposed + helperRuns (σ.object σ.promoted)) = 1
    omega
  · obtain ⟨hk, hd⟩ := hb' hb₁
    have hruns := helperRuns_false (hflags.trans hb₁)
    refine ⟨hk, ?_⟩
    show (σ.object σ.promoted).disposed + helperRuns (σ.object σ.promoted) = 0
    omega

/-- The published copy is freed. -/
theorem Promoted.freeCopy (h : Promoted σ) {i : ℕ} (hi : i < σ.started)
    (hpc : σ.place i = .freeCopy σ.promoted) :
    Promoted ((σ.write σ.promoted { σ.object σ.promoted with
      freed := (σ.object σ.promoted).freed + 1 }).go i .gone) := by
  have hok := h.pcs i hi
  rw [hpc] at hok
  have hne := hok.2
  obtain ⟨hfwd, hflags, hcand, hcount, howner, hb, hb'⟩ := h.winner hne
  obtain ⟨hown, hfreed, hone⟩ := h.free_pending hi (by rw [hpc]; rfl) hne
  have h₁ := total_go hi (candidate σ.promoted) .gone
  have h₂ := total_go hi (own σ.promoted) .gone
  have h₃ := total_go hi freeing .gone
  have h₄ := total_go hi disposing .gone
  simp only [hpc, candidate, own, freeing, disposing, Nat.add_zero] at h₁ h₂ h₃ h₄
  have hframe : i = 0 → σ.place 0 ≠ .onStack ∧ Pc.gone ≠ .onStack := by
    rintro rfl
    rw [hpc]
    exact ⟨nofun, nofun⟩
  refine h.act hi (h.pcs_go hframe trivial) (h.promoted_lt hne)
    (fun d hd => by rw [hpc]; exact ⟨rfl, rfl, rfl⟩) (fun hd => absurd rfl hd) (fun hd => absurd rfl hd)
    fun _ => ⟨hfwd, hflags, by omega, by rw [h₂]; exact hcount, ?_, fun hb₁ => ?_, hb'⟩
  · rw [h₂, if_pos hown]
    show _ + _ + ((σ.object σ.promoted).freed + 1) = 1
    omega
  · obtain ⟨hk, hd⟩ := hb hb₁
    rw [if_pos hown] at hd
    rw [h₂, if_pos hown]
    refine ⟨hk, ?_⟩
    show _ + _ + (σ.object σ.promoted).disposed = 1
    omega

/-! ## Steps -/

/-- A block starts to be copied. -/
theorem Promoted.copy (h : Promoted σ) (hon : σ.place 0 = .onStack) :
    Promoted { σ with place := Function.update σ.place σ.started (.load 0), started := σ.started + 1 } := by
  have htotal : ∀ f : Pc → ℕ, f (.load 0) = 0 →
      tally f (Function.update σ.place σ.started (.load 0)) (σ.started + 1) = σ.total f := by
    intro f hf
    rw [tally_succ, hf]
    rfl
  have hframe : Function.update σ.place σ.started (.load 0) 0 = σ.place 0 :=
    Function.update_of_ne h.started.ne ..
  refine ⟨fun j hj => ?_, Nat.succ_pos _, h.count_zero, h.next, h.published, fun c hc => ?_,
    fun c hc hc' hne => ?_, fun hne => ?_⟩
  · show PcOk σ.promoted (Function.update σ.place σ.started (.load 0) 0 = .onStack) j
      (Function.update σ.place σ.started (.load 0) j)
    have hj : j < σ.started + 1 := hj
    rw [hframe]
    rcases Nat.lt_succ_iff_lt_or_eq.mp hj with hj | rfl
    · rw [Function.update_of_ne hj.ne]
      exact h.pcs j hj
    · rw [Function.update_self]
      exact ⟨h.started.ne', hon, rfl⟩
  · exact (htotal _ rfl).trans (h.fresh c hc)
  · have hl := h.loser c hc hc' hne
    rw [← htotal (candidate c) rfl, ← htotal (keeping c) rfl, ← htotal (losing c) rfl] at hl
    exact hl
  · have hw := h.winner hne
    rw [← htotal (candidate _) rfl, ← htotal (own _) rfl, ← htotal freeing rfl, ← htotal disposing rfl] at hw
    exact hw

/-- Without the frame nobody may be in `_Block_object_assign`. -/
theorem PcOk.leave {h i : ℕ} {pc : Pc} (hok : PcOk h (Pc.onStack = .onStack) i pc)
    (hno : pc.assigning = false)
    {on : Prop} : PcOk h on i pc := by
  cases pc <;> simp_all [PcOk, Pc.assigning]

theorem Promoted.leave (h : Promoted σ) (hon : σ.place 0 = .onStack)
    (hnone : ∀ i < σ.started, (σ.place i).assigning = false) : Promoted (σ.go 0 (.disposeLoad 0)) := by
  refine h.quiet h.started (fun j hj => ?_) (fun c => ?_) ?_
  · show PcOk σ.promoted _ j (Function.update σ.place 0 (.disposeLoad 0) j)
    by_cases hj0 : j = 0
    · rw [hj0, Function.update_self]
      exact .inl ⟨rfl, rfl⟩
    · rw [Function.update_of_ne hj0]
      have hok := h.pcs j hj
      rw [hon] at hok
      exact PcOk.leave hok (hnone j hj)
  · rw [hon]
    exact ⟨rfl, rfl, rfl⟩
  · rw [hon]
    refine ⟨?_, rfl, rfl⟩
    simp [own]

theorem Promoted.dispose_start (h : Promoted σ) {i c : ℕ} (hi : i < σ.started) (hpc : σ.place i = .held c) :
    Promoted (σ.go i (.disposeLoad c)) := by
  have hok := h.pcs i hi
  rw [hpc] at hok
  obtain ⟨hi0, rfl, hne⟩ := hok
  refine h.quiet hi (h.pcs_go (fun h0 => absurd h0 hi0) (.inr ⟨hi0, rfl, hne⟩)) (fun d => ?_) ?_
  · rw [hpc]
    exact ⟨rfl, rfl, rfl⟩
  · rw [hpc]
    refine ⟨?_, rfl, rfl⟩
    simp [own, hne]

/-- A step in `_Block_object_assign`. -/
theorem Promoted.assign (h : Promoted σ) (hfew : FewOwners σ) {i : ℕ} {spurious : Bool} (hi : i < σ.started)
    (hs : σ.assign i spurious (σ.place i) = some σ') : Promoted σ' := by
  have hok := h.pcs i hi
  have hcount : σ.promoted ≠ 0 → count (σ.object σ.promoted).flags < refcountMask := by
    intro hne
    rw [(h.winner hne).count]
    exact hfew
  generalize hpc : σ.place i = pc at hs hok
  cases pc with
  | load src =>
    obtain ⟨hi0, hon, rfl⟩ := hok
    rw [← Option.some.inj hs]
    refine h.quiet hi (h.pcs_go (fun h0 => absurd h0 hi0) ⟨hi0, hon, .inr rfl⟩) (fun d => ?_) ?_ <;>
        rw [hpc] <;>
      exact ⟨rfl, rfl, rfl⟩
  | test src =>
    obtain ⟨hi0, hon, hsrc⟩ := hok
    rw [← Option.some.inj hs]
    split
    · next hz =>
      -- the count of the published copy is not 0 while the frame is there
      have hsrc0 : src = 0 := by
        rcases hsrc with rfl | rfl
        · rfl
        · by_contra hne
          have := (h.winner hne).count
          have := h.owned_by_frame hon hne
          omega
      refine h.quiet hi (h.pcs_go (fun h0 => absurd h0 hi0) ⟨hi0, hon, hsrc0⟩) (fun d => ?_) ?_ <;>
          rw [hpc] <;>
        exact ⟨rfl, rfl, rfl⟩
    · next hz =>
      have hsrc' : src = σ.promoted ∧ σ.promoted ≠ 0 := by
        have hne : src ≠ 0 := by
          rintro rfl
          exact hz h.count_zero
        rcases hsrc with rfl | rfl
        · exact absurd rfl hne
        · exact ⟨rfl, hne⟩
      refine h.quiet hi (h.pcs_go (fun h0 => absurd h0 hi0) ⟨hi0, hon, hsrc'⟩) (fun d => ?_) ?_ <;>
          rw [hpc] <;>
        exact ⟨rfl, rfl, rfl⟩
  | allocate src =>
    obtain ⟨-, -, rfl⟩ := hok
    rw [← Option.some.inj hs]
    exact h.allocate hi hpc
  | keep c src =>
    obtain ⟨-, -, rfl, -⟩ := hok
    rw [← Option.some.inj hs]
    exact h.keep hi hpc
  | publish c src =>
    obtain ⟨hi0, hon, rfl, hc0⟩ := hok
    rw [State.assign] at hs
    split at hs
    · next hfirst =>
      rw [← Option.some.inj hs]
      exact h.publish hi hpc hfirst
    · next hfirst =>
      rw [← Option.some.inj hs]
      refine h.quiet hi (h.pcs_go (fun h0 => absurd h0 hi0) ⟨hi0, hon, hc0, rfl, hfirst⟩) (fun d => ?_) ?_ <;>
        rw [hpc] <;> exact ⟨rfl, rfl, rfl⟩
  | disposeLoser c expected =>
    rw [← Option.some.inj hs]
    exact h.disposeLoser hi hpc
  | freeLoser c expected =>
    rw [← Option.some.inj hs]
    exact h.freeLoser hi hpc
  | loadFlags ref =>
    obtain ⟨hi0, hon, rfl, hne⟩ := hok
    rw [← Option.some.inj hs]
    refine h.quiet hi (h.pcs_go (fun h0 => absurd h0 hi0) ⟨hi0, hon, rfl, hne, hcount hne⟩)
        (fun d => ?_) ?_ <;>
      rw [hpc] <;> exact ⟨rfl, rfl, rfl⟩
  | increment ref old =>
    obtain ⟨hi0, hon, rfl, hne, hlt⟩ := hok
    rw [State.assign, if_neg hlt.ne] at hs
    split at hs
    · next hcas =>
      rw [← Option.some.inj hs]
      exact h.increment hi hpc hcas.1
    · rw [← Option.some.inj hs]
      refine h.quiet hi (h.pcs_go (fun h0 => absurd h0 hi0) ⟨hi0, hon, rfl, hne, hcount hne⟩)
          (fun d => ?_) ?_ <;>
        rw [hpc] <;> exact ⟨rfl, rfl, rfl⟩
  | onStack | held c | disposeLoad src | disposeTest src | disposeLoadFlags ref | decrement ref old
  | disposeCopy src | freeCopy src | gone => cases hs

/-- A step in `_Block_object_dispose`. -/
theorem Promoted.dispose (h : Promoted σ) (hfew : FewOwners σ) {i : ℕ} {spurious : Bool} (hi : i < σ.started)
    (hs : σ.dispose i spurious (σ.place i) = some σ') : Promoted σ' := by
  have hok := h.pcs i hi
  have hcount : σ.promoted ≠ 0 → own σ.promoted (σ.place i) = 1 → 0 < count (σ.object σ.promoted).flags ∧
      count (σ.object σ.promoted).flags < refcountMask := by
    intro hne hown
    have hle := le_total hi (own σ.promoted)
    rw [(h.winner hne).count]
    exact ⟨by omega, hfew⟩
  generalize hpc : σ.place i = pc at hs hok
  have hframe : pc ≠ .onStack → ∀ pc' : Pc, pc' ≠ .onStack → i = 0 → σ.place 0 ≠ .onStack ∧
      pc' ≠ .onStack := by
    rintro hne pc' hne' rfl
    exact ⟨hpc ▸ hne, hne'⟩
  cases pc with
  | disposeLoad src =>
    rw [← Option.some.inj hs]
    have hsrc : (σ.object src).forwarding = σ.promoted := by
      rcases hok with ⟨-, rfl⟩ | ⟨-, rfl, hne⟩
      · rfl
      · exact (h.winner hne).forwarding
    rw [hsrc]
    by_cases hne : σ.promoted = 0
    · have hsrc0 : src = 0 := by
        rcases hok with ⟨-, rfl⟩ | ⟨-, -, hne'⟩
        · rfl
        · exact absurd hne hne'
      rw [if_pos hne]
      refine h.quiet hi (h.pcs_go (hframe nofun _ nofun) trivial) (fun d => ?_) ?_ <;> rw [hpc]
      · exact ⟨rfl, rfl, rfl⟩
      · refine ⟨?_, rfl, rfl⟩
        simp [own, hsrc0, hne]
    · rw [if_neg hne]
      refine h.quiet hi (h.pcs_go (hframe nofun _ nofun) ⟨rfl, hne⟩) (fun d => ?_) ?_ <;> rw [hpc]
      · exact ⟨rfl, rfl, rfl⟩
      · refine ⟨?_, rfl, rfl⟩
        simp [own, hne]
  | disposeTest src =>
    obtain ⟨rfl, hne⟩ := hok
    rw [← Option.some.inj hs, if_neg (hcount hne (by rw [hpc]; rfl)).1.ne']
    refine h.quiet hi (h.pcs_go (hframe nofun _ nofun) ⟨rfl, hne⟩) (fun d => ?_) ?_ <;> rw [hpc] <;>
      exact ⟨rfl, rfl, rfl⟩
  | disposeLoadFlags ref =>
    obtain ⟨rfl, hne⟩ := hok
    rw [← Option.some.inj hs]
    refine h.quiet hi (h.pcs_go (hframe nofun _ nofun) ⟨rfl, hne, hcount hne (by rw [hpc]; rfl)⟩)
        (fun d => ?_) ?_ <;>
      rw [hpc] <;> exact ⟨rfl, rfl, rfl⟩
  | decrement ref old =>
    obtain ⟨rfl, hne, hpos, hlt⟩ := hok
    rw [State.dispose, if_neg hlt.ne, if_neg hpos.ne'] at hs
    split at hs
    · next hcas =>
      rw [← Option.some.inj hs]
      exact h.decrement hi hpc hcas.1
    · rw [← Option.some.inj hs]
      refine h.quiet hi (h.pcs_go (hframe nofun _ nofun) ⟨rfl, hne, hcount hne (by rw [hpc]; rfl)⟩)
          (fun d => ?_) ?_ <;>
        rw [hpc] <;> exact ⟨rfl, rfl, rfl⟩
  | disposeCopy src =>
    obtain ⟨rfl, -⟩ := hok
    rw [← Option.some.inj hs]
    exact h.disposeCopy hi hpc
  | freeCopy src =>
    obtain ⟨rfl, -⟩ := hok
    rw [← Option.some.inj hs]
    exact h.freeCopy hi hpc
  | onStack | load src | test src | allocate src | keep c src | publish c src | disposeLoser c expected
  | freeLoser c expected | loadFlags ref | increment ref old | held c | gone => cases hs

/-- What every step keeps. -/
theorem Promoted.step (h : Promoted σ) (hfew : FewOwners σ) {a : Act} (hs : Step σ a σ') : Promoted σ' := by
  unfold Step at hs
  cases a with
  | copy =>
    obtain ⟨hon, hs⟩ := Option.ite_none_right_eq_some.mp hs
    rw [← Option.some.inj hs]
    exact h.copy hon
  | step i spurious =>
    obtain ⟨hi, hs⟩ := Option.ite_none_right_eq_some.mp hs
    rcases Option.or_eq_some_iff.mp hs with hs | ⟨-, hs⟩
    · exact h.assign hfew hi hs
    · exact h.dispose hfew hi hs
  | dispose i =>
    obtain ⟨hi, hs⟩ := Option.ite_none_right_eq_some.mp hs
    split at hs
    · next c hpc =>
      rw [← Option.some.inj hs]
      exact h.dispose_start hi hpc
    · cases hs
  | leave =>
    obtain ⟨⟨hon, hnone⟩, hs⟩ := Option.ite_none_right_eq_some.mp hs
    rw [← Option.some.inj hs]
    exact h.leave hon hnone

theorem Initial.promoted (h : Initial σ) : Promoted σ := by
  have hzero : σ.promoted = 0 := h.forwarding
  have htotal : ∀ f : Pc → ℕ, σ.total f = f .onStack := by
    intro f
    unfold total tally
    rw [h.started, Finset.sum_range_one, h.place]
  refine ⟨fun i hi => ?_, ?_, h.flags, ?_, ?_, fun c _ => ?_, fun c hc hc' => ?_, fun hne => absurd hzero hne⟩
  · have hi0 : i = 0 := by
      have := h.started
      omega
    rw [hi0, h.place]
    exact rfl
  · rw [h.started]
    exact Nat.one_pos
  · rw [hzero, h.next]
    exact Nat.one_pos
  · rw [hzero, if_pos rfl]
    exact h.published
  · rw [htotal]
    rfl
  · have := h.next
    omega

/-! ## Runs -/

/-- The blocks on the heap that have a copy and have not given it up. -/
def holders (σ : State) : Finset ℕ := (Finset.Ico 1 σ.started).filter fun i => (σ.place i).holds

/-- One while the frame has the variable. -/
def frameHolds (σ : State) : ℕ := if (σ.place 0).holds then 1 else 0

theorem total_own {h : ℕ} (hne : h ≠ 0) (hpos : 0 < σ.started) :
    σ.total (own h) = σ.holders.card + σ.frameHolds := by
  have hown : ∀ pc, own h pc = if pc.holds then 1 else 0 := by
    intro pc
    cases pc <;> simp [own, Pc.holds, hne]
  unfold total tally holders frameHolds
  rw [Finset.range_eq_Ico, Finset.sum_eq_sum_Ico_succ_bot hpos, Finset.card_filter, hown, Nat.add_comm]
  congr 1
  exact Finset.sum_congr rfl fun i _ => hown (σ.place i)

/-- As long as there are fewer than 2^24 − 1 owners: one copy is published at most, and every
    `_Block_object_assign` returns it; its count is the number of blocks that hold it, and one more for the
    frame; its keep helper ran once, it is freed at most once, when nobody holds it and its dispose helper has
    run, and it has been freed when all have gone; any other copy is freed without being published. -/
theorem promotion_linear {σ₀ σ : State} (h₀ : Initial σ₀)
    (h : Runs (fun σ a σ' => FewOwners σ ∧ Step σ a σ') σ₀ σ) :
    (σ.published = if σ.promoted = 0 then [] else [σ.promoted]) ∧
    (∀ i < σ.started, ∀ c, σ.place i = .held c → c = σ.promoted ∧ σ.promoted ≠ 0) ∧
    (σ.promoted ≠ 0 →
      count (σ.object σ.promoted).flags = σ.holders.card + σ.frameHolds ∧
      (σ.object σ.promoted).kept = helperRuns (σ.object 0) ∧
      (σ.object σ.promoted).freed ≤ 1 ∧
      ((σ.object σ.promoted).freed = 1 → σ.holders = ∅ ∧ σ.frameHolds = 0 ∧
        (σ.object σ.promoted).disposed = (σ.object σ.promoted).kept) ∧
      ((∀ i < σ.started, σ.place i = .gone) → (σ.object σ.promoted).freed = 1)) ∧
    ∀ c, 0 < c → c < σ.next → c ≠ σ.promoted →
      c ∉ σ.published ∧ (σ.object c).freed ≤ 1 ∧
      ((σ.object c).freed = 1 → (σ.object c).disposed = (σ.object c).kept) ∧
      ((σ.object c).freed = 0 → ∃ i < σ.started, candidate c (σ.place i) = 1) := by
  have hp : Promoted σ := h.invariant h₀.promoted fun _ _ _ hp hs => hp.step hs.1 hs.2
  refine ⟨hp.published, fun i hi c hpc => ?_, fun hne => ?_, fun c hc hc' hne => ?_⟩
  · have hok := hp.pcs i hi
    rw [hpc] at hok
    exact ⟨hok.2.1, hok.2.2⟩
  · obtain ⟨-, hflags, -, hcount, howner, hb, hb'⟩ := hp.winner hne
    rw [total_own hne hp.started] at hcount howner hb
    have hbalance : (σ.object σ.promoted).kept = helperRuns (σ.object 0) ∧
        (σ.holders.card + σ.frameHolds = 0 →
        σ.total freeing = 0 → (σ.object σ.promoted).disposed = (σ.object σ.promoted).kept) := by
      cases hhelp : σ.helpers with
      | true =>
        obtain ⟨hk, hd⟩ := hb hhelp
        rw [helperRuns_true hhelp]
        refine ⟨hk, fun hz hf => ?_⟩
        have := total_zero (σ := σ) disposing_le hf
        rw [if_pos hz] at hd
        omega
      | false =>
        obtain ⟨hk, hd⟩ := hb' hhelp
        rw [helperRuns_false hhelp]
        exact ⟨hk, fun _ _ => hd.trans hk.symm⟩
    refine ⟨hcount, hbalance.1, by omega, fun hfreed => ?_, fun hgone => ?_⟩
    · have hz : σ.holders.card + σ.frameHolds = 0 := by
        by_contra hnz
        rw [if_neg hnz] at howner
        omega
      rw [if_pos hz] at howner
      exact ⟨Finset.card_eq_zero.mp (by omega), by omega, hbalance.2 hz (by omega)⟩
    · have hz : σ.holders.card + σ.frameHolds = 0 := by
        rw [← total_own hne hp.started]
        apply tally_eq_zero.mpr
        intro i hi
        rw [hgone i hi]
        rfl
      have hf : σ.total freeing = 0 := by
        apply tally_eq_zero.mpr
        intro i hi
        rw [hgone i hi]
        rfl
      rw [if_pos hz] at howner
      omega
  · obtain ⟨-, -, howner, -, hb, hb'⟩ := hp.loser c hc hc' hne
    refine ⟨?_, by omega, fun hfreed => ?_, fun hfreed => ?_⟩
    · rw [hp.published]
      split <;> simp [hne]
    · have hz : σ.total (candidate c) = 0 := by omega
      have hk := total_zero (keeping_le c) hz
      have hl := total_zero (losing_le c) hz
      cases hhelp : σ.helpers with
      | true =>
        obtain ⟨h₁, h₂⟩ := hb hhelp
        omega
      | false =>
        obtain ⟨h₁, h₂⟩ := hb' hhelp
        omega
    · by_contra hnone
      have hz : σ.total (candidate c) = 0 := by
        apply tally_eq_zero.mpr
        intro i hi
        by_contra hnz
        refine hnone ⟨i, hi, ?_⟩
        have hle := le_total hi (candidate c)
        omega
      omega

instance (σ : State) : Decidable (FewOwners σ) := Nat.decLt _ _

/-- A list of actions, with few owners all along. -/
def performAll (σ : State) : List Act → Option State
  | [] => some σ
  | a :: as => if FewOwners σ then (σ.perform a).bind fun σ => performAll σ as else none

theorem performAll_runs : ∀ {as : List Act} {σ σ' : State}, performAll σ as = some σ' →
    Runs (fun σ a σ' => FewOwners σ ∧ Step σ a σ') σ σ'
  | [], σ, σ', h => by
    rw [← Option.some.inj h]
    exact Runs.refl σ
  | a :: as, σ, σ', h => by
    obtain ⟨hfew, h⟩ := Option.ite_none_right_eq_some.mp h
    obtain ⟨τ, ha, h⟩ := Option.bind_eq_some_iff.mp h
    exact (Runs.single (a := a) ⟨hfew, ha⟩).trans (performAll_runs h)

/-- A variable with helpers in a new frame. -/
def newVariable : State where
  object := fun _ => ⟨0, 2 ^ 25, 0, 0, 0⟩
  next := 1
  published := []
  place := fun _ => .onStack
  started := 1

theorem newVariable_initial : Initial newVariable := ⟨rfl, by decide, rfl, rfl, rfl, rfl⟩

/-- Two blocks are copied, each makes a candidate, and the second one loses; then the blocks and the frame go. -/
def race : List Act :=
  [Act.copy, Act.copy] ++ (List.replicate 3 (Act.step 1 false) ++ (List.replicate 4 (Act.step 2 false) ++
    (List.replicate 2 (Act.step 1 false) ++ (List.replicate 5 (Act.step 2 false) ++
    (Act.dispose 1 :: List.replicate 4 (Act.step 1 false) ++
      (Act.leave :: List.replicate 4 (Act.step 0 false) ++
    (Act.dispose 2 :: List.replicate 6 (Act.step 2 false))))))))

theorem promotion_linear_race : ∃ σ, Runs (fun σ a σ' => FewOwners σ ∧ Step σ a σ') newVariable σ ∧
    σ.promoted = 1 ∧ (σ.object 1).freed = 1 := by
  have hsome : (performAll newVariable race).isSome ∧ ∀ σ ∈ performAll newVariable race, σ.promoted = 1 ∧
      ∀ i < σ.started, σ.place i = .gone := by decide +kernel
  obtain ⟨σ, hσ⟩ := Option.isSome_iff_exists.mp hsome.1
  obtain ⟨hone, hgone⟩ := hsome.2 σ hσ
  have hrun := performAll_runs hσ
  have hne : σ.promoted ≠ 0 := by
    rw [hone]
    decide
  have hfreed := ((promotion_linear newVariable_initial hrun).2.2.1 hne).2.2.2.2 hgone
  rw [hone] at hfreed
  exact ⟨σ, hrun, hone, hfreed⟩

/-! ## The count at its maximum -/

/-- `n` blocks hold the published copy 1 of the variable in the frame, and nobody else does anything. -/
structure Filled (n : ℕ) (σ : State) : Prop where
  started : σ.started = n + 1
  frame : σ.place 0 = .onStack
  held : ∀ i, 1 ≤ i → i ≤ n → σ.place i = .held 1
  forwarding : (σ.object 0).forwarding = 1

theorem step_of_assign {i : ℕ} {pc : Pc} (hi : i < σ.started) (hpc : σ.place i = pc)
    (h : σ.assign i false pc = some σ') : Step σ (.step i false) σ' := by
  rw [Step, perform, if_pos hi, hpc, h, Option.some_or]

/-- One more block is copied. -/
theorem Filled.fill {n : ℕ} (h : Filled n σ) (hcount : count (σ.object 1).flags ≠ 0) :
    ∃ σ', Runs Step σ σ' ∧ Filled (n + 1) σ' ∧ (σ'.object 1).flags =
      if count (σ.object 1).flags = refcountMask then (σ.object 1).flags else (σ.object 1).flags + 1 := by
  obtain ⟨hstarted, hframe, hheld, hforwarding⟩ := h
  generalize hτ : ({ σ with place := Function.update σ.place (n + 1) (.load 0), started := n + 2 } :
      State) = τ
  have hobject : τ.object = σ.object := by rw [← hτ]
  have hsize : τ.started = n + 2 := by rw [← hτ]
  have hcopy : Step σ .copy τ := by
    rw [← hτ]
    show (if _ then _ else _) = _
    rw [if_pos hframe, hstarted]
  have hlt : ∀ pc, n + 1 < (τ.go (n + 1) pc).started := fun pc => by
    show n + 1 < τ.started
    omega
  have hat : ∀ pc, (τ.go (n + 1) pc).place (n + 1) = pc := fun pc => Function.update_self ..
  have hgo : ∀ pc pc', (τ.go (n + 1) pc).go (n + 1) pc' = τ.go (n + 1) pc' := fun pc pc' => by
    simp [go]
  have hload : Step τ (.step (n + 1) false) (τ.go (n + 1) (.test 1)) := by
    have hplace : τ.place (n + 1) = .load 0 := by
      rw [← hτ]
      exact Function.update_self ..
    apply step_of_assign (by omega) hplace
    · show some (τ.go (n + 1) (.test (τ.object 0).forwarding)) = _
      rw [hobject, hforwarding]
  have htest : Step (τ.go (n + 1) (.test 1)) (.step (n + 1) false) (τ.go (n + 1) (.loadFlags 1)) := by
    apply step_of_assign (hlt _) (hat _)
    show some ((τ.go (n + 1) (.test 1)).go (n + 1) (if count (τ.object 1).flags = 0 then _ else _)) = _
    rw [hobject, if_neg hcount, hgo]
  have hflags : Step (τ.go (n + 1) (.loadFlags 1)) (.step (n + 1) false)
      (τ.go (n + 1) (.increment 1 (σ.object 1).flags)) := by
    apply step_of_assign (hlt _) (hat _)
    show some ((τ.go (n + 1) (.loadFlags 1)).go (n + 1) (.increment 1 (τ.object 1).flags)) = _
    rw [hobject, hgo]
  have hrun := ((((Runs.single hcopy).tail hload).tail htest).tail hflags)
  have hplaces : ∀ υ : State, υ.place = (τ.go (n + 1) (.held 1)).place → υ.started = τ.started →
      (υ.object 0).forwarding = 1 → Filled (n + 1) υ := by
    intro υ hplace hsame hfwd
    have hat' : ∀ j, υ.place j = if j = n + 1 then .held 1 else σ.place j := by
      intro j
      rw [hplace, ← hτ]
      simp [go, Function.update_apply]
    refine ⟨by omega, ?_, fun i hi hi' => ?_, hfwd⟩
    · rw [hat', if_neg (by omega)]
      exact hframe
    · rw [hat']
      by_cases heq : i = n + 1
      · rw [if_pos heq]
      · rw [if_neg heq]
        exact hheld i hi (by omega)
  by_cases hmax : count (σ.object 1).flags = refcountMask
  · have hlast : Step (τ.go (n + 1) (.increment 1 (σ.object 1).flags)) (.step (n + 1) false)
        (τ.go (n + 1) (.held 1)) := by
      apply step_of_assign (hlt _) (hat _)
      rw [assign, if_pos hmax, hgo]
    refine ⟨_, hrun.tail hlast, hplaces _ rfl rfl ?_, ?_⟩
    · show (τ.object 0).forwarding = 1
      rw [hobject]
      exact hforwarding
    · show (τ.object 1).flags = _
      rw [if_pos hmax, hobject]
  · have hlast : Step (τ.go (n + 1) (.increment 1 (σ.object 1).flags)) (.step (n + 1) false)
        ((τ.write 1 { σ.object 1 with flags := (σ.object 1).flags + 1 }).go (n + 1) (.held 1)) := by
      apply step_of_assign (hlt _) (hat _)
      have hsame : ((τ.go (n + 1) (.increment 1 (σ.object 1).flags)).object 1).flags = (σ.object 1).flags :=
        congrArg (fun o : ℕ → Object => (o 1).flags) hobject
      rw [assign, if_neg hmax, if_pos ⟨hsame, rfl⟩]
      simp [go, write, hobject]
    refine ⟨_, hrun.tail hlast, hplaces _ rfl rfl ?_, ?_⟩
    · show (Function.update τ.object 1 { σ.object 1 with flags := (σ.object 1).flags + 1 } 0).forwarding = 1
      rw [Function.update_of_ne (by decide), hobject]
      exact hforwarding
    · show (Function.update τ.object 1 { σ.object 1 with flags := (σ.object 1).flags + 1 } 1).flags = _
      rw [Function.update_self, if_neg hmax]

/-- Up to its maximum the count follows the owners. -/
theorem filled : ∀ n, n + 2 ≤ refcountMask → ∃ σ, Runs Step newVariable σ ∧ Filled (n + 1) σ ∧
    (σ.object 1).flags = 2 ^ 25 + (n + 2) := by
  intro n
  induction n with
  | zero =>
    intro _
    have hsome : (performAll newVariable (.copy :: List.replicate 5 (.step 1 false))).isSome ∧
        ∀ σ ∈ performAll newVariable (.copy :: List.replicate 5 (.step 1 false)), σ.started = 2 ∧
          σ.place 0 = .onStack ∧ σ.place 1 = .held 1 ∧ (σ.object 0).forwarding = 1 ∧
          (σ.object 1).flags = 2 ^ 25 + 2 := by decide +kernel
    obtain ⟨σ, hσ⟩ := Option.isSome_iff_exists.mp hsome.1
    obtain ⟨hstarted, hframe, hheld, hforwarding, hflags⟩ := hsome.2 σ hσ
    refine ⟨σ, (performAll_runs hσ).mono fun _ _ _ hs => hs.2,
        ⟨hstarted, hframe, fun i hi hi' => ?_, hforwarding⟩,
      hflags⟩
    have hi1 : i = 1 := by omega
    rwa [hi1]
  | succ n ih =>
    intro hn
    obtain ⟨σ, hrun, hfilled, hflags⟩ := ih (by omega)
    have hcount : count (σ.object 1).flags = n + 2 := by
      rw [hflags]
      unfold count
      unfold refcountMask at hn
      omega
    obtain ⟨σ', hrun', hfilled', hflags'⟩ := hfilled.fill (by omega)
    refine ⟨σ', hrun.trans hrun', hfilled', ?_⟩
    rw [hflags', if_neg (by omega), hflags]
    omega

/-- When 2^24 − 1 blocks hold the copy and the frame is there, the count is one less than the owners. -/
theorem promotion_saturated : Initial newVariable ∧ ∃ σ, Runs Step newVariable σ ∧ σ.promoted = 1 ∧
    count (σ.object 1).flags ≠ σ.holders.card + σ.frameHolds := by
  obtain ⟨σ, hrun, hfilled, hflags⟩ := filled (refcountMask - 2) (by decide)
  have hcount : count (σ.object 1).flags = refcountMask := by
    rw [hflags]
    decide
  obtain ⟨σ', hrun', ⟨hstarted, hframe, hheld, hforwarding⟩, hflags'⟩ := hfilled.fill (by rw [hcount]; decide)
  rw [if_pos hcount] at hflags'
  have hholders : σ'.holders.card = refcountMask := by
    have hall : σ'.holders = Finset.Ico 1 σ'.started := by
      apply Finset.filter_true_of_mem
      intro i hi
      obtain ⟨h₁, h₂⟩ := Finset.mem_Ico.mp hi
      rw [hheld i h₁ (by omega)]
      rfl
    rw [hall, Nat.card_Ico, hstarted]
    rfl
  have hframeHolds : σ'.frameHolds = 1 := by
    unfold frameHolds
    rw [hframe]
    rfl
  refine ⟨newVariable_initial, σ', hrun.trans hrun', hforwarding, ?_⟩
  rw [hflags', hcount, hholders, hframeHolds]
  decide

end State

end Libobjc2.Blocks.Byref
