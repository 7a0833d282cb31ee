import Mathlib.Data.List.Basic
import Mathlib.Logic.Relation
import Mathlib.Tactic.Common

/-!
# Synthesised setters

Model of `objc_setProperty` and its variants in `runtime/properties.mm` (lines 49–128) on one thread, for
one ivar of one object that is not `nil`. `-copy` and the last release of the old value run code of the
program, which may call the setter again. What it does may depend on all that has happened so far, and is
a parameter: at each point it calls the setter once more, or returns.

The lock of the atomic variants is held for the exchange of the two values alone, in which no code of the
program runs. The exchange and the call of `objc_release` that follows it are one event of the history. A
run is bounded by fuel; without enough of it there is no result.

Results:
* `run_keeps`: what was acquired is what was displaced and what is stored.
* `run_atomicCopy_of_paired`, `run_nonatomicCopy_of_kept`: a run of the nonatomic copying variant that
  releases what it displaces is one of the atomic variant in which no `-copy` changes the ivar, and
  conversely.
* `setters_agree_iff`: the variants agree and are balanced in exactly these runs; without copying always.
* `nonatomicCopy_overreleases`: a run in which one value is released twice and another one never.
-/

namespace Libobjc2.Properties.Setters

/-! ## Model -/

/-- An object. `nil` is `none` where it can occur. -/
abbrev Object := ℕ

/-- What happens. -/
inductive Event
  /-- `objc_retain` returns its argument. -/
  | retained (value : Option Object)
  /-- `-copy` returns a value; the value of the ivar before and behind it. -/
  | copied (result before behind : Option Object)
  /-- A value of the ivar is displaced by another one, and a value is released. -/
  | exchanged (displaced stored released : Option Object)
deriving DecidableEq, Repr

/-- The ivar, and what has happened so far. -/
structure State where
  ivar : Option Object
  trace : List Event
deriving DecidableEq, Repr

/-- The next thing that a method `-copy` does. -/
inductive CopyAction
  | callSetter (arg : Option Object)
  | finish (result : Option Object)
deriving DecidableEq, Repr

/-- The code of the program: what `-copy` of an object does next, and which value the release of an
    object sets next, if any. -/
structure Behaviour where
  copy : List Event → Object → CopyAction
  release : List Event → Object → Option (Option Object)

/-- The history with one more event. -/
def State.log (σ : State) (e : Event) : State := { σ with trace := σ.trace ++ [e] }

section

variable (beh : Behaviour) (self : Option Object → State → Option State)

/-- `-copy` of an object, with the value that the ivar had before. -/
def copyLoop (before : Option Object) : ℕ → Object → State → Option (Option Object × State)
  | 0, _, _ => none
  | n + 1, o, σ =>
    match beh.copy σ.trace o with
    | .finish result => some (result, σ.log (.copied result before σ.ivar))
    | .callSetter arg => (self arg σ).bind fun σ => copyLoop before n o σ

/-- `[arg copy]`, which is `nil` for `nil`. -/
def sendCopy (fuel : ℕ) (arg : Option Object) (σ : State) : Option (Option Object × State) :=
  match arg with
  | none => some (none, σ)
  | some o => copyLoop beh self σ.ivar fuel o σ

/-- What the release of an object runs. -/
def releaseLoop : ℕ → Object → State → Option State
  | 0, _, _ => none
  | n + 1, o, σ =>
    match beh.release σ.trace o with
    | none => some σ
    | some arg => (self arg σ).bind fun σ => releaseLoop n o σ

/-- The store of a value and then `objc_release(old)`. -/
def storeAndRelease (fuel : ℕ) (new old : Option Object) (σ : State) : Option State :=
  let σ : State := ⟨new, σ.trace ++ [.exchanged σ.ivar new old]⟩
  match old with
  | none => some σ
  | some o => releaseLoop beh self fuel o σ

/-- `objc_retain`. -/
def retain (arg : Option Object) (σ : State) : Option Object × State := (arg, σ.log (.retained arg))

/-- `objc_setProperty` (lines 49–77). Both branches of `isAtomic` exchange the values, one under the lock. -/
def objcSetProperty (fuel : ℕ) (_isAtomic isCopy : Bool) (arg : Option Object) (σ : State) : Option State :=
  (if isCopy then sendCopy beh self fuel arg σ else some (retain arg σ)).bind fun (arg, σ) =>
    let old := σ.ivar
    storeAndRelease beh self fuel arg old σ

/-- `objc_setProperty_atomic` (lines 79–92). -/
def objcSetPropertyAtomic (fuel : ℕ) (arg : Option Object) (σ : State) : Option State :=
  let (arg, σ) := retain arg σ
  let old := σ.ivar
  storeAndRelease beh self fuel arg old σ

/-- `objc_setProperty_atomic_copy` (lines 94–107). -/
def objcSetPropertyAtomicCopy (fuel : ℕ) (arg : Option Object) (σ : State) : Option State :=
  (sendCopy beh self fuel arg σ).bind fun (arg, σ) =>
    let old := σ.ivar
    storeAndRelease beh self fuel arg old σ

/-- `objc_setProperty_nonatomic` (lines 109–118). -/
def objcSetPropertyNonatomic (fuel : ℕ) (arg : Option Object) (σ : State) : Option State :=
  let (arg, σ) := retain arg σ
  let old := σ.ivar
  storeAndRelease beh self fuel arg old σ

/-- `objc_setProperty_nonatomic_copy` (lines 120–128), which reads the old value first. -/
def objcSetPropertyNonatomicCopy (fuel : ℕ) (arg : Option Object) (σ : State) : Option State :=
  let old := σ.ivar
  (sendCopy beh self fuel arg σ).bind fun (arg, σ) => storeAndRelease beh self fuel arg old σ

end

/-- The setters. -/
inductive Setter
  | setProperty (isAtomic isCopy : Bool)
  | atomic
  | atomicCopy
  | nonatomic
  | nonatomicCopy
deriving DecidableEq, Repr

/-- The copy flag of a setter. -/
def Setter.isCopy : Setter → Bool
  | .setProperty _ isCopy => isCopy
  | .atomic | .nonatomic => false
  | .atomicCopy | .nonatomicCopy => true

/-- The body of a setter. -/
def Setter.body (beh : Behaviour) (self : Option Object → State → Option State) (fuel : ℕ) :
    Setter → Option Object → State → Option State
  | .setProperty isAtomic isCopy => objcSetProperty beh self fuel isAtomic isCopy
  | .atomic => objcSetPropertyAtomic beh self fuel
  | .atomicCopy => objcSetPropertyAtomicCopy beh self fuel
  | .nonatomic => objcSetPropertyNonatomic beh self fuel
  | .nonatomicCopy => objcSetPropertyNonatomicCopy beh self fuel

/-- A call of a setter, which the code of the program calls again. -/
def run (beh : Behaviour) (v : Setter) : ℕ → Option Object → State → Option State
  | 0, _, _ => none
  | fuel + 1, arg, σ => v.body beh (run beh v fuel) fuel arg σ

/-- A call of a setter returns. -/
def Returns (beh : Behaviour) (v : Setter) (arg : Option Object) (σ τ : State) : Prop :=
  ∃ fuel, run beh v fuel arg σ = some τ

/-! ## Specification -/

/-- How often an object was acquired. -/
def acquired (trace : List Event) (o : Object) : ℕ :=
  trace.countP fun
    | .retained value => value = some o
    | .copied result _ _ => result = some o
    | .exchanged .. => false

/-- How often an object was displaced. -/
def displaced (trace : List Event) (o : Object) : ℕ :=
  trace.countP fun
    | .exchanged old _ _ => old = some o
    | _ => false

/-- How often an object was released. -/
def released (trace : List Event) (o : Object) : ℕ :=
  trace.countP fun
    | .exchanged _ _ old => old = some o
    | _ => false

/-- The number of references that the ivar holds. -/
def held (ivar : Option Object) (o : Object) : ℕ := if ivar = some o then 1 else 0

/-- The value that is displaced is the one that is released. -/
def Event.Paired : Event → Prop
  | .exchanged displaced _ released => released = displaced
  | _ => True

/-- `-copy` leaves in the ivar what it found there. -/
def Event.Kept : Event → Prop
  | .copied _ before behind => behind = before
  | _ => True

/-- Every reference is released when it is displaced, and only then: at every point no object has been
    released more often than displaced, and in the end as often, so that the ivar holds what was
    acquired and not released. -/
structure Balanced (old : Option Object) (τ : State) : Prop where
  paired : ∀ e ∈ τ.trace, e.Paired
  notBefore : ∀ trace, trace <+: τ.trace → ∀ o, released trace o = displaced trace o
  balance : ∀ o, acquired τ.trace o + held old o = released τ.trace o + held τ.ivar o

/-! ## Counting -/

theorem acquired_append (a b : List Event) (o : Object) : acquired (a ++ b) o = acquired a o + acquired b o :=
  List.countP_append

theorem displaced_append (a b : List Event) (o : Object) :
    displaced (a ++ b) o = displaced a o + displaced b o :=
  List.countP_append

theorem held_toNat (ivar : Option Object) (o : Object) : held ivar o = (decide (ivar = some o)).toNat := by
  unfold held
  by_cases h : ivar = some o <;> simp [h]

theorem countP_singleton_toNat {p : Event → Bool} (e : Event) : [e].countP p = (p e).toNat := by
  cases h : p e <;> simp [h]

/-- Paired events release what they displace. -/
theorem released_of_paired {trace : List Event} (h : ∀ e ∈ trace, e.Paired) (o : Object) :
    released trace o = displaced trace o := by
  unfold released displaced
  refine List.countP_congr fun e he => ?_
  have hpaired := h e he
  cases e with
  | retained | copied => rfl
  | exchanged old new rel =>
    obtain rfl : rel = old := hpaired
    rfl

/-! ## What a run keeps -/

/-- What was acquired has been displaced, is held by the ivar, or is a value that has yet to be stored. -/
def Accounted (old pending : Option Object) (σ : State) : Prop :=
  ∀ o, acquired σ.trace o + held old o = displaced σ.trace o + held σ.ivar o + held pending o

/-- What a call keeps: the history goes on, and everything is accounted for. -/
structure Keeps (old : Option Object) (σ τ : State) : Prop where
  extends_trace : σ.trace <+: τ.trace
  accounted : Accounted old none σ → Accounted old none τ

section

variable {beh : Behaviour} {self self' : Option Object → State → Option State} {old : Option Object}

theorem Keeps.refl (σ : State) : Keeps old σ σ := ⟨List.prefix_refl _, id⟩

theorem Keeps.trans {σ τ υ : State} (h : Keeps old σ τ) (h' : Keeps old τ υ) : Keeps old σ υ :=
  ⟨h.extends_trace.trans h'.extends_trace, fun hb => h'.accounted (h.accounted hb)⟩

/-- The calls that the code of the program makes in a row. -/
def Calls (self : Option Object → State → Option State) : State → State → Prop :=
  Relation.ReflTransGen fun σ τ => ∃ arg, self arg σ = some τ

theorem Calls.keeps (hself : ∀ {a σ τ}, self a σ = some τ → Keeps old σ τ) {σ τ : State}
    (h : Calls self σ τ) :
    Keeps old σ τ := by
  induction h with
  | refl => exact Keeps.refl σ
  | tail _ hcall ih =>
    obtain ⟨arg, hcall⟩ := hcall
    exact ih.trans (hself hcall)

/-- `-copy` makes its calls and returns. -/
theorem copyLoop_calls {before result : Option Object} {n : ℕ} {o : Object} {σ τ : State}
    (h : copyLoop beh self before n o σ = some (result, τ)) :
    ∃ υ, Calls self σ υ ∧ υ.ivar = τ.ivar ∧ τ.trace = υ.trace ++ [.copied result before τ.ivar] := by
  induction n generalizing σ with
  | zero => exact absurd h (Option.some_ne_none _).symm
  | succ n ih =>
    rw [copyLoop] at h
    cases hact : beh.copy σ.trace o with
    | finish r =>
      rw [hact] at h
      obtain ⟨rfl, rfl⟩ := Prod.mk.inj (Option.some.inj h)
      exact ⟨σ, .refl, rfl, rfl⟩
    | callSetter arg =>
      rw [hact] at h
      obtain ⟨σ₁, hcall, hrest⟩ := Option.bind_eq_some_iff.mp h
      obtain ⟨υ, hcalls, hsame⟩ := ih hrest
      exact ⟨υ, .head ⟨arg, hcall⟩ hcalls, hsame⟩

theorem releaseLoop_calls {n : ℕ} {o : Object} {σ τ : State} (h : releaseLoop beh self n o σ = some τ) :
    Calls self σ τ := by
  induction n generalizing σ with
  | zero => exact absurd h (Option.some_ne_none _).symm
  | succ n ih =>
    rw [releaseLoop] at h
    cases hact : beh.release σ.trace o with
    | none =>
      rw [hact] at h
      obtain rfl := Option.some.inj h
      exact .refl
    | some arg =>
      rw [hact] at h
      obtain ⟨σ₁, hcall, hrest⟩ := Option.bind_eq_some_iff.mp h
      exact .head ⟨arg, hcall⟩ (ih hrest)

/-- The release of a value makes its calls behind the store. -/
theorem storeAndRelease_calls {fuel : ℕ} {new rel : Option Object} {σ τ : State}
    (h : storeAndRelease beh self fuel new rel σ = some τ) :
    Calls self ⟨new, σ.trace ++ [.exchanged σ.ivar new rel]⟩ τ := by
  unfold storeAndRelease at h
  cases rel with
  | none => exact (Option.some.inj h) ▸ .refl
  | some o => exact releaseLoop_calls h

/-- The store holds what was acquired last, and displaces what was held. -/
theorem storeAndRelease_keeps (hself : ∀ {a σ τ}, self a σ = some τ → Keeps old σ τ) {fuel : ℕ}
    {new rel : Option Object} {σ σ₁ τ : State} (hext : σ.trace <+: σ₁.trace)
    (hacquired : Accounted old none σ → Accounted old new σ₁)
    (h : storeAndRelease beh self fuel new rel σ₁ = some τ) : Keeps old σ τ := by
  have hstore : Keeps old σ ⟨new, σ₁.trace ++ [.exchanged σ₁.ivar new rel]⟩ := by
    refine ⟨hext.trans (List.prefix_append _ _), fun hb o => ?_⟩
    have hpending := hacquired hb o
    have hcount : displaced [.exchanged σ₁.ivar new rel] o = held σ₁.ivar o := by
      rw [displaced, countP_singleton_toNat, held_toNat]
    have hnone : acquired [.exchanged σ₁.ivar new rel] o = 0 := rfl
    have hzero : held none o = 0 := rfl
    rw [acquired_append, displaced_append, hcount, hnone, hzero]
    omega
  exact hstore.trans ((storeAndRelease_calls h).keeps hself)

/-- A copy or a retained value has been acquired and is not held yet. -/
theorem sendCopy_keeps (hself : ∀ {a σ τ}, self a σ = some τ → Keeps old σ τ) {fuel : ℕ}
    {arg result : Option Object} {σ τ : State} (h : sendCopy beh self fuel arg σ = some (result, τ)) :
    σ.trace <+: τ.trace ∧ (Accounted old none σ → Accounted old result τ) := by
  unfold sendCopy at h
  cases arg with
  | none =>
    obtain ⟨rfl, rfl⟩ := Prod.mk.inj (Option.some.inj h)
    exact ⟨List.prefix_refl _, id⟩
  | some o =>
    obtain ⟨υ, hcalls, hivar, htrace⟩ := copyLoop_calls h
    have hkeeps := hcalls.keeps hself
    refine ⟨htrace ▸ hkeeps.extends_trace.trans (List.prefix_append _ _), fun hb o => ?_⟩
    have hbefore := hkeeps.accounted hb o
    have hcount : acquired [.copied result σ.ivar τ.ivar] o = held result o := by
      rw [acquired, countP_singleton_toNat, held_toNat]
    have hnone : displaced [.copied result σ.ivar τ.ivar] o = 0 := rfl
    have hzero : held none o = 0 := rfl
    rw [hzero] at hbefore
    rw [htrace, acquired_append, displaced_append, hcount, hnone, ← hivar]
    omega

theorem retain_keeps (arg : Option Object) (σ : State) : σ.trace <+: (retain arg σ).2.trace ∧
    (Accounted old none σ → Accounted old arg (retain arg σ).2) := by
  refine ⟨List.prefix_append _ _, fun hb o => ?_⟩
  have hbefore := hb o
  have hcount : acquired [.retained arg] o = held arg o := by
    rw [acquired, countP_singleton_toNat, held_toNat]
  have hnone : displaced [.retained arg] o = 0 := rfl
  have hzero : held none o = 0 := rfl
  rw [hzero] at hbefore
  change acquired (σ.trace ++ [.retained arg]) o + held old o =
    displaced (σ.trace ++ [.retained arg]) o + held σ.ivar o + held arg o
  rw [acquired_append, displaced_append, hcount, hnone]
  omega

/-- Every setter keeps what its callbacks keep, whichever value it releases. -/
theorem body_keeps (hself : ∀ {a σ τ}, self a σ = some τ → Keeps old σ τ) (v : Setter) {fuel : ℕ}
    {arg : Option Object} {σ τ : State} (h : v.body beh self fuel arg σ = some τ) : Keeps old σ τ := by
  have hretain : ∀ {rel}, storeAndRelease beh self fuel (retain arg σ).1 rel (retain arg σ).2 = some τ →
      Keeps old σ τ := fun hs =>
    storeAndRelease_keeps hself (@retain_keeps old arg σ).1 (retain_keeps arg σ).2 hs
  have hcopy : ∀ (rel : State → Option Object), ((sendCopy beh self fuel arg σ).bind fun r =>
      storeAndRelease beh self fuel r.1 (rel r.2) r.2) = some τ → Keeps old σ τ := by
    intro rel hs
    obtain ⟨r, hsend, hs⟩ := Option.bind_eq_some_iff.mp hs
    obtain ⟨hext, hacquired⟩ := @sendCopy_keeps beh self old hself _ _ _ _ _ hsend
    exact storeAndRelease_keeps hself hext hacquired hs
  cases v with
  | setProperty isAtomic isCopy =>
    cases isCopy with
    | false => exact hretain h
    | true => exact hcopy State.ivar h
  | atomic => exact hretain h
  | nonatomic => exact hretain h
  | atomicCopy => exact hcopy State.ivar h
  | nonatomicCopy => exact hcopy (fun _ => σ.ivar) h

/-- **The account.** -/
theorem run_keeps (v : Setter) {fuel : ℕ} {arg : Option Object} {σ τ : State}
    (h : run beh v fuel arg σ = some τ) : Keeps old σ τ := by
  induction fuel generalizing arg σ τ with
  | zero => exact absurd h (Option.some_ne_none _).symm
  | succ fuel ih => exact body_keeps (fun hself => ih hself) v h

/-! ## Runs of two setters -/

/-- A copy whose history has a property is made by both setters, if their calls with this property are. -/
theorem copyLoop_transfer {P : Event → Prop} (hself : ∀ {a σ τ}, self a σ = some τ → Keeps none σ τ)
    (htransfer : ∀ {a σ τ}, self a σ = some τ → (∀ e ∈ τ.trace, P e) → self' a σ = some τ)
    {before result : Option Object} {n m : ℕ} (hnm : n ≤ m) {o : Object} {σ τ : State}
    (h : copyLoop beh self before n o σ = some (result, τ)) (hP : ∀ e ∈ τ.trace, P e) :
    copyLoop beh self' before m o σ = some (result, τ) := by
  induction n generalizing σ m with
  | zero => exact absurd h (Option.some_ne_none _).symm
  | succ n ih =>
    obtain ⟨m, rfl⟩ := Nat.exists_eq_add_of_lt hnm
    rw [copyLoop] at h ⊢
    cases hact : beh.copy σ.trace o with
    | finish r => rwa [hact] at h
    | callSetter arg =>
      rw [hact] at h
      obtain ⟨σ₁, hcall, hrest⟩ := Option.bind_eq_some_iff.mp h
      obtain ⟨υ, hcalls, -, htrace⟩ := copyLoop_calls hrest
      have hsub : ∀ e ∈ σ₁.trace, P e := fun e he =>
        hP e (htrace ▸ List.mem_append_left _ ((hcalls.keeps hself).extends_trace.subset he))
      dsimp only
      rw [htransfer hcall hsub, Option.bind_some]
      exact ih (by omega) hrest

theorem releaseLoop_transfer {P : Event → Prop} (hself : ∀ {a σ τ}, self a σ = some τ → Keeps none σ τ)
    (htransfer : ∀ {a σ τ}, self a σ = some τ → (∀ e ∈ τ.trace, P e) → self' a σ = some τ)
    {n m : ℕ} (hnm : n ≤ m) {o : Object} {σ τ : State} (h : releaseLoop beh self n o σ = some τ)
    (hP : ∀ e ∈ τ.trace, P e) : releaseLoop beh self' m o σ = some τ := by
  induction n generalizing σ m with
  | zero => exact absurd h (Option.some_ne_none _).symm
  | succ n ih =>
    obtain ⟨m, rfl⟩ := Nat.exists_eq_add_of_lt hnm
    rw [releaseLoop] at h ⊢
    cases hact : beh.release σ.trace o with
    | none => rwa [hact] at h
    | some arg =>
      rw [hact] at h
      obtain ⟨σ₁, hcall, hrest⟩ := Option.bind_eq_some_iff.mp h
      have hsub : ∀ e ∈ σ₁.trace, P e := fun e he =>
        hP e (((releaseLoop_calls hrest).keeps hself).extends_trace.subset he)
      dsimp only
      rw [htransfer hcall hsub, Option.bind_some]
      exact ih (by omega) hrest

theorem sendCopy_transfer {P : Event → Prop} (hself : ∀ {a σ τ}, self a σ = some τ → Keeps none σ τ)
    (htransfer : ∀ {a σ τ}, self a σ = some τ → (∀ e ∈ τ.trace, P e) → self' a σ = some τ) {n m : ℕ}
    (hnm : n ≤ m) {arg result : Option Object} {σ τ : State}
    (h : sendCopy beh self n arg σ = some (result, τ))
    (hP : ∀ e ∈ τ.trace, P e) : sendCopy beh self' m arg σ = some (result, τ) := by
  unfold sendCopy at h ⊢
  cases arg with
  | none => exact h
  | some o => exact copyLoop_transfer hself htransfer hnm h hP

theorem storeAndRelease_transfer {P : Event → Prop} (hself : ∀ {a σ τ}, self a σ = some τ → Keeps none σ τ)
    (htransfer : ∀ {a σ τ}, self a σ = some τ → (∀ e ∈ τ.trace, P e) → self' a σ = some τ) {n m : ℕ}
    (hnm : n ≤ m) {new rel : Option Object} {σ τ : State} (h : storeAndRelease beh self n new rel σ = some τ)
    (hP : ∀ e ∈ τ.trace, P e) : storeAndRelease beh self' m new rel σ = some τ := by
  unfold storeAndRelease at h ⊢
  cases rel with
  | none => exact h
  | some o => exact releaseLoop_transfer hself htransfer hnm h hP

/-- What is stored and released is in the history. -/
theorem exchanged_mem (hself : ∀ {a σ τ}, self a σ = some τ → Keeps none σ τ) {fuel : ℕ}
    {new rel : Option Object} {σ τ : State} (h : storeAndRelease beh self fuel new rel σ = some τ) :
    σ.trace <+: τ.trace ∧ .exchanged σ.ivar new rel ∈ τ.trace := by
  have hext := ((storeAndRelease_calls h).keeps hself).extends_trace
  exact ⟨(List.prefix_append _ _).trans hext,
    hext.subset (List.mem_append_right _ List.mem_cons_self)⟩

/-- A body that copies, in terms of the value that it releases. -/
theorem copying_transfer (P : Event → Prop) (rel rel' : State → Option Object)
    (hself : ∀ {a σ τ}, self a σ = some τ → Keeps none σ τ)
    (htransfer : ∀ {a σ τ}, self a σ = some τ → (∀ e ∈ τ.trace, P e) → self' a σ = some τ) {n m : ℕ}
    (hnm : n ≤ m) {arg : Option Object} {σ τ : State}
    (hrel : ∀ {result σ₁}, sendCopy beh self n arg σ = some (result, σ₁) → σ₁.trace <+: τ.trace →
      .exchanged σ₁.ivar result (rel σ₁) ∈ τ.trace → rel' σ₁ = rel σ₁)
    (h : ((sendCopy beh self n arg σ).bind fun r => storeAndRelease beh self n r.1 (rel r.2) r.2) = some τ)
    (hP : ∀ e ∈ τ.trace, P e) :
    ((sendCopy beh self' m arg σ).bind fun r => storeAndRelease beh self' m r.1 (rel' r.2) r.2) = some τ := by
  obtain ⟨r, hsend, hstore⟩ := Option.bind_eq_some_iff.mp h
  obtain ⟨hext, hmem⟩ := exchanged_mem hself hstore
  rw [sendCopy_transfer hself htransfer hnm hsend fun e he => hP e (hext.subset he), Option.bind_some,
    hrel hsend hext hmem]
  exact storeAndRelease_transfer hself htransfer hnm hstore hP

/-- Fuel that is enough for a body is not too much for it. -/
theorem body_transfer (hself : ∀ {a σ τ}, self a σ = some τ → Keeps none σ τ)
    (htransfer : ∀ {a σ τ}, self a σ = some τ → self' a σ = some τ) {n m : ℕ} (hnm : n ≤ m) (v : Setter)
    {arg : Option Object} {σ τ : State} (h : v.body beh self n arg σ = some τ) :
    v.body beh self' m arg σ = some τ := by
  have hretain : ∀ {rel}, storeAndRelease beh self n (retain arg σ).1 rel (retain arg σ).2 = some τ →
      storeAndRelease beh self' m (retain arg σ).1 rel (retain arg σ).2 = some τ := fun hs =>
    storeAndRelease_transfer (P := fun _ => True) hself (fun hc _ => htransfer hc) hnm hs fun _ _ => trivial
  have hcopy : ∀ (rel : State → Option Object), ((sendCopy beh self n arg σ).bind fun r =>
      storeAndRelease beh self n r.1 (rel r.2) r.2) = some τ → ((sendCopy beh self' m arg σ).bind fun r =>
      storeAndRelease beh self' m r.1 (rel r.2) r.2) = some τ := fun rel hs =>
    copying_transfer (fun _ => True) rel rel hself (fun hc _ => htransfer hc) hnm (fun _ _ _ => rfl) hs
      fun _ _ => trivial
  cases v with
  | setProperty isAtomic isCopy =>
    cases isCopy with
    | false => exact hretain h
    | true => exact hcopy State.ivar h
  | atomic => exact hretain h
  | nonatomic => exact hretain h
  | atomicCopy => exact hcopy State.ivar h
  | nonatomicCopy => exact hcopy (fun _ => σ.ivar) h

end

section

variable {beh : Behaviour}

theorem run_mono (v : Setter) {n m : ℕ} (hnm : n ≤ m) {arg : Option Object} {σ τ : State}
    (h : run beh v n arg σ = some τ) : run beh v m arg σ = some τ := by
  induction n generalizing m arg σ τ with
  | zero => exact absurd h (Option.some_ne_none _).symm
  | succ n ih =>
    obtain ⟨m, rfl⟩ := Nat.exists_eq_add_of_lt hnm
    exact body_transfer (fun hc => run_keeps v hc) (fun hc => ih (by omega) hc) (by omega) v h

/-- A call returns in one way. -/
theorem Returns.unique {v : Setter} {arg : Option Object} {σ τ τ' : State} (h : Returns beh v arg σ τ)
    (h' : Returns beh v arg σ τ') : τ = τ' := by
  obtain ⟨n, hn⟩ := h
  obtain ⟨m, hm⟩ := h'
  have hboth := (run_mono v (Nat.le_max_left n m) hn).symm.trans (run_mono v (Nat.le_max_right n m) hm)
  exact Option.some.inj hboth

/-- Setters with the same body have the same runs. -/
theorem run_of_body_eq (v v' : Setter)
    (h : ∀ self fuel, v.body beh self fuel = v'.body beh self fuel) {fuel : ℕ}
    {arg : Option Object} {σ τ : State} (hrun : run beh v fuel arg σ = some τ) :
    run beh v' fuel arg σ = some τ := by
  have hsame : ∀ fuel, run beh v fuel = run beh v' fuel := by
    intro fuel
    induction fuel with
    | zero => rfl
    | succ fuel ih =>
      funext arg σ
      rw [run, run, ih, h]
  rwa [← hsame]

end

/-! ## Releasing what is displaced -/

section

variable {beh : Behaviour} {self : Option Object → State → Option State} {P Q : Event → Prop}

/-- What calls keep of the events of a history with a property, calls in a row keep. -/
theorem Calls.all (hself : ∀ {a σ τ}, self a σ = some τ → Keeps none σ τ)
    (hcall : ∀ {a σ τ}, self a σ = some τ → (∀ e ∈ τ.trace, P e) → (∀ e ∈ σ.trace, Q e) → ∀ e ∈ τ.trace, Q e)
    {σ τ : State} (h : Calls self σ τ) (hP : ∀ e ∈ τ.trace, P e) (hσ : ∀ e ∈ σ.trace, Q e) :
    ∀ e ∈ τ.trace, Q e := by
  induction h with
  | refl => exact hσ
  | tail _ hlast ih =>
    obtain ⟨arg, hlast⟩ := hlast
    exact hcall hlast hP (ih fun e he => hP e ((hself hlast).extends_trace.subset he))

/-- The same for a copy, the store and the release, with the two events of their own. -/
theorem copying_all (hself : ∀ {a σ τ}, self a σ = some τ → Keeps none σ τ)
    (hcall : ∀ {a σ τ}, self a σ = some τ → (∀ e ∈ τ.trace, P e) → (∀ e ∈ σ.trace, Q e) → ∀ e ∈ τ.trace, Q e)
    {fuel : ℕ} {arg : Option Object} {σ τ : State} (rel : State → Option Object)
    (hcopied : ∀ result σ₁, P (.exchanged σ₁.ivar result (rel σ₁)) → Q (.copied result σ.ivar σ₁.ivar))
    (hexchanged : ∀ result σ₁, P (.exchanged σ₁.ivar result (rel σ₁)) →
      Q (.exchanged σ₁.ivar result (rel σ₁)))
    (h : ((sendCopy beh self fuel arg σ).bind fun r => storeAndRelease beh self fuel r.1
      (rel r.2) r.2) = some τ)
    (hP : ∀ e ∈ τ.trace, P e) (hσ : ∀ e ∈ σ.trace, Q e) : ∀ e ∈ τ.trace, Q e := by
  obtain ⟨⟨result, σ₁⟩, hsend, hstore⟩ := Option.bind_eq_some_iff.mp h
  obtain ⟨hext, hmem⟩ := exchanged_mem hself hstore
  have hPx := hP _ hmem
  have hσ₁ : ∀ e ∈ σ₁.trace, Q e := by
    unfold sendCopy at hsend
    cases arg with
    | none =>
      obtain ⟨-, rfl⟩ := Prod.mk.inj (Option.some.inj hsend)
      exact hσ
    | some o =>
      obtain ⟨υ, hcalls, -, htrace⟩ := copyLoop_calls hsend
      have hυ : ∀ e ∈ υ.trace, Q e := hcalls.all hself hcall
        (fun e he => hP e (hext.subset (htrace ▸ List.mem_append_left _ he))) hσ
      rw [htrace]
      intro e he
      rcases List.mem_append.mp he with he | he
      · exact hυ e he
      · obtain rfl := List.mem_singleton.mp he
        exact hcopied result σ₁ hPx
  refine (storeAndRelease_calls hstore).all hself hcall hP fun e he => ?_
  rcases List.mem_append.mp he with he | he
  · exact hσ₁ e he
  · obtain rfl := List.mem_singleton.mp he
    exact hexchanged result σ₁ hPx

end

section

variable {beh : Behaviour}

/-- A setter that does not copy releases what it displaces. -/
theorem run_atomic_paired {fuel : ℕ} {arg : Option Object} {σ τ : State}
    (h : run beh .atomic fuel arg σ = some τ) (hσ : ∀ e ∈ σ.trace, e.Paired) : ∀ e ∈ τ.trace, e.Paired := by
  induction fuel generalizing arg σ τ with
  | zero => exact absurd h (Option.some_ne_none _).symm
  | succ fuel ih =>
    refine Calls.all (P := fun _ => True) (fun hc => run_keeps .atomic hc) (fun hc _ hs => ih hc hs)
      (storeAndRelease_calls h) (fun _ _ => trivial) fun e he => ?_
    rcases List.mem_append.mp he with he | he
    · rcases List.mem_append.mp he with he | he
      · exact hσ e he
      · obtain rfl := List.mem_singleton.mp he
        exact trivial
    · obtain rfl := List.mem_singleton.mp he
      exact rfl

/-- A setter that reads the old value behind the copy releases what it displaces. -/
theorem run_atomicCopy_paired {fuel : ℕ} {arg : Option Object} {σ τ : State}
    (h : run beh .atomicCopy fuel arg σ = some τ) (hσ : ∀ e ∈ σ.trace, e.Paired) : ∀ e ∈ τ.trace,
    e.Paired := by
  induction fuel generalizing arg σ τ with
  | zero => exact absurd h (Option.some_ne_none _).symm
  | succ fuel ih =>
    exact copying_all (P := fun _ => True) (fun hc => run_keeps .atomicCopy hc)
      (fun hc _ hs => ih hc hs) State.ivar (fun _ _ _ => trivial) (fun _ _ _ => rfl) h (fun _ _ => trivial) hσ

/-- If the other one releases what it displaces, no `-copy` has changed the ivar. -/
theorem run_nonatomicCopy_kept {fuel : ℕ} {arg : Option Object} {σ τ : State}
    (h : run beh .nonatomicCopy fuel arg σ = some τ) (hpaired : ∀ e ∈ τ.trace, e.Paired)
    (hσ : ∀ e ∈ σ.trace, e.Kept) : ∀ e ∈ τ.trace, e.Kept := by
  induction fuel generalizing arg σ τ with
  | zero => exact absurd h (Option.some_ne_none _).symm
  | succ fuel ih =>
    exact copying_all (P := Event.Paired) (fun hc => run_keeps .nonatomicCopy hc)
      (fun hc hP hs => ih hc hP hs) (fun _ => σ.ivar) (fun _ _ hP => Eq.symm hP)
      (fun _ _ _ => trivial) h hpaired hσ

/-- **The order of reading and copying.** A run of the nonatomic copying variant that releases what it
    displaces is a run of the atomic one. -/
theorem run_atomicCopy_of_paired {fuel : ℕ} {arg : Option Object} {σ τ : State}
    (h : run beh .nonatomicCopy fuel arg σ = some τ) (hpaired : ∀ e ∈ τ.trace, e.Paired) :
    run beh .atomicCopy fuel arg σ = some τ := by
  induction fuel generalizing arg σ τ with
  | zero => exact absurd h (Option.some_ne_none _).symm
  | succ fuel ih =>
    refine copying_transfer Event.Paired (fun _ => σ.ivar) State.ivar
      (fun hc => run_keeps .nonatomicCopy hc) (fun hc hP => ih hc hP) (Nat.le_refl _) ?_ h hpaired
    intro result σ₁ _ _ hmem
    exact Eq.symm (hpaired _ hmem)

/-- A run of the atomic copying variant in which no `-copy` changes the ivar is one of the nonatomic
    variant. -/
theorem run_nonatomicCopy_of_kept {fuel : ℕ} {arg : Option Object} {σ τ : State}
    (h : run beh .atomicCopy fuel arg σ = some τ) (hkept : ∀ e ∈ τ.trace, e.Kept) :
    run beh .nonatomicCopy fuel arg σ = some τ := by
  induction fuel generalizing arg σ τ with
  | zero => exact absurd h (Option.some_ne_none _).symm
  | succ fuel ih =>
    refine copying_transfer Event.Kept State.ivar (fun _ => σ.ivar)
      (fun hc => run_keeps .atomicCopy hc) (fun hc hP => ih hc hP) (Nat.le_refl _) ?_ h hkept
    intro result σ₁ hsend hext _
    unfold sendCopy at hsend
    cases arg with
    | none =>
      obtain ⟨-, rfl⟩ := Prod.mk.inj (Option.some.inj hsend)
      rfl
    | some o =>
      obtain ⟨υ, -, -, htrace⟩ := copyLoop_calls hsend
      have hmem : .copied result σ.ivar σ₁.ivar ∈ σ₁.trace :=
        htrace ▸ List.mem_append_right _ List.mem_cons_self
      exact Eq.symm (hkept _ (hext.subset hmem))

/-- Paired events balance the account. -/
theorem balanced_of_paired {v : Setter} {fuel : ℕ} {arg old : Option Object} {τ : State}
    (h : run beh v fuel arg ⟨old, []⟩ = some τ) (hpaired : ∀ e ∈ τ.trace, e.Paired) : Balanced old τ where
  paired := hpaired
  notBefore trace htrace o := released_of_paired (fun e he => hpaired e (htrace.subset he)) o
  balance o := by
    have hstart : Accounted old none ⟨old, []⟩ := fun o => by
      have h0 : acquired [] o = 0 := rfl
      have h1 : displaced [] o = 0 := rfl
      have h2 : held none o = 0 := rfl
      rw [h0, h1, h2]
      rfl
    have hend := (@run_keeps beh old v _ _ _ _ h).accounted hstart o
    rw [released_of_paired hpaired]
    exact hend

/-- **Setters.** Let a call of `objc_setProperty` return. The setters with its copy flag all return with
    the same value in the ivar, and with their references in balance, if and only if they do not copy or
    every `-copy` of the run leaves in the ivar what it found there. -/
theorem setters_agree_iff {isCopy : Bool} {arg old : Option Object} {τ : State}
    (hret : Returns beh (.setProperty true isCopy) arg ⟨old, []⟩ τ) :
    (∀ v : Setter, v.isCopy = isCopy → ∃ τ', Returns beh v arg ⟨old, []⟩ τ' ∧ τ'.ivar = τ.ivar ∧
      Balanced old τ') ↔ (isCopy = true → ∀ e ∈ τ.trace, e.Kept) := by
  obtain ⟨fuel, hrun⟩ := hret
  cases isCopy with
  | false =>
    refine ⟨fun _ h => absurd h Bool.false_ne_true, fun _ v hv => ⟨τ, ?_⟩⟩
    have hatomic : run beh .atomic fuel arg ⟨old, []⟩ = some τ :=
      run_of_body_eq (.setProperty true false) .atomic (fun _ _ => rfl) hrun
    have hv' : run beh v fuel arg ⟨old, []⟩ = some τ := by
      cases v with
      | setProperty isAtomic isCopy =>
        obtain rfl : isCopy = false := hv
        exact run_of_body_eq .atomic (.setProperty isAtomic false) (fun _ _ => rfl) hatomic
      | atomic => exact hatomic
      | nonatomic => exact run_of_body_eq .atomic .nonatomic (fun _ _ => rfl) hatomic
      | atomicCopy | nonatomicCopy => exact absurd hv.symm Bool.false_ne_true
    exact ⟨⟨fuel, hv'⟩, rfl,
        balanced_of_paired hv' (run_atomic_paired hatomic (fun e he => absurd he List.not_mem_nil))⟩
  | true =>
    have hatomic : run beh .atomicCopy fuel arg ⟨old, []⟩ = some τ :=
      run_of_body_eq (.setProperty true true) .atomicCopy (fun _ _ => rfl) hrun
    constructor
    · intro h _
      obtain ⟨τ', ⟨fuel', hrun'⟩, -, hbalanced⟩ := h .nonatomicCopy rfl
      have hsame := run_atomicCopy_of_paired hrun' hbalanced.paired
      obtain rfl : τ = τ' := Returns.unique ⟨fuel, hatomic⟩ ⟨fuel', hsame⟩
      exact run_nonatomicCopy_kept hrun' hbalanced.paired fun e he => absurd he List.not_mem_nil
    · intro hkept v hv
      have hpaired := run_atomicCopy_paired hatomic fun e he => absurd he List.not_mem_nil
      have hv' : run beh v fuel arg ⟨old, []⟩ = some τ := by
        cases v with
        | setProperty isAtomic isCopy =>
          obtain rfl : isCopy = true := hv
          exact run_of_body_eq .atomicCopy (.setProperty isAtomic true) (fun _ _ => rfl) hatomic
        | atomicCopy => exact hatomic
        | nonatomicCopy => exact run_nonatomicCopy_of_kept hatomic (hkept rfl)
        | atomic | nonatomic => exact absurd hv Bool.false_ne_true
      exact ⟨τ, ⟨fuel, hv'⟩, rfl, balanced_of_paired hv' hpaired⟩

end

/-! ## A copy that sets the property -/

/-- `-copy` of object 1 sets the property to object 2 and returns object 3; every other object is its own
    copy. The release of a value runs no code. -/
def settingCopy : Behaviour where
  copy trace o :=
    if o = 1 then if trace = [] then .callSetter (some 2) else .finish (some 3) else .finish (some o)
  release _ _ := none

/-- Setting object 2 where object 0 was. -/
theorem setters_agree_two : ∃ τ', Returns settingCopy .nonatomicCopy (some 2) ⟨some 0, []⟩ τ' ∧
    τ'.ivar = some 2 ∧ Balanced (some 0) τ' := by
  have hrun : run settingCopy (.setProperty true true) 2 (some 2) ⟨some 0, []⟩ =
      some ⟨some 2, [.copied (some 2) (some 0) (some 0), .exchanged (some 0) (some 2) (some 0)]⟩ := by decide
  refine (setters_agree_iff ⟨2, hrun⟩).mpr (fun _ e he => ?_) .nonatomicCopy rfl
  rcases List.mem_cons.mp he with rfl | he
  · rfl
  · obtain rfl := List.mem_singleton.mp he
    exact trivial

/-- Object 1 is set where object 0 was: object 0 is released twice, and object 2 never. -/
theorem nonatomicCopy_overreleases : ¬∀ (beh : Behaviour) (v : Setter) (arg old : Option Object) (τ : State),
    Returns beh v arg ⟨old, []⟩ τ → Balanced old τ := by
  intro h
  have hrun : run settingCopy .nonatomicCopy 3 (some 1) ⟨some 0, []⟩ = some ⟨some 3,
      [.copied (some 2) (some 0) (some 0), .exchanged (some 0) (some 2) (some 0),
        .copied (some 3) (some 0) (some 2), .exchanged (some 2) (some 3) (some 0)]⟩ := by decide
  have hpaired : (some 0 : Option Object) = some 2 :=
    (h settingCopy .nonatomicCopy (some 1) (some 0) _ ⟨3, hrun⟩).paired
      (.exchanged (some 2) (some 3) (some 0)) (by simp)
  exact absurd hpaired (by decide)

end Libobjc2.Properties.Setters
