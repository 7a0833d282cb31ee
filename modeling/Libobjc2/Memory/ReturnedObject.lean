import Mathlib.Data.List.Count
import Mathlib.Order.Nat

/-!
# The returned object of a thread (`src/memory/arc.mm`, lines 201–219 and 654–766)

Without ARC's own pools, `objc_autoreleaseReturnValue` keeps the object in a slot of the thread
instead of autoreleasing it, and `objc_retainAutoreleasedReturnValue` takes it back. The next
returned object, a push, a pop and the cleanup of the thread empty the slot first: they read
it, autorelease or release what they found, which may run any code of the program, and then
overwrite it.

A run is a list of calls, each with the calls that the code it runs makes in turn.

Results:
* `window_calls`: code that runs between the read and the overwriting of the slot either leaves
  the slot alone or consumes the object in it once more.
* `returned_linear_iff`: in a run every reference handed over is consumed exactly once, or is
  still in the slot, exactly if no such code touches the slot.
-/

namespace Libobjc2.Memory.ReturnedObject

/-! ## Model -/

/-- How a reference that was handed over leaves the slot. -/
inductive Fate where
  | reclaimed
  | autoreleased
  | released
  deriving DecidableEq

/-- The calls of a thread. `user` are the calls made by the code that the `autorelease` or
    `release` in a call runs, if it gets there; `drain` those made while a pool object is
    released. -/
inductive Call (Obj : Type) where
  | autoreleaseReturnValue (obj : Option Obj) (user : List (Call Obj))
  | retainAutoreleasedReturnValue (obj : Option Obj)
  | autoreleasePoolPush (user : List (Call Obj))
  | autoreleasePoolPop (drain user : List (Call Obj))
  | cleanupPools (user : List (Call Obj))

/-- What the platform offers: whether `getARCThreadData` has a block for the thread, and whether
    the thread's pointer to it is cleared before `cleanupPools` is called. -/
structure Platform where
  hasData : Bool
  clears : Bool

/-- The slot `returnRetained`, with the number of the reference in it, the number of references
    handed over so far, and the references that were consumed, newest first. -/
structure State (Obj : Type) where
  slot : Option (Obj × ℕ)
  handed : ℕ
  consumed : List (ℕ × Fate)

variable {Obj : Type}

/-- A thread before its first call. -/
def initial : State Obj := ⟨none, 0, []⟩

def State.consume (s : State Obj) (ref : ℕ) (fate : Fate) : State Obj :=
  { s with consumed := (ref, fate) :: s.consumed }

/-- Empty the slot: read it, hand what is in it to `autorelease` or `release`, which runs `code`,
    and store `nil`. -/
def emptySlot (code : State Obj → State Obj) (fate : Fate) (s : State Obj) : State Obj :=
  match s.slot with
  | some (_, ref) => { code (s.consume ref fate) with slot := none }
  | none => s

variable [DecidableEq Obj]

mutual

/-- One call, with `useARCAutoreleasePool` not set. -/
def call (P : Platform) : Call Obj → State Obj → State Obj
  | .autoreleaseReturnValue none user, s =>
    if P.hasData then emptySlot (calls P user) .autoreleased s else s
  | .autoreleaseReturnValue (some obj) user, s =>
    let ref := s.handed
    let s := { s with handed := s.handed + 1 }
    -- the store of the new object overwrites what is in the slot by then
    if P.hasData then { emptySlot (calls P user) .autoreleased s with slot := some (obj, ref) }
    else calls P user (s.consume ref .autoreleased)
  | .retainAutoreleasedReturnValue obj, s =>
    if P.hasData then
      match s.slot, obj with
      | some (o, ref), some o' => if o' = o then { s.consume ref .reclaimed with slot := none } else s
      | _, _ => s
    else s
  | .autoreleasePoolPush user, s => if P.hasData then emptySlot (calls P user) .autoreleased s else s
  | .autoreleasePoolPop drain user, s =>
    -- the pool object is released before the slot is read
    let s := calls P drain s
    if P.hasData then emptySlot (calls P user) .released s else s
  | .cleanupPools user, s =>
    if P.hasData then
      -- with the thread's pointer cleared, the code works on a block of its own
      if P.clears then
        match s.slot with
        | some (_, ref) => calls P user { s.consume ref .released with slot := none }
        | none => s
      else emptySlot (calls P user) .released s
    else s

/-- Calls in turn. -/
def calls (P : Platform) : List (Call Obj) → State Obj → State Obj
  | [], s => s
  | c :: cs, s => calls P cs (call P c s)

end

/-! ## Linearity -/

/-- How often a reference was consumed. -/
def State.timesConsumed (s : State Obj) (ref : ℕ) : ℕ := (s.consumed.map Prod.fst).count ref

/-- Whether the slot holds the reference. -/
def State.inSlot (s : State Obj) (ref : ℕ) : Bool := s.slot.any fun x => x.2 = ref

/-- Every reference handed over was consumed once, or is in the slot, and no other one was. -/
def Linear (s : State Obj) : Prop :=
  ∀ ref, s.timesConsumed ref + (if s.inSlot ref then 1 else 0) = if ref < s.handed then 1 else 0

/-- Some reference was consumed twice. -/
def Doubled (s : State Obj) : Prop := ∃ ref, 2 ≤ s.timesConsumed ref

/-- The calls leave the slot alone while it holds `obj`: they only retain other objects. -/
def Aside (obj : Obj) (user : List (Call Obj)) : Prop :=
  ∀ c ∈ user, ∃ o, c = .retainAutoreleasedReturnValue o ∧ o ≠ some obj

/-- Whatever the slot holds, the calls leave it alone. -/
def AsideOf (s : State Obj) (user : List (Call Obj)) : Prop := ∀ x ∈ s.slot, Aside x.1 user

mutual

/-- Between reading the slot and overwriting it, no call made by other code touches it. -/
def CallOk (P : Platform) : Call Obj → State Obj → Prop
  | .autoreleaseReturnValue none user, s => P.hasData = true → AsideOf s user
  | .autoreleaseReturnValue (some _) user, s =>
    if P.hasData then AsideOf s user
    else CallsOk P user ({ s with handed := s.handed + 1 }.consume s.handed .autoreleased)
  | .retainAutoreleasedReturnValue _, _ => True
  | .autoreleasePoolPush user, s => P.hasData = true → AsideOf s user
  | .autoreleasePoolPop drain user, s =>
    CallsOk P drain s ∧ (P.hasData = true → AsideOf (calls P drain s) user)
  | .cleanupPools user, s => P.hasData = true →
    if P.clears then ∀ x ∈ s.slot, CallsOk P user { s.consume x.2 .released with slot := none }
    else AsideOf s user

/-- Every call of the run does so, in the state it is made in. -/
def CallsOk (P : Platform) : List (Call Obj) → State Obj → Prop
  | [], _ => True
  | c :: cs, s => CallOk P c s ∧ CallsOk P cs (call P c s)

end

/-! ## Consumption only grows -/

section Consumption

omit [DecidableEq Obj]

theorem timesConsumed_consume (s : State Obj) (r ref : ℕ) (fate : Fate) :
    (s.consume r fate).timesConsumed ref = s.timesConsumed ref + if r = ref then 1 else 0 := by
  unfold State.timesConsumed State.consume
  rw [List.map_cons, List.count_cons]
  by_cases h : r = ref
  · simp [h]
  · simp [h]

theorem le_consume (s : State Obj) (r ref : ℕ) (fate : Fate) :
    s.timesConsumed ref ≤ (s.consume r fate).timesConsumed ref := by
  rw [timesConsumed_consume]
  omega

theorem le_emptySlot {code : State Obj → State Obj} (ref : ℕ)
    (hcode : ∀ s, s.timesConsumed ref ≤ (code s).timesConsumed ref) (fate : Fate) (s : State Obj) :
    s.timesConsumed ref ≤ (emptySlot code fate s).timesConsumed ref := by
  unfold emptySlot
  split
  · exact le_trans (le_consume _ _ ref _) (hcode _)
  · exact le_rfl

end Consumption

mutual

theorem le_call (P : Platform) (ref : ℕ) : ∀ (c : Call Obj) (s : State Obj),
    s.timesConsumed ref ≤ (call P c s).timesConsumed ref
  | .autoreleaseReturnValue none user, s => by
    unfold call
    split
    · exact le_emptySlot ref (le_calls P ref user) _ s
    · exact le_rfl
  | .autoreleaseReturnValue (some obj) user, s => by
    unfold call
    dsimp only
    split
    · exact le_emptySlot ref (le_calls P ref user) _ { s with handed := s.handed + 1 }
    · exact le_trans (le_consume { s with handed := s.handed + 1 } _ ref _) (le_calls P ref user _)
  | .retainAutoreleasedReturnValue obj, s => by
    unfold call
    split
    · split
      · split
        · exact le_consume _ _ ref _
        · exact le_rfl
      · exact le_rfl
    · exact le_rfl
  | .autoreleasePoolPush user, s => by
    unfold call
    split
    · exact le_emptySlot ref (le_calls P ref user) _ s
    · exact le_rfl
  | .autoreleasePoolPop drain user, s => by
    unfold call
    apply le_trans (le_calls P ref drain s)
    dsimp only
    split
    · exact le_emptySlot ref (le_calls P ref user) _ _
    · exact le_rfl
  | .cleanupPools user, s => by
    unfold call
    split
    · split
      · split
        · next r _ =>
          exact le_trans (le_consume s r ref .released)
              (le_calls P ref user { s.consume r .released with slot := none })
        · exact le_rfl
      · exact le_emptySlot ref (le_calls P ref user) _ s
    · exact le_rfl

theorem le_calls (P : Platform) (ref : ℕ) : ∀ (cs : List (Call Obj)) (s : State Obj),
    s.timesConsumed ref ≤ (calls P cs s).timesConsumed ref
  | [], s => by
    unfold calls
    exact le_rfl
  | c :: cs, s => by
    unfold calls
    exact le_trans (le_call P ref c s) (le_calls P ref cs _)

end

/-! ## Code that runs while the slot is being emptied -/

theorem Doubled.calls {s : State Obj} (h : Doubled s) (P : Platform) (cs : List (Call Obj)) :
    Doubled (calls P cs s) := by
  obtain ⟨ref, href⟩ := h
  exact ⟨ref, href.trans (le_calls P ref cs s)⟩

/-- Emptying the slot consumes what is in it. -/
theorem emptySlot_consumes (P : Platform) (user : List (Call Obj)) (fate : Fate) {s : State Obj}
    {o : Obj} {ref : ℕ}
    (hslot : s.slot = some (o, ref)) (honce : 1 ≤ s.timesConsumed ref) :
    2 ≤ (emptySlot (calls P user) fate s).timesConsumed ref := by
  have htwice : 2 ≤ (s.consume ref fate).timesConsumed ref := by
    rw [timesConsumed_consume, if_pos rfl]
    omega
  unfold emptySlot
  rw [hslot]
  exact htwice.trans (le_calls P ref user _)

theorem aside_calls (P : Platform) {o : Obj} {ref : ℕ} : ∀ {cs : List (Call Obj)} {s : State Obj},
    Aside o cs → s.slot = some (o, ref) → calls P cs s = s := by
  intro cs
  induction cs with
  | nil =>
    intro s _ _
    unfold calls
    rfl
  | cons c cs ih =>
    intro s haside hslot
    obtain ⟨obj, rfl, hne⟩ := haside c (List.mem_cons_self ..)
    have hcall : call P (.retainAutoreleasedReturnValue obj) s = s := by
      unfold call
      split
      · rw [hslot]
        cases obj with
        | none => rfl
        | some o' =>
          have : o' ≠ o := fun he => hne (by rw [he])
          simp [this]
      · rfl
    unfold calls
    rw [hcall]
    exact ih (fun c hc => haside c (List.mem_cons_of_mem _ hc)) hslot

mutual

/-- A call made while the slot holds a consumed reference leaves it alone or consumes it again. -/
theorem window_call {P : Platform} (hdata : P.hasData = true) {o : Obj} {ref : ℕ} :
    ∀ (c : Call Obj) (s : State Obj),
    s.slot = some (o, ref) → 1 ≤ s.timesConsumed ref →
    (∀ obj, c = .retainAutoreleasedReturnValue obj → obj = some o) → 2 ≤ (call P c s).timesConsumed ref
  | .autoreleaseReturnValue none user, s, hslot, honce, _ => by
    unfold call
    rw [if_pos hdata]
    exact emptySlot_consumes P user _ hslot honce
  | .autoreleaseReturnValue (some obj) user, s, hslot, honce, _ => by
    unfold call
    rw [if_pos hdata]
    exact emptySlot_consumes P user .autoreleased (s := { s with handed := s.handed + 1 }) hslot honce
  | .retainAutoreleasedReturnValue obj, s, hslot, honce, hsame => by
    obtain rfl := hsame obj rfl
    unfold call
    simp only [hdata, if_true, hslot]
    show 2 ≤ (s.consume ref .reclaimed).timesConsumed ref
    rw [timesConsumed_consume, if_pos rfl]
    omega
  | .autoreleasePoolPush user, s, hslot, honce, _ => by
    unfold call
    rw [if_pos hdata]
    exact emptySlot_consumes P user _ hslot honce
  | .autoreleasePoolPop drain user, s, hslot, honce, _ => by
    unfold call
    simp only [hdata, if_true]
    by_cases haside : Aside o drain
    · rw [aside_calls P haside hslot]
      exact emptySlot_consumes P user _ hslot honce
    · exact (window_calls hdata drain s hslot honce haside).trans (le_emptySlot ref (le_calls P ref user) _ _)
  | .cleanupPools user, s, hslot, honce, _ => by
    unfold call
    rw [if_pos hdata]
    split
    · rw [hslot]
      have htwice : 2 ≤ (s.consume ref .released).timesConsumed ref := by
        rw [timesConsumed_consume, if_pos rfl]
        omega
      exact htwice.trans (le_calls P ref user { s.consume ref .released with slot := none })
    · exact emptySlot_consumes P user _ hslot honce

/-- Calls that touch the slot while it holds a consumed reference consume it again. -/
theorem window_calls {P : Platform} (hdata : P.hasData = true) {o : Obj} {ref : ℕ} :
    ∀ (cs : List (Call Obj)) (s : State Obj), s.slot = some (o, ref) → 1 ≤ s.timesConsumed ref →
    ¬ Aside o cs →
    2 ≤ (calls P cs s).timesConsumed ref
  | [], s, _, _, haside => absurd (fun c hc => by simp at hc) haside
  | c :: cs, s, hslot, honce, haside => by
    unfold calls
    by_cases hc : ∃ obj, c = .retainAutoreleasedReturnValue obj ∧ obj ≠ some o
    · have hone : calls P [c] s = s := by
        apply aside_calls P _ hslot
        intro c' hc'
        rw [List.mem_singleton.mp hc']
        exact hc
      have hcall : call P c s = s := by
        unfold calls calls at hone
        exact hone
      rw [hcall]
      refine window_calls hdata cs s hslot honce fun hrest => haside fun c' hc' => ?_
      obtain rfl | hmem := List.mem_cons.mp hc'
      · exact hc
      · exact hrest c' hmem
    · have htouch : ∀ obj, c = .retainAutoreleasedReturnValue obj → obj = some o := by
        intro obj hobj
        by_contra hne
        exact hc ⟨obj, hobj, hne⟩
      exact (window_call hdata c s hslot honce htouch).trans (le_calls P ref cs _)

end

/-! ## Linear runs -/

/-- `Linear`, but for a reference that the running call has been handed and not put down yet. -/
def LinearBut (s : State Obj) (held : Option ℕ) : Prop :=
  ∀ ref, s.timesConsumed ref + (if s.inSlot ref then 1 else 0) + (if held = some ref then 1 else 0) =
    if ref < s.handed then 1 else 0

section Held

omit [DecidableEq Obj]

theorem Linear.held {s : State Obj} (h : Linear s) : LinearBut s none := fun ref => by simpa using h ref

theorem Linear.hand {s : State Obj} (h : Linear s) : LinearBut { s with handed := s.handed + 1 }
    (some s.handed) := by
  intro ref
  have href := h ref
  show s.timesConsumed ref + (if s.inSlot ref then 1 else 0) + _ = if ref < s.handed + 1 then 1 else 0
  rw [href]
  by_cases heq : s.handed = ref
  · subst heq
    simp
  · rw [if_neg (show ¬ some s.handed = some ref by simpa using heq)]
    by_cases hlt : ref < s.handed
    · rw [if_pos hlt, if_pos (by omega)]
    · rw [if_neg hlt, if_neg (by omega)]

theorem Linear.not_doubled {s : State Obj} (h : Linear s) : ¬ Doubled s := by
  rintro ⟨ref, htwice⟩
  have href := h ref
  split at href <;> split at href <;> omega

theorem inSlot_none {s : State Obj} (h : s.slot = none) (ref : ℕ) : s.inSlot ref = false := by
  unfold State.inSlot
  rw [h]
  rfl

theorem inSlot_some {s : State Obj} {o : Obj} {r : ℕ} (h : s.slot = some (o, r)) (ref : ℕ) :
    s.inSlot ref = decide (r = ref) := by
  unfold State.inSlot
  rw [h]
  rfl

/-- Consuming the reference in the slot and clearing the slot keeps the account. -/
theorem LinearBut.take {s : State Obj} {held : Option ℕ} (h : LinearBut s held) {o : Obj} {r : ℕ}
    (hslot : s.slot = some (o, r)) (fate : Fate) :
    LinearBut ({ s.consume r fate with slot := none } : State Obj) held := by
  intro ref
  have href := h ref
  rw [inSlot_some hslot] at href
  show (s.consume r fate).timesConsumed ref + _ + _ = if ref < s.handed then 1 else 0
  rw [timesConsumed_consume, inSlot_none rfl]
  by_cases hr : r = ref
  · simp only [hr, decide_true, if_true] at href ⊢
    simpa using href
  · simp only [hr, decide_false, Bool.false_eq_true, if_false] at href ⊢
    simpa using href

/-- What the call holds goes into an empty slot. -/
theorem LinearBut.put {s : State Obj} {r : ℕ} (h : LinearBut s (some r)) (hslot : s.slot = none) (obj : Obj) :
    Linear { s with slot := some (obj, r) } := by
  intro ref
  have href := h ref
  rw [inSlot_none hslot] at href
  rw [inSlot_some rfl]
  show s.timesConsumed ref + _ = _
  simpa using href

/-- What the call holds is consumed at once. -/
theorem LinearBut.spend {s : State Obj} {r : ℕ} (h : LinearBut s (some r)) (fate : Fate) :
    Linear (s.consume r fate) := by
  intro ref
  have href := h ref
  rw [timesConsumed_consume]
  show _ + (if s.inSlot ref then 1 else 0) = if ref < s.handed then 1 else 0
  rw [← href]
  by_cases hr : r = ref
  · simp [hr]
    omega
  · simp [hr]

theorem LinearBut.drop {s : State Obj} (h : LinearBut s none) : Linear s := fun ref => by simpa using h ref

end Held

/-- Emptying the slot keeps the account exactly if the code it runs leaves the slot alone. -/
theorem emptySlot_spec {P : Platform} (hdata : P.hasData = true) {s : State Obj} {held : Option ℕ}
    (h : LinearBut s held) (user : List (Call Obj)) (fate : Fate) :
    (AsideOf s user → LinearBut (emptySlot (calls P user) fate s) held ∧
      (emptySlot (calls P user) fate s).slot = none) ∧
    (¬ AsideOf s user → Doubled (emptySlot (calls P user) fate s)) := by
  cases hslot : s.slot with
  | none =>
    have hsame : emptySlot (calls P user) fate s = s := by
      unfold emptySlot
      rw [hslot]
    rw [hsame]
    refine ⟨fun _ => ⟨h, hslot⟩, fun hnot => absurd (fun x hx => ?_) hnot⟩
    rw [hslot] at hx
    simp at hx
  | some x =>
    obtain ⟨o, r⟩ := x
    have haside : AsideOf s user ↔ Aside o user := by simp [AsideOf, hslot]
    have hempty : emptySlot (calls P user) fate s =
        { calls P user (s.consume r fate) with slot := none } := by
      unfold emptySlot
      rw [hslot]
    rw [hempty, haside]
    constructor
    · intro ha
      rw [aside_calls P ha (show (s.consume r fate).slot = some (o, r) from hslot)]
      exact ⟨h.take hslot fate, rfl⟩
    · intro hnot
      refine ⟨r, window_calls hdata user (s.consume r fate) hslot ?_ hnot⟩
      rw [timesConsumed_consume, if_pos rfl]
      omega

mutual

theorem call_linear (P : Platform) : ∀ (c : Call Obj) (s : State Obj), Linear s →
    (CallOk P c s → Linear (call P c s)) ∧ (¬ CallOk P c s → Doubled (call P c s))
  | .autoreleaseReturnValue none user, s, h => by
    unfold call CallOk
    by_cases hdata : P.hasData = true
    · obtain ⟨hok, hbad⟩ := emptySlot_spec hdata h.held user .autoreleased
      simp only [hdata, if_true, true_implies]
      exact ⟨fun ha => (hok ha).1.drop, hbad⟩
    · simp only [hdata, if_false, Bool.false_eq_true, false_implies, not_true_eq_false, and_true]
      exact fun _ => h
  | .autoreleaseReturnValue (some obj) user, s, h => by
    unfold call CallOk
    by_cases hdata : P.hasData = true
    · obtain ⟨hok, hbad⟩ := emptySlot_spec hdata h.hand user .autoreleased
      simp only [hdata, if_true]
      exact ⟨fun ha => (hok ha).1.put (hok ha).2 obj, hbad⟩
    · simp only [hdata, if_false, Bool.false_eq_true]
      exact calls_linear P user _ (h.hand.spend .autoreleased)
  | .retainAutoreleasedReturnValue obj, s, h => by
    unfold CallOk
    refine ⟨fun _ => ?_, fun hnot => absurd trivial hnot⟩
    unfold call
    split
    · split
      · next o ref o' hslot =>
        split
        · exact (h.held.take hslot .reclaimed).drop
        · exact h
      · exact h
    · exact h
  | .autoreleasePoolPush user, s, h => by
    unfold call CallOk
    by_cases hdata : P.hasData = true
    · obtain ⟨hok, hbad⟩ := emptySlot_spec hdata h.held user .autoreleased
      simp only [hdata, if_true, true_implies]
      exact ⟨fun ha => (hok ha).1.drop, hbad⟩
    · simp only [hdata, if_false, Bool.false_eq_true, false_implies, not_true_eq_false, and_true]
      exact fun _ => h
  | .autoreleasePoolPop drain user, s, h => by
    unfold call CallOk
    obtain ⟨hdrain, hdrainBad⟩ := calls_linear P drain s h
    by_cases hd : CallsOk P drain s
    · by_cases hdata : P.hasData = true
      · obtain ⟨hok, hbad⟩ := emptySlot_spec hdata (hdrain hd).held user .released
        simp only [hdata, if_true, true_implies, hd, true_and]
        exact ⟨fun ha => (hok ha).1.drop, hbad⟩
      · simp only [hdata, if_false, Bool.false_eq_true, false_implies, hd, and_true, not_true_eq_false]
        exact fun _ => hdrain hd
    · refine ⟨fun hok => absurd hok.1 hd, fun _ => ?_⟩
      obtain ⟨ref, htwice⟩ := hdrainBad hd
      refine ⟨ref, htwice.trans ?_⟩
      dsimp only
      split
      · exact le_emptySlot ref (le_calls P ref user) _ _
      · exact le_rfl
  | .cleanupPools user, s, h => by
    unfold call CallOk
    by_cases hdata : P.hasData = true
    · by_cases hclears : P.clears = true
      · simp only [hdata, hclears, if_true, true_implies]
        cases hslot : s.slot with
        | none => exact ⟨fun _ => h, fun hnot => absurd (fun x hx => by simp at hx) hnot⟩
        | some x =>
          obtain ⟨o, r⟩ := x
          have hrec := calls_linear P user _ (h.held.take hslot .released).drop
          refine ⟨fun hok => hrec.1 (hok (o, r) rfl), fun hnot => hrec.2 fun hok => hnot fun x hx => ?_⟩
          obtain rfl : (o, r) = x := by simpa using hx
          exact hok
      · obtain ⟨hok, hbad⟩ := emptySlot_spec hdata h.held user .released
        simp only [hdata, hclears, if_true, if_false, Bool.false_eq_true, true_implies]
        exact ⟨fun ha => (hok ha).1.drop, hbad⟩
    · simp only [hdata, if_false, Bool.false_eq_true, false_implies, not_true_eq_false, and_true]
      exact fun _ => h

theorem calls_linear (P : Platform) : ∀ (cs : List (Call Obj)) (s : State Obj), Linear s →
    (CallsOk P cs s → Linear (calls P cs s)) ∧ (¬ CallsOk P cs s → Doubled (calls P cs s))
  | [], s, h => by
    unfold calls CallsOk
    exact ⟨fun _ => h, fun hnot => absurd trivial hnot⟩
  | c :: cs, s, h => by
    unfold calls CallsOk
    obtain ⟨hok, hbad⟩ := call_linear P c s h
    by_cases hc : CallOk P c s
    · obtain ⟨hoks, hbads⟩ := calls_linear P cs (call P c s) (hok hc)
      simp only [hc, true_and]
      exact ⟨hoks, hbads⟩
    · exact ⟨fun hall => absurd hall.1 hc, fun _ => (hbad hc).calls P cs⟩

end

omit [DecidableEq Obj] in
theorem linear_initial : Linear (initial : State Obj) := fun _ => rfl

/-- **The slot is linear exactly while it is left alone.** After every run, each reference handed
    over was consumed exactly once or is in the slot, if and only if no call made between the
    reading and the overwriting of a slot that is being emptied touches it. -/
theorem returned_linear_iff (P : Platform) (cs : List (Call Obj)) :
    Linear (calls P cs initial) ↔ CallsOk P cs initial := by
  obtain ⟨hok, hbad⟩ := calls_linear P cs initial linear_initial
  refine ⟨fun hlinear => ?_, hok⟩
  by_contra hnot
  exact hlinear.not_doubled (hbad hnot)

/-- The object 1 is returned; while the next returned object 2 replaces it, autoreleasing it
    returns the object 3. -/
def reentrant : List (Call ℕ) :=
  [.autoreleaseReturnValue (some 1) [], .autoreleaseReturnValue (some 2)
    [.autoreleaseReturnValue (some 3) []]]

/-- The reference to 1 is autoreleased twice, and the one to 3 is dropped. -/
theorem reentrant_not_linear : (calls ⟨true, true⟩ reentrant initial).consumed =
    [(0, .autoreleased), (0, .autoreleased)] ∧
    (calls ⟨true, true⟩ reentrant initial).slot = some (2, 1) ∧
    (calls ⟨true, true⟩ reentrant initial).handed = 3 ∧
    ¬ ∀ (P : Platform) (cs : List (Call ℕ)), Linear (calls P cs initial) := by
  refine ⟨by decide, by decide, by decide, fun h => ?_⟩
  exact absurd (h ⟨true, true⟩ reentrant 2) (by decide)

end Libobjc2.Memory.ReturnedObject
