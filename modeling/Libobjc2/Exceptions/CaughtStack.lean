import Libobjc2.Common.LinkedList
import Libobjc2.Common.Run
import Mathlib.Data.List.Dedup
import Mathlib.Tactic

/-!
# The stack of caught exceptions (`src/exceptions/eh_personality.c`)

A thread keeps the Objective-C exceptions that its handlers are working on in a list that starts at
`caughtExceptions`. `objc_begin_catch` puts an exception on the list, `objc_end_catch` takes it off,
and `objc_exception_rethrow` negates its catch count, so that the landing pad that leaves the handler
does not free it. One more field, `current_exception_type`, says which runtime the innermost handler
belongs to.

The control state of the thread is a stack of frames: the handlers that are running and the
exceptions that are in flight above them. An exception is the number of its throw, and a boxed
foreign exception is identified with its box. The C++ runtime keeps a list of its own, `cxxCaught`.

Results:
* `caughtStack_wellFormed`: in the runs that meet `keepsOwnCatch` at every step the list is the
  handlers' exceptions, innermost first, each end acts on the exception of its begin, and an
  Objective-C exception is freed once, when nothing handles or throws it any more.
* `rethrow_cyclic`: an exception that is rethrown out of its last handler stays on the list with a
  count of 0, and is pushed again by the next handler, in front of itself.
* `nested_in_cxx_asserts`: a handler inside the handler of a C++ exception changes the type that the
  outer end looks at.
-/

namespace Libobjc2.Exceptions

open Libobjc2.Common

/-! ## Model -/

/-- What `exception_class` says about an exception. -/
inductive Kind where
  | objc
  | cxx
  | foreign
  deriving DecidableEq

/-- `enum exception_type` (lines 122–129). -/
inductive ExceptionType where
  | none
  | cxx
  | objc
  | foreign
  | boxedForeign
  deriving DecidableEq

/-- `struct objc_exception` (lines 71–106), less the unwinder's header and the fields that its
    personality function fills in. -/
structure ObjcException where
  object : ℕ
  catchCount : ℤ
  next : Option ℕ
  deriving DecidableEq

/-- What a thread has on its control stack. -/
inductive Frame where
  | caught (x : ℕ)
  | unwinding (x : ℕ)
  deriving DecidableEq

def Frame.exception : Frame → ℕ
  | .caught x => x
  | .unwinding x => x

@[simp] theorem Frame.exception_caught (x : ℕ) : (Frame.caught x).exception = x := rfl

@[simp] theorem Frame.exception_unwinding (x : ℕ) : (Frame.unwinding x).exception = x := rfl

/-- `struct thread_data` (lines 130–135), the exceptions in memory, and the control stack, innermost
    frame first. -/
structure State where
  currentExceptionType : ExceptionType
  caughtExceptions : Option ℕ
  heap : ℕ → Option ObjcException
  freed : ℕ → ℕ
  kind : ℕ → Kind
  thrown : ℕ
  cxxCaught : List ℕ
  frames : List Frame
  crashed : Bool

namespace State

/-- A thread that has not thrown yet. -/
def start : State :=
  ⟨.none, none, fun _ => none, fun _ => 0, fun _ => .objc, 0, [], [], false⟩

/-- A failed assertion, a call of `abort`, or an access to freed memory. -/
def crash (σ : State) : State := { σ with crashed := true }

def setCatchCount (σ : State) (x : ℕ) (ex : ObjcException) (count : ℤ) : State :=
  { σ with heap := Function.update σ.heap x (some { ex with catchCount := count }) }

/-- The `next` field of an exception, as long as it is in memory. -/
def nextOf (σ : State) (x : ℕ) : Option ℕ := (σ.heap x).bind (·.next)

end State

open State

/-- `objc_exception_throw` (lines 225–279) up to `_Unwind_RaiseException`, or a throw by another
    runtime. -/
def objcExceptionThrow (k : Kind) (object : ℕ) (σ : State) : State :=
  { σ with
    kind := Function.update σ.kind σ.thrown k
    heap := if k = .objc then Function.update σ.heap σ.thrown (some ⟨object, 0, none⟩) else σ.heap
    thrown := σ.thrown + 1 }

/-- `objc_begin_catch` (lines 625–695) on the exception `x`; `boxes` says whether there is a class
    that boxes it. -/
def objcBeginCatch (boxes : Bool) (x : ℕ) (σ : State) : State :=
  match σ.kind x with
  | .objc =>
    let σ := { σ with currentExceptionType := .objc }
    match σ.heap x with
    | none => σ.crash
    | some ex =>
      if ex.catchCount = 0 then
        { σ with
          heap := Function.update σ.heap x (some { ex with catchCount := 1, next := σ.caughtExceptions })
          caughtExceptions := some x }
      else if ex.catchCount < 0 then σ.setCatchCount x ex (-ex.catchCount + 1)
      else σ.setCatchCount x ex (ex.catchCount + 1)
  | .cxx =>
    if σ.caughtExceptions ≠ none then σ.crash
    else { σ with currentExceptionType := .cxx, cxxCaught := x :: σ.cxxCaught }
  | .foreign =>
    if σ.caughtExceptions ≠ none then σ.crash
    else
      { σ with
        caughtExceptions := some x
        currentExceptionType := if boxes then .boxedForeign else .foreign }

/-- The last lines of `objc_end_catch` (726–740), for an Objective-C exception. -/
def endObjcCatch (σ : State) : State :=
  match σ.caughtExceptions with
  | none => σ.crash
  | some x =>
    match σ.heap x with
    | none => σ.crash
    | some ex =>
      if ex.catchCount < 0 then σ.setCatchCount x ex (ex.catchCount + 1)
      else if ex.catchCount - 1 = 0 then
        { σ with
          caughtExceptions := ex.next
          heap := Function.update σ.heap x none
          freed := Function.update σ.freed x (σ.freed x + 1) }
      else σ.setCatchCount x ex (ex.catchCount - 1)

/-- `objc_end_catch` (lines 697–741). The box of a foreign exception belongs to its class, and the
    exception itself is destroyed by its own runtime. -/
def objcEndCatch (σ : State) : State :=
  match σ.currentExceptionType with
  | .boxedForeign => { σ with caughtExceptions := none, currentExceptionType := .none }
  | .cxx => { σ with cxxCaught := σ.cxxCaught.tail, currentExceptionType := .objc }
  | .foreign =>
    if σ.caughtExceptions = none then σ.crash
    else { σ with caughtExceptions := none, currentExceptionType := .none }
  | .none => endObjcCatch σ
  | .objc => endObjcCatch σ

/-- `objc_exception_rethrow` (lines 743–788) up to the call that resumes the unwinding. -/
def objcExceptionRethrow (x : ℕ) (σ : State) : State :=
  match σ.currentExceptionType with
  | .objc =>
    match σ.heap x with
    | none => σ.crash
    | some ex =>
      if σ.kind x = .objc ∧ σ.caughtExceptions = some x ∧ 0 < ex.catchCount then
        σ.setCatchCount x ex (-ex.catchCount)
      else σ.crash
  | .cxx => if σ.kind x = .cxx then σ else σ.crash
  | .boxedForeign => σ
  | .foreign => if σ.caughtExceptions = some x then σ else σ.crash
  | .none => if σ.caughtExceptions = some x then σ else σ.crash

/-! ## Runs -/

inductive Action where
  | throw (k : Kind) (object : ℕ)
  | beginCatch (boxes : Bool)
  | landingPad
  | endCatch
  | rethrow
  deriving DecidableEq

/-- One step of a thread: a call, and what it does to the control stack. A landing pad leaves the
    handler that an exception is thrown out of. -/
def next (σ : State) : Action → State
  | .throw k object => { objcExceptionThrow k object σ with frames := .unwinding σ.thrown :: σ.frames }
  | .beginCatch boxes =>
    match σ.frames with
    | .unwinding x :: rest => { objcBeginCatch boxes x σ with frames := .caught x :: rest }
    | _ => σ
  | .landingPad =>
    match σ.frames with
    | .unwinding x :: .caught _ :: rest => { objcEndCatch σ with frames := .unwinding x :: rest }
    | _ => σ
  | .endCatch =>
    match σ.frames with
    | .caught _ :: rest => { objcEndCatch σ with frames := rest }
    | _ => σ
  | .rethrow =>
    match σ.frames with
    | .caught x :: rest => { objcExceptionRethrow x σ with frames := .unwinding x :: .caught x :: rest }
    | _ => σ

/-- The steps of a well-nested run. A handler is entered where `objc_begin_catch` does not abort. -/
def wellNested (σ : State) : Action → Prop
  | .throw _ _ => True
  | .beginCatch _ =>
    match σ.frames with
    | .unwinding x :: _ => σ.kind x = .objc ∨ σ.caughtExceptions = none
    | _ => False
  | .landingPad =>
    match σ.frames with
    | .unwinding _ :: .caught _ :: _ => True
    | _ => False
  | .endCatch =>
    match σ.frames with
    | .caught _ :: _ => True
    | _ => False
  | .rethrow =>
    match σ.frames with
    | .caught _ :: _ => True
    | _ => False

/-- The exceptions of the running handlers, innermost first. -/
def caughtIds : List Frame → List ℕ
  | [] => []
  | .caught x :: fs => x :: caughtIds fs
  | .unwinding _ :: fs => caughtIds fs

/-- A handler is entered inside handlers of Objective-C exceptions only, and an Objective-C exception
    is not thrown out of its own last handler. -/
def keepsOwnCatch (σ : State) : Action → Prop
  | .beginCatch _ => ∀ y ∈ caughtIds σ.frames, σ.kind y = .objc
  | .landingPad =>
    match σ.frames with
    | .unwinding x :: .caught y :: rest => x = y → σ.kind x = .objc → x ∈ caughtIds rest
    | _ => True
  | _ => True

/-! ## Specification -/

/-- The exceptions that are caught and not finished, innermost first and each once, less those that
    the C++ runtime keeps. -/
def active (kind : ℕ → Kind) (ids : List ℕ) : List ℕ := (ids.filter fun x => kind x ≠ .cxx).dedup

/-- A handler or the unwinder holds the exception. -/
def Mentioned (fs : List Frame) (x : ℕ) : Prop := x ∈ caughtIds fs ∨ .unwinding x ∈ fs

instance (fs : List Frame) (x : ℕ) : Decidable (Mentioned fs x) := inferInstanceAs (Decidable (_ ∨ _))

/-- The runtime that `objc_end_catch` takes the innermost handler to be of. -/
def ExceptionType.ends : ExceptionType → Option Kind
  | .none => Option.none
  | .cxx => some .cxx
  | .objc => some .objc
  | .foreign => some .foreign
  | .boxedForeign => some .foreign

/-- The exception that `objc_end_catch` acts on. -/
def endTarget (σ : State) : Option ℕ :=
  if σ.currentExceptionType = .cxx then σ.cxxCaught.head? else σ.caughtExceptions

/-- The stack of caught exceptions is well formed. -/
structure WellFormed (σ : State) : Prop where
  notCrashed : σ.crashed = false
  chain : Chain σ.nextOf σ.caughtExceptions (active σ.kind (caughtIds σ.frames))
  ends : ∀ y, (caughtIds σ.frames).head? = some y →
    endTarget σ = some y ∧ σ.currentExceptionType.ends = some (σ.kind y)
  freedOnce : ∀ x < σ.thrown, σ.kind x = .objc →
    (Mentioned σ.frames x ∧ σ.heap x ≠ none ∧ σ.freed x = 0) ∨
      (¬ Mentioned σ.frames x ∧ σ.heap x = none ∧ σ.freed x = 1)
  empty : caughtIds σ.frames = [] → σ.caughtExceptions = none

/-! ## Lists of handlers -/

/-- Equal entries are next to each other. -/
def Grouped : List ℕ → Prop
  | [] => True
  | x :: l => Grouped l ∧ (x ∈ l → l.head? = some x)

/-- What is in flight is in flight once, above its own handlers, and its newest handler is directly
    below it. -/
def Nested : List Frame → Prop
  | [] => True
  | f :: fs =>
    Nested fs ∧ .unwinding f.exception ∉ fs ∧
      (f.exception ∈ caughtIds fs → fs.head? = some (.caught f.exception))

theorem Nested.grouped {fs : List Frame} (h : Nested fs) : Grouped (caughtIds fs) := by
  induction fs with
  | nil => trivial
  | cons f fs ih =>
    cases f with
    | unwinding x => exact ih h.1
    | caught x =>
      refine ⟨ih h.1, fun hx => ?_⟩
      obtain ⟨l, rfl⟩ := List.head?_eq_some_iff.mp (h.2.2 hx)
      rfl

theorem Grouped.dedup_head {x : ℕ} {l : List ℕ} (h : Grouped (x :: l)) : (x :: l).dedup.head? = some x := by
  induction l with
  | nil => simp
  | cons y l ih =>
    by_cases hx : x ∈ y :: l
    · rw [List.dedup_cons_of_mem hx]
      obtain rfl : y = x := by simpa using h.2 hx
      exact ih h.1
    · rw [List.dedup_cons_of_notMem hx]
      rfl

/-- A handler is left, by its end or by the exception in flight above it. -/
theorem Nested.leave {x y : ℕ} {rest : List Frame} (h : Nested (.unwinding x :: .caught y :: rest)) :
    Nested (.unwinding x :: rest) := by
  obtain ⟨⟨hrest, -, hhead⟩, hx, hxhead⟩ := h
  refine ⟨hrest, fun hm => hx (List.mem_cons_of_mem _ hm), fun hm => ?_⟩
  obtain rfl : y = x := by simpa using hxhead (List.mem_cons_of_mem _ hm)
  exact hhead hm

@[simp] theorem caughtIds_caught (x : ℕ) (fs : List Frame) : caughtIds (.caught x :: fs) =
    x :: caughtIds fs := rfl

@[simp] theorem caughtIds_unwinding (x : ℕ) (fs : List Frame) : caughtIds (.unwinding x :: fs) =
    caughtIds fs := rfl

/-- Entering a handler takes the exception out of flight. -/
theorem nested_caught {x : ℕ} {rest : List Frame} (h : Nested (.unwinding x :: rest)) :
    Nested (.caught x :: rest) := h

theorem mentioned_caught {x z : ℕ} {rest : List Frame} :
    Mentioned (.caught x :: rest) z ↔ Mentioned (.unwinding x :: rest) z := by
  simp [Mentioned, or_assoc, or_left_comm]

section Active

variable {kind : ℕ → Kind} {l : List ℕ}

theorem active_of_objc (h : ∀ x ∈ l, kind x = .objc) : active kind l = l.dedup := by
  unfold active
  rw [List.filter_eq_self.mpr]
  intro x hx
  simp [h x hx]

theorem cxx_of_objc (h : ∀ x ∈ l, kind x = .objc) : (l.filter fun x => kind x = .cxx) = [] := by
  rw [List.filter_eq_nil_iff]
  intro x hx
  simp [h x hx]

theorem active_cons_of_objc {x : ℕ} (h : ∀ z ∈ x :: l, kind z = .objc) (hx : x ∉ l) :
    active kind (x :: l) = x :: active kind l := by
  rw [active_of_objc h, active_of_objc fun z hz => h z (List.mem_cons_of_mem _ hz),
    List.dedup_cons_of_notMem hx]

theorem active_cons_of_mem {x : ℕ} (h : ∀ z ∈ x :: l, kind z = .objc) (hx : x ∈ l) :
    active kind (x :: l) = active kind l := by
  rw [active_of_objc h, active_of_objc fun z hz => h z (List.mem_cons_of_mem _ hz), List.dedup_cons_of_mem hx]

end Active

/-! ## The invariant -/

/-- The catch count that stands for the handlers of an exception: it is negated while the exception
    is in flight. -/
def signedCount (fs : List Frame) (x : ℕ) : ℤ :=
  if .unwinding x ∈ fs then -((caughtIds fs).count x : ℤ) else (caughtIds fs).count x

theorem signedCount_caught {x : ℕ} {rest : List Frame} (h : Nested (.caught x :: rest)) :
    signedCount (.caught x :: rest) x = (caughtIds rest).count x + 1 := by
  have : .unwinding x ∉ rest := h.2.1
  simp [signedCount, this]

theorem signedCount_caught_of_ne {x z : ℕ} {rest : List Frame} (h : z ≠ x) :
    signedCount (.caught x :: rest) z = signedCount (.unwinding x :: rest) z := by
  simp [signedCount, h, List.count_cons_of_ne (Ne.symm h)]

structure Inv (σ : State) : Prop where
  notCrashed : σ.crashed = false
  nested : Nested σ.frames
  below : ∀ x, Mentioned σ.frames x → x < σ.thrown
  alone : ∀ x ∈ caughtIds σ.frames, σ.kind x ≠ .objc → caughtIds σ.frames = [x]
  count : ∀ x, (σ.heap x).map (·.catchCount) =
    if σ.kind x = .objc ∧ Mentioned σ.frames x then some (signedCount σ.frames x) else none
  freed : ∀ x, σ.freed x = if σ.kind x = .objc ∧ x < σ.thrown ∧ ¬ Mentioned σ.frames x then 1 else 0
  chain : Chain σ.nextOf σ.caughtExceptions (active σ.kind (caughtIds σ.frames))
  typed : ∀ y, (caughtIds σ.frames).head? = some y → σ.currentExceptionType.ends = some (σ.kind y)
  cxx : σ.cxxCaught = (caughtIds σ.frames).filter fun x => σ.kind x = .cxx

theorem ends_objc {t : ExceptionType} (h : t.ends = some .objc) : t = .objc := by
  cases t <;> simp_all [ExceptionType.ends]

theorem ends_cxx {t : ExceptionType} (h : t.ends = some .cxx) : t = .cxx := by
  cases t <;> simp_all [ExceptionType.ends]

namespace Inv

variable {σ : State}

theorem objc_of_mem (h : Inv σ) {y : ℕ} (hy : y ∈ caughtIds σ.frames) (hk : σ.kind y = .objc) :
    ∀ x ∈ caughtIds σ.frames, σ.kind x = .objc := by
  intro x hx
  by_contra hne
  rw [h.alone x hx hne, List.mem_singleton] at hy
  exact hne (hy ▸ hk)

theorem type_objc (h : Inv σ) {y : ℕ} (hy : y ∈ caughtIds σ.frames) (hk : σ.kind y = .objc) :
    σ.currentExceptionType = .objc := by
  have hobjc := h.objc_of_mem hy hk
  cases hids : caughtIds σ.frames with
  | nil => simp [hids] at hy
  | cons z l =>
    apply ends_objc
    rw [h.typed z (by simp [hids]), hobjc z (by simp [hids])]

/-- An Objective-C exception that is handled or in flight is in memory, with its signed count. -/
theorem record (h : Inv σ) {x : ℕ} (hk : σ.kind x = .objc) (hm : Mentioned σ.frames x) :
    ∃ ex, σ.heap x = some ex ∧ ex.catchCount = signedCount σ.frames x := by
  have hc := h.count x
  rw [if_pos ⟨hk, hm⟩, Option.map_eq_some_iff] at hc
  exact hc

/-- What is handled innermost is the head of the list, unless the C++ runtime keeps it. -/
theorem head_eq (h : Inv σ) {y : ℕ} {l : List ℕ} (hids : caughtIds σ.frames = y :: l) (hk : σ.kind y ≠ .cxx) :
    σ.caughtExceptions = some y := by
  have hhead : (active σ.kind (caughtIds σ.frames)).head? = some y := by
    by_cases ho : σ.kind y = .objc
    · rw [active_of_objc (h.objc_of_mem (by simp [hids]) ho), hids]
      apply Grouped.dedup_head
      rw [← hids]
      exact h.nested.grouped
    · rw [h.alone y (by simp [hids]) ho]
      simp [active, hk]
  obtain ⟨l', hl'⟩ := List.head?_eq_some_iff.mp hhead
  have hchain := h.chain
  rw [hl'] at hchain
  exact (chain_cons.mp hchain).1

theorem wellFormed (h : Inv σ) : WellFormed σ where
  notCrashed := h.notCrashed
  chain := h.chain
  ends := by
    intro y hy
    refine ⟨?_, h.typed y hy⟩
    obtain ⟨l, hl⟩ := List.head?_eq_some_iff.mp hy
    have ht := h.typed y hy
    unfold endTarget
    by_cases hk : σ.kind y = .cxx
    · rw [hk] at ht
      rw [if_pos (ends_cxx ht), h.cxx, hl, List.filter_cons_of_pos (by simpa using hk)]
      rfl
    · rw [if_neg, h.head_eq hl hk]
      intro hcxx
      rw [hcxx] at ht
      exact hk (Option.some.inj ht).symm
  freedOnce := by
    intro x hx hk
    have hc := h.count x
    have hf := h.freed x
    by_cases hm : Mentioned σ.frames x
    · obtain ⟨ex, hex, -⟩ := h.record hk hm
      exact .inl ⟨hm, by simp [hex], by simpa [hm] using hf⟩
    · rw [if_neg (fun hh => hm hh.2), Option.map_eq_none_iff] at hc
      exact .inr ⟨hm, hc, by simpa [hm, hk, hx] using hf⟩
  empty := by
    intro hids
    have hchain := h.chain
    rw [hids] at hchain
    exact chain_nil.mp hchain

/-- Only the count of one exception changes, with the handlers of that exception. -/
theorem recount (h : Inv σ) {fs : List Frame} {y : ℕ} {ex : ObjcException} (hex : σ.heap y = some ex)
    (hk : σ.kind y = .objc) (hy : y ∈ caughtIds σ.frames) (hfs : Nested fs)
    (hsub : ∀ x ∈ caughtIds fs, x ∈ caughtIds σ.frames)
    (hmem : ∀ x, Mentioned fs x ↔ Mentioned σ.frames x)
    (hcount : ∀ x ≠ y, signedCount fs x = signedCount σ.frames x)
    (hactive : active σ.kind (caughtIds fs) = active σ.kind (caughtIds σ.frames)) :
    Inv { σ.setCatchCount y ex (signedCount fs y) with frames := fs } := by
  have hobjc := h.objc_of_mem hy hk
  have htype := h.type_objc hy hk
  refine ⟨h.notCrashed, hfs, fun x hx => h.below x ((hmem x).mp hx), ?_, ?_, ?_, ?_, ?_, ?_⟩
  · intro x hx hne
    exact absurd (hobjc x (hsub x hx)) hne
  · intro x
    show (Function.update σ.heap y _ x).map _ = if σ.kind x = .objc ∧ Mentioned fs x then _ else _
    by_cases hxy : x = y
    · subst hxy
      rw [Function.update_self, if_pos ⟨hk, (hmem x).mpr (.inl hy)⟩]
      rfl
    · rw [Function.update_of_ne hxy, h.count x, hcount x hxy, if_congr (and_congr_right' (hmem x)) rfl rfl]
  · intro x
    show σ.freed x = if σ.kind x = .objc ∧ x < σ.thrown ∧ ¬ Mentioned fs x then 1 else 0
    simp only [hmem x]
    exact h.freed x
  · show Chain _ σ.caughtExceptions (active σ.kind (caughtIds fs))
    rw [hactive]
    refine h.chain.congr fun x _ => ?_
    show (Function.update σ.heap y _ x).bind _ = (σ.heap x).bind _
    by_cases hxy : x = y
    · subst hxy
      rw [Function.update_self, hex]
      rfl
    · rw [Function.update_of_ne hxy]
  · intro z hz
    show σ.currentExceptionType.ends = some (σ.kind z)
    rw [htype, hobjc z (hsub z (List.mem_of_head? hz))]
    rfl
  · show σ.cxxCaught = (caughtIds fs).filter fun x => σ.kind x = .cxx
    rw [h.cxx, cxx_of_objc hobjc, cxx_of_objc fun x hx => hobjc x (hsub x hx)]

/-- The control stack changes, and the handlers and what is held do not. -/
theorem resume (h : Inv σ) {fs : List Frame} (hfs : Nested fs)
    (hmem : ∀ x, Mentioned fs x ↔ Mentioned σ.frames x)
    (hids : caughtIds fs = caughtIds σ.frames)
    (hcount : ∀ x, σ.kind x = .objc → signedCount fs x = signedCount σ.frames x) :
    Inv { σ with frames := fs } := by
  refine ⟨h.notCrashed, hfs, fun x hx => h.below x ((hmem x).mp hx), ?_, ?_, ?_, ?_, ?_, ?_⟩
  · rw [hids]
    exact h.alone
  · intro x
    refine (h.count x).trans (if_ctx_congr (and_congr_right' (hmem x).symm) (fun hx => ?_) fun _ => rfl)
    rw [hcount x hx.1]
  · intro x
    show σ.freed x = if σ.kind x = .objc ∧ x < σ.thrown ∧ ¬ Mentioned fs x then 1 else 0
    simp only [hmem x]
    exact h.freed x
  · rw [hids]
    exact h.chain
  · rw [hids]
    exact h.typed
  · rw [hids]
    exact h.cxx

/-- The last handler of an exception that is not in flight is left: the exception is taken off the
    list and freed. -/
theorem drop (h : Inv σ) {fs : List Frame} {y : ℕ} {ex : ObjcException} (hex : σ.heap y = some ex)
    (hk : σ.kind y = .objc) (hids : caughtIds σ.frames = y :: caughtIds fs) (hy : y ∉ caughtIds fs)
    (hun : ∀ x, .unwinding x ∈ fs ↔ .unwinding x ∈ σ.frames) (hyun : .unwinding y ∉ fs) (hfs : Nested fs) :
    Inv { σ with
      caughtExceptions := ex.next
      heap := Function.update σ.heap y none
      freed := Function.update σ.freed y (σ.freed y + 1)
      frames := fs } := by
  have hmem (x : ℕ) : Mentioned fs x ↔ Mentioned σ.frames x ∧ x ≠ y := by
    unfold Mentioned
    rw [hids, hun, List.mem_cons]
    by_cases hxy : x = y
    · subst hxy
      simp [hy, ← hun, hyun]
    · simp [hxy]
  have hobjc := h.objc_of_mem (by simp [hids]) hk
  have hsub (x : ℕ) (hx : x ∈ caughtIds fs) : x ∈ caughtIds σ.frames := by simp [hids, hx]
  refine ⟨h.notCrashed, hfs, fun x hx => h.below x ((hmem x).mp hx).1, ?_, ?_, ?_, ?_, ?_, ?_⟩
  · intro x hx hne
    exact absurd (hobjc x (hsub x hx)) hne
  · intro x
    show (Function.update σ.heap y none x).map _ =
      if σ.kind x = .objc ∧ Mentioned fs x then some (signedCount fs x) else none
    simp only [hmem x]
    by_cases hxy : x = y
    · subst hxy
      simp
    · rw [Function.update_of_ne hxy, h.count x]
      unfold signedCount
      simp only [hids, hun, hxy, ne_eq, not_false_eq_true, and_true, List.count_cons_of_ne (Ne.symm hxy)]
  · intro x
    show Function.update σ.freed y _ x = if σ.kind x = .objc ∧ x < σ.thrown ∧ ¬ Mentioned fs x then 1 else 0
    simp only [hmem x]
    by_cases hxy : x = y
    · subst hxy
      have hm : Mentioned σ.frames x := .inl (by simp [hids])
      rw [Function.update_self, h.freed x, if_neg fun hh => hh.2.2 hm, if_pos ⟨hk, h.below x hm, by simp⟩]
    · rw [Function.update_of_ne hxy, h.freed x]
      simp [hxy]
  · have hchain := h.chain
    rw [hids] at hobjc hchain
    rw [active_cons_of_objc hobjc hy] at hchain
    have hnext : σ.nextOf y = ex.next := by simp [nextOf, hex]
    rw [← hnext]
    refine (chain_cons.mp hchain).2.congr fun x hx => ?_
    have hxy : x ≠ y := by
      rintro rfl
      exact hy (List.mem_of_mem_filter (List.mem_dedup.mp hx))
    show (Function.update σ.heap y none x).bind _ = (σ.heap x).bind _
    rw [Function.update_of_ne hxy]
  · intro z hz
    have hyz := h.typed y (by simp [hids])
    show σ.currentExceptionType.ends = some (σ.kind z)
    rw [hyz, hk, hobjc z (hsub z (List.mem_of_head? hz))]
  · show σ.cxxCaught = (caughtIds fs).filter fun x => σ.kind x = .cxx
    rw [h.cxx, cxx_of_objc hobjc, cxx_of_objc fun x hx => hobjc x (hsub x hx)]

/-- The handler of an exception of another runtime is left: no handler is left then. -/
theorem leave_other (h : Inv σ) {fs : List Frame} {y : ℕ} {t : ExceptionType} (hk : σ.kind y ≠ .objc)
    (hids : caughtIds σ.frames = y :: caughtIds fs) (hun : ∀ x, .unwinding x ∈ fs ↔ .unwinding x ∈ σ.frames)
    (hfs : Nested fs) :
    Inv { σ with caughtExceptions := none, currentExceptionType := t, cxxCaught := [], frames := fs } := by
  have hnil : caughtIds fs = [] := by
    have := h.alone y (by simp [hids]) hk
    simpa [hids] using this
  have hmem (x : ℕ) (hx : σ.kind x = .objc) : Mentioned fs x ↔ Mentioned σ.frames x := by
    have hxy : x ≠ y := fun e => hk (e ▸ hx)
    unfold Mentioned
    simp [hids, hnil, hun, hxy]
  refine ⟨h.notCrashed, hfs, fun x hx =>
      h.below x ?_, by simp [hnil], ?_, ?_, ?_, by simp [hnil], by simp [hnil]⟩
  · refine hx.imp (fun hx => ?_) (hun x).mp
    simp [hnil] at hx
  · intro x
    refine (h.count x).trans (if_ctx_congr ?_ (fun hx => ?_) fun _ => rfl)
    · exact and_congr_right fun hx => (hmem x hx).symm
    · have hxy : y ≠ x := fun e => hk (e ▸ hx.1)
      simp [signedCount, hids, hun, List.count_cons_of_ne hxy]
  · intro x
    refine (h.freed x).trans (if_congr ?_ rfl rfl)
    exact and_congr_right fun hx => and_congr_right' (not_congr (hmem x hx).symm)
  · show Chain _ none (active σ.kind (caughtIds fs))
    rw [hnil]
    exact .nil

/-- `objc_end_catch` takes the innermost handler away. -/
theorem leave (h : Inv σ) {fs : List Frame} {y : ℕ} (hids : caughtIds σ.frames = y :: caughtIds fs)
    (hun : ∀ x, .unwinding x ∈ fs ↔ .unwinding x ∈ σ.frames) (hfs : Nested fs)
    (hkeep : σ.kind y = .objc → .unwinding y ∈ fs → y ∈ caughtIds fs) :
    Inv { objcEndCatch σ with frames := fs } := by
  have hy : y ∈ caughtIds σ.frames := by simp [hids]
  have htype := h.typed y (by simp [hids])
  cases hk : σ.kind y with
  | objc =>
    rw [hk] at htype
    obtain ⟨ex, hex, hcount⟩ := h.record hk (.inl hy)
    have hend : objcEndCatch σ = endObjcCatch σ := by simp [objcEndCatch, ends_objc htype]
    have hcaught : σ.caughtExceptions = some y := h.head_eq hids (by simp [hk])
    by_cases hmem : y ∈ caughtIds fs
    · have hpos : 0 < (caughtIds fs).count y := List.count_pos_iff.mpr hmem
      have hcalc : objcEndCatch σ = σ.setCatchCount y ex (signedCount fs y) := by
        rw [hend]
        unfold endObjcCatch signedCount
        unfold signedCount at hcount
        rw [hids, List.count_cons_self] at hcount
        simp only [hcaught, hex]
        simp only [← hun] at hcount
        by_cases hu : .unwinding y ∈ fs
        · rw [if_pos hu] at hcount ⊢
          rw [if_pos (by omega)]
          congr 1
          omega
        · rw [if_neg hu] at hcount ⊢
          rw [if_neg (by omega), if_neg (by omega)]
          congr 1
          omega
      rw [hcalc]
      apply h.recount hex hk hy hfs
      · intro x hx
        simp [hids, hx]
      · intro x
        unfold Mentioned
        rw [hids, hun, List.mem_cons]
        refine or_congr_left ⟨.inr, ?_⟩
        rintro (rfl | hx)
        exacts [hmem, hx]
      · intro x hxy
        simp [signedCount, hids, hun, List.count_cons_of_ne (Ne.symm hxy)]
      · rw [hids]
        exact (active_cons_of_mem (hids ▸ h.objc_of_mem hy hk) hmem).symm
    · have hu : .unwinding y ∉ fs := fun hu => hmem (hkeep hk hu)
      have hone : ex.catchCount = 1 := by
        rw [hcount]
        unfold signedCount
        rw [if_neg (fun hh => hu ((hun y).mpr hh)), hids]
        simp [List.count_eq_zero_of_not_mem hmem]
      have hcalc : objcEndCatch σ = { σ with
          caughtExceptions := ex.next
          heap := Function.update σ.heap y none
          freed := Function.update σ.freed y (σ.freed y + 1) } := by
        rw [hend]
        simp [endObjcCatch, hcaught, hex, hone]
      rw [hcalc]
      exact h.drop hex hk hids hmem hun hu hfs
  | cxx =>
    rw [hk] at htype
    have hsingle := h.alone y hy (by simp [hk])
    have hnone : σ.caughtExceptions = none := by
      have hchain := h.chain
      rw [hsingle] at hchain
      simpa [active, hk] using hchain
    have hcxx : σ.cxxCaught.tail = [] := by simp [h.cxx, hsingle, hk]
    have hcalc : objcEndCatch σ = { σ with
        caughtExceptions := none, currentExceptionType := .objc, cxxCaught := [] } := by
      simp [objcEndCatch, ends_cxx htype, hcxx, hnone]
    rw [hcalc]
    exact h.leave_other (by simp [hk]) hids hun hfs
  | foreign =>
    rw [hk] at htype
    have hcaught : σ.caughtExceptions = some y := h.head_eq hids (by simp [hk])
    have hcxx : σ.cxxCaught = [] := by simp [h.cxx, h.alone y hy (by simp [hk]), hk]
    have hcalc : objcEndCatch σ = { σ with
        caughtExceptions := none, currentExceptionType := .none, cxxCaught := [] } := by
      unfold objcEndCatch
      cases ht : σ.currentExceptionType <;> simp_all [ExceptionType.ends]
    rw [hcalc]
    exact h.leave_other (by simp [hk]) hids hun hfs

/-- The first handler of an Objective-C exception is entered, inside handlers of other ones. -/
theorem push (h : Inv σ) {x : ℕ} {rest : List Frame} {ex : ObjcException}
    (hfr : σ.frames = .unwinding x :: rest)
    (hall : ∀ y ∈ x :: caughtIds rest, σ.kind y = .objc) (hx : x ∉ caughtIds rest) :
    Inv { σ with
      currentExceptionType := .objc
      heap := Function.update σ.heap x (some { ex with catchCount := 1, next := σ.caughtExceptions })
      caughtExceptions := some x
      frames := .caught x :: rest } := by
  have hk := hall x (by simp)
  have hids : caughtIds σ.frames = caughtIds rest := by rw [hfr, caughtIds_unwinding]
  have hnested : Nested (.caught x :: rest) := nested_caught (hfr ▸ h.nested)
  have hmem (z : ℕ) : Mentioned (.caught x :: rest) z ↔ Mentioned σ.frames z := hfr ▸ mentioned_caught
  refine ⟨h.notCrashed, hnested, fun z hz => h.below z ((hmem z).mp hz), ?_, ?_, ?_, ?_, ?_, ?_⟩
  · intro z hz hne
    exact absurd (hall z hz) hne
  · intro z
    show (Function.update σ.heap x _ z).map _ =
      if σ.kind z = .objc ∧ Mentioned (.caught x :: rest) z then
        some (signedCount (.caught x :: rest) z) else none
    by_cases hzx : z = x
    · subst hzx
      rw [if_pos ⟨hk, .inl (by simp)⟩, Function.update_self, signedCount_caught hnested,
        List.count_eq_zero_of_not_mem hx]
      rfl
    · rw [Function.update_of_ne hzx, h.count z, signedCount_caught_of_ne hzx, hfr]
      simp only [mentioned_caught]
  · intro z
    show σ.freed z = if σ.kind z = .objc ∧ z < σ.thrown ∧ ¬ Mentioned (.caught x :: rest) z then 1 else 0
    simp only [hmem z]
    exact h.freed z
  · show Chain _ (some x) (active σ.kind (x :: caughtIds rest))
    rw [active_cons_of_objc hall hx]
    have hchain := h.chain
    rw [hids] at hchain
    have hnot : x ∉ active σ.kind (caughtIds rest) := by
      intro hm
      exact hx (List.mem_of_mem_filter (List.mem_dedup.mp hm))
    refine (hchain.push hnot).congr fun z _ => ?_
    show (Function.update σ.heap x _ z).bind _ = _
    by_cases hzx : z = x
    · subst hzx
      simp
    · rw [Function.update_of_ne hzx, Function.update_of_ne hzx]
      rfl
  · intro z hz
    show ExceptionType.objc.ends = some (σ.kind z)
    rw [hall z (List.mem_of_head? hz)]
    rfl
  · show σ.cxxCaught = (x :: caughtIds rest).filter fun z => σ.kind z = .cxx
    rw [h.cxx, hids, cxx_of_objc hall, cxx_of_objc fun z hz => hall z (List.mem_cons_of_mem _ hz)]

/-- A handler of an exception of another runtime is entered, as the only one. -/
theorem enter_other (h : Inv σ) {x : ℕ} {rest : List Frame} {t : ExceptionType} {head : Option ℕ} {l : List ℕ}
    (hfr : σ.frames = .unwinding x :: rest) (hk : σ.kind x ≠ .objc) (hnil : caughtIds rest = [])
    (ht : t.ends = some (σ.kind x)) (hchain : Chain σ.nextOf head (active σ.kind [x]))
    (hl : l = [x].filter fun z => σ.kind z = .cxx) :
    Inv { σ with
      caughtExceptions := head, currentExceptionType := t, cxxCaught := l, frames := .caught x :: rest } := by
  have hmem (z : ℕ) : Mentioned (.caught x :: rest) z ↔ Mentioned σ.frames z := hfr ▸ mentioned_caught
  refine ⟨h.notCrashed, nested_caught (hfr ▸ h.nested), fun z hz => h.below z ((hmem z).mp hz), ?_,
      ?_, ?_, ?_, ?_, ?_⟩
  · simp [hnil]
  · intro z
    refine (h.count z).trans (if_ctx_congr (and_congr_right' (hmem z).symm) (fun hz => ?_) fun _ => rfl)
    have hzx : z ≠ x := fun e => hk (e ▸ hz.1)
    rw [signedCount_caught_of_ne hzx, hfr]
  · intro z
    show σ.freed z = if σ.kind z = .objc ∧ z < σ.thrown ∧ ¬ Mentioned (.caught x :: rest) z then 1 else 0
    simp only [hmem z]
    exact h.freed z
  · show Chain _ head (active σ.kind (x :: caughtIds rest))
    rw [hnil]
    exact hchain
  · simp [ht]
  · show l = (x :: caughtIds rest).filter fun z => σ.kind z = .cxx
    rw [hnil, hl]

/-- `objc_begin_catch` enters a handler, and every other one is of an Objective-C exception. -/
theorem enter (h : Inv σ) {x : ℕ} {rest : List Frame} {boxes : Bool} (hfr : σ.frames = .unwinding x :: rest)
    (hadmitted : σ.kind x = .objc ∨ σ.caughtExceptions = none)
    (hobjc : ∀ y ∈ caughtIds σ.frames, σ.kind y = .objc) :
    Inv { objcBeginCatch boxes x σ with frames := .caught x :: rest } := by
  have hnested : Nested (.caught x :: rest) := nested_caught (hfr ▸ h.nested)
  have hids : caughtIds σ.frames = caughtIds rest := by rw [hfr, caughtIds_unwinding]
  -- a runtime that cannot stack its exceptions is let in when there is no handler
  have hnil (hk : σ.kind x ≠ .objc) : σ.caughtExceptions = none ∧ caughtIds rest = [] := by
    have hnone := hadmitted.resolve_left hk
    have hchain := h.chain
    rw [hnone, chain_none, active_of_objc hobjc, List.dedup_eq_nil, hids] at hchain
    exact ⟨hnone, hchain⟩
  cases hk : σ.kind x with
  | objc =>
    obtain ⟨ex, hex, hrecord⟩ := h.record hk (.inr (by simp [hfr]))
    have hold : ex.catchCount = -((caughtIds rest).count x : ℤ) := by simp [hrecord, signedCount, hfr]
    have hall : ∀ y ∈ x :: caughtIds rest, σ.kind y = .objc := by
      intro y hy
      rcases List.mem_cons.mp hy with rfl | hy
      exacts [hk, hobjc y (hids ▸ hy)]
    by_cases hx : x ∈ caughtIds rest
    · -- the exception has been rethrown inside its own handler
      have hpos : 0 < (caughtIds rest).count x := List.count_pos_iff.mpr hx
      have hcalc : objcBeginCatch boxes x σ = σ.setCatchCount x ex (signedCount (.caught x :: rest) x) := by
        unfold objcBeginCatch
        simp only [hk, hex]
        rw [if_neg (by omega), if_pos (by omega), ← h.type_objc (hids ▸ hx) hk,
          signedCount_caught hnested, hold,
          neg_neg]
      rw [hcalc]
      apply h.recount hex hk (hids ▸ hx) hnested
      · intro y hy
        rw [hids]
        rcases List.mem_cons.mp hy with rfl | hy
        exacts [hx, hy]
      · intro z
        rw [hfr, mentioned_caught]
      · intro z hz
        rw [hfr, signedCount_caught_of_ne hz]
      · rw [caughtIds_caught, hids]
        exact active_cons_of_mem hall hx
    · have hzero : ex.catchCount = 0 := by simp [hold, List.count_eq_zero_of_not_mem hx]
      have hcalc : objcBeginCatch boxes x σ = { σ with
          currentExceptionType := .objc
          heap := Function.update σ.heap x (some { ex with catchCount := 1, next := σ.caughtExceptions })
          caughtExceptions := some x } := by
        unfold objcBeginCatch
        simp only [hk, hex]
        rw [if_pos hzero]
      rw [hcalc]
      exact h.push hfr hall hx
  | cxx =>
    obtain ⟨hnone, hrest⟩ := hnil (by simp [hk])
    have hcxx : σ.cxxCaught = [] := by simp [h.cxx, hids, hrest]
    have hcalc : objcBeginCatch boxes x σ = { σ with
        caughtExceptions := none, currentExceptionType := .cxx, cxxCaught := [x] } := by
      simp [objcBeginCatch, hk, hnone, hcxx]
    rw [hcalc]
    exact h.enter_other hfr (by simp [hk]) hrest (by rw [hk]; rfl) (by simp [active, hk]) (by simp [hk])
  | foreign =>
    obtain ⟨hnone, hrest⟩ := hnil (by simp [hk])
    have hcxx : σ.cxxCaught = [] := by simp [h.cxx, hids, hrest]
    have hnext : σ.nextOf x = none := by
      have hc := h.count x
      rw [if_neg (by simp [hk]), Option.map_eq_none_iff] at hc
      simp [nextOf, hc]
    have hcalc : objcBeginCatch boxes x σ = { σ with
        caughtExceptions := some x
        currentExceptionType := if boxes then .boxedForeign else .foreign
        cxxCaught := [] } := by
      simp [objcBeginCatch, hk, hnone, hcxx]
    rw [hcalc]
    apply h.enter_other hfr (by simp [hk]) hrest
    · rw [hk]
      cases boxes <;> rfl
    · simp [active, hk, hnext]
    · simp [hk]

/-- `objc_exception_rethrow` in the innermost handler. -/
theorem rethrow (h : Inv σ) {x : ℕ} {rest : List Frame} (hfr : σ.frames = .caught x :: rest) :
    Inv { objcExceptionRethrow x σ with frames := .unwinding x :: .caught x :: rest } := by
  have hids : caughtIds σ.frames = x :: caughtIds rest := by rw [hfr, caughtIds_caught]
  have hx : x ∈ caughtIds σ.frames := by simp [hids]
  have hold : Nested (.caught x :: rest) := hfr ▸ h.nested
  have hun : .unwinding x ∉ rest := hold.2.1
  have hnested : Nested (.unwinding x :: .caught x :: rest) := ⟨hold, by simpa using hun, fun _ => rfl⟩
  have hmem (z : ℕ) : Mentioned (.unwinding x :: .caught x :: rest) z ↔ Mentioned σ.frames z := by
    unfold Mentioned
    rw [hfr]
    by_cases hzx : z = x <;> simp [hzx]
  have hcount (z : ℕ) (hz : z ≠ x) :
      signedCount (.unwinding x :: .caught x :: rest) z = signedCount σ.frames z := by
    simp [signedCount, hfr, hz]
  have htype := h.typed x (by simp [hids])
  cases hk : σ.kind x with
  | objc =>
    rw [hk] at htype
    obtain ⟨ex, hex, hrecord⟩ := h.record hk (.inl hx)
    have hpos : ex.catchCount = (caughtIds rest).count x + 1 := by
      rw [hrecord, hfr, signedCount_caught hold]
    have hcalc : objcExceptionRethrow x σ =
        σ.setCatchCount x ex (signedCount (.unwinding x :: .caught x :: rest) x) := by
      unfold objcExceptionRethrow
      simp only [ends_objc htype, hex]
      rw [if_pos ⟨hk, h.head_eq hids (by simp [hk]), by omega⟩, hpos]
      simp [signedCount]
    rw [hcalc]
    exact h.recount hex hk hx hnested (by simp [hids]) hmem hcount (by simp [hids])
  | cxx =>
    rw [hk] at htype
    have hcalc : objcExceptionRethrow x σ = σ := by simp [objcExceptionRethrow, ends_cxx htype, hk]
    rw [hcalc]
    exact h.resume hnested hmem (by simp [hids]) fun z hz => hcount z fun e => by simp [← e, hz] at hk
  | foreign =>
    rw [hk] at htype
    have hcalc : objcExceptionRethrow x σ = σ := by
      unfold objcExceptionRethrow
      have := h.head_eq hids (by simp [hk])
      cases ht : σ.currentExceptionType <;> simp_all [ExceptionType.ends]
    rw [hcalc]
    exact h.resume hnested hmem (by simp [hids]) fun z hz => hcount z fun e => by simp [← e, hz] at hk

/-- A throw, by any runtime. -/
theorem throw (h : Inv σ) (k : Kind) (object : ℕ) :
    Inv { objcExceptionThrow k object σ with frames := .unwinding σ.thrown :: σ.frames } := by
  have hnew : ¬ Mentioned σ.frames σ.thrown := fun hm => (h.below _ hm).false
  have hids (x : ℕ) (hx : x ∈ caughtIds σ.frames) : Function.update σ.kind σ.thrown k x = σ.kind x :=
    Function.update_of_ne (fun e => hnew (.inl (by rwa [← e]))) ..
  have hmem (x : ℕ) (hx : x ≠ σ.thrown) : Mentioned (.unwinding σ.thrown :: σ.frames) x ↔
      Mentioned σ.frames x := by
    simp [Mentioned, hx]
  have hfilter (p : Kind → Bool) :
      (caughtIds σ.frames).filter (fun x => p (Function.update σ.kind σ.thrown k x)) =
      (caughtIds σ.frames).filter fun x => p (σ.kind x) :=
    List.filter_congr fun x hx => by rw [hids x hx]
  refine ⟨h.notCrashed, ⟨h.nested, fun hm => hnew (.inr hm), fun hm => absurd (.inl hm) hnew⟩, ?_,
      ?_, ?_, ?_, ?_, ?_, ?_⟩
  · intro x hx
    show x < σ.thrown + 1
    by_cases hxn : x = σ.thrown
    · omega
    · have := h.below x ((hmem x hxn).mp hx)
      omega
  · intro x hx hk
    exact h.alone x hx (hids x hx ▸ hk)
  · intro x
    show ((if k = .objc then Function.update σ.heap σ.thrown (some ⟨object, 0, none⟩) else σ.heap) x).map _ =
      if Function.update σ.kind σ.thrown k x = .objc ∧ Mentioned (.unwinding σ.thrown :: σ.frames) x then
        some (signedCount (.unwinding σ.thrown :: σ.frames) x) else none
    have hc := h.count x
    by_cases hxn : x = σ.thrown
    · subst hxn
      rw [if_neg fun hh => hnew hh.2] at hc
      have hzero := List.count_eq_zero_of_not_mem fun hm => hnew (.inl hm)
      by_cases hk : k = .objc
      · simp [hk, Mentioned, signedCount, hzero]
      · simpa [hk] using hc
    · simp only [Function.update_of_ne hxn, hmem x hxn]
      have hcount : signedCount (.unwinding σ.thrown :: σ.frames) x = signedCount σ.frames x := by
        simp [signedCount, hxn]
      rw [hcount, ← hc]
      split
      · rw [Function.update_of_ne hxn]
      · rfl
  · intro x
    show σ.freed x = if Function.update σ.kind σ.thrown k x = .objc ∧ x < σ.thrown + 1 ∧
      ¬ Mentioned (.unwinding σ.thrown :: σ.frames) x then 1 else 0
    by_cases hxn : x = σ.thrown
    · subst hxn
      simp [h.freed, Mentioned]
    · have hlt : x < σ.thrown + 1 ↔ x < σ.thrown := by omega
      simp only [Function.update_of_ne hxn, hmem x hxn, hlt]
      exact h.freed x
  · show Chain _ σ.caughtExceptions (active (Function.update σ.kind σ.thrown k) (caughtIds σ.frames))
    have hactive : active (Function.update σ.kind σ.thrown k) (caughtIds σ.frames) = active σ.kind
        (caughtIds σ.frames) :=
      congrArg List.dedup (hfilter fun z => z ≠ .cxx)
    rw [hactive]
    refine h.chain.congr fun x hx => ?_
    have hxn : x ≠ σ.thrown := by
      rintro rfl
      exact hnew (.inl (List.mem_of_mem_filter (List.mem_dedup.mp hx)))
    show ((if k = .objc then Function.update σ.heap σ.thrown (some ⟨object, 0, none⟩) else σ.heap)
        x).bind _ = _
    split
    · rw [Function.update_of_ne hxn]
      rfl
    · rfl
  · intro y hy
    exact (h.typed y hy).trans (congrArg some (hids y (List.mem_of_head? hy)).symm)
  · exact h.cxx.trans (hfilter fun z => z = .cxx).symm

theorem start : Inv State.start where
  notCrashed := rfl
  nested := trivial
  below := by simp [State.start, Mentioned, caughtIds]
  alone := by simp [State.start, caughtIds]
  count := by simp [State.start, Mentioned, caughtIds]
  freed := by simp [State.start]
  chain := .nil
  typed := by simp [State.start, caughtIds]
  cxx := rfl

/-- One step of a well-nested run. -/
theorem next (h : Inv σ) {a : Action} (hnested : wellNested σ a) (hkeeps : keepsOwnCatch σ a) :
    Inv (Exceptions.next σ a) := by
  cases a with
  | throw k object => exact h.throw k object
  | beginCatch boxes =>
    simp only [wellNested] at hnested
    split at hnested
    · next x rest hfr =>
      simp only [Exceptions.next, hfr]
      exact h.enter hfr hnested hkeeps
    · exact hnested.elim
  | landingPad =>
    unfold Exceptions.next
    unfold keepsOwnCatch at hkeeps
    simp only at hkeeps ⊢
    split
    · next x y rest hfr =>
      simp only [hfr] at hkeeps
      refine h.leave (y := y) (by rw [hfr]; rfl) ?_ (Nested.leave (hfr ▸ h.nested)) ?_
      · simp [hfr]
      · intro hk hu
        have hy : .unwinding y ∉ rest := by
          have := h.nested
          rw [hfr] at this
          exact this.1.2.1
        have hxy : x = y := by simpa [hy, eq_comm] using hu
        exact hxy ▸ hkeeps hxy (hxy ▸ hk)
    · exact h
  | endCatch =>
    unfold Exceptions.next
    simp only
    split
    · next y rest hfr =>
      have hold : Nested (.caught y :: rest) := hfr ▸ h.nested
      apply h.leave (y := y) (by rw [hfr]; rfl) (by simp [hfr]) hold.1
      intro _ hu
      exact absurd hu hold.2.1
    · exact h
  | rethrow =>
    unfold Exceptions.next
    simp only
    split
    · next x rest hfr => exact h.rethrow hfr
    · exact h

end Inv

/-- **The stack of caught exceptions.** In a run whose handlers are entered inside handlers of
    Objective-C exceptions only, and in which no Objective-C exception is rethrown out of its last
    handler, every state is well formed. -/
theorem caughtStack_wellFormed {σ : State}
    (h : Runs (guarded (fun σ a => wellNested σ a ∧ keepsOwnCatch σ a) next) State.start σ) :
    WellFormed σ := by
  refine Inv.wellFormed (h.invariant Inv.start ?_)
  rintro u a _ hu ⟨⟨hnested, hkeeps⟩, rfl⟩
  exact hu.next hnested hkeeps

/-- An exception is rethrown and caught again inside its handler, and another one is caught there. -/
def nestedRun : List Action :=
  [.throw .objc 7, .beginCatch false, .rethrow, .beginCatch false, .endCatch, .throw .objc 8,
    .beginCatch false]

theorem nestedRun_wellFormed :
    let σ := runList next State.start nestedRun
    caughtIds σ.frames = [1, 0] ∧ WellFormed σ := by
  refine ⟨rfl, caughtStack_wellFormed (runs_of_allOk nestedRun State.start ?_)⟩
  refine ⟨⟨trivial, trivial⟩, ⟨.inl rfl, ?_⟩, ⟨trivial, trivial⟩, ⟨.inl rfl, ?_⟩, ⟨trivial, trivial⟩,
    ⟨trivial, trivial⟩, ⟨.inl rfl, ?_⟩, trivial⟩
  · exact fun y hy => nomatch hy
  · exact fun y hy => by simp [List.mem_singleton.mp hy]; rfl
  · exact fun y hy => by simp [List.mem_singleton.mp hy]; rfl

/-! ## Where the list breaks -/

/-- An exception is rethrown out of its only handler, and caught by the one around it. -/
def rethrowRun : List Action := [.throw .objc 7, .beginCatch false, .rethrow, .landingPad, .beginCatch false]

theorem rethrowRun_wellNested : Runs (guarded wellNested next) State.start
    (runList next State.start rethrowRun) :=
  runs_of_allOk rethrowRun State.start ⟨trivial, .inl rfl, trivial, trivial, .inl rfl, trivial⟩

/-- The exception is in front of itself on the list. -/
theorem rethrow_cyclic : ¬ ∀ σ, Runs (guarded wellNested next) State.start σ → WellFormed σ := by
  intro h
  have hchain := (h _ rethrowRun_wellNested).chain
  have hcycle : Chain (runList next State.start rethrowRun).nextOf (some 0) [0] := hchain
  have hrest : Chain (runList next State.start rethrowRun).nextOf (some 0) [] := (chain_cons.mp hcycle).2
  simp at hrest

/-- An Objective-C exception is thrown and caught inside the handler of a C++ exception. -/
def nestedInCxxRun : List Action :=
  [.throw .cxx 7, .beginCatch false, .throw .objc 8, .beginCatch false, .endCatch, .endCatch]

/-- The outer end takes the C++ exception for an Objective-C one, and its assertion fails. -/
theorem nested_in_cxx_asserts :
    Runs (guarded wellNested next) State.start (runList next State.start nestedInCxxRun) ∧
      (runList next State.start nestedInCxxRun).crashed = true := by
  refine ⟨runs_of_allOk nestedInCxxRun State.start ?_, rfl⟩
  exact ⟨trivial, .inr rfl, trivial, .inl rfl, trivial, trivial, trivial⟩

end Libobjc2.Exceptions
