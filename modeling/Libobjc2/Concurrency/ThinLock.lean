import Libobjc2.Common.Run
import Libobjc2.Common.Exclusion

/-!
# `ThinLock` (`src/internal/support/spinlock.h`, lines 21–110)

A lock word with three states. A thread that finds the lock taken marks the word and asks the
platform to wait for a change of it; a thread that unlocks a marked word wakes all sleepers. Every
access to the word and every call of `wait` and `notify` is one step, and the steps of different
threads interleave freely. A wait may end by itself. Targets whose atomics have no `wait` are left
out: there a thread sleeps for a fixed time and nobody wakes it.

Results:
* `lockInv_next`: every step keeps `LockInv`; when threads are asleep, the word is marked or some thread is
  about to wake them.
* `thinLock_safe`: at most one thread holds the lock, and no sleeper is left behind.
-/

namespace Libobjc2.Concurrency.ThinLock

open Libobjc2.Common

/-! ## Model -/

/-- `LockState`, the values 0, 1 and 3 of the word. -/
inductive LockState where
  | unlocked
  | locked
  | lockedWithWaiters
  deriving DecidableEq, Repr

/-- Where a thread is: outside of both methods; in `lock`, before the compare-exchange that takes the
    lock, before the one that marks the word (with `old`), before `wait`, or waiting; in `unlock`,
    before `notify`. -/
inductive Pc where
  | idle
  | take
  | mark (old : LockState)
  | wait
  | asleep
  | notify
  deriving DecidableEq, Repr

/-- A call, with the first access to the word in the case of `unlock`; the next step of the call in
    progress; the end of a wait without a call of `notify`. -/
inductive Action where
  | lock
  | unlock
  | resume
  | awake
  deriving DecidableEq, Repr

/-- `holds`: the thread is between a completed `lock` and its `unlock`. -/
structure State (Thread : Type) where
  lockWord : LockState
  pc : Thread → Pc
  holds : Thread → Bool

variable {Thread : Type}

/-- The lock as it is made. -/
def State.initial : State Thread := ⟨.unlocked, fun _ => .idle, fun _ => false⟩

namespace State

section Steps

variable [DecidableEq Thread] (s : State Thread) (t : Thread)

def setPc (pc : Pc) : State Thread := { s with pc := Function.update s.pc t pc }

@[simp] theorem setPc_self (pc : Pc) : (s.setPc t pc).pc t = pc := by
  simp [setPc]

variable {t} in
theorem setPc_of_ne {u : Thread} (h : u ≠ t) (pc : Pc) : (s.setPc t pc).pc u = s.pc u := by
  simp [setPc, h]

/-- Lines 71–75: the lock is taken, or the value that was read decides what comes next. -/
def resumeTake : State Thread :=
  if s.lockWord = .unlocked then
    { s with lockWord := .locked, holds := Function.update s.holds t true }.setPc t .idle
  else if s.lockWord ≠ LockState.lockedWithWaiters then s.setPc t (.mark s.lockWord)
  else s.setPc t .wait

/-- Lines 79–83. -/
def resumeMark (old : LockState) : State Thread :=
  if s.lockWord = old then { s with lockWord := .lockedWithWaiters }.setPc t .wait else s.setPc t .take

/-- `wait(lockWord, LockedWithWaiters)`, which returns at once if the word has changed. -/
def resumeWait : State Thread :=
  if s.lockWord = .lockedWithWaiters then s.setPc t .asleep else s.setPc t .take

/-- `notify_all`. -/
def resumeNotify : State Thread :=
  { s with pc := fun u => if u = t then .idle else if s.pc u = .asleep then .take else s.pc u }

/-- `lockWord.exchange(LockState::Unlocked)`, line 92. -/
def unlock : State Thread :=
  { s with lockWord := .unlocked, holds := Function.update s.holds t false }.setPc t
    (if s.lockWord = LockState.lockedWithWaiters then .notify else .idle)

/-- One step of thread `t`. -/
def next (a : Thread × Action) : State Thread :=
  match a with
  | (t, .lock) => s.setPc t .take
  | (t, .unlock) => s.unlock t
  | (t, .awake) => s.setPc t .take
  | (t, .resume) =>
    match s.pc t with
    | .idle | .asleep => s
    | .take => s.resumeTake t
    | .mark old => s.resumeMark t old
    | .wait => s.resumeWait t
    | .notify => s.resumeNotify t

end Steps

/-- A thread calls a method outside of every other one, and `unlock` only while it holds the lock. -/
def Allowed (s : State Thread) : Thread × Action → Prop
  | (t, .lock) => s.pc t = .idle
  | (t, .unlock) => s.pc t = .idle ∧ s.holds t = true
  | (t, .resume) => s.pc t ≠ .idle ∧ s.pc t ≠ .asleep
  | (t, .awake) => s.pc t = .asleep

instance (s : State Thread) (a : Thread × Action) : Decidable (s.Allowed a) := by
  unfold Allowed
  split <;> infer_instance

end State

/-! ## Specification -/

/-- The thread is about to take the lock or to wake the sleepers. -/
def Pc.OnItsWay (pc : Pc) : Prop := pc = .take ∨ pc = .notify

/-- A thread sleeps on a word that says unlocked, and no thread is about to take the lock or to wake it. -/
def LostWakeUp (s : State Thread) : Prop :=
  (∃ t, s.pc t = .asleep) ∧ s.lockWord = .unlocked ∧ ∀ u, ¬ (s.pc u).OnItsWay

/-! ## The invariant -/

/-- The word is free when no thread holds the lock; only `Locked` is marked; and when threads are asleep, the
    word is marked or some thread is about to wake them. -/
structure LockInv (s : State Thread) : Prop where
  guards : Guards (s.lockWord = .unlocked) fun t => s.holds t = true
  marks : ∀ t old, s.pc t = .mark old → old = .locked
  sleepers : ∀ t, s.pc t = .asleep → s.lockWord = .lockedWithWaiters ∨ ∃ u, s.pc u = .notify

theorem lockInv_initial : LockInv (State.initial : State Thread) where
  guards := Guards.initial rfl fun _ h => by cases h
  marks _ _ h := by cases h
  sleepers _ h := by cases h

section

variable [DecidableEq Thread] {s : State Thread} {t : Thread}

/-- The place of one thread changes, and it neither falls asleep nor was about to wake others. -/
theorem LockInv.setPc (h : LockInv s) {pc : Pc} (hmark : ∀ old, pc = .mark old → old = .locked)
    (hasleep : pc = .asleep → s.lockWord = .lockedWithWaiters) (hnotify : s.pc t ≠ .notify) :
    LockInv (s.setPc t pc) := by
  refine ⟨h.guards, fun u old hu => ?_, fun u hu => ?_⟩
  · rcases eq_or_ne u t with rfl | hne
    · exact hmark old (by rwa [State.setPc_self] at hu)
    · exact h.marks u old (by rwa [State.setPc_of_ne s hne] at hu)
  · rcases eq_or_ne u t with rfl | hne
    · exact .inl (hasleep (by rwa [State.setPc_self] at hu))
    · rw [State.setPc_of_ne s hne] at hu
      refine (h.sleepers u hu).imp_right fun ⟨v, hv⟩ => ⟨v, ?_⟩
      have hvt : v ≠ t := fun heq => hnotify (heq ▸ hv)
      rwa [State.setPc_of_ne s hvt]

theorem LockInv.resumeTake (h : LockInv s) (ht : s.pc t = .take) : LockInv (s.resumeTake t) := by
  have hnotify : s.pc t ≠ .notify := by
    rw [ht]
    decide
  unfold State.resumeTake
  split
  · next hfree =>
    -- sleepers wait for a thread that is about to wake them, since the word is not marked
    have htaken : LockInv { s with lockWord := .locked, holds := Function.update s.holds t true } := by
      refine ⟨Guards.enter (t := t) h.guards hfree (by simp) fun u => ?_, h.marks, fun u hu => ?_⟩
      · rcases eq_or_ne u t with rfl | hne
        · simp
        · simp [hne]
      · refine .inr ((h.sleepers u hu).resolve_left ?_)
        rw [hfree]
        decide
    exact htaken.setPc (fun _ hold => by cases hold) (fun hasleep => by cases hasleep) hnotify
  · next hnfree =>
    split
    · next hmarked =>
      refine h.setPc (fun old hold => ?_) (fun hasleep => by cases hasleep) hnotify
      obtain rfl := Pc.mark.inj hold
      cases hword : s.lockWord with
      | unlocked => exact absurd hword hnfree
      | locked => rfl
      | lockedWithWaiters => exact absurd hword hmarked
    · exact h.setPc (fun _ hold => by cases hold) (fun hasleep => by cases hasleep) hnotify

theorem LockInv.resumeMark (h : LockInv s) {old : LockState} (ht : s.pc t = .mark old) :
    LockInv (s.resumeMark t old) := by
  have hnotify : s.pc t ≠ .notify := by
    rw [ht]
    simp
  unfold State.resumeMark
  split
  · next hword =>
    have hold : s.lockWord = .locked := hword.trans (h.marks t old ht)
    have hmarked : LockInv { s with lockWord := .lockedWithWaiters } := by
      refine ⟨h.guards.keep (iff_of_false (by simp) ?_) fun _ => Iff.rfl, h.marks, fun _ _ => .inl rfl⟩
      rw [hold]
      decide
    exact hmarked.setPc (fun _ heq => by cases heq) (fun hasleep => by cases hasleep) hnotify
  · exact h.setPc (fun _ heq => by cases heq) (fun hasleep => by cases hasleep) hnotify

theorem LockInv.resumeWait (h : LockInv s) (ht : s.pc t = .wait) : LockInv (s.resumeWait t) := by
  have hnotify : s.pc t ≠ .notify := by
    rw [ht]
    decide
  unfold State.resumeWait
  split
  · next hmarked => exact h.setPc (fun _ hold => by cases hold) (fun _ => hmarked) hnotify
  · exact h.setPc (fun _ hold => by cases hold) (fun hasleep => by cases hasleep) hnotify

/-- After `notify_all`, no thread is asleep. -/
theorem LockInv.resumeNotify (h : LockInv s) : LockInv (s.resumeNotify t) := by
  refine ⟨h.guards, fun u old hu => ?_, fun u hu => ?_⟩
  · unfold State.resumeNotify at hu
    dsimp only at hu
    split at hu
    · cases hu
    · split at hu
      · cases hu
      · exact h.marks u old hu
  · unfold State.resumeNotify at hu
    dsimp only at hu
    split at hu
    · cases hu
    · split at hu
      · cases hu
      · next hawake => exact absurd hu hawake

theorem LockInv.unlock (h : LockInv s) (ht : s.pc t = .idle) (hholds : s.holds t = true) :
    LockInv (s.unlock t) := by
  refine ⟨h.guards.leave hholds rfl fun u => ?_, fun u old hu => ?_, fun u hu => ?_⟩
  · rcases eq_or_ne u t with rfl | hne
    · simp [State.unlock, State.setPc]
    · simp [State.unlock, State.setPc, hne]
  · rcases eq_or_ne u t with rfl | hne
    · rw [State.unlock, State.setPc_self] at hu
      split at hu <;> cases hu
    · rw [State.unlock, State.setPc_of_ne _ hne] at hu
      exact h.marks u old hu
  · rcases eq_or_ne u t with rfl | hne
    · rw [State.unlock, State.setPc_self] at hu
      split at hu <;> cases hu
    · rw [State.unlock, State.setPc_of_ne _ hne] at hu
      -- either the word was marked, and this thread wakes the sleepers, or another one was about to
      rcases h.sleepers u hu with hmarked | ⟨v, hv⟩
      · refine .inr ⟨t, ?_⟩
        rw [State.unlock, State.setPc_self, if_pos hmarked]
      · have hvt : v ≠ t := by
          rintro rfl
          rw [ht] at hv
          cases hv
        refine .inr ⟨v, ?_⟩
        rwa [State.unlock, State.setPc_of_ne _ hvt]

/-- **Every step keeps the invariant.** -/
theorem lockInv_next (h : LockInv s) {a : Thread × Action} (hallowed : s.Allowed a) : LockInv (s.next a) := by
  obtain ⟨t, action⟩ := a
  cases action with
  | lock =>
    have ht : s.pc t = .idle := hallowed
    refine h.setPc (fun _ hold => by cases hold) (fun hasleep => by cases hasleep) ?_
    rw [ht]
    decide
  | unlock => exact h.unlock hallowed.1 hallowed.2
  | awake =>
    have ht : s.pc t = .asleep := hallowed
    refine h.setPc (fun _ hold => by cases hold) (fun hasleep => by cases hasleep) ?_
    rw [ht]
    decide
  | resume =>
    unfold State.next
    dsimp only
    split
    · exact h
    · exact h
    · next ht => exact h.resumeTake ht
    · next old ht => exact h.resumeMark ht
    · next ht => exact h.resumeWait ht
    · exact h.resumeNotify

/-- **At most one thread holds the lock, and no wake-up is lost**, whatever the number of threads and the
    order of their steps. -/
theorem thinLock_safe (h : Runs (guarded State.Allowed State.next) State.initial s) :
    (∀ t u, s.holds t = true → s.holds u = true → t = u) ∧ ¬ LostWakeUp s := by
  have hinv : LockInv s := h.invariant lockInv_initial fun u a u' hu ⟨hallowed, heq⟩ => by
    rw [heq]
    exact lockInv_next hu hallowed
  refine ⟨hinv.guards.atMostOne, ?_⟩
  rintro ⟨⟨t, ht⟩, hfree, hnone⟩
  rcases hinv.sleepers t ht with hmarked | ⟨u, hu⟩
  · rw [hfree] at hmarked
    cases hmarked
  · exact hnone u (.inr hu)

end

/-- Of two threads, one goes to sleep while the other holds the lock, and the other unlocks it. -/
def sleepAndUnlock : List (Bool × Action) :=
  [(false, .lock), (false, .resume), (true, .lock), (true, .resume), (true, .resume), (true, .resume),
    (false, .unlock)]

theorem thinLock_safe_two :
    let s := runList State.next (State.initial : State Bool) sleepAndUnlock
    (s.pc true = .asleep ∧ s.lockWord = .unlocked) ∧
      (∀ t u, s.holds t = true → s.holds u = true → t = u) ∧ ¬ LostWakeUp s :=
  ⟨by decide, thinLock_safe (runs_of_allOk sleepAndUnlock _ (by decide))⟩

end Libobjc2.Concurrency.ThinLock
