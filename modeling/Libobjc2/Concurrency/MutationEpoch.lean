import Libobjc2.Common.Run
import Libobjc2.Common.Exclusion
import Mathlib.Algebra.Group.Nat.Defs

/-!
# The epoch of runtime mutations (`src/runtime/hooks.c`, lines 26–47)

A writer takes a spin flag and adds one to the epoch before and after its changes; a mutation that is only
noted, as by every emitted event (lines 75–90), adds two without the flag. Readers take no lock: the report
on an image is trusted when two plain reads return the same even epoch. Every access to the flag or to the
epoch is one step, and the steps of different threads interleave freely.

Results:
* `epochInv_next`: every step keeps `EpochInv`, by which the parity of the epoch says whether a writer is
  inside.
* `mutationEpoch_brackets`: what two reads of the epoch say about the time between them.
-/

namespace Libobjc2.Concurrency.MutationEpoch

open Libobjc2.Common

/-! ## Model -/

/-- Where a thread is: outside; in `mosaic_objc_beginRuntimeMutation`, before it has the flag or before the
    increment; between the two calls; in `mosaic_objc_endRuntimeMutation`, before the flag is cleared. -/
inductive Pc where
  | idle
  | spinning
  | entering
  | inside
  | leaving
  deriving DecidableEq, Repr

/-- The calls, of which `endMutation` makes its increment at once, and the next step of the call in
    progress. -/
inductive Action where
  | beginMutation
  | endMutation
  | note
  | read
  | resume
  deriving DecidableEq, Repr

/-- `added`: the units that were added to the epoch in all. -/
structure State (Thread : Type) where
  mutationEpoch : BitVec 64
  mutationWriterLock : Bool
  pc : Thread → Pc
  added : ℕ

variable {Thread : Type}

namespace State

def initial : State Thread := ⟨0, false, fun _ => .idle, 0⟩

section Steps

variable [DecidableEq Thread] (s : State Thread) (t : Thread)

def setPc (pc : Pc) : State Thread := { s with pc := Function.update s.pc t pc }

@[simp] theorem setPc_self (pc : Pc) : (s.setPc t pc).pc t = pc := by
  simp [setPc]

variable {t} in
theorem setPc_of_ne {u : Thread} (h : u ≠ t) (pc : Pc) : (s.setPc t pc).pc u = s.pc u := by
  simp [setPc, h]

/-- `__atomic_add_fetch` on the epoch. -/
def addFetch (units : ℕ) : State Thread :=
  { s with mutationEpoch := s.mutationEpoch + BitVec.ofNat 64 units, added := s.added + units }

/-- `mosaic_objc_runtimeMutationEpoch`. -/
def runtimeMutationEpoch : BitVec 64 := s.mutationEpoch

/-- `mosaic_objc_noteRuntimeMutation`, with the epoch that it returns. -/
def noteRuntimeMutation : State Thread × BitVec 64 := (s.addFetch 2, (s.addFetch 2).mutationEpoch)

/-- `__atomic_test_and_set` on the flag, in the loop of `mosaic_objc_beginRuntimeMutation`. -/
def resumeSpinning : State Thread :=
  if s.mutationWriterLock then s else { s with mutationWriterLock := true }.setPc t .entering

/-- One step of thread `t`. -/
def next (a : Thread × Action) : State Thread :=
  match a with
  | (t, .beginMutation) => s.setPc t .spinning
  | (t, .endMutation) => (s.addFetch 1).setPc t .leaving
  | (_, .note) => s.noteRuntimeMutation.1
  | (_, .read) => s
  | (t, .resume) =>
    match s.pc t with
    | .idle | .inside => s
    | .spinning => s.resumeSpinning t
    | .entering => (s.addFetch 1).setPc t .inside
    | .leaving => { s with mutationWriterLock := false }.setPc t .idle

end Steps

/-- The calls of a thread pair up without nesting, it notes mutations between calls, and the units that
    are added stay below `2 ^ 64` in all. -/
def Allowed (s : State Thread) : Thread × Action → Prop
  | (t, .beginMutation) => s.pc t = .idle
  | (t, .endMutation) => s.pc t = .inside ∧ s.added + 1 < 2 ^ 64
  | (t, .note) => (s.pc t = .idle ∨ s.pc t = .inside) ∧ s.added + 2 < 2 ^ 64
  | (t, .read) => s.pc t = .idle ∨ s.pc t = .inside
  | (t, .resume) =>
    s.pc t ≠ .idle ∧ s.pc t ≠ .inside ∧ (s.pc t = .entering → s.added + 1 < 2 ^ 64)

instance (s : State Thread) (a : Thread × Action) : Decidable (s.Allowed a) := by
  unfold Allowed
  split <;> infer_instance

/-- The thread has the flag. -/
def HasFlag (s : State Thread) (t : Thread) : Prop :=
  s.pc t = .entering ∨ s.pc t = .inside ∨ s.pc t = .leaving

/-- The thread is between its two increments. -/
def Inside (s : State Thread) (t : Thread) : Prop := s.pc t = .inside

/-- Every step of every thread. -/
def Step [DecidableEq Thread] : State Thread → Thread × Action → State Thread → Prop := guarded Allowed next

end State

/-! ## Specification -/

section

variable [DecidableEq Thread]

/-- At no moment of a run from `s` to `s'` is a writer inside, and none of its steps notes a mutation. -/
def Undisturbed (s s' : State Thread) : Prop :=
  ∀ u, Runs State.Step s u → Runs State.Step u s' →
    (∀ t, ¬ u.Inside t) ∧ ∀ t v, State.Step u (t, .note) v → ¬ Runs State.Step v s'

end

/-! ## The invariant -/

/-- The flag is free when no thread has it, the epoch did not wrap, and it is odd while a writer is inside. -/
structure EpochInv (s : State Thread) : Prop where
  guards : Guards (s.mutationWriterLock = false) s.HasFlag
  toNat : s.mutationEpoch.toNat = s.added
  odd_iff : s.added % 2 = 1 ↔ ∃ t, s.Inside t

theorem epochInv_initial : EpochInv (State.initial : State Thread) where
  guards := Guards.initial rfl fun _ h => by simp [State.HasFlag, State.initial] at h
  toNat := rfl
  odd_iff := by simp [State.Inside, State.initial]

section

variable [DecidableEq Thread] {s s' : State Thread} {t : Thread}

omit [DecidableEq Thread] in
theorem toNat_addFetch (h : s.mutationEpoch.toNat = s.added) {units : ℕ} (hfit : s.added + units < 2 ^ 64) :
    (s.addFetch units).mutationEpoch.toNat = (s.addFetch units).added := by
  simp only [State.addFetch, BitVec.toNat_add, BitVec.toNat_ofNat, h]
  omega

/-- A thread that is not inside goes to another place outside. -/
theorem inside_setPc {pc : Pc} (ht : s.pc t ≠ .inside) (hpc : pc ≠ .inside) (u : Thread) :
    (s.setPc t pc).Inside u ↔ s.Inside u := by
  rcases eq_or_ne u t with rfl | hne
  · rw [State.Inside, State.setPc_self]
    exact iff_of_false hpc ht
  · rw [State.Inside, State.setPc_of_ne s hne, State.Inside]

/-- The one writer goes inside, or leaves, with an increment. -/
theorem EpochInv.crosses (h : EpochInv s) {pc : Pc} (ht : s.HasFlag t)
    (hpc : pc = .inside ∨ pc = .leaving) (hcross : s.pc t = .inside ↔ pc ≠ .inside)
    (hfit : s.added + 1 < 2 ^ 64) : EpochInv ((s.addFetch 1).setPc t pc) := by
  have hothers : ∀ u, u ≠ t → ¬ s.HasFlag u := fun u hne hu => hne (h.guards.atMostOne u t hu ht)
  refine ⟨h.guards.keep Iff.rfl fun u => ?_, toNat_addFetch h.toNat hfit, ?_⟩
  · rcases eq_or_ne u t with rfl | hne
    · rw [State.HasFlag, State.setPc_self]
      exact iff_of_true (.inr hpc) ht
    · rw [State.HasFlag, State.setPc_of_ne _ hne]
      rfl
  · have hbefore : (∃ u, s.Inside u) ↔ s.pc t = .inside := by
      refine ⟨fun ⟨u, hu⟩ => ?_, fun hin => ⟨t, hin⟩⟩
      obtain rfl : u = t := by_contra fun hne => hothers u hne (.inr (.inl hu))
      exact hu
    have hafter : (∃ u, ((s.addFetch 1).setPc t pc).Inside u) ↔ pc = .inside := by
      refine ⟨fun ⟨u, hu⟩ => ?_, fun hin => ⟨t, by rw [State.Inside, State.setPc_self, hin]⟩⟩
      rcases eq_or_ne u t with rfl | hne
      · rwa [State.Inside, State.setPc_self] at hu
      · rw [State.Inside, State.setPc_of_ne _ hne] at hu
        exact absurd (.inr (.inl hu)) (hothers u hne)
    have hodd := h.odd_iff.trans (hbefore.trans hcross)
    rw [hafter]
    change (s.added + 1) % 2 = 1 ↔ _
    by_cases hin : pc = .inside
    · have heven : ¬ s.added % 2 = 1 := fun ho => hodd.mp ho hin
      exact iff_of_true (by omega) hin
    · have ho := hodd.mpr hin
      exact iff_of_false (by omega) hin

theorem EpochInv.resumeSpinning (h : EpochInv s) (ht : s.pc t = .spinning) :
    EpochInv (s.resumeSpinning t) := by
  unfold State.resumeSpinning
  split
  · exact h
  · next hfree =>
    refine ⟨Guards.enter (t := t) h.guards (by simpa using hfree) (by simp [State.setPc]) fun u => ?_,
      h.toNat, ?_⟩
    · rcases eq_or_ne u t with rfl | hne
      · simp [State.HasFlag]
      · rw [State.HasFlag, State.setPc_of_ne _ hne]
        simp [State.HasFlag, hne]
    · refine h.odd_iff.trans (exists_congr fun u => (inside_setPc ?_ (by decide) u).symm)
      simp [ht]

theorem EpochInv.clear (h : EpochInv s) (ht : s.pc t = .leaving) :
    EpochInv ({ s with mutationWriterLock := false }.setPc t .idle) := by
  refine ⟨h.guards.leave (t := t) (.inr (.inr ht)) rfl fun u => ?_, h.toNat, ?_⟩
  · rcases eq_or_ne u t with rfl | hne
    · simp [State.HasFlag]
    · rw [State.HasFlag, State.setPc_of_ne _ hne]
      simp [State.HasFlag, hne]
  · refine h.odd_iff.trans (exists_congr fun u => (inside_setPc ?_ (by decide) u).symm)
    simp [ht]

/-- **Every step keeps the invariant.** -/
theorem epochInv_next (h : EpochInv s) {a : Thread × Action} (hallowed : s.Allowed a) :
    EpochInv (s.next a) := by
  obtain ⟨t, action⟩ := a
  cases action with
  | beginMutation =>
    have ht : s.pc t = .idle := hallowed
    refine ⟨h.guards.keep Iff.rfl fun u => ?_, h.toNat, ?_⟩
    · rcases eq_or_ne u t with rfl | hne
      · simp [State.next, State.HasFlag, ht]
      · simp only [State.next, State.HasFlag, State.setPc_of_ne s hne]
    · refine h.odd_iff.trans (exists_congr fun u => (inside_setPc ?_ (by decide) u).symm)
      simp [ht]
  | endMutation =>
    obtain ⟨ht, hfit⟩ := hallowed
    exact h.crosses (.inr (.inl ht)) (.inr rfl) (by simp [ht]) hfit
  | note =>
    refine ⟨h.guards, toNat_addFetch h.toNat hallowed.2, ?_⟩
    -- two units leave the parity alone
    have hparity : (s.added + 2) % 2 = 1 ↔ s.added % 2 = 1 := by omega
    exact hparity.trans h.odd_iff
  | read => exact h
  | resume =>
    obtain ⟨-, -, hfit⟩ := hallowed
    unfold State.next
    dsimp only
    split
    · exact h
    · exact h
    · next ht => exact h.resumeSpinning ht
    · next ht => exact h.crosses (.inl ht) (.inl rfl) (by simp [ht]) (hfit ht)
    · next ht => exact h.clear ht

theorem EpochInv.runs (h : EpochInv s) (hrun : Runs State.Step s s') : EpochInv s' :=
  hrun.invariant h fun u a u' hu ⟨hallowed, heq⟩ => by
    rw [heq]
    exact epochInv_next hu hallowed

/-! ## Reads -/

theorem added_next (s : State Thread) (a : Thread × Action) : s.added ≤ (s.next a).added := by
  unfold State.next
  split
  · exact Nat.le_refl _
  · exact Nat.le_add_right _ _
  · exact Nat.le_add_right _ _
  · exact Nat.le_refl _
  · split
    · exact Nat.le_refl _
    · exact Nat.le_refl _
    · unfold State.resumeSpinning
      split
      · exact Nat.le_refl _
      · exact Nat.le_refl _
    · exact Nat.le_add_right _ _
    · exact Nat.le_refl _

theorem added_le (hrun : Runs State.Step s s') : s.added ≤ s'.added :=
  @Runs.invariant _ _ _ (fun u => s.added ≤ u.added) _ _ hrun (Nat.le_refl _) fun u a u' hu ⟨_, heq⟩ => by
    rw [heq]
    exact Nat.le_trans hu (added_next u a)

/-- Two reads of the same even epoch. -/
theorem EpochInv.undisturbed (h : EpochInv s) (hrun : Runs State.Step s s')
    (heq : s.mutationEpoch = s'.mutationEpoch) (heven : s.mutationEpoch.toNat % 2 = 0) :
    Undisturbed s s' := by
  have hends : s'.added = s.added := by
    rw [← (h.runs hrun).toNat, ← h.toNat, heq]
  rw [h.toNat] at heven
  intro u hsu hus'
  have hsame : u.added = s.added := Nat.le_antisymm (hends ▸ added_le hus') (added_le hsu)
  refine ⟨fun t ht => ?_, fun t v hv hvs' => ?_⟩
  · have hodd := (h.runs hsu).odd_iff.mpr ⟨t, ht⟩
    rw [hsame] at hodd
    omega
  · have hadded : v.added = u.added + 2 := by
      rw [hv.2]
      rfl
    have := added_le hvs'
    omega

/-- **The epoch brackets every mutation**: one writer at a time, an odd epoch while it is inside, an epoch
    that never decreases, and nothing changed between two reads of the same even epoch. -/
theorem mutationEpoch_brackets (h : Runs State.Step State.initial s) :
    (∀ t u, s.HasFlag t → s.HasFlag u → t = u) ∧
      (s.runtimeMutationEpoch.toNat % 2 = 1 ↔ ∃ t, s.Inside t) ∧
      ∀ s', Runs State.Step s s' →
        s.runtimeMutationEpoch ≤ s'.runtimeMutationEpoch ∧
        (s.runtimeMutationEpoch = s'.runtimeMutationEpoch → s.runtimeMutationEpoch.toNat % 2 = 0 →
          Undisturbed s s') := by
  have hinv : EpochInv s := epochInv_initial.runs h
  refine ⟨hinv.guards.atMostOne, ?_, fun s' hrun => ⟨?_, hinv.undisturbed hrun⟩⟩
  · rw [State.runtimeMutationEpoch, hinv.toNat]
    exact hinv.odd_iff
  · rw [BitVec.le_def, State.runtimeMutationEpoch, State.runtimeMutationEpoch, hinv.toNat,
      (hinv.runs hrun).toNat]
    exact added_le hrun

end

/-- Thread 0 makes a mutation while thread 1 spins, and thread 1 notes one and reads the epoch. -/
def mutateAndNote : List (Fin 2 × Action) :=
  [(0, .beginMutation), (0, .resume), (0, .resume), (1, .note), (0, .endMutation), (0, .resume), (1, .read)]

theorem mutationEpoch_brackets_two :
    let s := runList State.next (State.initial : State (Fin 2)) mutateAndNote
    s.runtimeMutationEpoch = 4 ∧ (∀ t u, s.HasFlag t → s.HasFlag u → t = u) ∧
      (s.runtimeMutationEpoch.toNat % 2 = 1 ↔ ∃ t, s.Inside t) ∧
      ∀ s', Runs State.Step s s' →
        s.runtimeMutationEpoch ≤ s'.runtimeMutationEpoch ∧
        (s.runtimeMutationEpoch = s'.runtimeMutationEpoch → s.runtimeMutationEpoch.toNat % 2 = 0 →
          Undisturbed s s') :=
  ⟨by decide, mutationEpoch_brackets (runs_of_allOk mutateAndNote _ (by decide))⟩

end Libobjc2.Concurrency.MutationEpoch
