import Libobjc2.Common.Run
import Mathlib.Data.Nat.Bitwise

/-!
# One slot of the associated objects (`src/memory/associate.mm`, lines 101–130)

A slot is three words: its state, its key and its object. `publishReference` marks the state as
being written, stores object and key, and stores the next generation with the new policy. Its
callers hold the lock of the list, so publications follow one another. `snapshotReference` takes
no lock: it reads the state, the key, the object and the state again, and starts over when the
two states differ. Every atomic access is one step; the steps of the writer and of any number
of readers interleave freely.

Results:
* `stateWord_injective`: the state words of fewer than 2^53 publications in a row differ.
* `Inv.next`: every step keeps what the readers know about the publication they started with.
* `publish_assertion`: the writer never finds the slot marked.
* `snapshot_untorn`: a snapshot returns what one publication stored, and that publication was
  current while the snapshot ran.
-/

namespace Libobjc2.Memory.AssociationSlot

open Libobjc2.Common

/-! ## Model -/

abbrev Word := BitVec 64

def policyMask : Word := 0x3ff

def writing : Word := 0x400

def generationIncrement : Word := 0x800

/-- `objc_AssociationPolicy`; `prepareReferenceValue` turns every other value away. -/
inductive Policy where
  | assign
  | retainNonatomic
  | copyNonatomic
  | retain
  | copy
  deriving DecidableEq

def Policy.value : Policy → Word
  | .assign => 0
  | .retainNonatomic => 1
  | .copyNonatomic => 3
  | .retain => 0x301
  | .copy => 0x303

/-- What one publication stores; 0 is `NULL`. -/
structure Content where
  key : ℕ
  object : ℕ
  policy : Policy
  deriving DecidableEq

/-- Where the writer is in `publishReference`, with its arguments and its `generation`. -/
inductive Writer where
  | idle
  | marked (content : Content) (generation : Word)
  | storedObject (content : Content) (generation : Word)
  | storedKey (content : Content) (generation : Word)
  deriving DecidableEq

/-- Where a reader is in `snapshotReference`. `begun` and `ended` are the numbers of publications
    that were complete when the call began and when it returned. -/
inductive Reader where
  | idle
  | loop (key begun : ℕ)
  | loadedState (key begun : ℕ) (before : Word)
  | loadedKey (key begun : ℕ) (before : Word)
  | loadedObject (key begun : ℕ) (before : Word) (object : ℕ)
  | no
  | yes (key begun ended object : ℕ) (policy : Word)
  deriving DecidableEq

/-- The slot, its writer, its readers, and all contents it has had, the current one last. -/
structure State (Thread : Type) where
  state : Word
  key : ℕ
  object : ℕ
  writer : Writer
  readers : Thread → Reader
  history : List Content

variable {Thread : Type}

/-- A zeroed slot. -/
def empty : Content := ⟨0, 0, .assign⟩

/-- The slot of a new list. -/
def initial : State Thread := ⟨0, 0, 0, .idle, fun _ => .idle, [empty]⟩

/-- How many publications are complete. -/
def State.published (σ : State Thread) : ℕ := σ.history.length - 1

/-- The next atomic access of the writer or of a reader, or the call that leads to it. -/
inductive Action (Thread : Type) where
  | fetchOr (content : Content)
  | storeObject
  | storeKey
  | storeState
  | call (thread : Thread) (key : ℕ)
  | load (thread : Thread)

/-- `referencePolicy`. -/
def referencePolicy (state : Word) : Word := state &&& policyMask

def State.setReader [DecidableEq Thread] (σ : State Thread) (thread : Thread) (r : Reader) : State Thread :=
  { σ with readers := Function.update σ.readers thread r }

/-- One load of `snapshotReference` (lines 117–128). -/
def State.load [DecidableEq Thread] (σ : State Thread) (thread : Thread) : State Thread :=
  match σ.readers thread with
  | .loop key begun =>
    let before := σ.state
    if before &&& writing ≠ 0 then σ else σ.setReader thread (.loadedState key begun before)
  | .loadedState key begun before =>
    let observedKey := σ.key
    σ.setReader thread (if observedKey ≠ key then .no else .loadedKey key begun before)
  | .loadedKey key begun before => σ.setReader thread (.loadedObject key begun before σ.object)
  | .loadedObject key begun before object =>
    let after := σ.state
    σ.setReader thread (if before ≠ after then .loop key begun
      else .yes key begun σ.published object (referencePolicy before))
  | .idle | .no | .yes .. => σ

/-- One access. -/
def next [DecidableEq Thread] (σ : State Thread) : Action Thread → State Thread
  | .fetchOr content =>
    let state := σ.state
    let generation := state &&& ~~~(policyMask ||| writing)
    { σ with state := state ||| writing, writer := .marked content generation }
  | .storeObject =>
    match σ.writer with
    | .marked content generation =>
        { σ with object := content.object, writer := .storedObject content generation }
    | _ => σ
  | .storeKey =>
    match σ.writer with
    | .storedObject content generation =>
        { σ with key := content.key, writer := .storedKey content generation }
    | _ => σ
  | .storeState =>
    match σ.writer with
    | .storedKey content generation =>
      { σ with
        state := (generation + generationIncrement) ||| content.policy.value
        writer := .idle
        history := σ.history ++ [content] }
    | _ => σ
  | .call thread key => σ.setReader thread (.loop key σ.published)
  | .load thread => σ.load thread

/-- One writer at a time publishes, and a reader returns before it calls again. -/
def enabled (σ : State Thread) : Action Thread → Prop
  | .fetchOr _ => σ.writer = .idle
  | .storeObject => ∃ content generation, σ.writer = .marked content generation
  | .storeKey => ∃ content generation, σ.writer = .storedObject content generation
  | .storeState => ∃ content generation, σ.writer = .storedKey content generation
  | .call thread _ => match σ.readers thread with
    | .idle | .no | .yes .. => True
    | _ => False
  | .load thread => match σ.readers thread with
    | .idle | .no | .yes .. => False
    | _ => True

abbrev step [DecidableEq Thread] : State Thread → Action Thread → State Thread → Prop := guarded enabled next

/-! ## State words -/

/-- The state of a slot after `n` publications, the last one with policy `p`. -/
def stateWord (n : ℕ) (p : Policy) : Word := BitVec.ofNat 64 (2048 * n) ||| p.value

theorem getLsbD_policyMask (i : ℕ) : policyMask.getLsbD i = decide (i < 10) := by
  by_cases h : i < 64
  · have hall : ∀ j < 64, policyMask.getLsbD j = decide (j < 10) := by decide
    exact hall i h
  · rw [BitVec.getLsbD_of_ge _ _ (by omega)]
    simp
    omega

theorem getLsbD_writing (i : ℕ) : writing.getLsbD i = decide (i = 10) := by
  by_cases h : i < 64
  · have hall : ∀ j < 64, writing.getLsbD j = decide (j = 10) := by decide
    exact hall i h
  · rw [BitVec.getLsbD_of_ge _ _ (by omega)]
    simp
    omega

/-- The static assertion on `OBJC_ASSOCIATION_COPY`, for every policy. -/
theorem policy_fits (p : Policy) (i : ℕ) (h : 10 ≤ i) : p.value.getLsbD i = false := by
  have hmask : p.value &&& ~~~policyMask = 0 := by cases p <;> decide
  have hbit := congrArg (fun w => BitVec.getLsbD w i) hmask
  by_cases h64 : i < 64
  · simp only [BitVec.getLsbD_and, BitVec.getLsbD_not, getLsbD_policyMask, h64, show ¬ i < 10 by omega,
      decide_true, decide_false, Bool.not_false, Bool.and_true] at hbit
    rw [hbit]
    exact BitVec.getLsbD_zero
  · exact BitVec.getLsbD_of_ge _ _ (by omega)

theorem getLsbD_generation (n : ℕ) {i : ℕ} (h : i < 11) : (BitVec.ofNat 64 (2048 * n)).getLsbD i = false := by
  rw [BitVec.getLsbD_ofNat, show 2048 * n = 2 ^ 11 * n by omega, Nat.testBit_two_pow_mul]
  simp [show ¬ 11 ≤ i by omega]

theorem stateWord_not_writing (n : ℕ) (p : Policy) : stateWord n p &&& writing = 0 := by
  apply BitVec.eq_of_getLsbD_eq
  intro i _
  rw [stateWord, BitVec.getLsbD_and, BitVec.getLsbD_or, getLsbD_writing]
  by_cases hi : i = 10
  · rw [getLsbD_generation n (by omega), policy_fits p i (by omega), Bool.or_false, Bool.false_and]
    exact BitVec.getLsbD_zero.symm
  · simp only [hi, decide_false, Bool.and_false]
    exact BitVec.getLsbD_zero.symm

theorem marked_writing (w : Word) : (w ||| writing) &&& writing ≠ 0 := by
  intro h
  have hbit := congrArg (fun w => BitVec.getLsbD w 10) h
  simp only [BitVec.getLsbD_and, BitVec.getLsbD_or, getLsbD_writing, decide_true, Bool.or_true,
    Bool.and_true] at hbit
  exact absurd hbit (by decide)

theorem referencePolicy_stateWord (n : ℕ) (p : Policy) : referencePolicy (stateWord n p) = p.value := by
  apply BitVec.eq_of_getLsbD_eq
  intro i _
  rw [referencePolicy, stateWord, BitVec.getLsbD_and, BitVec.getLsbD_or, getLsbD_policyMask]
  by_cases hi : i < 10
  · rw [getLsbD_generation n (by omega)]
    simp only [hi, decide_true, Bool.and_true, Bool.false_or]
  · rw [policy_fits p i (by omega)]
    simp only [hi, decide_false, Bool.and_false]

/-- Masking the policy and the mark off a state leaves its generation. -/
theorem generation_stateWord (n : ℕ) (p : Policy) :
    stateWord n p &&& ~~~(policyMask ||| writing) = BitVec.ofNat 64 (2048 * n) := by
  apply BitVec.eq_of_getLsbD_eq
  intro i hi
  simp only [stateWord, BitVec.getLsbD_and, BitVec.getLsbD_or, BitVec.getLsbD_not, getLsbD_policyMask,
    getLsbD_writing, hi, decide_true, Bool.true_and]
  by_cases hlow : i < 11
  · rw [getLsbD_generation n hlow]
    by_cases h10 : i = 10
    · simp [h10]
    · simp [show i < 10 by omega]
  · rw [policy_fits p i (by omega)]
    simp [show ¬ i < 10 by omega, show ¬ i = 10 by omega]

theorem nextGeneration (n : ℕ) : BitVec.ofNat 64 (2048 * n) + generationIncrement = BitVec.ofNat 64
    (2048 * (n + 1)) := by
  rw [show generationIncrement = BitVec.ofNat 64 2048 from rfl, ← BitVec.ofNat_add]
  rfl

/-- The 53 bits of the generation tell fewer than 2^53 publications in a row apart. -/
theorem stateWord_injective {n m : ℕ} {p q : Policy} (hle : n ≤ m) (hlt : m < n + 2 ^ 53)
    (h : stateWord n p = stateWord m q) : n = m := by
  have hgen : BitVec.ofNat 64 (2048 * n) = BitVec.ofNat 64 (2048 * m) := by
    rw [← generation_stateWord n p, ← generation_stateWord m q, h]
  have hnat := congrArg BitVec.toNat hgen
  rw [BitVec.toNat_ofNat, BitVec.toNat_ofNat] at hnat
  omega

/-! ## What the readers know -/

/-- Nothing was written since the publication `n` was complete. -/
def Stays (σ : State Thread) (n : ℕ) : Prop := σ.published = n ∧ σ.writer = .idle

/-- The words of the slot, when `c` is its current content. -/
def Written (σ : State Thread) (c : Content) : Prop :=
  match σ.writer with
  | .idle => σ.state = stateWord σ.published c.policy ∧ σ.key = c.key ∧ σ.object = c.object
  | .marked _ g =>
      σ.state = stateWord σ.published c.policy ||| writing ∧ g = BitVec.ofNat 64 (2048 * σ.published)
  | .storedObject d g => σ.state = stateWord σ.published c.policy ||| writing ∧
      g = BitVec.ofNat 64 (2048 * σ.published) ∧ σ.object = d.object
  | .storedKey d g => σ.state = stateWord σ.published c.policy ||| writing ∧
      g = BitVec.ofNat 64 (2048 * σ.published) ∧ σ.object = d.object ∧ σ.key = d.key

/-- `before` is the state that the publication `n` left, which was complete after `begun`. -/
def Loaded (σ : State Thread) (begun : ℕ) (before : Word) (n : ℕ) (c : Content) : Prop :=
  begun ≤ n ∧ n ≤ σ.published ∧ σ.history[n]? = some c ∧ before = stateWord n c.policy

/-- What a reader knows: what it loaded belongs to the publication whose state it saw, as long as
    nothing was written since. -/
def Known (σ : State Thread) : Reader → Prop
  | .idle | .no => True
  | .loop _ begun => begun ≤ σ.published
  | .loadedState _ begun before => ∃ n c, Loaded σ begun before n c
  | .loadedKey key begun before => ∃ n c, Loaded σ begun before n c ∧ (Stays σ n → c.key = key)
  | .loadedObject key begun before object => ∃ n c, Loaded σ begun before n c ∧
      (Stays σ n → c.key = key ∧ c.object = object)
  | .yes key begun ended object policy => ended < begun + 2 ^ 53 → ∃ n c, begun ≤ n ∧ n ≤ ended ∧
      σ.history[n]? = some c ∧ c.key = key ∧ c.object = object ∧ c.policy.value = policy

/-- The slot holds its current content, or is being written, and every reader knows what it loaded. -/
structure Inv (σ : State Thread) : Prop where
  written : ∃ c, σ.history[σ.published]? = some c ∧ Written σ c
  known : ∀ thread, Known σ (σ.readers thread)

theorem inv_initial : Inv (initial : State Thread) :=
  ⟨⟨empty, rfl, show (0 : Word) = stateWord 0 .assign by decide, rfl, rfl⟩, fun _ => trivial⟩

/-- What a step of the writer keeps of the history. -/
structure Extends (σ σ' : State Thread) : Prop where
  published : σ.published ≤ σ'.published
  history : ∀ (n : ℕ) (c : Content), σ.history[n]? = some c → σ'.history[n]? = some c
  stays : ∀ n ≤ σ.published, Stays σ' n → Stays σ n

theorem Loaded.mono {σ σ' : State Thread} (h : Extends σ σ') {begun n : ℕ} {before : Word} {c : Content}
    (hl : Loaded σ begun before n c) : Loaded σ' begun before n c :=
  ⟨hl.1, hl.2.1.trans h.published, h.history n c hl.2.2.1, hl.2.2.2⟩

theorem Known.mono {σ σ' : State Thread} (h : Extends σ σ') {r : Reader} (hr : Known σ r) : Known σ' r := by
  cases r with
  | idle => trivial
  | no => trivial
  | loop key begun => exact le_trans hr h.published
  | loadedState key begun before =>
    obtain ⟨n, c, hl⟩ := hr
    exact ⟨n, c, hl.mono h⟩
  | loadedKey key begun before =>
    obtain ⟨n, c, hl, hkey⟩ := hr
    exact ⟨n, c, hl.mono h, fun hs => hkey (h.stays n hl.2.1 hs)⟩
  | loadedObject key begun before object =>
    obtain ⟨n, c, hl, hkey⟩ := hr
    exact ⟨n, c, hl.mono h, fun hs => hkey (h.stays n hl.2.1 hs)⟩
  | yes key begun ended object policy =>
    intro hwrap
    obtain ⟨n, c, hb, he, hn, hc⟩ := hr hwrap
    exact ⟨n, c, hb, he, h.history n c hn, hc⟩

theorem Inv.nonempty {σ : State Thread} (h : Inv σ) : σ.history ≠ [] := by
  obtain ⟨c, hc, -⟩ := h.written
  intro hnil
  rw [hnil] at hc
  simp at hc

/-- The writer is busy after a step that publishes nothing. -/
theorem extends_busy {σ σ' : State Thread} (hhistory : σ'.history = σ.history) (hbusy : σ'.writer ≠ .idle) :
    Extends σ σ' where
  published := by unfold State.published; rw [hhistory]
  history n c h := by rw [hhistory]; exact h
  stays n _ hs := absurd hs.2 hbusy

/-- A new publication is a new entry of the history. -/
theorem extends_publish {σ σ' : State Thread} (hne : σ.history ≠ []) {content : Content}
    (hhistory : σ'.history = σ.history ++ [content]) : σ'.published = σ.published + 1 ∧ Extends σ σ' := by
  have hpos : 0 < σ.history.length := List.length_pos_iff.mpr hne
  have hpublished : σ'.published = σ.published + 1 := by
    unfold State.published
    rw [hhistory, List.length_append, List.length_singleton]
    omega
  refine ⟨hpublished, ⟨by omega, fun n c hc => ?_, fun n hn hs => ?_⟩⟩
  · rw [hhistory, List.getElem?_append_left]
    · exact hc
    · exact (List.getElem?_eq_some_iff.mp hc).1
  · have := hs.1
    omega

/-- A state without the mark is the one that the current publication left. -/
theorem Written.unmarked {σ : State Thread} {c : Content} (h : Written σ c)
    (hmark : σ.state &&& writing = 0) :
    σ.writer = .idle ∧ σ.state = stateWord σ.published c.policy := by
  unfold Written at h
  split at h
  · next hidle => exact ⟨hidle, h.1⟩
  · exact absurd (by rw [← h.1]; exact hmark) (marked_writing _)
  · exact absurd (by rw [← h.1]; exact hmark) (marked_writing _)
  · exact absurd (by rw [← h.1]; exact hmark) (marked_writing _)

section Steps

variable [DecidableEq Thread]

/-- A reader step that learns what `Known` says of the new place keeps the invariant. -/
theorem Inv.setReader {σ : State Thread} (h : Inv σ) {thread : Thread} {r : Reader} (hr : Known σ r) :
    Inv (σ.setReader thread r) := by
  refine ⟨h.written, fun other => ?_⟩
  show Known σ _
  by_cases ho : other = thread
  · subst ho
    simpa [State.setReader] using hr
  · simpa [State.setReader, ho] using h.known other

theorem Inv.load {σ : State Thread} (h : Inv σ) (thread : Thread) : Inv (σ.load thread) := by
  obtain ⟨c, hc, hw⟩ := h.written
  have hk := h.known thread
  unfold State.load
  split
  · next key begun hr =>
    rw [hr] at hk
    by_cases hmark : σ.state &&& writing ≠ 0
    · simpa only [if_pos hmark] using h
    · simp only [if_neg hmark]
      exact h.setReader ⟨σ.published, c, hk, le_rfl, hc, (hw.unmarked (not_not.mp hmark)).2⟩
  · next key begun before hr =>
    rw [hr] at hk
    obtain ⟨n, d, hl⟩ := hk
    by_cases hkey : σ.key ≠ key
    · simp only [if_pos hkey]
      exact h.setReader trivial
    · simp only [if_neg hkey]
      refine h.setReader ⟨n, d, hl, fun hs => ?_⟩
      obtain ⟨-, -, hn, -⟩ := hl
      rw [← hs.1, hc] at hn
      obtain rfl : c = d := by simpa using hn
      simp only [Written, hs.2] at hw
      rw [← hw.2.1]
      exact not_not.mp hkey
  · next key begun before hr =>
    rw [hr] at hk
    obtain ⟨n, d, hl, hkey⟩ := hk
    refine h.setReader ⟨n, d, hl, fun hs => ⟨hkey hs, ?_⟩⟩
    obtain ⟨-, -, hn, -⟩ := hl
    rw [← hs.1, hc] at hn
    obtain rfl : c = d := by simpa using hn
    simp only [Written, hs.2] at hw
    exact hw.2.2.symm
  · next key begun before object hr =>
    rw [hr] at hk
    obtain ⟨n, d, ⟨hbegun, hn, hd, hbefore⟩, hkey⟩ := hk
    by_cases hchanged : before ≠ σ.state
    · simp only [if_pos hchanged]
      exact h.setReader (show begun ≤ σ.published from hbegun.trans hn)
    · simp only [if_neg hchanged]
      refine h.setReader fun hwrap => ?_
      -- the state is unmarked, so the writer is idle, and it names the same publication
      have hsame : stateWord n d.policy = σ.state := by rw [← hbefore, not_not.mp hchanged]
      obtain ⟨hidle, hstate⟩ := hw.unmarked (by rw [← hsame, stateWord_not_writing])
      have heq := stateWord_injective hn (by omega) (hsame.trans hstate)
      obtain ⟨hk1, hk2⟩ := hkey ⟨heq.symm, hidle⟩
      exact ⟨n, d, hbegun, hn, hd, hk1, hk2, by rw [hbefore, referencePolicy_stateWord]⟩
  · exact h
  · exact h
  · exact h

theorem Inv.next {σ : State Thread} (h : Inv σ) {a : Action Thread} (hen : enabled σ a) : Inv (next σ a) := by
  obtain ⟨c, hc, hw⟩ := h.written
  cases a with
  | fetchOr content =>
    have hidle : σ.writer = .idle := hen
    simp only [Written, hidle] at hw
    refine ⟨⟨c, hc, ?_, ?_⟩, fun thread => ?_⟩
    · show σ.state ||| writing = _
      rw [hw.1]
      rfl
    · show σ.state &&& ~~~(policyMask ||| writing) = _
      rw [hw.1, generation_stateWord]
      rfl
    · apply Known.mono (extends_busy ?_ ?_) (h.known thread)
      · rfl
      · simp [AssociationSlot.next]
  | storeObject =>
    obtain ⟨content, generation, hwr⟩ := hen
    simp only [Written, hwr] at hw
    simp only [AssociationSlot.next, hwr]
    refine ⟨⟨c, hc, hw.1, hw.2, rfl⟩, fun thread => ?_⟩
    apply Known.mono (extends_busy ?_ ?_) (h.known thread)
    · rfl
    · simp
  | storeKey =>
    obtain ⟨content, generation, hwr⟩ := hen
    simp only [Written, hwr] at hw
    simp only [AssociationSlot.next, hwr]
    refine ⟨⟨c, hc, hw.1, hw.2.1, hw.2.2, rfl⟩, fun thread => ?_⟩
    apply Known.mono (extends_busy ?_ ?_) (h.known thread)
    · rfl
    · simp
  | storeState =>
    obtain ⟨content, generation, hwr⟩ := hen
    simp only [Written, hwr] at hw
    simp only [AssociationSlot.next, hwr]
    obtain ⟨hpublished, hext⟩ := @extends_publish Thread σ { σ with
      state := (generation + generationIncrement) ||| content.policy.value
      writer := .idle
      history := σ.history ++ [content] } h.nonempty content rfl
    refine ⟨⟨content, ?_, ?_, hw.2.2.2, hw.2.2.1⟩, fun thread => (h.known thread).mono hext⟩
    · have hpos := List.length_pos_iff.mpr h.nonempty
      rw [hpublished]
      show (σ.history ++ [content])[σ.published + 1]? = some content
      rw [show σ.published + 1 = σ.history.length by unfold State.published; omega]
      simp
    · rw [hpublished, hw.2.1, nextGeneration]
      rfl
  | call thread key => exact h.setReader (show σ.published ≤ σ.published from le_rfl)
  | load thread => exact h.load thread

/-! ## Snapshots -/

theorem Inv.of_runs {σ : State Thread} (h : Runs step initial σ) : Inv σ :=
  h.invariant inv_initial fun _ _ _ hI ⟨hen, heq⟩ => heq ▸ hI.next hen

/-- The assertion in `publishReference`: the writer finds the slot unmarked. -/
theorem publish_assertion {σ : State Thread} (h : Runs step initial σ) {content : Content}
    (hen : enabled σ (.fetchOr content)) : σ.state &&& writing = 0 := by
  obtain ⟨c, -, hw⟩ := (Inv.of_runs h).written
  simp only [Written, show σ.writer = .idle from hen] at hw
  rw [hw.1]
  exact stateWord_not_writing _ _

/-- **Snapshots do not tear.** What a snapshot returns was stored together by one publication,
    and `n` publications were complete, so that this one was current, while the snapshot ran. -/
theorem snapshot_untorn {σ : State Thread} (h : Runs step initial σ) {thread : Thread}
    {key begun ended object : ℕ} {policy : Word} (hr : σ.readers thread = .yes key begun ended object policy)
    (hwrap : ended < begun + 2 ^ 53) : ∃ n c, begun ≤ n ∧ n ≤ ended ∧ σ.history[n]? = some c ∧
      c.key = key ∧ c.object = object ∧ c.policy.value = policy := by
  have hk := (Inv.of_runs h).known thread
  rw [hr] at hk
  exact hk hwrap

end Steps

/-- A publication between the loads of a reader: the reader starts over. -/
def publishInside : List (Action Bool) :=
  [.fetchOr ⟨5, 7, .retain⟩, .storeObject, .storeKey, .storeState, .call true 5, .load true, .load true,
    .fetchOr ⟨5, 8, .assign⟩, .storeObject, .load true, .storeKey, .storeState, .load true,
    .load true, .load true, .load true, .load true]

theorem snapshot_untorn_publishInside : ∃ σ : State Bool, Runs step initial σ ∧
    σ.readers true = .yes 5 1 2 8 0 ∧ ∃ n c, 1 ≤ n ∧ n ≤ 2 ∧ σ.history[n]? = some c ∧
      c.key = 5 ∧ c.object = 8 ∧ c.policy.value = 0 := by
  have hruns : Runs step initial (runList next (initial : State Bool) publishInside) := by
    apply runs_of_allOk
    refine ⟨rfl, ⟨_, _, rfl⟩, ⟨_, _, rfl⟩, ⟨_, _, rfl⟩, trivial, trivial, trivial, rfl, ⟨_, _, rfl⟩, trivial,
      ⟨_, _, rfl⟩, ⟨_, _, rfl⟩, trivial, trivial, trivial, trivial, trivial, trivial⟩
  have hr : (runList next (initial : State Bool) publishInside).readers true = .yes 5 1 2 8 0 := by decide
  exact ⟨_, hruns, hr, snapshot_untorn hruns hr (by decide)⟩

end Libobjc2.Memory.AssociationSlot
