import Libobjc2.Common.Run
import Libobjc2.Images.Records
import Mathlib.Data.Nat.ModEq
import Mathlib.Logic.Function.Basic
import Mathlib.Order.Nat
import Mathlib.Tactic.Common

/-!
# Retiring and detaching images (`src/runtime/loader.c`, `src/runtime/hooks.c`)

The operations on image records take turns with tracked mutations of the runtime on other threads. A
tracked mutation is begun and ended, or it is noted, and increments the mutation epoch, without the
runtime lock. An operation that holds the lock is one step, but for the unload report, which reads the
epoch at its start and again at its end, and for a detach, which is a report and, after the lock was
free in between, a last look at the record and the epoch.

The epoch is an unsigned number of 64 bits; `changes` counts its increments without wrapping. What the
scan of a report finds is up to the step that ends the report.

Results:
* `StepOk`, `Inv.next`: what one step does to the records.
* `images_retire`: in every run, an image only moves from active to retired to detached, its address
  range stays, a detach follows a report without blockers at the same epoch, what is refused changes
  nothing, and nothing is found in a detached image.
* `detached_after_wrap`: after 2^63 noted mutations the epoch is the expected one again.
-/

namespace Libobjc2.Images

open Libobjc2.Common

/-! ## Model -/

/-- What a thread is in the middle of: a report, as part of a detach when it has an expected epoch, or a
    detach whose report is done. The last number is the value of `changes` at the start of the report. -/
inductive Pc where
  | idle
  | reporting (image : ℕ) (expected : Option ℕ) (before : ℕ) (began : ℕ)
  | checking (image : ℕ) (expected : ℕ) (report : UnloadReport) (began : ℕ)
  deriving DecidableEq

/-- The records, `runtime_mutation_epoch` and its writer lock, the holder of the runtime lock, and the
    threads. `changes` is not part of the program. -/
structure State where
  images : List Record
  nextGeneration : ℕ
  epoch : ℕ
  writer : Bool
  lock : Option ℕ
  pc : ℕ → Pc
  changes : ℕ

def State.start : State := ⟨[], 1, 0, false, none, fun _ => .idle, 0⟩

/-- The epoch is incremented `n` times. -/
def State.increment (σ : State) (n : ℕ) : State :=
  { σ with epoch := (σ.epoch + n) % 2 ^ 64, changes := σ.changes + n }

/-- `mosaic_objc_beginRuntimeMutation` (hooks.c 35–39), once the writer lock is free. -/
def beginRuntimeMutation (σ : State) : State := { σ.increment 1 with writer := true }

/-- `mosaic_objc_endRuntimeMutation` (hooks.c 41–45). -/
def endRuntimeMutation (σ : State) : State := { σ.increment 1 with writer := false }

/-- `mosaic_objc_noteRuntimeMutation` (hooks.c 47–51). -/
def noteRuntimeMutation (σ : State) : State := σ.increment 2

/-- A record is replaced. -/
def State.setImage (σ : State) (image : ℕ) (r : Record) : State := { σ with images := σ.images.set image r }

def State.setPc (σ : State) (t : ℕ) (pc : Pc) : State := { σ with pc := Function.update σ.pc t pc }

inductive Action where
  | load (init : ObjcInit)
  | setIdentity (image : ℕ) (identifier provider : Option String) (baseAddress : ℕ)
      (identifierCopied providerCopied : Bool)
  | setAddressRange (image baseAddress mappedSize : ℕ)
  | retire (image : ℕ)
  | getUnloadReport (t image : ℕ)
  | detach (t image expected : ℕ)
  | finishReport (t : ℕ) (found : Found)
  | finishDetach (t : ℕ)
  | beginMutation
  | endMutation
  | noteMutation
  deriving DecidableEq

/-- A report starts (line 459): the thread keeps the runtime lock. -/
def startReport (σ : State) (t image : ℕ) (expected : Option ℕ) : State × Option Bool :=
  match σ.images[image]? with
  | none => (σ, some false)
  | some _ => ({ σ.setPc t (.reporting image expected σ.epoch σ.changes) with lock := some t }, none)

/-- A report ends: the rest of `mosaic_objc_imageDetach` looks at it (lines 608–616). -/
def finishReport (σ : State) (t : ℕ) (found : Found) : State × Option Bool :=
  match σ.pc t with
  | .reporting image expected before began =>
    match σ.images[image]? with
    | none => (σ, some false)
    | some r =>
      let report := unloadReport r found before σ.epoch
      let σ := { σ.setPc t .idle with lock := none }
      match expected with
      | none => (σ, some true)
      | some expected =>
        if report.state = .detached then (σ, some (report.blockers = [] ∧ report.mutationEpoch = expected))
        else if report.state ≠ .retired ∨ report.blockers ≠ [] ∨ report.mutationEpoch ≠ expected then (σ, some false)
        else (σ.setPc t (.checking image expected report began), none)
  | _ => (σ, some false)

/-- The rest of `mosaic_objc_imageDetach` (lines 617–632), under the runtime lock. -/
def finishDetach (σ : State) (t : ℕ) : State × Option Bool :=
  match σ.pc t with
  | .checking image expected _ _ =>
    match σ.images[image]? with
    | none => (σ.setPc t .idle, some false)
    | some r =>
      if r.state ≠ .retired ∨ σ.epoch ≠ expected then (σ.setPc t .idle, some false)
      else (noteRuntimeMutation ((σ.setPc t .idle).setImage image (imageDetached r)), some true)
  | _ => (σ, some false)

/-- One step, and what the operation returns when the step is its last one. Events are noted
    mutations. `__objc_load` (834–926) returns nothing; it registers the image first. -/
def next (σ : State) : Action → State × Option Bool
  | .load init =>
    (noteRuntimeMutation { σ with
      images := registerLoadedObjcImage σ.images σ.nextGeneration init
      nextGeneration := σ.nextGeneration + 1 }, some true)
  | .setIdentity image identifier provider baseAddress identifierCopied providerCopied =>
    match σ.images[image]?.bind fun r =>
        imageSetIdentity r identifier provider baseAddress identifierCopied providerCopied with
    | none => (σ, some false)
    | some r => (σ.setImage image r, some true)
  | .setAddressRange image baseAddress mappedSize =>
    match σ.images[image]?.bind fun r => imageSetAddressRange r baseAddress mappedSize with
    | none => (σ, some false)
    | some r => (σ.setImage image r, some true)
  | .retire image =>
    match σ.images[image]? with
    | none => (σ, some false)
    | some r =>
      if r.state = .active then (noteRuntimeMutation (σ.setImage image (imageRetire r)), some true)
      else (σ, some true)
  | .getUnloadReport t image => startReport σ t image none
  | .detach t image expected =>
      if expected = 0 then (σ, some false) else startReport σ t image (some expected)
  | .finishReport t found => finishReport σ t found
  | .finishDetach t => finishDetach σ t
  | .beginMutation => (beginRuntimeMutation σ, none)
  | .endMutation => (endRuntimeMutation σ, none)
  | .noteMutation => (noteRuntimeMutation σ, none)

/-- Where a step can be taken: the locks are free, and the thread is at the step. -/
def enabled (σ : State) : Action → Prop
  | .load _ => σ.lock = none
  | .setIdentity _ _ _ _ _ _ => σ.lock = none
  | .setAddressRange _ _ _ => σ.lock = none
  | .retire _ => σ.lock = none
  | .getUnloadReport t _ => σ.lock = none ∧ σ.pc t = .idle
  | .detach t _ _ => σ.lock = none ∧ σ.pc t = .idle
  | .finishReport t _ => ∃ image expected before began, σ.pc t = .reporting image expected before began
  | .finishDetach t =>
      σ.lock = none ∧ ∃ image expected report began, σ.pc t = .checking image expected report began
  | .beginMutation => σ.writer = false
  | .endMutation => σ.writer = true
  | .noteMutation => True

/-- The runs of all threads. -/
abbrev step : State → Action → State → Prop := guarded enabled fun σ a => (next σ a).1

/-! ## Lookups -/

section Lookups

variable (memory : ℕ → ℕ) (σ : State)

/-- `mosaic_objc_imageForClass` (lines 669–686); `memory` is what the words of the images hold. -/
def imageForClass (cls : ℕ) : Option ℕ :=
  σ.images.findIdx? fun image =>
    (List.range (imageRangeCount image.init.cls sizeofClass)).any fun i =>
      memory (image.init.cls.first + sizeofClass * i) = cls

/-- `mosaic_objc_imageForProtocol` (lines 688–705). -/
def imageForProtocol (protocol : ℕ) : Option ℕ :=
  σ.images.findIdx? fun image =>
    (List.range (imageRangeCount image.init.proto sizeofProtocol)).any fun i =>
      image.init.proto.first + sizeofProtocol * i = protocol

/-- `mosaic_objc_imageGetClass` (lines 707–716). -/
def imageGetClass (image index : ℕ) : Option ℕ :=
  σ.images[image]?.bind fun r =>
    if index < imageRangeCount r.init.cls sizeofClass then
      some (memory (r.init.cls.first + sizeofClass * index))
    else none

/-- `mosaic_objc_imageGetProtocol` (lines 718–727). -/
def imageGetProtocol (image index : ℕ) : Option ℕ :=
  σ.images[image]?.bind fun r =>
    if index < imageRangeCount r.init.proto sizeofProtocol then
      some (r.init.proto.first + sizeofProtocol * index)
    else none

/-- `mosaic_objc_imageGetCategoryName` and `mosaic_objc_imageGetCategoryClassName` (lines 729–749), with
    the offset of the field that they read. -/
def imageGetCategoryField (offset image index : ℕ) : Option ℕ :=
  σ.images[image]?.bind fun r =>
    if index < imageRangeCount r.init.cat sizeofCategory then
      some (memory (r.init.cat.first + sizeofCategory * index + offset))
    else none

/-- The words that `remap_loaded_class_references` (lines 261–267) goes through for an image. -/
def remappedSlots (image : ℕ) : List ℕ :=
  σ.images[image]?.elim [] fun r => r.init.cls.items sizeofClass ++ r.init.clsRef.items sizeofClass

end Lookups

/-! ## Specification -/

/-- An image moves by at most one state, and forward. -/
def Moves (s s' : ImageState) : Prop := s' = s ∨ s = .active ∧ s' = .retired ∨ s = .retired ∧ s' = .detached

/-- A later record of the same image: the state is not an earlier one, and the address range stays. -/
structure Keeps (r r' : Record) : Prop where
  retired : r.state = .retired → r'.state ≠ .active
  detached : r.state = .detached → r'.state = .detached
  baseAddress : r.baseAddress ≠ 0 → r'.baseAddress = r.baseAddress
  mappedSize : r.mappedSize ≠ 0 → r'.mappedSize = r.mappedSize

/-- Nothing is found in a detached image, and there was nothing in it when it was loaded. -/
structure Gone (σ : State) (image : ℕ) (r : Record) : Prop where
  loaded : r.loaded.Empty
  imageForClass : ∀ memory cls, imageForClass memory σ cls ≠ some image
  imageForProtocol : ∀ protocol, imageForProtocol σ protocol ≠ some image
  getClass : ∀ memory index, imageGetClass memory σ image index = none
  getProtocol : ∀ index, imageGetProtocol σ image index = none
  getCategory : ∀ memory offset index, imageGetCategoryField memory σ offset image index = none
  remapped : remappedSlots σ image = []

/-- What a step does to the records. The increments of the epoch between the start of the report and the
    last look are a multiple of 2^64. -/
structure StepOk (σ : State) (a : Action) : Prop where
  kept : ∀ (i : ℕ) (r : Record), σ.images[i]? = some r →
    ∃ r', (next σ a).1.images[i]? = some r' ∧ Moves r.state r'.state ∧ Keeps r r'
  refused : (next σ a).2 ≠ some true → (next σ a).1.images = σ.images
  detached : ∀ (i : ℕ) (r r' : Record), σ.images[i]? = some r → (next σ a).1.images[i]? = some r' →
    r.state ≠ .detached → r'.state = .detached →
    r.state = .retired ∧ ∃ t expected report began, a = .finishDetach t ∧
      σ.pc t = .checking i expected report began ∧ report.blockers = [] ∧ report.mutationEpoch = expected ∧
      expected % 2 = 0 ∧ began ≤ σ.changes ∧ 2 ^ 64 ∣ σ.changes - began

/-! ## What a step does to one record -/

theorem Keeps.refl (r : Record) : Keeps r r := ⟨fun h => by simp [h], id, fun _ => rfl, fun _ => rfl⟩

theorem Keeps.trans {r r' r'' : Record} (h : Keeps r r') (h' : Keeps r' r'') : Keeps r r'' where
  retired hr := by
    have hne := h.retired hr
    cases hs : r'.state with
    | active => exact absurd hs hne
    | retired => exact h'.retired hs
    | detached => simp [h'.detached hs]
  detached hr := h'.detached (h.detached hr)
  baseAddress hr := by rw [h'.baseAddress (by rwa [h.baseAddress hr]), h.baseAddress hr]
  mappedSize hr := by rw [h'.mappedSize (by rwa [h.mappedSize hr]), h.mappedSize hr]

theorem keeps_imageSetIdentity {r r' : Record} {identifier provider : Option String} {baseAddress : ℕ}
    {identifierCopied providerCopied : Bool}
    (h : imageSetIdentity r identifier provider baseAddress identifierCopied providerCopied = some r') :
    r'.state = r.state ∧ r'.init = r.init ∧ r'.loaded = r.loaded ∧ Keeps r r' := by
  unfold imageSetIdentity at h
  -- every check that fails returns without a record
  iterate 5 (split at h; · cases h)
  cases h
  refine ⟨rfl, rfl, rfl, fun hr => by simp [hr], id, fun hr => ?_, fun _ => rfl⟩
  exact if_neg hr

theorem keeps_imageSetAddressRange {r r' : Record} {baseAddress mappedSize : ℕ}
    (h : imageSetAddressRange r baseAddress mappedSize = some r') :
    r'.state = r.state ∧ r'.init = r.init ∧ r'.loaded = r.loaded ∧ Keeps r r' := by
  unfold imageSetAddressRange at h
  repeat' split at h
  any_goals cases h
  next hbase hsize =>
    refine ⟨rfl, rfl, rfl, fun hr => by simp [hr], id, fun hr => ?_, fun hr => ?_⟩
    · exact (not_not.mp fun hne => hbase ⟨hr, hne⟩).symm
    · exact (not_not.mp fun hne => hsize ⟨hr, hne⟩).symm

theorem keeps_imageRetire {r : Record} (h : r.state = .active) : Keeps r (imageRetire r) := by
  have hcalc : imageRetire r = { r with state := .retired } := by simp [imageRetire, h]
  rw [hcalc]
  exact ⟨fun hr => by simp, fun hr => by simp [h] at hr, fun _ => rfl, fun _ => rfl⟩

theorem keeps_imageDetached (r : Record) : Keeps r (imageDetached r) :=
  ⟨fun _ => by simp [imageDetached], fun _ => rfl, fun _ => rfl, fun _ => rfl⟩

/-! ## The invariant -/

/-- A detached record has no sections, and its image had nothing in them; the others have what was
    loaded. -/
structure RecordOk (r : Record) : Prop where
  gone : r.state = .detached → r.init = .zero ∧ r.loaded.Empty
  sections : r.state ≠ .detached → r.init = r.loaded

/-- What a thread remembers of its report. -/
def PcOk (σ : State) : Pc → Prop
  | .idle => True
  | .reporting _ _ before began => before = began % 2 ^ 64 ∧ began ≤ σ.changes
  | .checking image expected report began =>
    report.blockers = [] ∧ report.mutationEpoch = expected ∧ expected % 2 = 0 ∧ expected = began % 2 ^ 64 ∧
      began ≤ σ.changes ∧ ∃ r, σ.images[image]? = some r ∧ r.loaded.Empty

structure Inv (σ : State) : Prop where
  epoch : σ.epoch = σ.changes % 2 ^ 64
  records : ∀ (i : ℕ) (r : Record), σ.images[i]? = some r → RecordOk r
  threads : ∀ t, PcOk σ (σ.pc t)

namespace Inv

variable {σ : State}

theorem increment (h : Inv σ) (n : ℕ) : Inv (σ.increment n) where
  epoch := by
    show (σ.epoch + n) % 2 ^ 64 = (σ.changes + n) % 2 ^ 64
    rw [h.epoch, Nat.mod_add_mod]
  records := h.records
  threads t := by
    have ht := h.threads t
    show PcOk _ (σ.pc t)
    cases hpc : σ.pc t with
    | idle => trivial
    | reporting i expected before began =>
      rw [hpc] at ht
      exact ⟨ht.1, Nat.le_add_right_of_le ht.2⟩
    | checking i expected report began =>
      rw [hpc] at ht
      obtain ⟨hb, he, heven, hexp, hle, hr⟩ := ht
      exact ⟨hb, he, heven, hexp, Nat.le_add_right_of_le hle, hr⟩

/-- The records change, and each image keeps what was loaded. -/
theorem setImages (h : Inv σ) {images : List Record} {n : ℕ}
    (hok : ∀ (i : ℕ) (r : Record), images[i]? = some r → RecordOk r)
    (hkeep : ∀ (i : ℕ) (r : Record), σ.images[i]? = some r → ∃ r', images[i]? = some r' ∧
      r'.loaded = r.loaded) :
    Inv { σ with images := images, nextGeneration := n } where
  epoch := h.epoch
  records := hok
  threads t := by
    have ht := h.threads t
    show PcOk _ (σ.pc t)
    cases hpc : σ.pc t with
    | idle => trivial
    | reporting i expected before began =>
      rw [hpc] at ht
      exact ht
    | checking i expected report began =>
      rw [hpc] at ht
      obtain ⟨hb, he, heven, hexp, hle, r, hr, hempty⟩ := ht
      obtain ⟨r', hr', hloaded⟩ := hkeep i r hr
      exact ⟨hb, he, heven, hexp, hle, r', hr', hloaded ▸ hempty⟩

theorem setImage (h : Inv σ) {i : ℕ} {r r' : Record} (hr : σ.images[i]? = some r) (hok : RecordOk r')
    (hloaded : r'.loaded = r.loaded) : Inv (σ.setImage i r') := by
  have hlt : i < σ.images.length := (List.getElem?_eq_some_iff.mp hr).1
  refine h.setImages (n := σ.nextGeneration) (fun j q hq => ?_) fun j q hq => ?_
  · rw [List.getElem?_set] at hq
    split at hq
    · exact Option.some.inj hq ▸ hok
    · exact h.records j q hq
  · rw [List.getElem?_set]
    split
    · next hij =>
      subst hij
      rw [hr] at hq
      exact ⟨r', rfl, Option.some.inj hq ▸ hloaded⟩
    · exact ⟨q, hq, rfl⟩

theorem setPc (h : Inv σ) {t : ℕ} {pc : Pc} (lock : Option ℕ) (hpc : PcOk σ pc) :
    Inv { σ.setPc t pc with lock := lock } where
  epoch := h.epoch
  records := h.records
  threads u := by
    show PcOk _ (Function.update σ.pc t pc u)
    by_cases hut : u = t
    · subst hut
      rw [Function.update_self]
      exact hpc
    · rw [Function.update_of_ne hut]
      exact h.threads u

/-- The record is replaced by one of the same state. -/
theorem replace (h : Inv σ) {i : ℕ} {r r' : Record} (hr : σ.images[i]? = some r)
    (hr' : r'.state = r.state ∧ r'.init = r.init ∧ r'.loaded = r.loaded ∧ Keeps r r') :
    Inv (σ.setImage i r') := by
  obtain ⟨hstate, hinit, hloaded, -⟩ := hr'
  have hok := h.records i r hr
  exact h.setImage hr ⟨by rw [hstate, hinit, hloaded]; exact hok.gone, by rw [hstate, hinit, hloaded]; exact hok.sections⟩
    hloaded

theorem startReport (h : Inv σ) (t image : ℕ) (expected : Option ℕ) :
    Inv (Images.startReport σ t image expected).1 := by
  unfold Images.startReport
  split
  · exact h
  · exact h.setPc _ ⟨h.epoch, le_rfl⟩

theorem finishReport (h : Inv σ) (t : ℕ) (found : Found) : Inv (Images.finishReport σ t found).1 := by
  unfold Images.finishReport
  split
  · next image expected before began hpc =>
    have ht := h.threads t
    rw [hpc] at ht
    split
    · exact h
    · next r hr =>
      have hidle : Inv { σ.setPc t .idle with lock := none } := h.setPc none trivial
      cases expected with
      | none => exact hidle
      | some expected =>
        simp only
        split
        · exact hidle
        · split
          · exact hidle
          · next hclear =>
            obtain ⟨hretired, hblockers, hexpected⟩ := not_or.mp hclear |>.imp id not_or.mp
            refine hidle.setPc none ?_
            have hc := unloadReport_clear (not_not.mp hblockers)
            have hepoch : expected = σ.epoch := (not_not.mp hexpected).symm
            have hstate : r.state ≠ .detached := by
              have : r.state = .retired := not_not.mp hretired
              simp [this]
            refine ⟨not_not.mp hblockers, hepoch.symm, hepoch ▸ hc.even, ?_, ht.2, r, hr, ?_⟩
            · rw [hepoch, ← hc.quiet]
              exact ht.1
            · rw [← (h.records image r hr).sections hstate]
              exact hc.empty
  · exact h

theorem finishDetach (h : Inv σ) (t : ℕ) : Inv (Images.finishDetach σ t).1 := by
  unfold Images.finishDetach
  split
  · next image expected report began hpc =>
    have ht := h.threads t
    rw [hpc] at ht
    have hidle : Inv (σ.setPc t .idle) := h.setPc σ.lock trivial
    split
    · exact hidle
    · next r hr =>
      split
      · exact hidle
      · obtain ⟨-, -, -, -, -, r', hr', hempty⟩ := ht
        obtain rfl := Option.some.inj (hr.symm.trans hr')
        have hdetached : RecordOk (imageDetached r) := ⟨fun _ => ⟨rfl, hempty⟩, fun hne => absurd rfl hne⟩
        exact (hidle.setImage hr hdetached rfl).increment 2
  · exact h

theorem next (h : Inv σ) (a : Action) : Inv (Images.next σ a).1 := by
  cases a with
  | load init =>
    refine (h.setImages (fun i r hr => ?_) fun i r hr => ⟨r, ?_, rfl⟩).increment 2
    · unfold registerLoadedObjcImage at hr
      rw [List.getElem?_append] at hr
      split at hr
      · exact h.records i r hr
      · obtain rfl := List.mem_singleton.mp (List.mem_of_getElem? hr)
        exact ⟨nofun, fun _ => rfl⟩
    · exact List.getElem?_append_left (List.getElem?_eq_some_iff.mp hr).1 ▸ hr
  | setIdentity image identifier provider baseAddress identifierCopied providerCopied =>
    simp only [Images.next]
    split
    · exact h
    · next r' hr' =>
      obtain ⟨r, hr, hset⟩ := Option.bind_eq_some_iff.mp hr'
      exact h.replace hr (keeps_imageSetIdentity hset)
  | setAddressRange image baseAddress mappedSize =>
    simp only [Images.next]
    split
    · exact h
    · next r' hr' =>
      obtain ⟨r, hr, hset⟩ := Option.bind_eq_some_iff.mp hr'
      exact h.replace hr (keeps_imageSetAddressRange hset)
  | retire image =>
    simp only [Images.next]
    split
    · exact h
    · next r hr =>
      split
      · next hactive =>
        have hcalc : imageRetire r = { r with state := .retired } := by simp [imageRetire, hactive]
        refine (h.setImage hr ⟨?_, ?_⟩ ?_).increment 2
        · simp [hcalc]
        · intro _
          rw [hcalc]
          exact (h.records image r hr).sections (by simp [hactive])
        · rw [hcalc]
      · exact h
  | getUnloadReport t image => exact h.startReport t image none
  | detach t image expected =>
    simp only [Images.next]
    split
    · exact h
    · exact h.startReport t image (some expected)
  | finishReport t found => exact h.finishReport t found
  | finishDetach t => exact h.finishDetach t
  | beginMutation =>
    have := h.increment 1
    exact ⟨this.epoch, this.records, this.threads⟩
  | endMutation =>
    have := h.increment 1
    exact ⟨this.epoch, this.records, this.threads⟩
  | noteMutation => exact h.increment 2

theorem start : Inv State.start := ⟨rfl, by simp [State.start], fun _ => trivial⟩

end Inv

/-! ## One step -/

section StepOk

variable {σ : State} {a : Action}

theorem StepOk.of_images_eq (h : (next σ a).1.images = σ.images) : StepOk σ a where
  kept i r hr := ⟨r, by rw [h, hr], .inl rfl, Keeps.refl r⟩
  refused _ := h
  detached i r r' hr hr' hne hd := by
    rw [h, hr] at hr'
    exact absurd (Option.some.inj hr' ▸ hd) hne

/-- One record is replaced, and the operation returns YES. -/
theorem StepOk.of_set {image : ℕ} {r r' : Record} (hr : σ.images[image]? = some r)
    (h : (next σ a).1.images = σ.images.set image r') (hresult : (next σ a).2 = some true)
    (hmoves : Moves r.state r'.state) (hkeeps : Keeps r r')
    (hdetached : r.state ≠ .detached → r'.state = .detached →
      r.state = .retired ∧ ∃ t expected report began, a = .finishDetach t ∧
        σ.pc t = .checking image expected report began ∧ report.blockers = [] ∧
        report.mutationEpoch = expected ∧
        expected % 2 = 0 ∧ began ≤ σ.changes ∧ 2 ^ 64 ∣ σ.changes - began) : StepOk σ a where
  kept i q hq := by
    by_cases hi : image = i
    · subst hi
      obtain rfl := Option.some.inj (hr.symm.trans hq)
      refine ⟨r', ?_, hmoves, hkeeps⟩
      rw [h, List.getElem?_set_self (List.getElem?_eq_some_iff.mp hr).1]
    · exact ⟨q, by rw [h, List.getElem?_set_ne hi, hq], .inl rfl, Keeps.refl q⟩
  refused hne := absurd hresult hne
  detached i q q' hq hq' hne hd := by
    rw [h] at hq'
    by_cases hi : image = i
    · subst hi
      obtain rfl := Option.some.inj (hr.symm.trans hq)
      rw [List.getElem?_set_self (List.getElem?_eq_some_iff.mp hr).1] at hq'
      obtain rfl := Option.some.inj hq'
      exact hdetached hne hd
    · rw [List.getElem?_set_ne hi, hq] at hq'
      exact absurd (Option.some.inj hq' ▸ hd) hne

theorem StepOk.startReport (t image : ℕ) (expected : Option ℕ)
    (h : (next σ a).1 = (Images.startReport σ t image expected).1) : StepOk σ a := by
  apply StepOk.of_images_eq
  rw [h]
  unfold Images.startReport
  split <;> rfl

theorem images_finishReport (σ : State) (t : ℕ) (found : Found) :
    (finishReport σ t found).1.images = σ.images := by
  unfold finishReport
  split
  · split
    · rfl
    · simp only
      split
      · rfl
      · split
        · rfl
        · split <;> rfl
  · rfl

/-- The last look of a detach sees the epoch at which its report started, up to multiples of 2^64. -/
theorem StepOk.finishDetach (h : Inv σ) (t : ℕ) : StepOk σ (.finishDetach t) := by
  have ht := h.threads t
  cases hpc : σ.pc t with
  | idle => exact StepOk.of_images_eq (by simp [next, Images.finishDetach, hpc])
  | reporting i expected before began => exact StepOk.of_images_eq (by simp [next, Images.finishDetach, hpc])
  | checking image expected report began =>
    rw [hpc] at ht
    obtain ⟨hblockers, hreport, heven, hexpected, hle, r, hr, -⟩ := ht
    by_cases hrefuse : r.state ≠ .retired ∨ σ.epoch ≠ expected
    · apply StepOk.of_images_eq
      simp only [next, Images.finishDetach, hpc, hr, if_pos hrefuse]
      rfl
    · obtain ⟨hretired, hepoch⟩ := not_or.mp hrefuse
      have hnext : next σ (.finishDetach t) =
          (noteRuntimeMutation ((σ.setPc t .idle).setImage image (imageDetached r)), some true) := by
        simp only [next, Images.finishDetach, hpc, hr, if_neg hrefuse]
      refine StepOk.of_set hr (by rw [hnext]; rfl) (by rw [hnext]) (.inr (.inr ⟨not_not.mp hretired, rfl⟩))
        (keeps_imageDetached r) fun _ _ => ?_
      refine ⟨not_not.mp hretired, t, expected, report, began, rfl, hpc, hblockers, hreport, heven, hle, ?_⟩
      have hmod : began % 2 ^ 64 = σ.changes % 2 ^ 64 := by
        rw [← hexpected, ← h.epoch]
        exact (not_not.mp hepoch).symm
      exact (Nat.modEq_iff_dvd' hle).mp hmod

theorem stepOk (h : Inv σ) (a : Action) : StepOk σ a := by
  cases a with
  | load init =>
    have himages : (next σ (.load init)).1.images = registerLoadedObjcImage σ.images
        σ.nextGeneration init := rfl
    have hold (i : ℕ) (r : Record) (hr : σ.images[i]? = some r) :
        (next σ (.load init)).1.images[i]? = some r := by
      rw [himages, registerLoadedObjcImage, List.getElem?_append_left (List.getElem?_eq_some_iff.mp hr).1, hr]
    refine ⟨fun i r hr => ⟨r, hold i r hr, .inl rfl, Keeps.refl r⟩, fun hne => absurd rfl hne, ?_⟩
    intro i r r' hr hr' hne hd
    rw [hold i r hr] at hr'
    exact absurd (Option.some.inj hr' ▸ hd) hne
  | setIdentity image identifier provider baseAddress identifierCopied providerCopied =>
    cases hset : σ.images[image]?.bind fun r =>
        imageSetIdentity r identifier provider baseAddress identifierCopied providerCopied with
    | none => exact StepOk.of_images_eq (by simp only [next, hset])
    | some r' =>
      obtain ⟨r, hr, hr'⟩ := Option.bind_eq_some_iff.mp hset
      obtain ⟨hstate, -, -, hkeeps⟩ := keeps_imageSetIdentity hr'
      refine StepOk.of_set hr (by simp only [next, hset]; rfl) (by simp only [next, hset])
          (.inl hstate) hkeeps ?_
      intro hne hd
      exact absurd (hstate ▸ hd) hne
  | setAddressRange image baseAddress mappedSize =>
    cases hset : σ.images[image]?.bind fun r => imageSetAddressRange r baseAddress mappedSize with
    | none => exact StepOk.of_images_eq (by simp only [next, hset])
    | some r' =>
      obtain ⟨r, hr, hr'⟩ := Option.bind_eq_some_iff.mp hset
      obtain ⟨hstate, -, -, hkeeps⟩ := keeps_imageSetAddressRange hr'
      refine StepOk.of_set hr (by simp only [next, hset]; rfl) (by simp only [next, hset])
          (.inl hstate) hkeeps ?_
      intro hne hd
      exact absurd (hstate ▸ hd) hne
  | retire image =>
    cases hr : σ.images[image]? with
    | none => exact StepOk.of_images_eq (by simp only [next, hr])
    | some r =>
      by_cases hactive : r.state = .active
      · have hnext : next σ (.retire image) =
            (noteRuntimeMutation (σ.setImage image (imageRetire r)), some true) := by
          simp only [next, hr, if_pos hactive]
        have hretired : (imageRetire r).state = .retired := by simp [imageRetire, hactive]
        refine StepOk.of_set hr (by rw [hnext]; rfl) (by rw [hnext]) (.inr (.inl ⟨hactive, hretired⟩))
          (keeps_imageRetire hactive) ?_
        intro _ hd
        rw [hretired] at hd
        cases hd
      · exact StepOk.of_images_eq (by simp only [next, hr, if_neg hactive])
  | getUnloadReport t image => exact StepOk.startReport t image none rfl
  | detach t image expected =>
    by_cases hzero : expected = 0
    · exact StepOk.of_images_eq (by simp only [next, if_pos hzero])
    · exact StepOk.startReport t image (some expected) (by simp only [next, if_neg hzero])
  | finishReport t found => exact StepOk.of_images_eq (images_finishReport σ t found)
  | finishDetach t => exact StepOk.finishDetach h t
  | beginMutation => exact StepOk.of_images_eq rfl
  | endMutation => exact StepOk.of_images_eq rfl
  | noteMutation => exact StepOk.of_images_eq rfl

end StepOk

/-! ## Runs -/

theorem findIdx?_ne_some {p : Record → Bool} {images : List Record} {i : ℕ} {r : Record}
    (hr : images[i]? = some r)
    (hp : p r = false) : images.findIdx? p ≠ some i := by
  intro h
  obtain ⟨hlt, hi, -⟩ := List.findIdx?_eq_some_iff_getElem.mp h
  obtain ⟨hlt', hr'⟩ := List.getElem?_eq_some_iff.mp hr
  rw [hr', hp] at hi
  cases hi

theorem Inv.gone {σ : State} (h : Inv σ) {i : ℕ} {r : Record} (hr : σ.images[i]? = some r)
    (hd : r.state = .detached) :
    Gone σ i r := by
  obtain ⟨hzero, hloaded⟩ := (h.records i r hr).gone hd
  refine ⟨hloaded, fun memory cls => ?_, fun protocol => ?_, fun memory index => ?_, fun index => ?_,
    fun memory offset index => ?_, ?_⟩
  · exact findIdx?_ne_some hr (by simp [hzero, ObjcInit.zero])
  · exact findIdx?_ne_some hr (by simp [hzero, ObjcInit.zero])
  · simp [imageGetClass, hr, hzero, ObjcInit.zero]
  · simp [imageGetProtocol, hr, hzero, ObjcInit.zero]
  · simp [imageGetCategoryField, hr, hzero, ObjcInit.zero]
  · simp [remappedSlots, hr, hzero, ObjcInit.zero, sizeofClass]

theorem Inv.of_runs {σ τ : State} (hσ : Inv σ) (h : Runs step σ τ) : Inv τ :=
  h.invariant hσ fun _ a _ hu hstep => hstep.2 ▸ hu.next a

/-- **Retirement.** In every state of every run: each further step moves an image by at most one state and
    leaves its address range, changes no record when it returns NO, and detaches an image only after a
    report without blockers, at its even epoch, with a multiple of 2^64 increments since the report began;
    later records keep what was set; and nothing is found in a detached image. -/
theorem images_retire {σ : State} (h : Runs step State.start σ) :
    (∀ a, enabled σ a → StepOk σ a) ∧
    (∀ τ, Runs step σ τ → ∀ (i : ℕ) (r : Record), σ.images[i]? = some r →
      ∃ r', τ.images[i]? = some r' ∧ Keeps r r') ∧
    (∀ (i : ℕ) (r : Record), σ.images[i]? = some r → r.state = .detached → Gone σ i r) := by
  have hinv := Inv.start.of_runs h
  refine ⟨fun a _ => stepOk hinv a, fun τ hτ => ?_, fun i r hr hd => hinv.gone hr hd⟩
  refine hτ.relates (R := fun σ τ => ∀ (i : ℕ) (r : Record), σ.images[i]? = some r →
    ∃ r', τ.images[i]? = some r' ∧ Keeps r r') hinv (fun _ a _ hu hstep => hstep.2 ▸ hu.next a) ?_ ?_ ?_
  · exact fun u i r hr => ⟨r, hr, Keeps.refl r⟩
  · intro u v w huv hvw i r hr
    obtain ⟨r', hr', hk⟩ := huv i r hr
    obtain ⟨r'', hr'', hk'⟩ := hvw i r' hr'
    exact ⟨r'', hr'', hk.trans hk'⟩
  · rintro u a _ hu ⟨-, rfl⟩ i r hr
    obtain ⟨r', hr', -, hk⟩ := (stepOk hu a).kept i r hr
    exact ⟨r', hr', hk⟩

/-- An image without sections is loaded, gets an address range and is retired, and a detach gets a report
    without blockers. -/
def detachRun : List Action :=
  [.load .zero, .setAddressRange 0 4096 16, .retire 0, .detach 0 0 4, .finishReport 0 ⟨true, 0, 0, 0, 0, 0⟩]

theorem detachRun_runs : Runs step State.start (runList (fun σ a => (next σ a).1) State.start detachRun) :=
  runs_of_allOk detachRun State.start ⟨rfl, rfl, rfl, ⟨rfl, rfl⟩, ⟨0, some 4, 4, 4, rfl⟩, trivial⟩

theorem images_retire_detach :
    let σ := runList (fun σ a => (next σ a).1) State.start (detachRun ++ [.finishDetach 0])
    ∃ r, σ.images[0]? = some r ∧ r.state = .detached ∧ Gone σ 0 r := by
  have hruns : Runs step State.start
      (runList (fun σ a => (next σ a).1) State.start (detachRun ++ [.finishDetach 0])) :=
    detachRun_runs.tail (a := .finishDetach 0) ⟨⟨rfl, 0, 4, _, 4, rfl⟩, rfl⟩
  exact ⟨_, rfl, rfl, (images_retire hruns).2.2 0 _ rfl rfl⟩

theorem runs_noteMutation (σ : State) (n : ℕ) : Runs step σ (σ.increment (2 * (n + 1))) := by
  induction n with
  | zero => exact Runs.single (a := .noteMutation) ⟨trivial, rfl⟩
  | succ n ih =>
    refine ih.tail (a := .noteMutation) ⟨trivial, ?_⟩
    show σ.increment (2 * (n + 1 + 1)) = (σ.increment (2 * (n + 1))).increment 2
    unfold State.increment
    simp only [Nat.mod_add_mod, Nat.mul_add, Nat.add_assoc]

/-- After 2^63 noted mutations the epoch is what the report had, and the detach goes through. -/
theorem detached_after_wrap : ¬ ∀ σ, Runs step State.start σ → ∀ t image expected report began,
    enabled σ (.finishDetach t) → σ.pc t = .checking image expected report began →
    (σ.images[image]?.map (·.state) = some .retired) →
    (next σ (.finishDetach t)).1.images[image]?.map (·.state) = some .detached → σ.changes = began := by
  intro h
  have hruns := detachRun_runs.trans (runs_noteMutation _ (2 ^ 63 - 1))
  have := h _ hruns 0 0 4 _ 4 ⟨rfl, 0, 4, _, 4, rfl⟩ rfl rfl rfl
  revert this
  decide

end Libobjc2.Images
