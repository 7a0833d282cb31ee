import Mathlib.Data.List.Induction
import Mathlib.Algebra.Group.Nat.Defs

/-!
# Image records and unload reports (`src/runtime/loader.c`)

Every image that is loaded has a record, in the order of loading. A record has the ranges of the
image's sections, the address range that the host has given, and a state. A handle is the position
of a record; NULL and any other pointer that is not a record is a handle that is not registered.

A report counts what is in the sections and what the scan of the runtime's tables finds in the
address range, and turns each count that is not zero into a blocker.

Results:
* `accumulate_eq_nil`: a section that is complete and counts nothing has no items.
* `unloadReport_clear`: what a report without blockers says about the record and the epochs.
-/

namespace Libobjc2.Images

/-! ## Sections -/

/-- Two boundary pointers of a section; 0 is NULL. -/
structure Range where
  first : ℕ
  last : ℕ
  deriving DecidableEq

/-- `struct objc_init` (lines 147–167), less the version. -/
structure ObjcInit where
  sel : Range
  cls : Range
  clsRef : Range
  cat : Range
  proto : Range
  protoRef : Range
  aliases : Range
  strings : Range
  deriving DecidableEq

/-- What `memset` leaves. -/
def ObjcInit.zero : ObjcInit := ⟨⟨0, 0⟩, ⟨0, 0⟩, ⟨0, 0⟩, ⟨0, 0⟩, ⟨0, 0⟩, ⟨0, 0⟩, ⟨0, 0⟩, ⟨0, 0⟩⟩

/-- `SIZE_MAX`, which is also `UINTPTR_MAX`. -/
def sizeMax : ℕ := 2 ^ 64 - 1

def sizeofClass : ℕ := 8
def sizeofSelector : ℕ := 16
def sizeofCategory : ℕ := 56
def sizeofProtocol : ℕ := 88
def sizeofAlias : ℕ := 16
def sizeofString : ℕ := 32

/-- `objc_image_range_count` (lines 204–212). -/
def imageRangeCount (r : Range) (itemSize : ℕ) : ℕ :=
  if r.first = 0 ∨ r.last = 0 ∨ itemSize = 0 then 0
  else if r.last < r.first then 0
  else if (r.last - r.first) % itemSize = 0 then (r.last - r.first) / itemSize
  else 0

/-- `objc_image_accumulate_range_count` (lines 214–228): whether the range is well formed, and the
    new total. -/
def imageAccumulateRangeCount (r : Range) (itemSize total : ℕ) : Bool × ℕ :=
  if itemSize = 0 then (false, total)
  else if r.first = 0 ∨ r.last = 0 then (r.first == r.last, total)
  else if r.last < r.first then (false, total)
  else if (r.last - r.first) % itemSize ≠ 0 then (false, total)
  else
    let count := (r.last - r.first) / itemSize
    if sizeMax - count < total then (false, total) else (true, total + count)

/-- The items that a loop `for (p = first ; p < last ; p++)` visits. -/
def Range.items (r : Range) (itemSize : ℕ) : List ℕ :=
  (List.range ((r.last - r.first + itemSize - 1) / itemSize)).map (r.first + itemSize * ·)

@[simp] theorem Range.items_zero (itemSize : ℕ) (h : 0 < itemSize) : (Range.mk 0 0).items itemSize = [] := by
  unfold Range.items
  rw [Nat.div_eq_of_lt (by dsimp only; omega)]
  rfl

@[simp] theorem imageRangeCount_zero (itemSize : ℕ) : imageRangeCount ⟨0, 0⟩ itemSize = 0 := by
  simp [imageRangeCount]

/-- A range that is complete and adds nothing is empty. -/
theorem accumulate_eq_nil {r : Range} {itemSize total : ℕ}
    (h : imageAccumulateRangeCount r itemSize total = (true, 0)) : total = 0 ∧ r.items itemSize = [] := by
  unfold imageAccumulateRangeCount at h
  split at h
  · cases h
  · next hsize =>
    split at h
    · obtain ⟨heq, rfl⟩ := Prod.mk.inj h
      have : r.last - r.first = 0 := by
        have := beq_iff_eq.mp heq
        omega
      refine ⟨rfl, ?_⟩
      unfold Range.items
      rw [this, Nat.div_eq_of_lt (by omega)]
      rfl
    · split at h
      · cases h
      · split at h
        · cases h
        · next hle hmod =>
          simp only at h
          split at h
          · cases h
          · obtain ⟨htotal, hdiv⟩ := Nat.add_eq_zero_iff.mp (Prod.mk.inj h).2
            have hbytes : r.last - r.first = 0 := by
              have := Nat.div_add_mod (r.last - r.first) itemSize
              rw [hdiv, not_not.mp hmod] at this
              omega
            refine ⟨htotal, ?_⟩
            unfold Range.items
            rw [hbytes, Nat.div_eq_of_lt (by omega)]
            rfl

/-! ## Records -/

/-- `enum mosaic_objc_image_state`. -/
inductive ImageState where
  | active
  | retired
  | detached
  deriving DecidableEq

/-- `struct mosaic_objc_image_record` (lines 170–181). `loaded` is not part of the program: the
    sections as the loader went through them. -/
structure Record where
  init : ObjcInit
  generation : ℕ
  identifier : Option String
  provider : Option String
  baseAddress : ℕ
  mappedSize : ℕ
  state : ImageState
  loaded : ObjcInit
  deriving DecidableEq

/-- `objc_image_contains_address` (lines 240–248). -/
def Record.containsAddress (image : Record) (address : ℕ) : Bool :=
  if image.baseAddress = 0 ∨ image.mappedSize = 0 then false
  else image.baseAddress ≤ address && address - image.baseAddress < image.mappedSize

/-- `register_loaded_objc_image` (lines 186–202). -/
def registerLoadedObjcImage (images : List Record) (nextGeneration : ℕ) (init : ObjcInit) : List Record :=
  images ++ [⟨init, nextGeneration, none, none, 0, 0, .active, init⟩]

/-- `mosaic_objc_imageSetIdentity` (lines 330–369) on a registered image: NULL is `none` or 0, and the
    two Booleans say whether the copies of the texts are allocated. -/
def imageSetIdentity (image : Record) (identifier provider : Option String) (baseAddress : ℕ)
    (identifierCopied providerCopied : Bool) : Option Record :=
  if identifier ≠ none ∧ image.identifier ≠ none ∧ identifier ≠ image.identifier then none
  else if provider ≠ none ∧ image.provider ≠ none ∧ provider ≠ image.provider then none
  else if baseAddress ≠ 0 ∧ image.baseAddress ≠ 0 ∧ baseAddress ≠ image.baseAddress then none
  else if identifier ≠ none ∧ image.identifier = none ∧ ¬ identifierCopied then none
  else if provider ≠ none ∧ image.provider = none ∧ ¬ providerCopied then none
  else some { image with
    identifier := image.identifier.or identifier
    provider := image.provider.or provider
    baseAddress := if image.baseAddress = 0 then baseAddress else image.baseAddress }

/-- `mosaic_objc_imageSetAddressRange` (lines 418–433) on a registered image. -/
def imageSetAddressRange (image : Record) (baseAddress mappedSize : ℕ) : Option Record :=
  if baseAddress = 0 ∨ mappedSize = 0 then none
  else if sizeMax - baseAddress < mappedSize then none
  else if image.baseAddress ≠ 0 ∧ image.baseAddress ≠ baseAddress then none
  else if image.mappedSize ≠ 0 ∧ image.mappedSize ≠ mappedSize then none
  else some { image with baseAddress := baseAddress, mappedSize := mappedSize }

/-- `mosaic_objc_imageRetire` (lines 435–450) on a registered image. -/
def imageRetire (image : Record) : Record :=
  if image.state = .retired ∨ image.state = .detached then image else { image with state := .retired }

/-- The last lines of `mosaic_objc_imageDetach` (624–626). -/
def imageDetached (image : Record) : Record := { image with init := .zero, state := .detached }

/-! ## Reports -/

/-- `enum mosaic_objc_image_unload_blocker`, less the three that only
    `mosaic_objc_imageIsPhysicalUnloadReady` sets. -/
inductive Blocker where
  | notRetired
  | addressRangeUnknown
  | classMetadata
  | protocolMetadata
  | categoryMetadata
  | executableCode
  | analysisIncomplete
  | loaderMetadata
  | globalHookCode
  | tracingHookCode
  | runtimeCacheCode
  | blockTrampoline
  deriving DecidableEq

/-- What the scan of the runtime's tables counts in the image's address range; `complete` is false when
    an allocation fails or a count does not fit. -/
structure Found where
  complete : Bool
  executable : ℕ
  globalHook : ℕ
  tracingHook : ℕ
  runtimeCache : ℕ
  blockTrampoline : ℕ
  deriving DecidableEq

/-- `struct mosaic_objc_image_unload_report`. The blockers are listed in the order in which the bits
    are set. -/
structure UnloadReport where
  state : ImageState
  blockers : List Blocker
  mutationEpoch : ℕ
  mappedSize : ℕ
  classMetadataCount : ℕ
  protocolMetadataCount : ℕ
  categoryMetadataCount : ℕ
  loaderMetadataCount : ℕ
  found : Found
  deriving DecidableEq

/-- The ranges that are added up as loader metadata (lines 477–491). -/
def loaderRanges (init : ObjcInit) : List (Range × ℕ) :=
  [(init.sel, sizeofSelector), (init.clsRef, sizeofClass), (init.protoRef, sizeofClass),
    (init.aliases, sizeofAlias),
    (init.strings, sizeofString)]

/-- The calls of `objc_image_accumulate_range_count` on one total. -/
def accumulateAll (rs : List (Range × ℕ)) : Bool × ℕ :=
  rs.foldl (fun acc r =>
    let (complete, total) := imageAccumulateRangeCount r.1 r.2 acc.2
    (acc.1 && complete, total)) (true, 0)

/-- `report.blockers |= blocker`, if the condition holds. -/
def blockIf (condition : Bool) (blocker : Blocker) : List Blocker := if condition then [blocker] else []

@[simp] theorem blockIf_eq_nil {condition : Bool} {blocker : Blocker} :
    blockIf condition blocker = [] ↔ condition = false := by
  cases condition <;> simp [blockIf]

/-- `mosaic_objc_imageGetUnloadReport` (lines 452–602) on a registered image, when the epoch is `before`
    at its start and `after` at its end, and the scan finds `found`. Without an address range there is
    no scan. -/
def unloadReport (image : Record) (found : Found) (before after : ℕ) : UnloadReport :=
  let known : Bool := image.baseAddress ≠ 0 ∧ image.mappedSize ≠ 0
  let found := if known then found else ⟨true, 0, 0, 0, 0, 0⟩
  let cls := imageAccumulateRangeCount image.init.cls sizeofClass 0
  let proto := imageAccumulateRangeCount image.init.proto sizeofProtocol 0
  let cat := imageAccumulateRangeCount image.init.cat sizeofCategory 0
  let loader := accumulateAll (loaderRanges image.init)
  { state := image.state
    blockers :=
      blockIf (image.state = .active) .notRetired ++
      blockIf (!known) .addressRangeUnknown ++
      blockIf (!(cls.1 && proto.1 && cat.1 && loader.1)) .analysisIncomplete ++
      blockIf (cls.2 ≠ 0) .classMetadata ++
      blockIf (proto.2 ≠ 0) .protocolMetadata ++
      blockIf (cat.2 ≠ 0) .categoryMetadata ++
      blockIf (loader.2 ≠ 0) .loaderMetadata ++
      blockIf (!found.complete) .analysisIncomplete ++
      blockIf (found.executable ≠ 0) .executableCode ++
      blockIf (found.globalHook ≠ 0) .globalHookCode ++
      blockIf (found.tracingHook ≠ 0) .tracingHookCode ++
      blockIf (found.runtimeCache ≠ 0) .runtimeCacheCode ++
      blockIf (found.blockTrampoline ≠ 0) .blockTrampoline ++
      blockIf ((before ||| after) &&& 1 ≠ 0 ∨ before ≠ after) .analysisIncomplete
    mutationEpoch := after
    mappedSize := image.mappedSize
    classMetadataCount := cls.2
    protocolMetadataCount := proto.2
    categoryMetadataCount := cat.2
    loaderMetadataCount := loader.2
    found := found }

theorem accumulateAll_eq_nil {rs : List (Range × ℕ)} (h : accumulateAll rs = (true, 0)) :
    ∀ r ∈ rs, r.1.items r.2 = [] := by
  unfold accumulateAll at h
  induction rs using List.reverseRecOn with
  | nil => simp
  | append_singleton rs r ih =>
    rw [List.foldl_append] at h
    simp only [List.foldl_cons, List.foldl_nil, Prod.mk.injEq, Bool.and_eq_true] at h
    obtain ⟨⟨hall, hlast⟩, htotal⟩ := h
    obtain ⟨hzero, hempty⟩ := accumulate_eq_nil (Prod.ext hlast htotal)
    intro q hq
    rcases List.mem_append.mp hq with hq | hq
    · exact ih (Prod.ext hall hzero) q hq
    · rw [List.mem_singleton.mp hq]
      exact hempty

/-- There is nothing in the sections for a loop to visit. -/
structure ObjcInit.Empty (init : ObjcInit) : Prop where
  cls : init.cls.items sizeofClass = []
  proto : init.proto.items sizeofProtocol = []
  cat : init.cat.items sizeofCategory = []
  loader : ∀ r ∈ loaderRanges init, r.1.items r.2 = []

/-- What a report without blockers says. -/
structure Clear (image : Record) (found : Found) (before after : ℕ) : Prop where
  notActive : image.state ≠ .active
  known : image.baseAddress ≠ 0 ∧ image.mappedSize ≠ 0
  empty : image.init.Empty
  found : found = ⟨true, 0, 0, 0, 0, 0⟩
  quiet : before = after
  even : after % 2 = 0

theorem unloadReport_clear {image : Record} {found : Found} {before after : ℕ}
    (h : (unloadReport image found before after).blockers = []) : Clear image found before after := by
  unfold unloadReport at h
  simp only [List.append_eq_nil_iff, blockIf_eq_nil, decide_eq_false_iff_not, Bool.not_eq_false',
    Bool.and_eq_true,
    decide_eq_true_eq, not_not, not_or, and_assoc] at h
  obtain ⟨hactive, hbase, hsize, hcls, hproto, hcat, hloader, hcls0, hproto0, hcat0, hloader0,
      hfound, hexec, hhook,
    htrace, hcache, htramp, heven, hquiet⟩ := h
  have hknown : image.baseAddress ≠ 0 ∧ image.mappedSize ≠ 0 := ⟨hbase, hsize⟩
  rw [if_pos hknown] at hfound hexec hhook htrace hcache htramp
  refine ⟨hactive, hknown, ⟨?_, ?_, ?_, ?_⟩, ?_, hquiet, ?_⟩
  · exact (accumulate_eq_nil (Prod.ext hcls hcls0)).2
  · exact (accumulate_eq_nil (Prod.ext hproto hproto0)).2
  · exact (accumulate_eq_nil (Prod.ext hcat hcat0)).2
  · exact accumulateAll_eq_nil (Prod.ext hloader hloader0)
  · cases found
    simp_all
  · rw [hquiet, Nat.or_self, Nat.and_one_is_mod] at heven
    exact heven

end Libobjc2.Images
