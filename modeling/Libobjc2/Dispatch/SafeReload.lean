import Libobjc2.Dispatch.Mutation
import Mathlib.Algebra.Group.Nat.Defs
import Mathlib.Algebra.Ring.Int.Defs

/-!
# Safe reload of a class

`safe_reload_class` of src/runtime/class_table.c on arbitrary metadata: the comparison of the
layouts with `objc_compute_ivar_offsets` (src/runtime/ivar.c), the two method plans with their
checks and allocations, and their commits. `Runtime.safeReload` is what this comes to when the
metadata are valid and no allocation fails.

Sizes are those of a 64-bit target. A result is `none` where the source aborts or follows a null
pointer. Observer events are left out.
-/

namespace Libobjc2.Dispatch

/-! ## Metadata -/

/-- `struct objc_ivar`; a pointer to an offset is the offset. -/
structure Ivar where
  name : Option String
  type : Option String
  offset : Option ℤ
  size : ℕ
  flags : ℕ
deriving DecidableEq, Repr

/-- `struct objc_ivar_list`; `entry` is `ivar_at_index`. -/
structure IvarList where
  count : ℤ
  size : ℕ
  entry : ℕ → Ivar

/-- The fields of `struct objc_class` that say what instances look like. -/
structure ClassLayout where
  instanceSize : ℤ
  ivars : Option IvarList

/-- The layouts of the loaded classes. -/
abbrev Layouts := Class → ClassLayout

/-- A method of a class that is being loaded: `name` is what its selector points to. -/
structure CandidateMethod where
  name : String
  types : Option String
  imp : Option Imp
deriving DecidableEq, Repr

/-- `struct objc_method_list`; `entry` is `method_at_index`. -/
structure CandidateList where
  count : ℤ
  size : ℕ
  entry : ℕ → CandidateMethod

def CandidateList.methods (list : CandidateList) : List CandidateMethod :=
  (List.range list.count.toNat).map list.entry

/-- A class that is being loaded. Its superclass is a name still; `metaclass` holds the method
    lists of its `isa`. -/
structure CandidateClass where
  superClass : Option String
  layout : ClassLayout
  methodLists : List CandidateList
  metaclass : Option (List CandidateList)

def sizeofIvar : ℕ := 32
def sizeofIvarList : ℕ := 16
def sizeofMethod : ℕ := 24
def sizeofMethodList : ℕ := 24
def sizeofEntry : ℕ := 32
def sizeMax : ℕ := 2 ^ 64 - 1
def intMax : ℕ := 2 ^ 31 - 1

/-- The allocations of a reload. A selector needs one when it is not registered yet. -/
inductive Allocation where
  | ivars
  | offsets
  | selector (isMeta : Bool) (index : ℕ)
  | entries (isMeta : Bool)
  | additions (isMeta : Bool)
  | types (isMeta : Bool) (index : ℕ)
deriving DecidableEq, Repr

/-- `objc2_size_multiply` (allocation.h, lines 20–26). -/
def sizeMultiply (left right : ℕ) : Option ℕ :=
  if right ≠ 0 ∧ sizeMax / right < left then none else some (left * right)

/-- `objc2_size_add` (allocation.h, lines 12–18). -/
def sizeAdd (left right : ℕ) : Option ℕ := if sizeMax - right < left then none else some (left + right)

/-- `objc2_flexible_array_size` (allocation.h, lines 28–40). -/
def flexibleArraySize (headerSize count elementSize : ℕ) : Option ℕ :=
  (sizeMultiply count elementSize).bind (sizeAdd headerSize)

/-! ## Layouts -/

/-- `ivarGetAlign` (ivar.h, lines 89–95). -/
def ivarGetAlign (flags : ℕ) : ℕ :=
  let exponent := flags / 2 ^ 3 % 2 ^ 6
  if 64 ≤ exponent then 0 else 2 ^ exponent

/-- The local variables of the loop of `objc_compute_ivar_offsets`, and the size of the class. -/
structure Placement where
  nextIvar : ℤ
  lastOffset : ℤ
  lastComputedOffset : ℤ
  instanceSize : ℤ

/-- One round of the loop of `objc_compute_ivar_offsets` (ivar.c, lines 64–107). -/
def placeIvar (p : Placement) (i : ℕ) (ivar : Ivar) : Option (Placement × Ivar) := do
  -- the size of a `_Bool` may be encoded as 0
  let size ← if ivar.size = 0 then ivar.type.map fun t => if t.toList.head? = some 'B' then 1 else 0
      else some ivar.size
  let offset ← ivar.offset
  if i ≠ 0 ∧ offset = p.lastOffset then
    -- a bitfield lies at the base of the variable that contains it
    return (p, { ivar with size, offset := some p.lastComputedOffset })
  let align := ivarGetAlign ivar.flags
  if align = 0 then none
  else
    let excess := (p.nextIvar + 8) % align
    let padding := if excess = 0 then 0 else align - excess
    let placed := p.nextIvar + padding
    return (⟨placed + size, offset, placed, p.instanceSize + padding + size⟩,
      { ivar with size, offset := some placed })

/-- The loop of `objc_compute_ivar_offsets` from `ivarStart`. -/
def placeIvars (ivarStart : ℤ) (ivars : IvarList) : Option ClassLayout := do
  let (p, entry) ← (List.range ivars.count.toNat).foldlM
    (fun (p, entry) i => (placeIvar p i (entry i)).map fun (p, ivar) => (p, Function.update entry i ivar))
    ((⟨ivarStart, -2 ^ 63, -1, ivarStart⟩ : Placement), ivars.entry)
  return ⟨p.instanceSize, some { ivars with entry }⟩

/-- `objc_compute_ivar_offsets` (ivar.c, lines 15–123) on a class with superclass `super` and layout
    `layout`: the layouts of the other classes, of which superclasses may be computed first, and its
    own. -/
def computeIvarOffsets (superClass : Class → Option Class) :
    ℕ → Layouts → Option Class → ClassLayout → Option (Layouts × ClassLayout)
  | 0, _, _, _ => none
  | fuel + 1, L, super, layout =>
    match layout.ivars with
    | none => some (L, super.elim layout fun sup => { layout with instanceSize := (L sup).instanceSize })
    | some ivars =>
      if ivars.size ≠ sizeofIvar then none
      else if 0 < layout.instanceSize then some (L, layout)
      else
        match super with
        | none => (placeIvars 0 ivars).map fun layout => (L, layout)
        | some sup =>
          if 0 < (L sup).instanceSize then (placeIvars (L sup).instanceSize ivars).map fun layout =>
              (L, layout)
          else do
            let (L, layout) ← computeIvarOffsets superClass fuel L (superClass sup) (L sup)
            let L := Function.update L sup layout
            (placeIvars (L sup).instanceSize ivars).map fun layout => (L, layout)

/-- The comparison of two instance variables (class_table.c, lines 583–588). -/
def ivarMatches (fresh live : Ivar) : Bool :=
  fresh.name = live.name && fresh.type = live.type && fresh.size = live.size && fresh.flags = live.flags &&
    fresh.offset.isSome && fresh.offset = live.offset

/-- Why two layouts differ (class_table.c, lines 561–592). -/
def layoutMismatch (normalized canonical : ClassLayout) : Option String :=
  if normalized.instanceSize ≠ canonical.instanceSize then some "instance-size"
  else
    match normalized.ivars, canonical.ivars with
    | none, none => none
    | some fresh, some live =>
      if fresh.count ≠ live.count then some "ivar-count"
      else if (List.range fresh.count.toNat).all fun i => ivarMatches (fresh.entry i) (live.entry i) then none
      else some "ivar-layout"
    | _, _ => some "ivar-presence"

/-- `safe_reload_superclass_matches` (class_table.c, lines 483–493); `classNamed` is
    `class_table_get_safe`. -/
def safeReloadSuperclassMatches (classNamed : String → Option Class) (candidate : Option String)
    (canonical : Option Class) : Bool :=
  match candidate, canonical with
  | none, none => true
  | some name, some sup => classNamed name = some sup
  | _, _ => false

section Allocations

variable (fails : Allocation → Bool)

/-- `copy_reload_ivars` (class_table.c, lines 495–539). -/
def copyReloadIvars (source : IvarList) : Option IvarList :=
  if source.count < 0 ∨ source.size < sizeofIvar then none
  else if flexibleArraySize sizeofIvarList source.count.toNat source.size = none then none
  else if fails .ivars then none
  else if source.count = 0 then some source
  else if sizeMultiply source.count.toNat 4 = none ∨ fails .offsets then none
  else if (List.range source.count.toNat).any fun i => (source.entry i).offset.isNone then none
  else some source

/-- `safe_reload_layout_matches` (class_table.c, lines 541–595): the layouts, and the reason of a
    rejection. -/
def Runtime.safeReloadLayoutMatches (σ : Runtime) (classNamed : String → Option Class) (L : Layouts)
    (candidate : CandidateClass) (canonical : Class) : Option (Layouts × Option String) :=
  if !safeReloadSuperclassMatches classNamed candidate.superClass (σ.superClass canonical) then
    some (L, some "superclass")
  else
    let ivars := candidate.layout.ivars.bind (copyReloadIvars fails)
    if candidate.layout.ivars.isSome && ivars.isNone then some (L, some "ivar-metadata")
    else
      (computeIvarOffsets σ.superClass (σ.classCount + 1) L (σ.superClass canonical)
        { candidate.layout with ivars }).map
        fun (L, normalized) => (L, layoutMismatch normalized (L canonical))

/-! ## Plans -/

/-- A method of the candidate whose selector has been registered; `none` is the null selector. -/
structure Incoming where
  selector : Option String
  types : Option String
  imp : Option Imp
deriving DecidableEq, Repr

/-- `sel_getName` (selector_table.cc, lines 543–548). -/
def selGetName (selector : Option String) : String := selector.getD "<null selector>"

/-- `objc_register_selectors_from_class` (selector_table.cc, lines 657–675): a selector that cannot
    be registered becomes `NULL`. -/
def registerSelectors (isMeta : Bool) (source : List CandidateMethod) : List Incoming :=
  source.zipIdx.map fun (m, i) => ⟨if fails (.selector isMeta i) then none else some m.name, m.types, m.imp⟩

/-- `struct safe_reload_method_entry`. -/
structure PlanEntry where
  target : Option MethodId
  selector : Option String
  implementation : Imp
  types : String
deriving DecidableEq, Repr

def PlanEntry.toReloadEntry (e : PlanEntry) : Runtime.ReloadEntry :=
  ⟨e.target, ⟨selGetName e.selector, e.types, e.implementation⟩⟩

/-- `safe_reload_count_methods` (class_table.c, lines 653–664). -/
def safeReloadCountMethods (source : List CandidateList) : Option ℕ :=
  source.foldlM (fun count list =>
    if list.count < 0 ∨ list.size < sizeofMethod then none
    else if sizeMax - count < list.count.toNat then none
    else some (count + list.count.toNat)) 0

/-- One round of the loops of `safe_reload_prepare_plan` (class_table.c, lines 693–720). -/
def Runtime.planMethod (σ : Runtime) (target : Class) (plan : List PlanEntry) (incoming : Incoming) :
    Except String (List PlanEntry) :=
  match incoming.types, incoming.imp with
  | some types, some imp =>
    let name := selGetName incoming.selector
    -- `safe_reload_plan_contains_name`
    if plan.any fun e => selGetName e.selector = name then .ok plan
    else
      let existing := σ.firstNamed target name
      if existing.all fun m => (σ.method m).types = types then
        .ok (plan ++ [⟨existing, incoming.selector, imp, types⟩])
      else .error "method-signature"
  | _, _ => .error "method-metadata"

/-- The allocation of the additions and of copies of their types (class_table.c, lines 722–762). -/
def allocateAdditions (isMeta : Bool) (plan : List PlanEntry) : Except String (List PlanEntry) :=
  let additions := (plan.filter fun e => e.target.isNone).length
  if additions = 0 then .ok plan
  else if intMax < additions ∨ flexibleArraySize sizeofMethodList additions sizeofMethod = none then
    .error "method-metadata"
  else if fails (.additions isMeta) then .error "allocation"
  else if (List.range additions).any fun i => fails (.types isMeta i) then .error "allocation"
  else .ok plan

/-- `safe_reload_prepare_plan` (class_table.c, lines 666–764) for the method lists `source`, whose
    methods are `incoming` once their selectors are registered. -/
def Runtime.safeReloadPreparePlan (σ : Runtime) (isMeta : Bool) (target : Class) (source : List CandidateList)
    (incoming : List Incoming) : Except String (List PlanEntry) :=
  match safeReloadCountMethods source with
  | none => .error "method-metadata"
  | some total =>
    if total = 0 then .ok []
    else if sizeMultiply total sizeofEntry = none then .error "method-metadata"
    else if fails (.entries isMeta) then .error "allocation"
    else (incoming.foldlM (σ.planMethod target) []).bind (allocateAdditions fails isMeta)

end Allocations

/-- `safe_reload_commit_plan` (class_table.c, lines 781–812). -/
def Runtime.safeReloadCommitPlan (T : SelectorTable) (σ : Runtime) (target : Class) (plan : List PlanEntry) :
    Option Runtime :=
  -- `add_method_list_to_class` reads the index of every selector
  if σ.classHasDtable target && plan.any fun e => e.target.isNone && e.selector.isNone then none
  else some (σ.commitPlan T target (plan.map PlanEntry.toReloadEntry))

/-- What a reload leaves behind; `rejected` is the reason of a rejection. -/
structure ReloadResult where
  runtime : Runtime
  layouts : Layouts
  rejected : Option String

/-- The methods of some method lists in the order in which they are walked. -/
def methodsOfLists (lists : List CandidateList) : List CandidateMethod := lists.flatMap (·.methods)

/-- `safe_reload_class` (class_table.c, lines 836–882). -/
def Runtime.safeReloadClass (T : SelectorTable) (fails : Allocation → Bool)
    (classNamed : String → Option Class)
    (σ : Runtime) (L : Layouts) (candidate : CandidateClass) (canonical : Class) : Option ReloadResult :=
  match candidate.metaclass with
  | none => some ⟨σ, L, some "metaclass"⟩
  | some classLists =>
    (σ.safeReloadLayoutMatches fails classNamed L candidate canonical).bind fun (L, reason) =>
      match reason with
      | some reason => some ⟨σ, L, some reason⟩
      | none =>
        let instanceMethods := registerSelectors fails false (methodsOfLists candidate.methodLists)
        let classMethods := registerSelectors fails true (methodsOfLists classLists)
        match σ.safeReloadPreparePlan fails false canonical candidate.methodLists instanceMethods,
          σ.safeReloadPreparePlan fails true (σ.isa canonical) classLists classMethods with
        | .ok instancePlan, .ok classPlan =>
          (σ.safeReloadCommitPlan T canonical instancePlan).bind fun σ' =>
            (σ'.safeReloadCommitPlan T (σ'.isa canonical) classPlan).map fun σ' =>
              ⟨(σ'.refreshReloadCxxCache canonical).refreshReloadCxxCache (σ'.isa canonical), L, none⟩
        | .error reason, _ => some ⟨σ, L, some reason⟩
        | .ok _, .error reason => some ⟨σ, L, some reason⟩

end Libobjc2.Dispatch
