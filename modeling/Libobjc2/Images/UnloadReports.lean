import Libobjc2.Blocks.Trampolines
import Libobjc2.Dispatch.TableEntries
import Libobjc2.Images.Records
import Mathlib.Algebra.Group.Nat.Defs

/-!
# What an unload report finds (`src/runtime/loader.c`, lines 371–416 and 506–594)

The scan of an unload report goes through the places in which the runtime keeps code: the methods and the
cached C++ functions of the classes in the class table and of their `isa`s, the hooks of hooks.c and of
the exception handling, the tracing hooks, the three functions that arc.mm caches, and the headers of the
block trampolines.

The classes are those of `Dispatch.CxxCaches`, with the hidden classes that associate.mm puts in front of
the class of an object, with duplicated classes and with classes that are disposed of. A class that is
disposed of keeps its number and its method lists, so that an entry of another table that outlives it can
be traced to it. Tables that are taken into use for a message are tables of the classes here.

Results:
* `scan_clear`: what a scan that counts nothing has looked at.
* `Inv.next`: what a call keeps; above all, that every method in a table is in the lists of a class.
* `unloadReport_conservative_iff`: after a report without blockers, no code that the runtime can call is in
  the image if and only if no method of a class to which the class table does not lead is.
* `hidden_class_unreported`: a method of one object.
-/

namespace Libobjc2.Images.UnloadReports

open Libobjc2.Common Libobjc2.Dispatch Libobjc2.Dispatch.Runtime Libobjc2.Dispatch.CxxCaches Libobjc2.Blocks

/-! ## State -/

abbrev Class := Dispatch.Class

/-- The hooks that `mosaic_objc_countGlobalHookReferences` and `objc2_countExceptionHookReferences` look at. -/
inductive Hook where
  | runtimeEventSink
  | lookupClass
  | loadCallback
  | proxyLookup
  | msgForward3
  | msgForward2
  | classForBoxingForeignException
  | selectorTypeMismatch2
  | selectorTypeMismatch
  | weakLoad
  | unexpectedException
  | originalUnhandledExceptionFilter
  deriving DecidableEq

def Hook.all : List Hook :=
  [.runtimeEventSink, .lookupClass, .loadCallback, .proxyLookup, .msgForward3, .msgForward2,
    .classForBoxingForeignException, .selectorTypeMismatch2, .selectorTypeMismatch, .weakLoad,
    .unexpectedException,
    .originalUnhandledExceptionFilter]

/-- The functions that arc.mm caches (lines 228–230). -/
structure ArcCache where
  newAutoreleasePool : ℕ
  deleteAutoreleasePool : ℕ
  autoreleaseAdd : ℕ

/-- * `hidden`: the flags `objc_class_flag_hidden_class`;
    * `duplicate`: the flags `objc_class_flag_duplicate`;
    * `freed`: which classes were disposed of;
    * `hook`: what is in the hooks, 0 for NULL;
    * `tracing`: the entries of `tracing_dtable`, by the index of the selector;
    * `descriptor`: what the descriptor of the block at an address adds to a snapshot: its own address, the
      helpers and the type encoding. -/
structure State where
  classes : Machine
  hidden : Class → Bool
  duplicate : Class → Bool
  freed : Class → Bool
  hook : Hook → ℕ
  tracing : List (ℕ × ℕ)
  arc : ArcCache
  trampolines : Trampolines
  descriptor : ℕ → List ℕ

def State.runtime (σ : State) : Runtime := σ.classes.runtime

/-- Before any class is there; the hooks and the blocks of the program can be any. -/
structure Initial (σ : State) : Prop where
  classes : σ.classes = Machine.start
  tracing : σ.tracing = []
  trampolines : Trampolines.Initial σ.trampolines

/-! ## The scan -/

section Scan

variable (image : Record)

/-- A counter is incremented for every address in the image, unless it is `SIZE_MAX`; the Boolean is false
    when it was. -/
def countUpTo (addresses : List ℕ) (count : Bool × ℕ) : Bool × ℕ :=
  addresses.foldl (fun count address =>
    if address ≠ 0 ∧ image.containsAddress address then
      if count.2 = sizeMax then (false, count.2) else (count.1, count.2 + 1)
    else count) count

/-- A counter that cannot get there: the hooks, the tracing hooks and the cached functions. -/
def countIn (addresses : List ℕ) : ℕ := (addresses.filter image.containsAddress).length

/-- `class_copyMethodList` (runtime.c, lines 308–336); `allocated`: its allocation succeeds. -/
def copyMethodList (σ : Runtime) (cls : Class) (allocated : Bool) : Option (List MethodId) :=
  let methods := σ.methodsOf cls
  if 2 ^ 32 - 1 < methods.length ∨ methods.length = 0 ∨ ¬ allocated then none else some methods

/-- `objc_image_scan_method_code` (lines 371–416). -/
def imageScanMethodCode (σ : Runtime) (cls : Class) (allocated : Bool) (found : Found) : Found :=
  let methods := copyMethodList σ cls allocated
  if methods = none ∧ σ.methodLists cls ≠ [] then { found with complete := false }
  else
    let executable := countUpTo image ((methods.getD []).map fun m => (σ.method m).imp)
        (found.complete, found.executable)
    let cached := [(σ.cxxConstruct cls).getD 0, (σ.cxxDestruct cls).getD 0]
    let cache := countUpTo image cached (executable.1, found.runtimeCache)
    { found with complete := cache.1, executable := executable.2, runtimeCache := cache.2 }

/-- The allocations of a report: for the list of classes, and for the methods of a listed class and of its
    `isa`. -/
structure Allocated where
  classes : Bool
  methods : Class → Bool
  classMethods : Class → Bool

/-- The classes of the class table, as `objc_getClassList` copies them. -/
def getClassList (M : Machine) : List Class := (List.range M.runtime.classCount).filter M.listed

/-- Lines 508–540. -/
def scanClasses (M : Machine) (allocated : Allocated) : Found :=
  if getClassList M = [] then ⟨true, 0, 0, 0, 0, 0⟩
  else if ¬ allocated.classes then ⟨false, 0, 0, 0, 0, 0⟩
  else
    (getClassList M).foldl (fun found cls =>
      imageScanMethodCode image M.runtime (M.runtime.isa cls) (allocated.classMethods cls)
        (imageScanMethodCode image M.runtime cls (allocated.methods cls) found)) ⟨true, 0, 0, 0, 0, 0⟩

variable (L : Layout)

/-- `block_header_is_free` (block_to_imp.c, lines 229–235). -/
def blockHeaderIsFree (region block : ℕ) : Bool :=
  block = 0 || (region ≤ block && block - region < L.pageSize)

/-- `block_snapshot_capture` (lines 243–264) for the header at an address. -/
def blockSnapshot (σ : State) (header : ℕ) : List ℕ :=
  let block := σ.trampolines.block header
  σ.trampolines.fnptr header :: block :: (σ.trampolines.blocks block).toList.map Block.invoke ++
  σ.descriptor block

/-- The references that `count_block_set_references` (lines 279–294) counts. -/
def blockReferences (σ : State) : List ℕ :=
  (σ.trampolines.trampolines ++ σ.trampolines.sretTrampolines).flatMap fun region =>
    (List.range L.headersPerPage).flatMap fun i =>
      let header := Trampolines.header L region i
      if blockHeaderIsFree L region (σ.trampolines.block header) then [] else blockSnapshot σ header

/-- The scan of `mosaic_objc_imageGetUnloadReport` (lines 506–578). -/
def scan (σ : State) (allocated : Allocated) : Found :=
  let found := scanClasses image σ.classes allocated
  let arc := countIn image [σ.arc.newAutoreleasePool, σ.arc.deleteAutoreleasePool, σ.arc.autoreleaseAdd]
  let fits : Bool := arc ≤ sizeMax - found.runtimeCache
  { complete := found.complete && fits
    executable := found.executable
    globalHook := countIn image (Hook.all.map σ.hook)
    -- `SparseArrayNext` starts after index 0
    tracingHook := countIn image ((σ.tracing.filter fun e => 0 < e.1).map Prod.snd)
    runtimeCache := if fits then found.runtimeCache + arc else sizeMax
    blockTrampoline := (countUpTo image (blockReferences L σ) (true, 0)).2 }

end Scan

/-! ## Calls -/

/-- The types of `.cxx_destruct` (associate.mm, line 305). -/
def destructTypes : String := "v16@0:8"

/-- The address of `deallocHiddenClass`. -/
def deallocHiddenClassImp : Imp := 1

/-- `duplicateMethodLists` (runtime.c, lines 785–822). -/
def duplicateMethodLists (σ : Runtime) : List (List MethodId) → Runtime × List (List MethodId)
  | [] => (σ, [])
  | list :: lists =>
    let (σ, copy) := σ.allocMethods (list.map σ.method)
    let (σ, copies) := duplicateMethodLists σ lists
    (σ, copy :: copies)

/-- A class below `super` without a metaclass of its own comes into being. -/
def newClass (σ : Runtime) (isa : Class) (super : Option Class) (lists : List (List MethodId)) : Runtime :=
  let cls := σ.classCount
  { σ with
    classCount := cls + 1
    superClass := Function.update σ.superClass cls super
    isa := Function.update σ.isa cls isa
    isMeta := Function.update σ.isMeta cls false
    subclassList := Function.update σ.subclassList cls []
    methodLists := Function.update σ.methodLists cls lists
    dtable := Function.update σ.dtable cls none
    cxxConstruct := Function.update σ.cxxConstruct cls none
    cxxDestruct := Function.update σ.cxxDestruct cls none }

/-- It goes to the head of the list of subclasses of its superclass. -/
def linkBelow (σ : Runtime) (cls super : Class) : Runtime :=
  { σ with subclassList := Function.update σ.subclassList super (cls :: σ.subclassList super) }

inductive Action where
  | call (op : CxxCaches.Op)
  | permissiveReload (old : Class) (methods : List Method)
  | setSuperclass (cls newSuper : Class)
  | initHiddenClass (superclass : Class)
  | deallocHiddenClass (cls : Class)
  | duplicateClass (original : Class)
  | disposeClassPair (cls : Class)
  | setClass (cls isa : Class)
  | setHook (hook : Hook) (address : ℕ)
  | registerTracingHook (indices : List ℕ) (address : ℕ)
  | initAutorelease (cached : ArcCache)
  | block (call : Blocks.Call)
  | newDescriptor (descriptor : ℕ → List ℕ)

section Next

variable (T : SelectorTable)

/-- `initHiddenClassForObject` (associate.mm, lines 298–323) for an object of the class: every allocation
    succeeds. -/
def initHiddenClass (σ : State) (superclass : Class) : State :=
  let cls := σ.runtime.classCount
  let runtime := newClass σ.runtime (σ.runtime.isa superclass) (some superclass) []
  let runtime := (runtime.addMethod T cls ".cxx_destruct" deallocHiddenClassImp (some destructTypes)).1
  { σ with
    classes := { σ.classes with
      runtime := linkBelow runtime cls superclass
      resolved := Function.update σ.classes.resolved cls true }
    hidden := Function.update σ.hidden cls true }

/-- `deallocHiddenClass` (associate.mm, lines 325–370), less the associations. -/
def deallocHiddenClass (σ : State) (cls : Class) : State :=
  let runtime := σ.runtime.removeFromSubclassList cls
  { σ with
    classes := { σ.classes with runtime := { runtime with dtable := Function.update runtime.dtable cls none } }
    freed := Function.update σ.freed cls true }

/-- `objc_duplicateClass` (runtime.c, lines 966–1068). -/
def duplicateClass (σ : State) (original : Class) : State :=
  let (runtime, lists) := duplicateMethodLists σ.runtime (σ.runtime.methodLists original)
  let cls := runtime.classCount
  let duplicated := newClass runtime (runtime.isa original) (runtime.superClass original) lists
  let cached := { duplicated with
    cxxConstruct := Function.update duplicated.cxxConstruct cls (runtime.cxxConstruct original)
    cxxDestruct := Function.update duplicated.cxxDestruct cls (runtime.cxxDestruct original) }
  { σ with
    classes := { σ.classes with
      runtime := (runtime.superClass original).elim cached (linkBelow cached cls)
      listed := Function.update σ.classes.listed cls true
      resolved := Function.update σ.classes.resolved cls true }
    duplicate := Function.update σ.duplicate cls true }

/-- `objc_disposeClassPair` (runtime.c, lines 929–964). A duplicate has no metaclass of its own. -/
def disposeClassPair (σ : State) (cls : Class) : State :=
  let metaclass := σ.runtime.isa cls
  let gone : List Class := if σ.duplicate cls then [cls] else [cls, metaclass]
  let runtime := if σ.duplicate cls then σ.runtime else σ.runtime.removeFromSubclassList metaclass
  let runtime := runtime.removeFromSubclassList cls
  { σ with
    classes := { σ.classes with
      runtime := { runtime with dtable := fun c => if c ∈ gone then none else runtime.dtable c }
      listed := Function.update σ.classes.listed cls false }
    freed := fun c => if c ∈ gone then true else σ.freed c }

/-- `objc_registerTracingHook` (dtable.c, lines 328–382) has inserted the hook at these indices. -/
def registerTracingHook (σ : State) (indices : List ℕ) (address : ℕ) : State :=
  { σ with tracing := indices.map (fun i => (i, address)) ++ σ.tracing.filter fun e => e.1 ∉ indices }

variable (L : Layout)

def next (σ : State) : Action → State
  | .call op => { σ with classes := CxxCaches.next T σ.classes op }
  | .permissiveReload old methods =>
    { σ with classes := { σ.classes with runtime := σ.runtime.permissiveReload T old methods } }
  | .setSuperclass cls newSuper =>
    { σ with classes := { σ.classes with runtime := (σ.runtime.setSuperclass T cls newSuper).getD σ.runtime } }
  | .initHiddenClass superclass => initHiddenClass T σ superclass
  | .deallocHiddenClass cls => deallocHiddenClass σ cls
  | .duplicateClass original => duplicateClass σ original
  | .disposeClassPair cls => disposeClassPair σ cls
  | .setClass cls isa =>
    { σ with classes := { σ.classes with
        runtime := { σ.runtime with isa := Function.update σ.runtime.isa cls isa } } }
  | .setHook hook address => { σ with hook := Function.update σ.hook hook address }
  | .registerTracingHook indices address => registerTracingHook σ indices address
  | .initAutorelease cached => { σ with arc := cached }
  | .block call => { σ with trampolines := (σ.trampolines.perform L call).getD σ.trampolines }
  | .newDescriptor descriptor => { σ with descriptor }

/-- No block with a live IMP is in a page of headers. -/
def BlocksApart (σ : Trampolines) : Prop :=
  ∀ imp b, σ.live imp = some b → ∀ region ∈ σ.regions, b < region ∨ region + L.pageSize ≤ b

/-- The calls that a program can make: the classes are there, `imp_removeBlock` gets live IMPs and pointers to
    no region, and `malloc` and `mmap` hand out memory that is not in use. -/
def enabled (σ : State) : Action → Prop
  | .call op => CxxCaches.enabled T σ.classes op ∧ ∀ c ∈ receivers σ.classes op, c < σ.runtime.classCount
  | .permissiveReload old _ => old < σ.runtime.classCount
  | .setSuperclass cls newSuper => cls < σ.runtime.classCount ∧ newSuper < σ.runtime.classCount
  | .initHiddenClass superclass => superclass < σ.runtime.classCount ∧ σ.runtime.isMeta superclass = false
  | .deallocHiddenClass cls => σ.hidden cls
  | .duplicateClass original => σ.classes.listed original
  | .disposeClassPair cls => cls < σ.runtime.classCount
  | .setClass cls isa => cls < σ.runtime.classCount ∧ isa < σ.runtime.classCount
  | .setHook _ _ => True
  | .registerTracingHook indices _ => ∀ i ∈ indices, 0 < i
  | .initAutorelease _ => True
  | .block call => σ.trampolines.Ok L call ∧
      ∀ τ, σ.trampolines.perform L call = some τ → BlocksApart L τ
  | .newDescriptor _ => True

/-- The runs of a program. -/
abbrev step : State → Action → State → Prop := guarded (enabled T L) (next T L)

/-- The states that a program reaches. -/
def Reachable (σ : State) : Prop := ∃ σ₀, Initial σ₀ ∧ Runs (step T L) σ₀ σ

end Next

/-! ## Specification -/

/-- A method that message dispatch can find: in the lists or in the table of a class that is there. -/
def Dispatchable (σ : State) (m : MethodId) : Prop :=
  ∃ cls < σ.runtime.classCount, σ.freed cls = false ∧
    (m ∈ σ.runtime.methodsOf cls ∨ ∃ t key, σ.runtime.dtable cls = some t ∧ t key = some m)

/-- No code that the runtime can call is in the image. -/
structure Unreachable (L : Layout) (σ : State) (image : Record) : Prop where
  methods : ∀ m, Dispatchable σ m → image.containsAddress (σ.runtime.method m).imp = false
  trampolines : ∀ imp b, σ.trampolines.live imp = some b → image.containsAddress b = false ∧
    (∀ layout ∈ σ.trampolines.blocks b, image.containsAddress layout.invoke = false) ∧
    ∀ header, σ.trampolines.OwnsHeader L imp header →
    image.containsAddress (σ.trampolines.fnptr header) = false
  tracing : ∀ e ∈ σ.tracing, image.containsAddress e.2 = false
  arc : image.containsAddress σ.arc.newAutoreleasePool = false ∧
    image.containsAddress σ.arc.deleteAutoreleasePool = false ∧
    image.containsAddress σ.arc.autoreleaseAdd = false
  hooks : ∀ hook, image.containsAddress (σ.hook hook) = false

/-- No method of a class to which the class table does not lead is in the image: of a hidden class, of a class
    pair that is not registered, or of one that has left entries in other tables. -/
def UnlistedOutside (σ : State) (image : Record) : Prop :=
  ∀ cls, ¬ σ.classes.Reached cls → ∀ m ∈ σ.runtime.methodsOf cls, Dispatchable σ m →
    image.containsAddress (σ.runtime.method m).imp = false

/-! ## A scan that counts nothing -/

section Clear

variable {image : Record}

theorem countUpTo_eq_zero {addresses : List ℕ} {count : Bool × ℕ}
    (h : (countUpTo image addresses count).2 = 0) :
    count.2 = 0 ∧ ∀ a ∈ addresses, a ≠ 0 → image.containsAddress a = false := by
  unfold countUpTo at h
  induction addresses generalizing count with
  | nil => exact ⟨h, fun a ha => absurd ha List.not_mem_nil⟩
  | cons a as ih =>
    rw [List.foldl_cons] at h
    obtain ⟨hcount, hrest⟩ := ih h
    split at hcount
    · split at hcount
      · next hmax =>
        rw [hmax] at hcount
        exact absurd hcount (by decide)
      · exact absurd hcount (Nat.succ_ne_zero _)
    · next hout =>
      refine ⟨hcount, fun b hb hne => ?_⟩
      rcases List.mem_cons.mp hb with rfl | hb
      · simpa [hne] using hout
      · exact hrest b hb hne

theorem countUpTo_complete {addresses : List ℕ} {count : Bool × ℕ}
    (h : (countUpTo image addresses count).1 = true) :
    count.1 = true := by
  unfold countUpTo at h
  induction addresses generalizing count with
  | nil => exact h
  | cons a as ih =>
    have hcount := ih (by simpa using h)
    split at hcount
    · split at hcount
      · cases hcount
      · exact hcount
    · exact hcount

theorem countIn_eq_zero {addresses : List ℕ} (h : countIn image addresses = 0) :
    ∀ a ∈ addresses, image.containsAddress a = false := by
  intro a ha
  have hnil := List.length_eq_zero_iff.mp h
  rw [List.filter_eq_nil_iff] at hnil
  simpa using hnil a ha

/-- Nothing was found in classes, and nothing failed. -/
structure CodeClear (found : Found) : Prop where
  complete : found.complete = true
  executable : found.executable = 0
  runtimeCache : found.runtimeCache = 0

/-- A class in which nothing was found. -/
theorem imageScanMethodCode_clear {σ : Runtime} {cls : Class} {allocated : Bool} {found : Found}
    (h : CodeClear (imageScanMethodCode image σ cls allocated found)) :
    CodeClear found ∧
      ∀ m ∈ σ.methodsOf cls, (σ.method m).imp ≠ 0 → image.containsAddress (σ.method m).imp = false := by
  unfold imageScanMethodCode at h
  dsimp only at h
  split at h
  · exact absurd h.complete Bool.false_ne_true
  · next hcopied =>
    obtain ⟨hexec, hmethods⟩ := countUpTo_eq_zero h.executable
    refine ⟨⟨?_, hexec, (countUpTo_eq_zero h.runtimeCache).1⟩, fun m hm hne =>
        hmethods _ (List.mem_map.mpr ⟨m, ?_, rfl⟩) hne⟩
    · have := countUpTo_complete h.complete
      exact countUpTo_complete this
    -- the methods were copied, or there is no list
    cases hcopy : copyMethodList σ cls allocated with
    | some methods =>
      unfold copyMethodList at hcopy
      dsimp only at hcopy
      split at hcopy
      · cases hcopy
      · rw [Option.getD_some, ← Option.some.inj hcopy]
        exact hm
    | none =>
      have hnil : σ.methodLists cls = [] := not_not.mp fun hne => hcopied ⟨hcopy, hne⟩
      unfold methodsOf at hm
      rw [hnil] at hm
      cases hm

theorem scanClasses_clear {M : Machine} {allocated : Allocated} (hb : M.runtime.Beyond)
    (h : CodeClear (scanClasses image M allocated)) :
    ∀ cls, M.Reached cls → ∀ m ∈ M.runtime.methodsOf cls, (M.runtime.method m).imp ≠ 0 →
      image.containsAddress (M.runtime.method m).imp = false := by
  have hlisted : ∀ l : List Class, CodeClear (l.foldl (fun found cls =>
      imageScanMethodCode image M.runtime (M.runtime.isa cls) (allocated.classMethods cls)
        (imageScanMethodCode image M.runtime cls (allocated.methods cls) found)) ⟨true, 0, 0, 0, 0, 0⟩) →
      ∀ cls ∈ l, ∀ c, c = cls ∨ c = M.runtime.isa cls → ∀ m ∈ M.runtime.methodsOf c,
      (M.runtime.method m).imp ≠ 0 →
        image.containsAddress (M.runtime.method m).imp = false := by
    intro l
    induction l using List.reverseRecOn with
    | nil => exact fun _ cls hcls => absurd hcls List.not_mem_nil
    | append_singleton l last ih =>
      intro hfold
      rw [List.foldl_append, List.foldl_cons, List.foldl_nil] at hfold
      obtain ⟨hclass, hmeta⟩ := imageScanMethodCode_clear hfold
      obtain ⟨hrest, hown⟩ := imageScanMethodCode_clear hclass
      intro cls hcls c hc
      rcases List.mem_append.mp hcls with hcls | hcls
      · exact ih hrest cls hcls c hc
      · rw [List.mem_singleton.mp hcls] at hc
        rcases hc with rfl | rfl
        · exact hown
        · exact hmeta
  intro cls hreached m hm hne
  have hlt : ∀ c x, x ∈ M.runtime.methodsOf c → c < M.runtime.classCount := by
    intro c x hx
    by_contra hge
    unfold methodsOf at hx
    rw [hb c (not_lt.mp hge)] at hx
    cases hx
  -- the class in the table that leads to it
  obtain ⟨c, hc, hcls⟩ : ∃ c ∈ getClassList M, cls = c ∨ cls = M.runtime.isa c := by
    rcases hreached with hl | ⟨c, hc, hl, hisa⟩
    · exact ⟨cls, List.mem_filter.mpr ⟨List.mem_range.mpr (hlt cls m hm), hl⟩, .inl rfl⟩
    · exact ⟨c, List.mem_filter.mpr ⟨hc, hl⟩, .inr hisa.symm⟩
  unfold scanClasses at h
  split at h
  · next hnil =>
    rw [hnil] at hc
    cases hc
  · split at h
    · exact absurd h.complete Bool.false_ne_true
    · exact hlisted _ h c hc cls hcls m hm hne

/-- **A scan that counts nothing** has looked at these places. -/
theorem scan_clear {L : Layout} {σ : State} {allocated : Allocated} (hb : σ.runtime.Beyond)
    (h : scan image L σ allocated = ⟨true, 0, 0, 0, 0, 0⟩) :
    (∀ cls, σ.classes.Reached cls → ∀ m ∈ σ.runtime.methodsOf cls, (σ.runtime.method m).imp ≠ 0 →
      image.containsAddress (σ.runtime.method m).imp = false) ∧
    (∀ a ∈ blockReferences L σ, a ≠ 0 → image.containsAddress a = false) ∧
    (∀ e ∈ σ.tracing, 0 < e.1 → image.containsAddress e.2 = false) ∧
    (∀ a ∈ [σ.arc.newAutoreleasePool, σ.arc.deleteAutoreleasePool, σ.arc.autoreleaseAdd],
      image.containsAddress a = false) ∧
    ∀ hook, image.containsAddress (σ.hook hook) = false := by
  unfold scan at h
  simp only [Found.mk.injEq, Bool.and_eq_true, decide_eq_true_eq] at h
  obtain ⟨⟨hcomplete, hfits⟩, hexec, hhook, htracing, hcache, hblock⟩ := h
  rw [if_pos hfits] at hcache
  obtain ⟨hcache0, harc⟩ := Nat.add_eq_zero_iff.mp hcache
  refine ⟨?_, (countUpTo_eq_zero hblock).2, fun e he hpos => ?_, countIn_eq_zero harc, fun hook => ?_⟩
  · exact scanClasses_clear hb ⟨hcomplete, hexec, hcache0⟩
  · exact countIn_eq_zero htracing _
        (List.mem_map.mpr ⟨e, List.mem_filter.mpr ⟨he, by simpa using hpos⟩, rfl⟩)
  · refine countIn_eq_zero hhook _ (List.mem_map.mpr ⟨hook, ?_, rfl⟩)
    cases hook <;> decide

end Clear

/-! ## The invariant -/

/-- * `sourced`: every method in a table is in the lists of a class;
    * `tracing`: index 0 is not in use. -/
structure Inv (L : Layout) (σ : State) : Prop where
  beyond : σ.runtime.Beyond
  sourced : σ.runtime.Sourced
  tracing : ∀ e ∈ σ.tracing, 0 < e.1
  linear : σ.trampolines.Linear L
  apart : BlocksApart L σ.trampolines

section Runs

variable {T : SelectorTable} {L : Layout} {σ τ : State}

theorem Initial.inv (h : Initial σ) : Inv L σ where
  beyond cls _ := by
    rw [State.runtime, h.classes]
    rfl
  sourced cls t ht := by
    rw [State.runtime, h.classes] at ht
    cases ht
  tracing e he := by
    rw [h.tracing] at he
    cases he
  linear := h.trampolines.linear
  apart imp b hlive := by
    rw [h.trampolines.2.2 imp] at hlive
    cases hlive

theorem Inv.of_keeps (hI : Inv L σ) (h : Runtime.Keeps σ.runtime τ.runtime) (htracing : τ.tracing = σ.tracing)
    (htrampolines : τ.trampolines = σ.trampolines) : Inv L τ where
  beyond := h.beyond hI.beyond
  sourced := h.sourced hI.sourced
  tracing := htracing ▸ hI.tracing
  linear := htrampolines ▸ hI.linear
  apart := htrampolines ▸ hI.apart

/-- Tables that are thrown away. -/
theorem keeps_dropTables {σ : Runtime} {dtable : Class → Option Dtable}
    (h : ∀ cls t, dtable cls = some t → σ.dtable cls = some t) : Runtime.Keeps σ { σ with dtable } :=
  ⟨le_rfl, id, fun _ hm => hm, fun hs cls t ht => hs cls t (h cls t ht)⟩

theorem keeps_newClass_one {σ : Runtime} (hb : σ.Beyond) (isa : Class) (super : Option Class)
    (lists : List (List MethodId)) : Runtime.Keeps σ (newClass σ isa super lists) := by
  have hother : ∀ c, c ∉ [σ.classCount] → c ≠ σ.classCount := fun c hc => by simpa using hc
  have hnew : ∀ c ∈ [σ.classCount], c = σ.classCount := fun c hc => by simpa using hc
  apply keeps_newClass [σ.classCount] hb (fun c hc => (hnew c hc).ge) (Nat.le_succ _)
      (fun c hc => hnew c hc ▸ Nat.lt_succ_self _)
  · exact fun c hc => Function.update_of_ne (hother c hc) _ _
  · intro c hc
    rw [hnew c hc]
    exact Function.update_self ..
  · exact fun c hc => Function.update_of_ne (hother c hc) _ _

theorem keeps_duplicateMethodLists (lists : List (List MethodId)) : ∀ σ : Runtime,
    Runtime.Keeps σ (duplicateMethodLists σ lists).1 := by
  induction lists with
  | nil => exact Runtime.Keeps.refl
  | cons list lists ih => exact fun σ => (keeps_allocMethods σ _).trans (ih _)

theorem keeps_initHiddenClass (hI : Inv L σ) (superclass : Class) :
    Runtime.Keeps σ.runtime (initHiddenClass T σ superclass).runtime := by
  have hnew := keeps_newClass_one hI.beyond (σ.runtime.isa superclass) (some superclass) []
  have hmethod := hnew.trans
      (keeps_addMethod (T := T) (hnew.sourced hI.sourced) (Nat.lt_succ_self _) ".cxx_destruct"
    deallocHiddenClassImp (some destructTypes))
  exact hmethod.trans (keeps_of_eq rfl rfl rfl)

theorem keeps_duplicateClass (hI : Inv L σ) (original : Class) :
    Runtime.Keeps σ.runtime (duplicateClass σ original).runtime := by
  have hlists := keeps_duplicateMethodLists (σ.classes.runtime.methodLists original) σ.classes.runtime
  unfold duplicateClass
  dsimp only [State.runtime]
  generalize duplicateMethodLists σ.classes.runtime (σ.classes.runtime.methodLists original) = r at *
  generalize r.1.superClass original = super
  have hnew := hlists.trans (keeps_newClass_one (hlists.beyond hI.beyond) (r.1.isa original) super r.2)
  cases super with
  | none => exact hnew.trans (keeps_of_eq rfl rfl rfl)
  | some super => exact hnew.trans (keeps_of_eq rfl rfl rfl)

theorem keeps_disposeClassPair (σ : State) (cls : Class) :
    Runtime.Keeps σ.runtime (disposeClassPair σ cls).runtime := by
  unfold disposeClassPair
  dsimp only [State.runtime]
  have hmeta : Runtime.Keeps σ.classes.runtime (if σ.duplicate cls then σ.classes.runtime
      else σ.classes.runtime.removeFromSubclassList (σ.classes.runtime.isa cls)) := by
    split
    · exact Runtime.Keeps.refl _
    · exact keeps_removeFromSubclassList ..
  refine (hmeta.trans (keeps_removeFromSubclassList _ cls)).trans (keeps_dropTables fun c t ht => ?_)
  generalize (if σ.duplicate cls then [cls] else [cls, σ.classes.runtime.isa cls]) = gone at ht
  by_cases hc : c ∈ gone
  · rw [if_pos hc] at ht
    cases ht
  · rwa [if_neg hc] at ht

theorem Inv.block (hI : Inv L σ) {call : Blocks.Call} (hen : enabled T L σ (.block call)) :
    Inv L (next T L σ (.block call)) := by
  obtain ⟨hok, hapart⟩ := hen
  show Inv L { σ with trampolines := (σ.trampolines.perform L call).getD σ.trampolines }
  cases hperform : σ.trampolines.perform L call with
  | none => exact hI
  | some τ => exact ⟨hI.beyond, hI.sourced, hI.tracing, hI.linear.step hok hperform, hapart τ hperform⟩

/-- **What a call keeps.** -/
theorem Inv.next (hI : Inv L σ) {a : Action} (hen : enabled T L σ a) : Inv L (next T L σ a) := by
  cases a with
  | call op => exact hI.of_keeps (keeps_next σ.classes op hI.beyond hI.sourced hen.2) rfl rfl
  | permissiveReload old methods => exact hI.of_keeps (keeps_permissiveReload hI.sourced hen methods) rfl rfl
  | setSuperclass cls newSuper =>
    refine hI.of_keeps ?_ rfl rfl
    show Runtime.Keeps σ.runtime ((σ.runtime.setSuperclass T cls newSuper).getD σ.runtime)
    cases hset : σ.runtime.setSuperclass T cls newSuper with
    | none => exact Runtime.Keeps.refl _
    | some σ' => exact keeps_setSuperclass hI.sourced hset
  | initHiddenClass superclass => exact hI.of_keeps (keeps_initHiddenClass hI superclass) rfl rfl
  | deallocHiddenClass cls =>
    refine hI.of_keeps ((keeps_removeFromSubclassList _ cls).trans
        (keeps_dropTables fun c t ht => ?_)) rfl rfl
    by_cases hc : c = cls
    · rw [hc, Function.update_self] at ht
      cases ht
    · rwa [Function.update_of_ne hc] at ht
  | duplicateClass original => exact hI.of_keeps (keeps_duplicateClass hI original) rfl rfl
  | disposeClassPair cls => exact hI.of_keeps (keeps_disposeClassPair σ cls) rfl rfl
  | setClass cls isa => exact hI.of_keeps (keeps_of_eq rfl rfl rfl) rfl rfl
  | setHook hook address => exact hI.of_keeps (Runtime.Keeps.refl _) rfl rfl
  | registerTracingHook indices address =>
    refine ⟨hI.beyond, hI.sourced, fun e he => ?_, hI.linear, hI.apart⟩
    rcases List.mem_append.mp he with he | he
    · obtain ⟨i, hi, rfl⟩ := List.mem_map.mp he
      exact hen i hi
    · exact hI.tracing e (List.mem_filter.mp he).1
  | initAutorelease cached => exact hI.of_keeps (Runtime.Keeps.refl _) rfl rfl
  | block call => exact hI.block hen
  | newDescriptor descriptor => exact hI.of_keeps (Runtime.Keeps.refl _) rfl rfl

theorem Reachable.inv (h : Reachable T L σ) : Inv L σ := by
  obtain ⟨σ₀, h₀, hrun⟩ := h
  exact hrun.invariant h₀.inv fun _ _ _ hI ⟨hen, heq⟩ => heq ▸ hI.next hen

/-! ## Reports without blockers -/

/-- The header of a live IMP is one of those whose references are counted. -/
theorem Inv.snapshot (hI : Inv L σ) {imp b header : ℕ} (hlive : σ.trampolines.live imp = some b)
    (hheader : σ.trampolines.OwnsHeader L imp header) :
    σ.trampolines.block header = b ∧ ∀ a ∈ blockSnapshot σ header, a ∈ blockReferences L σ := by
  obtain ⟨hne, r, hr, i, hi, himp, hblock⟩ := hI.linear.owns imp b hlive
  obtain ⟨s, -, j, -, himp', rfl⟩ := hheader
  have hsame : Trampolines.header L s j = Trampolines.header L r i := by
    rw [himp, Trampolines.code_eq_header, Trampolines.code_eq_header] at himp'
    exact (Nat.add_right_cancel himp').symm
  rw [hsame]
  refine ⟨hblock, fun a ha =>
      List.mem_flatMap.mpr ⟨r, hr, List.mem_flatMap.mpr ⟨i, List.mem_range.mpr hi, ?_⟩⟩⟩
  have hused : blockHeaderIsFree L r b = false := by
    have hout := hI.apart imp b hlive r hr
    unfold blockHeaderIsFree
    simp only [Bool.or_eq_false_iff, decide_eq_false_iff_not, Bool.and_eq_false_iff]
    exact ⟨hne, hout.imp (fun h => not_le.mpr h) fun h => by omega⟩
  dsimp only
  rw [hblock, hused]
  exact ha

/-- In every state that a program reaches, and for every image: after a report without blockers, no code that
    the runtime can call is in the image if and only if no method of a class to which the class table does not
    lead is. -/
theorem unloadReport_conservative_iff (h : Reachable T L σ) (image : Record) (allocated : Allocated)
    (before after : ℕ)
    (hclear : (unloadReport image (scan image L σ allocated) before after).blockers = []) :
    Unreachable L σ image ↔ UnlistedOutside σ image := by
  have hI := h.inv
  have hreport := unloadReport_clear hclear
  obtain ⟨hlisted, hblocks, htracing, harc, hhooks⟩ := scan_clear hI.beyond hreport.found
  have hnull : image.containsAddress 0 = false := by
    have := hreport.known
    simp [Record.containsAddress, this.1]
  refine ⟨fun hout cls _ m _ hm => hout.methods m hm, fun hout => ?_⟩
  have hblock : ∀ a ∈ blockReferences L σ, image.containsAddress a = false := by
    intro a ha
    by_cases hzero : a = 0
    · rw [hzero]
      exact hnull
    · exact hblocks a ha hzero
  refine ⟨fun m hm => ?_, fun imp b hlive => ?_, fun e he =>
      htracing e he (hI.tracing e he), by simpa using harc, hhooks⟩
  · -- the method is in the lists of a class
    obtain ⟨owner, howner⟩ : σ.runtime.InLists m := by
      obtain ⟨cls, -, -, hlist | ⟨t, key, ht, hentry⟩⟩ := hm
      · exact ⟨cls, hlist⟩
      · exact hI.sourced cls t ht key m hentry
    by_cases hreached : σ.classes.Reached owner
    · by_cases hzero : (σ.runtime.method m).imp = 0
      · rw [hzero]
        exact hnull
      · exact hlisted owner hreached m howner hzero
    · exact hout owner hreached m howner hm
  · have hsnap := fun header hheader => @Inv.snapshot L σ hI imp b header hlive hheader
    obtain ⟨-, r, hr, i, hi, himp, -⟩ := hI.linear.owns imp b hlive
    obtain ⟨hheaderBlock, hrefs⟩ := hsnap _ ⟨r, hr, i, hi, himp, rfl⟩
    refine ⟨hblock b (hrefs b ?_), fun layout hlayout => hblock _ (hrefs _ ?_), fun header hheader => ?_⟩
    · simp [blockSnapshot, hheaderBlock]
    · rw [Option.mem_def] at hlayout
      simp [blockSnapshot, hheaderBlock, hlayout]
    · exact hblock _ ((hsnap header hheader).2 _ (by simp [blockSnapshot]))

end Runs

/-! ## A method of one object -/

/-- No class, no hook and no trampoline. -/
def noCode : State where
  classes := Machine.start
  hidden := fun _ => false
  duplicate := fun _ => false
  freed := fun _ => false
  hook := fun _ => 0
  tracing := []
  arc := ⟨0, 0, 0⟩
  trampolines := Trampolines.noTrampolines
  descriptor := fun _ => []

/-- A class is loaded, and one of its objects gets a method. -/
def methodOfObject : List Action :=
  [.call (.loadClass none [⟨"init", "@16@0:8", 64⟩] [⟨"alloc", "@16@0:8", 80⟩]), .initHiddenClass 0,
    .call (.addMethod 2 "run" 4096 (some "v16@0:8"))]

def withMethodOfObject : State := runList (next (SelectorTable.coded id) Trampolines.x64) noCode
    methodOfObject

/-- The image that the implementation is in has been retired, and nothing is in its sections. -/
def retiredImage : Record := ⟨.zero, 1, none, none, 4096, 16, .retired, .zero⟩

theorem withMethodOfObject_reachable :
    Reachable (SelectorTable.coded id) Trampolines.x64 withMethodOfObject := by
  refine ⟨noCode, ⟨rfl, rfl, rfl, rfl, fun _ => rfl⟩,
      runs_of_allOk methodOfObject noCode ⟨?_, ?_, ?_, trivial⟩⟩
  · exact ⟨by decide, by decide⟩
  · exact ⟨by decide, by decide⟩
  · exact ⟨by decide +kernel, by decide +kernel⟩

theorem withMethodOfObject_clear :
    (unloadReport retiredImage (scan retiredImage Trampolines.x64 withMethodOfObject
    ⟨true, fun _ => true, fun _ => true⟩) 2 2).blockers = [] := by
  decide +kernel

theorem withMethodOfObject_reached : ¬ Unreachable Trampolines.x64 withMethodOfObject retiredImage := by
  intro h
  have hin : 3 ∈ withMethodOfObject.runtime.methodsOf 2 := by decide +kernel
  have himp : retiredImage.containsAddress (withMethodOfObject.runtime.method 3).imp =
      true := by decide +kernel
  have hlt : 2 < withMethodOfObject.runtime.classCount := by decide +kernel
  rw [h.methods 3 ⟨2, hlt, rfl, .inl hin⟩] at himp
  cases himp

/-- The class of the object is hidden, and its method is in the image. -/
theorem unloadReport_conservative_iff_hidden : ¬ UnlistedOutside withMethodOfObject retiredImage :=
  fun h => withMethodOfObject_reached
      ((unloadReport_conservative_iff withMethodOfObject_reachable retiredImage
    ⟨true, fun _ => true, fun _ => true⟩ 2 2 withMethodOfObject_clear).mpr h)

/-- A report without blockers for an image with the method of an object. -/
theorem hidden_class_unreported : ¬ ∀ σ, Reachable (SelectorTable.coded id) Trampolines.x64 σ →
    ∀ (image : Record) (allocated : Allocated) (before after : ℕ),
      (unloadReport image (scan image Trampolines.x64 σ allocated) before after).blockers = [] →
        Unreachable Trampolines.x64 σ image :=
  fun h => withMethodOfObject_reached (h withMethodOfObject withMethodOfObject_reachable retiredImage
    ⟨true, fun _ => true, fun _ => true⟩ 2 2 withMethodOfObject_clear)

end Libobjc2.Images.UnloadReports
