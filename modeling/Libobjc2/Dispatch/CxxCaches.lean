import Mathlib.Data.List.Find
import Libobjc2.Common.Run
import Libobjc2.Dispatch.Steps

/-!
# The cached C++ constructors and destructors

`cxx_construct` and `cxx_destruct` of a class are meant to be the implementations of the first methods
of these names in its own method lists. They are written by `class_addMethod` and
`class_replaceMethod`, by `objc_registerClassPair`, by the installation of methods in dispatch tables
(src/dispatch/dtable.c, lines 423–435), by `objc_refresh_cxx_method_caches` and by the safe reload.

Class pairs are numbered as they come into being, allocated by the program or with an image. A class
is `listed` when it is in the class table; the refresh of the caches goes through the listed classes
and their metaclasses. A message to a class resolves it and creates the tables of its superclasses
first; here each of them is a step of its own.

Results:
* `installAll_caches`, `createDtable_caches`: what installing methods writes.
* `Inv.next`, `Inv.of_runs`: one call, and the runs.
* `cxxCaches_exact`: the caches are exact in every state of the runs in which no shadowed method is
  written, and objects are constructed and destructed accordingly.
* `late_destructor_not_cached`: a category for a class that has its table.
-/

namespace Libobjc2.Dispatch.CxxCaches

open Libobjc2.Common Libobjc2.Dispatch.Runtime

/-! ## Model -/

inductive CxxName where
  | construct
  | destruct
  deriving DecidableEq

instance (p : CxxName → Prop) [DecidablePred p] : Decidable (∀ N, p N) :=
  decidable_of_iff (p .construct ∧ p .destruct)
  ⟨fun h N => by cases N; exacts [h.1, h.2], fun h => ⟨h _, h _⟩⟩

def CxxName.text : CxxName → String
  | .construct => ".cxx_construct"
  | .destruct => ".cxx_destruct"

def cxxCache (σ : Runtime) : CxxName → Class → Option Imp
  | .construct => σ.cxxConstruct
  | .destruct => σ.cxxDestruct

/-- The classes, the class table, the `objc_class_flag_resolved` flags, and which classes came with an
    image. -/
structure Machine where
  runtime : Runtime
  listed : Class → Bool
  resolved : Class → Bool
  fromImage : Class → Bool

/-- Before any class is there. -/
def Machine.start : Machine where
  runtime := {
    classCount := 0
    superClass := fun _ => none
    isa := id
    isMeta := fun _ => false
    subclassList := fun _ => []
    methodLists := fun _ => []
    method := fun _ => ⟨"", "", 0⟩
    nextMethod := 0
    dtable := fun _ => none
    cacheVersion := 0
    cxxConstruct := fun _ => none
    cxxDestruct := fun _ => none
    fastArc := fun _ => false
    fastAllocInit := fun _ => false }
  listed := fun _ => false
  resolved := fun _ => false
  fromImage := fun _ => false

/-- A class pair comes into being, with these method lists and otherwise zeroed. -/
def newPair (σ : Runtime) (super : Option Class) (lists metaLists : List (List MethodId)) : Runtime :=
  let cls := σ.classCount
  let metaclass := cls + 1
  { σ with
    classCount := cls + 2
    superClass := Function.update (Function.update σ.superClass cls super) metaclass
        (some (super.elim cls σ.isa))
    isa := Function.update (Function.update σ.isa cls metaclass) metaclass (super.elim metaclass σ.isa)
    isMeta := Function.update (Function.update σ.isMeta cls false) metaclass true
    subclassList := Function.update (Function.update σ.subclassList cls []) metaclass []
    methodLists := Function.update (Function.update σ.methodLists cls lists) metaclass metaLists
    dtable := Function.update (Function.update σ.dtable cls none) metaclass none
    cxxConstruct := Function.update (Function.update σ.cxxConstruct cls none) metaclass none
    cxxDestruct := Function.update (Function.update σ.cxxDestruct cls none) metaclass none }

/-- `objc_allocateClassPair` (runtime.c, lines 1070–1123) for a name that is not taken. -/
def allocateClassPair (M : Machine) (super : Option Class) : Machine :=
  { M with runtime := newPair M.runtime super [] [] }

/-- A class of an image, and `objc_load_class` (class_table.c, lines 958–1008) for a name that is not
    taken: the compiler leaves the caches NULL. -/
def loadClass (M : Machine) (super : Option Class) (methods classMethods : List Method) : Machine :=
  let (σ, list) := M.runtime.allocMethods methods
  let (σ, metaList) := σ.allocMethods classMethods
  { M with
    runtime := newPair σ super [list] [metaList]
    listed := Function.update M.listed σ.classCount true
    fromImage := Function.update (Function.update M.fromImage σ.classCount true) (σ.classCount + 1) true }

/-- The `isa` of the root class above `cls` (class_table.c, lines 371–375). -/
def rootIsa (σ : Runtime) : ℕ → Class → Class
  | 0, cls => σ.isa cls
  | fuel + 1, cls => (σ.superClass cls).elim (σ.isa cls) (rootIsa σ fuel)

/-- The links that `objc_resolve_class` sets (class_table.c, lines 345–399). -/
def linkClass (σ : Runtime) (cls : Class) : Runtime :=
  let metaclass := σ.isa cls
  let superMeta := (σ.superClass cls).elim cls σ.isa
  let metaMeta := rootIsa σ σ.classCount cls
  let σ := match σ.superClass cls with
    | none => σ
    | some super =>
        { σ with subclassList := Function.update σ.subclassList super (cls :: σ.subclassList super) }
  { σ with
    superClass := Function.update σ.superClass metaclass (some superMeta)
    isa := Function.update σ.isa metaclass metaMeta
    subclassList := Function.update σ.subclassList superMeta (metaclass :: σ.subclassList superMeta) }

/-- `objc_resolve_class` (class_table.c, lines 302–420). -/
def resolveClass : ℕ → Class → Machine → Machine
  | 0, _, M => M
  | fuel + 1, cls, M =>
    if M.resolved cls then M
    else
      let M := (M.runtime.superClass cls).elim M fun super => resolveClass fuel super M
      { M with
        runtime := linkClass M.runtime cls
        resolved := Function.update (Function.update M.resolved cls true) (M.runtime.isa cls) true }

def Machine.resolve (M : Machine) (cls : Class) : Machine := resolveClass (M.runtime.classCount + 1) cls M

/-- `rebuild_cxx_method_caches` (runtime.c, lines 178–199), which is `refresh_reload_cxx_cache` again. -/
def rebuildCxxMethodCaches (σ : Runtime) (cls : Class) : Runtime := σ.refreshReloadCxxCache cls

/-- `objc_registerClassPair` (runtime.c, lines 1162–1197), less the instance variables. -/
def registerClassPair (M : Machine) (cls : Class) : Machine :=
  Machine.resolve { M with
    runtime := rebuildCxxMethodCaches (rebuildCxxMethodCaches M.runtime cls) (M.runtime.isa cls)
    listed := Function.update M.listed cls true } cls

/-- The classes that `objc_refresh_cxx_method_caches` goes through. -/
def Machine.Reached (M : Machine) (cls : Class) : Prop :=
  M.listed cls ∨ ∃ c ∈ List.range M.runtime.classCount, M.listed c ∧ M.runtime.isa c = cls

instance (M : Machine) (cls : Class) : Decidable (M.Reached cls) := inferInstanceAs (Decidable (_ ∨ _))

/-- `objc_refresh_cxx_method_caches` (dtable.c, lines 660–695). -/
def refreshCxxMethodCaches (M : Machine) (m : MethodId) : Machine :=
  let σ := M.runtime
  let refreshed (cache : Class → Option Imp) : Class → Option Imp := fun cls =>
    if m ∈ σ.methodsOf cls ∧ M.Reached cls then some (σ.method m).imp else cache cls
  if (σ.method m).name = ".cxx_construct" then
    { M with runtime := { σ with cxxConstruct := refreshed σ.cxxConstruct } }
  else if (σ.method m).name = ".cxx_destruct" then
    { M with runtime := { σ with cxxDestruct := refreshed σ.cxxDestruct } }
  else M

inductive Op where
  | allocateClassPair (super : Option Class)
  | loadClass (super : Option Class) (methods classMethods : List Method)
  | registerClassPair (cls : Class)
  | sendInitialize (cls : Class)
  | addMethod (cls : Class) (name : String) (imp : Imp) (types : Option String)
  | replaceMethod (cls : Class) (name : String) (imp : Imp) (types : Option String)
  | setImplementation (m : MethodId) (imp : Imp)
  | exchangeImplementations (m₁ m₂ : MethodId)
  | registerMethods (cls : Class) (list : List Method)
  | safeReload (canonical : Class) (instanceMethods classMethods : List Method)

section Next

variable (T : SelectorTable)

def next (M : Machine) : Op → Machine
  | .allocateClassPair super => allocateClassPair M super
  | .loadClass super methods classMethods => loadClass M super methods classMethods
  | .registerClassPair cls => registerClassPair M cls
  | .sendInitialize cls =>
    let M := M.resolve cls
    { M with runtime := (M.runtime.initializePair T cls).getD M.runtime }
  | .addMethod cls name imp types => { M with runtime := (M.runtime.addMethod T cls name imp types).1 }
  | .replaceMethod cls name imp types =>
      { M with runtime := (M.runtime.replaceMethod T cls name imp types).1 }
  | .setImplementation m imp => refreshCxxMethodCaches { M with runtime := M.runtime.setImp m imp } m
  | .exchangeImplementations m₁ m₂ =>
    let first := (M.runtime.method m₁).imp
    let second := (M.runtime.method m₂).imp
    let M := { M with runtime := (M.runtime.setImp m₁ second).setImp m₂ first }
    refreshCxxMethodCaches (refreshCxxMethodCaches M m₁) m₂
  | .registerMethods cls list => { M with runtime := M.runtime.registerMethods T cls list }
  | .safeReload canonical instanceMethods classMethods =>
    { M with runtime := M.runtime.safeReload T canonical instanceMethods classMethods }

/-- The calls that a program can make: the classes are there, and the runtime does not abort. -/
def enabled (M : Machine) : Op → Prop
  | .allocateClassPair super => ∀ s ∈ super, s < M.runtime.classCount ∧ M.runtime.isMeta s = false
  | .loadClass super _ _ => ∀ s ∈ super, s < M.runtime.classCount ∧ M.runtime.isMeta s = false
  | .registerClassPair cls => cls < M.runtime.classCount ∧ M.runtime.isMeta cls = false ∧ M.listed cls = false
  | .sendInitialize cls =>
    cls < M.runtime.classCount ∧ M.runtime.isMeta cls = false ∧
      ((M.resolve cls).runtime.initializePair T cls).isSome
  | .addMethod cls _ _ _ => cls < M.runtime.classCount
  | .replaceMethod cls _ _ _ => cls < M.runtime.classCount
  | .setImplementation m _ => m < M.runtime.nextMethod
  | .exchangeImplementations m₁ m₂ => m₁ < M.runtime.nextMethod ∧ m₂ < M.runtime.nextMethod
  | .registerMethods cls _ => M.Reached cls
  | .safeReload canonical _ _ => M.listed canonical

instance (M : Machine) (op : Op) : Decidable (enabled T M op) := by
  cases op <;> unfold enabled <;> infer_instance

end Next

/-- `call_cxx_destruct` (runtime.c, lines 37–56): what is called for an object of the class. -/
def callCxxDestruct (σ : Runtime) : ℕ → Class → List Imp
  | 0, _ => []
  | fuel + 1, cls => (σ.cxxDestruct cls).toList ++ (σ.superClass cls).elim [] (callCxxDestruct σ fuel)

/-- `call_cxx_construct_for_class` (runtime.c, lines 58–72). -/
def callCxxConstruct (σ : Runtime) : ℕ → Class → List Imp
  | 0, _ => []
  | fuel + 1, cls => (σ.superClass cls).elim [] (callCxxConstruct σ fuel) ++ (σ.cxxConstruct cls).toList

/-! ## Specification -/

/-- The implementation of the first method of the name. -/
def firstImp (σ : Runtime) (N : CxxName) (cls : Class) : Option Imp :=
  (σ.firstNamed cls N.text).map fun m => (σ.method m).imp

/-- A class of an image that has no dispatch table yet; the compiler left its caches NULL. -/
def Machine.Awaiting (M : Machine) (cls : Class) : Prop := M.fromImage cls ∧ M.runtime.dtable cls = none

/-- A cache is exact, or still what the compiler left. -/
def Machine.ExactAt (M : Machine) (N : CxxName) (cls : Class) : Prop :=
  cxxCache M.runtime N cls = firstImp M.runtime N cls ∨ M.Awaiting cls ∧ cxxCache M.runtime N cls = none

/-- The caches of the classes outside `S` are exact. -/
def Machine.ExactOff (S : Class → Prop) (M : Machine) : Prop := ∀ N cls, ¬ S cls → M.ExactAt N cls

section Conditions

variable (T : SelectorTable)

/-- The last method of the name among `ms`. -/
def lastNamed (σ : Runtime) (N : CxxName) (ms : List MethodId) : Option MethodId :=
  ms.reverse.find? fun m => (σ.method m).name = N.text

/-- Of the methods that a table of `cls` takes in, the last of each name has the implementation of the
    first in the method lists. -/
def Follows (σ : Runtime) (cls : Class) (ms : List MethodId) : Prop :=
  ∀ N, ∀ m ∈ lastNamed σ N ms, some (σ.method m).imp = firstImp σ N cls

instance (σ : Runtime) (cls : Class) (ms : List MethodId) : Decidable (Follows σ cls ms) :=
  inferInstanceAs (Decidable (∀ N, ∀ m ∈ lastNamed σ N ms, _))

/-- The table that `create_dtable_for_class` copies. -/
def superTable (σ : Runtime) (cls : Class) (root : Dtable) : Option Dtable :=
  (σ.superClass cls).map fun super => (σ.dtable super).getD root

/-- The methods of `ms` that go into a new table, which is `t` so far. -/
def installedIn (method : MethodId → Method) (sup : Option Dtable) : Dtable → List MethodId → List MethodId
  | _, [] => []
  | t, m :: ms =>
    if Installs T method sup t m then m :: installedIn method sup (t.put T (method m) m) ms
    else installedIn method sup t ms

/-- The methods of a class that go into its new table. -/
def createdFrom (σ : Runtime) (cls : Class) (root : Dtable) : List MethodId :=
  installedIn T σ.method (superTable σ cls root) ((superTable σ cls root).getD fun _ => none)
  (σ.methodsOf cls)

/-- A new table takes in the first method of each of the two names, unless it is cached already. -/
def CreateOk (σ : Runtime) (cls : Class) (root : Dtable) : Prop :=
  Follows σ cls (createdFrom T σ cls root) ∧
  ∀ N, lastNamed σ N (createdFrom T σ cls root) = none →
    σ.firstNamed cls N.text = none ∨ cxxCache σ N cls ≠ none

instance (σ : Runtime) (cls : Class) (root : Dtable) : Decidable (CreateOk T σ cls root) :=
  inferInstanceAs (Decidable (_ ∧ _))

/-- The same for the tables of a class and, if it has none, of its metaclass. -/
def InitializeOk (σ : Runtime) (cls : Class) : Prop :=
  σ.dtable cls = none → CreateOk T σ cls (fun _ => none) ∧
    ∀ r ∈ σ.createDtableForClass T cls (fun _ => none), r.1.dtable (σ.isa cls) = none →
      CreateOk T r.1 (σ.isa cls) r.2

instance (σ : Runtime) (cls : Class) : Decidable (InitializeOk T σ cls) :=
  inferInstanceAs (Decidable (_ = none → _ ∧ ∀ r ∈ _, _ → _))

/-- The methods of a new list that go into the table `t` of their class. -/
def takenFrom (σ : Runtime) (cls : Class) (t : Dtable) (list : List MethodId) : List MethodId :=
  (σ.addedMethods T list).filter fun m => Installs T σ.method ((σ.superClass cls).map σ.dtableForClass) t m

/-- A method list is added to a class. If it changes what the first implementation of a name is, the
    class has a table, which takes this implementation in, or no cache is there yet. -/
def CategoryOk (M : Machine) (cls : Class) (list : List Method) : Prop :=
  let σ := M.runtime
  let τ := σ.pushed cls list
  match σ.dtable cls with
  | some t =>
    Follows τ cls (takenFrom T τ cls t (σ.allocMethods list).2) ∧
    ∀ N, lastNamed τ N (takenFrom T τ cls t (σ.allocMethods list).2) = none →
    firstImp τ N cls = firstImp σ N cls
  | none => ∀ N, firstImp τ N cls = firstImp σ N cls ∨ M.fromImage cls ∧ cxxCache σ N cls = none

/-- A method of the two names is the first of its name in the class that has it if the class table leads
    to this class, and otherwise it is not. -/
def Unshadowed (M : Machine) (m : MethodId) : Prop :=
  ∀ (N : CxxName) cls, m ∈ M.runtime.methodsOf cls → (M.runtime.method m).name = N.text →
    (M.Reached cls ↔ M.runtime.firstNamed cls N.text = some m)

/-- What keeps the caches exact. -/
def CacheOk (M : Machine) : Op → Prop
  | .allocateClassPair _ => True
  | .loadClass _ _ _ => True
  | .registerClassPair _ => True
  | .sendInitialize cls => InitializeOk T (M.resolve cls).runtime cls
  | .addMethod _ _ _ _ => True
  | .replaceMethod cls name _ types =>
    ∀ N : CxxName, name = N.text → ∀ m ∈ M.runtime.getInstanceMethodNonrecursive T cls ⟨name, types⟩,
      M.runtime.firstNamed cls name = some m
  | .setImplementation m _ => Unshadowed M m
  | .exchangeImplementations m₁ m₂ => Unshadowed M m₁ ∧ Unshadowed M m₂
  | .registerMethods cls list => CategoryOk T M cls list
  | .safeReload _ _ _ => True

end Conditions

/-! ## What installing writes -/

variable {T : SelectorTable}

theorem cxxCache_updateCxxMethodCache (σ : Runtime) (cls : Class) (name : String) (imp : Imp) (N : CxxName)
    (c : Class) : cxxCache (σ.updateCxxMethodCache cls name imp) N c =
      if N.text = name ∧ c = cls then some imp else cxxCache σ N c := by
  unfold updateCxxMethodCache
  cases N with
  | construct =>
    by_cases h : name = ".cxx_construct"
    · simp [h, cxxCache, CxxName.text, Function.update_apply]
    · rw [if_neg h, if_neg (fun hh : CxxName.construct.text = name ∧ _ => h hh.1.symm)]
      split <;> rfl
  | destruct =>
    by_cases h : name = ".cxx_destruct"
    · simp [h, cxxCache, CxxName.text, Function.update_apply]
    · rw [if_neg (fun hh : CxxName.destruct.text = name ∧ _ => h hh.1.symm), if_neg h]
      split <;> rfl

/-- The same classes and methods, and the same caches. -/
structure SameCaches (σ σ' : Runtime) : Prop extends SameClasses σ σ' where
  cache : ∀ N cls, cxxCache σ' N cls = cxxCache σ N cls

theorem SameCaches.refl (σ : Runtime) : SameCaches σ σ := ⟨SameClasses.refl σ, fun _ _ => rfl⟩

theorem SameCaches.trans {σ τ υ : Runtime} (h : SameCaches σ τ) (h' : SameCaches τ υ) : SameCaches σ υ :=
  ⟨h.toSameClasses.trans h'.toSameClasses, fun N cls => (h'.cache N cls).trans (h.cache N cls)⟩

theorem sameCaches_setDtable (σ : Runtime) (cls : Class) (t : Dtable) : SameCaches σ (σ.setDtable cls t) :=
  ⟨sameClasses_setDtable σ cls t, fun N _ => by cases N <;> rfl⟩

theorem sameCaches_bump (σ : Runtime) : SameCaches σ σ.bumpCacheVersion :=
  ⟨sameClasses_bump σ, fun N _ => by cases N <;> rfl⟩

theorem sameCaches_checkARCAccessors (σ : Runtime) (cls : Class) :
    SameCaches σ (σ.checkARCAccessors T cls) := by
  obtain ⟨arc, fast, h⟩ := checkARCAccessors_eq T σ cls
  rw [h]
  exact ⟨⟨rfl, rfl, rfl, rfl, rfl, rfl, rfl, rfl⟩, fun N _ => by cases N <;> rfl⟩

/-- Outside the two indices of a method, the tables are the same. -/
def EntriesOff (T : SelectorTable) (method : Method) (σ σ' : Runtime) : Prop :=
  ∀ c key, key ≠ T.typed method → key ≠ T.untyped method.name →
    (σ'.dtable c).map (· key) = (σ.dtable c).map (· key)

theorem EntriesOff.trans {method : Method} {σ τ υ : Runtime} (h : EntriesOff T method σ τ)
    (h' : EntriesOff T method τ υ) : EntriesOff T method σ υ :=
  fun c key hk hk' => (h' c key hk hk').trans (h c key hk hk')

theorem EntriesOff.live {method : Method} {σ τ : Runtime} (h : EntriesOff T method σ τ) : SameLive σ τ := by
  intro c
  have := h c (T.typed method + T.untyped method.name + 1) (by omega) (by omega)
  cases hσ : σ.dtable c <;> cases hτ : τ.dtable c <;> simp_all

theorem put_off {method : Method} {m : MethodId} {t : Dtable} {key : ℕ} (hk : key ≠ T.typed method)
    (hk' : key ≠ T.untyped method.name) : t.put T method m key = t key := by
  unfold Dtable.put Dtable.insert
  rw [Function.update_of_ne hk', Function.update_of_ne hk]

/-- `installMethodInDtable` when it replaces the entry that it is told to replace. -/
theorem installMethodInDtable_eq {σ : Runtime} (fuel : ℕ) (cls : Class) (updateCxxCache : Bool) {t : Dtable}
    {m : MethodId} (himp : (t (T.typed (σ.method m))).map (fun old => (σ.method old).imp) ≠
      some (σ.method m).imp) :
    σ.installMethodInDtable T (fuel + 1) cls t m (t (T.typed (σ.method m))) true updateCxxCache =
      (let σ₁ := if updateCxxCache then σ.updateCxxMethodCache cls (σ.method m).name (σ.method m).imp else σ
       let τ := σ₁.installInSubclasses T fuel cls m (t (T.typed (σ.method m)))
       (if t (T.typed (σ.method m)) = none then τ else τ.bumpCacheVersion, t.put T (σ.method m) m,
         true)) := by
  rw [installMethodInDtable]
  simp only [ne_eq, not_true_eq_false, decide_false, Bool.and_false, Bool.false_eq_true, if_false,
    Bool.not_true, Bool.false_and, himp]
  rfl

/-- An installation that keeps all caches, and the entries of the table `t` at other indices. -/
def KeepsCaches (T : SelectorTable) (method : Method) (σ : Runtime) (t : Dtable)
    (r : Runtime × Dtable × Bool) : Prop :=
  SameCaches σ r.1 ∧ EntriesOff T method σ r.1 ∧
    ∀ key, key ≠ T.typed method → key ≠ T.untyped method.name → r.2.1 key = t key

theorem foldl_installStep_caches {m : MethodId} {fuel : ℕ} (old : Option MethodId)
    (ih : ∀ σ cls t, KeepsCaches T (σ.method m) σ t (σ.installMethodInDtable T fuel cls t m old true false))
    {σ : Runtime} (l : List Class) {τ : Runtime} (hτ : SameCaches σ τ)
    (hoff : EntriesOff T (σ.method m) σ τ) :
    SameCaches σ (l.foldl (installStep T fuel m old) τ) ∧
      EntriesOff T (σ.method m) σ (l.foldl (installStep T fuel m old) τ) := by
  induction l generalizing τ with
  | nil => exact ⟨hτ, hoff⟩
  | cons e l ihl =>
    rw [List.foldl_cons]
    cases ht : τ.dtable e with
    | none =>
      rw [installStep_none ht]
      exact ihl hτ hoff
    | some te =>
      obtain ⟨hsame, hoff', htable⟩ := ih τ e te
      rw [hτ.method] at hoff' htable
      rw [installStep_some ht]
      refine ihl ((hτ.trans hsame).trans (sameCaches_setDtable ..)) (hoff.trans fun c key hk hk' => ?_)
      unfold Runtime.setDtable
      dsimp only
      by_cases hce : c = e
      · subst hce
        rw [ht, Function.update_self]
        exact congrArg some (htable key hk hk')
      · rw [Function.update_of_ne hce]
        exact hoff' c key hk hk'

/-- A method that goes into the table of a subclass is no method of the subclass: caches stay as they are. -/
theorem installMethodInDtable_caches (m : MethodId) (fuel : ℕ) : ∀ (σ : Runtime) (cls : Class) (t : Dtable)
    (repl : Option MethodId),
    KeepsCaches T (σ.method m) σ t (σ.installMethodInDtable T fuel cls t m repl true false) := by
  induction fuel with
  | zero => exact fun σ _ _ _ => ⟨SameCaches.refl σ, fun _ _ _ _ => rfl, fun _ _ _ => rfl⟩
  | succ fuel ih =>
    intro σ cls t repl
    by_cases hskip : repl ≠ t (T.typed (σ.method m)) ∨
        (t (T.typed (σ.method m))).map (fun old => (σ.method old).imp) = some (σ.method m).imp
    · rw [installMethodInDtable_skip hskip]
      exact ⟨SameCaches.refl σ, fun _ _ _ _ => rfl, fun _ _ _ => rfl⟩
    · obtain ⟨hrepl, himp⟩ := not_or.mp hskip
      rw [not_not.mp hrepl, installMethodInDtable_eq fuel cls false himp]
      have hsub := foldl_installStep_caches (t (T.typed (σ.method m))) (fun σ cls t => ih σ cls t _)
        (σ.subclassList cls) (SameCaches.refl σ) fun _ _ _ _ => rfl
      refine ⟨?_, ?_, fun key hk hk' => put_off hk hk'⟩
      · dsimp only
        split
        · exact hsub.1
        · exact hsub.1.trans (sameCaches_bump _)
      · dsimp only
        split <;> exact hsub.2

/-- The recursion over subclasses keeps all caches. -/
theorem installInSubclasses_caches (m : MethodId) (fuel : ℕ) (σ : Runtime) (cls : Class)
    (old : Option MethodId) :
    SameCaches σ (σ.installInSubclasses T fuel cls m old) ∧
      EntriesOff T (σ.method m) σ (σ.installInSubclasses T fuel cls m old) :=
  foldl_installStep_caches old (fun σ cls t => installMethodInDtable_caches m fuel σ cls t old)
  (σ.subclassList cls)
    (SameCaches.refl σ) fun _ _ _ _ => rfl

/-- The same classes and methods; the caches of `cls` have become those that `write` makes of them. -/
structure Writes (cls : Class) (write : CxxName → Option Imp → Option Imp) (σ σ' : Runtime) : Prop
    extends SameClasses σ σ' where
  cache : ∀ N c, cxxCache σ' N c = if c = cls then write N (cxxCache σ N c) else cxxCache σ N c
  live : SameLive σ σ'

/-- What the installation of a method writes. -/
def writeOne (method : MethodId → Method) (m : MethodId) (N : CxxName) (cached : Option Imp) : Option Imp :=
  if N.text = (method m).name then some (method m).imp else cached

/-- A method is installed in a class, with its subclasses. -/
theorem writes_install (σ : Runtime) (fuel : ℕ) (cls : Class) (t : Dtable) (m : MethodId)
    (himp : (t (T.typed (σ.method m))).map (fun old => (σ.method old).imp) ≠ some (σ.method m).imp) :
    ∃ σ', σ.installMethodInDtable T (fuel + 1) cls t m (t (T.typed (σ.method m))) true true =
        (σ', t.put T (σ.method m) m, true) ∧
      Writes cls (writeOne σ.method m) σ σ' ∧ EntriesOff T (σ.method m) σ σ' := by
  rw [installMethodInDtable_eq fuel cls true himp]
  set σ₁ := σ.updateCxxMethodCache cls (σ.method m).name (σ.method m).imp with hσ₁
  have htables : SameTables σ σ₁ := sameTables_updateCxxMethodCache ..
  obtain ⟨hsame, hoff⟩ := installInSubclasses_caches (T := T) m fuel σ₁ cls (t (T.typed (σ.method m)))
  rw [htables.method] at hoff
  set τ := σ₁.installInSubclasses T fuel cls m (t (T.typed (σ.method m))) with hτ
  have hbump : SameCaches τ (if t (T.typed (σ.method m)) = none then τ else τ.bumpCacheVersion) := by
    split
    · exact SameCaches.refl _
    · exact sameCaches_bump _
  have hoff' : EntriesOff T (σ.method m) σ (if t (T.typed (σ.method m)) = none then τ
      else τ.bumpCacheVersion) := by
    intro c key hk hk'
    rw [← htables.dtable, ← hoff c key hk hk']
    split <;> rfl
  refine ⟨_, rfl, ⟨htables.toSameClasses.trans (hsame.trans hbump).toSameClasses, fun N c => ?_,
      hoff'.live⟩, hoff'⟩
  refine ((hsame.trans hbump).cache N c).trans ?_
  rw [hσ₁, cxxCache_updateCxxMethodCache, writeOne]
  by_cases hc : c = cls
  · simp [hc]
  · simp [hc]

/-- What the installation of several methods writes, one after the other. -/
def writeAll (method : MethodId → Method) (ms : List MethodId) (N : CxxName) (cached : Option Imp) :
    Option Imp :=
  ms.foldl (fun cached m => writeOne method m N cached) cached

theorem writeAll_append (method : MethodId → Method) (ms ms' : List MethodId) :
    writeAll method (ms ++ ms') = fun N cached => writeAll method ms' N (writeAll method ms N cached) := by
  funext N cached
  exact List.foldl_append

/-- The last method of the name is what stays. -/
theorem writeAll_eq (σ : Runtime) (ms : List MethodId) (N : CxxName) (cached : Option Imp) :
    writeAll σ.method ms N cached = ((lastNamed σ N ms).map fun m => (σ.method m).imp).or cached := by
  induction ms using List.reverseRecOn with
  | nil => rfl
  | append_singleton ms m ih =>
    rw [writeAll_append]
    show writeOne σ.method m N (writeAll σ.method ms N cached) = _
    rw [ih]
    unfold writeOne lastNamed
    rw [List.reverse_append, List.reverse_singleton, List.singleton_append, List.find?_cons]
    by_cases hm : (σ.method m).name = N.text
    · simp [hm]
    · rw [if_neg (fun h => hm h.symm)]
      simp [hm]

theorem Writes.refl {cls : Class} (σ : Runtime) : Writes cls (fun _ cached => cached) σ σ :=
  ⟨SameClasses.refl σ, fun N c => by split <;> rfl, fun _ => Iff.rfl⟩

theorem Writes.trans {cls : Class} {w w' : CxxName → Option Imp → Option Imp} {σ τ υ : Runtime}
    (h : Writes cls w σ τ) (h' : Writes cls w' τ υ) : Writes cls (fun N cached => w' N (w N cached)) σ υ := by
  refine ⟨h.toSameClasses.trans h'.toSameClasses, fun N c => ?_, fun n => (h'.live n).trans (h.live n)⟩
  rw [h'.cache, h.cache]
  by_cases hc : c = cls <;> simp [hc]

theorem Writes.same {cls : Class} {w : CxxName → Option Imp → Option Imp} {σ τ υ : Runtime}
    (h : Writes cls w σ τ)
    (h' : SameCaches τ υ) (hl : SameLive σ υ) : Writes cls w σ υ :=
  ⟨h.toSameClasses.trans h'.toSameClasses, fun N c => (h'.cache N c).trans (h.cache N c), hl⟩

theorem installs_congr {method : MethodId → Method} (sup : Option Dtable) {t t' : Dtable} {m : MethodId}
    (h : t (T.typed (method m)) = t' (T.typed (method m))) :
    Installs T method sup t m ↔ Installs T method sup t' m := by
  unfold Installs
  rw [h]

/-- One method of an array, for a class with a table. -/
theorem installOne_caches {σ : Runtime} {cls : Class} {t : Dtable} (ht : σ.dtable cls = some t)
    (sup : Option Dtable) (m : MethodId) :
    Writes cls (writeAll σ.method ([m].filter fun m => Installs T σ.method sup t m)) σ
    (installOne T cls sup σ m) ∧
      EntriesOff T (σ.method m) σ (installOne T cls sup σ m) := by
  unfold installOne
  rw [dtableForClass_eq ht]
  by_cases hi : Installs T σ.method sup t m
  · obtain ⟨σ', heq, hw, hoff⟩ := writes_install (T := T) σ σ.classCount cls t m hi.2
    rw [hi.1, heq, List.filter_cons_of_pos (by simpa using hi)]
    have hoff' : EntriesOff T (σ.method m) σ (σ'.setDtable cls (t.put T (σ.method m) m)) := by
      intro c key hk hk'
      unfold Runtime.setDtable
      dsimp only
      by_cases hc : c = cls
      · subst hc
        rw [Function.update_self, ht]
        exact congrArg some (put_off hk hk')
      · rw [Function.update_of_ne hc]
        exact hoff c key hk hk'
    exact ⟨hw.same (sameCaches_setDtable ..) hoff'.live, hoff'⟩
  · rw [installMethodInDtable_not hi, List.filter_cons_of_neg (by simpa using hi)]
    dsimp only
    rw [setDtable_self ht]
    exact ⟨Writes.refl σ, fun _ _ _ _ => rfl⟩

/-- Methods of different selectors: each is installed or not according to the table as it was. -/
theorem installAll_caches (cls : Class) (sup : Option Dtable) {t : Dtable} (ms : List MethodId) {σ : Runtime}
    (ht : ∀ m ∈ ms, (σ.dtable cls).map (· (T.typed (σ.method m))) = some (t (T.typed (σ.method m))))
    (hms : ms.Pairwise fun m m' => T.typed (σ.method m) ≠ T.typed (σ.method m')) :
    Writes cls (writeAll σ.method (ms.filter fun m => Installs T σ.method sup t m)) σ
      (ms.foldl (installOne T cls sup) σ) := by
  induction ms generalizing σ with
  | nil => exact Writes.refl σ
  | cons m ms ih =>
    obtain ⟨hne, hms⟩ := List.pairwise_cons.mp hms
    obtain ⟨t', ht', hentry⟩ := Option.map_eq_some_iff.mp (ht m (by simp))
    obtain ⟨hw, hoff⟩ := installOne_caches (T := T) ht' sup m
    have hmethod := hw.method
    have hrest := ih (σ := installOne T cls sup σ m) (fun m' hm' => ?_) (by rwa [hmethod])
    · rw [hmethod] at hrest
      have hfirst : ([m].filter fun m => Installs T σ.method sup t' m) =
          [m].filter fun m => Installs T σ.method sup t m := by
        simp only [List.filter_cons, List.filter_nil, installs_congr sup hentry]
      rw [hfirst] at hw
      have hsplit : ((m :: ms).filter fun m => Installs T σ.method sup t m) =
          ([m].filter fun m => Installs T σ.method sup t m) ++ ms.filter fun m =>
          Installs T σ.method sup t m := by
        rw [← List.filter_append, List.singleton_append]
      rw [List.foldl_cons, hsplit, writeAll_append]
      exact hw.trans hrest
    · rw [hmethod, hoff cls _ (hne m' hm').symm (T.typed_ne_untyped _ _)]
      exact ht m' (List.mem_cons_of_mem _ hm')

/-- The loop of `create_dtable_for_class`. -/
theorem createLoop_caches (cls : Class) (sup : Option Dtable) (ms : List MethodId) (σ : Runtime)
    (t : Dtable) :
    ∃ σ' t', ms.foldl (fun (σ, dtable) m =>
        let superMethod := sup.bind fun s => s (T.typed (σ.method m))
        let (σ, dtable, _) := installMethodInDtable T σ (σ.classCount + 1) cls dtable m superMethod true true
        (σ, dtable)) (σ, t) = (σ', t') ∧
      Writes cls (writeAll σ.method (installedIn T σ.method sup t ms)) σ σ' := by
  induction ms generalizing σ t with
  | nil => exact ⟨σ, t, rfl, Writes.refl σ⟩
  | cons m ms ih =>
    rw [List.foldl_cons]
    dsimp only
    by_cases hi : Installs T σ.method sup t m
    · obtain ⟨τ, heq, hw, -⟩ := writes_install (T := T) σ σ.classCount cls t m hi.2
      obtain ⟨σ', t', hfold, hw'⟩ := ih τ (t.put T (σ.method m) m)
      rw [hw.method] at hw'
      refine ⟨σ', t', ?_, ?_⟩
      · rw [hi.1, heq]
        exact hfold
      · rw [installedIn, if_pos hi]
        exact hw.trans hw'
    · obtain ⟨σ', t', hfold, hw'⟩ := ih σ t
      refine ⟨σ', t', ?_, ?_⟩
      · rw [installMethodInDtable_not hi]
        exact hfold
      · rw [installedIn, if_neg hi]
        exact hw'

/-- `create_dtable_for_class` runs its loop on a copy of the superclass's table, or it aborts. -/
theorem createDtable_loop {σ : Runtime} {cls : Class} {root : Dtable} (hnone : σ.dtable cls = none)
    {sup : Option Dtable} (hsup : superTable σ cls root = sup) :
    σ.createDtableForClass T cls root = none ∨
    σ.createDtableForClass T cls root = some ((σ.methodsOf cls).foldl (fun (σ, dtable) m =>
        let superMethod := sup.bind fun s => s (T.typed (σ.method m))
        let (σ, dtable, _) := installMethodInDtable T σ (σ.classCount + 1) cls dtable m superMethod true true
        (σ, dtable)) (σ, sup.getD fun _ => none)) := by
  subst hsup
  unfold createDtableForClass superTable
  rw [hnone]
  cases hp : σ.superClass cls with
  | none => exact .inr rfl
  | some s =>
    cases hd : σ.dtable s with
    | some t =>
      simp only [Option.map_some, hd]
      exact .inr rfl
    | none =>
      by_cases hisa : σ.isa s = cls
      · simp only [Option.map_some, hd, hisa, if_true]
        exact .inr rfl
      · simp only [hd, hisa, if_false]
        exact .inl rfl

/-- A new table, if the class has none. -/
theorem createDtable_caches {σ σ' : Runtime} {cls : Class} {root t : Dtable} (hnone : σ.dtable cls = none)
    (h : σ.createDtableForClass T cls root = some (σ', t)) :
    Writes cls (writeAll σ.method (installedIn T σ.method (superTable σ cls root)
      ((superTable σ cls root).getD fun _ => none) (σ.methodsOf cls))) σ σ' := by
  obtain ⟨τ, t', heq, hw⟩ := createLoop_caches (T := T) cls (superTable σ cls root) (σ.methodsOf cls) σ
    ((superTable σ cls root).getD fun _ => none)
  rcases createDtable_loop (T := T) hnone rfl with habort | hloop
  · rw [habort] at h
    cases h
  · rw [hloop, heq] at h
    cases h
    exact hw

/-! ## First implementations -/

theorem firstImp_congr {σ σ' : Runtime} {cls : Class} (h : σ'.methodsOf cls = σ.methodsOf cls)
    (hm : ∀ m ∈ σ.methodsOf cls, σ'.method m = σ.method m) (N : CxxName) :
    firstImp σ' N cls = firstImp σ N cls := by
  have hfirst : σ'.firstNamed cls N.text = σ.firstNamed cls N.text := by
    unfold firstNamed
    rw [h]
    exact List.find?_congr fun m hmem => by rw [hm m hmem]
  unfold firstImp
  rw [hfirst]
  cases hf : σ.firstNamed cls N.text with
  | none => rfl
  | some m => exact congrArg some (congrArg Method.imp (hm m (List.mem_of_find?_eq_some hf)))

theorem firstImp_same {σ σ' : Runtime} (h : SameClasses σ σ') (N : CxxName) (cls : Class) :
    firstImp σ' N cls = firstImp σ N cls :=
  firstImp_congr (by rw [h.methodsOf]) (fun _ _ => by rw [h.method]) N

theorem firstImp_setImp (σ : Runtime) (m : MethodId) (imp : Imp) (N : CxxName) (cls : Class) :
    firstImp (σ.setImp m imp) N cls =
      if σ.firstNamed cls N.text = some m then some imp else firstImp σ N cls := by
  unfold firstImp
  rw [firstNamed_setImp]
  cases hf : σ.firstNamed cls N.text with
  | none => rfl
  | some x =>
    unfold setImp
    by_cases hx : x = m
    · simp [hx]
    · simp [hx]

/-- The methods of the classes were allocated, and no method is in two classes. -/
structure Owned (σ : Runtime) : Prop where
  fresh : ∀ cls, ∀ m ∈ σ.methodsOf cls, m < σ.nextMethod
  once : ∀ m cls cls', m ∈ σ.methodsOf cls → m ∈ σ.methodsOf cls' → cls = cls'

theorem firstNamed_pushed {σ : Runtime} (ho : Owned σ) (cls : Class) (list : List Method) (name : String) :
    (σ.pushed cls list).firstNamed cls name =
      ((List.range' σ.nextMethod list.length).find? fun m => ((σ.pushed cls list).method m).name = name).or
        (σ.firstNamed cls name) := by
  exact (find?_pushed cls list (ho.fresh cls) fun x => x.name = name).trans (if_pos rfl)

/-- A new list comes before the others. -/
theorem firstImp_pushed {σ : Runtime} (ho : Owned σ) (cls : Class) (list : List Method) (N : CxxName) :
    firstImp (σ.pushed cls list) N cls =
      ((list.find? fun x => x.name = N.text).map Method.imp).or (firstImp σ N cls) := by
  have hnew : (list.find? fun x => x.name = N.text) =
      ((List.range' σ.nextMethod list.length).find? fun m => ((σ.pushed cls list).method m).name = N.text).map
        (σ.pushed cls list).method := by
    conv_lhs => rw [← map_method_pushed σ cls list]
    rw [List.find?_map]
    rfl
  rw [hnew]
  unfold firstImp
  rw [firstNamed_pushed ho]
  cases (List.range' σ.nextMethod list.length).find? fun m => ((σ.pushed cls list).method m).name =
      N.text with
  | some m => rfl
  | none =>
    simp only [Option.map_none, Option.none_or]
    cases hf : σ.firstNamed cls N.text with
    | none => rfl
    | some m =>
      have := ho.fresh cls m (firstNamed_some hf).1
      simp only [Option.map_some, pushed_method_of_lt _ _ _ this]

/-! ## Changes of one class -/

/-- Only the methods, the tables and the caches of `cls` change. -/
structure Mutated (cls : Class) (σ σ' : Runtime) : Prop where
  classCount : σ'.classCount = σ.classCount
  superClass : σ'.superClass = σ.superClass
  isa : σ'.isa = σ.isa
  isMeta : σ'.isMeta = σ.isMeta
  live : SameLive σ σ'
  methodsOf : ∀ c, c ≠ cls → σ'.methodsOf c = σ.methodsOf c
  method : ∀ c, c ≠ cls → ∀ m ∈ σ.methodsOf c, σ'.method m = σ.method m
  cache : ∀ N c, c ≠ cls → cxxCache σ' N c = cxxCache σ N c
  grows : σ.methodsOf cls ⊆ σ'.methodsOf cls
  owned : Owned σ → Owned σ'

theorem Mutated.trans {cls : Class} {σ τ υ : Runtime} (h : Mutated cls σ τ) (h' : Mutated cls τ υ) :
    Mutated cls σ υ where
  classCount := h'.classCount.trans h.classCount
  superClass := h'.superClass.trans h.superClass
  isa := h'.isa.trans h.isa
  isMeta := h'.isMeta.trans h.isMeta
  live n := (h'.live n).trans (h.live n)
  methodsOf c hc := (h'.methodsOf c hc).trans (h.methodsOf c hc)
  method c hc m hm := (h'.method c hc m (by rwa [h.methodsOf c hc])).trans (h.method c hc m hm)
  cache N c hc := (h'.cache N c hc).trans (h.cache N c hc)
  grows := List.Subset.trans h.grows h'.grows
  owned ho := h'.owned (h.owned ho)

theorem Owned.of_same {σ σ' : Runtime} (ho : Owned σ) (hm : σ'.methodsOf = σ.methodsOf)
    (hn : σ'.nextMethod = σ.nextMethod) : Owned σ' := by
  constructor
  · rw [hm, hn]
    exact ho.fresh
  · rw [hm]
    exact ho.once

theorem Writes.mutated {cls : Class} {w : CxxName → Option Imp → Option Imp} {σ σ' : Runtime}
    (h : Writes cls w σ σ') : Mutated cls σ σ' where
  classCount := h.classCount
  superClass := h.superClass
  isa := h.isa
  isMeta := h.isMeta
  live := h.live
  methodsOf c _ := by rw [h.toSameClasses.methodsOf]
  method c _ m _ := by rw [h.method]
  cache N c hc := (h.cache N c).trans (if_neg hc)
  grows := by rw [h.toSameClasses.methodsOf]; exact List.Subset.refl _
  owned ho := ho.of_same h.toSameClasses.methodsOf h.nextMethod

theorem writes_updateCxxMethodCache (σ : Runtime) (cls : Class) (name : String) (imp : Imp) :
    Writes cls (fun N cached => if N.text = name then some imp else cached) σ
      (σ.updateCxxMethodCache cls name imp) := by
  have htables := sameTables_updateCxxMethodCache σ cls name imp
  refine ⟨htables.toSameClasses, fun N c => ?_, fun n => by rw [htables.dtable]⟩
  rw [cxxCache_updateCxxMethodCache]
  by_cases hc : c = cls <;> simp [hc]

theorem mutated_pushed (σ : Runtime) (ho : Owned σ) (cls : Class) (list : List Method) :
    Mutated cls σ (σ.pushed cls list) where
  classCount := rfl
  superClass := rfl
  isa := rfl
  isMeta := rfl
  live _ := Iff.rfl
  methodsOf c hc := by rw [methodsOf_pushed, if_neg hc]
  method c _ m hm := pushed_method_of_lt σ cls list (ho.fresh c m hm)
  cache N _ _ := by cases N <;> rfl
  grows := by
    rw [methodsOf_pushed, if_pos rfl]
    exact List.subset_append_right _ _
  owned _ := by
    have hnext : (σ.pushed cls list).nextMethod = σ.nextMethod + list.length := rfl
    have hmem : ∀ c, ∀ m ∈ (σ.pushed cls list).methodsOf c,
        c = cls ∧ σ.nextMethod ≤ m ∧ m < σ.nextMethod + list.length ∨ m ∈ σ.methodsOf c := by
      intro c m hm
      rw [methodsOf_pushed] at hm
      by_cases hc : c = cls
      · rw [if_pos hc, List.mem_append, List.mem_range'_1] at hm
        subst hc
        exact hm.imp (fun h => ⟨rfl, h⟩) id
      · rw [if_neg hc] at hm
        exact .inr hm
    constructor
    · intro c m hm
      rw [hnext]
      rcases hmem c m hm with ⟨_, _, h⟩ | h
      · exact h
      · exact Nat.lt_add_right _ (ho.fresh c m h)
    · intro m c c' hm hm'
      rcases hmem c m hm with ⟨hc, hle, _⟩ | h <;> rcases hmem c' m hm' with ⟨hc', hle', _⟩ | h'
      · rw [hc, hc']
      · exact absurd (ho.fresh c' m h') (not_lt.mpr hle)
      · exact absurd (ho.fresh c m h) (not_lt.mpr hle')
      · exact ho.once m c c' h h'

theorem mutated_setImp {σ : Runtime} (ho : Owned σ) {cls : Class} {m : MethodId} (hm : m ∈ σ.methodsOf cls)
    (imp : Imp) : Mutated cls σ (σ.setImp m imp) where
  classCount := rfl
  superClass := rfl
  isa := rfl
  isMeta := rfl
  live _ := Iff.rfl
  methodsOf _ _ := rfl
  method c hc x hx := by
    refine Function.update_of_ne ?_ _ _
    rintro rfl
    exact hc (ho.once x c cls hx hm)
  cache N _ _ := by cases N <;> rfl
  grows := List.Subset.refl _
  owned ho := ho.of_same rfl rfl

theorem Machine.ExactOff.mutated {S : Class → Prop} {M : Machine} (h : M.ExactOff S) {cls : Class}
    {σ' : Runtime}
    (hm : Mutated cls M.runtime σ') :
    Machine.ExactOff (fun c => S c ∨ c = cls) { M with runtime := σ' } := by
  intro N c hc
  obtain ⟨hS, hne⟩ := not_or.mp hc
  have hcache := hm.cache N c hne
  have hfirst := firstImp_congr (hm.methodsOf c hne) (hm.method c hne) N
  refine (h N c hS).imp (fun heq => ?_)
      (fun ⟨⟨himage, hnone⟩, hnull⟩ => ⟨⟨himage, (hm.live c).mpr hnone⟩, ?_⟩)
  · show cxxCache σ' N c = firstImp σ' N c
    rw [hcache, heq, hfirst]
  · exact hcache.trans hnull

/-- A change of one class after which its caches are exact. -/
theorem Machine.ExactOff.change {M : Machine} (h : M.ExactOff fun _ => False) {cls : Class} {σ' : Runtime}
    (hm : Mutated cls M.runtime σ') (hcls : ∀ N, Machine.ExactAt { M with runtime := σ' } N cls) :
    Machine.ExactOff (fun _ => False) { M with runtime := σ' } := by
  intro N c _
  by_cases hc : c = cls
  · rw [hc]
    exact hcls N
  · exact h.mutated hm N c (by simpa using hc)

theorem writes_refresh (σ : Runtime) (cls : Class) :
    Writes cls (fun N _ => firstImp σ N cls) σ (σ.refreshReloadCxxCache cls) := by
  refine ⟨⟨rfl, rfl, rfl, rfl, rfl, rfl, rfl, rfl⟩, fun N c => ?_, fun _ => Iff.rfl⟩
  cases N <;> simp only [cxxCache, refreshReloadCxxCache, Function.update_apply] <;> rfl

/-- The caches of `cls` are exact again. -/
theorem Machine.ExactOff.refresh {S : Class → Prop} {M : Machine} (h : M.ExactOff S) (cls : Class) :
    Machine.ExactOff (fun c => S c ∧ c ≠ cls) { M with runtime := M.runtime.refreshReloadCxxCache cls } := by
  have hw := writes_refresh M.runtime cls
  intro N c hc
  by_cases hne : c = cls
  · subst hne
    refine .inl ((hw.cache N c).trans ?_)
    rw [if_pos rfl]
    exact (firstImp_same hw.toSameClasses N c).symm
  · exact h.mutated hw.mutated N c fun h' => hc ⟨h'.resolve_right hne, hne⟩

/-! ## Adding methods -/

/-- What adding a list writes to the caches of a class. -/
def writeAdded (T : SelectorTable) (σ : Runtime) (cls : Class) (list : List MethodId) (N : CxxName)
    (cached : Option Imp) : Option Imp :=
  (σ.dtable cls).elim cached fun t => writeAll σ.method (takenFrom T σ cls t list) N cached

theorem addedMethods_pairwise (σ : Runtime) (list : List MethodId) :
    (σ.addedMethods T list).Pairwise fun m m' => T.typed (σ.method m) ≠ T.typed (σ.method m') := by
  obtain ⟨hsort, hmem⟩ := mem_collectMethods (T := T) (σ := σ) [list]
  unfold addedMethods
  rw [List.pairwise_map]
  refine List.Pairwise.imp_of_mem (fun {e e'} he he' hlt => ?_) hsort
  rw [(collectedAt_some ((hmem e.1 e.2).mp he)).2, (collectedAt_some ((hmem e'.1 e'.2).mp he')).2]
  exact Nat.ne_of_lt hlt

theorem mem_of_mem_addedMethods {σ : Runtime} {list : List MethodId} {m : MethodId}
    (h : m ∈ σ.addedMethods T list) : m ∈ list := by
  obtain ⟨-, hmem⟩ := mem_collectMethods (T := T) (σ := σ) [list]
  obtain ⟨e, he, rfl⟩ := List.mem_map.mp h
  simpa using (collectedAt_some ((hmem e.1 e.2).mp he)).1

/-- `add_method_list_to_class`, if the class has a table. -/
theorem writes_addList (σ : Runtime) (cls : Class) (list : List MethodId) :
    Writes cls (writeAdded T σ cls list) σ
      (if σ.classHasDtable cls then σ.addMethodListToClass T cls list else σ) := by
  cases ht : σ.dtable cls with
  | none =>
    rw [if_neg (by simp [classHasDtable, ht])]
    have hw : writeAdded T σ cls list = fun _ cached => cached := by
      funext N cached
      simp [writeAdded, ht]
    rw [hw]
    exact Writes.refl σ
  | some t =>
    have hhas : σ.classHasDtable cls = true := by simp [classHasDtable, ht]
    have hw : writeAdded T σ cls list = writeAll σ.method (takenFrom T σ cls t list) := by
      funext N cached
      simp [writeAdded, ht]
    rw [if_pos hhas, hw, addMethodListToClass, hhas]
    simp only [Bool.not_true, Bool.false_eq_true, if_false]
    rw [installMethodsInClass_eq]
    have hall := installAll_caches (T := T) cls ((σ.superClass cls).map σ.dtableForClass) (t := t)
      (σ.addedMethods T list) (fun m _ => by rw [ht]; rfl) (addedMethods_pairwise σ list)
    exact hall.same (sameCaches_checkARCAccessors ..) fun n => by
      rw [(sameTables_checkARCAccessors ..).dtable]
      exact hall.live n

theorem mutated_addList (σ : Runtime) (cls : Class) (list : List MethodId) :
    Mutated cls σ (if σ.classHasDtable cls then σ.addMethodListToClass T cls list else σ) :=
  (writes_addList σ cls list).mutated

theorem mutated_registerMethods {σ : Runtime} (ho : Owned σ) (cls : Class) (list : List Method) :
    Mutated cls σ (σ.registerMethods T cls list) :=
  (mutated_pushed σ ho cls list).trans (mutated_addList ..)

theorem lastNamed_some {σ : Runtime} {N : CxxName} {ms : List MethodId} {m : MethodId}
    (h : lastNamed σ N ms = some m) : m ∈ ms ∧ (σ.method m).name = N.text :=
  ⟨by simpa using List.mem_of_find?_eq_some h, by simpa using List.find?_some h⟩

/-- The class has no method of the name: the new one is cached at once, and a table takes in no other. -/
theorem exact_addMethod {M : Machine} (h : M.ExactOff fun _ => False) (ho : Owned M.runtime) (cls : Class)
    (name : String) (imp : Imp) (types : Option String) :
    Machine.ExactOff (fun _ => False) { M with runtime := (M.runtime.addMethod T cls name imp types).1 } ∧
      Mutated cls M.runtime (M.runtime.addMethod T cls name imp types).1 ∨
    (M.runtime.addMethod T cls name imp types).1 = M.runtime := by
  cases types with
  | none => exact .inr rfl
  | some types =>
    rw [addMethod]
    split
    · exact .inr rfl
    left
    set σ := M.runtime with hσ
    set list : List Method := [⟨name, types, imp⟩] with hlist
    set τ := (σ.pushed cls list).updateCxxMethodCache cls name imp with hτ
    have hcached : Writes cls _ (σ.pushed cls list) τ := writes_updateCxxMethodCache ..
    have hadded := writes_addList (T := T) τ cls (σ.allocMethods list).2
    set υ := if τ.classHasDtable cls then τ.addMethodListToClass T cls (σ.allocMethods list).2 else τ with hυ
    have hm : Mutated cls σ υ := (mutated_pushed σ ho cls list).trans (hcached.mutated.trans hadded.mutated)
    have hfirst (N : CxxName) : firstImp υ N cls = ((list.find? fun x => x.name = N.text).map Method.imp).or
        (firstImp σ N cls) := by
      rw [firstImp_same (hcached.toSameClasses.trans hadded.toSameClasses), firstImp_pushed ho]
    have hcache (N : CxxName) : cxxCache υ N cls =
        writeAdded T τ cls (σ.allocMethods list).2 N (if N.text = name then some imp
          else cxxCache σ N cls) := by
      rw [hadded.cache, if_pos rfl, hcached.cache, if_pos rfl]
      cases N <;> rfl
    -- a method that the table takes in is the new one
    have htaken (N : CxxName) (t : Dtable) :
        ∀ m ∈ lastNamed τ N (takenFrom T τ cls t (σ.allocMethods list).2),
        N.text = name ∧ (τ.method m).imp = imp := by
      intro m hm
      obtain ⟨hmem, hname⟩ := lastNamed_some hm
      have hnew := mem_range'_pushed (mem_of_mem_addedMethods (List.mem_of_mem_filter hmem)) cls
      rw [hcached.method] at hname ⊢
      rw [hlist, List.mem_singleton] at hnew
      rw [hnew] at hname ⊢
      exact ⟨hname.symm, rfl⟩
    refine ⟨h.change hm fun N => ?_, hm⟩
    have hwritten : cxxCache υ N cls = if N.text = name then some imp else cxxCache σ N cls := by
      rw [hcache, writeAdded]
      cases τ.dtable cls with
      | none => rfl
      | some t =>
        rw [Option.elim_some, writeAll_eq]
        cases hl : lastNamed τ N (takenFrom T τ cls t (σ.allocMethods list).2) with
        | none => rfl
        | some m =>
          obtain ⟨hN, himp⟩ := htaken N t m hl
          rw [if_pos hN, ← himp]
          rfl
    by_cases hN : N.text = name
    · refine .inl ?_
      show cxxCache υ N cls = firstImp υ N cls
      rw [hwritten, hfirst, if_pos hN, hlist]
      simp [hN]
    · rw [if_neg hN] at hwritten
      have hsame : firstImp υ N cls = firstImp σ N cls := by
        rw [hfirst, hlist]
        simp [Ne.symm hN]
      refine (h N cls not_false).imp (fun heq => ?_) fun hawaiting => ?_
      · show cxxCache υ N cls = firstImp υ N cls
        rw [hwritten, heq, hsame]
      · obtain ⟨⟨himage, hnone⟩, hnull⟩ := hawaiting
        exact ⟨⟨himage, (hm.live cls).mpr hnone⟩, hwritten.trans hnull⟩

theorem exact_registerMethods {M : Machine} (h : M.ExactOff fun _ => False) (ho : Owned M.runtime)
    {cls : Class}
    {list : List Method} (hok : CategoryOk T M cls list) :
    Machine.ExactOff (fun _ => False) { M with runtime := M.runtime.registerMethods T cls list } := by
  have hm := mutated_registerMethods (T := T) ho cls list
  refine h.change hm fun N => ?_
  have hadded := writes_addList (T := T) (M.runtime.pushed cls list) cls (M.runtime.allocMethods list).2
  have hcache : cxxCache (M.runtime.registerMethods T cls list) N cls =
      writeAdded T (M.runtime.pushed cls list) cls (M.runtime.allocMethods list).2 N
      (cxxCache M.runtime N cls) := by
    refine (hadded.cache N cls).trans ?_
    rw [if_pos rfl]
    cases N <;> rfl
  have hfirst : firstImp (M.runtime.registerMethods T cls list) N cls =
      firstImp (M.runtime.pushed cls list) N cls :=
    firstImp_same hadded.toSameClasses N cls
  unfold writeAdded at hcache
  have hdtable : (M.runtime.pushed cls list).dtable cls = M.runtime.dtable cls := rfl
  rw [hdtable] at hcache
  unfold CategoryOk at hok
  cases ht : M.runtime.dtable cls with
  | none =>
    rw [ht, Option.elim_none] at hcache
    simp only [ht] at hok
    rcases hok N with hsame | ⟨himage, hnull⟩
    · refine (h N cls not_false).imp (fun heq => ?_) fun ⟨haw, hnull⟩ =>
        ⟨⟨haw.1, (hm.live cls).mpr haw.2⟩, hcache.trans hnull⟩
      exact hcache.trans (heq.trans (hsame.symm.trans hfirst.symm))
    · exact .inr ⟨⟨himage, (hm.live cls).mpr ht⟩, hcache.trans hnull⟩
  | some t =>
    rw [ht, Option.elim_some, writeAll_eq] at hcache
    simp only [ht] at hok
    refine .inl (hcache.trans (Eq.trans ?_ hfirst.symm))
    cases hl : lastNamed (M.runtime.pushed cls list) N
        (takenFrom T (M.runtime.pushed cls list) cls t (M.runtime.allocMethods list).2) with
    | some m => exact hok.1 N m hl
    | none =>
      rw [Option.map_none, Option.none_or, hok.2 N hl]
      refine (h N cls not_false).resolve_right fun ⟨haw, _⟩ => ?_
      have := haw.2
      rw [ht] at this
      cases this

theorem exact_replaceMethod {M : Machine} (h : M.ExactOff fun _ => False) (ho : Owned M.runtime) {cls : Class}
    {name : String} {imp : Imp} {types : Option String}
    (hok : CacheOk T M (.replaceMethod cls name imp types)) :
    Machine.ExactOff (fun _ => False) { M with runtime := (M.runtime.replaceMethod T cls name imp types).1 } ∧
      Mutated cls M.runtime (M.runtime.replaceMethod T cls name imp types).1 ∨
    (M.runtime.replaceMethod T cls name imp types).1 = M.runtime := by
  unfold replaceMethod
  cases hfound : M.runtime.getInstanceMethodNonrecursive T cls ⟨name, types⟩ with
  | none => exact exact_addMethod h ho cls name imp types
  | some m =>
    left
    have hmem : m ∈ M.runtime.methodsOf cls := List.mem_of_find?_eq_some hfound
    have hname : (M.runtime.method m).name = name := by
      have := List.find?_some hfound
      unfold SelectorTable.selIsEqual Method.selector at this
      simp only [Bool.and_eq_true, decide_eq_true_eq] at this
      exact this.1
    have hcached := writes_updateCxxMethodCache (M.runtime.setImp m imp) cls name imp
    have hm := (mutated_setImp ho hmem imp).trans hcached.mutated
    refine ⟨h.change hm fun N => ?_, hm⟩
    have hfirst := firstImp_same hcached.toSameClasses N cls
    have hcache := hcached.cache N cls
    rw [if_pos rfl] at hcache
    rw [firstImp_setImp] at hfirst
    by_cases hN : N.text = name
    · refine .inl (hcache.trans (Eq.trans ?_ hfirst.symm))
      rw [if_pos hN, hN, if_pos (hok N hN.symm m hfound)]
    · have hother : M.runtime.firstNamed cls N.text ≠ some m := fun hf =>
        hN ((firstNamed_some hf).2.symm.trans hname)
      rw [if_neg hother] at hfirst
      rw [if_neg hN] at hcache
      have hkept : cxxCache (M.runtime.setImp m imp) N cls = cxxCache M.runtime N cls := by cases N <;> rfl
      rw [hkept] at hcache
      refine (h N cls not_false).imp (fun heq => ?_) fun ⟨haw, hnull⟩ =>
        ⟨⟨haw.1, (hm.live cls).mpr haw.2⟩, hcache.trans hnull⟩
      exact hcache.trans (heq.trans hfirst.symm)

/-! ## New implementations -/

/-- The refresh changes caches only. -/
theorem refresh_eq (M : Machine) (m : MethodId) :
    ∃ construct destruct, refreshCxxMethodCaches M m =
      { M with runtime := { M.runtime with cxxConstruct := construct, cxxDestruct := destruct } } := by
  unfold refreshCxxMethodCaches
  dsimp only
  split
  · exact ⟨_, M.runtime.cxxDestruct, rfl⟩
  · split
    · exact ⟨M.runtime.cxxConstruct, _, rfl⟩
    · exact ⟨M.runtime.cxxConstruct, M.runtime.cxxDestruct, rfl⟩

theorem cache_refresh (M : Machine) (m : MethodId) (N : CxxName) (cls : Class) :
    cxxCache (refreshCxxMethodCaches M m).runtime N cls =
      if (M.runtime.method m).name = N.text ∧ m ∈ M.runtime.methodsOf cls ∧ M.Reached cls then
        some (M.runtime.method m).imp
      else cxxCache M.runtime N cls := by
  unfold refreshCxxMethodCaches
  dsimp only
  cases N with
  | construct =>
    by_cases h : (M.runtime.method m).name = ".cxx_construct"
    · simp [h, cxxCache, CxxName.text]
    · have hname : ¬ ((M.runtime.method m).name = CxxName.construct.text ∧ m ∈ M.runtime.methodsOf cls ∧
          M.Reached cls) := fun hh => h hh.1
      rw [if_neg h, if_neg hname]
      split <;> rfl
  | destruct =>
    by_cases h : (M.runtime.method m).name = ".cxx_destruct"
    · simp [h, cxxCache, CxxName.text]
    · have hname : ¬ ((M.runtime.method m).name = CxxName.destruct.text ∧ m ∈ M.runtime.methodsOf cls ∧
          M.Reached cls) := fun hh => h hh.1
      rw [if_neg hname, if_neg h]
      split <;> rfl

/-- A method that is refreshed where it is the first, and only there. -/
theorem cache_refresh_first {M : Machine} {m : MethodId} (h : Unshadowed M m) (N : CxxName) (cls : Class) :
    cxxCache (refreshCxxMethodCaches M m).runtime N cls =
      if M.runtime.firstNamed cls N.text = some m then firstImp M.runtime N cls
          else cxxCache M.runtime N cls := by
  rw [cache_refresh]
  by_cases hf : M.runtime.firstNamed cls N.text = some m
  · obtain ⟨hmem, hname⟩ := firstNamed_some hf
    rw [if_pos hf, if_pos ⟨hname, hmem, (h N cls hmem hname).mpr hf⟩, firstImp, hf]
    rfl
  · rw [if_neg hf, if_neg fun ⟨hname, hmem, hreached⟩ => hf ((h N cls hmem hname).mp hreached)]

theorem Unshadowed.setImp {M : Machine} {m : MethodId} (h : Unshadowed M m) (x : MethodId) (imp : Imp) :
    Unshadowed { M with runtime := M.runtime.setImp x imp } m := by
  intro N cls hmem hname
  rw [name_setImp] at hname
  rw [firstNamed_setImp]
  exact h N cls hmem hname

theorem Unshadowed.refresh {M : Machine} {m : MethodId} (h : Unshadowed M m) (x : MethodId) :
    Unshadowed (refreshCxxMethodCaches M x) m := by
  obtain ⟨construct, destruct, heq⟩ := refresh_eq M x
  rw [heq]
  exact h

theorem firstImp_refresh (M : Machine) (m : MethodId) (N : CxxName) (cls : Class) :
    firstImp (refreshCxxMethodCaches M m).runtime N cls = firstImp M.runtime N cls := by
  obtain ⟨construct, destruct, heq⟩ := refresh_eq M m
  rw [heq]
  rfl

theorem firstNamed_refresh (M : Machine) (m : MethodId) (cls : Class) (name : String) :
    (refreshCxxMethodCaches M m).runtime.firstNamed cls name = M.runtime.firstNamed cls name := by
  obtain ⟨construct, destruct, heq⟩ := refresh_eq M m
  rw [heq]
  rfl

theorem awaiting_refresh (M : Machine) (m : MethodId) (cls : Class) :
    (refreshCxxMethodCaches M m).Awaiting cls ↔ M.Awaiting cls := by
  obtain ⟨construct, destruct, heq⟩ := refresh_eq M m
  rw [heq]
  rfl

theorem exact_setImplementation {M : Machine} (h : M.ExactOff fun _ => False) {m : MethodId} (imp : Imp)
    (hok : Unshadowed M m) :
    (refreshCxxMethodCaches { M with runtime := M.runtime.setImp m imp } m).ExactOff fun _ => False := by
  intro N cls _
  unfold Machine.ExactAt
  rw [cache_refresh_first (hok.setImp m imp), firstImp_refresh, awaiting_refresh]
  by_cases hf : M.runtime.firstNamed cls N.text = some m
  · rw [firstNamed_setImp, if_pos hf]
    exact .inl rfl
  · rw [firstNamed_setImp, if_neg hf, firstImp_setImp, if_neg hf]
    have := h N cls not_false
    unfold Machine.ExactAt at this
    cases N <;> exact this

theorem exact_exchangeImplementations {M : Machine} (h : M.ExactOff fun _ => False) {m₁ m₂ : MethodId}
    (hok : Unshadowed M m₁ ∧ Unshadowed M m₂) :
    (next T M (.exchangeImplementations m₁ m₂)).ExactOff fun _ => False := by
  intro N cls _
  have hok₁ := (hok.1.setImp m₁ (M.runtime.method m₂).imp).setImp m₂ (M.runtime.method m₁).imp
  have hok₂ := ((hok.2.setImp m₁ (M.runtime.method m₂).imp).setImp m₂ (M.runtime.method m₁).imp).refresh m₁
  unfold Machine.ExactAt next
  dsimp only
  rw [cache_refresh_first hok₂, cache_refresh_first hok₁, firstImp_refresh, firstImp_refresh,
    firstImp_refresh,
    firstNamed_refresh, awaiting_refresh, awaiting_refresh]
  simp only [firstNamed_setImp]
  by_cases hf₂ : M.runtime.firstNamed cls N.text = some m₂
  · rw [if_pos hf₂]
    exact .inl rfl
  by_cases hf₁ : M.runtime.firstNamed cls N.text = some m₁
  · rw [if_neg hf₂, if_pos hf₁]
    exact .inl rfl
  · rw [if_neg hf₂, if_neg hf₁, firstImp_setImp, firstNamed_setImp, if_neg hf₂, firstImp_setImp, if_neg hf₁]
    have := h N cls not_false
    unfold Machine.ExactAt at this
    cases N <;> exact this

/-! ## Safe reload -/

/-- What one incoming method adds to a plan. -/
def planStep (σ : Runtime) (target : Class) (plan : List ReloadEntry) (incoming : Method) :
    Option (List ReloadEntry) :=
  if plan.any fun e => e.method.name = incoming.name then some plan
  else if (σ.firstNamed target incoming.name).all fun m => (σ.method m).types = incoming.types then
    some (plan ++ [⟨σ.firstNamed target incoming.name, incoming⟩])
  else none

theorem planStep_targets {σ : Runtime} {target : Class} {plan plan' : List ReloadEntry} {incoming : Method}
    (h : planStep σ target plan incoming = some plan')
    (hplan : ∀ e ∈ plan, ∀ m ∈ e.target, m ∈ σ.methodsOf target) :
    ∀ e ∈ plan', ∀ m ∈ e.target, m ∈ σ.methodsOf target := by
  unfold planStep at h
  split at h
  · cases h
    exact hplan
  · split at h
    · cases h
      intro e he m hm
      rcases List.mem_append.mp he with he | he
      · exact hplan e he m hm
      · rw [List.mem_singleton.mp he] at hm
        exact (firstNamed_some hm).1
    · cases h

/-- The methods that a plan replaces are methods of its target. -/
theorem preparePlan_targets {σ : Runtime} {target : Class} {source : List Method} {plan : List ReloadEntry}
    (h : σ.preparePlan target source = some plan) : ∀ e ∈ plan, ∀ m ∈ e.target, m ∈ σ.methodsOf target := by
  have hloop : ∀ (source : List Method) (plan₀ : List ReloadEntry),
      (∀ e ∈ plan₀, ∀ m ∈ e.target, m ∈ σ.methodsOf target) →
      source.foldlM (planStep σ target) plan₀ = some plan →
      ∀ e ∈ plan, ∀ m ∈ e.target, m ∈ σ.methodsOf target := by
    intro source
    induction source with
    | nil =>
      intro plan₀ h₀ h
      cases h
      exact h₀
    | cons incoming source ih =>
      intro plan₀ h₀ h
      rw [List.foldlM_cons] at h
      obtain ⟨plan₁, hstep, hrest⟩ := Option.bind_eq_some_iff.mp h
      exact ih plan₁ (planStep_targets hstep h₀) hrest
  exact hloop source [] (by simp) h

theorem mutated_refl (σ : Runtime) (cls : Class) : Mutated cls σ σ := (Writes.refl σ).mutated

theorem mutated_setImps {target : Class} (plan : List ReloadEntry) {σ τ : Runtime} (ho : Owned τ)
    (h : Mutated target σ τ) (htargets : ∀ e ∈ plan, ∀ m ∈ e.target, m ∈ τ.methodsOf target) :
    Mutated target σ (plan.foldl (fun σ e => e.target.elim σ fun m => σ.setImp m e.method.imp) τ) := by
  induction plan generalizing τ with
  | nil => exact h
  | cons e plan ih =>
    rw [List.foldl_cons]
    cases ht : e.target with
    | none => exact ih ho h fun e' he' => htargets e' (List.mem_cons_of_mem _ he')
    | some m =>
      have hset := mutated_setImp ho (htargets e (by simp) m ht) e.method.imp
      exact ih (hset.owned ho) (h.trans hset) fun e' he' m' hm' =>
        hset.grows (htargets e' (List.mem_cons_of_mem _ he') m' hm')

theorem mutated_commitPlan {σ : Runtime} (ho : Owned σ) {target : Class} {plan : List ReloadEntry}
    (htargets : ∀ e ∈ plan, ∀ m ∈ e.target, m ∈ σ.methodsOf target) :
    Mutated target σ (σ.commitPlan T target plan) := by
  unfold commitPlan
  dsimp only
  split
  · exact mutated_setImps plan ho (mutated_refl σ target) htargets
  · have hadd := mutated_registerMethods (T := T) ho target (additions plan)
    exact mutated_setImps plan (hadd.owned ho) hadd fun e he m hm => hadd.grows (htargets e he m hm)

/-! ## New classes and their links -/

/-- A metaclass comes right after its class, and the superclass of a class or metaclass before it. -/
structure Links (σ : Runtime) : Prop where
  isa_eq : ∀ c < σ.classCount, σ.isMeta c = false →
    σ.isa c = c + 1 ∧ c + 1 < σ.classCount ∧ σ.isMeta (c + 1) = true
  super_lt : ∀ c p, σ.superClass c = some p → p < c
  super_class : ∀ c < σ.classCount, σ.isMeta c = false → ∀ p, σ.superClass c = some p → σ.isMeta p = false

theorem Links.of_same {σ σ' : Runtime} (h : Links σ) (hc : σ'.classCount = σ.classCount)
    (hs : σ'.superClass = σ.superClass) (hi : σ'.isa = σ.isa) (hm : σ'.isMeta = σ.isMeta) : Links σ' := by
  constructor
  · rw [hc, hi, hm]
    exact h.isa_eq
  · rw [hs]
    exact h.super_lt
  · rw [hc, hm, hs]
    exact h.super_class

theorem Links.of_mutated {σ σ' : Runtime} {cls : Class} (h : Links σ) (hm : Mutated cls σ σ') : Links σ' :=
  h.of_same hm.classCount hm.superClass hm.isa hm.isMeta

theorem Links.newPair {σ : Runtime} (h : Links σ) {super : Option Class}
    (lists metaLists : List (List MethodId))
    (hsuper : ∀ s ∈ super, s < σ.classCount ∧ σ.isMeta s = false) :
    Links (newPair σ super lists metaLists) := by
  have hother : ∀ (c : Class), c ≠ σ.classCount → c ≠ σ.classCount + 1 →
      (CxxCaches.newPair σ super lists metaLists).isMeta c = σ.isMeta c ∧
      (CxxCaches.newPair σ super lists metaLists).isa c = σ.isa c ∧
      (CxxCaches.newPair σ super lists metaLists).superClass c = σ.superClass c := by
    intro c hc hc'
    simp [CxxCaches.newPair, Function.update_of_ne hc, Function.update_of_ne hc']
  constructor
  · intro c hlt hmeta
    have hcount : (CxxCaches.newPair σ super lists metaLists).classCount = σ.classCount + 2 := rfl
    rw [hcount] at hlt ⊢
    by_cases hc' : c = σ.classCount + 1
    · simp [CxxCaches.newPair, hc'] at hmeta
    by_cases hc : c = σ.classCount
    · subst hc
      simp [CxxCaches.newPair]
    · obtain ⟨hm, hi, -⟩ := hother c hc hc'
      rw [hm] at hmeta
      have hold : c < σ.classCount := Nat.lt_of_le_of_ne (Nat.le_of_lt_succ
        (Nat.lt_of_le_of_ne (Nat.le_of_lt_succ hlt) hc')) hc
      obtain ⟨hisa, hlt', hmeta'⟩ := h.isa_eq c hold hmeta
      rw [hi, (hother (c + 1) hlt'.ne (Nat.lt_succ_of_lt hlt').ne).1]
      exact ⟨hisa, Nat.lt_add_right 2 hlt', hmeta'⟩
  · intro c p hp
    by_cases hc' : c = σ.classCount + 1
    · subst hc'
      have hp' : super.elim σ.classCount σ.isa = p := by simpa [CxxCaches.newPair] using hp
      cases super with
      | none =>
        rw [← hp']
        exact Nat.lt_succ_self _
      | some s =>
        obtain ⟨hs, hsm⟩ := hsuper s rfl
        obtain ⟨hisa, hlt, -⟩ := h.isa_eq s hs hsm
        rw [← hp', Option.elim_some, hisa]
        exact Nat.lt_succ_of_lt hlt
    by_cases hc : c = σ.classCount
    · subst hc
      have hp' : super = some p := by simpa [CxxCaches.newPair] using hp
      exact (hsuper p hp').1
    · rw [(hother c hc hc').2.2] at hp
      exact h.super_lt c p hp
  · intro c hlt hmeta p hp
    have hcount : (CxxCaches.newPair σ super lists metaLists).classCount = σ.classCount + 2 := rfl
    rw [hcount] at hlt
    by_cases hc' : c = σ.classCount + 1
    · simp [CxxCaches.newPair, hc'] at hmeta
    by_cases hc : c = σ.classCount
    · subst hc
      have hp' : super = some p := by simpa [CxxCaches.newPair] using hp
      obtain ⟨hlt', hm⟩ := hsuper p hp'
      rw [(hother p hlt'.ne (Nat.lt_succ_of_lt hlt').ne).1]
      exact hm
    · obtain ⟨hm, -, hs⟩ := hother c hc hc'
      rw [hm] at hmeta
      rw [hs] at hp
      have hold : c < σ.classCount := Nat.lt_of_le_of_ne (Nat.le_of_lt_succ
        (Nat.lt_of_le_of_ne (Nat.le_of_lt_succ hlt) hc')) hc
      have hp_lt := Nat.lt_trans (h.super_lt c p hp) hold
      rw [(hother p hp_lt.ne (Nat.lt_succ_of_lt hp_lt).ne).1]
      exact h.super_class c hold hmeta p hp

/-- The same methods, tables and caches. -/
structure SameMethods (M M' : Machine) : Prop where
  classCount : M'.runtime.classCount = M.runtime.classCount
  isMeta : M'.runtime.isMeta = M.runtime.isMeta
  methodLists : M'.runtime.methodLists = M.runtime.methodLists
  method : M'.runtime.method = M.runtime.method
  nextMethod : M'.runtime.nextMethod = M.runtime.nextMethod
  dtable : M'.runtime.dtable = M.runtime.dtable
  cache : ∀ N cls, cxxCache M'.runtime N cls = cxxCache M.runtime N cls
  fromImage : M'.fromImage = M.fromImage

theorem SameMethods.refl (M : Machine) : SameMethods M M :=
    ⟨rfl, rfl, rfl, rfl, rfl, rfl, fun _ _ => rfl, rfl⟩

theorem SameMethods.trans {M M' M'' : Machine} (h : SameMethods M M') (h' : SameMethods M' M'') :
    SameMethods M M'' where
  classCount := h'.classCount.trans h.classCount
  isMeta := h'.isMeta.trans h.isMeta
  methodLists := h'.methodLists.trans h.methodLists
  method := h'.method.trans h.method
  nextMethod := h'.nextMethod.trans h.nextMethod
  dtable := h'.dtable.trans h.dtable
  cache N cls := (h'.cache N cls).trans (h.cache N cls)
  fromImage := h'.fromImage.trans h.fromImage

theorem SameMethods.methodsOf {M M' : Machine} (h : SameMethods M M') :
    M'.runtime.methodsOf = M.runtime.methodsOf := by
  funext cls
  unfold Runtime.methodsOf
  rw [h.methodLists]

theorem Machine.ExactOff.of_same {S : Class → Prop} {M M' : Machine} (h : M.ExactOff S)
    (hs : SameMethods M M') :
    M'.ExactOff S := by
  intro N cls hc
  have hfirst : firstImp M'.runtime N cls = firstImp M.runtime N cls :=
    firstImp_congr (by rw [hs.methodsOf]) (fun m _ => by rw [hs.method]) N
  unfold Machine.ExactAt Machine.Awaiting
  rw [hfirst, hs.cache, hs.fromImage, hs.dtable]
  exact h N cls hc

theorem Owned.of_sameMethods {M M' : Machine} (ho : Owned M.runtime) (hs : SameMethods M M') :
    Owned M'.runtime :=
  ho.of_same hs.methodsOf hs.nextMethod

/-- The classes in `linkClass` are the same; only metaclasses get another superclass and `isa`. -/
theorem Links.linkClass {σ : Runtime} (h : Links σ) {cls : Class} (hlt : cls < σ.classCount)
    (hmeta : σ.isMeta cls = false) : Links (linkClass σ cls) := by
  obtain ⟨hisa, hcount, hmeta'⟩ := h.isa_eq cls hlt hmeta
  have hfields : (CxxCaches.linkClass σ cls).classCount = σ.classCount ∧
      (CxxCaches.linkClass σ cls).isMeta = σ.isMeta ∧
      (CxxCaches.linkClass σ cls).superClass =
        Function.update σ.superClass (cls + 1) (some ((σ.superClass cls).elim cls σ.isa)) ∧
      (CxxCaches.linkClass σ cls).isa = Function.update σ.isa (cls + 1) (rootIsa σ σ.classCount cls) := by
    unfold CxxCaches.linkClass
    rw [hisa]
    cases σ.superClass cls <;> exact ⟨rfl, rfl, rfl, rfl⟩
  obtain ⟨hc, hm, hs, hi⟩ := hfields
  -- a class is no metaclass
  have hne : ∀ c, σ.isMeta c = false → c ≠ cls + 1 := by
    rintro c hcm rfl
    rw [hmeta'] at hcm
    cases hcm
  constructor
  · rw [hc, hm, hi]
    intro c hcl hcm
    rw [Function.update_of_ne (hne c hcm)]
    exact h.isa_eq c hcl hcm
  · rw [hs]
    intro c p hp
    by_cases hcc : c = cls + 1
    · subst hcc
      rw [Function.update_self] at hp
      cases hp
      cases hsup : σ.superClass cls with
      | none => exact Nat.lt_succ_self cls
      | some s =>
        have hs_lt := h.super_lt cls s hsup
        rw [Option.elim_some, (h.isa_eq s (hs_lt.trans hlt) (h.super_class cls hlt hmeta s hsup)).1]
        exact Nat.succ_lt_succ hs_lt
    · rw [Function.update_of_ne hcc] at hp
      exact h.super_lt c p hp
  · rw [hc, hm, hs]
    intro c hcl hcm p hp
    rw [Function.update_of_ne (hne c hcm)] at hp
    exact h.super_class c hcl hcm p hp

theorem sameMethods_linkClass (M : Machine) (cls : Class) (resolved : Class → Bool) :
    SameMethods M { M with runtime := linkClass M.runtime cls, resolved := resolved } := by
  unfold linkClass
  cases M.runtime.superClass cls <;>
    exact ⟨rfl, rfl, rfl, rfl, rfl, rfl, fun N _ => by cases N <;> rfl, rfl⟩

theorem resolveClass_spec (fuel : ℕ) : ∀ (cls : Class) (M : Machine), Links M.runtime →
    cls < M.runtime.classCount → M.runtime.isMeta cls = false →
    SameMethods M (resolveClass fuel cls M) ∧ Links (resolveClass fuel cls M).runtime := by
  induction fuel with
  | zero => exact fun cls M hl _ _ => ⟨SameMethods.refl M, hl⟩
  | succ fuel ih =>
    intro cls M hl hlt hmeta
    rw [resolveClass]
    split
    · exact ⟨SameMethods.refl M, hl⟩
    dsimp only
    have hsuper : ∃ M', (M.runtime.superClass cls).elim M (fun super => resolveClass fuel super M) = M' ∧
        SameMethods M M' ∧ Links M'.runtime := by
      cases hs : M.runtime.superClass cls with
      | none => exact ⟨M, rfl, SameMethods.refl M, hl⟩
      | some s =>
        exact ⟨_, rfl, ih s M hl ((hl.super_lt cls s hs).trans hlt) (hl.super_class cls hlt hmeta s hs)⟩
    obtain ⟨M', hM', hsame, hl'⟩ := hsuper
    rw [hM']
    exact ⟨hsame.trans (sameMethods_linkClass M' cls _),
      hl'.linkClass (by rwa [hsame.classCount]) (by rwa [hsame.isMeta])⟩

/-! ## Steps -/

/-- What holds in every state. -/
structure Inv (M : Machine) : Prop where
  exact : M.ExactOff fun _ => False
  owned : Owned M.runtime
  links : Links M.runtime

theorem Inv.of_same {M M' : Machine} (hI : Inv M) (hs : SameMethods M M') (hl : Links M'.runtime) : Inv M' :=
  ⟨hI.exact.of_same hs, hI.owned.of_sameMethods hs, hl⟩

theorem Inv.resolve {M : Machine} (hI : Inv M) {cls : Class} (hlt : cls < M.runtime.classCount)
    (hmeta : M.runtime.isMeta cls = false) : Inv (M.resolve cls) ∧ SameMethods M (M.resolve cls) := by
  obtain ⟨hs, hl⟩ := resolveClass_spec (M.runtime.classCount + 1) cls M hI.links hlt hmeta
  exact ⟨hI.of_same hs hl, hs⟩

/-- A new table of a class whose caches are exact or NULL. -/
theorem create_exact {σ σ' : Runtime} {cls : Class} {root t : Dtable} (hnone : σ.dtable cls = none)
    (h : σ.createDtableForClass T cls root = some (σ', t)) (hok : CreateOk T σ cls root)
    (hex : ∀ N, cxxCache σ N cls = firstImp σ N cls ∨ cxxCache σ N cls = none) (N : CxxName) :
    cxxCache σ' N cls = firstImp σ' N cls := by
  have hw := createDtable_caches hnone h
  rw [hw.cache, if_pos rfl, writeAll_eq, firstImp_same hw.toSameClasses]
  cases hl : lastNamed σ N (createdFrom T σ cls root) with
  | some m =>
    rw [createdFrom] at hl
    rw [hl]
    exact hok.1 N m (by rw [createdFrom]; exact hl)
  | none =>
    have hkept := hok.2 N hl
    rw [createdFrom] at hl
    rw [hl, Option.map_none, Option.none_or]
    rcases hkept with hnever | hcached
    · have hfirst : firstImp σ N cls = none := by rw [firstImp, hnever, Option.map_none]
      rw [hfirst]
      exact (hex N).elim (fun heq => heq.trans hfirst) id
    · exact (hex N).resolve_right hcached

theorem Inv.exact_or_null {M : Machine} (hI : Inv M) (N : CxxName) (cls : Class) :
    cxxCache M.runtime N cls = firstImp M.runtime N cls ∨ cxxCache M.runtime N cls = none :=
  (hI.exact N cls not_false).imp id And.right

/-- The installation of a table is no change of the methods and caches. -/
theorem exactAt_of_tables {M M' : Machine} {N : CxxName} {c : Class} (h : M.ExactAt N c)
    (hs : SameCaches M.runtime M'.runtime) (himage : M'.fromImage = M.fromImage)
    (hnone : M.runtime.dtable c = none → M'.runtime.dtable c = none) : M'.ExactAt N c := by
  unfold Machine.ExactAt
  rw [hs.cache, firstImp_same hs.toSameClasses]
  exact h.imp id fun ⟨⟨hi, hn⟩, hnull⟩ => ⟨⟨by rwa [himage], hnone hn⟩, hnull⟩

theorem setDtable_of_ne {σ : Runtime} {cls c : Class} (t : Dtable) (hc : c ≠ cls) :
    (σ.setDtable cls t).dtable c = σ.dtable c := Function.update_of_ne hc _ _

/-- The tables of a class and its metaclass. -/
theorem Inv.initializePair {M : Machine} (hI : Inv M) {cls : Class} (hlt : cls < M.runtime.classCount)
    (hmeta : M.runtime.isMeta cls = false) (hok : InitializeOk T M.runtime cls) {σ' : Runtime}
    (h : M.runtime.initializePair T cls = some σ') : Inv { M with runtime := σ' } := by
  unfold Runtime.initializePair at h
  cases hnone : M.runtime.dtable cls with
  | some t =>
    rw [if_pos (by simp [classHasDtable, hnone])] at h
    cases h
    exact hI
  | none =>
    rw [if_neg (by simp [classHasDtable, hnone])] at h
    obtain ⟨⟨σ₁, t⟩, hcreate, hrest⟩ := Option.bind_eq_some_iff.mp h
    obtain ⟨hokCls, hokMeta⟩ := hok hnone
    have hw₁ := createDtable_caches hnone hcreate
    have hex₁ := create_exact hnone hcreate hokCls fun N => hI.exact_or_null N cls
    have hoff₁ := hI.exact.mutated hw₁.mutated
    have hne : M.runtime.isa cls ≠ cls := by
      rw [(hI.links.isa_eq cls hlt hmeta).1]
      exact Nat.succ_ne_self cls
    by_cases hskip : M.runtime.classHasDtable (M.runtime.isa cls)
    · dsimp only at hrest
      rw [if_pos hskip] at hrest
      cases hrest
      have hs : SameCaches σ₁ ((σ₁.setDtable cls t).checkARCAccessors T cls) :=
        (sameCaches_setDtable ..).trans (sameCaches_checkARCAccessors ..)
      have htables := sameTables_checkARCAccessors (T := T) (σ₁.setDtable cls t) cls
      have hm := hw₁.toSameClasses.trans hs.toSameClasses
      refine ⟨fun N c _ => ?_, hI.owned.of_same hm.methodsOf hm.nextMethod,
        hI.links.of_same hm.classCount hm.superClass hm.isa hm.isMeta⟩
      by_cases hc : c = cls
      · subst hc
        refine .inl ?_
        show cxxCache _ N c = firstImp _ N c
        rw [hs.cache, firstImp_same hs.toSameClasses]
        exact hex₁ N
      · refine exactAt_of_tables (hoff₁ N c (by simpa using hc)) hs rfl fun hn => ?_
        show ((σ₁.setDtable cls t).checkARCAccessors T cls).dtable c = none
        rw [htables.dtable, setDtable_of_ne t hc]
        exact hn
    · dsimp only at hrest
      rw [if_neg hskip] at hrest
      obtain ⟨⟨σ₂, dt⟩, hcreate₂, hrest⟩ := Option.bind_eq_some_iff.mp hrest
      cases hrest
      have hnoneMeta : M.runtime.dtable (M.runtime.isa cls) = none := by
        simpa [classHasDtable, Option.isSome_iff_ne_none] using hskip
      have hnone₁ : σ₁.dtable (M.runtime.isa cls) = none := (hw₁.live _).mpr hnoneMeta
      have hw₂ := createDtable_caches hnone₁ hcreate₂
      have hex₂ := create_exact hnone₁ hcreate₂ (hokMeta (σ₁, t) hcreate hnone₁) fun N =>
        (hoff₁ N _ (by simpa using hne)).imp id And.right
      have hoff₂ := hoff₁.mutated hw₂.mutated
      set τ := (σ₂.setDtable (M.runtime.isa cls) dt).setDtable cls t with hτ
      have hs : SameCaches σ₂ (τ.checkARCAccessors T cls) :=
        ((sameCaches_setDtable ..).trans (sameCaches_setDtable ..)).trans (sameCaches_checkARCAccessors ..)
      have htables := sameTables_checkARCAccessors (T := T) τ cls
      have hm := (hw₁.toSameClasses.trans hw₂.toSameClasses).trans hs.toSameClasses
      refine ⟨fun N c _ => ?_, hI.owned.of_same hm.methodsOf hm.nextMethod,
        hI.links.of_same hm.classCount hm.superClass hm.isa hm.isMeta⟩
      by_cases hc : c = cls
      · subst hc
        refine .inl ?_
        show cxxCache _ N c = firstImp _ N c
        rw [hs.cache, firstImp_same hs.toSameClasses, hw₂.cache, if_neg hne.symm,
          firstImp_same hw₂.toSameClasses]
        exact hex₁ N
      by_cases hc' : c = M.runtime.isa cls
      · subst hc'
        refine .inl ?_
        show cxxCache _ N _ = firstImp _ N _
        rw [hs.cache, firstImp_same hs.toSameClasses]
        exact hex₂ N
      · refine exactAt_of_tables (hoff₂ N c (by simp [hc, hc'])) hs rfl fun hn => ?_
        show (τ.checkARCAccessors T cls).dtable c = none
        rw [htables.dtable, hτ, setDtable_of_ne t hc, setDtable_of_ne dt hc']
        exact hn

/-- Methods were allocated, nothing else. -/
structure Extends (σ σ' : Runtime) : Prop where
  classCount : σ'.classCount = σ.classCount
  superClass : σ'.superClass = σ.superClass
  isa : σ'.isa = σ.isa
  isMeta : σ'.isMeta = σ.isMeta
  methodLists : σ'.methodLists = σ.methodLists
  dtable : σ'.dtable = σ.dtable
  cache : ∀ N, cxxCache σ' N = cxxCache σ N
  method : ∀ m, m < σ.nextMethod → σ'.method m = σ.method m
  nextMethod : σ.nextMethod ≤ σ'.nextMethod

theorem Extends.refl (σ : Runtime) : Extends σ σ :=
    ⟨rfl, rfl, rfl, rfl, rfl, rfl, fun _ => rfl, fun _ _ => rfl, le_refl _⟩

theorem Extends.alloc {σ τ : Runtime} (h : Extends σ τ) (list : List Method) :
    Extends σ (τ.allocMethods list).1 where
  classCount := h.classCount
  superClass := h.superClass
  isa := h.isa
  isMeta := h.isMeta
  methodLists := h.methodLists
  dtable := h.dtable
  cache N := by
    rw [← h.cache N]
    cases N <;> rfl
  method m hm := by
    unfold allocMethods
    dsimp only
    rw [if_pos (lt_of_lt_of_le hm h.nextMethod)]
    exact h.method m hm
  nextMethod := le_trans h.nextMethod (Nat.le_add_right _ _)

/-- What is not one of the new classes is as it was. -/
theorem newPair_other (σ : Runtime) (super : Option Class) (lists metaLists : List (List MethodId))
    {c : Class}
    (hc : c ≠ σ.classCount) (hc' : c ≠ σ.classCount + 1) :
    (newPair σ super lists metaLists).methodsOf c = σ.methodsOf c ∧
    (newPair σ super lists metaLists).dtable c = σ.dtable c ∧
    ∀ N, cxxCache (newPair σ super lists metaLists) N c = cxxCache σ N c := by
  refine ⟨?_, ?_, fun N => ?_⟩
  · unfold methodsOf newPair
    dsimp only
    rw [Function.update_of_ne hc', Function.update_of_ne hc]
  · unfold newPair
    dsimp only
    rw [Function.update_of_ne hc', Function.update_of_ne hc]
  · cases N <;> simp [newPair, cxxCache, Function.update_of_ne hc', Function.update_of_ne hc]

theorem methodsOf_newPair (σ : Runtime) (super : Option Class) (lists metaLists : List (List MethodId)) :
    (newPair σ super lists metaLists).methodsOf σ.classCount = lists.flatten ∧
    (newPair σ super lists metaLists).methodsOf (σ.classCount + 1) = metaLists.flatten := by
  unfold methodsOf newPair
  dsimp only
  rw [Function.update_self, Function.update_of_ne (Nat.succ_ne_self _).symm, Function.update_self]
  exact ⟨rfl, rfl⟩

theorem Inv.newPair {M M' : Machine} (hI : Inv M) {σ : Runtime} (hσ : Extends M.runtime σ)
    {super : Option Class}
    (hsuper : ∀ s ∈ super, s < M.runtime.classCount ∧ M.runtime.isMeta s = false)
    {lists metaLists : List (List MethodId)} {k : MethodId} (hk : M.runtime.nextMethod ≤ k)
    (hk' : k ≤ σ.nextMethod)
    (hlists : ∀ m ∈ lists.flatten, M.runtime.nextMethod ≤ m ∧ m < k)
    (hmetaLists : ∀ m ∈ metaLists.flatten, k ≤ m ∧ m < σ.nextMethod)
    (hr : M'.runtime = newPair σ super lists metaLists)
    (hother : ∀ c, c ≠ σ.classCount → c ≠ σ.classCount + 1 → M'.fromImage c = M.fromImage c)
    (hnew : lists = [] ∧ metaLists = [] ∨ M'.fromImage σ.classCount ∧ M'.fromImage (σ.classCount + 1)) :
    Inv M' := by
  have hlinks : Links σ := hI.links.of_same hσ.classCount hσ.superClass hσ.isa hσ.isMeta
  have hmethods : σ.methodsOf = M.runtime.methodsOf := by
    funext c
    unfold methodsOf
    rw [hσ.methodLists]
  obtain ⟨hcls, hmeta⟩ := methodsOf_newPair σ super lists metaLists
  -- the methods of a class are the new ones of one of the two lists, or old ones
  have hmem : ∀ c, ∀ m ∈ M'.runtime.methodsOf c,
      c = σ.classCount ∧ M.runtime.nextMethod ≤ m ∧ m < k ∨ c = σ.classCount + 1 ∧ k ≤ m ∧ m < σ.nextMethod ∨
        m < M.runtime.nextMethod ∧ m ∈ M.runtime.methodsOf c := by
    intro c m hm
    rw [hr] at hm
    by_cases hc : c = σ.classCount
    · rw [hc, hcls] at hm
      exact .inl ⟨hc, hlists m hm⟩
    by_cases hc' : c = σ.classCount + 1
    · rw [hc', hmeta] at hm
      exact .inr (.inl ⟨hc', hmetaLists m hm⟩)
    · rw [(newPair_other σ super lists metaLists hc hc').1, hmethods] at hm
      exact .inr (.inr ⟨hI.owned.fresh c m hm, hm⟩)
  have hnextM : M'.runtime.nextMethod = σ.nextMethod := by rw [hr]; rfl
  have hempty : ∀ N, cxxCache M'.runtime N σ.classCount = none ∧
      cxxCache M'.runtime N (σ.classCount + 1) = none ∧
      M'.runtime.dtable σ.classCount = none ∧ M'.runtime.dtable (σ.classCount + 1) = none := by
    intro N
    rw [hr]
    cases N <;> simp [CxxCaches.newPair, cxxCache]
  -- the caches of a new class are NULL: it has no methods, or it came with an image
  have hfresh : ∀ N c, c = σ.classCount ∨ c = σ.classCount + 1 → M'.ExactAt N c := by
    intro N c hc
    obtain ⟨hn, hn', hd, hd'⟩ := hempty N
    rcases hnew with ⟨hnil, hnil'⟩ | ⟨himage, himage'⟩
    · have hfirst : firstImp M'.runtime N c = none := by
        unfold firstImp firstNamed
        rw [hr]
        rcases hc with rfl | rfl
        · rw [hcls, hnil]
          rfl
        · rw [hmeta, hnil']
          rfl
      refine .inl ?_
      rw [hfirst]
      rcases hc with rfl | rfl
      · exact hn
      · exact hn'
    · rcases hc with rfl | rfl
      · exact .inr ⟨⟨himage, hd⟩, hn⟩
      · exact .inr ⟨⟨himage', hd'⟩, hn'⟩
  refine ⟨fun N c _ => ?_, ⟨fun c m hm => ?_, fun m c c' hm hm' => ?_⟩, ?_⟩
  · by_cases hc : c = σ.classCount ∨ c = σ.classCount + 1
    · exact hfresh N c hc
    obtain ⟨hc, hc'⟩ := not_or.mp hc
    obtain ⟨hmo, hdt, hca⟩ := newPair_other σ super lists metaLists hc hc'
    have hfirst : firstImp M'.runtime N c = firstImp M.runtime N c := by
      rw [hr]
      refine firstImp_congr (by rw [hmo, hmethods]) (fun m hm => ?_) N
      exact hσ.method m (hI.owned.fresh c m hm)
    unfold Machine.ExactAt Machine.Awaiting
    rw [hfirst, hr, hca, hdt, hother c hc hc', hσ.dtable, hσ.cache]
    exact hI.exact N c not_false
  · rw [hnextM]
    rcases hmem c m hm with ⟨-, -, hlt⟩ | ⟨-, -, hlt⟩ | ⟨hlt, -⟩
    · exact lt_of_lt_of_le hlt hk'
    · exact hlt
    · exact lt_of_lt_of_le hlt hσ.nextMethod
  · rcases hmem c m hm with ⟨hc, hge, hlt⟩ | ⟨hc, hge, hlt⟩ | ⟨hlt, hold⟩ <;>
      rcases hmem c' m hm' with ⟨hc', hge', hlt'⟩ | ⟨hc', hge', hlt'⟩ | ⟨hlt', hold'⟩
    · rw [hc, hc']
    · exact absurd hlt (not_lt.mpr hge')
    · exact absurd hlt' (not_lt.mpr hge)
    · exact absurd hlt' (not_lt.mpr hge)
    · rw [hc, hc']
    · exact absurd hlt' (not_lt.mpr (le_trans hk hge))
    · exact absurd hlt (not_lt.mpr hge')
    · exact absurd hlt (not_lt.mpr (le_trans hk hge'))
    · exact hI.owned.once m c c' hold hold'
  · rw [hr]
    refine hlinks.newPair lists metaLists fun s hs => ?_
    rw [hσ.classCount, hσ.isMeta]
    exact hsuper s hs

theorem Inv.loadClass {M : Machine} (hI : Inv M) {super : Option Class} (methods classMethods : List Method)
    (hsuper : ∀ s ∈ super, s < M.runtime.classCount ∧ M.runtime.isMeta s = false) :
    Inv (loadClass M super methods classMethods) := by
  set σ₁ := (M.runtime.allocMethods methods).1 with hσ₁
  have hext₁ : Extends M.runtime σ₁ := (Extends.refl M.runtime).alloc methods
  have hext : Extends M.runtime (σ₁.allocMethods classMethods).1 := hext₁.alloc classMethods
  have hnext : (σ₁.allocMethods classMethods).1.nextMethod = σ₁.nextMethod + classMethods.length := rfl
  refine hI.newPair hext hsuper hext₁.nextMethod (by rw [hnext]; exact Nat.le_add_right _ _) ?_ ?_ rfl ?_ ?_
  · intro m hm
    rw [List.flatten_singleton] at hm
    exact List.mem_range'_1.mp hm
  · intro m hm
    rw [List.flatten_singleton] at hm
    exact List.mem_range'_1.mp hm
  · intro c hc hc'
    unfold CxxCaches.loadClass
    dsimp only
    rw [Function.update_of_ne hc', Function.update_of_ne hc]
  · right
    unfold CxxCaches.loadClass
    dsimp only
    constructor
    · rw [Function.update_of_ne (Nat.succ_ne_self _).symm]
      exact Function.update_self ..
    · exact Function.update_self ..

theorem Inv.allocateClassPair {M : Machine} (hI : Inv M) {super : Option Class}
    (hsuper : ∀ s ∈ super, s < M.runtime.classCount ∧ M.runtime.isMeta s = false) :
    Inv (allocateClassPair M super) :=
  hI.newPair (Extends.refl M.runtime) hsuper (le_refl _) (le_refl _) (by simp) (by simp) rfl
  (fun _ _ _ => rfl)
    (.inl ⟨rfl, rfl⟩)

theorem Inv.change {M : Machine} (hI : Inv M) {cls : Class} {σ' : Runtime} (hm : Mutated cls M.runtime σ')
    (hex : Machine.ExactOff (fun _ => False) { M with runtime := σ' }) : Inv { M with runtime := σ' } :=
  ⟨hex, hm.owned hI.owned, hI.links.of_mutated hm⟩

theorem Inv.rebuild {M : Machine} (hI : Inv M) (cls : Class) :
    Inv { M with runtime := rebuildCxxMethodCaches M.runtime cls } := by
  have hm := (writes_refresh M.runtime cls).mutated
  refine hI.change hm fun N c _ => ?_
  exact hI.exact.refresh cls N c (by simp)

theorem Inv.registerClassPair {M : Machine} (hI : Inv M) {cls : Class} (hlt : cls < M.runtime.classCount)
    (hmeta : M.runtime.isMeta cls = false) : Inv (registerClassPair M cls) := by
  have hI' := (hI.rebuild cls).rebuild (M.runtime.isa cls)
  have hlisted : Inv { M with
      runtime := rebuildCxxMethodCaches (rebuildCxxMethodCaches M.runtime cls) (M.runtime.isa cls)
      listed := Function.update M.listed cls true } := ⟨hI'.exact, hI'.owned, hI'.links⟩
  exact (hlisted.resolve hlt hmeta).1

/-- Both plans are committed, and then the caches of both classes are rebuilt. -/
theorem Inv.safeReload {M : Machine} (hI : Inv M) (canonical : Class)
    (instanceMethods classMethods : List Method) :
    Inv { M with runtime := M.runtime.safeReload T canonical instanceMethods classMethods } := by
  unfold Runtime.safeReload
  split
  · next instancePlan classPlan hinstance hclass =>
    dsimp only
    set metaclass := M.runtime.isa canonical with hmetaclass
    have htargets := preparePlan_targets hinstance
    have htargets' := preparePlan_targets hclass
    have hm₁ := mutated_commitPlan (T := T) hI.owned htargets
    have htargets₁ : ∀ e ∈ classPlan, ∀ m ∈ e.target,
        m ∈ (M.runtime.commitPlan T canonical instancePlan).methodsOf metaclass := by
      intro e he m hm
      have := htargets' e he m hm
      by_cases hc : metaclass = canonical
      · rw [hc] at this ⊢
        exact hm₁.grows this
      · rwa [hm₁.methodsOf metaclass hc]
    have hm₂ := mutated_commitPlan (T := T) (hm₁.owned hI.owned) htargets₁
    have hoff := ((hI.exact.mutated hm₁).mutated hm₂).refresh canonical
    have hisa : ((M.runtime.commitPlan T canonical instancePlan).commitPlan T metaclass
        classPlan).isa canonical =
        metaclass := by rw [hm₂.isa, hm₁.isa]
    rw [hisa]
    have hm₃ := (writes_refresh
        ((M.runtime.commitPlan T canonical instancePlan).commitPlan T metaclass classPlan)
      canonical).mutated
    have hm₄ := (writes_refresh (((M.runtime.commitPlan T canonical instancePlan).commitPlan T metaclass
      classPlan).refreshReloadCxxCache canonical) metaclass).mutated
    refine ⟨fun N c _ => hoff.refresh metaclass N c ?_,
        hm₄.owned (hm₃.owned (hm₂.owned (hm₁.owned hI.owned))),
      (((hI.links.of_mutated hm₁).of_mutated hm₂).of_mutated hm₃).of_mutated hm₄⟩
    rintro ⟨⟨(hfalse | hc) | hc, hne⟩, hne'⟩
    · exact hfalse
    · exact hne hc
    · exact hne' hc
  · exact hI

theorem Inv.setImp {M : Machine} (hI : Inv M) (m : MethodId) (imp : Imp) :
    Owned (M.runtime.setImp m imp) ∧ Links (M.runtime.setImp m imp) :=
  ⟨hI.owned.of_same rfl rfl, hI.links.of_same rfl rfl rfl rfl⟩

theorem owned_links_refresh {M : Machine} (h : Owned M.runtime ∧ Links M.runtime) (m : MethodId) :
    Owned (refreshCxxMethodCaches M m).runtime ∧ Links (refreshCxxMethodCaches M m).runtime := by
  obtain ⟨construct, destruct, heq⟩ := refresh_eq M m
  rw [heq]
  exact ⟨h.1.of_same rfl rfl, h.2.of_same rfl rfl rfl rfl⟩

/-- **One call.** -/
theorem Inv.next {M : Machine} (hI : Inv M) {op : Op} (hen : enabled T M op) (hok : CacheOk T M op) :
    Inv (next T M op) := by
  cases op with
  | allocateClassPair super => exact hI.allocateClassPair hen
  | loadClass super methods classMethods => exact hI.loadClass methods classMethods hen
  | registerClassPair cls => exact hI.registerClassPair hen.1 hen.2.1
  | sendInitialize cls =>
    obtain ⟨hlt, hmeta, hsome⟩ := hen
    obtain ⟨hI', hs⟩ := hI.resolve hlt hmeta
    obtain ⟨σ', hσ'⟩ := Option.isSome_iff_exists.mp hsome
    unfold CxxCaches.next
    dsimp only
    rw [hσ', Option.getD_some]
    exact hI'.initializePair (by rwa [hs.classCount]) (by rwa [hs.isMeta]) hok hσ'
  | addMethod cls name imp types =>
    rcases exact_addMethod hI.exact hI.owned cls name imp types with ⟨hex, hm⟩ | hsame
    · exact hI.change hm hex
    · unfold CxxCaches.next
      dsimp only
      rw [hsame]
      exact hI
  | replaceMethod cls name imp types =>
    rcases exact_replaceMethod hI.exact hI.owned hok with ⟨hex, hm⟩ | hsame
    · exact hI.change hm hex
    · unfold CxxCaches.next
      dsimp only
      rw [hsame]
      exact hI
  | setImplementation m imp =>
    obtain ⟨ho, hl⟩ := owned_links_refresh (M := { M with runtime := M.runtime.setImp m imp })
        (hI.setImp m imp) m
    exact ⟨exact_setImplementation hI.exact imp hok, ho, hl⟩
  | exchangeImplementations m₁ m₂ =>
    have hset : Owned ((M.runtime.setImp m₁ (M.runtime.method m₂).imp).setImp m₂ (M.runtime.method m₁).imp) ∧
        Links ((M.runtime.setImp m₁ (M.runtime.method m₂).imp).setImp m₂ (M.runtime.method m₁).imp) :=
      ⟨(hI.owned.of_same rfl rfl).of_same rfl rfl, (hI.links.of_same rfl rfl rfl rfl).of_same rfl rfl rfl rfl⟩
    obtain ⟨ho, hl⟩ := owned_links_refresh (owned_links_refresh
      (M := { M with runtime := (M.runtime.setImp m₁ (M.runtime.method m₂).imp).setImp m₂ (M.runtime.method m₁).imp })
      hset m₁) m₂
    exact ⟨exact_exchangeImplementations hI.exact hok, ho, hl⟩
  | registerMethods cls list =>
    exact hI.change (mutated_registerMethods hI.owned cls list) (exact_registerMethods hI.exact hI.owned hok)
  | safeReload canonical instanceMethods classMethods =>
    exact hI.safeReload canonical instanceMethods classMethods

theorem inv_start : Inv Machine.start where
  exact N _ _ := .inl (by cases N <;> rfl)
  owned := ⟨fun _ _ hm => by simp [Machine.start, methodsOf] at hm, fun _ _ _ hm => by simp [Machine.start, methodsOf] at hm⟩
  links := ⟨fun c hc => absurd hc (Nat.not_lt_zero c), fun _ _ h => by simp [Machine.start] at h,
    fun c hc => absurd hc (Nat.not_lt_zero c)⟩

/-- **What the calls keep, the runs keep.** -/
theorem Inv.of_runs {M : Machine}
    (h : Runs (guarded (fun M op => enabled T M op ∧ CacheOk T M op) (CxxCaches.next T))
      Machine.start M) : Inv M :=
  h.invariant inv_start fun _ _ _ hI ⟨⟨hen, hok⟩, hnext⟩ => by
    rw [hnext]
    exact hI.next hen hok

/-! ## Objects -/

theorem ancestorsFuel_lt {σ : Runtime} (hl : Links σ) : ∀ (fuel : ℕ) (cls : Class),
    ∀ a ∈ σ.ancestorsFuel fuel cls, a ≤ cls
  | 0, _ => by simp [ancestorsFuel]
  | fuel + 1, cls => by
    intro a ha
    rw [ancestorsFuel, List.mem_cons] at ha
    rcases ha with rfl | ha
    · exact le_refl _
    · cases hs : σ.superClass cls with
      | none =>
        rw [hs] at ha
        cases ha
      | some s =>
        rw [hs] at ha
        exact le_trans (ancestorsFuel_lt hl fuel s a ha) (hl.super_lt cls s hs).le

/-- No class is its own superclass, at any distance. -/
theorem nodup_ancestorsFuel {σ : Runtime} (hl : Links σ) (fuel : ℕ) (cls : Class) :
    (σ.ancestorsFuel fuel cls).Nodup := by
  induction fuel generalizing cls with
  | zero => exact List.nodup_nil
  | succ fuel ih =>
    rw [ancestorsFuel, List.nodup_cons]
    cases hs : σ.superClass cls with
    | none => exact ⟨List.not_mem_nil, List.nodup_nil⟩
    | some s =>
      refine ⟨fun hmem => ?_, ih s⟩
      exact absurd (hl.super_lt cls s hs) (not_lt.mpr (ancestorsFuel_lt hl fuel s cls hmem))

theorem callCxxDestruct_eq {σ : Runtime} (fuel : ℕ) (cls : Class)
    (h : ∀ a ∈ σ.ancestorsFuel fuel cls, σ.cxxDestruct a = firstImp σ .destruct a) :
    callCxxDestruct σ fuel cls = (σ.ancestorsFuel fuel cls).filterMap (firstImp σ .destruct) := by
  induction fuel generalizing cls with
  | zero => rfl
  | succ fuel ih =>
    have hown := h cls (by simp [ancestorsFuel])
    rw [callCxxDestruct, ancestorsFuel, hown]
    cases hs : σ.superClass cls with
    | none => cases hf : firstImp σ .destruct cls <;> simp [hf]
    | some s =>
      rw [Option.elim_some, Option.elim_some, ih s fun a ha => h a (by simp [ancestorsFuel, hs, ha])]
      cases hf : firstImp σ .destruct cls <;> simp [hf]

theorem callCxxConstruct_eq {σ : Runtime} (fuel : ℕ) (cls : Class)
    (h : ∀ a ∈ σ.ancestorsFuel fuel cls, σ.cxxConstruct a = firstImp σ .construct a) :
    callCxxConstruct σ fuel cls = (σ.ancestorsFuel fuel cls).reverse.filterMap (firstImp σ .construct) := by
  induction fuel generalizing cls with
  | zero => rfl
  | succ fuel ih =>
    have hown := h cls (by simp [ancestorsFuel])
    rw [callCxxConstruct, ancestorsFuel, hown, List.reverse_cons, List.filterMap_append]
    cases hs : σ.superClass cls with
    | none => cases hf : firstImp σ .construct cls <;> simp [hf]
    | some s =>
      rw [Option.elim_some, Option.elim_some, ih s fun a ha => h a (by simp [ancestorsFuel, hs, ha])]
      cases hf : firstImp σ .construct cls <;> simp [hf]

/-- **The caches are exact.** In every state of the runs whose calls keep them, so are all caches but
    those of the classes of images that still wait for their tables; and for an object whose class and
    superclasses have them, the current constructor and destructor of each class is called once. -/
theorem cxxCaches_exact {M : Machine}
    (h : Runs (guarded (fun M op => enabled T M op ∧ CacheOk T M op) (next T)) Machine.start M) :
    (∀ N cls, ¬ M.Awaiting cls → cxxCache M.runtime N cls = firstImp M.runtime N cls) ∧
    (∀ N cls, M.Awaiting cls →
      cxxCache M.runtime N cls = firstImp M.runtime N cls ∨ cxxCache M.runtime N cls = none) ∧
    ∀ cls, (∀ a ∈ M.runtime.ancestors cls, ¬ M.Awaiting a) →
      (M.runtime.ancestors cls).Nodup ∧
      callCxxDestruct M.runtime (M.runtime.classCount + 1) cls =
        (M.runtime.ancestors cls).filterMap (firstImp M.runtime .destruct) ∧
      callCxxConstruct M.runtime (M.runtime.classCount + 1) cls =
        (M.runtime.ancestors cls).reverse.filterMap (firstImp M.runtime .construct) := by
  have hI := Inv.of_runs h
  have hexact : ∀ N cls, ¬ M.Awaiting cls → cxxCache M.runtime N cls = firstImp M.runtime N cls :=
    fun N cls hno => (hI.exact N cls not_false).resolve_right fun haw => hno haw.1
  refine ⟨hexact, fun N cls _ => hI.exact_or_null N cls, fun cls hcls => ⟨?_, ?_, ?_⟩⟩
  · exact nodup_ancestorsFuel hI.links _ cls
  · exact callCxxDestruct_eq _ cls fun a ha => hexact .destruct a (hcls a ha)
  · exact callCxxConstruct_eq _ cls fun a ha => hexact .construct a (hcls a ha)

/-- A class of an image and a subclass that the program makes, both with a destructor; that of the
    subclass is replaced. -/
def replacedDestructor : List Op :=
  [.loadClass none [⟨".cxx_destruct", "v@:", 1⟩] [], .sendInitialize 0, .allocateClassPair (some 0),
    .addMethod 2 ".cxx_destruct" 2 (some "v@:"), .registerClassPair 2, .sendInitialize 2,
    .replaceMethod 2 ".cxx_destruct" 3 none]

theorem cxxCaches_exact_replaced :
    let M := runList (next (SelectorTable.coded id)) Machine.start replacedDestructor
    callCxxDestruct M.runtime 5 2 = [3, 1] ∧
    callCxxDestruct M.runtime 5 2 = (M.runtime.ancestors 2).filterMap (firstImp M.runtime .destruct) := by
  refine ⟨by decide +kernel, ((cxxCaches_exact (runs_of_allOk replacedDestructor Machine.start ?_)).2.2 2 ?_).2.1⟩
  · exact ⟨⟨by decide +kernel, trivial⟩, ⟨by decide +kernel, by unfold CacheOk; decide +kernel⟩,
      ⟨by decide +kernel, trivial⟩, ⟨by decide +kernel, trivial⟩, ⟨by decide +kernel, trivial⟩,
      ⟨by decide +kernel, by unfold CacheOk; decide +kernel⟩,
      ⟨by decide +kernel, by unfold CacheOk; decide +kernel⟩, trivial⟩
  · unfold Machine.Awaiting
    decide +kernel

/-- A class with a destructor that has its table already. -/
def lateDestructor : List Op :=
  [.allocateClassPair none, .addMethod 0 ".cxx_destruct" 1 (some "v@:"), .registerClassPair 0,
    .sendInitialize 0,
    .registerMethods 0 [⟨".cxx_destruct", "v@:", 2⟩]]

/-- The destructor of a category comes first in the method lists, but the table does not take it in. -/
theorem late_destructor_not_cached :
    let M := runList (next (SelectorTable.coded id)) Machine.start lateDestructor
    AllOk (enabled (SelectorTable.coded id)) (next (SelectorTable.coded id)) Machine.start lateDestructor ∧
    ¬ M.Awaiting 0 ∧ firstImp M.runtime .destruct 0 = some 2 ∧ cxxCache M.runtime .destruct 0 = some 1 ∧
    callCxxDestruct M.runtime 3 0 = [1] := by
  unfold Machine.Awaiting
  decide +kernel

end Libobjc2.Dispatch.CxxCaches
