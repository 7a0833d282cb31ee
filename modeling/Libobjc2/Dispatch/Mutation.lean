import Libobjc2.Dispatch.Dtable

/-!
# Mutations of classes

The functions that change method lists, implementations and superclasses while classes are in
use: src/runtime/runtime.c, category_loader.c and the two kinds of reload of class_table.c.
Arguments that the functions check for `NULL` are present here, except where `types` is an
`Option`. Observer events, protocols and properties are left out.
-/

namespace Libobjc2.Dispatch

namespace Runtime

variable (T : SelectorTable)

/-- Methods that come into being, as a list with fresh addresses. -/
def allocMethods (σ : Runtime) (list : List Method) : Runtime × List MethodId :=
  ({ σ with
      method := fun m =>
        if m < σ.nextMethod then σ.method m else (list[m - σ.nextMethod]?).getD (σ.method m)
      nextMethod := σ.nextMethod + list.length },
    List.range' σ.nextMethod list.length)

/-- A method list goes to the head of the lists of a class. -/
def pushMethodList (σ : Runtime) (cls : Class) (list : List MethodId) : Runtime :=
  { σ with methodLists := Function.update σ.methodLists cls (list :: σ.methodLists cls) }

/-- `class_getInstanceMethodNonrecursive` (runtime.c, lines 83–98). -/
def getInstanceMethodNonrecursive (σ : Runtime) (cls : Class) (sel : Selector) : Option MethodId :=
  (σ.methodsOf cls).find? fun m => T.selIsEqual (σ.method m).selector sel

/-- `class_addMethod` (runtime.c, lines 201–259). -/
def addMethod (σ : Runtime) (cls : Class) (name : String) (imp : Imp) (types : Option String) :
    Runtime × Bool :=
  match types with
  | none => (σ, false)
  | some types =>
    if (σ.methodsOf cls).any fun m => (σ.method m).name = name then (σ, false)
    else
      let (σ, list) := σ.allocMethods [⟨name, types, imp⟩]
      let σ := (σ.pushMethodList cls list).updateCxxMethodCache cls name imp
      (if σ.classHasDtable cls then σ.addMethodListToClass T cls list else σ, true)

/-- `class_replaceMethod` (runtime.c, lines 554–579). -/
def replaceMethod (σ : Runtime) (cls : Class) (name : String) (imp : Imp) (types : Option String) :
    Runtime × Option Imp :=
  match σ.getInstanceMethodNonrecursive T cls ⟨name, types⟩ with
  | none => ((σ.addMethod T cls name imp types).1, none)
  | some m => ((σ.setImp m imp).updateCxxMethodCache cls name imp, some (σ.method m).imp)

/-- `objc_refresh_cxx_method_caches` (dtable.c, lines 660–695). -/
def refreshCxxMethodCaches (σ : Runtime) (m : MethodId) : Runtime :=
  let method := σ.method m
  let refreshed (cache : Class → Option Imp) : Class → Option Imp := fun cls =>
    if m ∈ σ.methodsOf cls then some method.imp else cache cls
  if method.name = ".cxx_construct" then { σ with cxxConstruct := refreshed σ.cxxConstruct }
  else if method.name = ".cxx_destruct" then { σ with cxxDestruct := refreshed σ.cxxDestruct }
  else σ

/-- `method_setImplementation` (runtime.c, lines 718–736). -/
def setImplementation (σ : Runtime) (m : MethodId) (imp : Imp) : Runtime :=
  (σ.setImp m imp).refreshCxxMethodCaches m

/-- `method_exchangeImplementations` (runtime.c, lines 682–703). -/
def exchangeImplementations (σ : Runtime) (m₁ m₂ : MethodId) : Runtime :=
  let first := (σ.method m₁).imp
  let second := (σ.method m₂).imp
  (((σ.setImp m₁ second).setImp m₂ first).refreshCxxMethodCaches m₁).refreshCxxMethodCaches m₂

/-- `register_methods` (category_loader.c, lines 14–28), which `load_category` calls for the class and
    for its metaclass. -/
def registerMethods (σ : Runtime) (cls : Class) (list : List Method) : Runtime :=
  let (σ, list) := σ.allocMethods list
  let σ := σ.pushMethodList cls list
  if σ.classHasDtable cls then σ.addMethodListToClass T cls list else σ

/-- The branch of `permissive_reload_class` for equal layouts (class_table.c, lines 908–914). -/
def permissiveReload (σ : Runtime) (old : Class) (methods : List Method) : Runtime :=
  let (σ, list) := σ.allocMethods methods
  (σ.pushMethodList old list).updateDtableForClass T old

/-! ## Safe reload -/

/-- `struct safe_reload_method_entry`: a method of the candidate, and the method of the target that
    has its name. -/
structure ReloadEntry where
  target : Option MethodId
  method : Method
deriving Repr

/-- `safe_reload_prepare_plan` (class_table.c, lines 666–764) with all allocations succeeding, on the
    methods of the candidate: `none` for the reason `method-signature`. -/
def preparePlan (σ : Runtime) (target : Class) (source : List Method) : Option (List ReloadEntry) :=
  source.foldlM (fun plan incoming =>
    if plan.any fun e => e.method.name = incoming.name then some plan
    else
      let existing := σ.firstNamed target incoming.name
      if existing.all fun m => (σ.method m).types = incoming.types then some (plan ++ [⟨existing, incoming⟩])
      else none) []

/-- The additions of a plan: its entries without a target. -/
def additions (plan : List ReloadEntry) : List Method :=
  (plan.filter fun e => e.target.isNone).map (·.method)

/-- `safe_reload_commit_plan` (class_table.c, lines 781–812). -/
def commitPlan (σ : Runtime) (target : Class) (plan : List ReloadEntry) : Runtime :=
  let σ := if additions plan = [] then σ else σ.registerMethods T target (additions plan)
  plan.foldl (fun σ e => e.target.elim σ fun m => σ.setImp m e.method.imp) σ

/-- `refresh_reload_cxx_cache` (class_table.c, lines 814–834). -/
def refreshReloadCxxCache (σ : Runtime) (cls : Class) : Runtime :=
  let first (name : String) : Option Imp := (σ.firstNamed cls name).map fun m => (σ.method m).imp
  { σ with
    cxxConstruct := Function.update σ.cxxConstruct cls (first ".cxx_construct")
    cxxDestruct := Function.update σ.cxxDestruct cls (first ".cxx_destruct") }

/-- `safe_reload_class` (class_table.c, lines 836–882) for a candidate whose layout matches. -/
def safeReload (σ : Runtime) (canonical : Class) (instanceMethods classMethods : List Method) : Runtime :=
  match σ.preparePlan canonical instanceMethods, σ.preparePlan (σ.isa canonical) classMethods with
  | some instancePlan, some classPlan =>
    let σ := (σ.commitPlan T canonical instancePlan).commitPlan T (σ.isa canonical) classPlan
    (σ.refreshReloadCxxCache canonical).refreshReloadCxxCache (σ.isa canonical)
  | _, _ => σ

/-! ## Superclasses -/

/-- `safe_remove_from_subclass_list` (runtime.c, lines 905–927). -/
def removeFromSubclassList (σ : Runtime) (cls : Class) : Runtime :=
  match σ.superClass cls with
  | none => σ
  | some sup => { σ with subclassList := Function.update σ.subclassList sup ((σ.subclassList sup).erase cls) }

/-- `cls` gets a new superclass, at the head of whose subclass list it goes. -/
def linkSuperclass (σ : Runtime) (cls newSuper : Class) : Runtime :=
  { σ with
    superClass := Function.update σ.superClass cls (some newSuper)
    subclassList := Function.update σ.subclassList newSuper (cls :: σ.subclassList newSuper) }

/-- The changes of links that `class_setSuperclass` makes under the runtime lock (runtime.c, lines
    607–634). -/
def moveClass (σ : Runtime) (cls newSuper : Class) : Runtime :=
  let σ := (σ.removeFromSubclassList cls).linkSuperclass cls newSuper
  if σ.isMeta cls then { σ with isa := Function.update σ.isa cls (σ.isa newSuper) }
  else
    let metaclass := σ.isa cls
    let newSuperMeta := σ.isa newSuper
    let σ := (σ.removeFromSubclassList metaclass).linkSuperclass metaclass newSuperMeta
    { σ with isa := Function.update σ.isa metaclass (σ.isa newSuperMeta) }

/-- `class_setSuperclass` (runtime.c, lines 593–650); `none` where the source aborts. -/
def setSuperclass (σ : Runtime) (cls newSuper : Class) : Option Runtime :=
  if σ.superClass cls = some newSuper then some σ
  else
    let σ := σ.moveClass cls newSuper
    if !σ.classHasDtable cls then some σ
    else do
      let σ ← σ.sendInitialize T (σ.classCount + 1) newSuper
      let σ := σ.updateDtableForNewSuperclass T (σ.isa cls) (σ.isa newSuper)
      return σ.updateDtableForNewSuperclass T cls newSuper

end Runtime

/-! ## Runs of the runtime -/

/-- What a program may do to its classes. -/
inductive Op where
  | sendInitialize (cls : Class)
  | addMethod (cls : Class) (name : String) (imp : Imp) (types : Option String)
  | replaceMethod (cls : Class) (name : String) (imp : Imp) (types : Option String)
  | setImplementation (m : MethodId) (imp : Imp)
  | exchangeImplementations (m₁ m₂ : MethodId)
  | registerMethods (cls : Class) (list : List Method)
  | permissiveReload (old : Class) (methods : List Method)
  | safeReload (canonical : Class) (instanceMethods classMethods : List Method)
  | setSuperclass (cls newSuper : Class)
deriving Repr

namespace Runtime

variable (T : SelectorTable)

/-- One call; `none` where the source aborts. -/
def perform (σ : Runtime) : Op → Option Runtime
  | .sendInitialize cls => σ.sendInitialize T (σ.classCount + 1) cls
  | .addMethod cls name imp types => some (σ.addMethod T cls name imp types).1
  | .replaceMethod cls name imp types => some (σ.replaceMethod T cls name imp types).1
  | .setImplementation m imp => some (σ.setImplementation m imp)
  | .exchangeImplementations m₁ m₂ => some (σ.exchangeImplementations m₁ m₂)
  | .registerMethods cls list => some (σ.registerMethods T cls list)
  | .permissiveReload old methods => some (σ.permissiveReload T old methods)
  | .safeReload canonical instanceMethods classMethods =>
    some (σ.safeReload T canonical instanceMethods classMethods)
  | .setSuperclass cls newSuper => σ.setSuperclass T cls newSuper

/-- The state after a call. -/
def next (σ : Runtime) (op : Op) : Runtime := (σ.perform T op).getD σ

end Runtime

end Libobjc2.Dispatch
