import Libobjc2.Dispatch.Classes

/-!
# Dispatch tables

The functions of src/dispatch/dtable.c that fill, update and rebuild the tables of classes.
Recursion over subclasses and over superclasses is bounded by the number of classes; the
bound is reached only in a cyclic hierarchy.
-/

namespace Libobjc2.Dispatch

/-- `SparseArrayInsert` on a table. -/
def Dtable.insert (t : Dtable) (index : ℕ) (m : Option MethodId) : Dtable := Function.update t index m

/-- A temporary array of methods, as the list of its entries by increasing index. -/
abbrev MethodArray := List (ℕ × MethodId)

def MethodArray.insert : MethodArray → ℕ → MethodId → MethodArray
  | [], index, m => [(index, m)]
  | e :: es, index, m =>
    if index < e.1 then (index, m) :: e :: es
    else if index = e.1 then (index, m) :: es
    else e :: MethodArray.insert es index m

namespace Runtime

variable (T : SelectorTable)

/-- `collectMethodsForMethodListToSparseArray` (dtable.c, lines 256–270) with `recurse`: the lists
    from the last to the first, each from its first method to its last. -/
def collectMethods (σ : Runtime) (lists : List (List MethodId)) (methods : MethodArray) : MethodArray :=
  lists.reverse.foldl
    (fun methods list => list.foldl (fun methods m => methods.insert (T.typed (σ.method m)) m)
      methods) methods

/-- The cached `.cxx_construct` and `.cxx_destruct` of a class that has just got a method. -/
def updateCxxMethodCache (σ : Runtime) (cls : Class) (name : String) (imp : Imp) : Runtime :=
  if name = ".cxx_construct" then { σ with cxxConstruct := Function.update σ.cxxConstruct cls (some imp) }
  else if name = ".cxx_destruct" then { σ with cxxDestruct := Function.update σ.cxxDestruct cls (some imp) }
  else σ

/-- `objc_method_cache_version++`. -/
def bumpCacheVersion (σ : Runtime) : Runtime := { σ with cacheVersion := σ.cacheVersion + 1 }

/-- `installMethodInDtable` (dtable.c, lines 388–461) on the table `dtable` of `cls`, which need not be
    installed yet: the runtime with the tables of the subclasses updated, the new table of
    `cls`, and whether the method was installed. -/
def installMethodInDtable (σ : Runtime) : ℕ → Class → Dtable → MethodId → Option MethodId → Bool → Bool →
    Runtime × Dtable × Bool
  | 0, _, dtable, _, _, _, _ => (σ, dtable, false)
  | fuel + 1, cls, dtable, m, methodToReplace, replaceExisting, updateCxxCache =>
    let method := σ.method m
    let oldMethod := dtable (T.typed method)
    if replaceExisting && methodToReplace ≠ oldMethod then (σ, dtable, false)
    else if !replaceExisting && oldMethod ≠ none then (σ, dtable, false)
    -- a method with the implementation that is there already is not installed
    else if oldMethod.map (fun old => (σ.method old).imp) = some method.imp then (σ, dtable, false)
    else
      let dtable := (dtable.insert (T.typed method) (some m)).insert (T.untyped method.name) (some m)
      let σ := if updateCxxCache then σ.updateCxxMethodCache cls method.name method.imp else σ
      let σ := (σ.subclassList cls).foldl (fun σ subclass =>
        if σ.classHasDtable subclass then
          let (σ, subDtable, _) := σ.installMethodInDtable fuel subclass (σ.dtableForClass subclass) m
            oldMethod true false
          σ.setDtable subclass subDtable
        else σ) σ
      (if oldMethod = none then σ else σ.bumpCacheVersion, dtable, true)

/-- `installMethodsInClass` (dtable.c, lines 463–484): the runtime, and the methods that were
    installed. -/
def installMethodsInClass (σ : Runtime) (cls : Class) (methodsToReplace : Option Dtable)
    (methods : MethodArray) (replaceExisting : Bool) : Runtime × MethodArray :=
  methods.foldl (fun (σ, kept) (index, m) =>
    let methodToReplace := methodsToReplace.bind fun t => t (T.typed (σ.method m))
    let (σ, dtable, installed) := σ.installMethodInDtable T (σ.classCount + 1) cls (σ.dtableForClass cls) m
      methodToReplace replaceExisting true
    (σ.setDtable cls dtable, if installed then kept ++ [(index, m)] else kept)) (σ, [])

/-- `objc_update_dtable_for_class` (dtable.c, lines 488–502). -/
def updateDtableForClass (σ : Runtime) (cls : Class) : Runtime :=
  if !σ.classHasDtable cls then σ
  else
    let methods := σ.collectMethods T (σ.methodLists cls) []
    let superDtable := (σ.superClass cls).map σ.dtableForClass
    (σ.installMethodsInClass T cls superDtable methods true).1.checkARCAccessors T cls

/-- `add_method_list_to_class` (dtable.c, lines 581–597). -/
def addMethodListToClass (σ : Runtime) (cls : Class) (list : List MethodId) : Runtime :=
  if !σ.classHasDtable cls then σ
  else
    let superDtable := (σ.superClass cls).map σ.dtableForClass
    let methods := σ.collectMethods T [list] []
    (σ.installMethodsInClass T cls superDtable methods true).1.checkARCAccessors T cls

/-- `create_dtable_for_class` (dtable.c, lines 599–655): the new table, not installed yet; `none` where
    the source aborts. -/
def createDtableForClass (σ : Runtime) (cls : Class) (rootDtable : Dtable) : Option (Runtime × Dtable) :=
  match σ.dtable cls with
  | some dtable => some (σ, dtable)
  | none => do
    let superDtable : Option Dtable ← match σ.superClass cls with
      | none => some none
      | some sup =>
        match σ.dtable sup with
        | some t => some (some t)
        -- the metaclass of a root class is below the root class
        | none => if σ.isa sup = cls then some (some rootDtable) else none
    return (σ.methodsOf cls).foldl (fun (σ, dtable) m =>
      let superMethod := superDtable.bind fun t => t (T.typed (σ.method m))
      let (σ, dtable, _) := σ.installMethodInDtable T (σ.classCount + 1) cls dtable m superMethod true true
      (σ, dtable)) (σ, superDtable.getD fun _ => none)

/-- `objc_send_initialize` (dtable.c, lines 846–955) once the superclass is initialised: the tables of
    a class and its metaclass. The initialized flag is set together with the table. What a
    `+initialize` method does comes as further steps of the program. -/
def initializePair (σ : Runtime) (cls : Class) : Option Runtime :=
  if σ.classHasDtable cls then some σ
  else
    let metaclass := σ.isa cls
    let skipMeta := σ.classHasDtable metaclass
    (σ.createDtableForClass T cls fun _ => none).bind fun (σ, classDtable) =>
      if skipMeta then some ((σ.setDtable cls classDtable).checkARCAccessors T cls)
      else (σ.createDtableForClass T metaclass classDtable).bind fun (σ, dtable) =>
        some (((σ.setDtable metaclass dtable).setDtable cls classDtable).checkARCAccessors T cls)

/-- `objc_send_initialize` (dtable.c, lines 824–956) for the class or metaclass `cls`. -/
def sendInitialize (σ : Runtime) : ℕ → Class → Option Runtime
  | 0, _ => none
  | fuel + 1, cls =>
    -- the superclass is initialised first
    ((σ.superClass cls).elim (some σ) fun sup => σ.sendInitialize fuel sup).bind
      fun σ => σ.initializePair T cls

/-- The temporary table of `rebaseDtableRecursive` after the loop over the own methods of the class:
    the first method of each selector. -/
def ownMethodTable (σ : Runtime) (cls : Class) : Dtable :=
  (σ.methodsOf cls).foldl (fun temporary m =>
    let index := T.typed (σ.method m)
    if temporary index = none then temporary.insert index (some m) else temporary) fun _ => none

/-- The two loops of `rebaseDtableRecursive` over the entries of a table (dtable.c, lines 526–548),
    which skip index 0, index by index: the entries of the parent that `temporary` does not have
    go into `dtable` and into `temporary`; then what `temporary` does not have is removed. -/
def rebaseEntries (parentDtable temporary dtable : Dtable) : Dtable :=
  let fromParent (index : ℕ) : Bool := index ≠ 0 && parentDtable index ≠ none && temporary index = none
  let inherited : Dtable := fun index => if fromParent index then parentDtable index else dtable index
  let temporary : Dtable := fun index => if fromParent index then parentDtable index else temporary index
  fun index => if index ≠ 0 && inherited index ≠ none && temporary index = none then none else inherited index

/-- `rebaseDtableRecursive` (dtable.c, lines 504–564). -/
def rebaseDtableRecursive (σ : Runtime) : ℕ → Class → Class → Runtime
  | 0, _, _ => σ
  | fuel + 1, cls, newSuper =>
    let dtable := rebaseEntries (σ.dtableForClass newSuper) (σ.ownMethodTable T cls) (σ.dtableForClass cls)
    let σ := (σ.setDtable cls dtable).checkARCAccessors T cls
    (σ.subclassList cls).foldl (fun σ subclass =>
      if σ.classHasDtable subclass then σ.rebaseDtableRecursive fuel subclass cls else σ) σ

/-- `objc_update_dtable_for_new_superclass` (dtable.c, lines 566–579). -/
def updateDtableForNewSuperclass (σ : Runtime) (cls newSuper : Class) : Runtime :=
  if !σ.classHasDtable cls then σ
  else (σ.rebaseDtableRecursive T (σ.classCount + 1) cls newSuper).bumpCacheVersion

end Runtime

end Libobjc2.Dispatch
