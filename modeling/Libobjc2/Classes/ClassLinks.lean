import Libobjc2.Common.LinkedList
import Libobjc2.Common.Run

/-!
# The links between classes

The fields of `struct objc_class` that link classes to each other, and the functions that edit
them: src/runtime/class_table.c, runtime.c and src/memory/associate.mm. Until a class is resolved its
`subclass_list` and `sibling_class` are the links of the list of the unresolved classes.

A class is a number that stands for its address. A function is `none` where a loop of the source
does not end within `fuel` rounds or an assertion fails. Aliases, class hooks and everything that is
not a link are left out.
-/

namespace Libobjc2.Classes

open Libobjc2.Common

abbrev Class := ℕ

/-- The class structures.
    * `present`: there is a class structure at this address, in an image or on the heap;
    * `legacySuper`: the name of the superclass in the structure of the old ABI that a class was made
      from, if it was;
    * `isa`: where a metaclass that is not resolved has NULL, the metaclass itself;
    * `table`: the classes in the class table, the latest first. -/
structure ClassLinks where
  present : Class → Bool
  name : Class → String
  isMeta : Class → Bool
  duplicate : Class → Bool
  resolved : Class → Bool
  superClass : Class → Option Class
  legacySuper : Class → Option String
  isa : Class → Class
  subclassList : Class → Option Class
  siblingClass : Class → Option Class
  unresolvedClassList : Option Class
  table : List Class

namespace ClassLinks

/-- `class_table_get_safe`. -/
def classNamed (σ : ClassLinks) (name : String) : Option Class := σ.table.find? fun c => σ.name c = name

/-- `class_table_insert` (class_table.c, lines 192–211). -/
def classTableInsert (σ : ClassLinks) (cls : Class) : ClassLinks :=
  let σ :=
    if σ.resolved cls then σ
    else
      { σ with
        siblingClass := setPrev σ.siblingClass σ.unresolvedClassList (some cls)
        subclassList := Function.update σ.subclassList cls σ.unresolvedClassList
        unresolvedClassList := some cls }
  { σ with table := cls :: σ.table }

section

variable (σ : ClassLinks) (cls : Class)

@[simp]
theorem classTableInsert_present : (σ.classTableInsert cls).present = σ.present := by
  rw [classTableInsert]
  split <;> rfl

@[simp]
theorem classTableInsert_resolved : (σ.classTableInsert cls).resolved = σ.resolved := by
  rw [classTableInsert]
  split <;> rfl

@[simp]
theorem classTableInsert_superClass : (σ.classTableInsert cls).superClass = σ.superClass := by
  rw [classTableInsert]
  split <;> rfl

@[simp]
theorem classTableInsert_isa : (σ.classTableInsert cls).isa = σ.isa := by
  rw [classTableInsert]
  split <;> rfl

@[simp]
theorem classTableInsert_name : (σ.classTableInsert cls).name = σ.name := by
  rw [classTableInsert]
  split <;> rfl

@[simp]
theorem classTableInsert_isMeta : (σ.classTableInsert cls).isMeta = σ.isMeta := by
  rw [classTableInsert]
  split <;> rfl

@[simp]
theorem classTableInsert_legacySuper : (σ.classTableInsert cls).legacySuper = σ.legacySuper := by
  rw [classTableInsert]
  split <;> rfl

@[simp]
theorem classTableInsert_table : (σ.classTableInsert cls).table = cls :: σ.table := by
  rw [classTableInsert]
  split <;> rfl

end

/-- `objc_load_class` (class_table.c, lines 956–1027). A class of a name that is taken is not loaded;
    for the modes that replace it see `replaceClass`. -/
def loadClass (σ : ClassLinks) (cls : Class) : ClassLinks :=
  if (σ.classNamed (σ.name cls)).isSome then σ
  else
    let σ := { σ with subclassList := Function.update σ.subclassList cls none }
    let σ := σ.classTableInsert cls
    if (σ.superClass cls).isNone then
      { σ with superClass := Function.update σ.superClass (σ.isa cls) (some cls) }
    else σ

/-- `permissive_reload_class` for different layouts (class_table.c, lines 884–950): `cls` takes the place
    of the class `old` of its name. -/
def replaceClass (σ : ClassLinks) (cls old : Class) (superclassName : Option String) : ClassLinks :=
  let σ :=
    { σ with
      superClass := Function.update σ.superClass cls (superclassName.bind σ.classNamed)
      subclassList := Function.update σ.subclassList cls none
      table := σ.table.map fun c => if c = old then cls else c }
  if superclassName.isNone then { σ with superClass := Function.update σ.superClass (σ.isa cls) (some cls) }
  else σ

/-! ## Resolving -/

/-- The removal from the unresolved class list in `objc_resolve_class` (class_table.c, lines 342–357). -/
def unlinkUnresolved (σ : ClassLinks) (cls : Class) : ClassLinks :=
  let next := σ.subclassList cls
  let prev := σ.siblingClass cls
  { σ with
    unresolvedClassList := prev.elim next fun _ => σ.unresolvedClassList
    subclassList := Function.update
        (prev.elim σ.subclassList fun p => Function.update σ.subclassList p next) cls none
    siblingClass := Function.update (setPrev σ.siblingClass next prev) cls none }

/-- `cls` goes to the head of the subclass list of `sup`. -/
def pushSubclass (σ : ClassLinks) (cls sup : Class) : ClassLinks :=
  { σ with
    siblingClass := Function.update σ.siblingClass cls (σ.subclassList sup)
    subclassList := Function.update σ.subclassList sup (some cls) }

/-- The last class on the way up from `cls`. -/
def rootClass (σ : ClassLinks) : ℕ → Class → Option Class
  | 0, _ => none
  | fuel + 1, cls => (σ.superClass cls).elim (some cls) (σ.rootClass fuel)

/-- `objc_resolve_class` once the superclass is resolved (class_table.c, lines 341–410); `root` is the
    root class of `cls`. -/
def linkClass (σ : ClassLinks) (cls root : Class) : ClassLinks :=
  let σ := σ.unlinkUnresolved cls
  let metaclass := σ.isa cls
  let superMeta := (σ.superClass cls).elim cls σ.isa
  let metaMeta := σ.isa root
  let super := σ.superClass cls
  let σ :=
    { σ with
      superClass := Function.update σ.superClass metaclass (some superMeta)
      isa := Function.update σ.isa metaclass metaMeta }
  -- root classes are children of nothing
  let σ := super.elim σ fun sup => σ.pushSubclass cls sup
  let σ := σ.pushSubclass metaclass superMeta
  { σ with resolved := Function.update (Function.update σ.resolved cls true) metaclass true }

/-- `objc_resolve_class` (class_table.c, lines 302–433): the links, and whether the class is resolved. -/
def resolveClass : ℕ → ClassLinks → Class → Option (ClassLinks × Bool)
  | 0, _, _ => none
  | fuel + 1, σ, cls =>
    if σ.resolved cls then some (σ, true)
    else
      match σ.superClass cls with
      | some sup =>
        (resolveClass fuel σ sup).bind fun (σ, ok) =>
          if !ok then some (σ, false)
          else (σ.rootClass fuel cls).map fun root => (σ.linkClass cls root, true)
      | none =>
        match σ.legacySuper cls with
        | none => some (σ.linkClass cls cls, true)
        | some name =>
          match σ.classNamed name with
          | none => some (σ, false)
          | some sup =>
              resolveClass fuel { σ with superClass := Function.update σ.superClass cls (some sup) } cls

/-- The loop of `objc_resolve_class_links` over the unresolved classes (class_table.c, lines 441–466):
    whether a class has been resolved in it. -/
def resolveRound : ℕ → ClassLinks → Option Class → Bool → Option (ClassLinks × Bool)
  | 0, _, _, _ => none
  | _ + 1, σ, none, resolvedClass => some (σ, resolvedClass)
  | fuel + 1, σ, some cls, resolvedClass =>
    let next := σ.subclassList cls
    -- a class that is resolved has left the list: try again from the start
    if σ.resolved cls then if resolvedClass then some (σ, resolvedClass) else none
    else
      (resolveClass fuel σ cls).bind fun (σ, _) =>
        resolveRound fuel σ next (resolvedClass || σ.resolved cls)

/-- `objc_resolve_class_links` (class_table.c, lines 435–467). -/
def resolveClassLinks : ℕ → ClassLinks → Option ClassLinks
  | 0, _ => none
  | fuel + 1, σ =>
    (resolveRound fuel σ σ.unresolvedClassList false).bind fun (σ, resolvedClass) =>
      if resolvedClass then resolveClassLinks fuel σ else some σ

/-- `class_getSuperclass` (class_table.c, lines 1087–1095). -/
def getSuperclass (σ : ClassLinks) (fuel : ℕ) (cls : Class) : Option (ClassLinks × Option Class) :=
  (σ.resolveClass fuel cls).map fun (σ, _) => (σ, σ.superClass cls)

/-- `class_addIvar` (runtime.c, lines 100–163): `class_getInstanceVariable` looks for an instance
    variable of the name in `cls` and its superclasses; `searched` of them do not have it. -/
def addIvar (fuel : ℕ) : ℕ → ClassLinks → Class → Option ClassLinks
  | 0, σ, _ => some σ
  | searched + 1, σ, cls =>
    (σ.getSuperclass fuel cls).bind fun (σ, sup) => sup.elim (some σ) (addIvar fuel searched σ)

/-! ## Classes made at run time -/

/-- The class structure at `cls` with all its links clear. -/
def clear (σ : ClassLinks) (cls : Class) : ClassLinks :=
  { σ with
    present := Function.update σ.present cls true
    duplicate := Function.update σ.duplicate cls false
    resolved := Function.update σ.resolved cls false
    legacySuper := Function.update σ.legacySuper cls none
    subclassList := Function.update σ.subclassList cls none
    siblingClass := Function.update σ.siblingClass cls none }

/-- `objc_allocateClassPair` (runtime.c, lines 1066–1122) at the addresses `cls` and `metaclass`. -/
def allocateClassPair (σ : ClassLinks) (superclass : Option Class) (name : String) (cls metaclass : Class) :
    ClassLinks :=
  if (σ.classNamed name).isSome then σ
  else
    let σ := (σ.clear cls).clear metaclass
    { σ with
      name := Function.update (Function.update σ.name cls name) metaclass name
      isMeta := Function.update (Function.update σ.isMeta cls false) metaclass true
      isa := Function.update (Function.update σ.isa metaclass (superclass.elim metaclass σ.isa)) cls metaclass
      superClass := Function.update
          (Function.update σ.superClass metaclass (some (superclass.elim cls σ.isa)))
        cls superclass }

/-- `objc_registerClassPair` (runtime.c, lines 1164–1197). -/
def registerClassPair (σ : ClassLinks) (fuel : ℕ) (cls : Class) : Option ClassLinks :=
  ((σ.classTableInsert cls).resolveClass fuel cls).map Prod.fst

/-- `objc_duplicateClass` (runtime.c, lines 966–1064) at the address `cls`. -/
def duplicateClass (σ : ClassLinks) (fuel : ℕ) (original : Class) (name : String) (cls : Class) :
    Option ClassLinks :=
  if σ.isMeta original || σ.classNamed (σ.name original) ≠ some original || (σ.classNamed name).isSome then some σ
  else
    (σ.resolveClass fuel original).map fun (σ, ok) =>
      if !ok then σ
      else
        let σ := σ.clear cls
        let σ :=
          { σ with
            name := Function.update σ.name cls name
            isMeta := Function.update σ.isMeta cls false
            duplicate := Function.update σ.duplicate cls true
            resolved := Function.update σ.resolved cls true
            isa := Function.update σ.isa cls (σ.isa original)
            superClass := Function.update σ.superClass cls (σ.superClass original) }
        let σ := (σ.superClass cls).elim σ fun sup => σ.pushSubclass cls sup
        σ.classTableInsert cls

/-- `initHiddenClassForObject` (associate.mm, lines 299–324) for an object of the class `superclass`, at
    the address `cls`. -/
def initHiddenClass (σ : ClassLinks) (superclass cls : Class) : ClassLinks :=
  if σ.isMeta superclass then σ
  else
    let σ := σ.clear cls
    let σ :=
      { σ with
        name := Function.update σ.name cls (σ.name superclass)
        isMeta := Function.update σ.isMeta cls false
        resolved := Function.update σ.resolved cls true
        isa := Function.update σ.isa cls (σ.isa superclass)
        superClass := Function.update σ.superClass cls (some superclass) }
    σ.pushSubclass cls superclass

/-! ## Moving and freeing classes -/

/-- The removal of `cls` from the subclass list of `sup`. -/
def removeSubclass (σ : ClassLinks) (fuel : ℕ) (cls sup : Class) : Option ClassLinks :=
  if σ.subclassList sup = some cls then
    some { σ with subclassList := Function.update σ.subclassList sup (σ.siblingClass cls) }
  else
    (removeNext σ.siblingClass fuel (σ.subclassList sup) cls).map fun siblingClass => { σ with siblingClass }

/-- `safe_remove_from_subclass_list` (runtime.c, lines 905–927). -/
def safeRemove (σ : ClassLinks) (fuel : ℕ) (cls : Class) : Option ClassLinks :=
  if !σ.resolved cls then some σ else (σ.superClass cls).elim (some σ) (σ.removeSubclass fuel cls)

/-- `sup` becomes the superclass of `cls`. -/
def moveTo (σ : ClassLinks) (cls sup : Class) : ClassLinks :=
  ({ σ with superClass := Function.update σ.superClass cls (some sup) }).pushSubclass cls sup

/-- `class_setSuperclass` (runtime.c, lines 593–634). -/
def setSuperclass (σ : ClassLinks) (fuel : ℕ) (cls newSuper : Class) : Option ClassLinks :=
  if σ.superClass cls = some newSuper then some σ
  else
    (σ.safeRemove fuel cls).bind fun σ =>
      (σ.resolveClass fuel newSuper).bind fun (σ, _) =>
        let σ := σ.moveTo cls newSuper
        if σ.isMeta cls then some { σ with isa := Function.update σ.isa cls (σ.isa newSuper) }
        else
          let metaclass := σ.isa cls
          let newSuperMeta := σ.isa newSuper
          (σ.safeRemove fuel metaclass).bind fun σ =>
            (σ.resolveClass fuel newSuperMeta).map fun (σ, _) =>
              { σ with isa := Function.update σ.isa metaclass (σ.isa newSuperMeta) }.moveTo
              metaclass newSuperMeta

/-- `objc_disposeClassPair` (runtime.c, lines 929–964). -/
def disposeClassPair (σ : ClassLinks) (fuel : ℕ) (cls : Class) : Option ClassLinks :=
  let metaclass := σ.isa cls
  (if σ.duplicate cls then some σ else σ.safeRemove fuel metaclass).bind fun σ =>
    (σ.safeRemove fuel cls).map fun σ =>
      let σ := if σ.classNamed (σ.name cls) = some cls then { σ with table := σ.table.erase cls } else σ
      { σ with
        present := Function.update
          (if σ.duplicate cls then σ.present else Function.update σ.present metaclass false) cls false }

/-- `deallocHiddenClass` (associate.mm, lines 326–365) for the hidden class `cls`. -/
def deallocHiddenClass (σ : ClassLinks) (fuel : ℕ) (cls : Class) : Option ClassLinks :=
  if (σ.subclassList cls).isSome then none
  else
    ((σ.superClass cls).elim (some σ) (σ.removeSubclass fuel cls)).map fun σ =>
      { σ with present := Function.update σ.present cls false }

end ClassLinks

/-! ## Runs -/

/-- What happens to the classes of a program. Addresses of new structures are those that the
    allocator chooses. -/
inductive Op where
  | loadClass (cls : Class)
  | replaceClass (cls old : Class) (superclassName : Option String)
  | resolveClass (cls : Class)
  | resolveClassLinks
  | getSuperclass (cls : Class)
  | addIvar (cls : Class) (searched : ℕ)
  | allocateClassPair (superclass : Option Class) (name : String) (cls metaclass : Class)
  | registerClassPair (cls : Class)
  | setSuperclass (cls newSuper : Class)
  | duplicateClass (original : Class) (name : String) (cls : Class)
  | initHiddenClass (superclass cls : Class)
  | deallocHiddenClass (cls : Class)
  | disposeClassPair (cls : Class)
deriving Repr

namespace ClassLinks

/-- One operation; `none` when its loops do not end within `fuel` rounds. -/
def perform (σ : ClassLinks) (fuel : ℕ) : Op → Option ClassLinks
  | .loadClass cls => some (σ.loadClass cls)
  | .replaceClass cls old superclassName => some (σ.replaceClass cls old superclassName)
  | .resolveClass cls => (σ.resolveClass fuel cls).map Prod.fst
  | .resolveClassLinks => σ.resolveClassLinks fuel
  | .getSuperclass cls => (σ.getSuperclass fuel cls).map Prod.fst
  | .addIvar cls searched => addIvar fuel searched σ cls
  | .allocateClassPair superclass name cls metaclass =>
      some (σ.allocateClassPair superclass name cls metaclass)
  | .registerClassPair cls => σ.registerClassPair fuel cls
  | .setSuperclass cls newSuper => σ.setSuperclass fuel cls newSuper
  | .duplicateClass original name cls => σ.duplicateClass fuel original name cls
  | .initHiddenClass superclass cls => some (σ.initHiddenClass superclass cls)
  | .deallocHiddenClass cls => σ.deallocHiddenClass fuel cls
  | .disposeClassPair cls => σ.disposeClassPair fuel cls

/-- A step: the operation ends. -/
def Step (σ : ClassLinks) (op : Op) (σ' : ClassLinks) : Prop := ∃ fuel, σ.perform fuel op = some σ'

/-- A list of operations, one after the other. -/
def performAll (fuel : ℕ) (σ : ClassLinks) (ops : List Op) : Option ClassLinks :=
  ops.foldlM (fun σ op => σ.perform fuel op) σ

theorem performAll_runs {fuel : ℕ} : ∀ {ops : List Op} {σ σ' : ClassLinks},
    performAll fuel σ ops = some σ' → Runs Step σ σ'
  | [], σ, σ', h => by
    rw [← Option.some.inj h]
    exact Runs.refl σ
  | op :: ops, σ, σ', h => by
    obtain ⟨σ₁, hop, h⟩ := Option.bind_eq_some_iff.mp h
    exact (Runs.single (a := op) ⟨fuel, hop⟩).trans (performAll_runs h)

end ClassLinks

end Libobjc2.Classes
