import Mathlib.Data.List.Basic
import Mathlib.Data.Nat.Pairing
import Mathlib.Logic.Function.Basic

/-!
# Classes, selectors and methods

The data that message dispatch works on: `struct objc_class` and `struct objc_method`
(src/internal/runtime/class.h, method.h), the selectors of src/dispatch/selector_table.cc and
the checks of src/dispatch/dtable.c that look methods up while tables are being changed.

Classes and methods are numbers that stand for their addresses. A dispatch table is the
function that `SparseArrayLookup` computes on it.

Results:
* `SelectorTable.typed_ne_untyped`, `SelectorTable.untyped_inj`: the slots of a table that a
  method can be stored in are told apart by its name and types.
* `checkARCAccessors_eq`: the checks after a change of the tables set flags only.
-/

namespace Libobjc2.Dispatch

abbrev Class := ℕ

abbrev MethodId := ℕ

abbrev Imp := ℕ

/-- What `SparseArrayLookup` returns for each selector index. -/
abbrev Dtable := ℕ → Option MethodId

/-! ## Selectors -/

/-- A selector; `types` is `none` for the untyped selector of a name. -/
structure Selector where
  name : String
  types : Option String
deriving DecidableEq, Repr

/-- The registered selectors. Selectors of one name whose types `selector_types_equal` does
    not tell apart are one selector; `normal` maps types to a form in which they are equal.
    Index 0 is not in use (selector_table.cc, line 366). -/
structure SelectorTable where
  normal : String → String
  index : Selector → ℕ
  index_eq_iff : ∀ s s', index s = index s' ↔ s.name = s'.name ∧ s.types.map normal = s'.types.map normal
  index_pos : ∀ s, 0 < index s

/-- `struct objc_method`. The selector of a method is registered with its types. -/
structure Method where
  name : String
  types : String
  imp : Imp
deriving DecidableEq, Repr

def Method.selector (m : Method) : Selector := ⟨m.name, some m.types⟩

namespace SelectorTable

variable (T : SelectorTable)

/-- `m->selector->index`. -/
def typed (m : Method) : ℕ := T.index m.selector

/-- `get_untyped_idx`. -/
def untyped (name : String) : ℕ := T.index ⟨name, none⟩

/-- `sel_isEqual` (selector_table.cc, lines 555–569): an untyped selector equals every
    selector of its name. -/
def selIsEqual (s s' : Selector) : Bool :=
  s.name = s'.name && (s.types = none || s'.types = none || s.types.map T.normal = s'.types.map T.normal)

theorem typed_ne_untyped (m : Method) (name : String) : T.typed m ≠ T.untyped name := by
  intro h
  have := ((T.index_eq_iff _ _).mp h).2
  simp [Method.selector] at this

theorem untyped_inj {name name' : String} : T.untyped name = T.untyped name' ↔ name = name' := by
  simp [untyped, T.index_eq_iff]

theorem name_eq_of_typed {m m' : Method} (h : T.typed m = T.typed m') : m.name = m'.name :=
  ((T.index_eq_iff _ _).mp h).1

@[simp]
theorem typed_setImp (m : Method) (imp : Imp) : T.typed { m with imp } = T.typed m := rfl

/-- A number for a string, whose digits are the characters. -/
def stringCode (cs : List Char) : ℕ := cs.foldr (fun c n => n * 0x110001 + (c.toNat + 1)) 0

theorem toNat_lt (c : Char) : c.toNat < 0x110000 := by
  rcases c.valid with h | h
  · exact lt_trans (show c.val.toNat < 0xd800 from h) (by omega)
  · exact h.2

theorem stringCode_inj : ∀ {cs ds : List Char}, stringCode cs = stringCode ds → cs = ds
  | [], [], _ => rfl
  | [], d :: ds, h => by
    simp only [stringCode, List.foldr_nil, List.foldr_cons] at h
    omega
  | c :: cs, [], h => by
    simp only [stringCode, List.foldr_nil, List.foldr_cons] at h
    omega
  | c :: cs, d :: ds, h => by
    simp only [stringCode, List.foldr_cons] at h
    have hc := toNat_lt c
    have hd := toNat_lt d
    have hchar : c.toNat = d.toNat := by omega
    have hrest : stringCode cs = stringCode ds := by
      rw [stringCode, stringCode]
      omega
    rw [stringCode_inj hrest, Char.toNat_inj.mp hchar]

/-- A table in which every selector has its index from the start. -/
def coded (normal : String → String) : SelectorTable where
  normal := normal
  index s := Nat.pair (stringCode s.name.toList)
      (s.types.elim 0 fun t => stringCode (normal t).toList + 1) + 1
  index_eq_iff s s' := by
    rw [Nat.add_right_cancel_iff, Nat.pair_eq_pair]
    refine and_congr ⟨fun h => String.toList_inj.mp (stringCode_inj h), fun h => by rw [h]⟩ ?_
    cases s.types with
    | none => cases s'.types <;> simp
    | some t =>
      cases s'.types with
      | none => simp
      | some t' =>
        simp only [Option.elim_some, Nat.add_right_cancel_iff, Option.map_some, Option.some.injEq]
        exact ⟨fun h => String.toList_inj.mp (stringCode_inj h), fun h => by rw [h]⟩
  index_pos _ := Nat.succ_pos _

end SelectorTable

/-! ## The runtime state -/

/-- The loaded classes and metaclasses are the numbers below `classCount`, all of them resolved.
    * `subclassList`: the list that starts at `subclass_list` and goes on over `sibling_class`;
    * `methodLists`: the method lists of a class, from the head;
    * `dtable`: the table of a class, in `dtable` or in the look-aside list of classes inside
      `+initialize` (dtable.h, lines 60–98), `none` for the uninstalled table;
    * `cacheVersion`: how often `objc_method_cache_version`, a `uint64_t`, was incremented;
    * `fastArc`, `fastAllocInit`: the flags of these names. -/
structure Runtime where
  classCount : ℕ
  superClass : Class → Option Class
  isa : Class → Class
  isMeta : Class → Bool
  subclassList : Class → List Class
  methodLists : Class → List (List MethodId)
  method : MethodId → Method
  nextMethod : MethodId
  dtable : Class → Option Dtable
  cacheVersion : ℕ
  cxxConstruct : Class → Option Imp
  cxxDestruct : Class → Option Imp
  fastArc : Class → Bool
  fastAllocInit : Class → Bool

namespace Runtime

/-- The methods of a class in the order in which its lists are walked. -/
def methodsOf (σ : Runtime) (cls : Class) : List MethodId := (σ.methodLists cls).flatten

def classHasDtable (σ : Runtime) (cls : Class) : Bool := (σ.dtable cls).isSome

/-- `dtable_for_class`; the uninstalled table has no entries. -/
def dtableForClass (σ : Runtime) (cls : Class) : Dtable := (σ.dtable cls).getD fun _ => none

def setDtable (σ : Runtime) (cls : Class) (dtable : Dtable) : Runtime :=
  { σ with dtable := Function.update σ.dtable cls (some dtable) }

def setImp (σ : Runtime) (m : MethodId) (imp : Imp) : Runtime :=
  { σ with method := Function.update σ.method m { σ.method m with imp } }

/-! ## Owners of methods and the flags that depend on them -/

variable (T : SelectorTable)

/-- `ownerForMethod` (dtable.c, lines 77–93) for the untyped selector of `name`; `fuel` bounds the
    walk up the hierarchy. -/
def ownerForMethod (σ : Runtime) : ℕ → Class → String → Option Class
  | 0, _, _ => none
  | fuel + 1, cls, name =>
    match σ.dtableForClass cls (T.untyped name) with
    | none => none
    | some slot =>
      match σ.superClass cls with
      | none => some cls
      | some sup =>
        if σ.dtableForClass sup (T.untyped name) = some slot then ownerForMethod σ fuel sup name else some cls

/-- `ownsMethod` (dtable.c, lines 99–102). -/
def ownsMethod (σ : Runtime) (cls : Class) (name : String) : Bool :=
  σ.ownerForMethod T (σ.classCount + 1) cls name = some cls

/-- `checkFastAllocInit` (dtable.c, lines 116–163). -/
def checkFastAllocInit (σ : Runtime) (cls : Class) : Runtime :=
  if σ.isMeta cls then σ
  else
    let owner := σ.ownerForMethod T (σ.classCount + 1)
    let metaclass := σ.isa cls
    match owner metaclass "_TrivialAllocInit" with
    | none =>
      { σ with fastAllocInit := Function.update (Function.update σ.fastAllocInit cls false) metaclass false }
    | some trivialOwner =>
      let fastAlloc : Bool :=
        (owner metaclass "alloc" = none || owner metaclass "alloc" = some trivialOwner) &&
          (owner metaclass "allocWithZone:" = none || owner metaclass "allocWithZone:" = some trivialOwner)
      let fastInit : Bool := match owner cls "init" with
        | none => true
        | some initOwner => σ.isa initOwner = trivialOwner
      { σ with fastAllocInit := Function.update (Function.update σ.fastAllocInit metaclass fastAlloc) cls fastInit }

/-- `checkARCAccessors` (dtable.c, lines 169–201). -/
def checkARCAccessors (σ : Runtime) (cls : Class) : Runtime :=
  let σ := σ.checkFastAllocInit T cls
  let compliant (name : String) : Bool := match σ.ownerForMethod T (σ.classCount + 1) cls name with
    | none => true
    | some owner => σ.ownsMethod T owner "_ARCCompliantRetainRelease"
  let fast : Bool := compliant "retain" && compliant "release" && compliant "autorelease"
  { σ with fastArc := Function.update σ.fastArc cls fast }

theorem checkFastAllocInit_eq (σ : Runtime) (cls : Class) :
    ∃ fast, σ.checkFastAllocInit T cls = { σ with fastAllocInit := fast } := by
  unfold checkFastAllocInit
  split
  · exact ⟨_, rfl⟩
  · dsimp only
    split <;> exact ⟨_, rfl⟩

/-- The checks change nothing but the two flags. -/
theorem checkARCAccessors_eq (σ : Runtime) (cls : Class) :
    ∃ arc fast, σ.checkARCAccessors T cls = { σ with fastArc := arc, fastAllocInit := fast } := by
  obtain ⟨fast, h⟩ := checkFastAllocInit_eq T σ cls
  unfold checkARCAccessors
  rw [h]
  exact ⟨_, fast, rfl⟩

/-! ## Method resolution -/

/-- The first method of a class with the typed selector of index `key`. -/
def firstOwn (σ : Runtime) (cls : Class) (key : ℕ) : Option MethodId :=
  (σ.methodsOf cls).find? fun m => T.typed (σ.method m) = key

/-- The first method of a class with a name, whatever its types. -/
def firstNamed (σ : Runtime) (cls : Class) (name : String) : Option MethodId :=
  (σ.methodsOf cls).find? fun m => (σ.method m).name = name

end Runtime

end Libobjc2.Dispatch
