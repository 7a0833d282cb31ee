import Libobjc2.Common.Allocations
import Mathlib.Algebra.Group.Nat.Defs
import Mathlib.Algebra.Ring.Int.Defs

/-!
# Duplicating a class

Model of `objc_duplicateClass` in `runtime/runtime.c` (lines 749–899 and 966–1064) with the copies that
it makes and the clean-up when one of its allocations fails.

A pointer to a string, a list or an array is the number of its block together with what stands there;
an entry of a list has the fields that the code reads, and the bytes behind them. A list has as many
entries as its count says, so that the count is not negative; the lengths and the bytes of a `sizeof` are
those of 64-bit systems. A class is known by the number of its block. The locks and the events are left
out. `objc_resolve_class` is a parameter, which no resolved class gets to see, and so is the answer
whether the class table had room for the duplicate.

Results:
* `duplicateMethodLists_outcome`, `duplicateIvarList_outcome`: a copy owns what it was granted; a copy
  that failed owns nothing.
* `objcDuplicateClass_atomic`: the duplicate is complete and shares nothing, or nothing has happened.
-/

namespace Libobjc2.Classes.Duplication

open Common

/-! ## Model -/

/-- `SIZE_MAX`. -/
def sizeMax : ℕ := 2 ^ 64 - 1

/-- `objc2_flexible_array_size` (`allocation.h`), as the check that it makes. -/
def flexibleArrayFits (headerSize count elementSize : ℕ) : Bool :=
  (elementSize = 0 || count ≤ sizeMax / elementSize) && headerSize ≤ sizeMax - count * elementSize

/-- A C string in a block. -/
structure CString where
  block : ℕ
  text : List Char
deriving DecidableEq, Repr

/-- `struct objc_method`. `rest` are the bytes of an entry that is larger. -/
structure Method where
  imp : ℕ
  selector : ℕ
  types : Option CString
  rest : List UInt8
deriving DecidableEq, Repr

/-- `struct objc_method_list` without the link. -/
structure MethodList where
  block : ℕ
  size : ℕ
  methods : List Method
deriving DecidableEq, Repr

/-- A pointer into an array of offsets, or to an offset variable. -/
structure OffsetPointer where
  block : ℕ
  index : ℕ
  value : ℤ
deriving DecidableEq, Repr

/-- `struct objc_ivar`. -/
structure Ivar where
  name : Option CString
  type : Option CString
  offset : Option OffsetPointer
  size : UInt32
  flags : UInt32
  rest : List UInt8
deriving DecidableEq, Repr

/-- `struct objc_ivar_list`. -/
structure IvarList where
  block : ℕ
  size : ℕ
  ivars : List Ivar
deriving DecidableEq, Repr

/-- `struct objc_class`. A table that is not there is the uninstalled one. -/
structure Class where
  isa : Option ℕ
  superClass : Option ℕ
  name : CString
  version : ℤ
  info : UInt64
  instanceSize : ℤ
  ivars : Option IvarList
  methods : List MethodList
  dtable : Option ℕ
  subclassList : Option ℕ
  cxxConstruct : ℕ
  cxxDestruct : ℕ
  siblingClass : Option ℕ
  protocols : ℕ
  extraData : ℕ
  abiVersion : ℤ
  properties : ℕ
deriving DecidableEq, Repr

/-- The classes and the class table. -/
structure Runtime where
  classes : ℕ → Option Class
  classTable : List Char → Option ℕ
  zombieClass : Option ℕ

/-- `objc_test_class_flag`. -/
def testFlag (info flag : UInt64) : Bool := info &&& flag = flag

def flagMeta : UInt64 := 0x1
def flagInitialized : UInt64 := 0x100
def flagResolved : UInt64 := 0x200
def flagUserCreated : UInt64 := 0x400
def flagHiddenClass : UInt64 := 0x1000
def flagAssocClass : UInt64 := 0x2000
def flagOwnedIvarOffsets : UInt64 := 0x20000
def flagDuplicate : UInt64 := 0x40000

/-! ### Freeing -/

/-- `freeMethodLists` (lines 749–762) on the lists of a class. -/
def freeMethodLists (h : Heap) (lists : List MethodList) : Heap :=
  lists.foldl (fun h l =>
    (l.methods.foldl (fun h m => h.free (m.types.map CString.block)) h).free (some l.block)) h

/-- The names and types of ivars, as lines 777–782 free them. -/
def freeIvars (h : Heap) (ivars : List Ivar) : Heap :=
  ivars.foldl (fun h ivar => (h.free (ivar.type.map CString.block)).free (ivar.name.map CString.block)) h

/-- `freeIvarLists` (lines 764–783) on the list of a class with or without offsets of its own. -/
def freeIvarLists (h : Heap) (ivars : Option IvarList) (ownedIvarOffsets : Bool) : Heap :=
  match ivars with
  | none => h
  | some l =>
    let h := match l.ivars with
      | ivar :: _ => if ownedIvarOffsets then h.free (ivar.offset.map OffsetPointer.block) else h
      | [] => h
    (freeIvars h l.ivars).free (some l.block)

section

variable (fails : ℕ → Bool)

/-- `objc2_strdup`. -/
def strdup (h : Heap) (text : List Char) : Option CString × Heap :=
  let (block, h) := h.allocate fails
  (block.map fun block => ⟨block, text⟩, h)

/-- `objc2_strdup` of a string that may be `NULL`. -/
def strdupOption (h : Heap) (s : Option CString) : Option CString × Heap :=
  match s with
  | none => (none, h)
  | some s => strdup fails h s.text

/-! ### Method lists -/

/-- The loop of lines 804–817: the entries so far, whether all types could be copied. The entry whose
    types could not be copied is the last one. -/
def copyMethods : Heap → List Method → List Method × Bool × Heap
  | h, [] => ([], true, h)
  | h, src :: rest =>
    let (types, h) := strdupOption fails h src.types
    let dst := { src with types := types }
    if src.types.isSome && types.isNone then ([dst], false, h)
    else
      let (copies, ok, h) := copyMethods h rest
      (dst :: copies, ok, h)

/-- `duplicateMethodLists` (lines 785–836) behind the lists `head`. The empty chain is `NULL`. -/
def duplicateMethodListsFrom : Heap → List MethodList → List MethodList → List MethodList × Heap
  | h, head, [] => (head, h)
  | h, head, source :: rest =>
    if source.size < 24 then ([], freeMethodLists h head)
    else if ¬flexibleArrayFits 24 source.methods.length source.size then ([], freeMethodLists h head)
    else
      match h.allocate fails with
      | (none, h) => ([], freeMethodLists h head)
      | (some block, h) =>
        let (copies, ok, h) := copyMethods fails h source.methods
        let copy : MethodList := ⟨block, source.size, copies⟩
        -- a list that is not complete is put in front of the others
        if ok then duplicateMethodListsFrom h (head ++ [copy]) rest
        else ([], freeMethodLists h (copy :: head))

/-- `duplicateMethodLists`. -/
def duplicateMethodLists (h : Heap) (source : List MethodList) : List MethodList × Heap :=
  duplicateMethodListsFrom fails h [] source

/-! ### Ivars -/

/-- The loop of lines 867–884 from the index `copied` on: the entries so far, whether all could be
    copied. The entry that could not is the last one, with its old offset. -/
def copyIvars (offsets : ℕ) : Heap → ℕ → List Ivar → List Ivar × Bool × Heap
  | h, _, [] => ([], true, h)
  | h, copied, src :: rest =>
    let (name, h) := strdupOption fails h src.name
    let (type, h) := strdupOption fails h src.type
    let dst := { src with name := name, type := type }
    match src.offset with
    | none => ([dst], false, h)
    | some offset =>
      if src.name.isSome && name.isNone || src.type.isSome && type.isNone then ([dst], false, h)
      else
        let (copies, ok, h) := copyIvars offsets h (copied + 1) rest
        ({ dst with offset := some ⟨offsets, copied, offset.value⟩ } :: copies, ok, h)

/-- The clean-up of lines 888–898, which frees the name of an entry before its type. -/
def freeCopiedIvars (h : Heap) (ivars : List Ivar) : Heap :=
  ivars.foldl (fun h ivar => (h.free (ivar.name.map CString.block)).free (ivar.type.map CString.block)) h

/-- `duplicateIvarList` (lines 838–899) with the result `*ownsOffsets`. -/
def duplicateIvarList (h : Heap) (source : Option IvarList) : Option IvarList × Bool × Heap :=
  match source with
  | none => (none, false, h)
  | some source =>
    if source.size < 32 then (none, false, h)
    else if ¬flexibleArrayFits 16 source.ivars.length source.size then (none, false, h)
    else
      match h.allocate fails with
      | (none, h) => (none, false, h)
      | (some block, h) =>
        if source.ivars = [] then (some ⟨block, source.size, []⟩, false, h)
        else if ¬source.ivars.length ≤ sizeMax / 4 then (none, false, h.free (some block))
        else
          match h.allocate fails with
          | (none, h) => (none, false, h.free (some block))
          | (some offsets, h) =>
            let (copies, ok, h) := copyIvars fails offsets h 0 source.ivars
            if ok then (some ⟨block, source.size, copies⟩, true, h)
            else (none, false, ((freeCopiedIvars h copies).free (some offsets)).free (some block))

/-! ### The class -/

/-- `info` of a duplicate (lines 1029–1038). -/
def duplicateInfo (info : UInt64) (ownsOffsets : Bool) : UInt64 :=
  let info := info &&& ~~~(flagMeta ||| flagHiddenClass ||| flagAssocClass ||| flagInitialized |||
    flagOwnedIvarOffsets)
  let info := info ||| (flagUserCreated ||| flagResolved ||| flagDuplicate)
  if ownsOffsets then info ||| flagOwnedIvarOffsets else info

/-- The structure of a duplicate (lines 1026–1051). -/
def duplicateOf (original : Class) (nameCopy : CString) (methods : List MethodList) (ivars : Option IvarList)
    (ownsOffsets : Bool) : Class :=
  { original with
    name := nameCopy
    info := duplicateInfo original.info ownsOffsets
    ivars := ivars
    methods := methods
    dtable := none
    subclassList := none
    siblingClass := none
    extraData := 0 }

/-- Lines 1053–1057: the duplicate becomes the first subclass of its superclass. -/
def Runtime.linkDuplicate (σ : Runtime) (block : ℕ) (duplicate : Class) : Runtime :=
  match duplicate.superClass with
  | none => { σ with classes := Function.update σ.classes block (some duplicate) }
  | some super =>
    let sibling := (σ.classes super).bind Class.subclassList
    let classes := Function.update σ.classes block (some { duplicate with siblingClass := sibling })
    let linked := (classes super).map fun c => { c with subclassList := some block }
    { σ with classes := Function.update classes super linked }

/-- `class_table_insert` (`class_table.c`, lines 192–211) of a resolved class. -/
def Runtime.classTableInsert (σ : Runtime) (hasRoom : Bool) (block : ℕ) (name : List Char) : Runtime :=
  { σ with
    zombieClass := if σ.zombieClass = none ∧ name = "NSZombie".toList then some block else σ.zombieClass
    classTable := if hasRoom then Function.update σ.classTable name (some block) else σ.classTable }

/-- Lines 993–1063: the copies and the class. -/
def duplicateResolved (hasRoom : Bool) (σ : Runtime) (original : Class) (name : List Char) (h : Heap) :
    Option ℕ × Runtime × Heap :=
  match strdup fails h name with
  | (none, h) => (none, σ, h)
  | (some nameCopy, h) =>
    let (methods, h) := duplicateMethodLists fails h original.methods
    if original.methods ≠ [] ∧ methods = [] then (none, σ, h.free (some nameCopy.block))
    else
      let (ivars, ownsOffsets, h) := duplicateIvarList fails h original.ivars
      if original.ivars.isSome ∧ ivars.isNone then
        (none, σ, (freeMethodLists h methods).free (some nameCopy.block))
      else
        match h.allocate fails with
        | (none, h) =>
          (none, σ, (freeIvarLists (freeMethodLists h methods) ivars ownsOffsets).free (some nameCopy.block))
        | (some block, h) =>
          let duplicate := duplicateOf original nameCopy methods ivars ownsOffsets
          (some block, (σ.linkDuplicate block duplicate).classTableInsert hasRoom block name, h)

/-- `objc_duplicateClass` (lines 966–1064). -/
def objcDuplicateClass (resolve : Runtime → ℕ → Bool × Runtime) (hasRoom : Bool) (σ : Runtime)
    (original : Option ℕ) (name : Option (List Char)) (extraBytes : ℕ) (h : Heap) :
    Option ℕ × Runtime × Heap :=
  match original, name with
  | some original, some name =>
    match σ.classes original with
    | none => (none, σ, h)
    | some cls =>
      if testFlag cls.info flagMeta ∨ testFlag cls.info flagHiddenClass then (none, σ, h)
      -- the size of the class must fit into a `ptrdiff_t`
      else if ¬136 + extraBytes ≤ 2 ^ 63 - 1 then (none, σ, h)
      else if σ.classTable cls.name.text ≠ some original ∨ (σ.classTable name).isSome then (none, σ, h)
      else if testFlag cls.info flagResolved then duplicateResolved fails hasRoom σ cls name h
      else
        match resolve σ original with
        | (false, σ) => (none, σ, h)
        | (true, σ) =>
          match σ.classes original with
          | none => (none, σ, h)
          | some cls => duplicateResolved fails hasRoom σ cls name h
  | _, _ => (none, σ, h)

end

/-! ## Specification -/

/-- The blocks of a method. -/
def Method.blocks (m : Method) : List ℕ := (m.types.map CString.block).toList

/-- The blocks of a method list, in the order in which they are freed. -/
def MethodList.blocks (l : MethodList) : List ℕ := l.methods.flatMap Method.blocks ++ [l.block]

/-- The blocks of the strings of an ivar. -/
def Ivar.strings (ivar : Ivar) : List ℕ :=
  (ivar.type.map CString.block).toList ++ (ivar.name.map CString.block).toList

/-- The blocks of an ivar list with or without offsets of its own, in the order in which they are freed. -/
def IvarList.owned (l : IvarList) (ownedIvarOffsets : Bool) : List ℕ :=
  (if ownedIvarOffsets then
    (l.ivars.head?.bind fun ivar => ivar.offset.map OffsetPointer.block).toList else []) ++
    l.ivars.flatMap Ivar.strings ++ [l.block]

/-- All blocks in which an ivar list and its ivars stand. -/
def IvarList.storage (l : IvarList) : List ℕ :=
  l.ivars.flatMap (fun ivar => ivar.strings ++ (ivar.offset.map OffsetPointer.block).toList) ++ [l.block]

/-- The blocks of the method lists, type strings, ivars and offsets of a class. -/
def Class.storage (c : Class) : List ℕ :=
  c.methods.flatMap MethodList.blocks ++ c.ivars.toList.flatMap IvarList.storage

/-- What a method says, wherever it stands. -/
def Method.content (m : Method) : ℕ × ℕ × Option (List Char) × List UInt8 :=
  (m.imp, m.selector, m.types.map CString.text, m.rest)

/-- What a method list says. -/
def MethodList.content (l : MethodList) : ℕ × List (ℕ × ℕ × Option (List Char) × List UInt8) :=
  (l.size, l.methods.map Method.content)

/-- What an ivar says. -/
def Ivar.content (ivar : Ivar) :
    Option (List Char) × Option (List Char) × Option ℤ × UInt32 × UInt32 × List UInt8 :=
  (ivar.name.map CString.text, ivar.type.map CString.text, ivar.offset.map OffsetPointer.value, ivar.size,
    ivar.flags, ivar.rest)

/-- A method list that has room for its entries. -/
structure MethodList.Valid (l : MethodList) : Prop where
  size : 24 ≤ l.size
  fits : flexibleArrayFits 24 l.methods.length l.size = true

/-- An ivar list that has room for its entries, all of which have an offset. -/
structure IvarList.Valid (l : IvarList) : Prop where
  size : 32 ≤ l.size
  fits : flexibleArrayFits 16 l.ivars.length l.size = true
  count : l.ivars.length ≤ sizeMax / 4
  offsets : ∀ ivar ∈ l.ivars, ivar.offset.isSome

/-- The duplicate has the methods and the ivars of the original, in the same order, and its superclass. -/
structure Duplicates (original duplicate : Class) : Prop where
  methods : duplicate.methods.map MethodList.content = original.methods.map MethodList.content
  ivars : duplicate.ivars.map (fun l => (l.size, l.ivars.map Ivar.content)) =
    original.ivars.map fun l => (l.size, l.ivars.map Ivar.content)
  superClass : duplicate.superClass = original.superClass
  instanceSize : duplicate.instanceSize = original.instanceSize
  unshared : ∀ block ∈ duplicate.storage, block ∉ original.storage

/-- A resolved class of the class table and a name that no class has. -/
structure Duplicable (σ : Runtime) (original : ℕ) (cls : Class) (name : List Char) (h : Heap) : Prop where
  found : σ.classes original = some cls
  notMeta : testFlag cls.info flagMeta = false
  notHidden : testFlag cls.info flagHiddenClass = false
  registered : σ.classTable cls.name.text = some original
  fresh : σ.classTable name = none
  resolved : testFlag cls.info flagResolved = true
  methods : ∀ l ∈ cls.methods, l.Valid
  ivars : ∀ l ∈ cls.ivars, l.Valid
  /-- The blocks of the class and of its superclass are none of those that will be allocated. -/
  older : (∀ block ∈ cls.storage, block < h.next) ∧ ∀ super ∈ cls.superClass, super < h.next

/-! ## Freeing -/

theorem foldl_free_methods (h : Heap) (methods : List Method) :
    methods.foldl (fun h m => h.free (m.types.map CString.block)) h =
    h.freeAll (methods.flatMap Method.blocks) := by
  induction methods generalizing h with
  | nil => simp
  | cons m methods ih =>
    rw [List.foldl_cons, ih, Heap.free_eq, Heap.freeAll_freeAll]
    rfl

theorem freeMethodLists_eq (h : Heap) (lists : List MethodList) :
    freeMethodLists h lists = h.freeAll (lists.flatMap MethodList.blocks) := by
  unfold freeMethodLists
  induction lists generalizing h with
  | nil => simp
  | cons l lists ih =>
    rw [List.foldl_cons, ih, foldl_free_methods, Heap.free_eq, Heap.freeAll_freeAll, Heap.freeAll_freeAll,
      List.flatMap_cons, MethodList.blocks, Option.toList_some, List.append_assoc]

theorem freeIvars_eq (h : Heap) (ivars : List Ivar) :
    freeIvars h ivars = h.freeAll (ivars.flatMap Ivar.strings) := by
  unfold freeIvars
  induction ivars generalizing h with
  | nil => simp
  | cons ivar ivars ih =>
    rw [List.foldl_cons, ih, Heap.free_eq, Heap.free_eq, Heap.freeAll_freeAll, Heap.freeAll_freeAll,
      List.flatMap_cons, Ivar.strings, List.append_assoc]

theorem freeIvarLists_eq (h : Heap) (l : IvarList) (owned : Bool) :
    freeIvarLists h (some l) owned = h.freeAll (l.owned owned) := by
  unfold freeIvarLists IvarList.owned
  dsimp only
  rw [freeIvars_eq, Heap.free_eq, Heap.freeAll_freeAll]
  cases l.ivars with
  | nil => cases owned <;> simp
  | cons ivar ivars =>
    cases owned
    · simp
    · simp only [if_true, Heap.free_eq, Heap.freeAll_freeAll, List.head?_cons, Option.bind_some,
        Option.toList_some, List.append_assoc]

/-- The clean-up frees the strings of the copied ivars, if in another order. -/
theorem freeCopiedIvars_eq (h : Heap) (ivars : List Ivar) :
    ∃ blocks, blocks.Perm (ivars.flatMap Ivar.strings) ∧
    freeCopiedIvars h ivars = h.freeAll blocks := by
  unfold freeCopiedIvars
  induction ivars generalizing h with
  | nil => exact ⟨[], .rfl, by simp⟩
  | cons ivar ivars ih =>
    obtain ⟨blocks, hperm, heq⟩ :=
        ih ((h.free (ivar.name.map CString.block)).free (ivar.type.map CString.block))
    refine ⟨(ivar.name.map CString.block).toList ++ (ivar.type.map CString.block).toList ++ blocks, ?_, ?_⟩
    · exact List.perm_append_comm.append hperm
    · rw [List.foldl_cons, heq, Heap.free_eq, Heap.free_eq, Heap.freeAll_freeAll, Heap.freeAll_freeAll,
        List.append_assoc]

/-! ## Copying -/

section

variable {fails : ℕ → Bool}

/-- A string is copied, or it could not be allocated. -/
theorem strdup_outcome (fails : ℕ → Bool) (h : Heap) (text : List Char) :
    (∃ copy, (strdup fails h text).1 = some copy ∧ copy.text = text ∧
      Accounts fails h (strdup fails h text).2 [copy.block] ∧ Served fails h (strdup fails h text).2) ∨
    ((strdup fails h text).1 = none ∧ Accounts fails h (strdup fails h text).2 [] ∧
      Failed fails h (strdup fails h text).2) := by
  cases hb : (h.allocate fails).1 with
  | some block =>
    have hone : (strdup fails h text).1 = some ⟨block, text⟩ := by
      change ((h.allocate fails).1.map fun block => (⟨block, text⟩ : CString)) = _
      rw [hb, Option.map_some]
    obtain ⟨haccounts, hserved⟩ := allocate_some hb
    exact Or.inl ⟨_, hone, rfl, haccounts, hserved⟩
  | none =>
    have hone : (strdup fails h text).1 = none := by
      change ((h.allocate fails).1.map fun block => (⟨block, text⟩ : CString)) = _
      rw [hb, Option.map_none]
    obtain ⟨haccounts, hfailed⟩ := allocate_none hb
    exact Or.inr ⟨hone, haccounts, hfailed⟩

/-- A string that may be `NULL`: the copy is owned, and missing only if its allocation failed. -/
theorem strdupOption_outcome (fails : ℕ → Bool) (h : Heap) (s : Option CString) :
    Accounts fails h (strdupOption fails h s).2 ((strdupOption fails h s).1.map CString.block).toList ∧
      ((strdupOption fails h s).1.map CString.text = s.map CString.text ∧
        Served fails h (strdupOption fails h s).2 ∨
      s.isSome = true ∧ (strdupOption fails h s).1 = none ∧ Failed fails h (strdupOption fails h s).2) := by
  cases s with
  | none => exact ⟨Accounts.refl h, Or.inl ⟨rfl, Served.refl h⟩⟩
  | some s =>
    rcases strdup_outcome fails h s.text with ⟨copy, hcopy, htext, haccounts, hserved⟩ |
      ⟨hnone, haccounts, hfailed⟩
    · rw [strdupOption, hcopy]
      exact ⟨haccounts, Or.inl ⟨by simp [htext], hserved⟩⟩
    · rw [strdupOption, hnone]
      exact ⟨haccounts, Or.inr ⟨rfl, rfl, hfailed⟩⟩

/-- The copies of methods own their types. -/
theorem copyMethods_outcome (fails : ℕ → Bool) (h : Heap) (methods : List Method) :
    Accounts fails h (copyMethods fails h methods).2.2
    ((copyMethods fails h methods).1.flatMap Method.blocks) ∧
      ((copyMethods fails h methods).2.1 = true ∧ Served fails h (copyMethods fails h methods).2.2 ∧
        (copyMethods fails h methods).1.map Method.content = methods.map Method.content ∨
      (copyMethods fails h methods).2.1 = false ∧ Failed fails h (copyMethods fails h methods).2.2) := by
  induction methods generalizing h with
  | nil => exact ⟨Accounts.refl h, Or.inl ⟨rfl, Served.refl h, rfl⟩⟩
  | cons src rest ih =>
    rw [copyMethods]
    obtain ⟨haccounts, hcopy⟩ := strdupOption_outcome fails h src.types
    generalize strdupOption fails h src.types = r at haccounts hcopy ⊢
    obtain ⟨types, h₁⟩ := r
    dsimp only at haccounts hcopy ⊢
    rcases hcopy with ⟨htext, hserved⟩ | ⟨hsome, rfl, hfailed⟩
    · have hcond : (src.types.isSome && types.isNone) = false := by
        cases hsrc : src.types <;> cases types <;> simp_all
      obtain ⟨hrest, hout⟩ := ih h₁
      rw [hcond]
      refine ⟨haccounts.trans hrest, ?_⟩
      rcases hout with ⟨hok, hserved₁, hcontent⟩ | ⟨hok, hfailed⟩
      · refine Or.inl ⟨hok, hserved.trans hserved₁, ?_⟩
        simp only [Bool.false_eq_true, if_false, List.map_cons, hcontent]
        simp [Method.content, htext]
      · exact Or.inr ⟨hok, hfailed.earlier haccounts.le⟩
    · have hcond : (src.types.isSome && (none : Option CString).isNone) = true := by rw [hsome]; rfl
      rw [if_pos hcond]
      exact ⟨haccounts, Or.inr ⟨rfl, hfailed⟩⟩

/-- The lists so far are owned, and stay so with the copies of the rest, or all are freed. -/
theorem duplicateMethodListsFrom_outcome {h₀ h : Heap} {head : List MethodList} (source : List MethodList)
    (hhead : Accounts fails h₀ h (head.flatMap MethodList.blocks)) :
    let r := duplicateMethodListsFrom fails h head source
    (Served fails h r.2 ∧ Accounts fails h₀ r.2 (r.1.flatMap MethodList.blocks) ∧
      r.1.map MethodList.content = head.map MethodList.content ++ source.map MethodList.content) ∨
    (source ≠ [] ∧ r.1 = [] ∧ Accounts fails h₀ r.2 [] ∧
      (Failed fails h r.2 ∨ ∃ l ∈ source, ¬l.Valid)) := by
  induction source generalizing h head with
  | nil => exact Or.inl ⟨Served.refl h, hhead, by simp [duplicateMethodListsFrom]⟩
  | cons source rest ih =>
    have hfreed : ∀ {h₁ : Heap} {lists : List MethodList},
        Accounts fails h₀ h₁ (lists.flatMap MethodList.blocks) →
        Accounts fails h₀ (freeMethodLists h₁ lists) [] := by
      intro h₁ lists howned
      rw [freeMethodLists_eq]
      exact howned.freeOwned
    have hne := List.cons_ne_nil source rest
    rw [duplicateMethodListsFrom]
    split_ifs with hsize hfits
    · exact Or.inr ⟨hne, rfl, hfreed hhead,
          Or.inr ⟨source, List.mem_cons_self, fun hv => absurd hv.size (by omega)⟩⟩
    · generalize hrequest : h.allocate fails = request
      obtain ⟨block, h₁⟩ := request
      cases block with
      | none =>
        obtain ⟨hnothing, hfailed⟩ := allocate_none (congrArg Prod.fst hrequest)
        rw [hrequest] at hnothing hfailed
        exact Or.inr ⟨hne, rfl, hfreed (by simpa using hhead.trans hnothing), Or.inl
          (by simpa [freeMethodLists_eq, Failed] using hfailed)⟩
      | some block =>
        obtain ⟨hblock, hserved⟩ := allocate_some (congrArg Prod.fst hrequest)
        rw [hrequest] at hblock hserved
        dsimp only at hblock hserved ⊢
        obtain ⟨hcopies, hout⟩ := copyMethods_outcome fails h₁ source.methods
        generalize copyMethods fails h₁ source.methods = r at hcopies hout ⊢
        obtain ⟨copies, ok, h₂⟩ := r
        dsimp only at hcopies hout ⊢
        have hcopy : Accounts fails h₀ h₂ (head.flatMap MethodList.blocks ++
            (⟨block, source.size, copies⟩ : MethodList).blocks) := by
          refine (hhead.trans (hblock.trans hcopies)).perm (List.Perm.append_left _ ?_)
          exact List.perm_append_comm
        rcases hout with ⟨rfl, hserved₁, hcontent⟩ | ⟨rfl, hfailed⟩
        · have hnext := @ih h₂ (head ++ [⟨block, source.size, copies⟩]) (by simpa using hcopy)
          simp only [if_true]
          rcases hnext with ⟨hserved₂, haccounts, hall⟩ | ⟨-, hnil, haccounts, hwhy⟩
          · refine Or.inl ⟨(hserved.trans hserved₁).trans hserved₂, haccounts, ?_⟩
            rw [hall]
            simp [MethodList.content, hcontent]
          · refine Or.inr ⟨hne, hnil, haccounts, ?_⟩
            rcases hwhy with hfailed | ⟨l, hl, hinvalid⟩
            · exact Or.inl (hfailed.earlier (hblock.le.trans hcopies.le))
            · exact Or.inr ⟨l, List.mem_cons_of_mem _ hl, hinvalid⟩
        · rw [if_neg Bool.false_ne_true]
          refine Or.inr ⟨hne, rfl, hfreed (hcopy.perm ?_), Or.inl ?_⟩
          · rw [List.flatMap_cons]
            exact List.perm_append_comm
          · rw [freeMethodLists_eq]
            exact hfailed.earlier hblock.le
    · exact Or.inr ⟨hne, rfl, hfreed hhead,
          Or.inr ⟨source, List.mem_cons_self, fun hv => absurd hv.fits hfits⟩⟩

/-- The copies of method lists, or nothing. -/
theorem duplicateMethodLists_outcome (fails : ℕ → Bool) (h : Heap) (source : List MethodList) :
    let r := duplicateMethodLists fails h source
    (Served fails h r.2 ∧ Accounts fails h r.2 (r.1.flatMap MethodList.blocks) ∧
      r.1.map MethodList.content = source.map MethodList.content) ∨
    (source ≠ [] ∧ r.1 = [] ∧ Accounts fails h r.2 [] ∧ (Failed fails h r.2 ∨ ∃ l ∈ source, ¬l.Valid)) := by
  simpa [duplicateMethodLists] using @duplicateMethodListsFrom_outcome fails h h [] source (Accounts.refl h)

/-- The copies of ivars own their strings, and point into the array of offsets. -/
theorem copyIvars_outcome (fails : ℕ → Bool) (offsets : ℕ) (h : Heap) (copied : ℕ) (ivars : List Ivar) :
    let r := copyIvars fails offsets h copied ivars
    Accounts fails h r.2.2 (r.1.flatMap Ivar.strings) ∧
      (r.2.1 = true ∧ Served fails h r.2.2 ∧ r.1.map Ivar.content = ivars.map Ivar.content ∧
          (∀ ivar ∈ r.1, ivar.offset.map OffsetPointer.block = some offsets) ∨
        r.2.1 = false ∧ (Failed fails h r.2.2 ∨ ∃ ivar ∈ ivars, ivar.offset = none)) := by
  induction ivars generalizing h copied with
  | nil =>
      exact ⟨Accounts.refl h,
      Or.inl ⟨rfl, Served.refl h, rfl, fun ivar hivar => absurd hivar List.not_mem_nil⟩⟩
  | cons src rest ih =>
    rw [copyIvars]
    obtain ⟨hname, hnameOut⟩ := strdupOption_outcome fails h src.name
    generalize strdupOption fails h src.name = r at hname hnameOut ⊢
    obtain ⟨name, h₁⟩ := r
    dsimp only at hname hnameOut ⊢
    obtain ⟨htype, htypeOut⟩ := strdupOption_outcome fails h₁ src.type
    generalize strdupOption fails h₁ src.type = r at htype htypeOut ⊢
    obtain ⟨type, h₂⟩ := r
    dsimp only at htype htypeOut ⊢
    have hstrings : ∀ offset, Accounts fails h h₂
        (Ivar.strings { src with name := name, type := type, offset := offset }) :=
      fun offset => (hname.trans htype).perm List.perm_append_comm
    cases hoffset : src.offset with
    | none =>
      refine ⟨?_, Or.inr ⟨rfl, Or.inr ⟨src, List.mem_cons_self, hoffset⟩⟩⟩
      simpa [hoffset] using hstrings none
    | some offset =>
      dsimp only
      split_ifs with hcond
      · refine ⟨?_, Or.inr ⟨rfl, Or.inl ?_⟩⟩
        · simpa [hoffset] using hstrings (some offset)
        · rcases hnameOut with ⟨hnameText, -⟩ | ⟨-, -, hfailed⟩
          · rcases htypeOut with ⟨htypeText, -⟩ | ⟨-, -, hfailed⟩
            · cases hn : src.name <;> cases ht : src.type <;> cases name <;> cases type <;> simp_all
            · exact hfailed.earlier hname.le
          · exact hfailed.later htype.le
      · have hnameOk : name.map CString.text = src.name.map CString.text ∧ Served fails h h₁ := by
          rcases hnameOut with hok | ⟨hsome, rfl, -⟩
          · exact hok
          · exact absurd (by simp [hsome]) hcond
        have htypeOk : type.map CString.text = src.type.map CString.text ∧ Served fails h₁ h₂ := by
          rcases htypeOut with hok | ⟨hsome, rfl, -⟩
          · exact hok
          · exact absurd (by simp [hsome]) hcond
        obtain ⟨hrest, hout⟩ := ih h₂ (copied + 1)
        refine ⟨?_, ?_⟩
        · rw [List.flatMap_cons]
          exact (hstrings _).trans hrest
        rcases hout with ⟨hok, hserved, hcontent, hpoints⟩ | ⟨hok, hwhy⟩
        · refine Or.inl ⟨hok, (hnameOk.2.trans htypeOk.2).trans hserved, ?_, ?_⟩
          · simp [Ivar.content, hcontent, hnameOk.1, htypeOk.1, hoffset]
          · intro ivar hivar
            rcases List.mem_cons.mp hivar with rfl | hivar
            · rfl
            · exact hpoints ivar hivar
        · refine Or.inr ⟨hok, ?_⟩
          rcases hwhy with hfailed | ⟨ivar, hivar, hnone⟩
          · exact Or.inl (hfailed.earlier (hname.le.trans htype.le))
          · exact Or.inr ⟨ivar, List.mem_cons_of_mem _ hivar, hnone⟩

/-- A copied list stands in new blocks only. -/
theorem fresh_storage {h h₁ : Heap} {l : IvarList} {owned : Bool}
    (haccounts : Accounts fails h h₁ (l.owned owned))
    (hoffsets : ∀ ivar ∈ l.ivars, ∀ block ∈ ivar.offset.map OffsetPointer.block, h.next ≤ block) :
    ∀ block ∈ l.storage, h.next ≤ block := by
  intro block hblock
  rcases List.mem_append.mp hblock with hblock | hblock
  · obtain ⟨ivar, hivar, hblock⟩ := List.mem_flatMap.mp hblock
    rcases List.mem_append.mp hblock with hblock | hblock
    · refine haccounts.fresh ?_
      exact List.mem_append_left _ (List.mem_append_right _ (List.mem_flatMap.mpr ⟨ivar, hivar, hblock⟩))
    · exact hoffsets ivar hivar block (Option.mem_toList.mp hblock)
  · exact haccounts.fresh (List.mem_append_right _ hblock)

/-- The copy of an ivar list, or nothing. -/
theorem duplicateIvarList_outcome (fails : ℕ → Bool) (h : Heap) (source : Option IvarList) :
    let r := duplicateIvarList fails h source
    (Served fails h r.2.2 ∧ Accounts fails h r.2.2 (r.1.toList.flatMap fun l => l.owned r.2.1) ∧
      r.1.map (fun l => (l.size, l.ivars.map Ivar.content)) =
        source.map (fun l => (l.size, l.ivars.map Ivar.content)) ∧
      ∀ block ∈ r.1.toList.flatMap IvarList.storage, h.next ≤ block) ∨
    (source.isSome = true ∧ r.1 = none ∧ Accounts fails h r.2.2 [] ∧
      (Failed fails h r.2.2 ∨ ∃ l ∈ source, ¬l.Valid)) := by
  cases source with
  | none =>
      exact Or.inl ⟨Served.refl h, Accounts.refl h, rfl, fun block hblock => absurd hblock List.not_mem_nil⟩
  | some source =>
    rw [duplicateIvarList]
    by_cases hsize : source.size < 32
    · rw [if_pos hsize]
      exact Or.inr ⟨rfl, rfl, Accounts.refl h, Or.inr ⟨source, rfl, fun hv => absurd hv.size (by omega)⟩⟩
    rw [if_neg hsize]
    by_cases hfits : flexibleArrayFits 16 source.ivars.length source.size = true
    · rw [if_neg (not_not.mpr hfits)]
      generalize hrequest : h.allocate fails = request
      obtain ⟨block, h₁⟩ := request
      cases block with
      | none =>
        obtain ⟨hnothing, hfailed⟩ := allocate_none (congrArg Prod.fst hrequest)
        rw [hrequest] at hnothing hfailed
        exact Or.inr ⟨rfl, rfl, hnothing, Or.inl hfailed⟩
      | some block =>
        obtain ⟨hblock, hserved⟩ := allocate_some (congrArg Prod.fst hrequest)
        rw [hrequest] at hblock hserved
        dsimp only at hblock hserved ⊢
        by_cases hempty : source.ivars = []
        · rw [if_pos hempty]
          have howned : Accounts fails h h₁ ((⟨block, source.size, []⟩ : IvarList).owned false) := by
            simpa [IvarList.owned] using hblock
          refine Or.inl ⟨hserved, by simpa using howned, by simp [hempty], ?_⟩
          have hfresh := fresh_storage howned fun ivar hivar => absurd hivar List.not_mem_nil
          simpa using hfresh
        rw [if_neg hempty]
        by_cases hcount : source.ivars.length ≤ sizeMax / 4
        · rw [if_neg (not_not.mpr hcount)]
          generalize hrequest₁ : h₁.allocate fails = request
          obtain ⟨offsets, h₂⟩ := request
          cases offsets with
          | none =>
            obtain ⟨hnothing, hfailed⟩ := allocate_none (congrArg Prod.fst hrequest₁)
            rw [hrequest₁] at hnothing hfailed
            exact Or.inr ⟨rfl, rfl, (hblock.trans hnothing).freeOwned, Or.inl (hfailed.earlier hblock.le)⟩
          | some offsets =>
            obtain ⟨harray, hserved₁⟩ := allocate_some (congrArg Prod.fst hrequest₁)
            rw [hrequest₁] at harray hserved₁
            dsimp only at harray hserved₁ ⊢
            obtain ⟨hcopies, hout⟩ := copyIvars_outcome fails offsets h₂ 0 source.ivars
            generalize copyIvars fails offsets h₂ 0 source.ivars = r at hcopies hout ⊢
            obtain ⟨copies, ok, h₃⟩ := r
            dsimp only at hcopies hout ⊢
            rcases hout with ⟨rfl, hserved₂, hcontent, hpoints⟩ | ⟨rfl, hwhy⟩
            · have howned : Accounts fails h h₃ ((⟨block, source.size, copies⟩ : IvarList).owned true) := by
                refine (hblock.trans (harray.trans hcopies)).perm ?_
                have hhead : (copies.head?.bind fun ivar => ivar.offset.map OffsetPointer.block) =
                    some offsets := by
                  cases copies with
                  | nil => exact absurd (by simpa using hcontent.symm) hempty
                  | cons ivar copies => exact hpoints ivar List.mem_cons_self
                rw [IvarList.owned, if_pos rfl, hhead]
                exact List.perm_append_comm
              refine Or.inl ⟨(hserved.trans hserved₁).trans
                  hserved₂, by simpa using howned, by simp [hcontent], ?_⟩
              have hfresh := fresh_storage howned fun ivar hivar b hb => by
                rw [hpoints ivar hivar, Option.mem_some_iff] at hb
                exact hb ▸ hblock.le.trans (harray.fresh List.mem_cons_self)
              simpa using hfresh
            · rw [if_neg Bool.false_ne_true]
              refine Or.inr ⟨rfl, rfl, ?_, ?_⟩
              · obtain ⟨blocks, hperm, heq⟩ := freeCopiedIvars_eq h₃ copies
                dsimp only
                rw [heq, Heap.free_eq, Heap.free_eq, Heap.freeAll_freeAll, Heap.freeAll_freeAll]
                refine Accounts.freeOwned ((hblock.trans (harray.trans hcopies)).perm ?_)
                have harrayLast : ([offsets] ++ copies.flatMap Ivar.strings).Perm (blocks ++ [offsets]) :=
                  (List.perm_append_comm).trans (hperm.symm.append_right _)
                refine ((List.perm_append_comm).trans (harrayLast.append_right [block])).trans ?_
                rw [List.append_assoc]
                rfl
              · rcases hwhy with hfailed | ⟨ivar, hivar, hnone⟩
                · refine Or.inl ?_
                  obtain ⟨blocks, -, heq⟩ := freeCopiedIvars_eq h₃ copies
                  dsimp only
                  rw [heq, Heap.free_eq, Heap.free_eq]
                  exact hfailed.earlier (hblock.le.trans harray.le)
                · refine Or.inr ⟨source, rfl, fun hv => ?_⟩
                  have hsome := hv.offsets ivar hivar
                  rw [hnone] at hsome
                  exact absurd hsome Bool.false_ne_true
        · rw [if_pos hcount]
          exact Or.inr ⟨rfl, rfl, hblock.freeOwned, Or.inr ⟨source, rfl, fun hv => absurd hv.count hcount⟩⟩
    · rw [if_pos hfits]
      exact Or.inr ⟨rfl, rfl, Accounts.refl h, Or.inr ⟨source, rfl, fun hv => absurd hv.fits hfits⟩⟩

/-! ## The duplicate -/

/-- The structure of the duplicate is among the classes. -/
theorem linkDuplicate_classes (σ : Runtime) {block : ℕ} {duplicate : Class}
    (h : ∀ super ∈ duplicate.superClass, super ≠ block) : ∃ sibling,
      (σ.linkDuplicate block duplicate).classes block = some { duplicate with siblingClass := sibling } := by
  unfold Runtime.linkDuplicate
  split
  · exact ⟨duplicate.siblingClass, Function.update_self ..⟩
  · rename_i super hsuper
    refine ⟨(σ.classes super).bind Class.subclassList, ?_⟩
    dsimp only
    rw [Function.update_of_ne (h super hsuper).symm, Function.update_self]

/-- **A resolved class.** Either nothing failed, and there is a duplicate, or nothing has changed, and
    nothing is left of what was allocated. -/
theorem duplicateResolved_outcome (fails : ℕ → Bool) (hasRoom : Bool) (σ : Runtime)
    {original : Class} (name : List Char) {h : Heap}
    (hmethods : ∀ l ∈ original.methods, l.Valid) (hivars : ∀ l ∈ original.ivars, l.Valid)
    (holder : ∀ block ∈ original.storage, block < h.next)
    (hsuper : ∀ super ∈ original.superClass, super < h.next) :
    let r := duplicateResolved fails hasRoom σ original name h
    (Served fails h r.2.2 ∧ ∃ block duplicate, r.1 = some block ∧
      r.2.1.classes block = some duplicate ∧ Duplicates original duplicate) ∨
    (Failed fails h r.2.2 ∧ r.1 = none ∧ r.2.1 = σ ∧ Accounts fails h r.2.2 []) := by
  rw [duplicateResolved]
  rcases strdup_outcome fails h name with ⟨nameCopy, hcopy, -, hname, hserved⟩ | ⟨hnone, hname, hfailed⟩
  · generalize strdup fails h name = r at hcopy hname hserved ⊢
    obtain ⟨_, h₁⟩ := r
    obtain rfl := hcopy
    dsimp only at hname hserved ⊢
    have hlists := duplicateMethodLists_outcome fails h₁ original.methods
    generalize duplicateMethodLists fails h₁ original.methods = r at hlists ⊢
    obtain ⟨methods, h₂⟩ := r
    dsimp only at hlists ⊢
    rcases hlists with ⟨hserved₁, hmethodsOwned, hmethodsEq⟩ | ⟨hne, rfl, hnothing, hwhy⟩
    · have hkept : ¬(original.methods ≠ [] ∧ methods = []) := by
        rintro ⟨hne, rfl⟩
        exact hne (by simpa using hmethodsEq.symm)
      rw [if_neg hkept]
      have hivarList := duplicateIvarList_outcome fails h₂ original.ivars
      generalize duplicateIvarList fails h₂ original.ivars = r at hivarList ⊢
      obtain ⟨ivars, ownsOffsets, h₃⟩ := r
      dsimp only at hivarList ⊢
      rcases hivarList with ⟨hserved₂, hivarsOwned, hivarsEq, hfresh⟩ | ⟨hsome, rfl, hnothing, hwhy⟩
      · have hkept : ¬(original.ivars.isSome = true ∧ ivars.isNone = true) := by
          cases hi : ivars with
          | some l => simp
          | none =>
            rw [hi, Option.map_none] at hivarsEq
            simp [Option.map_eq_none_iff.mp hivarsEq.symm]
        rw [if_neg hkept]
        have howned := hname.trans (hmethodsOwned.trans hivarsOwned)
        generalize hrequest : h₃.allocate fails = request
        obtain ⟨block, h₄⟩ := request
        cases block with
        | none =>
          obtain ⟨hnothing, hfailed⟩ := allocate_none (congrArg Prod.fst hrequest)
          rw [hrequest] at hnothing hfailed
          have hfreed : ∃ blocks, (freeIvarLists (freeMethodLists h₄ methods) ivars ownsOffsets).free
              (some nameCopy.block) = h₄.freeAll blocks ∧
              ([nameCopy.block] ++ (methods.flatMap MethodList.blocks ++
                ivars.toList.flatMap fun l => l.owned ownsOffsets)).Perm blocks := by
            refine ⟨_, ?_, List.perm_append_comm⟩
            cases ivars with
            | none => simp [freeIvarLists, freeMethodLists_eq, Heap.free_eq, Heap.freeAll_freeAll]
            | some l => simp [freeIvarLists_eq, freeMethodLists_eq, Heap.free_eq, Heap.freeAll_freeAll]
          obtain ⟨blocks, heq, hperm⟩ := hfreed
          refine Or.inr ⟨?_, rfl, rfl, ?_⟩
          · dsimp only
            rw [heq]
            exact hfailed.earlier howned.le
          · dsimp only
            rw [heq]
            exact Accounts.freeOwned ((howned.trans hnothing).perm (by simpa using hperm))
        | some block =>
          obtain ⟨hclass, hserved₃⟩ := allocate_some (congrArg Prod.fst hrequest)
          rw [hrequest] at hclass hserved₃
          dsimp only at hclass hserved₃ ⊢
          have hnew : h.next ≤ block := howned.le.trans (hclass.fresh List.mem_cons_self)
          obtain ⟨sibling, hclasses⟩ := @linkDuplicate_classes σ
            block (duplicateOf original nameCopy methods ivars ownsOffsets)
            fun super hs => by have := hsuper super hs; omega
          refine Or.inl ⟨((hserved.trans hserved₁).trans hserved₂).trans hserved₃, block, _, rfl, hclasses,
            hmethodsEq, hivarsEq, rfl, rfl, fun b hb hold => ?_⟩
          have hlt := holder b hold
          rcases List.mem_append.mp hb with hb | hb
          · have hge := hmethodsOwned.fresh hb
            have hle := hname.le
            omega
          · have hge := hfresh b hb
            have hle := hname.le.trans hmethodsOwned.le
            omega
      · rw [if_pos ⟨hsome, rfl⟩]
        have hfailed : Failed fails h₂ h₃ := hwhy.resolve_right fun ⟨l, hl, hinvalid⟩ =>
            hinvalid (hivars l hl)
        refine Or.inr ⟨?_, rfl, rfl, ?_⟩
        · dsimp only
          rw [freeMethodLists_eq, Heap.free_eq]
          exact hfailed.earlier (hname.le.trans hmethodsOwned.le)
        · dsimp only
          rw [freeMethodLists_eq, Heap.free_eq, Heap.freeAll_freeAll]
          refine Accounts.freeOwned ((hname.trans (hmethodsOwned.trans hnothing)).perm ?_)
          rw [List.append_nil]
          exact List.perm_append_comm
    · have hfailed : Failed fails h₁ h₂ := hwhy.resolve_right fun ⟨l, hl, hinvalid⟩ =>
          hinvalid (hmethods l hl)
      rw [if_pos ⟨hne, rfl⟩]
      refine Or.inr ⟨hfailed.earlier hname.le, rfl, rfl, ?_⟩
      exact (hname.trans hnothing).freeOwned
  · generalize strdup fails h name = r at hnone hname hfailed ⊢
    obtain ⟨_, h₁⟩ := r
    obtain rfl := hnone
    exact Or.inr ⟨hfailed, rfl, rfl, hname⟩

/-- **Duplicating is atomic.** If an allocation fails, the call returns `Nil`, classes, class table and
    subclass lists are as they were, and each block that was allocated has been freed once. If none
    fails and the size of the class can be represented, there is a duplicate with the contents of the
    original, which shares no storage with it. -/
theorem objcDuplicateClass_atomic (resolve : Runtime → ℕ → Bool × Runtime) (hasRoom : Bool) {σ : Runtime}
    {original : ℕ} {cls : Class} {name : List Char} {h : Heap} (hcls : Duplicable σ original cls name h)
    (extraBytes : ℕ) :
    let r := objcDuplicateClass fails resolve hasRoom σ (some original) (some name) extraBytes h
    (Failed fails h r.2.2 → r.1 = none ∧ r.2.1 = σ ∧ ∃ freed, r.2.2.freed = h.freed ++ freed ∧ freed.Nodup ∧
      ∀ k, k ∈ freed ↔ (h.next ≤ k ∧ k < r.2.2.next) ∧ fails k = false) ∧
    (Served fails h r.2.2 → 136 + extraBytes ≤ 2 ^ 63 - 1 → ∃ block duplicate, r.1 = some block ∧
      r.2.1.classes block = some duplicate ∧ Duplicates cls duplicate) := by
  rw [objcDuplicateClass]
  simp only [hcls.found, hcls.notMeta, hcls.notHidden, hcls.registered, hcls.fresh, hcls.resolved]
  by_cases hsize : 136 + extraBytes ≤ 2 ^ 63 - 1
  · simp only [Bool.false_eq_true, or_self, if_false, if_neg (not_not.mpr hsize), ne_eq, not_true_eq_false,
      Option.isSome_none, if_true]
    have hout := duplicateResolved_outcome fails hasRoom σ name hcls.methods hcls.ivars hcls.older.1
      hcls.older.2
    rcases hout with ⟨hserved, hduplicate⟩ | ⟨hfailed, hnil, hsame, haccounts⟩
    · exact ⟨fun hf => absurd hf hserved.not_failed, fun _ _ => hduplicate⟩
    · exact ⟨fun _ => ⟨hnil, hsame, haccounts.freed_once⟩, fun hs => absurd hs hfailed.not_served⟩
  · simp only [Bool.false_eq_true, or_self, if_false, if_pos hsize]
    exact ⟨fun hf => absurd hf (Served.refl h).not_failed, fun _ hle => absurd hle hsize⟩

end

/-! ## A class with a method and an ivar -/

/-- The class `P` with the method `x` and the ivar of that name, in the blocks below 5. -/
def pointClass : Class :=
  { isa := none, superClass := none, name := ⟨1, ['P']⟩, version := 0, info := flagResolved, instanceSize := 16
    ivars := some ⟨3, 32, [⟨some ⟨4, ['x']⟩, some ⟨4, ['i']⟩, some ⟨4, 0, 8⟩, 4, 16, []⟩]⟩
    methods := [⟨2, 24, [⟨7, 8, some ⟨4, ['i', '8', '@', '0', ':', '4']⟩, []⟩]⟩]
    dtable := none, subclassList := none, cxxConstruct := 0, cxxDestruct := 0, siblingClass := none
    protocols := 0, extraData := 0, abiVersion := 0, properties := 0 }

/-- The runtime with `P` in block 0 only. -/
def pointRuntime : Runtime :=
  ⟨fun b => if b = 0 then some pointClass else none, fun n => if n = ['P'] then some 0 else none, none⟩

theorem duplicable_pointClass : Duplicable pointRuntime 0 pointClass ['Q'] ⟨5, []⟩ where
  found := rfl
  notMeta := by decide
  notHidden := by decide
  registered := rfl
  fresh := by decide
  resolved := by decide
  methods l hl := by
    obtain rfl := List.mem_singleton.mp hl
    exact ⟨by decide, by decide⟩
  ivars l hl := by
    obtain rfl := Option.some.inj hl
    exact ⟨by decide, by decide, by decide, by decide⟩
  older := ⟨by decide, by decide⟩

/-- The request that fails is the one for the type of the ivar: all six blocks before it are freed. -/
theorem objcDuplicateClass_atomic_point :
    let r := objcDuplicateClass (fun k => k = 11) (fun σ _ => (true, σ)) true pointRuntime (some 0)
        (some ['Q']) 0 ⟨5, []⟩
    Failed (fun k => k = 11) ⟨5, []⟩ r.2.2 ∧ r.1 = none ∧ r.2.1 = pointRuntime ∧
      ∃ freed, r.2.2.freed = [] ++ freed ∧ freed.Nodup ∧
        ∀ k, k ∈ freed ↔ (5 ≤ k ∧ k < r.2.2.next) ∧ (decide (k = 11)) = false := by
  intro r
  have hatomic := @objcDuplicateClass_atomic (fun k => k = 11) (fun σ _ => (true, σ)) true _ _ _ _ _
    duplicable_pointClass 0
  have hnext : r.2.2.next = 12 := by decide
  have hfailed : Failed (fun k => decide (k = 11)) ⟨5, []⟩ r.2.2 := ⟨11, by decide, by omega, by decide⟩
  exact ⟨hfailed, hatomic.1 hfailed⟩

end Libobjc2.Classes.Duplication
