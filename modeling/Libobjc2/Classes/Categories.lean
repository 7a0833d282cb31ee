import Libobjc2.Classes.ObjectBuffer
import Mathlib.Algebra.Notation.Defs
import Mathlib.Data.List.Nodup
import Mathlib.Data.List.Perm.Basic
import Mathlib.Data.List.ReduceOption

/-!
# Loading categories

`category_loader.c` with the part of `__objc_load` (loader.c) that loads classes and categories. A
category whose class is not in the class table waits in the buffer until a later load has brought the class.
Left out are the dispatch tables, the uniquing of the adopted protocols, aliases and the lookup hook.

Results:
* `Inv.loadClass`, `Inv.tryLoadCategory`, `Inv.loadBufferedCategories`, `Loader.load_inv`: what the parts of
  a load keep.
* `categories_attached`: after every load each category that was brought is attached exactly once or waits
  exactly once, and those that waited together are attached in the order in which they were buffered.
* `category_left_behind`: a class that replaces another one in developer mode does not get the categories
  of the class that it replaces.
-/

namespace Libobjc2.Classes.Categories

/-! ## Model -/

structure Ivar where
  name : String
  type : String
  offset : ℕ
deriving DecidableEq, Repr

/-- A class structure in an image.
    * `address`: where in the image it is;
    * `superName`: the text that `super_class` points to when it is taken for a name. -/
structure ClassStruct where
  image : ℕ
  address : ℕ
  name : String
  superName : Option String
  instanceSize : ℕ
  ivars : Option (List Ivar)
deriving DecidableEq, Repr

/-- The five lists of a category, each of which goes to a chain of its class or of the metaclass. -/
inductive Kind where
  | instanceMethods
  | classMethods
  | protocols
  | properties
  | classProperties
deriving DecidableEq, Repr

/-- A `struct objc_category` in an image; `lists`: the lists that are not NULL. -/
structure Category where
  image : ℕ
  address : ℕ
  className : Option String
  lists : List Kind
deriving DecidableEq, Repr

/-- What a pointer in a chain points to: a list of a class structure, a list of a category, or the list of
    additional methods that a safe reload has made from a class structure. -/
inductive ListRef where
  | ofClass (cls : ClassStruct) (index : ℕ)
  | ofCategory (cat : Category)
  | ofReload (cls : ClassStruct)
deriving DecidableEq, Repr

/-- `enum objc_developer_mode_np`. -/
inductive Mode where
  | off
  | developer
  | safeReload
deriving DecidableEq, Repr

/-- The images. Each class and each category is in one place of one image. -/
structure Program where
  classes : ℕ → List (Option ClassStruct)
  categories : ℕ → List Category
  class_image : ∀ i, ∀ cls ∈ (classes i).reduceOption, cls.image = i
  classes_nodup : ∀ i, (classes i).reduceOption.Nodup
  category_image : ∀ i, ∀ cat ∈ categories i, cat.image = i
  categories_nodup : ∀ i, (categories i).Nodup

/-- * `table`: the class table;
    * `lists`: the chain of a class or its metaclass that the lists of a kind are in, the first one first;
    * `loaded`: the images whose `version` is `ULONG_MAX`, in the order of their loads;
    * `events`: the events `MOSAIC_OBJC_EVENT_CATEGORY_ATTACHED`, with the class;
    * `replaced`: the classes that a reload has taken out of the class table. -/
structure Loader where
  table : List ClassStruct
  superClass : ClassStruct → Option ClassStruct
  lists : ClassStruct → Kind → List ListRef
  buffer : ObjectBuffer Category
  loaded : List ℕ
  events : List (Category × ClassStruct)
  replaced : List ClassStruct

namespace Loader

/-- `class_table_get_safe`. -/
def classNamed (σ : Loader) (name : String) : Option ClassStruct := σ.table.find? fun c => c.name = name

def setList (σ : Loader) (cls : ClassStruct) (kind : Kind) (chain : List ListRef) : Loader :=
  { σ with lists := Function.update σ.lists cls (Function.update (σ.lists cls) kind chain) }

/-- The comparison of the instance variables in `permissive_reload_class` (class_table.c, lines 891–904). -/
def sameIvars : Option (List Ivar) → Option (List Ivar) → Bool
  | some ivars, some oldIvars => oldIvars.isPrefixOf ivars
  | ivars, oldIvars => ivars.isNone && oldIvars.isNone

/-- `permissive_reload_class` (class_table.c, lines 884–951). `none` where `class->methods` is NULL and is
    dereferenced. -/
def permissiveReloadClass (σ : Loader) (cls old : ClassStruct) : Option Loader :=
  let superClass := cls.superName.bind σ.classNamed
  let equalLayouts := superClass = σ.superClass old ∧ cls.instanceSize = old.instanceSize ∧
    sameIvars cls.ivars old.ivars
  let σ := { σ with superClass := Function.update σ.superClass cls superClass }
  if equalLayouts then
    (σ.lists cls .instanceMethods).head?.map fun methods =>
      let chain := methods :: σ.lists old .instanceMethods
      (σ.setList cls .instanceMethods chain).setList old .instanceMethods chain
  else
    some { σ with
      table := σ.table.map fun c => if c = old then cls else c
      replaced := old :: σ.replaced }

section

-- `additions`: whether a safe reload of the second class from the first adds a method list to the class
-- and whether it adds one to the metaclass.
variable (additions : ClassStruct → ClassStruct → Bool × Bool)

/-- What `safe_reload_class` does to the chains (class_table.c, lines 836–882 and 782–797). -/
def safeReloadClass (σ : Loader) (candidate canonical : ClassStruct) : Loader :=
  let push (σ : Loader) (kind : Kind) : Loader :=
    σ.setList canonical kind (.ofReload candidate :: σ.lists canonical kind)
  let added := additions candidate canonical
  let σ := if added.1 then push σ .instanceMethods else σ
  if added.2 then push σ .classMethods else σ

/-- `objc_load_class` (class_table.c, lines 956–1019). -/
def loadClass (mode : Mode) (σ : Loader) (cls : ClassStruct) : Option Loader :=
  match σ.classNamed cls.name with
  | some existingClass =>
    match mode with
    | .safeReload => some (σ.safeReloadClass additions cls existingClass)
    | .off => some σ
    | .developer => σ.permissiveReloadClass cls existingClass
  | none => some { σ with table := cls :: σ.table }

end

/-- Pushes a list of a category onto a chain of its class, if the category has a list of this kind. -/
def push (cat : Category) (cls : ClassStruct) (σ : Loader) (kind : Kind) : Loader :=
  if kind ∈ cat.lists then σ.setList cls kind (.ofCategory cat :: σ.lists cls kind) else σ

/-- `load_category` (category_loader.c, lines 31–59). -/
def loadCategory (σ : Loader) (cat : Category) (cls : ClassStruct) : Loader :=
  let σ := push cat cls σ .instanceMethods
  let σ := push cat cls σ .classMethods
  let σ := push cat cls σ .protocols
  let σ := push cat cls σ .properties
  let σ := push cat cls σ .classProperties
  { σ with events := σ.events ++ [(cat, cls)] }

/-- `objc_getClass(cat->class_name)`. -/
def classOf (σ : Loader) (cat : Category) : Option ClassStruct := cat.className.bind σ.classNamed

section

variable (realloc : ℕ → Bool) (junk : Option Category)

/-- `objc_try_load_category` (category_loader.c, lines 61–83). -/
def tryLoadCategory (σ : Loader) (cat : Category) : Option Loader :=
  match σ.classOf cat with
  | some cls => some (σ.loadCategory cat cls)
  | none =>
      (σ.buffer.appendBufferedObject realloc junk (some cat)).map fun buffer => { σ with buffer := buffer }

/-- The loop of `objc_load_buffered_categories` from the entry `i` on, with `todo` entries to go
    (category_loader.c, lines 89–100). -/
def loadBufferedFrom : ℕ → ℕ → Loader → Bool → Option (Loader × Bool)
  | 0, _, σ, shouldReshuffle => some (σ, shouldReshuffle)
  | todo + 1, i, σ, shouldReshuffle =>
    (σ.buffer.bufferedObjectAtIndex i).bind fun c =>
      match c.bind fun cat => (σ.classOf cat).map (cat, ·) with
      | some (cat, cls) =>
        let σ := σ.loadCategory cat cls
        (σ.buffer.setBufferedObjectAtIndex realloc junk none i).bind fun buffer =>
          loadBufferedFrom todo (i + 1) { σ with buffer := buffer } true
      | none => loadBufferedFrom todo (i + 1) σ shouldReshuffle

/-- `objc_load_buffered_categories` (category_loader.c, lines 85–106). -/
def loadBufferedCategories (σ : Loader) : Option Loader :=
  (loadBufferedFrom realloc junk σ.buffer.bufferedObjects 0 σ false).bind fun r =>
    if r.2 then (r.1.buffer.compactBuffer realloc junk).map fun buffer => { r.1 with buffer := buffer }
    else some r.1

variable (additions : ClassStruct → ClassStruct → Bool × Bool) (P : Program)

/-- The categories of an image that `__objc_load` does not skip. -/
def broughtBy (i : ℕ) : List Category := (P.categories i).filter fun cat => cat.className.isSome

/-- `__objc_load` (loader.c, lines 789–888): the classes of the image, its categories, and the categories
    that wait. -/
def load (σ : Loader) (mode : Mode) (i : ℕ) : Option Loader :=
  if i ∈ σ.loaded then some σ
  else
    ((P.classes i).reduceOption.foldlM (loadClass additions mode) σ).bind fun σ =>
      ((broughtBy P i).foldlM (tryLoadCategory realloc junk) σ).bind fun σ =>
        (σ.loadBufferedCategories realloc junk).map fun σ => { σ with loaded := σ.loaded ++ [i] }

/-- A sequence of loads, in whatever mode each of them is made. -/
def loadAll (σ : Loader) (loads : List (Mode × ℕ)) : Option Loader :=
  loads.foldlM (fun σ l => σ.load realloc junk additions P l.1 l.2) σ

end

/-- Before the first load. `lists cls kind`: how many lists the structure of a class has in a chain. -/
def start (superClass : ClassStruct → Option ClassStruct) (lists : ClassStruct → Kind → ℕ) : Loader where
  table := []
  superClass := superClass
  lists cls kind := (List.range (lists cls kind)).map (.ofClass cls)
  buffer := .empty
  loaded := []
  events := []
  replaced := []

/-- The categories that the loaded images have brought. -/
def brought (P : Program) (σ : Loader) : List Category := σ.loaded.flatMap (broughtBy P)

/-- The entries of the buffer. -/
def buffered (σ : Loader) : List (Option Category) := σ.buffer.cells.take σ.buffer.bufferedObjects

/-- The lists of a category are in the chains of this class, each once. -/
def AttachedOnce (σ : Loader) (cat : Category) (cls : ClassStruct) : Prop :=
  ∀ kind, (σ.lists cls kind).count (.ofCategory cat) = if kind ∈ cat.lists then 1 else 0

/-- No list of a category is in a chain of this class. -/
def NotAttached (σ : Loader) (cat : Category) (cls : ClassStruct) : Prop :=
  ∀ kind, .ofCategory cat ∉ σ.lists cls kind

/-- In the class table, now or until a reload replaced it. -/
def Registered (σ : Loader) (cls : ClassStruct) : Prop := cls ∈ σ.table ∨ cls ∈ σ.replaced

end Loader

open Loader

/-! ## Chains -/

/-- The category that a list belongs to. -/
def ListRef.category : ListRef → Option Category
  | .ofCategory cat => some cat
  | _ => none

@[simp] theorem ListRef.category_ofCategory (cat : Category) : (ListRef.ofCategory cat).category =
    some cat := rfl

@[simp] theorem ListRef.category_ofReload (cls : ClassStruct) : (ListRef.ofReload cls).category = none := rfl

@[simp] theorem ListRef.category_ofClass (cls : ClassStruct) (n : ℕ) :
    (ListRef.ofClass cls n).category = none := rfl

/-- The categories whose lists are in a chain, the first one first. -/
def categoriesIn (chain : List ListRef) : List Category := chain.filterMap ListRef.category

theorem count_ofCategory (chain : List ListRef) (cat : Category) :
    chain.count (.ofCategory cat) = (categoriesIn chain).count cat := by
  induction chain with
  | nil => rfl
  | cons l chain ih =>
    rw [categoriesIn] at ih ⊢
    cases l with
    | ofCategory cat' => simp [List.count_cons, ih]
    | ofClass | ofReload => simpa [List.count_cons, List.filterMap_cons] using ih

/-- The categories that were attached to a class, the first one first. -/
def attachedTo (events : List (Category × ClassStruct)) (cls : ClassStruct) : List Category :=
  (events.filter fun e => e.2 = cls).map Prod.fst

theorem attachedTo_append (events events' : List (Category × ClassStruct)) (cls : ClassStruct) :
    attachedTo (events ++ events') cls = attachedTo events cls ++ attachedTo events' cls := by
  simp [attachedTo]

variable {P : Program} {additions : ClassStruct → ClassStruct → Bool × Bool} {realloc : ℕ → Bool}
  {junk : Option Category} {σ σ' : Loader} {cat : Category} {cls old : ClassStruct} {mode : Mode}

@[simp] theorem setList_lists (c : ClassStruct) (k kind : Kind) (chain : List ListRef) :
    (σ.setList cls kind chain).lists c k = if c = cls ∧ k = kind then chain else σ.lists c k := by
  rw [setList]
  by_cases hc : c = cls
  · subst hc
    by_cases hk : k = kind
    · subst hk
      simp
    · simp [hk]
  · simp [hc]

theorem push_lists (c : ClassStruct) (k kind : Kind) :
    (push cat cls σ kind).lists c k =
      if kind ∈ cat.lists ∧ c = cls ∧ k = kind then .ofCategory cat :: σ.lists c k else σ.lists c k := by
  rw [push]
  split
  · rename_i hmem
    rw [setList_lists]
    by_cases h : c = cls ∧ k = kind
    · rw [if_pos h, if_pos ⟨hmem, h⟩, h.1, h.2]
    · rw [if_neg h, if_neg fun hn => h hn.2]
  · rename_i hmem
    rw [if_neg fun hn => hmem hn.1]

/-- Each list of the category goes to the front of its own chain. -/
theorem loadCategory_lists (c : ClassStruct) (k : Kind) :
    (σ.loadCategory cat cls).lists c k =
      if c = cls ∧ k ∈ cat.lists then .ofCategory cat :: σ.lists c k else σ.lists c k := by
  simp only [loadCategory, push_lists]
  by_cases hc : c = cls
  · cases k <;> simp [hc]
  · simp [hc]

theorem push_eq (kind : Kind) :
    ∃ lists, push cat cls σ kind = { σ with lists := lists } := by
  rw [push]
  split <;> exact ⟨_, rfl⟩

/-- Loading a category changes the chains and reports the category. -/
theorem loadCategory_eq :
    σ.loadCategory cat cls =
      { σ with lists := (σ.loadCategory cat cls).lists, events := σ.events ++ [(cat, cls)] } := by
  have hpush : ∀ (τ : Loader) (kind : Kind), (push cat cls τ kind).table = τ.table ∧
      (push cat cls τ kind).superClass = τ.superClass ∧ (push cat cls τ kind).buffer = τ.buffer ∧
      (push cat cls τ kind).loaded = τ.loaded ∧ (push cat cls τ kind).events = τ.events ∧
      (push cat cls τ kind).replaced = τ.replaced := by
    intro τ kind
    obtain ⟨lists, h⟩ : ∃ lists, push cat cls τ kind = { τ with lists := lists } := push_eq kind
    rw [h]
    exact ⟨rfl, rfl, rfl, rfl, rfl, rfl⟩
  simp only [loadCategory, hpush]

/-! ## The invariant -/

/-- `seen`: the classes that the loader has been given; `all`: the categories that it has been given;
    `entries`: the entries of the buffer, with NULL where a category has been attached. -/
structure Inv (seen : ClassStruct → Prop) (all : List Category) (entries : List (Option Category))
    (σ : Loader) :
    Prop where
  holds : σ.buffer.Holds entries
  once : (σ.events.map Prod.fst ++ entries.reduceOption).Perm all
  chains : ∀ c, σ.Registered c → ∀ kind,
    categoriesIn (σ.lists c kind) = (attachedTo σ.events c).reverse.filter fun cat => kind ∈ cat.lists
  target : ∀ e ∈ σ.events, e.1.className = some e.2.name ∧ σ.Registered e.2
  names : (σ.table.map ClassStruct.name).Nodup
  kept : ∀ c ∈ σ.replaced, ∃ c' ∈ σ.table, c'.name = c.name
  fresh : ∀ c, ¬ seen c → ¬ σ.Registered c ∧ ∀ kind, categoriesIn (σ.lists c kind) = []

variable {seen : ClassStruct → Prop} {all : List Category} {entries : List (Option Category)}

theorem classNamed_some {name : String} (h : σ.classNamed name = some cls) : cls ∈ σ.table ∧
    cls.name = name :=
  ⟨List.mem_of_find?_eq_some h, by simpa using List.find?_some h⟩

theorem classNamed_none {name : String} (h : σ.classNamed name = none) : ∀ c ∈ σ.table, c.name ≠ name := by
  simpa [classNamed] using h

theorem classOf_some (h : σ.classOf cat = some cls) : cls ∈ σ.table ∧ cat.className = some cls.name := by
  obtain ⟨name, hname, h⟩ := Option.bind_eq_some_iff.mp h
  obtain ⟨hmem, rfl⟩ := classNamed_some h
  exact ⟨hmem, hname⟩

/-- Nothing was attached to a class that was never registered. -/
theorem Inv.attachedTo_eq_nil (h : Inv seen all entries σ) (hc : ¬ σ.Registered cls) :
    attachedTo σ.events cls = [] := by
  rw [attachedTo, List.map_eq_nil_iff, List.filter_eq_nil_iff]
  rintro e he heq
  exact hc (of_decide_eq_true heq ▸ (h.target e he).2)

/-- A change of the class table and of the chains that leaves the categories in them alone. -/
theorem Inv.congr {seen' : ClassStruct → Prop} (h : Inv seen all entries σ) (hseen : ∀ c, seen c → seen' c)
    (hbuffer : σ'.buffer = σ.buffer) (hevents : σ'.events = σ.events)
    (hkept : ∀ c, σ.Registered c → σ'.Registered c)
    (hnew : ∀ c, σ'.Registered c → σ.Registered c ∨ (seen' c ∧ ¬ seen c))
    (hlists : ∀ c, σ'.Registered c ∨ ¬ seen' c → ∀ kind, categoriesIn (σ'.lists c kind) =
      categoriesIn (σ.lists c kind))
    (hnames : (σ'.table.map ClassStruct.name).Nodup)
    (hreplaced : ∀ c ∈ σ'.replaced, ∃ c' ∈ σ'.table, c'.name = c.name) : Inv seen' all entries σ' := by
  refine ⟨hbuffer ▸ h.holds, hevents ▸ h.once, fun c hc kind => ?_, fun e he => ?_, hnames,
      hreplaced, fun c hc => ?_⟩
  · rw [hlists c (.inl hc), hevents]
    rcases hnew c hc with hold | ⟨-, hunseen⟩
    · exact h.chains c hold kind
    · rw [(h.fresh c hunseen).2, h.attachedTo_eq_nil (h.fresh c hunseen).1]
      rfl
  · rw [hevents] at he
    exact ⟨(h.target e he).1, hkept e.2 (h.target e he).2⟩
  · have hnot := h.fresh c fun hs => hc (hseen c hs)
    refine ⟨fun hr => ?_, fun kind => by rw [hlists c (.inr hc), hnot.2]⟩
    rcases hnew c hr with hold | ⟨hs, -⟩
    · exact hnot.1 hold
    · exact hc hs

/-! ## Loading the classes -/

@[simp] theorem categoriesIn_ofReload (c : ClassStruct) (chain : List ListRef) :
    categoriesIn (.ofReload c :: chain) = categoriesIn chain := rfl

theorem safeReloadClass_eq : ∃ lists, σ.safeReloadClass additions cls old = { σ with lists := lists } ∧
    ∀ c kind, categoriesIn (lists c kind) = categoriesIn (σ.lists c kind) := by
  have hpush : ∀ (τ : Loader) (kind : Kind), ∀ c k,
      categoriesIn ((τ.setList old kind (.ofReload cls :: τ.lists old kind)).lists c k) =
        categoriesIn (τ.lists c k) := by
    intro τ kind c k
    rw [setList_lists]
    split
    · rename_i h
      rw [categoriesIn_ofReload, h.1, h.2]
    · rfl
  rw [safeReloadClass]
  cases (additions cls old).1 <;> cases (additions cls old).2 <;> refine ⟨_, rfl, fun c kind => ?_⟩
  · rfl
  · exact hpush σ .classMethods c kind
  · exact hpush σ .instanceMethods c kind
  · exact (hpush _ .classMethods c kind).trans (hpush σ .instanceMethods c kind)

/-- What `objc_load_class` does: the class is refused, its methods are added to the class of its name, it
    replaces that class, or it is registered. -/
theorem loadClass_cases (h : σ.loadClass additions mode cls = some σ') :
    (∃ lists, σ' = { σ with lists := lists } ∧
      ∀ c kind, categoriesIn (lists c kind) = categoriesIn (σ.lists c kind)) ∨
    (∃ old ∈ σ.table, ∃ methods superClass, methods ∈ σ.lists cls .instanceMethods ∧
      σ' = (({ σ with superClass := superClass }.setList cls .instanceMethods
        (methods :: σ.lists old .instanceMethods)).setList old .instanceMethods
        (methods :: σ.lists old .instanceMethods))) ∨
    (∃ old ∈ σ.table, old.name = cls.name ∧ ∃ superClass, σ' = { σ with
      superClass := superClass
      table := σ.table.map fun c => if c = old then cls else c
      replaced := old :: σ.replaced }) ∨
    ((∀ c ∈ σ.table, c.name ≠ cls.name) ∧ σ' = { σ with table := cls :: σ.table }) := by
  rw [loadClass] at h
  cases hnamed : σ.classNamed cls.name with
  | none =>
    rw [hnamed] at h
    exact .inr (.inr (.inr ⟨classNamed_none hnamed, (Option.some.inj h).symm⟩))
  | some old =>
    obtain ⟨hmem, hname⟩ := classNamed_some hnamed
    rw [hnamed] at h
    cases mode with
    | off => exact .inl ⟨σ.lists, (Option.some.inj h).symm, fun _ _ => rfl⟩
    | safeReload =>
      obtain ⟨lists, heq, hlists⟩ : ∃ lists, σ.safeReloadClass additions cls old = { σ with lists := lists } ∧
          ∀ c kind, categoriesIn (lists c kind) = categoriesIn (σ.lists c kind) := safeReloadClass_eq
      exact .inl ⟨lists, (Option.some.inj h).symm.trans heq, hlists⟩
    | developer =>
      simp only [permissiveReloadClass] at h
      split at h
      · obtain ⟨methods, hhead, rfl⟩ := Option.map_eq_some_iff.mp h
        exact .inr (.inl ⟨old, hmem, methods, _, List.mem_of_mem_head? hhead, rfl⟩)
      · exact .inr (.inr (.inl ⟨old, hmem, hname, _, (Option.some.inj h).symm⟩))

theorem categoriesIn_cons_of_fresh {methods : ListRef} {chain chain' : List ListRef}
    (hfresh : categoriesIn chain = []) (hmem : methods ∈ chain) :
    categoriesIn (methods :: chain') = categoriesIn chain' := by
  have hnone : methods.category = none := by
    rw [categoriesIn, List.filterMap_eq_nil_iff] at hfresh
    exact hfresh methods hmem
  rw [categoriesIn, List.filterMap_cons, hnone]
  rfl

/-- One more class has been given to the loader, which may be in the table now. -/
theorem Inv.loadClass (h : Inv seen all entries σ) (hcls : ¬ seen cls)
    (hload : σ.loadClass additions mode cls = some σ') :
    Inv (fun c => seen c ∨ c = cls) all entries σ' ∧ σ'.events = σ.events ∧ σ'.loaded = σ.loaded := by
  have hfresh := h.fresh cls hcls
  rcases loadClass_cases hload with ⟨lists, rfl, hlists⟩ | ⟨old, hold, methods, superClass, hmethods, rfl⟩ |
    ⟨old, hold, hname, superClass, rfl⟩ | ⟨habsent, rfl⟩
  · exact ⟨h.congr (fun c => .inl) rfl rfl (fun c hc => hc) (fun c hc => .inl hc) (fun c _ => hlists c)
      h.names h.kept, rfl, rfl⟩
  · refine ⟨h.congr (fun c => .inl) rfl rfl (fun c hc => hc) (fun c hc => .inl hc)
        (fun c hc kind => ?_) h.names
      h.kept, rfl, rfl⟩
    -- `cls` shares the chain of `old` now, but it is not registered
    have hne : c ≠ cls := by
      rintro rfl
      rcases hc with hc | hc
      · exact hfresh.1 hc
      · exact hc (.inr rfl)
    rw [setList_lists, setList_lists, if_neg (fun hn => hne hn.1 : ¬ (c = cls ∧ kind = .instanceMethods))]
    split
    · rename_i heq
      rw [heq.1, heq.2, categoriesIn_cons_of_fresh (hfresh.2 .instanceMethods) hmethods]
    · rfl
  · refine ⟨h.congr (fun c => .inl) rfl rfl (fun c hc => ?_) (fun c hc => ?_) (fun c _ kind => rfl) ?_ ?_,
      rfl, rfl⟩
    · rcases hc with hc | hc
      · by_cases hco : c = old
        · exact .inr (hco ▸ List.mem_cons_self)
        · exact .inl (List.mem_map.mpr ⟨c, hc, if_neg hco⟩)
      · exact .inr (List.mem_cons_of_mem _ hc)
    · rcases hc with hc | hc
      · obtain ⟨c', hc', rfl⟩ := List.mem_map.mp hc
        by_cases hco : c' = old
        · rw [if_pos hco]
          exact .inr ⟨.inr rfl, hcls⟩
        · rw [if_neg hco]
          exact .inl (.inl hc')
      · rcases List.mem_cons.mp hc with rfl | hc
        · exact .inl (.inl hold)
        · exact .inl (.inr hc)
    · have hmap : (σ.table.map fun c => if c = old then cls else c).map ClassStruct.name =
          σ.table.map ClassStruct.name := by
        rw [List.map_map]
        refine List.map_congr_left fun c _ => ?_
        show (if c = old then cls else c).name = c.name
        split
        · rename_i hco
          rw [hco, hname]
        · rfl
      show ((σ.table.map fun c => if c = old then cls else c).map ClassStruct.name).Nodup
      rw [hmap]
      exact h.names
    · -- the names of the table have not changed
      have hmem : ∀ c ∈ σ.table, ∃ c' ∈ σ.table.map fun c => if c = old then cls
          else c, c'.name = c.name := by
        intro c hc
        refine ⟨_, List.mem_map_of_mem hc, ?_⟩
        split
        · rename_i hco
          rw [hco, hname]
        · rfl
      intro c hc
      rcases List.mem_cons.mp hc with rfl | hc
      · exact hmem _ hold
      · obtain ⟨c', hc', heq⟩ := h.kept c hc
        obtain ⟨c'', hc'', heq'⟩ := hmem c' hc'
        exact ⟨c'', hc'', heq'.trans heq⟩
  · refine ⟨h.congr (fun c => .inl) rfl rfl (fun c hc => ?_) (fun c hc => ?_) (fun c _ kind => rfl) ?_ ?_,
      rfl, rfl⟩
    · exact hc.imp (List.mem_cons_of_mem _) id
    · rcases hc with hc | hc
      · rcases List.mem_cons.mp hc with rfl | hc
        · exact .inr ⟨.inr rfl, hcls⟩
        · exact .inl (.inl hc)
      · exact .inl (.inr hc)
    · show ((cls :: σ.table).map ClassStruct.name).Nodup
      rw [List.map_cons, List.nodup_cons]
      refine ⟨fun hmem => ?_, h.names⟩
      obtain ⟨c, hc, heq⟩ := List.mem_map.mp hmem
      exact habsent c hc heq
    · intro c hc
      obtain ⟨c', hc', heq⟩ := h.kept c hc
      exact ⟨c', List.mem_cons_of_mem _ hc', heq⟩

/-- The loop over the classes of an image. -/
theorem Inv.loadClasses : ∀ {classes : List ClassStruct} {seen : ClassStruct → Prop} {σ σ' : Loader},
    Inv seen all entries σ → classes.Nodup → (∀ c ∈ classes, ¬ seen c) →
    classes.foldlM (Loader.loadClass additions mode) σ = some σ' →
    Inv (fun c => seen c ∨ c ∈ classes) all entries σ' ∧ σ'.events = σ.events ∧ σ'.loaded = σ.loaded
  | [], seen, σ, σ', h, _, _, hrun => by
    obtain rfl := Option.some.inj hrun
    exact ⟨by simpa using h, rfl, rfl⟩
  | cls :: classes, seen, σ, σ', h, hnodup, hfresh, hrun => by
    obtain ⟨hcls, hnodup⟩ := List.nodup_cons.mp hnodup
    obtain ⟨τ, hload, hrun⟩ := Option.bind_eq_some_iff.mp hrun
    obtain ⟨hτ, hevents, hloaded⟩ := h.loadClass (hfresh cls List.mem_cons_self) hload
    have hfresh' : ∀ c ∈ classes, ¬ (seen c ∨ c = cls) := by
      rintro c hc (hs | rfl)
      · exact hfresh c (List.mem_cons_of_mem _ hc) hs
      · exact hcls hc
    obtain ⟨hσ', hevents', hloaded'⟩ := hτ.loadClasses hnodup hfresh' hrun
    refine ⟨?_, hevents'.trans hevents, hloaded'.trans hloaded⟩
    simpa [or_assoc] using hσ'

/-- Outside of developer mode no class is replaced. -/
theorem loadClass_replaced (hmode : mode ≠ .developer) (h : σ.loadClass additions mode cls = some σ') :
    σ'.replaced = σ.replaced := by
  rw [loadClass] at h
  split at h
  · cases mode with
    | off => exact congrArg Loader.replaced (Option.some.inj h).symm
    | safeReload =>
      obtain ⟨lists, heq, -⟩ := safeReloadClass_eq
      rw [← Option.some.inj h, heq]
    | developer => exact absurd rfl hmode
  · rw [← Option.some.inj h]

theorem loadClasses_replaced (hmode : mode ≠ .developer) : ∀ {classes : List ClassStruct} {σ σ' : Loader},
    classes.foldlM (Loader.loadClass additions mode) σ = some σ' → σ'.replaced = σ.replaced
  | [], _, _, hrun => congrArg Loader.replaced (Option.some.inj hrun).symm
  | _ :: _, _, _, hrun => by
    obtain ⟨τ, hload, hrun⟩ := Option.bind_eq_some_iff.mp hrun
    exact (loadClasses_replaced hmode hrun).trans (loadClass_replaced hmode hload)

/-! ## Loading the categories -/

variable {all' : List Category} {entries' : List (Option Category)} {buffer : ObjectBuffer Category}

/-- A category is attached to its class, while the entries of the buffer change to `entries'`. -/
theorem Inv.attach (h : Inv seen all entries σ) (hcls : σ.classOf cat = some cls)
    (hbuffer : buffer.Holds entries')
    (honce : (σ.events.map Prod.fst ++ cat :: entries'.reduceOption).Perm all') :
    Inv seen all' entries' { σ.loadCategory cat cls with buffer := buffer } := by
  obtain ⟨hmem, hname⟩ := classOf_some hcls
  rw [loadCategory_eq]
  refine ⟨hbuffer, ?_, fun c hc kind => ?_, fun e he => ?_, h.names, h.kept, fun c hc => ?_⟩
  · simpa using honce
  · show categoriesIn ((σ.loadCategory cat cls).lists c kind) =
      (attachedTo (σ.events ++ [(cat, cls)]) c).reverse.filter _
    rw [loadCategory_lists, attachedTo_append]
    have hold := h.chains c hc kind
    by_cases hcc : c = cls
    · subst hcc
      by_cases hk : kind ∈ cat.lists
      · rw [if_pos ⟨rfl, hk⟩]
        show cat :: categoriesIn (σ.lists c kind) = _
        rw [hold]
        simp [attachedTo, hk]
      · rw [if_neg fun hn => hk hn.2]
        simpa [attachedTo, hk] using hold
    · rw [if_neg fun hn => hcc hn.1, hold]
      simp [attachedTo, Ne.symm hcc]
  · rcases List.mem_append.mp he with he | he
    · exact h.target e he
    · obtain rfl := List.mem_singleton.mp he
      exact ⟨hname, .inl hmem⟩
  · refine ⟨(h.fresh c hc).1, fun kind => ?_⟩
    show categoriesIn ((σ.loadCategory cat cls).lists c kind) = []
    have hne : c ≠ cls := by
      rintro rfl
      exact (h.fresh c hc).1 (.inl hmem)
    rw [loadCategory_lists, if_neg fun hn => hne hn.1, (h.fresh c hc).2]

/-- The attachments that the categories of a list get while the class table is that of `σ`. -/
def attachments (σ : Loader) (cats : List Category) : List (Category × ClassStruct) :=
  cats.filterMap fun cat => (σ.classOf cat).map (cat, ·)

/-- Those that have to wait. -/
def waiting (σ : Loader) (cats : List Category) : List Category := cats.filter fun cat =>
    (σ.classOf cat).isNone

theorem classOf_congr (h : σ'.table = σ.table) (cat : Category) : σ'.classOf cat = σ.classOf cat := by
  have hnamed : σ'.classNamed = σ.classNamed := funext fun name => by rw [classNamed, h, classNamed]
  rw [classOf, hnamed, classOf]

theorem attachments_congr (h : σ'.table = σ.table) (cats : List Category) :
    attachments σ' cats = attachments σ cats := by
  simp only [attachments, classOf_congr h]

theorem waiting_congr (h : σ'.table = σ.table) (cats : List Category) : waiting σ' cats = waiting σ cats := by
  simp only [waiting, classOf_congr h]

@[simp] theorem attachments_nil : attachments σ [] = [] := rfl

@[simp] theorem waiting_nil : waiting σ [] = [] := rfl

theorem attachments_cons_of_some (h : σ.classOf cat = some cls) (cats : List Category) :
    attachments σ (cat :: cats) = (cat, cls) :: attachments σ cats := by
  simp [attachments, h]

theorem attachments_cons_of_none (h : σ.classOf cat = none) (cats : List Category) :
    attachments σ (cat :: cats) = attachments σ cats := by
  simp [attachments, h]

theorem waiting_cons_of_some (h : σ.classOf cat = some cls) (cats : List Category) :
    waiting σ (cat :: cats) = waiting σ cats := by
  simp [waiting, h]

theorem waiting_cons_of_none (h : σ.classOf cat = none) (cats : List Category) :
    waiting σ (cat :: cats) = cat :: waiting σ cats := by
  simp [waiting, h]

/-- What attaching and buffering categories leaves alone. -/
structure SameClasses (σ σ' : Loader) : Prop where
  table : σ'.table = σ.table
  loaded : σ'.loaded = σ.loaded
  replaced : σ'.replaced = σ.replaced

theorem SameClasses.refl (σ : Loader) : SameClasses σ σ := ⟨rfl, rfl, rfl⟩

theorem SameClasses.trans {σ τ υ : Loader} (h : SameClasses σ τ) (h' : SameClasses τ υ) : SameClasses σ υ :=
  ⟨h'.table.trans h.table, h'.loaded.trans h.loaded, h'.replaced.trans h.replaced⟩

theorem loadCategory_sameClasses : SameClasses σ (σ.loadCategory cat cls) := by
  rw [loadCategory_eq]
  exact ⟨rfl, rfl, rfl⟩

theorem loadCategory_table : (σ.loadCategory cat cls).table = σ.table := loadCategory_sameClasses.table

theorem loadCategory_buffer : (σ.loadCategory cat cls).buffer = σ.buffer := by rw [loadCategory_eq]

theorem loadCategory_events : (σ.loadCategory cat cls).events =
    σ.events ++ [(cat, cls)] := by rw [loadCategory_eq]

/-- The loop over the categories of an image: each is attached or appended to the buffer. -/
theorem Inv.tryLoadCategories : ∀ {cats all : List Category} {entries : List (Option Category)}
    {σ σ' : Loader},
    Inv seen all entries σ → cats.foldlM (tryLoadCategory realloc junk) σ = some σ' →
    Inv seen (all ++ cats) (entries ++ (waiting σ cats).map some) σ' ∧
      σ'.events = σ.events ++ attachments σ cats ∧ SameClasses σ σ'
  | [], all, entries, σ, σ', h, hrun => by
    obtain rfl := Option.some.inj hrun
    exact ⟨by simpa using h, by simp, SameClasses.refl σ⟩
  | cat :: cats, all, entries, σ, σ', h, hrun => by
    obtain ⟨τ, hload, hrun⟩ := Option.bind_eq_some_iff.mp hrun
    rw [tryLoadCategory] at hload
    cases hcls : σ.classOf cat with
    | some cls =>
      rw [hcls] at hload
      obtain rfl := Option.some.inj hload
      have hτ : Inv seen (all ++ [cat]) entries (σ.loadCategory cat cls) := by
        have honce : (σ.events.map Prod.fst ++ cat :: entries.reduceOption).Perm (all ++ [cat]) :=
          List.perm_middle.trans ((h.once.cons cat).trans (List.perm_append_singleton cat all).symm)
        have hattach := h.attach hcls h.holds honce
        have hbuffer : (σ.loadCategory cat cls).buffer = σ.buffer := loadCategory_buffer
        rwa [← hbuffer] at hattach
      obtain ⟨hσ', hevents, hclasses⟩ := Inv.tryLoadCategories hτ hrun
      rw [waiting_congr loadCategory_table] at hσ'
      rw [attachments_congr loadCategory_table, loadCategory_events] at hevents
      refine ⟨?_, ?_, loadCategory_sameClasses.trans hclasses⟩
      · rw [waiting_cons_of_some hcls]
        simpa using hσ'
      · rw [hevents, attachments_cons_of_some hcls]
        simp
    | none =>
      rw [hcls] at hload
      obtain ⟨buffer, happend, rfl⟩ := Option.map_eq_some_iff.mp hload
      have hτ : Inv seen (all ++ [cat]) (entries ++ [some cat]) { σ with buffer := buffer } := by
        refine ⟨h.holds.append happend, ?_, h.chains, h.target, h.names, h.kept, h.fresh⟩
        rw [List.reduceOption_append, ← List.append_assoc]
        exact h.once.append_right [cat]
      obtain ⟨hσ', hevents, hclasses⟩ := Inv.tryLoadCategories hτ hrun
      have hsame : SameClasses σ { σ with buffer := buffer } := ⟨rfl, rfl, rfl⟩
      rw [waiting_congr hsame.table] at hσ'
      rw [attachments_congr hsame.table] at hevents
      refine ⟨?_, ?_, hsame.trans hclasses⟩
      · rw [waiting_cons_of_none hcls]
        simpa using hσ'
      · rw [hevents, attachments_cons_of_none hcls]

/-- The entries that the scan of the buffer leaves behind. -/
def marked (σ : Loader) (cats : List Category) : List (Option Category) :=
  cats.map fun cat => if (σ.classOf cat).isNone then some cat else none

theorem marked_congr (h : σ'.table = σ.table) (cats : List Category) : marked σ' cats = marked σ cats := by
  simp only [marked, classOf_congr h]

theorem marked_cons_of_some (h : σ.classOf cat = some cls) (cats : List Category) :
    marked σ (cat :: cats) = none :: marked σ cats := by
  simp [marked, h]

theorem marked_cons_of_none (h : σ.classOf cat = none) (cats : List Category) :
    marked σ (cat :: cats) = some cat :: marked σ cats := by
  simp [marked, h]

/-- The scan of the buffer: what it has seen are the entries `pre`, and it has still to look at `cats`. -/
theorem Inv.loadBufferedFrom : ∀ {cats : List Category} {pre : List (Option Category)} {σ σ' : Loader}
    {reshuffle reshuffle' : Bool}, Inv seen all (pre ++ cats.map some) σ →
    loadBufferedFrom realloc junk cats.length pre.length σ reshuffle = some (σ', reshuffle') →
    Inv seen all (pre ++ marked σ cats) σ' ∧ σ'.events = σ.events ++ attachments σ cats ∧
      SameClasses σ σ' ∧ reshuffle' = (reshuffle || cats.any fun cat => (σ.classOf cat).isSome)
  | [], pre, σ, σ', reshuffle, reshuffle', h, hrun => by
    obtain ⟨rfl, rfl⟩ := Prod.mk.inj (Option.some.inj hrun)
    exact ⟨h, by simp, SameClasses.refl σ, by simp⟩
  | cat :: cats, pre, σ, σ', reshuffle, reshuffle', h, hrun => by
    have hholds : σ.buffer.Holds (pre ++ some cat :: cats.map some) := h.holds
    rw [List.length_cons, Loader.loadBufferedFrom, hholds.at, Option.bind_some] at hrun
    simp only [Option.bind_some] at hrun
    cases hcls : σ.classOf cat with
    | some cls =>
      obtain ⟨buffer, hset, hbuffer⟩ : ∃ buffer, σ.buffer.setBufferedObjectAtIndex realloc junk none
          pre.length =
          some buffer ∧ buffer.Holds (pre ++ none :: cats.map some) := hholds.set none
      rw [hcls] at hrun
      simp only [Option.map_some, loadCategory_buffer, hset, Option.bind_some] at hrun
      have honce : (σ.events.map Prod.fst ++ cat ::
          (pre ++ [none] ++ cats.map some).reduceOption).Perm all := by
        refine List.Perm.trans (List.Perm.append_left _ ?_) h.once
        simp only [List.reduceOption_append, List.map_cons, List.reduceOption_cons_of_some]
        simpa using List.perm_middle.symm
      have hτ := h.attach hcls (by simpa using hbuffer) honce
      have hlen : (pre ++ [none]).length = pre.length + 1 := by simp
      rw [← hlen] at hrun
      obtain ⟨hσ', hevents, hclasses, hres⟩ := Inv.loadBufferedFrom hτ hrun
      have hsame : SameClasses σ { σ.loadCategory cat cls with buffer := buffer } :=
        loadCategory_sameClasses.trans ⟨rfl, rfl, rfl⟩
      rw [marked_congr hsame.table] at hσ'
      rw [attachments_congr hsame.table] at hevents
      refine ⟨?_, ?_, hsame.trans hclasses, ?_⟩
      · rw [marked_cons_of_some hcls]
        simpa using hσ'
      · rw [hevents, attachments_cons_of_some hcls]
        show (σ.loadCategory cat cls).events ++ _ = _
        rw [loadCategory_events]
        simp
      · rw [hres, List.any_cons, hcls]
        simp
    | none =>
      rw [hcls] at hrun
      have hlen : (pre ++ [some cat]).length = pre.length + 1 := by simp
      simp only [Option.map_none] at hrun
      rw [← hlen] at hrun
      obtain ⟨hσ', hevents, hclasses, hres⟩ := Inv.loadBufferedFrom (by simpa using h) hrun
      refine ⟨?_, ?_, hclasses, ?_⟩
      · rw [marked_cons_of_none hcls]
        simpa using hσ'
      · rw [hevents, attachments_cons_of_none hcls]
      · rw [hres, List.any_cons, hcls]
        simp

theorem filter_marked (cats : List Category) :
    (marked σ cats).filter Option.isSome = (waiting σ cats).map some := by
  induction cats with
  | nil => rfl
  | cons cat cats ih =>
    cases hcls : σ.classOf cat with
    | none =>
      rw [marked_cons_of_none hcls, waiting_cons_of_none hcls, List.filter_cons_of_pos rfl, ih]
      rfl
    | some cls =>
      rw [marked_cons_of_some hcls, waiting_cons_of_some hcls, List.filter_cons_of_neg (by simp), ih]

theorem reduceOption_marked (cats : List Category) : (marked σ cats).reduceOption = waiting σ cats := by
  induction cats with
  | nil => rfl
  | cons cat cats ih =>
    cases hcls : σ.classOf cat with
    | none => rw [marked_cons_of_none hcls, waiting_cons_of_none hcls, List.reduceOption_cons_of_some, ih]
    | some cls => rw [marked_cons_of_some hcls, waiting_cons_of_some hcls, List.reduceOption_cons_of_none, ih]

theorem reduceOption_map_some (cats : List Category) : (cats.map some).reduceOption = cats := by
  simp [List.reduceOption]

/-- The categories that wait and whose class is there now are attached, and the others keep waiting. -/
theorem Inv.loadBufferedCategories {cats : List Category} (h : Inv seen all (cats.map some) σ)
    (hrun : σ.loadBufferedCategories realloc junk = some σ') :
    Inv seen all ((waiting σ cats).map some) σ' ∧ σ'.events = σ.events ++ attachments σ cats ∧
      SameClasses σ σ' := by
  obtain ⟨⟨τ, reshuffle⟩, hscan, hrun⟩ := Option.bind_eq_some_iff.mp hrun
  rw [h.holds.objects, List.length_map] at hscan
  have hscanned : Inv seen all ([] ++ cats.map some) σ := h
  obtain ⟨hτ, hevents, hclasses, hres⟩ := Inv.loadBufferedFrom hscanned hscan
  simp only [List.nil_append, Bool.false_or] at hτ hres
  cases reshuffle with
  | true =>
    obtain ⟨buffer, hcompact, rfl⟩ := Option.map_eq_some_iff.mp hrun
    obtain ⟨buffer', hcompact', hholds⟩ : ∃ buffer', τ.buffer.compactBuffer realloc junk = some buffer' ∧
        buffer'.Holds ((marked σ cats).filter Option.isSome) := hτ.holds.compactBuffer
    obtain rfl := Option.some.inj (hcompact.symm.trans hcompact')
    rw [filter_marked] at hholds
    refine ⟨⟨hholds, ?_, hτ.chains, hτ.target, hτ.names, hτ.kept, hτ.fresh⟩, hevents,
      hclasses.trans ⟨rfl, rfl, rfl⟩⟩
    have honce := hτ.once
    rwa [reduceOption_marked, ← reduceOption_map_some (waiting σ cats)] at honce
  | false =>
    obtain rfl := Option.some.inj hrun
    refine ⟨?_, hevents, hclasses⟩
    -- no entry has become NULL
    have hmarked : marked σ cats = (waiting σ cats).map some := by
      rw [← filter_marked, eq_comm, List.filter_eq_self]
      intro e he
      obtain ⟨cat, hcat, rfl⟩ := List.mem_map.mp he
      have hnone : (σ.classOf cat).isSome = false := by
        have := (List.any_eq_false.mp hres.symm) cat hcat
        simpa using this
      rw [Option.isNone_iff_eq_none.mpr (by simpa using hnone)]
      rfl
    rwa [hmarked] at hτ

/-! ## Loads -/

/-- Between two loads. -/
structure Settled (P : Program) (waits : List Category) (σ : Loader) : Prop where
  inv : Inv (fun c => c.image ∈ σ.loaded) (σ.brought P) (waits.map some) σ
  absent : ∀ cat ∈ waits, σ.classOf cat = none
  loaded : σ.loaded.Nodup

theorem Inv.mono {seen' : ClassStruct → Prop} (h : Inv seen all entries σ) (hseen : ∀ c, seen c → seen' c) :
    Inv seen' all entries σ :=
  ⟨h.holds, h.once, h.chains, h.target, h.names, h.kept, fun c hc => h.fresh c fun hs => hc (hseen c hs)⟩

theorem attachments_waiting (cats : List Category) : attachments σ (waiting σ cats) = [] := by
  rw [attachments, List.filterMap_eq_nil_iff]
  intro cat hcat
  rw [Option.isNone_iff_eq_none.mp (List.mem_filter.mp hcat).2]
  rfl

theorem settled_start (superClass : ClassStruct → Option ClassStruct) (lists : ClassStruct → Kind → ℕ) :
    Settled P [] (start superClass lists) where
  inv := by
    refine ⟨ObjectBuffer.holds_empty, List.Perm.refl [], ?_, by simp [start], List.nodup_nil, by simp [start],
      fun c _ => ⟨?_, fun kind => ?_⟩⟩
    · rintro c (hc | hc) <;> cases hc
    · rintro (hc | hc) <;> cases hc
    · simp [start, categoriesIn, List.filterMap_map]
  absent := by simp
  loaded := List.nodup_nil

/-- **A load.** First the categories of the image are attached, then those that have waited; the others
    wait behind those that wait already. -/
theorem Settled.load {waits : List Category} {i : ℕ} (h : Settled P waits σ) (hi : i ∉ σ.loaded)
    (hload : σ.load realloc junk additions P mode i = some σ') :
    Settled P (waiting σ' (waits ++ broughtBy P i)) σ' ∧ σ'.loaded = σ.loaded ++ [i] ∧
      σ'.events = σ.events ++ attachments σ' (broughtBy P i) ++ attachments σ' waits ∧
      (mode ≠ .developer → σ'.replaced = σ.replaced) := by
  rw [Loader.load, if_neg hi] at hload
  obtain ⟨σ₁, hclasses, hload⟩ := Option.bind_eq_some_iff.mp hload
  obtain ⟨σ₂, hcats, hload⟩ := Option.bind_eq_some_iff.mp hload
  obtain ⟨σ₃, hbuffered, rfl⟩ := Option.map_eq_some_iff.mp hload
  have hfresh : ∀ c ∈ (P.classes i).reduceOption, ¬ c.image ∈ σ.loaded := by
    intro c hc
    rwa [P.class_image i c hc]
  obtain ⟨h₁, hevents₁, hloaded₁⟩ := h.inv.loadClasses (P.classes_nodup i) hfresh hclasses
  obtain ⟨h₂, hevents₂, hclasses₂⟩ := h₁.tryLoadCategories hcats
  rw [← List.map_append] at h₂
  obtain ⟨h₃, hevents₃, hclasses₃⟩ := h₂.loadBufferedCategories hbuffered
  have hsame₃ := hclasses₂.trans hclasses₃
  have hloaded : σ₃.loaded = σ.loaded := hsame₃.loaded.trans hloaded₁
  have htable₃ := hclasses₃.table
  have htable := hsame₃.table
  have hsame : ({ σ₃ with loaded := σ₃.loaded ++ [i] } : Loader).table = σ₃.table := rfl
  rw [waiting_congr htable₃.symm, waiting_congr htable.symm] at h₃
  rw [attachments_congr htable₃.symm, waiting_congr htable.symm] at hevents₃
  rw [attachments_congr htable.symm] at hevents₂
  have hwaits : waiting σ₃ (waits ++ waiting σ₃ (broughtBy P i)) = waiting σ₃ (waits ++ broughtBy P i) := by
    simp only [waiting, List.filter_append, List.filter_filter, Bool.and_self]
  rw [hwaits] at h₃
  have hbrought : ({ σ₃ with loaded := σ₃.loaded ++ [i] } : Loader).brought P =
      σ.brought P ++ broughtBy P i := by
    simp [brought, hloaded]
  refine ⟨⟨?_, ?_, ?_⟩, ?_, ?_, fun hmode => hsame₃.replaced.trans (loadClasses_replaced hmode hclasses)⟩
  · rw [hbrought, waiting_congr hsame]
    refine Inv.mono ⟨h₃.holds, h₃.once, h₃.chains, h₃.target, h₃.names, h₃.kept, h₃.fresh⟩ ?_
    rintro c (hc | hc)
    · exact List.mem_append_left [i] (hloaded ▸ hc)
    · exact List.mem_append_right σ₃.loaded (by simpa using P.class_image i c hc)
  · intro cat hcat
    exact Option.isNone_iff_eq_none.mp (List.mem_filter.mp hcat).2
  · show (σ₃.loaded ++ [i]).Nodup
    rw [hloaded]
    exact h.loaded.append (List.nodup_singleton i) (by simpa using hi)
  · show σ₃.loaded ++ [i] = _
    rw [hloaded]
  · have happend : attachments σ₃ (waits ++ waiting σ₃ (broughtBy P i)) = attachments σ₃ waits := by
      rw [attachments, List.filterMap_append]
      show attachments σ₃ waits ++ attachments σ₃ (waiting σ₃ (broughtBy P i)) = _
      rw [attachments_waiting, List.append_nil]
    rw [attachments_congr hsame, attachments_congr hsame, hevents₃, hevents₂, hevents₁, happend]

/-- A run of loads, with an invariant of the categories that wait. -/
theorem Settled.loadAll : ∀ {loads : List (Mode × ℕ)} {waits : List Category} {σ σ' : Loader},
    Settled P waits σ →
    σ.loadAll realloc junk additions P loads = some σ' →
    ∃ waits', Settled P waits' σ' ∧ ((∀ l ∈ loads, l.1 ≠ .developer) → σ'.replaced = σ.replaced)
  | [], waits, σ, σ', h, hrun => by
    obtain rfl := Option.some.inj hrun
    exact ⟨waits, h, fun _ => rfl⟩
  | (mode, i) :: loads, waits, σ, σ', h, hrun => by
    obtain ⟨τ, hload, hrun⟩ := Option.bind_eq_some_iff.mp hrun
    replace hload : σ.load realloc junk additions P mode i = some τ := hload
    by_cases hi : i ∈ σ.loaded
    · rw [Loader.load, if_pos hi] at hload
      obtain rfl := Option.some.inj hload
      obtain ⟨waits', hσ', hreplaced⟩ := h.loadAll hrun
      exact ⟨waits', hσ', fun hmode => hreplaced fun l hl => hmode l (List.mem_cons_of_mem _ hl)⟩
    · obtain ⟨hτ, -, -, hreplaced⟩ := h.load hi hload
      obtain ⟨waits', hσ', hreplaced'⟩ := hτ.loadAll hrun
      refine ⟨waits', hσ', fun hmode => ?_⟩
      exact (hreplaced' fun l hl => hmode l (List.mem_cons_of_mem _ hl)).trans
          (hreplaced (hmode _ List.mem_cons_self))

theorem nodup_brought (h : σ.loaded.Nodup) : (σ.brought P).Nodup := by
  rw [brought, List.nodup_flatMap]
  refine ⟨fun i _ => (P.categories_nodup i).filter _, h.pairwise_of_forall_ne ?_⟩
  intro i _ j _ hij cat hi hj
  have himage := P.category_image i cat (List.mem_filter.mp hi).1
  rw [P.category_image j cat (List.mem_filter.mp hj).1] at himage
  exact hij himage.symm

theorem Settled.buffered {waits : List Category} (h : Settled P waits σ) : σ.buffered = waits.map some := by
  obtain ⟨tail, htail⟩ := h.inv.holds.entries
  rw [Loader.buffered, ← htail, h.inv.holds.objects, List.take_left']
  rfl

theorem Settled.nodup {waits : List Category} (h : Settled P waits σ) :
    (σ.events.map Prod.fst ++ waits).Nodup := by
  have hperm := h.inv.once
  rw [reduceOption_map_some] at hperm
  exact hperm.nodup_iff.mpr (nodup_brought h.loaded)

theorem mem_attachedTo {events : List (Category × ClassStruct)} : cat ∈ attachedTo events cls ↔
    (cat, cls) ∈ events := by
  simp [attachedTo]

/-- How often the lists of a category are in the chains of a registered class. -/
theorem Inv.count (h : Inv seen all entries σ) (hnodup : (σ.events.map Prod.fst).Nodup)
    (hcls : σ.Registered cls)
    (kind : Kind) : (σ.lists cls kind).count (.ofCategory cat) =
      if (cat, cls) ∈ σ.events ∧ kind ∈ cat.lists then 1 else 0 := by
  rw [count_ofCategory, h.chains cls hcls kind]
  have hattached : ((attachedTo σ.events cls).reverse.filter fun cat => kind ∈ cat.lists).Nodup := by
    refine List.Nodup.filter _ (List.nodup_reverse.mpr ?_)
    exact hnodup.sublist (List.filter_sublist.map Prod.fst)
  rw [hattached.count]
  simp [mem_attachedTo]

theorem Settled.attached {waits : List Category} (h : Settled P waits σ) {e : Category × ClassStruct}
    (he : e ∈ σ.events) : σ.AttachedOnce e.1 e.2 ∧ ∀ c, σ.Registered c → c ≠ e.2 → σ.NotAttached e.1 c := by
  have hnodup := (List.nodup_append.mp h.nodup).1
  refine ⟨fun kind => ?_, fun c hc hne kind => ?_⟩
  · rw [h.inv.count hnodup (h.inv.target e he).2]
    simp [he]
  · rw [← List.count_eq_zero, h.inv.count hnodup hc, if_neg]
    rintro ⟨hec, -⟩
    exact hne (congrArg Prod.snd (List.inj_on_of_nodup_map hnodup hec he rfl))

theorem Settled.notAttached {waits : List Category} (h : Settled P waits σ) (hcat : cat ∈ waits) :
    ∀ c, σ.Registered c → σ.NotAttached cat c := by
  intro c hc kind
  obtain ⟨hnodup, -, hdisjoint⟩ := List.nodup_append.mp h.nodup
  rw [← List.count_eq_zero, h.inv.count hnodup hc, if_neg]
  rintro ⟨hec, -⟩
  exact hdisjoint cat (List.mem_map_of_mem hec) cat hcat rfl

theorem classNamed_of_mem (hnames : (σ.table.map ClassStruct.name).Nodup) (h : cls ∈ σ.table) :
    σ.classNamed cls.name = some cls := by
  obtain ⟨c, hc⟩ := Option.isSome_iff_exists.mp (List.find?_isSome.mpr ⟨cls, h, by simp⟩ :
    (σ.table.find? fun c => c.name = cls.name).isSome)
  obtain ⟨hmem, hname⟩ := classNamed_some (σ := σ) hc
  rwa [List.inj_on_of_nodup_map hnames hmem h hname] at hc

theorem Settled.mem {waits : List Category} (h : Settled P waits σ) (hcat : cat ∈ σ.brought P) :
    (∃ e ∈ σ.events, e.1 = cat) ∨ cat ∈ waits := by
  have hperm := h.inv.once
  rw [reduceOption_map_some] at hperm
  rcases List.mem_append.mp (hperm.mem_iff.mpr hcat) with hmem | hmem
  · exact .inl (List.mem_map.mp hmem)
  · exact .inr hmem

/-- The lists of the categories are in the chains in the reverse order of the categories. -/
theorem categoriesIn_sublist (chain : List ListRef) :
    ((categoriesIn chain).map .ofCategory).Sublist chain := by
  induction chain with
  | nil => exact List.Sublist.refl []
  | cons l chain ih =>
    cases l with
    | ofCategory cat => exact ih.cons_cons _
    | ofClass c n => exact ih.cons _
    | ofReload c => exact ih.cons _

/-- **In order.** Two categories of one class that wait together are attached in the order of the buffer. -/
theorem Settled.order {waits : List Category} {i : ℕ} (h : Settled P waits σ) (hi : i ∉ σ.loaded)
    (hload : σ.load realloc junk additions P mode i = some σ') {a b : Category} {kind : Kind}
    (hab : [a, b].Sublist waits) (hname : a.className = b.className) (hcls : σ'.classOf a = some cls)
    (ha : kind ∈ a.lists) (hb : kind ∈ b.lists) :
    [.ofCategory b, .ofCategory a].Sublist (σ'.lists cls kind) := by
  obtain ⟨hσ', -, hevents, -⟩ := h.load hi hload
  have hclsb : σ'.classOf b = some cls := by rwa [classOf, ← hname]
  have hattached : [(a, cls), (b, cls)].Sublist (attachments σ' waits) := by
    have hsub := hab.filterMap fun cat => (σ'.classOf cat).map (cat, ·)
    rw [attachments]
    simpa [hcls, hclsb] using hsub
  have hto : [a, b].Sublist (attachedTo σ'.events cls) := by
    rw [hevents, attachedTo_append]
    have hsub := (hattached.filter fun e => e.2 = cls).map Prod.fst
    simp only [decide_true, List.filter_cons_of_pos, List.filter_nil, List.map_cons, List.map_nil] at hsub
    exact hsub.trans (List.sublist_append_right _ _)
  have hchain : [b, a].Sublist (categoriesIn (σ'.lists cls kind)) := by
    rw [hσ'.inv.chains cls (.inl (classOf_some hcls).1) kind]
    have hsub := hto.reverse.filter fun cat => kind ∈ cat.lists
    simpa [ha, hb] using hsub
  exact (hchain.map ListRef.ofCategory).trans (categoriesIn_sublist _)

/-- **The categories.** After every load, a category whose class is in the class table is attached exactly
    once, to that class or to one that a reload has replaced by it, and any other waits exactly once. A
    load keeps what has no class yet, in its order, and attaches in that order what has waited. -/
theorem categories_attached (realloc : ℕ → Bool) (junk : Option Category)
    (additions : ClassStruct → ClassStruct → Bool × Bool) (P : Program)
    (superClass : ClassStruct → Option ClassStruct) (lists : ClassStruct → Kind → ℕ) (loads : List (Mode × ℕ))
    (σ : Loader) (hrun : (start superClass lists).loadAll realloc junk additions P loads = some σ) :
    (∀ cat ∈ σ.brought P, (∀ cls, σ.classOf cat = some cls → some cat ∉ σ.buffered ∧
        ∃ c, (c = cls ∨ c ∈ σ.replaced ∧ c.name = cls.name) ∧ σ.AttachedOnce cat c ∧
          ∀ c', σ.Registered c' → c' ≠ c → σ.NotAttached cat c') ∧
      (σ.classOf cat = none → σ.buffered.count (some cat) = 1 ∧ ∀ c, σ.Registered c → σ.NotAttached cat c)) ∧
    ((∀ l ∈ loads, l.1 ≠ .developer) → σ.replaced = []) ∧
    ∀ mode i σ', i ∉ σ.loaded → σ.load realloc junk additions P mode i = some σ' →
      σ'.buffered = (σ.buffered ++ (broughtBy P i).map some).filter (fun e => (e.bind σ'.classOf).isNone) ∧
      ∀ a b cls kind, List.Sublist [some a, some b] σ.buffered → a.className = b.className →
      σ'.classOf a = some cls →
        kind ∈ a.lists → kind ∈ b.lists → List.Sublist [.ofCategory b, .ofCategory a]
        (σ'.lists cls kind) := by
  obtain ⟨waits, hσ, hreplaced⟩ := (settled_start superClass lists).loadAll hrun
  refine ⟨fun cat hcat => ⟨fun cls hcls => ?_, fun hnone => ?_⟩, hreplaced,
      fun mode i σ' hi hload => ⟨?_, ?_⟩⟩
  · obtain ⟨hmem, hname⟩ := classOf_some hcls
    rcases hσ.mem hcat with ⟨e, he, rfl⟩ | hwaits
    · obtain ⟨hename, hreg⟩ := hσ.inv.target e he
      have hsame : e.2.name = cls.name := Option.some.inj (hename.symm.trans hname)
      refine ⟨fun hbuf => ?_, e.2, ?_, hσ.attached he⟩
      · rw [hσ.buffered] at hbuf
        obtain ⟨w, hw, heq⟩ := List.mem_map.mp hbuf
        rw [← Option.some.inj heq, hσ.absent w hw] at hcls
        cases hcls
      · exact hreg.imp (fun ht => List.inj_on_of_nodup_map hσ.inv.names ht hmem hsame) fun hr => ⟨hr, hsame⟩
    · rw [hσ.absent cat hwaits] at hcls
      cases hcls
  · have hwaits : cat ∈ waits := by
      rcases hσ.mem hcat with ⟨e, he, rfl⟩ | hwaits
      · -- a class of its name is in the table
        obtain ⟨hename, hreg⟩ := hσ.inv.target e he
        obtain ⟨c, hc, hname⟩ : ∃ c ∈ σ.table, c.name = e.2.name := by
          rcases hreg with ht | hr
          · exact ⟨e.2, ht, rfl⟩
          · exact hσ.inv.kept e.2 hr
        rw [classOf, hename, Option.bind_some, ← hname, classNamed_of_mem hσ.inv.names hc] at hnone
        cases hnone
      · exact hwaits
    refine ⟨?_, hσ.notAttached hwaits⟩
    have hnodup := (List.nodup_append.mp hσ.nodup).2.1
    have hinj : Function.Injective (some : Category → Option Category) := fun _ _ => Option.some.inj
    rw [hσ.buffered, (hnodup.map hinj).count, if_pos (List.mem_map_of_mem hwaits)]
  · obtain ⟨hσ', -, -, -⟩ := hσ.load hi hload
    rw [hσ'.buffered, hσ.buffered, ← List.map_append, List.filter_map]
    rfl
  · intro a b cls kind hab hname hcls ha hb
    rw [hσ.buffered] at hab
    have hab' := hab.filterMap id
    rw [List.filterMap_map] at hab'
    exact hσ.order hi hload (by simpa using hab') hname hcls ha hb

/-! ## A run -/

/-- The first image brings a category of a class that comes with the second one, which comes with another
    category of it. The third brings a class of that name with a different layout. -/
def exampleProgram : Program where
  classes
    | 1 => [some ⟨1, 0, "List", none, 8, none⟩]
    | 2 => [some ⟨2, 0, "List", none, 16, none⟩]
    | _ => []
  categories
    | 0 => [⟨0, 0, some "List", [.instanceMethods, .protocols]⟩, ⟨0, 1, some "List", [.instanceMethods]⟩]
    | 1 => [⟨1, 0, some "List", [.instanceMethods]⟩]
    | _ => []
  class_image i cls hcls := by
    match i with
    | 0 => simp at hcls
    | 1 => simp_all [List.reduceOption]
    | 2 => simp_all [List.reduceOption]
    | _ + 3 => simp at hcls
  classes_nodup i := by
    match i with
    | 0 => exact List.nodup_nil
    | 1 => exact List.nodup_singleton _
    | 2 => exact List.nodup_singleton _
    | _ + 3 => exact List.nodup_nil
  category_image i cat hcat := by
    match i with
    | 0 =>
      simp only [List.mem_cons, List.not_mem_nil, or_false] at hcat
      rcases hcat with rfl | rfl <;> rfl
    | 1 => simp_all
    | _ + 2 => simp at hcat
  categories_nodup i := by
    match i with
    | 0 => decide
    | 1 => exact List.nodup_singleton _
    | _ + 2 => exact List.nodup_nil

/-- The loads of the images of `exampleProgram` in turn, in one mode. -/
def exampleRun (mode : Mode) (images : List ℕ) : Option Loader :=
  (start (fun _ => none) fun _ _ => 1).loadAll (fun _ => true) none (fun _ _ => (false, false)) exampleProgram
    (images.map (mode, ·))

theorem categories_attached_late : ∃ σ, exampleRun .off [0, 1] = some σ ∧
    ∃ cls, σ.table = [cls] ∧ ∃ cat ∈ σ.brought exampleProgram, cat.image = 0 ∧
      σ.AttachedOnce cat cls ∧ some cat ∉ σ.buffered := by
  have hrun : (exampleRun .off [0, 1]).isSome ∧ ∀ σ ∈ exampleRun .off [0, 1], σ.replaced = [] ∧
      σ.table = [⟨1, 0, "List", none, 8, none⟩] ∧
      ⟨0, 0, some "List", [.instanceMethods, .protocols]⟩ ∈ σ.brought exampleProgram ∧
      σ.classOf ⟨0, 0, some "List", [.instanceMethods, .protocols]⟩ = some ⟨1, 0, "List", none, 8, none⟩ := by
    decide +kernel
  obtain ⟨σ, hσ⟩ := Option.isSome_iff_exists.mp hrun.1
  obtain ⟨hreplaced, htable, hcat, hcls⟩ := hrun.2 σ hσ
  obtain ⟨hbuffered, c, hc, hattached, -⟩ :=
      (categories_attached (fun _ => true) none (fun _ _ => (false, false))
    exampleProgram (fun _ => none) (fun _ _ => 1) [(.off, 0), (.off, 1)] σ hσ).1 _ hcat |>.1 _ hcls
  rw [hreplaced] at hc
  obtain rfl : c = _ := hc.resolve_right fun h => List.not_mem_nil h.1
  exact ⟨σ, hσ, _, htable, _, hcat, rfl, hattached, hbuffered⟩

/-- In developer mode the third image replaces the class, and the categories stay with the class that is
    no longer in the table. -/
theorem category_left_behind : ∃ σ, exampleRun .developer [0, 1, 2] = some σ ∧
    ∃ cls, σ.table = [cls] ∧ ∃ cat ∈ σ.brought exampleProgram, σ.classOf cat = some cls ∧
      ¬ σ.AttachedOnce cat cls := by
  have hrun : (exampleRun .developer [0, 1, 2]).isSome ∧ ∀ σ ∈ exampleRun .developer [0, 1, 2],
      σ.table = [⟨2, 0, "List", none, 16, none⟩] ∧
      ⟨1, 0, some "List", [.instanceMethods]⟩ ∈ σ.brought exampleProgram ∧
      σ.classOf ⟨1, 0, some "List", [.instanceMethods]⟩ = some ⟨2, 0, "List", none, 16, none⟩ ∧
      (σ.lists ⟨2, 0, "List", none, 16, none⟩ .instanceMethods).count
        (.ofCategory ⟨1, 0, some "List", [.instanceMethods]⟩) = 0 := by
    decide +kernel
  obtain ⟨σ, hσ⟩ := Option.isSome_iff_exists.mp hrun.1
  obtain ⟨htable, hcat, hcls, hcount⟩ := hrun.2 σ hσ
  refine ⟨σ, hσ, _, htable, _, hcat, hcls, fun hattached => ?_⟩
  rw [hattached .instanceMethods] at hcount
  simp at hcount

end Libobjc2.Classes.Categories
