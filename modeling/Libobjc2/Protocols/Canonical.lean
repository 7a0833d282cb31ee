import Libobjc2.Common.Run
import Libobjc2.Protocols.Merge
import Mathlib.Logic.Relation

/-!
# References to protocols

Where the lists of adopted protocols point to: `init_protocols`, `unique_protocol` and
`register_protocol_definition` (protocol.c), and what `__objc_load`, `objc_load_class` and `load_category` do
with those lists. Protocols of the old ABIs, which are upgraded first, are left out, and so are the
members of a protocol that are not protocols. A function is `none` where the source aborts or `fuel` does
not suffice.

Results:
* `initProtocols_spec`: what going through a list does, unless it skips a protocol that is not the
  registered one or a list is replaced that is being gone through.
* `references_canonical`: in runs of loads in which that does not happen, every reference is to the
  registered protocol of its name, and queries see the adoptions of the registered protocols.
* `reference_stale`: a class that refers to a second definition keeps that reference.
-/

namespace Libobjc2.Protocols

open Libobjc2.Common

/-! ## Model -/

abbrev ProtocolId := ℕ

abbrev ClassId := ℕ

abbrev CategoryId := ℕ

/-- A `struct objc_protocol_list`: in an image, or allocated by `protocol_merge_adopted`. -/
inductive ListId where
  | image (n : ℕ)
  | merged (n : ℕ)
deriving DecidableEq, Repr

/-- What the images contain: the names and lists of the protocols, the entries of the lists, and the lists
    of the classes and categories. The lists of an image are not chained. -/
structure Images where
  name : ProtocolId → String
  protocolList : ProtocolId → Option ℕ
  entries : ℕ → List ProtocolId
  classProtocols : ClassId → Option ℕ
  categoryProtocols : CategoryId → Option ℕ

/-- * `initialised`: the `isa` field is a class and no longer the version;
    * `table`: `known_protocol_table`;
    * `allocated`: the number of lists that have been allocated;
    * `classes`, `categories`: those that have been loaded. -/
structure Registry where
  initialised : ProtocolId → Bool
  protocolList : ProtocolId → Option ListId
  entries : ListId → List ProtocolId
  next : ListId → Option ListId
  table : String → Option ProtocolId
  allocated : ℕ
  classProtocols : ClassId → Option ListId
  classes : List ClassId
  categories : List CategoryId

namespace Registry

variable (im : Images)

/-- The lists that are met from a pointer to a list. -/
def chain (σ : Registry) : ℕ → Option ListId → Option (List ListId)
  | _, none => some []
  | 0, some _ => none
  | fuel + 1, some l => (σ.chain fuel (σ.next l)).map (l :: ·)

/-- The entries of the lists, as `protocol_merge_adopted` reads them. -/
def contents (σ : Registry) (lists : List ListId) : List (List (Option ProtocolId)) :=
  lists.map fun l => (σ.entries l).map some

/-- `makeProtocolEqualToProtocol`, as far as the adopted protocols go: `protocol_merge_adopted` allocates a new
    list unless there is nothing to add (protocol.c, line 314 and lines 266–305). -/
def makeProtocolEqualToProtocol (fuel : ℕ) (σ : Registry) (p1 p2 : ProtocolId) : Option Registry :=
  if (σ.protocolList p2).isNone then some σ
  else
    (σ.chain fuel (σ.protocolList p1)).bind fun first =>
      (σ.chain fuel (σ.protocolList p2)).bind fun second =>
        (mergeAdopted (fun p => some (im.name p)) (σ.contents first) (σ.contents second)).map fun list =>
          { σ with
            entries := Function.update σ.entries (.merged σ.allocated) (list.flatten.filterMap id)
            protocolList := Function.update σ.protocolList p1 (some (.merged σ.allocated))
            allocated := σ.allocated + 1 }

/-- `protocol_table_insert`. -/
def insert (σ : Registry) (p : ProtocolId) : Registry :=
  { σ with table := Function.update σ.table (im.name p) (some p) }

/-- `unique_protocol` (protocol.c, lines 341–354). -/
def uniqueProtocol (fuel : ℕ) (σ : Registry) (aProto : ProtocolId) : Option (Registry × ProtocolId) :=
  match σ.table (im.name aProto) with
  | none => some (σ.insert im aProto, aProto)
  | some oldProtocol =>
    if oldProtocol ≠ aProto then
      (σ.makeProtocolEqualToProtocol im fuel oldProtocol aProto).map (·, oldProtocol)
    else some (σ, oldProtocol)

/-- `aProto->isa = (id)&_OBJC_CLASS_Protocol`. -/
def setInitialised (σ : Registry) (p : ProtocolId) : Registry :=
  { σ with initialised := Function.update σ.initialised p true }

/-- `protocols->list[i] = p`. -/
def setEntry (σ : Registry) (l : ListId) (i : ℕ) (p : ProtocolId) : Registry :=
  { σ with entries := Function.update σ.entries l ((σ.entries l).set i p) }

/-- `init_protocols`, from the entry `i` on (protocol.c, lines 356–405). -/
def initProtocols : ℕ → Registry → ListId → ℕ → Option Registry
  | 0, _, _, _ => none
  | fuel + 1, σ, protocols, i =>
    match (σ.entries protocols)[i]? with
    | none => some σ
    | some aProto =>
      -- Don't initialise a protocol twice
      if σ.initialised aProto then initProtocols fuel σ protocols (i + 1)
      else
        let σ := σ.setInitialised aProto
        let nested :=
          match σ.protocolList aProto with
          | some list => initProtocols fuel σ list 0
          | none => some σ
        nested.bind fun σ => (σ.uniqueProtocol im fuel aProto).bind fun r =>
          initProtocols fuel (r.1.setEntry protocols i r.2) protocols (i + 1)

/-- `objc_init_protocols` for a list that may be NULL. `init_protocols` never fails, so that no list is
    buffered (protocol.c, lines 407–428). -/
def objcInitProtocols (fuel : ℕ) (σ : Registry) : Option ListId → Option Registry
  | none => some σ
  | some l => initProtocols im fuel σ l 0

/-- `registerProtocol` (protocol.c, lines 757–777 and 786–791). -/
def registerProtocol (fuel : ℕ) (σ : Registry) (proto : ProtocolId) : Option Registry :=
  let existing := σ.table (im.name proto)
  let σ := σ.setInitialised proto
  match existing with
  | none => some (σ.insert im proto)
  | some existing => σ.makeProtocolEqualToProtocol im fuel existing proto

/-- The second loop of `__objc_load` over the protocols (loader.c, lines 818–826). -/
def canonicalise (fuel : ℕ) (σ : Registry) (proto : ProtocolId) : Option Registry :=
  σ.objcInitProtocols im fuel ((σ.table (im.name proto)).bind σ.protocolList)

/-- `objc_load_class` for a class that is put into the class table (class_table.c, lines 1015–1018). -/
def loadClass (fuel : ℕ) (σ : Registry) (cls : ClassId) : Option Registry :=
  (σ.objcInitProtocols im fuel (σ.classProtocols cls)).map fun σ => { σ with classes := cls :: σ.classes }

/-- `load_category`, for a class that is in the class table (category_loader.c, lines 36–41). -/
def loadCategory (fuel : ℕ) (σ : Registry) (c : CategoryId × ClassId) : Option Registry :=
  if c.2 ∈ σ.classes then
    let list := (im.categoryProtocols c.1).map ListId.image
    (σ.objcInitProtocols im fuel list).map fun σ =>
      match list with
      | some l =>
        { σ with
          next := Function.update σ.next l (σ.classProtocols c.2)
          classProtocols := Function.update σ.classProtocols c.2 (some l)
          categories := c.1 :: σ.categories }
      | none => { σ with categories := c.1 :: σ.categories }
  else none

/-- A load: the protocols of the image, the classes of it that are put into the class table, and the
    categories that are attached, of this image and of earlier ones. -/
structure Load where
  protocols : List ProtocolId
  classes : List ClassId
  categories : List (CategoryId × ClassId)
deriving Repr

/-- `__objc_load` (loader.c, lines 807–888). -/
def load (fuel : ℕ) (σ : Registry) (l : Load) : Option Registry :=
  (l.protocols.foldlM (registerProtocol im fuel) σ).bind fun σ =>
    (l.protocols.foldlM (canonicalise im fuel) σ).bind fun σ =>
      (l.classes.foldlM (loadClass im fuel) σ).bind fun σ => l.categories.foldlM (loadCategory im fuel) σ

/-- Before the first load. -/
def start : Registry where
  initialised _ := false
  protocolList p := (im.protocolList p).map .image
  entries
    | .image n => im.entries n
    | .merged _ => []
  next _ := none
  table _ := none
  allocated := 0
  classProtocols cls := (im.classProtocols cls).map .image
  classes := []
  categories := []

/-- `protocol_conformsToProtocol` (protocol.c, lines 438–461). -/
def protocolConformsToProtocol : ℕ → Registry → ProtocolId → ProtocolId → Option Bool
  | 0, _, _, _ => none
  | fuel + 1, σ, p1, p2 =>
    if im.name p1 = im.name p2 then some true
    else
      (σ.chain fuel (σ.protocolList p1)).bind fun lists =>
        (lists.flatMap σ.entries).anyM fun p =>
          if im.name p = im.name p2 then some true else protocolConformsToProtocol fuel σ p p2

/-! ## The condition -/

/-- A protocol that is merged into another one with a list of its own is not merged into one whose list is
    being gone through. -/
def MergeOk (σ : Registry) (walking : List ListId) (aProto : ProtocolId) : Prop :=
  ∀ old, σ.table (im.name aProto) = some old → old ≠ aProto → σ.protocolList aProto ≠ none →
    ∀ l ∈ walking, σ.protocolList old ≠ some l

/-- Going through the list, `init_protocols` skips no protocol but those that are registered under their
    names, and replaces no list that is being gone through; `walking`: the lists that the callers go
    through. -/
def InitOk : ℕ → Registry → List ListId → ListId → ℕ → Prop
  | 0, _, _, _, _ => True
  | fuel + 1, σ, walking, protocols, i =>
    match (σ.entries protocols)[i]? with
    | none => True
    | some aProto =>
      if σ.initialised aProto then
        σ.table (im.name aProto) = some aProto ∧ InitOk fuel σ walking protocols (i + 1)
      else
        let σ := σ.setInitialised aProto
        let nested :=
          match σ.protocolList aProto with
          | some list => initProtocols im fuel σ list 0
          | none => some σ
        (∀ list, σ.protocolList aProto = some list → InitOk fuel σ (protocols :: walking) list 0) ∧
          ∀ τ, nested = some τ → MergeOk im τ (protocols :: walking) aProto ∧
            ∀ r, τ.uniqueProtocol im fuel aProto = some r →
              InitOk fuel (r.1.setEntry protocols i r.2) walking protocols (i + 1)

/-- The same for a list that may be NULL. -/
def ObjcInitOk (fuel : ℕ) (σ : Registry) (list : Option ListId) : Prop :=
  ∀ l ∈ list, InitOk im fuel σ [] l 0

/-- A condition that holds whenever an element of the list has its turn. -/
def AlongFold {α : Type} (ok : Registry → α → Prop) (step : Registry → α → Option Registry) :
    Registry → List α → Prop
  | _, [] => True
  | σ, a :: l => ok σ a ∧ ∀ τ, step σ a = some τ → AlongFold ok step τ l

/-- The condition for all lists that a load goes through. -/
def LoadOk (fuel : ℕ) (σ : Registry) (l : Load) : Prop :=
  ∀ σ₁, l.protocols.foldlM (registerProtocol im fuel) σ = some σ₁ →
    AlongFold (fun τ p => ObjcInitOk im fuel τ ((τ.table (im.name p)).bind τ.protocolList))
    (canonicalise im fuel) σ₁
      l.protocols ∧
    ∀ σ₂, l.protocols.foldlM (canonicalise im fuel) σ₁ = some σ₂ →
      AlongFold (fun τ cls => ObjcInitOk im fuel τ (τ.classProtocols cls)) (loadClass im fuel) σ₂ l.classes ∧
      ∀ σ₃, l.classes.foldlM (loadClass im fuel) σ₂ = some σ₃ →
        AlongFold (fun τ c => ObjcInitOk im fuel τ ((im.categoryProtocols c.1).map .image))
        (loadCategory im fuel) σ₃
          l.categories

/-! ## References -/

/-- Registered under its own name. -/
def Canonical (σ : Registry) (p : ProtocolId) : Prop := σ.table (im.name p) = some p

/-- `p` is in a list that is met from this pointer. -/
inductive InChain (σ : Registry) (p : ProtocolId) : Option ListId → Prop
  | here {l : ListId} : p ∈ σ.entries l → InChain σ p (some l)
  | there {l : ListId} : InChain σ p (σ.next l) → InChain σ p (some l)

/-- The references that are reachable from a loaded class, a loaded category or a registered protocol. -/
inductive Reachable (σ : Registry) : ProtocolId → Prop
  | ofClass {cls : ClassId} {p : ProtocolId} : cls ∈ σ.classes →
      InChain σ p (σ.classProtocols cls) → Reachable σ p
  | ofCategory {cat : CategoryId} {p : ProtocolId} : cat ∈ σ.categories →
      InChain σ p ((im.categoryProtocols cat).map .image) → Reachable σ p
  | ofProtocol {q p : ProtocolId} : σ.Canonical im q → InChain σ p (σ.protocolList q) → Reachable σ p
  | ofReference {q p : ProtocolId} : Reachable σ q → InChain σ p (σ.protocolList q) → Reachable σ p

/-- The protocol that is registered under the first name adopts one of the second name. -/
def Adopts (σ : Registry) (n m : String) : Prop :=
  ∃ p q, σ.table n = some p ∧ InChain σ q (σ.protocolList p) ∧ im.name q = m

/-- All entries of a list are registered. -/
def AllCanonical (σ : Registry) (l : ListId) : Prop := ∀ p ∈ σ.entries l, σ.Canonical im p

/-- A list of an image, or one that has been allocated. -/
def Allocated (σ : Registry) : ListId → Prop
  | .image _ => True
  | .merged n => n < σ.allocated

/-! ## The invariant -/

/-- `todo`: the protocols whose lists have still to be gone through in the load that goes on. -/
structure Inv (todo : ProtocolId → Prop) (σ : Registry) : Prop where
  named : ∀ n p, σ.table n = some p → im.name p = n
  registered : ∀ p, σ.Canonical im p → σ.initialised p = true
  lists : ∀ p, σ.Canonical im p → ¬ todo p → ∀ l, σ.protocolList p = some l → σ.AllCanonical im l
  next : ∀ l l', σ.next l = some l' → σ.AllCanonical im l'
  classes : ∀ cls ∈ σ.classes, ∀ l, σ.classProtocols cls = some l → σ.AllCanonical im l
  categories : ∀ cat ∈ σ.categories, ∀ n, im.categoryProtocols cat = some n → σ.AllCanonical im (.image n)
  allocList : ∀ p l, σ.protocolList p = some l → σ.Allocated l
  allocNext : ∀ l l', σ.next l = some l' → σ.Allocated l'
  allocClass : ∀ cls l, σ.classProtocols cls = some l → σ.Allocated l

/-- What going through lists does to the registry: more protocols are registered, but none of `busy`,
    only lists of registered protocols are replaced, and entries are replaced by registered protocols. -/
structure Ext (busy : ProtocolId → Prop) (σ σ' : Registry) : Prop where
  canonical : ∀ p, σ.Canonical im p → σ'.Canonical im p
  unregistered : ∀ p, busy p → ¬ σ.Canonical im p → ¬ σ'.Canonical im p
  initialised : ∀ p, σ.initialised p = true → σ'.initialised p = true
  lists : ∀ p, ¬ σ'.Canonical im p → σ'.protocolList p = σ.protocolList p
  entries : ∀ l, σ.Allocated l → ∀ (i : ℕ) (p : ProtocolId), (σ'.entries l)[i]? = some p →
    (σ.entries l)[i]? = some p ∨ σ'.Canonical im p
  allocated : ∀ l, σ.Allocated l → σ'.Allocated l
  next : σ'.next = σ.next
  classProtocols : σ'.classProtocols = σ.classProtocols
  classes : σ'.classes = σ.classes
  categories : σ'.categories = σ.categories

variable {im : Images} {todo todo' busy busy' : ProtocolId → Prop} {σ τ υ σ' : Registry}
    {p q p1 p2 : ProtocolId}
  {l : ListId} {fuel i : ℕ} {walking : List ListId}

theorem Ext.refl (busy : ProtocolId → Prop) (σ : Registry) : Ext im busy σ σ :=
  ⟨fun _ h => h, fun _ _ h => h, fun _ h => h, fun _ _ => rfl, fun _ _ _ _ h => .inl h, fun _ h =>
   h, rfl, rfl, rfl, rfl⟩

theorem Ext.trans (h : Ext im busy σ τ) (h' : Ext im busy τ υ) : Ext im busy σ υ where
  canonical p hp := h'.canonical p (h.canonical p hp)
  unregistered p hb hp := h'.unregistered p hb (h.unregistered p hb hp)
  initialised p hp := h'.initialised p (h.initialised p hp)
  lists p hp := (h'.lists p hp).trans (h.lists p fun hn => hp (h'.canonical p hn))
  entries l hl i p hp := by
    rcases h'.entries l (h.allocated l hl) i p hp with hp | hp
    · exact (h.entries l hl i p hp).imp id (h'.canonical p)
    · exact .inr hp
  allocated l hl := h'.allocated l (h.allocated l hl)
  next := h'.next.trans h.next
  classProtocols := h'.classProtocols.trans h.classProtocols
  classes := h'.classes.trans h.classes
  categories := h'.categories.trans h.categories

theorem Ext.mono (h : Ext im busy σ σ') (hb : ∀ p, busy' p → busy p) : Ext im busy' σ σ' :=
  { h with unregistered := fun p hp => h.unregistered p (hb p hp) }

theorem Ext.allCanonical (h : Ext im busy σ σ') (hl : σ.Allocated l) (hc : σ.AllCanonical im l) :
    σ'.AllCanonical im l := by
  intro p hp
  obtain ⟨i, hi⟩ := List.mem_iff_getElem?.mp hp
  rcases h.entries l hl i p hi with hi | hp
  · exact h.canonical p (hc p (List.mem_of_getElem? hi))
  · exact hp

/-- The invariant of the lists survives whatever extends the registry. -/
theorem Inv.ext (h : Inv im todo σ) (hext : Ext im busy σ σ')
    (hnamed : ∀ n p, σ'.table n = some p → im.name p = n)
    (hreg : ∀ p, σ'.Canonical im p → σ'.initialised p = true)
    (hlists : ∀ p, σ'.Canonical im p → ¬ todo p → ∀ l, σ'.protocolList p = some l → σ'.AllCanonical im l)
    (halloc : ∀ p l, σ'.protocolList p = some l → σ'.Allocated l) : Inv im todo σ' where
  named := hnamed
  registered := hreg
  lists := hlists
  next l l' hl := by
    rw [hext.next] at hl
    exact hext.allCanonical (h.allocNext l l' hl) (h.next l l' hl)
  classes cls hcls l hl := by
    rw [hext.classes] at hcls
    rw [hext.classProtocols] at hl
    exact hext.allCanonical (h.allocClass cls l hl) (h.classes cls hcls l hl)
  categories cat hcat n hn := by
    rw [hext.categories] at hcat
    exact hext.allCanonical trivial (h.categories cat hcat n hn)
  allocList := halloc
  allocNext l l' hl := by
    rw [hext.next] at hl
    exact hext.allocated l' (h.allocNext l l' hl)
  allocClass cls l hl := by
    rw [hext.classProtocols] at hl
    exact hext.allocated l (h.allocClass cls l hl)

theorem Inv.mono (h : Inv im todo σ) (ht : ∀ p, todo p → todo' p) : Inv im todo' σ :=
  { h with lists := fun p hp hn => h.lists p hp fun hp => hn (ht p hp) }

theorem inv_start : Inv im (fun _ => False) (start im) where
  named n p h := by cases h
  registered p h := by cases h
  lists p h := by cases h
  next l l' h := by cases h
  classes cls h := by cases h
  categories cat h := by cases h
  allocList p l h := by
    obtain ⟨n, -, rfl⟩ := Option.map_eq_some_iff.mp h
    trivial
  allocNext l l' h := by cases h
  allocClass cls l h := by
    obtain ⟨n, -, rfl⟩ := Option.map_eq_some_iff.mp h
    trivial

/-! ## One protocol -/

theorem chain_canonical (h : Inv im todo σ) : ∀ {fuel : ℕ} {ptr : Option ListId} {lists : List ListId},
    σ.chain fuel ptr = some lists → (∀ l, ptr = some l → σ.AllCanonical im l) →
    ∀ l ∈ lists, σ.AllCanonical im l
  | fuel, none, lists, hrun, _ => by
    rw [chain] at hrun
    obtain rfl := Option.some.inj hrun
    simp
  | 0, some l, lists, hrun, _ => by cases hrun
  | fuel + 1, some l, lists, hrun, hhead => by
    obtain ⟨rest, hrest, rfl⟩ := Option.map_eq_some_iff.mp hrun
    intro l' hl'
    rcases List.mem_cons.mp hl' with rfl | hl'
    · exact hhead _ rfl
    · exact chain_canonical h hrest (fun l'' hnext => h.next l l'' hnext) l' hl'

theorem mem_contents {lists : List ListId} : some p ∈ (σ.contents lists).flatten ↔
    ∃ l ∈ lists, p ∈ σ.entries l := by
  simp [contents]

/-- A merge gives the first protocol a new list, whose entries are those of the two chains. -/
theorem makeProtocolEqualToProtocol_cases (h : σ.makeProtocolEqualToProtocol im fuel p1 p2 = some σ') :
    (σ.protocolList p2 = none ∧ σ' = σ) ∨ ∃ first second entries, σ.protocolList p2 ≠ none ∧
      σ.chain fuel (σ.protocolList p1) = some first ∧ σ.chain fuel (σ.protocolList p2) = some second ∧
      (∀ q ∈ entries, (∃ l ∈ first, q ∈ σ.entries l) ∨ ∃ l ∈ second, q ∈ σ.entries l) ∧
      σ' = { σ with
        entries := Function.update σ.entries (.merged σ.allocated) entries
        protocolList := Function.update σ.protocolList p1 (some (.merged σ.allocated))
        allocated := σ.allocated + 1 } := by
  rw [makeProtocolEqualToProtocol] at h
  split at h
  · rename_i hnone
    exact .inl ⟨Option.isNone_iff_eq_none.mp hnone, (Option.some.inj h).symm⟩
  · rename_i hsome
    obtain ⟨first, hfirst, h⟩ := Option.bind_eq_some_iff.mp h
    obtain ⟨second, hsecond, h⟩ := Option.bind_eq_some_iff.mp h
    obtain ⟨list, hmerge, rfl⟩ := Option.map_eq_some_iff.mp h
    refine .inr ⟨first, second, _, fun hnone => hsome (Option.isNone_iff_eq_none.mpr hnone), hfirst, hsecond,
      fun q hq => ?_, rfl⟩
    exact (mergeAdopted_subset hmerge q hq).imp mem_contents.mp mem_contents.mp

/-- The registry after a merge into a registered protocol. -/
theorem Inv.merge (h : Inv im todo σ) (hp1 : σ.Canonical im p1)
    (hp2 : todo p1 ∨ ∀ l, σ.protocolList p2 = some l → σ.AllCanonical im l)
    (hrun : σ.makeProtocolEqualToProtocol im fuel p1 p2 = some σ') :
    Inv im todo σ' ∧ Ext im (fun _ => True) σ σ' ∧ σ'.table = σ.table ∧
      ∀ p, p ≠ p1 ∨ σ.protocolList p2 = none → σ'.protocolList p = σ.protocolList p := by
  rcases makeProtocolEqualToProtocol_cases hrun with ⟨-, rfl⟩ | ⟨first, second, entries, hsome,
      hfirst, hsecond, hmem, rfl⟩
  · exact ⟨h, Ext.refl _ _, rfl, fun _ _ => rfl⟩
  · have hlist : ∀ p, p ≠ p1 →
        Function.update σ.protocolList p1 (some (ListId.merged σ.allocated)) p = σ.protocolList p :=
      fun p hp => Function.update_of_ne hp _ _
    have halloc : ∀ l, σ.Allocated l → l ≠ .merged σ.allocated := by
      rintro l hl rfl
      exact Nat.lt_irrefl _ hl
    have hext : Ext im (fun _ => True) σ { σ with
        entries := Function.update σ.entries (.merged σ.allocated) entries
        protocolList := Function.update σ.protocolList p1 (some (.merged σ.allocated))
        allocated := σ.allocated + 1 } := by
      refine ⟨fun _ hp => hp, fun _ _ hp => hp, fun _ hp => hp, fun p hp => hlist p ?_, fun l hl i p hi => ?_,
        fun l hl => ?_, rfl, rfl, rfl, rfl⟩
      · rintro rfl
        exact hp hp1
      · left
        rwa [show ({ σ with
          entries := Function.update σ.entries (.merged σ.allocated) entries
          protocolList := Function.update σ.protocolList p1 (some (.merged σ.allocated))
          allocated := σ.allocated + 1 } : Registry).entries l =
              σ.entries l from Function.update_of_ne (halloc l hl) _ _] at hi
      · cases l with
        | image n => trivial
        | merged n => exact Nat.lt_succ_of_lt hl
    refine ⟨h.ext hext h.named h.registered (fun p hp htodo l hl => ?_) (fun p l hl => ?_), hext,
        rfl, fun p hp => ?_⟩
    · by_cases hpp : p = p1
      · subst hpp
        obtain rfl : ListId.merged σ.allocated = l := by
          have hself : Function.update σ.protocolList p (some (ListId.merged σ.allocated)) p = some l := hl
          rw [Function.update_self] at hself
          exact Option.some.inj hself
        intro q hq
        have hq' : q ∈ Function.update σ.entries (ListId.merged σ.allocated) entries
            (.merged σ.allocated) := hq
        rw [Function.update_self] at hq'
        rcases hmem q hq' with ⟨l, hl, hq⟩ | ⟨l, hl, hq⟩
        · exact chain_canonical h hfirst (h.lists p hp htodo) l hl q hq
        · exact chain_canonical h hsecond (hp2.resolve_left htodo) l hl q hq
      · have hl' : σ.protocolList p = some l := (hlist p hpp).symm.trans hl
        exact hext.allCanonical (h.allocList p l hl') (h.lists p hp htodo l hl')
    · by_cases hpp : p = p1
      · subst hpp
        have hself : Function.update σ.protocolList p (some (ListId.merged σ.allocated)) p = some l := hl
        rw [Function.update_self] at hself
        obtain rfl := Option.some.inj hself
        exact Nat.lt_succ_self _
      · exact hext.allocated l (h.allocList p l ((hlist p hpp).symm.trans hl))
    · exact hlist p (hp.resolve_right hsome)

theorem Inv.setInitialised (h : Inv im todo σ) (p : ProtocolId) :
    Inv im todo (σ.setInitialised p) ∧ Ext im (fun _ => True) σ (σ.setInitialised p) := by
  have hinit : ∀ q, σ.initialised q = true → (σ.setInitialised p).initialised q = true := by
    intro q hq
    by_cases hqp : q = p
    · subst hqp
      exact Function.update_self ..
    · exact (Function.update_of_ne hqp _ _).trans hq
  have hext : Ext im (fun _ => True) σ (σ.setInitialised p) :=
    ⟨fun _ hp => hp, fun _ _ hp => hp, hinit, fun _ _ => rfl, fun _ _ _ _ hp => .inl hp, fun _ hl =>
     hl, rfl, rfl, rfl, rfl⟩
  exact ⟨h.ext hext h.named (fun q hq => hinit q (h.registered q hq)) h.lists h.allocList, hext⟩

/-- A protocol that has been initialised is registered under a name that is new. -/
theorem Inv.insert (h : Inv im todo σ) (hnew : σ.table (im.name p) = none) (hinit : σ.initialised p = true)
    (hlist : todo p ∨ ∀ l, σ.protocolList p = some l → σ.AllCanonical im l) :
    Inv im todo (σ.insert im p) ∧ Ext im (fun q => q ≠ p) σ (σ.insert im p) ∧
    (σ.insert im p).Canonical im p := by
  have hself : (σ.insert im p).Canonical im p := Function.update_self ..
  have hother : ∀ q, q ≠ p → ((σ.insert im p).Canonical im q ↔ σ.Canonical im q) := by
    intro q hq
    by_cases hname : im.name q = im.name p
    · constructor
      · intro hc
        have hc' : Function.update σ.table (im.name p) (some p) (im.name q) = some q := hc
        rw [hname, Function.update_self] at hc'
        exact absurd (Option.some.inj hc').symm hq
      · intro hc
        rw [Canonical, hname, hnew] at hc
        cases hc
    · show Function.update σ.table (im.name p) (some p) (im.name q) = some q ↔ _
      rw [Function.update_of_ne hname]
      exact Iff.rfl
  have hold : ¬ σ.Canonical im p := by
    intro hc
    rw [Canonical, hnew] at hc
    cases hc
  have hcanonical : ∀ q, σ.Canonical im q → (σ.insert im p).Canonical im q := by
    intro q hq
    by_cases hqp : q = p
    · exact hqp ▸ hself
    · exact (hother q hqp).mpr hq
  have hext : Ext im (fun q => q ≠ p) σ (σ.insert im p) :=
    ⟨hcanonical, fun q hq hn hc => hn ((hother q hq).mp hc), fun _ hq => hq, fun _ _ => rfl,
     fun _ _ _ _ hp => .inl hp,
      fun _ hl => hl, rfl, rfl, rfl, rfl⟩
  refine ⟨h.ext hext (fun n q hq => ?_) (fun q hq => ?_) (fun q hq htodo l hl => ?_) h.allocList, hext, hself⟩
  · have hq' : Function.update σ.table (im.name p) (some p) n = some q := hq
    by_cases hn : n = im.name p
    · rw [hn, Function.update_self] at hq'
      rw [hn, Option.some.inj hq']
    · rw [Function.update_of_ne hn] at hq'
      exact h.named n q hq'
  · by_cases hqp : q = p
    · exact hqp ▸ hinit
    · exact h.registered q ((hother q hqp).mp hq)
  · have hcanon : σ.AllCanonical im l := by
      by_cases hqp : q = p
      · subst hqp
        exact hlist.resolve_left htodo l hl
      · exact h.lists q ((hother q hqp).mp hq) htodo l hl
    exact fun e he => hcanonical e (hcanon e he)

/-- The protocols whose list is one of these keep it. -/
def Keeps (im : Images) (walking : List ListId) (σ σ' : Registry) : Prop :=
  ∀ p, σ.Canonical im p → ∀ l ∈ walking, σ.protocolList p = some l → σ'.protocolList p = some l

/-- `unique_protocol` for a protocol that is not registered, and whose own list has been gone through. -/
theorem Inv.uniqueProtocol (h : Inv im todo σ) (hinit : σ.initialised p = true) (hnew : ¬ σ.Canonical im p)
    (hlist : ∀ l, σ.protocolList p = some l → σ.AllCanonical im l) (hok : MergeOk im σ walking p)
    {r : Registry × ProtocolId} (hrun : σ.uniqueProtocol im fuel p = some r) :
    Inv im todo r.1 ∧ Ext im (fun q => q ≠ p) σ r.1 ∧ Keeps im walking σ r.1 ∧ r.1.Canonical im r.2 := by
  rw [Registry.uniqueProtocol] at hrun
  cases htable : σ.table (im.name p) with
  | none =>
    rw [htable] at hrun
    obtain rfl := Option.some.inj hrun
    obtain ⟨hinv, hext, hcanonical⟩ := h.insert htable hinit (.inr hlist)
    exact ⟨hinv, hext, fun _ _ _ _ hl => hl, hcanonical⟩
  | some old =>
    have hold : σ.Canonical im old := by rw [Canonical, h.named _ _ htable, htable]
    have hne : old ≠ p := by
      rintro rfl
      exact hnew hold
    rw [htable] at hrun
    simp only [hne, ne_eq, not_false_eq_true, if_true] at hrun
    obtain ⟨σ', hmerge, rfl⟩ := Option.map_eq_some_iff.mp hrun
    obtain ⟨hinv, hext, -, hlists⟩ := h.merge hold (.inr hlist) hmerge
    refine ⟨hinv, hext.mono fun _ _ => trivial, fun q _ l hl hq => ?_, hext.canonical old hold⟩
    show σ'.protocolList q = some l
    rw [hlists q, hq]
    by_cases hpnone : σ.protocolList p = none
    · exact .inr hpnone
    · refine .inl ?_
      rintro rfl
      exact hok q htable hne hpnone l hl hq

theorem Inv.setEntry (h : Inv im todo σ) (l : ListId) (i : ℕ) (hq : σ.Canonical im q) :
    Inv im todo (σ.setEntry l i q) ∧ Ext im (fun _ => True) σ (σ.setEntry l i q) := by
  have hentries : ∀ (l' : ListId) (j : ℕ) (p : ProtocolId), ((σ.setEntry l i q).entries l')[j]? = some p →
      (σ.entries l')[j]? = some p ∨ σ.Canonical im p := by
    intro l' j p hp
    have hp' : (Function.update σ.entries l ((σ.entries l).set i q) l')[j]? = some p := hp
    by_cases hl : l' = l
    · subst hl
      rw [Function.update_self, List.getElem?_set] at hp'
      split at hp'
      · split at hp'
        · exact .inr (Option.some.inj hp' ▸ hq)
        · cases hp'
      · exact .inl hp'
    · rw [Function.update_of_ne hl] at hp'
      exact .inl hp'
  have hext : Ext im (fun _ => True) σ (σ.setEntry l i q) :=
    ⟨fun _ hp => hp, fun _ _ hp => hp, fun _ hp => hp, fun _ _ => rfl, fun l' _ j p hp => hentries l' j p hp,
      fun _ hl => hl, rfl, rfl, rfl, rfl⟩
  refine ⟨h.ext hext h.named h.registered (fun p hp htodo l' hl' => ?_) h.allocList, hext⟩
  exact hext.allCanonical (h.allocList p l' hl') (h.lists p hp htodo l' hl')

/-! ## A list of protocols -/

theorem keeps_refl (walking : List ListId) (σ : Registry) : Keeps im walking σ σ := fun _ _ _ _ h => h

theorem Keeps.trans (h : Keeps im walking σ τ) (hext : Ext im busy σ τ) (h' : Keeps im walking τ υ) :
    Keeps im walking σ υ :=
  fun p hp l hl heq => h' p (hext.canonical p hp) l hl (h p hp l hl heq)

theorem keeps_of_lists (h : σ'.protocolList = σ.protocolList) : Keeps im walking σ σ' := by
  intro p _ l _ heq
  rw [h, heq]

/-- The entries before `i` are registered. -/
def Before (im : Images) (σ : Registry) (l : ListId) (i : ℕ) : Prop :=
  ∀ j < i, ∀ p, (σ.entries l)[j]? = some p → σ.Canonical im p

theorem Ext.before (h : Ext im busy σ σ') (hl : σ.Allocated l) (hi : Before im σ l i) : Before im σ' l i := by
  intro j hj p hp
  rcases h.entries l hl j p hp with hp | hp
  · exact h.canonical p (hi j hj p hp)
  · exact hp

/-- **`init_protocols`.** The entries of the list are registered afterwards. -/
theorem initProtocols_spec : ∀ {fuel : ℕ} {σ σ' : Registry} {walking : List ListId}
    {protocols : ListId} {i : ℕ},
    Inv im todo σ → σ.Allocated protocols → InitOk im fuel σ walking protocols i →
    initProtocols im fuel σ protocols i = some σ' → Before im σ protocols i →
    Inv im todo σ' ∧ Ext im (fun p => σ.initialised p = true) σ σ' ∧ Keeps im (protocols :: walking) σ σ' ∧
      σ'.AllCanonical im protocols
  | 0, _, _, _, _, _, _, _, _, hrun, _ => by cases hrun
  | fuel + 1, σ, σ', walking, protocols, i, h, halloc, hok, hrun, hbefore => by
    rw [initProtocols] at hrun
    rw [InitOk] at hok
    cases hentry : (σ.entries protocols)[i]? with
    | none =>
      rw [hentry] at hrun
      obtain rfl := Option.some.inj hrun
      refine ⟨h, Ext.refl _ _, keeps_refl _ _, fun p hp => ?_⟩
      obtain ⟨j, hj⟩ := List.mem_iff_getElem?.mp hp
      refine hbefore j ?_ p hj
      have hlen := (List.getElem?_eq_some_iff.mp hj).1
      have := List.getElem?_eq_none_iff.mp hentry
      omega
    | some aProto =>
      rw [hentry] at hrun hok
      simp only at hrun hok
      by_cases hinit : σ.initialised aProto = true
      · -- skipped, so that it is the registered protocol
        rw [if_pos hinit] at hrun hok
        refine initProtocols_spec h halloc hok.2 hrun fun j hj p hp => ?_
        rcases Nat.lt_succ_iff_lt_or_eq.mp hj with hj | rfl
        · exact hbefore j hj p hp
        · obtain rfl := Option.some.inj (hentry.symm.trans hp)
          exact hok.1
      · rw [if_neg hinit] at hrun hok
        obtain ⟨hnestedOk, hrestOk⟩ := hok
        obtain ⟨h₀, hext₀⟩ := h.setInitialised aProto
        have hself : (σ.setInitialised aProto).initialised aProto = true := Function.update_self ..
        have hnew : ¬ (σ.setInitialised aProto).Canonical im aProto := fun hc =>
            hinit (h.registered aProto hc)
        obtain ⟨σ₁, hnested, hrun⟩ := Option.bind_eq_some_iff.mp hrun
        obtain ⟨hmergeOk, hrestOk⟩ := hrestOk σ₁ hnested
        obtain ⟨r, hunique, hrun⟩ := Option.bind_eq_some_iff.mp hrun
        -- the adopted protocols of `aProto` come first
        have hfirst : Inv im todo σ₁ ∧ Ext im (fun p => (σ.setInitialised aProto).initialised p = true)
            (σ.setInitialised aProto) σ₁ ∧ Keeps im (protocols :: walking) (σ.setInitialised aProto) σ₁ ∧
            ∀ l, (σ.setInitialised aProto).protocolList aProto = some l → σ₁.AllCanonical im l := by
          cases hlist : (σ.setInitialised aProto).protocolList aProto with
          | none =>
            rw [hlist] at hnested
            obtain rfl := Option.some.inj hnested
            exact ⟨h₀, Ext.refl _ _, keeps_refl _ _, fun l hl => by cases hl⟩
          | some list =>
            rw [hlist] at hnested
            obtain ⟨hinv, hext, hkeeps, hall⟩ := initProtocols_spec h₀ (h₀.allocList aProto list hlist)
              (hnestedOk list hlist) hnested (fun j hj => absurd hj (Nat.not_lt_zero j))
            refine ⟨hinv, hext, fun p hp l hl => hkeeps p hp l (List.mem_cons_of_mem list hl), fun l hl => ?_⟩
            exact Option.some.inj hl ▸ hall
        obtain ⟨h₁, hext₁, hkeeps₁, hlist₁⟩ := hfirst
        have hnew₁ := hext₁.unregistered aProto hself hnew
        obtain ⟨h₂, hext₂, hkeeps₂, hcanonical⟩ := h₁.uniqueProtocol (hext₁.initialised aProto hself) hnew₁
          (fun l hl => hlist₁ l ((hext₁.lists aProto hnew₁).symm.trans hl)) hmergeOk hunique
        obtain ⟨h₃, hext₃⟩ := h₂.setEntry protocols i hcanonical
        -- from the start of the step to its end
        have hstep : Ext im (fun p => σ.initialised p = true) σ (r.1.setEntry protocols i r.2) := by
          refine (hext₀.mono fun _ _ => trivial).trans
              ((hext₁.mono fun p hp => hext₀.initialised p hp).trans ?_)
          refine (hext₂.mono fun p hp => ?_).trans (hext₃.mono fun _ _ => trivial)
          rintro rfl
          exact hinit hp
        have hbefore' : Before im (r.1.setEntry protocols i r.2) protocols (i + 1) := by
          intro j hj p hp
          rcases Nat.lt_succ_iff_lt_or_eq.mp hj with hj | rfl
          · exact hstep.before halloc hbefore j hj p hp
          · have hp' : (Function.update r.1.entries protocols ((r.1.entries protocols).set j r.2)
                protocols)[j]? =
                some p := hp
            rw [Function.update_self, List.getElem?_set_self'] at hp'
            obtain ⟨-, -, rfl⟩ := Option.map_eq_some_iff.mp hp'
            exact hext₃.canonical _ hcanonical
        obtain ⟨h', hext', hkeeps', hall⟩ := initProtocols_spec h₃ (hstep.allocated protocols halloc)
          (hrestOk r hunique) hrun hbefore'
        refine ⟨h', hstep.trans (hext'.mono hstep.initialised), ?_, hall⟩
        have hkeeps₀ : Keeps im (protocols :: walking) σ (σ.setInitialised aProto) := keeps_of_lists rfl
        have hkeeps₃ : Keeps im (protocols :: walking) r.1 (r.1.setEntry protocols i r.2) :=
            keeps_of_lists rfl
        exact hkeeps₀.trans hext₀ (hkeeps₁.trans hext₁ (hkeeps₂.trans hext₂ (hkeeps₃.trans hext₃ hkeeps')))

/-- The same for a list that may be NULL. -/
theorem objcInitProtocols_spec {list : Option ListId} (h : Inv im todo σ)
    (halloc : ∀ l, list = some l → σ.Allocated l)
    (hok : ObjcInitOk im fuel σ list) (hrun : σ.objcInitProtocols im fuel list = some σ') :
    Inv im todo σ' ∧ Ext im (fun p => σ.initialised p = true) σ σ' ∧ ∀ l, list = some l →
      σ'.AllCanonical im l ∧ ∀ p, σ.Canonical im p → σ.protocolList p = some l →
      σ'.protocolList p = some l := by
  cases list with
  | none =>
    obtain rfl := Option.some.inj hrun
    exact ⟨h, Ext.refl _ _, fun l hl => by cases hl⟩
  | some l =>
    obtain ⟨hinv, hext, hkeeps, hall⟩ := initProtocols_spec h (halloc l rfl) (hok l rfl) hrun
      fun j hj => absurd hj (Nat.not_lt_zero j)
    refine ⟨hinv, hext, fun l' hl' => ?_⟩
    obtain rfl := Option.some.inj hl'
    exact ⟨hall, fun p hp heq => hkeeps p hp l List.mem_cons_self heq⟩

/-! ## A load -/

theorem Inv.registerProtocol (h : Inv im todo σ) (htodo : ∀ q, im.name q = im.name p → todo q)
    (hrun : σ.registerProtocol im fuel p = some σ') : Inv im todo σ' := by
  obtain ⟨h₀, hext₀⟩ := h.setInitialised p
  rw [Registry.registerProtocol] at hrun
  cases htable : σ.table (im.name p) with
  | none =>
    simp only [htable] at hrun
    obtain rfl := Option.some.inj hrun
    exact (h₀.insert htable (Function.update_self ..) (.inl (htodo p rfl))).1
  | some existing =>
    simp only [htable] at hrun
    have hname := h.named _ _ htable
    have hcanonical : (σ.setInitialised p).Canonical im existing := by
      show σ.table (im.name existing) = some existing
      rw [hname, htable]
    exact (h₀.merge hcanonical (.inl (htodo existing hname)) hrun).1

theorem Inv.registerProtocols : ∀ {protocols : List ProtocolId} {σ σ' : Registry}, Inv im todo σ →
    (∀ p ∈ protocols, ∀ q, im.name q = im.name p → todo q) →
    protocols.foldlM (Registry.registerProtocol im fuel) σ = some σ' → Inv im todo σ'
  | [], σ, σ', h, _, hrun => by
    obtain rfl := Option.some.inj hrun
    exact h
  | p :: protocols, σ, σ', h, htodo, hrun => by
    obtain ⟨τ, hstep, hrun⟩ := Option.bind_eq_some_iff.mp hrun
    exact (h.registerProtocol (htodo p List.mem_cons_self) hstep).registerProtocols
      (fun q hq => htodo q (List.mem_cons_of_mem p hq)) hrun

/-- The lists of the protocols with these names have still to be gone through. -/
def Pending (im : Images) (protocols : List ProtocolId) : ProtocolId → Prop :=
  fun q => im.name q ∈ protocols.map im.name

theorem Inv.canonicalise {protocols : List ProtocolId} (h : Inv im (Pending im (p :: protocols)) σ)
    (hok : ObjcInitOk im fuel σ ((σ.table (im.name p)).bind σ.protocolList))
    (hrun : σ.canonicalise im fuel p = some σ') : Inv im (Pending im protocols) σ' := by
  have halloc : ∀ l, (σ.table (im.name p)).bind σ.protocolList = some l → σ.Allocated l := by
    intro l hl
    obtain ⟨q, -, hq⟩ := Option.bind_eq_some_iff.mp hl
    exact h.allocList q l hq
  obtain ⟨hinv, hext, hlist⟩ := objcInitProtocols_spec h halloc hok hrun
  refine { hinv with lists := fun q hq hpending l hl => ?_ }
  by_cases hname : im.name q = im.name p
  · -- `q` is the protocol whose list has been gone through
    cases htable : σ.table (im.name p) with
    | none =>
      rw [Registry.canonicalise, htable] at hrun
      obtain rfl := Option.some.inj hrun
      rw [Canonical, hname, htable] at hq
      cases hq
    | some q' =>
      have hq' : σ.Canonical im q' := by rw [Canonical, h.named _ _ htable, htable]
      have hsame : q' = q := by
        have hq'' := hext.canonical q' hq'
        rw [Canonical, h.named _ _ htable, ← hname] at hq''
        exact Option.some.inj (hq''.symm.trans hq)
      subst hsame
      cases hold : σ.protocolList q' with
      | none =>
        rw [Registry.canonicalise, htable, Option.bind_some, hold] at hrun
        obtain rfl := Option.some.inj hrun
        rw [hold] at hl
        cases hl
      | some l' =>
        obtain ⟨hall, hkeep⟩ := hlist l' (by rw [htable, Option.bind_some, hold])
        rw [hkeep q' hq' hold] at hl
        exact Option.some.inj hl ▸ hall
  · refine hinv.lists q hq (fun hp => ?_) l hl
    rcases List.mem_cons.mp hp with hp | hp
    · exact hname hp
    · exact hpending hp

theorem Inv.canonicaliseAll : ∀ {protocols : List ProtocolId} {σ σ' : Registry},
    Inv im (Pending im protocols) σ →
    AlongFold (fun τ p => ObjcInitOk im fuel τ ((τ.table (im.name p)).bind τ.protocolList))
      (Registry.canonicalise im fuel) σ protocols →
    protocols.foldlM (Registry.canonicalise im fuel) σ = some σ' → Inv im (fun _ => False) σ'
  | [], σ, σ', h, _, hrun => by
    obtain rfl := Option.some.inj hrun
    exact h.mono fun p hp => by cases hp
  | p :: protocols, σ, σ', h, hok, hrun => by
    obtain ⟨τ, hstep, hrun⟩ := Option.bind_eq_some_iff.mp hrun
    exact (h.canonicalise hok.1 hstep).canonicaliseAll (hok.2 τ hstep) hrun

theorem Inv.loadClass {cls : ClassId} (h : Inv im (fun _ => False) σ)
    (hok : ObjcInitOk im fuel σ (σ.classProtocols cls))
    (hrun : σ.loadClass im fuel cls = some σ') : Inv im (fun _ => False) σ' := by
  obtain ⟨τ, hinit, rfl⟩ := Option.map_eq_some_iff.mp hrun
  obtain ⟨hinv, hext, hlist⟩ := objcInitProtocols_spec h (h.allocClass cls) hok hinit
  refine { hinv with classes := fun c hc l hl => ?_ }
  rcases List.mem_cons.mp hc with rfl | hc
  · exact (hlist l ((congrFun hext.classProtocols c).symm.trans hl)).1
  · exact hinv.classes c hc l hl

theorem Inv.loadCategory {c : CategoryId × ClassId} (h : Inv im (fun _ => False) σ)
    (hok : ObjcInitOk im fuel σ ((im.categoryProtocols c.1).map .image))
    (hrun : σ.loadCategory im fuel c = some σ') : Inv im (fun _ => False) σ' := by
  rw [Registry.loadCategory] at hrun
  split at hrun
  · rename_i hclass
    obtain ⟨τ, hinit, rfl⟩ := Option.map_eq_some_iff.mp hrun
    have halloc : ∀ l, (im.categoryProtocols c.1).map ListId.image = some l → σ.Allocated l := by
      intro l hl
      obtain ⟨n, -, rfl⟩ := Option.map_eq_some_iff.mp hl
      trivial
    obtain ⟨hinv, hext, hlist⟩ := objcInitProtocols_spec h halloc hok hinit
    cases hcat : im.categoryProtocols c.1 with
    | none =>
      refine { hinv with categories := fun cat hc n hn => ?_ }
      rcases List.mem_cons.mp hc with rfl | hc
      · rw [hcat] at hn
        cases hn
      · exact hinv.categories cat hc n hn
    | some n =>
      have hall : τ.AllCanonical im (.image n) := (hlist (.image n) (by rw [hcat]; rfl)).1
      have hclass' : c.2 ∈ τ.classes := by
        rw [hext.classes]
        exact hclass
      refine { hinv with
        next := fun l l' hl => ?_
        classes := fun cls hcls l hl => ?_
        categories := fun cat hc m hm => ?_
        allocNext := fun l l' hl => ?_
        allocClass := fun cls l hl => ?_ }
      · have hl' : Function.update τ.next (ListId.image n) (τ.classProtocols c.2) l = some l' := hl
        by_cases heq : l = .image n
        · rw [heq, Function.update_self] at hl'
          exact hinv.classes c.2 hclass' l' hl'
        · rw [Function.update_of_ne heq] at hl'
          exact hinv.next l l' hl'
      · have hl' : Function.update τ.classProtocols c.2 (some (ListId.image n)) cls = some l := hl
        by_cases heq : cls = c.2
        · rw [heq, Function.update_self] at hl'
          exact Option.some.inj hl' ▸ hall
        · rw [Function.update_of_ne heq] at hl'
          exact hinv.classes cls hcls l hl'
      · rcases List.mem_cons.mp hc with rfl | hc
        · rw [hcat] at hm
          exact Option.some.inj hm ▸ hall
        · exact hinv.categories cat hc m hm
      · have hl' : Function.update τ.next (ListId.image n) (τ.classProtocols c.2) l = some l' := hl
        by_cases heq : l = .image n
        · rw [heq, Function.update_self] at hl'
          exact hinv.allocClass c.2 l' hl'
        · rw [Function.update_of_ne heq] at hl'
          exact hinv.allocNext l l' hl'
      · have hl' : Function.update τ.classProtocols c.2 (some (ListId.image n)) cls = some l := hl
        by_cases heq : cls = c.2
        · rw [heq, Function.update_self] at hl'
          obtain rfl := Option.some.inj hl'
          trivial
        · rw [Function.update_of_ne heq] at hl'
          exact hinv.allocClass cls l hl'
  · cases hrun

/-- The folds of a load keep what a step keeps. -/
theorem foldlM_inv {α : Type} {I : Registry → Prop} {ok : Registry → α → Prop}
    {step : Registry → α → Option Registry}
    (hstep : ∀ σ a σ', I σ → ok σ a → step σ a = some σ' → I σ') :
    ∀ {l : List α} {σ σ' : Registry}, I σ → AlongFold ok step σ l → l.foldlM step σ = some σ' → I σ'
  | [], σ, σ', h, _, hrun => by
    obtain rfl := Option.some.inj hrun
    exact h
  | a :: l, σ, σ', h, hok, hrun => by
    obtain ⟨τ, ha, hrun⟩ := Option.bind_eq_some_iff.mp hrun
    exact foldlM_inv hstep (hstep σ a τ h hok.1 ha) (hok.2 τ ha) hrun

/-- **A load.** -/
theorem Inv.load {l : Load} (h : Inv im (fun _ => False) σ) (hok : LoadOk im fuel σ l)
    (hrun : σ.load im fuel l = some σ') : Inv im (fun _ => False) σ' := by
  obtain ⟨σ₁, hregister, hrun⟩ := Option.bind_eq_some_iff.mp hrun
  obtain ⟨σ₂, hcanonicalise, hrun⟩ := Option.bind_eq_some_iff.mp hrun
  obtain ⟨σ₃, hclasses, hcategories⟩ := Option.bind_eq_some_iff.mp hrun
  obtain ⟨hok₁, hok⟩ := hok σ₁ hregister
  obtain ⟨hok₂, hok⟩ := hok σ₂ hcanonicalise
  have h₀ : Inv im (Pending im l.protocols) σ := h.mono fun p hp => hp.elim
  have hpending : ∀ p ∈ l.protocols, ∀ q, im.name q = im.name p → Pending im l.protocols q := by
    intro p hp q hq
    rw [Pending, hq]
    exact List.mem_map_of_mem hp
  have h₁ := h₀.registerProtocols hpending hregister
  have h₂ := h₁.canonicaliseAll hok₁ hcanonicalise
  have h₃ : Inv im (fun _ => False) σ₃ := foldlM_inv (fun _ _ _ hσ ho hr => hσ.loadClass ho hr) h₂
      hok₂ hclasses
  exact foldlM_inv (fun _ _ _ hσ ho hr => hσ.loadCategory ho hr) h₃ (hok σ₃ hclasses) hcategories

/-! ## References and queries -/

theorem InChain.canonical (h : Inv im todo σ) {ptr : Option ListId} (hp : InChain σ p ptr)
    (hhead : ∀ l, ptr = some l → σ.AllCanonical im l) : σ.Canonical im p := by
  induction hp with
  | here hmem => exact hhead _ rfl p hmem
  | there _ ih => exact ih fun l hl => h.next _ l hl

theorem Inv.reachable (h : Inv im (fun _ => False) σ) (hp : Reachable im σ p) : σ.Canonical im p := by
  induction hp with
  | ofClass hcls hchain => exact hchain.canonical h (h.classes _ hcls)
  | ofCategory hcat hchain =>
    refine hchain.canonical h fun l hl => ?_
    obtain ⟨n, hn, rfl⟩ := Option.map_eq_some_iff.mp hl
    exact h.categories _ hcat n hn
  | ofProtocol hq hchain => exact hchain.canonical h (h.lists _ hq id)
  | ofReference _ hchain ih => exact hchain.canonical h (h.lists _ ih id)

theorem mem_chain : ∀ {fuel : ℕ} {ptr : Option ListId} {lists : List ListId}, σ.chain fuel ptr = some lists →
    (p ∈ lists.flatMap σ.entries ↔ InChain σ p ptr)
  | fuel, none, lists, hrun => by
    rw [chain] at hrun
    obtain rfl := Option.some.inj hrun
    exact ⟨fun hp => (nomatch hp), fun hp => (nomatch hp)⟩
  | 0, some l, lists, hrun => by cases hrun
  | fuel + 1, some l, lists, hrun => by
    obtain ⟨rest, hrest, rfl⟩ := Option.map_eq_some_iff.mp hrun
    rw [List.flatMap_cons, List.mem_append, mem_chain hrest]
    constructor
    · rintro (hp | hp)
      · exact .here hp
      · exact .there hp
    · intro hp
      cases hp with
      | here hmem => exact .inl hmem
      | there hp => exact .inr hp

theorem anyM_true {α : Type} {f : α → Option Bool} : ∀ {l : List α}, l.anyM f = some true →
    ∃ a ∈ l, f a = some true
  | [], h => by cases h
  | a :: l, h => by
    rw [List.anyM] at h
    obtain ⟨b, hb, h⟩ := Option.bind_eq_some_iff.mp h
    cases b with
    | true => exact ⟨a, List.mem_cons_self, hb⟩
    | false =>
      obtain ⟨a', ha', hf⟩ := anyM_true h
      exact ⟨a', List.mem_cons_of_mem a ha', hf⟩

theorem anyM_false {α : Type} {f : α → Option Bool} : ∀ {l : List α}, l.anyM f = some false →
    ∀ a ∈ l, f a = some false
  | [], _ => by simp
  | a :: l, h => by
    rw [List.anyM] at h
    obtain ⟨b, hb, h⟩ := Option.bind_eq_some_iff.mp h
    cases b with
    | true => cases h
    | false =>
      intro a' ha'
      rcases List.mem_cons.mp ha' with rfl | ha'
      · exact hb
      · exact anyM_false h a' ha'

/-- A query about a registered protocol follows the adoptions of the registered protocols. -/
theorem Inv.conforms (h : Inv im (fun _ => False) σ) : ∀ {fuel : ℕ} {p1 p2 : ProtocolId} {b : Bool},
    σ.Canonical im p1 → protocolConformsToProtocol im fuel σ p1 p2 = some b →
    (b = true ↔ Relation.ReflTransGen (Adopts im σ) (im.name p1) (im.name p2))
  | 0, _, _, _, _, hrun => by cases hrun
  | fuel + 1, p1, p2, b, hp1, hrun => by
    rw [protocolConformsToProtocol] at hrun
    split at hrun
    · rename_i hname
      obtain rfl := Option.some.inj hrun
      rw [hname]
      exact ⟨fun _ => Relation.ReflTransGen.refl, fun _ => rfl⟩
    · rename_i hname
      obtain ⟨lists, hchain, hany⟩ := Option.bind_eq_some_iff.mp hrun
      have hadopted : ∀ q, q ∈ lists.flatMap σ.entries ↔ InChain σ q (σ.protocolList p1) := fun q =>
          mem_chain hchain
      have hcanonical : ∀ q ∈ lists.flatMap σ.entries, σ.Canonical im q := by
        intro q hq
        exact InChain.canonical h ((hadopted q).mp hq) (h.lists p1 hp1 id)
      cases b with
      | true =>
        refine ⟨fun _ => ?_, fun _ => rfl⟩
        obtain ⟨q, hq, hfound⟩ := anyM_true hany
        refine Relation.ReflTransGen.head ⟨p1, q, hp1, (hadopted q).mp hq, rfl⟩ ?_
        split at hfound
        · rename_i heq
          rw [heq]
        · exact (h.conforms (hcanonical q hq) hfound).mp rfl
      | false =>
        refine ⟨fun hb => (nomatch hb), fun hpath => ?_⟩
        rcases Relation.ReflTransGen.cases_head hpath with heq | ⟨n, ⟨p, q, hp, hq, rfl⟩, hrest⟩
        · exact absurd heq hname
        · -- the first adoption on the path is one that the query has tried
          obtain rfl : p1 = p := Option.some.inj (hp1.symm.trans hp)
          have hmem := (hadopted q).mpr hq
          have hfound := anyM_false hany q hmem
          split at hfound
          · cases hfound
          · exact (h.conforms (hcanonical q hmem) hfound).mpr hrest

/-- A run of loads that meet the condition. -/
def LoadStep (im : Images) (σ : Registry) (l : Load) (σ' : Registry) : Prop :=
  ∃ fuel, σ.load im fuel l = some σ' ∧ LoadOk im fuel σ l

/-- **References.** After each load of a run in which no list is found with an initialised protocol that is
    not the registered one, every reachable reference is to the protocol that is registered under its name,
    and the queries about it see exactly what the registered protocols adopt. -/
theorem references_canonical (im : Images) (σ : Registry) (hrun : Runs (LoadStep im) (start im) σ) :
    ∀ p, Reachable im σ p → σ.Canonical im p ∧
      ∀ fuel p2 b, protocolConformsToProtocol im fuel σ p p2 = some b →
        (b = true ↔ Relation.ReflTransGen (Adopts im σ) (im.name p) (im.name p2)) := by
  have h : Inv im (fun _ => False) σ := by
    refine hrun.invariant inv_start fun u l u' hu hstep => ?_
    obtain ⟨fuel, hload, hok⟩ := hstep
    exact hu.load hok hload
  intro p hp
  exact ⟨h.reachable hp, fun fuel p2 b hb => h.conforms (h.reachable hp) hb⟩

/-- The first image defines a protocol that adopts another one. The second image has a definition of its own
    of the first protocol, without members, and a class that refers to it. -/
def twoDefinitions : Images where
  name
    | 1 => "Hashing"
    | _ => "Copying"
  protocolList
    | 0 => some 0
    | _ => none
  entries
    | 0 => [1]
    | 1 => [2]
    | _ => [0]
  classProtocols
    | 0 => some 1
    | _ => some 2
  categoryProtocols _ := none

theorem references_canonical_one :
    ∃ σ, (start twoDefinitions).load twoDefinitions 8 ⟨[0, 1], [1], []⟩ = some σ ∧
    Reachable twoDefinitions σ 0 ∧ σ.Canonical twoDefinitions 0 := by
  have hsome : ((start twoDefinitions).load twoDefinitions 8 ⟨[0, 1], [1], []⟩).isSome ∧
      ∀ σ ∈ (start twoDefinitions).load twoDefinitions 8 ⟨[0, 1], [1], []⟩,
        1 ∈ σ.classes ∧ σ.classProtocols 1 = some (.image 2) ∧ 0 ∈ σ.entries (.image 2) := by
    decide +kernel
  obtain ⟨σ, hσ⟩ := Option.isSome_iff_exists.mp hsome.1
  obtain ⟨hclass, hlist, hmem⟩ := hsome.2 σ hσ
  have hreach : Reachable twoDefinitions σ 0 := by
    refine .ofClass hclass ?_
    rw [hlist]
    exact .here hmem
  have hok : LoadOk twoDefinitions 8 (start twoDefinitions) ⟨[0, 1], [1], []⟩ := by
    -- whenever a list is gone through, its entries are registered
    intro σ₁ h₁
    obtain rfl := Option.some.inj h₁
    refine ⟨⟨?_, fun τ hτ => ?_⟩, fun σ₂ h₂ => ?_⟩
    · rintro l ⟨⟩
      exact ⟨rfl, trivial⟩
    · obtain rfl := Option.some.inj hτ
      refine ⟨?_, fun _ _ => trivial⟩
      rintro l ⟨⟩
    · obtain rfl := Option.some.inj h₂
      refine ⟨⟨?_, fun _ _ => trivial⟩, fun _ _ => trivial⟩
      rintro l ⟨⟩
      exact ⟨rfl, trivial⟩
  exact ⟨σ, hσ, hreach, (references_canonical twoDefinitions σ (Runs.single ⟨8, hσ, hok⟩) 0 hreach).1⟩

/-- The class of the second image goes on to refer to the second definition, which is not the registered
    one and does not conform to what the registered one adopts. -/
theorem reference_stale : ∃ τ σ, (start twoDefinitions).load twoDefinitions 8 ⟨[0, 1], [], []⟩ = some τ ∧
    τ.load twoDefinitions 8 ⟨[2], [0], []⟩ = some σ ∧
    Reachable twoDefinitions σ 2 ∧ σ.table "Copying" = some 0 ∧ ¬ σ.Canonical twoDefinitions 2 ∧
    protocolConformsToProtocol twoDefinitions 8 σ 2 1 = some false ∧
    protocolConformsToProtocol twoDefinitions 8 σ 0 1 = some true := by
  have hsome : ((start twoDefinitions).load twoDefinitions 8 ⟨[0, 1], [], []⟩).isSome ∧
      ∀ τ ∈ (start twoDefinitions).load twoDefinitions 8 ⟨[0, 1], [], []⟩,
        (τ.load twoDefinitions 8 ⟨[2], [0], []⟩).isSome ∧ ∀ σ ∈ τ.load twoDefinitions 8 ⟨[2], [0], []⟩,
          0 ∈ σ.classes ∧ σ.classProtocols 0 = some (.image 1) ∧ 2 ∈ σ.entries (.image 1) ∧
          σ.table "Copying" = some 0 ∧ σ.table (twoDefinitions.name 2) ≠ some 2 ∧
          protocolConformsToProtocol twoDefinitions 8 σ 2 1 = some false ∧
          protocolConformsToProtocol twoDefinitions 8 σ 0 1 = some true := by
    decide +kernel
  obtain ⟨τ, hτ⟩ := Option.isSome_iff_exists.mp hsome.1
  obtain ⟨hload, hrest⟩ := hsome.2 τ hτ
  obtain ⟨σ, hσ⟩ := Option.isSome_iff_exists.mp hload
  obtain ⟨hclass, hlist, hmem, htable, hne, hfalse, htrue⟩ := hrest σ hσ
  refine ⟨τ, σ, hτ, hσ, .ofClass hclass ?_, htable, hne, hfalse, htrue⟩
  rw [hlist]
  exact .here hmem

end Registry

end Libobjc2.Protocols
