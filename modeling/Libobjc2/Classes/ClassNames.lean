import Libobjc2.Classes.ClassLinks
import Mathlib.Data.List.Nodup

/-!
# Looking up classes

The class table with the table of the aliases: `class_table.c`, `alias_table.c` and the functions of
runtime.c that put classes into the table and take them out. The hook for missing classes is left out.

Results:
* `Named.step`: what every operation keeps of the names.
* `names_unique`: as long as no class is registered whose name is taken, and none is disposed of that
  an alias leads to, no two classes of the table have one name and no look-up yields a class that has
  been disposed of.
* `names_shared`: two classes of one name can be registered, and an alias outlives its class.
-/

namespace Libobjc2.Classes

open Libobjc2.Common

/-- `aliases`: the entries of the alias table, the first one first. A class that is not registered has
    `Nil` as the target. -/
structure Registry extends ClassLinks where
  aliases : List (String × Option Class)

namespace Registry

/-- `alias_getClass` (alias_table.c, lines 81–98). -/
def aliasGetClass (σ : Registry) (aliasName : String) : Option Class :=
  (σ.aliases.find? fun a => a.1 = aliasName).bind Prod.snd

/-- `objc_getClass` (class_table.c, lines 1127–1144). -/
def getClass (σ : Registry) (name : String) : Option Class := (σ.classNamed name).or (σ.aliasGetClass name)

/-- `objc_lookUpClass` (class_table.c, lines 1146–1149). -/
def lookUpClass (σ : Registry) (name : String) : Option Class := σ.classNamed name

/-- `objc_getClassList` with a buffer that is long enough (class_table.c, lines 1058–1074). -/
def getClassList (σ : Registry) : List Class := σ.table

/-- `class_registerAlias_np` (alias_table.c, lines 104–129). -/
def registerAlias (σ : Registry) (cls : Class) (aliasName : String) : Registry :=
  let target := σ.getClass (σ.name cls)
  if (σ.getClass aliasName).isSome then σ else { σ with aliases := σ.aliases ++ [(aliasName, target)] }

/-- An operation on the classes, or an alias. -/
inductive Act where
  | links (op : Op)
  | registerAlias (cls : Class) (aliasName : String)
deriving Repr

def perform (σ : Registry) (fuel : ℕ) : Act → Option Registry
  | .links op => (σ.toClassLinks.perform fuel op).map fun links => { σ with toClassLinks := links }
  | .registerAlias cls aliasName => some (σ.registerAlias cls aliasName)

/-- A step: the operation ends. -/
def Step (σ : Registry) (a : Act) (σ' : Registry) : Prop := ∃ fuel, σ.perform fuel a = some σ'

end Registry

/-! ## What resolving leaves alone -/

namespace ClassLinks

/-- The same class structures, with the same names, in the same table. -/
structure SameNames (σ σ' : ClassLinks) : Prop where
  present : σ'.present = σ.present
  name : σ'.name = σ.name
  isMeta : σ'.isMeta = σ.isMeta
  table : σ'.table = σ.table

theorem SameNames.refl (σ : ClassLinks) : SameNames σ σ := ⟨rfl, rfl, rfl, rfl⟩

theorem SameNames.trans {σ τ υ : ClassLinks} (h : SameNames σ τ) (h' : SameNames τ υ) : SameNames σ υ :=
  ⟨h'.present.trans h.present, h'.name.trans h.name, h'.isMeta.trans h.isMeta, h'.table.trans h.table⟩

theorem SameNames.classNamed {σ σ' : ClassLinks} (h : SameNames σ σ') (n : String) :
    σ'.classNamed n = σ.classNamed n := by
  rw [ClassLinks.classNamed, h.table, h.name, ClassLinks.classNamed]

theorem linkClass_sameNames (σ : ClassLinks) (cls root : Class) : SameNames σ (σ.linkClass cls root) := by
  rw [linkClass]
  cases (σ.unlinkUnresolved cls).superClass cls <;> exact ⟨rfl, rfl, rfl, rfl⟩

theorem resolveClass_sameNames : ∀ {fuel : ℕ} {σ σ' : ClassLinks} {cls : Class} {ok : Bool},
    resolveClass fuel σ cls = some (σ', ok) → SameNames σ σ'
  | 0, _, _, _, _, h => by cases h
  | fuel + 1, σ, σ', cls, ok, h => by
    rw [resolveClass] at h
    split at h
    · obtain ⟨rfl, -⟩ := Prod.mk.inj (Option.some.inj h)
      exact SameNames.refl σ
    · split at h
      · obtain ⟨⟨σ₁, ok₁⟩, hrec, h⟩ := Option.bind_eq_some_iff.mp h
        have hsup := resolveClass_sameNames hrec
        cases ok₁ with
        | false =>
          obtain ⟨rfl, -⟩ := Prod.mk.inj (Option.some.inj h)
          exact hsup
        | true =>
          obtain ⟨root, -, heq⟩ := Option.map_eq_some_iff.mp h
          rw [← (Prod.mk.inj heq).1]
          exact hsup.trans (linkClass_sameNames σ₁ cls root)
      · split at h
        · obtain ⟨rfl, -⟩ := Prod.mk.inj (Option.some.inj h)
          exact linkClass_sameNames σ cls cls
        · split at h
          · obtain ⟨rfl, -⟩ := Prod.mk.inj (Option.some.inj h)
            exact SameNames.refl σ
          · have hrec := resolveClass_sameNames h
            exact ⟨hrec.present, hrec.name, hrec.isMeta, hrec.table⟩

theorem resolveRound_sameNames : ∀ {fuel : ℕ} {σ σ' : ClassLinks} {cls : Option Class}
    {resolvedClass r : Bool},
    resolveRound fuel σ cls resolvedClass = some (σ', r) → SameNames σ σ'
  | 0, _, _, _, _, _, h => by cases h
  | _ + 1, σ, _, none, _, _, h => by
    obtain ⟨rfl, -⟩ := Prod.mk.inj (Option.some.inj h)
    exact SameNames.refl σ
  | fuel + 1, σ, σ', some cls, resolvedClass, r, h => by
    rw [resolveRound] at h
    split at h
    · split at h
      · obtain ⟨rfl, -⟩ := Prod.mk.inj (Option.some.inj h)
        exact SameNames.refl σ
      · cases h
    · obtain ⟨⟨σ₁, ok⟩, hres, h⟩ := Option.bind_eq_some_iff.mp h
      exact (resolveClass_sameNames hres).trans (resolveRound_sameNames h)

theorem resolveClassLinks_sameNames : ∀ {fuel : ℕ} {σ σ' : ClassLinks},
    resolveClassLinks fuel σ = some σ' → SameNames σ σ'
  | 0, _, _, h => by cases h
  | fuel + 1, σ, σ', h => by
    rw [resolveClassLinks] at h
    obtain ⟨⟨σ₁, r⟩, hround, h⟩ := Option.bind_eq_some_iff.mp h
    have hsame := resolveRound_sameNames hround
    dsimp only at h
    split at h
    · exact hsame.trans (resolveClassLinks_sameNames h)
    · rwa [← Option.some.inj h]

theorem addIvar_sameNames {fuel : ℕ} : ∀ {searched : ℕ} {σ σ' : ClassLinks} {cls : Class},
    addIvar fuel searched σ cls = some σ' → SameNames σ σ'
  | 0, σ, _, _, h => by
    rw [← Option.some.inj h]
    exact SameNames.refl σ
  | searched + 1, σ, σ', cls, h => by
    rw [addIvar] at h
    obtain ⟨⟨σ₁, sup⟩, hsup, h⟩ := Option.bind_eq_some_iff.mp h
    obtain ⟨⟨σ₂, ok⟩, hres, heq⟩ := Option.map_eq_some_iff.mp hsup
    obtain ⟨rfl, rfl⟩ := Prod.mk.inj heq
    have hsame := resolveClass_sameNames hres
    cases hs : σ₂.superClass cls with
    | none =>
      rw [hs] at h
      rwa [← Option.some.inj h]
    | some sup =>
      rw [hs] at h
      exact hsame.trans (addIvar_sameNames h)

theorem removeSubclass_sameNames {σ σ' : ClassLinks} {fuel : ℕ} {cls sup : Class}
    (h : σ.removeSubclass fuel cls sup = some σ') : SameNames σ σ' := by
  rw [removeSubclass] at h
  split at h
  · rw [← Option.some.inj h]
    exact ⟨rfl, rfl, rfl, rfl⟩
  · obtain ⟨siblingClass, -, rfl⟩ := Option.map_eq_some_iff.mp h
    exact ⟨rfl, rfl, rfl, rfl⟩

theorem safeRemove_sameNames {σ σ' : ClassLinks} {fuel : ℕ} {cls : Class}
    (h : σ.safeRemove fuel cls = some σ') :
    SameNames σ σ' := by
  rw [safeRemove] at h
  split at h
  · rw [← Option.some.inj h]
    exact SameNames.refl σ
  · cases hs : σ.superClass cls with
    | none =>
      rw [hs] at h
      rw [← Option.some.inj h]
      exact SameNames.refl σ
    | some sup =>
      rw [hs] at h
      exact removeSubclass_sameNames h

theorem setSuperclass_sameNames {σ σ' : ClassLinks} {fuel : ℕ} {cls newSuper : Class}
    (h : σ.setSuperclass fuel cls newSuper = some σ') : SameNames σ σ' := by
  rw [setSuperclass] at h
  split at h
  · rw [← Option.some.inj h]
    exact SameNames.refl σ
  · obtain ⟨σ₁, hremove, h⟩ := Option.bind_eq_some_iff.mp h
    obtain ⟨⟨σ₂, ok⟩, hresolve, h⟩ := Option.bind_eq_some_iff.mp h
    have h₂ := (safeRemove_sameNames hremove).trans (resolveClass_sameNames hresolve)
    dsimp only at h
    split at h
    · rw [← Option.some.inj h]
      exact ⟨h₂.present, h₂.name, h₂.isMeta, h₂.table⟩
    · obtain ⟨σ₃, hremove', h⟩ := Option.bind_eq_some_iff.mp h
      obtain ⟨⟨σ₄, ok'⟩, hresolve', rfl⟩ := Option.map_eq_some_iff.mp h
      have h₄ := (safeRemove_sameNames hremove').trans (resolveClass_sameNames hresolve')
      exact ⟨h₄.present.trans h₂.present, h₄.name.trans h₂.name, h₄.isMeta.trans h₂.isMeta,
          h₄.table.trans h₂.table⟩

/-- What `objc_disposeClassPair` leaves in the tables, and which class structures it frees. -/
theorem disposeClassPair_names {σ σ' : ClassLinks} {fuel : ℕ} {cls : Class}
    (h : σ.disposeClassPair fuel cls = some σ') :
    σ'.name = σ.name ∧ σ'.isMeta = σ.isMeta ∧
    σ'.table = (if σ.classNamed (σ.name cls) = some cls then σ.table.erase cls else σ.table) ∧
    σ'.present cls = false ∧ (∀ c, σ.present c = false → σ'.present c = false) ∧
    ∀ c, c ≠ cls → c ≠ σ.isa cls → σ'.present c = σ.present c := by
  obtain ⟨σ₁, hremove, h⟩ := Option.bind_eq_some_iff.mp h
  obtain ⟨σ₂, hremove', rfl⟩ := Option.map_eq_some_iff.mp h
  have hsame₁ : SameNames σ σ₁ := by
    split at hremove
    · rw [← Option.some.inj hremove]
      exact SameNames.refl _
    · exact safeRemove_sameNames hremove
  have hsame : SameNames σ σ₂ := hsame₁.trans (safeRemove_sameNames hremove')
  have hfound : σ₂.classNamed (σ₂.name cls) = σ.classNamed (σ.name cls) := by
    rw [hsame.classNamed, hsame.name]
  have hfreed : ∀ c, σ.present c = false →
      Function.update (if σ₂.duplicate cls then σ₂.present else Function.update σ₂.present (σ.isa cls) false)
        cls false c = false := by
    intro c hp
    rw [← hsame.present] at hp
    split <;> simp [Function.update_apply, hp]
  have hkept : ∀ c, c ≠ cls → c ≠ σ.isa cls →
      Function.update (if σ₂.duplicate cls then σ₂.present else Function.update σ₂.present (σ.isa cls) false)
        cls false c = σ.present c := by
    intro c hne hne'
    rw [Function.update_of_ne hne, ← hsame.present]
    split
    · rfl
    · exact Function.update_of_ne hne' ..
  dsimp only
  rw [hfound]
  split
  · exact ⟨hsame.name, hsame.isMeta, congrArg (·.erase cls) hsame.table, Function.update_self ..,
        hfreed, hkept⟩
  · exact ⟨hsame.name, hsame.isMeta, hsame.table, Function.update_self .., hfreed, hkept⟩

end ClassLinks

namespace Registry

/-! ## The invariant -/

/-- The names in the class table are different, and the tables lead to live classes. -/
structure Named (σ : Registry) : Prop where
  names : (σ.table.map σ.name).Nodup
  table_present : ∀ c ∈ σ.table, σ.present c = true
  table_class : ∀ c ∈ σ.table, σ.isMeta c = false
  alias_present : ∀ a c, (a, some c) ∈ σ.aliases → σ.present c = true
  alias_class : ∀ a c, (a, some c) ∈ σ.aliases → σ.isMeta c = false

/-- When the names stay different and the tables keep to live classes. -/
def NamesOk (σ : Registry) : Act → Prop
  | .registerAlias .. => True
  | .links (.loadClass cls) => σ.present cls = true ∧ σ.isMeta cls = false
  | .links (.replaceClass cls old _) =>
      σ.present cls = true ∧ σ.isMeta cls = false ∧ σ.name cls = σ.name old ∧
    cls ∉ σ.table
  | .links (.allocateClassPair _ _ cls metaclass) => σ.present cls = false ∧ σ.present metaclass = false
  | .links (.registerClassPair cls) => σ.present cls = true ∧ σ.isMeta cls = false ∧
    σ.lookUpClass (σ.name cls) = none
  | .links (.duplicateClass _ _ cls) => σ.present cls = false
  | .links (.initHiddenClass _ cls) => σ.present cls = false
  | .links (.deallocHiddenClass cls) => cls ∉ σ.table ∧ ∀ a, (a, some cls) ∉ σ.aliases
  | .links (.disposeClassPair cls) => σ.isMeta cls = false ∧ σ.isMeta (σ.isa cls) = true ∧
    ∀ a, (a, some cls) ∉ σ.aliases
  | .links _ => True

section Operations

variable {σ : Registry}

theorem classNamed_name {n : String} {c : Class} (h : σ.classNamed n = some c) : σ.name c = n := by
  have h : σ.table.find? (fun c => σ.name c = n) = some c := h
  simpa using List.find?_some h

theorem classNamed_mem_table {n : String} {c : Class} (h : σ.classNamed n = some c) : c ∈ σ.table :=
  List.mem_of_find?_eq_some h

/-- A name that nobody has. -/
theorem name_notMem {σ : ClassLinks} {n : String} (h : σ.classNamed n = none) : n ∉ σ.table.map σ.name := by
  intro hn
  obtain ⟨c, hc, rfl⟩ := List.mem_map.mp hn
  have := List.find?_eq_none.mp h c hc
  simp at this

/-- A class of the table is the one that is found under its name. -/
theorem Named.classNamed_of_mem (h : Named σ) {c : Class} (hc : c ∈ σ.table) :
    σ.classNamed (σ.name c) = some c := by
  have hsome : (σ.classNamed (σ.name c)).isSome := List.find?_isSome.mpr ⟨c, hc, by simp⟩
  obtain ⟨d, hd⟩ := Option.isSome_iff_exists.mp hsome
  rw [hd, List.inj_on_of_nodup_map h.names (classNamed_mem_table hd) hc (classNamed_name hd)]

theorem aliasGetClass_mem {a : String} {c : Class} (h : σ.aliasGetClass a = some c) :
    (a, some c) ∈ σ.aliases := by
  obtain ⟨⟨a', c'⟩, hfind, hc⟩ := Option.bind_eq_some_iff.mp h
  obtain rfl : c' = some c := hc
  obtain rfl : a' = a := by simpa using List.find?_some hfind
  exact List.mem_of_find?_eq_some hfind

/-- What a look-up yields is live. -/
theorem Named.getClass_present (h : Named σ) {n : String} {c : Class} (hc : σ.getClass n = some c) :
    σ.present c = true ∧ σ.isMeta c = false := by
  rcases Option.or_eq_some_iff.mp hc with hc | ⟨-, hc⟩
  · exact ⟨h.table_present c (classNamed_mem_table hc), h.table_class c (classNamed_mem_table hc)⟩
  · exact ⟨h.alias_present n c (aliasGetClass_mem hc), h.alias_class n c (aliasGetClass_mem hc)⟩

theorem Named.sameNames (h : Named σ) {links : ClassLinks} (hs : ClassLinks.SameNames σ.toClassLinks links) :
    Named { σ with toClassLinks := links } := by
  obtain ⟨hpresent, hname, hisMeta, htable⟩ := hs
  refine ⟨?_, ?_, ?_, ?_, ?_⟩
  · show (links.table.map links.name).Nodup
    rw [htable, hname]
    exact h.names
  · show ∀ c ∈ links.table, links.present c = true
    rw [htable, hpresent]
    exact h.table_present
  · show ∀ c ∈ links.table, links.isMeta c = false
    rw [htable, hisMeta]
    exact h.table_class
  · show ∀ a c, (a, some c) ∈ σ.aliases → links.present c = true
    rw [hpresent]
    exact h.alias_present
  · show ∀ a c, (a, some c) ∈ σ.aliases → links.isMeta c = false
    rw [hisMeta]
    exact h.alias_class

/-- Class structures are made at addresses where there were none. -/
theorem Named.extend (h : Named σ) {links : ClassLinks} (htable : links.table = σ.table)
    (hold : ∀ c, σ.present c = true → links.present c = true ∧ links.name c = σ.name c ∧
      links.isMeta c = σ.isMeta c) :
    Named { σ with toClassLinks := links } := by
  refine ⟨?_, fun c hc => ?_, fun c hc => ?_, fun a c hc => (hold c (h.alias_present a c hc)).1,
      fun a c hc => ?_⟩
  · show (links.table.map links.name).Nodup
    have hnames : σ.table.map links.name = σ.table.map σ.name :=
      List.map_congr_left fun c hc => (hold c (h.table_present c hc)).2.1
    rw [htable, hnames]
    exact h.names
  · have hc : c ∈ links.table := hc
    rw [htable] at hc
    exact (hold c (h.table_present c hc)).1
  · have hc : c ∈ links.table := hc
    rw [htable] at hc
    exact (hold c (h.table_present c hc)).2.2.trans (h.table_class c hc)
  · exact (hold c (h.alias_present a c hc)).2.2.trans (h.alias_class a c hc)

/-- A live class whose name is free enters the class table. -/
theorem Named.insert (h : Named σ) {links : ClassLinks} {cls : Class} (hp : σ.present cls = true)
    (hm : σ.isMeta cls = false) (hfree : σ.classNamed (σ.name cls) = none)
    (hpresent : links.present = σ.present)
    (hname : links.name = σ.name) (hisMeta : links.isMeta = σ.isMeta)
    (htable : links.table = cls :: σ.table) :
    Named { σ with toClassLinks := links } := by
  refine ⟨?_, ?_, ?_, ?_, ?_⟩
  · show (links.table.map links.name).Nodup
    rw [htable, hname, List.map_cons]
    exact List.nodup_cons.mpr ⟨name_notMem hfree, h.names⟩
  · show ∀ c ∈ links.table, links.present c = true
    rw [htable, hpresent]
    intro c hc
    rcases List.mem_cons.mp hc with rfl | hc
    · exact hp
    · exact h.table_present c hc
  · show ∀ c ∈ links.table, links.isMeta c = false
    rw [htable, hisMeta]
    intro c hc
    rcases List.mem_cons.mp hc with rfl | hc
    · exact hm
    · exact h.table_class c hc
  · show ∀ a c, (a, some c) ∈ σ.aliases → links.present c = true
    rw [hpresent]
    exact h.alias_present
  · show ∀ a c, (a, some c) ∈ σ.aliases → links.isMeta c = false
    rw [hisMeta]
    exact h.alias_class

/-- Class structures are freed that neither table leads to. -/
theorem Named.shrink (h : Named σ) {links : ClassLinks} (hname : links.name = σ.name)
    (hisMeta : links.isMeta = σ.isMeta)
    (htable : links.table.Sublist σ.table) (hpresent : ∀ c, σ.present c = true →
      (c ∈ links.table ∨ ∃ a, (a, some c) ∈ σ.aliases) → links.present c = true) :
    Named { σ with toClassLinks := links } := by
  refine ⟨?_, fun c hc => hpresent c (h.table_present c (htable.subset hc)) (.inl hc), fun c hc => ?_,
    fun a c hc => hpresent c (h.alias_present a c hc) (.inr ⟨a, hc⟩), ?_⟩
  · show (links.table.map links.name).Nodup
    rw [hname]
    exact h.names.sublist (htable.map _)
  · show links.isMeta c = false
    rw [hisMeta]
    exact h.table_class c (htable.subset hc)
  · show ∀ a c, (a, some c) ∈ σ.aliases → links.isMeta c = false
    rw [hisMeta]
    exact h.alias_class

theorem Named.registerAlias (h : Named σ) (cls : Class) (aliasName : String) :
    Named (σ.registerAlias cls aliasName) := by
  rw [Registry.registerAlias]
  split
  · exact h
  · have hnew : ∀ a c, (a, some c) ∈ σ.aliases ++ [(aliasName, σ.getClass (σ.name cls))] →
        σ.present c = true ∧ σ.isMeta c = false := by
      intro a c hc
      rcases List.mem_append.mp hc with hc | hc
      · exact ⟨h.alias_present a c hc, h.alias_class a c hc⟩
      · exact h.getClass_present (Prod.mk.inj (List.mem_singleton.mp hc)).2.symm
    exact { h with alias_present := fun a c hc => (hnew a c hc).1, alias_class := fun a c hc => (hnew a c hc).2 }

theorem Named.loadClass (h : Named σ) {cls : Class} (hok : σ.NamesOk (.links (.loadClass cls))) :
    Named { σ with toClassLinks := σ.toClassLinks.loadClass cls } := by
  rw [ClassLinks.loadClass]
  split
  · exact h
  · next hname =>
    have hfree : σ.classNamed (σ.name cls) = none := by simpa using hname
    dsimp only
    split <;> exact h.insert hok.1 hok.2 hfree (by simp) (by simp) (by simp) (by simp)

/-- `permissive_reload_class` puts a class in the place of another one of its name. -/
theorem Named.replaceClass (h : Named σ) {cls old : Class} {superclassName : Option String}
    (hok : σ.NamesOk (.links (.replaceClass cls old superclassName))) :
    Named { σ with toClassLinks := σ.toClassLinks.replaceClass cls old superclassName } := by
  obtain ⟨hp, hm, hname, hnew⟩ := hok
  have htable : (σ.toClassLinks.replaceClass cls old superclassName).table =
      σ.table.map fun c => if c = old then cls else c := by
    rw [ClassLinks.replaceClass]
    split <;> rfl
  have hsame : (σ.toClassLinks.replaceClass cls old superclassName).present = σ.present ∧
      (σ.toClassLinks.replaceClass cls old superclassName).name = σ.name ∧
      (σ.toClassLinks.replaceClass cls old superclassName).isMeta = σ.isMeta := by
    rw [ClassLinks.replaceClass]
    split <;> exact ⟨rfl, rfl, rfl⟩
  obtain ⟨hpresent, hnames, hisMeta⟩ := hsame
  have hmem : ∀ c ∈ (σ.toClassLinks.replaceClass cls old superclassName).table,
      σ.present c = true ∧ σ.isMeta c = false := by
    intro c hc
    rw [htable] at hc
    obtain ⟨d, hd, rfl⟩ := List.mem_map.mp hc
    split
    · exact ⟨hp, hm⟩
    · exact ⟨h.table_present d hd, h.table_class d hd⟩
  refine ⟨?_, ?_, ?_, ?_, ?_⟩
  · show ((σ.toClassLinks.replaceClass cls old superclassName).table.map _).Nodup
    have hold : ((σ.table.map fun c => if c = old then cls else c).map σ.name) = σ.table.map σ.name := by
      rw [List.map_map]
      refine List.map_congr_left fun c _ => ?_
      show σ.name (if c = old then cls else c) = σ.name c
      split
      · next hc => rw [hc, hname]
      · rfl
    rw [htable]
    show ((σ.table.map _).map (σ.toClassLinks.replaceClass cls old superclassName).name).Nodup
    rw [hnames, hold]
    exact h.names
  · show ∀ c ∈ _, (σ.toClassLinks.replaceClass cls old superclassName).present c = true
    rw [hpresent]
    exact fun c hc => (hmem c hc).1
  · show ∀ c ∈ _, (σ.toClassLinks.replaceClass cls old superclassName).isMeta c = false
    rw [hisMeta]
    exact fun c hc => (hmem c hc).2
  · show ∀ a c, (a, some c) ∈ σ.aliases →
        (σ.toClassLinks.replaceClass cls old superclassName).present c = true
    rw [hpresent]
    exact h.alias_present
  · show ∀ a c, (a, some c) ∈ σ.aliases →
        (σ.toClassLinks.replaceClass cls old superclassName).isMeta c = false
    rw [hisMeta]
    exact h.alias_class

theorem Named.registerClassPair (h : Named σ) {fuel : ℕ} {cls : Class} {links : ClassLinks}
    (hok : σ.NamesOk (.links (.registerClassPair cls)))
    (hreg : σ.toClassLinks.registerClassPair fuel cls = some links) :
    Named { σ with toClassLinks := links } := by
  obtain ⟨hp, hm, hfree⟩ := hok
  obtain ⟨⟨σ₁, ok⟩, hres, rfl⟩ := Option.map_eq_some_iff.mp hreg
  have hinsert : Named { σ with toClassLinks := σ.toClassLinks.classTableInsert cls } :=
    h.insert hp hm hfree (by simp) (by simp) (by simp) (by simp)
  exact hinsert.sameNames (ClassLinks.resolveClass_sameNames hres)

theorem Named.allocateClassPair (h : Named σ) {superclass : Option Class} {name : String}
    {cls metaclass : Class}
    (hok : σ.NamesOk (.links (.allocateClassPair superclass name cls metaclass))) :
    Named { σ with toClassLinks := σ.toClassLinks.allocateClassPair superclass name cls metaclass } := by
  obtain ⟨hc, hm⟩ := hok
  rw [ClassLinks.allocateClassPair]
  split
  · exact h
  · refine h.extend rfl fun c hp => ?_
    have hne : c ≠ cls := by
      rintro rfl
      cases hc.symm.trans hp
    have hne' : c ≠ metaclass := by
      rintro rfl
      cases hm.symm.trans hp
    simp [ClassLinks.clear, hne, hne', hp]

theorem Named.duplicateClass (h : Named σ) {fuel : ℕ} {original cls : Class} {name : String}
    {links : ClassLinks}
    (hok : σ.NamesOk (.links (.duplicateClass original name cls)))
    (hdup : σ.toClassLinks.duplicateClass fuel original name cls = some links) :
    Named { σ with toClassLinks := links } := by
  rw [ClassLinks.duplicateClass] at hdup
  split at hdup
  · rwa [← Option.some.inj hdup]
  · next hguard =>
    have hfree : σ.classNamed name = none := by
      simp only [Bool.or_eq_true, not_or] at hguard
      simpa using hguard.2
    obtain ⟨⟨σ₁, ok⟩, hres, rfl⟩ := Option.map_eq_some_iff.mp hdup
    have hsame := ClassLinks.resolveClass_sameNames hres
    have h₁ := h.sameNames hsame
    cases ok with
    | false => exact h₁
    | true =>
      have hnew : σ₁.present cls = false := by
        rw [hsame.present]
        exact hok
      have hfree₁ : σ₁.classNamed name = none := (hsame.classNamed name).trans hfree
      -- the copy of `original` before it enters the table
      let blank : ClassLinks := σ₁.clear cls
      let σ₂ : ClassLinks :=
        { blank with
          name := Function.update blank.name cls name
          isMeta := Function.update blank.isMeta cls false
          duplicate := Function.update blank.duplicate cls true
          resolved := Function.update blank.resolved cls true
          isa := Function.update blank.isa cls (blank.isa original)
          superClass := Function.update blank.superClass cls (blank.superClass original) }
      have hold : ∀ c, σ₁.present c = true →
          σ₂.present c = true ∧ σ₂.name c = σ₁.name c ∧ σ₂.isMeta c = σ₁.isMeta c := by
        intro c hp
        have hne : c ≠ cls := by
          rintro rfl
          cases hnew.symm.trans hp
        simp [σ₂, blank, ClassLinks.clear, hne, hp]
      have h₂ : Named { σ with toClassLinks := σ₂ } := h₁.extend rfl hold
      have hfree₂ : σ₂.classNamed (σ₂.name cls) = none := by
        have hname : σ₂.name cls = name := Function.update_self ..
        rw [hname]
        refine List.find?_eq_none.mpr fun c hc => ?_
        rw [(hold c (h₁.table_present c hc)).2.1]
        exact List.find?_eq_none.mp hfree₁ c hc
      have hp₂ : σ₂.present cls = true := Function.update_self ..
      have hm₂ : σ₂.isMeta cls = false := Function.update_self ..
      have hpush : ClassLinks.SameNames σ₂
          ((σ₂.superClass cls).elim σ₂ fun sup => σ₂.pushSubclass cls sup) := by
        cases σ₂.superClass cls <;> exact ⟨rfl, rfl, rfl, rfl⟩
      exact h₂.insert hp₂ hm₂ hfree₂ ((ClassLinks.classTableInsert_present ..).trans hpush.present)
        ((ClassLinks.classTableInsert_name ..).trans hpush.name)
        ((ClassLinks.classTableInsert_isMeta ..).trans hpush.isMeta)
        ((ClassLinks.classTableInsert_table ..).trans (congrArg (cls :: ·) hpush.table))

theorem Named.initHiddenClass (h : Named σ) {superclass cls : Class}
    (hok : σ.NamesOk (.links (.initHiddenClass superclass cls))) :
    Named { σ with toClassLinks := σ.toClassLinks.initHiddenClass superclass cls } := by
  rw [ClassLinks.initHiddenClass]
  split
  · exact h
  · refine h.extend rfl fun c hp => ?_
    have hne : c ≠ cls := by
      rintro rfl
      cases hok.symm.trans hp
    simp [ClassLinks.clear, ClassLinks.pushSubclass, hne, hp]

theorem Named.deallocHiddenClass (h : Named σ) {fuel : ℕ} {cls : Class} {links : ClassLinks}
    (hok : σ.NamesOk (.links (.deallocHiddenClass cls)))
    (hdealloc : σ.toClassLinks.deallocHiddenClass fuel cls = some links) :
    Named { σ with toClassLinks := links } := by
  obtain ⟨ht, halias⟩ := hok
  rw [ClassLinks.deallocHiddenClass] at hdealloc
  split at hdealloc
  · cases hdealloc
  · obtain ⟨σ₁, hremove, rfl⟩ := Option.map_eq_some_iff.mp hdealloc
    have hsame : ClassLinks.SameNames σ.toClassLinks σ₁ := by
      cases hs : σ.superClass cls with
      | none =>
        rw [hs] at hremove
        rw [← Option.some.inj hremove]
        exact ClassLinks.SameNames.refl _
      | some sup =>
        rw [hs] at hremove
        exact ClassLinks.removeSubclass_sameNames hremove
    refine h.shrink hsame.name hsame.isMeta (by rw [← hsame.table]) fun c hp hc => ?_
    show Function.update σ₁.present cls false c = true
    rw [Function.update_of_ne, hsame.present]
    · exact hp
    · rintro rfl
      rcases hc with hc | ⟨a, ha⟩
      · have hc : c ∈ σ₁.table := hc
        rw [hsame.table] at hc
        exact ht hc
      · exact halias a ha

/-- The class leaves the table with its name. -/
theorem Named.notMem_disposed (h : Named σ) {cls : Class} {table : List Class}
    (htable : table = if σ.classNamed (σ.name cls) = some cls then σ.table.erase cls else σ.table) :
    cls ∉ table := by
  rw [htable]
  split
  · exact (h.names.of_map _).not_mem_erase
  · next hnot => exact fun hc => hnot (h.classNamed_of_mem hc)

theorem Named.disposeClassPair (h : Named σ) {fuel : ℕ} {cls : Class} {links : ClassLinks}
    (hok : σ.NamesOk (.links (.disposeClassPair cls)))
    (hdis : σ.toClassLinks.disposeClassPair fuel cls = some links) :
    Named { σ with toClassLinks := links } := by
  obtain ⟨hmeta, hisa, halias⟩ := hok
  obtain ⟨hname, hisMeta', htable, -, -, hpresent⟩ := ClassLinks.disposeClassPair_names hdis
  have hsub : links.table.Sublist σ.table := by
    rw [htable]
    split
    · exact List.erase_sublist
    · exact List.Sublist.refl _
  refine h.shrink hname hisMeta' hsub fun c hp hc => (hpresent c ?_ ?_).trans hp
  · rintro rfl
    rcases hc with hc | ⟨a, ha⟩
    · exact h.notMem_disposed htable hc
    · exact halias a ha
  · rintro rfl
    -- a metaclass is in neither table
    rcases hc with hc | ⟨a, ha⟩
    · cases hisa.symm.trans (h.table_class _ (hsub.subset hc))
    · cases hisa.symm.trans (h.alias_class a _ ha)

/-- What every operation keeps of the names. -/
theorem Named.step (h : Named σ) {a : Act} {σ' : Registry} (hok : σ.NamesOk a) (hs : σ.Step a σ') :
    Named σ' := by
  obtain ⟨fuel, hs⟩ := hs
  cases a with
  | registerAlias cls aliasName =>
    rw [← Option.some.inj hs]
    exact h.registerAlias cls aliasName
  | links op =>
    obtain ⟨links, hop, rfl⟩ := Option.map_eq_some_iff.mp hs
    cases op with
    | loadClass cls =>
      rw [← Option.some.inj hop]
      exact h.loadClass hok
    | replaceClass cls old superclassName =>
      rw [← Option.some.inj hop]
      exact h.replaceClass hok
    | resolveClass cls =>
      obtain ⟨⟨σ₁, ok⟩, hres, rfl⟩ := Option.map_eq_some_iff.mp hop
      exact h.sameNames (ClassLinks.resolveClass_sameNames hres)
    | resolveClassLinks => exact h.sameNames (ClassLinks.resolveClassLinks_sameNames hop)
    | getSuperclass cls =>
      obtain ⟨⟨σ₁, sup⟩, hsup, rfl⟩ := Option.map_eq_some_iff.mp hop
      obtain ⟨⟨σ₂, ok⟩, hres, heq⟩ := Option.map_eq_some_iff.mp hsup
      rw [← (Prod.mk.inj heq).1]
      exact h.sameNames (ClassLinks.resolveClass_sameNames hres)
    | addIvar cls searched => exact h.sameNames (ClassLinks.addIvar_sameNames hop)
    | allocateClassPair superclass name cls metaclass =>
      rw [← Option.some.inj hop]
      exact h.allocateClassPair hok
    | registerClassPair cls => exact h.registerClassPair hok hop
    | duplicateClass original name cls => exact h.duplicateClass hok hop
    | initHiddenClass superclass cls =>
      rw [← Option.some.inj hop]
      exact h.initHiddenClass hok
    | deallocHiddenClass cls => exact h.deallocHiddenClass hok hop
    | setSuperclass cls newSuper => exact h.sameNames (ClassLinks.setSuperclass_sameNames hop)
    | disposeClassPair cls => exact h.disposeClassPair hok hop

/-! ## Freed classes -/

/-- The operation makes a class structure at the address `c`. -/
def Act.Makes (c : Class) : Act → Prop
  | .links (.allocateClassPair _ _ cls metaclass) => c = cls ∨ c = metaclass
  | .links (.duplicateClass _ _ cls) => c = cls
  | .links (.initHiddenClass _ cls) => c = cls
  | _ => False

/-- What has been freed stays freed until its address is used again. -/
theorem step_freed {a : Act} {σ' : Registry} {c : Class} (hp : σ.present c = false) (hnot : ¬ a.Makes c)
    (hs : σ.Step a σ') : σ'.present c = false := by
  obtain ⟨fuel, hs⟩ := hs
  cases a with
  | registerAlias cls aliasName =>
    rw [← Option.some.inj hs]
    show (σ.registerAlias cls aliasName).present c = false
    rw [Registry.registerAlias]
    split <;> exact hp
  | links op =>
    obtain ⟨links, hop, rfl⟩ := Option.map_eq_some_iff.mp hs
    show links.present c = false
    cases op with
    | loadClass cls =>
      rw [← Option.some.inj hop, ClassLinks.loadClass]
      split
      · exact hp
      · dsimp only
        split <;> simpa using hp
    | replaceClass cls old superclassName =>
      rw [← Option.some.inj hop, ClassLinks.replaceClass]
      split <;> exact hp
    | resolveClass cls =>
      obtain ⟨⟨σ₁, ok⟩, hres, rfl⟩ := Option.map_eq_some_iff.mp hop
      exact (congrFun (ClassLinks.resolveClass_sameNames hres).present c).trans hp
    | resolveClassLinks => exact (congrFun (ClassLinks.resolveClassLinks_sameNames hop).present c).trans hp
    | getSuperclass cls =>
      obtain ⟨⟨σ₁, sup⟩, hsup, rfl⟩ := Option.map_eq_some_iff.mp hop
      obtain ⟨⟨σ₂, ok⟩, hres, heq⟩ := Option.map_eq_some_iff.mp hsup
      rw [← (Prod.mk.inj heq).1]
      exact (congrFun (ClassLinks.resolveClass_sameNames hres).present c).trans hp
    | addIvar cls searched => exact (congrFun (ClassLinks.addIvar_sameNames hop).present c).trans hp
    | allocateClassPair superclass name cls metaclass =>
      rw [← Option.some.inj hop, ClassLinks.allocateClassPair]
      obtain ⟨hne, hne'⟩ := not_or.mp hnot
      split
      · exact hp
      · simp [ClassLinks.clear, hne, hne', hp]
    | registerClassPair cls =>
      obtain ⟨⟨σ₁, ok⟩, hres, rfl⟩ := Option.map_eq_some_iff.mp hop
      rw [(ClassLinks.resolveClass_sameNames hres).present, ClassLinks.classTableInsert_present]
      exact hp
    | duplicateClass original name cls =>
      have hne : c ≠ cls := hnot
      rw [ClassLinks.perform, ClassLinks.duplicateClass] at hop
      split at hop
      · rwa [← Option.some.inj hop]
      · obtain ⟨⟨σ₁, ok⟩, hres, rfl⟩ := Option.map_eq_some_iff.mp hop
        have hsame := (congrFun (ClassLinks.resolveClass_sameNames hres).present c).trans hp
        cases ok with
        | false => exact hsame
        | true =>
          simp only [Bool.not_true, Bool.false_eq_true, if_false, ClassLinks.classTableInsert_present]
          cases h : σ₁.superClass original <;> simp [ClassLinks.clear, ClassLinks.pushSubclass, h, hne, hsame]
    | initHiddenClass superclass cls =>
      have hne : c ≠ cls := hnot
      rw [← Option.some.inj hop, ClassLinks.initHiddenClass]
      split
      · exact hp
      · simp [ClassLinks.clear, ClassLinks.pushSubclass, hne, hp]
    | deallocHiddenClass cls =>
      rw [ClassLinks.perform, ClassLinks.deallocHiddenClass] at hop
      split at hop
      · cases hop
      · obtain ⟨σ₁, hremove, rfl⟩ := Option.map_eq_some_iff.mp hop
        have hsame : σ₁.present = σ.present := by
          cases hs : σ.superClass cls with
          | none =>
            rw [hs] at hremove
            rw [← Option.some.inj hremove]
          | some sup =>
            rw [hs] at hremove
            exact (ClassLinks.removeSubclass_sameNames hremove).present
        show Function.update σ₁.present cls false c = false
        rw [Function.update_apply, hsame, hp, ite_self]
    | setSuperclass cls newSuper =>
        exact (congrFun (ClassLinks.setSuperclass_sameNames hop).present c).trans hp
    | disposeClassPair cls => exact (ClassLinks.disposeClassPair_names hop).2.2.2.2.1 c hp

end Operations

/-! ## Runs -/

/-- Nothing is registered yet. -/
def Initial (σ : Registry) : Prop := σ.table = [] ∧ σ.aliases = []

/-- No look-up yields the class. -/
def Unreachable (σ : Registry) (cls : Class) : Prop :=
  (∀ n, σ.lookUpClass n ≠ some cls ∧ σ.getClass n ≠ some cls) ∧ cls ∉ σ.getClassList

theorem Initial.named {σ : Registry} (h : Initial σ) : Named σ := by
  obtain ⟨htable, haliases⟩ := h
  refine ⟨?_, ?_, ?_, ?_, ?_⟩ <;> simp [htable, haliases]

/-- A class that has been freed is not found. -/
theorem Named.unreachable {σ : Registry} (h : Named σ) {cls : Class} (hp : σ.present cls = false) :
    σ.Unreachable cls := by
  refine ⟨fun n => ⟨fun hc => ?_, fun hc => ?_⟩, fun hc => ?_⟩
  · cases hp.symm.trans (h.table_present cls (classNamed_mem_table hc))
  · cases hp.symm.trans (h.getClass_present hc).1
  · cases hp.symm.trans (h.table_present cls hc)

theorem named_of_run {σ₀ σ : Registry} (h₀ : Named σ₀)
    (h : Runs (fun σ a σ' => σ.NamesOk a ∧ σ.Step a σ') σ₀ σ) :
    Named σ :=
  h.invariant h₀ fun _ _ _ hn hs => hn.step hs.1 hs.2

def noClasses : Registry where
  present := fun _ => false
  name := fun _ => ""
  isMeta := fun _ => false
  duplicate := fun _ => false
  resolved := fun _ => false
  superClass := fun _ => none
  legacySuper := fun _ => none
  isa := id
  subclassList := fun _ => none
  siblingClass := fun _ => none
  unresolvedClassList := none
  table := []
  aliases := []

def performAll (σ : Registry) (acts : List Act) : Option Registry := acts.foldlM (fun σ a => σ.perform 9 a) σ

theorem performAll_runs : ∀ {acts : List Act} {σ σ' : Registry}, performAll σ acts = some σ' → Runs Step σ σ'
  | [], σ, σ', h => by
    rw [← Option.some.inj h]
    exact Runs.refl σ
  | a :: acts, σ, σ', h => by
    obtain ⟨σ₁, ha, h⟩ := Option.bind_eq_some_iff.mp h
    exact (Runs.single (a := a) ⟨9, ha⟩).trans (performAll_runs h)

/-- Two classes of one name are allocated before either is registered. -/
def twins : List Act :=
  [.links (.allocateClassPair none "A" 0 1), .links (.allocateClassPair none "A" 2 3),
    .links (.registerClassPair 0), .links (.registerClassPair 2)]

/-- A class is registered with an alias. -/
def aliased : List Act :=
  [.links (.allocateClassPair none "A" 0 1), .links (.registerClassPair 0), .registerAlias 0 "B"]

end Registry

end Libobjc2.Classes
