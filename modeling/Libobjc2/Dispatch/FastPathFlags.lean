import Libobjc2.Dispatch.ARCAccessors
import Libobjc2.Dispatch.SuperclassTables
import Libobjc2.Dispatch.UntypedResolution

/-!
# The flags of the fast paths (`src/dispatch/dtable.c`, lines 77–201)

`objc_class_flag_fast_arc` and `objc_class_flag_fast_alloc_init` record what `ownerForMethod` finds in the
tables for eight names. `checkARCAccessors` sets them when a class gets its table, when a method list is
added to it and when its table is rebased.

Results:
* `flagsAt_check`: the check of a class sets its flags and those of its metaclass right.
* `FlagsAt.congr`: they are right as long as the lookups of the check have the answers they had.
* `flagsOff_sendInitialize`, `FlagsRight.setSuperclass`: initialisation and new superclasses keep all flags
  right.
* `flagsRight_runs`: so do method lists, if no new method gets in the way of a lookup for another class.
* `flags_stale`: a method that goes to the root class after a subclass was initialised.
-/

namespace Libobjc2.Dispatch

open Libobjc2.Common

namespace Runtime

variable (T : SelectorTable)

/-! ## Specification -/

/-- The methods that the checks are about, and the one by which a class opts in to the fast path. -/
def allocators : List String := ["alloc", "allocWithZone:"]
def trivialAllocInit : String := "_TrivialAllocInit"

/-- The class that a class has the method of a name from. -/
def owner (σ : Runtime) (cls : Class) (name : String) : Option Class :=
  σ.ownerForMethod T (σ.classCount + 1) cls name

/-- The flags of a class and its metaclass say what the tables do. -/
structure FlagsAt (σ : Runtime) (cls : Class) : Prop where
  /-- All accessors come from classes that declare compliance themselves. -/
  arc : σ.fastArc cls = true ↔
    ∀ name ∈ accessors, ∀ p ∈ σ.owner T cls name, σ.ownsMethod T p compliance = true
  /-- `+alloc` and `+allocWithZone:` come from the class that says they are trivial, if from any. -/
  alloc : σ.fastAllocInit (σ.isa cls) = true ↔ ∃ t ∈ σ.owner T (σ.isa cls) trivialAllocInit,
    ∀ name ∈ allocators, ∀ o ∈ σ.owner T (σ.isa cls) name, o = t
  /-- So does `-init`. -/
  init : σ.fastAllocInit cls = true ↔ ∃ t ∈ σ.owner T (σ.isa cls) trivialAllocInit,
    ∀ o ∈ σ.owner T cls "init", σ.isa o = t

/-- The flags of all initialised classes are right, apart from classes at or below the exceptions and those whose
metaclass is. -/
def FlagsOff (O : Class → Prop) (σ : Runtime) : Prop :=
  ∀ cls < σ.classCount, σ.isMeta cls = false → σ.dtable cls ≠ none →
    ¬ σ.Under O cls → ¬ σ.Under O (σ.isa cls) → σ.FlagsAt T cls

/-- The flags of all initialised classes are right. -/
def FlagsRight (σ : Runtime) : Prop :=
  ∀ cls < σ.classCount, σ.isMeta cls = false → σ.dtable cls ≠ none → σ.FlagsAt T cls

/-! ## The lookups of a check -/

/-- The calls of `ownerForMethod` for the accessors, which end with the first that is not compliant. -/
def accessorLookups (σ : Runtime) (cls : Class) : List String → List (Class × String)
  | [] => []
  | name :: names =>
    (cls, name) :: match σ.owner T cls name with
      | none => accessorLookups σ cls names
      | some p => (p, compliance) :: if σ.ownsMethod T p compliance then accessorLookups σ cls names else []

/-- The calls of `ownerForMethod` that `checkARCAccessors` makes. -/
def lookups (σ : Runtime) (cls : Class) : List (Class × String) :=
  let allocInit :=
    if σ.owner T (σ.isa cls) trivialAllocInit = none then []
    else (cls, "init") :: allocators.map fun name => (σ.isa cls, name)
  (σ.isa cls, trivialAllocInit) :: (allocInit ++ σ.accessorLookups T cls accessors)

/-- The classes that `ownerForMethod` walks over: from `cls` up as long as the entry is the same. -/
def ownerWalk (σ : Runtime) : ℕ → Class → String → List Class
  | 0, _, _ => []
  | fuel + 1, cls, name =>
    cls :: (σ.superClass cls).elim [] fun sup =>
      if σ.entry (T.untyped name) cls ≠ none ∧ σ.entry (T.untyped name) sup = σ.entry (T.untyped name) cls then
        ownerWalk σ fuel sup name
      else []

variable {T} {σ σ' : Runtime} {cls : Class}

theorem ownerForMethod_succ (σ : Runtime) (fuel : ℕ) (cls : Class) (name : String) :
    σ.ownerForMethod T (fuel + 1) cls name =
      (σ.entry (T.untyped name) cls).bind fun slot => (σ.superClass cls).elim (some cls) fun sup =>
        if σ.entry (T.untyped name) sup = some slot then σ.ownerForMethod T fuel sup name else some cls := by
  rw [ownerForMethod, dtableForClass_apply]
  cases σ.entry (T.untyped name) cls with
  | none => rfl
  | some slot =>
    cases hp : σ.superClass cls with
    | none => rfl
    | some sup => simp only [dtableForClass_apply, Option.bind_some, Option.elim_some]

/-- The owner of a method is a superclass. -/
theorem below_ownerForMethod {name : String} : ∀ (fuel : ℕ) (cls p : Class),
    σ.ownerForMethod T fuel cls name = some p → Below σ.superClass cls p := by
  intro fuel
  induction fuel with
  | zero =>
    intro cls p h
    cases h
  | succ fuel ih =>
    intro cls p h
    rw [ownerForMethod_succ] at h
    obtain ⟨slot, -, h⟩ := Option.bind_eq_some_iff.mp h
    cases hp : σ.superClass cls with
    | none =>
      rw [hp] at h
      obtain rfl := Option.some.inj h
      exact Below.refl cls
    | some sup =>
      rw [hp, Option.elim_some] at h
      split at h
      · exact (Below.of_parent hp).trans (ih sup p h)
      · obtain rfl := Option.some.inj h
        exact Below.refl cls

theorem below_owner {name : String} {p : Class} (h : σ.owner T cls name = some p) :
    Below σ.superClass cls p :=
  below_ownerForMethod _ cls p h

/-- The classes at and above `cls` have the links and tables that they had. -/
def SameAbove (σ σ' : Runtime) (cls : Class) : Prop :=
  ∀ x, Below σ.superClass cls x → σ'.superClass x = σ.superClass x ∧ σ'.dtable x = σ.dtable x

theorem SameAbove.up (h : SameAbove σ σ' cls) {p : Class} (hp : Below σ.superClass cls p) :
    SameAbove σ σ' p :=
  fun x hx => h x (hp.trans hx)

theorem SameAbove.entry (h : SameAbove σ σ' cls) (key : ℕ) : σ'.entry key cls = σ.entry key cls := by
  rw [Runtime.entry, Runtime.entry, (h cls (Below.refl cls)).2]

theorem SameAbove.ownerForMethod {name : String} : ∀ (fuel : ℕ) {cls : Class}, SameAbove σ σ' cls →
    σ'.ownerForMethod T fuel cls name = σ.ownerForMethod T fuel cls name := by
  intro fuel
  induction fuel with
  | zero => exact fun _ => rfl
  | succ fuel ih =>
    intro cls h
    rw [ownerForMethod_succ, ownerForMethod_succ, h.entry, (h cls (Below.refl cls)).1]
    cases hp : σ.superClass cls with
    | none => rfl
    | some sup =>
      have hsup := h.up (Below.of_parent hp)
      simp only [Option.elim_some, hsup.entry, ih hsup]

theorem SameAbove.owner (h : SameAbove σ σ' cls) (hcount : σ'.classCount = σ.classCount) (name : String) :
    σ'.owner T cls name = σ.owner T cls name := by
  rw [Runtime.owner, Runtime.owner, hcount]
  exact h.ownerForMethod _

/-! ## Flags and lookups -/

/-- The flags of a class and of its metaclass are those that they were. -/
structure SameFlagsAt (σ σ' : Runtime) (cls : Class) : Prop where
  isa : σ'.isa cls = σ.isa cls
  arc : σ'.fastArc cls = σ.fastArc cls
  init : σ'.fastAllocInit cls = σ.fastAllocInit cls
  alloc : σ'.fastAllocInit (σ.isa cls) = σ.fastAllocInit (σ.isa cls)

theorem accessors_congr : ∀ {names : List String},
    (∀ l ∈ σ.accessorLookups T cls names, σ'.owner T l.1 l.2 = σ.owner T l.1 l.2) →
    ((∀ name ∈ names, ∀ p ∈ σ'.owner T cls name, σ'.ownsMethod T p compliance = true) ↔
      ∀ name ∈ names, ∀ p ∈ σ.owner T cls name, σ.ownsMethod T p compliance = true) := by
  intro names
  induction names with
  | nil => exact fun _ => by simp
  | cons name names ih =>
    intro h
    rw [accessorLookups, List.forall_mem_cons] at h
    obtain ⟨hname, hrest⟩ := h
    rw [List.forall_mem_cons, List.forall_mem_cons, hname]
    cases ho : σ.owner T cls name with
    | none =>
      rw [ho] at hrest
      exact and_congr (by simp) (ih hrest)
    | some p =>
      rw [ho, List.forall_mem_cons] at hrest
      obtain ⟨hp, hrest⟩ := hrest
      have howns : σ'.ownsMethod T p compliance = σ.ownsMethod T p compliance := by
        have hp' : σ'.ownerForMethod T (σ'.classCount + 1) p compliance =
            σ.ownerForMethod T (σ.classCount + 1) p compliance := hp
        rw [ownsMethod, ownsMethod, hp']
      simp only [Option.mem_def, Option.some.injEq, forall_eq', howns]
      cases hown : σ.ownsMethod T p compliance with
      | false => simp
      | true =>
        rw [hown, if_pos rfl] at hrest
        exact and_congr_right fun _ => ih hrest

/-- **Flags are right as long as the lookups of the check have the answers they had.** -/
theorem FlagsAt.congr (h : σ.FlagsAt T cls) (hflags : SameFlagsAt σ σ' cls)
    (hisa : ∀ o, σ.owner T cls "init" = some o → σ'.isa o = σ.isa o)
    (hlookups : ∀ l ∈ σ.lookups T cls, σ'.owner T l.1 l.2 = σ.owner T l.1 l.2) : σ'.FlagsAt T cls := by
  rw [lookups, List.forall_mem_cons, List.forall_mem_append] at hlookups
  obtain ⟨htrivial, hallocInit, harc⟩ := hlookups
  refine ⟨?_, ?_, ?_⟩
  · rw [hflags.arc, h.arc]
    exact (accessors_congr harc).symm
  · rw [hflags.isa, hflags.alloc, h.alloc, htrivial]
    refine exists_congr fun t => and_congr_right fun ht => ?_
    rw [if_neg (by rw [Option.mem_def.mp ht]; exact Option.some_ne_none t),
      List.forall_mem_cons] at hallocInit
    refine forall₂_congr fun name hname => ?_
    rw [hallocInit.2 (σ.isa cls, name) (List.mem_map_of_mem hname)]
  · rw [hflags.isa, hflags.init, h.init, htrivial]
    refine exists_congr fun t => and_congr_right fun ht => ?_
    rw [if_neg (by rw [Option.mem_def.mp ht]; exact Option.some_ne_none t),
      List.forall_mem_cons] at hallocInit
    rw [hallocInit.1]
    refine forall₂_congr fun o ho => ?_
    rw [hisa o ho]

/-- The lookups are for the class, its metaclass and classes above them. -/
theorem below_lookups {l : Class × String} (h : l ∈ σ.lookups T cls) :
    Below σ.superClass cls l.1 ∨ Below σ.superClass (σ.isa cls) l.1 := by
  have haccessor : ∀ names : List String, l ∈ σ.accessorLookups T cls names → Below σ.superClass cls l.1 := by
    intro names
    induction names with
    | nil =>
      intro h
      cases h
    | cons name names ih =>
      intro h
      rw [accessorLookups] at h
      rcases List.mem_cons.mp h with rfl | h
      · exact Below.refl cls
      · cases ho : σ.owner T cls name with
        | none =>
          rw [ho] at h
          exact ih h
        | some p =>
          rw [ho] at h
          rcases List.mem_cons.mp h with rfl | h
          · exact below_owner ho
          · split at h
            · exact ih h
            · cases h
  rw [lookups] at h
  rcases List.mem_cons.mp h with rfl | h
  · exact .inr (Below.refl _)
  rcases List.mem_append.mp h with h | h
  · split at h
    · cases h
    · rcases List.mem_cons.mp h with rfl | h
      · exact .inl (Below.refl _)
      · obtain ⟨name, -, rfl⟩ := List.mem_map.mp h
        exact .inr (Below.refl _)
  · exact .inl (haccessor _ h)

/-- A step that changes neither what the check of a class looks at nor its flags. -/
structure Unaffected (σ σ' : Runtime) (cls : Class) : Prop extends SameFlagsAt σ σ' cls where
  count : σ'.classCount = σ.classCount
  above : SameAbove σ σ' cls
  above_meta : SameAbove σ σ' (σ.isa cls)
  isa_above : ∀ x, Below σ.superClass cls x → σ'.isa x = σ.isa x

theorem FlagsAt.unaffected (h : σ.FlagsAt T cls) (hu : Unaffected σ σ' cls) : σ'.FlagsAt T cls := by
  refine h.congr hu.toSameFlagsAt (fun o ho => hu.isa_above o (below_owner ho)) fun l hl => ?_
  rcases below_lookups hl with hb | hb
  · exact (hu.above.up hb).owner hu.count l.2
  · exact (hu.above_meta.up hb).owner hu.count l.2

theorem Unaffected.of_same (hs : SameClasses σ σ') (hflags : SameFlagsAt σ σ' cls)
    (hd : ∀ x, Below σ.superClass cls x ∨ Below σ.superClass (σ.isa cls) x → σ'.dtable x = σ.dtable x) :
    Unaffected σ σ' cls :=
  ⟨hflags, hs.classCount, fun x hx => ⟨by rw [hs.superClass], hd x (.inl hx)⟩,
    fun x hx => ⟨by rw [hs.superClass], hd x (.inr hx)⟩, fun x _ => by rw [hs.isa]⟩

theorem SameFlagsAt.refl (σ : Runtime) (cls : Class) : SameFlagsAt σ σ cls := ⟨rfl, rfl, rfl, rfl⟩

theorem SameFlagsAt.trans {τ υ : Runtime} (h : SameFlagsAt σ τ cls) (h' : SameFlagsAt τ υ cls) :
    SameFlagsAt σ υ cls := by
  have halloc := h'.alloc
  rw [h.isa] at halloc
  exact ⟨h'.isa.trans h.isa, h'.arc.trans h.arc, h'.init.trans h.init, halloc.trans h.alloc⟩

/-! ## What the checks set -/

theorem owner_sameTables (h : SameTables σ σ') (cls : Class) (name : String) :
    σ'.owner T cls name = σ.owner T cls name := by
  rw [owner, owner, h.classCount]
  exact ownerForMethod_congr h.superClass h.dtable name _ cls

theorem ownsMethod_sameTables (h : SameTables σ σ') (cls : Class) (name : String) :
    σ'.ownsMethod T cls name = σ.ownsMethod T cls name := by
  have howner := owner_sameTables (T := T) h cls name
  rw [owner, owner] at howner
  rw [ownsMethod, ownsMethod, howner]

theorem sameTables_checkFastAllocInit (σ : Runtime) (cls : Class) :
    SameTables σ (σ.checkFastAllocInit T cls) := by
  obtain ⟨fast, h⟩ := checkFastAllocInit_eq T σ cls
  rw [h]
  exact ⟨⟨rfl, rfl, rfl, rfl, rfl, rfl, rfl, rfl⟩, rfl, rfl⟩

/-- What `checkFastAllocInit` finds. -/
theorem checkFastAllocInit_flags (hm : σ.isMeta cls = false) (hne : cls ≠ σ.isa cls) :
    ((σ.checkFastAllocInit T cls).fastAllocInit (σ.isa cls) = true ↔
      ∃ t ∈ σ.owner T (σ.isa cls) trivialAllocInit,
        ∀ name ∈ allocators, ∀ o ∈ σ.owner T (σ.isa cls) name, o = t) ∧
    ((σ.checkFastAllocInit T cls).fastAllocInit cls = true ↔
      ∃ t ∈ σ.owner T (σ.isa cls) trivialAllocInit, ∀ o ∈ σ.owner T cls "init", σ.isa o = t) := by
  have hnm : σ.isMeta cls ≠ true := by
    rw [hm]
    exact Bool.false_ne_true
  rw [checkFastAllocInit, if_neg hnm]
  cases ht : σ.owner T (σ.isa cls) trivialAllocInit with
  | none =>
    have ht' : σ.ownerForMethod T (σ.classCount + 1) (σ.isa cls) "_TrivialAllocInit" = none := ht
    simp [ht', Function.update_of_ne hne]
  | some t =>
    have ht' : σ.ownerForMethod T (σ.classCount + 1) (σ.isa cls) "_TrivialAllocInit" = some t := ht
    have hequal : ∀ o : Option Class, (o = none ∨ o = some t) ↔ ∀ p ∈ o, p = t := by
      intro o
      cases o <;> simp
    simp only [ht', Function.update_self, Function.update_of_ne hne.symm, Bool.and_eq_true, Bool.or_eq_true,
      decide_eq_true_eq, hequal, Option.mem_def, Option.some.injEq, exists_eq_left']
    refine ⟨by simp [allocators, owner], ?_⟩
    cases hi : σ.owner T cls "init" with
    | none =>
      have hi' : σ.ownerForMethod T (σ.classCount + 1) cls "init" = none := hi
      simp [hi']
    | some o =>
      have hi' : σ.ownerForMethod T (σ.classCount + 1) cls "init" = some o := hi
      simp [hi']

/-- **The check of a class** sets its flags and those of its metaclass right. -/
theorem flagsAt_check (hm : σ.isMeta cls = false) (hne : cls ≠ σ.isa cls) :
    (σ.checkARCAccessors T cls).FlagsAt T cls := by
  have hs := sameTables_checkARCAccessors (T := T) σ cls
  obtain ⟨halloc, hinit⟩ := checkFastAllocInit_flags (T := T) hm hne
  refine ⟨?_, ?_, ?_⟩
  · rw [checkARCAccessors_fastArc, List.all_eq_true]
    refine forall₂_congr fun name _ => ?_
    have howner : (σ.checkFastAllocInit T cls).ownerForMethod T ((σ.checkFastAllocInit T cls).classCount + 1)
        cls name = (σ.checkARCAccessors T cls).owner T cls name :=
      (owner_sameTables (sameTables_checkFastAllocInit σ cls) cls name).trans
        (owner_sameTables hs cls name).symm
    rw [howner, Option.all_eq_true]
    refine forall₂_congr fun p _ => ?_
    rw [ownsMethod_sameTables (sameTables_checkFastAllocInit σ cls), ownsMethod_sameTables hs]
  · rw [hs.isa]
    simp only [owner_sameTables hs]
    exact halloc
  · rw [hs.isa]
    simp only [owner_sameTables hs]
    exact hinit

/-- The check of a class leaves the flags of the other classes and of their metaclasses alone. -/
theorem sameFlagsAt_check (hp : ClassPairs σ) (hc : cls < σ.classCount) {d : Class} (hd : d < σ.classCount)
    (hm : σ.isMeta d = false) (hne : d ≠ cls) : SameFlagsAt σ (σ.checkARCAccessors T cls) d := by
  have hs := sameTables_checkARCAccessors (T := T) σ cls
  have harc : (σ.checkARCAccessors T cls).fastArc d = σ.fastArc d := by
    rw [checkARCAccessors]
    dsimp only
    rw [Function.update_of_ne hne]
    obtain ⟨fast, h⟩ := checkFastAllocInit_eq T σ cls
    rw [h]
  suffices hkept : ∀ x, x = d ∨ x = σ.isa d →
      (σ.checkFastAllocInit T cls).fastAllocInit x = σ.fastAllocInit x from
    ⟨by rw [hs.isa], harc, hkept d (.inl rfl), hkept (σ.isa d) (.inr rfl)⟩
  intro x hx
  rw [checkFastAllocInit]
  split
  · rfl
  · next hcm =>
    have hcm : σ.isMeta cls = false := by simpa using hcm
    have hmeta := (hp.isa_meta d hd hm).1
    have hclsMeta := (hp.isa_meta cls hc hcm).1
    have hxc : x ≠ cls ∧ x ≠ σ.isa cls := by
      rcases hx with rfl | rfl
      · refine ⟨hne, ?_⟩
        rintro rfl
        rw [hm] at hclsMeta
        cases hclsMeta
      · refine ⟨?_, fun h => hne (hp.isa_inj d hd cls hc hm hcm h)⟩
        rintro rfl
        rw [hcm] at hmeta
        cases hmeta
    dsimp only
    split
    · dsimp only
      rw [Function.update_of_ne hxc.2, Function.update_of_ne hxc.1]
    · dsimp only
      rw [Function.update_of_ne hxc.1, Function.update_of_ne hxc.2]

/-! ## What leaves the flags alone -/

/-- The flags of all classes are those that they were. -/
def SameFlags (σ σ' : Runtime) : Prop := σ'.fastArc = σ.fastArc ∧ σ'.fastAllocInit = σ.fastAllocInit

theorem SameFlags.refl (σ : Runtime) : SameFlags σ σ := ⟨rfl, rfl⟩

theorem SameFlags.trans {τ υ : Runtime} (h : SameFlags σ τ) (h' : SameFlags τ υ) : SameFlags σ υ :=
  ⟨h'.1.trans h.1, h'.2.trans h.2⟩

theorem SameFlags.at (h : SameFlags σ σ') (hisa : σ'.isa cls = σ.isa cls) : SameFlagsAt σ σ' cls :=
  ⟨hisa, by rw [h.1], by rw [h.2], by rw [h.2]⟩

theorem sameFlags_updateCxxMethodCache (σ : Runtime) (cls : Class) (name : String) (imp : Imp) :
    SameFlags σ (σ.updateCxxMethodCache cls name imp) := by
  unfold updateCxxMethodCache
  split_ifs
  · exact ⟨rfl, rfl⟩
  · exact ⟨rfl, rfl⟩
  · exact SameFlags.refl σ

theorem sameFlags_refreshCxxMethodCaches (σ : Runtime) (m : MethodId) :
    SameFlags σ (σ.refreshCxxMethodCaches m) := by
  unfold refreshCxxMethodCaches
  dsimp only
  split_ifs
  · exact ⟨rfl, rfl⟩
  · exact ⟨rfl, rfl⟩
  · exact SameFlags.refl σ

theorem sameFlags_installMethodInDtable : ∀ (fuel : ℕ) (σ : Runtime) (cls : Class) (dtable : Dtable)
    (m : MethodId) (methodToReplace : Option MethodId) (replaceExisting updateCxxCache : Bool),
    SameFlags σ (σ.installMethodInDtable T fuel cls dtable m methodToReplace replaceExisting updateCxxCache).1
  | 0, σ, _, _, _, _, _, _ => SameFlags.refl σ
  | fuel + 1, σ, cls, dtable, m, methodToReplace, replaceExisting, updateCxxCache => by
    have hloop : ∀ (subclasses : List Class) (σ : Runtime) (old : Option MethodId),
        SameFlags σ (subclasses.foldl (fun σ subclass =>
          if σ.classHasDtable subclass then
            let r := σ.installMethodInDtable T fuel subclass (σ.dtableForClass subclass) m old true false
            r.1.setDtable subclass r.2.1
          else σ) σ) := by
      intro subclasses
      induction subclasses with
      | nil => exact fun σ _ => SameFlags.refl σ
      | cons subclass subclasses ih =>
        intro σ old
        rw [List.foldl_cons]
        refine SameFlags.trans ?_ (ih _ old)
        split
        · exact (sameFlags_installMethodInDtable fuel ..).trans ⟨rfl, rfl⟩
        · exact SameFlags.refl σ
    rw [installMethodInDtable]
    dsimp only
    split_ifs
    all_goals try exact SameFlags.refl σ
    all_goals try exact (sameFlags_updateCxxMethodCache ..).trans (hloop ..)
    all_goals exact hloop ..

theorem sameFlags_installAll (cls : Class) (sup : Option Dtable) (ms : List MethodId) (σ : Runtime) :
    SameFlags σ (installAll T cls sup σ ms) := by
  induction ms generalizing σ with
  | nil => exact SameFlags.refl σ
  | cons m ms ih =>
    have hone : SameFlags σ (installOne T cls sup σ m) :=
      (sameFlags_installMethodInDtable ..).trans ⟨rfl, rfl⟩
    exact hone.trans (ih _)

theorem sameFlags_createDtableForClass {rootDtable t : Dtable}
    (h : σ.createDtableForClass T cls rootDtable = some (σ', t)) : SameFlags σ σ' := by
  have hloop : ∀ (sup : Option Dtable) (ms : List MethodId) (p : Runtime × Dtable), SameFlags σ p.1 →
      SameFlags σ (ms.foldl (fun p m =>
        let r := p.1.installMethodInDtable T (p.1.classCount + 1) cls p.2 m
          (sup.bind fun t => t (T.typed (p.1.method m))) true true
        (r.1, r.2.1)) p).1 := by
    intro sup ms
    induction ms with
    | nil => exact fun p hp => hp
    | cons m ms ih => exact fun p hp => ih _ (hp.trans (sameFlags_installMethodInDtable ..))
  have hdone : ∀ sup : Option Dtable, (some ((σ.methodsOf cls).foldl (fun p m =>
      let r := p.1.installMethodInDtable T (p.1.classCount + 1) cls p.2 m
        (sup.bind fun t => t (T.typed (p.1.method m))) true true
      (r.1, r.2.1)) (σ, sup.getD fun _ => none))) = some (σ', t) → SameFlags σ σ' := by
    intro sup heq
    have hp := hloop sup (σ.methodsOf cls) (σ, sup.getD fun _ => none) (SameFlags.refl σ)
    rwa [Option.some.inj heq] at hp
  rw [createDtableForClass] at h
  split at h
  · obtain ⟨rfl, -⟩ := Prod.mk.inj (Option.some.inj h)
    exact SameFlags.refl σ
  · split at h
    · exact hdone none h
    · split at h
      · next s _ => exact hdone (some s) h
      · split at h
        · exact hdone (some rootDtable) h
        · cases h

/-! ## Classes that get tables -/

/-- A class that gets a table is checked last. -/
theorem initializePair_check (hnone : σ.dtable cls = none) (h : σ.initializePair T cls = some σ') :
    ∃ τ, SameFlags σ τ ∧ σ' = τ.checkARCAccessors T cls := by
  rw [initializePair, if_neg (by simp [classHasDtable, hnone])] at h
  obtain ⟨⟨τ, t⟩, hcls, h⟩ := Option.bind_eq_some_iff.mp h
  have hτ := sameFlags_createDtableForClass hcls
  dsimp only at h
  split at h
  · exact ⟨τ.setDtable cls t, hτ, (Option.some.inj h).symm⟩
  · obtain ⟨⟨υ, t'⟩, hmeta, h⟩ := Option.bind_eq_some_iff.mp h
    have hυ := hτ.trans (sameFlags_createDtableForClass hmeta)
    exact ⟨(υ.setDtable (σ.isa cls) t').setDtable cls t, hυ, (Option.some.inj h).symm⟩

section Initialise

variable {O : Class → Prop}

theorem ClassPairs.ne_isa (hp : ClassPairs σ) (hc : cls < σ.classCount) (hm : σ.isMeta cls = false) :
    cls ≠ σ.isa cls := by
  intro h
  have hmeta := (hp.isa_meta cls hc hm).1
  rw [← h, hm] at hmeta
  cases hmeta

/-- The tables of initialised classes stay as they are, and so does what the check of such a class looks at. -/
theorem GrowsOff.unaffected (hw : WellFormedOff O σ) (hg : GrowsOff T O σ σ') (hflags : SameFlagsAt σ σ' cls)
    (hc : cls < σ.classCount) (hm : σ.isMeta cls = false) (hlive : σ.dtable cls ≠ none)
    (hoff : ¬ σ.Under O cls) (hoffm : ¬ σ.Under O (σ.isa cls)) : Unaffected σ σ' cls := by
  refine Unaffected.of_same hg.toSameClasses hflags fun x hx => ?_
  rcases hx with hx | hx
  · exact hg.live_eq (fun hu => hoff (hu.down hx)) (hw.live_above hlive hoff hx)
  · exact hg.live_eq (fun hu => hoffm (hu.down hx)) (hw.live_above (hw.live_meta cls hc hm hlive) hoffm hx)

theorem FlagsOff.initializePair (h : FlagsOff T O σ) (hw : WellFormedOff O σ) (hc : cls < σ.classCount)
    (hnone : σ.dtable cls = none) (hpair : σ.initializePair T cls = some σ') (hg : GrowsOff T O σ σ')
    (hnew : ∀ n, σ.dtable n = none → σ'.dtable n ≠ none → n = cls ∨ σ.isMeta n = true) : FlagsOff T O σ' := by
  obtain ⟨τ, hτ, rfl⟩ := initializePair_check hnone hpair
  have hcheck := sameTables_checkARCAccessors (T := T) τ cls
  have hcount : τ.classCount = σ.classCount := hcheck.classCount.symm.trans hg.classCount
  have hmeta : τ.isMeta = σ.isMeta := hcheck.isMeta.symm.trans hg.isMeta
  have hisa : τ.isa = σ.isa := hcheck.isa.symm.trans hg.isa
  have hsuper : τ.superClass = σ.superClass := hcheck.superClass.symm.trans hg.superClass
  have hpτ : ClassPairs τ := by
    refine ⟨?_, ?_, ?_, ?_⟩
    · rw [hcount, hmeta, hisa]
      exact hw.isa_meta
    · rw [hcount, hmeta, hisa]
      exact hw.isa_inj
    · rw [hmeta, hsuper]
      exact hw.super_class
    · rw [hcount, hmeta, hisa, hsuper]
      exact hw.super_meta
  intro d hd hm hlive hoff hoffm
  rw [hg.classCount] at hd
  rw [hg.isMeta] at hm
  rw [Under.of_same hg.toSameClasses] at hoff hoffm
  rw [hg.isa] at hoffm
  by_cases hdc : d = cls
  · subst hdc
    exact flagsAt_check (by rwa [hmeta]) (hpτ.ne_isa (by rwa [hcount]) (by rwa [hmeta]))
  · have hlive₀ : σ.dtable d ≠ none := by
      intro hdnone
      rcases hnew d hdnone hlive with rfl | hdm
      · exact hdc rfl
      · rw [hm] at hdm
        cases hdm
    have hflags : SameFlagsAt σ (τ.checkARCAccessors T cls) d :=
      (hτ.at (by rw [hisa])).trans
        (sameFlagsAt_check hpτ (by rwa [hcount]) (by rwa [hcount]) (by rwa [hmeta]) hdc)
    exact (h d hd hm hlive₀ hoff hoffm).unaffected (hg.unaffected hw hflags hd hm hlive₀ hoff hoffm)

/-- **Initialising a class** keeps the flags right. -/
theorem flagsOff_sendInitialize : ∀ (fuel : ℕ) (σ : Runtime) (cls : Class) (σ' : Runtime),
    WellFormedOff O σ → σ.Messageable cls →
    (∀ a, Below σ.superClass cls a → ¬ σ.Under O a ∧ ¬ σ.Under O (σ.isa a)) →
    depth σ.superClass (Finset.range σ.classCount) cls < fuel → FlagsOff T O σ →
    σ.sendInitialize T fuel cls = some σ' → FlagsOff T O σ' := by
  intro fuel
  induction fuel with
  | zero =>
    intro σ cls σ' _ _ _ h
    omega
  | succ fuel ih =>
    intro σ cls σ' hw hm hoff hd hflags hsend
    rw [sendInitialize] at hsend
    obtain ⟨σ₁, h₁, hpair⟩ := Option.bind_eq_some_iff.mp hsend
    obtain ⟨hw₁, hg₁, hsup₁, hflags₁⟩ : WellFormedOff O σ₁ ∧ GrowsOff T O σ σ₁ ∧
        (∀ p, σ.superClass cls = some p → σ₁.dtable p ≠ none) ∧ FlagsOff T O σ₁ := by
      cases hp : σ.superClass cls with
      | none =>
        rw [hp] at h₁
        obtain rfl := Option.some.inj h₁
        exact ⟨hw, GrowsOff.refl σ, by simp, hflags⟩
      | some p =>
        rw [hp, Option.elim_some] at h₁
        have hdepth := depth_lt hw.acyclic (hw.bounded cls p hp).1 hp
        have hup := Below.of_parent hp
        obtain ⟨τ, hτ, hwτ, hi⟩ := sendInitialize_spec (T := T) fuel σ p hw (hm.super hw.toForest hp)
          (fun a ha => hoff a (hup.trans ha)) (by omega)
        have hflagsτ := ih σ p σ₁ hw (hm.super hw.toForest hp) (fun a ha => hoff a (hup.trans ha)) (by omega)
          hflags h₁
        obtain rfl := Option.some.inj (hτ.symm.trans h₁)
        refine ⟨hwτ, hi.toGrowsOff, ?_, hflagsτ⟩
        rintro _ ⟨⟩
        exact hi.live
    by_cases hnone : σ₁.dtable cls = none
    · have hm₁ := hm.of_same hg₁.toSameClasses
      rw [← hg₁.superClass] at hsup₁
      obtain ⟨hoffc, hoffm⟩ := hoff cls (Below.refl cls)
      rw [← Under.of_same hg₁.toSameClasses] at hoffc hoffm
      rw [← hg₁.isa] at hoffm
      by_cases hmeta : σ₁.dtable (σ₁.isa cls) = none
      · obtain ⟨τ, hτ, -, hg, -, hnew⟩ := initializePair_both (T := T) hw₁ hm₁ hoffc hoffm hsup₁ hnone hmeta
        obtain rfl := Option.some.inj (hτ.symm.trans hpair)
        have hclass := isMeta_false_of_isa hw₁ hm₁ hoffc hsup₁ hmeta
        refine hflags₁.initializePair hw₁ hm₁.1 hnone hpair hg fun n hn hn' => (hnew n hn hn').imp_right ?_
        rintro rfl
        exact (hw₁.isa_meta cls hm₁.1 hclass).1
      · obtain ⟨τ, hτ, -, hg, -, hnew⟩ := initializePair_skipMeta (T := T) hw₁ hoffc hsup₁ hnone hmeta
        obtain rfl := Option.some.inj (hτ.symm.trans hpair)
        exact hflags₁.initializePair hw₁ hm₁.1 hnone hpair hg fun n hn hn' => .inl (hnew n hn hn')
    · rw [Runtime.initializePair,
        if_pos (by simpa [classHasDtable, Option.isSome_iff_ne_none] using hnone)] at hpair
      obtain rfl := Option.some.inj hpair
      exact hflags₁

end Initialise

/-! ## Rebased tables -/

/-- A step that may change the tables and flags of the classes in `R`, and checks these classes again. -/
structure Rechecked (T : SelectorTable) (σ σ' : Runtime) (R : Class → Prop) : Prop where
  same : SameClasses σ σ'
  live : SameLive σ σ'
  tables : ∀ n, ¬ R n → σ'.dtable n = σ.dtable n
  flags : ∀ d < σ.classCount, σ.isMeta d = false → ¬ R d → SameFlagsAt σ σ' d
  right : (∀ d < σ.classCount, σ.isMeta d = false → ∀ x, Below σ.superClass (σ.isa d) x → ¬ R x) →
    ∀ d < σ.classCount, σ.isMeta d = false → σ.dtable d ≠ none → R d → σ'.FlagsAt T d

section Rebase

variable {τ υ : Runtime} {R R' : Class → Prop}

theorem Rechecked.refl (σ : Runtime) (hdead : ∀ d, R d → σ.dtable d = none) : Rechecked T σ σ R :=
  ⟨SameClasses.refl σ, fun _ => Iff.rfl, fun _ _ => rfl, fun d _ _ _ => SameFlagsAt.refl σ d,
    fun _ d _ _ hlive hd => absurd (hdead d hd) hlive⟩

theorem Rechecked.unaffected (h : Rechecked T σ σ' R) {d : Class} (hd : d < σ.classCount)
    (hm : σ.isMeta d = false) (habove : ∀ x, Below σ.superClass d x → ¬ R x)
    (hmeta : ∀ x, Below σ.superClass (σ.isa d) x → ¬ R x) : Unaffected σ σ' d :=
  Unaffected.of_same h.same (h.flags d hd hm (habove d (Below.refl d))) fun x hx =>
    h.tables x (hx.elim (habove x) (hmeta x))

/-- Two such steps in a row. -/
theorem Rechecked.trans (h : Rechecked T σ τ R) (h' : Rechecked T τ υ R')
    (hdown : ∀ n x, Below σ.superClass n x → R' x → R' n) :
    Rechecked T σ υ fun n => R n ∨ R' n where
  same := h.same.trans h'.same
  live n := (h'.live n).trans (h.live n)
  tables n hn := (h'.tables n fun hr => hn (.inr hr)).trans (h.tables n fun hr => hn (.inl hr))
  flags d hd hm hn := by
    refine (h.flags d hd hm fun hr => hn (.inl hr)).trans (h'.flags d ?_ ?_ fun hr => hn (.inr hr))
    · rwa [h.same.classCount]
    · rwa [h.same.isMeta]
  right hmeta d hd hm hlive hr := by
    have hd' : d < τ.classCount := by rwa [h.same.classCount]
    have hm' : τ.isMeta d = false := by rwa [h.same.isMeta]
    have hmeta' : ∀ d < τ.classCount, τ.isMeta d = false → ∀ x, Below τ.superClass (τ.isa d) x → ¬ R' x := by
      rw [h.same.classCount, h.same.isMeta, h.same.superClass, h.same.isa]
      exact fun d hd hm x hx hr => hmeta d hd hm x hx (.inr hr)
    by_cases hr' : R' d
    · exact h'.right hmeta' d hd' hm' ((not_congr (h.live d)).mpr hlive) hr'
    · have hright := h.right (fun d hd hm x hx hr => hmeta d hd hm x hx (.inl hr)) d hd hm hlive
        (hr.resolve_right hr')
      refine hright.unaffected (h'.unaffected hd' hm' (fun x hx hr => hr' ?_) (hmeta' d hd' hm'))
      rw [h.same.superClass] at hx
      exact hdown d x hx hr

/-- The first step of `rebaseDtableRecursive`. -/
theorem rechecked_self (hp : ClassPairs σ) (hc : cls < σ.classCount) (hlive : σ.dtable cls ≠ none)
    (t : Dtable) :
    Rechecked T σ ((σ.setDtable cls t).checkARCAccessors T cls) fun n => n = cls := by
  have hcheck := sameTables_checkARCAccessors (T := T) (σ.setDtable cls t) cls
  have hdtable : ((σ.setDtable cls t).checkARCAccessors T cls).dtable =
      Function.update σ.dtable cls (some t) := hcheck.dtable
  have hp' : ClassPairs (σ.setDtable cls t) := hp.of_same (sameClasses_setDtable σ cls t)
  refine ⟨(sameClasses_setDtable σ cls t).trans hcheck.toSameClasses, fun n => ?_, fun n hn => ?_, ?_, ?_⟩
  · rw [hdtable, Function.update_apply]
    split
    · next h => simp [h, hlive]
    · rfl
  · rw [hdtable, Function.update_of_ne hn]
  · intro d hd hm hne
    have hflags := sameFlagsAt_check (T := T) hp' hc hd hm hne
    exact ⟨hflags.isa, hflags.arc, hflags.init, hflags.alloc⟩
  · rintro - d hd hm - rfl
    exact flagsAt_check (σ := σ.setDtable d t) hm (hp.ne_isa hd hm)

/-- **`rebaseDtableRecursive`** checks all classes again whose tables it changes. -/
theorem rechecked_rebase : ∀ (fuel : ℕ) (σ : Runtime) (cls newSuper : Class), WellFormed σ →
    σ.superClass cls = some newSuper → σ.dtable cls ≠ none →
    height σ.superClass (Finset.range σ.classCount) cls < fuel →
    Rechecked T σ (σ.rebaseDtableRecursive T fuel cls newSuper) fun n => Below σ.superClass n cls := by
  intro fuel
  induction fuel with
  | zero =>
    intro σ cls newSuper _ _ _ h
    omega
  | succ fuel ih =>
    intro σ cls newSuper hw hsup hlive hh
    obtain ⟨t, ht⟩ := Option.ne_none_iff_exists'.mp hlive
    have hc := Finset.mem_range.mp (hw.bounded cls newSuper hsup).1
    have hfirst := rechecked_self (T := T) hw.toClassPairs hc hlive
      (rebaseEntries (σ.dtableForClass newSuper) (σ.ownMethodTable T cls) (σ.dtableForClass cls))
    rw [rebaseDtableRecursive]
    set σ₀ := (σ.setDtable cls (rebaseEntries (σ.dtableForClass newSuper) (σ.ownMethodTable T cls)
      (σ.dtableForClass cls))).checkARCAccessors T cls
    have hw₀ : WellFormed σ₀ := hw.of_same hfirst.same hfirst.live
    have hchild : ∀ e ∈ σ₀.subclassList cls, σ.superClass e = some cls := by
      intro e he
      rw [hw₀.mem_subclassList, hfirst.same.superClass] at he
      exact he
    -- the trees of the subclasses, one after the other
    have hloop : ∀ (es : List Class) (τ : Runtime), SameClasses σ τ → WellFormed τ →
        (∀ e ∈ es, σ.superClass e = some cls) →
        Rechecked T τ (es.foldl (fun τ e => if τ.classHasDtable e then
          τ.rebaseDtableRecursive T fuel e cls else τ) τ)
          fun n => ∃ e ∈ es, Below σ.superClass n e := by
      intro es
      induction es with
      | nil => exact fun τ _ _ _ => Rechecked.refl τ (by simp)
      | cons e es ihes =>
        intro τ hs hwτ hes
        have hec := hes e List.mem_cons_self
        have hone : Rechecked T τ (if τ.classHasDtable e then τ.rebaseDtableRecursive T fuel e cls else τ)
            fun n => Below σ.superClass n e := by
          split
          · next hhas =>
            have hlt := height_lt hw.acyclic (hw.bounded e cls hec).2 hec
            rw [← hs.superClass]
            refine ih τ e cls hwτ (by rw [hs.superClass, hec]) ?_
                (by rw [hs.superClass, hs.classCount]; omega)
            simpa [classHasDtable, Option.isSome_iff_ne_none] using hhas
          · next hhas =>
            refine Rechecked.refl τ fun d hd => ?_
            by_contra hdlive
            rw [← hs.superClass] at hd
            have helive := hwτ.live_up.below hdlive hd
            exact hhas (by simpa [classHasDtable, Option.isSome_iff_ne_none] using helive)
        rw [List.foldl_cons]
        have hrest := ihes _ (hs.trans hone.same) (hwτ.of_same hone.same hone.live)
          fun e' he' => hes e' (List.mem_cons_of_mem _ he')
        have hdown : ∀ n x, Below τ.superClass n x → (∃ e ∈ es, Below σ.superClass x e) →
            ∃ e ∈ es, Below σ.superClass n e := by
          rintro n x hx ⟨e', he', hxe⟩
          rw [hs.superClass] at hx
          exact ⟨e', he', hx.trans hxe⟩
        simpa only [List.mem_cons, exists_eq_or_imp] using hone.trans hrest hdown
    have hrest := hloop (σ₀.subclassList cls) σ₀ hfirst.same hw₀ hchild
    have hdown : ∀ n x, Below σ.superClass n x → (∃ e ∈ σ₀.subclassList cls, Below σ.superClass x e) →
        ∃ e ∈ σ₀.subclassList cls, Below σ.superClass n e := by
      rintro n x hx ⟨e, he, hxe⟩
      exact ⟨e, he, hx.trans hxe⟩
    have hboth := hfirst.trans hrest hdown
    have hregion : (fun n => n = cls ∨ ∃ e ∈ σ₀.subclassList cls, Below σ.superClass n e) =
        fun n => Below σ.superClass n cls := by
      funext n
      refine propext ⟨?_, fun hn => ?_⟩
      · rintro (rfl | ⟨e, he, hne⟩)
        · exact Below.refl n
        · exact hne.trans (Below.of_parent (hchild e he))
      · rcases hn.cases_child with rfl | ⟨e, he, hne⟩
        · exact .inl rfl
        · refine .inr ⟨e, ?_, hne⟩
          rwa [hw₀.mem_subclassList, hfirst.same.superClass]
    rwa [hregion] at hboth

end Rebase

/-! ## New superclasses -/

section Move

variable {newSuper : Class} {σ₂ : Runtime}

theorem rechecked_update (hw : WellFormed σ) (hsup : σ.superClass cls = some newSuper)
    (hlive : σ.dtable cls ≠ none) :
    Rechecked T σ (σ.updateDtableForNewSuperclass T cls newSuper) fun n => Below σ.superClass n cls := by
  rw [updateDtableForNewSuperclass_eq hlive]
  have h := rechecked_rebase (T := T) (σ.classCount + 1) σ cls newSuper hw hsup hlive
      (Forest.height_lt_fuel cls)
  refine ⟨h.same.trans (sameClasses_bump _), h.live, h.tables, fun d hd hm hn => ?_,
      fun hmeta d hd hm hdl hn => ?_⟩
  · obtain ⟨hisa, harc, hinit, halloc⟩ := h.flags d hd hm hn
    exact ⟨hisa, harc, hinit, halloc⟩
  · exact (h.right hmeta d hd hm hdl hn).unaffected
      (Unaffected.of_same (sameClasses_bump _) (SameFlags.at ⟨rfl, rfl⟩ rfl) fun _ _ => rfl)

/-- Moving a class changes neither flags nor tables, and the links of the moved classes only. -/
theorem unaffected_moveClass (hw : WellFormed σ) (hm : σ.Movable cls newSuper) {d : Class}
    (hdm : σ.isMeta d = false) (hoff : ¬ (σ.moveClass cls newSuper).Under (σ.Orphans cls) d)
    (hoffm : ¬ (σ.moveClass cls newSuper).Under (σ.Orphans cls) (σ.isa d)) :
    Unaffected σ (σ.moveClass cls newSuper) d := by
  have hcm := hm.2.2.1
  obtain ⟨hmm, -⟩ := hw.isa_meta cls hm.1 hcm
  have hkept : ∀ c, ¬ (σ.moveClass cls newSuper).Under (σ.Orphans cls) c →
      SameAbove σ (σ.moveClass cls newSuper) c := by
    intro c hc x hx
    have hx' := below_moveClass hcm hc hx
    have hxo : ¬ σ.Orphans cls x := fun ho => hc ⟨x, ho, hx'⟩
    obtain ⟨lists, heq⟩ := moveClass_eq newSuper hcm
    rw [heq]
    refine ⟨?_, rfl⟩
    dsimp only
    rw [Function.update_of_ne fun h => hxo (.inr h), Function.update_of_ne fun h => hxo (.inl h)]
  have hisa : ∀ x, Below σ.superClass d x → (σ.moveClass cls newSuper).isa x = σ.isa x := by
    intro x hx
    have hxm := hw.toClassPairs.below_class hdm hx
    obtain ⟨lists, heq⟩ := moveClass_eq newSuper hcm
    rw [heq]
    refine Function.update_of_ne ?_ ..
    rintro rfl
    rw [hmm] at hxm
    cases hxm
  obtain ⟨lists, heq⟩ := moveClass_eq newSuper hcm
  have hflags : SameFlags σ (σ.moveClass cls newSuper) := by
    rw [heq]
    exact ⟨rfl, rfl⟩
  exact ⟨hflags.at (hisa d (Below.refl d)), by rw [heq], hkept d hoff, hkept _ hoffm, hisa⟩

theorem FlagsRight.moveClass (h : FlagsRight T σ) (hw : WellFormed σ) (hm : σ.Movable cls newSuper) :
    FlagsOff T (σ.Orphans cls) (σ.moveClass cls newSuper) := by
  obtain ⟨lists, heq⟩ := moveClass_eq newSuper hm.2.2.1
  have hcount : (σ.moveClass cls newSuper).classCount = σ.classCount := by rw [heq]
  have hmeta : (σ.moveClass cls newSuper).isMeta = σ.isMeta := by rw [heq]
  have hdtable : (σ.moveClass cls newSuper).dtable = σ.dtable := by rw [heq]
  have hisa : ∀ c, c ≠ σ.isa cls → (σ.moveClass cls newSuper).isa c = σ.isa c := by
    intro c hc
    rw [heq]
    exact Function.update_of_ne hc ..
  intro d hd hdm hlive hoff hoffm
  rw [hcount] at hd
  rw [hmeta] at hdm
  rw [hdtable] at hlive
  rw [hisa d fun h => hoff ⟨d, .inr h, Below.refl d⟩] at hoffm
  exact (h d hd hdm hlive).unaffected (unaffected_moveClass hw hm hdm hoff hoffm)

/-- The links and tables when the two trees are rebased. -/
theorem SetSuperclass.links (hw : WellFormed σ) (hm : σ.Movable cls newSuper)
    (hs : SetSuperclass T σ cls newSuper σ₂ σ') :
    σ₂.superClass cls = some newSuper ∧ σ₂.isa cls = σ.isa cls ∧ σ₂.classCount = σ.classCount ∧
      σ₂.isMeta = σ.isMeta := by
  have hsame := hs.grown.toSameClasses
  have hncls := hw.toClassPairs.ne_isa hm.1 hm.2.2.1
  obtain ⟨lists, heq⟩ := moveClass_eq newSuper hm.2.2.1
  refine ⟨?_, ?_, ?_, ?_⟩
  · rw [hsame.superClass, heq]
    dsimp only
    rw [Function.update_of_ne hncls, Function.update_self]
  · rw [hsame.isa, heq]
    exact Function.update_of_ne hncls ..
  · rw [hsame.classCount, heq]
  · rw [hsame.isMeta, heq]

/-- The tables are rebased below the metaclass first. -/
theorem SetSuperclass.eq (hne : σ.superClass cls ≠ some newSuper) (hlive : σ.dtable cls ≠ none)
    (hcm : σ.isMeta cls = false) (hcall : σ.setSuperclass T cls newSuper = some σ')
    (hs : SetSuperclass T σ cls newSuper σ₂ σ') :
    σ' = (σ₂.updateDtableForNewSuperclass T (σ₂.isa cls) (σ₂.isa newSuper)).updateDtableForNewSuperclass T cls
      newSuper := by
  obtain ⟨lists, heq⟩ := moveClass_eq newSuper hcm
  have hcount : (σ.moveClass cls newSuper).classCount = σ.classCount := by rw [heq]
  have hdtable : (σ.moveClass cls newSuper).dtable = σ.dtable := by rw [heq]
  rw [Runtime.setSuperclass, if_neg hne] at hcall
  dsimp only at hcall
  rw [if_neg (by simpa [classHasDtable, hdtable, Option.isNone_iff_eq_none] using hlive), hcount,
    hs.initialised] at hcall
  exact (Option.some.inj hcall).symm

/-- No metaclass of a class is below a class that has a superclass. -/
theorem meta_not_below (hf : Forest σ) (hp : ClassPairs σ) (hcm : σ.isMeta cls = false)
    (hsup : σ.superClass cls ≠ none) {d : Class} (hd : d < σ.classCount) (hdm : σ.isMeta d = false) :
    ¬ Below σ.superClass (σ.isa d) cls := by
  intro h
  obtain ⟨b, hb, rfl | ⟨rfl, hroot⟩⟩ := below_isa hf hp hd hdm h
  · have hbm := (hp.isa_meta b (hf.lt_of_below hd hb) (hp.below_class hdm hb)).1
    rw [hcm] at hbm
    cases hbm
  · exact hsup hroot

/-- What is above a class that is not below `cls`, or above its metaclass, is not below the metaclass of `cls`. -/
theorem not_below_meta (hf : Forest σ) (hp : ClassPairs σ) (hc : cls < σ.classCount)
    (hcm : σ.isMeta cls = false) {d x : Class} (hd : d < σ.classCount) (hdm : σ.isMeta d = false)
    (hoff : ¬ Below σ.superClass d cls)
    (hx : Below σ.superClass d x ∨ Below σ.superClass (σ.isa d) x) : ¬ Below σ.superClass x (σ.isa cls) := by
  intro hxc
  have hmm := (hp.isa_meta cls hc hcm).1
  have hclass : ∀ b, Below σ.superClass d b → b ≠ σ.isa cls := by
    rintro b hb rfl
    rw [hp.below_class hdm hb] at hmm
    cases hmm
  rcases hx with hx | hx
  · exact hclass _ (hx.trans hxc) rfl
  · obtain ⟨b, hb, heq | ⟨heq, -⟩⟩ := below_isa hf hp hd hdm (hx.trans hxc)
    · obtain rfl := hp.isa_inj cls hc b (hf.lt_of_below hd hb) hcm (hp.below_class hdm hb) heq
      exact hoff hb
    · exact hclass b hb heq.symm

/-- When the new superclass has been initialised, the flags are right but for the moved classes. -/
theorem FlagsRight.initialised (h : FlagsRight T σ) (hw : WellFormed σ) (hm : σ.Movable cls newSuper)
    (hs : SetSuperclass T σ cls newSuper σ₂ σ') : FlagsOff T (σ.Orphans cls) σ₂ := by
  have hw₁ := Movable.wellFormedOff hw hm
  obtain ⟨lists, heq⟩ := moveClass_eq newSuper hm.2.2.1
  have hcount : (σ.moveClass cls newSuper).classCount = σ.classCount := by rw [heq]
  have hmeta : (σ.moveClass cls newSuper).isMeta = σ.isMeta := by rw [heq]
  have hmessage : (σ.moveClass cls newSuper).Messageable newSuper := by
    refine messageable_of_class hw₁.toForest hw₁.toClassPairs ?_ ?_
    · rw [hcount]
      exact hm.2.1
    · rw [hmeta]
      exact hm.2.2.2.1
  have hinit := hs.initialised
  rw [← hcount] at hinit
  exact flagsOff_sendInitialize _ _ newSuper σ₂ hw₁ hmessage (Movable.off hw hm)
    (Forest.depth_lt_fuel newSuper) (h.moveClass hw hm) hinit

/-- **`class_setSuperclass`** keeps all flags right: the classes whose tables change are checked again. -/
theorem FlagsRight.setSuperclass (h : FlagsRight T σ) (hw : WellFormed σ) (hm : σ.Movable cls newSuper)
    (hne : σ.superClass cls ≠ some newSuper) (hlive : σ.dtable cls ≠ none)
    (hcall : σ.setSuperclass T cls newSuper = some σ') (hs : SetSuperclass T σ cls newSuper σ₂ σ') :
    FlagsRight T σ' := by
  obtain ⟨hsup, hisa, hcount, hmeta⟩ := hs.links hw hm
  have hw₂ := hs.wellFormed
  have hc : cls < σ₂.classCount := by
    rw [hcount]
    exact hm.1
  have hcm : σ₂.isMeta cls = false := by
    rw [hmeta]
    exact hm.2.2.1
  have hlive₂ : σ₂.dtable cls ≠ none := by
    refine hs.grown.live_ne ?_
    obtain ⟨lists, heq⟩ := moveClass_eq newSuper hm.2.2.1
    rwa [heq]
  have hsupm : σ₂.superClass (σ₂.isa cls) = some (σ₂.isa newSuper) := by
    rw [hw₂.super_meta cls hc hcm, hsup, Option.elim_some]
  have hapart : ∀ d < σ₂.classCount, σ₂.isMeta d = false → ∀ x, Below σ₂.superClass (σ₂.isa d) x →
      ¬ Below σ₂.superClass x cls := fun d hd hdm x hx hxc =>
    meta_not_below hw₂.toForest hw₂.toClassPairs hcm (by simp [hsup]) hd hdm (hx.trans hxc)
  -- the metaclass and the classes below it first
  have hfirst := rechecked_update (T := T) hw₂ hsupm (hw₂.live_meta cls hc hcm hlive₂)
  set σ₃ := σ₂.updateDtableForNewSuperclass T (σ₂.isa cls) (σ₂.isa newSuper) with hσ₃
  have hw₃ : WellFormed σ₃ := hw₂.of_same hfirst.same hfirst.live
  have hsecond := rechecked_update (T := T) hw₃ (by rw [hfirst.same.superClass, hsup])
    ((not_congr (hfirst.live cls)).mpr hlive₂)
  rw [← hs.eq hne hlive hm.2.2.1 hcall, hfirst.same.superClass] at hsecond
  have hapart₃ : ∀ d < σ₃.classCount, σ₃.isMeta d = false → ∀ x, Below σ₃.superClass (σ₃.isa d) x →
      ¬ Below σ₂.superClass x cls := by
    rw [hfirst.same.classCount, hfirst.same.isMeta, hfirst.same.superClass, hfirst.same.isa]
    exact hapart
  intro d hd hdm hdlive
  rw [hsecond.same.classCount] at hd
  rw [hsecond.same.isMeta] at hdm
  rw [ne_eq, hsecond.live] at hdlive
  by_cases hb : Below σ₂.superClass d cls
  · exact hsecond.right hapart₃ d hd hdm hdlive hb
  · -- neither step changes anything for the class
    have hd₂ : d < σ₂.classCount := by rwa [← hfirst.same.classCount]
    have hdm₂ : σ₂.isMeta d = false := by rwa [← hfirst.same.isMeta]
    have hmetas := fun x => not_below_meta (x := x) hw₂.toForest hw₂.toClassPairs hc hcm hd₂ hdm₂ hb
    have hright : σ₂.FlagsAt T d := by
      refine h.initialised hw hm hs d hd₂ hdm₂ ((not_congr (hfirst.live d)).mp hdlive) ?_ ?_
      · rintro ⟨o, rfl | rfl, ho⟩
        · exact hb ho
        · exact hmetas d (.inl (Below.refl d)) (by rwa [hisa])
      · rintro ⟨o, rfl | rfl, ho⟩
        · exact hapart d hd₂ hdm₂ _ (Below.refl _) ho
        · exact hmetas _ (.inr (Below.refl _)) (by rwa [hisa])
    refine (hright.unaffected (hfirst.unaffected hd₂ hdm₂ (fun x hx => hmetas x (.inl hx))
      fun x hx => hmetas x (.inr hx))).unaffected ?_
    refine hsecond.unaffected hd hdm (fun x hx hxc => hb ?_) (hapart₃ d hd hdm)
    rw [hfirst.same.superClass] at hx
    exact hx.trans hxc

/-- Every call of `class_setSuperclass` keeps all flags right. -/
theorem FlagsRight.move (h : FlagsRight T σ) (hw : WellFormed σ) (hm : σ.Movable cls newSuper) :
    FlagsRight T (σ.next T (.setSuperclass cls newSuper)) := by
  by_cases hne : σ.superClass cls = some newSuper
  · rwa [next_setSuperclass_of_eq hne]
  by_cases hlive : σ.dtable cls = none
  · have hw' := hw.move (T := T) hm
    rw [next_setSuperclass_of_none hm.2.2.1 hne hlive] at hw' ⊢
    obtain ⟨lists, heq⟩ := moveClass_eq newSuper hm.2.2.1
    have hd : (σ.moveClass cls newSuper).dtable = σ.dtable := by rw [heq]
    -- no class with a table is below the moved ones
    have hoff : ∀ n, (σ.moveClass cls newSuper).dtable n ≠ none →
        ¬ (σ.moveClass cls newSuper).Under (σ.Orphans cls) n := by
      rintro n hn ⟨o, ho, hb⟩
      have holive := hw'.live_up.below hn hb
      rw [hd] at holive
      rcases ho with rfl | rfl
      · exact holive hlive
      · exact holive (hm.2.2.2.2.2 hlive)
    intro d hdc hdm hdlive
    exact h.moveClass hw hm d hdc hdm hdlive (hoff d hdlive) (hoff _ (hw'.live_meta d hdc hdm hdlive))
  · obtain ⟨σ₂, σ', hcall, hs⟩ := setSuperclass_spec (T := T) hw hm hne hlive
    have hnext : σ.next T (.setSuperclass cls newSuper) = σ' := by rw [next, perform, hcall, Option.getD_some]
    rw [hnext]
    exact h.setSuperclass hw hm hne hlive hcall hs

end Move

/-! ## Method lists -/

/-- A lookup that walks over no class whose entry is another one than before. -/
theorem ownerForMethod_kept {name : String} {R : MethodId → Class → Prop} (hf : Forest σ)
    (hsuper : σ'.superClass = σ.superClass)
    (hentry : ∀ n, σ'.entry (T.untyped name) n = σ.entry (T.untyped name) n ∨
      ∃ m, R m n ∧ σ'.entry (T.untyped name) n = some m)
    (hnew : ∀ m n, R m n → ∀ k, σ.entry (T.untyped name) k ≠ some m) : ∀ (fuel : ℕ) (cls : Class),
    depth σ.superClass (Finset.range σ.classCount) cls < fuel →
    (∀ n ∈ σ.ownerWalk T fuel cls name, ∀ m, ¬ R m n) →
    σ'.ownerForMethod T fuel cls name = σ.ownerForMethod T fuel cls name := by
  intro fuel
  induction fuel with
  | zero =>
    intro cls h
    omega
  | succ fuel ih =>
    intro cls hd hwalk
    rw [ownerWalk, List.forall_mem_cons] at hwalk
    obtain ⟨hcls, hwalk⟩ := hwalk
    have hkept : σ'.entry (T.untyped name) cls = σ.entry (T.untyped name) cls := by
      refine (hentry cls).resolve_right ?_
      rintro ⟨m, hm, -⟩
      exact hcls m hm
    rw [ownerForMethod_succ, ownerForMethod_succ, hkept, hsuper]
    cases hslot : σ.entry (T.untyped name) cls with
    | none => rfl
    | some slot =>
      cases hp : σ.superClass cls with
      | none => rfl
      | some sup =>
        rw [hp, hslot, Option.elim_some] at hwalk
        simp only [Option.bind_some, Option.elim_some]
        by_cases hsame : σ.entry (T.untyped name) sup = some slot
        · rw [if_pos ⟨Option.some_ne_none slot, hsame⟩] at hwalk
          have hlt := depth_lt hf.acyclic (hf.bounded cls sup hp).1 hp
          have hself : sup ∈ σ.ownerWalk T fuel sup name := by
            obtain ⟨fuel, rfl⟩ := Nat.exists_eq_succ_of_ne_zero (show fuel ≠ 0 by omega)
            exact List.mem_cons_self
          have hkept' : σ'.entry (T.untyped name) sup = some slot := by
            refine ((hentry sup).resolve_right ?_).trans hsame
            rintro ⟨m, hm, -⟩
            exact hwalk sup hself m hm
          rw [if_pos hsame, if_pos hkept', ih sup (by omega) hwalk]
        · have hdiffers : σ'.entry (T.untyped name) sup ≠ some slot := by
            rcases hentry sup with heq | ⟨m, hm, heq⟩
            · rwa [heq]
            · rw [heq, ← hslot]
              exact (hnew m sup hm cls).symm
          rw [if_neg hsame, if_neg hdiffers]

/-- Installing the method `m` of `cls` reaches none of the classes over which `ownerForMethod` walks for its name
when another initialised class is checked. -/
def Unseen (T : SelectorTable) (σ : Runtime) (cls : Class) (m : MethodId) : Prop :=
  ∀ d < σ.classCount, σ.isMeta d = false → σ.dtable d ≠ none → d ≠ cls →
    ∀ l ∈ σ.lookups T d, (σ.method m).name = l.2 →
      ∀ n ∈ σ.ownerWalk T (σ.classCount + 1) l.1 l.2, ¬ σ.ReachesClass T cls (σ.superDtable cls) m n

/-- A list of new methods can be added to a class: if the class has a table, the checks of other classes do not see
the methods. -/
def PushFlags (T : SelectorTable) (σ : Runtime) (cls : Class) (list : List Method) : Prop :=
  σ.dtable cls ≠ none → cls < σ.classCount ∧
    ∀ m ∈ List.range' σ.nextMethod list.length, (σ.pushed cls list).Unseen T cls m

/-- Neither links nor tables nor flags change. -/
theorem FlagsRight.of_eq (h : FlagsRight T σ) (hcount : σ'.classCount = σ.classCount)
    (hsuper : σ'.superClass = σ.superClass) (hisa : σ'.isa = σ.isa) (hmeta : σ'.isMeta = σ.isMeta)
    (hdtable : σ'.dtable = σ.dtable) (hflags : SameFlags σ σ') : FlagsRight T σ' := by
  intro d hd hm hlive
  rw [hcount] at hd
  rw [hmeta] at hm
  rw [hdtable] at hlive
  have habove : ∀ c, SameAbove σ σ' c := fun c x _ => ⟨by rw [hsuper], by rw [hdtable]⟩
  exact (h d hd hm hlive).unaffected
    ⟨hflags.at (by rw [hisa]), hcount, habove d, habove _, fun x _ => by rw [hisa]⟩

theorem FlagsRight.same (h : FlagsRight T σ) (hs : SameTables σ σ') (hflags : SameFlags σ σ') :
    FlagsRight T σ' :=
  h.of_eq hs.classCount hs.superClass hs.isa hs.isMeta hs.dtable hflags

/-- A method that was added to no list is in no untyped entry. -/
theorem UntypedAbove.ne_new (h : UntypedAbove T σ) (hw : WellFormed σ) {m : MethodId} (hm : σ.nextMethod ≤ m)
    (name : String) (k : Class) : σ.entry (T.untyped name) k ≠ some m := by
  intro hentry
  obtain ⟨t, ht, hm'⟩ := Option.bind_eq_some_iff.mp hentry
  obtain ⟨a, -, ha⟩ := h k t ht name m hm'
  exact absurd (hw.fresh a m ha) hm.not_gt

section Install

variable {τ : Runtime} {list : List Method}

/-- The flags of another class, when the list has been installed. -/
theorem FlagsAt.install (hw : WellFormed σ) (habove : UntypedAbove T σ) (hok : PushFlags T σ cls list)
    (hlive : σ.dtable cls ≠ none) (hτ : SameTables (σ.pushed cls list) τ) (hflags : SameFlags σ τ) {d : Class}
    (hd : d < σ.classCount) (hm : σ.isMeta d = false) (hdlive : σ.dtable d ≠ none) (hne : d ≠ cls)
    (h : (σ.pushed cls list).FlagsAt T d) :
    (installAll T cls (τ.superDtable cls) τ
      (τ.addedMethods T (List.range' σ.nextMethod list.length))).FlagsAt T d := by
  obtain ⟨-, hunseen⟩ := hok hlive
  have hwπ : WellFormed (σ.pushed cls list) := hw.pushed cls list
  have hliveτ : τ.dtable cls ≠ none := by
    rw [hτ.dtable]
    exact hlive
  obtain ⟨hs, hl, -⟩ := installAll_frame (T := T) (τ.superDtable cls)
    (τ.addedMethods T (List.range' σ.nextMethod list.length)) τ (hwπ.toForest.of_same hτ.toSameClasses) hliveτ
  have hflagsυ := hflags.trans (sameFlags_installAll (T := T) cls (τ.superDtable cls)
    (τ.addedMethods T (List.range' σ.nextMethod list.length)) τ)
  have hentryτ : τ.entry = (σ.pushed cls list).entry := by
    funext key c
    rw [entry, entry, hτ.dtable]
  have hsup : τ.superDtable cls = (σ.pushed cls list).superDtable cls := by
    rw [superDtable, superDtable, hτ.superClass, hτ.dtable]
  have hisa := hs.isa.trans hτ.isa
  refine h.congr (SameFlags.at hflagsυ (congrFun hisa d)) (fun o _ => congrFun hisa o) fun l hl => ?_
  rw [owner, owner, hs.classCount, hτ.classCount]
  refine ownerForMethod_kept (R := fun m n => m ∈ List.range' σ.nextMethod list.length ∧
      ((σ.pushed cls list).method m).name = l.2 ∧
      (σ.pushed cls list).ReachesClass T cls ((σ.pushed cls list).superDtable cls) m n)
    hwπ.toForest (hs.superClass.trans hτ.superClass) (fun n => ?_) ?_ _ _ (Forest.depth_lt_fuel l.1) ?_
  · have hnamed := installAll_named (T := T) (τ.superDtable cls) l.2 n
      (τ.addedMethods T (List.range' σ.nextMethod list.length)) τ
      (hwπ.toForest.of_same hτ.toSameClasses) hliveτ (nodup_collected τ _)
    rcases hnamed with ⟨m, hm, hname, hr, hentry⟩ | ⟨-, hentry⟩
    · obtain ⟨e, he, rfl⟩ := List.mem_map.mp hm
      refine .inr ⟨e.2, ⟨by simpa using mem_of_mem_collectMethods he, by rwa [hτ.method] at hname, ?_⟩, hentry⟩
      rw [hsup] at hr
      exact (reaches_congr hτ.toSameClasses (fun k => by rw [hτ.dtable]) (by rw [hentryτ])).mp hr
    · exact .inl (by rw [hentry, hentryτ])
  · rintro m n ⟨hm, -, -⟩ k
    exact habove.ne_new hw (List.mem_range'_1.mp hm).1 l.2 k
  · rintro n hn m ⟨hm', hname, hr⟩
    exact hunseen m hm' d hd hm hdlive hne l hl hname n hn hr

/-- **Adding a list of methods** keeps all flags right, if the checks of other classes do not see the methods. -/
theorem FlagsRight.add (h : FlagsRight T σ) (hw : WellFormed σ) (habove : UntypedAbove T σ)
    (hok : PushFlags T σ cls list) (hτ : SameTables (σ.pushed cls list) τ) (hflags : SameFlags σ τ) :
    FlagsRight T (if τ.classHasDtable cls then
      τ.addMethodListToClass T cls (List.range' σ.nextMethod list.length) else τ) := by
  have hπ : FlagsRight T (σ.pushed cls list) := h.of_eq rfl rfl rfl rfl rfl ⟨rfl, rfl⟩
  split
  · next hhas =>
    have hliveτ : τ.dtable cls ≠ none := by simpa [classHasDtable, Option.isSome_iff_ne_none] using hhas
    have hlive : σ.dtable cls ≠ none := by rwa [hτ.dtable] at hliveτ
    have hwτ : WellFormed τ := (hw.pushed cls list).of_sameTables hτ
    obtain ⟨hs, hl, -⟩ := installAll_frame (T := T) (τ.superDtable cls)
      (τ.addedMethods T (List.range' σ.nextMethod list.length)) τ hwτ.toForest hliveτ
    rw [addMethodListToClass_check hwτ.live_up hliveτ]
    have hright := fun d => FlagsAt.install (d := d) hw habove hok hlive hτ hflags
    set υ := installAll T cls (τ.superDtable cls) τ (τ.addedMethods T (List.range' σ.nextMethod list.length))
    have hcheck := sameTables_checkARCAccessors (T := T) υ cls
    have hwυ : WellFormed υ := hwτ.of_same hs hl
    intro d hd hm hdlive
    have hdυ : d < υ.classCount := hcheck.classCount ▸ hd
    have hmυ : υ.isMeta d = false := hcheck.isMeta ▸ hm
    by_cases hdc : d = cls
    · subst hdc
      exact flagsAt_check hmυ (hwυ.toClassPairs.ne_isa hdυ hmυ)
    · have hdσ : d < σ.classCount := (hs.classCount.trans hτ.classCount) ▸ hdυ
      have hmσ : σ.isMeta d = false := (hs.isMeta.trans hτ.isMeta) ▸ hmυ
      have hcυ : cls < υ.classCount := (hs.classCount.trans hτ.classCount).symm ▸ (hok hlive).1
      have hdσlive : σ.dtable d ≠ none := by
        have hdτ : τ.dtable d ≠ none := (not_congr (hl d)).mp (by rwa [← hcheck.dtable])
        rwa [hτ.dtable] at hdτ
      refine (hright d hdσ hmσ hdσlive hdc (hπ d hdσ hmσ hdσlive)).unaffected ?_
      exact Unaffected.of_same hcheck.toSameClasses (sameFlagsAt_check hwυ.toClassPairs hcυ hdυ hmυ hdc)
        fun x _ => by rw [hcheck.dtable]
  · exact hπ.same hτ hflags

end Install

/-! ## Runs -/

/-- The calls after which all flags are still right: method lists go to classes without tables, or the checks of
other classes do not see them. -/
def OpFlags (T : SelectorTable) : Runtime → Op → Prop :=
  OpOk T Messageable (fun _ _ => True) (PushFlags T) (fun _ _ _ => False) Movable

theorem OpFlags.allowed {op : Op} (h : OpFlags T σ op) : OpAllowed T σ op := by
  cases op with
  | sendInitialize cls => exact h
  | addMethod cls name imp types => exact fun _ _ _ => trivial
  | replaceMethod cls name imp types => exact fun _ _ _ => trivial
  | setImplementation m imp => trivial
  | exchangeImplementations m₁ m₂ => trivial
  | registerMethods cls list => trivial
  | permissiveReload old methods => trivial
  | safeReload canonical instanceMethods classMethods =>
    exact fun _ _ _ _ => ⟨fun _ => trivial, fun _ => trivial⟩
  | setSuperclass cls newSuper => exact h

/-- The flags are right, and so is what this rests on. -/
structure FlagsAgree (T : SelectorTable) (σ : Runtime) : Prop where
  wellFormed : WellFormed σ
  above : UntypedAbove T σ
  right : FlagsRight T σ

section Next

variable {name : String} {imp : Imp} {types : Option String} {list : List Method}

theorem FlagsAgree.addMethod (h : FlagsAgree T σ) (hok : OpFlags T σ (.addMethod cls name imp types)) :
    FlagsRight T (σ.addMethod T cls name imp types).1 := by
  cases types with
  | none => exact h.right
  | some types =>
    rw [Runtime.addMethod]
    split
    · exact h.right
    · next hnew =>
      have hfirst : σ.firstNamed cls name = none := by
        rw [firstNamed, List.find?_eq_none]
        simpa using hnew
      exact h.right.add h.wellFormed h.above (hok types rfl hfirst) (sameTables_updateCxxMethodCache ..)
        (sameFlags_updateCxxMethodCache ..)

theorem FlagsRight.setImp (h : FlagsRight T σ) (m : MethodId) (imp : Imp) : FlagsRight T (σ.setImp m imp) :=
  h.of_eq rfl rfl rfl rfl rfl ⟨rfl, rfl⟩

theorem FlagsAgree.commitPlan (h : FlagsAgree T σ) {plan : List ReloadEntry}
    (hok : additions plan ≠ [] → PushFlags T σ cls (additions plan)) :
    FlagsRight T (σ.commitPlan T cls plan) := by
  have himps : ∀ (plan : List ReloadEntry) (σ : Runtime), FlagsRight T σ →
      FlagsRight T (plan.foldl (fun σ e => e.target.elim σ fun m => σ.setImp m e.method.imp) σ) := by
    intro plan
    induction plan with
    | nil => exact fun _ h => h
    | cons e plan ih =>
      intro σ h
      rw [List.foldl_cons]
      refine ih _ ?_
      cases e.target with
      | none => exact h
      | some m => exact h.setImp m _
  rw [Runtime.commitPlan]
  refine himps plan _ ?_
  split
  · exact h.right
  · next hne => exact h.right.add h.wellFormed h.above (hok hne) (SameTables.refl _) ⟨rfl, rfl⟩

/-- **One call.** -/
theorem FlagsAgree.next (h : FlagsAgree T σ) {op : Op} (hok : OpFlags T σ op) :
    FlagsAgree T (σ.next T op) := by
  obtain ⟨hw, habove⟩ := untypedAbove_rules.next ⟨h.wellFormed, h.above⟩ hok.allowed
  refine ⟨hw, habove, ?_⟩
  cases op with
  | sendInitialize cls =>
    obtain ⟨σ', hσ', -, -⟩ := sendInitialize_spec (T := T) (O := fun _ => False) (σ.classCount + 1) σ cls
      h.wellFormed hok.1 (fun _ _ => ⟨not_under_false _, not_under_false _⟩) (Forest.depth_lt_fuel cls)
    have hnext : σ.next T (.sendInitialize cls) = σ' := by rw [Runtime.next, perform, hσ', Option.getD_some]
    have hoff := flagsOff_sendInitialize (σ.classCount + 1) σ cls σ' h.wellFormed hok.1
      (fun _ _ => ⟨not_under_false _, not_under_false _⟩) (Forest.depth_lt_fuel cls)
      (fun d hd hm hlive _ _ => h.right d hd hm hlive) hσ'
    rw [hnext]
    exact fun d hd hm hlive => hoff d hd hm hlive (not_under_false d) (not_under_false _)
  | addMethod cls name imp types => exact h.addMethod hok
  | replaceMethod cls name imp types =>
    show FlagsRight T (σ.replaceMethod T cls name imp types).1
    rw [Runtime.replaceMethod]
    split
    · exact h.addMethod hok
    · exact (h.right.setImp _ imp).same (sameTables_updateCxxMethodCache ..)
          (sameFlags_updateCxxMethodCache ..)
  | setImplementation m imp =>
    exact (h.right.setImp m imp).same (sameTables_refreshCxxMethodCaches ..)
        (sameFlags_refreshCxxMethodCaches ..)
  | exchangeImplementations m₁ m₂ =>
    exact ((h.right.setImp m₁ _).setImp m₂ _).same
      ((sameTables_refreshCxxMethodCaches ..).trans (sameTables_refreshCxxMethodCaches ..))
      ((sameFlags_refreshCxxMethodCaches ..).trans (sameFlags_refreshCxxMethodCaches ..))
  | registerMethods cls list =>
    exact h.right.add h.wellFormed h.above hok (SameTables.refl _) ⟨rfl, rfl⟩
  | permissiveReload old methods => exact hok.elim
  | safeReload canonical instanceMethods classMethods =>
    show FlagsRight T (σ.safeReload T canonical instanceMethods classMethods)
    rw [OpFlags, OpOk] at hok
    rw [Runtime.safeReload]
    split
    · next instancePlan classPlan hi hc =>
      obtain ⟨hok, hok'⟩ := hok _ hi _ hc
      have hrest : WellFormed (σ.commitPlan T canonical instancePlan) ∧
          UntypedAbove T (σ.commitPlan T canonical instancePlan) :=
        untypedAbove_rules.commitPlan ⟨h.wellFormed, h.above⟩ fun _ => trivial
      have hmid : FlagsAgree T (σ.commitPlan T canonical instancePlan) :=
        ⟨hrest.1, hrest.2, h.commitPlan hok⟩
      exact (hmid.commitPlan hok').same
        ((sameTables_refreshReloadCxxCache ..).trans (sameTables_refreshReloadCxxCache ..)) ⟨rfl, rfl⟩
    · exact h.right
  | setSuperclass cls newSuper => exact h.right.move h.wellFormed hok

end Next

theorem Loaded.flagsAgree (h : Loaded σ) : FlagsAgree T σ where
  wellFormed := h.wellFormed
  above n t ht := by
    rw [h.no_dtable n] at ht
    cases ht
  right cls _ _ hlive := absurd (h.no_dtable cls) hlive

theorem below_of_mem_ownerWalk {name : String} : ∀ (fuel : ℕ) (c n : Class),
    n ∈ σ.ownerWalk T fuel c name → Below σ.superClass c n := by
  intro fuel
  induction fuel with
  | zero =>
    intro c n h
    cases h
  | succ fuel ih =>
    intro c n h
    rw [ownerWalk] at h
    rcases List.mem_cons.mp h with rfl | h
    · exact Below.refl n
    · cases hp : σ.superClass c with
      | none => simp [hp] at h
      | some sup =>
        rw [hp, Option.elim_some] at h
        split at h
        · exact (Below.of_parent hp).trans (ih sup n h)
        · cases h

/-- A class that neither another initialised class nor the metaclass of one inherits from can get any methods. -/
theorem unseen_of_leaf {m : MethodId}
    (hleaf : ∀ d < σ.classCount, σ.isMeta d = false → σ.dtable d ≠ none → d ≠ cls →
      ¬ Below σ.superClass d cls ∧ ¬ Below σ.superClass (σ.isa d) cls) : σ.Unseen T cls m := by
  intro d hd hm hlive hne l hl _ n hn hr
  obtain ⟨hclass, hmeta⟩ := hleaf d hd hm hlive hne
  have hcls := (below_of_mem_ownerWalk _ _ _ hn).trans hr.within.1
  rcases below_lookups hl with h | h
  · exact hclass (h.trans hcls)
  · exact hmeta (h.trans hcls)

/-- A subclass that gets a method of its own after it was initialised. -/
def lateRetain (cls : Class) : List Op := [.sendInitialize 2, .addMethod cls "retain" 10 (some "v")]

end Runtime

end Libobjc2.Dispatch
