import Libobjc2.Dispatch.Install

/-!
# Well-formed hierarchies

The invariant of the class tables that holds whatever a program does to its methods, and what
`objc_send_initialize` does in such a state.

Results:
* `sendInitialize_spec`: initialising a class does not abort, leaves existing tables alone and
  gives every class that it reaches a table filled from the one of its superclass.
* `WellFormed.of_same`, `WellFormed.of_sameTables`: what changes neither the classes nor which of them
  have tables keeps the invariant.
-/

namespace Libobjc2.Dispatch

open Libobjc2.Common

namespace Runtime

variable {T : SelectorTable}

/-! ## The invariant -/

/-- Classes and metaclasses in pairs, as `objc_resolve_class` links them (class_table.c, lines
    360–406). The `isa` of a metaclass is not part of it: `class_setSuperclass` leaves it as it is
    for the metaclasses of subclasses. -/
structure ClassPairs (σ : Runtime) : Prop where
  isa_meta : ∀ c < σ.classCount, σ.isMeta c = false → σ.isMeta (σ.isa c) = true ∧ σ.isa c < σ.classCount
  isa_inj : ∀ c < σ.classCount, ∀ c' < σ.classCount, σ.isMeta c = false → σ.isMeta c' = false →
    σ.isa c = σ.isa c' → c = c'
  super_class : ∀ c p, σ.superClass c = some p → σ.isMeta c = false → σ.isMeta p = false
  super_meta : ∀ c < σ.classCount, σ.isMeta c = false →
    σ.superClass (σ.isa c) = some ((σ.superClass c).elim c σ.isa)

/-- Superclasses are initialised before their subclasses, except for the classes in `O`; metaclasses
    with their classes; and no method is in two lists or twice in one. -/
structure WellFormedOff (O : Class → Prop) (σ : Runtime) : Prop extends Forest σ, ClassPairs σ where
  live_up_off : ∀ n p, ¬ O n → σ.dtable n ≠ none → σ.superClass n = some p → σ.dtable p ≠ none
  live_meta : ∀ c < σ.classCount, σ.isMeta c = false → σ.dtable c ≠ none → σ.dtable (σ.isa c) ≠ none
  fresh : ∀ c, ∀ m ∈ σ.methodsOf c, m < σ.nextMethod
  nodup_methods : ∀ c, (σ.methodsOf c).Nodup
  owned_once : ∀ c c' m, m ∈ σ.methodsOf c → m ∈ σ.methodsOf c' → c = c'

/-- The invariant between calls. There are exceptions only while `class_setSuperclass` moves a
    class. -/
def WellFormed (σ : Runtime) : Prop := WellFormedOff (fun _ => False) σ

theorem WellFormed.live_up {σ : Runtime} (hw : WellFormed σ) :
    LiveUp σ.superClass fun c => σ.dtable c ≠ none :=
  fun n p hn hp => hw.live_up_off n p not_false hn hp

theorem ClassPairs.of_same {σ σ' : Runtime} (hp : ClassPairs σ) (h : SameClasses σ σ') : ClassPairs σ' := by
  constructor
  · rw [h.classCount, h.isMeta, h.isa]; exact hp.isa_meta
  · rw [h.classCount, h.isMeta, h.isa]; exact hp.isa_inj
  · rw [h.isMeta, h.superClass]; exact hp.super_class
  · rw [h.classCount, h.isMeta, h.isa, h.superClass]; exact hp.super_meta

/-- The parts of the invariant that tables do not occur in. -/
theorem WellFormedOff.of_live {O O' : Class → Prop} {σ σ' : Runtime} (hw : WellFormedOff O σ)
    (h : SameClasses σ σ')
    (hup : ∀ n p, ¬ O' n → σ'.dtable n ≠ none → σ.superClass n = some p → σ'.dtable p ≠ none)
    (hmeta : ∀ c < σ.classCount, σ.isMeta c = false → σ'.dtable c ≠ none → σ'.dtable (σ.isa c) ≠ none) :
    WellFormedOff O' σ' where
  toForest := hw.toForest.of_same h
  toClassPairs := hw.toClassPairs.of_same h
  live_up_off := by rw [h.superClass]; exact hup
  live_meta := by rw [h.classCount, h.isMeta, h.isa]; exact hmeta
  fresh := by rw [h.methodsOf, h.nextMethod]; exact hw.fresh
  nodup_methods := by rw [h.methodsOf]; exact hw.nodup_methods
  owned_once := by rw [h.methodsOf]; exact hw.owned_once

theorem WellFormedOff.of_same {O : Class → Prop} {σ σ' : Runtime} (hw : WellFormedOff O σ)
    (h : SameClasses σ σ') (hl : SameLive σ σ') : WellFormedOff O σ' := by
  refine hw.of_live h (fun n p ho hn hp => ?_) fun c hc hm hn => ?_
  · exact (not_congr (hl p)).mpr (hw.live_up_off n p ho ((not_congr (hl n)).mp hn) hp)
  · exact (not_congr (hl _)).mpr (hw.live_meta c hc hm ((not_congr (hl c)).mp hn))

theorem WellFormed.of_same {σ σ' : Runtime} (hw : WellFormed σ) (h : SameClasses σ σ') (hl : SameLive σ σ') :
    WellFormed σ' := WellFormedOff.of_same hw h hl

theorem WellFormed.of_sameTables {σ σ' : Runtime} (hw : WellFormed σ) (h : SameTables σ σ') : WellFormed σ' :=
  hw.of_same h.toSameClasses fun n => by rw [h.dtable]

/-- A class is one of the exceptions, or below one. -/
def Under (σ : Runtime) (O : Class → Prop) (n : Class) : Prop := ∃ o, O o ∧ Below σ.superClass n o

theorem not_under_false {σ : Runtime} (n : Class) : ¬ σ.Under (fun _ => False) n := fun ⟨_, h, _⟩ => h

theorem Under.down {σ : Runtime} {O : Class → Prop} {n p : Class} (h : σ.Under O p)
    (hp : Below σ.superClass n p) : σ.Under O n :=
  h.imp fun _ ⟨ho, hb⟩ => ⟨ho, hp.trans hb⟩

theorem Under.of_same {σ σ' : Runtime} (h : SameClasses σ σ') (O : Class → Prop) :
    σ'.Under O = σ.Under O := by
  funext n
  rw [Under, Under, h.superClass]

/-- Away from the exceptions, what is above a live class is live. -/
theorem WellFormedOff.live_above {O : Class → Prop} {σ : Runtime} (hw : WellFormedOff O σ) {n a : Class}
    (hn : σ.dtable n ≠ none) (hoff : ¬ σ.Under O n) (h : Below σ.superClass n a) : σ.dtable a ≠ none := by
  induction h with
  | refl => exact hn
  | tail hnb hba ih => exact hw.live_up_off _ _ (fun ho => hoff ⟨_, ho, hnb⟩) ih hba

/-- The ancestors of a class that is no metaclass are no metaclasses. -/
theorem ClassPairs.below_class {σ : Runtime} (hp : ClassPairs σ) {c a : Class} (hc : σ.isMeta c = false)
    (h : Below σ.superClass c a) : σ.isMeta a = false := by
  induction h with
  | refl => exact hc
  | tail _ hba ih => exact hp.super_class _ _ hba ih

theorem Forest.lt_of_below {σ : Runtime} (hf : Forest σ) {c a : Class} (hc : c < σ.classCount)
    (h : Below σ.superClass c a) : a < σ.classCount := by
  induction h with
  | refl => exact hc
  | tail _ hba _ => exact Finset.mem_range.mp (hf.bounded _ _ hba).2

/-! ## The superclasses of a class -/

def ancestorsFuel (σ : Runtime) : ℕ → Class → List Class
  | 0, _ => []
  | fuel + 1, cls => cls :: (σ.superClass cls).elim [] (σ.ancestorsFuel fuel)

/-- A class, its superclass, and so on up to the root. -/
def ancestors (σ : Runtime) (cls : Class) : List Class := σ.ancestorsFuel (σ.classCount + 1) cls

theorem mem_ancestors {σ : Runtime} (hf : Forest σ) {cls a : Class} :
    a ∈ σ.ancestors cls ↔ Below σ.superClass cls a := by
  have key : ∀ fuel cls, depth σ.superClass (Finset.range σ.classCount) cls < fuel →
      (a ∈ σ.ancestorsFuel fuel cls ↔ Below σ.superClass cls a) := by
    intro fuel
    induction fuel with
    | zero => intro cls h; omega
    | succ fuel ih =>
      intro cls hd
      rw [ancestorsFuel, List.mem_cons]
      constructor
      · rintro (rfl | h)
        · exact Below.refl _
        · cases hp : σ.superClass cls with
          | none => simp [hp] at h
          | some p =>
            have := depth_lt hf.acyclic (hf.bounded cls p hp).1 hp
            rw [hp] at h
            exact (Below.of_parent hp).trans ((ih p (by omega)).mp h)
      · intro h
        refine h.cases.imp Eq.symm fun ⟨p, hp, hpa⟩ => ?_
        have := depth_lt hf.acyclic (hf.bounded cls p hp).1 hp
        rw [hp]
        exact (ih p (by omega)).mpr hpa
  exact key _ cls (Forest.depth_lt_fuel cls)

/-- The `isa` of a metaclass is the metaclass of its root class. -/
def RootMeta (σ : Runtime) (cls : Class) : Prop :=
  σ.isMeta cls = true → ∃ r ∈ σ.ancestors cls, σ.superClass r = none ∧ σ.isMeta r = false ∧
  σ.isa cls = σ.isa r

instance (σ : Runtime) (cls : Class) : Decidable (σ.RootMeta cls) :=
  inferInstanceAs (Decidable (_ → _))

/-- A class that can be sent a message. Among the classes from `cls` up, the `isa` of a metaclass is
    the metaclass of its root class. -/
def Messageable (σ : Runtime) (cls : Class) : Prop :=
  cls < σ.classCount ∧ ∀ a ∈ σ.ancestors cls, σ.RootMeta a

instance (σ : Runtime) (cls : Class) : Decidable (σ.Messageable cls) :=
  inferInstanceAs (Decidable (_ ∧ _))

/-- The links that `objc_resolve_class` gives to metaclasses (class_table.c, lines 360–395), for all of
    them. They stay as they are until a class gets a new superclass. -/
def LinkedMetas (σ : Runtime) : Prop := ∀ cls < σ.classCount, σ.RootMeta cls

theorem messageable_of_linked {σ : Runtime} (hf : Forest σ) (h : LinkedMetas σ) {cls : Class}
    (hc : cls < σ.classCount) : σ.Messageable cls :=
  ⟨hc, fun a ha => h a (hf.lt_of_below hc ((mem_ancestors hf).mp ha))⟩

theorem messageable_of_class {σ : Runtime} (hf : Forest σ) (hp : ClassPairs σ) {cls : Class}
    (hc : cls < σ.classCount) (hm : σ.isMeta cls = false) : σ.Messageable cls := by
  refine ⟨hc, fun a ha hma => ?_⟩
  rw [hp.below_class hm ((mem_ancestors hf).mp ha)] at hma
  cases hma

theorem Messageable.super {σ : Runtime} (hf : Forest σ) {cls p : Class} (h : σ.Messageable cls)
    (hp : σ.superClass cls = some p) : σ.Messageable p :=
  ⟨Finset.mem_range.mp (hf.bounded cls p hp).2, fun a ha =>
    h.2 a ((mem_ancestors hf).mpr ((Below.of_parent hp).trans ((mem_ancestors hf).mp ha)))⟩

/-! ## Initialising classes -/

/-- Classes have got tables: those that had one keep it, the others have theirs filled from the
    superclass. Classes under the exceptions keep only having a table or not. -/
structure GrowsOff (T : SelectorTable) (O : Class → Prop) (σ σ' : Runtime) : Prop
    extends SameClasses σ σ' where
  kept_off : ∀ n t, ¬ σ.Under O n → σ.dtable n = some t → σ'.dtable n = some t
  under : ∀ n, σ.Under O n → (σ'.dtable n = none ↔ σ.dtable n = none)
  created_off : ∀ n t, ¬ σ.Under O n → σ.dtable n = none → σ'.dtable n = some t →
    t = fill T σ.method ((σ.superClass n).bind σ'.dtable) (σ.methodsOf n)
  version : σ.cacheVersion ≤ σ'.cacheVersion

def Grows (T : SelectorTable) (σ σ' : Runtime) : Prop := GrowsOff T (fun _ => False) σ σ'

theorem Grows.kept {σ σ' : Runtime} (h : Grows T σ σ') (n : Class) (t : Dtable) (ht : σ.dtable n = some t) :
    σ'.dtable n = some t := h.kept_off n t (not_under_false n) ht

theorem Grows.created {σ σ' : Runtime} (h : Grows T σ σ') (n : Class) (t : Dtable) (hn : σ.dtable n = none)
    (ht : σ'.dtable n = some t) : t = fill T σ.method ((σ.superClass n).bind σ'.dtable) (σ.methodsOf n) :=
  h.created_off n t (not_under_false n) hn ht

section Off

variable {O : Class → Prop}

theorem GrowsOff.refl (σ : Runtime) : GrowsOff T O σ σ :=
  ⟨SameClasses.refl σ, fun _ _ _ h => h, fun _ _ => Iff.rfl, fun _ _ _ h h' => by simp [h] at h', le_rfl⟩

theorem GrowsOff.live_eq {σ σ' : Runtime} (h : GrowsOff T O σ σ') {n : Class} (hoff : ¬ σ.Under O n)
    (hn : σ.dtable n ≠ none) : σ'.dtable n = σ.dtable n := by
  obtain ⟨t, ht⟩ := Option.ne_none_iff_exists'.mp hn
  rw [h.kept_off n t hoff ht, ht]

theorem GrowsOff.live_ne {σ σ' : Runtime} (h : GrowsOff T O σ σ') {n : Class} (hn : σ.dtable n ≠ none) :
    σ'.dtable n ≠ none := by
  by_cases hu : σ.Under O n
  · exact (not_congr (h.under n hu)).mpr hn
  · rwa [h.live_eq hu hn]

/-- The superclass of a class with a table keeps its own. -/
theorem GrowsOff.bind_super {σ σ' : Runtime} (hw : WellFormedOff O σ) (h : GrowsOff T O σ σ') {n : Class}
    (hoff : ¬ σ.Under O n) (hn : σ.dtable n ≠ none) :
    (σ.superClass n).bind σ'.dtable = (σ.superClass n).bind σ.dtable := by
  cases hp : σ.superClass n with
  | none => rfl
  | some p =>
    have hpn := Below.of_parent hp
    rw [Option.bind_some, Option.bind_some]
    exact h.live_eq (fun hu => hoff (hu.down hpn)) (hw.live_above hn hoff hpn)

theorem GrowsOff.trans {σ τ υ : Runtime} (hw : WellFormedOff O τ) (h : GrowsOff T O σ τ)
    (h' : GrowsOff T O τ υ) : GrowsOff T O σ υ := by
  have hu := Under.of_same h.toSameClasses O
  refine ⟨h.toSameClasses.trans h'.toSameClasses, fun n t hoff ht => ?_, fun n hn => ?_, ?_,
    h.version.trans h'.version⟩
  · exact h'.kept_off n t (by rwa [hu]) (h.kept_off n t hoff ht)
  · exact (h'.under n (by rwa [hu])).trans (h.under n hn)
  intro n t hoff hn ht
  cases hτ : τ.dtable n with
  | none =>
    have := h'.created_off n t (by rwa [hu]) hτ ht
    rwa [h.method, h.superClass, h.methodsOf] at this
  | some t' =>
    obtain rfl : t' = t := Option.some.inj ((h'.kept_off n t' (by rwa [hu]) hτ).symm.trans ht)
    have hbind := h'.bind_super hw (n := n) (by rwa [hu]) (by simp [hτ])
    rw [h.superClass] at hbind
    rw [hbind]
    exact h.created_off n t' hoff hn hτ

/-- A class that gets its table while its superclass, if any, has one. -/
theorem grows_add {σ σ' : Runtime} (cls : Class) (hac : Acyclic σ.superClass) (hsame : SameClasses σ σ')
    (hv : σ.cacheVersion ≤ σ'.cacheVersion) (hnone : σ.dtable cls = none) (hoff : ¬ σ.Under O cls)
    (hcls : σ'.dtable cls = some (fill T σ.method ((σ.superClass cls).bind σ.dtable) (σ.methodsOf cls)))
    (hother : ∀ n, n ≠ cls → ¬ σ.Under O n → σ'.dtable n = σ.dtable n)
    (hlive : ∀ n, n ≠ cls → (σ'.dtable n = none ↔ σ.dtable n = none)) :
    GrowsOff T O σ σ' := by
  have hne : ∀ n, σ.Under O n → n ≠ cls := by
    rintro n hn rfl
    exact hoff hn
  refine ⟨hsame, fun n t hn ht => ?_, fun n hn => hlive n (hne n hn), fun n t hn hnn ht => ?_, hv⟩
  · rw [hother n ?_ hn, ht]
    rintro rfl
    rw [hnone] at ht
    cases ht
  · by_cases hnc : n = cls
    · subst hnc
      rw [hcls] at ht
      obtain rfl := Option.some.inj ht
      congr 1
      cases hp : σ.superClass n with
      | none => rfl
      | some p =>
        have hpn := Below.of_parent hp
        rw [Option.bind_some, Option.bind_some, hother p ?_ fun hu => hoff (hu.down hpn)]
        rintro rfl
        exact hac p p hp (Below.refl p)
    · rw [hother n hnc hn, hnn] at ht
      cases ht

end Off

/-- The classes that `objc_send_initialize` may give tables to. -/
def reachedBy (σ : Runtime) (cls : Class) : List Class := σ.ancestors cls ++ (σ.ancestors cls).map σ.isa

/-- What is known after `objc_send_initialize` for `cls`. -/
structure Initialised (T : SelectorTable) (O : Class → Prop) (σ : Runtime) (cls : Class) (σ' : Runtime) : Prop
    extends GrowsOff T O σ σ' where
  live : σ'.dtable cls ≠ none
  live_isa : σ.isMeta cls = false → σ'.dtable (σ.isa cls) ≠ none
  reached : ∀ n, σ.dtable n = none → σ'.dtable n ≠ none → n ∈ σ.reachedBy cls

theorem ancestors_of_links {σ σ' : Runtime} (hc : σ'.classCount = σ.classCount)
    (hs : σ'.superClass = σ.superClass) : σ'.ancestors = σ.ancestors := by
  funext cls
  have key : ∀ fuel cls, σ'.ancestorsFuel fuel cls = σ.ancestorsFuel fuel cls := by
    intro fuel
    induction fuel with
    | zero => exact fun _ => rfl
    | succ fuel ih =>
      intro cls
      rw [ancestorsFuel, ancestorsFuel, hs, funext ih]
  rw [ancestors, ancestors, hc, key]

theorem ancestors_same {σ σ' : Runtime} (h : SameClasses σ σ') : σ'.ancestors = σ.ancestors :=
  ancestors_of_links h.classCount h.superClass

theorem LinkedMetas.of_links {σ σ' : Runtime} (hc : σ'.classCount = σ.classCount)
    (hs : σ'.superClass = σ.superClass) (hi : σ'.isa = σ.isa) (hm : σ'.isMeta = σ.isMeta)
    (hl : LinkedMetas σ) : LinkedMetas σ' := by
  intro cls hcls
  rw [RootMeta, ancestors_of_links hc hs, hm, hs, hi]
  exact hl cls (by rwa [← hc])

theorem LinkedMetas.of_same {σ σ' : Runtime} (h : SameClasses σ σ') (hl : LinkedMetas σ) : LinkedMetas σ' :=
  hl.of_links h.classCount h.superClass h.isa h.isMeta

theorem Messageable.of_same {σ σ' : Runtime} (h : SameClasses σ σ') {cls : Class} (hm : σ.Messageable cls) :
    σ'.Messageable cls := by
  refine ⟨by rw [h.classCount]; exact hm.1, fun a ha => ?_⟩
  rw [RootMeta, ancestors_same h, h.isMeta, h.superClass, h.isa]
  rw [ancestors_same h] at ha
  exact hm.2 a ha

section Pair

variable {O : Class → Prop} {σ : Runtime} {cls : Class}

/-- A class with a live superclass gets its table; of the other tables, only those under the
    exceptions may change. -/
theorem create_class (hw : WellFormedOff O σ) {X : Class → Prop} (hX : ∀ n, σ.Under O n → X n)
    (hnone : σ.dtable cls = none) (hsup : ∀ p, σ.superClass cls = some p → σ.dtable p ≠ none) :
    ∃ σ', σ.createDtableForClass T cls (fun _ => none) =
        some (σ', fill T σ.method ((σ.superClass cls).bind σ.dtable) (σ.methodsOf cls)) ∧
      SameClasses σ σ' ∧ SameLive σ σ' ∧ (∀ n, ¬ X n → σ'.dtable n = σ.dtable n) ∧
      σ.cacheVersion ≤ σ'.cacheVersion := by
  refine createDtableForClass_eq hw.toForest cls _ _ X hnone (fun e n he hlive hne => hX n ?_) ?_
  · by_contra hu
    exact hw.live_up_off e cls (fun ho => hu ⟨e, ho, hne⟩) hlive he hnone
  · cases hp : σ.superClass cls with
    | none => rfl
    | some p => exact .inl ⟨rfl, hsup p hp⟩

/-- When the superclasses are initialised, the `isa` of a metaclass is. -/
theorem isMeta_false_of_isa (hw : WellFormedOff O σ) (hm : σ.Messageable cls) (hoff : ¬ σ.Under O cls)
    (hsup : ∀ p, σ.superClass cls = some p → σ.dtable p ≠ none) (hmeta : σ.dtable (σ.isa cls) = none) :
    σ.isMeta cls = false := by
  by_contra hcm
  rw [Bool.not_eq_false] at hcm
  obtain ⟨r, hr, _, hrm, hrisa⟩ := hm.2 cls ((mem_ancestors hw.toForest).mpr (Below.refl cls)) hcm
  have hrb := (mem_ancestors hw.toForest).mp hr
  have hrne : r ≠ cls := by
    rintro rfl
    rw [hcm] at hrm
    cases hrm
  obtain ⟨p, hp, hpr⟩ := hrb.cases.resolve_left hrne.symm
  have hrlive : σ.dtable r ≠ none :=
    hw.live_above (hsup p hp) (fun hu => hoff (hu.down (Below.of_parent hp))) hpr
  exact hw.live_meta r (hw.toForest.lt_of_below hm.1 hrb) hrm hrlive (hrisa ▸ hmeta)

/-- `initializePair` when the metaclass has its table. -/
theorem initializePair_skipMeta (hw : WellFormedOff O σ) (hoff : ¬ σ.Under O cls)
    (hsup : ∀ p, σ.superClass cls = some p → σ.dtable p ≠ none) (hnone : σ.dtable cls = none)
    (hmeta : σ.dtable (σ.isa cls) ≠ none) :
    ∃ σ', σ.initializePair T cls = some σ' ∧ WellFormedOff O σ' ∧ GrowsOff T O σ σ' ∧ σ'.dtable cls ≠ none ∧
      ∀ n, σ.dtable n = none → σ'.dtable n ≠ none → n = cls := by
  obtain ⟨σ₂, hσ₂, hs₂, hl₂, hd₂, hv₂⟩ := create_class (T := T) hw (fun _ h => h) hnone hsup
  set t := fill T σ.method ((σ.superClass cls).bind σ.dtable) (σ.methodsOf cls) with ht
  set σ' := (σ₂.setDtable cls t).checkARCAccessors T cls with hσ'
  have hcheck := sameTables_checkARCAccessors (T := T) (σ₂.setDtable cls t) cls
  have hs : SameClasses σ σ' := (hs₂.trans (sameClasses_setDtable ..)).trans hcheck.toSameClasses
  have hdt : σ'.dtable = Function.update σ₂.dtable cls (some t) := hcheck.dtable
  have hcls : σ'.dtable cls = some t := by rw [hdt, Function.update_self]
  have hlive : ∀ n, n ≠ cls → (σ'.dtable n = none ↔ σ.dtable n = none) := fun n hn => by
    rw [hdt, Function.update_of_ne hn, hl₂]
  have hg : GrowsOff T O σ σ' := by
    refine grows_add cls hw.acyclic hs (hv₂.trans hcheck.cacheVersion.ge) hnone hoff hcls
        (fun n hn hu => ?_) hlive
    rw [hdt, Function.update_of_ne hn, hd₂ n hu]
  refine ⟨σ', ?_, hw.of_live hs (fun n p ho hn hp => ?_) fun c hc hcm hcl => ?_, hg, by simp [hcls],
    fun n hn hn' => ?_⟩
  · rw [initializePair, if_neg (by simp [classHasDtable, hnone])]
    simp only [hσ₂, Option.bind_some]
    rw [if_pos (by simpa [classHasDtable, Option.isSome_iff_ne_none] using hmeta)]
  · by_cases hnc : n = cls
    · exact hg.live_ne (hsup p (hnc ▸ hp))
    · exact hg.live_ne (hw.live_up_off n p ho ((not_congr (hlive n hnc)).mp hn) hp)
  · by_cases hcc : c = cls
    · exact hcc ▸ hg.live_ne hmeta
    · exact hg.live_ne (hw.live_meta c hc hcm ((not_congr (hlive c hcc)).mp hcl))
  · by_contra hnc
    exact hn' ((hlive n hnc).mpr hn)

/-- `initializePair` when neither the class nor its metaclass has a table. -/
theorem initializePair_both (hw : WellFormedOff O σ) (hm : σ.Messageable cls) (hoff : ¬ σ.Under O cls)
    (hoffm : ¬ σ.Under O (σ.isa cls))
    (hsup : ∀ p, σ.superClass cls = some p → σ.dtable p ≠ none) (hnone : σ.dtable cls = none)
    (hmeta : σ.dtable (σ.isa cls) = none) :
    ∃ σ', σ.initializePair T cls = some σ' ∧ WellFormedOff O σ' ∧ GrowsOff T O σ σ' ∧ σ'.dtable cls ≠ none ∧
      ∀ n, σ.dtable n = none → σ'.dtable n ≠ none → n = cls ∨ n = σ.isa cls := by
  have hclass := isMeta_false_of_isa hw hm hoff hsup hmeta
  obtain ⟨hmm, -⟩ := hw.isa_meta cls hm.1 hclass
  have hms := hw.super_meta cls hm.1 hclass
  have hne : σ.isa cls ≠ cls := by
    intro h
    rw [h, hclass] at hmm
    cases hmm
  have hpl : ∀ p, σ.superClass cls = some p → σ.dtable (σ.isa p) ≠ none := fun p hp =>
    hw.live_meta p (hw.toForest.lt_of_below hm.1 (Below.of_parent hp))
    (hw.super_class cls p hp hclass) (hsup p hp)
  obtain ⟨σ₂, hσ₂, hs₂, hl₂, hd₂, hv₂⟩ := create_class (T := T) hw (fun _ h => h) hnone hsup
  set t := fill T σ.method ((σ.superClass cls).bind σ.dtable) (σ.methodsOf cls) with ht
  -- the class with its table, before the metaclass
  set σA := σ₂.setDtable cls t with hσA
  have hsA : SameClasses σ σA := hs₂.trans (sameClasses_setDtable ..)
  have hdA : σA.dtable = Function.update σ₂.dtable cls (some t) := rfl
  have hclsA : σA.dtable cls = some t := by rw [hdA, Function.update_self]
  have hliveA : ∀ n, n ≠ cls → (σA.dtable n = none ↔ σ.dtable n = none) := fun n hn => by
    rw [hdA, Function.update_of_ne hn, hl₂]
  have hgA : GrowsOff T O σ σA := by
    refine grows_add cls hw.acyclic hsA hv₂ hnone hoff hclsA (fun n hn hu => ?_) hliveA
    rw [hdA, Function.update_of_ne hn, hd₂ n hu]
  have hupA : ∀ n p, ¬ O n → σA.dtable n ≠ none → σ.superClass n = some p → σA.dtable p ≠ none := by
    intro n p ho hn hp
    by_cases hnc : n = cls
    · exact hgA.live_ne (hsup p (hnc ▸ hp))
    · exact hgA.live_ne (hw.live_up_off n p ho ((not_congr (hliveA n hnc)).mp hn) hp)
  have hsupA : ∀ p, σ.superClass (σ.isa cls) = some p → σA.dtable p ≠ none := by
    rw [hms]
    rintro _ ⟨⟩
    cases hp : σ.superClass cls with
    | none => simp [hclsA]
    | some p => exact hgA.live_ne (hpl p hp)
  -- the metaclass, whose superclass is the root class or a metaclass
  obtain ⟨σ₃, hσ₃, hs₃, hl₃, hd₃, hv₃⟩ := createDtableForClass_eq (T := T) (hw.toForest.of_same hs₂)
    (σ.isa cls) t ((σ.superClass (σ.isa cls)).bind σA.dtable) (σ.Under O)
    ((hl₂ _).mpr hmeta)
    (fun e n he hlive hne => by
      rw [hs₂.superClass] at he hne
      by_contra hu
      exact hw.live_up_off e _ (fun ho => hu ⟨e, ho, hne⟩) ((not_congr (hl₂ e)).mp hlive) he hmeta)
    (by
      rw [hs₂.superClass, hs₂.isa, hms]
      cases hp : σ.superClass cls with
      | none => exact .inr ⟨(hl₂ cls).mpr hnone, rfl, by simp [hclsA]⟩
      | some p =>
        have hpc : σ.isa p ≠ cls := fun h => hpl p hp (h ▸ hnone)
        have hpA : σA.dtable (σ.isa p) = σ₂.dtable (σ.isa p) := by rw [hdA, Function.update_of_ne hpc]
        refine .inl ⟨by simp [hpA], ?_⟩
        simpa [hpA, hl₂ _] using hpl p hp)
  rw [hs₂.method, hs₂.methodsOf] at hσ₃
  set t' := fill T σ.method ((σ.superClass (σ.isa cls)).bind σA.dtable) (σ.methodsOf (σ.isa cls)) with ht'
  set σ' := ((σ₃.setDtable (σ.isa cls) t').setDtable cls t).checkARCAccessors T cls with hσ'
  have hcheck := sameTables_checkARCAccessors (T := T) ((σ₃.setDtable (σ.isa cls) t').setDtable cls t) cls
  have hs : SameClasses σ σ' := ((hs₂.trans hs₃).trans
    ((sameClasses_setDtable ..).trans (sameClasses_setDtable ..))).trans hcheck.toSameClasses
  have hdt : σ'.dtable = Function.update (Function.update σ₃.dtable (σ.isa cls) (some t')) cls (some t) :=
    hcheck.dtable
  have hlive : ∀ n, n ≠ σ.isa cls → (σ'.dtable n = none ↔ σA.dtable n = none) := fun n hn => by
    by_cases hnc : n = cls
    · simp [hnc, hdt, hclsA]
    · rw [hdt, Function.update_of_ne hnc, Function.update_of_ne hn, hl₃, hdA, Function.update_of_ne hnc]
  have hgB : GrowsOff T O σA σ' := by
    have hu := Under.of_same hsA O
    refine grows_add (σ.isa cls) (hsA.superClass ▸ hw.acyclic) (SameClasses.trans ?_ hs) ?_ ?_
        (by rwa [hu]) ?_
      (fun n hn hnu => ?_) hlive
    · exact ⟨hsA.classCount.symm, hsA.superClass.symm, hsA.isa.symm, hsA.isMeta.symm, hsA.subclassList.symm,
        hsA.methodLists.symm, hsA.method.symm, hsA.nextMethod.symm⟩
    · exact hv₃.trans hcheck.cacheVersion.ge
    · exact (hliveA _ hne).mpr hmeta
    · rw [hdt, Function.update_of_ne hne, Function.update_self, hsA.method, hsA.superClass, hsA.methodsOf]
    · rw [hu] at hnu
      by_cases hnc : n = cls
      · rw [hnc, hdt, Function.update_self, hclsA]
      · rw [hdt, Function.update_of_ne hnc, Function.update_of_ne hn, hd₃ n hnu, hdA,
          Function.update_of_ne hnc]
  have hwA : ∀ n p, ¬ O n → σ'.dtable n ≠ none → σ.superClass n = some p → σ'.dtable p ≠ none := by
    intro n p ho hn hp
    by_cases hnm : n = σ.isa cls
    · exact hgB.live_ne (hsupA p (hnm ▸ hp))
    · exact hgB.live_ne (hupA n p ho ((not_congr (hlive n hnm)).mp hn) hp)
  have hcls : σ'.dtable cls ≠ none := by simp [hdt]
  have hisa : σ'.dtable (σ.isa cls) ≠ none := by
    rw [hdt, Function.update_of_ne hne, Function.update_self]
    exact Option.some_ne_none t'
  have hnew : ∀ n, σ.dtable n = none → σ'.dtable n ≠ none → n = cls ∨ n = σ.isa cls := by
    intro n hn hn'
    by_contra hnc
    rw [not_or] at hnc
    exact hn' ((hlive n hnc.2).mpr ((hliveA n hnc.1).mpr hn))
  refine ⟨σ', ?_, hw.of_live hs hwA fun c hc hcm hcl => ?_, ?_, hcls, hnew⟩
  · rw [initializePair, if_neg (by simp [classHasDtable, hnone])]
    simp only [hσ₂, Option.bind_some]
    rw [if_neg (by simp [classHasDtable, hmeta]), hσ₃]
    rfl
  · by_cases hcc : c = cls
    · exact hcc ▸ hisa
    · have hcm' : c ≠ σ.isa cls := fun h => by rw [h, hmm] at hcm; cases hcm
      exact hgB.live_ne (hgA.live_ne (hw.live_meta c hc hcm
        ((not_congr (hliveA c hcc)).mp ((not_congr (hlive c hcm')).mp hcl))))
  · -- the state between the two need not have all metaclasses live, but this growth is as well
    refine ⟨hs, fun n s hu hn => hgB.kept_off n s ?_ (hgA.kept_off n s hu hn), fun n hu => ?_,
      fun n s hu hn hs' => ?_, hgA.version.trans hgB.version⟩
    · rwa [Under.of_same hsA]
    · exact (hgB.under n (by rwa [Under.of_same hsA])).trans (hgA.under n hu)
    · by_cases hnm : n = σ.isa cls
      · have := hgB.created_off n s (by rwa [Under.of_same hsA])
          (by rw [hnm]; exact (hliveA _ hne).mpr hmeta) hs'
        rwa [hsA.method, hsA.superClass, hsA.methodsOf] at this
      · have hnc : n = cls := (hnew n hn (by simp [hs'])).resolve_right hnm
        subst hnc
        have hst : s = t := Option.some.inj (hs'.symm.trans (by rw [hdt, Function.update_self]))
        rw [hst, ht]
        congr 1
        cases hp : σ.superClass n with
        | none => rfl
        | some p =>
          have hpn := Below.of_parent hp
          have hpu : ¬ σ.Under O p := fun hu' => hu (hu'.down hpn)
          rw [Option.bind_some, Option.bind_some, hgB.live_eq (by rwa [Under.of_same hsA])
            (hgA.live_ne (hsup p hp)), hgA.live_eq hpu (hsup p hp)]

end Pair

/-- **`objc_send_initialize`** does not abort, leaves existing tables alone, and gives the
    classes that it reaches tables filled from those of their superclasses. -/
theorem sendInitialize_spec {O : Class → Prop} : ∀ (fuel : ℕ) (σ : Runtime) (cls : Class),
    WellFormedOff O σ → σ.Messageable cls →
    (∀ a, Below σ.superClass cls a → ¬ σ.Under O a ∧ ¬ σ.Under O (σ.isa a)) →
    depth σ.superClass (Finset.range σ.classCount) cls < fuel →
    ∃ σ', σ.sendInitialize T fuel cls = some σ' ∧ WellFormedOff O σ' ∧ Initialised T O σ cls σ' := by
  intro fuel
  induction fuel with
  | zero => intro σ cls _ _ _ h; omega
  | succ fuel ih =>
    intro σ cls hw hm hoff hd
    obtain ⟨σ₁, hσ₁, hw₁, hg₁, hsup₁, hreach₁⟩ : ∃ σ₁,
        ((σ.superClass cls).elim (some σ) fun sup => σ.sendInitialize T fuel sup) = some σ₁ ∧
        WellFormedOff O σ₁ ∧ GrowsOff T O σ σ₁ ∧ (∀ p, σ.superClass cls = some p → σ₁.dtable p ≠ none) ∧
        ∀ n, σ.dtable n = none → σ₁.dtable n ≠ none → n ∈ σ.reachedBy cls := by
      cases hp : σ.superClass cls with
      | none => exact ⟨σ, rfl, hw, GrowsOff.refl σ, by simp, fun n h h' => absurd h h'⟩
      | some p =>
        have := depth_lt hw.acyclic (hw.bounded cls p hp).1 hp
        obtain ⟨σ₁, h, hw₁, hi⟩ := ih σ p hw (hm.super hw.toForest hp)
          (fun a ha => hoff a ((Below.of_parent hp).trans ha)) (by omega)
        refine ⟨σ₁, h, hw₁, hi.toGrowsOff, ?_, fun n hn hn' => ?_⟩
        · rintro _ ⟨⟩
          exact hi.live
        · have hup : ∀ a, a ∈ σ.ancestors p → a ∈ σ.ancestors cls := fun a ha =>
            (mem_ancestors hw.toForest).mpr ((Below.of_parent hp).trans ((mem_ancestors hw.toForest).mp ha))
          rcases List.mem_append.mp (hi.reached n hn hn') with h | h
          · exact List.mem_append_left _ (hup n h)
          · obtain ⟨a, ha, rfl⟩ := List.mem_map.mp h
            exact List.mem_append_right _ (List.mem_map_of_mem (hup a ha))
    rw [sendInitialize, hσ₁, Option.bind_some]
    have hm₁ : σ₁.Messageable cls := hm.of_same hg₁.toSameClasses
    have hsup₁' : ∀ p, σ₁.superClass cls = some p → σ₁.dtable p ≠ none := by
      rw [hg₁.superClass]
      exact hsup₁
    obtain ⟨hoff₁, hoffm₁⟩ : ¬ σ₁.Under O cls ∧ ¬ σ₁.Under O (σ₁.isa cls) := by
      rw [Under.of_same hg₁.toSameClasses, hg₁.isa]
      exact hoff cls (Below.refl cls)
    have hself : cls ∈ σ.ancestors cls := (mem_ancestors hw.toForest).mpr (Below.refl cls)
    by_cases hlive : σ₁.dtable cls = none
    · obtain ⟨σ', h', hw', hg', hlive', hnew⟩ : ∃ σ', σ₁.initializePair T cls = some σ' ∧ WellFormedOff O σ' ∧
          GrowsOff T O σ₁ σ' ∧ σ'.dtable cls ≠ none ∧
          ∀ n, σ₁.dtable n = none → σ'.dtable n ≠ none → n = cls ∨ n = σ₁.isa cls := by
        by_cases hmeta : σ₁.dtable (σ₁.isa cls) = none
        · exact initializePair_both hw₁ hm₁ hoff₁ hoffm₁ hsup₁' hlive hmeta
        · obtain ⟨σ', h', hw', hg', hlive', hnew⟩ := initializePair_skipMeta (T := T) hw₁ hoff₁
              hsup₁' hlive hmeta
          exact ⟨σ', h', hw', hg', hlive', fun n hn hn' => .inl (hnew n hn hn')⟩
      refine ⟨σ', h', hw', ⟨hg₁.trans hw₁ hg', hlive', fun hcm => ?_, fun n hn hn' => ?_⟩⟩
      · have := hw'.live_meta cls (by rw [hg'.classCount, hg₁.classCount]; exact hm.1)
          (by rw [hg'.isMeta, hg₁.isMeta]; exact hcm) hlive'
        rwa [hg'.isa, hg₁.isa] at this
      by_cases hn₁ : σ₁.dtable n = none
      · rcases hnew n hn₁ hn' with rfl | rfl
        · exact List.mem_append_left _ hself
        · rw [hg₁.isa]
          exact List.mem_append_right _ (List.mem_map_of_mem hself)
      · exact hreach₁ n hn hn₁
    · -- initialised by the superclass, or before
      refine ⟨σ₁, ?_, hw₁, ⟨hg₁, hlive, fun hcm => ?_, hreach₁⟩⟩
      · rw [initializePair, if_pos (by simpa [classHasDtable, Option.isSome_iff_ne_none] using hlive)]
      · have := hw₁.live_meta cls (by rw [hg₁.classCount]; exact hm.1) (by rw [hg₁.isMeta]; exact hcm) hlive
        rwa [hg₁.isa] at this

end Runtime

end Libobjc2.Dispatch
