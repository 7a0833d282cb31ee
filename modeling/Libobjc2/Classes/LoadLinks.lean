import Libobjc2.Classes.UnresolvedList
import Libobjc2.Common.Settles
import Mathlib.Data.Finset.Card

/-!
# Resolving the class links while `+load` methods run (`src/runtime/class_table.c`, lines 302–467)

`objc_resolve_class` ends with the `+load` message of the class, and the method may load further
images, whose classes are resolved before it returns.

Results:
* `Ready.linkClass`, `Ready.loadClass`, `Ready.foundSuper`: the invariant of the loaded classes.
* `resolveClass_settles`: what becomes of one class.
* `resolveLinks_settles`: what becomes of all of them.
-/

namespace Libobjc2.Classes

open Libobjc2.Common

/-- Why a run has no result.
    * `notLoaded`, `resolvedAgain`: `objc_resolve_class` is about to take a class off the list of the unresolved
      classes that is not on it, because it has not been loaded or has been resolved in the meantime. -/
inductive Stop where
  | outOfFuel
  | assertion
  | notLoaded
  | resolvedAgain
deriving DecidableEq, Repr

/-- What a `+load` method does: an image is loaded by `objc_load_class` for its classes, and then
    `objc_resolve_class_links` (loader.c, lines 855–890). -/
inductive LoadStep where
  | loadClass (cls : Class)
  | resolveClassLinks
deriving DecidableEq, Repr

namespace LoadLinks

/-! ## Model -/

section Model

variable (send : ClassLinks → Class → Except Stop ClassLinks)

/-- `objc_resolve_class` once the superclass is resolved (lines 341–432). -/
def finishResolving (fuel : ℕ) (σ : ClassLinks) (cls : Class) : Except Stop (ClassLinks × Bool) :=
  if cls ∉ σ.table then .error .notLoaded
  else if σ.resolved cls then .error .resolvedAgain
  else
    match σ.rootClass fuel cls with
    | none => .error .outOfFuel
    | some root => (send (σ.linkClass cls root) cls).map fun σ => (σ, true)

/-- `objc_resolve_class` (lines 302–433). Whether `cls` is still unresolved is not looked at again once its
    superclass is resolved. -/
def resolveClass : ℕ → ClassLinks → Class → Except Stop (ClassLinks × Bool)
  | 0, _, _ => .error .outOfFuel
  | fuel + 1, σ, cls =>
    if σ.resolved cls then .ok (σ, true)
    else
      match σ.superClass cls with
      | some sup =>
        (resolveClass fuel σ sup).bind fun r =>
          if r.2 then finishResolving send fuel r.1 cls else .ok (r.1, false)
      | none =>
        match σ.legacySuper cls with
        | none => finishResolving send fuel σ cls
        | some name =>
          match σ.classNamed name with
          | none => .ok (σ, false)
          | some sup =>
              resolveClass fuel { σ with superClass := Function.update σ.superClass cls (some sup) } cls

/-- The loop of `objc_resolve_class_links` over the unresolved classes (lines 442–464). -/
def resolveRound : ℕ → ClassLinks → Option Class → Bool → Except Stop (ClassLinks × Bool)
  | 0, _, _, _ => .error .outOfFuel
  | _ + 1, σ, none, resolvedClass => .ok (σ, resolvedClass)
  | fuel + 1, σ, some cls, resolvedClass =>
    let next := σ.subclassList cls
    if σ.resolved cls then if resolvedClass then .ok (σ, resolvedClass) else .error .assertion
    else
      (resolveClass send fuel σ cls).bind fun r =>
        resolveRound fuel r.1 next (resolvedClass || r.1.resolved cls)

/-- `objc_resolve_class_links` (lines 435–465). -/
def resolveClassLinks : ℕ → ClassLinks → Except Stop ClassLinks
  | 0, _ => .error .outOfFuel
  | fuel + 1, σ =>
    (resolveRound send fuel σ σ.unresolvedClassList false).bind fun r =>
      if r.2 then resolveClassLinks fuel r.1 else .ok r.1

end Model

def loadStep (resolveLinks : ClassLinks → Except Stop ClassLinks) (σ : ClassLinks) :
    LoadStep → Except Stop ClassLinks
  | .loadClass cls => .ok (σ.loadClass cls)
  | .resolveClassLinks => resolveLinks σ

/-- `objc_send_load_message` (lines 52–70), for classes whose `+load` methods do `steps`. -/
def sendLoadMessage (steps : Class → List LoadStep) : ℕ → ClassLinks → Class → Except Stop ClassLinks
  | 0, _, _ => .error .outOfFuel
  | fuel + 1, σ, cls => (steps cls).foldlM (loadStep (resolveClassLinks (sendLoadMessage steps fuel) fuel)) σ

/-! ## Specification -/

/-- The superclass of a class, in its structure or by the name that it gives. -/
def superOf (σ : ClassLinks) (cls : Class) : Option Class :=
  (σ.superClass cls).or ((σ.legacySuper cls).bind σ.classNamed)

/-- The class and all its superclasses are loaded. -/
inductive Complete (σ : ClassLinks) : Class → Prop where
  | root {c : Class} (hc : c ∈ σ.table) (hs : σ.superClass c = none) (hl : σ.legacySuper c = none) :
      Complete σ c
  | sub {c s : Class} (hc : c ∈ σ.table) (hs : superOf σ c = some s) (h : Complete σ s) : Complete σ c

/-- `r` is the last class on the way up from `c`. -/
inductive RootOf (σ : ClassLinks) : Class → Class → Prop where
  | root {c : Class} (hs : σ.superClass c = none) : RootOf σ c c
  | sub {c s r : Class} (hs : σ.superClass c = some s) (h : RootOf σ s r) : RootOf σ c r

/-- The metaclass of a class has the links that it should have. -/
def MetaLinked (σ : ClassLinks) (c : Class) : Prop :=
  σ.superClass (σ.isa c) = some (σ.superMeta c) ∧ ∃ r, RootOf σ c r ∧ σ.isa (σ.isa c) = σ.isa r

/-- `c` is on the list of the unresolved classes. -/
def Waits (σ : ClassLinks) (c : Class) : Prop := ∃ l, Chain σ.subclassList σ.unresolvedClassList l ∧ c ∈ l

/-- The class has not changed but for its superclass, which may have been found by its name, and the links of
    the list. -/
structure Untouched (σ σ' : ClassLinks) (c : Class) : Prop where
  present : σ'.present c = σ.present c
  name : σ'.name c = σ.name c
  isMeta : σ'.isMeta c = σ.isMeta c
  duplicate : σ'.duplicate c = σ.duplicate c
  legacySuper : σ'.legacySuper c = σ.legacySuper c
  resolved : σ'.resolved c = false
  superClass : σ'.superClass c = σ.superClass c ∨
    σ.superClass c = none ∧ ∃ name, σ.legacySuper c = some name ∧ σ'.superClass c = σ'.classNamed name
  isa : σ'.isa c = σ.isa c
  metaclass : c ∈ σ.table → σ'.superClass (σ.isa c) = σ.superClass (σ.isa c) ∧
      σ'.isa (σ.isa c) = σ.isa (σ.isa c)

/-! ## The loaded classes -/

/-- The classes of a program: the links up are acyclic and lead to classes, and a class that waits has a
    metaclass of its own. The metaclasses of the others are linked. -/
structure Ready (rank : Class → ℕ) (σ : ClassLinks) : Prop extends ClassLinks.Linked σ where
  super_class : ∀ c s, σ.present c = true → σ.isMeta c = false → σ.superClass c = some s → σ.isMeta s = false
  rank_super : ∀ c s, σ.present c = true → σ.isMeta c = false → σ.superClass c = some s → rank s < rank c
  rank_named : ∀ c s name, σ.present c = true → σ.isMeta c = false → σ.legacySuper c = some name →
    σ.present s = true → σ.isMeta s = false → σ.name s = name → rank s < rank c
  own_meta : ∀ c d, σ.present c = true → σ.present d = true → σ.isMeta c = false → σ.isMeta d = false →
    σ.resolved c = false → σ.isa c = σ.isa d → c = d
  meta_unresolved : ∀ c, σ.present c = true → σ.isMeta c = false → σ.resolved c = false →
      σ.resolved (σ.isa c) = false
  super_loaded : ∀ c s, σ.present c = true → σ.isMeta c = false → σ.superClass c = some s →
      σ.resolved s = true →
    s ∈ σ.table
  root_unnamed : ∀ c ∈ σ.table, σ.resolved c = true → σ.superClass c = none → σ.legacySuper c = none
  meta_linked : ∀ c ∈ σ.table, σ.resolved c = true → MetaLinked σ c

/-- Classes have been loaded or resolved. -/
structure Grows (σ σ' : ClassLinks) : Prop where
  present : σ'.present = σ.present
  name : σ'.name = σ.name
  isMeta : σ'.isMeta = σ.isMeta
  duplicate : σ'.duplicate = σ.duplicate
  legacySuper : σ'.legacySuper = σ.legacySuper
  table : ∀ c ∈ σ.table, c ∈ σ'.table
  named : ∀ name s, σ.classNamed name = some s → σ'.classNamed name = some s
  resolved : ∀ c, σ.resolved c = true → σ'.resolved c = true
  newly : ∀ c, σ'.resolved c = true → σ.resolved c = true ∨ σ.isMeta c = true ∨ c ∈ σ'.table
  superClass : ∀ c, σ.isMeta c = false → σ'.superClass c = σ.superClass c ∨
    σ.superClass c = none ∧ ∃ name s, σ.legacySuper c = some name ∧ σ'.classNamed name = some s ∧
    σ'.superClass c = some s
  isa : ∀ c, σ.isMeta c = false → σ'.isa c = σ.isa c
  metaclass : ∀ c ∈ σ.table, σ.isMeta c = false → σ'.resolved c = false →
    σ'.superClass (σ.isa c) = σ.superClass (σ.isa c) ∧ σ'.isa (σ.isa c) = σ.isa (σ.isa c)

theorem Grows.refl (σ : ClassLinks) : Grows σ σ :=
  ⟨rfl, rfl, rfl, rfl, rfl, fun _ h => h, fun _ _ h => h, fun _ h => h, fun _ h => .inl h,
   fun _ _ => .inl rfl,
    fun _ _ => rfl, fun _ _ _ _ => ⟨rfl, rfl⟩⟩

theorem Grows.unresolved {σ σ' : ClassLinks} (h : Grows σ σ') {c : Class} (hc : σ'.resolved c = false) :
    σ.resolved c = false := by
  cases hr : σ.resolved c with
  | false => rfl
  | true => rw [h.resolved c hr] at hc; cases hc

theorem Grows.trans {σ τ υ : ClassLinks} (h : Grows σ τ) (h' : Grows τ υ) : Grows σ υ where
  present := h'.present.trans h.present
  name := h'.name.trans h.name
  isMeta := h'.isMeta.trans h.isMeta
  duplicate := h'.duplicate.trans h.duplicate
  legacySuper := h'.legacySuper.trans h.legacySuper
  table c hc := h'.table c (h.table c hc)
  named name s hs := h'.named name s (h.named name s hs)
  resolved c hc := h'.resolved c (h.resolved c hc)
  newly c hc := by
    rcases h'.newly c hc with hc | hc | hc
    · exact (h.newly c hc).imp_right (Or.imp_right (h'.table c))
    · exact .inr (.inl (by rwa [← h.isMeta]))
    · exact .inr (.inr hc)
  superClass c hc := by
    have h₂ := h'.superClass c (by rwa [h.isMeta])
    rw [h.legacySuper] at h₂
    rcases h.superClass c hc with h₁ | ⟨hnone, name, s, hname, hs, hsuper⟩
    · rwa [h₁] at h₂
    · refine .inr ⟨hnone, name, s, hname, h'.named name s hs, ?_⟩
      rcases h₂ with h₂ | ⟨hnone', -⟩
      · rw [h₂, hsuper]
      · cases hsuper.symm.trans hnone'
  isa c hc := (h'.isa c (by rwa [h.isMeta])).trans (h.isa c hc)
  metaclass c hc hm hr := by
    obtain ⟨h₁, h₁'⟩ := h.metaclass c hc hm (h'.unresolved hr)
    obtain ⟨h₂, h₂'⟩ := h'.metaclass c (h.table c hc) (by rwa [h.isMeta]) hr
    rw [h.isa c hm] at h₂ h₂'
    exact ⟨h₂.trans h₁, h₂'.trans h₁'⟩

/-! ## Roots -/

theorem RootOf.unique {σ : ClassLinks} {c r r' : Class} (h : RootOf σ c r) (h' : RootOf σ c r') : r = r' := by
  induction h with
  | root hs =>
    cases h' with
    | root => rfl
    | sub hs' => cases hs.symm.trans hs'
  | sub hs _ ih =>
    cases h' with
    | root hs' => cases hs.symm.trans hs'
    | sub hs' h' =>
      obtain rfl := Option.some.inj (hs.symm.trans hs')
      exact ih h'

/-- Superclasses stay among the classes `P`, whose links are the same. -/
theorem RootOf.congr {σ σ' : ClassLinks} {P : Class → Prop} (hup : ∀ c s, P c → σ.superClass c = some s → P s)
    (hsame : ∀ c, P c → σ'.superClass c = σ.superClass c) {c r : Class} (hc : P c) (h : RootOf σ c r) :
    RootOf σ' c r ∧ P r := by
  induction h with
  | root hs => exact ⟨.root ((hsame _ hc).trans hs), hc⟩
  | sub hs _ ih =>
    obtain ⟨hroot, hr⟩ := ih (hup _ _ hc hs)
    exact ⟨.sub ((hsame _ hc).trans hs) hroot, hr⟩

theorem MetaLinked.congr {σ σ' : ClassLinks} {P : Class → Prop}
    (hup : ∀ c s, P c → σ.superClass c = some s → P s)
    (hsame : ∀ c, P c → σ'.superClass c = σ.superClass c ∧ σ'.isa c = σ.isa c) {c : Class} (hc : P c)
    (hmeta : σ'.superClass (σ.isa c) = σ.superClass (σ.isa c) ∧ σ'.isa (σ.isa c) = σ.isa (σ.isa c))
    (h : MetaLinked σ c) : MetaLinked σ' c := by
  obtain ⟨hsuper, r, hr, hisa⟩ := h
  obtain ⟨hr', hPr⟩ := RootOf.congr hup (fun c hc => (hsame c hc).1) hc hr
  have hsuperMeta : σ'.superMeta c = σ.superMeta c := by
    rw [ClassLinks.superMeta, ClassLinks.superMeta, (hsame c hc).1]
    cases hs : σ.superClass c with
    | none => rfl
    | some s => exact (hsame s (hup c s hc hs)).2
  refine ⟨?_, r, hr', ?_⟩
  · rw [(hsame c hc).2, hmeta.1, hsuper, hsuperMeta]
  · rw [(hsame c hc).2, hmeta.2, hisa, (hsame r hPr).2]

section Ready

variable {rank : Class → ℕ} {σ : ClassLinks}

/-- The class structures that are not metaclasses. -/
def IsClass (σ : ClassLinks) (c : Class) : Prop := σ.present c = true ∧ σ.isMeta c = false

theorem Ready.super_isClass (h : Ready rank σ) (c s : Class) (hc : IsClass σ c)
    (hs : σ.superClass c = some s) :
    IsClass σ s := ⟨h.super_present c s hc.1 hs, h.super_class c s hc.1 hc.2 hs⟩

theorem Ready.table_isClass (h : Ready rank σ) {c : Class} (hc : c ∈ σ.table) : IsClass σ c :=
  ⟨h.table_present c hc, h.table_class c hc⟩

theorem Ready.ne_meta (h : Ready rank σ) {c d : Class} (hc : IsClass σ c)
    (hd : σ.present d = true) : c ≠ σ.isa d := by
  rintro rfl
  cases hc.2.symm.trans (h.isa_meta d hd)

/-- The way up from a class ends. -/
theorem Ready.rootClass_settles (h : Ready rank σ) {c : Class} (hc : IsClass σ c) :
    ∃ r, RootOf σ c r ∧ ∃ N, ∀ fuel, N ≤ fuel → σ.rootClass fuel c = some r := by
  induction hrank : rank c using Nat.strong_induction_on generalizing c with
  | _ k ih =>
    subst hrank
    cases hs : σ.superClass c with
    | none =>
      refine ⟨c, .root hs, 1, fun fuel hfuel => ?_⟩
      obtain ⟨fuel, rfl⟩ := Nat.exists_eq_succ_of_ne_zero (by omega : fuel ≠ 0)
      rw [ClassLinks.rootClass, hs]
      rfl
    | some s =>
      obtain ⟨r, hr, N, hN⟩ := ih _ (h.rank_super c s hc.1 hc.2 hs) (h.super_isClass c s hc hs) rfl
      refine ⟨r, .sub hs hr, N + 1, fun fuel hfuel => ?_⟩
      obtain ⟨fuel, rfl⟩ := Nat.exists_eq_succ_of_ne_zero (by omega : fuel ≠ 0)
      rw [ClassLinks.rootClass, hs]
      exact hN fuel (by omega)

end Ready

/-! ## What keeps the classes ready -/

section Steps

variable {rank : Class → ℕ} {σ : ClassLinks}

/-- The superclass of a class of the old ABI has been found. -/
theorem Ready.foundSuper (h : Ready rank σ) {cls sup : Class} {name : String} (hc : IsClass σ cls)
    (hr : σ.resolved cls = false) (hs : σ.superClass cls = none) (hname : σ.legacySuper cls = some name)
    (hsup : σ.classNamed name = some sup) :
    let σ' := { σ with superClass := Function.update σ.superClass cls (some sup) }
    Ready rank σ' ∧ Grows σ σ' := by
  intro σ'
  have hother : ∀ c, c ≠ cls → σ'.superClass c = σ.superClass c := fun c hne => Function.update_of_ne hne ..
  have hself : σ'.superClass cls = some sup := Function.update_self ..
  have hsupClass := h.table_isClass (ClassLinks.classNamed_mem hsup)
  have hsupName : σ.name sup = name := by simpa using List.find?_some hsup
  have hcases : ∀ c s, σ'.superClass c = some s → c = cls ∧ s = sup ∨ σ.superClass c = some s := by
    intro c s hcs
    by_cases hne : c = cls
    · subst hne
      exact .inl ⟨rfl, (Option.some.inj (hself.symm.trans hcs)).symm⟩
    · exact .inr ((hother c hne).symm.trans hcs)
  have hresolved : ∀ c, σ.resolved c = true → c ≠ cls := by
    rintro c hcr rfl
    cases hr.symm.trans hcr
  refine ⟨{ toLinked := (h.toLinked.foundSuper hr hs hname hsup).1
            super_class := fun c s hp hm hcs => ?_
            rank_super := fun c s hp hm hcs => ?_
            rank_named := h.rank_named
            own_meta := h.own_meta
            meta_unresolved := h.meta_unresolved
            super_loaded := fun c s hp hm hcs hsr => ?_
            root_unnamed := fun c hc' hcr hcs => ?_
            meta_linked := fun c hc' hcr => ?_ },
    { Grows.refl σ with
      superClass := fun c hm => ?_
      metaclass := fun c hc' _ _ => ⟨hother _ ?_, rfl⟩ }⟩
  · rcases hcases c s hcs with ⟨-, rfl⟩ | hcs
    · exact hsupClass.2
    · exact h.super_class c s hp hm hcs
  · rcases hcases c s hcs with ⟨rfl, rfl⟩ | hcs
    · exact h.rank_named c s name hp hm hname hsupClass.1 hsupClass.2 hsupName
    · exact h.rank_super c s hp hm hcs
  · rcases hcases c s hcs with ⟨-, rfl⟩ | hcs
    · exact ClassLinks.classNamed_mem hsup
    · exact h.super_loaded c s hp hm hcs hsr
  · exact h.root_unnamed c hc' hcr ((hother c (hresolved c hcr)).symm.trans hcs)
  · refine MetaLinked.congr (σ := σ) (P := fun c => σ.present c = true ∧ σ.resolved c = true) ?_ ?_
      ⟨h.table_present c hc', hcr⟩ ⟨hother _ (h.ne_meta hc (h.table_present c hc')).symm, rfl⟩
      (h.meta_linked c hc' hcr)
    · exact fun c s ⟨hp, hres⟩ hcs => ⟨h.super_present c s hp hcs, h.super_resolved c s hp hres hcs⟩
    · exact fun c ⟨_, hres⟩ => ⟨hother c (hresolved c hres), rfl⟩
  · by_cases hne : c = cls
    · subst hne
      exact .inr ⟨hs, name, sup, hname, hsup, hself⟩
    · exact .inl (hother c hne)
  · exact (h.ne_meta hc (h.table_present c hc')).symm

/-- A class gets its links. -/
theorem Ready.linkClass (h : Ready rank σ) {cls root : Class} (htab : cls ∈ σ.table)
    (hr : σ.resolved cls = false)
    (hsup : ∀ s, σ.superClass cls = some s → σ.resolved s = true)
    (hroot : σ.superClass cls = none → σ.legacySuper cls = none) (hrootOf : RootOf σ cls root) :
    Ready rank (σ.linkClass cls root) ∧ Grows σ (σ.linkClass cls root) ∧
    (σ.linkClass cls root).resolved cls = true := by
  have hc := h.table_isClass htab
  have hup : ∀ c s, IsClass σ c → σ.superClass c = some s → IsClass σ s := h.super_isClass
  obtain ⟨-, hrc⟩ : RootOf σ cls root ∧ IsClass σ root := RootOf.congr hup (fun _ _ => rfl) hc hrootOf
  have hrr : root = cls ∨ σ.resolved root = true := by
    cases hrootOf with
    | root => exact .inl rfl
    | @sub _ s _ hs hsr =>
      have hsp := h.super_present cls s hc.1 hs
      have : RootOf σ s root ∧ _ := RootOf.congr (P := fun c => σ.present c = true ∧ σ.resolved c = true)
        (fun c t ⟨hp, hres⟩ hct => ⟨h.super_present c t hp hct, h.super_resolved c t hp hres hct⟩)
        (fun _ _ => rfl)
        ⟨hsp, hsup s hs⟩ hsr
      exact .inr this.2.2
  obtain ⟨hl, hs⟩ := h.toLinked.linkClass hc.1 hr (.inl htab) hsup hrc.1 hrr
  have hpresent : ∀ c, (σ.linkClass cls root).present c = σ.present c := congrFun hs.present
  have hisMeta : ∀ c, (σ.linkClass cls root).isMeta c = σ.isMeta c := congrFun hs.isMeta
  have hresolved : ∀ c, (σ.linkClass cls root).resolved c = true ↔ c = cls ∨ c = σ.isa cls ∨
      σ.resolved c = true :=
    fun c => ClassLinks.linkClass_resolved c
  have hunresolved : ∀ c, (σ.linkClass cls root).resolved c = false → c ≠ cls ∧ c ≠ σ.isa cls ∧
      σ.resolved c = false := by
    intro c hcr
    have : ¬ (c = cls ∨ c = σ.isa cls ∨ σ.resolved c = true) :=
      fun h => Bool.false_ne_true (hcr.symm.trans ((hresolved c).mpr h))
    push Not at this
    exact ⟨this.1, this.2.1, Bool.eq_false_iff.mpr this.2.2⟩
  have hsame : ∀ c, IsClass σ c → (σ.linkClass cls root).superClass c = σ.superClass c ∧
      (σ.linkClass cls root).isa c = σ.isa c := by
    intro c hcc
    have hne := h.ne_meta hcc hc.1
    rw [ClassLinks.linkClass_superClass, ClassLinks.linkClass_isa]
    exact ⟨Function.update_of_ne hne .., Function.update_of_ne hne ..⟩
  have hmeta : ∀ c, σ.isa c ≠ σ.isa cls → (σ.linkClass cls root).superClass (σ.isa c) =
      σ.superClass (σ.isa c) ∧
      (σ.linkClass cls root).isa (σ.isa c) = σ.isa (σ.isa c) := by
    intro c hne
    rw [ClassLinks.linkClass_superClass, ClassLinks.linkClass_isa]
    exact ⟨Function.update_of_ne hne .., Function.update_of_ne hne ..⟩
  have hown : ∀ c, IsClass σ c → c ≠ cls → σ.isa c ≠ σ.isa cls := fun c hcc hne heq =>
    hne (h.own_meta cls c hc.1 hcc.1 hc.2 hcc.2 hr heq.symm).symm
  refine ⟨{ toLinked := hl, super_class := ?_, rank_super := ?_, rank_named := ?_, own_meta := ?_,
            meta_unresolved := ?_, super_loaded := ?_, root_unnamed := ?_, meta_linked := ?_ },
    { present := hs.present, name := hs.name, isMeta := hs.isMeta, duplicate := hs.duplicate,
      legacySuper := hs.legacySuper, table := ?_, named := ?_, resolved := hs.resolved, newly := ?_,
      superClass := ?_,
      isa := ?_, metaclass := ?_ }, (hresolved cls).mpr (.inl rfl)⟩
  · intro c s hp hm hcs
    rw [hpresent] at hp
    rw [hisMeta] at hm ⊢
    rw [(hsame c ⟨hp, hm⟩).1] at hcs
    exact h.super_class c s hp hm hcs
  · intro c s hp hm hcs
    rw [hpresent] at hp
    rw [hisMeta] at hm
    rw [(hsame c ⟨hp, hm⟩).1] at hcs
    exact h.rank_super c s hp hm hcs
  · rw [hs.present, hs.isMeta, hs.legacySuper, hs.name]
    exact h.rank_named
  · intro c d hp hpd hm hmd hcr heq
    rw [hpresent] at hp hpd
    rw [hisMeta] at hm hmd
    rw [(hsame c ⟨hp, hm⟩).2, (hsame d ⟨hpd, hmd⟩).2] at heq
    exact h.own_meta c d hp hpd hm hmd (hunresolved c hcr).2.2 heq
  · intro c hp hm hcr
    rw [hpresent] at hp
    rw [hisMeta] at hm
    obtain ⟨hne, -, hcr⟩ := hunresolved c hcr
    rw [(hsame c ⟨hp, hm⟩).2, Bool.eq_false_iff]
    intro hres
    rcases (hresolved _).mp hres with heq | heq | hres
    · exact h.ne_meta hc hp heq.symm
    · exact hown c ⟨hp, hm⟩ hne heq
    · exact Bool.false_ne_true ((h.meta_unresolved c hp hm hcr).symm.trans hres)
  · intro c s hp hm hcs hsr
    rw [hpresent] at hp
    rw [hisMeta] at hm
    rw [(hsame c ⟨hp, hm⟩).1] at hcs
    rw [hs.table]
    rcases (hresolved s).mp hsr with rfl | rfl | hsr
    · exact htab
    · exact absurd rfl (h.ne_meta (hup c _ ⟨hp, hm⟩ hcs) hc.1)
    · exact h.super_loaded c s hp hm hcs hsr
  · intro c hct hcr hcs
    rw [hs.table] at hct
    have hcc := h.table_isClass hct
    rw [(hsame c hcc).1] at hcs
    rw [hs.legacySuper]
    rcases (hresolved c).mp hcr with rfl | rfl | hcr
    · exact hroot hcs
    · exact absurd rfl (h.ne_meta hcc hc.1)
    · exact h.root_unnamed c hct hcr hcs
  · intro c hct hcr
    rw [hs.table] at hct
    have hcc := h.table_isClass hct
    by_cases hne : c = cls
    · subst hne
      obtain ⟨hrootOf', -⟩ := RootOf.congr hup (fun c hcc => (hsame c hcc).1) hcc hrootOf
      have hsuperMeta : (σ.linkClass c root).superMeta c = σ.superMeta c := by
        rw [ClassLinks.superMeta, ClassLinks.superMeta, (hsame c hcc).1]
        cases hcs : σ.superClass c with
        | none => rfl
        | some s => exact (hsame s (hup c s hcc hcs)).2
      refine ⟨?_, root, hrootOf', ?_⟩
      · rw [(hsame c hcc).2, hsuperMeta, ClassLinks.linkClass_superClass, Function.update_self]
      · rw [(hsame c hcc).2, (hsame root hrc).2, ClassLinks.linkClass_isa, Function.update_self]
    · have hcr' : σ.resolved c = true := by
        rcases (hresolved c).mp hcr with rfl | rfl | hcr
        · exact absurd rfl hne
        · exact absurd rfl (h.ne_meta hcc hc.1)
        · exact hcr
      exact MetaLinked.congr hup hsame hcc (hmeta c (hown c hcc hne)) (h.meta_linked c hct hcr')
  · rw [hs.table]
    exact fun _ h => h
  · rw [hs.classNamed]
    exact fun _ _ h => h
  · intro c hcr
    rw [hs.table]
    rcases (hresolved c).mp hcr with rfl | rfl | hcr
    · exact .inr (.inr htab)
    · exact .inr (.inl (h.isa_meta cls hc.1))
    · exact .inl hcr
  · intro c hm
    have hne : c ≠ σ.isa cls := by
      rintro rfl
      cases hm.symm.trans (h.isa_meta cls hc.1)
    rw [ClassLinks.linkClass_superClass]
    exact .inl (Function.update_of_ne hne ..)
  · intro c hm
    have hne : c ≠ σ.isa cls := by
      rintro rfl
      cases hm.symm.trans (h.isa_meta cls hc.1)
    rw [ClassLinks.linkClass_isa]
    exact Function.update_of_ne hne ..
  · exact fun c hct _ hcr => hmeta c (hown c (h.table_isClass hct) (hunresolved c hcr).1)

/-- A class structure that may be loaded. -/
def Loadable (σ : ClassLinks) (cls : Class) : Prop := IsClass σ cls ∧ (cls ∈ σ.table ∨ σ.resolved cls = false)

theorem Loadable.grows {σ' : ClassLinks} {cls : Class} (h : Loadable σ cls) (hg : Grows σ σ') :
    Loadable σ' cls := by
  obtain ⟨⟨hp, hm⟩, hres⟩ := h
  refine ⟨⟨by rw [hg.present]; exact hp, by rw [hg.isMeta]; exact hm⟩, ?_⟩
  cases hr : σ'.resolved cls with
  | false => exact .inr rfl
  | true =>
    rcases hg.newly cls hr with hr | hm' | ht
    · rcases hres with ht | hf
      · exact .inl (hg.table cls ht)
      · cases hf.symm.trans hr
    · cases hm.symm.trans hm'
    · exact .inl ht

/-- `objc_load_class` either finds the name taken or adds the class. -/
theorem loadClass_cases (σ : ClassLinks) (cls : Class) :
    σ.loadClass cls = σ ∨
    σ.classNamed (σ.name cls) = none ∧ (σ.loadClass cls).present = σ.present ∧
    (σ.loadClass cls).name = σ.name ∧
      (σ.loadClass cls).isMeta = σ.isMeta ∧ (σ.loadClass cls).duplicate = σ.duplicate ∧
      (σ.loadClass cls).resolved = σ.resolved ∧ (σ.loadClass cls).legacySuper = σ.legacySuper ∧
      (σ.loadClass cls).isa = σ.isa ∧ (σ.loadClass cls).table = cls :: σ.table ∧
      ∀ c, c ≠ σ.isa cls → (σ.loadClass cls).superClass c = σ.superClass c := by
  rw [ClassLinks.loadClass]
  split
  · exact .inl rfl
  · next hname =>
    refine .inr ⟨by simpa using hname, ?_⟩
    unfold ClassLinks.classTableInsert
    dsimp only
    split <;> split <;> exact ⟨rfl, rfl, rfl, rfl, rfl, rfl, rfl, rfl, fun c hc => by
      first | rfl | exact Function.update_of_ne hc ..⟩

/-- An image brings a class. -/
theorem Ready.loadClass (h : Ready rank σ) {cls : Class} (hload : Loadable σ cls) :
    Ready rank (σ.loadClass cls) ∧ Grows σ (σ.loadClass cls) ∧ (σ.loadClass cls).resolved = σ.resolved := by
  rcases loadClass_cases σ cls with heq | ⟨hnone, hpresent, hname, hisMeta, hdup, hres, hlegacy,
      hisa, htable, hsuper⟩
  · rw [heq]
    exact ⟨h, Grows.refl σ, rfl⟩
  have hc := hload.1
  have hnt : cls ∉ σ.table := fun ht => by simpa using List.find?_eq_none.mp hnone cls ht
  have hr := hload.2.resolve_left hnt
  have hl : ClassLinks.Linked (σ.loadClass cls) := h.toLinked.loadClass ⟨hc.1, hc.2, fun _ hm => by
    cases (h.meta_unresolved cls hc.1 hc.2 hr).symm.trans hm⟩
  have hsame : ∀ c, IsClass σ c → (σ.loadClass cls).superClass c = σ.superClass c := fun c hcc =>
    hsuper c (h.ne_meta hcc hc.1)
  have hnamed : ∀ name s, σ.classNamed name = some s → (σ.loadClass cls).classNamed name = some s := by
    intro name s hs
    rw [ClassLinks.classNamed, htable, hname, List.find?_cons]
    have hne : σ.name cls ≠ name := by
      rintro rfl
      cases hnone.symm.trans hs
    rw [decide_eq_false hne]
    exact hs
  refine ⟨{ toLinked := hl, super_class := ?_, rank_super := ?_, rank_named := ?_, own_meta := ?_,
            meta_unresolved := ?_, super_loaded := ?_, root_unnamed := ?_, meta_linked := ?_ },
    { present := hpresent, name := hname, isMeta := hisMeta, duplicate := hdup, legacySuper := hlegacy,
      table := ?_, named := hnamed, resolved := ?_, newly := ?_, superClass := ?_, isa := ?_,
      metaclass := ?_ }, hres⟩
  · intro c s hp hm hcs
    rw [hpresent] at hp
    rw [hisMeta] at hm ⊢
    exact h.super_class c s hp hm ((hsame c ⟨hp, hm⟩).symm.trans hcs)
  · intro c s hp hm hcs
    rw [hpresent] at hp
    rw [hisMeta] at hm
    exact h.rank_super c s hp hm ((hsame c ⟨hp, hm⟩).symm.trans hcs)
  · rw [hpresent, hisMeta, hlegacy, hname]
    exact h.rank_named
  · rw [hpresent, hisMeta, hres, hisa]
    exact h.own_meta
  · rw [hpresent, hisMeta, hres, hisa]
    exact h.meta_unresolved
  · intro c s hp hm hcs hsr
    rw [hpresent] at hp
    rw [hisMeta] at hm
    rw [hres] at hsr
    rw [htable]
    exact List.mem_cons_of_mem _ (h.super_loaded c s hp hm ((hsame c ⟨hp, hm⟩).symm.trans hcs) hsr)
  · intro c hct hcr hcs
    rw [htable, List.mem_cons] at hct
    rw [hres] at hcr
    rw [hlegacy]
    rcases hct with rfl | hct
    · cases hr.symm.trans hcr
    · exact h.root_unnamed c hct hcr ((hsame c (h.table_isClass hct)).symm.trans hcs)
  · intro c hct hcr
    rw [htable, List.mem_cons] at hct
    rw [hres] at hcr
    rcases hct with rfl | hct
    · cases hr.symm.trans hcr
    · have hcc := h.table_isClass hct
      have hne : σ.isa c ≠ σ.isa cls := fun heq => by
        obtain rfl := h.own_meta cls c hc.1 hcc.1 hc.2 hcc.2 hr heq.symm
        exact hnt hct
      refine MetaLinked.congr h.super_isClass (fun c hcc => ⟨hsame c hcc, by rw [hisa]⟩) hcc
          ⟨hsuper _ hne, by rw [hisa]⟩
        (h.meta_linked c hct hcr)
  · rw [htable]
    exact fun c hct => List.mem_cons_of_mem _ hct
  · rw [hres]
    exact fun _ h => h
  · rw [hres]
    exact fun _ h => .inl h
  · intro c hm
    refine .inl (hsuper c ?_)
    rintro rfl
    cases hm.symm.trans (h.isa_meta cls hc.1)
  · exact fun c _ => by rw [hisa]
  · intro c hct hm hcr
    rw [hres] at hcr
    refine ⟨hsuper _ fun heq => hnt ?_, by rw [hisa]⟩
    rw [← h.own_meta c cls (h.table_present c hct) hc.1 hm hc.2 hcr heq]
    exact hct

end Steps

/-! ## Classes that cannot be resolved yet -/

/-- Superclasses have been found by their names, and nothing else has changed. -/
structure Found (σ σ' : ClassLinks) : Prop where
  eq : ∃ superClass, σ' = { σ with superClass }
  superOf_eq : superOf σ' = superOf σ
  unnamed : ∀ c, σ.legacySuper c = none → σ'.superClass c = σ.superClass c

theorem Found.refl (σ : ClassLinks) : Found σ σ := ⟨⟨_, rfl⟩, rfl, fun _ _ => rfl⟩

theorem Found.trans {σ τ υ : ClassLinks} (h : Found σ τ) (h' : Found τ υ) : Found σ υ := by
  obtain ⟨⟨superClass, rfl⟩, hsuperOf, hunnamed⟩ := h
  obtain ⟨⟨superClass', rfl⟩, hsuperOf', hunnamed'⟩ := h'
  exact ⟨⟨superClass', rfl⟩, hsuperOf'.trans hsuperOf, fun c hc => (hunnamed' c hc).trans (hunnamed c hc)⟩

theorem Found.resolved {σ σ' : ClassLinks} (h : Found σ σ') : σ'.resolved = σ.resolved := by
  obtain ⟨_, rfl⟩ := h.eq
  rfl

theorem Found.table {σ σ' : ClassLinks} (h : Found σ σ') : σ'.table = σ.table := by
  obtain ⟨_, rfl⟩ := h.eq
  rfl

theorem Found.subclassList {σ σ' : ClassLinks} (h : Found σ σ') : σ'.subclassList = σ.subclassList := by
  obtain ⟨_, rfl⟩ := h.eq
  rfl

theorem Found.complete {σ σ' : ClassLinks} (h : Found σ σ') (c : Class) : Complete σ' c ↔ Complete σ c := by
  obtain ⟨⟨superClass, rfl⟩, hsuperOf, hunnamed⟩ := h
  constructor
  · intro hc
    induction hc with
    | root hc hs hl => exact .root hc ((hunnamed _ hl).symm.trans hs) hl
    | @sub c _ hc hs _ ih => exact .sub hc ((congrFun hsuperOf c).symm.trans hs) ih
  · intro hc
    induction hc with
    | root hc hs hl => exact .root hc ((hunnamed _ hl).trans hs) hl
    | @sub c _ hc hs _ ih => exact .sub hc ((congrFun hsuperOf c).trans hs) ih

/-- One superclass has been found. -/
theorem found_super {σ : ClassLinks} {cls sup : Class} {name : String} (hs : σ.superClass cls = none)
    (hname : σ.legacySuper cls = some name) (hsup : σ.classNamed name = some sup) :
    Found σ { σ with superClass := Function.update σ.superClass cls (some sup) } := by
  refine ⟨⟨_, rfl⟩, funext fun c => ?_, fun c hc => Function.update_of_ne ?_ ..⟩
  · show (Function.update σ.superClass cls (some sup) c).or ((σ.legacySuper c).bind σ.classNamed) = _
    by_cases hc : c = cls
    · subst hc
      rw [Function.update_self, superOf, hs, hname]
      exact hsup.symm
    · rw [Function.update_of_ne hc]
      rfl
  · rintro rfl
    cases hname.symm.trans hc

theorem Complete.super {σ : ClassLinks} {c s : Class} (h : Complete σ c)
    (hs : superOf σ c = some s) : Complete σ s := by
  cases h with
  | root _ hnone hl =>
    rw [superOf, hnone, hl] at hs
    cases hs
  | sub _ hs' h =>
    obtain rfl := Option.some.inj (hs.symm.trans hs')
    exact h

/-- The chain of a resolved class is loaded. -/
theorem Ready.complete {rank : Class → ℕ} {σ : ClassLinks} (h : Ready rank σ) {c : Class} (hc : c ∈ σ.table)
    (hr : σ.resolved c = true) : Complete σ c := by
  induction hrank : rank c using Nat.strong_induction_on generalizing c with
  | _ k ih =>
    subst hrank
    have hcc := h.table_isClass hc
    cases hs : σ.superClass c with
    | none => exact .root hc hs (h.root_unnamed c hc hr hs)
    | some s =>
      have hsr := h.super_resolved c s hcc.1 hr hs
      refine .sub hc (by rw [superOf, hs]; rfl) (ih _ (h.rank_super c s hcc.1 hcc.2 hs) ?_ hsr rfl)
      exact h.super_loaded c s hcc.1 hcc.2 hs hsr

/-! ## Runs -/

/-- A program, whose class structures are in `S`, and whose `+load` methods load some of them. -/
structure Running (steps : Class → List LoadStep) (S : Finset Class) (rank : Class → ℕ)
    (σ : ClassLinks) : Prop
    extends Ready rank σ where
  loadable : ∀ c cls, .loadClass cls ∈ steps c → Loadable σ cls
  finite : ∀ c, σ.present c = true → c ∈ S

/-- The number of classes that can still be resolved. -/
def unresolvedCount (S : Finset Class) (σ : ClassLinks) : ℕ := (S.filter fun c => σ.resolved c = false).card

section Runs

variable {steps : Class → List LoadStep} {S : Finset Class} {rank : Class → ℕ} {σ σ' : ClassLinks}

theorem Running.grows (h : Running steps S rank σ) (hr : Ready rank σ') (hg : Grows σ σ') :
    Running steps S rank σ' :=
  ⟨hr, fun c cls hstep => (h.loadable c cls hstep).grows hg, by rw [hg.present]; exact h.finite⟩

theorem Grows.unresolved_le (hg : Grows σ σ') : unresolvedCount S σ' ≤ unresolvedCount S σ :=
  Finset.card_le_card fun c hc => by
    rw [Finset.mem_filter] at hc ⊢
    exact ⟨hc.1, hg.unresolved hc.2⟩

theorem Grows.unresolved_lt (hg : Grows σ σ') {c : Class} (hc : c ∈ S) (hr : σ.resolved c = false)
    (hr' : σ'.resolved c = true) : unresolvedCount S σ' < unresolvedCount S σ := by
  refine Finset.card_lt_card ⟨fun d hd => ?_, fun hsub => ?_⟩
  · rw [Finset.mem_filter] at hd ⊢
    exact ⟨hd.1, hg.unresolved hd.2⟩
  · have := hsub (Finset.mem_filter.mpr ⟨hc, hr⟩)
    cases (Finset.mem_filter.mp this).2.symm.trans hr'

/-- Only classes without subclasses have `+load` methods that load something. -/
def LeavesLoad (steps : Class → List LoadStep) (σ : ClassLinks) : Prop :=
  ∀ c d, steps c ≠ [] → IsClass σ d → σ.superClass d ≠ some c ∧ σ.legacySuper d ≠ some (σ.name c)

theorem LeavesLoad.grows (h : LeavesLoad steps σ) (hg : Grows σ σ') : LeavesLoad steps σ' := by
  intro c d hc hd
  have hd' : IsClass σ d := ⟨by rw [← hg.present]; exact hd.1, by rw [← hg.isMeta]; exact hd.2⟩
  obtain ⟨hsuper, hname⟩ := h c d hc hd'
  rw [hg.legacySuper, hg.name]
  refine ⟨fun hs => ?_, hname⟩
  rcases hg.superClass d hd'.2 with hkept | ⟨-, name, s, hlegacy, hnamed, hs'⟩
  · exact hsuper (hkept.symm.trans hs)
  · obtain rfl := Option.some.inj (hs.symm.trans hs')
    have hn : σ'.name c = name := by simpa using List.find?_some hnamed
    rw [hg.name] at hn
    exact hname (hlegacy.trans (congrArg some hn.symm))

/-- The ways in which `objc_resolve_class` gets to a class that is not on the list. -/
def Slip (steps : Class → List LoadStep) (σ : ClassLinks) : Stop → Prop
  | .notLoaded => True
  | .resolvedAgain => ¬ LeavesLoad steps σ
  | _ => False

theorem Slip.of_grows {e : Stop} (h : Slip steps σ' e) (hg : Grows σ σ') : Slip steps σ e := by
  cases e with
  | resolvedAgain => exact fun hleaves => h (hleaves.grows hg)
  | _ => exact h

/-- A run either slips, or ends with the classes ready. -/
def Ends (steps : Class → List LoadStep) (rank : Class → ℕ) (σ : ClassLinks)
    (run : ℕ → ℕ → Except Stop ClassLinks) :
    Prop :=
  (∃ e, Slip steps σ e ∧ Settles run (.error e)) ∨ ∃ σ', Settles run (.ok σ') ∧ Ready rank σ' ∧ Grows σ σ'

/-- The `+load` messages end that are sent while fewer than `u` classes can still be resolved. -/
def SendEnds (steps : Class → List LoadStep) (S : Finset Class) (rank : Class → ℕ) (u : ℕ) : Prop :=
  ∀ σ cls, Running steps S rank σ → unresolvedCount S σ < u → Ends steps rank σ fun n _ =>
  sendLoadMessage steps n σ cls

/-- A class that loads nothing has resolved classes up to `cls` only. -/
def Quiet (steps : Class → List LoadStep) (rank : Class → ℕ) (σ σ' : ClassLinks) (cls : Class) : Prop :=
  LeavesLoad steps σ → steps cls = [] →
    ∀ c, σ'.resolved c = true → σ.resolved c = true ∨ σ.isMeta c = true ∨ rank c ≤ rank cls

/-- What `objc_resolve_class` ends with. -/
def ClassEnds (steps : Class → List LoadStep) (rank : Class → ℕ) (σ : ClassLinks) (cls : Class) : Prop :=
  (∃ e, Slip steps σ e ∧ Settles (fun n m => resolveClass (sendLoadMessage steps n) m σ cls) (.error e)) ∨
  ∃ σ' ok, Settles (fun n m => resolveClass (sendLoadMessage steps n) m σ cls) (.ok (σ', ok)) ∧
  Ready rank σ' ∧
    Grows σ σ' ∧ Quiet steps rank σ σ' cls ∧ (ok = true → σ'.resolved cls = true) ∧
    (ok = false → Found σ σ' ∧ ¬ Complete σ cls ∧ σ.resolved cls = false)

/-- The end of `objc_resolve_class`, which began in the state `σ₀`. -/
theorem finishResolving_settles {u : ℕ} (hsend : SendEnds steps S rank u) {σ₀ : ClassLinks} (h₀ : Grows σ₀ σ)
    (h : Running steps S rank σ) (hu : unresolvedCount S σ ≤ u) {cls : Class}
    (hsup : ∀ s, σ.superClass cls = some s → σ.resolved s = true)
    (hroot : σ.superClass cls = none → σ.legacySuper cls = none)
    (hr : LeavesLoad steps σ₀ → σ.resolved cls = false) :
    (∃ e, Slip steps σ₀ e ∧ Settles (fun n m => finishResolving (sendLoadMessage steps n) m σ cls)
      (.error e)) ∨
    ∃ σ', Settles (fun n m => finishResolving (sendLoadMessage steps n) m σ cls) (.ok (σ', true)) ∧
    Ready rank σ' ∧
      Grows σ σ' ∧ (steps cls = [] → ∀ c, σ'.resolved c = true → σ.resolved c = true ∨
        σ.isMeta c = true ∨ c = cls) ∧
      σ'.resolved cls = true := by
  by_cases htab : cls ∈ σ.table
  swap
  · exact .inl ⟨.notLoaded, trivial, (Settles.const _).congr fun _ _ => if_pos htab⟩
  cases hres : σ.resolved cls with
  | true =>
    refine .inl ⟨.resolvedAgain, fun hleaves => ?_, (Settles.const _).congr fun n m => ?_⟩
    · cases hres.symm.trans (hr hleaves)
    · rw [finishResolving, if_neg (by simpa using htab), if_pos hres]
  | false =>
    obtain ⟨root, hrootOf, N, hN⟩ := h.rootClass_settles (h.table_isClass htab)
    obtain ⟨hready, hgrows, hres'⟩ := h.toReady.linkClass htab hres hsup hroot hrootOf
    have hlt := hgrows.unresolved_lt (h.finite cls (h.table_present cls htab)) hres hres'
    have heq : ∀ n m, N ≤ m → finishResolving (sendLoadMessage steps n) m σ cls =
        (sendLoadMessage steps n (σ.linkClass cls root) cls).map fun σ => (σ, true) := by
      intro n m hm
      rw [finishResolving, if_neg (by simpa using htab), if_neg (by simp [hres]), hN m hm]
    have hsettles : ∀ r, Settles (fun n _ => sendLoadMessage steps n (σ.linkClass cls root) cls) r →
        Settles (fun n m => finishResolving (sendLoadMessage steps n) m σ cls)
        (r.map fun σ => (σ, true)) := by
      rintro r ⟨N', hN'⟩
      refine ⟨max N N', fun n m hn hm => (heq n m ((le_max_left ..).trans hm)).trans ?_⟩
      exact congrArg _ (hN' n m ((le_max_right ..).trans hn) ((le_max_right ..).trans hm))
    rcases hsend _ cls (h.grows hready hgrows) (by omega) with ⟨e, hslip, hstop⟩ | ⟨σ', hok, hready', hgrows'⟩
    · exact .inl ⟨e, (hslip.of_grows hgrows).of_grows h₀, hsettles _ hstop⟩
    · refine .inr ⟨σ', hsettles _ hok, hready', hgrows.trans hgrows', fun hsteps c hc => ?_,
          hgrows'.resolved cls hres'⟩
      -- the `+load` method does nothing
      have hnothing : Settles (fun n _ => sendLoadMessage steps n (σ.linkClass cls root) cls)
          (.ok (σ.linkClass cls root)) := by
        refine ⟨1, fun n _ hn _ => ?_⟩
        obtain ⟨n, rfl⟩ := Nat.exists_eq_succ_of_ne_zero (by omega : n ≠ 0)
        show sendLoadMessage steps (n + 1) _ cls = _
        rw [sendLoadMessage, hsteps]
        rfl
      rw [Except.ok.inj (hok.unique hnothing)] at hc
      rcases (ClassLinks.linkClass_resolved c).mp hc with rfl | rfl | hc
      · exact .inr (.inr rfl)
      · exact .inr (.inl (h.isa_meta cls (h.table_present cls htab)))
      · exact .inl hc

theorem not_complete {c s : Class} (hs : superOf σ c = some s) (h : ¬ Complete σ s) : ¬ Complete σ c :=
  fun hc => h (hc.super hs)

/-- A class whose superclass pointer is set, once its superclass has been dealt with. -/
theorem resolveClass_super {u : ℕ} (hsend : SendEnds steps S rank u) (h : Running steps S rank σ)
    (hu : unresolvedCount S σ ≤ u) {cls sup : Class} (hc : IsClass σ cls) (hr : σ.resolved cls = false)
    (hs : σ.superClass cls = some sup) (hsup : ClassEnds steps rank σ sup) : ClassEnds steps rank σ cls := by
  have heq : ∀ n m, resolveClass (sendLoadMessage steps n) (m + 1) σ cls =
      (resolveClass (sendLoadMessage steps n) m σ sup).bind fun r =>
        if r.2 then finishResolving (sendLoadMessage steps n) m r.1 cls else .ok (r.1, false) := by
    intro n m
    rw [resolveClass, if_neg (by simp [hr]), hs]
  have hrank := h.rank_super cls sup hc.1 hc.2 hs
  -- a superclass loads nothing if only leaves do
  have hnothing : LeavesLoad steps σ → steps sup = [] := fun hleaves => by
    by_contra hsteps
    exact (hleaves sup cls hsteps hc).1 hs
  rcases hsup with ⟨e, hslip, hstop⟩ | ⟨σ₁, ok, hok, hready, hgrows, hquiet, htrue, hfalse⟩
  · exact .inl ⟨e, hslip, hstop.bind_error.succ heq⟩
  cases ok with
  | false =>
    obtain ⟨hfound, hnot, -⟩ := hfalse rfl
    refine .inr ⟨σ₁, false, ((hok.bind ?_).succ heq), hready, hgrows, fun _ _ c hcr => ?_, nofun,
      fun _ => ⟨hfound, ?_, hr⟩⟩
    · exact (Settles.const _).congr fun _ _ => if_neg (by simp)
    · exact .inl (by rwa [← hfound.resolved])
    · exact not_complete (by rw [superOf, hs]; rfl) hnot
  | true =>
    have hsuper : σ₁.superClass cls = some sup := by
      rcases hgrows.superClass cls hc.2 with hkept | ⟨hnone, -⟩
      · rw [hkept, hs]
      · cases hs.symm.trans hnone
    have hstill : LeavesLoad steps σ → σ₁.resolved cls = false := by
      intro hleaves
      rw [Bool.eq_false_iff]
      intro hres
      rcases hquiet hleaves (hnothing hleaves) cls hres with hres | hm | hle
      · exact Bool.false_ne_true (hr.symm.trans hres)
      · exact Bool.false_ne_true (hc.2.symm.trans hm)
      · omega
    have hlink := finishResolving_settles hsend hgrows (h.grows hready hgrows) (hgrows.unresolved_le.trans hu)
      (fun s hcs => by
        obtain rfl := Option.some.inj (hsuper.symm.trans hcs)
        exact htrue rfl)
      (fun hnone => by cases hsuper.symm.trans hnone) hstill
    rcases hlink with ⟨e, hslip, hstop⟩ | ⟨σ', hok', hready', hgrows', hnew, hres⟩
    · exact .inl ⟨e, hslip, (hok.bind (hstop.congr fun _ _ => if_pos rfl)).succ heq⟩
    · refine .inr ⟨σ', true, (hok.bind (hok'.congr fun _ _ => if_pos rfl)).succ heq, hready',
          hgrows.trans hgrows',
        fun hleaves hsteps c hcr => ?_, fun _ => hres, nofun⟩
      rcases hnew hsteps c hcr with hcr | hm | rfl
      · exact (hquiet hleaves (hnothing hleaves) c hcr).imp_right (Or.imp_right fun hle => by omega)
      · exact .inr (.inl (by rwa [← hgrows.isMeta]))
      · exact .inr (.inr le_rfl)

/-- **What becomes of one class**: it is resolved, or its chain is not complete and it stays as it is. -/
theorem resolveClass_settles {u : ℕ} (hsend : SendEnds steps S rank u) {cls : Class} :
    ∀ {σ : ClassLinks}, Running steps S rank σ → unresolvedCount S σ ≤ u → IsClass σ cls →
    ClassEnds steps rank σ cls := by
  induction hrank : rank cls using Nat.strong_induction_on generalizing cls with
  | _ k ih =>
    subst hrank
    intro σ h hu hc
    by_cases hr : σ.resolved cls = true
    · refine .inr ⟨σ, true, ((Settles.const _).succ fun n m => ?_), h.toReady, Grows.refl σ,
          fun _ _ _ => .inl,
        fun _ => hr, nofun⟩
      rw [resolveClass, if_pos hr]
    rw [Bool.not_eq_true] at hr
    cases hs : σ.superClass cls with
    | some sup =>
      exact resolveClass_super hsend h hu hc hr hs
        (ih _ (h.rank_super cls sup hc.1 hc.2 hs) rfl h hu (h.super_isClass cls sup hc hs))
    | none =>
      cases hname : σ.legacySuper cls with
      | none =>
        -- a root class
        have heq : ∀ n m, resolveClass (sendLoadMessage steps n) (m + 1) σ cls =
            finishResolving (sendLoadMessage steps n) m σ cls := by
          intro n m
          rw [resolveClass, if_neg (by simp [hr]), hs]
          simp only [hname]
        rcases finishResolving_settles hsend (Grows.refl σ) h hu (fun s hcs => by cases hs.symm.trans hcs)
          (fun _ => hname) (fun _ => hr) with ⟨e, hslip, hstop⟩ | ⟨σ', hok, hready, hgrows, hnew, hres⟩
        · exact .inl ⟨e, hslip, hstop.succ heq⟩
        · exact .inr ⟨σ', true, hok.succ heq, hready, hgrows, fun _ hsteps c hcr =>
            (hnew hsteps c hcr).imp_right (Or.imp_right fun hcc => le_of_eq (congrArg rank hcc)),
            fun _ => hres, nofun⟩
      | some name =>
        cases hnamed : σ.classNamed name with
        | none =>
          refine .inr ⟨σ, false, ((Settles.const _).succ fun n m => ?_), h.toReady, Grows.refl σ,
              fun _ _ _ => .inl,
            nofun, fun _ => ⟨Found.refl σ, fun hcomplete => ?_, hr⟩⟩
          · rw [resolveClass, if_neg (by simp [hr]), hs]
            simp only [hname, hnamed]
          · cases hcomplete with
            | root _ _ hl => cases hname.symm.trans hl
            | sub _ hsup =>
              rw [superOf, hs, hname, Option.none_or, Option.bind_some, hnamed] at hsup
              cases hsup
        | some sup =>
          -- the superclass that was named is the superclass from now on
          obtain ⟨hready, hgrows⟩ := h.toReady.foundSuper hc hr hs hname hnamed
          have hfound := found_super hs hname hnamed
          have hrun := h.grows hready hgrows
          have hself : Function.update σ.superClass cls (some sup) cls = some sup := Function.update_self ..
          have hends := resolveClass_super hsend hrun (hgrows.unresolved_le.trans hu) hc hr hself
            (ih _ (hready.rank_super cls sup hc.1 hc.2 hself) rfl hrun (hgrows.unresolved_le.trans hu)
              (h.table_isClass (ClassLinks.classNamed_mem hnamed)))
          have heq : ∀ n m, resolveClass (sendLoadMessage steps n) (m + 1) σ cls =
              resolveClass (sendLoadMessage steps n) m
              { σ with superClass := Function.update σ.superClass cls (some sup) }
                cls := by
            intro n m
            rw [resolveClass, if_neg (by simp [hr]), hs]
            simp only [hname, hnamed]
          rcases hends with ⟨e, hslip, hstop⟩ | ⟨σ', ok, hok, hready', hgrows', hquiet, htrue, hfalse⟩
          · exact .inl ⟨e, hslip.of_grows hgrows, hstop.succ heq⟩
          · refine .inr ⟨σ', ok, hok.succ heq, hready', hgrows.trans hgrows',
              fun hleaves => hquiet (hleaves.grows hgrows), htrue, fun hok => ?_⟩
            obtain ⟨hfound', hnot, -⟩ := hfalse hok
            exact ⟨hfound.trans hfound', mt (hfound.complete cls).mpr hnot, hr⟩

/-- What a round ends with, whose list from `start` on is `ls`. -/
def RoundEnds (steps : Class → List LoadStep) (S : Finset Class) (rank : Class → ℕ) (σ : ClassLinks)
    (start : Option Class) (ls : List Class) (resolvedClass : Bool) : Prop :=
  (∃ e, Slip steps σ e ∧
    Settles (fun n m => resolveRound (sendLoadMessage steps n) m σ start resolvedClass) (.error e)) ∨
  ∃ σ' flag, Settles (fun n m => resolveRound (sendLoadMessage steps n) m σ start resolvedClass)
  (.ok (σ', flag)) ∧
    Ready rank σ' ∧ Grows σ σ' ∧
    (flag = true → resolvedClass = true ∨ unresolvedCount S σ' < unresolvedCount S σ) ∧
    (flag = false → resolvedClass = false ∧ Found σ σ' ∧ ∀ c ∈ ls, ¬ Complete σ c)

/-- The rest of the list from a class on that waits. -/
theorem waiting_rest (h : Ready rank σ) {c : Class} (hc : c ∈ σ.table) (hr : σ.resolved c = false) :
    ∃ ls, Chain σ.subclassList (some c) ls ∧ ∀ d ∈ ls, d ∈ σ.table ∧ σ.resolved d = false := by
  obtain ⟨l, hd, hmem⟩ := h.unresolved
  obtain ⟨l₁, l₂, rfl⟩ := List.append_of_mem ((hmem c).mpr ⟨hc, hr⟩)
  exact ⟨c :: l₂, .cons c l₂ hd.chain.suffix, fun d hd' => (hmem d).mp (List.mem_append_right _ hd')⟩

/-- **A round** gets through the list, or breaks off after it has resolved a class. -/
theorem resolveRound_settles {u : ℕ} (hsend : SendEnds steps S rank u) :
    ∀ (k : ℕ) (ls : List Class) {σ : ClassLinks}
    (start : Option Class) (resolvedClass : Bool), Running steps S rank σ → unresolvedCount S σ = k → k ≤ u →
    Chain σ.subclassList start ls → (∀ c ∈ ls, c ∈ σ.table ∧ σ.resolved c = false) →
    RoundEnds steps S rank σ start ls resolvedClass := by
  intro k
  induction k using Nat.strong_induction_on with
  | _ k ihk =>
    intro ls
    induction ls with
    | nil =>
      intro σ start flag h _ _ hchain _
      obtain rfl := chain_nil.mp hchain
      exact .inr ⟨σ, flag, (Settles.const _).succ fun _ _ => rfl, h.toReady, Grows.refl σ, .inl, fun hflag =>
        ⟨hflag, Found.refl σ, nofun⟩⟩
    | cons cls ls ih =>
      intro σ start flag h hk hu hchain hls
      obtain ⟨rfl, hafter⟩ := chain_cons.mp hchain
      obtain ⟨htab, hr⟩ := hls cls List.mem_cons_self
      have heq : ∀ n m, resolveRound (sendLoadMessage steps n) (m + 1) σ (some cls) flag =
          (resolveClass (sendLoadMessage steps n) m σ cls).bind fun r =>
            resolveRound (sendLoadMessage steps n) m r.1 (σ.subclassList cls) (flag || r.1.resolved cls) := by
        intro n m
        rw [resolveRound]
        exact if_neg (by simp [hr])
      rcases resolveClass_settles hsend h (hk.trans_le hu) (h.table_isClass htab) with
        ⟨e, hslip, hstop⟩ | ⟨σ₁, ok, hok, hready, hgrows, -, htrue, hfalse⟩
      · exact .inl ⟨e, hslip, hstop.bind_error.succ heq⟩
      have hrun := h.grows hready hgrows
      cases ok with
      | false =>
        -- the list is as it was
        obtain ⟨hfound, hnot, -⟩ := hfalse rfl
        have hflag : (flag || σ₁.resolved cls) = flag := by rw [hfound.resolved, hr, Bool.or_false]
        have hcount : unresolvedCount S σ₁ =
            k := by rw [unresolvedCount, hfound.resolved, ← hk, unresolvedCount]
        rcases ih (σ.subclassList cls) flag hrun hcount hu
            (by rw [hfound.subclassList]; exact hafter) (fun c hc => by
            rw [hfound.table, hfound.resolved]
            exact hls c (List.mem_cons_of_mem _ hc)) with
          ⟨e, hslip, hstop⟩ | ⟨σ', flag', hok', hready', hgrows', htrue', hfalse'⟩
        · exact .inl ⟨e, hslip.of_grows hgrows, (hok.bind (hstop.congr fun _ _ => by rw [hflag])).succ heq⟩
        · refine .inr ⟨σ', flag', (hok.bind (hok'.congr fun _ _ => by rw [hflag])).succ heq,
              hready', hgrows.trans hgrows',
            fun hf => (htrue' hf).imp_right fun hlt => by rwa [hk, ← hcount], fun hf => ?_⟩
          obtain ⟨hflag', hfound', hnone⟩ := hfalse' hf
          refine ⟨hflag', hfound.trans hfound', fun c hc => ?_⟩
          rcases List.mem_cons.mp hc with rfl | hc
          · exact hnot
          · exact mt (hfound.complete c).mpr (hnone c hc)
      | true =>
        have hres := htrue rfl
        have hlt := hgrows.unresolved_lt (h.finite cls (h.table_present cls htab)) hr hres
        have hflag : (flag || σ₁.resolved cls) = true := by rw [hres, Bool.or_true]
        -- the next class may have been resolved on the way, or be somewhere else in the list
        have hrest : ∃ ls', RoundEnds steps S rank σ₁ (σ.subclassList cls) ls' true := by
          cases hnext : σ.subclassList cls with
          | none =>
            exact ⟨[], ihk _ (by omega) [] none true hrun rfl (by omega) .nil nofun⟩
          | some next =>
            have hmem : next ∈ ls := by
              rw [hnext] at hafter
              obtain ⟨l', rfl, -⟩ := chain_some.mp hafter
              exact List.mem_cons_self
            obtain ⟨hnt, -⟩ := hls next (List.mem_cons_of_mem _ hmem)
            cases hnr : σ₁.resolved next with
            | true =>
              refine ⟨[], .inr ⟨σ₁, true, (Settles.const _).succ fun n m => ?_, hready,
                  Grows.refl σ₁, fun _ => .inl rfl,
                nofun⟩⟩
              rw [resolveRound]
              exact (if_pos hnr).trans (if_pos rfl)
            | false =>
              obtain ⟨ls', hchain', hls'⟩ := waiting_rest hready (hgrows.table next hnt) hnr
              exact ⟨ls', ihk _ (by omega) ls' (some next) true hrun rfl (by omega) hchain' hls'⟩
        obtain ⟨ls', ⟨e, hslip, hstop⟩ | ⟨σ', flag', hok', hready', hgrows', -, hfalse'⟩⟩ := hrest
        · exact .inl ⟨e, hslip.of_grows hgrows, (hok.bind (hstop.congr fun _ _ => by rw [hflag])).succ heq⟩
        · refine .inr ⟨σ', flag', (hok.bind (hok'.congr fun _ _ => by rw [hflag])).succ heq,
              hready', hgrows.trans hgrows',
            fun _ => .inr (hgrows'.unresolved_le.trans_lt hlt), fun hf => ?_⟩
          cases (hfalse' hf).1

/-- What `objc_resolve_class_links` ends with: no class that waits has a complete chain. -/
def LinksEnd (steps : Class → List LoadStep) (rank : Class → ℕ) (σ : ClassLinks) : Prop :=
  (∃ e, Slip steps σ e ∧ Settles (fun n m => resolveClassLinks (sendLoadMessage steps n) m σ) (.error e)) ∨
  ∃ σ', Settles (fun n m => resolveClassLinks (sendLoadMessage steps n) m σ) (.ok σ') ∧
  Ready rank σ' ∧ Grows σ σ' ∧
    ∀ c ∈ σ'.table, σ'.resolved c = false → ¬ Complete σ' c

theorem resolveClassLinks_settles {u : ℕ} (hsend : SendEnds steps S rank u) : ∀ (k : ℕ) {σ : ClassLinks},
    Running steps S rank σ → unresolvedCount S σ = k → k ≤ u → LinksEnd steps rank σ := by
  intro k
  induction k using Nat.strong_induction_on with
  | _ k ih =>
    intro σ h hk hu
    obtain ⟨l, hd, hmem⟩ := h.unresolved
    have heq : ∀ n m, resolveClassLinks (sendLoadMessage steps n) (m + 1) σ =
        (resolveRound (sendLoadMessage steps n) m σ σ.unresolvedClassList false).bind fun r =>
          if r.2 then resolveClassLinks (sendLoadMessage steps n) m r.1 else .ok r.1 := fun _ _ => rfl
    rcases resolveRound_settles hsend k l σ.unresolvedClassList false h hk hu hd.chain
        (fun c hc => (hmem c).mp hc) with
      ⟨e, hslip, hstop⟩ | ⟨σ₁, flag, hok, hready, hgrows, htrue, hfalse⟩
    · exact .inl ⟨e, hslip, hstop.bind_error.succ heq⟩
    cases flag with
    | false =>
      obtain ⟨-, hfound, hnone⟩ := hfalse rfl
      refine .inr ⟨σ₁, (hok.bind ((Settles.const _).congr fun _ _ => if_neg (by simp))).succ heq,
          hready, hgrows,
        fun c hc hr => ?_⟩
      rw [hfound.table] at hc
      rw [hfound.resolved] at hr
      exact mt (hfound.complete c).mp (hnone c ((hmem c).mpr ⟨hc, hr⟩))
    | true =>
      have hlt := (htrue rfl).resolve_left (by simp)
      rcases ih _ (by omega) (h.grows hready hgrows) rfl (by omega) with
        ⟨e, hslip, hstop⟩ | ⟨σ', hok', hready', hgrows', hnone⟩
      · exact .inl ⟨e, hslip.of_grows hgrows, (hok.bind (hstop.congr fun _ _ => if_pos rfl)).succ heq⟩
      · exact .inr ⟨σ', (hok.bind (hok'.congr fun _ _ => if_pos rfl)).succ heq, hready',
            hgrows.trans hgrows', hnone⟩

/-- A `+load` method ends whose images are resolved while fewer classes are left. -/
theorem sendEnds_of_links {u : ℕ} (hlinks : ∀ {σ}, Running steps S rank σ → unresolvedCount S σ < u →
    LinksEnd steps rank σ) : SendEnds steps S rank u := by
  intro σ cls h hu
  have hstep : ∀ τ, Ready rank τ ∧ Grows σ τ → ∀ step ∈ steps cls,
      (∃ e, Slip steps σ e ∧
        Settles (fun n m => loadStep (resolveClassLinks (sendLoadMessage steps n) m) τ step) (.error e)) ∨
      ∃ τ', Settles (fun n m => loadStep (resolveClassLinks (sendLoadMessage steps n) m) τ step) (.ok τ') ∧
        Ready rank τ' ∧ Grows σ τ' := by
    rintro τ ⟨hready, hgrows⟩ step hmem
    have hrun := h.grows hready hgrows
    cases step with
    | loadClass c =>
      obtain ⟨hready', hgrows', -⟩ := hready.loadClass (hrun.loadable cls c hmem)
      exact .inr ⟨_, Settles.const _, hready', hgrows.trans hgrows'⟩
    | resolveClassLinks =>
      rcases hlinks hrun (hgrows.unresolved_le.trans_lt hu) with ⟨e, hslip, hstop⟩ | ⟨τ', hok,
          hready', hgrows', -⟩
      · exact .inl ⟨e, hslip.of_grows hgrows, hstop⟩
      · exact .inr ⟨τ', hok, hready', hgrows.trans hgrows'⟩
  rcases Settles.foldlM hstep ⟨h.toReady, Grows.refl σ⟩ with ⟨e, hslip, hstop⟩ | ⟨σ', hok, hready, hgrows⟩
  · exact .inl ⟨e, hslip, hstop.diagonal fun _ => rfl⟩
  · exact .inr ⟨σ', hok.diagonal fun _ => rfl, hready, hgrows⟩

/-- **`objc_resolve_class_links` ends**, whatever the `+load` methods load, unless it slips. -/
theorem resolveLinks_settles (h : Running steps S rank σ) : LinksEnd steps rank σ := by
  suffices ∀ u, ∀ {σ}, Running steps S rank σ → unresolvedCount S σ = u →
      LinksEnd steps rank σ from this _ h rfl
  intro u
  induction u using Nat.strong_induction_on with
  | _ u ih =>
    intro σ h hu
    exact resolveClassLinks_settles (sendEnds_of_links fun h' hlt => ih _ hlt h' rfl) u h hu le_rfl

end Runs

end LoadLinks

end Libobjc2.Classes
