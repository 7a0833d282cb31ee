import Libobjc2.Classes.ClassLinks

/-!
# The list of the unresolved classes

Results:
* `resolveClass_spec`: what `objc_resolve_class` does to a class when every unresolved class that it
  gets to is in the class table, or no class is waiting.
* `unresolved_exact`: under that condition the list that starts at `unresolved_class_list` has the
  unresolved classes of the class table, once each, with inverse links.
-/

namespace Libobjc2.Classes

open Libobjc2.Common

namespace ClassLinks

/-! ## The classes that are resolved on the way -/

/-- `objc_resolve_class` goes from the unresolved class `c` to its superclass `s`. -/
def NextSuper (σ : ClassLinks) (c s : Class) : Prop :=
  σ.resolved c = false ∧ (σ.superClass c = some s ∨
    σ.superClass c = none ∧ ∃ name, σ.legacySuper c = some name ∧ σ.classNamed name = some s)

/-- `objc_resolve_class` of `c` gets to `a`. -/
def Reaches (σ : ClassLinks) : Class → Class → Prop := Relation.ReflTransGen σ.NextSuper

/-- What `objc_resolve_class` of `cls` unlinks is a class on the list, or there is no list. -/
def ResolveOk (σ : ClassLinks) (cls : Class) : Prop :=
  ∀ a, σ.Reaches cls a → σ.resolved a = false →
    σ.isMeta a = false ∧ (a ∈ σ.table ∨ σ.unresolvedClassList = none)

/-! ## The invariant -/

/-- Everything that is reached from the class structures is one; what is above a resolved class is
    resolved; the list is exact, and the links of a class that is not in the class table yet are clear. -/
structure Linked (σ : ClassLinks) : Prop where
  table_present : ∀ c ∈ σ.table, σ.present c = true
  table_class : ∀ c ∈ σ.table, σ.isMeta c = false
  super_present : ∀ c s, σ.present c = true → σ.superClass c = some s → σ.present s = true
  isa_present : ∀ c, σ.present c = true → σ.present (σ.isa c) = true
  isa_meta : ∀ c, σ.present c = true → σ.isMeta (σ.isa c) = true
  super_resolved : ∀ c s, σ.present c = true → σ.resolved c = true → σ.superClass c = some s →
      σ.resolved s = true
  isa_resolved : ∀ c, σ.present c = true → σ.resolved c = true → σ.resolved (σ.isa c) = true
  clear : ∀ c, σ.present c = true → σ.resolved c = false → c ∉ σ.table →
    σ.subclassList c = none ∧ σ.siblingClass c = none
  unresolved : ∃ l, Doubly σ.subclassList σ.siblingClass σ.unresolvedClassList l ∧
    ∀ c, c ∈ l ↔ c ∈ σ.table ∧ σ.resolved c = false

/-- What resolving classes leaves as it is. -/
structure Resolving (σ σ' : ClassLinks) : Prop where
  present : σ'.present = σ.present
  name : σ'.name = σ.name
  isMeta : σ'.isMeta = σ.isMeta
  duplicate : σ'.duplicate = σ.duplicate
  legacySuper : σ'.legacySuper = σ.legacySuper
  table : σ'.table = σ.table
  resolved : ∀ c, σ.resolved c = true → σ'.resolved c = true
  next : ∀ c s, σ'.NextSuper c s → σ.NextSuper c s
  list_none : σ.unresolvedClassList = none → σ'.unresolvedClassList = none

theorem Resolving.refl (σ : ClassLinks) : Resolving σ σ :=
  ⟨rfl, rfl, rfl, rfl, rfl, rfl, fun _ => id, fun _ _ => id, id⟩

theorem Resolving.trans {σ τ υ : ClassLinks} (h : Resolving σ τ) (h' : Resolving τ υ) : Resolving σ υ where
  present := h'.present.trans h.present
  name := h'.name.trans h.name
  isMeta := h'.isMeta.trans h.isMeta
  duplicate := h'.duplicate.trans h.duplicate
  legacySuper := h'.legacySuper.trans h.legacySuper
  table := h'.table.trans h.table
  resolved c hc := h'.resolved c (h.resolved c hc)
  next c s hn := h.next c s (h'.next c s hn)
  list_none hl := h'.list_none (h.list_none hl)

theorem Resolving.classNamed {σ σ' : ClassLinks} (h : Resolving σ σ') : σ'.classNamed = σ.classNamed := by
  funext name
  rw [ClassLinks.classNamed, h.table, h.name, ClassLinks.classNamed]

theorem Resolving.unresolved {σ σ' : ClassLinks} (h : Resolving σ σ') {c : Class}
    (hc : σ'.resolved c = false) :
    σ.resolved c = false := by
  cases hr : σ.resolved c with
  | false => rfl
  | true => rw [h.resolved c hr] at hc; cases hc

theorem Resolving.reaches {σ σ' : ClassLinks} (h : Resolving σ σ') {c a : Class} (hc : σ'.Reaches c a) :
    σ.Reaches c a := Relation.ReflTransGen.mono (fun c s => h.next c s) _ _ hc

theorem ResolveOk.of_resolving {σ σ' : ClassLinks} {cls : Class} (hok : σ.ResolveOk cls)
    (h : Resolving σ σ') :
    σ'.ResolveOk cls := by
  intro a ha hr
  obtain ⟨hmeta, hreg⟩ := hok a (h.reaches ha) (h.unresolved hr)
  rw [h.isMeta, h.table]
  exact ⟨hmeta, hreg.imp_right h.list_none⟩

theorem NextSuper.unique {σ : ClassLinks} {c s s' : Class} (h : σ.NextSuper c s)
    (h' : σ.NextSuper c s') : s = s' := by
  obtain ⟨-, h | ⟨hn, name, hname, h⟩⟩ := h
  · obtain ⟨-, h' | ⟨hn', -⟩⟩ := h'
    · exact Option.some.inj (h.symm.trans h')
    · cases h.symm.trans hn'
  · obtain ⟨-, h' | ⟨-, name', hname', h'⟩⟩ := h'
    · cases hn.symm.trans h'
    · obtain rfl := Option.some.inj (hname.symm.trans hname')
      exact Option.some.inj (h.symm.trans h')

/-! ## Taking a class off the list -/

theorem Linked.unlinkUnresolved {σ : ClassLinks} (hl : Linked σ) {cls : Class} (hp : σ.present cls = true)
    (hr : σ.resolved cls = false) (hreg : cls ∈ σ.table ∨ σ.unresolvedClassList = none) :
    let σ' := σ.unlinkUnresolved cls
    (∃ l, Doubly σ'.subclassList σ'.siblingClass σ'.unresolvedClassList l ∧
      ∀ c, c ∈ l ↔ c ∈ σ.table ∧ σ.resolved c = false ∧ c ≠ cls) ∧
    (∀ c, ¬ (c ∈ σ.table ∧ σ.resolved c = false) → c ≠ cls →
      σ'.subclassList c = σ.subclassList c ∧ σ'.siblingClass c = σ.siblingClass c) ∧
    (σ.unresolvedClassList = none → σ'.unresolvedClassList = none) := by
  obtain ⟨l, hd, hmem⟩ := hl.unresolved
  by_cases hcls : cls ∈ l
  · obtain ⟨l₁, l₂, rfl⟩ := List.append_of_mem hcls
    have hnodup := hd.chain.nodup
    have hother : ∀ c ∈ l₁ ++ l₂, c ≠ cls := by
      rintro c hc rfl
      simp only [List.nodup_append, List.nodup_cons] at hnodup
      rcases List.mem_append.mp hc with h | h
      · exact hnodup.2.2 _ h _ (by simp) rfl
      · exact hnodup.2.1.1 h
    have hprev : ∀ p, σ.siblingClass cls = some p → p ∈ l₁ := by
      intro p hp
      have := hd.back.suffix.1.symm.trans hp
      rw [Option.or_none] at this
      exact List.mem_of_getLast? this
    have hnext : ∀ n, σ.subclassList cls = some n → n ∈ l₂ := by
      intro n hn
      have := hd.chain.suffix
      rw [hn] at this
      obtain ⟨l₃, rfl, -⟩ := chain_some.mp this
      simp
    refine ⟨⟨l₁ ++ l₂, hd.remove.congr (fun c hc => Function.update_of_ne (hother c hc) ..)
      fun c hc => Function.update_of_ne (hother c hc) .., fun c => ?_⟩, fun c hc hne => ⟨?_, ?_⟩,
          fun hnone => ?_⟩
    · rw [← and_assoc, ← hmem]
      constructor
      · intro hc
        refine ⟨?_, hother c hc⟩
        rcases List.mem_append.mp hc with h | h <;> simp [h]
      · rintro ⟨hc, hne⟩
        simpa [hne] using hc
    · refine (Function.update_of_ne hne ..).trans ?_
      cases hp : σ.siblingClass cls with
      | none => rfl
      | some p =>
        refine Function.update_of_ne ?_ ..
        rintro rfl
        exact hc ((hmem c).mp (List.mem_append_left _ (hprev c hp)))
    · refine (Function.update_of_ne hne ..).trans (setPrev_of_ne fun hn => ?_)
      exact hc ((hmem c).mp (List.mem_append_right _ (List.mem_cons_of_mem _ (hnext c hn))))
    · have := hd.chain
      rw [hnone, chain_none] at this
      simp at this
  · -- a class that never was on the list; the list is empty
    have htable : cls ∉ σ.table := fun h => hcls ((hmem cls).mpr ⟨h, hr⟩)
    obtain ⟨hnext, hprev⟩ := hl.clear cls hp hr htable
    have hnone := hreg.resolve_left htable
    have hchain := hd.chain
    rw [hnone, chain_none] at hchain
    subst hchain
    have hlist : (σ.unlinkUnresolved cls).unresolvedClassList = none := by
      show (σ.siblingClass cls).elim (σ.subclassList cls) _ = none
      rw [hprev, hnext]
      rfl
    refine ⟨⟨[], ⟨?_, trivial⟩, fun c => ?_⟩, fun c _ hne => ⟨?_, ?_⟩, fun _ => hlist⟩
    · show Chain _ (σ.unlinkUnresolved cls).unresolvedClassList []
      rw [hlist]
      exact .nil
    · have := hmem c
      simp only [List.not_mem_nil, false_iff] at this ⊢
      exact fun h => this ⟨h.1, h.2.1⟩
    · refine (Function.update_of_ne hne ..).trans ?_
      rw [hprev]
      rfl
    · refine (Function.update_of_ne hne ..).trans ?_
      rw [hnext]
      rfl

/-! ## Linking a class -/

/-- The root of a class is present; it is resolved when the superclass is. -/
theorem Linked.rootClass {σ : ClassLinks} (hl : Linked σ) : ∀ {fuel : ℕ} {cls root : Class},
    σ.rootClass fuel cls = some root → σ.present cls = true → σ.present root = true ∧
      (root = cls ∨ ∃ s, σ.superClass cls = some s ∧ (σ.resolved s = true → σ.resolved root = true))
  | 0, _, _, h, _ => by cases h
  | fuel + 1, cls, root, h, hp => by
    rw [ClassLinks.rootClass] at h
    cases hs : σ.superClass cls with
    | none =>
      rw [hs] at h
      obtain rfl := Option.some.inj h
      exact ⟨hp, .inl rfl⟩
    | some s =>
      rw [hs] at h
      have hps := hl.super_present cls s hp hs
      have h : σ.rootClass fuel s = some root := h
      obtain ⟨hroot, hcases⟩ := hl.rootClass h hps
      refine ⟨hroot, .inr ⟨s, rfl, fun hres => ?_⟩⟩
      rcases hcases with rfl | ⟨t, ht, hres'⟩
      · exact hres
      · exact hres' (hl.super_resolved s t hps hres ht)

section LinkClass

variable {σ : ClassLinks} {cls root : Class}

/-- The superclass that the metaclass of `cls` gets. -/
def superMeta (σ : ClassLinks) (cls : Class) : Class := (σ.superClass cls).elim cls σ.isa

theorem linkClass_resolved (c : Class) :
    (σ.linkClass cls root).resolved c = true ↔ c = cls ∨ c = σ.isa cls ∨ σ.resolved c = true := by
  have : (σ.linkClass cls root).resolved =
      Function.update (Function.update σ.resolved cls true) (σ.isa cls) true := by
    rw [linkClass]
    cases h : (σ.unlinkUnresolved cls).superClass cls <;> rfl
  rw [this, Function.update_apply, Function.update_apply]
  by_cases hm : c = σ.isa cls
  · simp [hm]
  · by_cases hc : c = cls <;> simp [hm, hc]

theorem linkClass_superClass :
    (σ.linkClass cls root).superClass = Function.update σ.superClass (σ.isa cls)
    (some (σ.superMeta cls)) := by
  have hs : (σ.unlinkUnresolved cls).superClass cls = σ.superClass cls := rfl
  rw [linkClass, superMeta, hs]
  cases σ.superClass cls <;> rfl

theorem linkClass_isa : (σ.linkClass cls root).isa = Function.update σ.isa (σ.isa cls) (σ.isa root) := by
  rw [linkClass]
  cases h : (σ.unlinkUnresolved cls).superClass cls <;> rfl

theorem linkClass_list : (σ.linkClass cls root).unresolvedClassList =
    (σ.unlinkUnresolved cls).unresolvedClassList := by
  rw [linkClass]
  cases h : (σ.unlinkUnresolved cls).superClass cls <;> rfl

theorem linkClass_siblingClass {c : Class} (hc : c ≠ cls) (hm : c ≠ σ.isa cls) :
    (σ.linkClass cls root).siblingClass c = (σ.unlinkUnresolved cls).siblingClass c := by
  have hm' : c ≠ (σ.unlinkUnresolved cls).isa cls := hm
  rw [linkClass]
  cases h : (σ.unlinkUnresolved cls).superClass cls with
  | none => exact Function.update_of_ne hm' ..
  | some s => exact (Function.update_of_ne hm' ..).trans (Function.update_of_ne hc ..)

theorem linkClass_subclassList {c : Class} (hs : σ.superClass cls ≠ some c) (hm : c ≠ σ.superMeta cls) :
    (σ.linkClass cls root).subclassList c = (σ.unlinkUnresolved cls).subclassList c := by
  have hm' : c ≠ ((σ.unlinkUnresolved cls).superClass cls).elim cls (σ.unlinkUnresolved cls).isa := hm
  rw [linkClass]
  cases h : (σ.unlinkUnresolved cls).superClass cls with
  | none =>
    rw [h] at hm'
    exact Function.update_of_ne hm' ..
  | some s =>
    rw [h] at hm'
    have hs' : c ≠ s := by
      rintro rfl
      exact hs h
    exact (Function.update_of_ne hm' ..).trans (Function.update_of_ne hs' ..)

/-- **A class gets its links.** -/
theorem Linked.linkClass (hl : Linked σ) (hp : σ.present cls = true) (hr : σ.resolved cls = false)
    (hreg : cls ∈ σ.table ∨ σ.unresolvedClassList = none)
    (hsup : ∀ s, σ.superClass cls = some s → σ.resolved s = true) (hroot : σ.present root = true)
    (hrr : root = cls ∨ σ.resolved root = true) :
    Linked (σ.linkClass cls root) ∧ Resolving σ (σ.linkClass cls root) := by
  obtain ⟨⟨l, hd, hmem⟩, hother, hnone⟩ := hl.unlinkUnresolved hp hr hreg
  have hmeta := hl.isa_present cls hp
  have hmetaMeta := hl.isa_meta cls hp
  have hmTable : σ.isa cls ∉ σ.table := fun h => by
    have := hl.table_class _ h
    rw [hmetaMeta] at this
    cases this
  -- the superclass of the metaclass is present and, once `cls` is, resolved
  have hsuperMeta : σ.present (σ.superMeta cls) = true ∧
      (σ.superMeta cls = cls ∨ σ.resolved (σ.superMeta cls) = true) := by
    rw [superMeta]
    cases hs : σ.superClass cls with
    | none => exact ⟨hp, .inl rfl⟩
    | some s =>
      have hps := hl.super_present cls s hp hs
      exact ⟨hl.isa_present s hps, .inr (hl.isa_resolved s hps (hsup s hs))⟩
  have hunresolved : ∀ c, (σ.linkClass cls root).resolved c = false →
      c ≠ cls ∧ c ≠ σ.isa cls ∧ σ.resolved c = false := by
    intro c hc
    have : ¬ (c = cls ∨ c = σ.isa cls ∨ σ.resolved c = true) :=
      fun h => Bool.false_ne_true (hc.symm.trans ((linkClass_resolved c).mpr h))
    push Not at this
    exact ⟨this.1, this.2.1, Bool.eq_false_iff.mpr this.2.2⟩
  have hsub : ∀ c, c ≠ cls → σ.resolved c = false →
      (σ.linkClass cls root).subclassList c = (σ.unlinkUnresolved cls).subclassList c := by
    intro c hne hc
    refine linkClass_subclassList (fun hs => ?_) ?_
    · rw [hsup c hs] at hc
      cases hc
    · rintro rfl
      rcases hsuperMeta.2 with h | h
      · exact hne h
      · rw [h] at hc
        cases hc
  have hfields : (σ.linkClass cls root).present = σ.present ∧ (σ.linkClass cls root).name = σ.name ∧
      (σ.linkClass cls root).isMeta = σ.isMeta ∧ (σ.linkClass cls root).duplicate = σ.duplicate ∧
      (σ.linkClass cls root).legacySuper = σ.legacySuper ∧ (σ.linkClass cls root).table = σ.table := by
    rw [ClassLinks.linkClass]
    cases h : (σ.unlinkUnresolved cls).superClass cls <;> exact ⟨rfl, rfl, rfl, rfl, rfl, rfl⟩
  obtain ⟨hpresent, hname, hisMeta, hdup, hlegacy, htable⟩ := hfields
  refine ⟨⟨?_, ?_, ?_, ?_, ?_, ?_, ?_, ?_, ?_⟩, hpresent, hname, hisMeta, hdup, hlegacy, htable, ?_, ?_, ?_⟩
  · rw [htable, hpresent]
    exact hl.table_present
  · rw [htable, hisMeta]
    exact hl.table_class
  · intro c s hc hs
    rw [hpresent] at hc ⊢
    rw [linkClass_superClass, Function.update_apply] at hs
    split at hs
    · rw [← Option.some.inj hs]
      exact hsuperMeta.1
    · exact hl.super_present c s hc hs
  · intro c hc
    rw [hpresent] at hc ⊢
    rw [linkClass_isa, Function.update_apply]
    split
    · exact hl.isa_present root hroot
    · exact hl.isa_present c hc
  · intro c hc
    rw [hpresent] at hc
    rw [hisMeta, linkClass_isa, Function.update_apply]
    split
    · exact hl.isa_meta root hroot
    · exact hl.isa_meta c hc
  · intro c s hc hres hs
    rw [hpresent] at hc
    rw [linkClass_superClass, Function.update_apply] at hs
    rw [linkClass_resolved] at hres ⊢
    split at hs
    · rw [← Option.some.inj hs]
      exact hsuperMeta.2.imp_right .inr
    · next hne =>
      rcases hres with rfl | rfl | hres
      · exact .inr (.inr (hsup s hs))
      · exact absurd rfl hne
      · exact .inr (.inr (hl.super_resolved c s hc hres hs))
  · intro c hc hres
    rw [hpresent] at hc
    rw [linkClass_resolved] at hres
    rw [linkClass_isa, linkClass_resolved, Function.update_apply]
    split
    · rcases hrr with rfl | hrr
      · exact .inr (.inl rfl)
      · exact .inr (.inr (hl.isa_resolved root hroot hrr))
    · next hne =>
      rcases hres with rfl | rfl | hres
      · exact .inr (.inl rfl)
      · exact absurd rfl hne
      · exact .inr (.inr (hl.isa_resolved c hc hres))
  · intro c hc hres htab
    rw [hpresent] at hc
    rw [htable] at htab
    obtain ⟨hne, hnm, hun⟩ := hunresolved c hres
    obtain ⟨hsub₀, hsib₀⟩ := hother c (fun h => htab h.1) hne
    rw [hsub c hne hun, linkClass_siblingClass hne hnm, hsub₀, hsib₀]
    exact hl.clear c hc hun htab
  · refine ⟨l, ?_, fun c => ?_⟩
    · rw [linkClass_list]
      refine hd.congr (fun c hc => ?_) fun c hc => ?_
      · obtain ⟨-, hun, hne⟩ := (hmem c).mp hc
        exact hsub c hne hun
      · obtain ⟨htab, -, hne⟩ := (hmem c).mp hc
        exact linkClass_siblingClass hne fun e => hmTable (e ▸ htab)
    · rw [hmem, htable]
      constructor
      · rintro ⟨htab, hun, hne⟩
        refine ⟨htab, Bool.eq_false_iff.mpr fun hres => ?_⟩
        rcases (linkClass_resolved c).mp hres with h | h | h
        · exact hne h
        · exact hmTable (h ▸ htab)
        · rw [h] at hun
          cases hun
      · rintro ⟨htab, hres⟩
        obtain ⟨hne, -, hun⟩ := hunresolved c hres
        exact ⟨htab, hun, hne⟩
  · exact fun c hc => (linkClass_resolved c).mpr (.inr (.inr hc))
  · rintro c s ⟨hres, hnext⟩
    obtain ⟨-, hnm, hun⟩ := hunresolved c hres
    refine ⟨hun, ?_⟩
    rwa [linkClass_superClass, Function.update_of_ne hnm, hlegacy,
      show (σ.linkClass cls root).classNamed = σ.classNamed from by
        funext n; rw [classNamed, htable, hname, classNamed]] at hnext
  · intro h
    rw [linkClass_list]
    exact hnone h

end LinkClass

/-! ## Resolving a class -/

theorem classNamed_mem {σ : ClassLinks} {name : String} {c : Class} (h : σ.classNamed name = some c) :
    c ∈ σ.table := List.mem_of_find?_eq_some h

/-- Where the superclass of a class of the old ABI has been found, the way goes on as before. -/
theorem nextSuper_found {σ : ClassLinks} {cls sup : Class} {name : String} (hs : σ.superClass cls = none)
    (hname : σ.legacySuper cls = some name) (hsup : σ.classNamed name = some sup) (c t : Class) :
    NextSuper { σ with superClass := Function.update σ.superClass cls (some sup) } c t ↔ σ.NextSuper c t := by
  show (σ.resolved c = false ∧ (Function.update σ.superClass cls (some sup) c = some t ∨
    Function.update σ.superClass cls (some sup) c = none ∧
      ∃ name, σ.legacySuper c = some name ∧ σ.classNamed name = some t)) ↔ _
  refine and_congr_right fun _ => ?_
  by_cases hc : c = cls
  · subst hc
    rw [Function.update_self, hs, hname]
    simp [hsup]
  · rw [Function.update_of_ne hc]

/-- The superclass of a class of the old ABI has been found. -/
theorem Linked.foundSuper {σ : ClassLinks} (hl : Linked σ) {cls sup : Class} {name : String}
    (hr : σ.resolved cls = false) (hs : σ.superClass cls = none) (hname : σ.legacySuper cls = some name)
    (hsup : σ.classNamed name = some sup) :
    Linked { σ with superClass := Function.update σ.superClass cls (some sup) } ∧
      Resolving σ { σ with superClass := Function.update σ.superClass cls (some sup) } := by
  refine ⟨{ hl with super_present := fun c s hc h => ?_, super_resolved := fun c s hc hres h => ?_ },
    ⟨rfl, rfl, rfl, rfl, rfl, rfl, fun _ => id, fun c s h => ?_, id⟩⟩
  · have h : Function.update σ.superClass cls (some sup) c = some s := h
    rw [Function.update_apply] at h
    split at h
    · rw [← Option.some.inj h]
      exact hl.table_present sup (classNamed_mem hsup)
    · exact hl.super_present c s hc h
  · have h : Function.update σ.superClass cls (some sup) c = some s := h
    have hne : c ≠ cls := by
      rintro rfl
      cases hr.symm.trans hres
    rw [Function.update_of_ne hne] at h
    exact hl.super_resolved c s hc hres h
  · exact (nextSuper_found hs hname hsup c s).mp h

/-- The resolution of a class that ends does not get back to it. -/
theorem resolveClass_acyclic : ∀ {fuel : ℕ} {σ : ClassLinks} {cls : Class} {r : ClassLinks × Bool},
    resolveClass fuel σ cls = some r → ¬ Relation.TransGen σ.NextSuper cls cls
  | 0, _, _, _, h => by cases h
  | fuel + 1, σ, cls, r, h => by
    intro hcycle
    obtain ⟨s, hs, hback⟩ := Relation.TransGen.head'_iff.mp hcycle
    rw [resolveClass, if_neg (by simp [hs.1])] at h
    split at h
    · next sup hsup =>
      obtain ⟨_, hrec, -⟩ := Option.bind_eq_some_iff.mp h
      obtain rfl : s = sup := hs.unique ⟨hs.1, .inl hsup⟩
      exact resolveClass_acyclic hrec (Relation.TransGen.tail' hback hs)
    · next hsup =>
      obtain ⟨hr, hs' | ⟨-, name, hname, hnamed⟩⟩ := hs
      · cases hsup.symm.trans hs'
      · simp only [hname, hnamed] at h
        -- the superclass is in `super_class` now, where the way goes on as before
        exact resolveClass_acyclic h
          (Relation.TransGen.mono (fun c t => (nextSuper_found hsup hname hnamed c t).mpr) _ _ hcycle)

/-- **What `objc_resolve_class` does.** -/
theorem resolveClass_spec : ∀ {fuel : ℕ} {σ σ' : ClassLinks} {cls : Class} {ok : Bool}, Linked σ →
    σ.present cls = true → σ.ResolveOk cls → resolveClass fuel σ cls = some (σ', ok) →
    Linked σ' ∧ Resolving σ σ' ∧ (ok = true → σ'.resolved cls = true) ∧
    ∀ c, σ'.resolved c = true → σ.resolved c = true ∨ σ.isMeta c = true ∨ σ.Reaches cls c
  | 0, _, _, _, _, _, _, _, h => by cases h
  | fuel + 1, σ, σ', cls, ok, hl, hp, hok, h => by
    have hacyclic := resolveClass_acyclic h
    rw [resolveClass] at h
    split at h
    · next hres =>
      obtain ⟨rfl, rfl⟩ := Prod.mk.inj (Option.some.inj h)
      exact ⟨hl, Resolving.refl _, fun _ => hres, fun _ => .inl⟩
    · next hres =>
      have hr : σ.resolved cls = false := Bool.eq_false_iff.mpr hres
      obtain ⟨hmeta, hreg⟩ := hok cls Relation.ReflTransGen.refl hr
      split at h
      · next sup hsup =>
        obtain ⟨⟨σ₁, ok₁⟩, hrec, h⟩ := Option.bind_eq_some_iff.mp h
        have hnext : σ.NextSuper cls sup := ⟨hr, .inl hsup⟩
        obtain ⟨hl₁, hs₁, hres₁, hnew₁⟩ := resolveClass_spec hl (hl.super_present cls sup hp hsup)
          (fun a ha => hok a (Relation.ReflTransGen.head hnext ha)) hrec
        cases ok₁ with
        | false =>
          obtain ⟨rfl, rfl⟩ := Prod.mk.inj (Option.some.inj h)
          exact ⟨hl₁, hs₁, nofun, fun c hc => (hnew₁ c hc).imp_right
            (Or.imp_right (Relation.ReflTransGen.head hnext))⟩
        | true =>
          obtain ⟨root, hroot, heq⟩ := Option.map_eq_some_iff.mp h
          obtain ⟨rfl, rfl⟩ := Prod.mk.inj heq
          have hr₁ : σ₁.resolved cls = false := by
            refine Bool.eq_false_iff.mpr fun hc => ?_
            rcases hnew₁ cls hc with h | h | h
            · exact hres h
            · rw [hmeta] at h
              cases h
            · exact hacyclic (Relation.TransGen.head' hnext h)
          have hp₁ : σ₁.present cls = true := by rw [hs₁.present, hp]
          have hsup₁ : ∀ s, σ₁.superClass cls = some s → σ₁.resolved s = true := by
            intro s hs
            rw [(hs₁.next cls s ⟨hr₁, .inl hs⟩).unique hnext]
            exact hres₁ rfl
          obtain ⟨hrp, hrr⟩ := hl₁.rootClass hroot hp₁
          have hrr₁ : root = cls ∨ σ₁.resolved root = true := by
            refine hrr.imp_right fun ⟨s, hs, hrr⟩ => hrr (hsup₁ s hs)
          obtain ⟨hl', hs'⟩ := hl₁.linkClass hp₁ hr₁
            (by rw [hs₁.table]; exact hreg.imp_right hs₁.list_none) hsup₁ hrp hrr₁
          refine ⟨hl', hs₁.trans hs', fun _ => (linkClass_resolved cls).mpr (.inl rfl), fun c hc => ?_⟩
          rcases (linkClass_resolved c).mp hc with rfl | rfl | hc
          · exact .inr (.inr Relation.ReflTransGen.refl)
          · have := hl₁.isa_meta cls hp₁
            rw [hs₁.isMeta] at this
            exact .inr (.inl this)
          · exact (hnew₁ c hc).imp_right (Or.imp_right (Relation.ReflTransGen.head hnext))
      · next hsup =>
        split at h
        · obtain ⟨rfl, rfl⟩ := Prod.mk.inj (Option.some.inj h)
          obtain ⟨hl', hs'⟩ := hl.linkClass hp hr hreg (by simp [hsup]) hp (.inl rfl)
          refine ⟨hl', hs', fun _ => (linkClass_resolved cls).mpr (.inl rfl), fun c hc => ?_⟩
          rcases (linkClass_resolved c).mp hc with rfl | rfl | hc
          · exact .inr (.inr Relation.ReflTransGen.refl)
          · exact .inr (.inl (hl.isa_meta cls hp))
          · exact .inl hc
        · next name hname =>
          split at h
          · obtain ⟨rfl, rfl⟩ := Prod.mk.inj (Option.some.inj h)
            exact ⟨hl, Resolving.refl _, nofun, fun _ => .inl⟩
          · next sup hnamed =>
            obtain ⟨hl₁, hs₁⟩ := hl.foundSuper hr hsup hname hnamed
            obtain ⟨hl', hs', hres', hnew⟩ := resolveClass_spec hl₁ hp (hok.of_resolving hs₁) h
            exact ⟨hl', hs₁.trans hs', hres', fun c hc => (hnew c hc).imp_right (Or.imp_right hs₁.reaches)⟩

/-- What linking a class and finding a superclass keep, resolving a class keeps. -/
theorem resolveClass_induction {Q : ClassLinks → Prop}
    (hlink : ∀ σ cls root, Linked σ → Q σ → σ.present cls = true → σ.resolved cls = false →
      σ.isMeta cls = false →
      (cls ∈ σ.table ∨ σ.unresolvedClassList = none) →
      (∀ s, σ.superClass cls = some s → σ.resolved s = true) →
      σ.present root = true → (root = cls ∨ σ.resolved root = true) → Q (σ.linkClass cls root))
    (hfound : ∀ σ cls sup, Linked σ → Q σ → σ.resolved cls = false → σ.superClass cls = none →
      (σ.legacySuper cls).isSome = true → sup ∈ σ.table →
      Q { σ with superClass := Function.update σ.superClass cls (some sup) }) :
    ∀ {fuel : ℕ} {σ σ' : ClassLinks} {cls : Class} {ok : Bool}, Linked σ → Q σ → σ.present cls = true →
      σ.ResolveOk cls → resolveClass fuel σ cls = some (σ', ok) → Q σ'
  | 0, _, _, _, _, _, _, _, _, h => by cases h
  | fuel + 1, σ, σ', cls, ok, hl, hq, hp, hok, h => by
    have hacyclic := resolveClass_acyclic h
    rw [resolveClass] at h
    split at h
    · obtain ⟨rfl, -⟩ := Prod.mk.inj (Option.some.inj h)
      exact hq
    · next hres =>
      have hr : σ.resolved cls = false := Bool.eq_false_iff.mpr hres
      obtain ⟨hmeta, hreg⟩ := hok cls Relation.ReflTransGen.refl hr
      split at h
      · next sup hsup =>
        obtain ⟨⟨σ₁, ok₁⟩, hrec, h⟩ := Option.bind_eq_some_iff.mp h
        have hnext : σ.NextSuper cls sup := ⟨hr, .inl hsup⟩
        have hokSup : σ.ResolveOk sup := fun a ha => hok a (Relation.ReflTransGen.head hnext ha)
        have hpSup := hl.super_present cls sup hp hsup
        obtain ⟨hl₁, hs₁, hres₁, hnew₁⟩ := resolveClass_spec hl hpSup hokSup hrec
        have hq₁ := resolveClass_induction hlink hfound hl hq hpSup hokSup hrec
        cases ok₁ with
        | false =>
          obtain ⟨rfl, -⟩ := Prod.mk.inj (Option.some.inj h)
          exact hq₁
        | true =>
          obtain ⟨root, hroot, heq⟩ := Option.map_eq_some_iff.mp h
          obtain ⟨rfl, -⟩ := Prod.mk.inj heq
          have hr₁ : σ₁.resolved cls = false := by
            refine Bool.eq_false_iff.mpr fun hc => ?_
            rcases hnew₁ cls hc with h | h | h
            · exact hres h
            · rw [hmeta] at h
              cases h
            · exact hacyclic (Relation.TransGen.head' hnext h)
          have hp₁ : σ₁.present cls = true := by rw [hs₁.present, hp]
          have hsup₁ : ∀ s, σ₁.superClass cls = some s → σ₁.resolved s = true := by
            intro s hs
            rw [(hs₁.next cls s ⟨hr₁, .inl hs⟩).unique hnext]
            exact hres₁ rfl
          obtain ⟨hrp, hrr⟩ := hl₁.rootClass hroot hp₁
          exact hlink σ₁ cls root hl₁ hq₁ hp₁ hr₁ (by rw [hs₁.isMeta, hmeta])
            (by rw [hs₁.table]; exact hreg.imp_right hs₁.list_none) hsup₁ hrp
            (hrr.imp_right fun ⟨s, hs, hrr⟩ => hrr (hsup₁ s hs))
      · next hsup =>
        split at h
        · obtain ⟨rfl, -⟩ := Prod.mk.inj (Option.some.inj h)
          exact hlink σ cls cls hl hq hp hr hmeta hreg (by simp [hsup]) hp (.inl rfl)
        · next name hname =>
          split at h
          · obtain ⟨rfl, -⟩ := Prod.mk.inj (Option.some.inj h)
            exact hq
          · next sup hnamed =>
            obtain ⟨hl₁, hs₁⟩ := hl.foundSuper hr hsup hname hnamed
            exact resolveClass_induction hlink hfound hl₁
              (hfound σ cls sup hl hq hr hsup (by rw [hname]; rfl) (classNamed_mem hnamed)) hp
              (hok.of_resolving hs₁) h

/-- No superclass is missing on the way up from a class. -/
inductive Resolvable (σ : ClassLinks) : Class → Prop where
  | resolved {c : Class} (h : σ.resolved c = true) : Resolvable σ c
  | super {c s : Class} (h : σ.superClass c = some s) (hs : Resolvable σ s) : Resolvable σ c
  | root {c : Class} (h : σ.superClass c = none) (hl : σ.legacySuper c = none) : Resolvable σ c
  | legacy {c s : Class} {name : String} (h : σ.superClass c = none) (hl : σ.legacySuper c = some name)
      (hn : σ.classNamed name = some s) (hs : Resolvable σ s) : Resolvable σ c

theorem Resolvable.found {σ : ClassLinks} {cls sup : Class} {name : String} (hs : σ.superClass cls = none)
    (hname : σ.legacySuper cls = some name) (hsup : σ.classNamed name = some sup) {c : Class}
    (h : σ.Resolvable c) :
    Resolvable { σ with superClass := Function.update σ.superClass cls (some sup) } c := by
  have hother : ∀ c, c ≠ cls → Function.update σ.superClass cls (some sup) c = σ.superClass c :=
    fun c hc => Function.update_of_ne hc ..
  induction h with
  | resolved h => exact .resolved h
  | @super c s h _ ih =>
    have hc : c ≠ cls := by
      rintro rfl
      cases hs.symm.trans h
    exact .super ((hother c hc).trans h) ih
  | @root c h hl =>
    have hc : c ≠ cls := by
      rintro rfl
      cases hname.symm.trans hl
    exact .root ((hother c hc).trans h) hl
  | @legacy c s n h hl hn _ ih =>
    by_cases hc : c = cls
    · subst hc
      obtain rfl := Option.some.inj (hname.symm.trans hl)
      obtain rfl := Option.some.inj (hsup.symm.trans hn)
      exact .super (Function.update_self ..) ih
    · exact .legacy ((hother c hc).trans h) hl hn ih

/-- Then the class is resolved. -/
theorem Resolvable.resolveClass : ∀ {fuel : ℕ} {σ σ' : ClassLinks} {cls : Class} {ok : Bool},
    σ.Resolvable cls → ClassLinks.resolveClass fuel σ cls = some (σ', ok) → ok = true
  | 0, _, _, _, _, _, h => by cases h
  | fuel + 1, σ, σ', cls, ok, hr, h => by
    rw [ClassLinks.resolveClass] at h
    split at h
    · exact (Prod.mk.inj (Option.some.inj h)).2.symm
    · next hres =>
      split at h
      · next sup hsup =>
        obtain ⟨⟨σ₁, ok₁⟩, hrec, h⟩ := Option.bind_eq_some_iff.mp h
        have hrSup : σ.Resolvable sup := by
          cases hr with
          | resolved h => exact absurd h hres
          | super h hs => rwa [Option.some.inj (hsup.symm.trans h)]
          | root h => cases hsup.symm.trans h
          | legacy h => cases hsup.symm.trans h
        obtain rfl := hrSup.resolveClass hrec
        obtain ⟨root, -, heq⟩ := Option.map_eq_some_iff.mp h
        exact (Prod.mk.inj heq).2.symm
      · next hsup =>
        split at h
        · exact (Prod.mk.inj (Option.some.inj h)).2.symm
        · next name hname =>
          split at h
          · next hnamed =>
            cases hr with
            | resolved h => exact absurd h hres
            | super h hs => cases hsup.symm.trans h
            | root h hl => cases hname.symm.trans hl
            | legacy h hl hn hs =>
              obtain rfl := Option.some.inj (hname.symm.trans hl)
              cases hnamed.symm.trans hn
          · next sup hnamed => exact (hr.found hsup hname hnamed).resolveClass h

/-! ## Operations -/

/-- Nothing but a class itself has it as its superclass or its `isa`. -/
def Unused (σ : ClassLinks) (cls : Class) (others : Class → Prop) : Prop :=
  ∀ c, σ.present c = true → others c → σ.superClass c ≠ some cls ∧ σ.isa c ≠ cls

/-- When the operations keep the list of the unresolved classes exact. -/
def LinksOk (σ : ClassLinks) : Op → Prop
  | .loadClass cls => σ.present cls = true ∧ σ.isMeta cls = false ∧
    (σ.superClass cls = none → σ.resolved (σ.isa cls) = true → σ.resolved cls = true)
  | .replaceClass .. => False
  | .resolveClass cls => σ.present cls = true ∧ σ.ResolveOk cls
  | .resolveClassLinks => ∀ c ∈ σ.table, σ.ResolveOk c
  | .getSuperclass cls => σ.present cls = true ∧ σ.ResolveOk cls
  | .addIvar cls _ => σ.present cls = true ∧ σ.ResolveOk cls
  | .allocateClassPair superclass _ cls metaclass => cls ≠ metaclass ∧ σ.present cls = false ∧
    σ.present metaclass = false ∧ ∀ s, superclass = some s → σ.present s = true
  | .registerClassPair cls => σ.present cls = true ∧ σ.isMeta cls = false ∧
    (cls ∉ σ.table ∨ σ.resolved cls = true) ∧ ∀ a, σ.Reaches cls a → a ≠ cls →
    σ.resolved a = false → a ∈ σ.table
  | .setSuperclass cls newSuper => σ.superClass cls = some newSuper ∨
    σ.present cls = true ∧ σ.present newSuper = true ∧ σ.resolved cls = true ∧ σ.ResolveOk newSuper ∧
      σ.Resolvable newSuper
  | .duplicateClass original _ cls => σ.present original = true ∧ σ.present cls = false ∧ σ.ResolveOk original
  | .initHiddenClass superclass cls => σ.present cls = false ∧ σ.present superclass = true ∧
    σ.resolved superclass = true
  | .deallocHiddenClass cls =>
      σ.present cls = true ∧ σ.resolved cls = true ∧ cls ∉ σ.table ∧ σ.Unused cls (· ≠ cls)
  | .disposeClassPair cls =>
      σ.present cls = true ∧ σ.isMeta cls = false ∧ (σ.resolved cls = true ∨ cls ∉ σ.table) ∧
    (cls ∈ σ.table → σ.classNamed (σ.name cls) = some cls ∧ σ.table.count cls = 1) ∧
    if σ.duplicate cls then σ.Unused cls (· ≠ cls)
    else σ.Unused cls (fun c => c ≠ cls ∧ c ≠ σ.isa cls) ∧ σ.Unused (σ.isa cls) fun c => c ≠ cls ∧
        c ≠ σ.isa cls

section Operations

variable {σ : ClassLinks}

theorem not_mem_of_resolved {c : Class} (hc : σ.resolved c = true) {l : List Class}
    (hmem : ∀ c, c ∈ l ↔ c ∈ σ.table ∧ σ.resolved c = false) : c ∉ l := by
  intro h
  have := ((hmem c).mp h).2
  rw [hc] at this
  cases this

/-- The links of resolved classes have nothing to do with the list. -/
theorem Linked.relink (hl : Linked σ) {subclassList siblingClass : Class → Option Class}
    (h : ∀ c, σ.present c = true → σ.resolved c = false →
      subclassList c = σ.subclassList c ∧ siblingClass c = σ.siblingClass c) :
    Linked { σ with subclassList, siblingClass } where
  __ := hl
  clear c hp hr ht := by
    obtain ⟨hsub, hsib⟩ := h c hp hr
    exact ⟨hsub.trans (hl.clear c hp hr ht).1, hsib.trans (hl.clear c hp hr ht).2⟩
  unresolved := by
    obtain ⟨l, hd, hmem⟩ := hl.unresolved
    have hc : ∀ c ∈ l, subclassList c = σ.subclassList c ∧ siblingClass c = σ.siblingClass c := fun c hc =>
      h c (hl.table_present c ((hmem c).mp hc).1) ((hmem c).mp hc).2
    exact ⟨l, hd.congr (fun c h => (hc c h).1) fun c h => (hc c h).2, hmem⟩

theorem Linked.setSuper (hl : Linked σ) {cls s : Class} (hs : σ.present s = true)
    (hr : σ.resolved cls = true → σ.resolved s = true) :
    Linked { σ with superClass := Function.update σ.superClass cls (some s) } where
  __ := hl
  super_present c t hc h := by
    have h : Function.update σ.superClass cls (some s) c = some t := h
    rw [Function.update_apply] at h
    split at h
    · rwa [← Option.some.inj h]
    · exact hl.super_present c t hc h
  super_resolved c t hc hres h := by
    have h : Function.update σ.superClass cls (some s) c = some t := h
    rw [Function.update_apply] at h
    split at h
    · next hcls =>
      rw [← Option.some.inj h]
      exact hr (hcls ▸ hres)
    · exact hl.super_resolved c t hc hres h

/-- A class gets the `isa` of another one. -/
theorem Linked.setIsa (hl : Linked σ) {cls s : Class} (hs : σ.present s = true) (hr : σ.resolved s = true) :
    Linked { σ with isa := Function.update σ.isa cls (σ.isa s) } where
  __ := hl
  isa_present c hc := by
    show σ.present (Function.update σ.isa cls (σ.isa s) c) = true
    rw [Function.update_apply]
    split
    · exact hl.isa_present s hs
    · exact hl.isa_present c hc
  isa_meta c hc := by
    show σ.isMeta (Function.update σ.isa cls (σ.isa s) c) = true
    rw [Function.update_apply]
    split
    · exact hl.isa_meta s hs
    · exact hl.isa_meta c hc
  isa_resolved c hc hres := by
    show σ.resolved (Function.update σ.isa cls (σ.isa s) c) = true
    rw [Function.update_apply]
    split
    · exact hl.isa_resolved s hs hr
    · exact hl.isa_resolved c hc hres

theorem Linked.pushSubclass (hl : Linked σ) {cls sup : Class} (hc : σ.resolved cls = true)
    (hs : σ.resolved sup = true) : Linked (σ.pushSubclass cls sup) := by
  refine hl.relink fun c _ hr => ⟨Function.update_of_ne ?_ .., Function.update_of_ne ?_ ..⟩
  · rintro rfl
    cases hr.symm.trans hs
  · rintro rfl
    cases hr.symm.trans hc

theorem Linked.moveTo (hl : Linked σ) {cls sup : Class} (hc : σ.resolved cls = true)
    (hp : σ.present sup = true) (hs : σ.resolved sup = true) : Linked (σ.moveTo cls sup) :=
  (hl.setSuper hp fun _ => hs).pushSubclass hc hs

/-- What a removal changes. -/
theorem removeSubclass_cases {fuel : ℕ} {cls sup : Class} {σ' : ClassLinks}
    (h : σ.removeSubclass fuel cls sup = some σ') :
    σ.subclassList sup = some cls ∧
      σ' = { σ with subclassList := Function.update σ.subclassList sup (σ.siblingClass cls) } ∨
    σ.subclassList sup ≠ some cls ∧ ∃ siblingClass,
      removeNext σ.siblingClass fuel (σ.subclassList sup) cls = some siblingClass ∧
      σ' = { σ with siblingClass } := by
  rw [removeSubclass] at h
  split at h
  · next hhead => exact .inl ⟨hhead, (Option.some.inj h).symm⟩
  · next hhead =>
    obtain ⟨siblingClass, hr, rfl⟩ := Option.map_eq_some_iff.mp h
    exact .inr ⟨hhead, siblingClass, hr, rfl⟩

theorem Linked.removeSubclass (hl : Linked σ) {fuel : ℕ} {cls sup : Class} {σ' : ClassLinks}
    (hc : σ.resolved cls = true) (hs : σ.resolved sup = true) (h : σ.removeSubclass fuel cls sup = some σ') :
    Linked σ' := by
  rcases removeSubclass_cases h with ⟨-, rfl⟩ | ⟨-, siblingClass, hr, rfl⟩
  · refine hl.relink fun c _ hun => ⟨Function.update_of_ne ?_ .., rfl⟩
    rintro rfl
    cases hun.symm.trans hs
  · obtain ⟨l, hd, hmem⟩ := hl.unresolved
    refine hl.relink fun c hp hun => ⟨rfl, removeNext_of_ne hr fun hnext => ?_⟩
    -- what comes before an unresolved class is on the list with it
    by_cases ht : c ∈ σ.table
    · obtain ⟨l₁, l₂, rfl⟩ := List.append_of_mem ((hmem c).mpr ⟨ht, hun⟩)
      have hlast := hd.back.suffix.1.symm.trans hnext
      rw [Option.or_none] at hlast
      exact not_mem_of_resolved hc hmem (List.mem_append_left _ (List.mem_of_getLast? hlast))
    · rw [(hl.clear c hp hun ht).2] at hnext
      cases hnext

theorem Linked.safeRemove (hl : Linked σ) {fuel : ℕ} {cls : Class} {σ' : ClassLinks}
    (hp : σ.present cls = true)
    (h : σ.safeRemove fuel cls = some σ') : Linked σ' := by
  rw [ClassLinks.safeRemove] at h
  split at h
  · rwa [← Option.some.inj h]
  · next hr =>
    have hr : σ.resolved cls = true := by simpa using hr
    cases hs : σ.superClass cls with
    | none =>
      rw [hs] at h
      rwa [← Option.some.inj h]
    | some sup =>
      rw [hs] at h
      exact hl.removeSubclass hr (hl.super_resolved cls sup hp hr hs) h

/-- A class enters the class table. -/
theorem Linked.classTableInsert (hl : Linked σ) {cls : Class} (hp : σ.present cls = true)
    (hm : σ.isMeta cls = false) (hnew : cls ∉ σ.table ∨ σ.resolved cls = true) :
    Linked (σ.classTableInsert cls) := by
  obtain ⟨l, hd, hmem⟩ := hl.unresolved
  have htp : ∀ c ∈ cls :: σ.table, σ.present c = true := fun c hc => by
    rcases List.mem_cons.mp hc with rfl | hc
    · exact hp
    · exact hl.table_present c hc
  have htm : ∀ c ∈ cls :: σ.table, σ.isMeta c = false := fun c hc => by
    rcases List.mem_cons.mp hc with rfl | hc
    · exact hm
    · exact hl.table_class c hc
  rw [ClassLinks.classTableInsert]
  split
  · next hr =>
    exact { hl with
      table_present := htp
      table_class := htm
      clear := fun c hp hun ht => hl.clear c hp hun fun h => ht (List.mem_cons_of_mem _ h)
      unresolved := by
        refine ⟨l, hd, fun c => (hmem c).trans (and_congr_left fun hun => ?_)⟩
        have hne : c ≠ cls := by
          rintro rfl
          cases hun.symm.trans hr
        simp [hne] }
  · next hr =>
    have hr : σ.resolved cls = false := Bool.eq_false_iff.mpr hr
    have ht : cls ∉ σ.table := hnew.resolve_right (by simp [hr])
    have hcls : cls ∉ l := fun h => ht ((hmem cls).mp h).1
    exact { hl with
      table_present := htp
      table_class := htm
      clear := fun c hp hun htab => by
        have hne : c ≠ cls := fun e => htab (by simp [e])
        have hct : c ∉ σ.table := fun h => htab (List.mem_cons_of_mem _ h)
        obtain ⟨hsub, hsib⟩ := hl.clear c hp hun hct
        refine ⟨(Function.update_of_ne hne ..).trans hsub, (setPrev_of_ne fun hhead => hct ?_).trans hsib⟩
        have hchain := hd.chain
        rw [hhead] at hchain
        obtain ⟨l', rfl, -⟩ := chain_some.mp hchain
        exact ((hmem c).mp (by simp)).1
      unresolved := by
        refine ⟨cls :: l, hd.push hcls (hl.clear cls hp hr ht).2, fun c => ?_⟩
        show c ∈ cls :: l ↔ c ∈ cls :: σ.table ∧ σ.resolved c = false
        rw [List.mem_cons, List.mem_cons, hmem]
        constructor
        · rintro (rfl | h)
          · exact ⟨.inl rfl, hr⟩
          · exact ⟨.inr h.1, h.2⟩
        · rintro ⟨rfl | h, hun⟩
          · exact .inl rfl
          · exact .inr ⟨h, hun⟩ }

theorem not_mem_table_of_name {cls : Class} (h : ¬ (σ.classNamed (σ.name cls)).isSome = true) :
    cls ∉ σ.table := by
  intro hmem
  rw [classNamed, List.find?_isSome] at h
  exact h ⟨cls, hmem, by simp⟩

theorem Linked.clearSubclassList (hl : Linked σ) {cls : Class} (ht : cls ∉ σ.table) :
    Linked { σ with subclassList := Function.update σ.subclassList cls none } where
  __ := hl
  clear c hp hun htab := by
    refine ⟨?_, (hl.clear c hp hun htab).2⟩
    show Function.update σ.subclassList cls none c = none
    rw [Function.update_apply]
    split
    · rfl
    · exact (hl.clear c hp hun htab).1
  unresolved := by
    obtain ⟨l, hd, hmem⟩ := hl.unresolved
    refine ⟨l, hd.congr (fun c hc => Function.update_of_ne ?_ ..) fun _ _ => rfl, hmem⟩
    rintro rfl
    exact ht ((hmem c).mp hc).1

theorem Linked.loadClass (hl : Linked σ) {cls : Class} (hok : σ.LinksOk (.loadClass cls)) :
    Linked (σ.loadClass cls) := by
  obtain ⟨hp, hm, hroot⟩ := hok
  rw [ClassLinks.loadClass]
  split
  · exact hl
  · next hname =>
    have ht := not_mem_table_of_name hname
    have hinsert := (hl.clearSubclassList ht).classTableInsert hp hm (.inl ht)
    dsimp only
    split
    · next hs =>
      rw [classTableInsert_superClass, Option.isNone_iff_eq_none] at hs
      refine hinsert.setSuper (by rw [classTableInsert_present]; exact hp) ?_
      rw [classTableInsert_resolved, classTableInsert_isa]
      exact hroot hs
    · exact hinsert

/-- New class structures at the addresses `new`. -/
theorem Linked.extend (hl : Linked σ) {σ' : ClassLinks} (new : Class → Prop)
    (hfresh : ∀ c, new c → σ.present c = false)
    (hpresent : ∀ c, σ'.present c = true ↔ new c ∨ σ.present c = true) (htable : σ'.table = σ.table)
    (hlist : σ'.unresolvedClassList = σ.unresolvedClassList)
    (hold : ∀ c, ¬ new c → σ'.superClass c = σ.superClass c ∧ σ'.isa c = σ.isa c ∧ σ'.isMeta c = σ.isMeta c ∧
      σ'.resolved c = σ.resolved c ∧ σ'.subclassList c = σ.subclassList c ∧
      σ'.siblingClass c = σ.siblingClass c)
    (hnew : ∀ c, new c → σ'.subclassList c = none ∧ σ'.siblingClass c = none ∧ σ'.present (σ'.isa c) = true ∧
      σ'.isMeta (σ'.isa c) = true ∧ (σ'.resolved c = true → σ'.resolved (σ'.isa c) = true) ∧
      ∀ s, σ'.superClass c = some s → σ'.present s = true ∧ (σ'.resolved c = true → σ'.resolved s = true)) :
    Linked σ' := by
  have hnot : ∀ c, σ.present c = true → ¬ new c := fun c hc hn => by
    rw [hfresh c hn] at hc
    cases hc
  have htn : ∀ c ∈ σ.table, ¬ new c := fun c hc => hnot c (hl.table_present c hc)
  have hcases : ∀ c, σ'.present c = true → new c ∨ ¬ new c ∧ σ.present c = true := fun c hc =>
    ((hpresent c).mp hc).imp_right fun h => ⟨hnot c h, h⟩
  refine ⟨?_, ?_, ?_, ?_, ?_, ?_, ?_, ?_, ?_⟩
  · intro c hc
    rw [htable] at hc
    exact (hpresent c).mpr (.inr (hl.table_present c hc))
  · intro c hc
    rw [htable] at hc
    rw [(hold c (htn c hc)).2.2.1]
    exact hl.table_class c hc
  · intro c s hc hs
    rcases hcases c hc with hn | ⟨hn, hp⟩
    · exact ((hnew c hn).2.2.2.2.2 s hs).1
    · rw [(hold c hn).1] at hs
      exact (hpresent s).mpr (.inr (hl.super_present c s hp hs))
  · intro c hc
    rcases hcases c hc with hn | ⟨hn, hp⟩
    · exact (hnew c hn).2.2.1
    · rw [(hold c hn).2.1]
      exact (hpresent _).mpr (.inr (hl.isa_present c hp))
  · intro c hc
    rcases hcases c hc with hn | ⟨hn, hp⟩
    · exact (hnew c hn).2.2.2.1
    · rw [(hold c hn).2.1, (hold _ (hnot _ (hl.isa_present c hp))).2.2.1]
      exact hl.isa_meta c hp
  · intro c s hc hr hs
    rcases hcases c hc with hn | ⟨hn, hp⟩
    · exact ((hnew c hn).2.2.2.2.2 s hs).2 hr
    · rw [(hold c hn).1] at hs
      rw [(hold c hn).2.2.2.1] at hr
      rw [(hold s (hnot s (hl.super_present c s hp hs))).2.2.2.1]
      exact hl.super_resolved c s hp hr hs
  · intro c hc hr
    rcases hcases c hc with hn | ⟨hn, hp⟩
    · exact (hnew c hn).2.2.2.2.1 hr
    · rw [(hold c hn).2.2.2.1] at hr
      rw [(hold c hn).2.1, (hold _ (hnot _ (hl.isa_present c hp))).2.2.2.1]
      exact hl.isa_resolved c hp hr
  · intro c hc hr ht
    rcases hcases c hc with hn | ⟨hn, hp⟩
    · exact ⟨(hnew c hn).1, (hnew c hn).2.1⟩
    · obtain ⟨-, -, -, hres, hsub, hsib⟩ := hold c hn
      rw [hres] at hr
      rw [htable] at ht
      rw [hsub, hsib]
      exact hl.clear c hp hr ht
  · obtain ⟨l, hd, hmem⟩ := hl.unresolved
    have hln : ∀ c ∈ l, ¬ new c := fun c hc => htn c ((hmem c).mp hc).1
    rw [htable, hlist]
    refine ⟨l, hd.congr (fun c hc => (hold c (hln c hc)).2.2.2.2.1) fun c hc => (hold c (hln c hc)).2.2.2.2.2,
      fun c => (hmem c).trans (and_congr_right fun hc => ?_)⟩
    rw [(hold c (htn c hc)).2.2.2.1]

/-- Class structures go that nothing leads to any more. -/
theorem Linked.shrink (hl : Linked σ) (present : Class → Bool) (table : List Class)
    (hpresent : ∀ c, present c = true → σ.present c = true)
    (hsuper : ∀ c s, present c = true → σ.superClass c = some s → present s = true)
    (hisa : ∀ c, present c = true → present (σ.isa c) = true)
    (htable : ∀ c ∈ table, c ∈ σ.table ∧ present c = true)
    (hkept : ∀ c, present c = true → σ.resolved c = false → c ∈ σ.table → c ∈ table)
    (hlist : ∀ c ∈ σ.table, σ.resolved c = false → present c = true) :
    Linked { σ with present, table } where
  table_present c hc := (htable c hc).2
  table_class c hc := hl.table_class c (htable c hc).1
  super_present := hsuper
  isa_present := hisa
  isa_meta c hc := hl.isa_meta c (hpresent c hc)
  super_resolved c s hc := hl.super_resolved c s (hpresent c hc)
  isa_resolved c hc := hl.isa_resolved c (hpresent c hc)
  clear c hc hr ht := hl.clear c (hpresent c hc) hr fun h => ht (hkept c hc hr h)
  unresolved := by
    obtain ⟨l, hd, hmem⟩ := hl.unresolved
    refine ⟨l, hd, fun c => (hmem c).trans ⟨fun h => ⟨?_, h.2⟩, fun h => ⟨(htable c h.1).1, h.2⟩⟩⟩
    exact hkept c (hlist c h.1 h.2) h.2 h.1

/-! ## Every operation -/

theorem resolveOk_of_resolved {cls : Class} (h : σ.resolved cls = true) : σ.ResolveOk cls := by
  intro a ha hr
  rcases Relation.ReflTransGen.cases_head ha with rfl | ⟨s, hs, -⟩
  · cases h.symm.trans hr
  · cases h.symm.trans hs.1

/-- Enough is a set of classes that `objc_resolve_class` does not leave. -/
theorem resolveOk_of_closed {S : List Class} (hnext : ∀ c ∈ S, ∀ s, σ.NextSuper c s → s ∈ S)
    (hS : ∀ c ∈ S, σ.isMeta c = false ∧ (c ∈ σ.table ∨ σ.unresolvedClassList = none)) :
    ∀ c ∈ S, σ.ResolveOk c := by
  intro c hc a ha hr
  clear hr
  refine hS a ?_
  induction ha with
  | refl => exact hc
  | tail _ hs ih => exact hnext _ ih _ hs

theorem resolveOk_super (hl : Linked σ) {cls sup : Class} (hok : σ.ResolveOk cls) (hp : σ.present cls = true)
    (hs : σ.superClass cls = some sup) : σ.ResolveOk sup := by
  cases hr : σ.resolved cls with
  | true => exact resolveOk_of_resolved (hl.super_resolved cls sup hp hr hs)
  | false => exact fun a ha => hok a (Relation.ReflTransGen.head ⟨hr, .inl hs⟩ ha)

theorem Linked.addIvar {fuel : ℕ} : ∀ {searched : ℕ} {σ σ' : ClassLinks} {cls : Class}, Linked σ →
    σ.present cls = true → σ.ResolveOk cls → ClassLinks.addIvar fuel searched σ cls = some σ' → Linked σ'
  | 0, _, _, _, hl, _, _, h => by rwa [← Option.some.inj h]
  | searched + 1, σ, σ', cls, hl, hp, hok, h => by
    rw [ClassLinks.addIvar] at h
    obtain ⟨⟨σ₁, sup⟩, hsup, h⟩ := Option.bind_eq_some_iff.mp h
    obtain ⟨⟨σ₂, ok⟩, hres, heq⟩ := Option.map_eq_some_iff.mp hsup
    obtain ⟨rfl, rfl⟩ := Prod.mk.inj heq
    obtain ⟨hl₁, hs₁, -, -⟩ := resolveClass_spec hl hp hok hres
    have hp₁ : σ₂.present cls = true := by rw [hs₁.present, hp]
    cases hs : σ₂.superClass cls with
    | none =>
      rw [hs] at h
      rwa [← Option.some.inj h]
    | some sup =>
      rw [hs] at h
      refine Linked.addIvar hl₁ (hl₁.super_present cls sup hp₁ hs) ?_ h
      exact resolveOk_super hl₁ (hok.of_resolving hs₁) hp₁ hs

/-- What resolving a class keeps, the rounds over the unresolved classes keep. -/
theorem Linked.resolveRound {Q : ClassLinks → Prop}
    (hQ : ∀ fuel σ σ' cls ok, Linked σ → Q σ → σ.present cls = true → σ.ResolveOk cls →
      resolveClass fuel σ cls = some (σ', ok) → Q σ') :
    ∀ {fuel : ℕ} {σ σ' : ClassLinks} {cls : Option Class} {resolvedClass r : Bool},
    Linked σ → Q σ → (∀ c ∈ σ.table, σ.ResolveOk c) → (∀ c, cls = some c → c ∈ σ.table) →
    ClassLinks.resolveRound fuel σ cls resolvedClass = some (σ', r) → Linked σ' ∧ Q σ' ∧ Resolving σ σ'
  | 0, _, _, _, _, _, _, _, _, _, h => by cases h
  | _ + 1, σ, _, none, _, _, hl, hq, _, _, h => by
    obtain ⟨rfl, -⟩ := Prod.mk.inj (Option.some.inj h)
    exact ⟨hl, hq, Resolving.refl σ⟩
  | fuel + 1, σ, σ', some cls, resolvedClass, r, hl, hq, hok, hcls, h => by
    have hct := hcls cls rfl
    rw [ClassLinks.resolveRound] at h
    split at h
    · split at h
      · obtain ⟨rfl, -⟩ := Prod.mk.inj (Option.some.inj h)
        exact ⟨hl, hq, Resolving.refl σ⟩
      · cases h
    · next hr =>
      obtain ⟨⟨σ₁, ok⟩, hres, h⟩ := Option.bind_eq_some_iff.mp h
      have hp := hl.table_present cls hct
      obtain ⟨hl₁, hs₁, -, -⟩ := resolveClass_spec hl hp (hok cls hct) hres
      have hnext : ∀ c, σ.subclassList cls = some c → c ∈ σ₁.table := by
        intro c hc
        obtain ⟨l, hd, hmem⟩ := hl.unresolved
        obtain ⟨l₁, l₂, rfl⟩ := List.append_of_mem ((hmem cls).mpr ⟨hct, Bool.eq_false_iff.mpr hr⟩)
        have hrest := hd.chain.suffix
        rw [hc] at hrest
        obtain ⟨l₃, rfl, -⟩ := chain_some.mp hrest
        rw [hs₁.table]
        exact ((hmem c).mp (by simp)).1
      obtain ⟨hl', hq', hs'⟩ := Linked.resolveRound hQ hl₁ (hQ fuel σ σ₁ cls ok hl hq hp (hok cls hct) hres)
        (fun c hc => (hok c (hs₁.table ▸ hc)).of_resolving hs₁) hnext h
      exact ⟨hl', hq', hs₁.trans hs'⟩

theorem Linked.resolveClassLinks {Q : ClassLinks → Prop}
    (hQ : ∀ fuel σ σ' cls ok, Linked σ → Q σ → σ.present cls = true → σ.ResolveOk cls →
      resolveClass fuel σ cls = some (σ', ok) → Q σ') :
    ∀ {fuel : ℕ} {σ σ' : ClassLinks}, Linked σ → Q σ → (∀ c ∈ σ.table, σ.ResolveOk c) →
    ClassLinks.resolveClassLinks fuel σ = some σ' → Linked σ' ∧ Q σ'
  | 0, _, _, _, _, _, h => by cases h
  | fuel + 1, σ, σ', hl, hq, hok, h => by
    rw [ClassLinks.resolveClassLinks] at h
    obtain ⟨⟨σ₁, r⟩, hround, h⟩ := Option.bind_eq_some_iff.mp h
    obtain ⟨hl₁, hq₁, hs₁⟩ := hl.resolveRound hQ hq hok (fun c hc => by
      obtain ⟨l, hd, hmem⟩ := hl.unresolved
      have hchain := hd.chain
      rw [hc] at hchain
      obtain ⟨l', rfl, -⟩ := chain_some.mp hchain
      exact ((hmem c).mp (by simp)).1) hround
    dsimp only at h
    split at h
    · exact Linked.resolveClassLinks hQ hl₁ hq₁ (fun c hc => (hok c (hs₁.table ▸ hc)).of_resolving hs₁) h
    · rw [← Option.some.inj h]
      exact ⟨hl₁, hq₁⟩

theorem Reaches.of_classTableInsert {cls a : Class} (h : (σ.classTableInsert cls).Reaches cls a) :
    a = cls ∨ σ.Reaches cls a := by
  induction h with
  | refl => exact .inl rfl
  | @tail b c _ hbc ih =>
    -- a name is that of the new class or looked up as before
    have hnext : c = cls ∨ σ.NextSuper b c := by
      obtain ⟨hr, hs⟩ := hbc
      rw [classTableInsert_superClass, classTableInsert_legacySuper] at hs
      rw [classTableInsert_resolved] at hr
      rcases hs with hs | ⟨hs, name, hname, hnamed⟩
      · exact .inr ⟨hr, .inl hs⟩
      · rw [classNamed, classTableInsert_table, classTableInsert_name, List.find?_cons] at hnamed
        split at hnamed
        · exact .inl (Option.some.inj hnamed).symm
        · exact .inr ⟨hr, .inr ⟨hs, name, hname, hnamed⟩⟩
    rcases hnext with rfl | hnext
    · exact .inl rfl
    · rcases ih with rfl | ih
      · exact .inr (Relation.ReflTransGen.single hnext)
      · exact .inr (Relation.ReflTransGen.tail ih hnext)

theorem registerClassPair_resolveOk (hl : Linked σ) {cls : Class} (hok : σ.LinksOk (.registerClassPair cls)) :
    (σ.classTableInsert cls).ResolveOk cls := by
  obtain ⟨-, hm, -, habove⟩ := hok
  intro a ha hr
  rw [classTableInsert_resolved] at hr
  rw [classTableInsert_isMeta, classTableInsert_table]
  by_cases hne : a = cls
  · subst hne
    exact ⟨hm, .inl (by simp)⟩
  · have ht := habove a (ha.of_classTableInsert.resolve_left hne) hne hr
    exact ⟨hl.table_class a ht, .inl (List.mem_cons_of_mem _ ht)⟩

theorem Linked.registerClassPair (hl : Linked σ) {fuel : ℕ} {cls : Class} {σ' : ClassLinks}
    (hok : σ.LinksOk (.registerClassPair cls)) (h : σ.registerClassPair fuel cls = some σ') : Linked σ' := by
  obtain ⟨⟨σ₁, ok⟩, hres, rfl⟩ := Option.map_eq_some_iff.mp h
  have hinsert := hl.classTableInsert hok.1 hok.2.1 hok.2.2.1
  exact (resolveClass_spec hinsert (by rw [classTableInsert_present]; exact hok.1)
    (registerClassPair_resolveOk hl hok) hres).1

/-- A removal from a subclass list changes nothing but the links of that list. -/
theorem safeRemove_links {fuel : ℕ} {cls : Class} {σ' : ClassLinks} (h : σ.safeRemove fuel cls = some σ') :
    ∃ subclassList siblingClass, σ' = { σ with subclassList, siblingClass } := by
  rw [ClassLinks.safeRemove] at h
  split at h
  · exact ⟨_, _, (Option.some.inj h).symm⟩
  · cases hs : σ.superClass cls with
    | none =>
      rw [hs] at h
      exact ⟨_, _, (Option.some.inj h).symm⟩
    | some sup =>
      rw [hs] at h
      rcases removeSubclass_cases h with ⟨-, rfl⟩ | ⟨-, siblingClass, -, rfl⟩
      · exact ⟨_, _, rfl⟩
      · exact ⟨_, _, rfl⟩

theorem Resolvable.relink {subclassList siblingClass : Class → Option Class} {c : Class}
    (h : σ.Resolvable c) :
    Resolvable { σ with subclassList, siblingClass } c := by
  induction h with
  | resolved h => exact .resolved h
  | super h _ ih => exact .super h ih
  | root h hl => exact .root h hl
  | legacy h hl hn _ ih => exact .legacy h hl hn ih

theorem Linked.setSuperclass (hl : Linked σ) {fuel : ℕ} {cls newSuper : Class} {σ' : ClassLinks}
    (hok : σ.LinksOk (.setSuperclass cls newSuper)) (h : σ.setSuperclass fuel cls newSuper = some σ') :
    Linked σ' := by
  rw [ClassLinks.setSuperclass] at h
  split at h
  · rwa [← Option.some.inj h]
  · next hne =>
    obtain ⟨hp, hpn, hr, hres, hable⟩ := hok.resolve_left hne
    obtain ⟨σ₁, hremove, h⟩ := Option.bind_eq_some_iff.mp h
    obtain ⟨⟨σ₂, ok⟩, hresolve, h⟩ := Option.bind_eq_some_iff.mp h
    have hl₁ := hl.safeRemove hp hremove
    obtain ⟨subclassList, siblingClass, rfl⟩ := safeRemove_links hremove
    obtain rfl := hable.relink.resolveClass hresolve
    obtain ⟨hl₂, hs₂, hrn, -⟩ := resolveClass_spec hl₁ hpn hres hresolve
    have hrn := hrn rfl
    have hr₂ : σ₂.resolved cls = true := hs₂.resolved cls hr
    have hp₂ : σ₂.present cls = true := by rw [hs₂.present]; exact hp
    have hpn₂ : σ₂.present newSuper = true := by rw [hs₂.present]; exact hpn
    have hmove := hl₂.moveTo hr₂ hpn₂ hrn
    dsimp only at h
    split at h
    · rw [← Option.some.inj h]
      exact hmove.setIsa hpn₂ hrn
    · obtain ⟨σ₃, hremove', h⟩ := Option.bind_eq_some_iff.mp h
      obtain ⟨⟨σ₄, ok'⟩, hresolve', rfl⟩ := Option.map_eq_some_iff.mp h
      have hl₃ := hmove.safeRemove (hl₂.isa_present cls hp₂) hremove'
      obtain ⟨subclassList', siblingClass', rfl⟩ := safeRemove_links hremove'
      have hmeta : σ₂.resolved (σ₂.isa newSuper) = true := hl₂.isa_resolved newSuper hpn₂ hrn
      obtain ⟨hl₄, hs₄, -, -⟩ := resolveClass_spec hl₃ (hl₂.isa_present newSuper hpn₂)
        (resolveOk_of_resolved hmeta) hresolve'
      have hpm : σ₄.present (σ₂.isa newSuper) = true := by
        rw [hs₄.present]
        exact hl₂.isa_present newSuper hpn₂
      have hrm : σ₄.resolved (σ₂.isa newSuper) = true := hs₄.resolved _ hmeta
      exact (hl₄.setIsa hpm hrm).moveTo (hs₄.resolved _ (hl₂.isa_resolved cls hp₂ hr₂)) hpm hrm

theorem Linked.allocateClassPair (hl : Linked σ) {superclass : Option Class} {name : String}
    {cls metaclass : Class}
    (hok : σ.LinksOk (.allocateClassPair superclass name cls metaclass)) :
    Linked (σ.allocateClassPair superclass name cls metaclass) := by
  obtain ⟨hne, hc, hm, hs⟩ := hok
  rw [ClassLinks.allocateClassPair]
  split
  · exact hl
  · refine hl.extend (fun c => c = cls ∨ c = metaclass) (by rintro c (rfl | rfl) <;> assumption) (fun c => ?_)
      rfl rfl (fun c hn => ?_) ?_
    · show Function.update (Function.update σ.present cls true) metaclass true c = true ↔ _
      by_cases h : c = metaclass
      · simp [h]
      · by_cases h' : c = cls <;> simp [Function.update_apply, h, h']
    · push Not at hn
      simp [ClassLinks.clear, hn]
    · have hold : ∀ c, σ.present c = true → c ≠ cls ∧ c ≠ metaclass := fun c h => by
        constructor
        · rintro rfl
          cases hc.symm.trans h
        · rintro rfl
          cases hm.symm.trans h
      have hisa : ∀ s, superclass = some s → σ.present (σ.isa s) = true ∧ σ.isMeta (σ.isa s) = true ∧
          σ.isa s ≠ cls ∧ σ.isa s ≠ metaclass := fun s h =>
        ⟨hl.isa_present s (hs s h), hl.isa_meta s (hs s h), hold _ (hl.isa_present s (hs s h))⟩
      rintro c (rfl | rfl)
      · cases superclass with
        | none => simp [ClassLinks.clear, Function.update_apply, hne]
        | some s =>
          have hsc := hold s (hs s rfl)
          simp [ClassLinks.clear, Function.update_apply, hne, hs s rfl]
      · cases superclass with
        | none => simp [ClassLinks.clear, Function.update_apply, hne.symm]
        | some s =>
          obtain ⟨hp, hmeta, hne₁, hne₂⟩ := hisa s rfl
          simp [ClassLinks.clear, Function.update_apply, hne.symm, hp, hmeta, hne₁, hne₂]

/-- A new class with the metaclass of a resolved class and a resolved superclass. -/
theorem Linked.copy (hl : Linked σ) {cls original : Class} {super : Option Class} (name : Class → String)
    (duplicate : Class → Bool) (hc : σ.present cls = false) (hp : σ.present original = true)
    (hr : σ.resolved original = true) (hs : ∀ s, super = some s → σ.present s = true ∧ σ.resolved s = true) :
    Linked
      { σ.clear cls with
        name
        isMeta := Function.update σ.isMeta cls false
        duplicate
        resolved := Function.update (σ.clear cls).resolved cls true
        isa := Function.update σ.isa cls (σ.isa original)
        superClass := Function.update σ.superClass cls super } := by
  have hisa := hl.isa_present original hp
  have hne : σ.isa original ≠ cls := by
    intro e
    rw [e, hc] at hisa
    cases hisa
  refine hl.extend (fun c => c = cls) (by rintro c rfl; exact hc) (fun c => ?_) rfl rfl (fun c hn => ?_) ?_
  · by_cases h : c = cls <;> simp [ClassLinks.clear, h]
  · simp [ClassLinks.clear, hn]
  · rintro c rfl
    refine ⟨by simp [ClassLinks.clear], by simp [ClassLinks.clear], ?_, ?_, fun _ => ?_, fun s h => ?_⟩
    · simp [ClassLinks.clear, Function.update_apply, hisa]
    · simp [hne, hl.isa_meta original hp]
    · simp [ClassLinks.clear, Function.update_apply, hl.isa_resolved original hp hr]
    · obtain ⟨hps, hrs⟩ := hs s (by simpa using h)
      simp [ClassLinks.clear, Function.update_apply, hps, hrs]

theorem Linked.duplicateClass (hl : Linked σ) {fuel : ℕ} {original cls : Class} {name : String}
    {σ' : ClassLinks}
    (hok : σ.LinksOk (.duplicateClass original name cls))
    (h : σ.duplicateClass fuel original name cls = some σ') :
    Linked σ' := by
  obtain ⟨hp, hc, hres⟩ := hok
  rw [ClassLinks.duplicateClass] at h
  split at h
  · rwa [← Option.some.inj h]
  · obtain ⟨⟨σ₁, ok⟩, hresolve, rfl⟩ := Option.map_eq_some_iff.mp h
    obtain ⟨hl₁, hs₁, hr₁, -⟩ := resolveClass_spec hl hp hres hresolve
    cases ok with
    | false => exact hl₁
    | true =>
      have hr := hr₁ rfl
      have hp : σ₁.present original = true := by rwa [hs₁.present]
      have hc : σ₁.present cls = false := by rwa [hs₁.present]
      have hsuper : ∀ s, σ₁.superClass original = some s → σ₁.present s = true ∧ σ₁.resolved s = true :=
        fun s h => ⟨hl₁.super_present original s hp h, hl₁.super_resolved original s hp hr h⟩
      have hcopy := hl₁.copy (Function.update σ₁.name cls name)
          (Function.update (σ₁.clear cls).duplicate cls true)
        hc hp hr hsuper
      show Linked (ClassLinks.classTableInsert
        (Option.elim (Function.update (σ₁.clear cls).superClass cls
          ((σ₁.clear cls).superClass original) cls) _ _) cls)
      rw [Function.update_self]
      have hclear : (σ₁.clear cls).superClass original = σ₁.superClass original := rfl
      rw [hclear]
      cases hs : σ₁.superClass original with
      | none =>
        rw [hs] at hcopy
        refine hcopy.classTableInsert ?_ ?_ (.inr ?_)
        · simp [ClassLinks.clear]
        · simp
        · simp
      | some s =>
        rw [hs] at hcopy
        have hrs : Function.update (σ₁.clear cls).resolved cls true s = true := by
          simp [Function.update_apply, ClassLinks.clear, (hsuper s hs).2]
        refine (hcopy.pushSubclass ?_ hrs).classTableInsert ?_ ?_ (.inr ?_)
        · simp
        · simp [ClassLinks.clear, ClassLinks.pushSubclass]
        · simp [ClassLinks.pushSubclass]
        · simp [ClassLinks.pushSubclass]

theorem Linked.initHiddenClass (hl : Linked σ) {superclass cls : Class}
    (hok : σ.LinksOk (.initHiddenClass superclass cls)) : Linked (σ.initHiddenClass superclass cls) := by
  obtain ⟨hc, hp, hr⟩ := hok
  rw [ClassLinks.initHiddenClass]
  split
  · exact hl
  · refine (hl.copy _ _ hc hp hr (fun s hs => ?_)).pushSubclass ?_ ?_
    · obtain rfl := Option.some.inj hs
      exact ⟨hp, hr⟩
    · simp
    · simp [Function.update_apply, ClassLinks.clear, hr]

theorem removeSubclass_links {fuel : ℕ} {cls sup : Class} {σ' : ClassLinks}
    (h : σ.removeSubclass fuel cls sup = some σ') :
    ∃ subclassList siblingClass, σ' = { σ with subclassList, siblingClass } := by
  rcases removeSubclass_cases h with ⟨-, rfl⟩ | ⟨-, siblingClass, -, rfl⟩ <;> exact ⟨_, _, rfl⟩

theorem Linked.deallocHiddenClass (hl : Linked σ) {fuel : ℕ} {cls : Class} {σ' : ClassLinks}
    (hok : σ.LinksOk (.deallocHiddenClass cls)) (h : σ.deallocHiddenClass fuel cls = some σ') :
    Linked σ' := by
  obtain ⟨hp, hr, ht, hunused⟩ := hok
  rw [ClassLinks.deallocHiddenClass] at h
  split at h
  · cases h
  · obtain ⟨σ₁, hremove, rfl⟩ := Option.map_eq_some_iff.mp h
    have hlinks : Linked σ₁ ∧ ∃ subclassList siblingClass, σ₁ = { σ with subclassList, siblingClass } := by
      cases hs : σ.superClass cls with
      | none =>
        rw [hs] at hremove
        obtain rfl := Option.some.inj hremove
        exact ⟨hl, _, _, rfl⟩
      | some sup =>
        rw [hs] at hremove
        exact ⟨hl.removeSubclass hr (hl.super_resolved cls sup hp hr hs) hremove,
            removeSubclass_links hremove⟩
    obtain ⟨hl₁, subclassList, siblingClass, rfl⟩ := hlinks
    have hpresent : ∀ c, Function.update σ.present cls false c = true ↔ c ≠ cls ∧
        σ.present c = true := fun c => by
      by_cases hc : c = cls <;> simp [hc]
    refine hl₁.shrink _ _ (fun c hc => ((hpresent c).mp hc).2) (fun c s hc hs => ?_) (fun c hc => ?_)
      (fun c hc => ⟨hc, ?_⟩) (fun _ _ _ h => h) fun c hc _ => ?_
    · obtain ⟨hne, hpc⟩ := (hpresent c).mp hc
      refine (hpresent s).mpr ⟨?_, hl.super_present c s hpc hs⟩
      rintro rfl
      exact (hunused c hpc hne).1 hs
    · obtain ⟨hne, hpc⟩ := (hpresent c).mp hc
      exact (hpresent _).mpr ⟨(hunused c hpc hne).2, hl.isa_present c hpc⟩
    all_goals
      refine (hpresent c).mpr ⟨?_, hl.table_present c hc⟩
      rintro rfl
      exact ht hc

theorem Linked.disposeClassPair (hl : Linked σ) {fuel : ℕ} {cls : Class} {σ' : ClassLinks}
    (hok : σ.LinksOk (.disposeClassPair cls)) (h : σ.disposeClassPair fuel cls = some σ') : Linked σ' := by
  obtain ⟨hp, hm, hres, htable, hunused⟩ := hok
  obtain ⟨σ₁, hmeta, h⟩ := Option.bind_eq_some_iff.mp h
  obtain ⟨σ₂, hcls, rfl⟩ := Option.map_eq_some_iff.mp h
  have hpm := hl.isa_present cls hp
  have hlinks : Linked σ₁ ∧ ∃ subclassList siblingClass, σ₁ = { σ with subclassList, siblingClass } := by
    split at hmeta
    · obtain rfl := Option.some.inj hmeta
      exact ⟨hl, _, _, rfl⟩
    · exact ⟨hl.safeRemove hpm hmeta, safeRemove_links hmeta⟩
  obtain ⟨hl₁, subclassList, siblingClass, rfl⟩ := hlinks
  have hl₂ := hl₁.safeRemove hp hcls
  obtain ⟨subclassList, siblingClass, rfl⟩ := safeRemove_links hcls
  -- the freed classes
  obtain ⟨present, hpresent, hfreed⟩ : ∃ present, present = Function.update
      (if σ.duplicate cls then σ.present else Function.update σ.present (σ.isa cls) false) cls false ∧
      ∀ c, present c = true ↔ c ≠ cls ∧ (σ.duplicate cls = true ∨ c ≠ σ.isa cls) ∧ σ.present c = true := by
    refine ⟨_, rfl, fun c => ?_⟩
    by_cases hc : c = cls
    · simp [hc]
    · cases σ.duplicate cls <;> by_cases hc' : c = σ.isa cls <;> simp [hc, hc', Function.update_apply]
  have hkept : ∀ c, present c = true → ∀ d, (σ.superClass c = some d ∨ σ.isa c = d) → σ.present d = true →
      present d = true := by
    intro c hc d hd hpd
    obtain ⟨hne, hnm, hpc⟩ := (hfreed c).mp hc
    refine (hfreed d).mpr ⟨?_, ?_, hpd⟩
    · rintro rfl
      have : σ.superClass c ≠ some d ∧ σ.isa c ≠ d := by
        split at hunused
        · exact hunused c hpc hne
        · next hdup => exact hunused.1 c hpc ⟨hne, hnm.resolve_left hdup⟩
      rcases hd with hd | hd
      · exact this.1 hd
      · exact this.2 hd
    · cases hdup : σ.duplicate cls with
      | true => exact .inl rfl
      | false =>
        refine .inr ?_
        rintro rfl
        rw [if_neg (by simp [hdup])] at hunused
        obtain ⟨hs, hi⟩ := hunused.2 c hpc ⟨hne, hnm.resolve_left (by simp [hdup])⟩
        rcases hd with hd | hd
        · exact hs hd
        · exact hi hd
  have hmt : ∀ c ∈ σ.table, c ≠ σ.isa cls := by
    rintro c hc rfl
    cases (hl.table_class _ hc).symm.trans (hl.isa_meta cls hp)
  -- the table loses `cls` and nothing else
  obtain ⟨table, htab, hmem⟩ :
      ∃ table, table = (if σ.classNamed (σ.name cls) = some cls then σ.table.erase cls
      else σ.table) ∧ ∀ c, c ∈ table ↔ c ∈ σ.table ∧ c ≠ cls := by
    refine ⟨_, rfl, fun c => ?_⟩
    by_cases hc : c = cls
    · subst hc
      by_cases ht : c ∈ σ.table
      · obtain ⟨hnamed, hcount⟩ := htable ht
        rw [if_pos hnamed]
        have := List.count_erase_self (a := c) (l := σ.table)
        simp [← List.count_pos_iff, this, hcount]
      · split
        · simpa using fun h => ht (List.mem_of_mem_erase h)
        · simpa using ht
    · split <;> simp [hc, List.mem_erase_of_ne]
  have hshrink := hl₂.shrink present table (fun c hc => ((hfreed c).mp hc).2.2)
    (fun c s hc hs => hkept c hc s (.inl hs) (hl.super_present c s ((hfreed c).mp hc).2.2 hs))
    (fun c hc => hkept c hc _ (.inr rfl) (hl.isa_present c ((hfreed c).mp hc).2.2))
    (fun c hc => ?_) (fun c hc _ ht => (hmem c).mpr ⟨ht, ((hfreed c).mp hc).1⟩) fun c ht hun => ?_
  · subst hpresent htab
    dsimp only
    split
    · next hnamed =>
      rw [if_pos (c := σ.classNamed (σ.name cls) = some cls) hnamed] at hshrink
      exact hshrink
    · next hnamed =>
      rw [if_neg (c := σ.classNamed (σ.name cls) = some cls) hnamed] at hshrink
      exact hshrink
  · obtain ⟨ht, hne⟩ := (hmem c).mp hc
    exact ⟨ht, (hfreed c).mpr ⟨hne, .inr (hmt c ht), hl.table_present c ht⟩⟩
  · refine (hfreed c).mpr ⟨?_, .inr (hmt c ht), hl.table_present c ht⟩
    rintro rfl
    rcases hres with h | h
    · cases hun.symm.trans h
    · exact h ht

/-- **Every operation keeps the list exact.** -/
theorem Linked.step (hl : Linked σ) {op : Op} {σ' : ClassLinks} (hok : σ.LinksOk op) (h : σ.Step op σ') :
    Linked σ' := by
  obtain ⟨fuel, h⟩ := h
  cases op with
  | loadClass cls =>
    rw [← Option.some.inj h]
    exact hl.loadClass hok
  | replaceClass cls old name => exact hok.elim
  | resolveClass cls =>
    obtain ⟨⟨σ₁, ok⟩, hres, rfl⟩ := Option.map_eq_some_iff.mp h
    exact (resolveClass_spec hl hok.1 hok.2 hres).1
  | resolveClassLinks =>
    exact (hl.resolveClassLinks (Q := fun _ => True) (fun _ _ _ _ _ _ _ _ _ _ => trivial) trivial hok h).1
  | getSuperclass cls =>
    obtain ⟨⟨σ₁, sup⟩, hsup, rfl⟩ := Option.map_eq_some_iff.mp h
    obtain ⟨⟨σ₂, ok⟩, hres, heq⟩ := Option.map_eq_some_iff.mp hsup
    rw [← (Prod.mk.inj heq).1]
    exact (resolveClass_spec hl hok.1 hok.2 hres).1
  | addIvar cls searched => exact hl.addIvar hok.1 hok.2 h
  | allocateClassPair superclass name cls metaclass =>
    rw [← Option.some.inj h]
    exact hl.allocateClassPair hok
  | registerClassPair cls => exact hl.registerClassPair hok h
  | setSuperclass cls newSuper => exact hl.setSuperclass hok h
  | duplicateClass original name cls => exact hl.duplicateClass hok h
  | initHiddenClass superclass cls =>
    rw [← Option.some.inj h]
    exact hl.initHiddenClass hok
  | deallocHiddenClass cls => exact hl.deallocHiddenClass hok h
  | disposeClassPair cls => exact hl.disposeClassPair hok h

end Operations

/-! ## Runs -/

/-- Before the first image is loaded: the structures in the images, with the list links clear. -/
structure Initial (σ : ClassLinks) : Prop where
  table : σ.table = []
  unresolvedClassList : σ.unresolvedClassList = none
  resolved : ∀ c, σ.resolved c = false
  subclassList : ∀ c, σ.subclassList c = none
  siblingClass : ∀ c, σ.siblingClass c = none
  super_present : ∀ c s, σ.present c = true → σ.superClass c = some s → σ.present s = true
  isa_present : ∀ c, σ.present c = true → σ.present (σ.isa c) = true
  isa_meta : ∀ c, σ.present c = true → σ.isMeta (σ.isa c) = true

theorem Initial.linked {σ : ClassLinks} (h : Initial σ) : Linked σ where
  table_present := by simp [h.table]
  table_class := by simp [h.table]
  super_present := h.super_present
  isa_present := h.isa_present
  isa_meta := h.isa_meta
  super_resolved c s _ hr := by simp [h.resolved c] at hr
  isa_resolved c _ hr := by simp [h.resolved c] at hr
  clear c _ _ _ := ⟨h.subclassList c, h.siblingClass c⟩
  unresolved := by
    rw [h.unresolvedClassList, h.table]
    exact ⟨[], ⟨.nil, trivial⟩, by simp⟩

/-- Following `unresolved_class_next` from `unresolved_class_list` visits the unresolved classes of the
    class table, once each, and the links back are the inverse of the links on. -/
def UnresolvedExact (σ : ClassLinks) : Prop :=
  ∃ l, Chain σ.subclassList σ.unresolvedClassList l ∧ l.Nodup ∧
    (∀ c, c ∈ l ↔ c ∈ σ.table ∧ σ.resolved c = false) ∧
    (∀ a ∈ l, ∀ b ∈ l, σ.subclassList a = some b ↔ σ.siblingClass b = some a) ∧
    ∀ b ∈ l, σ.siblingClass b = none ↔ σ.unresolvedClassList = some b

theorem Linked.exact {σ : ClassLinks} (hl : Linked σ) : σ.UnresolvedExact := by
  obtain ⟨l, hd, hmem⟩ := hl.unresolved
  exact ⟨l, hd.chain, hd.chain.nodup, hmem, fun a ha b hb => hd.next_iff_prev ha hb, fun b hb =>
      hd.prev_none_iff hb⟩

theorem Linked.runs {σ₀ σ : ClassLinks} (h₀ : Linked σ₀)
    (h : Runs (fun σ op σ' => σ.LinksOk op ∧ σ.Step op σ') σ₀ σ) : Linked σ :=
  h.invariant h₀ fun _ _ _ hl hs => hl.step hs.1 hs.2

/-- **The list of the unresolved classes is exact** as long as no operation resolves a class that
    should be on it and is not. -/
theorem unresolved_exact {σ₀ σ : ClassLinks} (h₀ : Initial σ₀)
    (h : Runs (fun σ op σ' => σ.LinksOk op ∧ σ.Step op σ') σ₀ σ) : σ.UnresolvedExact :=
  (h₀.linked.runs h).exact

/-- The images of two classes. `Waiting` is of the old ABI, and nobody has its superclass. -/
def twoImages : ClassLinks where
  present c := c < 4
  name c := if c < 2 then "Root" else "Waiting"
  isMeta c := c % 2 = 1
  duplicate _ := false
  resolved _ := false
  superClass _ := none
  legacySuper c := if c = 2 then some "Missing" else none
  isa c := if c % 2 = 0 then c + 1 else c
  subclassList _ := none
  siblingClass _ := none
  unresolvedClassList := none
  table := []

theorem twoImages_initial : Initial twoImages := by
  have hisa : ∀ c < 4, twoImages.present (twoImages.isa c) = true ∧
      twoImages.isMeta (twoImages.isa c) = true := by
    decide
  exact ⟨rfl, rfl, fun _ => rfl, fun _ => rfl, fun _ => rfl, (fun _ _ _ h => nomatch h),
    fun c h => (hisa c (of_decide_eq_true h)).1, fun c h => (hisa c (of_decide_eq_true h)).2⟩

/-- Once the two classes are loaded, resolving one of them gets to no other one. -/
theorem twoImages_resolveOk : ∀ c ∈ ((twoImages.loadClass 0).loadClass 2).table,
    ((twoImages.loadClass 0).loadClass 2).ResolveOk c := by
  refine resolveOk_of_closed ?_ (by decide)
  rintro c hc s ⟨-, h | ⟨-, name, hname, hnamed⟩⟩
  · have hroot : ∀ c ∈ ((twoImages.loadClass 0).loadClass 2).table,
        ((twoImages.loadClass 0).loadClass 2).superClass c = none := by decide
    cases (hroot c hc).symm.trans h
  · exact classNamed_mem hnamed

/-- A class waits for its superclass while the one that can be resolved is. -/
theorem unresolved_exact_waiting : ∃ σ, Runs (fun σ op σ' => LinksOk σ op ∧ Step σ op σ') twoImages σ ∧
    σ.unresolvedClassList = some 2 ∧ σ.UnresolvedExact := by
  obtain ⟨σ, hσ, hlist⟩ : ∃ σ, ((twoImages.loadClass 0).loadClass 2).perform 9 .resolveClassLinks = some σ ∧
      σ.unresolvedClassList = some 2 := ⟨_, rfl, rfl⟩
  have hload : Runs (fun σ op σ' => LinksOk σ op ∧ Step σ op σ') twoImages
      ((twoImages.loadClass 0).loadClass 2) := by
    refine (Runs.single (a := .loadClass 0) ⟨?_, 9, rfl⟩).tail (a := .loadClass 2) ⟨?_, 9, rfl⟩
    · exact ⟨by decide, by decide, by decide⟩
    · exact ⟨by decide, by decide, by decide⟩
  have hok : LinksOk _ .resolveClassLinks := twoImages_resolveOk
  have hrun := hload.tail (a := .resolveClassLinks) ⟨hok, 9, hσ⟩
  exact ⟨σ, hrun, hlist, unresolved_exact twoImages_initial hrun⟩

/-- `class_addIvar` resolves a class that is not in the class table yet, and the waiting class is lost. -/
theorem unresolved_lost : ∃ σ₀ σ, Initial σ₀ ∧ Runs Step σ₀ σ ∧ ¬ σ.UnresolvedExact := by
  obtain ⟨σ, hσ, hlist, hwaiting⟩ :
      ∃ σ, twoImages.performAll 9 [.loadClass 0, .loadClass 2, .resolveClassLinks,
      .allocateClassPair none "New" 4 5, .addIvar 4 1] = some σ ∧ σ.unresolvedClassList = none ∧
      2 ∈ σ.table ∧ σ.resolved 2 = false := ⟨_, rfl, rfl, by decide, by decide⟩
  refine ⟨twoImages, σ, twoImages_initial, performAll_runs hσ, ?_⟩
  rintro ⟨l, hchain, -, hmem, -⟩
  rw [hlist, chain_none] at hchain
  subst hchain
  exact absurd ((hmem 2).mpr hwaiting) (by simp)

end ClassLinks

end Libobjc2.Classes
