import Libobjc2.Classes.UnresolvedList

/-!
# The subclass lists

Results:
* `Mirrored.step`: what every operation keeps of the subclass lists.
* `subclasses_exact`: following `subclass_list` and then `sibling_class` from a class that is not in
  the list of the unresolved classes visits the resolved classes that have it as their superclass.
-/

namespace Libobjc2.Classes

open Libobjc2.Common

namespace ClassLinks

/-! ## The invariant -/

/-- A class that `objc_resolve_class` has not linked yet. -/
def Waiting (σ : ClassLinks) (c : Class) : Prop := σ.present c = true ∧ σ.isMeta c = false ∧
    σ.resolved c = false

/-- `c` belongs to the subclass list of `P`. The classes in `out` are on the way from one list to
    another. -/
def Member (σ : ClassLinks) (out : Class → Prop) (P c : Class) : Prop :=
  σ.present c = true ∧ σ.resolved c = true ∧ σ.superClass c = some P ∧ ¬ out c

/-- The lists of these classes are exact. -/
def Owner (σ : ClassLinks) (bad : Class → Prop) (P : Class) : Prop :=
  σ.present P = true ∧ σ.resolved P = true ∧ ¬ bad P

/-- The subclass lists are exact, but for those of the classes in `bad`, which get the metaclasses that
    several classes share. -/
structure Mirrored (bad out : Class → Prop) (σ : ClassLinks) : Prop where
  lists : Lists σ.siblingClass σ.subclassList (σ.Member out) (σ.Owner bad)
  super_class : ∀ c s, σ.present c = true → σ.isMeta c = false → σ.superClass c = some s → σ.isMeta s = false
  meta_bad : ∀ c s, σ.Waiting c → σ.resolved (σ.isa c) = true → σ.superClass (σ.isa c) = some s → bad s
  shared_bad : ∀ c d, σ.Waiting c → σ.Waiting d → c ≠ d → σ.isa c = σ.isa d →
    σ.legacySuper c = none ∧ bad (σ.superMeta c)
  out_resolved : ∀ c, out c → σ.resolved c = true
  out_meta : ∀ c d, out c → σ.Waiting d → σ.isa d ≠ c

section Linking

variable {σ : ClassLinks} {bad out : Class → Prop} {cls root : Class}

/-- A class that is not resolved is in no subclass list, and nothing is in its own. -/
theorem Linked.not_member (hl : Linked σ) {P c : Class} (hr : σ.resolved c = false ∨ σ.resolved P = false) :
    ¬ σ.Member out P c := by
  rintro ⟨hp, hres, hs, -⟩
  rcases hr with hr | hr
  · cases hr.symm.trans hres
  · cases hr.symm.trans (hl.super_resolved c P hp hres hs)

/-- The classes as `objc_resolve_class` has linked them. -/
theorem linkClass_links (σ : ClassLinks) (cls root : Class) : ∃ τ : ClassLinks,
    τ.subclassList = (σ.unlinkUnresolved cls).subclassList ∧
    τ.siblingClass = (σ.unlinkUnresolved cls).siblingClass ∧
    (σ.linkClass cls root).subclassList =
      (((σ.superClass cls).elim τ (τ.pushSubclass cls)).pushSubclass (σ.isa cls)
        (σ.superMeta cls)).subclassList ∧
    (σ.linkClass cls root).siblingClass =
      (((σ.superClass cls).elim τ (τ.pushSubclass cls)).pushSubclass (σ.isa cls)
        (σ.superMeta cls)).siblingClass := by
  have hs : (σ.unlinkUnresolved cls).superClass cls = σ.superClass cls := rfl
  rw [linkClass, superMeta, hs]
  cases σ.superClass cls <;> exact ⟨_, rfl, rfl, rfl, rfl⟩

/-- A class and its metaclass enter the lists of their superclasses. -/
theorem Mirrored.linkClass_lists (root : Class) (hm : Mirrored bad out σ) (hl : Linked σ) (hw : σ.Waiting cls)
    (hreg : cls ∈ σ.table ∨ σ.unresolvedClassList = none) :
    Lists (σ.linkClass cls root).siblingClass (σ.linkClass cls root).subclassList
      (fun P c => ((σ.Member out P c ∧ c ≠ σ.isa cls) ∨ σ.superClass cls = some P ∧ c = cls) ∨
        P = σ.superMeta cls ∧ c = σ.isa cls)
      (fun P => (σ.Owner bad P ∨ P = cls ∨ P = σ.isa cls) ∧ ¬ bad P) := by
  obtain ⟨hp, hmeta, hr⟩ := hw
  obtain ⟨-, hother, -⟩ := hl.unlinkUnresolved hp hr hreg
  have hpm := hl.isa_present cls hp
  have hmm := hl.isa_meta cls hp
  have hne : σ.isa cls ≠ cls := by
    intro e
    rw [e, hmeta] at hmm
    cases hmm
  have hresolved : ∀ c, σ.resolved c = true → c ≠ cls ∧ ¬ (c ∈ σ.table ∧ σ.resolved c = false) := by
    intro c hc
    refine ⟨?_, fun h => by cases hc.symm.trans h.2⟩
    rintro rfl
    cases hr.symm.trans hc
  -- what the way out of the list of the unresolved classes leaves
  have hunlinked : Lists (σ.unlinkUnresolved cls).siblingClass (σ.unlinkUnresolved cls).subclassList
      (fun P c => σ.Member out P c ∧ c ≠ σ.isa cls)
      (fun P => (σ.Owner bad P ∨ P = cls ∨ P = σ.isa cls) ∧ ¬ bad P) := by
    have hold : Lists (σ.unlinkUnresolved cls).siblingClass (σ.unlinkUnresolved cls).subclassList
        (fun P c => σ.Member out P c ∧ c ≠ σ.isa cls) (σ.Owner bad) := by
      refine hm.lists.congr (fun _ h => h) (fun P c _ hc => ?_) (fun P hP => ?_) fun P c hP => ?_
      · exact (hother c (hresolved c hc.2.1).2 (hresolved c hc.2.1).1).2
      · exact (hother P (hresolved P hP.2.1).2 (hresolved P hP.2.1).1).1
      · refine and_iff_left_of_imp fun hc => ?_
        rintro rfl
        exact hP.2.2 (hm.meta_bad cls P ⟨hp, hmeta, hr⟩ hc.2.1 hc.2.2.1)
    refine hold.extend fun P ⟨hP, hbad⟩ => ?_
    rcases hP with hP | rfl | rfl
    · exact .inl hP
    · exact .inr ⟨Function.update_self .., fun c hc => hl.not_member (.inr hr) hc.1⟩
    · cases hrm : σ.resolved (σ.isa cls) with
      | true => exact .inl ⟨hpm, hrm, hbad⟩
      | false =>
        have htable : σ.isa cls ∉ σ.table := fun h => by cases (hl.table_class _ h).symm.trans hmm
        refine .inr ⟨?_, fun c hc => hl.not_member (.inr hrm) hc.1⟩
        rw [(hother _ (fun h => htable h.1) hne).1]
        exact (hl.clear _ hpm hrm htable).1
  obtain ⟨τ, hsub, hsib, hsub', hsib'⟩ := linkClass_links σ cls root
  rw [hsub', hsib']
  rw [← hsub, ← hsib] at hunlinked
  have hcls : Lists ((σ.superClass cls).elim τ (τ.pushSubclass cls)).siblingClass
      ((σ.superClass cls).elim τ (τ.pushSubclass cls)).subclassList
      (fun P c => (σ.Member out P c ∧ c ≠ σ.isa cls) ∨ σ.superClass cls = some P ∧ c = cls)
      (fun P => (σ.Owner bad P ∨ P = cls ∨ P = σ.isa cls) ∧ ¬ bad P) := by
    cases hs : σ.superClass cls with
    | none => exact hunlinked.congr (fun _ h => h) (fun _ _ _ _ => rfl) (fun _ _ => rfl) fun _ _ _ => by simp
    | some s =>
      refine (hunlinked.push fun Q _ hQ => hl.not_member (.inl hr) hQ.1).congr (fun _ h => h)
          (fun _ _ _ _ => rfl)
        (fun _ _ => rfl) fun Q c _ => or_congr_right (and_congr_left fun _ => ?_)
      rw [Option.some.injEq, eq_comm]
  refine hcls.push fun Q _ hQ => ?_
  rcases hQ with hQ | hQ
  · exact hQ.2 rfl
  · exact hne hQ.2

theorem linkClass_fields (σ : ClassLinks) (cls root : Class) : (σ.linkClass cls root).present = σ.present ∧
    (σ.linkClass cls root).isMeta = σ.isMeta ∧ (σ.linkClass cls root).legacySuper = σ.legacySuper := by
  rw [ClassLinks.linkClass]
  cases h : (σ.unlinkUnresolved cls).superClass cls <;> exact ⟨rfl, rfl, rfl⟩

/-- The superclass of the metaclass of a class does not change where the metaclass of a class does not. -/
theorem superMeta_eq {τ : ClassLinks} (hl : Linked σ) (hm : Mirrored bad out σ) {c : Class} (hc : σ.Waiting c)
    (hs : τ.superClass c = σ.superClass c) (hi : ∀ d, σ.present d = true → σ.isMeta d = false →
      τ.isa d = σ.isa d) :
    τ.superMeta c = σ.superMeta c := by
  rw [superMeta, superMeta, hs]
  cases h : σ.superClass c with
  | none => rfl
  | some s => exact hi s (hl.super_present c s hc.1 h) (hm.super_class c s hc.1 hc.2.1 h)

/-- **Linking a class keeps the subclass lists.** -/
theorem Mirrored.linkClass (hm : Mirrored bad out σ) (hl : Linked σ) (hw : σ.Waiting cls)
    (hreg : cls ∈ σ.table ∨ σ.unresolvedClassList = none) : Mirrored bad out (σ.linkClass cls root) := by
  have hlists := hm.linkClass_lists root hl hw hreg
  have hpm := hl.isa_present cls hw.1
  have hmm := hl.isa_meta cls hw.1
  obtain ⟨hpresent, hisMeta, hlegacy⟩ := linkClass_fields σ cls root
  have hmetaNe : ∀ c, σ.isMeta c = false → c ≠ σ.isa cls := by
    rintro c hc rfl
    cases hc.symm.trans hmm
  have hisa : ∀ c, σ.isMeta c = false → (σ.linkClass cls root).isa c = σ.isa c := fun c hc => by
    rw [linkClass_isa, Function.update_of_ne (hmetaNe c hc)]
  have hsuper : ∀ c, c ≠ σ.isa cls → (σ.linkClass cls root).superClass c = σ.superClass c := fun c hc => by
    rw [linkClass_superClass, Function.update_of_ne hc]
  have hwaiting : ∀ c, (σ.linkClass cls root).Waiting c → σ.Waiting c ∧ c ≠ cls := by
    rintro c ⟨hp, hmeta, hr⟩
    rw [hpresent] at hp
    rw [hisMeta] at hmeta
    have : ¬ (c = cls ∨ c = σ.isa cls ∨ σ.resolved c = true) :=
      fun h => Bool.false_ne_true (hr.symm.trans ((linkClass_resolved c).mpr h))
    push Not at this
    exact ⟨⟨hp, hmeta, Bool.eq_false_iff.mpr this.2.2⟩, this.1⟩
  refine ⟨?_, ?_, ?_, ?_, ?_, ?_⟩
  · refine hlists.congr (fun P hP => ?_) (fun _ _ _ _ => rfl) (fun _ _ => rfl) fun P c hP => ?_
    · obtain ⟨hp, hr, hbad⟩ := hP
      rw [hpresent] at hp
      rcases (linkClass_resolved P).mp hr with h | h | h
      · exact ⟨.inr (.inl h), hbad⟩
      · exact ⟨.inr (.inr h), hbad⟩
      · exact ⟨.inl ⟨hp, h, hbad⟩, hbad⟩
    · rw [Member, hpresent, linkClass_resolved]
      by_cases hcm : c = σ.isa cls
      · -- the metaclass is in the list of its new superclass
        subst hcm
        have hout : ¬ out (σ.isa cls) := fun h => hm.out_meta _ cls h hw rfl
        rw [linkClass_superClass, Function.update_self]
        have hne : σ.isa cls ≠ cls := (hmetaNe cls hw.2.1).symm
        constructor
        · rintro ⟨-, -, hs, -⟩
          exact .inr ⟨(Option.some.inj hs).symm, rfl⟩
        · rintro ((h | h) | h)
          · exact absurd rfl h.2
          · exact absurd h.2 hne
          · exact ⟨hpm, .inr (.inl rfl), by rw [h.1], hout⟩
      · rw [hsuper c hcm]
        by_cases hcc : c = cls
        · subst hcc
          have hout : ¬ out c := fun h => by cases (hm.out_resolved c h).symm.trans hw.2.2
          have hnot : ¬ σ.Member out P c := hl.not_member (.inl hw.2.2)
          simp [hw.1, hout, hnot, hcm]
        · simp [Member, hcm, hcc]
  · intro c s hp hmeta hs
    rw [hpresent] at hp
    rw [hisMeta] at hmeta ⊢
    rw [hsuper c (hmetaNe c hmeta)] at hs
    exact hm.super_class c s hp hmeta hs
  · intro c s hc hr hs
    obtain ⟨hwc, hne⟩ := hwaiting c hc
    rw [hisa c hwc.2.1] at hr hs
    by_cases hshared : σ.isa c = σ.isa cls
    · rw [hshared, linkClass_superClass, Function.update_self] at hs
      rw [← Option.some.inj hs]
      exact (hm.shared_bad cls c hw hwc hne.symm hshared.symm).2
    · rw [hsuper _ hshared] at hs
      rcases (linkClass_resolved _).mp hr with h | h | h
      · have := hl.isa_meta c hwc.1
        rw [h, hw.2.1] at this
        cases this
      · exact absurd h hshared
      · exact hm.meta_bad c s hwc h hs
  · intro c d hc hd hne hshared
    obtain ⟨hwc, -⟩ := hwaiting c hc
    obtain ⟨hwd, -⟩ := hwaiting d hd
    rw [hisa c hwc.2.1, hisa d hwd.2.1] at hshared
    rw [hlegacy, superMeta_eq hl hm hwc (hsuper c (hmetaNe c hwc.2.1)) fun s _ hs => hisa s hs]
    exact hm.shared_bad c d hwc hwd hne hshared
  · exact fun c hc => (linkClass_resolved c).mpr (.inr (.inr (hm.out_resolved c hc)))
  · intro c d hc hd
    obtain ⟨hwd, -⟩ := hwaiting d hd
    rw [hisa d hwd.2.1]
    exact hm.out_meta c d hc hwd

/-- **Resolving a class keeps the subclass lists.** -/
theorem Mirrored.resolveClass (hm : Mirrored bad out σ) (hl : Linked σ) {fuel : ℕ} {σ' : ClassLinks}
    {ok : Bool}
    (hp : σ.present cls = true) (hok : σ.ResolveOk cls) (h : σ.resolveClass fuel cls = some (σ', ok)) :
    Mirrored bad out σ' := by
  refine resolveClass_induction (Q := Mirrored bad out) ?_ ?_ hl hm hp hok h
  · intro σ cls root hl hm hp hr hmeta hreg _ _ _
    exact hm.linkClass hl ⟨hp, hmeta, hr⟩ hreg
  · intro σ cls sup hl hm hr hs hlegacy hsup
    have hother : ∀ c, c ≠ cls → Function.update σ.superClass cls (some sup) c = σ.superClass c :=
      fun c hc => Function.update_of_ne hc ..
    have hresolved : ∀ c, σ.resolved c = true → c ≠ cls := by
      rintro c hc rfl
      cases hr.symm.trans hc
    refine ⟨?_, ?_, ?_, ?_, hm.out_resolved, hm.out_meta⟩
    · refine hm.lists.congr (fun _ h => h) (fun _ _ _ _ => rfl) (fun _ _ => rfl) fun P c _ => ?_
      refine and_congr_right fun _ => and_congr_right fun hc => ?_
      show Function.update σ.superClass cls (some sup) c = some P ∧ _ ↔ _
      rw [hother c (hresolved c hc)]
    · intro c s hc hmeta h
      have h : Function.update σ.superClass cls (some sup) c = some s := h
      rw [Function.update_apply] at h
      split at h
      · rw [← Option.some.inj h]
        exact hl.table_class sup hsup
      · exact hm.super_class c s hc hmeta h
    · intro c s hc hres h
      have h : Function.update σ.superClass cls (some sup) (σ.isa c) = some s := h
      rw [hother _ (hresolved _ hres)] at h
      exact hm.meta_bad c s hc hres h
    · intro c d hc hd hne hshared
      obtain ⟨hl', hbad⟩ := hm.shared_bad c d hc hd hne hshared
      have hcls : c ≠ cls := by
        rintro rfl
        rw [hl'] at hlegacy
        cases hlegacy
      refine ⟨hl', ?_⟩
      show bad ((Function.update σ.superClass cls (some sup) c).elim c σ.isa)
      rw [hother c hcls]
      exact hbad

/-- The metaclass of a class stays. -/
theorem resolveClass_isa (hl : Linked σ) {fuel : ℕ} {σ' : ClassLinks} {ok : Bool} (hp : σ.present cls = true)
    (hok : σ.ResolveOk cls) (h : σ.resolveClass fuel cls = some (σ', ok)) {c : Class}
    (hc : σ.isMeta c = false) :
    σ'.isa c = σ.isa c := by
  have : σ'.isMeta = σ.isMeta ∧ σ'.isa c = σ.isa c := by
    refine resolveClass_induction (Q := fun τ => τ.isMeta = σ.isMeta ∧ τ.isa c = σ.isa c) ?_ ?_ hl
        ⟨rfl, rfl⟩ hp hok h
    · intro τ cls root hl hq hp _ _ _ _ _ _
      refine ⟨(linkClass_fields τ cls root).2.1.trans hq.1, ?_⟩
      rw [linkClass_isa, Function.update_of_ne, hq.2]
      rintro rfl
      have := hl.isa_meta cls hp
      rw [hq.1, hc] at this
      cases this
    · exact fun _ _ _ _ hq _ _ _ _ => hq
  exact this.2

end Linking

/-! ## Operations -/

section Operations

variable {σ : ClassLinks} {bad out : Class → Prop}

theorem Mirrored.congr_out {out' : Class → Prop} (hm : Mirrored bad out σ) (h : ∀ c, out c ↔ out' c) :
    Mirrored bad out' σ := by
  obtain rfl : out = out' := funext fun c => propext (h c)
  exact hm

/-- The links of classes that are not resolved have nothing to do with the subclass lists. -/
theorem Mirrored.relink (hm : Mirrored bad out σ) {τ : ClassLinks} (hpresent : τ.present = σ.present)
    (hisMeta : τ.isMeta = σ.isMeta) (hresolved : τ.resolved = σ.resolved)
    (hsuper : τ.superClass = σ.superClass)
    (hlegacy : τ.legacySuper = σ.legacySuper) (hisa : τ.isa = σ.isa)
    (hlinks : ∀ c, σ.present c = true → σ.resolved c = true →
      τ.subclassList c = σ.subclassList c ∧ τ.siblingClass c = σ.siblingClass c) : Mirrored bad out τ := by
  obtain ⟨hlists, hclass, hmb, hsb, hor, hom⟩ := hm
  have hwaiting : τ.Waiting = σ.Waiting := by
    funext c
    rw [Waiting, hpresent, hisMeta, hresolved, Waiting]
  have hmeta : τ.superMeta = σ.superMeta := by
    funext c
    rw [superMeta, hsuper, hisa, superMeta]
  refine ⟨hlists.congr (fun P hP => ?_) (fun P c _ hc => (hlinks c hc.1 hc.2.1).2) (fun P hP => ?_)
      fun P c _ => ?_,
    ?_, ?_, ?_, ?_, ?_⟩
  · rwa [Owner, hpresent, hresolved] at hP
  · rw [Owner, hpresent, hresolved] at hP
    exact (hlinks P hP.1 hP.2.1).1
  · rw [Member, hpresent, hresolved, hsuper, Member]
  · rwa [hpresent, hisMeta, hsuper]
  · rwa [hwaiting, hresolved, hsuper, hisa]
  · rwa [hwaiting, hisa, hlegacy, hmeta]
  · rwa [hresolved]
  · rwa [hwaiting, hisa]

theorem Mirrored.classTableInsert (hm : Mirrored bad out σ) (hl : Linked σ) (cls : Class) :
    Mirrored bad out (σ.classTableInsert cls) := by
  refine hm.relink (by simp) (by simp) (by simp) (by simp) (by simp) (by simp) fun c _ hr => ?_
  rw [ClassLinks.classTableInsert]
  split
  · exact ⟨rfl, rfl⟩
  · next hun =>
    obtain ⟨l, hd, hmem⟩ := hl.unresolved
    refine ⟨Function.update_of_ne ?_ .., setPrev_of_ne fun hhead => ?_⟩
    · rintro rfl
      exact hun hr
    · have hchain := hd.chain
      rw [hhead] at hchain
      obtain ⟨l', rfl, -⟩ := chain_some.mp hchain
      exact not_mem_of_resolved hr hmem (by simp)

theorem Mirrored.insertResolved (hm : Mirrored bad out σ) {cls : Class} (hr : σ.resolved cls = true) :
    Mirrored bad out (σ.classTableInsert cls) := by
  rw [ClassLinks.classTableInsert, if_pos hr]
  exact hm.relink rfl rfl rfl rfl rfl rfl fun _ _ _ => ⟨rfl, rfl⟩

/-- A class without a superclass belongs to no list. -/
theorem member_root {cls : Class} (hs : σ.superClass cls = none) (P c : Class) :
    σ.Member (fun c => out c ∨ c = cls) P c ↔ σ.Member out P c := by
  refine and_congr_right fun _ => and_congr_right fun _ => and_congr_right fun h => not_congr ?_
  refine ⟨fun hout => hout.resolve_right ?_, .inl⟩
  rintro rfl
  cases hs.symm.trans h

theorem Mirrored.of_root {cls : Class} (hm : Mirrored bad (fun c => out c ∨ c = cls) σ)
    (hs : σ.superClass cls = none) : Mirrored bad out σ :=
  ⟨hm.lists.congr (fun _ h => h) (fun _ _ _ _ => rfl) (fun _ _ => rfl) fun P c _ => (member_root hs P c).symm,
    hm.super_class, hm.meta_bad, hm.shared_bad, fun c hc => hm.out_resolved c (.inl hc),
    fun c d hc => hm.out_meta c d (.inl hc)⟩

/-- A class leaves its list. -/
theorem Mirrored.removeSubclass (hm : Mirrored bad out σ) {fuel : ℕ} {cls sup : Class} {σ' : ClassLinks}
    (hr : σ.resolved cls = true) (hs : σ.superClass cls = some sup) (hw : ∀ d, σ.Waiting d → σ.isa d ≠ cls)
    (h : σ.removeSubclass fuel cls sup = some σ') : Mirrored bad (fun c => out c ∨ c = cls) σ' := by
  have hother : ∀ Q, σ.Owner bad Q → Q ≠ sup → ¬ σ.Member out Q cls := by
    rintro Q - hne ⟨-, -, h, -⟩
    exact hne (Option.some.inj (h.symm.trans hs))
  have hmember : ∀ P c, σ.Member (fun c => out c ∨ c = cls) P c ↔ σ.Member out P c ∧ c ≠ cls := by
    intro P c
    rw [Member, Member, not_or]
    tauto
  have hor : ∀ c, out c ∨ c = cls → σ.resolved c = true := by
    rintro c (h | rfl)
    · exact hm.out_resolved c h
    · exact hr
  have hom : ∀ c d, out c ∨ c = cls → σ.Waiting d → σ.isa d ≠ c := by
    rintro c d (h | rfl) hd
    · exact hm.out_meta c d h hd
    · exact hw d hd
  rcases removeSubclass_cases h with ⟨hhead, rfl⟩ | ⟨hhead, siblingClass, hremove, rfl⟩
  · refine ⟨?_, hm.super_class, hm.meta_bad, hm.shared_bad, hor, hom⟩
    exact (hm.lists.pop hhead hother).congr (fun _ h => h) (fun _ _ _ _ => rfl) (fun _ _ => rfl)
      fun P c _ => hmember P c
  · refine ⟨?_, hm.super_class, hm.meta_bad, hm.shared_bad, hor, hom⟩
    exact (hm.lists.removeNext hhead hother hremove).congr (fun _ h => h) (fun _ _ _ _ => rfl)
        (fun _ _ => rfl)
      fun P c _ => hmember P c

theorem Mirrored.safeRemove (hm : Mirrored bad out σ) {fuel : ℕ} {cls : Class} {σ' : ClassLinks}
    (hr : σ.resolved cls = true) (hw : ∀ d, σ.Waiting d → σ.isa d ≠ cls)
    (h : σ.safeRemove fuel cls = some σ') :
    Mirrored bad (fun c => out c ∨ c = cls) σ' := by
  rw [ClassLinks.safeRemove, if_neg (by simp [hr])] at h
  cases hs : σ.superClass cls with
  | none =>
    rw [hs] at h
    obtain rfl := Option.some.inj h
    refine ⟨hm.lists.congr (fun _ h => h) (fun _ _ _ _ => rfl) (fun _ _ => rfl) fun P c _ =>
        member_root hs P c,
      hm.super_class, hm.meta_bad, hm.shared_bad, ?_, ?_⟩
    · rintro c (h | rfl)
      · exact hm.out_resolved c h
      · exact hr
    · rintro c d (h | rfl) hd
      · exact hm.out_meta c d h hd
      · exact hw d hd
  | some sup =>
    rw [hs] at h
    exact hm.removeSubclass hr hs hw h

/-- The same for a class that need not be in a list. -/
theorem Mirrored.safeRemoveAny (hm : Mirrored bad out σ) {fuel : ℕ} {cls : Class} {σ' : ClassLinks}
    (hw : σ.resolved cls = true → ∀ d, σ.Waiting d → σ.isa d ≠ cls) (h : σ.safeRemove fuel cls = some σ') :
    Mirrored bad (fun c => out c ∨ c = cls ∧ σ.resolved c = true) σ' := by
  cases hr : σ.resolved cls with
  | true =>
    refine (hm.safeRemove hr (hw hr) h).congr_out fun c => or_congr_right ?_
    refine ⟨?_, And.left⟩
    rintro rfl
    exact ⟨rfl, hr⟩
  | false =>
    rw [ClassLinks.safeRemove, if_pos (by simp [hr])] at h
    obtain rfl := Option.some.inj h
    refine hm.congr_out fun c => (or_iff_left ?_).symm
    rintro ⟨rfl, h⟩
    cases hr.symm.trans h

/-- A class enters the list of its superclass. -/
theorem Mirrored.pushSubclass {cls sup : Class} (hm : Mirrored bad (fun c => out c ∨ c = cls) σ)
    (hp : σ.present cls = true) (hs : σ.superClass cls = some sup) (hout : ¬ out cls) :
    Mirrored bad out (σ.pushSubclass cls sup) := by
  have hr := hm.out_resolved cls (.inr rfl)
  refine ⟨?_, hm.super_class, hm.meta_bad, hm.shared_bad, fun c hc => hm.out_resolved c (.inl hc),
    fun c d hc => hm.out_meta c d (.inl hc)⟩
  refine (hm.lists.push fun Q _ hQ => hQ.2.2.2 (.inr rfl)).congr (fun _ h => h) (fun _ _ _ _ => rfl)
    (fun _ _ => rfl) fun P c _ => ?_
  show σ.Member out P c ↔ σ.Member (fun c => out c ∨ c = cls) P c ∨ P = sup ∧ c = cls
  rw [Member, Member, not_or]
  constructor
  · rintro ⟨hpc, hrc, hsc, hoc⟩
    by_cases hc : c = cls
    · subst hc
      exact .inr ⟨Option.some.inj (hsc.symm.trans hs), rfl⟩
    · exact .inl ⟨hpc, hrc, hsc, hoc, hc⟩
  · rintro (⟨hpc, hrc, hsc, hoc, -⟩ | ⟨rfl, rfl⟩)
    · exact ⟨hpc, hrc, hsc, hoc⟩
    · exact ⟨hp, hr, hs, hout⟩

/-- A class that is in no list gets another superclass. -/
theorem Mirrored.setSuper {cls sup : Class} (hm : Mirrored bad (fun c => out c ∨ c = cls) σ)
    (hclass : σ.isMeta cls = false → σ.isMeta sup = false) :
    Mirrored bad (fun c => out c ∨ c = cls)
    { σ with superClass := Function.update σ.superClass cls (some sup) } := by
  have hr := hm.out_resolved cls (.inr rfl)
  have hother : ∀ c, c ≠ cls → Function.update σ.superClass cls (some sup) c = σ.superClass c :=
    fun c hc => Function.update_of_ne hc ..
  have hwaiting : ∀ c, σ.Waiting c → c ≠ cls := by
    rintro c hc rfl
    cases hr.symm.trans hc.2.2
  refine ⟨?_, fun c s hp hmeta h => ?_, fun c s hc hres h => ?_, fun c d hc hd hne hshared => ?_,
      hm.out_resolved,
    hm.out_meta⟩
  · refine hm.lists.congr (fun _ h => h) (fun _ _ _ _ => rfl) (fun _ _ => rfl) fun P c _ => ?_
    show _ ∧ _ ∧ Function.update σ.superClass cls (some sup) c = some P ∧ ¬ (out c ∨ c = cls) ↔ _
    refine and_congr_right fun _ => and_congr_right fun _ => and_congr_left fun hc => ?_
    rw [hother c fun e => hc (.inr e)]
  · have h : Function.update σ.superClass cls (some sup) c = some s := h
    rw [Function.update_apply] at h
    split at h
    · next hc =>
      rw [← Option.some.inj h]
      exact hclass (hc ▸ hmeta)
    · exact hm.super_class c s hp hmeta h
  · have h : Function.update σ.superClass cls (some sup) (σ.isa c) = some s := h
    rw [hother _ (hm.out_meta cls c (.inr rfl) hc)] at h
    exact hm.meta_bad c s hc hres h
  · obtain ⟨hlegacy, hbad⟩ := hm.shared_bad c d hc hd hne hshared
    refine ⟨hlegacy, ?_⟩
    show bad ((Function.update σ.superClass cls (some sup) c).elim c σ.isa)
    rw [hother c (hwaiting c hc)]
    exact hbad

theorem Mirrored.moveTo {cls sup : Class} (hm : Mirrored bad (fun c => out c ∨ c = cls) σ)
    (hp : σ.present cls = true) (hclass : σ.isMeta cls = false → σ.isMeta sup = false) (hout : ¬ out cls) :
    Mirrored bad out (σ.moveTo cls sup) :=
  (hm.setSuper hclass).pushSubclass hp (Function.update_self ..) hout

/-- A metaclass gets another `isa`. -/
theorem Mirrored.setIsa (hm : Mirrored bad out σ) (hl : Linked σ) {metaclass m : Class}
    (hmeta : σ.isMeta metaclass = true) :
    Mirrored bad out { σ with isa := Function.update σ.isa metaclass m } := by
  have hother : ∀ c, σ.isMeta c = false → Function.update σ.isa metaclass m c = σ.isa c := by
    intro c hc
    refine Function.update_of_ne ?_ ..
    rintro rfl
    cases hc.symm.trans hmeta
  refine ⟨hm.lists, hm.super_class, fun c s hc => ?_, fun c d hc hd => ?_, hm.out_resolved,
      fun c d hc hd => ?_⟩
  · show σ.resolved (Function.update σ.isa metaclass m c) = true →
      σ.superClass (Function.update σ.isa metaclass m c) = some s → _
    rw [hother c hc.2.1]
    exact hm.meta_bad c s hc
  · show _ → Function.update σ.isa metaclass m c = Function.update σ.isa metaclass m d → _
    rw [hother c hc.2.1, hother d hd.2.1, 
      superMeta_eq (τ := { σ with isa := Function.update σ.isa metaclass m }) hl hm hc rfl fun s _
      hs => hother s hs]
    exact hm.shared_bad c d hc hd
  · show Function.update σ.isa metaclass m d ≠ c
    rw [hother d hd.2.1]
    exact hm.out_meta c d hc hd

/-- New class structures at the addresses `new`; those that are resolved are in no list yet. -/
theorem Mirrored.extend (hm : Mirrored bad (fun _ => False) σ) (hl : Linked σ) {τ : ClassLinks}
    (new : Class → Prop)
    (hfresh : ∀ c, new c → σ.present c = false) (hpresent : ∀ c, τ.present c = true ↔ new c ∨
      σ.present c = true)
    (hold : ∀ c, ¬ new c → τ.superClass c = σ.superClass c ∧ τ.isa c = σ.isa c ∧ τ.isMeta c = σ.isMeta c ∧
      τ.resolved c = σ.resolved c ∧ τ.subclassList c = σ.subclassList c ∧
      τ.siblingClass c = σ.siblingClass c ∧
      τ.legacySuper c = σ.legacySuper c)
    (hnew : ∀ c, new c → τ.subclassList c = none ∧
      (τ.isMeta c = false → ∀ s, τ.superClass c = some s → τ.isMeta s = false) ∧
      (τ.Waiting c → τ.resolved (τ.isa c) = false ∧ ∀ d, τ.Waiting d → d ≠ c → τ.isa d ≠ τ.isa c)) :
    Mirrored bad (fun c => new c ∧ τ.resolved c = true) τ := by
  have hnot : ∀ c, σ.present c = true → ¬ new c := fun c hc hn => by
    cases (hfresh c hn).symm.trans hc
  have hcases : ∀ c, τ.present c = true → new c ∨ ¬ new c ∧ σ.present c = true := fun c hc =>
    ((hpresent c).mp hc).imp_right fun h => ⟨hnot c h, h⟩
  have hwaiting : ∀ c, τ.Waiting c → ¬ new c → σ.Waiting c := by
    rintro c ⟨hp, hmeta, hr⟩ hn
    obtain ⟨-, -, hmeta', hr', -⟩ := hold c hn
    exact ⟨((hpresent c).mp hp).resolve_left hn, hmeta' ▸ hmeta, hr' ▸ hr⟩
  have hisa : ∀ c, σ.present c = true → ¬ new (σ.isa c) := fun c hc => hnot _ (hl.isa_present c hc)
  -- the members of the lists are the old classes
  have hmember : ∀ P c, τ.Member (fun c => new c ∧ τ.resolved c = true) P c ↔
      σ.Member (fun _ => False) P c := by
    intro P c
    constructor
    · rintro ⟨hp, hr, hs, hout⟩
      obtain ⟨hn, hp⟩ := (hcases c hp).resolve_left fun hn => hout ⟨hn, hr⟩
      obtain ⟨hs', -, -, hr', -⟩ := hold c hn
      exact ⟨hp, hr' ▸ hr, hs' ▸ hs, id⟩
    · rintro ⟨hp, hr, hs, -⟩
      have hn := hnot c hp
      obtain ⟨hs', -, -, hr', -⟩ := hold c hn
      exact ⟨(hpresent c).mpr (.inr hp), hr'.trans hr, hs'.trans hs, fun h => hn h.1⟩
  refine ⟨fun P hP => ?_, ?_, ?_, ?_, fun c hc => hc.2, ?_⟩
  · rcases hcases P hP.1 with hn | ⟨hn, hp⟩
    · refine ⟨[], ?_, fun c => ?_⟩
      · rw [(hnew P hn).1]
        exact .nil
      · rw [hmember]
        refine ⟨nofun, fun ⟨hpc, _, hs, _⟩ => ?_⟩
        exact absurd hn (hnot P (hl.super_present c P hpc hs))
    · obtain ⟨-, -, -, hr, hsub, -⟩ := hold P hn
      obtain ⟨l, hchain, hmem⟩ := hm.lists P ⟨hp, hr ▸ hP.2.1, hP.2.2⟩
      rw [hsub]
      refine ⟨l, hchain.congr fun c hc => ?_, fun c => (hmem c).trans (hmember P c).symm⟩
      exact (hold c (hnot c ((hmem c).mp hc).1)).2.2.2.2.2.1
  · intro c s hp hmeta hs
    rcases hcases c hp with hn | ⟨hn, hp⟩
    · exact (hnew c hn).2.1 hmeta s hs
    · obtain ⟨hs', -, hmeta', -⟩ := hold c hn
      rw [hs'] at hs
      rw [hmeta'] at hmeta
      rw [(hold s (hnot s (hl.super_present c s hp hs))).2.2.1]
      exact hm.super_class c s hp hmeta hs
  · intro c s hc hr hs
    by_cases hn : new c
    · cases ((hnew c hn).2.2 hc).1.symm.trans hr
    · have hw := hwaiting c hc hn
      obtain ⟨hs', -, -, hr', -⟩ := hold _ (hisa c hw.1)
      rw [(hold c hn).2.1] at hr hs
      exact hm.meta_bad c s hw (hr' ▸ hr) (hs' ▸ hs)
  · intro c d hc hd hne hshared
    by_cases hn : new c
    · exact absurd hshared.symm (((hnew c hn).2.2 hc).2 d hd hne.symm)
    · by_cases hn' : new d
      · exact absurd hshared (((hnew d hn').2.2 hd).2 c hc hne)
      · obtain ⟨hs, hi, -, -, -, -, hlegacy⟩ := hold c hn
        have hw := hwaiting c hc hn
        rw [hi, (hold d hn').2.1] at hshared
        rw [hlegacy, superMeta_eq hl hm hw hs fun s hp _ => (hold s (hnot s hp)).2.1]
        exact hm.shared_bad c d hw (hwaiting d hd hn') hne hshared
  · rintro c d ⟨hn, hr⟩ hd rfl
    by_cases hn' : new d
    · cases ((hnew d hn').2.2 hd).1.symm.trans hr
    · rw [(hold d hn').2.1] at hn
      exact hisa d (hwaiting d hd hn').1 hn

/-- Class structures go: those that have left their lists, or that are in none. -/
theorem Mirrored.shrink (hm : Mirrored bad out σ) (present : Class → Bool) (table : List Class)
    (hpresent : ∀ c, present c = true → σ.present c = true ∧ ¬ out c)
    (hkept : ∀ c, σ.present c = true → σ.resolved c = true → ¬ out c → present c = true) :
    Mirrored bad (fun _ => False) { σ with present, table } := by
  have hwaiting : ∀ c, Waiting { σ with present, table } c → σ.Waiting c := fun c hc =>
    ⟨(hpresent c hc.1).1, hc.2.1, hc.2.2⟩
  refine ⟨?_, fun c s hp => hm.super_class c s (hpresent c hp).1, fun c s hc =>
      hm.meta_bad c s (hwaiting c hc),
    fun c d hc hd => hm.shared_bad c d (hwaiting c hc) (hwaiting d hd), fun _ h => h.elim,
        fun _ _ h => h.elim⟩
  refine hm.lists.congr (fun P hP => ⟨(hpresent P hP.1).1, hP.2⟩) (fun _ _ _ _ => rfl)
      (fun _ _ => rfl) fun P c _ => ?_
  constructor
  · rintro ⟨hp, hr, hs, -⟩
    obtain ⟨hp, hout⟩ := hpresent c hp
    exact ⟨hp, hr, hs, hout⟩
  · rintro ⟨hp, hr, hs, hout⟩
    exact ⟨hkept c hp hr hout, hr, hs, id⟩

/-! ## Every operation -/

/-- When the operations keep the subclass lists, besides what `LinksOk` says. -/
def SubclassesOk (σ : ClassLinks) : Op → Prop
  | .loadClass cls => (∀ c, σ.present c = true → σ.resolved c = true → σ.superClass c ≠ some cls) ∧
    (σ.superClass cls = none → σ.resolved (σ.isa cls) = false)
  | .allocateClassPair superclass .. => ∀ s, superclass = some s → σ.isMeta s = false
  | .setSuperclass cls newSuper =>
    if σ.isMeta cls then ∀ d, σ.Waiting d → σ.isa d ≠ cls
    else σ.isMeta newSuper = false ∧ ∀ d, σ.Waiting d → σ.isa d ≠ σ.isa cls
  | .disposeClassPair cls => σ.resolved cls = true ∨ σ.resolved (σ.isa cls) = false
  | _ => True

/-- A metaclass that is not resolved gets another superclass. -/
theorem Mirrored.setMetaSuper (hm : Mirrored bad out σ) {metaclass s : Class}
    (hmeta : σ.isMeta metaclass = true)
    (hr : σ.resolved metaclass = false) :
    Mirrored bad out { σ with superClass := Function.update σ.superClass metaclass (some s) } := by
  have hclass : ∀ c, σ.isMeta c = false → Function.update σ.superClass metaclass (some s) c =
      σ.superClass c := by
    intro c hc
    refine Function.update_of_ne ?_ ..
    rintro rfl
    cases hc.symm.trans hmeta
  have hresolved : ∀ c, σ.resolved c = true →
      Function.update σ.superClass metaclass (some s) c = σ.superClass c := by
    intro c hc
    refine Function.update_of_ne ?_ ..
    rintro rfl
    cases hr.symm.trans hc
  refine ⟨?_, fun c t hp hc => ?_, fun c t hc hres => ?_, fun c d hc hd hne hshared => ?_,
      hm.out_resolved, hm.out_meta⟩
  · refine hm.lists.congr (fun _ h => h) (fun _ _ _ _ => rfl) (fun _ _ => rfl) fun P c _ => ?_
    refine and_congr_right fun _ => and_congr_right fun hc => ?_
    show Function.update σ.superClass metaclass (some s) c = some P ∧ _ ↔ _
    rw [hresolved c hc]
  · show Function.update σ.superClass metaclass (some s) c = some t → _
    rw [hclass c hc]
    exact hm.super_class c t hp hc
  · show Function.update σ.superClass metaclass (some s) (σ.isa c) = some t → _
    rw [hresolved _ hres]
    exact hm.meta_bad c t hc hres
  · obtain ⟨hlegacy, hbad⟩ := hm.shared_bad c d hc hd hne hshared
    refine ⟨hlegacy, ?_⟩
    show bad ((Function.update σ.superClass metaclass (some s) c).elim c σ.isa)
    rw [hclass c hc.2.1]
    exact hbad

theorem Mirrored.loadClass (hm : Mirrored bad (fun _ => False) σ) (hl : Linked σ) {cls : Class}
    (hok : σ.LinksOk (.loadClass cls)) (hsub : σ.SubclassesOk (.loadClass cls)) :
    Mirrored bad (fun _ => False) (σ.loadClass cls) := by
  obtain ⟨hp, hmeta, -⟩ := hok
  obtain ⟨hnone, hroot⟩ := hsub
  rw [ClassLinks.loadClass]
  split
  · exact hm
  · next hname =>
    have ht := not_mem_table_of_name hname
    have hcleared : Mirrored bad (fun _ => False)
        { σ with subclassList := Function.update σ.subclassList cls none } := by
      refine ⟨fun P hP => ?_, hm.super_class, hm.meta_bad, hm.shared_bad, hm.out_resolved, hm.out_meta⟩
      by_cases hPc : P = cls
      · subst hPc
        refine ⟨[], ?_, fun c =>
            ⟨fun hc => absurd hc List.not_mem_nil, fun hc => absurd hc.2.2.1 (hnone c hc.1 hc.2.1)⟩⟩
        show Chain _ (Function.update σ.subclassList P none P) []
        rw [Function.update_self]
        exact .nil
      · obtain ⟨l, hchain, hmem⟩ := hm.lists P hP
        refine ⟨l, ?_, hmem⟩
        show Chain _ (Function.update σ.subclassList cls none P) l
        rw [Function.update_of_ne hPc]
        exact hchain
    have hinsert := hcleared.classTableInsert (hl.clearSubclassList ht) cls
    dsimp only
    split
    · next hs =>
      rw [classTableInsert_superClass, Option.isNone_iff_eq_none] at hs
      refine hinsert.setMetaSuper ?_ ?_
      · rw [classTableInsert_isMeta, classTableInsert_isa]
        exact hl.isa_meta cls hp
      · rw [classTableInsert_resolved, classTableInsert_isa]
        exact hroot hs
    · exact hinsert

theorem Mirrored.addIvar {fuel : ℕ} : ∀ {searched : ℕ} {σ σ' : ClassLinks} {cls : Class}, Linked σ →
    Mirrored bad (fun _ => False) σ → σ.present cls = true → σ.ResolveOk cls →
    ClassLinks.addIvar fuel searched σ cls = some σ' → Mirrored bad (fun _ => False) σ'
  | 0, _, _, _, _, hm, _, _, h => by rwa [← Option.some.inj h]
  | searched + 1, σ, σ', cls, hl, hm, hp, hok, h => by
    rw [ClassLinks.addIvar] at h
    obtain ⟨⟨σ₁, sup⟩, hsup, h⟩ := Option.bind_eq_some_iff.mp h
    obtain ⟨⟨σ₂, ok⟩, hres, heq⟩ := Option.map_eq_some_iff.mp hsup
    obtain ⟨rfl, rfl⟩ := Prod.mk.inj heq
    obtain ⟨hl₁, hs₁, -, -⟩ := resolveClass_spec hl hp hok hres
    have hm₁ := hm.resolveClass hl hp hok hres
    have hp₁ : σ₂.present cls = true := by rw [hs₁.present, hp]
    cases hs : σ₂.superClass cls with
    | none =>
      rw [hs] at h
      rwa [← Option.some.inj h]
    | some sup =>
      rw [hs] at h
      refine Mirrored.addIvar hl₁ hm₁ (hl₁.super_present cls sup hp₁ hs) ?_ h
      exact resolveOk_super hl₁ (hok.of_resolving hs₁) hp₁ hs

theorem Mirrored.setSuperclass (hm : Mirrored bad (fun _ => False) σ) (hl : Linked σ) {fuel : ℕ}
    {cls newSuper : Class} {σ' : ClassLinks} (hok : σ.LinksOk (.setSuperclass cls newSuper))
    (hsub : σ.SubclassesOk (.setSuperclass cls newSuper)) (h : σ.setSuperclass fuel cls newSuper = some σ') :
    Mirrored bad (fun _ => False) σ' := by
  rw [ClassLinks.setSuperclass] at h
  split at h
  · rwa [← Option.some.inj h]
  · next hne =>
    obtain ⟨hp, hpn, hr, hres, hable⟩ := hok.resolve_left hne
    obtain ⟨σ₁, hremove, h⟩ := Option.bind_eq_some_iff.mp h
    obtain ⟨⟨σ₂, ok⟩, hresolve, h⟩ := Option.bind_eq_some_iff.mp h
    have hw : ∀ d, σ.Waiting d → σ.isa d ≠ cls := by
      intro d hd
      cases hmeta : σ.isMeta cls with
      | true =>
        rw [SubclassesOk, if_pos hmeta] at hsub
        exact hsub d hd
      | false =>
        rintro rfl
        cases hmeta.symm.trans (hl.isa_meta d hd.1)
    have hm₁ := hm.safeRemove hr hw hremove
    have hl₁ := hl.safeRemove hp hremove
    obtain ⟨subclassList, siblingClass, rfl⟩ := safeRemove_links hremove
    obtain rfl := hable.relink.resolveClass hresolve
    obtain ⟨hl₂, hs₂, hrn, -⟩ := resolveClass_spec hl₁ hpn hres hresolve
    have hm₂ := hm₁.resolveClass hl₁ hpn hres hresolve
    have hisa : ∀ c, σ.isMeta c = false → σ₂.isa c = σ.isa c := fun c hc =>
      resolveClass_isa hl₁ hpn hres hresolve hc
    have hrn := hrn rfl
    have hr₂ : σ₂.resolved cls = true := hs₂.resolved cls hr
    have hp₂ : σ₂.present cls = true := by rw [hs₂.present]; exact hp
    have hpn₂ : σ₂.present newSuper = true := by rw [hs₂.present]; exact hpn
    have hmeta₂ : σ₂.isMeta = σ.isMeta := hs₂.isMeta
    have hlmove := hl₂.moveTo hr₂ hpn₂ hrn
    have hmmove : Mirrored bad (fun _ => False) (σ₂.moveTo cls newSuper) := by
      refine hm₂.moveTo hp₂ (fun hmeta => ?_) id
      rw [hmeta₂] at hmeta ⊢
      rw [SubclassesOk, if_neg (by simp [hmeta])] at hsub
      exact hsub.1
    dsimp only at h
    split at h
    · next hmeta =>
      rw [← Option.some.inj h]
      exact hmmove.setIsa hlmove hmeta
    · next hmeta =>
      have hmeta : σ.isMeta cls = false := by
        rw [← hmeta₂]
        exact Bool.eq_false_iff.mpr hmeta
      rw [SubclassesOk, if_neg (by simp [hmeta])] at hsub
      obtain ⟨σ₃, hremove', h⟩ := Option.bind_eq_some_iff.mp h
      obtain ⟨⟨σ₄, ok'⟩, hresolve', rfl⟩ := Option.map_eq_some_iff.mp h
      have hrm : σ₂.resolved (σ₂.isa cls) = true := hl₂.isa_resolved cls hp₂ hr₂
      have hw₂ : ∀ d, (σ₂.moveTo cls newSuper).Waiting d → (σ₂.moveTo cls newSuper).isa d ≠ σ₂.isa cls := by
        rintro d ⟨hpd, hmd, hrd⟩
        have hpd : σ.present d = true := by
          rw [show (σ₂.moveTo cls newSuper).present = σ₂.present from rfl, hs₂.present] at hpd
          exact hpd
        have hmd : σ.isMeta d = false := by
          rw [show (σ₂.moveTo cls newSuper).isMeta = σ₂.isMeta from rfl, hmeta₂] at hmd
          exact hmd
        show σ₂.isa d ≠ σ₂.isa cls
        rw [hisa d hmd, hisa cls hmeta]
        exact hsub.2 d ⟨hpd, hmd, hs₂.unresolved hrd⟩
      have hm₃ := hmmove.safeRemove (hl₂.isa_resolved cls hp₂ hr₂) hw₂ hremove'
      have hl₃ := hlmove.safeRemove (hl₂.isa_present cls hp₂) hremove'
      obtain ⟨subclassList', siblingClass', rfl⟩ := safeRemove_links hremove'
      have hpm := hl₂.isa_present newSuper hpn₂
      have hokm : ResolveOk { σ₂.moveTo cls newSuper with
          subclassList := subclassList', siblingClass := siblingClass' } (σ₂.isa newSuper) :=
        resolveOk_of_resolved (hl₂.isa_resolved newSuper hpn₂ hrn)
      have hm₄ := hm₃.resolveClass hl₃ hpm hokm hresolve'
      obtain ⟨hl₄, hs₄, -, -⟩ := resolveClass_spec hl₃ hpm hokm hresolve'
      have hmetaclass : σ₄.isMeta (σ₂.isa cls) = true := by
        rw [hs₄.isMeta]
        exact hl₂.isa_meta cls hp₂
      have hpmeta : σ₄.present (σ₂.isa cls) = true := by
        rw [hs₄.present]
        exact hl₂.isa_present cls hp₂
      refine (hm₄.setIsa hl₄ hmetaclass).moveTo hpmeta (fun hmeta => ?_) id
      cases hmeta.symm.trans hmetaclass

theorem Mirrored.allocateClassPair (hm : Mirrored bad (fun _ => False) σ) (hl : Linked σ)
    {superclass : Option Class}
    {name : String} {cls metaclass : Class}
    (hok : σ.LinksOk (.allocateClassPair superclass name cls metaclass))
    (hsub : σ.SubclassesOk (.allocateClassPair superclass name cls metaclass)) :
    Mirrored bad (fun _ => False) (σ.allocateClassPair superclass name cls metaclass) := by
  obtain ⟨hne, hc, hmc, hs⟩ := hok
  rw [ClassLinks.allocateClassPair]
  split
  · exact hm
  · refine (hm.extend hl (fun c => c = cls ∨ c = metaclass) (by rintro c (rfl | rfl) <;> assumption)
        (fun c => ?_)
      (fun c hn => ?_) ?_).congr_out ?_
    · show Function.update (Function.update σ.present cls true) metaclass true c = true ↔ _
      by_cases h : c = metaclass
      · simp [h]
      · by_cases h' : c = cls <;> simp [Function.update_apply, h, h']
    · push Not at hn
      simp [ClassLinks.clear, hn]
    · have hold : ∀ c, σ.present c = true → c ≠ cls ∧ c ≠ metaclass := fun c h => by
        constructor
        · rintro rfl
          cases hc.symm.trans h
        · rintro rfl
          cases hmc.symm.trans h
      rintro c (rfl | rfl)
      · refine ⟨by simp [ClassLinks.clear, Function.update_apply], fun _ s h => ?_, fun _ => ⟨by simp [ClassLinks.clear], fun d hd hdc => ?_⟩⟩
        · have h : superclass = some s := by simpa using h
          obtain ⟨hsc, hsm⟩ := hold s (hs s h)
          simp [ClassLinks.clear, hsc, hsm, hsub s h]
        · obtain ⟨hpd, hmd, -⟩ := hd
          have hdm : d ≠ metaclass := by
            rintro rfl
            simp at hmd
          have hpd : σ.present d = true := by simpa [ClassLinks.clear, hdc, hdm] using hpd
          simpa [ClassLinks.clear, hdc, hdm] using (hold _ (hl.isa_present d hpd)).2
      · refine ⟨by simp [ClassLinks.clear], fun h => ?_, fun h => ?_⟩
        · simp at h
        · have := h.2.1
          simp at this
    · rintro c
      refine ⟨?_, False.elim⟩
      rintro ⟨rfl | rfl, h⟩
      · simp [ClassLinks.clear, Function.update_apply] at h
      · simp [ClassLinks.clear] at h

/-- A new class with the metaclass of a resolved class; it is in no list yet. -/
theorem Mirrored.copy (hm : Mirrored bad (fun _ => False) σ) (hl : Linked σ) {cls : Class}
    (original : Class) {super : Option Class} (name : Class → String) (duplicate : Class → Bool)
    (hc : σ.present cls = false)
    (hs : ∀ s, super = some s → σ.present s = true ∧ σ.isMeta s = false) :
    Mirrored bad (fun c => False ∨ c = cls)
      { σ.clear cls with
        name
        isMeta := Function.update σ.isMeta cls false
        duplicate
        resolved := Function.update (σ.clear cls).resolved cls true
        isa := Function.update σ.isa cls (σ.isa original)
        superClass := Function.update σ.superClass cls super } := by
  refine (hm.extend hl (fun c => c = cls) (by rintro c rfl; exact hc) (fun c => ?_) (fun c hn => ?_)
      ?_).congr_out ?_
  · by_cases h : c = cls <;> simp [ClassLinks.clear, h]
  · simp [ClassLinks.clear, hn]
  · rintro c rfl
    refine ⟨by simp [ClassLinks.clear], fun _ s h => ?_, fun h => ?_⟩
    · obtain ⟨hp, hmeta⟩ := hs s (by simpa using h)
      have hne : s ≠ c := by
        rintro rfl
        cases hc.symm.trans hp
      simp [hne, hmeta]
    · have := h.2.2
      simp at this
  · intro c
    by_cases h : c = cls <;> simp [h]

theorem Mirrored.registerClassPair (hm : Mirrored bad (fun _ => False) σ) (hl : Linked σ) {fuel : ℕ}
    {cls : Class}
    {σ' : ClassLinks} (hok : σ.LinksOk (.registerClassPair cls))
    (h : σ.registerClassPair fuel cls = some σ') :
    Mirrored bad (fun _ => False) σ' := by
  obtain ⟨⟨σ₁, ok⟩, hres, rfl⟩ := Option.map_eq_some_iff.mp h
  exact (hm.classTableInsert hl cls).resolveClass (hl.classTableInsert hok.1 hok.2.1 hok.2.2.1)
    (by rw [classTableInsert_present]; exact hok.1) (registerClassPair_resolveOk hl hok) hres

theorem Mirrored.duplicateClass (hm : Mirrored bad (fun _ => False) σ) (hl : Linked σ) {fuel : ℕ}
    {original cls : Class} {name : String} {σ' : ClassLinks}
    (hok : σ.LinksOk (.duplicateClass original name cls))
    (h : σ.duplicateClass fuel original name cls = some σ') : Mirrored bad (fun _ => False) σ' := by
  obtain ⟨hp, hc, hres⟩ := hok
  rw [ClassLinks.duplicateClass] at h
  split at h
  · rwa [← Option.some.inj h]
  · next hguard =>
    have hmeta : σ.isMeta original = false := by
      simp only [Bool.or_eq_true, not_or] at hguard
      exact Bool.eq_false_iff.mpr hguard.1.1
    obtain ⟨⟨σ₁, ok⟩, hresolve, rfl⟩ := Option.map_eq_some_iff.mp h
    obtain ⟨hl₁, hs₁, hr₁, -⟩ := resolveClass_spec hl hp hres hresolve
    have hm₁ := hm.resolveClass hl hp hres hresolve
    cases ok with
    | false => exact hm₁
    | true =>
      have hr := hr₁ rfl
      have hp : σ₁.present original = true := by rwa [hs₁.present]
      have hc : σ₁.present cls = false := by rwa [hs₁.present]
      have hmeta : σ₁.isMeta original = false := by rwa [hs₁.isMeta]
      have hsuper : ∀ s, σ₁.superClass original = some s → σ₁.present s = true ∧ σ₁.isMeta s = false :=
        fun s h => ⟨hl₁.super_present original s hp h, hm₁.super_class original s hp hmeta h⟩
      have hcopy := hm₁.copy hl₁ original (Function.update σ₁.name cls name)
        (Function.update (σ₁.clear cls).duplicate cls true) hc hsuper
      show Mirrored bad _ (ClassLinks.classTableInsert
        (Option.elim (Function.update (σ₁.clear cls).superClass cls
          ((σ₁.clear cls).superClass original) cls) _ _) cls)
      rw [Function.update_self]
      have hclear : (σ₁.clear cls).superClass original = σ₁.superClass original := rfl
      rw [hclear]
      cases hs : σ₁.superClass original with
      | none =>
        rw [hs] at hcopy
        refine (hcopy.of_root ?_).insertResolved ?_
        · simp
        · simp
      | some s =>
        rw [hs] at hcopy
        refine (hcopy.pushSubclass ?_ ?_ id).insertResolved ?_
        · simp [ClassLinks.clear]
        · simp
        · simp [ClassLinks.pushSubclass]

theorem Mirrored.initHiddenClass (hm : Mirrored bad (fun _ => False) σ) (hl : Linked σ)
    {superclass cls : Class}
    (hok : σ.LinksOk (.initHiddenClass superclass cls)) :
    Mirrored bad (fun _ => False) (σ.initHiddenClass superclass cls) := by
  obtain ⟨hc, hp, -⟩ := hok
  rw [ClassLinks.initHiddenClass]
  split
  · exact hm
  · next hmeta =>
    refine (hm.copy hl _ _ _ hc (fun s hs => ?_)).pushSubclass ?_ ?_ id
    · obtain rfl := Option.some.inj hs
      exact ⟨hp, Bool.eq_false_iff.mpr hmeta⟩
    · simp [ClassLinks.clear]
    · simp

theorem Mirrored.deallocHiddenClass (hm : Mirrored bad (fun _ => False) σ) {fuel : ℕ} {cls : Class}
    {σ' : ClassLinks} (hok : σ.LinksOk (.deallocHiddenClass cls))
    (h : σ.deallocHiddenClass fuel cls = some σ') :
    Mirrored bad (fun _ => False) σ' := by
  obtain ⟨hp, hr, -, hunused⟩ := hok
  rw [ClassLinks.deallocHiddenClass] at h
  split at h
  · cases h
  · obtain ⟨σ₁, hremove, rfl⟩ := Option.map_eq_some_iff.mp h
    have hw : ∀ d, σ.Waiting d → σ.isa d ≠ cls := by
      intro d hd
      refine (hunused d hd.1 ?_).2
      rintro rfl
      cases hr.symm.trans hd.2.2
    have hsafe : σ.safeRemove fuel cls = some σ₁ := by
      rw [ClassLinks.safeRemove, if_neg (by simp [hr])]
      exact hremove
    have hm₁ := hm.safeRemove hr hw hsafe
    obtain ⟨subclassList, siblingClass, rfl⟩ := safeRemove_links hsafe
    have hupdate : ∀ c, c ≠ cls → Function.update σ.present cls false c = σ.present c :=
      fun c hc => Function.update_of_ne hc ..
    refine hm₁.shrink _ _ (fun c hc => ?_) fun c hc _ hout => ?_
    · have hne : c ≠ cls := by
        rintro rfl
        simp at hc
      rw [hupdate c hne] at hc
      exact ⟨hc, fun h => hne (h.resolve_left id)⟩
    · exact (hupdate c fun e => hout (.inr e)).trans hc

theorem Mirrored.disposeClassPair (hm : Mirrored bad (fun _ => False) σ) (hl : Linked σ) {fuel : ℕ}
    {cls : Class}
    {σ' : ClassLinks} (hok : σ.LinksOk (.disposeClassPair cls))
    (hsub : σ.SubclassesOk (.disposeClassPair cls))
    (h : σ.disposeClassPair fuel cls = some σ') : Mirrored bad (fun _ => False) σ' := by
  obtain ⟨hp, hmeta, -, -, hunused⟩ := hok
  obtain ⟨σ₁, hremove, h⟩ := Option.bind_eq_some_iff.mp h
  obtain ⟨σ₂, hremove', rfl⟩ := Option.map_eq_some_iff.mp h
  have hm₁ : Mirrored bad (fun c => False ∨ σ.duplicate cls = false ∧ c = σ.isa cls ∧
      σ.resolved c = true) σ₁ ∧
      ∃ subclassList siblingClass, σ₁ = { σ with subclassList, siblingClass } := by
    split at hremove
    · next hdup =>
      obtain rfl := Option.some.inj hremove
      exact ⟨hm.congr_out fun c => by simp [hdup], _, _, rfl⟩
    · next hdup =>
      rw [if_neg hdup] at hunused
      refine ⟨(hm.safeRemoveAny (fun hr d hd => ?_) hremove).congr_out fun c => ?_, safeRemove_links hremove⟩
      · have hrc := hsub.resolve_right (by simp [hr])
        refine (hunused.2 d hd.1 ⟨?_, ?_⟩).2
        · rintro rfl
          cases hrc.symm.trans hd.2.2
        · rintro rfl
          cases hd.2.1.symm.trans (hl.isa_meta cls hp)
      · simp only [Bool.not_eq_true] at hdup
        simp only [hdup, true_and]
  obtain ⟨hm₁, subclassList, siblingClass, rfl⟩ := hm₁
  have hm₂ := hm₁.safeRemoveAny (fun _ d hd e => by
    have := hl.isa_meta d hd.1
    rw [show σ.isa d = cls from e, hmeta] at this
    cases this) hremove'
  obtain ⟨subclassList, siblingClass, rfl⟩ := safeRemove_links hremove'
  have hpresent : ∀ c, Function.update
      (if σ.duplicate cls then σ.present else Function.update σ.present (σ.isa cls) false) cls false
      c = true ↔
      c ≠ cls ∧ (σ.duplicate cls = true ∨ c ≠ σ.isa cls) ∧ σ.present c = true := by
    intro c
    by_cases hc : c = cls
    · simp [hc]
    · cases σ.duplicate cls <;> by_cases hc' : c = σ.isa cls <;> simp [hc, hc', Function.update_apply]
  have hshrink := fun table => hm₂.shrink (Function.update
      (if σ.duplicate cls then σ.present else Function.update σ.present (σ.isa cls) false) cls false) table
    (fun c hc => by
      obtain ⟨hne, hnm, hpc⟩ := (hpresent c).mp hc
      refine ⟨hpc, ?_⟩
      rintro ((h | ⟨hdup, rfl, -⟩) | ⟨rfl, -⟩)
      · exact h
      · exact hnm.elim (by simp [hdup]) fun h => h rfl
      · exact hne rfl)
    fun c hpc hr hout => by
      refine (hpresent c).mpr ⟨?_, ?_, hpc⟩
      · rintro rfl
        exact hout (.inr ⟨rfl, hr⟩)
      · cases hdup : σ.duplicate cls with
        | true => exact .inl rfl
        | false =>
          refine .inr ?_
          rintro rfl
          exact hout (.inl (.inr ⟨hdup, rfl, hr⟩))
  dsimp only
  split
  · exact hshrink _
  · exact hshrink _

/-- **Every operation keeps the subclass lists.** -/
theorem Mirrored.step (hm : Mirrored bad (fun _ => False) σ) (hl : Linked σ) {op : Op} {σ' : ClassLinks}
    (hok : σ.LinksOk op) (hsub : σ.SubclassesOk op) (h : σ.Step op σ') :
    Mirrored bad (fun _ => False) σ' := by
  obtain ⟨fuel, h⟩ := h
  cases op with
  | loadClass cls =>
    rw [← Option.some.inj h]
    exact hm.loadClass hl hok hsub
  | replaceClass cls old name => exact hok.elim
  | resolveClass cls =>
    obtain ⟨⟨σ₁, ok⟩, hres, rfl⟩ := Option.map_eq_some_iff.mp h
    exact hm.resolveClass hl hok.1 hok.2 hres
  | resolveClassLinks =>
    exact (hl.resolveClassLinks (fun _ _ _ _ _ hl hm hp hok h => hm.resolveClass hl hp hok h) hm hok h).2
  | getSuperclass cls =>
    obtain ⟨⟨σ₁, sup⟩, hsup, rfl⟩ := Option.map_eq_some_iff.mp h
    obtain ⟨⟨σ₂, ok⟩, hres, heq⟩ := Option.map_eq_some_iff.mp hsup
    rw [← (Prod.mk.inj heq).1]
    exact hm.resolveClass hl hok.1 hok.2 hres
  | addIvar cls searched => exact Mirrored.addIvar hl hm hok.1 hok.2 h
  | allocateClassPair superclass name cls metaclass =>
    rw [← Option.some.inj h]
    exact hm.allocateClassPair hl hok hsub
  | registerClassPair cls => exact hm.registerClassPair hl hok h
  | setSuperclass cls newSuper => exact hm.setSuperclass hl hok hsub h
  | duplicateClass original name cls => exact hm.duplicateClass hl hok h
  | initHiddenClass superclass cls =>
    rw [← Option.some.inj h]
    exact hm.initHiddenClass hl hok
  | deallocHiddenClass cls => exact hm.deallocHiddenClass hok h
  | disposeClassPair cls => exact hm.disposeClassPair hl hok hsub h

end Operations

/-! ## Runs -/

/-- Before the first image is loaded. The superclass of a class is not a metaclass, and classes that
    share a metaclass are not of the old ABI. -/
structure Images (σ : ClassLinks) : Prop extends Initial σ where
  super_class : ∀ c s, σ.present c = true → σ.isMeta c = false → σ.superClass c = some s → σ.isMeta s = false
  shared_legacy : ∀ c d, σ.Waiting c → σ.Waiting d → c ≠ d → σ.isa c = σ.isa d → σ.legacySuper c = none

/-- `P` is to be the superclass of a metaclass that two classes share, as the metaclass of `Protocol` is
    that of other classes too (builtin_classes.c). -/
def SharedSuper (σ : ClassLinks) (P : Class) : Prop :=
  ∃ c d, σ.Waiting c ∧ σ.Waiting d ∧ c ≠ d ∧ σ.isa c = σ.isa d ∧ σ.superMeta c = P

theorem Images.mirrored {σ : ClassLinks} (h : Images σ) : Mirrored σ.SharedSuper (fun _ => False) σ where
  lists P hP := by
    have := hP.2.1
    rw [h.resolved P] at this
    cases this
  super_class := h.super_class
  meta_bad c s _ hr := by
    rw [h.resolved] at hr
    cases hr
  shared_bad c d hc hd hne hshared := ⟨h.shared_legacy c d hc hd hne hshared, c, d, hc, hd, hne, hshared, rfl⟩
  out_resolved _ h := h.elim
  out_meta _ _ h := h.elim

/-- Following `subclass_list` and then `sibling_class` from `P` visits the live resolved classes that have
    `P` as their superclass, once each. -/
def SubclassesExact (σ : ClassLinks) (P : Class) : Prop :=
  ∃ l, Chain σ.siblingClass (σ.subclassList P) l ∧ l.Nodup ∧
    ∀ c, c ∈ l ↔ σ.present c = true ∧ σ.resolved c = true ∧ σ.superClass c = some P

theorem Mirrored.exact {σ : ClassLinks} {bad : Class → Prop} (hm : Mirrored bad (fun _ => False) σ)
    (hl : Linked σ)
    {P : Class} (hp : σ.present P = true) (hwaits : ¬ (P ∈ σ.table ∧ σ.resolved P = false)) (hbad : ¬ bad P) :
    σ.SubclassesExact P := by
  cases hr : σ.resolved P with
  | true =>
    obtain ⟨l, hchain, hmem⟩ := hm.lists P ⟨hp, hr, hbad⟩
    refine ⟨l, hchain, hchain.nodup, fun c => (hmem c).trans ?_⟩
    simp [Member]
  | false =>
    -- a class that is not in the class table yet has no subclasses
    refine ⟨[], ?_, List.nodup_nil, fun c => ⟨nofun, ?_⟩⟩
    · rw [(hl.clear P hp hr fun ht => hwaits ⟨ht, hr⟩).1]
      exact .nil
    · rintro ⟨hpc, hrc, hsc⟩
      cases hr.symm.trans (hl.super_resolved c P hpc hrc hsc)

/-- **The subclass lists mirror the hierarchy.** -/
theorem subclasses_exact {σ₀ σ : ClassLinks} (h₀ : Images σ₀)
    (h : Runs (fun σ op σ' => (σ.LinksOk op ∧ σ.SubclassesOk op) ∧ σ.Step op σ') σ₀ σ) {P : Class}
    (hp : σ.present P = true) (hwaits : ¬ (P ∈ σ.table ∧ σ.resolved P = false))
    (hshared : ¬ σ₀.SharedSuper P) :
    σ.SubclassesExact P := by
  have hkept : ∀ σ op σ', Linked σ ∧ Mirrored σ₀.SharedSuper (fun _ => False) σ →
      (σ.LinksOk op ∧ σ.SubclassesOk op) ∧ σ.Step op σ' → Linked σ' ∧
      Mirrored σ₀.SharedSuper (fun _ => False) σ' := by
    rintro σ op σ' ⟨hl, hm⟩ ⟨⟨hok, hsub⟩, hstep⟩
    exact ⟨hl.step hok hstep, hm.step hl hok hsub hstep⟩
  have hinv := Runs.invariant h ⟨h₀.linked, h₀.mirrored⟩ hkept
  exact hinv.2.exact hinv.1 hp hwaits hshared

/-- The images of a root class and a subclass of it. -/
def rootAndSub : ClassLinks where
  present c := c < 4
  name c := if c < 2 then "Root" else "Sub"
  isMeta c := c % 2 = 1
  duplicate _ := false
  resolved _ := false
  superClass c := if c = 2 then some 0 else none
  legacySuper _ := none
  isa c := if c % 2 = 0 then c + 1 else c
  subclassList _ := none
  siblingClass _ := none
  unresolvedClassList := none
  table := []

theorem rootAndSub_images : Images rootAndSub := by
  have hisa : ∀ c < 4, rootAndSub.present (rootAndSub.isa c) = true ∧
      rootAndSub.isMeta (rootAndSub.isa c) = true := by
    decide
  have hsuper : ∀ c < 4, ∀ s, rootAndSub.superClass c = some s → s = 0 := by
    intro c _ s h
    have h : (if c = 2 then some 0 else none) = some s := h
    split at h
    · exact (Option.some.inj h).symm
    · cases h
  exact
    { table := rfl
      unresolvedClassList := rfl
      resolved := fun _ => rfl
      subclassList := fun _ => rfl
      siblingClass := fun _ => rfl
      super_present := fun c s hp h => by
        rw [hsuper c (of_decide_eq_true hp) s h]
        rfl
      isa_present := fun c h => (hisa c (of_decide_eq_true h)).1
      isa_meta := fun c h => (hisa c (of_decide_eq_true h)).2
      super_class := fun c s hp _ h => by
        rw [hsuper c (of_decide_eq_true hp) s h]
        rfl
      shared_legacy := fun _ _ _ _ _ _ => rfl }

/-- The images after both classes are loaded. -/
def rootAndSubLoaded : ClassLinks := (rootAndSub.loadClass 0).loadClass 2

theorem rootAndSubLoaded_resolveOk : ∀ c ∈ rootAndSubLoaded.table, rootAndSubLoaded.ResolveOk c := by
  refine resolveOk_of_closed ?_ (by decide)
  rintro c hc s ⟨-, h | ⟨-, name, hname, hnamed⟩⟩
  · have hsuper : ∀ c ∈ rootAndSubLoaded.table, ∀ s ∈ rootAndSubLoaded.superClass c,
        s ∈ rootAndSubLoaded.table := by
      decide
    exact hsuper c hc s h
  · exact classNamed_mem hnamed

/-- An object of the subclass gets a hidden class. -/
theorem subclasses_exact_hidden : ∃ σ, Runs (fun σ op σ' => (LinksOk σ op ∧ SubclassesOk σ op) ∧ Step σ op σ')
    rootAndSub σ ∧ σ.superClass 4 = some 2 ∧ σ.SubclassesExact 2 := by
  obtain ⟨σ, hσ, hfields⟩ : ∃ σ, rootAndSubLoaded.perform 9 .resolveClassLinks = some σ ∧
      σ.present 4 = false ∧ σ.present 2 = true ∧ σ.resolved 2 = true ∧ σ.isMeta 2 = false :=
      ⟨_, rfl, by decide⟩
  obtain ⟨hfresh, hp, hr, hmeta⟩ := hfields
  have hload : Runs (fun σ op σ' => (LinksOk σ op ∧ SubclassesOk σ op) ∧ Step σ op σ') rootAndSub
      rootAndSubLoaded := by
    refine (Runs.single (a := .loadClass 0) ⟨⟨?_, ?_⟩, 9, rfl⟩).tail (a := .loadClass 2) ⟨⟨?_, ?_⟩, 9, rfl⟩
    · exact ⟨by decide, by decide, by decide⟩
    · exact ⟨fun _ _ h => (nomatch h), by decide⟩
    · exact ⟨by decide, by decide, by decide⟩
    · exact ⟨fun _ _ h => (nomatch h), by decide⟩
  have hresolve : LinksOk rootAndSubLoaded .resolveClassLinks ∧
      SubclassesOk rootAndSubLoaded .resolveClassLinks :=
    ⟨rootAndSubLoaded_resolveOk, trivial⟩
  have hhidden : LinksOk σ (.initHiddenClass 2 4) ∧ SubclassesOk σ (.initHiddenClass 2 4) :=
      ⟨⟨hfresh, hp, hr⟩, trivial⟩
  have hrun := (hload.tail ⟨hresolve, 9, hσ⟩).tail ⟨hhidden, 9, rfl⟩
  have hfinal : (σ.initHiddenClass 2 4).superClass 4 = some 2 ∧ (σ.initHiddenClass 2 4).present 2 = true ∧
      (σ.initHiddenClass 2 4).resolved 2 = true := by
    simp [initHiddenClass, hmeta, ClassLinks.pushSubclass, ClassLinks.clear, hp, hr]
  refine ⟨_, hrun, hfinal.1, subclasses_exact rootAndSub_images hrun hfinal.2.1 ?_ ?_⟩
  · rw [hfinal.2.2]
    simp
  · rintro ⟨c, d, hc, hd, hne, hisa, -⟩
    have hinj : ∀ c < 4, ∀ d < 4, rootAndSub.isMeta c = false → rootAndSub.isMeta d = false →
        rootAndSub.isa c = rootAndSub.isa d → c = d := by decide
    exact hne (hinj c (of_decide_eq_true hc.1) d (of_decide_eq_true hd.1) hc.2.1 hd.2.1 hisa)

/-- A class that is loaded and not resolved yet uses its `subclass_list` for the list of the unresolved
    classes. -/
theorem subclasses_reused : ∃ σ₀ σ P, Images σ₀ ∧ Runs Step σ₀ σ ∧ σ.present P = true ∧
    ¬ σ.SubclassesExact P := by
  have hrun : performAll 9 rootAndSub [.loadClass 0, .loadClass 2] = some rootAndSubLoaded := rfl
  refine ⟨rootAndSub, rootAndSubLoaded, 2, rootAndSub_images, performAll_runs hrun, rfl, ?_⟩
  rintro ⟨l, hchain, -, hmem⟩
  have hfirst : rootAndSubLoaded.subclassList 2 = some 0 := rfl
  rw [hfirst] at hchain
  obtain ⟨l', rfl, -⟩ := chain_some.mp hchain
  have := ((hmem 0).mp (by simp)).2.1
  cases this

end ClassLinks

end Libobjc2.Classes
