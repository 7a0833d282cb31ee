import Libobjc2.Dispatch.Steps

/-!
# Moving a class to a new superclass

What `class_setSuperclass` does to the links and to the tables.

Results:
* `rebaseEntries_apply`: a rebased table keeps the entries of the selectors that the class has
  methods for, and takes all others from the new superclass.
* `rebase_spec`: the recursion rebases the tables of all live subclasses.
* `setSuperclass_spec`: the call initialises the new superclass, then rebases the tables below the
  metaclass and below the class.
* `WellFormed.next`: all calls keep hierarchies well formed.
-/

namespace Libobjc2.Dispatch

open Libobjc2.Common

namespace Runtime

variable {T : SelectorTable}

/-! ## Rebasing tables -/

/-- What rebasing does to the class `n`: `d` are the tables before, `d'` after. -/
def Rebased (T : SelectorTable) (σ : Runtime) (d d' : Class → Option Dtable) (n : Class) : Prop :=
  ∃ t, d n = some t ∧
    d' n = some (rebaseEntries (((σ.superClass n).bind d').getD fun _ => none) (σ.ownMethodTable T n) t)

/-- The live classes below `cls` that are reached through live classes. -/
def LiveBelow (σ : Runtime) (cls n : Class) : Prop :=
  Within σ.superClass (fun x => σ.dtable x ≠ none) cls n

theorem ownMethodTable_same {σ σ' : Runtime} (h : SameClasses σ σ') (cls : Class) :
    σ'.ownMethodTable T cls = σ.ownMethodTable T cls := by
  rw [ownMethodTable, ownMethodTable, h.methodsOf, h.method]

/-- **The recursion of `rebaseDtableRecursive`**, for a class that is linked to its new superclass. -/
theorem rebase_spec : ∀ (fuel : ℕ) (σ : Runtime) (cls newSuper : Class), Forest σ →
    σ.superClass cls = some newSuper → σ.dtable cls ≠ none →
    height σ.superClass (Finset.range σ.classCount) cls < fuel →
    SameClasses σ (σ.rebaseDtableRecursive T fuel cls newSuper) ∧
    SameLive σ (σ.rebaseDtableRecursive T fuel cls newSuper) ∧
    (σ.rebaseDtableRecursive T fuel cls newSuper).cacheVersion = σ.cacheVersion ∧
    ∀ n, (σ.LiveBelow cls n → Rebased T σ σ.dtable (σ.rebaseDtableRecursive T fuel cls newSuper).dtable n) ∧
      (¬ σ.LiveBelow cls n → (σ.rebaseDtableRecursive T fuel cls newSuper).dtable n = σ.dtable n) := by
  intro fuel
  induction fuel with
  | zero => intro σ cls newSuper _ _ _ h; omega
  | succ fuel ih =>
    intro σ cls newSuper hf hsup hlive hh
    obtain ⟨t, ht⟩ := Option.ne_none_iff_exists'.mp hlive
    -- the table of the class itself
    set dt := rebaseEntries (σ.dtableForClass newSuper) (σ.ownMethodTable T cls) t with hdt
    set σ₀ := (σ.setDtable cls dt).checkARCAccessors T cls with hσ₀
    have hcheck := sameTables_checkARCAccessors (T := T) (σ.setDtable cls dt) cls
    have hs₀ : SameClasses σ σ₀ := (sameClasses_setDtable σ cls dt).trans hcheck.toSameClasses
    have hd₀ : σ₀.dtable = Function.update σ.dtable cls (some dt) := hcheck.dtable
    have hl₀ : SameLive σ σ₀ := fun n => by
      rw [hd₀, Function.update_apply]
      split
      · next h => simp [h, ht]
      · rfl
    have hf₀ := hf.of_same hs₀
    let step (τ : Runtime) (e : Class) : Runtime :=
      if τ.classHasDtable e then τ.rebaseDtableRecursive T fuel e cls else τ
    have hrec : σ.rebaseDtableRecursive T (fuel + 1) cls newSuper = (σ₀.subclassList cls).foldl step σ₀ := by
      rw [rebaseDtableRecursive, dtableForClass_eq ht]
    let P (e : Class) (d d' : Class → Option Dtable) (n : Class) : Prop :=
      (Within σ.superClass (fun x => d x ≠ none) e n → Rebased T σ d d' n) ∧
      (¬ Within σ.superClass (fun x => d x ≠ none) e n → d' n = d n)
    have hcongr : ∀ e d₁ d₂ d₁' d₂' n, σ₀.superClass e = some cls → Below σ₀.superClass n e →
        (∀ x, Below σ₀.superClass x e ∨ x = cls → d₁ x = d₁' x ∧ d₂ x = d₂' x) →
        P e d₁ d₂ n → P e d₁' d₂' n := by
      rw [hs₀.superClass]
      intro e d₁ d₂ d₁' d₂' n he hn hd h
      have hw : Within σ.superClass (fun x => d₁ x ≠ none) e n ↔
          Within σ.superClass (fun x => d₁' x ≠ none) e n :=
        Within.congr fun x hx => by rw [(hd x (.inl hx)).1]
      have hp : (σ.superClass n).bind d₂ = (σ.superClass n).bind d₂' := by
        cases hpn : σ.superClass n with
        | none => rfl
        | some p =>
          refine (hd p ?_).2
          rcases hn.cases with rfl | ⟨q, hq, hqe⟩
          · exact .inr (Option.some.inj (hpn.symm.trans he))
          · rw [Option.some.inj (hpn.symm.trans hq)]
            exact .inl hqe
      refine ⟨fun hwn => ?_, fun hwn => ?_⟩
      · have := h.1 (hw.mpr hwn)
        rwa [Rebased, hp, (hd n (.inl hn)).1, (hd n (.inl hn)).2] at this
      · rw [← (hd n (.inl hn)).1, ← (hd n (.inl hn)).2]
        exact h.2 (mt hw.mp hwn)
    have hstep : ∀ τ, ∀ e ∈ σ₀.subclassList cls,
        SameClasses σ₀ τ ∧ SameLive σ₀ τ ∧ τ.cacheVersion = σ₀.cacheVersion →
        (SameClasses σ₀ (step τ e) ∧ SameLive σ₀ (step τ e) ∧ (step τ e).cacheVersion = σ₀.cacheVersion) ∧
        (∀ n, ¬ Below σ₀.superClass n e → (step τ e).dtable n = τ.dtable n) ∧
        ∀ n, Below σ₀.superClass n e → P e τ.dtable (step τ e).dtable n := by
      rintro τ e he ⟨hsτ, hlτ, hvτ⟩
      have hec := (hf₀.mem_subclassList cls e).mp he
      have hsσ : SameClasses σ τ := hs₀.trans hsτ
      by_cases hel : τ.dtable e = none
      · have : step τ e = τ := if_neg (by simp [classHasDtable, hel])
        rw [this]
        exact ⟨⟨hsτ, hlτ, hvτ⟩, fun _ _ => rfl, fun n _ => ⟨fun hw => absurd hel hw.first, fun _ => rfl⟩⟩
      · have : step τ e = τ.rebaseDtableRecursive T fuel e cls :=
          if_pos (by simpa [classHasDtable, Option.isSome_iff_ne_none] using hel)
        rw [this]
        rw [hs₀.superClass] at hec
        obtain ⟨hs', hl', hv', hr⟩ := ih τ e cls (hf.of_same hsσ) (by rwa [hsσ.superClass]) hel (by
          rw [hsσ.superClass, hsσ.classCount]
          have := height_lt hf.acyclic (hf.bounded e cls hec).2 hec
          omega)
        refine ⟨⟨hsτ.trans hs', fun n => (hl' n).trans (hlτ n), hv'.trans hvτ⟩, fun n hn => ?_, fun n _ => ?_⟩
        · rw [hs₀.superClass] at hn
          exact (hr n).2 fun hw => hn (hsσ.superClass ▸ hw.1)
        · have := hr n
          rwa [LiveBelow, Rebased, hsσ.superClass, ownMethodTable_same hsσ] at this
    obtain ⟨⟨hs', hl', hv'⟩, hout, hin⟩ := foldl_regions hf₀.acyclic (·.dtable)
      (fun τ => SameClasses σ₀ τ ∧ SameLive σ₀ τ ∧ τ.cacheVersion = σ₀.cacheVersion) step P hcongr
      (σ₀.subclassList cls) σ₀ (hf₀.nodup cls) (fun e he => (hf₀.mem_subclassList cls e).mp he)
      ⟨SameClasses.refl σ₀, fun _ => Iff.rfl, rfl⟩ hstep
    rw [hrec]
    set σ' := (σ₀.subclassList cls).foldl step σ₀ with hσ'
    rw [hs₀.superClass] at hout hin
    have hmem : ∀ e, e ∈ σ₀.subclassList cls ↔ σ.superClass e = some cls := fun e => by
      rw [hf₀.mem_subclassList, hs₀.superClass]
    refine ⟨hs₀.trans hs', fun n => (hl' n).trans (hl₀ n), hv'.trans hcheck.cacheVersion, fun n => ?_⟩
    -- the chains of live classes are the same before and after the first table
    have hchain : ∀ e, Within σ.superClass (fun x => σ₀.dtable x ≠ none) e n ↔ σ.LiveBelow e n := fun e =>
      Within.congr fun x _ => not_congr (hl₀ x)
    have hkeep : ∀ x, (∀ e, σ.superClass e = some cls → ¬ Below σ.superClass x e) →
        σ'.dtable x = σ₀.dtable x :=
      fun x hx => hout x fun e he => hx e ((hmem e).mp he)
    have hclsKeep : σ'.dtable cls = some dt := by
      rw [hkeep cls fun e he hce => Below.ne_of_child hf.acyclic he hce rfl, hd₀, Function.update_self]
    by_cases hnc : n = cls
    · subst hnc
      refine ⟨fun _ => ⟨t, ht, ?_⟩, fun h => absurd ((Within.self_iff hf.acyclic).mpr hlive) h⟩
      have hnew : σ'.dtable newSuper = σ.dtable newSuper := by
        have hnb : ∀ e, σ.superClass e = some n → ¬ Below σ.superClass newSuper e := fun e he hb =>
          hf.acyclic n newSuper hsup (hb.trans (Below.of_parent he))
        rw [hkeep newSuper hnb, hd₀, Function.update_of_ne]
        rintro rfl
        exact hf.acyclic newSuper newSuper hsup (Below.refl _)
      rw [hclsKeep, hsup, Option.bind_some, hnew, hdt, dtableForClass]
    · by_cases hbelow : ∃ e, σ.superClass e = some cls ∧ Below σ.superClass n e
      · obtain ⟨e, he, hne⟩ := hbelow
        have hlb : σ.LiveBelow cls n ↔ σ.LiveBelow e n := within_child_iff hf.acyclic he hlive hne
        have hd₀n : σ₀.dtable n = σ.dtable n := by rw [hd₀, Function.update_of_ne hnc]
        obtain ⟨hin₁, hin₂⟩ := hin e ((hmem e).mpr he) n hne
        rw [hchain e, Rebased, hd₀n] at hin₁
        rw [hchain e, hd₀n] at hin₂
        rw [hlb]
        exact ⟨hin₁, hin₂⟩
      · refine ⟨fun hw => absurd (hw.1.cases_child.resolve_left hnc) hbelow, fun _ => ?_⟩
        rw [hkeep n fun e he hne => hbelow ⟨e, he, hne⟩, hd₀, Function.update_of_ne hnc]

theorem updateDtableForNewSuperclass_eq {σ : Runtime} {cls : Class} (h : σ.dtable cls ≠ none)
    (newSuper : Class) :
    σ.updateDtableForNewSuperclass T cls newSuper =
      (σ.rebaseDtableRecursive T (σ.classCount + 1) cls newSuper).bumpCacheVersion :=
  if_neg (by simpa [classHasDtable, Option.isNone_iff_eq_none] using h)

/-! ## Links -/

theorem mem_removeFromSubclassList {σ : Runtime} (hf : Forest σ) (c x e : Class) :
    e ∈ (σ.removeFromSubclassList c).subclassList x ↔ e ≠ c ∧ σ.superClass e = some x := by
  rw [removeFromSubclassList]
  cases hc : σ.superClass c with
  | none =>
    dsimp only
    rw [hf.mem_subclassList]
    refine ⟨fun h => ⟨?_, h⟩, fun h => h.2⟩
    rintro rfl
    rw [hc] at h
    cases h
  | some sup =>
    dsimp only
    by_cases hx : x = sup
    · subst hx
      rw [Function.update_self, (hf.nodup x).mem_erase_iff, hf.mem_subclassList]
    · rw [Function.update_of_ne hx, hf.mem_subclassList]
      refine ⟨fun h => ⟨?_, h⟩, fun h => h.2⟩
      rintro rfl
      rw [hc] at h
      exact hx (Option.some.inj h).symm

theorem nodup_removeFromSubclassList {σ : Runtime} (hf : Forest σ) (c x : Class) :
    ((σ.removeFromSubclassList c).subclassList x).Nodup := by
  rw [removeFromSubclassList]
  cases σ.superClass c with
  | none => exact hf.nodup x
  | some sup =>
    dsimp only
    rw [Function.update_apply]
    split
    · exact (hf.nodup sup).erase c
    · exact hf.nodup x

theorem removeFromSubclassList_eq (σ : Runtime) (c : Class) :
    ∃ lists, σ.removeFromSubclassList c = { σ with subclassList := lists } := by
  rw [removeFromSubclassList]
  cases σ.superClass c <;> exact ⟨_, rfl⟩

/-- A class gets a superclass that is not below it. -/
theorem Forest.relink {σ : Runtime} (hf : Forest σ) {c p : Class} (hc : c < σ.classCount)
    (hp : p < σ.classCount) (hnb : ¬ Below σ.superClass p c) :
    Forest ((σ.removeFromSubclassList c).linkSuperclass c p) := by
  have hmem := mem_removeFromSubclassList hf c
  have hnd := nodup_removeFromSubclassList hf c
  obtain ⟨lists, heq⟩ := removeFromSubclassList_eq σ c
  rw [heq] at hmem hnd ⊢
  refine ⟨acyclic_reparent hf.acyclic hnb, fun n q hq => ?_, fun x => ?_, fun x e => ?_⟩
  · simp only [linkSuperclass, Function.update_apply] at hq ⊢
    split at hq
    · next h =>
      cases hq
      exact ⟨h ▸ Finset.mem_range.mpr hc, Finset.mem_range.mpr hp⟩
    · exact hf.bounded n q hq
  · simp only [linkSuperclass, Function.update_apply]
    split
    · exact List.nodup_cons.mpr ⟨fun h => ((hmem p c).mp h).1 rfl, hnd p⟩
    · exact hnd x
  · simp only [linkSuperclass, Function.update_apply]
    by_cases hx : x = p
    · rw [if_pos hx, List.mem_cons, hmem]
      by_cases he : e = c
      · simp [he, hx]
      · simp [he, hx]
    · rw [if_neg hx, hmem]
      by_cases he : e = c
      · simp [he, Ne.symm hx]
      · simp [he]

/-- What is above the metaclass of a class: the metaclasses of what is above the class, and the
    root class. -/
theorem below_isa {σ : Runtime} (hf : Forest σ) (hp : ClassPairs σ) {c : Class} (hc : c < σ.classCount)
    (hm : σ.isMeta c = false) {x : Class} (h : Below σ.superClass (σ.isa c) x) :
    ∃ b, Below σ.superClass c b ∧ (x = σ.isa b ∨ x = b ∧ σ.superClass b = none) := by
  induction h with
  | refl => exact ⟨c, Below.refl c, .inl rfl⟩
  | tail _ hxy ih =>
    obtain ⟨b, hb, rfl | ⟨rfl, hr⟩⟩ := ih
    · rw [hp.super_meta b (hf.lt_of_below hc hb) (hp.below_class hm hb)] at hxy
      cases hs : σ.superClass b with
      | none =>
        rw [hs] at hxy
        exact ⟨b, hb, .inr ⟨(Option.some.inj hxy).symm, hs⟩⟩
      | some p =>
        rw [hs] at hxy
        exact ⟨p, hb.trans (Below.of_parent hs), .inl (Option.some.inj hxy).symm⟩
    · rw [hr] at hxy
      cases hxy

/-- What `class_setSuperclass` is called with: classes, the new superclass not below the class. A
    metaclass is not initialised before its class. -/
def Movable (σ : Runtime) (cls newSuper : Class) : Prop :=
  cls < σ.classCount ∧ newSuper < σ.classCount ∧ σ.isMeta cls = false ∧ σ.isMeta newSuper = false ∧
    cls ∉ σ.ancestors newSuper ∧ (σ.dtable cls = none → σ.dtable (σ.isa cls) = none)

instance (σ : Runtime) (cls newSuper : Class) : Decidable (σ.Movable cls newSuper) :=
  inferInstanceAs (Decidable (_ ∧ _))

section Move

variable {σ : Runtime} {cls newSuper : Class}

/-- The links after the move; all else is as before. -/
theorem moveClass_eq (newSuper : Class) (hcls : σ.isMeta cls = false) :
    ∃ lists, σ.moveClass cls newSuper =
      { σ with
        superClass := Function.update (Function.update σ.superClass cls (some newSuper)) (σ.isa cls)
          (some (σ.isa newSuper))
        isa := Function.update σ.isa (σ.isa cls) (σ.isa (σ.isa newSuper))
        subclassList := lists } := by
  obtain ⟨lists, h⟩ := removeFromSubclassList_eq σ cls
  rw [moveClass, h]
  simp only [linkSuperclass, hcls, Bool.false_eq_true, if_false]
  obtain ⟨lists', h'⟩ := removeFromSubclassList_eq
    { σ with
      superClass := Function.update σ.superClass cls (some newSuper)
      subclassList := Function.update lists newSuper (cls :: lists newSuper) } (σ.isa cls)
  rw [h']
  exact ⟨_, rfl⟩

theorem Movable.not_below (hw : WellFormed σ) (hm : σ.Movable cls newSuper) :
    ¬ Below σ.superClass newSuper cls := fun h => hm.2.2.2.2.1 ((mem_ancestors hw.toForest).mpr h)

theorem Movable.forest (hw : WellFormed σ) (hm : σ.Movable cls newSuper) :
    Forest (σ.moveClass cls newSuper) := by
  have hnb := Movable.not_below hw hm
  obtain ⟨hc, hn, hcm, hnm, _, _⟩ := hm
  obtain ⟨hmm, hmc⟩ := hw.isa_meta cls hc hcm
  obtain ⟨_, hnc⟩ := hw.isa_meta newSuper hn hnm
  have hf₁ := hw.toForest.relink hc hn hnb
  -- the metaclass of the new superclass is not below the metaclass
  have hnb₂ : ¬ Below σ.superClass (σ.isa newSuper) (σ.isa cls) := by
    intro h
    obtain ⟨b, hb, heq | ⟨heq, _⟩⟩ := below_isa hw.toForest hw.toClassPairs hn hnm h
    · have := hw.isa_inj cls hc b (hw.toForest.lt_of_below hn hb) hcm (hw.toClassPairs.below_class hnm hb) heq
      exact hnb (this ▸ hb)
    · rw [heq, hw.toClassPairs.below_class hnm hb] at hmm
      cases hmm
  have hnb₁ : ¬ Below (Function.update σ.superClass cls (some newSuper)) (σ.isa newSuper) (σ.isa cls) := by
    intro h
    rcases below_reparent hnb h with h | ⟨_, h⟩
    · exact hnb₂ h
    · rw [hw.toClassPairs.below_class hnm h] at hmm
      cases hmm
  obtain ⟨lists, h⟩ := removeFromSubclassList_eq σ cls
  rw [moveClass]
  rw [h] at hf₁ ⊢
  simp only [linkSuperclass, hcm, Bool.false_eq_true, if_false] at hf₁ ⊢
  have hf₂ := hf₁.relink (c := σ.isa cls) (p := σ.isa newSuper) hmc hnc hnb₁
  exact ⟨hf₂.acyclic, hf₂.bounded, hf₂.nodup, hf₂.mem_subclassList⟩

/-- Below the class and its metaclass, superclasses need not be initialised after the move. -/
def Orphans (σ : Runtime) (cls : Class) (c : Class) : Prop := c = cls ∨ c = σ.isa cls

theorem Movable.wellFormedOff (hw : WellFormed σ) (hm : σ.Movable cls newSuper) :
    WellFormedOff (σ.Orphans cls) (σ.moveClass cls newSuper) := by
  have hf := Movable.forest hw hm
  obtain ⟨hc, hn, hcm, hnm, _, _⟩ := hm
  obtain ⟨hmm, -⟩ := hw.isa_meta cls hc hcm
  have hclass : ∀ c, σ.isMeta c = false → c ≠ σ.isa cls := by
    rintro c h rfl
    rw [hmm] at h
    cases h
  obtain ⟨lists, heq⟩ := moveClass_eq newSuper hcm
  rw [heq] at hf ⊢
  have hisa : ∀ c, σ.isMeta c = false →
      Function.update σ.isa (σ.isa cls) (σ.isa (σ.isa newSuper)) c = σ.isa c := fun c h =>
    Function.update_of_ne (hclass c h) ..
  have hsup : ∀ c, σ.isMeta c = false → c ≠ cls →
      Function.update (Function.update σ.superClass cls (some newSuper)) (σ.isa cls)
      (some (σ.isa newSuper)) c =
        σ.superClass c := fun c h hne => by
    rw [Function.update_of_ne (hclass c h), Function.update_of_ne hne]
  refine ⟨hf, ⟨fun c hcc hm' => ?_, fun c hcc c' hcc' hm' hm'' h => ?_, fun c p hp hm' => ?_,
    fun c hcc hm' => ?_⟩, fun n p ho hl hp => ?_, fun c hcc hm' hl => ?_, hw.fresh, hw.nodup_methods,
    hw.owned_once⟩
  · dsimp only at hcc hm' ⊢
    rw [hisa c hm']
    exact hw.isa_meta c hcc hm'
  · dsimp only at hcc hcc' hm' hm'' h
    rw [hisa c hm', hisa c' hm''] at h
    exact hw.isa_inj c hcc c' hcc' hm' hm'' h
  · dsimp only at hp hm' ⊢
    by_cases hne : c = cls
    · rw [hne, Function.update_of_ne (hclass cls hcm), Function.update_self] at hp
      cases hp
      exact hnm
    · rw [hsup c hm' hne] at hp
      exact hw.super_class c p hp hm'
  · dsimp only at hcc hm' ⊢
    rw [hisa c hm']
    by_cases hne : c = cls
    · rw [hne, Function.update_self, Function.update_of_ne (hclass cls hcm), Function.update_self,
        Option.elim_some,
        hisa newSuper hnm]
    · have hne' : σ.isa c ≠ σ.isa cls := fun h => hne (hw.isa_inj c hcc cls hc hm' hcm h)
      have hne'' : σ.isa c ≠ cls := by
        intro h
        have := (hw.isa_meta c hcc hm').1
        rw [h, hcm] at this
        cases this
      rw [Function.update_of_ne hne', Function.update_of_ne hne'', hw.super_meta c hcc hm', hsup c hm' hne]
      cases hs : σ.superClass c with
      | none => rfl
      | some p => rw [Option.elim_some, Option.elim_some, hisa p (hw.super_class c p hs hm')]
  · rw [Orphans, not_or] at ho
    dsimp only at hl hp ⊢
    rw [Function.update_of_ne ho.2, Function.update_of_ne ho.1] at hp
    exact hw.live_up n p hl hp
  · dsimp only at hcc hm' hl ⊢
    rw [hisa c hm']
    exact hw.live_meta c hcc hm' hl

/-- In the moved hierarchy, neither the new superclass nor what is above it is below the class or its
    metaclass, and the same holds of the metaclasses. -/
theorem Movable.off (hw : WellFormed σ) (hm : σ.Movable cls newSuper) (a : Class)
    (ha : Below (σ.moveClass cls newSuper).superClass newSuper a) :
    ¬ (σ.moveClass cls newSuper).Under (σ.Orphans cls) a ∧
      ¬ (σ.moveClass cls newSuper).Under (σ.Orphans cls) ((σ.moveClass cls newSuper).isa a) := by
  have hw' := Movable.wellFormedOff hw hm
  have hf' := hw'.toForest
  obtain ⟨hc, hn, hcm, hnm, _, _⟩ := hm
  obtain ⟨lists, heq⟩ := moveClass_eq newSuper hcm
  set σ₁ := σ.moveClass cls newSuper with hσ₁
  have hmeta : σ₁.isMeta = σ.isMeta := by rw [heq]
  have hcount : σ₁.classCount = σ.classCount := by rw [heq]
  obtain ⟨hmm, -⟩ := hw.isa_meta cls hc hcm
  have hne : cls ≠ σ.isa cls := by
    intro h
    rw [← h, hcm] at hmm
    cases hmm
  have hsup : σ₁.superClass cls = some newSuper := by
    rw [heq]
    dsimp only
    rw [Function.update_of_ne hne, Function.update_self]
  have hisa : σ₁.isa cls = σ.isa cls := by
    rw [heq]
    exact Function.update_of_ne hne ..
  have hnm' : σ₁.isMeta newSuper = false := by rw [hmeta]; exact hnm
  have ham := hw'.toClassPairs.below_class hnm' ha
  have hac : a < σ₁.classCount := hf'.lt_of_below (by rw [hcount]; exact hn) ha
  have hacls : ¬ Below σ₁.superClass a cls := fun h => hf'.acyclic cls newSuper hsup (ha.trans h)
  constructor
  · rintro ⟨o, rfl | rfl, hb⟩
    · exact hacls hb
    · have := hw'.toClassPairs.below_class ham hb
      rw [hmeta, hmm] at this
      cases this
  · rintro ⟨o, ho, hb⟩
    obtain ⟨b, hab, rfl | ⟨rfl, hroot⟩⟩ := below_isa hf' hw'.toClassPairs hac ham hb
    · have hbm := hw'.toClassPairs.below_class ham hab
      have hbc := hf'.lt_of_below hac hab
      have hbisa := (hw'.isa_meta b hbc hbm).1
      rcases ho with ho | ho
      · rw [ho, hmeta, hcm] at hbisa
        cases hbisa
      · rw [← hisa] at ho
        have : b = cls := hw'.isa_inj b hbc cls (by rw [hcount]; exact hc) hbm (by rw [hmeta]; exact hcm) ho
        exact hacls (this ▸ hab)
    · rcases ho with rfl | rfl
      · rw [hsup] at hroot
        cases hroot
      · have := hw'.toClassPairs.below_class ham hab
        rw [hmeta, hmm] at this
        cases this

/-- What `class_setSuperclass` does to an initialised class: `σ₂` is the state after the move and the
    initialisation of the new superclass, in which the tables are rebased. -/
structure SetSuperclass (T : SelectorTable) (σ : Runtime) (cls newSuper : Class) (σ₂ σ' : Runtime) :
    Prop where
  initialised : (σ.moveClass cls newSuper).sendInitialize T (σ.classCount + 1) newSuper = some σ₂
  grown : GrowsOff T (σ.Orphans cls) (σ.moveClass cls newSuper) σ₂
  wellFormed : WellFormed σ₂
  same : SameClasses σ₂ σ'
  same_live : SameLive σ₂ σ'
  version : σ₂.cacheVersion < σ'.cacheVersion
  rebased : ∀ n, σ₂.LiveBelow cls n ∨ σ₂.LiveBelow (σ.isa cls) n → Rebased T σ₂ σ₂.dtable σ'.dtable n
  other : ∀ n, ¬ σ₂.LiveBelow cls n → ¬ σ₂.LiveBelow (σ.isa cls) n → σ'.dtable n = σ₂.dtable n

/-- **`class_setSuperclass`** on an initialised class. -/
theorem setSuperclass_spec (hw : WellFormed σ) (hm : σ.Movable cls newSuper)
    (hne : σ.superClass cls ≠ some newSuper) (hlive : σ.dtable cls ≠ none) :
    ∃ σ₂ σ', σ.setSuperclass T cls newSuper = some σ' ∧ SetSuperclass T σ cls newSuper σ₂ σ' := by
  have hw₁ := Movable.wellFormedOff hw hm
  have hoff := Movable.off hw hm
  have hcm := hm.2.2.1
  have hnm := hm.2.2.2.1
  obtain ⟨hmm, -⟩ := hw.isa_meta cls hm.1 hcm
  have hncls : cls ≠ σ.isa cls := by
    intro h
    rw [← h, hcm] at hmm
    cases hmm
  have hnnew : newSuper ≠ σ.isa cls := by
    rintro rfl
    rw [hmm] at hnm
    cases hnm
  obtain ⟨lists, heq⟩ := moveClass_eq newSuper hcm
  set σ₁ := σ.moveClass cls newSuper with hσ₁
  have hcount : σ₁.classCount = σ.classCount := by rw [heq]
  have hmeta : σ₁.isMeta = σ.isMeta := by rw [heq]
  have hd₁ : σ₁.dtable = σ.dtable := by rw [heq]
  have hisa : ∀ c, c ≠ σ.isa cls → σ₁.isa c = σ.isa c := fun c h => by
    rw [heq]
    exact Function.update_of_ne h ..
  have hsup₁ : σ₁.superClass cls = some newSuper := by
    rw [heq]
    dsimp only
    rw [Function.update_of_ne hncls, Function.update_self]
  have hsupm₁ : σ₁.superClass (σ.isa cls) = some (σ.isa newSuper) := by
    rw [heq]
    exact Function.update_self ..
  -- the new superclass is initialised
  have hcm₁ : σ₁.isMeta cls = false := by rw [hmeta]; exact hcm
  have hnm₁ : σ₁.isMeta newSuper = false := by rw [hmeta]; exact hnm
  have hn₁ : newSuper < σ₁.classCount := by rw [hcount]; exact hm.2.1
  obtain ⟨σ₂, hσ₂, hw₂, hi⟩ := sendInitialize_spec (T := T) (σ₁.classCount + 1) σ₁ newSuper hw₁
    (messageable_of_class hw₁.toForest hw₁.toClassPairs hn₁ hnm₁) hoff (Forest.depth_lt_fuel newSuper)
  have hsame := hi.toSameClasses
  have hnlive : σ₂.dtable (σ.isa newSuper) ≠ none := by
    have := hi.live_isa hnm₁
    rwa [hisa newSuper hnnew] at this
  have hw₂' : WellFormed σ₂ := by
    refine hw₂.of_live (SameClasses.refl σ₂) (fun n p _ hn hp => ?_) hw₂.live_meta
    rw [hsame.superClass] at hp
    by_cases ho : σ.Orphans cls n
    · rcases ho with rfl | rfl
      · rw [hsup₁] at hp
        cases hp
        exact hi.live
      · rw [hsupm₁] at hp
        cases hp
        exact hnlive
    · exact hw₂.live_up_off n p ho hn (by rw [hsame.superClass]; exact hp)
  have hlive₂ : σ₂.dtable cls ≠ none := hi.live_ne (by rw [hd₁]; exact hlive)
  have hmlive₂ : σ₂.dtable (σ.isa cls) ≠ none :=
    hi.live_ne (by rw [hd₁]; exact hw.live_meta cls hm.1 hcm hlive)
  -- the metaclass is rebased first
  obtain ⟨hs₃, hl₃, hv₃, hr₃⟩ := rebase_spec (T := T) (σ₂.classCount + 1) σ₂ (σ.isa cls) (σ.isa newSuper)
    hw₂.toForest (by rw [hsame.superClass]; exact hsupm₁) hmlive₂ (Forest.height_lt_fuel _)
  set σ₃ := σ₂.rebaseDtableRecursive T (σ₂.classCount + 1) (σ.isa cls) (σ.isa newSuper) with hσ₃
  have hs₃' : SameClasses σ₂ σ₃.bumpCacheVersion := hs₃.trans (sameClasses_bump σ₃)
  obtain ⟨hs₄, hl₄, hv₄, hr₄⟩ := rebase_spec (T := T) (σ₃.bumpCacheVersion.classCount + 1)
      σ₃.bumpCacheVersion cls
    newSuper (hw₂.toForest.of_same hs₃') (by rw [hs₃'.superClass, hsame.superClass]; exact hsup₁)
    ((not_congr (hl₃ cls)).mpr hlive₂) (Forest.height_lt_fuel _)
  set σ₄ := σ₃.bumpCacheVersion.rebaseDtableRecursive T (σ₃.bumpCacheVersion.classCount + 1) cls
      newSuper with hσ₄
  have hlb : ∀ n, σ₃.bumpCacheVersion.LiveBelow cls n ↔ σ₂.LiveBelow cls n := fun n => by
    rw [LiveBelow, LiveBelow, hs₃'.superClass]
    exact Within.congr fun x _ => not_congr (hl₃ x)
  -- the two trees are apart
  have hisa₂ : σ₂.isa cls = σ.isa cls := by rw [hsame.isa]; exact hisa cls hncls
  have hcm₂ : σ₂.isMeta cls = false := by rw [hsame.isMeta]; exact hcm₁
  have hc₂ : cls < σ₂.classCount := by rw [hsame.classCount, hcount]; exact hm.1
  have hapart : ∀ n, Below σ₂.superClass n (σ.isa cls) → ¬ Below σ₂.superClass n cls := by
    intro n hn hn'
    rcases hn.linear hn' with h | h
    · rw [← hisa₂] at h
      obtain ⟨b, hb, hx | ⟨rfl, hr⟩⟩ := below_isa hw₂.toForest hw₂.toClassPairs hc₂ hcm₂ h
      · have := (hw₂.isa_meta b (hw₂.toForest.lt_of_below hc₂ hb) (hw₂.toClassPairs.below_class hcm₂ hb)).1
        rw [← hx, hcm₂] at this
        cases this
      · rw [hsame.superClass, hsup₁] at hr
        cases hr
    · have := hw₂.toClassPairs.below_class hcm₂ h
      rw [hsame.isMeta, hmeta, hmm] at this
      cases this
  have hapartSuper : ¬ Below σ₂.superClass (σ.isa newSuper) cls := by
    intro h
    have := (hoff newSuper (Below.refl _)).2
    rw [hisa newSuper hnnew] at this
    exact this ⟨cls, .inl rfl, by rwa [← hsame.superClass]⟩
  have hnot₄ : ∀ n, ¬ Below σ₂.superClass n cls → σ₄.dtable n = σ₃.dtable n := fun n hn =>
    (hr₄ n).2 fun h => hn ((hlb n).mp h).1
  refine ⟨σ₂, σ₄.bumpCacheVersion, ?_, ⟨by rw [← hcount]; exact hσ₂, hi.toGrowsOff, hw₂',
    (hs₃'.trans hs₄).trans (sameClasses_bump σ₄), fun n => (hl₄ n).trans (hl₃ n), ?_, ?_, fun n hn hn' => ?_⟩⟩
  · rw [setSuperclass, if_neg hne, ← hσ₁]
    dsimp only
    rw [if_neg (by simpa [classHasDtable, hd₁, Option.isNone_iff_eq_none] using hlive), hσ₂]
    show some _ = some _
    rw [hisa₂, hsame.isa, hisa newSuper hnnew]
    rw [updateDtableForNewSuperclass_eq hmlive₂, ← hσ₃,
      updateDtableForNewSuperclass_eq (σ := σ₃.bumpCacheVersion) ((not_congr (hl₃ cls)).mpr hlive₂)]
  · show σ₂.cacheVersion < σ₄.cacheVersion + 1
    rw [hv₄]
    show σ₂.cacheVersion < σ₃.cacheVersion + 1 + 1
    omega
  · rintro n (hn | hn)
    · have h := (hr₄ n).1 ((hlb n).mpr hn)
      have hd : σ₃.bumpCacheVersion.dtable n = σ₂.dtable n := (hr₃ n).2 fun h => hapart n h.1 hn.1
      rw [Rebased, hs₃'.superClass, ownMethodTable_same hs₃', hd] at h
      exact h
    · have h := (hr₃ n).1 hn
      have hd : σ₄.dtable n = σ₃.dtable n := hnot₄ n (hapart n hn.1)
      have hdp : (σ₂.superClass n).bind σ₄.dtable = (σ₂.superClass n).bind σ₃.dtable := by
        by_cases hnm' : n = σ.isa cls
        · rw [hnm', hsame.superClass, hsupm₁, Option.bind_some, Option.bind_some, hnot₄ _ hapartSuper]
        · obtain ⟨p, hp, hpw⟩ := hn.up hnm'
          rw [hp, Option.bind_some, Option.bind_some, hnot₄ p (hapart p hpw.1)]
      rw [Rebased, ← hd, ← hdp] at h
      exact h
  · show σ₄.dtable n = σ₂.dtable n
    rw [(hr₄ n).2 (mt (hlb n).mp hn)]
    exact (hr₃ n).2 hn'

end Move

/-! ## All calls keep hierarchies well formed -/

theorem WellFormed.setImp {σ : Runtime} (hw : WellFormed σ) (m : MethodId) (imp : Imp) :
    WellFormed (σ.setImp m imp) :=
  ⟨⟨hw.acyclic, hw.bounded, hw.nodup, hw.mem_subclassList⟩,
    ⟨hw.isa_meta, hw.isa_inj, hw.super_class, hw.super_meta⟩, hw.live_up_off, hw.live_meta, hw.fresh,
    hw.nodup_methods, hw.owned_once⟩

theorem WellFormed.installAll {σ : Runtime} (hw : WellFormed σ) {cls : Class} (hlive : σ.dtable cls ≠ none)
    (sup : Option Dtable) (ms : List MethodId) : WellFormed (installAll T cls sup σ ms) := by
  obtain ⟨hs, hl, _⟩ := installAll_frame (T := T) sup ms σ hw.toForest hlive
  exact hw.of_same hs hl

/-- Moving a class that is not initialised changes links only. -/
theorem next_setSuperclass_of_none {σ : Runtime} {cls newSuper : Class} (hcm : σ.isMeta cls = false)
    (hne : σ.superClass cls ≠ some newSuper) (hnone : σ.dtable cls = none) :
    σ.next T (.setSuperclass cls newSuper) = σ.moveClass cls newSuper := by
  obtain ⟨lists, heq⟩ := moveClass_eq newSuper hcm
  have hd : (σ.moveClass cls newSuper).dtable = σ.dtable := by rw [heq]
  rw [next, perform, setSuperclass, if_neg hne]
  dsimp only
  rw [if_pos (by simp [classHasDtable, hd, hnone]), Option.getD_some]

theorem next_setSuperclass_of_eq {σ : Runtime} {cls newSuper : Class} (h : σ.superClass cls = some newSuper) :
    σ.next T (.setSuperclass cls newSuper) = σ := by
  rw [next, perform, setSuperclass, if_pos h, Option.getD_some]

theorem WellFormed.move {σ : Runtime} (hw : WellFormed σ) {cls newSuper : Class}
    (hm : σ.Movable cls newSuper) : WellFormed (σ.next T (.setSuperclass cls newSuper)) := by
  by_cases hne : σ.superClass cls = some newSuper
  · rwa [next_setSuperclass_of_eq hne]
  by_cases hlive : σ.dtable cls = none
  · rw [next_setSuperclass_of_none hm.2.2.1 hne hlive]
    have hw' := Movable.wellFormedOff hw hm
    obtain ⟨lists, heq⟩ := moveClass_eq newSuper hm.2.2.1
    have hd : (σ.moveClass cls newSuper).dtable = σ.dtable := by rw [heq]
    refine hw'.of_live (SameClasses.refl _) (fun n p _ hn hp => hw'.live_up_off n p ?_ hn hp) hw'.live_meta
    -- the moved classes have no tables
    rw [hd] at hn
    rintro (rfl | rfl)
    · exact hn hlive
    · exact hn (hm.2.2.2.2.2 hlive)
  · obtain ⟨σ₂, σ', h, hs⟩ := setSuperclass_spec (T := T) hw hm hne hlive
    have : σ.next T (.setSuperclass cls newSuper) = σ' := by rw [next, perform, h, Option.getD_some]
    rw [this]
    exact hs.wellFormed.of_same hs.same hs.same_live

theorem wellFormed_rules : StepRules T WellFormed Messageable (fun _ _ => True) (fun _ _ _ => True)
    (fun _ _ _ => True)
    Movable where
  wellFormed := id
  send _ hm := hm
  same := WellFormed.of_sameTables
  setImp m imp hw := hw.setImp m imp
  grow _ _ hw _ := hw
  push hw _ _ := hw.pushed ..
  install hw _ hlive hτ := ((hw.pushed ..).of_sameTables hτ).installAll (by rwa [hτ.dtable]) ..
  reload hw _ hlive := (hw.pushed ..).installAll hlive ..
  move hw hm := hw.move hm

/-- **Hierarchies stay well formed.** -/
theorem WellFormed.next {σ : Runtime} (hw : WellFormed σ) {op : Op}
    (hok : OpOk T Messageable (fun _ _ => True) (fun _ _ _ => True) (fun _ _ _ => True) Movable σ op) :
    WellFormed (σ.next T op) := wellFormed_rules.next hw hok

end Runtime

end Libobjc2.Dispatch
