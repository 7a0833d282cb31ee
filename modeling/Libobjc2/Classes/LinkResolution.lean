import Libobjc2.Classes.LoadLinks
import Mathlib.Data.Finset.Range

/-!
# The resolution of the class links is complete (`src/runtime/class_table.c`, lines 302–465)

Results:
* `Ready.of_initial`: the structures in the images are ready to be loaded.
* `resolveClassLinks_complete`: `objc_resolve_class_links` ends, and then every class whose superclasses
  are loaded is resolved, and every other one still waits.
* `waiting_super_found`: a class that waits may have got its superclass.
-/

namespace Libobjc2.Classes

open Libobjc2.Common

namespace LoadLinks

/-- The classes with complete chains are resolved and have their links; the others wait and are as before. -/
structure LinksComplete (σ σ' : ClassLinks) : Prop where
  resolved : ∀ c ∈ σ'.table, Complete σ' c → σ'.resolved c = true ∧ MetaLinked σ' c
  waiting : ∀ c ∈ σ'.table, ¬ Complete σ' c → Waits σ' c ∧ Untouched σ σ' c

section

variable {steps : Class → List LoadStep} {S : Finset Class} {rank : Class → ℕ} {σ σ' : ClassLinks}

theorem Ready.of_initial (h : ClassLinks.Initial σ)
    (super_class : ∀ c s, IsClass σ c → σ.superClass c = some s → σ.isMeta s = false ∧ rank s < rank c)
    (rank_named : ∀ c s, IsClass σ c → IsClass σ s → σ.legacySuper c = some (σ.name s) → rank s < rank c)
    (own_meta : ∀ c d, IsClass σ c → IsClass σ d → σ.isa c = σ.isa d → c = d) : Ready rank σ where
  toLinked := h.linked
  super_class c s hp hm hs := (super_class c s ⟨hp, hm⟩ hs).1
  rank_super c s hp hm hs := (super_class c s ⟨hp, hm⟩ hs).2
  rank_named c s name hp hm hname hps hms hn := rank_named c s ⟨hp, hm⟩ ⟨hps, hms⟩ (hn ▸ hname)
  own_meta c d hpc hpd hmc hmd _ := own_meta c d ⟨hpc, hmc⟩ ⟨hpd, hmd⟩
  meta_unresolved c _ _ _ := h.resolved _
  super_loaded c s _ _ _ hr := by cases (h.resolved s).symm.trans hr
  root_unnamed c _ hr := by cases (h.resolved c).symm.trans hr
  meta_linked c _ hr := by cases (h.resolved c).symm.trans hr

theorem Ready.waits (h : Ready rank σ) {c : Class} (hc : c ∈ σ.table) (hr : σ.resolved c = false) :
    Waits σ c := by
  obtain ⟨l, hd, hmem⟩ := h.unresolved
  exact ⟨l, hd.chain, (hmem c).mpr ⟨hc, hr⟩⟩

/-- A class that is not resolved is untouched. -/
theorem Grows.untouched (hg : Grows σ σ') {c : Class} (hm : σ.isMeta c = false) (hr : σ'.resolved c = false) :
    Untouched σ σ' c where
  present := by rw [hg.present]
  name := by rw [hg.name]
  isMeta := by rw [hg.isMeta]
  duplicate := by rw [hg.duplicate]
  legacySuper := by rw [hg.legacySuper]
  resolved := hr
  superClass := (hg.superClass c hm).imp_right fun ⟨hnone, name, s, hname, hnamed, hs⟩ =>
    ⟨hnone, name, hname, hs.trans hnamed.symm⟩
  isa := hg.isa c hm
  metaclass hc := hg.metaclass c hc hm hr

/-- **The resolution of the class links ends and is complete**, whatever the `+load` methods load, unless
`objc_resolve_class` gets to a class that is not on the list: to one that is not loaded, or, where a superclass
has a `+load` method that loads something, to one that has been resolved in the meantime. -/
theorem resolveClassLinks_complete (h : Running steps S rank σ) :
    (∃ e, Slip steps σ e ∧ ∃ N, ∀ fuel, N ≤ fuel →
      resolveClassLinks (sendLoadMessage steps fuel) fuel σ = .error e) ∨
    ∃ σ', (∃ N, ∀ fuel, N ≤ fuel → resolveClassLinks (sendLoadMessage steps fuel) fuel σ = .ok σ') ∧
      Running steps S rank σ' ∧ LinksComplete σ σ' := by
  rcases resolveLinks_settles h with ⟨e, hslip, N, hN⟩ | ⟨σ', ⟨N, hN⟩, hready, hgrows, hnone⟩
  · exact .inl ⟨e, hslip, N, fun fuel hf => hN fuel fuel hf hf⟩
  refine .inr ⟨σ', ⟨N, fun fuel hf => hN fuel fuel hf hf⟩, h.grows hready hgrows, fun c hc hcomplete => ?_,
    fun c hc hnot => ?_⟩
  · have hr : σ'.resolved c = true := by
      cases hr : σ'.resolved c with
      | true => rfl
      | false => exact absurd hcomplete (hnone c hc hr)
    exact ⟨hr, hready.meta_linked c hc hr⟩
  · have hr : σ'.resolved c = false := by
      cases hr : σ'.resolved c with
      | false => rfl
      | true => exact absurd (hready.complete hc hr) hnot
    have hm := hready.table_class c hc
    rw [hgrows.isMeta] at hm
    exact ⟨hready.waits hc hr, hgrows.untouched hm hr⟩

end

/-! ## Images -/

/-- Three classes with their metaclasses: a root class; a class of the old ABI, below the third; and the third,
    whose superclass has the name `super` if there is one. -/
def threeImages (super : Option String) : ClassLinks where
  present c := c < 6
  name c := if c < 2 then "Root" else if c < 4 then "Waiting" else "Late"
  isMeta c := c % 2 = 1
  duplicate _ := false
  resolved _ := false
  superClass _ := none
  legacySuper c := if c = 2 then some "Late" else if c = 4 then super else none
  isa c := if c % 2 = 0 then c + 1 else c
  subclassList _ := none
  siblingClass _ := none
  unresolvedClassList := none
  table := []

theorem threeImages_initial (super : Option String) : ClassLinks.Initial (threeImages super) := by
  have hisa : ∀ c < 6, (threeImages none).present ((threeImages none).isa c) = true ∧
      (threeImages none).isMeta ((threeImages none).isa c) = true := by decide
  exact ⟨rfl, rfl, fun _ => rfl, fun _ => rfl, fun _ => rfl, (fun _ _ _ h => nomatch h),
    fun c h => (hisa c (of_decide_eq_true h)).1, fun c h => (hisa c (of_decide_eq_true h)).2⟩

/-- Only the class that waits is below another one. -/
def threeRank (c : Class) : ℕ := if c = 2 then 1 else 0

theorem threeImages_isClass {super : Option String} {c : Class} (h : IsClass (threeImages super) c) :
    c = 0 ∨ c = 2 ∨ c = 4 := by
  have hcases : ∀ c < 6, (threeImages none).isMeta c = false → c = 0 ∨ c = 2 ∨ c = 4 := by decide
  exact hcases c (of_decide_eq_true h.1) h.2

theorem threeImages_ready {super : Option String} (hsuper : super = none ∨ super = some "Missing") :
    Ready threeRank (threeImages super) := by
  refine .of_initial (threeImages_initial super) (fun _ _ _ h => nomatch h) (fun c s hc hs hname => ?_)
    fun c d hc hd hisa => ?_
  · rcases threeImages_isClass hc with rfl | rfl | rfl <;>
        rcases threeImages_isClass hs with rfl | rfl | rfl <;>
      rcases hsuper with rfl | rfl <;> first | decide | exact absurd hname (by decide)
  · have hinj : ∀ c < 6, ∀ d < 6, (threeImages none).isMeta c = false → (threeImages none).isMeta d = false →
        (threeImages none).isa c = (threeImages none).isa d → c = d := by decide
    exact hinj c (of_decide_eq_true hc.1) d (of_decide_eq_true hd.1) hc.2 hd.2 hisa

theorem threeImages_loadable {super : Option String} {cls : Class} (hc : cls = 0 ∨ cls = 2 ∨ cls = 4) :
    Loadable (threeImages super) cls := by
  rcases hc with rfl | rfl | rfl <;> exact ⟨⟨rfl, rfl⟩, .inr rfl⟩

/-- Two of the images have been loaded. -/
theorem running_two {steps : Class → List LoadStep} {super : Option String}
    (hsuper : super = none ∨ super = some "Missing")
    (hsteps : ∀ c cls, .loadClass cls ∈ steps c → cls = 0 ∨ cls = 2 ∨ cls = 4) {c d : Class}
    (hc : c = 0 ∨ c = 2 ∨ c = 4) (hd : d = 0 ∨ d = 2 ∨ d = 4) :
    Running steps (Finset.range 6) threeRank (((threeImages super).loadClass c).loadClass d) := by
  have hrun : Running steps (Finset.range 6) threeRank (threeImages super) :=
    ⟨threeImages_ready hsuper, fun c cls h => threeImages_loadable (hsteps c cls h), fun c h =>
      Finset.mem_range.mpr (of_decide_eq_true h)⟩
  obtain ⟨hready, hgrows, -⟩ := hrun.toReady.loadClass (threeImages_loadable hc)
  obtain ⟨hready', hgrows', -⟩ := hready.loadClass ((threeImages_loadable hd).grows hgrows)
  exact hrun.grows hready' (hgrows.trans hgrows')

/-- The `+load` method of the root class loads the third image. -/
def lateLoad (c : Class) : List LoadStep := if c = 0 then [.loadClass 4, .resolveClassLinks] else []

/-- The class that waits is resolved by the `+load` method that brings its superclass. -/
theorem resolveClassLinks_complete_late :
    ∃ σ', (∃ N, ∀ fuel, N ≤ fuel → resolveClassLinks (sendLoadMessage lateLoad fuel) fuel
        (((threeImages none).loadClass 0).loadClass 2) = .ok σ') ∧ σ'.resolved 2 = true ∧
      LinksComplete (((threeImages none).loadClass 0).loadClass 2) σ' := by
  have hsteps : ∀ c cls, .loadClass cls ∈ lateLoad c → cls = 0 ∨ cls = 2 ∨ cls = 4 := by
    intro c cls h
    unfold lateLoad at h
    split at h
    · simp at h
      exact .inr (.inr h)
    · simp at h
  have hrun : ∀ k, ∃ σ', resolveClassLinks (sendLoadMessage lateLoad (k + 12)) (k + 12)
      (((threeImages none).loadClass 0).loadClass 2) = .ok σ' ∧ σ'.resolved 2 = true := fun k => ⟨_, rfl, rfl⟩
  rcases resolveClassLinks_complete (running_two (.inl rfl) hsteps (.inl rfl) (.inr (.inl rfl))) with
    ⟨e, -, N, hN⟩ | ⟨σ', ⟨N, hN⟩, -, hcomplete⟩
  · obtain ⟨σ', hσ', -⟩ := hrun N
    rw [hN _ (by omega)] at hσ'
    cases hσ'
  · obtain ⟨σ'', hσ'', hres⟩ := hrun N
    rw [hN _ (by omega)] at hσ''
    obtain rfl := Except.ok.inj hσ''
    exact ⟨σ', ⟨N, hN⟩, hres, hcomplete⟩

/-- A `+load` method that loads something while a subclass waits for its class: the subclass is resolved twice. -/
example : resolveClassLinks
    (sendLoadMessage (fun c => if c = 4 then [.loadClass 0, .resolveClassLinks] else []) 12) 12
    (((threeImages none).loadClass 4).loadClass 2) = .error .resolvedAgain := rfl

/-- The superclass of the class that waits is loaded, and itself waits for a class that is not. -/
theorem waiting_super_found :
    ¬ ∀ (steps : Class → List LoadStep) (S : Finset Class) (rank : Class → ℕ) (σ σ' : ClassLinks) (fuel : ℕ),
      Running steps S rank σ → resolveClassLinks (sendLoadMessage steps fuel) fuel σ = .ok σ' →
      ∀ c ∈ σ.table, ¬ Complete σ' c → σ'.superClass c = σ.superClass c := by
  intro h
  obtain ⟨σ', hσ', hsuper, hlegacy, hnone⟩ : ∃ σ', resolveClassLinks (sendLoadMessage (fun _ => []) 12) 12
      (((threeImages (some "Missing")).loadClass 4).loadClass 2) = .ok σ' ∧ σ'.superClass 2 = some 4 ∧
      σ'.legacySuper 4 = some "Missing" ∧ superOf σ' 4 = none := ⟨_, rfl, rfl, rfl, rfl⟩
  have hincomplete : ¬ Complete σ' 4 := fun hc => by
    cases hc with
    | root _ _ hl => cases hlegacy.symm.trans hl
    | sub _ hs => cases hnone.symm.trans hs
  have hkept := h (fun _ => []) (Finset.range 6) threeRank _ σ' 12
    (running_two (.inr rfl) (fun _ _ hstep => by cases hstep) (.inr (.inr rfl)) (.inr (.inl rfl)))
    hσ' 2 (by decide)
    (not_complete (by rw [superOf, hsuper]; rfl) hincomplete)
  rw [hsuper] at hkept
  exact absurd hkept (by decide)

end LoadLinks

end Libobjc2.Classes
