import Libobjc2.Common.Inheritance
import Libobjc2.Dispatch.Mutation

/-!
# What the updates of dispatch tables do

Every function of dtable.c is described once, by what it does to the tables of all classes;
later proofs use these descriptions only.

Results:
* `installOne_cases`: installing a method in a class leaves everything as it is, or stores the
  method in the table of the class and of the subclasses that have the entry it replaces.
* `createDtableForClass_eq`: a new table is a copy of the superclass's, filled with the methods
  of the class.
* `rebase_spec`: a rebased table takes all entries from the superclass but those of own methods.
-/

namespace Libobjc2.Dispatch

open Libobjc2.Common

/-- The two stores of `installMethodInDtable` (dtable.c, lines 415–421). -/
def Dtable.put (T : SelectorTable) (method : Method) (m : MethodId) (t : Dtable) : Dtable :=
  (t.insert (T.typed method) (some m)).insert (T.untyped method.name) (some m)

namespace Dtable

variable (T : SelectorTable)

theorem put_typed (method : Method) (m : MethodId) (t : Dtable) (x : Method) :
    t.put T method m (T.typed x) = if T.typed x = T.typed method then some m else t (T.typed x) := by
  unfold put insert
  rw [Function.update_of_ne (T.typed_ne_untyped x method.name)]
  exact Function.update_apply ..

theorem put_untyped (method : Method) (m : MethodId) (t : Dtable) (name : String) :
    t.put T method m (T.untyped name) = if name = method.name then some m else t (T.untyped name) := by
  unfold put insert
  by_cases h : name = method.name
  · rw [h, if_pos rfl, Function.update_self]
  · rw [if_neg h, Function.update_of_ne (mt T.untyped_inj.mp h),
      Function.update_of_ne (T.typed_ne_untyped method name).symm]

end Dtable

namespace Runtime

variable {T : SelectorTable}

/-! ## What table updates leave alone -/

/-- The two states have the same classes with the same methods. -/
structure SameClasses (σ σ' : Runtime) : Prop where
  classCount : σ'.classCount = σ.classCount
  superClass : σ'.superClass = σ.superClass
  isa : σ'.isa = σ.isa
  isMeta : σ'.isMeta = σ.isMeta
  subclassList : σ'.subclassList = σ.subclassList
  methodLists : σ'.methodLists = σ.methodLists
  method : σ'.method = σ.method
  nextMethod : σ'.nextMethod = σ.nextMethod

theorem SameClasses.refl (σ : Runtime) : SameClasses σ σ := ⟨rfl, rfl, rfl, rfl, rfl, rfl, rfl, rfl⟩

theorem SameClasses.trans {σ τ υ : Runtime} (h : SameClasses σ τ) (h' : SameClasses τ υ) :
    SameClasses σ υ where
  classCount := h'.classCount.trans h.classCount
  superClass := h'.superClass.trans h.superClass
  isa := h'.isa.trans h.isa
  isMeta := h'.isMeta.trans h.isMeta
  subclassList := h'.subclassList.trans h.subclassList
  methodLists := h'.methodLists.trans h.methodLists
  method := h'.method.trans h.method
  nextMethod := h'.nextMethod.trans h.nextMethod

theorem SameClasses.methodsOf {σ σ' : Runtime} (h : SameClasses σ σ') : σ'.methodsOf = σ.methodsOf := by
  funext cls
  rw [Runtime.methodsOf, h.methodLists, Runtime.methodsOf]

theorem sameClasses_setDtable (σ : Runtime) (cls : Class) (t : Dtable) : SameClasses σ (σ.setDtable cls t) :=
  ⟨rfl, rfl, rfl, rfl, rfl, rfl, rfl, rfl⟩

theorem sameClasses_bump (σ : Runtime) : SameClasses σ σ.bumpCacheVersion :=
  ⟨rfl, rfl, rfl, rfl, rfl, rfl, rfl, rfl⟩

/-- Changes that neither method lookup nor the tables see. -/
structure SameTables (σ σ' : Runtime) : Prop extends SameClasses σ σ' where
  dtable : σ'.dtable = σ.dtable
  cacheVersion : σ'.cacheVersion = σ.cacheVersion

theorem SameTables.refl (σ : Runtime) : SameTables σ σ := ⟨SameClasses.refl σ, rfl, rfl⟩

theorem SameTables.trans {σ τ υ : Runtime} (h : SameTables σ τ) (h' : SameTables τ υ) : SameTables σ υ :=
  ⟨h.toSameClasses.trans h'.toSameClasses, h'.dtable.trans h.dtable, h'.cacheVersion.trans h.cacheVersion⟩

theorem sameTables_updateCxxMethodCache (σ : Runtime) (cls : Class) (name : String) (imp : Imp) :
    SameTables σ (σ.updateCxxMethodCache cls name imp) := by
  unfold updateCxxMethodCache
  split
  · exact ⟨⟨rfl, rfl, rfl, rfl, rfl, rfl, rfl, rfl⟩, rfl, rfl⟩
  · split
    · exact ⟨⟨rfl, rfl, rfl, rfl, rfl, rfl, rfl, rfl⟩, rfl, rfl⟩
    · exact SameTables.refl σ

theorem sameTables_refreshCxxMethodCaches (σ : Runtime) (m : MethodId) :
    SameTables σ (σ.refreshCxxMethodCaches m) := by
  unfold refreshCxxMethodCaches
  dsimp only
  split
  · exact ⟨⟨rfl, rfl, rfl, rfl, rfl, rfl, rfl, rfl⟩, rfl, rfl⟩
  · split
    · exact ⟨⟨rfl, rfl, rfl, rfl, rfl, rfl, rfl, rfl⟩, rfl, rfl⟩
    · exact SameTables.refl σ

theorem sameTables_refreshReloadCxxCache (σ : Runtime) (cls : Class) :
    SameTables σ (σ.refreshReloadCxxCache cls) :=
  ⟨⟨rfl, rfl, rfl, rfl, rfl, rfl, rfl, rfl⟩, rfl, rfl⟩

theorem sameTables_checkARCAccessors (σ : Runtime) (cls : Class) :
    SameTables σ (σ.checkARCAccessors T cls) := by
  obtain ⟨arc, fast, h⟩ := checkARCAccessors_eq T σ cls
  rw [h]
  exact ⟨⟨rfl, rfl, rfl, rfl, rfl, rfl, rfl, rfl⟩, rfl, rfl⟩

/-- The same classes have tables. -/
def SameLive (σ σ' : Runtime) : Prop := ∀ n, σ'.dtable n = none ↔ σ.dtable n = none

/-! ## The links of a hierarchy -/

/-- The superclass links are a forest of the loaded classes, and the subclass lists are their
    inverse. -/
structure Forest (σ : Runtime) : Prop where
  acyclic : Acyclic σ.superClass
  bounded : ∀ n p, σ.superClass n = some p → n ∈ Finset.range σ.classCount ∧ p ∈ Finset.range σ.classCount
  nodup : ∀ c, (σ.subclassList c).Nodup
  mem_subclassList : ∀ c e, e ∈ σ.subclassList c ↔ σ.superClass e = some c

theorem Forest.of_same {σ σ' : Runtime} (hf : Forest σ) (h : SameClasses σ σ') : Forest σ' := by
  constructor
  · rw [h.superClass]; exact hf.acyclic
  · rw [h.superClass, h.classCount]; exact hf.bounded
  · rw [h.subclassList]; exact hf.nodup
  · rw [h.superClass, h.subclassList]; exact hf.mem_subclassList

theorem Forest.depth_lt_fuel {σ : Runtime} (cls : Class) :
    depth σ.superClass (Finset.range σ.classCount) cls < σ.classCount + 1 := by
  have := depth_le σ.superClass (Finset.range σ.classCount) cls
  rw [Finset.card_range] at this
  omega

theorem Forest.height_lt_fuel {σ : Runtime} (cls : Class) :
    height σ.superClass (Finset.range σ.classCount) cls < σ.classCount + 1 := by
  have := height_le σ.superClass (Finset.range σ.classCount) cls
  rw [Finset.card_range] at this
  omega

/-! ## Installing one method -/

/-- A class with a table whose entry at `key` is `old`. -/
def HasEntry (d : Class → Option Dtable) (key : ℕ) (old : Option MethodId) (cls : Class) : Prop :=
  ∃ t, d cls = some t ∧ t key = old

/-- The method `m` has gone into the tables of the classes in `X`. -/
def Stored (T : SelectorTable) (method : Method) (m : MethodId) (X : Class → Prop)
    (d d' : Class → Option Dtable) (n : Class) : Prop :=
  (X n → d' n = (d n).map (Dtable.put T method m)) ∧ (¬ X n → d' n = d n)

theorem Stored.none_iff {method : Method} {m : MethodId} {X : Class → Prop} {d d' : Class → Option Dtable}
    {n : Class} (h : Stored T method m X d d' n) : d' n = none ↔ d n = none := by
  by_cases hx : X n
  · rw [h.1 hx, Option.map_eq_none_iff]
  · rw [h.2 hx]

/-- The version of `cacheVersion` has moved on, unless no method was replaced. -/
def Versioned (σ σ' : Runtime) (old : Option MethodId) : Prop :=
  σ.cacheVersion ≤ σ'.cacheVersion ∧ (old = none → σ'.cacheVersion = σ.cacheVersion)

/-- One round of the loop over the subclasses in `installMethodInDtable` (dtable.c, lines 437–451). -/
def installStep (T : SelectorTable) (fuel : ℕ) (m : MethodId) (old : Option MethodId) (σ : Runtime)
    (subclass : Class) : Runtime :=
  if σ.classHasDtable subclass then
    let (σ, subDtable, _) := σ.installMethodInDtable T fuel subclass (σ.dtableForClass subclass) m
        old true false
    σ.setDtable subclass subDtable
  else σ

def installInSubclasses (T : SelectorTable) (σ : Runtime) (fuel : ℕ) (cls : Class) (m : MethodId)
    (old : Option MethodId) : Runtime :=
  (σ.subclassList cls).foldl (installStep T fuel m old) σ

/-- `installMethodInDtable` when it replaces the entry that it is told to replace. -/
theorem installMethodInDtable_install {σ : Runtime} (fuel : ℕ) (cls : Class) (updateCxxCache : Bool)
    {t : Dtable}
    {m : MethodId}
    (himp : (t (T.typed (σ.method m))).map (fun old => (σ.method old).imp) ≠ some (σ.method m).imp) :
    ∃ σ₁, SameTables σ σ₁ ∧
      σ.installMethodInDtable T (fuel + 1) cls t m (t (T.typed (σ.method m))) true updateCxxCache =
        (let τ := σ₁.installInSubclasses T fuel cls m (t (T.typed (σ.method m)))
         (if t (T.typed (σ.method m)) = none then τ else τ.bumpCacheVersion,
          t.put T (σ.method m) m, true)) := by
  refine ⟨if updateCxxCache then σ.updateCxxMethodCache cls (σ.method m).name (σ.method m).imp else σ, ?_, ?_⟩
  · split
    · exact sameTables_updateCxxMethodCache ..
    · exact SameTables.refl σ
  · rw [installMethodInDtable]
    simp only [ne_eq, not_true_eq_false, decide_false, Bool.and_false, Bool.false_eq_true, if_false,
      Bool.not_true, Bool.false_and, himp]
    rfl

/-- The cases in which nothing happens. -/
theorem installMethodInDtable_skip {σ : Runtime} {fuel : ℕ} {cls : Class} {t : Dtable} {m : MethodId}
    {repl : Option MethodId} {updateCxxCache : Bool}
    (h : repl ≠ t (T.typed (σ.method m)) ∨
      (t (T.typed (σ.method m))).map (fun old => (σ.method old).imp) = some (σ.method m).imp) :
    σ.installMethodInDtable T fuel cls t m repl true updateCxxCache = (σ, t, false) := by
  cases fuel with
  | zero => rfl
  | succ fuel =>
    rw [installMethodInDtable]
    by_cases hrepl : repl = t (T.typed (σ.method m))
    · have himp := h.resolve_left (fun hne => hne hrepl)
      simp [hrepl, himp]
    · simp [hrepl]

theorem setDtable_self {σ : Runtime} {cls : Class} {t : Dtable} (h : σ.dtable cls = some t) :
    σ.setDtable cls t = σ := by
  unfold setDtable
  rw [← h, Function.update_eq_self]

theorem dtableForClass_eq {σ : Runtime} {cls : Class} {t : Dtable} (h : σ.dtable cls = some t) :
    σ.dtableForClass cls = t := by
  rw [dtableForClass, h, Option.getD_some]

theorem Versioned.trans {σ τ υ : Runtime} {old : Option MethodId} (h : Versioned σ τ old)
    (h' : Versioned τ υ old) : Versioned σ υ old :=
  ⟨h.1.trans h'.1, fun ho => (h'.2 ho).trans (h.2 ho)⟩

theorem installStep_none {σ : Runtime} {fuel : ℕ} {m : MethodId} {old : Option MethodId} {cls : Class}
    (h : σ.dtable cls = none) : installStep T fuel m old σ cls = σ := by
  simp [installStep, classHasDtable, h]

theorem installStep_some {σ : Runtime} {fuel : ℕ} {m : MethodId} {old : Option MethodId} {cls : Class}
    {t : Dtable} (h : σ.dtable cls = some t) :
    installStep T fuel m old σ cls =
      (σ.installMethodInDtable T fuel cls t m old true false).1.setDtable cls
        (σ.installMethodInDtable T fuel cls t m old true false).2.1 := by
  simp [installStep, classHasDtable, dtableForClass, h]

/-- Storing in the classes below the children of `cls`, and then in `cls`, is storing below `cls`. -/
theorem stored_of_children {parent : Class → Option Class} (hac : Acyclic parent) {method : Method}
    {m : MethodId} {d d₁ : Class → Option Dtable} {key : ℕ} {old : Option MethodId} {cls : Class} {t : Dtable}
    (ht : d cls = some t) (hold : t key = old)
    (h : ∀ n, Stored T method m
      (fun n => ∃ e, parent e = some cls ∧ Within parent (HasEntry d key old) e n) d d₁ n) (n : Class) :
    Stored T method m (Within parent (HasEntry d key old) cls) d
      (Function.update d₁ cls (some (t.put T method m))) n := by
  have hcls : HasEntry d key old cls := ⟨t, ht, hold⟩
  by_cases hn : n = cls
  · subst hn
    refine ⟨fun _ => ?_, fun hw => absurd ((Within.self_iff hac).mpr hcls) hw⟩
    rw [Function.update_self, ht, Option.map_some]
  · rw [Stored, Function.update_of_ne hn]
    refine ⟨fun hw => (h n).1 (hw.cases_child.resolve_left hn), fun hw => (h n).2 ?_⟩
    rintro ⟨e, he, hwe⟩
    exact hw (Within.of_child hac he hcls hwe)

/-- A class whose entry is another one is not reached. -/
theorem not_within_of_entry {parent : Class → Option Class} {d : Class → Option Dtable} {key : ℕ}
    {old : Option MethodId} {cls n : Class} (h : ¬ HasEntry d key old cls) :
    ¬ Within parent (HasEntry d key old) cls n := fun hw => h hw.first

/-- **The recursion over subclasses** stores the method in the tables below `cls` that are reached
    through tables with the entry `old`. -/
theorem installInSubclasses_spec (m : MethodId) (old : Option MethodId) :
    ∀ (fuel : ℕ) (σ : Runtime) (cls : Class), Forest σ →
      old.map (fun o => (σ.method o).imp) ≠ some (σ.method m).imp →
      height σ.superClass (Finset.range σ.classCount) cls < fuel + 1 →
      SameClasses σ (σ.installInSubclasses T fuel cls m old) ∧
      Versioned σ (σ.installInSubclasses T fuel cls m old) old ∧
      ∀ n, Stored T (σ.method m) m
        (fun n => ∃ e, σ.superClass e = some cls ∧
          Within σ.superClass (HasEntry σ.dtable (T.typed (σ.method m)) old) e n)
        σ.dtable (σ.installInSubclasses T fuel cls m old).dtable n := by
  intro fuel
  induction fuel with
  | zero =>
    intro σ cls hf _ hh
    have hnone : ∀ e, σ.superClass e ≠ some cls := fun e he => by
      have := height_lt hf.acyclic (hf.bounded e cls he).2 he
      omega
    have hnil : σ.subclassList cls = [] :=
      List.eq_nil_iff_forall_not_mem.mpr fun e he => hnone e ((hf.mem_subclassList cls e).mp he)
    rw [installInSubclasses, hnil, List.foldl_nil]
    exact ⟨SameClasses.refl σ, ⟨le_rfl, fun _ => rfl⟩, fun n =>
      ⟨fun ⟨e, he, _⟩ => absurd he (hnone e), fun _ => rfl⟩⟩
  | succ fuel ih =>
    intro σ cls hf himp hh
    let P (e : Class) (d d' : Class → Option Dtable) (n : Class) : Prop := Stored T (σ.method m) m
      (Within σ.superClass (HasEntry d (T.typed (σ.method m)) old) e) d d' n
    have hcongr : ∀ e d₁ d₂ d₁' d₂' n, σ.superClass e = some cls → Below σ.superClass n e →
        (∀ x, Below σ.superClass x e ∨ x = cls → d₁ x = d₁' x ∧ d₂ x = d₂' x) →
        P e d₁ d₂ n → P e d₁' d₂' n := by
      intro e d₁ d₂ d₁' d₂' n _ hn hd
      have hw : Within σ.superClass (HasEntry d₁ (T.typed (σ.method m)) old) e n ↔
          Within σ.superClass (HasEntry d₁' (T.typed (σ.method m)) old) e n :=
        Within.congr fun x hx => by rw [HasEntry, HasEntry, (hd x (.inl hx)).1]
      intro h
      refine ⟨fun hwn => ?_, fun hwn => ?_⟩
      · rw [← (hd n (.inl hn)).1, ← (hd n (.inl hn)).2]
        exact h.1 (hw.mpr hwn)
      · rw [← (hd n (.inl hn)).1, ← (hd n (.inl hn)).2]
        exact h.2 (mt hw.mp hwn)
    have hstep : ∀ τ, ∀ e ∈ σ.subclassList cls, SameClasses σ τ ∧ Versioned σ τ old →
        (SameClasses σ (installStep T (fuel + 1) m old τ e) ∧
          Versioned σ (installStep T (fuel + 1) m old τ e) old) ∧
        (∀ n, ¬ Below σ.superClass n e → (installStep T (fuel + 1) m old τ e).dtable n = τ.dtable n) ∧
        ∀ n, Below σ.superClass n e → P e τ.dtable (installStep T (fuel + 1) m old τ e).dtable n := by
      rintro τ e he ⟨hτ, hvτ⟩
      have hsup := (hf.mem_subclassList cls e).mp he
      cases ht : τ.dtable e with
      | none =>
        rw [installStep_none ht]
        exact ⟨⟨hτ, hvτ⟩, fun _ _ => rfl, fun n _ => ⟨fun hw => absurd hw
          (not_within_of_entry fun ⟨t, htt, _⟩ => by rw [ht] at htt; cases htt), fun _ => rfl⟩⟩
      | some t =>
        rw [installStep_some ht]
        by_cases hold : old = t (T.typed (σ.method m))
        · -- the entry is the one to replace: the method goes in, and on to the subclasses
          have himp' : (t (T.typed (τ.method m))).map (fun o => (τ.method o).imp) ≠
              some (τ.method m).imp := by
            rw [hτ.method, ← hold]
            exact himp
          obtain ⟨τ₁, hτ₁, heq⟩ := installMethodInDtable_install (T := T) fuel e false himp'
          rw [hτ.method, ← hold] at heq
          have hσ₁ : SameClasses σ τ₁ := hτ.trans hτ₁.toSameClasses
          obtain ⟨hs, hv, hst⟩ := ih τ₁ e (hf.of_same hσ₁) (by rw [hσ₁.method]; exact himp) (by
            rw [hσ₁.superClass, hσ₁.classCount]
            have := height_lt hf.acyclic (hf.bounded e cls hsup).2 hsup
            omega)
          rw [hσ₁.superClass, hσ₁.method, hτ₁.dtable] at hst
          have hst' := stored_of_children hf.acyclic ht hold.symm hst
          rw [heq]
          dsimp only
          refine ⟨⟨?_, ?_⟩, fun n hn => ?_, fun n _ => ?_⟩
          · refine SameClasses.trans ?_ (sameClasses_setDtable ..)
            split
            · exact hσ₁.trans hs
            · exact (hσ₁.trans hs).trans (sameClasses_bump _)
          · have hv' : Versioned σ (τ₁.installInSubclasses T fuel e m old) old :=
              (hvτ.trans ⟨hτ₁.cacheVersion.ge, fun _ => hτ₁.cacheVersion⟩).trans hv
            split
            · exact hv'
            · next ho => exact ⟨hv'.1.trans (Nat.le_succ _), fun ho' => absurd ho' ho⟩
          all_goals
            have hd : ((if old = none then τ₁.installInSubclasses T fuel e m old
                else (τ₁.installInSubclasses T fuel e m old).bumpCacheVersion).setDtable e
                  (t.put T (σ.method m) m)).dtable =
                Function.update (τ₁.installInSubclasses T fuel e m old).dtable e
                  (some (t.put T (σ.method m) m)) := by
              split <;> rfl
          · rw [hd]
            exact (hst' n).2 fun hw => hn hw.1
          · rw [hd]
            exact hst' n
        · rw [installMethodInDtable_skip (.inl (by rwa [hτ.method])), setDtable_self ht]
          exact ⟨⟨hτ, hvτ⟩, fun _ _ => rfl, fun n _ => ⟨fun hw => absurd hw
            (not_within_of_entry fun ⟨t', htt, hk⟩ => by
              rw [ht] at htt
              cases htt
              exact hold hk.symm), fun _ => rfl⟩⟩
    obtain ⟨⟨hsame, hver⟩, hout, hin⟩ := foldl_regions hf.acyclic (·.dtable)
      (fun τ => SameClasses σ τ ∧ Versioned σ τ old) (installStep T (fuel + 1) m old) P hcongr
      (σ.subclassList cls) σ (hf.nodup cls) (fun e he => (hf.mem_subclassList cls e).mp he)
      ⟨SameClasses.refl σ, ⟨le_rfl, fun _ => rfl⟩⟩ hstep
    refine ⟨hsame, hver, fun n => ⟨?_, fun hn => ?_⟩⟩
    · rintro ⟨e, he, hw⟩
      exact (hin e ((hf.mem_subclassList cls e).mpr he) n hw.1).1 hw
    · by_cases hreg : ∃ e ∈ σ.subclassList cls, Below σ.superClass n e
      · obtain ⟨e, he, hne⟩ := hreg
        exact (hin e he n hne).2 fun hw => hn ⟨e, (hf.mem_subclassList cls e).mp he, hw⟩
      · exact hout n fun e he hne => hreg ⟨e, he, hne⟩

/-- Whether `installMethodInDtable` changes the table `t` of a class whose superclass has the table
    `sup`: the method is not yet overridden there, and has an implementation of its own. -/
def Installs (T : SelectorTable) (method : MethodId → Method) (sup : Option Dtable) (t : Dtable)
    (m : MethodId) : Prop :=
  (sup.bind fun s => s (T.typed (method m))) = t (T.typed (method m)) ∧
    (t (T.typed (method m))).map (fun old => (method old).imp) ≠ some (method m).imp

instance (T : SelectorTable) (method : MethodId → Method) (sup : Option Dtable) (t : Dtable) (m : MethodId) :
    Decidable (Installs T method sup t m) :=
  inferInstanceAs (Decidable (_ ∧ _))

theorem installMethodInDtable_not {σ : Runtime} {fuel : ℕ} {cls : Class} {sup : Option Dtable} {t : Dtable}
    {m : MethodId} {updateCxxCache : Bool} (h : ¬ Installs T σ.method sup t m) :
    σ.installMethodInDtable T fuel cls t m (sup.bind fun s => s (T.typed (σ.method m))) true
      updateCxxCache = (σ, t, false) := by
  refine installMethodInDtable_skip ?_
  rw [Installs, not_and_or, not_not] at h
  exact h

/-- One round of the loop of `installMethodsInClass`. -/
def installOne (T : SelectorTable) (cls : Class) (sup : Option Dtable) (σ : Runtime) (m : MethodId) :
    Runtime :=
  let r := σ.installMethodInDtable T (σ.classCount + 1) cls (σ.dtableForClass cls) m
    (sup.bind fun s => s (T.typed (σ.method m))) true true
  r.1.setDtable cls r.2.1

/-- A loop whose first component does not look at the second. -/
theorem foldl_fst {α β γ δ : Type} (f : α × β → γ → α × β) (g : α → δ → α) (π : γ → δ)
    (h : ∀ p c, (f p c).1 = g p.1 (π c)) (l : List γ) (p : α × β) :
    (l.foldl f p).1 = (l.map π).foldl g p.1 := by
  induction l generalizing p with
  | nil => rfl
  | cons c l ih => rw [List.foldl_cons, List.map_cons, List.foldl_cons, ih, h]

theorem installMethodsInClass_eq (σ : Runtime) (cls : Class) (sup : Option Dtable) (methods : MethodArray) :
    (σ.installMethodsInClass T cls sup methods true).1 =
      (methods.map Prod.snd).foldl (installOne T cls sup) σ := by
  rw [installMethodsInClass]
  exact foldl_fst _ _ Prod.snd (fun _ _ => rfl) methods (σ, [])

/-- **What installing a method in a class does.** -/
theorem installOne_cases {σ : Runtime} (hf : Forest σ) {cls : Class} {t : Dtable} (ht : σ.dtable cls = some t)
    (sup : Option Dtable) (m : MethodId) :
    (¬ Installs T σ.method sup t m ∧ installOne T cls sup σ m = σ) ∨
    (Installs T σ.method sup t m ∧ SameClasses σ (installOne T cls sup σ m) ∧
      (t (T.typed (σ.method m)) = none → (installOne T cls sup σ m).cacheVersion = σ.cacheVersion) ∧
      (t (T.typed (σ.method m)) ≠ none → σ.cacheVersion < (installOne T cls sup σ m).cacheVersion) ∧
      ∀ n, Stored T (σ.method m) m
        (Within σ.superClass (HasEntry σ.dtable (T.typed (σ.method m)) (t (T.typed (σ.method m)))) cls)
        σ.dtable (installOne T cls sup σ m).dtable n) := by
  rw [installOne, dtableForClass_eq ht]
  by_cases hi : Installs T σ.method sup t m
  · right
    obtain ⟨σ₁, hσ₁, heq⟩ := installMethodInDtable_install (T := T) σ.classCount cls true hi.2
    have hfuel := Forest.height_lt_fuel (σ := σ) cls
    obtain ⟨hs, hv, hst⟩ := installInSubclasses_spec (T := T) m (t (T.typed (σ.method m)))
      σ.classCount σ₁ cls (hf.of_same hσ₁.toSameClasses) (by rw [hσ₁.method]; exact hi.2) (by
        rwa [hσ₁.superClass, hσ₁.classCount])
    rw [hσ₁.superClass, hσ₁.method, hσ₁.dtable] at hst
    rw [hi.1, heq]
    dsimp only
    have hsame : SameClasses σ (σ₁.installInSubclasses T σ.classCount cls m (t (T.typed (σ.method m)))) :=
      hσ₁.toSameClasses.trans hs
    refine ⟨hi, ?_, fun ho => ?_, fun ho => ?_, fun n => ?_⟩
    · refine SameClasses.trans ?_ (sameClasses_setDtable ..)
      split
      · exact hsame
      · exact hsame.trans (sameClasses_bump _)
    · rw [if_pos ho]
      exact (hv.2 ho).trans hσ₁.cacheVersion
    · rw [if_neg ho]
      have := hv.1
      rw [hσ₁.cacheVersion] at this
      exact Nat.lt_succ_of_le this
    · have hd : ((if t (T.typed (σ.method m)) = none then
            σ₁.installInSubclasses T σ.classCount cls m (t (T.typed (σ.method m)))
          else (σ₁.installInSubclasses T σ.classCount cls m
              (t (T.typed (σ.method m)))).bumpCacheVersion).setDtable
            cls (t.put T (σ.method m) m)).dtable =
          Function.update (σ₁.installInSubclasses T σ.classCount cls m (t (T.typed (σ.method m)))).dtable cls
            (some (t.put T (σ.method m) m)) := by
        split <;> rfl
      rw [hd]
      exact stored_of_children hf.acyclic ht rfl hst n
  · left
    rw [installMethodInDtable_not hi]
    exact ⟨hi, setDtable_self ht⟩

/-! ## New tables -/

/-- The table of `create_dtable_for_class`: a copy of the superclass's, into which the methods go. -/
def fill (T : SelectorTable) (method : MethodId → Method) (sup : Option Dtable)
    (ms : List MethodId) : Dtable :=
  ms.foldl (fun t m => if Installs T method sup t m then t.put T (method m) m else t) (sup.getD fun _ => none)

theorem fill_concat (method : MethodId → Method) (sup : Option Dtable) (ms : List MethodId) (m : MethodId) :
    fill T method sup (ms ++ [m]) =
      if Installs T method sup (fill T method sup ms) m then (fill T method sup ms).put T (method m) m
      else fill T method sup ms := by
  rw [fill, List.foldl_append, List.foldl_cons, List.foldl_nil]
  rfl

/-- Filling the table of a class changes the tables below its live subclasses only. -/
theorem createLoop_eq (cls : Class) (sup : Option Dtable) (X : Class → Prop) :
    ∀ (ms : List MethodId) (σ : Runtime) (t : Dtable), Forest σ →
      (∀ e n, σ.superClass e = some cls → σ.dtable e ≠ none → Below σ.superClass n e → X n) →
      ∃ σ', ms.foldl (fun (σ, dtable) m =>
          let superMethod := sup.bind fun s => s (T.typed (σ.method m))
          let (σ, dtable, _) := installMethodInDtable T σ (σ.classCount + 1) cls dtable m
              superMethod true true
          (σ, dtable)) (σ, t) =
        (σ', ms.foldl (fun t m => if Installs T σ.method sup t m then t.put T (σ.method m) m else t) t) ∧
        SameClasses σ σ' ∧ SameLive σ σ' ∧ (∀ n, ¬ X n → σ'.dtable n = σ.dtable n) ∧
        σ.cacheVersion ≤ σ'.cacheVersion
  | [], σ, t, _, _ => ⟨σ, rfl, SameClasses.refl σ, fun _ => Iff.rfl, fun _ _ => rfl, le_rfl⟩
  | m :: ms, σ, t, hf, hX => by
    rw [List.foldl_cons, List.foldl_cons]
    dsimp only
    by_cases hi : Installs T σ.method sup t m
    · obtain ⟨σ₁, hσ₁, heq⟩ := installMethodInDtable_install (T := T) σ.classCount cls true hi.2
      have hfuel := Forest.height_lt_fuel (σ := σ) cls
      obtain ⟨hs, hv, hst⟩ := installInSubclasses_spec (T := T) m (t (T.typed (σ.method m)))
        σ.classCount σ₁ cls (hf.of_same hσ₁.toSameClasses) (by rw [hσ₁.method]; exact hi.2) (by
          rwa [hσ₁.superClass, hσ₁.classCount])
      rw [hσ₁.superClass, hσ₁.method, hσ₁.dtable] at hst
      set τ := σ₁.installInSubclasses T σ.classCount cls m (t (T.typed (σ.method m))) with hτ
      set υ := if t (T.typed (σ.method m)) = none then τ else τ.bumpCacheVersion with hυ
      have hυτ : SameClasses τ υ ∧ υ.dtable = τ.dtable ∧ τ.cacheVersion ≤ υ.cacheVersion := by
        rw [hυ]
        split
        · exact ⟨SameClasses.refl τ, rfl, le_rfl⟩
        · exact ⟨sameClasses_bump τ, rfl, Nat.le_succ _⟩
      have hsame : SameClasses σ υ := (hσ₁.toSameClasses.trans hs).trans hυτ.1
      have hlive : SameLive σ υ := fun n => by rw [hυτ.2.1, (hst n).none_iff]
      have hout : ∀ n, ¬ X n → υ.dtable n = σ.dtable n := fun n hn => by
        rw [hυτ.2.1]
        refine (hst n).2 fun ⟨e, he, hw⟩ => hn (hX e n he ?_ hw.1)
        obtain ⟨s, hs, _⟩ := hw.first
        rw [hs]
        exact Option.some_ne_none s
      obtain ⟨σ', h, hs', hl', hd', hv'⟩ := createLoop_eq cls sup X ms υ (t.put T (σ.method m) m)
          (hf.of_same hsame)
        (fun e n he hel hne => hX e n (by rwa [hsame.superClass] at he) ((not_congr (hlive e)).mp hel)
          (by rwa [hsame.superClass] at hne))
      rw [hsame.method] at h
      rw [if_pos hi, hi.1, heq]
      refine ⟨σ', h, hsame.trans hs', fun n => (hl' n).trans (hlive n), fun n hn => ?_, ?_⟩
      · rw [hd' n hn, hout n hn]
      · exact ((hσ₁.cacheVersion.ge.trans hv.1).trans hυτ.2.2).trans hv'
    · rw [if_neg hi, installMethodInDtable_not hi]
      exact createLoop_eq cls sup X ms σ t hf hX

/-- **What `create_dtable_for_class` makes** for a class without a table whose superclass has the
    table `sup`. -/
theorem createDtableForClass_eq {σ : Runtime} (hf : Forest σ) (cls : Class) (rootDtable : Dtable)
    (sup : Option Dtable) (X : Class → Prop) (hnone : σ.dtable cls = none)
    (hX : ∀ e n, σ.superClass e = some cls → σ.dtable e ≠ none → Below σ.superClass n e → X n)
    (hsup : match σ.superClass cls with
      | none => sup = none
      | some p => sup = σ.dtable p ∧ sup ≠ none ∨ σ.dtable p = none ∧ σ.isa p = cls ∧ sup = some rootDtable) :
    ∃ σ', σ.createDtableForClass T cls rootDtable = some (σ', fill T σ.method sup (σ.methodsOf cls)) ∧
      SameClasses σ σ' ∧ SameLive σ σ' ∧ (∀ n, ¬ X n → σ'.dtable n = σ.dtable n) ∧
      σ.cacheVersion ≤ σ'.cacheVersion := by
  obtain ⟨σ', h, hrest⟩ := createLoop_eq (T := T) cls sup X (σ.methodsOf cls) σ
    (sup.getD fun _ => none) hf hX
  refine ⟨σ', ?_, hrest⟩
  rw [fill, ← h]
  rw [createDtableForClass, hnone]
  cases hp : σ.superClass cls with
  | none =>
    rw [hp] at hsup
    subst hsup
    rfl
  | some p =>
    rw [hp] at hsup
    rcases hsup with ⟨hs, hne⟩ | ⟨hs, hisa, rfl⟩
    · obtain ⟨t, ht⟩ := Option.ne_none_iff_exists'.mp hne
      rw [ht] at hs
      simp only [← hs, ht]
      rfl
    · simp only [hs, hisa, if_true]
      rfl

end Runtime

end Libobjc2.Dispatch
