import Libobjc2.Dispatch.CxxCaches

/-!
# Where the entries of dispatch tables come from

No function of src/dispatch/dtable.c, runtime.c and class_table.c puts a method into a dispatch table that
is not in the method lists of a class. Nothing is assumed here about how the classes are linked.

Results:
* `keeps_installMethodInDtable`: one installation, on into the tables of the subclasses.
* `keeps_initializePair`, `keeps_setSuperclass`: new tables, and tables below a new superclass.
* `keeps_next`: the calls of `CxxCaches.Op`.
-/

namespace Libobjc2.Dispatch.Runtime

open CxxCaches

/-! ## Entries and method lists -/

/-- A method is in the lists of a class. -/
def InLists (σ : Runtime) (m : MethodId) : Prop := ∃ cls, m ∈ σ.methodsOf cls

/-- Where no class is, there are no lists. -/
def Beyond (σ : Runtime) : Prop := ∀ cls, σ.classCount ≤ cls → σ.methodLists cls = []

/-- All methods in a table are in the lists of classes. -/
def TableOk (σ : Runtime) (t : Dtable) : Prop := ∀ key m, t key = some m → σ.InLists m

/-- So are those in the tables of the classes. -/
def Sourced (σ : Runtime) : Prop := ∀ cls t, σ.dtable cls = some t → σ.TableOk t

/-- No method of a class goes away, and no other method gets into a table. -/
structure Keeps (σ σ' : Runtime) : Prop where
  classCount : σ.classCount ≤ σ'.classCount
  beyond : σ.Beyond → σ'.Beyond
  inLists : ∀ m, σ.InLists m → σ'.InLists m
  sourced : σ.Sourced → σ'.Sourced

section

variable {T : SelectorTable} {σ τ υ : Runtime}

theorem Keeps.refl (σ : Runtime) : Keeps σ σ := ⟨le_rfl, id, fun _ h => h, fun h => h⟩

theorem Keeps.trans (h : Keeps σ τ) (h' : Keeps τ υ) : Keeps σ υ :=
  ⟨h.classCount.trans h'.classCount, fun hb => h'.beyond (h.beyond hb), fun m hm =>
   h'.inLists m (h.inLists m hm),
    fun hs => h'.sourced (h.sourced hs)⟩

theorem Keeps.table (h : Keeps σ τ) {t : Dtable} (ht : σ.TableOk t) : τ.TableOk t :=
  fun key m hm => h.inLists m (ht key m hm)

theorem tableOk_empty (σ : Runtime) : σ.TableOk fun _ => none := fun _ _ h => by cases h

theorem Sourced.forClass (h : σ.Sourced) (cls : Class) : σ.TableOk (σ.dtableForClass cls) := by
  unfold dtableForClass
  cases ht : σ.dtable cls with
  | none => exact tableOk_empty σ
  | some t => exact h cls t ht

/-- A change of anything but the lists and the tables. -/
theorem keeps_of_eq (hcount : τ.classCount = σ.classCount) (hlists : τ.methodLists = σ.methodLists)
    (hdtable : τ.dtable = σ.dtable) : Keeps σ τ := by
  have hin : ∀ m, τ.InLists m ↔ σ.InLists m := fun m => by
    unfold InLists methodsOf
    rw [hlists]
  refine ⟨hcount.ge, fun hb
      cls => by rw [hcount, hlists]; exact hb cls, fun m => (hin m).mpr, fun hs cls t ht key m hm => (hin m).mpr ?_⟩
  rw [hdtable] at ht
  exact hs cls t ht key m hm

theorem keeps_of_sameTables (h : SameTables σ τ) : Keeps σ τ :=
  keeps_of_eq h.classCount h.methodLists h.dtable

theorem keeps_setDtable (cls : Class) {t : Dtable} (ht : σ.TableOk t) : Keeps σ (σ.setDtable cls t) := by
  refine ⟨le_rfl, id, fun _ h => h, fun hs c s hc => ?_⟩
  unfold Runtime.setDtable at hc
  dsimp only at hc
  by_cases hcc : c = cls
  · rw [hcc, Function.update_self] at hc
    cases hc
    exact ht
  · rw [Function.update_of_ne hcc] at hc
    exact hs c s hc

theorem keeps_bumpCacheVersion (σ : Runtime) : Keeps σ σ.bumpCacheVersion := keeps_of_eq rfl rfl rfl

theorem keeps_checkARCAccessors (σ : Runtime) (cls : Class) : Keeps σ (σ.checkARCAccessors T cls) :=
  keeps_of_sameTables (sameTables_checkARCAccessors ..)

theorem keeps_setImp (σ : Runtime) (m : MethodId) (imp : Imp) : Keeps σ (σ.setImp m imp) :=
    keeps_of_eq rfl rfl rfl

/-! ## Installing methods -/

theorem tableOk_put {t : Dtable} {m : MethodId} (method : Method) (ht : σ.TableOk t) (hm : σ.InLists m) :
    σ.TableOk (t.put T method m) := by
  intro key x hx
  unfold Dtable.put Dtable.insert at hx
  rw [Function.update_apply, Function.update_apply] at hx
  split at hx
  · cases hx
    exact hm
  · split at hx
    · cases hx
      exact hm
    · exact ht key x hx

/-- A loop whose rounds keep the entries. -/
theorem keeps_foldl {α : Type} {f : Runtime → α → Runtime} (l : List α)
    (h : ∀ τ, τ.Sourced → Keeps σ τ → ∀ a ∈ l, Keeps τ (f τ a)) (hσ : σ.Sourced) : Keeps σ (l.foldl f σ) := by
  suffices ∀ τ, Keeps σ τ → Keeps σ (l.foldl f τ) from this σ (Keeps.refl σ)
  intro τ hτ
  induction l generalizing τ with
  | nil => exact hτ
  | cons a l ih =>
    exact ih (fun υ hs hυ b hb => h υ hs hυ b (List.mem_cons_of_mem _ hb)) _
      (hτ.trans (h τ (hτ.sourced hσ) hτ a (List.mem_cons_self ..)))

/-- What an installation in the table `t` keeps. -/
def KeepsTable (σ : Runtime) (r : Runtime × Dtable × Bool) : Prop := Keeps σ r.1 ∧ r.1.TableOk r.2.1

theorem keeps_installMethodInDtable {m : MethodId} (fuel : ℕ) : ∀ (σ : Runtime) (cls : Class) (t : Dtable)
    (repl : Option MethodId) (replaceExisting updateCxxCache : Bool), σ.Sourced → σ.InLists m → σ.TableOk t →
    KeepsTable σ (σ.installMethodInDtable T fuel cls t m repl replaceExisting updateCxxCache) := by
  induction fuel with
  | zero => exact fun σ _ _ _ _ _ _ _ ht => ⟨Keeps.refl σ, ht⟩
  | succ fuel ih =>
    intro σ cls t repl replaceExisting updateCxxCache hσ hm ht
    rw [installMethodInDtable]
    dsimp only
    -- the three cases in which nothing is installed
    split
    · exact ⟨Keeps.refl σ, ht⟩
    split
    · exact ⟨Keeps.refl σ, ht⟩
    split
    · exact ⟨Keeps.refl σ, ht⟩
    generalize hτ : (if updateCxxCache = true then
      σ.updateCxxMethodCache cls (σ.method m).name (σ.method m).imp else σ) = τ
    have hcache : Keeps σ τ := by
      rw [← hτ]
      split
      · exact keeps_of_sameTables (sameTables_updateCxxMethodCache ..)
      · exact Keeps.refl σ
    have hsub : Keeps τ ((τ.subclassList cls).foldl (installStep T fuel m (t (T.typed (σ.method m)))) τ) := by
      refine keeps_foldl _ (fun υ hs hυ subclass _ => ?_) (hcache.sourced hσ)
      unfold installStep
      split
      · obtain ⟨hkeeps, htable⟩ := ih υ subclass (υ.dtableForClass subclass)
            (t (T.typed (σ.method m))) true false hs
          (hυ.inLists m (hcache.inLists m hm)) (hs.forClass subclass)
        exact hkeeps.trans (keeps_setDtable subclass htable)
      · exact Keeps.refl υ
    have hall := hcache.trans hsub
    have htable := tableOk_put (T := T) (σ.method m) ht hm
    split
    · exact ⟨hall, hall.table htable⟩
    · have hbump := hall.trans (keeps_bumpCacheVersion _)
      exact ⟨hbump, hbump.table htable⟩

theorem keeps_installMethodsInClass (cls : Class) (sup : Option Dtable) {methods : MethodArray}
    (hσ : σ.Sourced)
    (hm : ∀ e ∈ methods, σ.InLists e.2) : Keeps σ (σ.installMethodsInClass T cls sup methods true).1 := by
  rw [installMethodsInClass_eq]
  refine keeps_foldl _ (fun τ hs hτ m hmem => ?_) hσ
  obtain ⟨e, he, rfl⟩ := List.mem_map.mp hmem
  obtain ⟨hkeeps, htable⟩ := keeps_installMethodInDtable (T := T) (τ.classCount + 1) τ cls
      (τ.dtableForClass cls)
    (sup.bind fun t => t (T.typed (τ.method e.2))) true true hs (hτ.inLists _ (hm e he)) (hs.forClass cls)
  exact hkeeps.trans (keeps_setDtable cls htable)

theorem keeps_updateDtableForClass (hσ : σ.Sourced) (cls : Class) :
    Keeps σ (σ.updateDtableForClass T cls) := by
  unfold updateDtableForClass
  split
  · exact Keeps.refl σ
  · exact (keeps_installMethodsInClass cls _ hσ fun e he =>
      ⟨cls, mem_of_mem_collectMethods he⟩).trans (keeps_checkARCAccessors ..)

theorem keeps_addMethodListToClass (hσ : σ.Sourced) (cls : Class) {list : List MethodId}
    (hm : ∀ m ∈ list, σ.InLists m) : Keeps σ (σ.addMethodListToClass T cls list) := by
  unfold addMethodListToClass
  split
  · exact Keeps.refl σ
  · refine (keeps_installMethodsInClass cls _ hσ fun e he => hm _ ?_).trans (keeps_checkARCAccessors ..)
    simpa using mem_of_mem_collectMethods he

/-! ## Method lists -/

theorem keeps_pushed {cls : Class} (hlt : cls < σ.classCount) (list : List Method) :
    Keeps σ (σ.pushed cls list) := by
  have hin : ∀ m, σ.InLists m → (σ.pushed cls list).InLists m := by
    rintro m ⟨c, hm⟩
    refine ⟨c, ?_⟩
    rw [methodsOf_pushed]
    split
    · next hc =>
      subst hc
      exact List.mem_append_right _ hm
    · exact hm
  refine ⟨le_rfl, fun hb c hc => ?_, hin, fun hs c t ht key m hm => hin m (hs c t ht key m hm)⟩
  have hc : σ.classCount ≤ c := hc
  have hne : c ≠ cls := by
    rintro rfl
    exact absurd hlt (not_lt.mpr hc)
  exact (Function.update_of_ne hne _ _).trans (hb c hc)

theorem inLists_pushed (cls : Class) {list : List Method} {m : MethodId}
    (hm : m ∈ List.range' σ.nextMethod list.length) : (σ.pushed cls list).InLists m := by
  refine ⟨cls, ?_⟩
  rw [methodsOf_pushed, if_pos rfl]
  exact List.mem_append_left _ hm

/-- A list is added to a class, and its methods go into the table. -/
theorem keeps_add (hσ : σ.Sourced) {cls : Class} (hlt : cls < σ.classCount) (list : List Method)
    (hτ : SameTables (σ.pushed cls list) τ) :
    Keeps σ (if τ.classHasDtable cls then
      τ.addMethodListToClass T cls (List.range' σ.nextMethod list.length) else τ) := by
  have hpush := (keeps_pushed hlt list).trans (keeps_of_sameTables hτ)
  split
  · exact hpush.trans (keeps_addMethodListToClass (hpush.sourced hσ) cls fun m hm =>
      (keeps_of_sameTables hτ).inLists m (inLists_pushed cls hm))
  · exact hpush

theorem keeps_registerMethods (hσ : σ.Sourced) {cls : Class} (hlt : cls < σ.classCount) (list : List Method) :
    Keeps σ (σ.registerMethods T cls list) := keeps_add hσ hlt list (SameTables.refl _)

theorem keeps_addMethod (hσ : σ.Sourced) {cls : Class} (hlt : cls < σ.classCount) (name : String) (imp : Imp)
    (types : Option String) : Keeps σ (σ.addMethod T cls name imp types).1 := by
  cases types with
  | none => exact Keeps.refl σ
  | some types =>
    rw [Runtime.addMethod]
    split
    · exact Keeps.refl σ
    · exact keeps_add hσ hlt [⟨name, types, imp⟩] (sameTables_updateCxxMethodCache ..)

theorem keeps_replaceMethod (hσ : σ.Sourced) {cls : Class} (hlt : cls < σ.classCount)
    (name : String) (imp : Imp)
    (types : Option String) : Keeps σ (σ.replaceMethod T cls name imp types).1 := by
  rw [Runtime.replaceMethod]
  split
  · exact keeps_addMethod hσ hlt name imp types
  · exact (keeps_setImp ..).trans (keeps_of_sameTables (sameTables_updateCxxMethodCache ..))

theorem keeps_permissiveReload (hσ : σ.Sourced) {old : Class} (hlt : old < σ.classCount)
    (methods : List Method) :
    Keeps σ (σ.permissiveReload T old methods) := by
  have hpush := keeps_pushed hlt methods
  exact hpush.trans (keeps_updateDtableForClass (hpush.sourced hσ) old)

theorem keeps_commitPlan (hσ : σ.Sourced) {target : Class} (hlt : target < σ.classCount)
    (plan : List ReloadEntry) :
    Keeps σ (σ.commitPlan T target plan) := by
  unfold commitPlan
  dsimp only
  have hadd : Keeps σ (if additions plan = [] then σ else σ.registerMethods T target (additions plan)) := by
    split
    · exact Keeps.refl σ
    · exact keeps_registerMethods hσ hlt _
  refine hadd.trans (keeps_foldl _ (fun τ _ _ e _ => ?_) (hadd.sourced hσ))
  cases e.target with
  | none => exact Keeps.refl τ
  | some m => exact keeps_setImp ..

theorem keeps_safeReload (hσ : σ.Sourced) {canonical : Class} (hlt : canonical < σ.classCount)
    (hisa : σ.isa canonical < σ.classCount) (instanceMethods classMethods : List Method) :
    Keeps σ (σ.safeReload T canonical instanceMethods classMethods) := by
  unfold safeReload
  split
  · next instancePlan classPlan _ _ =>
    have hfirst := keeps_commitPlan (T := T) hσ hlt instancePlan
    have hsecond := hfirst.trans (keeps_commitPlan (T := T) (hfirst.sourced hσ)
      (hisa.trans_le hfirst.classCount) classPlan)
    exact hsecond.trans ((keeps_of_sameTables (sameTables_refreshReloadCxxCache ..)).trans
      (keeps_of_sameTables (sameTables_refreshReloadCxxCache ..)))
  · exact Keeps.refl σ

/-! ## New tables -/

/-- The loop of `create_dtable_for_class`. -/
theorem keeps_createLoop (cls : Class) (sup : Option Dtable) (ms : List MethodId) :
    ∀ (σ : Runtime) (t : Dtable),
    σ.Sourced → (∀ m ∈ ms, σ.InLists m) → σ.TableOk t →
    ∃ σ' t', ms.foldl (fun (σ, dtable) m =>
        let superMethod := sup.bind fun s => s (T.typed (σ.method m))
        let (σ, dtable, _) := installMethodInDtable T σ (σ.classCount + 1) cls dtable m superMethod true true
        (σ, dtable)) (σ, t) = (σ', t') ∧ Keeps σ σ' ∧ σ'.TableOk t' := by
  induction ms with
  | nil => exact fun σ t _ _ ht => ⟨σ, t, rfl, Keeps.refl σ, ht⟩
  | cons m ms ih =>
    intro σ t hσ hms ht
    obtain ⟨hkeeps, htable⟩ := keeps_installMethodInDtable (T := T) (σ.classCount + 1) σ cls t
      (sup.bind fun s => s (T.typed (σ.method m))) true true hσ (hms m (List.mem_cons_self ..)) ht
    obtain ⟨σ', t', hfold, hkeeps', htable'⟩ := ih _ _ (hkeeps.sourced hσ)
      (fun x hx => hkeeps.inLists x (hms x (List.mem_cons_of_mem _ hx))) htable
    exact ⟨σ', t', hfold, hkeeps.trans hkeeps', htable'⟩

theorem keeps_createDtableForClass {σ' : Runtime} {cls : Class} {root t : Dtable} (hσ : σ.Sourced)
    (hroot : σ.TableOk root) (h : σ.createDtableForClass T cls root = some (σ', t)) :
    Keeps σ σ' ∧ σ'.TableOk t := by
  cases hold : σ.dtable cls with
  | some dtable =>
    unfold createDtableForClass at h
    rw [hold] at h
    obtain ⟨rfl, rfl⟩ := Prod.mk.inj (Option.some.inj h)
    exact ⟨Keeps.refl _, hσ cls _ hold⟩
  | none =>
    have hsup : σ.TableOk ((superTable σ cls root).getD fun _ => none) := by
      unfold superTable
      cases hp : σ.superClass cls with
      | none => exact tableOk_empty σ
      | some super =>
        rw [Option.map_some, Option.getD_some]
        cases hd : σ.dtable super with
        | none => exact hroot
        | some s => exact hσ super s hd
    obtain ⟨τ, s, hfold, hkeeps, htable⟩ := keeps_createLoop (T := T) cls (superTable σ cls root)
        (σ.methodsOf cls) σ _
      hσ (fun m hm => ⟨cls, hm⟩) hsup
    rcases createDtable_loop (T := T) hold rfl with hnone | hloop
    · rw [hnone] at h
      cases h
    · rw [hloop, hfold] at h
      obtain ⟨rfl, rfl⟩ := Prod.mk.inj (Option.some.inj h)
      exact ⟨hkeeps, htable⟩

theorem keeps_initializePair {σ' : Runtime} {cls : Class} (hσ : σ.Sourced)
    (h : σ.initializePair T cls = some σ') : Keeps σ σ' := by
  unfold initializePair at h
  split at h
  · rw [← Option.some.inj h]
    exact Keeps.refl σ
  · obtain ⟨⟨τ, classDtable⟩, hcreate, h⟩ := Option.bind_eq_some_iff.mp h
    obtain ⟨hkeeps, htable⟩ := keeps_createDtableForClass hσ (tableOk_empty σ) hcreate
    dsimp only at h
    split at h
    · rw [← Option.some.inj h]
      exact (hkeeps.trans (keeps_setDtable cls htable)).trans (keeps_checkARCAccessors ..)
    · obtain ⟨⟨υ, dtable⟩, hmeta, h⟩ := Option.bind_eq_some_iff.mp h
      obtain ⟨hkeeps', htable'⟩ := keeps_createDtableForClass (hkeeps.sourced hσ) htable hmeta
      rw [← Option.some.inj h]
      have hset := keeps_setDtable (σ.isa cls) htable'
      exact (((hkeeps.trans hkeeps').trans hset).trans
          (keeps_setDtable cls (hset.table (hkeeps'.table htable)))).trans
        (keeps_checkARCAccessors ..)

theorem keeps_sendInitialize (fuel : ℕ) : ∀ (σ σ' : Runtime) (cls : Class), σ.Sourced →
    σ.sendInitialize T fuel cls = some σ' → Keeps σ σ' := by
  induction fuel with
  | zero => exact fun σ σ' cls _ h => by cases h
  | succ fuel ih =>
    intro σ σ' cls hσ h
    obtain ⟨τ, hsuper, h⟩ := Option.bind_eq_some_iff.mp h
    have hkeeps : Keeps σ τ := by
      cases hp : σ.superClass cls with
      | none =>
        rw [hp] at hsuper
        rw [← Option.some.inj hsuper]
        exact Keeps.refl σ
      | some super =>
        rw [hp] at hsuper
        exact ih σ τ super hσ hsuper
    exact hkeeps.trans (keeps_initializePair (hkeeps.sourced hσ) h)

/-! ## A new superclass -/

theorem tableOk_rebaseEntries (own : Dtable) {parent t : Dtable} (hp : σ.TableOk parent) (ht : σ.TableOk t) :
    σ.TableOk (rebaseEntries parent own t) := by
  intro key m hm
  unfold rebaseEntries at hm
  split_ifs at hm
  dsimp only at hm
  split at hm
  · exact hp key m hm
  · exact ht key m hm

theorem keeps_rebaseDtableRecursive (fuel : ℕ) : ∀ (σ : Runtime) (cls newSuper : Class), σ.Sourced →
    Keeps σ (σ.rebaseDtableRecursive T fuel cls newSuper) := by
  induction fuel with
  | zero => exact fun σ _ _ _ => Keeps.refl σ
  | succ fuel ih =>
    intro σ cls newSuper hσ
    have htable := tableOk_rebaseEntries (σ.ownMethodTable T cls) (hσ.forClass newSuper) (hσ.forClass cls)
    have hfirst := (keeps_setDtable cls htable).trans (keeps_checkARCAccessors (T := T) _ cls)
    refine hfirst.trans (keeps_foldl _ (fun τ hs _ subclass _ => ?_) (hfirst.sourced hσ))
    split
    · exact ih τ subclass cls hs
    · exact Keeps.refl τ

theorem keeps_updateDtableForNewSuperclass (hσ : σ.Sourced) (cls newSuper : Class) :
    Keeps σ (σ.updateDtableForNewSuperclass T cls newSuper) := by
  unfold updateDtableForNewSuperclass
  split
  · exact Keeps.refl σ
  · exact (keeps_rebaseDtableRecursive _ σ cls newSuper hσ).trans (keeps_bumpCacheVersion _)

theorem keeps_removeFromSubclassList (σ : Runtime) (cls : Class) :
    Keeps σ (σ.removeFromSubclassList cls) := by
  unfold removeFromSubclassList
  split
  · exact Keeps.refl σ
  · exact keeps_of_eq rfl rfl rfl

theorem keeps_moveClass (σ : Runtime) (cls newSuper : Class) : Keeps σ (σ.moveClass cls newSuper) := by
  have hlink : ∀ (τ : Runtime) (c super : Class),
      Keeps τ ((τ.removeFromSubclassList c).linkSuperclass c super) :=
    fun τ c super => (keeps_removeFromSubclassList τ c).trans (keeps_of_eq rfl rfl rfl)
  have hfirst := hlink σ cls newSuper
  unfold moveClass
  generalize (σ.removeFromSubclassList cls).linkSuperclass cls newSuper = τ at hfirst
  dsimp only
  split
  · exact hfirst.trans (keeps_of_eq rfl rfl rfl)
  · have hsecond := hfirst.trans (hlink τ (τ.isa cls) (τ.isa newSuper))
    generalize (τ.removeFromSubclassList (τ.isa cls)).linkSuperclass (τ.isa cls) (τ.isa newSuper) =
        υ at hsecond
    exact hsecond.trans (keeps_of_eq rfl rfl rfl)

theorem keeps_setSuperclass {σ' : Runtime} {cls newSuper : Class} (hσ : σ.Sourced)
    (h : σ.setSuperclass T cls newSuper = some σ') : Keeps σ σ' := by
  unfold setSuperclass at h
  split at h
  · rw [← Option.some.inj h]
    exact Keeps.refl σ
  · have hmove := keeps_moveClass σ cls newSuper
    dsimp only at h
    split at h
    · rw [← Option.some.inj h]
      exact hmove
    · obtain ⟨τ, hsend, h⟩ := Option.bind_eq_some_iff.mp h
      have hτ := hmove.trans (keeps_sendInitialize _ _ _ _ (hmove.sourced hσ) hsend)
      have hυ := hτ.trans (keeps_updateDtableForNewSuperclass (T := T) (hτ.sourced hσ) (τ.isa cls)
          (τ.isa newSuper))
      rw [← Option.some.inj h]
      exact hυ.trans (keeps_updateDtableForNewSuperclass (hυ.sourced hσ) cls newSuper)

/-! ## New classes -/

/-- A class comes into being where none was; it has no table. -/
theorem keeps_newClass {σ' : Runtime} (new : List Class) (hb : σ.Beyond) (hnew : ∀ c ∈ new, σ.classCount ≤ c)
    (hle : σ.classCount ≤ σ'.classCount) (hcount : ∀ c ∈ new, c < σ'.classCount)
    (hlists : ∀ c, c ∉ new → σ'.methodLists c = σ.methodLists c)
    (htable : ∀ c ∈ new, σ'.dtable c = none) (htables : ∀ c, c ∉ new → σ'.dtable c = σ.dtable c) :
    Keeps σ σ' := by
  have hin : ∀ m, σ.InLists m → σ'.InLists m := by
    rintro m ⟨c, hm⟩
    refine ⟨c, ?_⟩
    have hc : c ∉ new := by
      intro hc
      unfold methodsOf at hm
      rw [hb c (hnew c hc)] at hm
      cases hm
    unfold methodsOf at hm ⊢
    rwa [hlists c hc]
  refine ⟨hle, fun _ c hc => ?_, hin, fun hs c t ht key m hm => ?_⟩
  · rw [hlists c fun hn => absurd (hcount c hn) (not_lt.mpr hc)]
    exact hb c (hle.trans hc)
  · by_cases hc : c ∈ new
    · rw [htable c hc] at ht
      cases ht
    · rw [htables c hc] at ht
      exact hin m (hs c t ht key m hm)

theorem keeps_newPair (hb : σ.Beyond) (super : Option Class) (lists metaLists : List (List MethodId)) :
    Keeps σ (newPair σ super lists metaLists) := by
  have hnew : ∀ c ∈ [σ.classCount, σ.classCount + 1], c = σ.classCount ∨ c = σ.classCount + 1 :=
      fun c hc => by
    simpa using hc
  have hother : ∀ c, c ∉ [σ.classCount, σ.classCount + 1] → c ≠ σ.classCount ∧
      c ≠ σ.classCount + 1 := fun c hc => by
    simpa using hc
  apply keeps_newClass [σ.classCount, σ.classCount + 1] hb
  · intro c hc
    exact (hnew c hc).elim (fun h => h.ge) (fun h => h ▸ Nat.le_succ _)
  · exact Nat.le_add_right _ 2
  · intro c hc
    show c < σ.classCount + 2
    rcases hnew c hc with h | h <;> rw [h] <;> simp
  · intro c hc
    unfold newPair
    dsimp only
    rw [Function.update_of_ne (hother c hc).2, Function.update_of_ne (hother c hc).1]
  · intro c hc
    unfold newPair
    dsimp only
    rcases hnew c hc with rfl | rfl
    · rw [Function.update_of_ne (Nat.succ_ne_self _).symm, Function.update_self]
    · rw [Function.update_self]
  · intro c hc
    unfold newPair
    dsimp only
    rw [Function.update_of_ne (hother c hc).2, Function.update_of_ne (hother c hc).1]

theorem keeps_allocMethods (σ : Runtime) (list : List Method) : Keeps σ (σ.allocMethods list).1 :=
  keeps_of_eq rfl rfl rfl

/-! ## Calls -/

theorem keeps_linkClass (σ : Runtime) (cls : Class) : Keeps σ (linkClass σ cls) := by
  unfold linkClass
  dsimp only
  split
  · exact keeps_of_eq rfl rfl rfl
  · exact keeps_of_eq rfl rfl rfl

theorem keeps_resolveClass (fuel : ℕ) : ∀ (cls : Class) (M : Machine),
    Keeps M.runtime (resolveClass fuel cls M).runtime := by
  induction fuel with
  | zero => exact fun _ M => Keeps.refl M.runtime
  | succ fuel ih =>
    intro cls M
    unfold resolveClass
    split
    · exact Keeps.refl _
    · cases hp : M.runtime.superClass cls with
      | none => exact keeps_linkClass M.runtime cls
      | some super => exact (ih super M).trans (keeps_linkClass _ cls)

theorem keeps_refresh (M : Machine) (m : MethodId) :
    Keeps M.runtime (CxxCaches.refreshCxxMethodCaches M m).runtime := by
  unfold CxxCaches.refreshCxxMethodCaches
  dsimp only
  split
  · exact keeps_of_eq rfl rfl rfl
  · split
    · exact keeps_of_eq rfl rfl rfl
    · exact Keeps.refl _

/-- The classes whose method lists a call adds to. -/
def receivers (M : Machine) : CxxCaches.Op → List Class
  | .addMethod cls _ _ _ => [cls]
  | .replaceMethod cls _ _ _ => [cls]
  | .registerMethods cls _ => [cls]
  | .safeReload canonical _ _ => [canonical, M.runtime.isa canonical]
  | _ => []

theorem keeps_next (M : Machine) (op : CxxCaches.Op) (hb : M.runtime.Beyond) (hs : M.runtime.Sourced)
    (hop : ∀ c ∈ receivers M op, c < M.runtime.classCount) :
    Keeps M.runtime (CxxCaches.next T M op).runtime := by
  cases op with
  | allocateClassPair super => exact keeps_newPair hb super [] []
  | loadClass super methods classMethods =>
    have halloc := (keeps_allocMethods M.runtime methods).trans (keeps_allocMethods _ classMethods)
    exact halloc.trans (keeps_newPair (halloc.beyond hb) super _ _)
  | registerClassPair cls =>
    have hcaches : Keeps M.runtime
        (rebuildCxxMethodCaches (rebuildCxxMethodCaches M.runtime cls) (M.runtime.isa cls)) :=
      keeps_of_eq rfl rfl rfl
    exact hcaches.trans (keeps_resolveClass (M.runtime.classCount + 1) cls { M with
      runtime := rebuildCxxMethodCaches (rebuildCxxMethodCaches M.runtime cls) (M.runtime.isa cls)
      listed := Function.update M.listed cls true })
  | sendInitialize cls =>
    have hresolve : Keeps M.runtime (M.resolve cls).runtime := keeps_resolveClass _ cls M
    refine hresolve.trans ?_
    show Keeps _ (((M.resolve cls).runtime.initializePair T cls).getD (M.resolve cls).runtime)
    cases hinit : (M.resolve cls).runtime.initializePair T cls with
    | none => exact Keeps.refl _
    | some σ' => exact keeps_initializePair (hresolve.sourced hs) hinit
  | addMethod cls name imp types => exact keeps_addMethod hs (hop cls (List.mem_cons_self ..)) name imp types
  | replaceMethod cls name imp types =>
      exact keeps_replaceMethod hs (hop cls (List.mem_cons_self ..)) name imp types
  | setImplementation m imp => exact (keeps_setImp _ m imp).trans (keeps_refresh { M with runtime := _ } m)
  | exchangeImplementations m₁ m₂ =>
    exact (((keeps_setImp _ m₁ _).trans (keeps_setImp _ m₂ _)).trans
        (keeps_refresh { M with runtime := _ } m₁)).trans
      (keeps_refresh _ m₂)
  | registerMethods cls list => exact keeps_registerMethods hs (hop cls (List.mem_cons_self ..)) list
  | safeReload canonical instanceMethods classMethods =>
    exact keeps_safeReload hs (hop canonical (List.mem_cons_self ..)) (hop _ (by simp [receivers]))
        instanceMethods
      classMethods

end

end Libobjc2.Dispatch.Runtime
