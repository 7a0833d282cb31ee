import Mathlib.Data.List.Find
import Libobjc2.Dispatch.Resolution
import Libobjc2.Dispatch.SafeReload

/-!
# A safe reload is all or nothing

Results:
* `commitPlan_committed`: what the commit of a plan changes;
* `prepared_plan`: a plan that is prepared has the first method of each name of the candidate, and
  the method of that name in the class it is for;
* `safeReload_allOrNothing`: a reload changes nothing when it is rejected and each name as it
  should when it is accepted, just when no selector of a reload that is committed is `NULL`.
-/

namespace Libobjc2.Dispatch

open Libobjc2.Common

namespace Runtime

variable {T : SelectorTable}

/-! ## What updating a table leaves alone -/

theorem sameClasses_installMethodInDtable : ∀ (fuel : ℕ) (σ : Runtime) (cls : Class) (dtable : Dtable)
    (m : MethodId) (methodToReplace : Option MethodId) (replaceExisting updateCxxCache : Bool),
    SameClasses σ (σ.installMethodInDtable T fuel cls dtable m methodToReplace replaceExisting
      updateCxxCache).1
  | 0, σ, _, _, _, _, _, _ => SameClasses.refl σ
  | fuel + 1, σ, cls, dtable, m, methodToReplace, replaceExisting, updateCxxCache => by
    have hloop : ∀ (subclasses : List Class) (σ : Runtime) (old : Option MethodId),
        SameClasses σ (subclasses.foldl (fun σ subclass =>
          if σ.classHasDtable subclass then
            let r := σ.installMethodInDtable T fuel subclass (σ.dtableForClass subclass) m old true false
            r.1.setDtable subclass r.2.1
          else σ) σ) := by
      intro subclasses
      induction subclasses with
      | nil => exact fun σ _ => SameClasses.refl σ
      | cons subclass subclasses ih =>
        intro σ old
        rw [List.foldl_cons]
        refine SameClasses.trans ?_ (ih _ old)
        split
        · exact (sameClasses_installMethodInDtable fuel ..).trans (sameClasses_setDtable ..)
        · exact SameClasses.refl σ
    rw [installMethodInDtable]
    dsimp only
    split_ifs
    all_goals try exact SameClasses.refl σ
    all_goals try exact (sameTables_updateCxxMethodCache ..).toSameClasses.trans (hloop ..)
    all_goals try exact hloop ..
    · exact ((sameTables_updateCxxMethodCache ..).toSameClasses.trans (hloop ..)).trans (sameClasses_bump _)
    · exact (hloop ..).trans (sameClasses_bump _)

theorem sameClasses_installAll (cls : Class) (sup : Option Dtable) (ms : List MethodId) (σ : Runtime) :
    SameClasses σ (installAll T cls sup σ ms) := by
  induction ms generalizing σ with
  | nil => exact SameClasses.refl σ
  | cons m ms ih =>
    exact ((sameClasses_installMethodInDtable ..).trans (sameClasses_setDtable ..)).trans (ih _)

theorem sameClasses_addMethodListToClass (σ : Runtime) (cls : Class) (list : List MethodId) :
    SameClasses σ (σ.addMethodListToClass T cls list) := by
  rw [addMethodListToClass]
  split
  · exact SameClasses.refl σ
  · refine SameClasses.trans ?_ (sameTables_checkARCAccessors ..).toSameClasses
    rw [installMethodsInClass_eq]
    exact sameClasses_installAll ..

theorem sameClasses_registerMethods (σ : Runtime) (cls : Class) (list : List Method) :
    SameClasses (σ.pushed cls list) (σ.registerMethods T cls list) := by
  show SameClasses _ (if (σ.pushed cls list).classHasDtable cls then _ else _)
  split
  · exact sameClasses_addMethodListToClass ..
  · exact SameClasses.refl _

/-! ## The commit of a plan -/

/-- The replacements of a plan. -/
def setImps (σ : Runtime) (plan : List ReloadEntry) : Runtime :=
  plan.foldl (fun σ e => e.target.elim σ fun m => σ.setImp m e.method.imp) σ

/-- No method is the target of two entries. -/
def DistinctTargets (plan : List ReloadEntry) : Prop :=
  plan.Pairwise fun e e' => ∀ m, e.target = some m → e'.target ≠ some m

/-- `m` once the entry of a plan for it has been committed. -/
def replacedBy (σ : Runtime) (plan : List ReloadEntry) (m : MethodId) : Method :=
  match plan.find? fun e => e.target = some m with
  | none => σ.method m
  | some e => { σ.method m with imp := e.method.imp }

theorem setImps_method (plan : List ReloadEntry) (hd : DistinctTargets plan) (σ : Runtime) (m : MethodId) :
    (σ.setImps plan).method m = σ.replacedBy plan m := by
  induction plan generalizing σ with
  | nil => rfl
  | cons e plan ih =>
    obtain ⟨hfirst, hrest⟩ := List.pairwise_cons.mp hd
    show ((e.target.elim σ fun m => σ.setImp m e.method.imp).setImps plan).method m = _
    rw [ih hrest, replacedBy, replacedBy, List.find?_cons]
    by_cases htarget : e.target = some m
    · have hnone : plan.find? (fun e => e.target = some m) = none :=
        List.find?_eq_none.mpr fun e' he' => by simpa using hfirst e' he' m htarget
      rw [hnone, htarget]
      simp [setImp]
    · have hkept : (e.target.elim σ fun m => σ.setImp m e.method.imp).method m = σ.method m := by
        cases he : e.target with
        | none => rfl
        | some m' =>
          refine Function.update_of_ne ?_ _ _
          rintro rfl
          exact htarget he
      simp only [htarget, decide_false]
      rw [hkept]

/-- Replacements change nothing but methods. -/
theorem setImps_frame (plan : List ReloadEntry) (σ : Runtime) :
    (σ.setImps plan).methodLists = σ.methodLists ∧ (σ.setImps plan).isa = σ.isa ∧
      (σ.setImps plan).nextMethod = σ.nextMethod := by
  induction plan generalizing σ with
  | nil => exact ⟨rfl, rfl, rfl⟩
  | cons e plan ih =>
    obtain ⟨hlists, hisa, hnext⟩ := ih (e.target.elim σ fun m => σ.setImp m e.method.imp)
    refine ⟨hlists.trans ?_, hisa.trans ?_, hnext.trans ?_⟩ <;> cases e.target <;> rfl

theorem commitPlan_isa (σ : Runtime) (target : Class) (plan : List ReloadEntry) :
    (σ.commitPlan T target plan).isa = σ.isa := by
  refine (setImps_frame plan _).2.1.trans ?_
  split
  · rfl
  · exact (sameClasses_registerMethods ..).isa

/-- What the commit of a plan makes of a runtime. -/
structure Committed (σ σ' : Runtime) (target : Class) (plan : List ReloadEntry) : Prop where
  isa : σ'.isa = σ.isa
  next : σ.nextMethod ≤ σ'.nextMethod
  methodsOf_target : ∃ added, σ'.methodsOf target = added ++ σ.methodsOf target ∧
    added.map σ'.method = additions plan ∧ ∀ m ∈ added, σ.nextMethod ≤ m ∧ m < σ'.nextMethod
  methodLists_other : ∀ c, c ≠ target → σ'.methodLists c = σ.methodLists c
  method : ∀ m < σ.nextMethod, σ'.method m = σ.replacedBy plan m

theorem commitPlan_committed {σ : Runtime} {target : Class} {plan : List ReloadEntry}
    (hd : DistinctTargets plan) (hfresh : ∀ e ∈ plan, ∀ m, e.target = some m → m < σ.nextMethod) :
    Committed σ (σ.commitPlan T target plan) target plan := by
  have hcommit : σ.commitPlan T target plan =
      (if additions plan = [] then σ else σ.registerMethods T target (additions plan)).setImps plan := rfl
  rw [hcommit]
  obtain ⟨hlists, hisa, hnext⟩ :=
    setImps_frame plan (if additions plan = [] then σ else σ.registerMethods T target (additions plan))
  have hmethod := setImps_method plan hd (if additions plan = [] then σ
      else σ.registerMethods T target (additions plan))
  by_cases hempty : additions plan = []
  · simp only [if_pos hempty] at *
    refine ⟨hisa, hnext.ge, ⟨[], by rw [methodsOf, hlists]; rfl, by simp [hempty], by simp⟩,
      fun c _ => congrFun hlists c, fun m _ => hmethod m⟩
  · simp only [if_neg hempty] at *
    have hsame := sameClasses_registerMethods (T := T) σ target (additions plan)
    refine ⟨hisa.trans hsame.isa, ?_,
      ⟨List.range' σ.nextMethod (additions plan).length, ?_, ?_, ?_⟩, fun c hc => ?_, fun m hm => ?_⟩
    · rw [hnext, hsame.nextMethod]
      exact Nat.le_add_right ..
    · rw [methodsOf, hlists, hsame.methodLists]
      exact (methodsOf_pushed ..).trans (if_pos rfl)
    · refine Eq.trans (List.map_congr_left fun m hm => ?_) (map_method_pushed σ target (additions plan))
      have hnone : plan.find? (fun e => e.target = some m) = none :=
        List.find?_eq_none.mpr fun e he hm' =>
          absurd (hfresh e he m (by simpa using hm')) (List.mem_range'_1.mp hm).1.not_gt
      rw [hmethod, replacedBy, hnone, hsame.method]
    · intro m hm
      rw [hnext, hsame.nextMethod]
      exact List.mem_range'_1.mp hm
    · rw [hlists, hsame.methodLists]
      exact Function.update_of_ne hc ..
    · rw [hmethod, replacedBy, replacedBy, hsame.method, pushed_method_of_lt σ target _ hm]

/-! ## Prepared plans -/

/-- The first method of a name among the methods of a candidate, with its implementation. -/
def firstImp (source : List Incoming) (name : String) : Option (Option Imp) :=
  (source.find? fun m => selGetName m.selector = name).map (·.imp)

/-- The entry of a name in a plan. -/
def planned (plan : List PlanEntry) (name : String) : Option PlanEntry :=
  plan.find? fun e => selGetName e.selector = name

/-- `plan` says what to do with the methods `source` in the class `target`. -/
structure PlanFor (σ : Runtime) (target : Class) (source : List Incoming) (plan : List PlanEntry) : Prop where
  distinct : (plan.map fun e => selGetName e.selector).Nodup
  target : ∀ e ∈ plan, e.target = σ.firstNamed target (selGetName e.selector)
  first : ∀ name, (planned plan name).map (some ·.implementation) = firstImp source name
  selector : ∀ e ∈ plan, ∃ m ∈ source, m.selector = e.selector

theorem PlanFor.planMethod {σ : Runtime} {target : Class} {source : List Incoming}
    {plan plan' : List PlanEntry}
    (h : PlanFor σ target source plan) {incoming : Incoming}
    (hok : σ.planMethod target plan incoming = .ok plan') :
    PlanFor σ target (source ++ [incoming]) plan' := by
  have hfirst : ∀ name, firstImp (source ++ [incoming]) name =
      (firstImp source name).or (if selGetName incoming.selector = name then some incoming.imp
        else none) := by
    intro name
    rw [firstImp, firstImp, List.find?_append, Option.map_or]
    by_cases hn : selGetName incoming.selector = name <;> simp [hn]
  have hselector : ∀ e ∈ plan, ∃ m ∈ source ++ [incoming], m.selector = e.selector := by
    intro e he
    obtain ⟨m, hm, hme⟩ := h.selector e he
    exact ⟨m, List.mem_append_left _ hm, hme⟩
  rw [Runtime.planMethod] at hok
  split at hok
  · next types imp _ himp =>
    dsimp only at hok
    split at hok
    · -- a name that the plan has already
      next hin =>
      obtain rfl := Except.ok.inj hok
      refine ⟨h.distinct, h.target, fun name => ?_, hselector⟩
      rw [hfirst, ← h.first]
      by_cases hn : selGetName incoming.selector = name
      · have : (planned plan name).isSome := by
          rw [planned, List.find?_isSome]
          rw [List.any_eq_true] at hin
          simpa [hn] using hin
        obtain ⟨e, he⟩ := Option.isSome_iff_exists.mp this
        simp [he]
      · simp [hn]
    · next hnew =>
      have hnew : ∀ e ∈ plan, selGetName e.selector ≠ selGetName incoming.selector := by simpa using hnew
      split at hok
      · obtain rfl := Except.ok.inj hok
        refine ⟨?_, ?_, fun name => ?_, ?_⟩
        · rw [List.map_append]
          refine List.nodup_append.mpr ⟨h.distinct, List.nodup_singleton _, ?_⟩
          rintro a ha b hb rfl
          obtain ⟨e, he, rfl⟩ := List.mem_map.mp ha
          exact hnew e he (by simpa using hb)
        · intro e he
          rcases List.mem_append.mp he with he | he
          · exact h.target e he
          · rw [List.mem_singleton.mp he]
        · rw [hfirst, ← h.first, planned, List.find?_append, ← planned, Option.map_or]
          by_cases hn : selGetName incoming.selector = name <;> simp [hn, himp]
        · intro e he
          rcases List.mem_append.mp he with he | he
          · exact hselector e he
          · rw [List.mem_singleton.mp he]
            exact ⟨incoming, by simp, rfl⟩
      · cases hok
  · cases hok

theorem PlanFor.foldlM {σ : Runtime} {target : Class} (rest : List Incoming) {source : List Incoming}
    {plan plan' : List PlanEntry} (h : PlanFor σ target source plan)
    (hok : rest.foldlM (σ.planMethod target) plan = .ok plan') : PlanFor σ target (source ++ rest) plan' := by
  induction rest generalizing source plan with
  | nil =>
    obtain rfl := Except.ok.inj hok
    rwa [List.append_nil]
  | cons incoming rest ih =>
    rw [List.foldlM_cons] at hok
    cases hone : σ.planMethod target plan incoming with
    | error reason =>
      rw [hone] at hok
      cases hok
    | ok next =>
      rw [hone] at hok
      have := ih (h.planMethod hone) hok
      rwa [List.append_assoc] at this

theorem planFor_nil (σ : Runtime) (target : Class) : PlanFor σ target [] [] :=
  ⟨List.nodup_nil, by simp, fun _ => rfl, by simp⟩

/-- What is counted is how many methods there are. -/
theorem length_of_count {lists : List CandidateList} {total : ℕ}
    (h : safeReloadCountMethods lists = some total) : (methodsOfLists lists).length = total := by
  have hfold : ∀ (lists : List CandidateList) (start : ℕ), lists.foldlM (fun count list =>
      if list.count < 0 ∨ list.size < sizeofMethod then none
      else if sizeMax - count < list.count.toNat then none
      else some (count + list.count.toNat)) start = some total →
      start + (methodsOfLists lists).length = total := by
    intro lists
    induction lists with
    | nil => exact fun start h => Option.some.inj h
    | cons list lists ih =>
      intro start h
      rw [List.foldlM_cons] at h
      split_ifs at h
      · cases h
      · cases h
      · have := ih _ h
        simp only [methodsOfLists, List.flatMap_cons, List.length_append, CandidateList.methods,
          List.length_map,
          List.length_range] at this ⊢
        omega
  simpa using hfold lists 0 h

theorem allocateAdditions_ok {fails : Allocation → Bool} {isMeta : Bool} {plan plan' : List PlanEntry}
    (h : allocateAdditions fails isMeta plan = .ok plan') : plan' = plan := by
  rw [allocateAdditions] at h
  split_ifs at h <;> exact (Except.ok.inj h).symm

/-- **Plans that are prepared.** -/
theorem prepared_plan {fails : Allocation → Bool} {σ : Runtime} {isMeta : Bool} {target : Class}
    {lists : List CandidateList} {plan : List PlanEntry}
    (h : σ.safeReloadPreparePlan fails isMeta target lists
      (registerSelectors fails isMeta (methodsOfLists lists)) = .ok plan) :
    PlanFor σ target (registerSelectors fails isMeta (methodsOfLists lists)) plan := by
  rw [safeReloadPreparePlan] at h
  split at h
  · cases h
  · next total htotal =>
    split_ifs at h with hzero
    · obtain rfl := Except.ok.inj h
      have : methodsOfLists lists = [] := List.eq_nil_of_length_eq_zero ((length_of_count htotal).trans hzero)
      rw [this]
      exact planFor_nil σ target
    · cases hfold : (registerSelectors fails isMeta (methodsOfLists lists)).foldlM
          (σ.planMethod target) [] with
      | error reason =>
        rw [hfold] at h
        cases h
      | ok entries =>
        rw [hfold] at h
        rw [allocateAdditions_ok h]
        simpa using (planFor_nil σ target).foldlM _ hfold

/-! ## What a commit does to the names of a class -/

/-- The methods of a class that have a name. -/
def namedMethods (σ : Runtime) (cls : Class) (name : String) : List MethodId :=
  (σ.methodsOf cls).filter fun m => (σ.method m).name = name

/-- What a reload should have made of a class whose candidate has `first` as the first
    implementations of its method names. -/
structure Reloaded (σ σ' : Runtime) (cls : Class) (first : String → Option (Option Imp)) : Prop where
  replaced : ∀ name imp, first name = some imp →
    ∃ m, σ'.firstNamed cls name = some m ∧ some (σ'.method m).imp = imp
  kept : ∀ name, first name = none → σ'.namedMethods cls name = σ.namedMethods cls name ∧
    ∀ m ∈ σ.namedMethods cls name, σ'.method m = σ.method m
  single : ∀ name, (σ'.namedMethods cls name).length ≤ max 1 (σ.namedMethods cls name).length

theorem firstNamed_eq_head? (σ : Runtime) (cls : Class) (name : String) :
    σ.firstNamed cls name = (σ.namedMethods cls name).head? := List.head?_filter.symm

theorem replacedBy_name (σ : Runtime) (plan : List ReloadEntry) (m : MethodId) :
    (σ.replacedBy plan m).name = (σ.method m).name := by
  rw [replacedBy]
  split <;> rfl

section Plan

variable {σ σ' : Runtime} {target : Class} {source : List Incoming} {plan : List PlanEntry}

theorem PlanFor.planned_eq (h : PlanFor σ target source plan) {e : PlanEntry} (he : e ∈ plan) :
    planned plan (selGetName e.selector) = some e := by
  have hsome : (planned plan (selGetName e.selector)).isSome := by
    rw [planned, List.find?_isSome]
    exact ⟨e, he, by simp⟩
  obtain ⟨e', he'⟩ := Option.isSome_iff_exists.mp hsome
  have hname : selGetName e'.selector = selGetName e.selector := by simpa using List.find?_some he'
  rw [he', List.inj_on_of_nodup_map h.distinct (List.mem_of_find?_eq_some he') he hname]

/-- The target of an entry has the entry's name. -/
theorem PlanFor.target_name (h : PlanFor σ target source plan) {e : PlanEntry} (he : e ∈ plan) {m : MethodId}
    (hm : e.target = some m) : m ∈ σ.methodsOf target ∧ (σ.method m).name = selGetName e.selector :=
  firstNamed_some ((h.target e he).symm.trans hm)

theorem PlanFor.distinctTargets (h : PlanFor σ target source plan) :
    DistinctTargets (plan.map PlanEntry.toReloadEntry) := by
  refine List.pairwise_map.mpr ((List.pairwise_map.mp h.distinct).imp_of_mem ?_)
  intro e e' he he' hne m hm hm'
  exact hne ((h.target_name he hm).2.symm.trans (h.target_name he' hm').2)

theorem PlanFor.replacedBy_of_target (h : PlanFor σ target source plan) {e : PlanEntry} (he : e ∈ plan)
    {m : MethodId} (hm : e.target = some m) :
    σ.replacedBy (plan.map PlanEntry.toReloadEntry) m = { σ.method m with imp := e.implementation } := by
  have hfind : plan.find?
      ((fun e : ReloadEntry => decide (e.target = some m)) ∘ PlanEntry.toReloadEntry) = some e := by
    have hsome : (plan.find?
        ((fun e : ReloadEntry => decide (e.target = some m)) ∘ PlanEntry.toReloadEntry)).isSome := by
      rw [List.find?_isSome]
      exact ⟨e, he, decide_eq_true hm⟩
    obtain ⟨e', he'⟩ := Option.isSome_iff_exists.mp hsome
    have hfound := List.find?_some he'
    have hm' : e'.target = some m := of_decide_eq_true hfound
    have hmem := List.mem_of_find?_eq_some he'
    rw [he', List.inj_on_of_nodup_map h.distinct hmem he
      ((h.target_name hmem hm').2.symm.trans (h.target_name he hm).2)]
  rw [replacedBy, List.find?_map, hfind]
  rfl

/-- A method whose name the candidate does not have is no target. -/
theorem PlanFor.replacedBy_of_none (h : PlanFor σ target source plan) {m : MethodId}
    (hm : firstImp source (σ.method m).name = none) :
    σ.replacedBy (plan.map PlanEntry.toReloadEntry) m = σ.method m := by
  have hnone : (plan.map PlanEntry.toReloadEntry).find? (fun e => e.target = some m) = none := by
    refine List.find?_eq_none.mpr fun entry hentry => ?_
    obtain ⟨e, he, rfl⟩ := List.mem_map.mp hentry
    intro htarget
    have hname := (h.target_name he (of_decide_eq_true htarget)).2
    rw [hname, ← h.first, h.planned_eq he] at hm
    cases hm
  rw [replacedBy, hnone]

/-- The additions of a name in a plan. -/
theorem filter_additions : ∀ {plan : List PlanEntry}, (plan.map fun e => selGetName e.selector).Nodup →
    ∀ name, (additions (plan.map PlanEntry.toReloadEntry)).filter (fun m => m.name = name) =
      (planned plan name).elim [] fun e => if e.target.isNone then [e.toReloadEntry.method] else []
  | [], _, _ => rfl
  | e :: plan, hd, name => by
    obtain ⟨hfirst, hrest⟩ := List.nodup_cons.mp hd
    have ih := filter_additions hrest name
    simp only [additions, planned] at ih ⊢
    rw [List.map_cons, List.filter_cons, List.find?_cons]
    by_cases hname : selGetName e.selector = name
    · have hnone : plan.find? (fun e => selGetName e.selector = name) = none := by
        refine List.find?_eq_none.mpr fun e' he' => ?_
        intro h
        exact hfirst (List.mem_map.mpr ⟨e', he', (of_decide_eq_true h).trans hname.symm⟩)
      rw [hnone] at ih
      have hmethod : e.toReloadEntry.method.name = name := hname
      cases htarget : e.target with
      | none =>
        have : e.toReloadEntry.target = none := htarget
        simp [this, hname, hmethod, ih, htarget]
      | some m =>
        have : e.toReloadEntry.target = some m := htarget
        simp [this, hname, ih, htarget]
    · have hmethod : e.toReloadEntry.method.name ≠ name := hname
      cases htarget : e.toReloadEntry.target with
      | none => simp [hname, hmethod, ih]
      | some m => simp [hname, ih]

theorem PlanFor.committed (h : PlanFor σ target source plan)
    (hfresh : ∀ m ∈ σ.methodsOf target, m < σ.nextMethod) :
    Committed σ (σ.commitPlan T target (plan.map PlanEntry.toReloadEntry)) target
      (plan.map PlanEntry.toReloadEntry) := by
  refine commitPlan_committed h.distinctTargets fun entry hentry m hm => ?_
  obtain ⟨e, he, rfl⟩ := List.mem_map.mp hentry
  exact hfresh m (h.target_name he hm).1

/-- The methods of a name after a commit: an addition and those that were there. -/
theorem Committed.namedMethods {plan : List ReloadEntry} (hc : Committed σ σ' target plan)
    (hfresh : ∀ m ∈ σ.methodsOf target, m < σ.nextMethod) (name : String) :
    ∃ added, σ'.namedMethods target name = added ++ σ.namedMethods target name ∧
      added.map σ'.method = (additions plan).filter fun m => m.name = name := by
  obtain ⟨added, hlists, hadded, -⟩ := hc.methodsOf_target
  refine ⟨added.filter fun m => (σ'.method m).name = name, ?_, ?_⟩
  · have hold : (σ.methodsOf target).filter (fun m => (σ'.method m).name = name) =
        σ.namedMethods target name := by
      refine List.filter_congr fun m hm => ?_
      rw [hc.method m (hfresh m hm), replacedBy_name]
    rw [Runtime.namedMethods, hlists, List.filter_append, hold]
  · rw [← hadded, List.filter_map]
    rfl

/-- The additions of a name: one, when the class has no method of it, or none. -/
theorem PlanFor.additions (h : PlanFor σ target source plan) (name : String) :
    (∃ e, planned plan name = some e ∧ e.target = none ∧ σ.namedMethods target name = [] ∧
      (Runtime.additions (plan.map PlanEntry.toReloadEntry)).filter (fun m => m.name = name) =
        [e.toReloadEntry.method]) ∨
    (∀ e, planned plan name = some e → e.target ≠ none) ∧
      (Runtime.additions (plan.map PlanEntry.toReloadEntry)).filter (fun m => m.name = name) = [] := by
  rw [filter_additions h.distinct]
  cases hplanned : planned plan name with
  | none => exact .inr ⟨by simp, rfl⟩
  | some e =>
    have hname : selGetName e.selector = name := by simpa using List.find?_some hplanned
    cases htarget : e.target with
    | some m => exact .inr ⟨by simp [htarget], by simp [htarget]⟩
    | none =>
      refine .inl ⟨e, rfl, htarget, ?_, by simp [htarget]⟩
      have hnone := (h.target e (List.mem_of_find?_eq_some hplanned)).symm.trans htarget
      rw [hname] at hnone
      exact List.filter_eq_nil_iff.mpr (List.find?_eq_none.mp hnone)

/-- **A committed plan reloads its class.** -/
theorem PlanFor.reloaded (h : PlanFor σ target source plan)
    (hc : Committed σ σ' target (plan.map PlanEntry.toReloadEntry))
    (hfresh : ∀ m ∈ σ.methodsOf target, m < σ.nextMethod) : Reloaded σ σ' target (firstImp source) where
  replaced := by
    intro name imp hname
    rw [← h.first] at hname
    obtain ⟨e, he, rfl⟩ := Option.map_eq_some_iff.mp hname
    obtain ⟨added, hmethods, hadded⟩ := hc.namedMethods hfresh name
    rw [firstNamed_eq_head?, hmethods]
    rcases h.additions name with ⟨e', he', -, -, hadd⟩ | ⟨hold, hadd⟩
    · obtain rfl : e = e' := Option.some.inj (he.symm.trans he')
      rw [hadd] at hadded
      obtain ⟨m, rfl, hm⟩ := List.map_eq_singleton_iff.mp hadded
      exact ⟨m, rfl, by rw [hm]; rfl⟩
    · rw [hadd, List.map_eq_nil_iff] at hadded
      have hmem := List.mem_of_find?_eq_some he
      obtain ⟨m, htarget⟩ := Option.ne_none_iff_exists'.mp (hold e he)
      have hname : selGetName e.selector = name := by simpa using List.find?_some he
      refine ⟨m, ?_, ?_⟩
      · rw [hadded, List.nil_append, ← firstNamed_eq_head?, ← hname, ← h.target e hmem, htarget]
      · rw [hc.method m (hfresh m (h.target_name hmem htarget).1), h.replacedBy_of_target hmem htarget]
  kept := by
    intro name hname
    have hplanned := h.first name
    rw [hname, Option.map_eq_none_iff] at hplanned
    obtain ⟨added, hmethods, hadded⟩ := hc.namedMethods hfresh name
    constructor
    · rcases h.additions name with ⟨e, he, -⟩ | ⟨-, hadd⟩
      · cases hplanned.symm.trans he
      · rw [hadd, List.map_eq_nil_iff] at hadded
        rw [hmethods, hadded, List.nil_append]
    · intro m hm
      obtain ⟨hm, hmname⟩ := List.mem_filter.mp hm
      rw [hc.method m (hfresh m hm), h.replacedBy_of_none]
      rwa [of_decide_eq_true hmname]
  single := by
    intro name
    obtain ⟨added, hmethods, hadded⟩ := hc.namedMethods hfresh name
    have hlength := congrArg List.length hadded
    rw [List.length_map] at hlength
    rw [hmethods, List.length_append, hlength]
    rcases h.additions name with ⟨e, -, -, hnone, hadd⟩ | ⟨-, hadd⟩
    · rw [hadd, hnone]
      simp
    · rw [hadd]
      simp

end Plan

/-! ## Two commits, one after the other -/

/-- The methods of a class are as they were. -/
structure SameMethods (σ σ' : Runtime) (cls : Class) : Prop where
  methodLists : σ'.methodLists cls = σ.methodLists cls
  method : ∀ m ∈ σ.methodsOf cls, σ'.method m = σ.method m

theorem SameMethods.methodsOf {σ σ' : Runtime} {cls : Class} (h : SameMethods σ σ' cls) :
    σ'.methodsOf cls = σ.methodsOf cls := by rw [Runtime.methodsOf, h.methodLists, Runtime.methodsOf]

theorem SameMethods.namedMethods {σ σ' : Runtime} {cls : Class} (h : SameMethods σ σ' cls) (name : String) :
    σ'.namedMethods cls name = σ.namedMethods cls name := by
  rw [Runtime.namedMethods, h.methodsOf]
  exact List.filter_congr fun m hm => by rw [h.method m hm]

theorem SameMethods.firstNamed {σ σ' : Runtime} {cls : Class} (h : SameMethods σ σ' cls) (name : String) :
    σ'.firstNamed cls name = σ.firstNamed cls name := by
  rw [firstNamed_eq_head?, h.namedMethods, firstNamed_eq_head?]

theorem Reloaded.of_same {σ τ τ' σ' : Runtime} {cls : Class} {first : String → Option (Option Imp)}
    (h : Reloaded τ τ' cls first) (hbefore : SameMethods σ τ cls) (hafter : SameMethods τ' σ' cls) :
    Reloaded σ σ' cls first where
  replaced name imp hname := by
    obtain ⟨m, hm, himp⟩ := h.replaced name imp hname
    exact ⟨m, (hafter.firstNamed name).trans hm, by rw [hafter.method m (firstNamed_some hm).1, himp]⟩
  kept name hname := by
    obtain ⟨hmethods, hmethod⟩ := h.kept name hname
    refine ⟨(hafter.namedMethods name).trans (hmethods.trans (hbefore.namedMethods name)), fun m hm => ?_⟩
    rw [← hbefore.namedMethods] at hm
    have hm' : m ∈ τ'.methodsOf cls := (List.mem_filter.mp (hmethods ▸ hm)).1
    rw [hafter.method m hm', hmethod m hm, hbefore.method m (hbefore.methodsOf ▸ (List.mem_filter.mp hm).1)]
  single name := by
    rw [hafter.namedMethods, ← hbefore.namedMethods]
    exact h.single name

theorem SameMethods.trans {σ τ υ : Runtime} {cls : Class} (h : SameMethods σ τ cls)
    (h' : SameMethods τ υ cls) :
    SameMethods σ υ cls :=
  ⟨h'.methodLists.trans h.methodLists, fun m hm => (h'.method m (h.methodsOf ▸ hm)).trans (h.method m hm)⟩

theorem SameClasses.sameMethods {σ σ' : Runtime} (h : SameClasses σ σ') (cls : Class) :
    SameMethods σ σ' cls :=
  ⟨congrFun h.methodLists cls, fun m _ => congrFun h.method m⟩

/-- A commit leaves the methods of other classes alone. -/
theorem Committed.sameMethods {σ σ' : Runtime} {target cls : Class} {plan : List ReloadEntry}
    (hc : Committed σ σ' target plan) (hne : cls ≠ target) (hfresh : ∀ m ∈ σ.methodsOf cls, m < σ.nextMethod)
    (hother : ∀ e ∈ plan, ∀ m ∈ σ.methodsOf cls, e.target ≠ some m) : SameMethods σ σ' cls := by
  refine ⟨hc.methodLists_other cls hne, fun m hm => ?_⟩
  have hnone : plan.find? (fun e => e.target = some m) = none :=
    List.find?_eq_none.mpr fun e he htarget => hother e he m hm (of_decide_eq_true htarget)
  rw [hc.method m (hfresh m hm), replacedBy, hnone]

theorem PlanFor.of_same {σ σ' : Runtime} {target : Class} {source : List Incoming} {plan : List PlanEntry}
    (h : PlanFor σ target source plan) (hs : SameMethods σ σ' target) : PlanFor σ' target source plan :=
  ⟨h.distinct, fun e he => (h.target e he).trans (hs.firstNamed _).symm, h.first, h.selector⟩

/-- A loaded class that can be reloaded: the methods of the class and of its metaclass are their own,
    and neither is a superclass of the class. -/
structure Reloadable (σ : Runtime) (canonical : Class) : Prop where
  isa_ne : σ.isa canonical ≠ canonical
  fresh : ∀ m ∈ σ.methodsOf canonical, m < σ.nextMethod
  fresh_meta : ∀ m ∈ σ.methodsOf (σ.isa canonical), m < σ.nextMethod
  disjoint : ∀ m ∈ σ.methodsOf canonical, m ∉ σ.methodsOf (σ.isa canonical)
  superclasses : ∀ sup, σ.superClass canonical = some sup →
    ¬ Below σ.superClass sup canonical ∧ ¬ Below σ.superClass sup (σ.isa canonical)

/-- So can every class of a well-formed runtime. -/
theorem WellFormed.reloadable {σ : Runtime} (hw : WellFormed σ) {canonical : Class}
    (hlt : canonical < σ.classCount) (hcls : σ.isMeta canonical = false) : Reloadable σ canonical where
  isa_ne h := by
    have := (hw.isa_meta canonical hlt hcls).1
    rw [h, hcls] at this
    cases this
  fresh := hw.fresh canonical
  fresh_meta := hw.fresh _
  disjoint m hm hm' := by
    have := (hw.isa_meta canonical hlt hcls).1
    rw [← hw.owned_once _ _ m hm hm', hcls] at this
    cases this
  superclasses sup hsup := by
    refine ⟨hw.acyclic canonical sup hsup, fun h => ?_⟩
    have := hw.below_class (hw.super_class canonical sup hsup hcls) h
    rw [(hw.isa_meta canonical hlt hcls).1] at this
    cases this

/-- **Both plans of a reload do what they should**, although the second is committed to what the
    first has left. -/
theorem Reloadable.commits {σ : Runtime} {canonical : Class} (hr : Reloadable σ canonical)
    {instanceMethods classMethods : List Incoming} {instancePlan classPlan : List PlanEntry}
    (hi : PlanFor σ canonical instanceMethods instancePlan)
    (hc : PlanFor σ (σ.isa canonical) classMethods classPlan) {σ₁ σ₂ : Runtime}
    (h₁ : σ₁ = σ.commitPlan T canonical (instancePlan.map PlanEntry.toReloadEntry))
    (h₂ : σ₂ = σ₁.commitPlan T (σ₁.isa canonical) (classPlan.map PlanEntry.toReloadEntry)) :
    σ₂.isa canonical = σ.isa canonical ∧ Reloaded σ σ₂ canonical (firstImp instanceMethods) ∧
      Reloaded σ σ₂ (σ.isa canonical) (firstImp classMethods) := by
  have hcommit := hi.committed (T := T) hr.fresh
  rw [← h₁] at hcommit
  have hmeta : SameMethods σ σ₁ (σ.isa canonical) := by
    refine hcommit.sameMethods hr.isa_ne hr.fresh_meta fun entry hentry m hm htarget => ?_
    obtain ⟨e, he, rfl⟩ := List.mem_map.mp hentry
    exact hr.disjoint m (hi.target_name he htarget).1 hm
  have hfresh : ∀ m ∈ σ₁.methodsOf (σ.isa canonical), m < σ₁.nextMethod := fun m hm =>
    (hr.fresh_meta m (hmeta.methodsOf ▸ hm)).trans_le hcommit.next
  have hc₁ := hc.of_same hmeta
  have hisa : σ₁.isa canonical = σ.isa canonical := congrFun hcommit.isa canonical
  have hcommit' := hc₁.committed (T := T) hfresh
  rw [hisa] at h₂
  rw [← h₂] at hcommit'
  have hinst : SameMethods σ₁ σ₂ canonical := by
    obtain ⟨added, hlists, -, hadded⟩ := hcommit.methodsOf_target
    refine hcommit'.sameMethods hr.isa_ne.symm (fun m hm => ?_) fun entry hentry m hm htarget => ?_
    · rw [hlists] at hm
      rcases List.mem_append.mp hm with hm | hm
      · exact (hadded m hm).2
      · exact (hr.fresh m hm).trans_le hcommit.next
    · obtain ⟨e, he, rfl⟩ := List.mem_map.mp hentry
      have hmem := (hc.target_name he htarget).1
      rw [hlists] at hm
      rcases List.mem_append.mp hm with hm | hm
      · exact absurd (hr.fresh_meta m hmem) (hadded m hm).1.not_gt
      · exact hr.disjoint m hm hmem
  have hsame : ∀ (τ : Runtime) (cls : Class), SameMethods τ τ cls := fun _ _ => ⟨rfl, fun _ _ => rfl⟩
  exact ⟨(congrFun hcommit'.isa canonical).trans hisa,
    (hi.reloaded hcommit hr.fresh).of_same (hsame σ canonical) hinst,
    (hc₁.reloaded hcommit' hfresh).of_same hmeta (hsame σ₂ _)⟩

/-! ## Layouts -/

/-- Computing the offsets of a class changes the layouts of its superclasses only. -/
theorem computeIvarOffsets_frame {superClass : Class → Option Class} : ∀ {fuel : ℕ} {L L' : Layouts}
    {super : Option Class} {layout layout' : ClassLayout},
    computeIvarOffsets superClass fuel L super layout = some (L', layout') →
    ∀ cls, (∀ sup, super = some sup → ¬ Below superClass sup cls) → L' cls = L cls
  | 0, _, _, _, _, _, h, _, _ => by cases h
  | fuel + 1, L, L', super, layout, layout', h, cls, hcls => by
    have hplace : ∀ {L₁ : Layouts} {start : ℤ} {ivars : IvarList},
        (placeIvars start ivars).map (fun layout => (L₁, layout)) = some (L', layout') → L' = L₁ := by
      intro L₁ start ivars hmap
      obtain ⟨_, _, heq⟩ := Option.map_eq_some_iff.mp hmap
      exact (Prod.mk.inj heq).1.symm
    rw [computeIvarOffsets] at h
    split at h
    · rw [← (Prod.mk.inj (Option.some.inj h)).1]
    · split_ifs at h with _ hpos
      · rw [← (Prod.mk.inj (Option.some.inj h)).1]
      · split at h
        · rw [hplace h]
        · next sup =>
          split_ifs at h
          · rw [hplace h]
          · -- the superclass is computed first
            obtain ⟨⟨L₁, supLayout⟩, hrec, hrest⟩ := Option.bind_eq_some_iff.mp h
            have hne : cls ≠ sup := by
              rintro rfl
              exact hcls cls rfl (Below.refl cls)
            rw [hplace hrest, Function.update_of_ne hne]
            exact computeIvarOffsets_frame hrec cls fun sup' hsup' hbelow =>
              hcls sup rfl ((Below.of_parent hsup').trans hbelow)

theorem Reloadable.layouts {fails : Allocation → Bool} {classNamed : String → Option Class} {σ : Runtime}
    {canonical : Class} (hr : Reloadable σ canonical) {L L' : Layouts} {candidate : CandidateClass}
    {reason : Option String}
    (h : σ.safeReloadLayoutMatches fails classNamed L candidate canonical = some (L', reason)) {cls : Class}
    (hcls : cls = canonical ∨ cls = σ.isa canonical) : L' cls = L cls := by
  rw [safeReloadLayoutMatches] at h
  dsimp only at h
  split_ifs at h
  · rw [← (Prod.mk.inj (Option.some.inj h)).1]
  · rw [← (Prod.mk.inj (Option.some.inj h)).1]
  · obtain ⟨⟨L₁, normalized⟩, hcompute, heq⟩ := Option.map_eq_some_iff.mp h
    rw [← (Prod.mk.inj heq).1]
    refine computeIvarOffsets_frame hcompute cls fun sup hsup => ?_
    rcases hcls with rfl | rfl
    · exact (hr.superclasses sup hsup).1
    · exact (hr.superclasses sup hsup).2

/-! ## The whole reload -/

/-- The first implementation of each name of a candidate. -/
def candidateImp (source : List CandidateMethod) (name : String) : Option (Option Imp) :=
  (source.find? fun m => m.name = name).map (·.imp)

/-- A class is as it was: its methods, its layout, its caches and its table. -/
structure Untouched (σ : Runtime) (L : Layouts) (result : ReloadResult) (cls : Class) : Prop extends
    SameMethods σ result.runtime cls where
  layout : result.layouts cls = L cls
  cxxConstruct : result.runtime.cxxConstruct cls = σ.cxxConstruct cls
  cxxDestruct : result.runtime.cxxDestruct cls = σ.cxxDestruct cls
  dtable : result.runtime.dtable cls = σ.dtable cls

section Reload

variable (T) (fails : Allocation → Bool) (classNamed : String → Option Class) (σ : Runtime) (L : Layouts)
  (candidate : CandidateClass) (canonical : Class)

/-- A reload is all or nothing; and it comes to an end when the comparison of the layouts does. -/
structure AllOrNothing : Prop where
  returns : σ.safeReloadLayoutMatches fails classNamed L candidate canonical ≠ none →
    σ.safeReloadClass T fails classNamed L candidate canonical ≠ none
  rejected : ∀ result, σ.safeReloadClass T fails classNamed L candidate canonical = some result →
    result.rejected ≠ none → Untouched σ L result canonical ∧ Untouched σ L result (σ.isa canonical)
  accepted : ∀ result, σ.safeReloadClass T fails classNamed L candidate canonical = some result →
    result.rejected = none → ∃ classLists, candidate.metaclass = some classLists ∧
      Reloaded σ result.runtime canonical (candidateImp (methodsOfLists candidate.methodLists)) ∧
      Reloaded σ result.runtime (σ.isa canonical) (candidateImp (methodsOfLists classLists)) ∧
      result.layouts canonical = L canonical ∧ result.layouts (σ.isa canonical) = L (σ.isa canonical)

/-- Every selector of the candidate is registered already or gets its memory. -/
def Registers : Prop :=
  (∀ i < (methodsOfLists candidate.methodLists).length, fails (.selector false i) = false) ∧
  ∀ classLists, candidate.metaclass = some classLists →
    ∀ i < (methodsOfLists classLists).length, fails (.selector true i) = false

/-- The reload gets to its commits: nothing is wrong with the metaclasses, the layouts and the plans. -/
def Commits : Prop :=
  ∃ classLists L' instancePlan classPlan, candidate.metaclass = some classLists ∧
    σ.safeReloadLayoutMatches fails classNamed L candidate canonical = some (L', none) ∧
    σ.safeReloadPreparePlan fails false canonical candidate.methodLists
      (registerSelectors fails false (methodsOfLists candidate.methodLists)) = .ok instancePlan ∧
    σ.safeReloadPreparePlan fails true (σ.isa canonical) classLists
      (registerSelectors fails true (methodsOfLists classLists)) = .ok classPlan

/-- **What a reload does**: it ends in the comparison of the layouts, it is rejected without a change
    to the runtime, or it commits both plans. -/
theorem safeReloadClass_cases :
    σ.safeReloadLayoutMatches fails classNamed L candidate canonical = none ∧
        σ.safeReloadClass T fails classNamed L candidate canonical = none ∧
        ¬ Commits fails classNamed σ L candidate canonical ∨
    (∃ L' reason, σ.safeReloadClass T fails classNamed L candidate canonical = some ⟨σ, L', some reason⟩ ∧
        (L' = L ∨ ∃ reason,
          σ.safeReloadLayoutMatches fails classNamed L candidate canonical = some (L', reason)) ∧
        ¬ Commits fails classNamed σ L candidate canonical) ∨
    ∃ classLists L' instancePlan classPlan, candidate.metaclass = some classLists ∧
      σ.safeReloadLayoutMatches fails classNamed L candidate canonical = some (L', none) ∧
      σ.safeReloadPreparePlan fails false canonical candidate.methodLists
        (registerSelectors fails false (methodsOfLists candidate.methodLists)) = .ok instancePlan ∧
      σ.safeReloadPreparePlan fails true (σ.isa canonical) classLists
        (registerSelectors fails true (methodsOfLists classLists)) = .ok classPlan ∧
      σ.safeReloadClass T fails classNamed L candidate canonical =
        (σ.safeReloadCommitPlan T canonical instancePlan).bind fun σ' =>
          (σ'.safeReloadCommitPlan T (σ'.isa canonical) classPlan).map fun σ' =>
            ⟨(σ'.refreshReloadCxxCache canonical).refreshReloadCxxCache (σ'.isa canonical), L', none⟩ := by
  rw [safeReloadClass]
  cases hmeta : candidate.metaclass with
  | none =>
    refine .inr (.inl ⟨L, "metaclass", rfl, .inl rfl, ?_⟩)
    rintro ⟨classLists, _, _, _, h, -⟩
    cases hmeta.symm.trans h
  | some classLists =>
    cases hlayout : σ.safeReloadLayoutMatches fails classNamed L candidate canonical with
    | none =>
      refine .inl ⟨rfl, rfl, ?_⟩
      rintro ⟨_, _, _, _, -, h, -⟩
      cases hlayout.symm.trans h
    | some matched =>
      obtain ⟨L', reason⟩ := matched
      cases reason with
      | some reason =>
        refine .inr (.inl ⟨L', reason, rfl, .inr ⟨_, rfl⟩, ?_⟩)
        rintro ⟨_, _, _, _, -, h, -⟩
        cases hlayout.symm.trans h
      | none =>
        simp only [Option.bind_some]
        cases hi : σ.safeReloadPreparePlan fails false canonical candidate.methodLists
            (registerSelectors fails false (methodsOfLists candidate.methodLists)) with
        | error reason =>
          refine .inr (.inl ⟨L', reason, rfl, .inr ⟨_, rfl⟩, ?_⟩)
          rintro ⟨_, _, _, _, -, -, h, -⟩
          cases hi.symm.trans h
        | ok instancePlan =>
          cases hc : σ.safeReloadPreparePlan fails true (σ.isa canonical) classLists
              (registerSelectors fails true (methodsOfLists classLists)) with
          | error reason =>
            refine .inr (.inl ⟨L', reason, rfl, .inr ⟨_, rfl⟩, ?_⟩)
            rintro ⟨classLists', _, _, _, h, -, -, h'⟩
            obtain rfl : classLists = classLists' := Option.some.inj (hmeta.symm.trans h)
            cases hc.symm.trans h'
          | ok classPlan =>
            exact .inr (.inr ⟨classLists, L', instancePlan, classPlan, rfl, rfl, rfl, hc, rfl⟩)

end Reload

section Reload

variable {fails : Allocation → Bool} {classNamed : String → Option Class} {σ : Runtime} {L : Layouts}
  {candidate : CandidateClass} {canonical : Class}

/-- When all selectors are registered, the names are those of the candidate. -/
theorem firstImp_registerSelectors {isMeta : Bool} {source : List CandidateMethod}
    (h : ∀ i < source.length, fails (.selector isMeta i) = false) :
    firstImp (registerSelectors fails isMeta source) = candidateImp source := by
  have hmap : registerSelectors fails isMeta source = source.map fun m => ⟨some m.name, m.types, m.imp⟩ := by
    rw [registerSelectors]
    refine List.ext_getElem (by simp) fun i h₁ h₂ => ?_
    have hi : i < source.length := by simpa using h₂
    simp [h i hi]
  funext name
  rw [firstImp, candidateImp, hmap, List.find?_map, Option.map_map]
  rfl

theorem commitPlan_of_registered {target : Class} {incoming : List Incoming} {plan : List PlanEntry}
    (hplan : PlanFor σ target incoming plan) (h : ∀ m ∈ incoming, m.selector ≠ none) (τ : Runtime)
    (cls : Class) :
    τ.safeReloadCommitPlan T cls plan = some (τ.commitPlan T cls (plan.map PlanEntry.toReloadEntry)) := by
  rw [safeReloadCommitPlan, if_neg]
  rw [Bool.and_eq_true, List.any_eq_true]
  rintro ⟨-, e, he, hnull⟩
  obtain ⟨m, hm, hme⟩ := hplan.selector e he
  refine h m hm (hme.trans ?_)
  simp only [Bool.and_eq_true, Option.isNone_iff_eq_none] at hnull
  exact hnull.2

theorem selector_of_registered {isMeta : Bool} {source : List CandidateMethod}
    (h : ∀ i < source.length, fails (.selector isMeta i) = false) :
    ∀ m ∈ registerSelectors fails isMeta source, m.selector ≠ none := by
  intro m hm
  obtain ⟨⟨c, i⟩, hci, rfl⟩ := List.mem_map.mp hm
  have hi := (List.mem_zipIdx hci).2.1
  simp only [Nat.zero_add] at hi
  simp [h i hi]

theorem safeReloadCommitPlan_some {target : Class} {plan : List PlanEntry} {τ τ' : Runtime}
    (h : τ.safeReloadCommitPlan T target plan = some τ') :
    τ' = τ.commitPlan T target (plan.map PlanEntry.toReloadEntry) := by
  rw [safeReloadCommitPlan] at h
  split at h
  · cases h
  · exact (Option.some.inj h).symm

/-- What an accepted reload leaves. -/
theorem Reloadable.reloaded (hr : Reloadable σ canonical) {instanceMethods classMethods : List Incoming}
    {instancePlan classPlan : List PlanEntry} (hi : PlanFor σ canonical instanceMethods instancePlan)
    (hc : PlanFor σ (σ.isa canonical) classMethods classPlan) {L' : Layouts} {result : ReloadResult}
    (h : ((σ.safeReloadCommitPlan T canonical instancePlan).bind fun σ' =>
      (σ'.safeReloadCommitPlan T (σ'.isa canonical) classPlan).map fun σ' =>
        (⟨(σ'.refreshReloadCxxCache canonical).refreshReloadCxxCache (σ'.isa canonical), L', none⟩ :
          ReloadResult)) = some result) :
    result.rejected = none ∧ result.layouts = L' ∧
    Reloaded σ result.runtime canonical (firstImp instanceMethods) ∧
      Reloaded σ result.runtime (σ.isa canonical) (firstImp classMethods) := by
  obtain ⟨σ₁, h₁, h⟩ := Option.bind_eq_some_iff.mp h
  obtain ⟨σ₂, h₂, rfl⟩ := Option.map_eq_some_iff.mp h
  obtain ⟨-, hinst, hclass⟩ :=
    hr.commits hi hc (safeReloadCommitPlan_some h₁) (safeReloadCommitPlan_some h₂)
  have hsame := ((sameTables_refreshReloadCxxCache σ₂ canonical).trans
    (sameTables_refreshReloadCxxCache (σ₂.refreshReloadCxxCache canonical) (σ₂.isa canonical))).toSameClasses
  have hrefl : ∀ (τ : Runtime) (cls : Class), SameMethods τ τ cls := fun _ _ => ⟨rfl, fun _ _ => rfl⟩
  exact ⟨rfl, rfl, hinst.of_same (hrefl _ _) (hsame.sameMethods _),
      hclass.of_same (hrefl _ _) (hsame.sameMethods _)⟩

/-- The methods of a candidate that a plan can be made for, as they are once they are in a class. -/
def loadedMethods (incoming : List Incoming) : List Method :=
  incoming.filterMap fun m =>
    m.types.bind fun types => m.imp.map fun imp => ⟨selGetName m.selector, types, imp⟩

theorem planMethod_eq {target : Class} {plan plan' : List PlanEntry} {incoming : Incoming}
    (h : σ.planMethod target plan incoming = .ok plan') :
    ∃ method : Method, loadedMethods [incoming] = [method] ∧
      (if (plan.map PlanEntry.toReloadEntry).any fun e => e.method.name = method.name then
          some (plan.map PlanEntry.toReloadEntry)
        else if (σ.firstNamed target method.name).all fun m => (σ.method m).types = method.types then
          some (plan.map PlanEntry.toReloadEntry ++ [⟨σ.firstNamed target method.name, method⟩])
        else none) = some (plan'.map PlanEntry.toReloadEntry) := by
  rw [planMethod] at h
  split at h
  · next types imp htypes himp =>
    refine ⟨⟨selGetName incoming.selector, types, imp⟩, by simp [loadedMethods, htypes, himp], ?_⟩
    rw [List.any_map]
    dsimp only at h
    split at h
    · next hin =>
      obtain rfl := Except.ok.inj h
      exact if_pos hin
    · next hnew =>
      refine (if_neg hnew).trans ?_
      split at h
      · next hsame =>
        obtain rfl := Except.ok.inj h
        rw [if_pos hsame, List.map_append]
        rfl
      · cases h
  · cases h

/-- A plan that is prepared is the plan of `preparePlan`. -/
theorem preparePlan_eq {target : Class} {lists : List CandidateList} {isMeta : Bool} {plan : List PlanEntry}
    (h : σ.safeReloadPreparePlan fails isMeta target lists
      (registerSelectors fails isMeta (methodsOfLists lists)) = .ok plan) :
    σ.preparePlan target (loadedMethods (registerSelectors fails isMeta (methodsOfLists lists))) =
      some (plan.map PlanEntry.toReloadEntry) := by
  have hfold : ∀ (incoming : List Incoming) (start : List PlanEntry),
      incoming.foldlM (σ.planMethod target) start = .ok plan →
      (loadedMethods incoming).foldlM (fun plan incoming =>
        if plan.any fun e => e.method.name = incoming.name then some plan
        else
          let existing := σ.firstNamed target incoming.name
          if existing.all fun m => (σ.method m).types = incoming.types then
            some (plan ++ [⟨existing, incoming⟩])
          else none) (start.map PlanEntry.toReloadEntry) = some (plan.map PlanEntry.toReloadEntry) := by
    intro incoming
    induction incoming with
    | nil =>
      intro start h
      obtain rfl := Except.ok.inj h
      rfl
    | cons m incoming ih =>
      intro start h
      rw [List.foldlM_cons] at h
      cases hone : σ.planMethod target start m with
      | error reason =>
        rw [hone] at h
        cases h
      | ok next =>
        rw [hone] at h
        obtain ⟨method, hmethod, hstep⟩ := planMethod_eq hone
        have hcons : loadedMethods (m :: incoming) = method :: loadedMethods incoming := by
          rw [show m :: incoming = [m] ++ incoming from rfl, loadedMethods, List.filterMap_append]
          exact congrArg (· ++ loadedMethods incoming) hmethod
        rw [hcons, List.foldlM_cons]
        dsimp only
        rw [hstep]
        exact ih next h
  rw [safeReloadPreparePlan] at h
  split at h
  · cases h
  · next total htotal =>
    split_ifs at h with hzero
    · obtain rfl := Except.ok.inj h
      have : methodsOfLists lists = [] := List.eq_nil_of_length_eq_zero ((length_of_count htotal).trans hzero)
      rw [this]
      rfl
    · cases hentries : (registerSelectors fails isMeta (methodsOfLists lists)).foldlM
          (σ.planMethod target) [] with
      | error reason =>
        rw [hentries] at h
        cases h
      | ok entries =>
        rw [hentries] at h
        obtain rfl := allocateAdditions_ok h
        exact hfold _ [] hentries

/-- **An accepted reload is `Runtime.safeReload`** on the methods of the candidate. -/
theorem safeReloadClass_eq_safeReload {result : ReloadResult}
    (h : σ.safeReloadClass T fails classNamed L candidate canonical = some result)
    (hrej : result.rejected = none) :
    ∃ classLists, candidate.metaclass = some classLists ∧ result.runtime = σ.safeReload T canonical
      (loadedMethods (registerSelectors fails false (methodsOfLists candidate.methodLists)))
      (loadedMethods (registerSelectors fails true (methodsOfLists classLists))) := by
  rcases safeReloadClass_cases T fails classNamed σ L candidate canonical with
    ⟨-, hresult, -⟩ | ⟨L', reason, hresult, -⟩ |
      ⟨classLists, L', instancePlan, classPlan, hmeta, -, hi, hc, hresult⟩
  · cases hresult.symm.trans h
  · obtain rfl := Option.some.inj (hresult.symm.trans h)
    cases hrej
  · refine ⟨classLists, hmeta, ?_⟩
    obtain ⟨σ₁, h₁, hrest⟩ := Option.bind_eq_some_iff.mp (hresult.symm.trans h)
    obtain ⟨σ₂, h₂, rfl⟩ := Option.map_eq_some_iff.mp hrest
    rw [safeReload, preparePlan_eq hi, preparePlan_eq hc, safeReloadCommitPlan_some h₂,
      safeReloadCommitPlan_some h₁, commitPlan_isa]

/-- The name that `sel_getName` has for the null selector is the name of no method. -/
def NullUnused (σ : Runtime) (candidate : CandidateClass) (canonical : Class) : Prop :=
  (∀ cls, cls = canonical ∨ cls = σ.isa canonical →
    ∀ m ∈ σ.methodsOf cls, (σ.method m).name ≠ selGetName none) ∧
  (∀ m ∈ methodsOfLists candidate.methodLists, m.name ≠ selGetName none) ∧
  ∀ classLists, candidate.metaclass = some classLists → ∀ m ∈ methodsOfLists classLists,
  m.name ≠ selGetName none

/-- A selector that could not be registered adds a method under the null selector's name. -/
theorem not_reloaded_of_null {isMeta : Bool} {source : List CandidateMethod} {σ' : Runtime} {cls : Class}
    (hnames : ∀ m ∈ source, m.name ≠ selGetName none)
    (hmethods : ∀ m ∈ σ.methodsOf cls, (σ.method m).name ≠ selGetName none)
    {i : ℕ} (hi : i < source.length) (hfails : fails (.selector isMeta i) = true)
    (h : Reloaded σ σ' cls (firstImp (registerSelectors fails isMeta source))) :
    ¬ Reloaded σ σ' cls (candidateImp source) := by
  intro h'
  have hmem : (⟨none, (source[i]).types, (source[i]).imp⟩ : Incoming) ∈ registerSelectors fails
      isMeta source := by
    refine List.mem_map.mpr ⟨(source[i], i), ?_, by simp [hfails]⟩
    rw [List.mem_zipIdx_iff_getElem?]
    exact List.getElem?_eq_getElem hi
  have hsome : (firstImp (registerSelectors fails isMeta source) (selGetName none)).isSome := by
    rw [firstImp, Option.isSome_map, List.find?_isSome]
    exact ⟨_, hmem, by simp⟩
  obtain ⟨imp, himp⟩ := Option.isSome_iff_exists.mp hsome
  obtain ⟨m, hm, -⟩ := h.replaced _ imp himp
  have hnone : candidateImp source (selGetName none) = none := by
    rw [candidateImp, Option.map_eq_none_iff, List.find?_eq_none]
    exact fun m hm => by simpa using hnames m hm
  have hold : σ.namedMethods cls (selGetName none) = [] :=
    List.filter_eq_nil_iff.mpr fun m hm => by simpa using hmethods m hm
  rw [firstNamed_eq_head?, (h'.kept _ hnone).1, hold] at hm
  cases hm

/-- A reload is all or nothing if, whenever it gets to its commits, all selectors of the candidate are
    registered; and, unless `<null selector>` is the name of a method, only if they are. -/
theorem safeReload_allOrNothing (hr : Reloadable σ canonical) :
    ((Commits fails classNamed σ L candidate canonical → Registers fails candidate) →
      AllOrNothing T fails classNamed σ L candidate canonical) ∧
    (NullUnused σ candidate canonical → AllOrNothing T fails classNamed σ L candidate canonical →
      Commits fails classNamed σ L candidate canonical → Registers fails candidate) := by
  constructor
  · intro h
    rcases safeReloadClass_cases T fails classNamed σ L candidate canonical with
      ⟨hnone, hresult, -⟩ | ⟨L', reason, hresult, hL, -⟩ |
        ⟨classLists, L', instancePlan, classPlan, hmeta, hlayout, hi, hc, hresult⟩
    · exact ⟨fun h => absurd hnone h, fun _ h => (by cases hresult.symm.trans h), fun _ h =>
          (by cases hresult.symm.trans h)⟩
    · refine ⟨fun _ hnone => (by cases hresult.symm.trans hnone), fun result h _ => ?_,
          fun result h hrej => ?_⟩
      · obtain rfl := Option.some.inj (hresult.symm.trans h)
        have hlayouts : ∀ cls, cls = canonical ∨ cls = σ.isa canonical → L' cls = L cls := by
          intro cls hcls
          rcases hL with rfl | ⟨_, hL⟩
          · rfl
          · exact hr.layouts hL hcls
        exact ⟨⟨⟨rfl, fun _ _ => rfl⟩, hlayouts _ (.inl rfl), rfl, rfl, rfl⟩,
          ⟨⟨rfl, fun _ _ => rfl⟩, hlayouts _ (.inr rfl), rfl, rfl, rfl⟩⟩
      · obtain rfl := Option.some.inj (hresult.symm.trans h)
        cases hrej
    · obtain ⟨hreg, hreg'⟩ := h ⟨classLists, L', instancePlan, classPlan, hmeta, hlayout, hi, hc⟩
      have hi := prepared_plan hi
      have hc := prepared_plan hc
      have hreg' := hreg' classLists hmeta
      refine ⟨fun _ => ?_, fun result h hrej => ?_, fun result h _ => ?_⟩
      · rw [hresult, commitPlan_of_registered hi (selector_of_registered hreg), Option.bind_some,
          commitPlan_of_registered hc (selector_of_registered hreg')]
        exact Option.some_ne_none _
      · exact absurd (hr.reloaded hi hc (hresult.symm.trans h)).1 hrej
      · obtain ⟨-, hlayouts, hinst, hclass⟩ := hr.reloaded hi hc (hresult.symm.trans h)
        rw [firstImp_registerSelectors hreg] at hinst
        rw [firstImp_registerSelectors hreg'] at hclass
        rw [hlayouts]
        exact ⟨classLists, hmeta, hinst, hclass, hr.layouts hlayout (.inl rfl), hr.layouts hlayout (.inr rfl)⟩
  · rintro ⟨hmethods, hinstNames, hclassNames⟩ hall hcommits
    rcases safeReloadClass_cases T fails classNamed σ L candidate canonical with
      ⟨-, -, hno⟩ | ⟨_, _, _, _, hno⟩ |
        ⟨classLists, L', instancePlan, classPlan, hmeta, hlayout, hi, hc, hresult⟩
    · exact absurd hcommits hno
    · exact absurd hcommits hno
    · obtain ⟨result, h⟩ := Option.ne_none_iff_exists'.mp (hall.returns (by simp [hlayout]))
      obtain ⟨hrej, -, hinst, hclass⟩ :=
        hr.reloaded (prepared_plan hi) (prepared_plan hc) (hresult.symm.trans h)
      obtain ⟨classLists', hmeta', hinst', hclass', -⟩ := hall.accepted result h hrej
      obtain rfl : classLists = classLists' := Option.some.inj (hmeta.symm.trans hmeta')
      refine ⟨fun i hlt => Bool.eq_false_iff.mpr fun hfails => ?_, fun lists hlists i hlt =>
        Bool.eq_false_iff.mpr fun hfails => ?_⟩
      · exact not_reloaded_of_null hinstNames (hmethods _ (.inl rfl)) hlt hfails hinst hinst'
      · obtain rfl : classLists = lists := Option.some.inj (hmeta.symm.trans hlists)
        exact not_reloaded_of_null (hclassNames _ hmeta) (hmethods _ (.inr rfl)) hlt hfails hclass hclass'

end Reload

/-! ## A selector that is not registered -/

/-- A subclass of the class 0 that has grown by a method `bar`. -/
def grownChild : CandidateClass where
  superClass := some "Root"
  layout := ⟨8, none⟩
  methodLists := [⟨1, 24, fun _ => ⟨"bar", some "v16@0:8", some 7⟩⟩]
  metaclass := some []

/-- The class 2 has instances of one word. -/
def wordLayouts : Layouts := fun _ => ⟨8, none⟩

def oneRoot (name : String) : Option Class := if name = "Root" then some 0 else none

/-- With all allocations succeeding, `bar` comes to the class. -/
theorem safeReload_grownChild :
    AllOrNothing (SelectorTable.coded id) (fun _ => false) oneRoot (rootAndChild [] []) wordLayouts
    grownChild 2 :=
  (safeReload_allOrNothing ((rootAndChild_loaded [] []).wellFormed.reloadable (by decide) (by decide))).1
    fun _ => ⟨fun _ _ => rfl, fun _ _ _ _ => rfl⟩

/-- Without memory for its selector, the reload is accepted and `bar` does not. -/
theorem safeReload_nullSelector :
    ¬ AllOrNothing (SelectorTable.coded id) (fun site => site = .selector false 0) oneRoot
    (rootAndChild [] [])
      wordLayouts grownChild 2 := by
  intro h
  have hsome : ((rootAndChild [] []).safeReloadClass (SelectorTable.coded id)
      (fun site => site = .selector false 0)
      oneRoot wordLayouts grownChild 2).any (fun result =>
        result.rejected.isNone && (result.runtime.firstNamed 2 "bar").isNone) = true := by decide
  obtain ⟨result, hresult, hchecks⟩ := (Option.any_eq_true ..).mp hsome
  obtain ⟨hrej, hbar⟩ := Bool.and_eq_true_iff.mp hchecks
  obtain ⟨_, _, hreloaded, -⟩ := h.accepted result hresult (Option.isNone_iff_eq_none.mp hrej)
  obtain ⟨m, hm, -⟩ := hreloaded.replaced "bar" (some 7) (by decide)
  rw [hm] at hbar
  cases hbar

end Runtime

end Libobjc2.Dispatch
