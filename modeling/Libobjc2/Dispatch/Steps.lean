import Mathlib.Data.List.Find
import Libobjc2.Common.Run
import Libobjc2.Dispatch.Hierarchy

/-!
# The steps of the mutations

Every call of `Op` is made of a few kinds of steps: tables are created, a method list is added to
a class and its methods are installed one by one, an implementation is replaced. An invariant
is proved for these steps, and `StepRules.next` derives it for the calls.

Results:
* `mem_collectMethods`: the temporary array holds, for each selector, the last method of the first
  list that has it.
* `StepRules.next`: what the steps keep, the calls keep.
* `WellFormed.next`: the calls keep hierarchies well formed.
-/

namespace Libobjc2.Dispatch

open Libobjc2.Common

/-! ## Temporary arrays -/

namespace MethodArray

/-- Increasing indices. -/
def Sorted (es : MethodArray) : Prop := es.Pairwise fun e e' => e.1 < e'.1

theorem mem_insert {es : MethodArray} (hs : es.Sorted) (index : ℕ) (m : MethodId) (e : ℕ × MethodId) :
    e ∈ es.insert index m ↔ e = (index, m) ∨ e ∈ es ∧ e.1 ≠ index := by
  induction es with
  | nil => simp [insert]
  | cons x es ih =>
    obtain ⟨hx, hs⟩ := List.pairwise_cons.mp hs
    rw [insert]
    split
    · next hlt =>
      rw [List.mem_cons]
      refine or_congr_right ⟨fun h => ⟨h, ?_⟩, fun h => h.1⟩
      rcases List.mem_cons.mp h with rfl | h
      · omega
      · have := hx e h
        omega
    · split
      · next _ heq =>
        rw [List.mem_cons]
        refine or_congr_right ⟨fun h => ⟨by simp [h], ?_⟩, fun ⟨h, hne⟩ => ?_⟩
        · have := hx e h
          omega
        · rcases List.mem_cons.mp h with rfl | h
          · exact absurd heq.symm hne
          · exact h
      · next hlt hne =>
        rw [List.mem_cons, List.mem_cons, ih hs]
        constructor
        · rintro (rfl | h | ⟨h, h'⟩)
          · exact .inr ⟨.inl rfl, fun h => hne h.symm⟩
          · exact .inl h
          · exact .inr ⟨.inr h, h'⟩
        · rintro (h | ⟨h | h, h'⟩)
          · exact .inr (.inl h)
          · exact .inl h
          · exact .inr (.inr ⟨h, h'⟩)

theorem sorted_insert {es : MethodArray} (hs : es.Sorted) (index : ℕ) (m : MethodId) :
    (es.insert index m).Sorted := by
  induction es with
  | nil => simp [insert, Sorted]
  | cons x es ih =>
    obtain ⟨hx, hs'⟩ := List.pairwise_cons.mp hs
    rw [insert]
    split
    · next hlt =>
      refine List.pairwise_cons.mpr ⟨fun e he => ?_, hs⟩
      rcases List.mem_cons.mp he with rfl | he
      · exact hlt
      · exact hlt.trans (hx e he)
    · split
      · next _ heq =>
        refine List.pairwise_cons.mpr ⟨fun e he => ?_, hs'⟩
        rw [heq]
        exact hx e he
      · next hlt hne =>
        refine List.pairwise_cons.mpr ⟨fun e he => ?_, ih hs'⟩
        rcases (mem_insert hs' index m e).mp he with rfl | ⟨he, _⟩
        · dsimp only
          omega
        · exact hx e he

end MethodArray

namespace Runtime

variable {T : SelectorTable}

/-- What `collectMethods` keeps for a selector: the last method in the first list that has one. -/
def collectedAt (T : SelectorTable) (method : MethodId → Method) (lists : List (List MethodId)) (key : ℕ) :
    Option MethodId :=
  lists.findSome? fun list => list.reverse.find? fun m => T.typed (method m) = key

theorem mem_collectList {σ : Runtime} (list : List MethodId) {acc : MethodArray} (hs : acc.Sorted) :
    (list.foldl (fun methods m => methods.insert (T.typed (σ.method m)) m) acc).Sorted ∧
    ∀ key m, (key, m) ∈ list.foldl (fun methods m => methods.insert (T.typed (σ.method m)) m) acc ↔
      (list.reverse.find? fun m => T.typed (σ.method m) = key) = some m ∨
      (list.reverse.find? fun m => T.typed (σ.method m) = key) = none ∧ (key, m) ∈ acc := by
  induction list using List.reverseRecOn with
  | nil => simpa using hs
  | append_singleton list x ih =>
    obtain ⟨hsort, hmem⟩ := ih
    rw [List.foldl_append, List.foldl_cons, List.foldl_nil]
    refine ⟨MethodArray.sorted_insert hsort _ _, fun key m => ?_⟩
    rw [MethodArray.mem_insert hsort, hmem, List.reverse_append, List.reverse_singleton,
      List.singleton_append,
      List.find?_cons]
    by_cases hx : T.typed (σ.method x) = key
    · simp [hx, eq_comm]
    · have : ¬ (key = T.typed (σ.method x) ∧ m = x) := fun h => hx h.1.symm
      simp only [hx, decide_false, Prod.mk.injEq, this, false_or]
      exact ⟨fun h => h.1, fun h => ⟨h, fun h' => hx h'.symm⟩⟩

theorem mem_collectMethods {σ : Runtime} (lists : List (List MethodId)) :
    (σ.collectMethods T lists []).Sorted ∧
    ∀ key m, (key, m) ∈ σ.collectMethods T lists [] ↔ collectedAt T σ.method lists key = some m := by
  induction lists with
  | nil => simp [collectMethods, collectedAt, MethodArray.Sorted]
  | cons list lists ih =>
    obtain ⟨hsort, hmem⟩ := ih
    obtain ⟨hsort', hmem'⟩ := mem_collectList (T := T) (σ := σ) list hsort
    have heq : σ.collectMethods T (list :: lists) [] =
        list.foldl (fun methods m => methods.insert (T.typed (σ.method m)) m)
        (σ.collectMethods T lists []) := by
      rw [collectMethods, collectMethods, List.reverse_cons, List.foldl_append, List.foldl_cons,
        List.foldl_nil]
    rw [heq]
    refine ⟨hsort', fun key m => ?_⟩
    have hcons : collectedAt T σ.method (list :: lists) key =
        ((list.reverse.find? fun m => T.typed (σ.method m) = key).or (collectedAt T σ.method lists key)) := by
      rw [collectedAt, List.findSome?_cons]
      cases (list.reverse.find? fun m => T.typed (σ.method m) = key) <;> rfl
    rw [hmem', hmem, hcons]
    cases (list.reverse.find? fun m => T.typed (σ.method m) = key) <;> simp

/-- A collected method is in one of the lists, under its own selector. -/
theorem collectedAt_some {method : MethodId → Method} {lists : List (List MethodId)} {key : ℕ} {m : MethodId}
    (h : collectedAt T method lists key = some m) : m ∈ lists.flatten ∧ T.typed (method m) = key := by
  obtain ⟨list, hl, hm⟩ := List.exists_of_findSome?_eq_some h
  refine ⟨List.mem_flatten.mpr ⟨list, hl, List.mem_reverse.mp (List.mem_of_find?_eq_some hm)⟩, ?_⟩
  simpa using List.find?_some hm

theorem mem_of_mem_collectMethods {σ : Runtime} {lists : List (List MethodId)} {e : ℕ × MethodId}
    (h : e ∈ σ.collectMethods T lists []) : e.2 ∈ lists.flatten :=
  (collectedAt_some (((mem_collectMethods lists).2 e.1 e.2).mp h)).1

/-- The array has at most one method for a selector. -/
theorem collected_split (σ : Runtime) (lists : List (List MethodId)) (key : ℕ) :
    (collectedAt T σ.method lists key = none ∧
      ∀ m ∈ (σ.collectMethods T lists []).map Prod.snd, T.typed (σ.method m) ≠ key) ∨
    ∃ m before after, collectedAt T σ.method lists key = some m ∧
      (σ.collectMethods T lists []).map Prod.snd = before ++ m :: after ∧
      (∀ y ∈ before, T.typed (σ.method y) < key) ∧ ∀ y ∈ after, key < T.typed (σ.method y) := by
  obtain ⟨hsort, hmem⟩ := mem_collectMethods (T := T) (σ := σ) lists
  have hkey : ∀ e ∈ σ.collectMethods T lists [], T.typed (σ.method e.2) = e.1 := fun e he =>
    (collectedAt_some ((hmem e.1 e.2).mp he)).2
  cases hc : collectedAt T σ.method lists key with
  | none =>
    refine .inl ⟨rfl, fun m hm hk => ?_⟩
    obtain ⟨e, he, rfl⟩ := List.mem_map.mp hm
    rw [hkey e he] at hk
    have := (hmem e.1 e.2).mp he
    rw [hk, hc] at this
    cases this
  | some m =>
    obtain ⟨A, B, hAB⟩ := List.append_of_mem ((hmem key m).mpr hc)
    rw [hAB] at hsort hkey
    obtain ⟨_, hB, hA⟩ := List.pairwise_append.mp hsort
    refine .inr ⟨m, A.map Prod.snd, B.map Prod.snd, rfl, by simp [hAB], fun y hy => ?_, fun y hy => ?_⟩
    · obtain ⟨e, he, rfl⟩ := List.mem_map.mp hy
      rw [hkey e (by simp [he])]
      exact hA e he (key, m) (by simp)
    · obtain ⟨e, he, rfl⟩ := List.mem_map.mp hy
      rw [hkey e (by simp [he])]
      exact (List.pairwise_cons.mp hB).1 e he

/-! ## Methods by name -/

theorem firstNamed_some {σ : Runtime} {cls : Class} {name : String} {m : MethodId}
    (h : σ.firstNamed cls name = some m) : m ∈ σ.methodsOf cls ∧ (σ.method m).name = name :=
  ⟨List.mem_of_find?_eq_some h, by simpa using List.find?_some h⟩

/-- The name of a method stays, whatever its implementation is set to. -/
theorem name_setImp (σ : Runtime) (m : MethodId) (imp : Imp) (x : MethodId) :
    ((σ.setImp m imp).method x).name = (σ.method x).name := by
  unfold setImp
  dsimp only
  rw [Function.update_apply]
  split
  · next h => rw [h]
  · rfl

theorem firstNamed_setImp (σ : Runtime) (m : MethodId) (imp : Imp) (cls : Class) (name : String) :
    (σ.setImp m imp).firstNamed cls name = σ.firstNamed cls name := by
  unfold firstNamed
  exact List.find?_congr fun x _ => by rw [name_setImp]

/-! ## Adding a method list -/

/-- A list of new methods at the head of the lists of a class. -/
def pushed (σ : Runtime) (cls : Class) (list : List Method) : Runtime :=
  (σ.allocMethods list).1.pushMethodList cls (σ.allocMethods list).2

theorem pushed_method_of_lt (σ : Runtime) (cls : Class) (list : List Method) {m : MethodId}
    (hm : m < σ.nextMethod) : (σ.pushed cls list).method m = σ.method m := if_pos hm

theorem pushed_method_add (σ : Runtime) (cls : Class) (list : List Method) (i : ℕ) :
    (σ.pushed cls list).method (σ.nextMethod + i) = (list[i]?).getD (σ.method (σ.nextMethod + i)) := by
  rw [pushed]
  simp [allocMethods, pushMethodList]

theorem methodsOf_pushed (σ : Runtime) (cls : Class) (list : List Method) (c : Class) :
    (σ.pushed cls list).methodsOf c =
      if c = cls then List.range' σ.nextMethod list.length ++ σ.methodsOf cls else σ.methodsOf c := by
  simp only [methodsOf, pushed, pushMethodList, allocMethods, Function.update_apply]
  split
  · rfl
  · rfl

/-- Searches in the methods of a class: the new ones come first. -/
theorem find?_pushed {σ : Runtime} (cls : Class) (list : List Method) {c : Class}
    (hfresh : ∀ m ∈ σ.methodsOf c, m < σ.nextMethod) (P : Method → Bool) :
    (((σ.pushed cls list).methodsOf c).find? fun m => P ((σ.pushed cls list).method m)) =
      if c = cls then ((List.range' σ.nextMethod list.length).find? fun m =>
        P ((σ.pushed cls list).method m)).or ((σ.methodsOf c).find? fun m => P (σ.method m))
      else (σ.methodsOf c).find? fun m => P (σ.method m) := by
  have hold : ((σ.methodsOf c).find? fun m => P ((σ.pushed cls list).method m)) =
      (σ.methodsOf c).find? fun m => P (σ.method m) :=
    List.find?_congr fun m hm => by rw [pushed_method_of_lt σ cls list (hfresh m hm)]
  rw [methodsOf_pushed]
  split
  · next hc =>
    subst hc
    rw [List.find?_append, hold]
  · exact hold

/-- The new methods, as they were given. -/
theorem map_method_pushed (σ : Runtime) (cls : Class) (list : List Method) :
    (List.range' σ.nextMethod list.length).map (σ.pushed cls list).method = list := by
  apply List.ext_getElem
  · simp
  · intro i h₁ h₂
    rw [List.getElem_map, List.getElem_range', Nat.one_mul, pushed_method_add, List.getElem?_eq_getElem h₂,
      Option.getD_some]

theorem map_pushed {α : Type} (σ : Runtime) (cls : Class) (list : List Method) (f : Method → α) :
    (List.range' σ.nextMethod list.length).map (fun m => f ((σ.pushed cls list).method m)) = list.map f := by
  conv_rhs => rw [← map_method_pushed σ cls list, List.map_map]
  rfl

theorem mem_range'_pushed {σ : Runtime} {list : List Method} {m : MethodId}
    (hm : m ∈ List.range' σ.nextMethod list.length) (cls : Class) : (σ.pushed cls list).method m ∈ list := by
  have := List.mem_map_of_mem (f := (σ.pushed cls list).method) hm
  rwa [map_method_pushed] at this

theorem WellFormed.pushed {σ : Runtime} (hw : WellFormed σ) (cls : Class) (list : List Method) :
    WellFormed (σ.pushed cls list) where
  toForest := ⟨hw.acyclic, hw.bounded, hw.nodup, hw.mem_subclassList⟩
  toClassPairs := ⟨hw.isa_meta, hw.isa_inj, hw.super_class, hw.super_meta⟩
  live_up_off := hw.live_up_off
  live_meta := hw.live_meta
  fresh := by
    intro c m hm
    have hle : σ.nextMethod ≤ σ.nextMethod + list.length := Nat.le_add_right ..
    rw [methodsOf_pushed] at hm
    split at hm
    · rcases List.mem_append.mp hm with h | h
      · exact (List.mem_range'_1.mp h).2
      · exact (hw.fresh cls m h).trans_le hle
    · exact (hw.fresh c m hm).trans_le hle
  nodup_methods := by
    intro c
    rw [methodsOf_pushed]
    split
    · refine List.nodup_append.mpr ⟨List.nodup_range', hw.nodup_methods cls, ?_⟩
      rintro m hm m' hm' rfl
      exact absurd (hw.fresh cls m hm') (List.mem_range'_1.mp hm).1.not_gt
    · exact hw.nodup_methods c
  owned_once := by
    have key : ∀ c m, m ∈ (σ.pushed cls list).methodsOf c →
        m ∈ σ.methodsOf c ∨ c = cls ∧ ¬ m < σ.nextMethod := by
      intro c m hm
      rw [methodsOf_pushed] at hm
      split at hm
      · next hc =>
        rcases List.mem_append.mp hm with h | h
        · exact .inr ⟨hc, (List.mem_range'_1.mp h).1.not_gt⟩
        · exact .inl (hc ▸ h)
      · exact .inl hm
    intro c c' m hm hm'
    rcases key c m hm with h | ⟨rfl, h⟩ <;> rcases key c' m hm' with h' | ⟨rfl, h'⟩
    · exact hw.owned_once c c' m h h'
    · exact absurd (hw.fresh c m h) h'
    · exact absurd (hw.fresh c' m h') h
    · rfl

/-! ## Installing the methods of an array -/

/-- The table from which `installMethodsInClass` takes the methods to replace. -/
def superDtable (σ : Runtime) (cls : Class) : Option Dtable := (σ.superClass cls).bind σ.dtable

theorem superDtable_eq {σ : Runtime} (hup : LiveUp σ.superClass fun c => σ.dtable c ≠ none) {cls : Class}
    (hlive : σ.dtable cls ≠ none) : (σ.superClass cls).map σ.dtableForClass = σ.superDtable cls := by
  rw [superDtable]
  cases hp : σ.superClass cls with
  | none => rfl
  | some p =>
    obtain ⟨t, ht⟩ := Option.ne_none_iff_exists'.mp (hup cls p hlive hp)
    rw [Option.map_some, Option.bind_some, dtableForClass_eq ht, ht]

/-- The loop of `installMethodsInClass` over the methods of an array. -/
def installAll (T : SelectorTable) (cls : Class) (sup : Option Dtable) (σ : Runtime) (ms : List MethodId) :
    Runtime := ms.foldl (installOne T cls sup) σ

/-- Installing methods changes entries, never which classes have tables. -/
theorem installAll_frame {cls : Class} (sup : Option Dtable) :
    ∀ (ms : List MethodId) (σ : Runtime), Forest σ → σ.dtable cls ≠ none →
      SameClasses σ (installAll T cls sup σ ms) ∧ SameLive σ (installAll T cls sup σ ms) ∧
      σ.cacheVersion ≤ (installAll T cls sup σ ms).cacheVersion
  | [], σ, _, _ => ⟨SameClasses.refl σ, fun _ => Iff.rfl, le_rfl⟩
  | m :: ms, σ, hf, hlive => by
    obtain ⟨t, ht⟩ := Option.ne_none_iff_exists'.mp hlive
    have hone : SameClasses σ (installOne T cls sup σ m) ∧ SameLive σ (installOne T cls sup σ m) ∧
        σ.cacheVersion ≤ (installOne T cls sup σ m).cacheVersion := by
      rcases installOne_cases (T := T) hf ht sup m with ⟨_, h⟩ | ⟨_, hs, hv, hv', hst⟩
      · rw [h]
        exact ⟨SameClasses.refl σ, fun _ => Iff.rfl, le_rfl⟩
      · refine ⟨hs, fun n => (hst n).none_iff, ?_⟩
        · by_cases ho : t (T.typed (σ.method m)) = none
          · exact (hv ho).ge
          · exact (hv' ho).le
    obtain ⟨hs, hl, hv⟩ := hone
    obtain ⟨hs', hl', hv'⟩ := installAll_frame sup ms (installOne T cls sup σ m) (hf.of_same hs)
      ((not_congr (hl cls)).mpr hlive)
    exact ⟨hs.trans hs', fun n => (hl' n).trans (hl n), hv.trans hv'⟩

/-- The methods that are installed after a list of new methods has been added to a class with a
    table: those of `add_method_list_to_class`. -/
def addedMethods (T : SelectorTable) (σ : Runtime) (list : List MethodId) : List MethodId :=
  (σ.collectMethods T [list] []).map Prod.snd

/-- Those of `objc_update_dtable_for_class`. -/
def ownMethods (T : SelectorTable) (σ : Runtime) (cls : Class) : List MethodId :=
  (σ.collectMethods T (σ.methodLists cls) []).map Prod.snd

/-- The methods are installed, and the class is checked. -/
theorem addMethodListToClass_check {σ : Runtime} (hup : LiveUp σ.superClass fun c => σ.dtable c ≠ none)
    {cls : Class} (hlive : σ.dtable cls ≠ none) (list : List MethodId) :
    σ.addMethodListToClass T cls list =
      (installAll T cls (σ.superDtable cls) σ (σ.addedMethods T list)).checkARCAccessors T cls := by
  rw [addMethodListToClass, if_neg (by simp [classHasDtable, hlive, Option.isNone_iff_eq_none])]
  dsimp only
  rw [superDtable_eq hup hlive, installMethodsInClass_eq]
  rfl

theorem addMethodListToClass_eq {σ : Runtime} (hup : LiveUp σ.superClass fun c => σ.dtable c ≠ none)
    {cls : Class} (hlive : σ.dtable cls ≠ none) (list : List MethodId) :
    SameTables (installAll T cls (σ.superDtable cls) σ (σ.addedMethods T list))
      (σ.addMethodListToClass T cls list) := by
  rw [addMethodListToClass_check hup hlive]
  exact sameTables_checkARCAccessors ..

theorem updateDtableForClass_eq {σ : Runtime} (hup : LiveUp σ.superClass fun c => σ.dtable c ≠ none)
    {cls : Class} (hlive : σ.dtable cls ≠ none) :
    SameTables (installAll T cls (σ.superDtable cls) σ (σ.ownMethods T cls))
    (σ.updateDtableForClass T cls) := by
  rw [updateDtableForClass, if_neg (by simp [classHasDtable, hlive, Option.isNone_iff_eq_none])]
  dsimp only
  rw [superDtable_eq hup hlive, installMethodsInClass_eq]
  exact sameTables_checkARCAccessors ..

/-! ## From steps to calls -/

/-- The steps that the calls are made of, and what `I` needs to be kept by them: `sendOk` for a class
    that is sent a message, `growOk` for each class that gets a table, `pushOk` and `reloadOk` for
    new methods of a class, `moveOk` for a new superclass. -/
structure StepRules (T : SelectorTable) (I : Runtime → Prop) (sendOk growOk : Runtime → Class → Prop)
    (pushOk reloadOk : Runtime → Class → List Method → Prop)
    (moveOk : Runtime → Class → Class → Prop) : Prop where
  wellFormed : ∀ {σ}, I σ → WellFormed σ
  send : ∀ {σ cls}, I σ → sendOk σ cls → σ.Messageable cls
  same : ∀ {σ σ'}, I σ → SameTables σ σ' → I σ'
  setImp : ∀ {σ} m imp, I σ → I (σ.setImp m imp)
  grow : ∀ {σ σ'}, I σ → Grows T σ σ' → WellFormed σ' →
    (∀ n, σ.dtable n = none → σ'.dtable n ≠ none → growOk σ n) → I σ'
  push : ∀ {σ cls list}, I σ → pushOk σ cls list ∨ reloadOk σ cls list → σ.dtable cls = none →
    I (σ.pushed cls list)
  install : ∀ {σ cls list τ}, I σ → pushOk σ cls list → σ.dtable cls ≠ none →
      SameTables (σ.pushed cls list) τ →
    I (installAll T cls (τ.superDtable cls) τ (τ.addedMethods T (List.range' σ.nextMethod list.length)))
  reload : ∀ {σ cls list}, I σ → reloadOk σ cls list → σ.dtable cls ≠ none →
    I (installAll T cls ((σ.pushed cls list).superDtable cls) (σ.pushed cls list)
      ((σ.pushed cls list).ownMethods T cls))
  move : ∀ {σ cls newSuper}, I σ → moveOk σ cls newSuper → I (σ.next T (.setSuperclass cls newSuper))

/-- The calls whose steps are all allowed. -/
def OpOk (T : SelectorTable) (sendOk growOk : Runtime → Class → Prop)
    (pushOk reloadOk : Runtime → Class → List Method → Prop) (moveOk : Runtime → Class → Class → Prop)
    (σ : Runtime) : Op → Prop
  | .sendInitialize cls =>
    sendOk σ cls ∧ ∀ n ∈ σ.reachedBy cls, σ.classHasDtable n = false → growOk σ n
  | .addMethod cls name imp types =>
    ∀ ty ∈ types, σ.firstNamed cls name = none → pushOk σ cls [⟨name, ty, imp⟩]
  | .replaceMethod cls name imp types =>
    ∀ ty ∈ types, σ.firstNamed cls name = none → pushOk σ cls [⟨name, ty, imp⟩]
  | .setImplementation _ _ => True
  | .exchangeImplementations _ _ => True
  | .registerMethods cls list => pushOk σ cls list
  | .permissiveReload old methods => reloadOk σ old methods
  | .safeReload canonical instanceMethods classMethods =>
    ∀ instancePlan ∈ σ.preparePlan canonical instanceMethods,
      ∀ classPlan ∈ σ.preparePlan (σ.isa canonical) classMethods,
        (additions instancePlan ≠ [] → pushOk σ canonical (additions instancePlan)) ∧
          (additions classPlan ≠ [] →
            pushOk (σ.commitPlan T canonical instancePlan) (σ.isa canonical) (additions classPlan))
  | .setSuperclass cls newSuper => moveOk σ cls newSuper

instance (sendOk growOk : Runtime → Class → Prop) (pushOk reloadOk : Runtime → Class → List Method → Prop)
    (moveOk : Runtime → Class → Class → Prop) [∀ σ cls, Decidable (sendOk σ cls)]
    [∀ σ cls, Decidable (growOk σ cls)] [∀ σ cls list, Decidable (pushOk σ cls list)]
    [∀ σ cls list, Decidable (reloadOk σ cls list)] [∀ σ cls newSuper, Decidable (moveOk σ cls newSuper)]
    (σ : Runtime) (op : Op) : Decidable (OpOk T sendOk growOk pushOk reloadOk moveOk σ op) := by
  cases op <;> unfold OpOk <;> infer_instance

section Rules

variable {I : Runtime → Prop} {sendOk growOk : Runtime → Class → Prop}
  {pushOk reloadOk : Runtime → Class → List Method → Prop} {moveOk : Runtime → Class → Class → Prop}

/-- Adding a list, by way of a state with other caches. -/
theorem StepRules.add (h : StepRules T I sendOk growOk pushOk reloadOk moveOk) {σ τ : Runtime} {cls : Class}
    {list : List Method} (hI : I σ) (hok : pushOk σ cls list) (hτ : SameTables (σ.pushed cls list) τ) :
    I (if τ.classHasDtable cls then
      τ.addMethodListToClass T cls (List.range' σ.nextMethod list.length) else τ) := by
  have hd : τ.dtable = σ.dtable := hτ.dtable
  by_cases hlive : σ.dtable cls = none
  · rw [if_neg (by simp [classHasDtable, hd, hlive])]
    exact h.same (h.push hI (.inl hok) hlive) hτ
  · rw [if_pos (by simpa [classHasDtable, hd, Option.isSome_iff_ne_none] using hlive)]
    have hw := ((h.wellFormed hI).pushed cls list).of_sameTables hτ
    exact h.same (h.install hI hok hlive hτ) (addMethodListToClass_eq hw.live_up (by rwa [hd]) _)

theorem StepRules.registerMethods (h : StepRules T I sendOk growOk pushOk reloadOk moveOk)
    {σ : Runtime} {cls : Class}
    {list : List Method} (hI : I σ) (hok : pushOk σ cls list) : I (σ.registerMethods T cls list) :=
  h.add hI hok (SameTables.refl _)

theorem StepRules.addMethod (h : StepRules T I sendOk growOk pushOk reloadOk moveOk) {σ : Runtime}
    {cls : Class}
    {name : String} {imp : Imp} {types : Option String} (hI : I σ)
    (hok : OpOk T sendOk growOk pushOk reloadOk moveOk σ (.addMethod cls name imp types)) :
    I (σ.addMethod T cls name imp types).1 := by
  cases types with
  | none => exact hI
  | some types =>
    rw [Runtime.addMethod]
    split
    · exact hI
    · next hnew =>
      refine h.add hI (hok types rfl ?_) (sameTables_updateCxxMethodCache ..)
      rw [firstNamed, List.find?_eq_none]
      simpa using hnew

theorem StepRules.setImps (h : StepRules T I sendOk growOk pushOk reloadOk moveOk) (plan : List ReloadEntry)
    {σ : Runtime} (hI : I σ) :
    I (plan.foldl (fun σ e => e.target.elim σ fun m => σ.setImp m e.method.imp) σ) := by
  induction plan generalizing σ with
  | nil => exact hI
  | cons e plan ih =>
    rw [List.foldl_cons]
    refine ih ?_
    cases e.target with
    | none => exact hI
    | some m => exact h.setImp m _ hI

theorem StepRules.commitPlan (h : StepRules T I sendOk growOk pushOk reloadOk moveOk) {σ : Runtime}
    {target : Class}
    {plan : List ReloadEntry} (hI : I σ) (hok : additions plan ≠ [] → pushOk σ target (additions plan)) :
    I (σ.commitPlan T target plan) := by
  rw [Runtime.commitPlan]
  refine h.setImps plan ?_
  split
  · exact hI
  · next hne => exact h.registerMethods hI (hok hne)

/-- **What the steps keep, the calls keep.** -/
theorem StepRules.next (h : StepRules T I sendOk growOk pushOk reloadOk moveOk) {σ : Runtime}
    {op : Op} (hI : I σ)
    (hok : OpOk T sendOk growOk pushOk reloadOk moveOk σ op) : I (σ.next T op) := by
  cases op with
  | sendInitialize cls =>
    obtain ⟨σ', hσ', hw', hi⟩ := sendInitialize_spec (T := T) _ σ cls (h.wellFormed hI) (h.send hI hok.1)
      (fun _ _ => ⟨not_under_false _, not_under_false _⟩) (Forest.depth_lt_fuel cls)
    have : σ.next T (.sendInitialize cls) = σ' := by rw [Runtime.next, perform, hσ', Option.getD_some]
    rw [this]
    exact h.grow hI hi.toGrowsOff hw' fun n hn hn' =>
      hok.2 n (hi.reached n hn hn') (by simp [classHasDtable, hn])
  | addMethod cls name imp types => exact h.addMethod hI hok
  | replaceMethod cls name imp types =>
    show I (σ.replaceMethod T cls name imp types).1
    rw [Runtime.replaceMethod]
    split
    · exact h.addMethod hI hok
    · exact h.same (h.setImp _ imp hI) (sameTables_updateCxxMethodCache ..)
  | setImplementation m imp => exact h.same (h.setImp m imp hI) (sameTables_refreshCxxMethodCaches ..)
  | exchangeImplementations m₁ m₂ =>
    exact h.same (h.setImp m₂ _ (h.setImp m₁ _ hI))
      ((sameTables_refreshCxxMethodCaches ..).trans (sameTables_refreshCxxMethodCaches ..))
  | registerMethods cls list => exact h.registerMethods hI hok
  | permissiveReload old methods =>
    show I ((σ.pushed old methods).updateDtableForClass T old)
    by_cases hlive : σ.dtable old = none
    · rw [updateDtableForClass,
        if_pos (by simp [classHasDtable, pushed, pushMethodList, allocMethods, hlive])]
      exact h.push hI (.inr hok) hlive
    · exact h.same (h.reload hI hok hlive)
        (updateDtableForClass_eq ((h.wellFormed hI).pushed old methods).live_up hlive)
  | safeReload canonical instanceMethods classMethods =>
    show I (σ.safeReload T canonical instanceMethods classMethods)
    rw [OpOk] at hok
    rw [Runtime.safeReload]
    split
    · next instancePlan classPlan hi hc =>
      obtain ⟨hok, hok'⟩ := hok _ hi _ hc
      exact h.same (h.commitPlan (h.commitPlan hI hok) hok')
        ((sameTables_refreshReloadCxxCache ..).trans (sameTables_refreshReloadCxxCache ..))
    · exact hI
  | setSuperclass cls newSuper => exact h.move hI hok

end Rules

end Runtime

end Libobjc2.Dispatch
