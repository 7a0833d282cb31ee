import Libobjc2.Dispatch.Resolution

/-!
# Messages without types

A selector without types is looked up at the untyped index of its name. The entry there should be the
first method of the name, of whatever types, in the nearest class that has one.

Results:
* `fill_named`: the untyped entries of a new table.
* `installAll_named`: which classes a method reaches, and what they have afterwards.
* `namedAgrees_rules`: the steps of calls that meet `OpNamed` keep the untyped entries right.
* `untyped_resolve`: so they are right in every run of such calls.
* `untyped_not_resolved`: a category of the superclass displaces a method of the subclass.
-/

namespace Libobjc2.Dispatch

open Libobjc2.Common

namespace Runtime

variable {T : SelectorTable} {σ : Runtime}

/-! ## Resolution by name -/

/-- The method that a message without types is resolved to. -/
def resolveNamed (σ : Runtime) (name : String) (cls : Class) : Option MethodId :=
  resolve σ.superClass (fun c => σ.firstNamed c name) (σ.classCount + 1) cls

/-- All tables agree with resolution by name at the untyped selectors. -/
def NamedResolved (T : SelectorTable) (σ : Runtime) : Prop :=
  ∀ name cls, σ.dtable cls ≠ none → σ.entry (T.untyped name) cls = σ.resolveNamed name cls

theorem NamedResolved.coherent (hw : WellFormed σ) (h : NamedResolved T σ) (name : String) :
    Coherent σ.superClass (fun c => σ.dtable c ≠ none) (fun c => σ.firstNamed c name)
      (σ.entry (T.untyped name)) :=
  Coherent.of_eq_resolve hw.acyclic hw.mem_range hw.live_up Forest.depth_lt_fuel (h name)

theorem NamedResolved.of_coherent (hw : WellFormed σ)
    (h : ∀ name, Coherent σ.superClass (fun c => σ.dtable c ≠ none) (fun c => σ.firstNamed c name)
      (σ.entry (T.untyped name))) : NamedResolved T σ := fun name cls hcls =>
  (h name).eq_resolve hw.acyclic hw.mem_range hw.live_up _ cls hcls (Forest.depth_lt_fuel cls)

theorem firstNamed_none {cls : Class} {name : String} :
    σ.firstNamed cls name = none ↔ ∀ m ∈ σ.methodsOf cls, (σ.method m).name ≠ name := by
  simp [firstNamed, List.find?_eq_none]

theorem firstNamed_same {σ' : Runtime} (h : SameClasses σ σ') : σ'.firstNamed = σ.firstNamed := by
  funext cls name
  rw [firstNamed, firstNamed, h.methodsOf, h.method]

/-- A class with a method of the selector has one of the name. -/
theorem firstNamed_ne_none {cls : Class} {x : Method} (h : σ.firstOwn T cls (T.typed x) ≠ none) :
    σ.firstNamed cls x.name ≠ none := by
  obtain ⟨m, hm⟩ := Option.ne_none_iff_exists'.mp h
  obtain ⟨hmem, hkey⟩ := firstOwn_some hm
  exact fun hnone => firstNamed_none.mp hnone m hmem (T.name_eq_of_typed hkey)

/-! ## New tables -/

/-- The methods of a name have equal types. -/
def DistinctTypes (T : SelectorTable) (σ : Runtime) (cls : Class) : Prop :=
  ∀ m ∈ σ.methodsOf cls, ∀ m' ∈ σ.methodsOf cls, (σ.method m).name = (σ.method m').name →
    T.typed (σ.method m) = T.typed (σ.method m')

instance (T : SelectorTable) (σ : Runtime) (cls : Class) : Decidable (DistinctTypes T σ cls) :=
  inferInstanceAs (Decidable (∀ m ∈ σ.methodsOf cls, ∀ m' ∈ σ.methodsOf cls, _ → _))

/-- **The untyped entries of a new table.** -/
theorem fill_named {method : MethodId → Method} {sup : Option Dtable} {ms : List MethodId}
    (hsup : ∀ m ∈ ms, ∀ y : Method, (sup.bind fun s => s (T.typed y)) ≠ some m)
    (himp : ∀ m ∈ ms, (ms.find? fun x => T.typed (method x) = T.typed (method m)) = some m →
      (sup.bind fun s => s (T.typed (method m))).map (fun old => (method old).imp) ≠ some (method m).imp)
    (htypes : ∀ m ∈ ms, ∀ m' ∈ ms, (method m).name = (method m').name →
      T.typed (method m) = T.typed (method m'))
    (name : String) :
    fill T method sup ms (T.untyped name) =
      (ms.find? fun m => (method m).name = name).or (sup.bind fun s => s (T.untyped name)) := by
  induction ms using List.reverseRecOn with
  | nil => cases sup <;> rfl
  | append_singleton pre m ih =>
    have hpre : ∀ y ∈ pre, y ∈ pre ++ [m] := fun y hy => List.mem_append_left _ hy
    have himp' : ∀ y ∈ pre, (pre.find? fun x => T.typed (method x) = T.typed (method y)) = some y →
        (sup.bind fun s => s (T.typed (method y))).map (fun old => (method old).imp) ≠ some (method y).imp :=
      fun y hy hfirst => himp y (hpre y hy) (by rw [List.find?_append, hfirst, Option.some_or])
    have hrest := ih (fun y hy => hsup y (hpre y hy)) himp' fun y hy y' hy' =>
      htypes y (hpre y hy) y' (hpre y' hy')
    have hin := installs_iff (fill_typed (fun y hy => hsup y (hpre y hy)) himp' (method m))
      (fun y hy => hsup y (hpre y hy) _) fun hnone =>
        himp m (by simp) (by rw [List.find?_append, hnone, Option.none_or]; simp)
    rw [fill_concat, List.find?_append]
    by_cases hnone : (pre.find? fun y => T.typed (method y) = T.typed (method m)) = none
    · rw [if_pos (hin.mpr hnone), Dtable.put_untyped]
      by_cases hname : name = (method m).name
      · -- it is the first of its selector, and so of its name
        have hfirst : (pre.find? fun y => (method y).name = name) = none := by
          simp only [List.find?_eq_none, decide_eq_true_eq] at hnone ⊢
          intro y hy hy'
          exact hnone y hy (htypes y (hpre y hy) m (by simp) (hy'.trans hname))
        rw [if_pos hname, hfirst, Option.none_or]
        simp [hname]
      · rw [if_neg hname, hrest]
        simp [Ne.symm hname]
    · rw [if_neg (mt hin.mp hnone), hrest]
      by_cases hname : (method m).name = name
      · obtain ⟨m₀, hm₀⟩ := Option.ne_none_iff_exists'.mp hnone
        have hm₀name : (method m₀).name = name :=
          (T.name_eq_of_typed (by simpa using List.find?_some hm₀)).trans hname
        have hsome : (pre.find? fun y => (method y).name = name) ≠ none := by
          simp only [ne_eq, List.find?_eq_none, not_forall]
          exact ⟨m₀, List.mem_of_find?_eq_some hm₀, by simpa using hm₀name⟩
        obtain ⟨m₁, hm₁⟩ := Option.ne_none_iff_exists'.mp hsome
        rw [hm₁, Option.some_or, Option.some_or, Option.some_or]
      · simp [hname]

/-- Initialising classes keeps the untyped entries right. -/
theorem NamedResolved.grow {σ' : Runtime} (hw : WellFormed σ) (h : NamedResolved T σ) (hg : Grows T σ σ')
    (hw' : WellFormed σ') (hr' : Resolved T σ')
    (hok : ∀ n, σ.dtable n = none → σ'.dtable n ≠ none → DistinctImps T σ n ∧ DistinctTypes T σ n) :
    NamedResolved T σ' := by
  refine NamedResolved.of_coherent hw' fun name n hlive => ?_
  rw [firstNamed_same hg.toSameClasses]
  obtain ⟨t, ht⟩ := Option.ne_none_iff_exists'.mp hlive
  cases hold : σ.dtable n with
  | some t₀ =>
    -- this table and those above were there before
    have hkept : ∀ c, σ.dtable c ≠ none → σ'.entry (T.untyped name) c = σ.entry (T.untyped name) c := by
      intro c hc
      obtain ⟨s, hs⟩ := Option.ne_none_iff_exists'.mp hc
      rw [entry, entry, hg.kept c s hs, hs]
    rw [hkept n (by simp [hold]), h.coherent hw name n (by simp [hold]), hg.superClass]
    cases hp : σ.superClass n with
    | none => rfl
    | some p => rw [Option.bind_some, Option.bind_some, hkept p (hw.live_up n p (by simp [hold]) hp)]
  | none =>
    obtain ⟨himps, htypes⟩ := hok n hold hlive
    have hinh : ∀ y : Method, (((σ.superClass n).bind σ'.dtable).bind fun s => s (T.typed y)) =
        σ.inheritedMethod T (T.typed y) n := by
      intro y
      have := hr'.super_entry hw' y hlive
      rw [inheritedMethod, hg.superClass, resolveMethod_same hg.toSameClasses] at this
      rw [inheritedMethod, ← this, Option.bind_assoc]
      rfl
    rw [entry, ht, Option.bind_some, hg.created n t hold ht, hg.superClass]
    rw [fill_named _ _ htypes name, Option.bind_assoc]
    · rfl
    · intro m hm y hy
      rw [hinh] at hy
      exact inheritedMethod_not_own hw hy hm
    · intro m hm hfirst
      rw [hinh]
      exact himps m hm hfirst

/-! ## Method lists added to classes -/

/-- Installing the method in `cls` reaches the class `n`: the class itself has what it inherits, another
implementation, and the classes from there down to `n` have the same. -/
structure ReachesClass (T : SelectorTable) (σ : Runtime) (cls : Class) (sup : Option Dtable) (m : MethodId)
    (n : Class) : Prop where
  inherited : (sup.bind fun s => s (T.typed (σ.method m))) = σ.entry (T.typed (σ.method m)) cls
  other_imp : (σ.entry (T.typed (σ.method m)) cls).map (fun old => (σ.method old).imp) ≠ some (σ.method m).imp
  within : Within σ.superClass
    (fun c => σ.dtable c ≠ none ∧ σ.entry (T.typed (σ.method m)) c = σ.entry (T.typed (σ.method m)) cls) cls n

theorem reaches_congr {σ' : Runtime} {cls : Class} {sup : Option Dtable} {m : MethodId} {n : Class}
    (hs : SameClasses σ σ') (hl : SameLive σ σ')
    (he : σ'.entry (T.typed (σ.method m)) = σ.entry (T.typed (σ.method m))) :
    σ'.ReachesClass T cls sup m n ↔ σ.ReachesClass T cls sup m n := by
  have hlive : (fun c => σ'.dtable c ≠ none ∧
      σ'.entry (T.typed (σ.method m)) c = σ'.entry (T.typed (σ.method m)) cls) =
      fun c => σ.dtable c ≠ none ∧ σ.entry (T.typed (σ.method m)) c = σ.entry (T.typed (σ.method m)) cls :=
    funext fun c => propext (and_congr (not_congr (hl c)) (by rw [he]))
  constructor
  · rintro ⟨h₁, h₂, h₃⟩
    rw [hs.method, he] at h₁ h₂
    rw [hs.method, hs.superClass, hlive] at h₃
    exact ⟨h₁, h₂, h₃⟩
  · rintro ⟨h₁, h₂, h₃⟩
    refine ⟨?_, ?_, ?_⟩
    · rwa [hs.method, he]
    · rwa [hs.method, he]
    · rwa [hs.method, hs.superClass, hlive]

/-- The untyped entries after one method was installed. -/
theorem installOne_named (hf : Forest σ) {cls : Class} (hlive : σ.dtable cls ≠ none) (sup : Option Dtable)
    (m : MethodId) (name : String) (n : Class) :
    ((σ.method m).name = name → σ.ReachesClass T cls sup m n →
      (installOne T cls sup σ m).entry (T.untyped name) n = some m) ∧
    (¬((σ.method m).name = name ∧ σ.ReachesClass T cls sup m n) →
      (installOne T cls sup σ m).entry (T.untyped name) n = σ.entry (T.untyped name) n) := by
  obtain ⟨t, ht⟩ := Option.ne_none_iff_exists'.mp hlive
  have htk : t (T.typed (σ.method m)) = σ.entry (T.typed (σ.method m)) cls := by
    rw [entry, ht, Option.bind_some]
  have hwithin : Within σ.superClass
      (HasEntry σ.dtable (T.typed (σ.method m)) (t (T.typed (σ.method m)))) cls n ↔
      Within σ.superClass (fun c => σ.dtable c ≠ none ∧
        σ.entry (T.typed (σ.method m)) c = σ.entry (T.typed (σ.method m)) cls) cls n :=
    Within.congr fun y _ => hasEntry_iff ht
  rcases installOne_cases (T := T) hf ht sup m with ⟨hni, h⟩ | ⟨hi, -, -, -, hst⟩
  · rw [h]
    exact ⟨fun _ hr => absurd ⟨hr.inherited.trans htk.symm, by rw [htk]; exact hr.other_imp⟩ hni,
        fun _ => rfl⟩
  · constructor
    · intro hname hr
      have hx := hwithin.mpr hr.within
      obtain ⟨s, hs, -⟩ := hx.last
      rw [entry, (hst n).1 hx, hs, Option.map_some, Option.bind_some, Dtable.put_untyped, if_pos hname.symm]
    · intro hnot
      by_cases hx : Within σ.superClass
          (HasEntry σ.dtable (T.typed (σ.method m)) (t (T.typed (σ.method m)))) cls n
      · have hname : name ≠ (σ.method m).name := fun hname =>
          hnot ⟨hname.symm, hi.1.trans htk, by rw [← htk]; exact hi.2, hwithin.mp hx⟩
        obtain ⟨s, hs, -⟩ := hx.last
        rw [entry, entry, (hst n).1 hx, hs, Option.map_some, Option.bind_some, Option.bind_some,
          Dtable.put_untyped, if_neg hname]
      · rw [entry, entry, (hst n).2 hx]

/-- **The untyped entries after methods of different selectors were installed**: a method of the name that reaches
the class, or what was there. -/
theorem installAll_named {cls : Class} (sup : Option Dtable) (name : String) (n : Class) :
    ∀ (ms : List MethodId) (σ : Runtime), Forest σ → σ.dtable cls ≠ none →
      (ms.map fun m => T.typed (σ.method m)).Nodup →
      (∃ m ∈ ms, (σ.method m).name = name ∧ σ.ReachesClass T cls sup m n ∧
        (installAll T cls sup σ ms).entry (T.untyped name) n = some m) ∨
      ((∀ m ∈ ms, (σ.method m).name = name → ¬ σ.ReachesClass T cls sup m n) ∧
        (installAll T cls sup σ ms).entry (T.untyped name) n = σ.entry (T.untyped name) n)
  | [], _, _, _, _ => .inr ⟨by simp, rfl⟩
  | m₀ :: ms, σ, hf, hlive, hnodup => by
    rw [List.map_cons, List.nodup_cons] at hnodup
    obtain ⟨hs, hl, -⟩ := installAll_frame (T := T) sup [m₀] σ hf hlive
    have hs : SameClasses σ (installOne T cls sup σ m₀) := hs
    have hl : SameLive σ (installOne T cls sup σ m₀) := hl
    -- the others have other selectors
    have hreach : ∀ m ∈ ms, (installOne T cls sup σ m₀).ReachesClass T cls sup m n ↔
        σ.ReachesClass T cls sup m n := by
      intro m hm
      refine reaches_congr hs hl (installAll_entry sup (σ.method m) [m₀] σ hf hlive fun y hy => ?_)
      rw [List.mem_singleton.mp hy]
      exact fun h => hnodup.1 (List.mem_map.mpr ⟨m, hm, h.symm⟩)
    obtain ⟨hone, hkept⟩ := installOne_named (T := T) hf hlive sup m₀ name n
    have hrest := installAll_named sup name n ms (installOne T cls sup σ m₀) (hf.of_same hs)
      ((not_congr (hl cls)).mpr hlive) (by rw [hs.method]; exact hnodup.2)
    rw [hs.method] at hrest
    rcases hrest with ⟨m, hm, hname, hr, he⟩ | ⟨hnone, he⟩
    · exact .inl ⟨m, List.mem_cons_of_mem _ hm, hname, (hreach m hm).mp hr, he⟩
    · by_cases h₀ : (σ.method m₀).name = name ∧ σ.ReachesClass T cls sup m₀ n
      · exact .inl ⟨m₀, List.mem_cons_self, h₀.1, h₀.2, he.trans (hone h₀.1 h₀.2)⟩
      · refine .inr ⟨fun m hm hname hr => ?_, he.trans (hkept h₀)⟩
        rcases List.mem_cons.mp hm with rfl | hm
        · exact h₀ ⟨hname, hr⟩
        · exact hnone m hm hname ((hreach m hm).mpr hr)

/-- A list of new methods can be added to a class with a table: as for messages with types, and no name is twice
in the list, and the initialised classes below that resolve the selector of a new method as the class does have no
method of its name. -/
def PushNamed (T : SelectorTable) (σ : Runtime) (cls : Class) (list : List Method) : Prop :=
  PushResolves T σ cls list ∧ (σ.classHasDtable cls = true → (list.map Method.name).Nodup ∧
    ∀ x ∈ list, ∀ n, σ.dtable n ≠ none → Below σ.superClass n cls → n ≠ cls →
      σ.resolveMethod T (T.typed x) n = σ.resolveMethod T (T.typed x) cls → σ.firstNamed n x.name = none)

/-- The agreement of all entries. -/
structure NamedAgrees (T : SelectorTable) (σ : Runtime) : Prop extends Agrees T σ where
  named : NamedResolved T σ

/-- The entry of a class for the selector of a method of its own is not inherited. -/
theorem Agrees.own_ne_inherited (h : Agrees T σ) {cls : Class} (hlive : σ.dtable cls ≠ none) {m : MethodId}
    (hm : m ∈ σ.methodsOf cls) :
    σ.inheritedMethod T (T.typed (σ.method m)) cls ≠ σ.entry (T.typed (σ.method m)) cls := by
  rw [h.resolved _ cls hlive, resolveMethod_eq h.wellFormed.toForest]
  have hown : σ.firstOwn T cls (T.typed (σ.method m)) ≠ none := fun hnone => firstOwn_none.mp hnone m hm rfl
  obtain ⟨m₀, hm₀⟩ := Option.ne_none_iff_exists'.mp hown
  rw [hm₀, Option.some_or]
  exact fun hinh => inheritedMethod_not_own h.wellFormed hinh (firstOwn_some hm₀).1

/-- The collected methods of a class have different selectors. -/
theorem nodup_collected (σ : Runtime) (lists : List (List MethodId)) :
    (((σ.collectMethods T lists []).map Prod.snd).map fun m => T.typed (σ.method m)).Nodup := by
  obtain ⟨hsort, hmem⟩ := mem_collectMethods (T := T) (σ := σ) lists
  have hkey : ((σ.collectMethods T lists []).map Prod.snd).map (fun m => T.typed (σ.method m)) =
      (σ.collectMethods T lists []).map Prod.fst := by
    rw [List.map_map]
    exact List.map_congr_left fun e he => (collectedAt_some ((hmem e.1 e.2).mp he)).2
  rw [hkey]
  exact List.pairwise_map.mpr (hsort.imp fun h => h.ne)

/-- A new method of `cls` goes into the untyped entries of the classes that it reaches. -/
theorem NamedAgrees.overwrite (h : NamedAgrees T σ) {cls : Class} (hlive : σ.dtable cls ≠ none) {x : Method}
    (hbelow : ∀ n, σ.dtable n ≠ none → Below σ.superClass n cls → n ≠ cls →
      σ.resolveMethod T (T.typed x) n = σ.resolveMethod T (T.typed x) cls → σ.firstNamed n x.name = none)
    {m : MethodId} {t : Class → Option MethodId}
    (hin : ∀ n, Within σ.superClass
      (fun c => σ.dtable c ≠ none ∧ σ.entry (T.typed x) c = σ.entry (T.typed x) cls)
      cls n → t n = some m)
    (hout : ∀ n, ¬ Within σ.superClass
      (fun c => σ.dtable c ≠ none ∧ σ.entry (T.typed x) c = σ.entry (T.typed x) cls) cls n →
      t n = σ.entry (T.untyped x.name) n) :
    Coherent σ.superClass (fun c => σ.dtable c ≠ none)
      (Function.update (fun c => σ.firstNamed c x.name) cls (some m)) t := by
  have hw := h.wellFormed
  refine (h.named.coherent hw x.name).overwrite ((Within.self_iff hw.acyclic).mpr ⟨hlive, rfl⟩)
    (fun n hn hne => ⟨?_, hn.up hne⟩) ?_ hin hout
  · obtain ⟨hln, he⟩ := hn.last
    rw [h.resolved x n hln, h.resolved x cls hlive] at he
    exact hbelow n hln hn.1 hne he
  · intro n p hln _ hp hXp hXn
    -- the entry differs because the class has a method of the selector
    refine firstNamed_ne_none (T := T) fun hnone => hXn (hXp.down hp ⟨hln, ?_⟩)
    rw [h.resolved.coherent hw x n hln]
    dsimp only
    rw [hnone, hp, Option.none_or, Option.bind_some, hXp.last.2]

section Install

variable {τ : Runtime} {cls : Class} {list : List Method} {lists : List (List MethodId)}

/-- The superclass's table holds what is inherited, in the state after the list was added as well. -/
theorem Agrees.superDtable_pushed (h : Agrees T σ) (hlive : σ.dtable cls ≠ none)
    (hτ : SameTables (σ.pushed cls list) τ) (x : Method) :
    ((τ.superDtable cls).bind fun s => s (T.typed x)) = σ.inheritedMethod T (T.typed x) cls := by
  have hdt : τ.dtable = σ.dtable := hτ.dtable
  have hsuper : τ.superClass = σ.superClass := hτ.superClass
  rw [← h.resolved.super_entry h.wellFormed x hlive, superDtable, hsuper, hdt, Option.bind_assoc]
  rfl

theorem entry_pushed (hτ : SameTables (σ.pushed cls list) τ) : τ.entry = σ.entry := by
  have hdt : τ.dtable = σ.dtable := hτ.dtable
  funext key c
  rw [entry, hdt, entry]

/-- Only new methods reach classes. -/
theorem Agrees.reaching_new (h : Agrees T σ) (hlive : σ.dtable cls ≠ none)
    (hτ : SameTables (σ.pushed cls list) τ) {m : MethodId} (hm : m ∈ τ.methodsOf cls) {n : Class}
    (hr : τ.ReachesClass T cls (τ.superDtable cls) m n) : m ∈ List.range' σ.nextMethod list.length := by
  rw [hτ.methodsOf, methodsOf_pushed, if_pos rfl, List.mem_append] at hm
  refine hm.resolve_right fun hold => h.own_ne_inherited hlive hold ?_
  have hmethod : τ.method m = σ.method m := by
    rw [hτ.method, pushed_method_of_lt σ cls list (h.wellFormed.fresh cls m hold)]
  rw [← h.superDtable_pushed hlive hτ, ← hmethod, hr.inherited, entry_pushed hτ]

/-- A new method of a selector that the class does not have reaches the class. -/
theorem Agrees.reaches_self (h : Agrees T σ) (hlive : σ.dtable cls ≠ none)
    (hτ : SameTables (σ.pushed cls list) τ) {m : MethodId}
    (hnone : σ.firstOwn T cls (T.typed (τ.method m)) = none)
    (himp : (σ.inheritedMethod T (T.typed (τ.method m)) cls).map (fun old => (σ.method old).imp) ≠
      some (τ.method m).imp) : τ.ReachesClass T cls (τ.superDtable cls) m cls := by
  have hentry : σ.entry (T.typed (τ.method m)) cls = σ.inheritedMethod T (T.typed (τ.method m)) cls := by
    rw [h.resolved _ cls hlive, resolveMethod_eq h.wellFormed.toForest, hnone, Option.none_or]
  have hsuper : τ.superClass = σ.superClass := hτ.superClass
  have hdt : τ.dtable = σ.dtable := hτ.dtable
  refine ⟨?_, ?_, ?_⟩
  · rw [h.superDtable_pushed hlive hτ, entry_pushed hτ, hentry]
  · rw [entry_pushed hτ, hentry]
    cases hinh : σ.inheritedMethod T (T.typed (τ.method m)) cls with
    | none => simp
    | some old =>
      -- the inherited method is not one of the new ones
      obtain ⟨p, hp, hpo⟩ := Option.bind_eq_some_iff.mp hinh
      obtain ⟨a, _, ha⟩ := resolve_owner _ p old hpo
      rw [hinh] at himp
      rw [Option.map_some, hτ.method, pushed_method_of_lt σ cls list
        (h.wellFormed.fresh a old (firstOwn_some ha).1), ← hτ.method]
      exact himp
  · rw [hsuper]
    refine (Within.self_iff h.wellFormed.acyclic).mpr ⟨?_, rfl⟩
    rw [hdt]
    exact hlive

/-- The new method of a name is collected. -/
theorem PushNamed.collected (hok : PushNamed T σ cls list) (hlive : σ.dtable cls ≠ none)
    (hτ : SameTables (σ.pushed cls list) τ)
    (hlists : ∀ key, σ.firstOwn T cls key = none → collectedAt T τ.method lists key =
      (List.range' σ.nextMethod list.length).reverse.find? fun m => T.typed (τ.method m) = key)
    {m : MethodId} (hm : m ∈ List.range' σ.nextMethod list.length) :
    m ∈ (τ.collectMethods T lists []).map Prod.snd := by
  have hhas : σ.classHasDtable cls = true := by simpa [classHasDtable, Option.isSome_iff_ne_none] using hlive
  obtain ⟨hnodup, hnew⟩ := hok.1 hhas
  have hmem : τ.method m ∈ list := by
    rw [hτ.method]
    exact mem_range'_pushed hm cls
  have hids : (List.range' σ.nextMethod list.length).map (fun m => T.typed (τ.method m)) =
      list.map T.typed := by
    rw [hτ.method]
    exact map_pushed σ cls list T.typed
  rw [← hids] at hnodup
  have hat := hlists _ (hnew _ hmem).1
  rw [find?_reverse_of_nodup (fun m => T.typed (τ.method m)) hnodup] at hat
  have hsome : ((List.range' σ.nextMethod list.length).find? fun y =>
      T.typed (τ.method y) = T.typed (τ.method m)) ≠ none := by
    simp only [ne_eq, List.find?_eq_none, not_forall]
    exact ⟨m, hm, by simp⟩
  obtain ⟨m', hm'⟩ := Option.ne_none_iff_exists'.mp hsome
  obtain rfl : m' = m :=
    List.inj_on_of_nodup_map hnodup (List.mem_of_find?_eq_some hm') hm (by simpa using List.find?_some hm')
  exact List.mem_map.mpr ⟨_, ((mem_collectMethods lists).2 _ _).mpr (hat.trans hm'), rfl⟩

/-- **Adding a list to a class with a table** keeps all entries right. -/
theorem NamedAgrees.install (h : NamedAgrees T σ) (hok : PushNamed T σ cls list) (hlive : σ.dtable cls ≠ none)
    (hτ : SameTables (σ.pushed cls list) τ) (hsub : ∀ m ∈ lists.flatten, m ∈ τ.methodsOf cls)
    (hlists : ∀ key, σ.firstOwn T cls key = none → collectedAt T τ.method lists key =
      (List.range' σ.nextMethod list.length).reverse.find? fun m => T.typed (τ.method m) = key) :
    NamedAgrees T (installAll T cls (τ.superDtable cls) τ ((τ.collectMethods T lists []).map Prod.snd)) := by
  have hagree := h.toAgrees.install hok.1 hlive hτ lists hlists
  have hw := h.wellFormed
  have hwτ : WellFormed τ := (hw.pushed cls list).of_sameTables hτ
  have hliveτ : τ.dtable cls ≠ none := by rw [hτ.dtable]; exact hlive
  obtain ⟨hs, hl, -⟩ := installAll_frame (T := T) (τ.superDtable cls)
    ((τ.collectMethods T lists []).map Prod.snd) τ hwτ.toForest hliveτ
  have hdt : τ.dtable = σ.dtable := hτ.dtable
  have hsuper : τ.superClass = σ.superClass := hτ.superClass
  have hhas : σ.classHasDtable cls = true := by simpa [classHasDtable, Option.isSome_iff_ne_none] using hlive
  obtain ⟨-, hnew⟩ := hok.1 hhas
  obtain ⟨hnames, hbelow⟩ := hok.2 hhas
  have hmine : ∀ m ∈ (τ.collectMethods T lists []).map Prod.snd, ∀ n,
      τ.ReachesClass T cls (τ.superDtable cls) m n → m ∈ List.range' σ.nextMethod list.length := by
    intro m hm n hr
    obtain ⟨e, he, rfl⟩ := List.mem_map.mp hm
    exact h.reaching_new hlive hτ (hsub _ (mem_of_mem_collectMethods he)) hr
  refine ⟨hagree, NamedResolved.of_coherent hagree.wellFormed fun name => ?_⟩
  have hreached := fun n => installAll_named (T := T) (τ.superDtable cls) name n
    ((τ.collectMethods T lists []).map Prod.snd) τ hwτ.toForest hliveτ (nodup_collected τ lists)
  have hlive_eq : (fun c => (installAll T cls (τ.superDtable cls) τ
      ((τ.collectMethods T lists []).map Prod.snd)).dtable c ≠ none) = fun c => σ.dtable c ≠ none :=
    funext fun c => propext (not_congr ((hl c).trans (by rw [hdt])))
  have hfirst : (fun c => τ.firstNamed c name) = fun c =>
      if c = cls then ((List.range' σ.nextMethod list.length).find? fun m => (τ.method m).name = name).or
        (σ.firstNamed c name) else σ.firstNamed c name := by
    funext c
    rw [firstNamed, hτ.methodsOf, hτ.method]
    exact find?_pushed cls list (hw.fresh c) fun x => x.name = name
  rw [hs.superClass, hsuper, hlive_eq, firstNamed_same hs, hfirst]
  cases hm : (List.range' σ.nextMethod list.length).find? fun m => (τ.method m).name = name with
  | none =>
    -- no method of the name is new
    have hkept : (installAll T cls (τ.superDtable cls) τ ((τ.collectMethods T lists []).map Prod.snd)).entry
        (T.untyped name) = σ.entry (T.untyped name) := by
      funext n
      rcases hreached n with ⟨m, hmem, hname, hr, -⟩ | ⟨-, he⟩
      · rw [List.find?_eq_none] at hm
        exact absurd hname (by simpa using hm m (hmine m hmem n hr))
      · rw [he, entry_pushed hτ]
    rw [hkept]
    simpa using h.named.coherent hw name
  | some m =>
    have hrange := List.mem_of_find?_eq_some hm
    obtain rfl : (τ.method m).name = name := by simpa using List.find?_some hm
    have hmem : τ.method m ∈ list := by
      rw [hτ.method]
      exact mem_range'_pushed hrange cls
    have hreach := h.toAgrees.reaches_self hlive hτ (hnew _ hmem).1 (hnew _ hmem).2
    have hinj : ((List.range' σ.nextMethod list.length).map fun y => (τ.method y).name).Nodup := by
      have hids : (List.range' σ.nextMethod list.length).map (fun y => (τ.method y).name) =
          list.map Method.name := by
        rw [hτ.method]
        exact map_pushed σ cls list Method.name
      rw [hids]
      exact hnames
    have hin := hok.collected hlive hτ hlists hrange
    have hX : (fun c => τ.dtable c ≠ none ∧
        τ.entry (T.typed (τ.method m)) c = τ.entry (T.typed (τ.method m)) cls) =
        fun c => σ.dtable c ≠ none ∧
          σ.entry (T.typed (τ.method m)) c = σ.entry (T.typed (τ.method m)) cls := by
      rw [hdt, entry_pushed hτ]
    have hown : (fun c => if c = cls then (some m).or (σ.firstNamed c (τ.method m).name)
        else σ.firstNamed c (τ.method m).name) =
        Function.update (fun c => σ.firstNamed c (τ.method m).name) cls (some m) := by
      funext c
      rw [Function.update_apply, Option.some_or]
    rw [hown]
    refine h.overwrite hlive (hbelow _ hmem) (fun n hn => ?_) fun n hn => ?_
    · rcases hreached n with ⟨m', hm', hname, hr, he⟩ | ⟨hno, -⟩
      · rw [he, List.inj_on_of_nodup_map hinj (hmine m' hm' n hr) hrange hname]
      · refine absurd ⟨hreach.inherited, hreach.other_imp, ?_⟩ (hno m hin rfl)
        rw [hX, hsuper]
        exact hn
    · rcases hreached n with ⟨m', hm', hname, hr, he⟩ | ⟨-, he⟩
      · have hwithin := hr.within
        rw [List.inj_on_of_nodup_map hinj (hmine m' hm' n hr) hrange hname, hX, hsuper] at hwithin
        exact absurd hwithin hn
      · rw [he, entry_pushed hτ]

end Install

/-! ## The invariant -/

/-- New methods of a class without a table wait for the table. -/
theorem NamedAgrees.push (h : NamedAgrees T σ) (cls : Class) (list : List Method)
    (hdead : σ.dtable cls = none) :
    NamedAgrees T (σ.pushed cls list) := by
  have hagree := h.toAgrees.push cls list hdead
  refine ⟨hagree, NamedResolved.of_coherent hagree.wellFormed fun name n hn => ?_⟩
  have hne : n ≠ cls := fun he => hn (he ▸ hdead)
  have hfirst : (σ.pushed cls list).firstNamed n name = σ.firstNamed n name :=
    (find?_pushed cls list (h.wellFormed.fresh n) fun x => x.name = name).trans (if_neg hne)
  dsimp only
  rw [hfirst]
  exact h.named.coherent h.wellFormed name n hn

/-- A new implementation leaves every method where it was. -/
theorem NamedAgrees.setImp (h : NamedAgrees T σ) (m : MethodId) (imp : Imp) :
    NamedAgrees T (σ.setImp m imp) := by
  have hagree := h.toAgrees.setImp m imp
  refine ⟨hagree, NamedResolved.of_coherent hagree.wellFormed fun name => ?_⟩
  simp only [firstNamed_setImp]
  exact h.named.coherent h.wellFormed name

theorem NamedAgrees.same {σ' : Runtime} (h : NamedAgrees T σ) (hs : SameTables σ σ') : NamedAgrees T σ' := by
  have hagree : Agrees T σ' := agrees_rules.same h.toAgrees hs
  have hdt : σ'.dtable = σ.dtable := hs.dtable
  have hentry : σ'.entry = σ.entry := by
    funext key c
    rw [entry, hdt, entry]
  refine ⟨hagree, NamedResolved.of_coherent hagree.wellFormed fun name => ?_⟩
  rw [firstNamed_same hs.toSameClasses, hentry, hdt, hs.superClass]
  exact h.named.coherent h.wellFormed name

theorem namedAgrees_rules : StepRules T (NamedAgrees T) (fun σ cls => cls < σ.classCount)
    (fun σ cls => DistinctImps T σ cls ∧ DistinctTypes T σ cls) (PushNamed T) (PushNamed T)
    (fun _ _ _ => False) where
  wellFormed h := h.wellFormed
  send h hc := agrees_rules.send h.toAgrees hc
  same h hs := h.same hs
  setImp m imp h := h.setImp m imp
  grow {σ σ'} h hg hw hok := by
    have hagree : Agrees T σ' := agrees_rules.grow h.toAgrees hg hw fun n hn hn' => (hok n hn hn').1
    exact ⟨hagree, h.named.grow h.wellFormed hg hw hagree.resolved hok⟩
  push h _ hdead := h.push _ _ hdead
  install {σ cls list τ} h hok hlive hτ := by
    refine h.install hok hlive hτ (fun m hm => ?_) fun key _ => collectedAt_single _ _ key
    rw [hτ.methodsOf, methodsOf_pushed, if_pos rfl]
    exact List.mem_append_left _ (by simpa using hm)
  reload {σ cls list} h hok hlive := by
    refine h.install hok hlive (SameTables.refl _) (fun m hm => hm) fun key hnone => ?_
    exact collectedAt_pushed h.wellFormed hnone
  move _ h := h.elim

/-! ## Runs -/

/-- The calls after which the untyped entries are still right: no class gets a table while a method of it has the
implementation that it overrides or the name of a method with other types, and the methods that are added to a
class with a table meet `PushNamed`. -/
def OpNamed (T : SelectorTable) : Runtime → Op → Prop :=
  OpOk T (fun σ cls => cls < σ.classCount)
  (fun σ cls => DistinctImps T σ cls ∧ DistinctTypes T σ cls) (PushNamed T)
    (PushNamed T) (fun _ _ _ => False)

theorem Loaded.namedAgrees (h : Loaded σ) : NamedAgrees T σ :=
  ⟨h.agrees, fun _ cls hcls => absurd (h.no_dtable cls) hcls⟩

/-- **Messages without types find the first method of the name** in the nearest class that has one. -/
theorem untyped_resolve {σ₀ : Runtime} (hload : Loaded σ₀)
    (hrun : Runs (guarded (OpNamed T) (Runtime.next T)) σ₀ σ) : NamedResolved T σ := by
  have h : NamedAgrees T σ := hrun.invariant hload.namedAgrees fun τ op τ' hτ ⟨hok, hnext⟩ => by
    rw [hnext]
    exact namedAgrees_rules.next hτ hok
  exact h.named

/-- A category with a new name, for the superclass of a class that overrides another method. -/
theorem untyped_resolve_category :
    NamedResolved (SelectorTable.coded id)
      (runList (Runtime.next (SelectorTable.coded id))
        (rootAndChild [⟨"first", "v", 10⟩] [⟨"first", "i", 11⟩]) (lateCategory [⟨"third", "v", 12⟩])) := by
  have hpush : PushNamed (SelectorTable.coded id)
      ((rootAndChild [⟨"first", "v", 10⟩] [⟨"first", "i", 11⟩]).next (SelectorTable.coded id)
        (.sendInitialize 2)) 0
      [⟨"third", "v", 12⟩] := by
    refine ⟨by decide, fun _ => ⟨by decide, fun x hx n _ _ _ _ => ?_⟩⟩
    obtain rfl := List.mem_singleton.mp hx
    change (rootAndChild [⟨"first", "v", 10⟩] [⟨"first", "i", 11⟩]).firstNamed n "third" = none
    rcases n with _ | _ | _ | n <;> rfl
  exact untyped_resolve (rootAndChild_loaded _ _) (runs_of_allOk _ _ ⟨⟨by decide, by decide⟩, hpush, trivial⟩)

/-- A category of the superclass displaces a method of the subclass that has its name and other types. -/
theorem untyped_not_resolved :
    ∃ σ, Runs (guarded (fun _ _ => True) (Runtime.next (SelectorTable.coded id)))
      (rootAndChild [] [⟨"name", "v", 10⟩]) σ ∧ ¬ NamedResolved (SelectorTable.coded id) σ := by
  refine ⟨_, runs_of_allOk (lateCategory [⟨"name", "i", 11⟩]) _ ⟨trivial, trivial, trivial⟩, fun h => ?_⟩
  have := h "name" 2 (by decide)
  revert this
  decide

end Runtime

end Libobjc2.Dispatch
