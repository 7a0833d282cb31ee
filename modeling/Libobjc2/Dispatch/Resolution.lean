import Mathlib.Data.List.Find
import Libobjc2.Dispatch.Rebase

/-!
# Dispatch tables and method resolution

A message is resolved by walking the method lists of the class, from the head, and then those
of its superclasses. The tables should agree with that at every typed selector.

Results:
* `fill_typed`: a new table holds the first method of each selector, or what it inherits.
* `agrees_rules`: the steps of calls that meet `OpResolves` keep all tables in agreement.
* `dtables_resolve`: so they agree in every run of such calls.
* `dtable_not_resolved`: a category that overrides a method of an initialised class does not
  reach the table.
-/

namespace Libobjc2.Dispatch

open Libobjc2.Common

namespace Runtime

variable {T : SelectorTable}

/-! ## Resolution -/

variable (T) in
/-- The method that a message with the typed selector of index `key` is resolved to. -/
def resolveMethod (σ : Runtime) (key : ℕ) (cls : Class) : Option MethodId :=
  resolve σ.superClass (fun c => σ.firstOwn T c key) (σ.classCount + 1) cls

variable (T) in
/-- The method that the class inherits. -/
def inheritedMethod (σ : Runtime) (key : ℕ) (cls : Class) : Option MethodId :=
  (σ.superClass cls).bind (σ.resolveMethod T key)

/-- The entry of the table of a class. -/
def entry (σ : Runtime) (key : ℕ) (cls : Class) : Option MethodId := (σ.dtable cls).bind fun t => t key

theorem dtableForClass_apply (σ : Runtime) (cls : Class) (key : ℕ) :
    σ.dtableForClass cls key = σ.entry key cls := by
  rw [dtableForClass, entry]
  cases σ.dtable cls <;> rfl

/-- All tables agree with resolution at the typed selectors. -/
def Resolved (T : SelectorTable) (σ : Runtime) : Prop :=
  ∀ x : Method, ∀ cls, σ.dtable cls ≠ none → σ.entry (T.typed x) cls = σ.resolveMethod T (T.typed x) cls

theorem Forest.mem_range {σ : Runtime} (hf : Forest σ) (n p : Class) (hp : σ.superClass n = some p) :
    n ∈ Finset.range σ.classCount := (hf.bounded n p hp).1

theorem resolveMethod_eq {σ : Runtime} (hf : Forest σ) (key : ℕ) (cls : Class) :
    σ.resolveMethod T key cls = (σ.firstOwn T cls key).or (σ.inheritedMethod T key cls) :=
  resolve_eq hf.acyclic hf.mem_range _ cls (Forest.depth_lt_fuel cls)

theorem Resolved.coherent {σ : Runtime} (hw : WellFormed σ) (h : Resolved T σ) (x : Method) :
    Coherent σ.superClass (fun c => σ.dtable c ≠ none) (fun c => σ.firstOwn T c (T.typed x))
      (σ.entry (T.typed x)) :=
  Coherent.of_eq_resolve hw.acyclic hw.mem_range hw.live_up Forest.depth_lt_fuel (h x)

theorem Resolved.of_coherent {σ : Runtime} (hw : WellFormed σ)
    (h : ∀ x : Method, Coherent σ.superClass (fun c => σ.dtable c ≠ none)
      (fun c => σ.firstOwn T c (T.typed x))
      (σ.entry (T.typed x))) : Resolved T σ := fun x cls hcls =>
  (h x).eq_resolve hw.acyclic hw.mem_range hw.live_up _ cls hcls (Forest.depth_lt_fuel cls)

theorem firstOwn_some {σ : Runtime} {cls : Class} {key : ℕ} {m : MethodId}
    (h : σ.firstOwn T cls key = some m) :
    m ∈ σ.methodsOf cls ∧ T.typed (σ.method m) = key :=
  ⟨List.mem_of_find?_eq_some h, by simpa using List.find?_some h⟩

theorem firstOwn_none {σ : Runtime} {cls : Class} {key : ℕ} :
    σ.firstOwn T cls key = none ↔ ∀ m ∈ σ.methodsOf cls, T.typed (σ.method m) ≠ key := by
  simp [firstOwn, List.find?_eq_none]

theorem ownedOnce_firstOwn {σ : Runtime} (hw : WellFormed σ) (key : ℕ) :
    OwnedOnce fun c => σ.firstOwn T c key := fun a b v ha hb =>
  hw.owned_once a b v (firstOwn_some ha).1 (firstOwn_some hb).1

/-- A method that is inherited is not one of the class. -/
theorem inheritedMethod_not_own {σ : Runtime} (hw : WellFormed σ) {key : ℕ} {cls : Class} {m : MethodId}
    (h : σ.inheritedMethod T key cls = some m) : m ∉ σ.methodsOf cls := by
  intro hm
  obtain ⟨p, hp, hpm⟩ := Option.bind_eq_some_iff.mp h
  obtain ⟨a, hpa, ha⟩ := resolve_owner _ p m hpm
  obtain rfl := hw.owned_once a cls m (firstOwn_some ha).1 hm
  exact hw.acyclic a p hp hpa

theorem firstOwn_same {σ σ' : Runtime} (h : SameClasses σ σ') : σ'.firstOwn T = σ.firstOwn T := by
  funext cls key
  rw [firstOwn, firstOwn, h.methodsOf, h.method]

theorem resolveMethod_same {σ σ' : Runtime} (h : SameClasses σ σ') :
    σ'.resolveMethod T = σ.resolveMethod T := by
  funext key cls
  rw [resolveMethod, resolveMethod, firstOwn_same h, h.superClass, h.classCount]

/-! ## New tables -/

/-- The first methods of a class do not have the implementations that they override. -/
def DistinctImps (T : SelectorTable) (σ : Runtime) (cls : Class) : Prop :=
  ∀ m ∈ σ.methodsOf cls, σ.firstOwn T cls (T.typed (σ.method m)) = some m →
    (σ.inheritedMethod T (T.typed (σ.method m)) cls).map (fun old => (σ.method old).imp) ≠
    some (σ.method m).imp

instance (T : SelectorTable) (σ : Runtime) (cls : Class) : Decidable (DistinctImps T σ cls) :=
  inferInstanceAs (Decidable (∀ m ∈ σ.methodsOf cls, _ → _))

/-- A method is installed in a new table if it is the first of its selector. -/
theorem installs_iff {method : MethodId → Method} {sup : Option Dtable} {pre : List MethodId} {m : MethodId}
    {t : Dtable}
    (ht : t (T.typed (method m)) = (pre.find? fun y => T.typed (method y) = T.typed (method m)).or
      (sup.bind fun s => s (T.typed (method m))))
    (hsup : ∀ y ∈ pre, (sup.bind fun s => s (T.typed (method m))) ≠ some y)
    (himp : (pre.find? fun y => T.typed (method y) = T.typed (method m)) = none →
      (sup.bind fun s => s (T.typed (method m))).map (fun old => (method old).imp) ≠ some (method m).imp) :
    Installs T method sup t m ↔ (pre.find? fun y => T.typed (method y) = T.typed (method m)) = none := by
  rw [Installs, ht]
  cases hfirst : pre.find? fun y => T.typed (method y) = T.typed (method m) with
  | some m₀ =>
    -- an earlier method has the selector
    rw [Option.some_or]
    exact ⟨fun h => absurd h.1 (hsup m₀ (List.mem_of_find?_eq_some hfirst)), fun h => by cases h⟩
  | none =>
    rw [Option.none_or]
    exact ⟨fun _ => rfl, fun _ => ⟨rfl, himp hfirst⟩⟩

/-- **A new table** holds, at each typed selector, the first method of the class or what the
    superclass has. -/
theorem fill_typed {method : MethodId → Method} {sup : Option Dtable} {ms : List MethodId}
    (hsup : ∀ m ∈ ms, ∀ y : Method, (sup.bind fun s => s (T.typed y)) ≠ some m)
    (himp : ∀ m ∈ ms, (ms.find? fun x => T.typed (method x) = T.typed (method m)) = some m →
      (sup.bind fun s => s (T.typed (method m))).map (fun old => (method old).imp) ≠ some (method m).imp)
    (x : Method) :
    fill T method sup ms (T.typed x) =
      (ms.find? fun m => T.typed (method m) = T.typed x).or (sup.bind fun s => s (T.typed x)) := by
  induction ms using List.reverseRecOn generalizing x with
  | nil => cases sup <;> rfl
  | append_singleton pre m ih =>
    have hpre := ih (fun y hy => hsup y (List.mem_append_left _ hy)) fun y hy hfirst =>
      himp y (List.mem_append_left _ hy) (by rw [List.find?_append, hfirst, Option.some_or])
    have hin := installs_iff (hpre (method m)) (fun y hy => hsup y (List.mem_append_left _ hy) _) fun hnone =>
      himp m (by simp) (by rw [List.find?_append, hnone, Option.none_or]; simp)
    rw [fill_concat, List.find?_append]
    by_cases hnone : (pre.find? fun y => T.typed (method y) = T.typed (method m)) = none
    · rw [if_pos (hin.mpr hnone), Dtable.put_typed]
      by_cases hx : T.typed x = T.typed (method m)
      · simp [hx, hnone]
      · rw [if_neg hx, hpre]
        simp [Ne.symm hx]
    · rw [if_neg (mt hin.mp hnone), hpre]
      by_cases hx : T.typed (method m) = T.typed x
      · obtain ⟨m₀, hm₀⟩ := Option.ne_none_iff_exists'.mp hnone
        rw [← hx, hm₀, Option.some_or, Option.some_or, Option.some_or]
      · simp [hx]

/-- Initialising classes keeps the agreement. -/
theorem Resolved.grow {σ σ' : Runtime} (hw : WellFormed σ) (h : Resolved T σ) (hg : Grows T σ σ')
    (hw' : WellFormed σ') (hok : ∀ n, σ.dtable n = none → σ'.dtable n ≠ none → DistinctImps T σ n) :
    Resolved T σ' := by
  intro x cls
  have hres := resolveMethod_same (T := T) hg.toSameClasses
  induction cls using Acyclic.induction hw.acyclic hw.mem_range generalizing x with
  | _ cls ih =>
    intro hlive
    obtain ⟨t, ht⟩ := Option.ne_none_iff_exists'.mp hlive
    rw [hres]
    cases hold : σ.dtable cls with
    | some t₀ =>
      -- this table was there before
      rw [← h x cls (by simp [hold]), entry, entry, hg.kept cls t₀ hold, hold]
    | none =>
      have hinh : ∀ y : Method, (((σ.superClass cls).bind σ'.dtable).bind fun s => s (T.typed y)) =
          σ.inheritedMethod T (T.typed y) cls := by
        intro y
        rw [inheritedMethod]
        cases hp : σ.superClass cls with
        | none => rfl
        | some p =>
          have hpl := hw'.live_up cls p hlive (by rw [hg.superClass]; exact hp)
          have := ih p hp y hpl
          rwa [hres] at this
      have hdist := hok cls hold hlive
      have hnot : ∀ m ∈ σ.methodsOf cls, ∀ y : Method,
          (((σ.superClass cls).bind σ'.dtable).bind fun s => s (T.typed y)) ≠ some m := fun m hm y h => by
        rw [hinh] at h
        exact inheritedMethod_not_own hw h hm
      rw [entry, ht, Option.bind_some, hg.created cls t hold ht, fill_typed hnot ?_ x, hinh,
        resolveMethod_eq hw.toForest]
      · rfl
      · intro m hm hfirst
        rw [hinh]
        exact hdist m hm hfirst

/-! ## Method lists added to classes -/

/-- A list of new methods can be added to a class with a table: no selector is twice in the list or
    has a method of the class already, and no method has the implementation that it overrides. -/
def PushResolves (T : SelectorTable) (σ : Runtime) (cls : Class) (list : List Method) : Prop :=
  σ.classHasDtable cls = true → (list.map T.typed).Nodup ∧ ∀ x ∈ list, σ.firstOwn T cls (T.typed x) = none ∧
    (σ.inheritedMethod T (T.typed x) cls).map (fun old => (σ.method old).imp) ≠ some x.imp

instance (T : SelectorTable) (σ : Runtime) (cls : Class) (list : List Method) :
    Decidable (PushResolves T σ cls list) :=
  inferInstanceAs (Decidable (_ → _ ∧ ∀ x ∈ list, _ ∧ _))

/-- Methods with other selectors leave an entry alone, in all classes. -/
theorem installAll_entry {cls : Class} (sup : Option Dtable) (x : Method) :
    ∀ (ms : List MethodId) (σ : Runtime), Forest σ → σ.dtable cls ≠ none →
      (∀ m ∈ ms, T.typed (σ.method m) ≠ T.typed x) →
      (installAll T cls sup σ ms).entry (T.typed x) = σ.entry (T.typed x)
  | [], _, _, _, _ => rfl
  | m :: ms, σ, hf, hlive, hne => by
    have hm := hne m (by simp)
    obtain ⟨t, ht⟩ := Option.ne_none_iff_exists'.mp hlive
    have hone : SameClasses σ (installOne T cls sup σ m) ∧ (installOne T cls sup σ m).dtable cls ≠ none ∧
        (installOne T cls sup σ m).entry (T.typed x) = σ.entry (T.typed x) := by
      rcases installOne_cases (T := T) hf ht sup m with ⟨_, h⟩ | ⟨_, hs, _, _, hst⟩
      · rw [h]
        exact ⟨SameClasses.refl σ, hlive, rfl⟩
      · refine ⟨hs, (not_congr (hst cls).none_iff).mpr hlive, funext fun n => ?_⟩
        rw [entry, entry]
        by_cases hx : Within σ.superClass
            (HasEntry σ.dtable (T.typed (σ.method m)) (t (T.typed (σ.method m)))) cls n
        · rw [(hst n).1 hx, Option.bind_map]
          cases σ.dtable n with
          | none => rfl
          | some s => exact (Dtable.put_typed ..).trans (if_neg (Ne.symm hm))
        · rw [(hst n).2 hx]
    obtain ⟨hs, hl, he⟩ := hone
    have := installAll_entry sup x ms (installOne T cls sup σ m) (hf.of_same hs) hl
      (by rw [hs.method]; exact fun m' hm' => hne m' (by simp [hm']))
    rw [← he]
    exact this

/-- Where a table has an entry. -/
theorem hasEntry_iff {σ : Runtime} {key : ℕ} {cls n : Class} {t : Dtable} (ht : σ.dtable cls = some t) :
    HasEntry σ.dtable key (t key) n ↔ σ.dtable n ≠ none ∧ σ.entry key n = σ.entry key cls := by
  rw [HasEntry, entry, entry, ht, Option.bind_some]
  cases σ.dtable n with
  | none => simp
  | some s => simp

/-- One method with the selector of `x`: it goes where the class had no method of its own. -/
theorem installOne_coherent {σ : Runtime} (hw : WellFormed σ) {cls : Class} (hlive : σ.dtable cls ≠ none)
    (sup : Option Dtable) (m : MethodId) {x : Method} (hx : T.typed (σ.method m) = T.typed x)
    (hsup : (sup.bind fun s => s (T.typed x)) = (σ.superClass cls).bind (σ.entry (T.typed x)))
    {own : Class → Option MethodId} (hone : OwnedOnce own)
    (hco : Coherent σ.superClass (fun c => σ.dtable c ≠ none) own (σ.entry (T.typed x)))
    (himp : own cls = none →
      ((σ.superClass cls).bind (σ.entry (T.typed x))).map (fun old => (σ.method old).imp) ≠
      some (σ.method m).imp) :
    Coherent σ.superClass (fun c => σ.dtable c ≠ none)
      (if own cls = none then Function.update own cls (some m) else own)
      ((installOne T cls sup σ m).entry (T.typed x)) := by
  obtain ⟨t, ht⟩ := Option.ne_none_iff_exists'.mp hlive
  have htk : t (T.typed x) = σ.entry (T.typed x) cls := by rw [entry, ht, Option.bind_some]
  have hcls := hco cls hlive
  rcases installOne_cases (T := T) hw.toForest ht sup m with ⟨hni, h⟩ | ⟨hi, hs, _, _, hst⟩
  · rw [h, if_neg]
    · exact hco
    · -- a class without the method would have got it
      intro hown
      refine hni ⟨?_, ?_⟩ <;> rw [hx, htk, hcls, hown, Option.none_or]
      · exact hsup
      · exact himp hown
  · have hown : own cls = none := by
      by_contra ho
      obtain ⟨v, hv⟩ := Option.ne_none_iff_exists'.mp ho
      have heq := hi.1
      rw [hx, htk, hcls, hv, Option.some_or, hsup] at heq
      obtain ⟨p, hp, hpv⟩ := Option.bind_eq_some_iff.mp heq
      obtain ⟨a, hpa, ha⟩ := Coherent.owner hw.acyclic hw.mem_range hw.live_up hco
          (hw.live_up cls p hlive hp) hpv
      obtain rfl := hone a cls v ha hv
      exact hw.acyclic a p hp hpa
    rw [if_pos hown]
    have hwithin : ∀ n, Within σ.superClass
        (HasEntry σ.dtable (T.typed (σ.method m)) (t (T.typed (σ.method m)))) cls n ↔
        Within σ.superClass (fun c => σ.dtable c ≠ none ∧
          σ.entry (T.typed x) c = σ.entry (T.typed x) cls) cls n :=
      fun n => Within.congr fun y _ => by rw [hx, hasEntry_iff ht]
    refine hco.install hw.acyclic hw.mem_range hw.live_up hone hlive hown (fun n hn => ?_) fun n hn => ?_
    · rw [entry, (hst n).1 ((hwithin n).mpr hn)]
      obtain ⟨s, hs'⟩ := Option.ne_none_iff_exists'.mp hn.last.1
      rw [hs', Option.map_some, Option.bind_some, Dtable.put_typed, if_pos hx.symm]
    · rw [entry, entry, (hst n).2 (mt (hwithin n).mp hn)]

/-- The definitions of one selector after the methods of an array were installed in `cls`. -/
def withCollected (own : Class → Option MethodId) (cls : Class) (m : Option MethodId) : Class →
    Option MethodId :=
  if own cls = none then m.elim own fun m => Function.update own cls (some m) else own

/-- The methods of an array, installed one by one. -/
theorem installAll_coherent {τ : Runtime} (hw : WellFormed τ) {cls : Class} (hlive : τ.dtable cls ≠ none)
    (lists : List (List MethodId)) (x : Method) {own : Class → Option MethodId} (hone : OwnedOnce own)
    (hco : Coherent τ.superClass (fun c => τ.dtable c ≠ none) own (τ.entry (T.typed x)))
    (himp : ∀ m, collectedAt T τ.method lists (T.typed x) = some m → own cls = none →
      ((τ.superClass cls).bind (τ.entry (T.typed x))).map (fun old => (τ.method old).imp) ≠
      some (τ.method m).imp) :
    Coherent τ.superClass (fun c => τ.dtable c ≠ none)
      (withCollected own cls (collectedAt T τ.method lists (T.typed x)))
      ((installAll T cls (τ.superDtable cls) τ ((τ.collectMethods T lists []).map Prod.snd)).entry
        (T.typed x)) := by
  rcases collected_split (T := T) τ lists (T.typed x) with ⟨hnone, hne⟩ | ⟨m, before, after, hm,
      hsplit, hb, ha⟩
  · rw [installAll_entry _ x _ τ hw.toForest hlive hne, hnone]
    unfold withCollected
    split <;> exact hco
  · have hmx : T.typed (τ.method m) = T.typed x := (collectedAt_some hm).2
    -- the state in which the method is installed, and the one after
    set υ := installAll T cls (τ.superDtable cls) τ before with hυ
    obtain ⟨hsυ, hlυ, _⟩ := installAll_frame (T := T) (τ.superDtable cls) before τ hw.toForest hlive
    have heυ : υ.entry (T.typed x) = τ.entry (T.typed x) :=
      installAll_entry _ x _ τ hw.toForest hlive fun y hy => (hb y hy).ne
    have hwυ : WellFormed υ := hw.of_same hsυ hlυ
    have hliveυ : υ.dtable cls ≠ none := (not_congr (hlυ cls)).mpr hlive
    have hlive_eq : (fun c => υ.dtable c ≠ none) = fun c => τ.dtable c ≠ none :=
      funext fun c => propext (not_congr (hlυ c))
    have hsame' : SameClasses υ (installOne T cls (τ.superDtable cls) υ m) ∧
        SameLive υ (installOne T cls (τ.superDtable cls) υ m) := by
      obtain ⟨hs, hl, _⟩ := installAll_frame (T := T) (τ.superDtable cls) [m] υ hwυ.toForest hliveυ
      exact ⟨hs, hl⟩
    have hrest : (installAll T cls (τ.superDtable cls) τ ((τ.collectMethods T lists []).map Prod.snd)).entry
        (T.typed x) = (installOne T cls (τ.superDtable cls) υ m).entry (T.typed x) := by
      have : installAll T cls (τ.superDtable cls) τ ((τ.collectMethods T lists []).map Prod.snd) =
          installAll T cls (τ.superDtable cls) (installOne T cls (τ.superDtable cls) υ m) after := by
        rw [hsplit, installAll, List.foldl_append, List.foldl_cons]
        rfl
      rw [this]
      refine installAll_entry _ x after _ (hwυ.toForest.of_same hsame'.1)
        ((not_congr (hsame'.2 cls)).mpr hliveυ) fun y hy => ?_
      rw [hsame'.1.method, hsυ.method]
      exact (ha y hy).ne'
    rw [hrest, hm]
    have hcoυ : Coherent υ.superClass (fun c => υ.dtable c ≠ none) own (υ.entry (T.typed x)) := by
      rw [hsυ.superClass, hlive_eq, heυ]
      exact hco
    have := installOne_coherent hwυ hliveυ (τ.superDtable cls) m (by rw [hsυ.method]; exact hmx)
      (by
        rw [heυ, hsυ.superClass, superDtable, Option.bind_assoc]
        rfl)
      hone hcoυ (by rw [heυ, hsυ.superClass, hsυ.method]; exact himp m hm)
    rw [hsυ.superClass, hlive_eq] at this
    exact this

/-! ## The invariant -/

theorem firstOwn_pushed (σ : Runtime) (cls : Class) (list : List Method) (c : Class)
    (hfresh : ∀ m ∈ σ.methodsOf c, m < σ.nextMethod) (key : ℕ) :
    (σ.pushed cls list).firstOwn T c key =
      if c = cls then ((List.range' σ.nextMethod list.length).find? fun m =>
        T.typed ((σ.pushed cls list).method m) = key).or (σ.firstOwn T c key)
      else σ.firstOwn T c key :=
  find?_pushed cls list hfresh fun x => T.typed x = key

/-- In a list without repeated selectors, the last method of a selector is the first. -/
theorem find?_reverse_of_nodup {α : Type} (f : α → ℕ) {l : List α} (h : (l.map f).Nodup) (k : ℕ) :
    (l.reverse.find? fun a => f a = k) = l.find? fun a => f a = k := by
  cases hl : l.find? fun a => f a = k with
  | none => simpa [List.find?_eq_none] using hl
  | some a =>
    have ha : f a = k := by simpa using List.find?_some hl
    cases hr : l.reverse.find? fun a => f a = k with
    | none =>
      rw [List.find?_eq_none] at hr
      exact absurd ha (by simpa using hr a (List.mem_reverse.mpr (List.mem_of_find?_eq_some hl)))
    | some b =>
      have hb : f b = k := by simpa using List.find?_some hr
      exact congrArg some (List.inj_on_of_nodup_map h (List.mem_reverse.mp (List.mem_of_find?_eq_some hr))
        (List.mem_of_find?_eq_some hl) (hb.trans ha.symm))

theorem LinkedMetas.pushed {σ : Runtime} (h : LinkedMetas σ) (cls : Class) (list : List Method) :
    LinkedMetas (σ.pushed cls list) := LinkedMetas.of_links (σ := σ) rfl rfl rfl rfl h

/-- The agreement, with what initialising classes needs. -/
structure Agrees (T : SelectorTable) (σ : Runtime) : Prop where
  wellFormed : WellFormed σ
  linked : LinkedMetas σ
  resolved : Resolved T σ

theorem resolved_of_sameTables {σ σ' : Runtime} (h : SameTables σ σ') (hr : Resolved T σ) :
    Resolved T σ' := by
  intro x cls hcls
  rw [resolveMethod_same h.toSameClasses, entry, h.dtable]
  rw [h.dtable] at hcls
  exact hr x cls hcls

/-- The superclass of a live class has what is inherited. -/
theorem Resolved.super_entry {σ : Runtime} (hw : WellFormed σ) (h : Resolved T σ) (x : Method) {cls : Class}
    (hlive : σ.dtable cls ≠ none) :
    (σ.superClass cls).bind (σ.entry (T.typed x)) = σ.inheritedMethod T (T.typed x) cls := by
  rw [inheritedMethod]
  cases hp : σ.superClass cls with
  | none => rfl
  | some p => exact h x p (hw.live_up cls p hlive hp)

/-- Adding a list to a class with a table, with either of the two updates. -/
theorem Agrees.install {σ τ : Runtime} {cls : Class} {list : List Method} (h : Agrees T σ)
    (hok : PushResolves T σ cls list) (hlive : σ.dtable cls ≠ none) (hτ : SameTables (σ.pushed cls list) τ)
    (lists : List (List MethodId))
    (hlists : ∀ key, σ.firstOwn T cls key = none → collectedAt T τ.method lists key =
      (List.range' σ.nextMethod list.length).reverse.find? fun m => T.typed (τ.method m) = key) :
    Agrees T (installAll T cls (τ.superDtable cls) τ ((τ.collectMethods T lists []).map Prod.snd)) := by
  have hwτ : WellFormed τ := (h.wellFormed.pushed cls list).of_sameTables hτ
  have hliveτ : τ.dtable cls ≠ none := by rw [hτ.dtable]; exact hlive
  have hwτ' := hwτ.installAll (T := T) hliveτ (τ.superDtable cls) ((τ.collectMethods T lists []).map Prod.snd)
  obtain ⟨hs, hl, _⟩ := installAll_frame (T := T) (τ.superDtable cls)
      ((τ.collectMethods T lists []).map Prod.snd) τ
    hwτ.toForest hliveτ
  obtain ⟨hnodup, hnew⟩ := hok (by simpa [classHasDtable, Option.isSome_iff_ne_none] using hlive)
  have hmethod : τ.method = (σ.pushed cls list).method := hτ.method
  have hids : (List.range' σ.nextMethod list.length).map (fun m => T.typed (τ.method m)) =
      list.map T.typed := by
    rw [hmethod]
    exact map_pushed σ cls list T.typed
  refine ⟨hwτ', (LinkedMetas.of_same hτ.toSameClasses (h.linked.pushed cls list)).of_same hs, ?_⟩
  refine Resolved.of_coherent hwτ' fun x => ?_
  set k := T.typed x with hk
  -- the methods that the class will have
  have hown : withCollected (fun c => σ.firstOwn T c k) cls (collectedAt T τ.method lists k) =
      fun c => τ.firstOwn T c k := by
    funext c
    rw [firstOwn_same hτ.toSameClasses, firstOwn_pushed σ cls list c (h.wellFormed.fresh c), ← hmethod,
      withCollected]
    by_cases hnone : σ.firstOwn T cls k = none
    · rw [if_pos hnone, hlists k hnone, find?_reverse_of_nodup (fun m => T.typed (τ.method m))
        (by rw [hids]; exact hnodup)]
      cases (List.range' σ.nextMethod list.length).find? fun m => T.typed (τ.method m) = k with
      | none => simp
      | some m =>
        rw [Option.elim_some, Function.update_apply, Option.some_or]
    · have hnot : (List.range' σ.nextMethod list.length).find? (fun m => T.typed (τ.method m) = k) =
          none := by
        rw [List.find?_eq_none]
        intro m hm hmk
        have := (hnew _ (hmethod ▸ mem_range'_pushed hm cls)).1
        rw [show T.typed (τ.method m) = k by simpa using hmk] at this
        exact hnone this
      rw [if_neg hnone, hnot, Option.none_or, ite_self]
  have hentry : τ.entry k = σ.entry k := by
    funext c
    rw [entry, hτ.dtable, entry]
    rfl
  have hlive_eq : (fun c => τ.dtable c ≠ none) = fun c => σ.dtable c ≠ none := by rw [hτ.dtable]; rfl
  have hsup : τ.superClass = σ.superClass := hτ.superClass
  have := installAll_coherent hwτ hliveτ lists x (ownedOnce_firstOwn h.wellFormed k)
    (by
      rw [hlive_eq, hsup, hentry]
      exact h.resolved.coherent h.wellFormed x)
    (by
      intro m hm hnone
      rw [hlists _ hnone] at hm
      have hmem := List.mem_reverse.mp (List.mem_of_find?_eq_some hm)
      have hmx : T.typed (τ.method m) = k := by simpa using List.find?_some hm
      have himp := (hnew _ (hmethod ▸ mem_range'_pushed hmem cls)).2
      rw [hmx] at himp
      rw [hsup, hentry, h.resolved.super_entry h.wellFormed x hlive]
      -- the inherited method is not one of the new ones
      cases hinh : σ.inheritedMethod T k cls with
      | none => simp
      | some old =>
        obtain ⟨p, hp, hpo⟩ := Option.bind_eq_some_iff.mp hinh
        obtain ⟨a, _, ha⟩ := resolve_owner _ p old hpo
        rw [hinh] at himp
        rw [Option.map_some, hmethod, pushed_method_of_lt σ cls list
          (h.wellFormed.fresh a old (firstOwn_some ha).1),
          ← hmethod]
        exact himp)
  rw [hown] at this
  rw [hs.superClass, firstOwn_same hs, show (fun c => (installAll T cls (τ.superDtable cls) τ
    ((τ.collectMethods T lists []).map Prod.snd)).dtable c ≠ none) = fun c => τ.dtable c ≠ none from
      funext fun c => propext (not_congr (hl c))]
  exact this

theorem collectedAt_single (method : MethodId → Method) (list : List MethodId) (key : ℕ) :
    collectedAt T method [list] key = list.reverse.find? fun m => T.typed (method m) = key := by
  rw [collectedAt, List.findSome?_cons]
  cases list.reverse.find? fun m => T.typed (method m) = key <;> rfl

/-- The methods of a class and a new list together: where the class had no method, the list's. -/
theorem collectedAt_pushed {σ : Runtime} (hw : WellFormed σ) {cls : Class} {list : List Method} {key : ℕ}
    (hnone : σ.firstOwn T cls key = none) :
    collectedAt T (σ.pushed cls list).method ((σ.pushed cls list).methodLists cls) key =
      (List.range' σ.nextMethod list.length).reverse.find? fun m =>
        T.typed ((σ.pushed cls list).method m) = key := by
  -- the class has no older method of the selector
  have hold : collectedAt T (σ.pushed cls list).method (σ.methodLists cls) key = none := by
    rw [Option.eq_none_iff_forall_ne_some]
    intro m hm
    obtain ⟨hmem, hk⟩ := collectedAt_some hm
    rw [pushed_method_of_lt σ cls list (hw.fresh cls m hmem)] at hk
    exact firstOwn_none.mp hnone m hmem hk
  have hlists : (σ.pushed cls list).methodLists cls =
      List.range' σ.nextMethod list.length :: σ.methodLists cls := Function.update_self ..
  rw [hlists, collectedAt, List.findSome?_cons]
  cases (List.range' σ.nextMethod list.length).reverse.find? fun m =>
    T.typed ((σ.pushed cls list).method m) = key with
  | some m => rfl
  | none => exact hold

theorem typed_method_setImp (σ : Runtime) (m : MethodId) (imp : Imp) (x : MethodId) :
    T.typed ((σ.setImp m imp).method x) = T.typed (σ.method x) := by
  rw [Runtime.setImp]
  dsimp only
  rw [Function.update_apply]
  split
  · next h => rw [h, T.typed_setImp]
  · rfl

theorem firstOwn_setImp (σ : Runtime) (m : MethodId) (imp : Imp) :
    (σ.setImp m imp).firstOwn T = σ.firstOwn T := by
  funext cls key
  exact List.find?_congr fun x _ => by rw [typed_method_setImp]

/-- A new implementation leaves every method where it was. -/
theorem Agrees.setImp {σ : Runtime} (h : Agrees T σ) (m : MethodId) (imp : Imp) :
    Agrees T (σ.setImp m imp) := by
  have hw := h.wellFormed.setImp m imp
  refine ⟨hw, LinkedMetas.of_links (σ := σ) rfl rfl rfl rfl h.linked, Resolved.of_coherent hw fun x => ?_⟩
  rw [firstOwn_setImp]
  exact h.resolved.coherent h.wellFormed x

/-- New methods of a class without a table wait for the table. -/
theorem Agrees.push {σ : Runtime} (h : Agrees T σ) (cls : Class) (list : List Method)
    (hdead : σ.dtable cls = none) :
    Agrees T (σ.pushed cls list) := by
  have hw := h.wellFormed.pushed cls list
  refine ⟨hw, h.linked.pushed cls list, Resolved.of_coherent hw fun x n hn => ?_⟩
  have hne : n ≠ cls := fun he => hn (he ▸ hdead)
  dsimp only
  rw [firstOwn_pushed σ cls list n (h.wellFormed.fresh n), if_neg hne]
  exact h.resolved.coherent h.wellFormed x n hn

theorem agrees_rules : StepRules T (Agrees T) (fun σ cls => cls < σ.classCount) (DistinctImps T)
    (PushResolves T)
    (PushResolves T) (fun _ _ _ => False) where
  wellFormed h := h.wellFormed
  send h hc := messageable_of_linked h.wellFormed.toForest h.linked hc
  same h hs := ⟨h.wellFormed.of_sameTables hs, h.linked.of_same hs.toSameClasses,
      resolved_of_sameTables hs h.resolved⟩
  setImp m imp h := h.setImp m imp
  grow h hg hw hok := ⟨hw, h.linked.of_same hg.toSameClasses, h.resolved.grow h.wellFormed hg hw hok⟩
  push h _ hdead := h.push _ _ hdead
  install h hok hlive hτ := h.install hok hlive hτ _ fun key _ => collectedAt_single _ _ key
  reload h hok hlive := h.install hok hlive (SameTables.refl _) _ fun _ hnone =>
    collectedAt_pushed h.wellFormed hnone
  move _ h := h.elim

/-! ## Runs -/

/-- The calls after which the tables still agree with resolution: no class gets a table while a method
    of it has the implementation that it overrides, and the methods that are added to a class with
    a table have selectors that are new in it and implementations that they do not inherit. -/
def OpResolves (T : SelectorTable) (σ : Runtime) (op : Op) : Prop :=
  OpOk T (fun σ cls => cls < σ.classCount) (DistinctImps T) (PushResolves T) (PushResolves T)
    (fun _ _ _ => False) σ op

instance (T : SelectorTable) (σ : Runtime) (op : Op) : Decidable (OpResolves T σ op) :=
  inferInstanceAs (Decidable (OpOk ..))

/-- A program whose classes are loaded and linked and have not been sent a message. -/
structure Loaded (σ : Runtime) : Prop where
  wellFormed : WellFormed σ
  linked : LinkedMetas σ
  no_dtable : ∀ cls, σ.dtable cls = none

theorem Loaded.agrees {σ : Runtime} (h : Loaded σ) : Agrees T σ :=
  ⟨h.wellFormed, h.linked, fun _ cls hcls => absurd (h.no_dtable cls) hcls⟩

/-- The table of every initialised class finds, at every typed selector, a method with the
    implementation that a message is resolved to. -/
def DtablesResolve (T : SelectorTable) (σ : Runtime) : Prop :=
  ∀ cls t, σ.dtable cls = some t → ∀ x : Method,
    (t (T.typed x)).map (fun m => (σ.method m).imp) =
      (σ.resolveMethod T (T.typed x) cls).map fun m => (σ.method m).imp

/-- **Tables agree with method resolution.** -/
theorem dtables_resolve {σ₀ σ : Runtime} (hload : Loaded σ₀)
    (hrun : Runs (guarded (OpResolves T) (Runtime.next T)) σ₀ σ) : DtablesResolve T σ := by
  have h : Agrees T σ := hrun.invariant hload.agrees fun τ op τ' hτ ⟨hok, hnext⟩ => by
    rw [hnext]
    exact agrees_rules.next hτ hok
  intro cls t ht x
  have := h.resolved x cls (by simp [ht])
  rw [entry, ht, Option.bind_some] at this
  rw [this]

/-! ## A root class and a subclass -/

/-- Class 0 with the metaclass 1, and its subclass 2 with the metaclass 3. -/
def rootAndChild (rootMethods childMethods : List Method) : Runtime where
  classCount := 4
  superClass
    | 1 => some 0
    | 2 => some 0
    | 3 => some 1
    | _ => none
  isa
    | 2 => 3
    | _ => 1
  isMeta
    | 1 => true
    | 3 => true
    | _ => false
  subclassList
    | 0 => [2, 1]
    | 1 => [3]
    | _ => []
  methodLists
    | 0 => [List.range' 0 rootMethods.length]
    | 2 => [List.range' rootMethods.length childMethods.length]
    | _ => []
  method m := ((rootMethods ++ childMethods)[m]?).getD ⟨"", "", 0⟩
  nextMethod := rootMethods.length + childMethods.length
  dtable _ := none
  cacheVersion := 0
  cxxConstruct _ := none
  cxxDestruct _ := none
  fastArc _ := false
  fastAllocInit _ := false

section RootAndChild

variable (rootMethods childMethods : List Method)

theorem mem_methodsOf_rootAndChild {c : Class} {m : MethodId}
    (hm : m ∈ (rootAndChild rootMethods childMethods).methodsOf c) :
    c = 0 ∧ m < rootMethods.length ∨
      c = 2 ∧ rootMethods.length ≤ m ∧ m < rootMethods.length + childMethods.length := by
  rcases c with _ | _ | _ | c
  · exact .inl ⟨rfl, by simpa [rootAndChild, methodsOf] using hm⟩
  · simp [rootAndChild, methodsOf] at hm
  · exact .inr ⟨rfl, by simpa [rootAndChild, methodsOf] using hm⟩
  · simp [rootAndChild, methodsOf] at hm

theorem rootAndChild_forest : Forest (rootAndChild rootMethods childMethods) where
  acyclic := acyclic_of_lt fun n p h => by
    rcases n with _ | _ | _ | _ | n <;> simp [rootAndChild] at h <;> subst h <;> simp
  bounded n p h := by
    rcases n with _ | _ | _ | _ | n <;> simp [rootAndChild] at h <;> subst h <;> simp [rootAndChild]
  nodup c := by rcases c with _ | _ | c <;> simp [rootAndChild]
  mem_subclassList c e := by
    rcases c with _ | _ | c <;> rcases e with _ | _ | _ | _ | e <;> simp [rootAndChild]

theorem rootAndChild_pairs : ClassPairs (rootAndChild rootMethods childMethods) where
  isa_meta := by
    have h : ∀ c < 4, (rootAndChild [] []).isMeta c = false →
        (rootAndChild [] []).isMeta ((rootAndChild [] []).isa c) = true ∧
        (rootAndChild [] []).isa c < 4 := by decide
    exact h
  isa_inj := by
    have h : ∀ c < 4, ∀ c' < 4, (rootAndChild [] []).isMeta c = false →
        (rootAndChild [] []).isMeta c' = false →
        (rootAndChild [] []).isa c = (rootAndChild [] []).isa c' → c = c' := by decide
    exact h
  super_class c p h hm := by
    rcases c with _ | _ | _ | _ | c <;> simp [rootAndChild] at h hm
    subst h
    simp [rootAndChild]
  super_meta := by
    have h : ∀ c < 4, (rootAndChild [] []).isMeta c = false →
        (rootAndChild [] []).superClass ((rootAndChild [] []).isa c) =
          some (((rootAndChild [] []).superClass c).elim c (rootAndChild [] []).isa) := by decide
    exact h

theorem rootAndChild_loaded : Loaded (rootAndChild rootMethods childMethods) where
  linked := by
    have h : ∀ cls < 4, (rootAndChild [] []).RootMeta cls := by decide
    exact LinkedMetas.of_links (σ := rootAndChild [] []) rfl rfl rfl rfl h
  no_dtable _ := rfl
  wellFormed :=
    { toForest := rootAndChild_forest rootMethods childMethods
      toClassPairs := rootAndChild_pairs rootMethods childMethods
      live_up_off := fun _ _ _ h => absurd rfl h
      live_meta := fun _ _ _ h => absurd rfl h
      fresh := fun c m hm => by
        rcases mem_methodsOf_rootAndChild _ _ hm with ⟨_, h⟩ | ⟨_, _, h⟩
        · exact h.trans_le (Nat.le_add_right ..)
        · exact h
      nodup_methods := fun c => by
        rcases c with _ | _ | _ | c <;> simp [rootAndChild, methodsOf, List.nodup_range']
      owned_once := fun c c' m hm hm' => by
        rcases mem_methodsOf_rootAndChild _ _ hm with ⟨rfl, h⟩ | ⟨rfl, h, _⟩ <;>
          rcases mem_methodsOf_rootAndChild _ _ hm' with ⟨rfl, h'⟩ | ⟨rfl, h', _⟩
        · rfl
        · exact absurd h h'.not_gt
        · exact absurd h' h.not_gt
        · rfl }

end RootAndChild

/-! ## Where the tables do not agree -/

/-- A run that initialises the subclass and then adds a category to the root class. -/
def lateCategory (category : List Method) : List Op := [.sendInitialize 2, .registerMethods 0 category]

/-- A category with a new selector reaches the subclass. -/
theorem dtables_resolve_category :
    DtablesResolve (SelectorTable.coded id)
      (runList (Runtime.next (SelectorTable.coded id))
        (rootAndChild [⟨"first", "v", 10⟩] [⟨"second", "v", 11⟩])
        (lateCategory [⟨"third", "v", 12⟩])) :=
  dtables_resolve (rootAndChild_loaded _ _) (runs_of_allOk _ _ (by decide))

/-- A category that overrides a method of an initialised class does not reach its table. -/
theorem dtable_not_resolved :
    ∃ σ, Runs (guarded (fun _ _ => True) (Runtime.next (SelectorTable.coded id)))
      (rootAndChild [⟨"first", "v", 10⟩] []) σ ∧ ¬ DtablesResolve (SelectorTable.coded id) σ := by
  refine ⟨_, runs_of_allOk (lateCategory [⟨"first", "v", 20⟩]) _ ⟨trivial, trivial, trivial⟩, fun h => ?_⟩
  have := h 0 _ (Option.some_get (by decide)).symm ⟨"first", "v", 0⟩
  revert this
  decide

end Runtime

end Libobjc2.Dispatch
