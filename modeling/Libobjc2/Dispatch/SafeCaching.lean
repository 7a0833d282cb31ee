import Mathlib.Algebra.Group.Nat.Defs
import Libobjc2.Dispatch.Resolution

/-!
# Cached lookups (`src/dispatch/sendmsg2.c`, lines 92–157)

`objc_msg_lookup_internal` hands out the slot that it found together with the value of
`objc_method_cache_version`. The caller may use the slot for as long as the counter has that
value, so every change of an entry that was found has to be counted.

Results:
* `installAll_advances`: methods that go where nothing was found are not missed.
* `lookup_cacheable`: in runs of calls that meet `OpCaches`, a slot is as good as its version.
* `lookup_stale`: a method of another type takes the untyped entry, and is not counted.
-/

namespace Libobjc2.Dispatch

open Libobjc2.Common

/-! ## Lookups -/

/-- What a message is sent to: an instance of a class, or a class. -/
inductive Receiver where
  | instanceOf (cls : Class)
  | classObject (cls : Class)
deriving DecidableEq, Repr

/-- The class that `objc_send_initialize` initialises for a receiver. -/
def Receiver.cls : Receiver → Class
  | .instanceOf cls => cls
  | .classObject cls => cls

namespace Runtime

variable (T : SelectorTable)

/-- `classForObject`. -/
def classForObject (σ : Runtime) : Receiver → Class
  | .instanceOf cls => cls
  | .classObject cls => σ.isa cls

theorem classForObject_instanceOf (σ τ : Runtime) (cls : Class) :
    σ.classForObject (.instanceOf cls) = τ.classForObject (.instanceOf cls) := rfl

/-- `objc_method_cache_version`, a `uint64_t`. -/
def methodCacheVersion (σ : Runtime) : ℕ := σ.cacheVersion % 2 ^ 64

/-- `objc_msg_lookup_internal` (sendmsg2.c, lines 92–157) for a receiver that is not nil: the state, the
    slot, which is `none` for `uncacheable_slot`, and the version. `proxyLookup` is the hook
    `objc_proxy_lookup`, `fuel` bounds how often it gives another receiver. -/
def objcMsgLookupInternal (proxyLookup : Receiver → Selector → Option Receiver) (sel : Selector) :
    ℕ → Runtime → Receiver → Option (Runtime × Option MethodId × ℕ)
  | 0, _, _ => none
  | fuel + 1, σ, receiver =>
    let version := σ.methodCacheVersion
    let cls := σ.classForObject receiver
    match σ.dtableForClass cls (T.index sel) with
    | some slot => some (σ, some slot, version)
    | none =>
      (if σ.classHasDtable cls then some σ
        else σ.sendInitialize T (σ.classCount + 1) receiver.cls).bind fun σ =>
      match σ.dtableForClass cls (T.index sel) with
      | some slot => some (σ, some slot, version)
      | none =>
        -- a method of other types is called through the mismatch hook
        let version := if σ.dtableForClass cls (T.untyped sel.name) = none then version else 0
        match proxyLookup receiver sel with
        | some newReceiver =>
          (objcMsgLookupInternal proxyLookup sel fuel σ newReceiver).map fun (σ, slot, _) =>
            (σ, slot, version)
        | none => some (σ, none, 0)

/-! ## Changes that are counted -/

/-- The tables that a method with the selector of `x` reaches from `cls` when nothing has been found
    for the selector: those of `cls` and, through such tables, of its subclasses. -/
def Reaches (σ : Runtime) (x : Method) (cls n : Class) : Prop :=
  cls ∈ σ.ancestors n ∧ ∀ a ∈ σ.ancestors n, cls ∈ σ.ancestors a →
    σ.classHasDtable a = true ∧ σ.dtableForClass a (T.typed x) = none

instance (σ : Runtime) (x : Method) (cls n : Class) : Decidable (σ.Reaches T x cls n) :=
  inferInstanceAs (Decidable (_ ∧ ∀ a ∈ _, _ → _ ∧ _))

/-- Once lookups can be cached, methods whose selectors are new to a table have names that are new
    to it. -/
def PushCaches (σ : Runtime) (cls : Class) (list : List Method) : Prop :=
  σ.cacheVersion ≠ 0 → ∀ x ∈ list, ∀ n ∈ cls :: List.range σ.classCount, σ.Reaches T x cls n →
    σ.dtableForClass n (T.untyped x.name) = none

instance (σ : Runtime) (cls : Class) (list : List Method) : Decidable (σ.PushCaches T cls list) :=
  inferInstanceAs (Decidable (_ → ∀ x ∈ _, ∀ n ∈ _, _ → _))

/-- A reload goes through the older methods of the class as well. -/
def ReloadCaches (σ : Runtime) (cls : Class) (list : List Method) : Prop :=
  σ.PushCaches T cls (list ++ (σ.methodsOf cls).map σ.method)

instance (σ : Runtime) (cls : Class) (list : List Method) : Decidable (σ.ReloadCaches T cls list) :=
  inferInstanceAs (Decidable (σ.PushCaches T cls _))

/-- The classes that are sent a message. -/
def IsClass (σ : Runtime) (cls : Class) : Prop := cls < σ.classCount ∧ σ.isMeta cls = false

instance (σ : Runtime) (cls : Class) : Decidable (σ.IsClass cls) := inferInstanceAs (Decidable (_ ∧ _))

/-- The calls that count every change of an entry that may have been found. -/
def OpCaches (σ : Runtime) (op : Op) : Prop :=
  OpOk T IsClass (fun _ _ => True) (PushCaches T) (ReloadCaches T) Movable σ op

instance (σ : Runtime) (op : Op) : Decidable (σ.OpCaches T op) := inferInstanceAs (Decidable (OpOk ..))

/-- What was found in `σ` is found in `σ'`, unless the counter has moved on. -/
def Advances (σ σ' : Runtime) : Prop :=
  σ.cacheVersion ≤ σ'.cacheVersion ∧ (σ'.cacheVersion = σ.cacheVersion → σ.cacheVersion ≠ 0 →
    ∀ n key m, σ.entry key n = some m → σ'.entry key n = some m)

variable {T} {σ τ υ : Runtime} {cls : Class}

theorem Advances.refl (σ : Runtime) : Advances σ σ := ⟨le_rfl, fun _ _ _ _ _ h => h⟩

theorem Advances.trans (h : Advances σ τ) (h' : Advances τ υ) : Advances σ υ := by
  refine ⟨h.1.trans h'.1, fun heq hne n key m hm => ?_⟩
  have hτ : τ.cacheVersion = σ.cacheVersion := le_antisymm (heq ▸ h'.1) h.1
  have hυ : υ.cacheVersion = τ.cacheVersion := heq.trans hτ.symm
  exact h'.2 hυ (hτ ▸ hne) n key m (h.2 hτ hne n key m hm)

/-- Changes that neither the tables nor the counter see. -/
theorem advances_of_dtable (hd : τ.dtable = σ.dtable) (hv : τ.cacheVersion = σ.cacheVersion) :
    Advances σ τ := by
  refine ⟨hv.ge, fun _ _ n key m hm => ?_⟩
  rwa [entry, hd]

theorem advances_of_sameTables (h : SameTables σ τ) : Advances σ τ :=
  advances_of_dtable h.dtable h.cacheVersion

theorem advances_of_lt (h : σ.cacheVersion < τ.cacheVersion) : Advances σ τ :=
  ⟨h.le, fun heq => absurd heq h.ne'⟩

theorem Grows.advances (h : Grows T σ τ) : Advances σ τ := by
  refine ⟨h.version, fun _ _ n key m hm => ?_⟩
  obtain ⟨t, ht, hm⟩ := Option.bind_eq_some_iff.mp hm
  rw [entry, h.kept n t ht, Option.bind_some, hm]

/-! ## Installing methods -/

/-- Where a method may go: nowhere that it would change what is found for its name. -/
def NewNames (T : SelectorTable) (σ : Runtime) (cls : Class) (m : MethodId) : Prop :=
  σ.cacheVersion ≠ 0 → ∀ n, Within σ.superClass (HasEntry σ.dtable (T.typed (σ.method m)) none) cls n →
    σ.entry (T.untyped (σ.method m).name) n = none

/-- One method, after others have been installed. -/
theorem installOne_advances (hf : Forest υ) (hs : SameClasses τ υ) (hl : SameLive τ υ)
    (ha : Advances τ υ) (hlive : υ.dtable cls ≠ none) (sup : Option Dtable) {m : MethodId}
    (hnew : NewNames T τ cls m) : Advances τ (installOne T cls sup υ m) := by
  obtain ⟨t, ht⟩ := Option.ne_none_iff_exists'.mp hlive
  rcases installOne_cases (T := T) hf ht sup m with ⟨-, h⟩ | ⟨-, -, hsame, hbump, hst⟩
  · rwa [h]
  by_cases hold : t (T.typed (υ.method m)) = none
  swap
  · exact advances_of_lt (ha.1.trans_lt (hbump hold))
  refine ⟨(hsame hold).symm ▸ ha.1, fun heq hne n key v hv => ?_⟩
  have hkept := ha.2 ((hsame hold).symm.trans heq) hne
  have hvυ := hkept n key v hv
  rw [hold] at hst
  by_cases hn : Within υ.superClass (HasEntry υ.dtable (T.typed (υ.method m)) none) cls n
  swap
  · rw [entry, (hst n).2 hn]
    exact hvυ
  obtain ⟨s, hsn, htyped⟩ := hn.last
  rw [entry, hsn, Option.bind_some] at hvυ
  rw [entry, (hst n).1 hn, hsn, Option.map_some, Option.bind_some, Dtable.put, Dtable.insert,
    Dtable.insert]
  -- the table had nothing for the selector, and before the step nothing for the name
  have hkey : key ≠ T.typed (υ.method m) := by
    rintro rfl
    rw [htyped] at hvυ
    cases hvυ
  have hname : key ≠ T.untyped (υ.method m).name := by
    rintro rfl
    have hτ : Within τ.superClass (HasEntry τ.dtable (T.typed (τ.method m)) none) cls n := by
      rw [← hs.superClass, ← hs.method]
      refine ⟨hn.1, fun a hna hac => ?_⟩
      obtain ⟨s', hs', hnone⟩ := hn.2 a hna hac
      obtain ⟨s₀, hs₀⟩ := Option.ne_none_iff_exists'.mp ((not_congr (hl a)).mp (by simp [hs']))
      refine ⟨s₀, hs₀, Option.eq_none_iff_forall_ne_some.mpr fun w hw => ?_⟩
      have hwυ := hkept a _ w (by rw [entry, hs₀, Option.bind_some]; exact hw)
      rw [entry, hs', Option.bind_some, hnone] at hwυ
      cases hwυ
    have hnone := hnew hne n hτ
    rw [← hs.method, hv] at hnone
    cases hnone
  rwa [Function.update_of_ne hname, Function.update_of_ne hkey]

/-- **The methods of an array**, one by one. -/
theorem installAll_advances (sup : Option Dtable) : ∀ (ms : List MethodId) (υ : Runtime), Forest υ →
    SameClasses τ υ → SameLive τ υ → Advances τ υ → υ.dtable cls ≠ none →
    (∀ m ∈ ms, NewNames T τ cls m) → Advances τ (installAll T cls sup υ ms)
  | [], _, _, _, _, ha, _, _ => ha
  | m :: ms, υ, hf, hs, hl, ha, hlive, hnew => by
    obtain ⟨hs₁, hl₁, -⟩ := installAll_frame (T := T) sup [m] υ hf hlive
    have ha₁ := installOne_advances hf hs hl ha hlive sup (hnew m (by simp))
    exact installAll_advances sup ms (installOne T cls sup υ m) (hf.of_same hs₁) (hs.trans hs₁)
      (fun n => (hl₁ n).trans (hl n)) ha₁ ((not_congr (hl₁ cls)).mpr hlive)
      fun m' hm' => hnew m' (List.mem_cons_of_mem m hm')

/-! ## The steps of calls -/

/-- What is allowed before new methods are added holds when they are installed. -/
theorem PushCaches.newNames (hf : Forest σ) {list : List Method} (h : σ.PushCaches T cls list)
    (hd : τ.dtable = σ.dtable) (hsup : τ.superClass = σ.superClass)
    (hv : τ.cacheVersion = σ.cacheVersion) {m : MethodId} (hm : τ.method m ∈ list) :
    NewNames T τ cls m := by
  intro hne n hn
  rw [hsup, hd] at hn
  have hmem : n ∈ cls :: List.range σ.classCount := by
    rw [List.mem_cons, List.mem_range]
    refine hn.1.cases.imp id fun ⟨p, hp, _⟩ => ?_
    exact Finset.mem_range.mp (hf.bounded n p hp).1
  have hreach : σ.Reaches T (τ.method m) cls n := by
    refine ⟨(mem_ancestors hf).mpr hn.1, fun a ha hac => ?_⟩
    obtain ⟨t, ht, hnone⟩ := hn.2 a ((mem_ancestors hf).mp ha) ((mem_ancestors hf).mp hac)
    exact ⟨by simp [classHasDtable, ht], by rw [dtableForClass_eq ht, hnone]⟩
  have hnone := h (hv ▸ hne) _ hm n hmem hreach
  rwa [dtableForClass_apply, entry, ← hd] at hnone

theorem advances_pushed (σ : Runtime) (cls : Class) (list : List Method) : Advances σ (σ.pushed cls list) :=
  advances_of_dtable rfl rfl

/-- Installing the methods of a class after some have been added. -/
theorem PushCaches.install (hw : WellFormed σ) {list : List Method} {ms : List MethodId}
    (hτ : SameTables (σ.pushed cls list) τ) (hlive : σ.dtable cls ≠ none) {new : List Method}
    (h : σ.PushCaches T cls new) (hms : ∀ m ∈ ms, τ.method m ∈ new) :
    Advances σ (installAll T cls (τ.superDtable cls) τ ms) := by
  have hwτ := (hw.pushed cls list).of_sameTables hτ
  refine ((advances_pushed σ cls list).trans (advances_of_sameTables hτ)).trans ?_
  refine installAll_advances _ ms τ hwτ.toForest (SameClasses.refl τ) (fun _ => Iff.rfl)
    (Advances.refl τ) (by rwa [hτ.dtable]) fun m hm => ?_
  exact h.newNames hw.toForest hτ.dtable hτ.superClass hτ.cacheVersion (hms m hm)

/-- A new superclass empties all caches, unless no table changes. -/
theorem advances_setSuperclass (hw : WellFormed σ) {newSuper : Class} (hm : σ.Movable cls newSuper) :
    Advances σ (σ.next T (.setSuperclass cls newSuper)) := by
  by_cases hne : σ.superClass cls = some newSuper
  · rw [next_setSuperclass_of_eq hne]
    exact Advances.refl σ
  obtain ⟨lists, heq⟩ := moveClass_eq newSuper hm.2.2.1
  have hv : (σ.moveClass cls newSuper).cacheVersion = σ.cacheVersion := by rw [heq]
  by_cases hlive : σ.dtable cls = none
  · rw [next_setSuperclass_of_none hm.2.2.1 hne hlive]
    exact advances_of_dtable (by rw [heq]) hv
  · obtain ⟨σ₂, σ', hσ', hs⟩ := setSuperclass_spec (T := T) hw hm hne hlive
    have hnext : σ.next T (.setSuperclass cls newSuper) = σ' := by
      rw [next, perform, hσ', Option.getD_some]
    rw [hnext]
    refine advances_of_lt ?_
    have hgrown := hs.grown.version
    have hbump := hs.version
    omega

theorem methodsOf_pushed_self (σ : Runtime) (cls : Class) (list : List Method) :
    (σ.pushed cls list).methodsOf cls = List.range' σ.nextMethod list.length ++ σ.methodsOf cls := by
  rw [methodsOf_pushed, if_pos rfl]

/-- **Every step counts** what it changes. -/
theorem advances_rules (σ₀ : Runtime) : StepRules T (fun σ => WellFormed σ ∧ Advances σ₀ σ) IsClass
    (fun _ _ => True) (PushCaches T) (ReloadCaches T) Movable where
  wellFormed h := h.1
  send h hc := messageable_of_class h.1.toForest h.1.toClassPairs hc.1 hc.2
  same h hs := ⟨h.1.of_sameTables hs, h.2.trans (advances_of_sameTables hs)⟩
  setImp m imp h := ⟨h.1.setImp m imp, h.2.trans (advances_of_dtable rfl rfl)⟩
  grow h hg hw _ := ⟨hw, h.2.trans hg.advances⟩
  push h _ _ := ⟨h.1.pushed .., h.2.trans (advances_pushed ..)⟩
  install {σ cls list τ} h hok hlive hτ := by
    refine ⟨((h.1.pushed ..).of_sameTables hτ).installAll (by rwa [hτ.dtable]) .., h.2.trans ?_⟩
    refine PushCaches.install h.1 hτ hlive hok fun m hm => ?_
    obtain ⟨e, he, rfl⟩ := List.mem_map.mp hm
    have hnew : e.2 ∈ List.range' σ.nextMethod list.length := by
      simpa using mem_of_mem_collectMethods he
    rw [hτ.method]
    exact mem_range'_pushed hnew cls
  reload {σ cls list} h hok hlive := by
    refine ⟨(h.1.pushed ..).installAll hlive .., h.2.trans ?_⟩
    refine PushCaches.install h.1 (SameTables.refl _) hlive hok fun m hm => ?_
    obtain ⟨e, he, rfl⟩ := List.mem_map.mp hm
    have hown : e.2 ∈ (σ.pushed cls list).methodsOf cls := mem_of_mem_collectMethods he
    rw [methodsOf_pushed_self, List.mem_append] at hown
    refine List.mem_append.mpr (hown.imp (fun hnew => mem_range'_pushed hnew cls) fun hold => ?_)
    rw [pushed_method_of_lt σ cls list (h.1.fresh cls e.2 hold)]
    exact List.mem_map_of_mem hold
  move h hm := ⟨h.1.move hm, h.2.trans (advances_setSuperclass h.1 hm)⟩

/-- What the steps count, the runs count. -/
theorem runs_advances {σ₀ : Runtime} (hw : WellFormed σ₀)
    (hrun : Runs (guarded (OpCaches T) (Runtime.next T)) σ₀ σ) : WellFormed σ ∧ Advances σ₀ σ := by
  have hstart : WellFormed σ₀ ∧ Advances σ₀ σ₀ := ⟨hw, Advances.refl σ₀⟩
  have hstep : ∀ υ op υ', (WellFormed υ ∧ Advances σ₀ υ) → guarded (OpCaches T) (Runtime.next T) υ op υ' →
      WellFormed υ' ∧ Advances σ₀ υ' := by
    rintro υ op υ' hυ ⟨hok, rfl⟩
    exact (advances_rules σ₀).next hυ hok
  exact hrun.invariant hstart hstep

/-! ## Slots and versions -/

/-- An entry of the table is found at once. -/
theorem objcMsgLookupInternal_of_entry {proxyLookup : Receiver → Selector → Option Receiver} {sel : Selector}
    (receiver : Receiver) {slot : MethodId}
    (h : σ.entry (T.index sel) (σ.classForObject receiver) = some slot) (fuel : ℕ) :
    objcMsgLookupInternal T proxyLookup sel (fuel + 1) σ receiver =
      some (σ, some slot, σ.methodCacheVersion) := by
  rw [objcMsgLookupInternal]
  dsimp only
  rw [dtableForClass_apply, h]

/-- Without a hook, a slot comes from the table of the class, which has been initialised if need be. -/
theorem objcMsgLookupInternal_slot {proxyLookup : Receiver → Selector → Option Receiver}
    (hproxy : ∀ r s, proxyLookup r s = none) {sel : Selector} {receiver : Receiver} {slot : MethodId}
    {fuel version : ℕ} {σ₁ : Runtime}
    (h : objcMsgLookupInternal T proxyLookup sel fuel σ receiver = some (σ₁, some slot, version)) :
    version = σ.methodCacheVersion ∧ σ₁.entry (T.index sel) (σ.classForObject receiver) = some slot ∧
      (σ₁ = σ ∨ σ.sendInitialize T (σ.classCount + 1) receiver.cls = some σ₁) := by
  cases fuel with
  | zero => cases h
  | succ fuel =>
    rw [objcMsgLookupInternal] at h
    dsimp only at h
    rw [dtableForClass_apply] at h
    cases hfirst : σ.entry (T.index sel) (σ.classForObject receiver) with
    | some m =>
      rw [hfirst] at h
      cases h
      exact ⟨rfl, hfirst, .inl rfl⟩
    | none =>
      rw [hfirst] at h
      obtain ⟨υ, hυ, h⟩ := Option.bind_eq_some_iff.mp h
      have hinit : υ = σ ∨ σ.sendInitialize T (σ.classCount + 1) receiver.cls = some υ := by
        split at hυ
        · exact .inl (Option.some.inj hυ).symm
        · exact .inr hυ
      rw [dtableForClass_apply, hproxy] at h
      cases hsecond : υ.entry (T.index sel) (σ.classForObject receiver) with
      | some m =>
        rw [hsecond] at h
        cases h
        exact ⟨rfl, hsecond, hinit⟩
      | none =>
        rw [hsecond] at h
        cases h

/-- **Cached slots are good** for as long as the version that they came with. -/
theorem lookup_cacheable {σ₀ σ σ₁ σ₂ : Runtime} (hload : Loaded σ₀)
    (hrun : Runs (guarded (OpCaches T) (Runtime.next T)) σ₀ σ)
    {proxyLookup : Receiver → Selector → Option Receiver} (hproxy : ∀ r s, proxyLookup r s = none)
    {receiver : Receiver} (hcls : σ.IsClass receiver.cls) {sel : Selector} {slot : MethodId}
    {fuel version : ℕ}
    (hfound : objcMsgLookupInternal T proxyLookup sel fuel σ receiver = some (σ₁, some slot, version))
    (hcacheable : version ≠ 0) (hlater : Runs (guarded (OpCaches T) (Runtime.next T)) σ₁ σ₂)
    (hfew : σ₂.cacheVersion < 2 ^ 64) (hversion : σ₂.methodCacheVersion = version) {receiver' : Receiver}
    (hreceiver : σ₂.classForObject receiver' = σ.classForObject receiver) (fuel' : ℕ) :
    objcMsgLookupInternal T proxyLookup sel (fuel' + 1) σ₂ receiver' = some (σ₂, some slot, version) := by
  have hw := (runs_advances hload.wellFormed hrun).1
  obtain ⟨rfl, hentry, hinit⟩ := objcMsgLookupInternal_slot hproxy hfound
  -- the lookup itself may create tables
  obtain ⟨hw₁, hfirst⟩ : WellFormed σ₁ ∧ σ.cacheVersion ≤ σ₁.cacheVersion := by
    rcases hinit with rfl | hsend
    · exact ⟨hw, le_rfl⟩
    · obtain ⟨σ', hσ', hw', hi⟩ := sendInitialize_spec (T := T) (σ.classCount + 1) σ receiver.cls hw
        (messageable_of_class hw.toForest hw.toClassPairs hcls.1 hcls.2)
        (fun _ _ => ⟨not_under_false _, not_under_false _⟩) (Forest.depth_lt_fuel _)
      obtain rfl : σ₁ = σ' := Option.some.inj (hsend.symm.trans hσ')
      exact ⟨hw', hi.version⟩
  obtain ⟨-, hle, hkept⟩ := runs_advances hw₁ hlater
  have hcount : σ₂.cacheVersion = σ.cacheVersion := by
    rw [methodCacheVersion, methodCacheVersion, Nat.mod_eq_of_lt hfew,
      Nat.mod_eq_of_lt (hfirst.trans_lt (hle.trans_lt hfew))] at hversion
    exact hversion
  have hne : σ₁.cacheVersion ≠ 0 := by
    intro hzero
    have : σ.cacheVersion = 0 := by omega
    rw [methodCacheVersion, this] at hcacheable
    exact hcacheable rfl
  have hlast := hkept (by omega) hne _ _ slot hentry
  rw [← hreceiver] at hlast
  rw [objcMsgLookupInternal_of_entry receiver' hlast, hversion]

/-- A subclass that overrides the method of its root class once it is initialised. -/
def overridden : Runtime :=
  runList (Runtime.next (SelectorTable.coded id)) (rootAndChild [⟨"first", "v", 10⟩] [])
    [.sendInitialize 2, .registerMethods 2 [⟨"first", "v", 20⟩]]

theorem runs_overridden :
    Runs (guarded (OpCaches (SelectorTable.coded id)) (Runtime.next (SelectorTable.coded id)))
      (rootAndChild [⟨"first", "v", 10⟩] []) overridden := by
  have hok : AllOk (OpCaches (SelectorTable.coded id)) (Runtime.next (SelectorTable.coded id))
      (rootAndChild [⟨"first", "v", 10⟩] [])
      [.sendInitialize 2, .registerMethods 2 [⟨"first", "v", 20⟩]] := by decide +kernel
  exact runs_of_allOk _ _ hok

theorem found_overridden : objcMsgLookupInternal (SelectorTable.coded id) (fun _ _ => none) ⟨"first", none⟩ 1
    overridden (.instanceOf 2) = some (overridden, some 1, 1) := by
  have hentry : overridden.entry ((SelectorTable.coded id).index ⟨"first", none⟩) 2 = some 1 := by
    decide +kernel
  have hversion : overridden.methodCacheVersion = 1 := by decide +kernel
  rw [objcMsgLookupInternal_of_entry (.instanceOf 2) hentry 0, hversion]

/-- The slot of a name stays good while methods of other names are added. -/
theorem lookup_cacheable_overridden :
    objcMsgLookupInternal (SelectorTable.coded id) (fun _ _ => none) ⟨"first", none⟩ 1
      (overridden.next (SelectorTable.coded id) (.registerMethods 2 [⟨"second", "i", 30⟩])) (.instanceOf 2) =
      some (overridden.next (SelectorTable.coded id) (.registerMethods 2 [⟨"second", "i", 30⟩]),
        some 1, 1) := by
  have hcls : overridden.IsClass (Receiver.instanceOf 2).cls := by decide +kernel
  have hlater : AllOk (OpCaches (SelectorTable.coded id)) (Runtime.next (SelectorTable.coded id)) overridden
      [.registerMethods 2 [⟨"second", "i", 30⟩]] := by decide +kernel
  exact lookup_cacheable (rootAndChild_loaded _ _) runs_overridden (fun _ _ => rfl) hcls found_overridden
    (by decide) (runs_of_allOk _ _ hlater) (by decide +kernel) (by decide +kernel)
    (classForObject_instanceOf ..) 0

/-- All calls, on classes that are loaded and with superclasses that they can have. -/
def OpLegal (T : SelectorTable) (σ : Runtime) (op : Op) : Prop :=
  OpOk T IsClass (fun _ _ => True) (fun _ _ _ => True) (fun _ _ _ => True) Movable σ op

instance (T : SelectorTable) (σ : Runtime) (op : Op) : Decidable (OpLegal T σ op) :=
  inferInstanceAs (Decidable (OpOk ..))

/-- A method of the same name with other types takes the untyped entry, but not the version. -/
theorem lookup_stale :
    ¬ ∀ (T : SelectorTable) (σ₀ σ σ₁ σ₂ : Runtime) (receiver : Receiver) (sel : Selector) (slot : MethodId)
        (version : ℕ), Loaded σ₀ → Runs (guarded (OpLegal T) (Runtime.next T)) σ₀ σ →
      σ.IsClass receiver.cls →
      objcMsgLookupInternal T (fun _ _ => none) sel 1 σ receiver = some (σ₁, some slot, version) →
      version ≠ 0 → Runs (guarded (OpLegal T) (Runtime.next T)) σ₁ σ₂ →
      σ₂.cacheVersion < 2 ^ 64 → σ₂.methodCacheVersion = version →
      σ₂.classForObject receiver = σ.classForObject receiver →
      ∃ σ₃ version', objcMsgLookupInternal T (fun _ _ => none) sel 1 σ₂ receiver =
        some (σ₃, some slot, version') := by
  intro hall
  have hbefore : AllOk (OpLegal (SelectorTable.coded id)) (Runtime.next (SelectorTable.coded id))
      (rootAndChild [⟨"first", "v", 10⟩] [])
      [.sendInitialize 2, .registerMethods 2 [⟨"first", "v", 20⟩]] := by decide +kernel
  have hcls : overridden.IsClass (Receiver.instanceOf 2).cls := by decide +kernel
  obtain ⟨σ₃, version', hslot⟩ := hall (SelectorTable.coded id) _ overridden overridden
    (overridden.next (SelectorTable.coded id) (.registerMethods 2 [⟨"first", "i", 30⟩])) (.instanceOf 2)
    ⟨"first", none⟩ 1 1 (rootAndChild_loaded [⟨"first", "v", 10⟩] []) (runs_of_allOk _ _ hbefore) hcls
    found_overridden (by decide) (Runs.single (a := .registerMethods 2 [⟨"first", "i", 30⟩]) ⟨trivial, rfl⟩)
    (by decide +kernel) (by decide +kernel) (classForObject_instanceOf ..)
  have hentry : (overridden.next (SelectorTable.coded id) (.registerMethods 2 [⟨"first", "i", 30⟩])).entry
      ((SelectorTable.coded id).index ⟨"first", none⟩) 2 = some 2 := by decide +kernel
  rw [objcMsgLookupInternal_of_entry (.instanceOf 2) hentry 0, Option.some.injEq, Prod.mk.injEq,
    Prod.mk.injEq] at hslot
  exact absurd hslot.2.1 (by decide)

end Runtime

end Libobjc2.Dispatch
