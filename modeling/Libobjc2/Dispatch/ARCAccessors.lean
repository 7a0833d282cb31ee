import Libobjc2.Dispatch.Resolution

/-!
# The two checks for ARC compatibility (`src/dispatch/dtable.c`, lines 165–254)

`checkARCAccessors` asks the tables which class `retain`, `release` and `autorelease` come from,
and whether that class itself declares to be compliant. `checkARCAccessorsSlow` is for classes
without tables: it scans their method lists, and takes over what it finds for the superclass.

Results:
* `slow_fastArc`: the nearest class that says anything decides what the scan finds.
* `ownerForMethod_new`: in new tables, a method comes from the nearest class that implements it.
* `checks_agree_iff`: when the two agree.
* `checks_disagree`: a class that declares compliance for a method it inherits.
-/

namespace Libobjc2.Dispatch

open Libobjc2.Common

namespace Runtime

variable (T : SelectorTable)

/-! ## Specification -/

/-- The methods that both checks are about, and the one by which a class declares compliance. -/
def accessors : List String := ["retain", "release", "autorelease"]
def compliance : String := "_ARCCompliantRetainRelease"

/-- A class lists a method of the name. -/
def Lists (σ : Runtime) (cls : Class) (name : String) : Prop := ∃ m ∈ σ.methodsOf cls,
    (σ.method m).name = name

instance (σ : Runtime) (cls : Class) (name : String) : Decidable (σ.Lists cls name) :=
  inferInstanceAs (Decidable (∃ m ∈ _, _))

/-- The table that a class gets when neither it nor its superclasses have one. -/
def newDtable (σ : Runtime) : ℕ → Class → Option Dtable
  | 0, _ => none
  | fuel + 1, cls => some (fill T σ.method ((σ.superClass cls).bind (newDtable σ fuel)) (σ.methodsOf cls))

/-- The implementation that a class inherits for a typed selector. -/
def inheritedImp (σ : Runtime) (cls : Class) (key : ℕ) : Option Imp :=
  (((σ.superClass cls).bind (σ.newDtable T (σ.classCount + 1))).bind fun t => t key).map fun m =>
  (σ.method m).imp

/-- A class lists a method of the name with another implementation than the one it inherits; the
    others do not go into its table. -/
def Implements (σ : Runtime) (cls : Class) (name : String) : Prop :=
  ∃ m ∈ σ.methodsOf cls, (σ.method m).name = name ∧
  σ.inheritedImp T cls (T.typed (σ.method m)) ≠ some (σ.method m).imp

instance (σ : Runtime) (cls : Class) (name : String) : Decidable (σ.Implements T cls name) :=
  inferInstanceAs (Decidable (∃ m ∈ _, _))

/-- The class that a class has the method of a name from. -/
def provider (σ : Runtime) (cls : Class) (name : String) : Option Class :=
  (σ.ancestors cls).find? fun c => σ.Implements T c name

/-- A class that the scan need not look beyond. -/
def Decisive (σ : Runtime) (cls : Class) : Prop :=
  σ.fastArc cls = true ∨ σ.Lists cls compliance ∨ ∃ name ∈ accessors, σ.Lists cls name

instance (σ : Runtime) (cls : Class) : Decidable (σ.Decisive cls) := inferInstanceAs (Decidable (_ ∨ _ ∨ _))

/-- The nearest class that lists an accessor or the declaration, or has the flag set, has the flag or lists the
    declaration exactly if each accessor comes from a class that implements the declaration too. -/
def DeclaredByProviders (σ : Runtime) (cls : Class) : Prop :=
  ∀ c ∈ (σ.ancestors cls).find? fun c => σ.Decisive c,
    (σ.fastArc c = true ∨ σ.Lists c compliance) ↔
      ∀ name ∈ accessors, ∀ p ∈ σ.provider T cls name, σ.Implements T p compliance

/-! ## Model of the slow check -/

/-- `selEqualUnTyped` (lines 203–210), for the selector of a method and the untyped one of a name. -/
def selEqualUnTyped (method : Method) (name : String) : Bool :=
  T.typed method = T.untyped name || T.untyped method.name = T.untyped name

/-- The loops over the methods of a class (lines 232–249), with `selfImplementsRetainRelease`; `none`
    where the function returns early. -/
def scanAccessors (σ : Runtime) : List MethodId → Bool → Option Bool
  | [], selfImplements => some selfImplements
  | m :: ms, selfImplements =>
    if accessors.any (selEqualUnTyped T (σ.method m)) then scanAccessors σ ms true
    else if selEqualUnTyped T (σ.method m) compliance then none
    else scanAccessors σ ms selfImplements

/-- `objc_set_class_flag(cls, objc_class_flag_fast_arc)`. -/
def setFastArc (σ : Runtime) (cls : Class) :
    Runtime := { σ with fastArc := Function.update σ.fastArc cls true }

/-- `checkARCAccessorsSlow` (lines 212–254). The `dtable` of the classes in `temporary` is still the
    uninstalled one: their table is in the look-aside list of classes inside `+initialize`. -/
def checkARCAccessorsSlow (σ : Runtime) (temporary : Class → Bool) : ℕ → Class → Runtime
  | 0, _ => σ
  | fuel + 1, cls =>
    if σ.classHasDtable cls && !temporary cls then σ
    else
      let σ' := (σ.superClass cls).elim σ (σ.checkARCAccessorsSlow temporary fuel)
      let superIsFast := (σ.superClass cls).elim true σ'.fastArc
      match σ'.scanAccessors T (σ'.methodsOf cls) false with
      | none => σ'.setFastArc cls
      | some selfImplements => if superIsFast && !selfImplements then σ'.setFastArc cls else σ'

variable {T}

/-! ## What the scan finds -/

theorem selEqualUnTyped_iff (method : Method) (name : String) :
    selEqualUnTyped T method name = true ↔ method.name = name := by
  rw [selEqualUnTyped, Bool.or_eq_true, decide_eq_true_eq, decide_eq_true_eq, T.untyped_inj]
  exact or_iff_right (T.typed_ne_untyped method name)

theorem any_accessors (method : Method) :
    accessors.any (selEqualUnTyped T method) = true ↔ method.name ∈ accessors := by
  simp only [List.any_eq_true, selEqualUnTyped_iff]
  exact ⟨fun ⟨name, hname, heq⟩ => heq ▸ hname, fun h => ⟨_, h, rfl⟩⟩

theorem compliance_not_accessor : compliance ∉ accessors := by decide

/-- The order of the methods does not matter: the declaration wins wherever it stands. -/
theorem scanAccessors_eq (σ : Runtime) (ms : List MethodId) (selfImplements : Bool) :
    σ.scanAccessors T ms selfImplements =
      if ∃ m ∈ ms, (σ.method m).name = compliance then none
      else some (selfImplements || decide (∃ m ∈ ms, (σ.method m).name ∈ accessors)) := by
  induction ms generalizing selfImplements with
  | nil => simp [scanAccessors]
  | cons m ms ih =>
    rw [scanAccessors]
    by_cases haccessor : (σ.method m).name ∈ accessors
    · have hne : (σ.method m).name ≠ compliance := fun h => compliance_not_accessor (h ▸ haccessor)
      rw [if_pos ((any_accessors _).mpr haccessor), ih]
      simp [hne, haccessor]
    · rw [if_neg (mt (any_accessors _).mp haccessor)]
      by_cases hdeclares : (σ.method m).name = compliance
      · rw [if_pos ((selEqualUnTyped_iff ..).mpr hdeclares), if_pos ⟨m, List.mem_cons_self, hdeclares⟩]
      · rw [if_neg (mt (selEqualUnTyped_iff ..).mp hdeclares), ih]
        simp [hdeclares, haccessor]

/-- What the slow check finds, for a class and its superclasses in order. -/
def verdict (σ : Runtime) : List Class → Bool
  | [] => true
  | c :: cs => σ.fastArc c || decide (σ.Lists c compliance) ||
      (verdict σ cs && !decide (∃ name ∈ accessors, σ.Lists c name))

theorem verdict_iff (σ : Runtime) (cs : List Class) :
    σ.verdict cs = true ↔ ∀ c ∈ cs.find? fun c => σ.Decisive c, σ.fastArc c = true ∨
    σ.Lists c compliance := by
  induction cs with
  | nil => simp [verdict]
  | cons c cs ih =>
    rw [verdict, List.find?_cons]
    by_cases hdecisive : σ.Decisive c
    · rw [decide_eq_true hdecisive]
      rcases hdecisive with h | h | h <;> simp [h]
    · rw [decide_eq_false hdecisive]
      simp only [Decisive, not_or] at hdecisive
      obtain ⟨hflag, hdeclares, hlists⟩ := hdecisive
      rw [decide_eq_false hdeclares, decide_eq_false hlists]
      simpa [hflag] using ih

theorem sameTables_setFastArc (σ : Runtime) (cls : Class) : SameTables σ (σ.setFastArc cls) :=
  ⟨⟨rfl, rfl, rfl, rfl, rfl, rfl, rfl, rfl⟩, rfl, rfl⟩

/-- One class of the slow check. -/
theorem slow_step {σ : Runtime} {temporary : Class → Bool} {fuel : ℕ} {cls : Class}
    (hnone : σ.dtable cls = none)
    {τ : Runtime} (hτ : (σ.superClass cls).elim σ (σ.checkARCAccessorsSlow T temporary fuel) = τ)
    (hs : SameTables σ τ) :
    σ.checkARCAccessorsSlow T temporary (fuel + 1) cls =
      if σ.Lists cls compliance ∨
        ((σ.superClass cls).elim true τ.fastArc = true ∧ ¬ ∃ name ∈ accessors, σ.Lists cls name)
      then τ.setFastArc cls else τ := by
  have haccessors : (∃ m ∈ σ.methodsOf cls, (σ.method m).name ∈ accessors) ↔ ∃ name ∈ accessors,
      σ.Lists cls name :=
    ⟨fun ⟨m, hm, hname⟩ => ⟨_, hname, m, hm, rfl⟩, fun ⟨_, hname, m, hm, heq⟩ => ⟨m, hm, heq ▸ hname⟩⟩
  have hscan : τ.scanAccessors T (τ.methodsOf cls) false =
      if σ.Lists cls compliance then none else some (decide (∃ name ∈ accessors, σ.Lists cls name)) := by
    rw [scanAccessors_eq, hs.methodsOf, hs.method, Bool.false_or, decide_eq_decide.mpr haccessors]
    rfl
  rw [checkARCAccessorsSlow, if_neg (by simp [classHasDtable, hnone])]
  simp only [hτ, hscan]
  by_cases hdeclares : σ.Lists cls compliance
  · rw [if_pos hdeclares, if_pos (.inl hdeclares)]
  · rw [if_neg hdeclares]
    simp only [hdeclares, false_or, Bool.and_eq_true, Bool.not_eq_true', decide_eq_false_iff_not]

/-- **The slow check** sets flags of the class and its superclasses only; the flag of the class
    is decided by the first of them that says anything. -/
theorem slow_fastArc {σ : Runtime} (hf : Forest σ) (temporary : Class → Bool) : ∀ (fuel : ℕ) (cls : Class),
    depth σ.superClass (Finset.range σ.classCount) cls < fuel →
    (∀ a, Below σ.superClass cls a → σ.dtable a = none) →
    SameTables σ (σ.checkARCAccessorsSlow T temporary fuel cls) ∧
    (∀ n, ¬ Below σ.superClass cls n → (σ.checkARCAccessorsSlow T temporary fuel cls).fastArc n =
      σ.fastArc n) ∧
    (σ.checkARCAccessorsSlow T temporary fuel cls).fastArc cls = σ.verdict (σ.ancestorsFuel fuel cls) := by
  intro fuel
  induction fuel with
  | zero => intro cls h; omega
  | succ fuel ih =>
    intro cls hd hnone
    obtain ⟨τ, hτ, hs, hother, hsuper⟩ : ∃ τ,
        (σ.superClass cls).elim σ (σ.checkARCAccessorsSlow T temporary fuel) = τ ∧ SameTables σ τ ∧
        (∀ n, (n = cls ∨ ¬ Below σ.superClass cls n) → τ.fastArc n = σ.fastArc n) ∧
        (σ.superClass cls).elim true τ.fastArc =
          σ.verdict ((σ.superClass cls).elim [] (σ.ancestorsFuel fuel)) := by
      cases hp : σ.superClass cls with
      | none => exact ⟨σ, rfl, SameTables.refl σ, fun _ _ => rfl, rfl⟩
      | some p =>
        have hlt := depth_lt hf.acyclic (hf.bounded cls p hp).1 hp
        have hup := Below.of_parent hp
        obtain ⟨hs, hother, hflag⟩ := ih p (by omega) fun a ha => hnone a (hup.trans ha)
        refine ⟨_, rfl, hs, fun n hn => hother n ?_, hflag⟩
        rcases hn with rfl | hn
        · exact hf.acyclic n p hp
        · exact fun h => hn (hup.trans h)
    have hself := hother cls (.inl rfl)
    rw [slow_step (hnone cls (Below.refl cls)) hτ hs, hsuper]
    refine ⟨?_, fun n hn => ?_, ?_⟩
    · split
      · exact hs.trans (sameTables_setFastArc τ cls)
      · exact hs
    · have hne : n ≠ cls := by
        rintro rfl
        exact hn (Below.refl n)
      rw [← hother n (.inr hn)]
      split
      · exact Function.update_of_ne hne ..
      · rfl
    · rw [ancestorsFuel, verdict]
      split
      · next h =>
        have hset : (τ.setFastArc cls).fastArc cls = true := Function.update_self ..
        rw [hset]
        rcases h with h | ⟨h, h'⟩
        · simp [h]
        · simp [h, h']
      · next h =>
        rw [not_or, not_and, not_not] at h
        rw [hself, decide_eq_false h.1]
        cases hv : σ.verdict ((σ.superClass cls).elim [] (σ.ancestorsFuel fuel)) with
        | false => simp
        | true => simp [h.2 hv]

/-! ## Where the methods in new tables come from -/

/-- One round of filling a table. -/
def fillStep (T : SelectorTable) (method : MethodId → Method) (sup : Option Dtable) (t : Dtable)
    (m : MethodId) : Dtable :=
  if Installs T method sup t m then t.put T (method m) m else t

theorem fill_eq (method : MethodId → Method) (sup : Option Dtable) (ms : List MethodId) :
    fill T method sup ms = ms.foldl (fillStep T method sup) (sup.getD fun _ => none) := rfl

theorem getD_eq_bind (sup : Option Dtable) (key : ℕ) : (sup.getD fun _ => none) key =
    sup.bind fun s => s key := by
  cases sup <;> rfl

/-- What a new table holds is a method of the class or inherited. -/
theorem fill_mem {method : MethodId → Method} {sup : Option Dtable} {ms : List MethodId} {key : ℕ}
    {m : MethodId}
    (h : fill T method sup ms key = some m) : m ∈ ms ∨ (sup.bind fun s => s key) = some m := by
  rw [fill_eq] at h
  induction ms using List.reverseRecOn with
  | nil => exact .inr (by rw [← getD_eq_bind]; exact h)
  | append_singleton pre x ih =>
    rw [List.foldl_append, List.foldl_cons, List.foldl_nil, fillStep] at h
    split at h
    · by_cases hx : m = x
      · exact .inl (by simp [hx])
      · refine (ih ?_).imp_left fun hm => List.mem_append_left _ hm
        have hne : some x ≠ some m := fun heq => hx (Option.some.inj heq).symm
        unfold Dtable.put Dtable.insert at h
        simp only [Function.update_apply] at h
        split at h
        · exact absurd h hne
        · split at h
          · exact absurd h hne
          · exact h
    · exact (ih h).imp_left fun hm => List.mem_append_left _ hm

/-- The method has another implementation than the one that is inherited for its selector. -/
def OwnImp (T : SelectorTable) (method : MethodId → Method) (sup : Option Dtable) (m : MethodId) : Prop :=
  (sup.bind fun s => s (T.typed (method m))).map (fun old => (method old).imp) ≠ some (method m).imp

/-- The table after the methods `pre`. -/
structure Filling (T : SelectorTable) (method : MethodId → Method) (sup : Option Dtable) (pre : List MethodId)
    (t : Dtable) : Prop where
  typed : ∀ x : Method,
    (t (T.typed x) = (sup.bind fun s => s (T.typed x)) ∧
      ¬ ∃ m ∈ pre, T.typed (method m) = T.typed x ∧ OwnImp T method sup m) ∨
    ∃ m ∈ pre, T.typed (method m) = T.typed x ∧ OwnImp T method sup m ∧ t (T.typed x) = some m
  own : ∀ name, (∃ m ∈ pre, (method m).name = name ∧ OwnImp T method sup m) →
      ∃ m ∈ pre, t (T.untyped name) = some m
  inherited : ∀ name, (¬ ∃ m ∈ pre, (method m).name = name ∧ OwnImp T method sup m) →
    t (T.untyped name) = sup.bind fun s => s (T.untyped name)

section Filling

variable {method : MethodId → Method} {sup : Option Dtable} {pre : List MethodId} {t : Dtable} {m : MethodId}

theorem exists_mem_snoc {p : MethodId → Prop} : (∃ a ∈ pre ++ [m], p a) ↔ (∃ a ∈ pre, p a) ∨ p m := by
  simp [or_and_right, exists_or]

/-- The first method with an implementation of its own for a selector is installed. -/
theorem Filling.put (h : Filling T method sup pre t) (hown : OwnImp T method sup m) :
    Filling T method sup (pre ++ [m]) (t.put T (method m) m) where
  typed x := by
    rw [Dtable.put_typed]
    by_cases hx : T.typed x = T.typed (method m)
    · rw [if_pos hx]
      exact .inr ⟨m, by simp, hx.symm, hown, rfl⟩
    · rw [if_neg hx, exists_mem_snoc, exists_mem_snoc]
      refine (h.typed x).imp (fun ⟨h₁, h₂⟩ => ⟨h₁, ?_⟩) .inl
      rintro (h' | ⟨h', -⟩)
      · exact h₂ h'
      · exact hx h'.symm
  own name hname := by
    rw [Dtable.put_untyped]
    by_cases hn : name = (method m).name
    · exact ⟨m, by simp, if_pos hn⟩
    · rw [if_neg hn, exists_mem_snoc]
      exact .inl (h.own name ((exists_mem_snoc.mp hname).resolve_right fun h' => hn h'.1.symm))
  inherited name hname := by
    rw [exists_mem_snoc, not_or, not_and] at hname
    have hn : name ≠ (method m).name := fun h' => hname.2 h'.symm hown
    rw [Dtable.put_untyped, if_neg hn]
    exact h.inherited name hname.1

/-- A method that is not installed either repeats the inherited implementation, or comes after another one. -/
theorem Filling.skip (h : Filling T method sup pre t)
    (hskip : OwnImp T method sup m → ∃ a ∈ pre, T.typed (method a) = T.typed (method m) ∧
      OwnImp T method sup a) :
    Filling T method sup (pre ++ [m]) t where
  typed x := by
    rw [exists_mem_snoc, exists_mem_snoc]
    refine (h.typed x).imp (fun ⟨h₁, h₂⟩ => ⟨h₁, ?_⟩) .inl
    rintro (h' | ⟨hsel, hown⟩)
    · exact h₂ h'
    · obtain ⟨a, ha, hsel', hown'⟩ := hskip hown
      exact h₂ ⟨a, ha, hsel'.trans hsel, hown'⟩
  own name hname := by
    rw [exists_mem_snoc]
    refine .inl (h.own name ((exists_mem_snoc.mp hname).elim id fun ⟨hn, hown⟩ => ?_))
    obtain ⟨a, ha, hsel, hown'⟩ := hskip hown
    exact ⟨a, ha, (T.name_eq_of_typed hsel).trans hn, hown'⟩
  inherited name hname := h.inherited name fun h' => hname (exists_mem_snoc.mpr (.inl h'))

/-- **What a new table holds.** -/
theorem filling_fill (ms : List MethodId) : Filling T method sup ms (fill T method sup ms) := by
  rw [fill_eq]
  suffices ∀ pre, pre ⊆ ms →
      Filling T method sup pre (pre.foldl (fillStep T method sup) (sup.getD fun _ => none)) from
    this ms fun _ h => h
  intro pre
  induction pre using List.reverseRecOn with
  | nil => exact fun _ => ⟨fun x => .inl ⟨getD_eq_bind .., by simp⟩, by simp, fun _ _ => getD_eq_bind ..⟩
  | append_singleton pre m ih =>
    intro hsub
    have hpre := ih fun x hx => hsub (List.mem_append_left _ hx)
    rw [List.foldl_append, List.foldl_cons, List.foldl_nil, fillStep]
    by_cases hin : Installs T method sup (pre.foldl (fillStep T method sup) (sup.getD fun _ => none)) m
    · rw [if_pos hin]
      refine hpre.put ?_
      rw [OwnImp, hin.1]
      exact hin.2
    · rw [if_neg hin]
      refine hpre.skip fun hown => ?_
      rcases hpre.typed (method m) with ⟨hentry, -⟩ | ⟨a, ha, hsel, haown, -⟩
      · refine absurd ⟨hentry.symm, ?_⟩ hin
        rw [hentry]
        exact hown
      · exact ⟨a, ha, hsel, haown⟩

end Filling

/-! ## Owners in new tables -/

/-- `cls` and its superclasses have tables in `σ'` that were made since `σ`. -/
structure Fresh (T : SelectorTable) (σ σ' : Runtime) (cls : Class) : Prop where
  grows : Grows T σ σ'
  created : ∀ a, Below σ.superClass cls a → σ.dtable a = none ∧ σ'.dtable a ≠ none

section Fresh

variable {σ σ' : Runtime} {cls : Class}

theorem Fresh.up (h : Fresh T σ σ' cls) {a : Class} (ha : Below σ.superClass cls a) : Fresh T σ σ' a :=
  ⟨h.grows, fun b hb => h.created b (ha.trans hb)⟩

theorem Fresh.dtable_eq (h : Fresh T σ σ' cls) :
    σ'.dtable cls = some (fill T σ.method ((σ.superClass cls).bind σ'.dtable) (σ.methodsOf cls)) := by
  obtain ⟨hnone, hsome⟩ := h.created cls (Below.refl cls)
  obtain ⟨t, ht⟩ := Option.ne_none_iff_exists'.mp hsome
  rw [ht, h.grows.created cls t hnone ht]

/-- The tables are those that can be told from the method lists alone. -/
theorem Fresh.newDtable (hf : Forest σ) : ∀ (fuel : ℕ) (cls : Class),
    depth σ.superClass (Finset.range σ.classCount) cls < fuel → Fresh T σ σ' cls →
    σ'.dtable cls = σ.newDtable T fuel cls := by
  intro fuel
  induction fuel with
  | zero => intro cls h; omega
  | succ fuel ih =>
    intro cls hd h
    rw [h.dtable_eq, Runtime.newDtable]
    cases hp : σ.superClass cls with
    | none => rfl
    | some p =>
      have hlt := depth_lt hf.acyclic (hf.bounded cls p hp).1 hp
      rw [Option.bind_some, Option.bind_some, ih p (by omega) (h.up (Below.of_parent hp))]

theorem Fresh.inheritedImp (hf : Forest σ) (h : Fresh T σ σ' cls) (key : ℕ) :
    (((σ.superClass cls).bind σ'.dtable).bind fun s => s key).map (fun m => (σ.method m).imp) =
    σ.inheritedImp T cls key := by
  rw [Runtime.inheritedImp]
  cases hp : σ.superClass cls with
  | none => rfl
  | some p =>
    rw [Option.bind_some, Option.bind_some,
      Fresh.newDtable hf (σ.classCount + 1) p (Forest.depth_lt_fuel p) (h.up (Below.of_parent hp))]

/-- An entry of a table is a method of the class or of one above it. -/
theorem Fresh.entry_mem (hf : Forest σ) (h : Fresh T σ σ' cls) {key : ℕ} {m : MethodId} {t : Dtable}
    (ht : σ'.dtable cls = some t) (hm : t key = some m) : ∃ a, Below σ.superClass cls a ∧
    m ∈ σ.methodsOf a := by
  induction cls using Acyclic.induction hf.acyclic hf.mem_range generalizing t with
  | _ cls ih =>
    rw [h.dtable_eq, Option.some.injEq] at ht
    subst ht
    rcases fill_mem hm with hm | hm
    · exact ⟨cls, Below.refl cls, hm⟩
    · obtain ⟨s, hs, hm⟩ := Option.bind_eq_some_iff.mp hm
      obtain ⟨p, hp, hs⟩ := Option.bind_eq_some_iff.mp hs
      obtain ⟨a, ha, hma⟩ := ih p hp (h.up (Below.of_parent hp)) hs hm
      exact ⟨a, (Below.of_parent hp).trans ha, hma⟩

/-- The entry for a name is one of the methods of the class, or the entry of the superclass. -/
theorem Fresh.entry (hw : WellFormed σ) (h : Fresh T σ σ' cls) (name : String) :
    (σ.Implements T cls name → ∃ m, σ'.dtableForClass cls (T.untyped name) = some m ∧
      ∀ p, σ.superClass cls = some p → σ'.dtableForClass p (T.untyped name) ≠ some m) ∧
    (¬ σ.Implements T cls name → σ'.dtableForClass cls (T.untyped name) =
      (σ.superClass cls).bind fun p => σ'.dtableForClass p (T.untyped name)) := by
  have hfilling : Filling T σ.method ((σ.superClass cls).bind σ'.dtable) (σ.methodsOf cls)
      (fill T σ.method ((σ.superClass cls).bind σ'.dtable) (σ.methodsOf cls)) := filling_fill _
  have htable := dtableForClass_eq h.dtable_eq
  have himpl : σ.Implements T cls name ↔ ∃ m ∈ σ.methodsOf cls, (σ.method m).name = name ∧
      OwnImp T σ.method ((σ.superClass cls).bind σ'.dtable) m := by
    refine exists_congr fun m => and_congr_right fun _ => and_congr_right fun _ => ?_
    rw [OwnImp, h.inheritedImp hw.toForest]
  rw [htable, himpl]
  refine ⟨fun hown => ?_, fun hnone => (hfilling.inherited name hnone).trans ?_⟩
  · obtain ⟨m, hm, hentry⟩ := hfilling.own name hown
    refine ⟨m, hentry, fun p hp hpm => ?_⟩
    have hup := h.up (Below.of_parent hp)
    obtain ⟨t, ht⟩ := Option.ne_none_iff_exists'.mp (hup.created p (Below.refl p)).2
    rw [dtableForClass_eq ht] at hpm
    obtain ⟨a, ha, hma⟩ := hup.entry_mem hw.toForest ht hpm
    obtain rfl := hw.owned_once a cls m hma hm
    exact hw.acyclic a p hp ha
  · cases hp : σ.superClass cls with
    | none => rfl
    | some p =>
      obtain ⟨t, ht⟩ := Option.ne_none_iff_exists'.mp (h.created p (Below.of_parent hp)).2
      rw [Option.bind_some, Option.bind_some, ht, dtableForClass_eq ht, Option.bind_some]

/-- **In new tables, a method comes from the nearest class that implements it.** -/
theorem ownerForMethod_new (hw : WellFormed σ) (name : String) : ∀ (fuel : ℕ) (cls : Class),
    Fresh T σ σ' cls →
    σ'.ownerForMethod T fuel cls name = (σ.ancestorsFuel fuel cls).find? fun c => σ.Implements T c name := by
  intro fuel
  induction fuel with
  | zero => exact fun _ _ => rfl
  | succ fuel ih =>
    intro cls h
    obtain ⟨hown, hinherited⟩ := h.entry hw name
    rw [ownerForMethod, ancestorsFuel, List.find?_cons, h.grows.superClass]
    by_cases himpl : σ.Implements T cls name
    · obtain ⟨m, hentry, hsuper⟩ := hown himpl
      rw [hentry, decide_eq_true himpl]
      cases hp : σ.superClass cls with
      | none => rfl
      | some p => exact if_neg (hsuper p hp)
    · rw [hinherited himpl, decide_eq_false himpl]
      cases hp : σ.superClass cls with
      | none => rfl
      | some p =>
        have hih := ih p (h.up (Below.of_parent hp))
        simp only [Option.bind_some, Option.elim_some]
        rw [← hih]
        cases hentry : σ'.dtableForClass p (T.untyped name) with
        | none =>
          cases fuel with
          | zero => rfl
          | succ fuel => rw [ownerForMethod, hentry]
        | some m => exact if_pos rfl

theorem ownerForMethod_provider (hw : WellFormed σ) (h : Fresh T σ σ' cls) (name : String) :
    σ'.ownerForMethod T (σ'.classCount + 1) cls name = σ.provider T cls name := by
  rw [h.grows.classCount]
  exact ownerForMethod_new hw name _ cls h

/-- A class owns a method exactly if it implements it. -/
theorem ownsMethod_new (hw : WellFormed σ) (h : Fresh T σ σ' cls) (name : String) :
    σ'.ownsMethod T cls name = true ↔ σ.Implements T cls name := by
  rw [ownsMethod, decide_eq_true_eq, ownerForMethod_provider hw h, provider, ancestors,
    ancestorsFuel, List.find?_cons]
  by_cases himpl : σ.Implements T cls name
  · simp [himpl]
  · rw [decide_eq_false himpl]
    refine iff_of_false (fun hfound => ?_) himpl
    have hself := List.find?_some hfound
    exact himpl (by simpa using hself)

end Fresh

/-! ## Agreement -/

theorem ownerForMethod_congr {σ σ' : Runtime} (hsuper : σ'.superClass = σ.superClass)
    (hdtable : σ'.dtable = σ.dtable)
    (name : String) : ∀ (fuel : ℕ) (cls : Class), σ'.ownerForMethod T fuel cls name =
    σ.ownerForMethod T fuel cls name := by
  intro fuel
  induction fuel with
  | zero => exact fun _ => rfl
  | succ fuel ih =>
    intro cls
    have htable : σ'.dtableForClass = σ.dtableForClass := by
      funext c
      rw [dtableForClass, dtableForClass, hdtable]
    rw [ownerForMethod, ownerForMethod, htable, hsuper]
    simp only [ih]

/-- What the check on tables finds. -/
theorem checkARCAccessors_fastArc (σ : Runtime) (cls : Class) :
    (σ.checkARCAccessors T cls).fastArc cls = accessors.all fun name =>
      ((σ.checkFastAllocInit T cls).ownerForMethod T ((σ.checkFastAllocInit T cls).classCount + 1)
        cls name).all
        fun owner => (σ.checkFastAllocInit T cls).ownsMethod T owner compliance := by
  have hflag : (σ.checkARCAccessors T cls).fastArc cls = _ := Function.update_self ..
  rw [hflag]
  simp only [accessors, compliance, List.all_cons, List.all_nil, Bool.and_true, Bool.and_assoc]
  refine congrArg₂ _ ?_ (congrArg₂ _ ?_ ?_) <;>
  split <;>
  simp [*]

/-- **The check on new tables**: each accessor comes from a class that implements the declaration. -/
theorem fastArc_new {σ σ' : Runtime} (hw : WellFormed σ) {cls : Class} (h : Fresh T σ σ' cls) :
    (σ'.checkARCAccessors T cls).fastArc cls = true ↔
      ∀ name ∈ accessors, ∀ p ∈ σ.provider T cls name, σ.Implements T p compliance := by
  obtain ⟨fast, hfast⟩ := checkFastAllocInit_eq T σ' cls
  have hcongr : ∀ name fuel c, ({ σ' with fastAllocInit := fast } : Runtime).ownerForMethod T fuel c name =
      σ'.ownerForMethod T fuel c name := by
    intro name fuel c
    exact ownerForMethod_congr (by rfl) (by rfl) name fuel c
  have howns : ∀ owner, (σ'.checkFastAllocInit T cls).ownsMethod T owner compliance =
      σ'.ownsMethod T owner compliance := by
    intro owner
    rw [hfast, ownsMethod, ownsMethod, hcongr]
  have howner : ∀ name, (σ'.checkFastAllocInit T cls).ownerForMethod T
      ((σ'.checkFastAllocInit T cls).classCount + 1) cls name = σ.provider T cls name := by
    intro name
    rw [hfast, hcongr]
    exact ownerForMethod_provider hw h name
  rw [checkARCAccessors_fastArc, List.all_eq_true]
  refine forall₂_congr fun name _ => ?_
  rw [howner, Option.all_eq_true]
  refine forall₂_congr fun p hp => ?_
  have hup := (mem_ancestors hw.toForest).mp (List.mem_of_find?_eq_some hp)
  rw [howns, ownsMethod_new hw (h.up hup)]

/-- **The two checks agree** on a class without a table, once it has one, exactly if what the nearest decisive class
says is what holds for the providers of all accessors. -/
theorem checks_agree_iff {σ : Runtime} (hw : WellFormed σ) {cls : Class} (hm : σ.Messageable cls)
    (hnone : ∀ a ∈ σ.ancestors cls, σ.dtable a = none) (temporary : Class → Bool) :
    ∃ σ', σ.sendInitialize T (σ.classCount + 1) cls = some σ' ∧
      (((σ.checkARCAccessorsSlow T temporary (σ.classCount + 1) cls).fastArc cls = true ↔
        (σ'.checkARCAccessors T cls).fastArc cls = true) ↔ σ.DeclaredByProviders T cls) := by
  have habove : ∀ a, Below σ.superClass cls a → σ.dtable a = none := fun a ha =>
    hnone a ((mem_ancestors hw.toForest).mpr ha)
  obtain ⟨σ', hσ', hw', hinit⟩ := sendInitialize_spec (T := T) (σ.classCount + 1) σ cls hw hm
    (fun a _ => ⟨not_under_false a, not_under_false _⟩) (Forest.depth_lt_fuel cls)
  have hfresh : Fresh T σ σ' cls := by
    refine ⟨hinit.toGrowsOff, fun a ha => ⟨habove a ha, ?_⟩⟩
    exact hw'.live_above hinit.live (not_under_false cls) (by rw [hinit.superClass]; exact ha)
  obtain ⟨-, -, hslow⟩ := slow_fastArc (T := T) hw.toForest temporary (σ.classCount + 1) cls
      (Forest.depth_lt_fuel cls) habove
  refine ⟨σ', hσ', ?_⟩
  rw [hslow, verdict_iff, fastArc_new hw hfresh, DeclaredByProviders]
  show ((∀ c ∈ (σ.ancestors cls).find? fun c => σ.Decisive c, _) ↔ _) ↔ _
  cases hfirst : (σ.ancestors cls).find? fun c => σ.Decisive c with
  | none =>
    -- no class lists any of the methods
    refine iff_of_true (iff_of_true (by simp) fun name hname p hp => ?_) (by simp)
    have himpl : σ.Implements T p name := by simpa using List.find?_some hp
    obtain ⟨m, hm, heq, -⟩ := himpl
    have hlisted : σ.Decisive p := .inr (.inr ⟨name, hname, m, hm, heq⟩)
    exact absurd hlisted (by simpa using List.find?_eq_none.mp hfirst p (List.mem_of_find?_eq_some hp))
  | some c => simp

/-- A root class that implements the accessors and the declaration, and a subclass that overrides one. -/
theorem checks_agree_iff_child :
    let σ := rootAndChild [⟨"retain", "v", 10⟩, ⟨"release", "v", 11⟩, ⟨compliance, "v", 12⟩]
        [⟨"retain", "v", 13⟩]
    ∃ σ', σ.sendInitialize (SelectorTable.coded id) 5 2 = some σ' ∧
      (((σ.checkARCAccessorsSlow (SelectorTable.coded id) (fun _ => false) 5 2).fastArc 2 = true ↔
        (σ'.checkARCAccessors (SelectorTable.coded id) 2).fastArc 2 = true) ↔
          σ.DeclaredByProviders (SelectorTable.coded id) 2) :=
  let h := rootAndChild_loaded _ _
  checks_agree_iff h.wellFormed (messageable_of_linked h.wellFormed.toForest h.linked (by decide))
    (fun a _ => h.no_dtable a) _

/-- A subclass declares compliance, but has `retain` from a root class that does not. -/
theorem checks_disagree :
    ¬ ∀ (T : SelectorTable) (σ : Runtime) (cls : Class), WellFormed σ → σ.Messageable cls →
      (∀ a ∈ σ.ancestors cls, σ.dtable a = none) → (∀ a, σ.fastArc a = false) →
      ∀ σ', σ.sendInitialize T (σ.classCount + 1) cls = some σ' →
        ((σ.checkARCAccessorsSlow T (fun _ => false) (σ.classCount + 1) cls).fastArc cls = true ↔
          (σ'.checkARCAccessors T cls).fastArc cls = true) := by
  intro hall
  have h := rootAndChild_loaded [⟨"retain", "v", 10⟩] [⟨compliance, "v", 11⟩]
  have hagree := hall (SelectorTable.coded id) _ 2 h.wellFormed
    (messageable_of_linked h.wellFormed.toForest h.linked (by decide)) (fun a _ => h.no_dtable a)
    (fun _ => rfl) _
    (Option.some_get (by decide)).symm
  revert hagree
  decide

end Runtime

end Libobjc2.Dispatch
