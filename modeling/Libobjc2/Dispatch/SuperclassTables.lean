import Libobjc2.Dispatch.Resolution

/-!
# Rebuilt tables

`class_setSuperclass` changes the tables below a class in place. They should be what
`create_dtable_for_class` would make of the new superclass's table and the methods of each class.

Results:
* `untypedAbove_rules`: untyped entries are methods of the class or of classes above it, whatever a
  program does.
* `rebuilds_iff`: the tables are those of `create_dtable_for_class` if and only if the classes add
  nothing to the table of the new superclass.
* `setSuperclass_loses_untyped`: a class with one method of its own.
-/

namespace Libobjc2.Dispatch

open Libobjc2.Common

namespace Runtime

variable {T : SelectorTable} {σ σ' : Runtime}

/-! ## Entries of rebased tables -/

/-- The temporary table of the own methods has the typed selectors of the class. -/
theorem ownMethodTable_eq_none {cls : Class} {index : ℕ} :
    σ.ownMethodTable T cls index = none ↔ ∀ m ∈ σ.methodsOf cls, T.typed (σ.method m) ≠ index := by
  have key : ∀ (ms : List MethodId) (t : Dtable),
      ms.foldl (fun temporary m =>
        if temporary (T.typed (σ.method m)) = none then temporary.insert (T.typed (σ.method m)) (some m)
        else temporary) t index = none ↔ t index = none ∧ ∀ m ∈ ms, T.typed (σ.method m) ≠ index := by
    intro ms
    induction ms with
    | nil => simp
    | cons m ms ih =>
      intro t
      rw [List.foldl_cons, ih, List.forall_mem_cons, ← and_assoc]
      refine and_congr_left fun _ => ?_
      by_cases hm : T.typed (σ.method m) = index
      · subst hm
        by_cases ht : t (T.typed (σ.method m)) = none
        · simp [ht, Dtable.insert]
        · simp [ht]
      · have hne : index ≠ T.typed (σ.method m) := fun h => hm h.symm
        by_cases ht : t (T.typed (σ.method m)) = none
        · simp [ht, Dtable.insert, Function.update_of_ne hne, hm]
        · simp [ht, hm]
  have h := key (σ.methodsOf cls) fun _ => none
  simpa [ownMethodTable] using h

/-- A rebased table has what it had for the own selectors, and the parent's entries for all others. -/
theorem rebaseEntries_apply (parent own t : Dtable) {index : ℕ} (hpos : index ≠ 0) :
    rebaseEntries parent own t index = if own index = none then parent index else t index := by
  unfold rebaseEntries
  cases hown : own index with
  | none => cases hparent : parent index <;> simp [hpos, hown, hparent]
  | some m => simp [hpos, hown]

theorem untyped_ne_zero (name : String) : T.untyped name ≠ 0 := Nat.ne_of_gt (T.index_pos _)

theorem typed_ne_zero (m : Method) : T.typed m ≠ 0 := Nat.ne_of_gt (T.index_pos _)

/-- The untyped entries of a rebased table are the parent's. -/
theorem rebaseEntries_untyped (parent t : Dtable) (cls : Class) (name : String) :
    rebaseEntries parent (σ.ownMethodTable T cls) t (T.untyped name) = parent (T.untyped name) := by
  rw [rebaseEntries_apply _ _ _ (untyped_ne_zero name), if_pos]
  exact ownMethodTable_eq_none.mpr fun m _ => T.typed_ne_untyped (σ.method m) name

/-! ## Untyped entries -/

/-- The untyped entries are methods of the class or of classes above it. -/
def UntypedFrom (T : SelectorTable) (σ : Runtime) (n : Class) (t : Dtable) : Prop :=
  ∀ name m, t (T.untyped name) = some m → ∃ a, Below σ.superClass n a ∧ m ∈ σ.methodsOf a

/-- The untyped entries of all tables come from the class or from above. -/
def UntypedAbove (T : SelectorTable) (σ : Runtime) : Prop := ∀ n t, σ.dtable n = some t → σ.UntypedFrom T n t

theorem UntypedFrom.down {n p : Class} {t : Dtable} (hp : σ.superClass n = some p) (h : σ.UntypedFrom T p t) :
    σ.UntypedFrom T n t := by
  intro name m hm
  obtain ⟨a, ha, hown⟩ := h name m hm
  exact ⟨a, (Below.of_parent hp).trans ha, hown⟩

theorem UntypedFrom.put {n a : Class} {t : Dtable} (h : σ.UntypedFrom T n t) {m : MethodId}
    (ha : Below σ.superClass n a) (hm : m ∈ σ.methodsOf a) (method : Method) :
    σ.UntypedFrom T n (t.put T method m) := by
  intro name m' hm'
  rw [Dtable.put_untyped] at hm'
  split at hm'
  · obtain rfl := Option.some.inj hm'
    exact ⟨a, ha, hm⟩
  · exact h name m' hm'

/-! ## New tables -/

/-- The entries that a class has before its methods are installed. -/
def inheritedEntries (sup : Option Dtable) : Dtable := sup.getD fun _ => none

/-- The untyped entries of a new table are inherited or methods of the class. -/
theorem fill_untyped (method : MethodId → Method) (sup : Option Dtable) (ms : List MethodId) (name : String) :
    fill T method sup ms (T.untyped name) = inheritedEntries sup (T.untyped name) ∨
      ∃ m ∈ ms, fill T method sup ms (T.untyped name) = some m := by
  induction ms using List.reverseRecOn with
  | nil => exact .inl rfl
  | append_singleton ms m ih =>
    have hkept : fill T method sup ms (T.untyped name) = inheritedEntries sup (T.untyped name) ∨
        ∃ m' ∈ ms ++ [m], fill T method sup ms (T.untyped name) = some m' :=
      ih.imp_right fun ⟨m', hm', h⟩ => ⟨m', List.mem_append_left _ hm', h⟩
    rw [fill_concat]
    split
    · rw [Dtable.put_untyped]
      split
      · exact .inr ⟨m, List.mem_append_right _ List.mem_cons_self, rfl⟩
      · exact hkept
    · exact hkept

/-- A new table is the inherited one if no method is installed in it; otherwise it has a method of the class at an
untyped selector. -/
theorem fill_cases (method : MethodId → Method) (sup : Option Dtable) (ms : List MethodId) :
    (fill T method sup ms = inheritedEntries sup ∧
      ∀ m ∈ ms, ¬Installs T method sup (inheritedEntries sup) m) ∨
      (∃ m ∈ ms, Installs T method sup (inheritedEntries sup) m) ∧
        ∃ name, ∃ m ∈ ms, fill T method sup ms (T.untyped name) = some m := by
  induction ms using List.reverseRecOn with
  | nil => exact .inl ⟨rfl, fun m hm => absurd hm List.not_mem_nil⟩
  | append_singleton ms m ih =>
    have hlast : m ∈ ms ++ [m] := List.mem_append_right _ List.mem_cons_self
    rw [fill_concat]
    rcases ih with ⟨hsame, hnot⟩ | ⟨⟨x, hx, hinstalls⟩, name, m', hm', hentry⟩
    · rw [hsame]
      split
      · rename_i hinstalls
        refine .inr ⟨⟨m, hlast, hinstalls⟩, (method m).name, m, hlast, ?_⟩
        rw [Dtable.put_untyped, if_pos rfl]
      · rename_i hinstalls
        refine .inl ⟨rfl, fun x hx => ?_⟩
        rcases List.mem_append.mp hx with hx | hx
        · exact hnot x hx
        · rw [List.mem_singleton.mp hx]
          exact hinstalls
    · refine .inr ⟨⟨x, List.mem_append_left _ hx, hinstalls⟩, name, ?_⟩
      split
      · rw [Dtable.put_untyped]
        split
        · exact ⟨m, hlast, rfl⟩
        · exact ⟨m', List.mem_append_left _ hm', hentry⟩
      · exact ⟨m', List.mem_append_left _ hm', hentry⟩

theorem UntypedFrom.fill {n : Class} {sup : Option Dtable} (h : σ.UntypedFrom T n (inheritedEntries sup)) :
    σ.UntypedFrom T n (fill T σ.method sup (σ.methodsOf n)) := by
  intro name m hm
  rcases fill_untyped σ.method sup (σ.methodsOf n) name with hinherited | ⟨m', hm', hown⟩
  · rw [hinherited] at hm
    exact h name m hm
  · rw [hown] at hm
    obtain rfl := Option.some.inj hm
    exact ⟨n, Below.refl n, hm'⟩

/-! ## Untyped entries in runs -/

theorem UntypedFrom.of_same {n : Class} {t : Dtable} (h : SameClasses σ σ') (ht : σ.UntypedFrom T n t) :
    σ'.UntypedFrom T n t := by
  rw [UntypedFrom, h.superClass, h.methodsOf]
  exact ht

theorem UntypedFrom.pushed {n : Class} {t : Dtable} (ht : σ.UntypedFrom T n t) (cls : Class)
    (list : List Method) :
    (σ.pushed cls list).UntypedFrom T n t := by
  intro name m hm
  obtain ⟨a, ha, hown⟩ := ht name m hm
  refine ⟨a, ha, ?_⟩
  rw [methodsOf_pushed]
  split
  · rename_i heq
    exact List.mem_append_right _ (heq ▸ hown)
  · exact hown

/-- Installing methods of a class keeps untyped entries from above. -/
theorem UntypedAbove.installAll {cls : Class} (sup : Option Dtable) : ∀ (ms : List MethodId) (σ : Runtime),
    Forest σ → σ.dtable cls ≠ none → (∀ m ∈ ms, m ∈ σ.methodsOf cls) → σ.UntypedAbove T →
    (installAll T cls sup σ ms).UntypedAbove T
  | [], _, _, _, _, h => h
  | m :: ms, σ, hf, hlive, hms, h => by
    obtain ⟨t, ht⟩ := Option.ne_none_iff_exists'.mp hlive
    rcases installOne_cases (T := T) hf ht sup m with ⟨-, hsame⟩ | ⟨-, hs, -, -, hst⟩
    · have hrest := UntypedAbove.installAll sup ms σ hf hlive
          (fun x hx => hms x (List.mem_cons_of_mem m hx)) h
      rw [Runtime.installAll, List.foldl_cons, hsame]
      exact hrest
    · have hone : (installOne T cls sup σ m).UntypedAbove T := by
        intro n t' ht'
        refine UntypedFrom.of_same hs ?_
        by_cases hw : Within σ.superClass
            (HasEntry σ.dtable (T.typed (σ.method m)) (t (T.typed (σ.method m)))) cls n
        · rw [(hst n).1 hw] at ht'
          obtain ⟨s, hs', rfl⟩ := Option.map_eq_some_iff.mp ht'
          exact (h n s hs').put hw.1 (hms m List.mem_cons_self) _
        · rw [(hst n).2 hw] at ht'
          exact h n t' ht'
      refine UntypedAbove.installAll sup ms _ (hf.of_same hs)
          ((not_congr (hst cls).none_iff).mpr hlive) ?_ hone
      rw [hs.methodsOf]
      exact fun x hx => hms x (List.mem_cons_of_mem m hx)

/-- Classes that get tables get untyped entries from above. -/
theorem UntypedFrom.grow {O : Class → Prop} (hac : Acyclic σ.superClass)
    (hrange : ∀ n p, σ.superClass n = some p → n ∈ Finset.range σ.classCount)
    (h : ∀ n t, ¬σ.Under O n → σ.dtable n = some t → σ.UntypedFrom T n t) (hg : GrowsOff T O σ σ') :
    ∀ n t, ¬σ.Under O n → σ'.dtable n = some t → σ.UntypedFrom T n t := by
  intro n
  induction n using Acyclic.induction hac hrange with
  | _ n ih =>
    intro t hoff ht
    cases hold : σ.dtable n with
    | some t₀ =>
      have hkept := hg.kept_off n t₀ hoff hold
      rw [ht] at hkept
      obtain rfl := Option.some.inj hkept
      exact h n t hoff hold
    | none =>
      rw [hg.created_off n t hoff hold ht]
      refine UntypedFrom.fill ?_
      cases hp : σ.superClass n with
      | none =>
        intro name m hm
        cases hm
      | some p =>
        rw [Option.bind_some]
        cases hsup : σ'.dtable p with
        | none =>
          intro name m hm
          cases hm
        | some s => exact (ih p hp s (fun hu => hoff (hu.down (Below.of_parent hp))) hsup).down hp

section Move

variable {cls newSuper : Class} {σ₂ : Runtime}

/-- A class that is not below the moved ones has the classes above it that it had. -/
theorem below_moveClass (hcm : σ.isMeta cls = false) {n a : Class}
    (hoff : ¬(σ.moveClass cls newSuper).Under (σ.Orphans cls) n) (h : Below σ.superClass n a) :
    Below (σ.moveClass cls newSuper).superClass n a := by
  obtain ⟨lists, heq⟩ := moveClass_eq newSuper hcm
  induction h using Relation.ReflTransGen.head_induction_on with
  | refl => exact Below.refl a
  | @head n p hp _ ih =>
    have hne : ¬σ.Orphans cls n := fun ho => hoff ⟨n, ho, Below.refl n⟩
    have hp' : (σ.moveClass cls newSuper).superClass n = some p := by
      rw [heq]
      dsimp only
      rw [Function.update_of_ne fun h => hne (.inr h), Function.update_of_ne fun h => hne (.inl h)]
      exact hp
    exact (Below.of_parent hp').trans (ih fun hu => hoff (hu.down (Below.of_parent hp')))

/-- When the new superclass has been initialised, the tables that are not below the moved classes have untyped
entries from above. -/
theorem UntypedAbove.initialised (hw : WellFormed σ) (hm : σ.Movable cls newSuper) (h : σ.UntypedAbove T)
    (hg : GrowsOff T (σ.Orphans cls) (σ.moveClass cls newSuper) σ₂) {n : Class}
    (hoff : ¬σ₂.Under (σ.Orphans cls) n) {t : Dtable} (ht : σ₂.dtable n = some t) : σ₂.UntypedFrom T n t := by
  have hf := Movable.forest hw hm
  obtain ⟨lists, heq⟩ := moveClass_eq newSuper hm.2.2.1
  have hdtable : (σ.moveClass cls newSuper).dtable = σ.dtable := by rw [heq]
  have hmethods : (σ.moveClass cls newSuper).methodsOf = σ.methodsOf := by rw [heq]; rfl
  have hbefore : ∀ k s, ¬(σ.moveClass cls newSuper).Under (σ.Orphans cls) k →
      (σ.moveClass cls newSuper).dtable k = some s → (σ.moveClass cls newSuper).UntypedFrom T k s := by
    intro k s hk hs name m hm'
    rw [hdtable] at hs
    obtain ⟨a, ha, hown⟩ := h k s hs name m hm'
    exact ⟨a, below_moveClass hm.2.2.1 hk ha, by rwa [hmethods]⟩
  rw [Under.of_same hg.toSameClasses] at hoff
  exact UntypedFrom.of_same hg.toSameClasses
    (UntypedFrom.grow hf.acyclic hf.mem_range hbefore hg n t hoff ht)

/-- The call changes the tables below the class and its metaclass. -/
theorem SetSuperclass.rebased_of_under (hs : SetSuperclass T σ cls newSuper σ₂ σ') {n : Class}
    (hu : σ₂.Under (σ.Orphans cls) n) (hlive : σ₂.dtable n ≠ none) : Rebased T σ₂ σ₂.dtable σ'.dtable n := by
  have hup : ∀ a, Below σ₂.superClass n a → σ₂.LiveBelow a n := fun a ha =>
    ⟨ha, fun x hx _ => hs.wellFormed.live_up.below hlive hx⟩
  obtain ⟨o, rfl | rfl, ho⟩ := hu
  · exact hs.rebased n (.inl (hup _ ho))
  · exact hs.rebased n (.inr (hup _ ho))

theorem SetSuperclass.other_of_off (hs : SetSuperclass T σ cls newSuper σ₂ σ') {n : Class}
    (hoff : ¬σ₂.Under (σ.Orphans cls) n) : σ'.dtable n = σ₂.dtable n :=
  hs.other n (fun h => hoff ⟨cls, .inl rfl, h.1⟩) fun h => hoff ⟨σ.isa cls, .inr rfl, h.1⟩

theorem UntypedAbove.setSuperclass (hw : WellFormed σ) (hm : σ.Movable cls newSuper) (h : σ.UntypedAbove T)
    (hs : SetSuperclass T σ cls newSuper σ₂ σ') : σ'.UntypedAbove T := by
  have hf := hs.wellFormed.toForest
  intro n
  induction n using Acyclic.induction hf.acyclic hf.mem_range with
  | _ n ih =>
    intro t ht
    by_cases hu : σ₂.Under (σ.Orphans cls) n
    · have hlive : σ₂.dtable n ≠ none := fun hnone => by
        rw [(hs.same_live n).mpr hnone] at ht
        cases ht
      obtain ⟨t₀, -, ht'⟩ := hs.rebased_of_under hu hlive
      rw [ht] at ht'
      obtain rfl := Option.some.inj ht'
      intro name m hm'
      rw [rebaseEntries_untyped] at hm'
      cases hp : σ₂.superClass n with
      | none =>
        rw [hp] at hm'
        cases hm'
      | some p =>
        rw [hp, Option.bind_some] at hm'
        cases hsup : σ'.dtable p with
        | none =>
          rw [hsup] at hm'
          cases hm'
        | some s =>
          rw [hsup, Option.getD_some] at hm'
          have hp' : σ'.superClass n = some p := by rw [hs.same.superClass, hp]
          exact (ih p hp s hsup).down hp' name m hm'
    · rw [hs.other_of_off hu] at ht
      exact UntypedFrom.of_same hs.same (h.initialised hw hm hs.grown hu ht)

end Move

/-- **The steps of a program keep untyped entries from above.** -/
theorem untypedAbove_rules : StepRules T (fun σ => WellFormed σ ∧ UntypedAbove T σ) Messageable
    (fun _ _ => True)
    (fun _ _ _ => True) (fun _ _ _ => True) Movable where
  wellFormed h := h.1
  send _ hm := hm
  same := by
    intro σ σ' h hs
    refine ⟨h.1.of_sameTables hs, fun n t ht => ?_⟩
    rw [hs.dtable] at ht
    exact UntypedFrom.of_same hs.toSameClasses (h.2 n t ht)
  setImp m imp h := ⟨h.1.setImp m imp, h.2⟩
  grow := by
    intro σ σ' h hg hw _
    refine ⟨hw, fun n t ht => UntypedFrom.of_same hg.toSameClasses ?_⟩
    exact UntypedFrom.grow h.1.acyclic h.1.toForest.mem_range (fun k s _ hs => h.2 k s hs) hg n t
      (not_under_false n) ht
  push := by
    intro σ cls list h _ _
    exact ⟨h.1.pushed .., fun n t ht => (h.2 n t ht).pushed cls list⟩
  install := by
    intro σ cls list τ h _ hlive hτ
    have hlive' : τ.dtable cls ≠ none := by
      rw [hτ.dtable]
      exact hlive
    have hw := (h.1.pushed cls list).of_sameTables hτ
    have hτ' : UntypedAbove T τ := by
      intro n t ht
      rw [hτ.dtable] at ht
      exact UntypedFrom.of_same hτ.toSameClasses ((h.2 n t ht).pushed cls list)
    refine ⟨hw.installAll hlive' .., UntypedAbove.installAll _ _ τ hw.toForest hlive' (fun m hm => ?_) hτ'⟩
    obtain ⟨e, he, rfl⟩ := List.mem_map.mp hm
    have hmem := mem_of_mem_collectMethods he
    rw [List.flatten_singleton] at hmem
    rw [hτ.methodsOf, methodsOf_pushed, if_pos rfl]
    exact List.mem_append_left _ hmem
  reload := by
    intro σ cls list h _ hlive
    have hw := h.1.pushed cls list
    refine ⟨hw.installAll hlive .., UntypedAbove.installAll _ _ _ hw.toForest hlive (fun m hm => ?_)
      fun n t ht => (h.2 n t ht).pushed cls list⟩
    obtain ⟨e, he, rfl⟩ := List.mem_map.mp hm
    exact mem_of_mem_collectMethods he
  move := by
    intro σ cls newSuper h hm
    refine ⟨h.1.move hm, ?_⟩
    by_cases hne : σ.superClass cls = some newSuper
    · rw [next_setSuperclass_of_eq hne]
      exact h.2
    by_cases hlive : σ.dtable cls = none
    · have hw := h.1.move (T := T) hm
      rw [next_setSuperclass_of_none hm.2.2.1 hne hlive] at hw ⊢
      obtain ⟨lists, heq⟩ := moveClass_eq newSuper hm.2.2.1
      have hd : (σ.moveClass cls newSuper).dtable = σ.dtable := by rw [heq]
      have hmethods : (σ.moveClass cls newSuper).methodsOf = σ.methodsOf := by
        rw [heq]
        rfl
      intro n t ht name m hm'
      -- no class with a table is below the moved ones
      have hoff : ¬(σ.moveClass cls newSuper).Under (σ.Orphans cls) n := by
        rintro ⟨o, ho, hb⟩
        have hlive' := hw.live_up.below (n := n) (by rw [ht]; exact Option.some_ne_none t) hb
        rw [hd] at hlive'
        rcases ho with rfl | rfl
        · exact hlive' hlive
        · exact hlive' (hm.2.2.2.2.2 hlive)
      rw [hd] at ht
      obtain ⟨a, ha, hown⟩ := h.2 n t ht name m hm'
      exact ⟨a, below_moveClass hm.2.2.1 hoff ha, by rwa [hmethods]⟩
    · obtain ⟨σ₂, σ', hcall, hs⟩ := setSuperclass_spec (T := T) h.1 hm hne hlive
      have : σ.next T (.setSuperclass cls newSuper) = σ' := by rw [next, perform, hcall, Option.getD_some]
      rw [this]
      exact h.2.setSuperclass h.1 hm hs

/-! ## Fresh tables -/

variable (T) in
/-- The table that `create_dtable_for_class` would make for a class. -/
def freshDtable (σ : Runtime) (n : Class) : Option Dtable :=
  (createDtableForClass T { σ with dtable := Function.update σ.dtable n none } n fun _ => none).map Prod.snd

theorem freshDtable_eq (hw : WellFormed σ) {n : Class} (hlive : σ.dtable n ≠ none) :
    σ.freshDtable T n = some (fill T σ.method (σ.superDtable n) (σ.methodsOf n)) := by
  have hf : Forest { σ with dtable := Function.update σ.dtable n none } :=
    ⟨hw.acyclic, hw.bounded, hw.nodup, hw.mem_subclassList⟩
  obtain ⟨σ', hcall, -⟩ := createDtableForClass_eq (T := T) hf n (fun _ => none) (σ.superDtable n)
      (fun _ => True)
    (Function.update_self ..) (fun _ _ _ _ _ => trivial) (by
      cases hp : σ.superClass n with
      | none =>
        dsimp only
        rw [superDtable, hp, Option.bind_none]
      | some p =>
        have hne : p ≠ n := by
          rintro rfl
          exact hw.acyclic p p hp (Below.refl p)
        refine .inl ⟨?_, ?_⟩
        · dsimp only
          rw [superDtable, hp, Option.bind_some, Function.update_of_ne hne]
        · rw [superDtable, hp, Option.bind_some]
          exact hw.live_up n p hlive hp)
  rw [freshDtable, hcall]
  rfl

/-- The table of the class is the one that would be made for it, at the typed and untyped selectors. -/
def IsFresh (T : SelectorTable) (σ : Runtime) (n : Class) : Prop :=
  ∃ t, σ.freshDtable T n = some t ∧ ∀ s : Selector, σ.entry (T.index s) n = t (T.index s)

/-- The tables of the class, its metaclass and the initialised classes below them are fresh. -/
def Rebuilt (T : SelectorTable) (σ : Runtime) (cls : Class) : Prop :=
  ∀ n, σ.dtable n ≠ none → Below σ.superClass n cls ∨ Below σ.superClass n (σ.isa cls) → σ.IsFresh T n

/-- The two tables agree at all selectors. -/
def AgreeOn (T : SelectorTable) (t t' : Dtable) : Prop := ∀ s : Selector, t (T.index s) = t' (T.index s)

/-- The methods of the class have the implementations of the table `base`, whose entries its own table has. -/
def AddsNothing (T : SelectorTable) (σ : Runtime) (base : Dtable) (n : Class) : Prop :=
  ∀ m ∈ σ.methodsOf n, σ.entry (T.typed (σ.method m)) n = base (T.typed (σ.method m)) ∧
    (base (T.typed (σ.method m))).map (fun old => (σ.method old).imp) = some (σ.method m).imp

/-- A rebased table against a new one, below a table that agrees with `base`. -/
theorem rebaseEntries_fresh_iff {n : Class} {parent base t : Dtable} (hn : σ.dtable n = some t)
    (hparent : AgreeOn T parent base)
    (hown : ∀ name, ∀ m ∈ σ.methodsOf n, base (T.untyped name) ≠ some m) :
    (AgreeOn T (rebaseEntries parent (σ.ownMethodTable T n) t)
      (fill T σ.method (some parent) (σ.methodsOf n)) ↔
      σ.AddsNothing T base n) ∧
    (σ.AddsNothing T base n → AgreeOn T (rebaseEntries parent (σ.ownMethodTable T n) t) base) := by
  have hentry : ∀ m ∈ σ.methodsOf n, rebaseEntries parent (σ.ownMethodTable T n) t (T.typed (σ.method m)) =
      σ.entry (T.typed (σ.method m)) n := by
    intro m hm
    rw [rebaseEntries_apply _ _ _ (typed_ne_zero _), if_neg, entry, hn, Option.bind_some]
    exact fun hnone => ownMethodTable_eq_none.mp hnone m hm rfl
  have hother : ∀ s : Selector, (∀ m ∈ σ.methodsOf n, T.typed (σ.method m) ≠ T.index s) →
      rebaseEntries parent (σ.ownMethodTable T n) t (T.index s) = parent (T.index s) := by
    intro s hs
    rw [rebaseEntries_apply _ _ _ (Nat.ne_of_gt (T.index_pos s)), if_pos (ownMethodTable_eq_none.mpr hs)]
  have hagree : σ.AddsNothing T base n → AgreeOn T (rebaseEntries parent (σ.ownMethodTable T n) t) base := by
    intro hadds s
    by_cases hs : ∀ m ∈ σ.methodsOf n, T.typed (σ.method m) ≠ T.index s
    · rw [hother s hs, hparent s]
    · obtain ⟨m, hm, heq⟩ : ∃ m ∈ σ.methodsOf n, T.typed (σ.method m) = T.index s := by
        by_contra hno
        exact hs fun m hm heq => hno ⟨m, hm, heq⟩
      rw [← heq, hentry m hm, (hadds m hm).1]
  have himp : ∀ m, Installs T σ.method (some parent) parent m ↔
      (base (T.typed (σ.method m))).map (fun old => (σ.method old).imp) ≠ some (σ.method m).imp := by
    intro m
    have htyped : parent (T.typed (σ.method m)) = base (T.typed (σ.method m)) := hparent _
    rw [Installs, htyped, Option.bind_some, htyped]
    exact and_iff_right rfl
  refine ⟨⟨fun hfresh => ?_, fun hadds => ?_⟩, hagree⟩
  · rcases fill_cases (T := T) σ.method (some parent)
        (σ.methodsOf n) with ⟨hsame, hnot⟩ | ⟨-, name, m, hm, hfill⟩
    · intro m hm
      refine ⟨?_, not_not.mp ((not_congr (himp m)).mp (hnot m hm))⟩
      have h := hfresh (σ.method m).selector
      rw [hsame] at h
      exact (hentry m hm).symm.trans (h.trans (hparent _))
    · -- the untyped entry of an own method is lost
      have h := hfresh ⟨name, none⟩
      have hlost := rebaseEntries_untyped (T := T) (σ := σ) parent t n name
      exact absurd ((hparent ⟨name, none⟩).symm.trans (hlost.symm.trans (h.trans hfill))) (hown name m hm)
  · rcases fill_cases (T := T) σ.method (some parent)
        (σ.methodsOf n) with ⟨hsame, -⟩ | ⟨⟨m, hm, hinstalls⟩, -⟩
    · intro s
      rw [hsame, hagree hadds s]
      exact (hparent s).symm
    · exact absurd (hadds m hm).2 ((himp m).mp hinstalls)

section Rebuild

variable {cls newSuper : Class} {σ₂ : Runtime}

/-- Below one of the two moved classes: all tables are fresh if and only if the classes add nothing to the table
of the new parent. -/
theorem SetSuperclass.fresh_iff (hs : SetSuperclass T σ cls newSuper σ₂ σ') {r q : Class} {base : Dtable}
    (hr : σ.Orphans cls r) (hq : σ₂.superClass r = some q) (hoff : ¬σ₂.Under (σ.Orphans cls) q)
    (hbase : σ₂.dtable q = some base) (hfrom : σ₂.UntypedFrom T q base) :
    (∀ n, σ₂.LiveBelow r n → σ'.IsFresh T n) ↔ ∀ n, σ₂.LiveBelow r n → σ₂.AddsNothing T base n := by
  have hf := hs.wellFormed.toForest
  have hw' : WellFormed σ' := hs.wellFormed.of_same hs.same hs.same_live
  -- no untyped entry of the new parent is a method of a class below
  have hown : ∀ n, σ₂.LiveBelow r n → ∀ name, ∀ m ∈ σ₂.methodsOf n, base (T.untyped name) ≠ some m := by
    intro n hn name m hm hentry
    obtain ⟨a, hqa, ha⟩ := hfrom name m hentry
    obtain rfl := hs.wellFormed.owned_once a n m ha hm
    exact hf.acyclic r q hq (hqa.trans hn.1)
  have hstep : ∀ n p parent, σ₂.LiveBelow r n → σ₂.superClass n = some p → σ'.dtable p = some parent →
      AgreeOn T parent base → ∃ t, σ'.dtable n = some t ∧ (σ'.IsFresh T n ↔ σ₂.AddsNothing T base n) ∧
        (σ₂.AddsNothing T base n → AgreeOn T t base) := by
    intro n p parent hn hp hparent hagree
    obtain ⟨t, ht, ht'⟩ := hs.rebased_of_under ⟨r, hr, hn.1⟩ hn.last
    rw [hp, Option.bind_some, hparent, Option.getD_some] at ht'
    obtain ⟨hiff, hadds⟩ := rebaseEntries_fresh_iff ht hagree (hown n hn)
    refine ⟨_, ht', Iff.trans ?_ hiff, hadds⟩
    have hsup : σ'.superDtable n = some parent := by
      rw [superDtable, hs.same.superClass, hp, Option.bind_some, hparent]
    have hfresh := freshDtable_eq (T := T) hw' (n := n) (by rw [ht']; exact Option.some_ne_none _)
    rw [hsup, hs.same.method, hs.same.methodsOf] at hfresh
    have hentry : ∀ key, σ'.entry key n = rebaseEntries parent (σ₂.ownMethodTable T n) t key := by
      intro key
      rw [entry, ht', Option.bind_some]
    simp only [IsFresh, hfresh, hentry, Option.some.injEq, exists_eq_left']
    rfl
  have hall : (∀ n, σ₂.LiveBelow r n → σ'.IsFresh T n ∨ σ₂.AddsNothing T base n) → ∀ n, σ₂.LiveBelow r n →
      ∃ t, σ'.dtable n = some t ∧ (σ'.IsFresh T n ↔ σ₂.AddsNothing T base n) ∧ AgreeOn T t base := by
    intro h n
    induction n using Acyclic.induction hf.acyclic hf.mem_range with
    | _ n ih =>
      intro hn
      have hcase : ∃ p parent, σ₂.superClass n = some p ∧ σ'.dtable p = some parent ∧
          AgreeOn T parent base := by
        by_cases hnr : n = r
        · subst hnr
          exact ⟨q, base, hq, by rw [hs.other_of_off hoff, hbase], fun _ => rfl⟩
        · obtain ⟨p, hp, hpr⟩ := hn.up hnr
          obtain ⟨parent, hparent, -, hagree⟩ := ih p hp hpr
          exact ⟨p, parent, hp, hparent, hagree⟩
      obtain ⟨p, parent, hp, hparent, hagree⟩ := hcase
      obtain ⟨t, ht, hiff, hadds⟩ := hstep n p parent hn hp hparent hagree
      exact ⟨t, ht, hiff, hadds ((h n hn).elim hiff.mp id)⟩
  constructor
  · intro h n hn
    obtain ⟨t, -, hiff, -⟩ := hall (fun k hk => .inl (h k hk)) n hn
    exact hiff.mp (h n hn)
  · intro h n hn
    obtain ⟨t, -, hiff, -⟩ := hall (fun k hk => .inr (h k hk)) n hn
    exact hiff.mpr (h n hn)

end Rebuild

variable (T) in
/-- When the new superclass has been initialised, the initialised classes below the class add nothing to its
table, and those below the metaclass nothing to the table of its metaclass. -/
def AddNothing (σ : Runtime) (cls newSuper : Class) : Prop :=
  ∀ τ, (σ.moveClass cls newSuper).sendInitialize T (σ.classCount + 1) newSuper = some τ →
    ∀ n, τ.dtable n ≠ none →
      (Below τ.superClass n cls → τ.AddsNothing T (τ.dtableForClass newSuper) n) ∧
      (Below τ.superClass n (τ.isa cls) → τ.AddsNothing T (τ.dtableForClass (τ.isa newSuper)) n)

/-- What a program may do before. -/
def OpAllowed (T : SelectorTable) : Runtime → Op → Prop :=
  OpOk T Messageable (fun _ _ => True) (fun _ _ _ => True) (fun _ _ _ => True) Movable

/-- **`class_setSuperclass`** on an initialised class leaves fresh tables if and only if the tables were fresh and
the class had this superclass, or the classes add nothing to the tables of the new superclass. -/
theorem rebuilds_iff {σ₀ : Runtime} (hload : Loaded σ₀)
    (hrun : Runs (guarded (OpAllowed T) (Runtime.next T)) σ₀ σ) {cls newSuper : Class}
    (hm : σ.Movable cls newSuper) (hlive : σ.dtable cls ≠ none) :
    ∃ σ', σ.setSuperclass T cls newSuper = some σ' ∧
      (σ'.Rebuilt T cls ↔
        if σ.superClass cls = some newSuper then σ.Rebuilt T cls else σ.AddNothing T cls newSuper) := by
  have hstart : WellFormed σ₀ ∧ UntypedAbove T σ₀ := by
    refine ⟨hload.wellFormed, fun n t ht => ?_⟩
    rw [hload.no_dtable n] at ht
    cases ht
  have hstep : ∀ τ op τ', WellFormed τ ∧ UntypedAbove T τ → guarded (OpAllowed T) (Runtime.next T) τ op τ' →
      WellFormed τ' ∧ UntypedAbove T τ' := by
    rintro τ op τ' hτ ⟨hok, rfl⟩
    exact untypedAbove_rules.next hτ hok
  obtain ⟨hw, habove⟩ := hrun.invariant hstart hstep
  by_cases hne : σ.superClass cls = some newSuper
  · refine ⟨σ, by rw [setSuperclass, if_pos hne], ?_⟩
    rw [if_pos hne]
  rw [if_neg hne]
  obtain ⟨σ₂, σ', hcall, hs⟩ := setSuperclass_spec (T := T) hw hm hne hlive
  refine ⟨σ', hcall, ?_⟩
  have hsame := hs.grown.toSameClasses
  obtain ⟨lists, heq⟩ := moveClass_eq newSuper hm.2.2.1
  obtain ⟨hmm, -⟩ := hw.isa_meta cls hm.1 hm.2.2.1
  have hncls : cls ≠ σ.isa cls := by
    intro h
    rw [← h, hm.2.2.1] at hmm
    cases hmm
  have hnnew : newSuper ≠ σ.isa cls := by
    rintro rfl
    rw [hm.2.2.2.1] at hmm
    cases hmm
  have hisa : ∀ c, c ≠ σ.isa cls → σ₂.isa c = σ.isa c := by
    intro c hc
    rw [hsame.isa, heq]
    exact Function.update_of_ne hc ..
  have hsup : σ₂.superClass cls = some newSuper := by
    rw [hsame.superClass, heq]
    dsimp only
    rw [Function.update_of_ne hncls, Function.update_self]
  have hsupm : σ₂.superClass (σ.isa cls) = some (σ.isa newSuper) := by
    rw [hsame.superClass, heq]
    exact Function.update_self ..
  have hisaCls : σ₂.isa cls = σ.isa cls := hisa cls hncls
  have hisaSuper : σ₂.isa newSuper = σ.isa newSuper := hisa newSuper hnnew
  -- the tables of the new superclass and of its metaclass
  have hoff := Movable.off hw hm newSuper (Below.refl newSuper)
  have hoffs : ¬σ₂.Under (σ.Orphans cls) newSuper ∧ ¬σ₂.Under (σ.Orphans cls) (σ.isa newSuper) := by
    rw [Under.of_same hsame, ← hisaSuper, hsame.isa]
    exact hoff
  have hlive₂ : σ₂.dtable cls ≠ none := hs.grown.live_ne (by rw [heq]; exact hlive)
  have hmetaLive : σ₂.dtable (σ.isa cls) ≠ none := by
    rw [← hisaCls]
    exact hs.wellFormed.live_meta cls (by rw [hsame.classCount, heq]; exact hm.1)
      (by rw [hsame.isMeta, heq]; exact hm.2.2.1) hlive₂
  obtain ⟨base, hbase⟩ := Option.ne_none_iff_exists'.mp (hs.wellFormed.live_up cls newSuper hlive₂ hsup)
  obtain ⟨metaBase, hmetaBase⟩ := Option.ne_none_iff_exists'.mp
    (hs.wellFormed.live_up (σ.isa cls) (σ.isa newSuper) hmetaLive hsupm)
  have hclass := hs.fresh_iff (.inl rfl) hsup hoffs.1 hbase
    (habove.initialised hw hm hs.grown hoffs.1 hbase)
  have hmeta := hs.fresh_iff (.inr rfl) hsupm hoffs.2 hmetaBase
    (habove.initialised hw hm hs.grown hoffs.2 hmetaBase)
  have hbelow : ∀ r n, σ₂.LiveBelow r n ↔ σ₂.dtable n ≠ none ∧ Below σ₂.superClass n r := fun r n =>
    ⟨fun h => ⟨h.last, h.1⟩, fun h => ⟨h.2, fun x hx _ => hs.wellFormed.live_up.below h.1 hx⟩⟩
  have hforms : σ.AddNothing T cls newSuper ↔ (∀ n, σ₂.LiveBelow cls n → σ₂.AddsNothing T base n) ∧
      ∀ n, σ₂.LiveBelow (σ.isa cls) n → σ₂.AddsNothing T metaBase n := by
    rw [AddNothing, hs.initialised]
    simp only [Option.some.injEq, forall_eq', hisaCls, hisaSuper, dtableForClass_eq hbase,
      dtableForClass_eq hmetaBase, hbelow]
    constructor
    · exact fun h => ⟨fun n hn => (h n hn.1).1 hn.2, fun n hn => (h n hn.1).2 hn.2⟩
    · exact fun h n hn => ⟨fun hc => h.1 n ⟨hn, hc⟩, fun hc => h.2 n ⟨hn, hc⟩⟩
  have hrebuilt : σ'.Rebuilt T cls ↔ (∀ n, σ₂.LiveBelow cls n → σ'.IsFresh T n) ∧
      ∀ n, σ₂.LiveBelow (σ.isa cls) n → σ'.IsFresh T n := by
    rw [Rebuilt, hs.same.superClass, hs.same.isa, hisaCls]
    simp only [hbelow, not_congr (hs.same_live _)]
    constructor
    · exact fun h => ⟨fun n hn => h n hn.1 (.inl hn.2), fun n hn => h n hn.1 (.inr hn.2)⟩
    · exact fun h n hn hb => hb.elim (fun hc => h.1 n ⟨hn, hc⟩) fun hc => h.2 n ⟨hn, hc⟩
  rw [hrebuilt, hforms, hclass, hmeta]

/-! ## A root class with two subclasses -/

/-- Class 0 with the metaclass 1, and its subclasses 2 and 4 with the metaclasses 3 and 5. -/
def twoSubclasses (methods : List Method) : Runtime where
  classCount := 6
  superClass
    | 1 => some 0
    | 2 => some 0
    | 3 => some 1
    | 4 => some 0
    | 5 => some 1
    | _ => none
  isa
    | 2 => 3
    | 4 => 5
    | _ => 1
  isMeta
    | 1 => true
    | 3 => true
    | 5 => true
    | _ => false
  subclassList
    | 0 => [4, 2, 1]
    | 1 => [5, 3]
    | _ => []
  methodLists
    | 4 => [List.range' 0 methods.length]
    | _ => []
  method m := (methods[m]?).getD ⟨"", "", 0⟩
  nextMethod := methods.length
  dtable _ := none
  cacheVersion := 0
  cxxConstruct _ := none
  cxxDestruct _ := none
  fastArc _ := false
  fastAllocInit _ := false

theorem mem_methodsOf_twoSubclasses (methods : List Method) {c : Class} {m : MethodId}
    (hm : m ∈ (twoSubclasses methods).methodsOf c) : c = 4 ∧ m < methods.length := by
  rcases c with _ | _ | _ | _ | _ | c
  · simp [twoSubclasses, methodsOf] at hm
  · simp [twoSubclasses, methodsOf] at hm
  · simp [twoSubclasses, methodsOf] at hm
  · simp [twoSubclasses, methodsOf] at hm
  · exact ⟨rfl, by simpa [twoSubclasses, methodsOf] using hm⟩
  · simp [twoSubclasses, methodsOf] at hm

theorem twoSubclasses_loaded (methods : List Method) : Loaded (twoSubclasses methods) where
  linked := by
    have h : ∀ cls < 6, (twoSubclasses []).RootMeta cls := by decide
    exact LinkedMetas.of_links (σ := twoSubclasses []) rfl rfl rfl rfl h
  no_dtable _ := rfl
  wellFormed :=
    { acyclic := acyclic_of_lt fun n p h => by
        rcases n with _ | _ | _ | _ | _ | _ | n <;> simp [twoSubclasses] at h <;> subst h <;> simp
      bounded := fun n p h => by
        rcases n with _ | _ | _ | _ | _ | _ | n <;> simp [twoSubclasses] at h <;> subst h <;>
          simp [twoSubclasses]
      nodup := fun c => by rcases c with _ | _ | c <;> simp [twoSubclasses]
      mem_subclassList := fun c e => by
        rcases c with _ | _ | c <;> rcases e with _ | _ | _ | _ | _ | _ | e <;> simp [twoSubclasses]
      isa_meta := by
        have h : ∀ c < 6, (twoSubclasses []).isMeta c = false →
            (twoSubclasses []).isMeta ((twoSubclasses []).isa c) = true ∧ (twoSubclasses []).isa c < 6 := by
          decide
        exact h
      isa_inj := by
        have h : ∀ c < 6, ∀ c' < 6, (twoSubclasses []).isMeta c = false →
            (twoSubclasses []).isMeta c' = false →
            (twoSubclasses []).isa c = (twoSubclasses []).isa c' → c = c' := by decide
        exact h
      super_class := fun c p h hm => by
        rcases c with _ | _ | _ | _ | _ | _ | c <;> simp [twoSubclasses] at h hm <;> subst h <;>
          simp [twoSubclasses]
      super_meta := by
        have h : ∀ c < 6, (twoSubclasses []).isMeta c = false →
            (twoSubclasses []).superClass ((twoSubclasses []).isa c) =
              some (((twoSubclasses []).superClass c).elim c (twoSubclasses []).isa) := by decide
        exact h
      live_up_off := fun _ _ _ h => absurd rfl h
      live_meta := fun _ _ _ h => absurd rfl h
      fresh := fun c m hm => (mem_methodsOf_twoSubclasses methods hm).2
      nodup_methods := fun c => by
        rcases c with _ | _ | _ | _ | _ | c <;> simp [twoSubclasses, methodsOf, List.nodup_range']
      owned_once := fun c c' m hm hm' => by
        rw [(mem_methodsOf_twoSubclasses methods hm).1, (mem_methodsOf_twoSubclasses methods hm').1] }

/-- The state after class 4 has been initialised. -/
def initialisedFour (methods : List Method) : Runtime :=
  runList (Runtime.next (SelectorTable.coded id)) (twoSubclasses methods) [.sendInitialize 4]

/-- The message is allowed: the class is loaded and its superclass with it. -/
theorem initialisedFour_runs (methods : List Method) (hmessage : (twoSubclasses methods).Messageable 4) :
    Runs (guarded (OpAllowed (SelectorTable.coded id)) (Runtime.next (SelectorTable.coded id)))
    (twoSubclasses methods)
      (initialisedFour methods) :=
  have hok : AllOk (OpAllowed (SelectorTable.coded id)) (Runtime.next (SelectorTable.coded id))
      (twoSubclasses methods)
      [.sendInitialize 4] := ⟨⟨hmessage, fun _ _ _ => trivial⟩, trivial⟩
  runs_of_allOk _ _ hok

/-- A class without methods of its own. -/
theorem rebuilds_iff_bare :
    ∃ σ', (initialisedFour []).setSuperclass (SelectorTable.coded id) 4 2 = some σ' ∧
      (σ'.Rebuilt (SelectorTable.coded id) 4 ↔
        if (initialisedFour []).superClass 4 = some 2 then
          (initialisedFour []).Rebuilt (SelectorTable.coded id) 4
        else (initialisedFour []).AddNothing (SelectorTable.coded id) 4 2) :=
  rebuilds_iff (twoSubclasses_loaded []) (initialisedFour_runs _ (by decide)) (by decide) (by decide)

/-- The untyped entry of the only method of a class is gone after the call. -/
theorem setSuperclass_loses_untyped : ¬∀ (T : SelectorTable) (σ₀ σ : Runtime) (cls newSuper : Class),
    Loaded σ₀ → Runs (guarded (OpAllowed T) (Runtime.next T)) σ₀ σ → σ.Movable cls newSuper →
    σ.dtable cls ≠ none → ∃ σ', σ.setSuperclass T cls newSuper = some σ' ∧ σ'.Rebuilt T cls := by
  intro h
  obtain ⟨σ', hcall, hrebuilt⟩ := h (SelectorTable.coded id) _ (initialisedFour [⟨"own", "v", 7⟩]) 4 2
    (twoSubclasses_loaded _) (initialisedFour_runs _ (by decide)) (by decide) (by decide)
  have hσ' : σ' = (initialisedFour [⟨"own", "v", 7⟩]).next (SelectorTable.coded id) (.setSuperclass 4 2) := by
    rw [next, perform, hcall, Option.getD_some]
  rw [hσ'] at hrebuilt
  obtain ⟨t, hfresh, hagree⟩ := hrebuilt 4 (by decide) (.inl (Below.refl 4))
  have hlost := hagree ⟨"own", none⟩
  have hentry : (((initialisedFour [⟨"own", "v", 7⟩]).next (SelectorTable.coded id)
      (.setSuperclass 4 2)).freshDtable
      (SelectorTable.coded id) 4).bind (fun t => t ((SelectorTable.coded id).index ⟨"own", none⟩)) =
      some 0 := by
    decide
  rw [hfresh, Option.bind_some, ← hlost] at hentry
  revert hentry
  decide

end Runtime

end Libobjc2.Dispatch
