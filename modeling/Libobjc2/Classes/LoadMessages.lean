import Libobjc2.Classes.ClassLinks
import Mathlib.Data.List.Nodup

/-!
# The `+load` messages

`__objc_load` (src/runtime/loader.c), `objc_resolve_class` and `objc_send_load_message`
(src/runtime/class_table.c) and the categories (category_loader.c), as steps of a machine with a stack:
a `+load` method may load further images. In which order `objc_resolve_class_links` gets to the
unresolved classes is left open, and the table of the sent messages is a set.

Results:
* `LoadsSent.next`: what every step keeps of the messages that have been sent.
* `loads_once`: every `+load` method of a resolved class is called once, as long as no two of them
  share an implementation, no category comes to a class that is being sent `+load`, and no category
  that was waiting for its class comes to a resolved one.
-/

namespace Libobjc2.Classes.LoadMessages

open Libobjc2.Common

/-! ## Model -/

abbrev Imp := ℕ

structure Method where
  name : String
  imp : Imp
deriving DecidableEq, Repr

/-- A category: the name of its class and its class methods. -/
structure Category where
  className : String
  classMethods : List Method
deriving DecidableEq, Repr

structure Image where
  classes : List Class
  categories : List Category
deriving Repr

/-- The functions that are under way, with what is left of them to do.
    * `resolveClassLinks cats`, `sendCategories cats`: `__objc_load` from the call of
      `objc_resolve_class_links` on, and the loop after it;
    * `resolveClass`, `linkClass`: `objc_resolve_class` before and after the superclass is resolved;
    * `sendLoadMessage cls ms`: the loop of `objc_send_load_message` before the methods `ms`;
    * `load cls imp ms`: the `+load` method that it has called. -/
inductive Frame where
  | resolveClassLinks (cats : List Category)
  | sendCategories (cats : List Category)
  | resolveClass (cls : Class)
  | linkClass (cls : Class)
  | sendLoadMessage (cls : Class) (ms : List Method)
  | load (cls : Class) (imp : Imp) (ms : List Method)
deriving DecidableEq, Repr

/-- * `methods`: the methods of the metaclass of a class, the head of its method lists first;
    * `buffered`: the categories whose classes are not loaded;
    * `loadTable`: the implementations in `load_table`;
    * `sent`: the `+load` messages that have been sent, the last one first;
    * `frames`: the stack. -/
structure Loader where
  name : Class → String
  superClass : Class → Option Class
  legacySuper : Class → Option String
  methods : Class → List Method
  table : List Class
  resolved : Class → Bool
  buffered : List Category
  loadTable : Imp → Bool
  sent : List (Class × Imp)
  frames : List Frame

/-- `sel_isEqual` with `loadSel`. -/
def Method.isLoad (m : Method) : Bool := m.name = "load"

def Frame.isLink : Frame → Bool
  | .linkClass _ => true
  | _ => false

namespace Loader

def classNamed (σ : Loader) (name : String) : Option Class := σ.table.find? fun c => σ.name c = name

/-- `objc_load_class` (class_table.c, lines 956–1027). -/
def loadClass (σ : Loader) (cls : Class) : Loader :=
  if (σ.classNamed (σ.name cls)).isSome then σ else { σ with table := cls :: σ.table }

/-- `objc_try_load_category` (category_loader.c, lines 61–86): the class methods go to the head of the
    method lists of the metaclass, or the category is buffered. -/
def tryLoadCategory (σ : Loader) (cat : Category) : Loader :=
  match σ.classNamed cat.className with
  | some cls => { σ with methods := Function.update σ.methods cls (cat.classMethods ++ σ.methods cls) }
  | none => { σ with buffered := σ.buffered ++ [cat] }

/-- `objc_load_buffered_categories` (category_loader.c, lines 88–109). -/
def loadBufferedCategories (σ : Loader) : Loader := σ.buffered.foldl tryLoadCategory { σ with buffered := [] }

/-- `__objc_load` up to `objc_resolve_class_links` (loader.c, lines 852–887). -/
def startLoad (σ : Loader) (image : Image) : Loader :=
  let σ := { σ with frames := .resolveClassLinks image.categories :: σ.frames }
  let σ := image.classes.foldl loadClass σ
  let σ := image.categories.foldl tryLoadCategory σ
  σ.loadBufferedCategories

/-- An image is loaded by the program or by a `+load` method. -/
def mayLoad (σ : Loader) : Bool :=
  match σ.frames with
  | [] => true
  | .load .. :: _ => true
  | _ => false

/-- One step of `objc_resolve_class` of `cls` before the superclass is resolved (class_table.c, lines
    304–339). When a superclass is missing, the calls for the classes below it return `NO` too. -/
def stepResolve (σ : Loader) (cls : Class) (fs : List Frame) : Loader :=
  if σ.resolved cls then { σ with frames := fs }
  else
    match σ.superClass cls with
    | some sup =>
      if σ.resolved sup then { σ with frames := .linkClass cls :: fs }
      else { σ with frames := .resolveClass sup :: .linkClass cls :: fs }
    | none =>
      match σ.legacySuper cls with
      | none => { σ with frames := .linkClass cls :: fs }
      | some name =>
        match σ.classNamed name with
        | none => { σ with frames := fs.dropWhile Frame.isLink }
        | some sup => { σ with superClass := Function.update σ.superClass cls (some sup) }

/-- One step of the function at the top of the stack. -/
def stepTop (σ : Loader) : Frame → List Frame → Option Loader
  | .resolveClassLinks _, _ => none
  | .sendCategories [], fs => some { σ with frames := fs }
  | .sendCategories (cat :: cats), fs =>
    match σ.classNamed cat.className with
    | some cls =>
      if σ.resolved cls then
        some { σ with frames := .sendLoadMessage cls (σ.methods cls) :: .sendCategories cats :: fs }
      else some { σ with frames := .sendCategories cats :: fs }
    | none => some { σ with frames := .sendCategories cats :: fs }
  | .resolveClass cls, fs => some (σ.stepResolve cls fs)
  | .linkClass cls, fs =>
    some
      { σ with
        resolved := Function.update σ.resolved cls true
        frames := .sendLoadMessage cls (σ.methods cls) :: fs }
  | .sendLoadMessage _ [], fs => some { σ with frames := fs }
  | .sendLoadMessage cls (m :: ms), fs =>
    if m.isLoad && !σ.loadTable m.imp then
      some { σ with sent := (cls, m.imp) :: σ.sent, frames := .load cls m.imp ms :: fs }
    else some { σ with frames := .sendLoadMessage cls ms :: fs }
  | .load cls imp ms, fs =>
    some { σ with loadTable := Function.update σ.loadTable imp true, frames := .sendLoadMessage cls ms :: fs }

end Loader

/-- * `load`: an image is loaded;
    * `resolve`: the loop of `objc_resolve_class_links` gets to an unresolved class;
    * `linksDone`: it ends;
    * `step`: the function at the top of the stack goes on. -/
inductive Act where
  | load (image : Image)
  | resolve (cls : Class)
  | linksDone
  | step
deriving Repr

namespace Loader

def next (σ : Loader) : Act → Option Loader
  | .load image => if σ.mayLoad then some (σ.startLoad image) else none
  | .resolve cls =>
    match σ.frames with
    | .resolveClassLinks cats :: fs =>
      if cls ∈ σ.table && !σ.resolved cls then
        some { σ with frames := .resolveClass cls :: .resolveClassLinks cats :: fs }
      else none
    | _ => none
  | .linksDone =>
    match σ.frames with
    | .resolveClassLinks cats :: fs => some { σ with frames := .sendCategories cats :: fs }
    | _ => none
  | .step =>
    match σ.frames with
    | f :: fs => σ.stepTop f fs
    | [] => none

end Loader

/-! ## The messages of a class -/

/-- The implementations of the `+load` methods. -/
def loadImps (ms : List Method) : List Imp := (ms.filter Method.isLoad).map Method.imp

@[simp]
theorem loadImps_nil : loadImps [] = [] := rfl

theorem loadImps_cons (m : Method) (ms : List Method) :
    loadImps (m :: ms) = if m.isLoad then m.imp :: loadImps ms else loadImps ms := by
  rw [loadImps, List.filter_cons]
  split <;> rfl

@[simp]
theorem loadImps_append (ms ms' : List Method) : loadImps (ms ++ ms') = loadImps ms ++ loadImps ms' := by
  simp [loadImps]

/-- `objc_send_load_message` is under way for `c`. -/
def Frame.Sends (c : Class) : Frame → Prop
  | .sendLoadMessage cls _ => cls = c
  | .load cls _ _ => cls = c
  | _ => False

/-- It is, or will be when the frame is continued. -/
def Frame.Handles (c : Class) : Frame → Prop
  | .linkClass cls => cls = c
  | f => f.Sends c

/-- The frame has to do with the `+load` messages of `c`. -/
def Frame.Concerns (σ : Loader) (c : Class) : Frame → Prop
  | .resolveClassLinks cats => ∃ cat ∈ cats, σ.classNamed cat.className = some c
  | .sendCategories cats => ∃ cat ∈ cats, σ.classNamed cat.className = some c
  | f => f.Sends c

/-- The frame will see to it that `imp` is called for `c`. -/
def Frame.Calls (σ : Loader) (c : Class) (imp : Imp) : Frame → Prop
  | .sendLoadMessage cls ms => cls = c ∧ imp ∈ loadImps ms
  | .load cls _ ms => cls = c ∧ imp ∈ loadImps ms
  | f => f.Concerns σ c

theorem Frame.Calls.concerns {σ : Loader} {c : Class} {imp : Imp} {f : Frame} (h : f.Calls σ c imp) :
    f.Concerns σ c := by
  cases f with
  | sendLoadMessage => exact h.1
  | load => exact h.1
  | _ => exact h

namespace Loader

/-- No two `+load` methods of classes and of the categories `cats` share an implementation. -/
structure Distinct (methods : Class → List Method) (cats : List Category) : Prop where
  nodup : ∀ c, (loadImps (methods c)).Nodup
  classes : ∀ c d imp, imp ∈ loadImps (methods c) → imp ∈ loadImps (methods d) → c = d
  cats_nodup : (cats.flatMap fun cat => loadImps cat.classMethods).Nodup
  cats_classes : ∀ c, ∀ imp ∈ loadImps (methods c), ∀ cat ∈ cats, imp ∉ loadImps cat.classMethods

/-- When every `+load` method is called once. -/
def LoadsOk (σ : Loader) : Act → Prop
  | .load image => Distinct σ.methods (image.categories ++ σ.buffered) ∧ ∀ cat ∈ σ.buffered, ∀ c,
    (image.classes.foldl loadClass σ).classNamed cat.className = some c → σ.resolved c = false
  | .step =>
    match σ.frames with
    | .sendCategories (cat :: _) :: fs => ∀ c, σ.classNamed cat.className = some c → ∀ f ∈ fs, ¬ f.Sends c
    | _ => True
  | _ => True

/-- Every `+load` method of every resolved class has been called once with the class, unless a function
    that has to do with it is still under way. -/
def LoadsOnce (σ : Loader) : Prop :=
  ∀ c, σ.resolved c = true → (∀ f ∈ σ.frames, ¬ f.Concerns σ c) →
    ∀ imp, σ.sent.count (c, imp) = (loadImps (σ.methods c)).count imp

/-! ## The invariant -/

/-- What holds of the messages that have been sent, when the categories `cats` are still to come. -/
structure LoadsSent (cats : List Category) (σ : Loader) : Prop where
  distinct : Distinct σ.methods cats
  sent_nodup : σ.sent.Nodup
  sent_mem : ∀ c imp, (c, imp) ∈ σ.sent → imp ∈ loadImps (σ.methods c)
  table_sent : ∀ imp, σ.loadTable imp = true → ∃ c, (c, imp) ∈ σ.sent
  sent_table : ∀ c imp, (c, imp) ∈ σ.sent → σ.loadTable imp = true ∨ ∃ ms, .load c imp ms ∈ σ.frames
  load_sent : ∀ c imp ms, .load c imp ms ∈ σ.frames → (c, imp) ∈ σ.sent
  rest : ∀ c ms, .sendLoadMessage c ms ∈ σ.frames ∨ (∃ imp, .load c imp ms ∈ σ.frames) →
    ∀ imp ∈ loadImps ms, imp ∈ loadImps (σ.methods c)
  resolved : ∀ c, ∀ f ∈ σ.frames, f.Sends c → σ.resolved c = true
  single : σ.frames.Pairwise fun f g => ∀ c, f.Handles c → ¬ g.Sends c
  called : ∀ c, σ.resolved c = true → ∀ imp ∈ loadImps (σ.methods c),
    (c, imp) ∈ σ.sent ∨ ∃ f ∈ σ.frames, f.Calls σ c imp

theorem LoadsSent.loadsOnce {cats : List Category} {σ : Loader} (h : LoadsSent cats σ) : σ.LoadsOnce := by
  intro c hr hf imp
  by_cases himp : imp ∈ loadImps (σ.methods c)
  · rw [List.count_eq_one_of_mem (h.distinct.nodup c) himp]
    refine List.count_eq_one_of_mem h.sent_nodup ((h.called c hr imp himp).resolve_right ?_)
    rintro ⟨f, hmem, hcalls⟩
    exact hf f hmem hcalls.concerns
  · rw [List.count_eq_zero_of_not_mem himp, List.count_eq_zero_of_not_mem fun hs =>
      himp (h.sent_mem c imp hs)]

/-! ## Steps -/

section Steps

variable {cats : List Category} {σ τ : Loader}

theorem Frame.calls_mono {c : Class} {imp : Imp} {f : Frame}
    (hnamed : ∀ n, σ.classNamed n = some c → τ.classNamed n = some c) (h : f.Calls σ c imp) :
    f.Calls τ c imp := by
  cases f with
  | resolveClassLinks cats =>
    obtain ⟨cat, hcat, hc⟩ := h
    exact ⟨cat, hcat, hnamed _ hc⟩
  | sendCategories cats =>
    obtain ⟨cat, hcat, hc⟩ := h
    exact ⟨cat, hcat, hnamed _ hc⟩
  | _ => exact h

/-- Only the stack changes, and no `+load` is called or comes back. -/
theorem LoadsSent.reframe (h : LoadsSent cats σ) {fs : List Frame}
    (hload : ∀ c imp ms, .load c imp ms ∈ fs ↔ .load c imp ms ∈ σ.frames)
    (hrest : ∀ c ms, .sendLoadMessage c ms ∈ fs → ∀ imp ∈ loadImps ms, imp ∈ loadImps (σ.methods c))
    (hres : ∀ c ms, .sendLoadMessage c ms ∈ fs → σ.resolved c = true)
    (hsingle : fs.Pairwise fun f g => ∀ c, f.Handles c → ¬ g.Sends c)
    (hcalls : ∀ f ∈ σ.frames, ∀ c imp, f.Calls σ c imp → σ.resolved c = true → imp ∈ loadImps (σ.methods c) →
      (c, imp) ∈ σ.sent ∨ ∃ g ∈ fs, g.Calls σ c imp) :
    LoadsSent cats { σ with frames := fs } where
  distinct := h.distinct
  sent_nodup := h.sent_nodup
  sent_mem := h.sent_mem
  table_sent := h.table_sent
  sent_table c imp hs := (h.sent_table c imp hs).imp_right fun ⟨ms, hms⟩ => ⟨ms, (hload c imp ms).mpr hms⟩
  load_sent c imp ms hl := h.load_sent c imp ms ((hload c imp ms).mp hl)
  rest c ms hf := by
    rcases hf with hf | ⟨imp, hf⟩
    · exact hrest c ms hf
    · exact h.rest c ms (.inr ⟨imp, (hload c imp ms).mp hf⟩)
  resolved c f hf hsends := by
    cases f with
    | sendLoadMessage d ms =>
      obtain rfl : d = c := hsends
      exact hres d ms hf
    | load d imp ms => exact h.resolved c _ ((hload d imp ms).mp hf) hsends
    | _ => exact hsends.elim
  single := hsingle
  called c hr imp himp := by
    rcases h.called c hr imp himp with hs | ⟨f, hf, hcall⟩
    · exact .inl hs
    · rcases hcalls f hf c imp hcall hr himp with hs | ⟨g, hg, hcall⟩
      · exact .inl hs
      · exact .inr ⟨g, hg, Frame.calls_mono (fun _ => id) hcall⟩

/-- The frame at the top is replaced by others that send nothing. -/
theorem LoadsSent.replaceTop (h : LoadsSent cats σ) {f : Frame} {fs : List Frame} (top : List Frame)
    (hfr : σ.frames = f :: fs)
    (hf : ∀ c, ¬ f.Sends c) (htop : ∀ g ∈ top, ∀ c, ¬ g.Sends c)
    (hsingle : ∀ g ∈ top, ∀ c, g.Handles c → ∀ g' ∈ fs, ¬ g'.Sends c)
    (hcalls : ∀ c imp, f.Calls σ c imp → σ.resolved c = true → imp ∈ loadImps (σ.methods c) →
      (c, imp) ∈ σ.sent ∨ ∃ g ∈ top ++ fs, g.Calls σ c imp) :
    LoadsSent cats { σ with frames := top ++ fs } := by
  have hold : ∀ g, (∃ c, g.Sends c) → (g ∈ top ++ fs ↔ g ∈ σ.frames) := by
    rintro g ⟨c, hg⟩
    rw [hfr, List.mem_append, List.mem_cons]
    constructor
    · rintro (hg' | hg')
      · exact absurd hg (htop g hg' c)
      · exact .inr hg'
    · rintro (rfl | hg')
      · exact absurd hg (hf c)
      · exact .inr hg'
  have hpair := h.single
  rw [hfr, List.pairwise_cons] at hpair
  refine h.reframe (fun c imp ms => hold (.load c imp ms) ⟨c, rfl⟩) (fun c ms hs => ?_)
      (fun c ms hs => ?_) ?_ fun g hg c imp hcall => ?_
  · exact h.rest c ms (.inl ((hold (.sendLoadMessage c ms) ⟨c, rfl⟩).mp hs))
  · exact h.resolved c _ ((hold (.sendLoadMessage c ms) ⟨c, rfl⟩).mp hs) rfl
  · refine List.pairwise_append.mpr ⟨?_, hpair.2, fun g hg g' hg' c hc => hsingle g hg c hc g' hg'⟩
    exact List.pairwise_of_forall_mem_list fun g _ g' hg' c _ => htop g' hg' c
  · intro hr himp
    rw [hfr, List.mem_cons] at hg
    rcases hg with rfl | hg
    · exact hcalls c imp hcall hr himp
    · exact .inr ⟨g, List.mem_append_right _ hg, hcall⟩

/-- The calls below one that has failed return. -/
theorem LoadsSent.dropLinks : ∀ {fs : List Frame}, LoadsSent cats { σ with frames := fs } →
    LoadsSent cats { σ with frames := fs.dropWhile Frame.isLink }
  | [], h => h
  | f :: fs, h => by
    rw [List.dropWhile_cons]
    split
    · next hf =>
      cases f with
      | linkClass cls =>
        have hpop : LoadsSent cats { σ with frames := fs } :=
          h.replaceTop [] rfl (fun _ => id) (by simp) (by simp) fun _ _ hc => hc.elim
        exact hpop.dropLinks
      | _ => cases hf
    · exact h

/-- A function that sends nothing is called. -/
theorem LoadsSent.pushFrame (h : LoadsSent cats σ) {f : Frame} (hf : ∀ c, ¬ f.Handles c)
    (hs : ∀ c, ¬ f.Sends c) :
    LoadsSent cats { σ with frames := f :: σ.frames } := by
  have hold : ∀ g, (∃ c, g.Sends c) → (g ∈ f :: σ.frames ↔ g ∈ σ.frames) := by
    rintro g ⟨c, hg⟩
    refine ⟨fun h => (List.mem_cons.mp h).resolve_left ?_, List.mem_cons_of_mem _⟩
    rintro rfl
    exact hs c hg
  refine h.reframe (fun c imp ms => hold (.load c imp ms) ⟨c, rfl⟩) (fun c ms hc => ?_) (fun c ms hc => ?_)
    (List.pairwise_cons.mpr ⟨fun _ _ c hc => (hf c hc).elim, h.single⟩)
    fun g hg _ _ hcall _ _ => .inr ⟨g, List.mem_cons_of_mem _ hg, hcall⟩
  · exact h.rest c ms (.inl ((hold (.sendLoadMessage c ms) ⟨c, rfl⟩).mp hc))
  · exact h.resolved c _ ((hold (.sendLoadMessage c ms) ⟨c, rfl⟩).mp hc) rfl

theorem LoadsSent.stepResolve (h : LoadsSent cats σ) {cls : Class} {fs : List Frame}
    (hfr : σ.frames = .resolveClass cls :: fs) : LoadsSent cats (σ.stepResolve cls fs) := by
  -- the class is not being sent `+load` while it is not resolved
  have hlink : σ.resolved cls = false → LoadsSent cats { σ with frames := .linkClass cls :: fs } ∧
      ∀ sup, LoadsSent cats { σ with frames := .resolveClass sup :: .linkClass cls :: fs } := by
    intro hr
    have hfs : ∀ g ∈ fs, ¬ g.Sends cls := by
      intro g hg hsends
      have := h.resolved cls g (by rw [hfr]; exact List.mem_cons_of_mem _ hg) hsends
      cases hr.symm.trans this
    refine ⟨h.replaceTop [.linkClass cls] hfr (fun _ => id) ?_ ?_ fun _ _ hc => hc.elim,
      fun sup => h.replaceTop [.resolveClass sup, .linkClass cls] hfr (fun _ => id) ?_ ?_
        fun _ _ hc => hc.elim⟩
    · simp [Frame.Sends]
    · rintro g hg c hc
      obtain rfl := List.mem_singleton.mp hg
      obtain rfl : cls = c := hc
      exact hfs
    · simp [Frame.Sends]
    · rintro g hg c hc
      rcases List.mem_cons.mp hg with rfl | hg
      · exact hc.elim
      · obtain rfl := List.mem_singleton.mp hg
        obtain rfl : cls = c := hc
        exact hfs
  have hpop : LoadsSent cats { σ with frames := fs } :=
    h.replaceTop [] hfr (fun _ => id) (by simp) (by simp) fun _ _ hc => hc.elim
  rw [Loader.stepResolve]
  split
  · exact hpop
  · next hr =>
    have hr := Bool.eq_false_iff.mpr hr
    split
    · split
      · exact (hlink hr).1
      · exact (hlink hr).2 _
    · split
      · exact (hlink hr).1
      · split
        · exact hpop.dropLinks
        · next sup _ =>
          exact
            { h with
              called := fun c hr imp himp => (h.called c hr imp himp).imp_right fun ⟨f, hf, hcall⟩ =>
                ⟨f, hf, Frame.calls_mono (fun _ => id) hcall⟩ }

theorem LoadsSent.linkClass (h : LoadsSent cats σ) {cls : Class} {fs : List Frame}
    (hfr : σ.frames = .linkClass cls :: fs) :
    LoadsSent cats
      { σ with
        resolved := Function.update σ.resolved cls true
        frames := .sendLoadMessage cls (σ.methods cls) :: fs } := by
  have hpair := h.single
  rw [hfr, List.pairwise_cons] at hpair
  have hmem : ∀ {f : Frame}, f ∈ Frame.sendLoadMessage cls (σ.methods cls) :: fs →
      f = .sendLoadMessage cls (σ.methods cls) ∨
      f ∈ σ.frames := by
    intro f hf
    rw [hfr]
    rcases List.mem_cons.mp hf with rfl | hf
    · exact .inl rfl
    · exact .inr (List.mem_cons_of_mem _ hf)
  have hload : ∀ c imp ms, Frame.load c imp ms ∈ Frame.sendLoadMessage cls (σ.methods cls) :: fs ↔
      Frame.load c imp ms ∈ σ.frames := by
    intro c imp ms
    rw [hfr]
    simp
  have hresolved : ∀ c, σ.resolved c = true → Function.update σ.resolved cls true c = true := by
    intro c hc
    rw [Function.update_apply]
    split
    · rfl
    · exact hc
  exact
    { distinct := h.distinct
      sent_nodup := h.sent_nodup
      sent_mem := h.sent_mem
      table_sent := h.table_sent
      sent_table := fun c imp hs => (h.sent_table c imp hs).imp_right fun ⟨ms, hms⟩ =>
          ⟨ms, (hload c imp ms).mpr hms⟩
      load_sent := fun c imp ms hl => h.load_sent c imp ms ((hload c imp ms).mp hl)
      rest := fun c ms hf imp himp => by
        rcases hf with hf | ⟨i, hf⟩
        · rcases hmem hf with heq | hf
          · obtain ⟨rfl, rfl⟩ := Frame.sendLoadMessage.inj heq
            exact himp
          · exact h.rest c ms (.inl hf) imp himp
        · exact h.rest c ms (.inr ⟨i, (hload c i ms).mp hf⟩) imp himp
      resolved := fun c f hf hsends => by
        rcases hmem hf with rfl | hf
        · obtain rfl : cls = c := hsends
          exact Function.update_self ..
        · exact hresolved c (h.resolved c f hf hsends)
      single := List.pairwise_cons.mpr ⟨hpair.1, hpair.2⟩
      called := fun c hr imp himp => by
        by_cases hc : c = cls
        · subst hc
          exact .inr ⟨_, List.mem_cons_self .., rfl, himp⟩
        · have hr : Function.update σ.resolved cls true c = true := hr
          rw [Function.update_of_ne hc] at hr
          refine (h.called c hr imp himp).imp_right ?_
          rintro ⟨f, hf, hcall⟩
          rw [hfr, List.mem_cons] at hf
          rcases hf with rfl | hf
          · exact hcall.concerns.elim
          · exact ⟨f, List.mem_cons_of_mem _ hf, Frame.calls_mono (fun _ => id) hcall⟩ }

/-- The loop of `objc_send_load_message` leaves a method out. -/
theorem LoadsSent.skip (h : LoadsSent cats σ) {cls : Class} {m : Method} {ms : List Method} {fs : List Frame}
    (hfr : σ.frames = .sendLoadMessage cls (m :: ms) :: fs)
    (hskip : m.isLoad = true → (cls, m.imp) ∈ σ.sent) :
    LoadsSent cats { σ with frames := .sendLoadMessage cls ms :: fs } := by
  have hpair := h.single
  rw [hfr, List.pairwise_cons] at hpair
  have hsub : ∀ imp ∈ loadImps ms, imp ∈ loadImps (m :: ms) := by
    intro imp himp
    rw [loadImps_cons]
    split
    · exact List.mem_cons_of_mem _ himp
    · exact himp
  have htop : Frame.sendLoadMessage cls (m :: ms) ∈ σ.frames := by
    rw [hfr]
    exact List.mem_cons_self ..
  have hmem : ∀ {g : Frame}, g ∈ fs → g ∈ σ.frames := fun hg => by
    rw [hfr]
    exact List.mem_cons_of_mem _ hg
  refine h.reframe (fun c imp ms' => ?_) (fun c ms' hs => ?_) (fun c ms' hs => ?_)
      (List.pairwise_cons.mpr hpair)
    fun g hg c imp hcall hrc himp => ?_
  · rw [hfr]
    simp
  · rcases List.mem_cons.mp hs with heq | hs
    · obtain ⟨rfl, rfl⟩ := Frame.sendLoadMessage.inj heq
      exact fun imp himp => h.rest c _ (.inl htop) imp (hsub imp himp)
    · exact h.rest c ms' (.inl (hmem hs))
  · rcases List.mem_cons.mp hs with heq | hs
    · obtain ⟨rfl, rfl⟩ := Frame.sendLoadMessage.inj heq
      exact h.resolved c _ htop rfl
    · exact h.resolved c _ (hmem hs) rfl
  · rw [hfr, List.mem_cons] at hg
    rcases hg with rfl | hg
    · obtain ⟨rfl, hcall⟩ := hcall
      rw [loadImps_cons] at hcall
      split at hcall
      · next hload =>
        rcases List.mem_cons.mp hcall with rfl | hcall
        · exact .inl (hskip hload)
        · exact .inr ⟨_, List.mem_cons_self .., rfl, hcall⟩
      · exact .inr ⟨_, List.mem_cons_self .., rfl, hcall⟩
    · exact .inr ⟨g, List.mem_cons_of_mem _ hg, hcall⟩

/-- It calls a `+load` method. -/
theorem LoadsSent.call (h : LoadsSent cats σ) {cls : Class} {m : Method} {ms : List Method} {fs : List Frame}
    (hfr : σ.frames = .sendLoadMessage cls (m :: ms) :: fs) (hload : m.isLoad = true)
    (hnew : σ.loadTable m.imp = false) :
    LoadsSent cats { σ with sent := (cls, m.imp) :: σ.sent, frames := .load cls m.imp ms :: fs } := by
  have hpair := h.single
  rw [hfr, List.pairwise_cons] at hpair
  have htop : Frame.sendLoadMessage cls (m :: ms) ∈ σ.frames := by
    rw [hfr]
    exact List.mem_cons_self ..
  have hmem : ∀ {g : Frame}, g ∈ fs → g ∈ σ.frames := fun hg => by
    rw [hfr]
    exact List.mem_cons_of_mem _ hg
  have hold : ∀ c imp ms', Frame.load c imp ms' ∈ σ.frames → Frame.load c imp ms' ∈ fs := by
    intro c imp ms' hf
    rw [hfr] at hf
    simpa using hf
  have himps : loadImps (m :: ms) = m.imp :: loadImps ms := by rw [loadImps_cons, if_pos hload]
  have hrest := h.rest cls _ (.inl htop)
  rw [himps] at hrest
  -- the class is being sent `+load` by the frame at the top alone
  have hunsent : (cls, m.imp) ∉ σ.sent := by
    intro hs
    rcases h.sent_table cls m.imp hs with ht | ⟨ms', hf⟩
    · cases hnew.symm.trans ht
    · exact hpair.1 _ (hold cls m.imp ms' hf) cls rfl rfl
  exact
    { distinct := h.distinct
      sent_nodup := List.nodup_cons.mpr ⟨hunsent, h.sent_nodup⟩
      sent_mem := fun c imp hs => by
        rcases List.mem_cons.mp hs with heq | hs
        · obtain ⟨rfl, rfl⟩ := Prod.mk.inj heq
          exact hrest _ (List.mem_cons_self ..)
        · exact h.sent_mem c imp hs
      table_sent := fun imp ht => (h.table_sent imp ht).imp fun _ hs => List.mem_cons_of_mem _ hs
      sent_table := fun c imp hs => by
        rcases List.mem_cons.mp hs with heq | hs
        · obtain ⟨rfl, rfl⟩ := Prod.mk.inj heq
          exact .inr ⟨ms, List.mem_cons_self ..⟩
        · exact (h.sent_table c imp hs).imp_right fun ⟨ms', hf⟩ =>
              ⟨ms', List.mem_cons_of_mem _ (hold c imp ms' hf)⟩
      load_sent := fun c imp ms' hf => by
        rcases List.mem_cons.mp hf with heq | hf
        · obtain ⟨rfl, rfl, rfl⟩ := Frame.load.inj heq
          exact List.mem_cons_self ..
        · exact List.mem_cons_of_mem _ (h.load_sent c imp ms' (hmem hf))
      rest := fun c ms' hf imp himp => by
        rcases hf with hf | ⟨i, hf⟩
        · exact h.rest c ms' (.inl (hmem ((List.mem_cons.mp hf).resolve_left nofun))) imp himp
        · rcases List.mem_cons.mp hf with heq | hf
          · obtain ⟨rfl, rfl, rfl⟩ := Frame.load.inj heq
            exact hrest imp (List.mem_cons_of_mem _ himp)
          · exact h.rest c ms' (.inr ⟨i, hmem hf⟩) imp himp
      resolved := fun c f hf hsends => by
        rcases List.mem_cons.mp hf with rfl | hf
        · obtain rfl : cls = c := hsends
          exact h.resolved cls _ htop rfl
        · exact h.resolved c f (hmem hf) hsends
      single := List.pairwise_cons.mpr hpair
      called := fun c hr imp himp => by
        rcases h.called c hr imp himp with hs | ⟨f, hf, hcall⟩
        · exact .inl (List.mem_cons_of_mem _ hs)
        · rw [hfr, List.mem_cons] at hf
          rcases hf with rfl | hf
          · obtain ⟨rfl, hcall⟩ := hcall
            rw [himps] at hcall
            rcases List.mem_cons.mp hcall with rfl | hcall
            · exact .inl (List.mem_cons_self ..)
            · exact .inr ⟨_, List.mem_cons_self .., rfl, hcall⟩
          · exact .inr ⟨f, List.mem_cons_of_mem _ hf, Frame.calls_mono (fun _ => id) hcall⟩ }

/-- The `+load` method returns. -/
theorem LoadsSent.return (h : LoadsSent cats σ) {cls : Class} {imp : Imp} {ms : List Method} {fs : List Frame}
    (hfr : σ.frames = .load cls imp ms :: fs) :
    LoadsSent cats
      { σ with loadTable := Function.update σ.loadTable imp true, frames := .sendLoadMessage cls ms :: fs } := by
  have hpair := h.single
  rw [hfr, List.pairwise_cons] at hpair
  have htop : Frame.load cls imp ms ∈ σ.frames := by
    rw [hfr]
    exact List.mem_cons_self ..
  have hmem : ∀ {g : Frame}, g ∈ fs → g ∈ σ.frames := fun hg => by
    rw [hfr]
    exact List.mem_cons_of_mem _ hg
  exact
    { distinct := h.distinct
      sent_nodup := h.sent_nodup
      sent_mem := h.sent_mem
      table_sent := fun i ht => by
        have ht : Function.update σ.loadTable imp true i = true := ht
        rw [Function.update_apply] at ht
        split at ht
        · next heq => exact ⟨cls, heq ▸ h.load_sent cls imp ms htop⟩
        · exact h.table_sent i ht
      sent_table := fun c i hs => by
        show Function.update σ.loadTable imp true i = true ∨ _
        by_cases hi : i = imp
        · subst hi
          exact .inl (Function.update_self ..)
        · rw [Function.update_of_ne hi]
          refine (h.sent_table c i hs).imp_right fun ⟨ms', hf⟩ => ⟨ms', ?_⟩
          rw [hfr] at hf
          rcases List.mem_cons.mp hf with heq | hf
          · exact absurd (Frame.load.inj heq).2.1 hi
          · exact List.mem_cons_of_mem _ hf
      load_sent := fun c i ms' hf => h.load_sent c i ms' (hmem ((List.mem_cons.mp hf).resolve_left nofun))
      rest := fun c ms' hf i hi => by
        rcases hf with hf | ⟨i', hf⟩
        · rcases List.mem_cons.mp hf with heq | hf
          · obtain ⟨rfl, rfl⟩ := Frame.sendLoadMessage.inj heq
            exact h.rest c _ (.inr ⟨imp, htop⟩) i hi
          · exact h.rest c ms' (.inl (hmem hf)) i hi
        · exact h.rest c ms' (.inr ⟨i', hmem ((List.mem_cons.mp hf).resolve_left nofun)⟩) i hi
      resolved := fun c f hf hsends => by
        rcases List.mem_cons.mp hf with rfl | hf
        · obtain rfl : cls = c := hsends
          exact h.resolved cls _ htop rfl
        · exact h.resolved c f (hmem hf) hsends
      single := List.pairwise_cons.mpr hpair
      called := fun c hr i hi => by
        refine (h.called c hr i hi).imp_right ?_
        rintro ⟨f, hf, hcall⟩
        rw [hfr, List.mem_cons] at hf
        rcases hf with rfl | hf
        · exact ⟨_, List.mem_cons_self .., hcall⟩
        · exact ⟨f, List.mem_cons_of_mem _ hf, Frame.calls_mono (fun _ => id) hcall⟩ }

/-- The loop of `objc_send_load_message` ends. -/
theorem LoadsSent.sendDone (h : LoadsSent cats σ) {cls : Class} {fs : List Frame}
    (hfr : σ.frames = .sendLoadMessage cls [] :: fs) : LoadsSent cats { σ with frames := fs } := by
  have hpair := h.single
  rw [hfr, List.pairwise_cons] at hpair
  have hmem : ∀ {g : Frame}, g ∈ fs → g ∈ σ.frames := fun hg => by
    rw [hfr]
    exact List.mem_cons_of_mem _ hg
  refine h.reframe (fun c imp ms => ?_) (fun c ms hs => h.rest c ms (.inl (hmem hs)))
    (fun c ms hs => h.resolved c _ (hmem hs) rfl) hpair.2 fun g hg c imp hcall _ _ => ?_
  · rw [hfr]
    simp
  · rw [hfr, List.mem_cons] at hg
    rcases hg with rfl | hg
    · exact nomatch hcall.2
    · exact .inr ⟨g, hg, hcall⟩

theorem LoadsSent.sendCategory (h : LoadsSent cats σ) {cat : Category} {later : List Category}
    {fs : List Frame}
    (hfr : σ.frames = .sendCategories (cat :: later) :: fs) {cls : Class}
    (hcls : σ.classNamed cat.className = some cls)
    (hr : σ.resolved cls = true) (hfree : ∀ f ∈ fs, ¬ f.Sends cls) :
    LoadsSent cats { σ with frames := .sendLoadMessage cls (σ.methods cls) :: .sendCategories later :: fs } := by
  have hpair := h.single
  rw [hfr, List.pairwise_cons] at hpair
  have hmem : ∀ {g : Frame}, g ∈ fs → g ∈ σ.frames := fun hg => by
    rw [hfr]
    exact List.mem_cons_of_mem _ hg
  refine h.reframe (fun c imp ms => ?_) (fun c ms hs => ?_) (fun c ms hs => ?_) ?_ fun g hg c imp
      hcall hrc himp => ?_
  · rw [hfr]
    simp
  · rcases List.mem_cons.mp hs with heq | hs
    · obtain ⟨rfl, rfl⟩ := Frame.sendLoadMessage.inj heq
      exact fun imp himp => himp
    · exact h.rest c ms (.inl (hmem ((List.mem_cons.mp hs).resolve_left nofun)))
  · rcases List.mem_cons.mp hs with heq | hs
    · obtain ⟨rfl, rfl⟩ := Frame.sendLoadMessage.inj heq
      exact hr
    · exact h.resolved c _ (hmem ((List.mem_cons.mp hs).resolve_left nofun)) rfl
  · refine List.pairwise_cons.mpr
        ⟨fun g hg c hc => ?_, List.pairwise_cons.mpr ⟨fun _ _ _ hc => hc.elim, hpair.2⟩⟩
    obtain rfl : cls = c := hc
    rcases List.mem_cons.mp hg with rfl | hg
    · exact id
    · exact hfree g hg
  · rw [hfr, List.mem_cons] at hg
    rcases hg with rfl | hg
    · obtain ⟨cat', hcat, hc⟩ := hcall
      rcases List.mem_cons.mp hcat with rfl | hcat
      · obtain rfl := Option.some.inj (hcls.symm.trans hc)
        exact .inr ⟨_, List.mem_cons_self .., rfl, himp⟩
      · exact .inr ⟨.sendCategories later, by simp, cat', hcat, hc⟩
    · exact .inr ⟨g, by simp [hg], hcall⟩

/-! ## Loading an image -/

/-- A class that is found by its name stays found. -/
theorem classNamed_loadClass {cls c : Class} {n : String} (h : σ.classNamed n = some c) :
    (σ.loadClass cls).classNamed n = some c := by
  rw [Loader.loadClass]
  split
  · exact h
  · next hname =>
    show (cls :: σ.table).find? (fun c => σ.name c = n) = some c
    rw [List.find?_cons]
    split
    · next heq =>
      rw [of_decide_eq_true heq, h] at hname
      exact absurd rfl hname
    · exact h

theorem LoadsSent.loadClass (h : LoadsSent cats σ) (cls : Class) : LoadsSent cats (σ.loadClass cls) := by
  have hnamed : ∀ c n, σ.classNamed n = some c → (σ.loadClass cls).classNamed n = some c :=
    fun _ _ => classNamed_loadClass
  rw [Loader.loadClass] at hnamed ⊢
  split
  · exact h
  · next hname =>
    rw [if_neg hname] at hnamed
    exact
      { h with
        called := fun c hr imp himp => (h.called c hr imp himp).imp_right fun ⟨f, hf, hcall⟩ =>
          ⟨f, hf, Frame.calls_mono (hnamed c) hcall⟩ }

theorem Distinct.perm {methods : Class → List Method} {cats' : List Category} (h : Distinct methods cats)
    (hperm : cats.Perm cats') : Distinct methods cats' where
  nodup := h.nodup
  classes := h.classes
  cats_nodup := (hperm.flatMap_right _).nodup_iff.mp h.cats_nodup
  cats_classes c imp himp cat hcat := h.cats_classes c imp himp cat (hperm.mem_iff.mpr hcat)

/-- A category comes to its class. -/
theorem Distinct.attach {methods : Class → List Method} {cat : Category} (h : Distinct methods (cat :: cats))
    (cls : Class) : Distinct (Function.update methods cls (cat.classMethods ++ methods cls)) cats := by
  have hcats := h.cats_nodup
  rw [List.flatMap_cons, List.nodup_append] at hcats
  have hmem : ∀ c imp, imp ∈ loadImps (Function.update methods cls (cat.classMethods ++ methods cls) c) ↔
      c = cls ∧ imp ∈ loadImps cat.classMethods ∨ imp ∈ loadImps (methods c) := by
    intro c imp
    by_cases hc : c = cls
    · subst hc
      simp
    · simp [hc]
  have hnew : ∀ c imp, imp ∈ loadImps (methods c) → imp ∉ loadImps cat.classMethods := fun c imp himp =>
    h.cats_classes c imp himp cat (List.mem_cons_self ..)
  refine ⟨fun c => ?_, fun c d imp hc hd => ?_, hcats.2.1, fun c imp hc cat' hcat => ?_⟩
  · by_cases hc : c = cls
    · subst hc
      rw [Function.update_self, loadImps_append, List.nodup_append]
      refine ⟨hcats.1, h.nodup c, ?_⟩
      rintro imp himp _ himp' rfl
      exact hnew c imp himp' himp
    · rw [Function.update_of_ne hc]
      exact h.nodup c
  · rcases (hmem c imp).mp hc with ⟨hcc, hc'⟩ | hc'
    · rcases (hmem d imp).mp hd with ⟨hdc, -⟩ | hd'
      · exact hcc.trans hdc.symm
      · exact absurd hc' (hnew d imp hd')
    · rcases (hmem d imp).mp hd with ⟨-, hd'⟩ | hd'
      · exact absurd hd' (hnew c imp hc')
      · exact h.classes c d imp hc' hd'
  · rcases (hmem c imp).mp hc with ⟨-, hc'⟩ | hc'
    · intro himp
      exact hcats.2.2 imp hc' imp (List.mem_flatMap.mpr ⟨cat', hcat, himp⟩) rfl
    · exact h.cats_classes c imp hc' cat' (List.mem_cons_of_mem _ hcat)

/-- A category is attached to its class or buffered; the `+load` methods that a resolved class gets will be
    called. -/
theorem LoadsSent.tryLoadCategory {cat : Category} (h : LoadsSent (cat :: (cats ++ σ.buffered)) σ)
    (hcalls : ∀ c, σ.classNamed cat.className = some c → σ.resolved c = true →
      ∀ imp, ∃ f ∈ σ.frames, f.Calls σ c imp) :
    LoadsSent (cats ++ (σ.tryLoadCategory cat).buffered) (σ.tryLoadCategory cat) := by
  rw [Loader.tryLoadCategory]
  split
  · next cls hcls =>
    have hgrow : ∀ c imp, imp ∈ loadImps (σ.methods c) →
        imp ∈ loadImps (Function.update σ.methods cls (cat.classMethods ++ σ.methods cls) c) := by
      intro c imp himp
      by_cases hc : c = cls
      · subst hc
        simp [himp]
      · simpa [hc] using himp
    exact
      { h with
        distinct := h.distinct.attach cls
        sent_mem := fun c imp hs => hgrow c imp (h.sent_mem c imp hs)
        rest := fun c ms hf imp himp => hgrow c imp (h.rest c ms hf imp himp)
        called := fun c hr imp himp => by
          by_cases hold : imp ∈ loadImps (σ.methods c)
          · exact (h.called c hr imp hold).imp_right fun ⟨f, hf, hcall⟩ =>
                ⟨f, hf, Frame.calls_mono (fun _ => id) hcall⟩
          · have hc : c = cls := by
              by_contra hc
              refine hold ?_
              have himp : imp ∈ loadImps (Function.update σ.methods cls _ c) := himp
              rwa [Function.update_of_ne hc] at himp
            obtain ⟨f, hf, hcall⟩ := hcalls c (hc ▸ hcls) hr imp
            exact .inr ⟨f, hf, Frame.calls_mono (fun _ => id) hcall⟩ }
  · refine
      { h with
        distinct := h.distinct.perm ?_
        called := fun c hr imp himp => (h.called c hr imp himp).imp_right fun ⟨f, hf, hcall⟩ =>
          ⟨f, hf, Frame.calls_mono (fun _ => id) hcall⟩ }
    rw [← List.append_assoc]
    exact (List.perm_append_singleton cat _).symm

theorem tryLoadCategory_fields (σ : Loader) (cat : Category) : (σ.tryLoadCategory cat).name = σ.name ∧
    (σ.tryLoadCategory cat).table = σ.table ∧ (σ.tryLoadCategory cat).resolved = σ.resolved ∧
    (σ.tryLoadCategory cat).frames = σ.frames := by
  rw [Loader.tryLoadCategory]
  split <;> exact ⟨rfl, rfl, rfl, rfl⟩

theorem tryLoadCategory_buffered {cat c : Category} (h : c ∈ (σ.tryLoadCategory cat).buffered) :
    c = cat ∨ c ∈ σ.buffered := by
  rw [Loader.tryLoadCategory] at h
  split at h
  · exact .inr h
  · rcases List.mem_append.mp h with h | h
    · exact .inr h
    · exact .inl (List.mem_singleton.mp h)

/-- Categories are loaded one after the other. -/
theorem LoadsSent.loadCategories : ∀ {cs : List Category} {σ : Loader}, LoadsSent (cs ++ σ.buffered) σ →
    (∀ cat ∈ cs, ∀ c, σ.classNamed cat.className = some c → σ.resolved c = true →
      ∀ imp, ∃ f ∈ σ.frames, f.Calls σ c imp) →
    let σ' := cs.foldl Loader.tryLoadCategory σ
    LoadsSent σ'.buffered σ' ∧ σ'.name = σ.name ∧ σ'.table = σ.table ∧ σ'.resolved = σ.resolved ∧
      σ'.frames = σ.frames ∧ ∀ cat ∈ σ'.buffered, cat ∈ cs ∨ cat ∈ σ.buffered
  | [], σ, h, _ => ⟨h, rfl, rfl, rfl, rfl, fun _ => .inr⟩
  | cat :: cs, σ, h, hcalls => by
    obtain ⟨hname, htable, hres, hframes⟩ := tryLoadCategory_fields σ cat
    have hnamed : ∀ n, (σ.tryLoadCategory cat).classNamed n = σ.classNamed n := fun n => by
      rw [classNamed, hname, htable, classNamed]
    obtain ⟨h', hname', htable', hres', hframes', hbuf⟩ := LoadsSent.loadCategories
      (h.tryLoadCategory (hcalls cat (List.mem_cons_self ..))) fun c hc d hd hr imp => by
        rw [hnamed] at hd
        rw [hres] at hr
        obtain ⟨f, hf, hcall⟩ := hcalls c (List.mem_cons_of_mem _ hc) d hd hr imp
        exact ⟨f, by rw [hframes]; exact hf, Frame.calls_mono (fun n hn => (hnamed n).trans hn) hcall⟩
    refine ⟨h', hname'.trans hname, htable'.trans htable, hres'.trans hres, hframes'.trans hframes,
        fun c hc => ?_⟩
    rcases hbuf c hc with hc | hc
    · exact .inl (List.mem_cons_of_mem _ hc)
    · rcases tryLoadCategory_buffered hc with rfl | hc
      · exact .inl (List.mem_cons_self ..)
      · exact .inr hc

theorem LoadsSent.loadClasses (cs : List Class) : ∀ {σ : Loader}, LoadsSent cats σ →
    let σ' := cs.foldl Loader.loadClass σ
    LoadsSent cats σ' ∧ σ'.buffered = σ.buffered ∧ σ'.resolved = σ.resolved ∧ σ'.frames = σ.frames := by
  induction cs with
  | nil => exact fun h => ⟨h, rfl, rfl, rfl⟩
  | cons c cs ih =>
    intro σ h
    obtain ⟨h', hbuf, hres, hframes⟩ := ih (h.loadClass c)
    have hfields : (σ.loadClass c).buffered = σ.buffered ∧ (σ.loadClass c).resolved = σ.resolved ∧
        (σ.loadClass c).frames = σ.frames := by
      rw [Loader.loadClass]
      split <;> exact ⟨rfl, rfl, rfl⟩
    exact ⟨h', hbuf.trans hfields.1, hres.trans hfields.2.1, hframes.trans hfields.2.2⟩

theorem loadClasses_frames (cs : List Class) : ∀ (σ : Loader) (fs : List Frame),
    cs.foldl Loader.loadClass { σ with frames := fs } =
    { cs.foldl Loader.loadClass σ with frames := fs } := by
  induction cs with
  | nil => exact fun _ _ => rfl
  | cons c cs ih =>
    intro σ fs
    have hc : Loader.loadClass { σ with frames := fs } c = { σ.loadClass c with frames := fs } := by
      show (if (σ.classNamed (σ.name c)).isSome then _ else _) = _
      rw [Loader.loadClass]
      split <;> rfl
    rw [List.foldl_cons, hc, ih]
    rfl

theorem LoadsSent.startLoad (h : LoadsSent σ.buffered σ) {image : Image} (hok : σ.LoadsOk (.load image)) :
    LoadsSent (σ.startLoad image).buffered (σ.startLoad image) := by
  obtain ⟨hdistinct, hbuffered⟩ := hok
  have hstart : LoadsSent (image.categories ++ σ.buffered)
      { σ with frames := .resolveClassLinks image.categories :: σ.frames } :=
    { h.pushFrame (f := .resolveClassLinks image.categories) (fun _ => id) fun _ => id with distinct := hdistinct }
  obtain ⟨h₁, hbuf₁, hres₁, hframes₁⟩ := hstart.loadClasses image.classes
  rw [loadClasses_frames] at h₁ hbuf₁ hres₁ hframes₁
  -- the frame that is there already takes care of the categories of the image
  obtain ⟨τ, hτ⟩ : ∃ τ, τ = { image.classes.foldl Loader.loadClass σ with
      frames := .resolveClassLinks image.categories :: σ.frames } := ⟨_, rfl⟩
  rw [← hτ] at h₁ hbuf₁ hres₁ hframes₁
  have hcats : ∀ cat ∈ image.categories, ∀ (υ : Loader), υ.frames = τ.frames → ∀ c,
      υ.classNamed cat.className = some c → ∀ imp, ∃ f ∈ υ.frames, f.Calls υ c imp := by
    intro cat hcat υ hframes c hc imp
    exact ⟨.resolveClassLinks
        image.categories, by rw [hframes, hframes₁]; exact List.mem_cons_self .., cat, hcat, hc⟩
  have hpending : LoadsSent (image.categories ++ τ.buffered) τ := by
    rw [hbuf₁]
    exact h₁
  obtain ⟨h₂, hname₂, htable₂, hres₂, hframes₂, hbuf₂⟩ :=
    hpending.loadCategories fun cat hcat c hc _ => hcats cat hcat τ rfl c hc
  obtain ⟨υ, hυ⟩ : ∃ υ, υ = image.categories.foldl Loader.tryLoadCategory τ := ⟨_, rfl⟩
  rw [← hυ] at h₂ hname₂ htable₂ hres₂ hframes₂ hbuf₂
  have hbuffer : LoadsSent (υ.buffered ++ []) { υ with buffered := [] } := by
    rw [List.append_nil]
    exact
      { h₂ with
        called := fun c hr imp himp => (h₂.called c hr imp himp).imp_right fun ⟨f, hf, hcall⟩ =>
          ⟨f, hf, Frame.calls_mono (fun _ => id) hcall⟩ }
  have hstartLoad : σ.startLoad image = υ.loadBufferedCategories := by
    rw [Loader.startLoad, hυ, hτ, loadClasses_frames]
  rw [hstartLoad, Loader.loadBufferedCategories]
  refine (LoadsSent.loadCategories hbuffer fun cat hcat c hc hr imp => ?_).1
  rcases hbuf₂ cat hcat with hcat | hcat
  · exact hcats cat hcat _ hframes₂ c hc imp
  · have hclass : (image.classes.foldl Loader.loadClass σ).classNamed cat.className = some c := by
      rw [show Loader.classNamed { υ with buffered := [] } cat.className =
        υ.classNamed cat.className from rfl,
        classNamed, hname₂, htable₂, hτ] at hc
      exact hc
    rw [hbuf₁] at hcat
    have hun := hbuffered cat hcat c hclass
    have hr : υ.resolved c = true := hr
    rw [hres₂, hres₁, hun] at hr
    cases hr

/-- **Every step keeps what holds of the messages.** -/
theorem LoadsSent.next (h : LoadsSent σ.buffered σ) {a : Act} (hok : σ.LoadsOk a)
    (hnext : σ.next a = some τ) :
    LoadsSent τ.buffered τ := by
  cases a with
  | load image =>
    rw [Loader.next] at hnext
    split at hnext
    · rw [← Option.some.inj hnext]
      exact h.startLoad hok
    · cases hnext
  | resolve cls =>
    rw [Loader.next] at hnext
    split at hnext
    · next cats fs hfr =>
      split at hnext
      · rw [← Option.some.inj hnext, ← hfr]
        exact h.pushFrame (fun _ => id) fun _ => id
      · cases hnext
    · cases hnext
  | linksDone =>
    rw [Loader.next] at hnext
    split at hnext
    · next cats fs hfr =>
      rw [← Option.some.inj hnext]
      refine h.replaceTop [.sendCategories cats] hfr (fun _ => id) ?_ ?_ fun c imp hcall _ _ =>
        .inr ⟨.sendCategories cats, by simp, hcall⟩
      · simp [Frame.Sends]
      · rintro g hg c hc
        obtain rfl := List.mem_singleton.mp hg
        exact hc.elim
    · cases hnext
  | step =>
    rw [Loader.next] at hnext
    split at hnext
    · next f fs hfr =>
      cases f with
      | resolveClassLinks cats => cases hnext
      | sendCategories cats =>
        cases cats with
        | nil =>
          rw [← Option.some.inj hnext]
          exact h.replaceTop [] hfr (fun _ => id) (by simp) (by simp) fun _ _ ⟨_, hcat, _⟩ => nomatch hcat
        | cons cat cats =>
          have hleft : (∀ c, σ.classNamed cat.className = some c → σ.resolved c = false) →
              LoadsSent σ.buffered { σ with frames := .sendCategories cats :: fs } := by
            intro hun
            refine h.replaceTop [.sendCategories cats] hfr (fun _ => id) ?_ ?_ ?_
            · simp [Frame.Sends]
            · rintro g hg c hc
              obtain rfl := List.mem_singleton.mp hg
              exact hc.elim
            · rintro c imp ⟨cat', hcat, hc⟩ hr _
              rcases List.mem_cons.mp hcat with rfl | hcat
              · cases (hun c hc).symm.trans hr
              · exact .inr ⟨.sendCategories cats, by simp, cat', hcat, hc⟩
          rw [Loader.stepTop] at hnext
          split at hnext
          · next cls hcls =>
            split at hnext
            · next hr =>
              rw [← Option.some.inj hnext]
              rw [LoadsOk, hfr] at hok
              exact h.sendCategory hfr hcls hr (hok cls hcls)
            · next hr =>
              rw [← Option.some.inj hnext]
              refine hleft fun c hc => ?_
              obtain rfl := Option.some.inj (hcls.symm.trans hc)
              exact Bool.eq_false_iff.mpr hr
          · next hcls =>
            rw [← Option.some.inj hnext]
            exact hleft fun c hc => nomatch hcls.symm.trans hc
      | resolveClass cls =>
        rw [← Option.some.inj hnext]
        have hbuf : (σ.stepResolve cls fs).buffered = σ.buffered := by
          rw [Loader.stepResolve]
          repeat' split
          all_goals rfl
        rw [hbuf]
        exact h.stepResolve hfr
      | linkClass cls =>
        rw [← Option.some.inj hnext]
        exact h.linkClass hfr
      | sendLoadMessage cls ms =>
        cases ms with
        | nil =>
          rw [← Option.some.inj hnext]
          exact h.sendDone hfr
        | cons m ms =>
          rw [Loader.stepTop] at hnext
          split at hnext
          · next hcall =>
            rw [← Option.some.inj hnext]
            simp only [Bool.and_eq_true, Bool.not_eq_true'] at hcall
            exact h.call hfr hcall.1 hcall.2
          · next hcall =>
            rw [← Option.some.inj hnext]
            refine h.skip hfr fun hload => ?_
            -- an implementation that has been called belongs to this class alone
            have hcalled : σ.loadTable m.imp = true := by
              simp only [hload, Bool.true_and, Bool.not_eq_true, Bool.not_eq_false'] at hcall
              exact hcall
            obtain ⟨d, hd⟩ := h.table_sent m.imp hcalled
            have himp : m.imp ∈ loadImps (σ.methods cls) := by
              refine h.rest cls (m :: ms) (.inl (by rw [hfr]; exact List.mem_cons_self ..)) m.imp ?_
              rw [loadImps_cons, if_pos hload]
              exact List.mem_cons_self ..
            rwa [h.distinct.classes cls d m.imp himp (h.sent_mem d m.imp hd)]
      | load cls imp ms =>
        rw [← Option.some.inj hnext]
        exact h.return hfr
    · cases hnext

end Steps

/-! ## Runs -/

/-- Before the first image is loaded. -/
structure Initial (σ : Loader) : Prop where
  table : σ.table = []
  resolved : ∀ c, σ.resolved c = false
  buffered : σ.buffered = []
  loadTable : ∀ imp, σ.loadTable imp = false
  sent : σ.sent = []
  frames : σ.frames = []

theorem Initial.loadsSent {σ : Loader} (h : Initial σ) (hdistinct : Distinct σ.methods []) :
    LoadsSent σ.buffered σ where
  distinct := by
    rw [h.buffered]
    exact hdistinct
  sent_nodup := by simp [h.sent]
  sent_mem := by simp [h.sent]
  table_sent := by simp [h.loadTable]
  sent_table := by simp [h.sent]
  load_sent := by simp [h.frames]
  rest := by simp [h.frames]
  resolved := by simp [h.frames]
  single := by simp [h.frames]
  called := by simp [h.resolved]

/-- **Every `+load` method runs exactly once**: when no function that has to do with it is under way any
    more, every `+load` method of a resolved class has been called once with the class. -/
theorem loads_once {σ₀ σ : Loader} (h₀ : Initial σ₀) (hdistinct : Distinct σ₀.methods [])
    (h : Runs (fun σ a τ => σ.LoadsOk a ∧ σ.next a = some τ) σ₀ σ) : σ.LoadsOnce := by
  have hkept : ∀ σ a τ, LoadsSent σ.buffered σ → σ.LoadsOk a ∧ σ.next a = some τ → LoadsSent τ.buffered τ :=
    fun _ _ _ hs hstep => hs.next hstep.1 hstep.2
  have hinv : LoadsSent σ.buffered σ :=
    @Runs.invariant _ _ _ (fun σ => LoadsSent σ.buffered σ) _ _ h (h₀.loadsSent hdistinct) hkept
  exact hinv.loadsOnce

/-- Class 0 and class 1 have a `+load` method each. -/
def twoLoads (imp : Class → Imp) : Loader where
  name c := if c = 0 then "First" else "Second"
  superClass _ := none
  legacySuper _ := none
  methods c := if c < 2 then [⟨"load", imp c⟩] else []
  table := []
  resolved _ := false
  buffered := []
  loadTable _ := false
  sent := []
  frames := []

theorem twoLoads_initial (imp : Class → Imp) : Initial (twoLoads imp) :=
  ⟨rfl, fun _ => rfl, rfl, fun _ => rfl, rfl, rfl⟩

/-- Several steps in which no image is loaded and no category is looked at. -/
def plainSteps (σ : Loader) : List Act → Option Loader
  | [] => some σ
  | .load _ :: _ => none
  | a :: as =>
    match σ.frames with
    | .sendCategories (_ :: _) :: _ => none
    | _ => (σ.next a).bind fun σ => plainSteps σ as

theorem loadsOk_of_plain {σ : Loader} {a : Act} (hload : ∀ image, a ≠ .load image)
    (hplain : ∀ cat cats fs, σ.frames ≠ .sendCategories (cat :: cats) :: fs) : σ.LoadsOk a := by
  cases a with
  | load image => exact absurd rfl (hload image)
  | resolve | linksDone => trivial
  | step =>
    rw [LoadsOk]
    split
    · next h => exact absurd h (hplain _ _ _)
    · trivial

theorem plainSteps_runs : ∀ {as : List Act} {σ τ : Loader}, σ.plainSteps as = some τ →
    Runs (fun σ a τ => σ.LoadsOk a ∧ σ.next a = some τ) σ τ
  | [], σ, τ, h => by
    rw [← Option.some.inj h]
    exact Runs.refl σ
  | a :: as, σ, τ, h => by
    have hload : ∀ image, a ≠ .load image := by
      rintro image rfl
      cases h
    rw [plainSteps.eq_3 _ _ _ hload] at h
    split at h
    · cases h
    · next hplain =>
      obtain ⟨υ, hυ, hrest⟩ := Option.bind_eq_some_iff.mp h
      exact (Runs.single ⟨loadsOk_of_plain hload hplain, hυ⟩).trans (plainSteps_runs hrest)

/-- A list of steps. -/
def run (σ : Loader) (as : List Act) : Option Loader := as.foldlM next σ

theorem run_runs : ∀ {as : List Act} {σ τ : Loader}, σ.run as = some τ →
    Runs (fun σ a τ => σ.next a = some τ) σ τ
  | [], σ, τ, h => by
    rw [← Option.some.inj h]
    exact Runs.refl σ
  | a :: as, σ, τ, h => by
    obtain ⟨υ, hυ, hrest⟩ := Option.bind_eq_some_iff.mp h
    exact (Runs.single hυ).trans (run_runs hrest)

theorem twoLoads_distinct : Distinct (twoLoads id).methods [] := by
  have himp : ∀ c imp, imp ∈ loadImps ((twoLoads id).methods c) → imp = c := by
    intro c imp h
    have h : imp ∈ loadImps (if c < 2 then [⟨"load", c⟩] else []) := h
    split at h
    · simpa [loadImps, Method.isLoad] using h
    · cases h
  refine ⟨fun c => ?_, fun c d imp hc hd => ?_, List.nodup_nil, fun _ _ _ _ h => nomatch h⟩
  · show (loadImps (if c < 2 then [⟨"load", c⟩] else [])).Nodup
    split
    · simp [loadImps, Method.isLoad]
    · exact List.nodup_nil
  · exact (himp c imp hc).symm.trans (himp d imp hd)

/-- The `+load` method of class 0 loads the image of class 1. -/
theorem loads_once_nested : ∃ σ, Runs (fun σ a τ => σ.LoadsOk a ∧ σ.next a = some τ) (twoLoads id) σ ∧
    σ.sent = [(1, 1), (0, 0)] ∧ σ.frames = [] ∧ σ.LoadsOnce := by
  have hload : ∀ σ : Loader, σ.methods = (twoLoads id).methods → σ.buffered = [] →
      ∀ c, σ.LoadsOk (.load ⟨[c], []⟩) := by
    intro σ hmethods hbuf c
    refine ⟨?_, ?_⟩
    · rw [hmethods, hbuf]
      exact twoLoads_distinct
    · simp [hbuf]
  obtain ⟨σ₁, σ₂, h₁, hmethods, hbuf, hmay, h₂, hsent, hframes⟩ : ∃ σ₁ σ₂,
      ((twoLoads id).startLoad ⟨[0], []⟩).plainSteps [.resolve 0, .step, .step, .step] = some σ₁ ∧
      σ₁.methods = (twoLoads id).methods ∧ σ₁.buffered = [] ∧ σ₁.mayLoad = true ∧
      (σ₁.startLoad ⟨[1], []⟩).plainSteps [.resolve 1, .step, .step, .step, .step, .step, .linksDone, .step,
        .step, .step, .linksDone, .step] = some σ₂ ∧ σ₂.sent = [(1, 1), (0, 0)] ∧ σ₂.frames = [] :=
    ⟨_, _, rfl, rfl, rfl, rfl, rfl, rfl, rfl⟩
  have hfirst := (Runs.single (a := .load ⟨[0], []⟩) ⟨hload (twoLoads id) rfl rfl 0, rfl⟩).trans
      (plainSteps_runs h₁)
  have hnested : σ₁.next (.load ⟨[1], []⟩) = some (σ₁.startLoad ⟨[1], []⟩) := by
    rw [next, if_pos hmay]
  have hrun := (hfirst.tail ⟨hload σ₁ hmethods hbuf 1, hnested⟩).trans (plainSteps_runs h₂)
  exact ⟨σ₂, hrun, hsent, hframes, loads_once (twoLoads_initial id) twoLoads_distinct hrun⟩

/-- Two classes share their `+load` method: it is called for one of them. -/
theorem loads_shared : ∃ σ₀ σ, Initial σ₀ ∧ Runs (fun σ a τ => σ.next a = some τ) σ₀ σ ∧ ¬ σ.LoadsOnce := by
  obtain ⟨σ, hσ, hr, hframes, hsent, hmethods⟩ : ∃ σ, (twoLoads fun _ => 7).run
      [.load ⟨[0, 1], []⟩, .resolve 0, .step, .step, .step, .step, .step, .resolve 1, .step, .step,
        .step, .step,
        .linksDone, .step] = some σ ∧ σ.resolved 1 = true ∧ σ.frames = [] ∧ σ.sent = [(0, 7)] ∧
      σ.methods 1 = [⟨"load", 7⟩] := ⟨_, rfl, rfl, rfl, rfl, rfl⟩
  refine ⟨_, σ, twoLoads_initial _, run_runs hσ, fun h => ?_⟩
  have hcount := h 1 hr (by simp [hframes]) 7
  rw [hsent, hmethods] at hcount
  exact absurd hcount (by decide)

end Loader

end Libobjc2.Classes.LoadMessages
