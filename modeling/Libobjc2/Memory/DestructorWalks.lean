import Libobjc2.Common.Tally
import Libobjc2.Memory.HiddenClasses
import Mathlib.Data.Prod.Lex

/-!
# Walks that complete

A hidden class may be freed while objects still use it, when it is the one of a prototype. Here the walks
begin only with objects that are no clones and have none. Then the counts cover all that is referenced, so
the object of a walk is gone for good, and its hidden class is used by nothing else.

Results:
* `Owned.run`: the next step of what is in progress keeps the counts, and touches only the object that is
  walked and its hidden class.
* `walks_complete`: such a walk frees the hidden class of its object and comes to its end.
-/

namespace Libobjc2.Memory.HiddenClasses

open Libobjc2.Common
open AssociationSlot (Policy)
open Associations (Reference ReferenceList setReference publishReference ownedBy)

variable {Key : Type} {σ σ' : State Key} {H : Hierarchy}


/-- The object has no hidden class, or one right below a plain class, with none below it. -/
def Alone (σ : State Key) (x : ℕ) : Prop :=
  ∀ h, σ.isa x = .hidden h → ∃ cls c, σ.heap h = some cls ∧ cls.owner = x ∧ cls.superClass = .plain c ∧
    σ.subclassList (.hidden h) = []

/-- A walk of `x` that began with `start` has at most the class of `x` itself ahead. -/
def Started (σ : State Key) (x : ℕ) (start : Class) : Prop :=
  (∃ c, start = .plain c) ∨
    ∃ h c, start = .hidden h ∧ σ.superOf h = .plain c ∧ σ.ownerOf h = x ∧ h < σ.classCount

def OwnFrame (σ : State Key) : Frame → Prop
  | .walking x cls start _ => Started σ x start ∧ ∀ h, cls = some (.hidden h) → σ.isa x = .hidden h ∧ Alone σ x
  | .cleaning x h _ cls start _ => Started σ x start ∧ σ.isa x = .hidden h ∧ Alone σ x ∧ ∃ c, cls = .plain c
  | .removing x h _ => 0 < σ.owned x ∧ σ.isa x = .hidden h
  | .releasing _ => True

/-- How often a hidden class owns `v`. -/
def weigh (v : ℕ) (cls : Option (HiddenClass Key)) : ℕ := cls.elim 0 fun cls => (ownedBy cls.references.list).count v

def Frame.pending : Frame → List ℕ
  | .releasing pending => pending
  | _ => []

def awaited (frames : List Frame) : List ℕ := frames.flatMap Frame.pending

/-- One reference more, if it is one to `v`. -/
def bit (extra : Option ℕ) (v : ℕ) : ℕ := if extra = some v then 1 else 0

/-- The counts cover the references of the program, of the associations and of what is in progress; `extra` is
    one that was taken out of a slot and is about to be released. -/
structure Owned (σ : State Key) (extra : Option ℕ) : Prop where
  accounts : ∀ v, σ.owned v + tally (weigh v) σ.heap σ.classCount + (awaited σ.frames).count v + bit extra v ≤ σ.count v
  alive : ∀ x h, 0 < σ.count x → σ.isa x = .hidden h → ∃ cls, σ.heap h = some cls ∧ cls.owner = x
  frames : ∀ f ∈ σ.frames, OwnFrame σ f
  fresh : ∀ x, σ.objects ≤ x → σ.count x = 0
  owner : ∀ h cls, σ.heap h = some cls → cls.owner = σ.ownerOf h
  destroyed : ∀ d ∈ σ.destroyed, Started σ d.obj d.start

variable {extra : Option ℕ}

theorem owned_initial : Owned (State.initial : State Key) none where
  accounts v := by simp [State.initial, tally, awaited, bit]
  alive x h hx := absurd hx (by simp [State.initial])
  frames f hf := absurd hf (by simp [State.initial])
  fresh _ _ := rfl
  owner h cls hh := absurd hh (by simp [State.initial])
  destroyed d hd := absurd hd (by simp [State.initial])

/-- A walk begins in the step from `σ` to `σ'`, and it is one of an object that is alone. -/
def BeginsAlone (σ σ' : State Key) : Prop := ∀ x, walkers σ'.frames = x :: walkers σ.frames → Alone σ' x

theorem Alone.started {v : ℕ} (h : Alone σ v) (hW : Walks σ)
    (hO : ∀ h cls, σ.heap h = some cls → cls.owner = σ.ownerOf h) : Started σ v (σ.isa v) := by
  cases hisa : σ.isa v with
  | plain c => exact .inl ⟨c, rfl⟩
  | hidden k =>
    obtain ⟨cls, c, hcls, howner, hsuper, -⟩ := h k hisa
    refine .inr ⟨k, c, rfl, ?_, ?_, (hW.heap k cls hcls).2⟩
    · rw [← (hW.heap k cls hcls).1, hsuper]
    · rw [← hO k cls hcls, howner]

theorem bit_none (v : ℕ) : bit none v = 0 := if_neg (by simp)

theorem bit_self (v : ℕ) : bit (some v) v = 1 := if_pos rfl

/-- A reference that is there can be released. -/
theorem Owned.release (hW : Walks σ) {v : ℕ} (h : Owned σ (some v)) :
    ∃ σ', σ.release v = some σ' ∧ (BeginsAlone σ σ' → Owned σ' none) := by
  have hv := h.accounts v
  rw [bit_self] at hv
  unfold State.release
  split
  · next hcount => omega
  · next hcount =>
    refine ⟨_, rfl, fun hbegins => ?_⟩
    have halone : Alone σ v := hbegins v (walkers_cons_of_some _ _ rfl)
    refine ⟨fun w => ?_, fun x k hx hisa => ?_, fun f hf => ?_, fun x hx => ?_, h.owner, h.destroyed⟩
    · have hw := h.accounts w
      show σ.owned w + tally (weigh w) σ.heap σ.classCount + (awaited σ.frames).count w + bit none w ≤
        Function.update σ.count v 0 w
      rw [bit_none]
      by_cases hwv : w = v
      · rw [hwv, Function.update_self]
        omega
      · rw [Function.update_of_ne hwv]
        omega
    · have hx : 0 < Function.update σ.count v 0 x := hx
      by_cases hxv : x = v
      · rw [hxv, Function.update_self] at hx
        exact absurd hx (lt_irrefl 0)
      · rw [Function.update_of_ne hxv] at hx
        exact h.alive x k hx hisa
    · rcases List.mem_cons.mp hf with rfl | hf
      · exact ⟨halone.started hW h.owner, fun k hk => ⟨by simpa using hk, halone⟩⟩
      · have hold := h.frames f hf
        cases f <;> exact hold
    · show Function.update σ.count v 0 x = 0
      by_cases hxv : x = v
      · rw [hxv, Function.update_self]
      · rw [Function.update_of_ne hxv]
        exact h.fresh x hx
  · next n hcount =>
    refine ⟨_, rfl, fun _ => ?_⟩
    refine ⟨fun w => ?_, fun x k hx hisa => ?_, fun f hf => ?_, fun x hx => ?_, h.owner, h.destroyed⟩
    · have hw := h.accounts w
      show σ.owned w + tally (weigh w) σ.heap σ.classCount + (awaited σ.frames).count w + bit none w ≤
        Function.update σ.count v (n + 1) w
      rw [bit_none]
      by_cases hwv : w = v
      · rw [hwv, Function.update_self]
        omega
      · rw [Function.update_of_ne hwv]
        omega
    · have hx : 0 < Function.update σ.count v (n + 1) x := hx
      refine h.alive x k ?_ hisa
      by_cases hxv : x = v
      · rw [hxv]
        omega
      · rwa [Function.update_of_ne hxv] at hx
    · have hold := h.frames f hf
      cases f <;> exact hold
    · show Function.update σ.count v (n + 1) x = 0
      have hxv : x ≠ v := by
        rintro rfl
        have := h.fresh x hx
        omega
      rw [Function.update_of_ne hxv]
      exact h.fresh x hx

/-- A hidden class is written that keeps its superclass and its object. -/
theorem Alone.write {x k : ℕ} {cls cls' : HiddenClass Key} (h : Alone σ x) (hk : σ.heap k = some cls)
    (hsuper : cls'.superClass = cls.superClass) (howner : cls'.owner = cls.owner) :
    Alone { σ with heap := Function.update σ.heap k (some cls') } x := by
  intro j hj
  obtain ⟨c, p, hc, hox, hsp, hsub⟩ := h j hj
  by_cases hjk : j = k
  · rw [hjk, hk] at hc
    obtain rfl : cls = c := by simpa using hc
    refine ⟨cls', p, ?_, howner.trans hox, hsuper.trans hsp, hsub⟩
    show Function.update σ.heap k (some cls') j = some cls'
    rw [hjk, Function.update_self]
  · refine ⟨c, p, ?_, hox, hsp, hsub⟩
    show Function.update σ.heap k (some cls') j = some c
    rw [Function.update_of_ne hjk]
    exact hc

theorem Owned.write (hW : Walks σ) (h : Owned σ extra) (extra' : Option ℕ) (cls' : HiddenClass Key) {k : ℕ}
    {cls : HiddenClass Key} (hk : σ.heap k = some cls) (hsuper : cls'.superClass = cls.superClass) (howner : cls'.owner = cls.owner)
    (hweight : ∀ v, (ownedBy cls'.references.list).count v + bit extra' v ≤
      (ownedBy cls.references.list).count v + bit extra v) :
    Owned { σ with heap := Function.update σ.heap k (some cls') } extra' where
  accounts v := by
    have hv := h.accounts v
    have hmove := @tally_move _ (weigh v) σ.heap σ.classCount k (hW.heap k cls hk).2 (some cls')
    rw [hk] at hmove
    have hweight := hweight v
    have hold : weigh v (some cls) = (ownedBy cls.references.list).count v := rfl
    have hnew : weigh v (some cls') = (ownedBy cls'.references.list).count v := rfl
    show σ.owned v + tally (weigh v) (Function.update σ.heap k (some cls')) σ.classCount +
      (awaited σ.frames).count v + bit extra' v ≤ σ.count v
    omega
  alive x j hx hj := by
    obtain ⟨c, hc, hcx⟩ := h.alive x j hx hj
    by_cases hjk : j = k
    · rw [hjk, hk] at hc
      obtain rfl : cls = c := by simpa using hc
      refine ⟨cls', ?_, howner.trans hcx⟩
      show Function.update σ.heap k (some cls') j = some cls'
      rw [hjk, Function.update_self]
    · refine ⟨c, ?_, hcx⟩
      show Function.update σ.heap k (some cls') j = some c
      rw [Function.update_of_ne hjk]
      exact hc
  frames f hf := by
    have hold := h.frames f hf
    cases f with
    | walking x c s l => exact ⟨hold.1, fun j hj => ⟨(hold.2 j hj).1, (hold.2 j hj).2.write hk hsuper howner⟩⟩
    | cleaning x j i c s l =>
      obtain ⟨hs, hx, halone, hc⟩ := hold
      exact ⟨hs, hx, halone.write hk hsuper howner, hc⟩
    | removing => exact hold
    | releasing => trivial
  fresh := h.fresh
  owner j c hj := by
    have hj : Function.update σ.heap k (some cls') j = some c := hj
    by_cases hjk : j = k
    · rw [hjk, Function.update_self] at hj
      obtain rfl := Option.some.inj hj
      rw [hjk]
      exact howner.trans (h.owner k cls hk)
    · rw [Function.update_of_ne hjk] at hj
      exact h.owner j c hj
  destroyed := h.destroyed

/-- The innermost frame goes on or ends. -/
theorem Owned.turn (h : Owned σ extra) (extra' : Option ℕ) (top' : List Frame) {f : Frame} {frames : List Frame}
    (hframes : σ.frames = f :: frames) (htop : ∀ f' ∈ top', OwnFrame σ f')
    (hpending : ∀ v, (awaited top').count v + bit extra' v ≤ f.pending.count v + bit extra v) :
    Owned { σ with frames := top' ++ frames } extra' where
  accounts v := by
    have hv := h.accounts v
    have hpending := hpending v
    have hold : (awaited σ.frames).count v = f.pending.count v + (awaited frames).count v := by
      rw [hframes]
      unfold awaited
      rw [List.flatMap_cons, List.count_append]
    have hnew : (awaited (top' ++ frames)).count v = (awaited top').count v + (awaited frames).count v := by
      unfold awaited
      rw [List.flatMap_append, List.count_append]
    show σ.owned v + tally (weigh v) σ.heap σ.classCount + (awaited (top' ++ frames)).count v + bit extra' v ≤
      σ.count v
    omega
  alive := h.alive
  frames g hg := by
    rcases List.mem_append.mp hg with hg | hg
    · have hnew := htop g hg
      cases g <;> exact hnew
    · have hold := h.frames g (by rw [hframes]; exact List.mem_cons_of_mem _ hg)
      cases g <;> exact hold
  fresh := h.fresh
  owner := h.owner
  destroyed := h.destroyed

theorem ownedBy_clear {list : List (Reference Key ℕ)} {i : ℕ} {r : Reference Key ℕ} (hr : list[i]? = some r) (v : ℕ) :
    (ownedBy (publishReference list i .zeroed)).count v + bit r.owned v = (ownedBy list).count v := by
  have hset := congrArg (Multiset.count v) (Associations.ownedBy_set hr (.zeroed : Reference Key ℕ))
  rw [Multiset.count_add, Multiset.count_add] at hset
  have hzero : Multiset.count v (((.zeroed : Reference Key ℕ).owned.toList : List ℕ) : Multiset ℕ) = 0 := rfl
  have hbit : Multiset.count v ((r.owned.toList : List ℕ) : Multiset ℕ) = bit r.owned v := by
    cases r.owned with
    | none => exact (bit_none v).symm
    | some w =>
      unfold bit
      simp [Multiset.count_singleton, eq_comm]
  rw [hzero, hbit] at hset
  exact hset

/-- One round of a clean-up. -/
theorem Owned.clearSlot (hW : Walks σ) (h : Owned σ none) {k i : ℕ} {cls : HiddenClass Key} {r : Reference Key ℕ}
    (hk : σ.heap k = some cls) (hr : cls.references.list[i]? = some r) :
    ∃ σ', σ.clearSlot k cls i r = some σ' ∧ (BeginsAlone σ σ' → Owned σ' none) := by
  unfold State.clearSlot
  split
  · exact ⟨σ, rfl, fun _ => h⟩
  · have hwalks := hW.write { cls with references := { cls.references with
      list := publishReference cls.references.list i .zeroed } } hk rfl
    have hwritten : Owned (σ.setReferences k cls { cls.references with
        list := publishReference cls.references.list i .zeroed }) r.owned := by
      refine Owned.write hW h r.owned _ hk rfl rfl fun v => ?_
      rw [bit_none]
      exact (ownedBy_clear hr v).le
    cases howned : r.owned with
    | none =>
      rw [howned] at hwritten
      exact ⟨_, rfl, fun _ => hwritten⟩
    | some v =>
      rw [howned] at hwritten
      exact Owned.release hwalks hwritten

/-- Only the object itself and its own hidden class differ. -/
structure Only (x : ℕ) (σ σ' : State Key) : Prop where
  isa : ∀ y ≠ x, σ'.isa y = σ.isa y
  heap : ∀ h cls, σ.heap h = some cls → cls.owner ≠ x → σ'.heap h = some cls
  subclasses : ∀ h, σ'.subclassList (.hidden h) = σ.subclassList (.hidden h)

theorem Only.same {x : ℕ} (hisa : σ'.isa = σ.isa) (hheap : σ'.heap = σ.heap) (hsub : σ'.subclassList = σ.subclassList) :
    Only x σ σ' := ⟨fun _ _ => by rw [hisa], fun _ _ h _ => by rw [hheap, h], fun _ => by rw [hsub]⟩

theorem release_same {v : ℕ} (h : σ.release v = some σ') :
    σ'.isa = σ.isa ∧ σ'.heap = σ.heap ∧ σ'.subclassList = σ.subclassList := by
  rcases release_cases h with ⟨n, -, rfl⟩ | ⟨-, rfl⟩ <;> exact ⟨rfl, rfl, rfl⟩

theorem update_only {x k : ℕ} {cls : HiddenClass Key} (hk : σ.heap k = some cls) (hx : cls.owner = x)
    (new : Option (HiddenClass Key)) : ∀ h c, σ.heap h = some c → c.owner ≠ x → Function.update σ.heap k new h = some c := by
  intro h c hc hne
  by_cases hhk : h = k
  · rw [hhk, hk] at hc
    obtain rfl : cls = c := by simpa using hc
    exact absurd hx hne
  · rw [Function.update_of_ne hhk]
    exact hc

theorem clearSlot_only {x k i : ℕ} {cls : HiddenClass Key} {r : Reference Key ℕ} (hk : σ.heap k = some cls)
    (hx : cls.owner = x) (h : σ.clearSlot k cls i r = some σ') : Only x σ σ' := by
  unfold State.clearSlot at h
  split at h
  · obtain rfl := Option.some.inj h
    exact Only.same rfl rfl rfl
  · cases howned : r.owned with
    | none =>
      rw [howned] at h
      obtain rfl := Option.some.inj h
      exact ⟨fun _ _ => rfl, update_only hk hx _, fun _ => rfl⟩
    | some v =>
      rw [howned] at h
      obtain ⟨hisa, hheap, hsub⟩ := release_same h
      refine ⟨fun y _ => by rw [hisa]; rfl, fun j c hc hne => ?_, fun j => by rw [hsub]; rfl⟩
      rw [hheap]
      exact update_only hk hx _ j c hc hne

/-- The end of `deallocHiddenClass` for an object that is alone. -/
theorem Owned.freeHiddenClass (hW : Walks σ) (h : Owned σ none) {obj k i : ℕ} {next start : Class} {freed : List ℕ}
    {frames : List Frame} (hframes : σ.frames = .cleaning obj k i next start freed :: frames)
    {cls : HiddenClass Key} (hk : σ.heap k = some cls) :
    ∃ σ', ({ σ with frames := .walking obj (some next) start (freed ++ [k]) :: frames } : State Key).freeHiddenClass
      obj k cls = some σ' ∧ Owned σ' none ∧ Only obj σ σ' := by
  obtain ⟨hstarted, hisa, halone, c, rfl⟩ := h.frames _ (hframes ▸ List.mem_cons_self)
  obtain ⟨cls', c', hcls', howner, hsuper, hsub⟩ := halone k hisa
  rw [hk] at hcls'
  obtain rfl : cls = cls' := by simpa using hcls'
  have hzero : σ.count obj = 0 := hW.zero obj (by rw [hframes, walkers_cons_of_some _ _ rfl]; exact List.mem_cons_self)
  have hsubclass : ∀ j, Function.update σ.subclassList (.plain c') ((σ.subclassList (.plain c')).erase k) (.hidden j) =
      σ.subclassList (.hidden j) := fun j => Function.update_of_ne (by simp) _ _
  -- the classes and the `isa`s of other objects stay
  have hheap : ∀ y j, y ≠ obj → (∃ cls, σ.heap j = some cls ∧ cls.owner = y) → j ≠ k := by
    rintro y j hy ⟨c, hc, rfl⟩ rfl
    rw [hk] at hc
    obtain rfl : cls = c := by simpa using hc
    exact hy howner
  have hkeep : ∀ y, y ≠ obj → Function.update σ.isa obj (.plain c') y = σ.isa y := fun y hy => Function.update_of_ne hy _ _
  unfold State.freeHiddenClass
  rw [if_neg (by rw [hsub]; simp), hsuper]
  refine ⟨_, rfl, ⟨fun v => ?_, fun x j hx hj => ?_, fun f hf => ?_, h.fresh, fun j c hj => ?_, h.destroyed⟩,
    hkeep, update_only hk howner none, hsubclass⟩
  · have hv := h.accounts v
    have hmove := @tally_move _ (weigh v) σ.heap σ.classCount k (hW.heap k cls hk).2 none
    have hnone : weigh v (none : Option (HiddenClass Key)) = 0 := rfl
    have hawaited : awaited σ.frames = awaited frames := by
      rw [hframes]
      rfl
    show σ.owned v + tally (weigh v) (Function.update σ.heap k none) σ.classCount + (awaited frames).count v +
      bit none v ≤ σ.count v
    rw [hawaited] at hv
    omega
  · have hxo : x ≠ obj := by
      rintro rfl
      exact absurd hzero hx.ne'
    have hj : Function.update σ.isa obj (.plain c') x = .hidden j := hj
    rw [hkeep x hxo] at hj
    obtain ⟨c, hc, hcx⟩ := h.alive x j hx hj
    refine ⟨c, ?_, hcx⟩
    show Function.update σ.heap k none j = some c
    rw [Function.update_of_ne (hheap x j hxo ⟨c, hc, hcx⟩)]
    exact hc
  · have hnodup := hW.nodup
    rw [hframes, walkers_cons_of_some _ _ rfl, List.nodup_cons] at hnodup
    have hother : ∀ g ∈ frames, ∀ x, g.walker = some x → x ≠ obj := by
      intro g hg x hx heq
      rw [heq] at hx
      exact hnodup.1 (List.mem_filterMap.mpr ⟨g, hg, hx⟩)
    have halone' : ∀ y, y ≠ obj → Alone σ y → Alone { σ with
        subclassList := Function.update σ.subclassList (.plain c') ((σ.subclassList (.plain c')).erase k)
        isa := Function.update σ.isa obj (.plain c')
        heap := Function.update σ.heap k none } y := by
      intro y hy ha j hj
      have hj : Function.update σ.isa obj (.plain c') y = .hidden j := hj
      rw [hkeep y hy] at hj
      obtain ⟨d, p, hd, hdy, hdp, hds⟩ := ha j hj
      refine ⟨d, p, ?_, hdy, hdp, (hsubclass j).trans hds⟩
      show Function.update σ.heap k none j = some d
      rw [Function.update_of_ne (hheap y j hy ⟨d, hd, hdy⟩)]
      exact hd
    rcases List.mem_cons.mp hf with rfl | hf
    · exact ⟨hstarted, fun j hj => absurd hj (by simp)⟩
    · have hold := h.frames f (by rw [hframes]; exact List.mem_cons_of_mem _ hf)
      cases f with
      | walking x d s l =>
        have hx := hother _ hf x rfl
        exact ⟨hold.1, fun j hj => ⟨(hkeep x hx).trans (hold.2 j hj).1, halone' x hx (hold.2 j hj).2⟩⟩
      | cleaning x j i' d s l =>
        have hx := hother _ hf x rfl
        obtain ⟨hs, hxj, ha, hd⟩ := hold
        exact ⟨hs, (hkeep x hx).trans hxj, halone' x hx ha, hd⟩
      | removing x j i' =>
        have hx : x ≠ obj := by
          rintro rfl
          have := h.accounts x
          have := hold.1
          omega
        exact ⟨hold.1, (hkeep x hx).trans hold.2⟩
      | releasing => trivial
  · have hj : Function.update σ.heap k none j = some c := hj
    by_cases hjk : j = k
    · rw [hjk, Function.update_self] at hj
      exact absurd hj (by simp)
    · rw [Function.update_of_ne hjk] at hj
      exact h.owner j c hj

theorem Owned.frame (h : Owned σ extra) {f : Frame} {frames : List Frame} (hframes : σ.frames = f :: frames) :
    OwnFrame σ f := h.frames f (by rw [hframes]; exact List.mem_cons_self)

theorem BeginsAlone.congr {τ : State Key} (h : BeginsAlone σ σ') (hwalkers : walkers τ.frames = walkers σ.frames) :
    BeginsAlone τ σ' := fun x hx => h x (by rw [hx, hwalkers])

/-- The object whose destructors the innermost call runs. -/
def State.walked (σ : State Key) : Option ℕ := σ.frames.head?.bind Frame.walker

/-- **A step of what is in progress**, when no walk begins but of objects that are alone: there is a next
    step, and a step of a walk touches the object of the walk only. -/
theorem Owned.run (hW : Walks σ) (h : Owned σ none) (H : Hierarchy) :
    ∃ σ', σ.run H = some σ' ∧ (BeginsAlone σ σ' → Owned σ' none) ∧ ∀ x, σ.walked = some x → Only x σ σ' := by
  have hwalked : ∀ {f frames}, σ.frames = f :: frames → σ.walked = f.walker := by
    intro f frames hframes
    unfold State.walked
    rw [hframes]
    rfl
  unfold State.run
  split
  · exact ⟨σ, rfl, fun _ => h, fun _ _ => Only.same rfl rfl rfl⟩
  · next obj start freed frames hframes =>
    have hstarted : Started σ obj start := (h.frame hframes).1
    have hpop := h.turn none [] hframes (by simp) (by simp [awaited])
    refine ⟨_, rfl, fun _ => { hpop with destroyed := fun d hd => ?_ }, fun _ _ => Only.same rfl rfl rfl⟩
    rcases List.mem_cons.mp hd with rfl | hd
    · exact hstarted
    · exact h.destroyed d hd
  · next obj c start freed frames hframes =>
    have hstarted : Started σ obj start := (h.frame hframes).1
    refine ⟨_, rfl, fun _ => ?_, fun _ _ => Only.same rfl rfl rfl⟩
    refine h.turn none [_] hframes (fun f' hf' => ?_) (fun v => le_refl _)
    obtain rfl := List.mem_singleton.mp hf'
    refine ⟨hstarted, fun k hk => ?_⟩
    cases hsuper : H.superClass c <;> simp [hsuper] at hk
  · next obj k start freed frames hframes =>
    obtain ⟨hstarted, halone⟩ := h.frame hframes
    obtain ⟨hisa, halone⟩ := halone k rfl
    obtain ⟨cls, c, hcls, howner, hsuper, -⟩ := halone k hisa
    have hfind : σ.findHiddenClass obj = some k := by
      unfold State.findHiddenClass
      rw [hisa]
    rw [hcls, hfind]
    simp only [Option.bind_eq_bind, Option.bind_some, hcls]
    have hwritten := Owned.write hW h none { cls with references := { cls.references with deallocating := true } }
      hcls rfl rfl (fun v => le_refl _)
    refine ⟨_, rfl, fun _ => ?_, fun x hx => ?_⟩
    · refine hwritten.turn none [_] hframes (fun f' hf' => ?_) (fun v => le_refl _)
      obtain rfl := List.mem_singleton.mp hf'
      exact ⟨hstarted, hisa, halone.write hcls rfl rfl, c, hsuper⟩
    · obtain rfl : obj = x := Option.some.inj ((hwalked hframes).symm.trans hx)
      exact ⟨fun _ _ => rfl, update_only hcls howner _, fun _ => rfl⟩
  · next obj k i next start freed frames hframes =>
    have hframe := h.frame hframes
    obtain ⟨-, hisa, halone, -⟩ := id hframe
    obtain ⟨cls, c, hcls, howner, -, -⟩ := halone k hisa
    rw [hcls]
    simp only [Option.bind_eq_bind, Option.bind_some]
    split
    · next r hr =>
      have hturned := h.turn none [.cleaning obj k (i + 1) next start freed] hframes
        (fun f' hf' => by obtain rfl := List.mem_singleton.mp hf'; exact hframe) (fun v => le_refl _)
      have hold := hW.onChain _ (hframes ▸ List.mem_cons_self)
      obtain ⟨σ', hs, hown⟩ := Owned.clearSlot
        (hW.turn (.cleaning obj k (i + 1) next start freed) hframes rfl hold) hturned hcls hr
      refine ⟨σ', hs, fun hbegins => hown (hbegins.congr ?_), fun x hx => ?_⟩
      · rw [hframes]
        rfl
      · obtain rfl : obj = x := Option.some.inj ((hwalked hframes).symm.trans hx)
        obtain ⟨hisa', hheap', hsub'⟩ := clearSlot_only (by exact hcls) howner hs
        exact ⟨hisa', hheap', hsub'⟩
    · obtain ⟨σ', hs, hown, honly⟩ := h.freeHiddenClass hW hframes hcls
      refine ⟨σ', hs, fun _ => hown, fun x hx => ?_⟩
      obtain rfl : obj = x := Option.some.inj ((hwalked hframes).symm.trans hx)
      exact honly
  · next obj k i frames hframes =>
    have hnone : ∀ x, σ.walked ≠ some x := fun x hx => absurd ((hwalked hframes).symm.trans hx) (by simp [Frame.walker])
    have hframe := h.frame hframes
    obtain ⟨hobj, hisa⟩ := id hframe
    have halive : 0 < σ.count obj := by
      have := h.accounts obj
      omega
    obtain ⟨cls, hcls, howner⟩ := h.alive obj k halive hisa
    rw [hcls]
    simp only [Option.bind_eq_bind, Option.bind_some]
    split
    · next r hr =>
      have hturned := h.turn none [.removing obj k (i + 1)] hframes
        (fun f' hf' => by obtain rfl := List.mem_singleton.mp hf'; exact hframe) (fun v => le_refl _)
      obtain ⟨σ', hs, hown⟩ := Owned.clearSlot (hW.turn (.removing obj k (i + 1)) hframes rfl trivial) hturned hcls hr
      refine ⟨σ', hs, fun hbegins => hown (hbegins.congr ?_), fun x hx => absurd hx (hnone x)⟩
      rw [hframes]
      rfl
    · have hpop := h.turn none [] hframes (by simp) (by simp [awaited])
      refine ⟨_, rfl, fun _ => ?_, fun x hx => absurd hx (hnone x)⟩
      exact Owned.write (hW.pop hframes) hpop none { cls with references := { cls.references with removing := false } }
        hcls rfl rfl (fun v => le_refl _)
  · next frames hframes =>
    have hpop := h.turn none [] hframes (by simp) (by simp [awaited])
    exact ⟨_, rfl, fun _ => hpop, fun x hx => absurd ((hwalked hframes).symm.trans hx) (by simp [Frame.walker])⟩
  · next v pending frames hframes =>
    have hturned := h.turn (some v) [.releasing pending] hframes
      (fun f' hf' => by obtain rfl := List.mem_singleton.mp hf'; exact trivial) (fun w => by
        unfold awaited bit
        simp only [List.flatMap_cons, List.flatMap_nil, Frame.pending, List.append_nil, List.count_cons]
        by_cases hw : v = w <;> simp [hw])
    obtain ⟨σ', hs, hown⟩ := Owned.release (hW.turn (.releasing pending) hframes rfl trivial) hturned
    refine ⟨σ', hs, fun hbegins => hown (hbegins.congr ?_), fun x hx =>
      absurd ((hwalked hframes).symm.trans hx) (by simp [Frame.walker])⟩
    rw [hframes]
    rfl

theorem Owned.initHiddenClass (hW : Walks σ) (h : Owned σ none) (hframes : σ.frames = []) (obj : ℕ) :
    Owned (σ.initHiddenClass obj) none where
  accounts v := by
    have hv := h.accounts v
    have hsucc := @tally_succ _ (weigh v) σ.heap σ.classCount
      (some ⟨σ.isa obj, obj, .new, false, [cxxDestruct]⟩)
    have hnew : weigh v (some (⟨σ.isa obj, obj, .new, false, [cxxDestruct]⟩ : HiddenClass Key)) = 0 := by
      show Multiset.count v (ownedBy (Associations.zeroedList : List (Reference Key ℕ))) = 0
      rw [Associations.ownedBy_zeroed, Multiset.count_zero]
    show σ.owned v + tally (weigh v) (Function.update σ.heap σ.classCount _) (σ.classCount + 1) +
      (awaited σ.frames).count v + bit none v ≤ σ.count v
    omega
  alive x j hx hj := by
    have hj : Function.update σ.isa obj (.hidden σ.classCount) x = .hidden j := hj
    by_cases hxo : x = obj
    · rw [hxo, Function.update_self] at hj
      obtain rfl : σ.classCount = j := by simpa using hj
      exact ⟨_, Function.update_self .., hxo.symm⟩
    · rw [Function.update_of_ne hxo] at hj
      obtain ⟨c, hc, hcx⟩ := h.alive x j hx hj
      refine ⟨c, ?_, hcx⟩
      show Function.update σ.heap σ.classCount _ j = some c
      rw [Function.update_of_ne (hW.heap j c hc).2.ne]
      exact hc
  frames := by
    show ∀ f ∈ σ.frames, _
    rw [hframes]
    simp
  fresh := h.fresh
  owner j c hj := by
    have hj : Function.update σ.heap σ.classCount _ j = some c := hj
    show c.owner = Function.update σ.ownerOf σ.classCount obj j
    by_cases hjn : j = σ.classCount
    · rw [hjn, Function.update_self] at hj
      obtain rfl := Option.some.inj hj
      rw [hjn, Function.update_self]
    · rw [Function.update_of_ne hjn] at hj ⊢
      exact h.owner j c hj
  destroyed d hd := by
    rcases h.destroyed d hd with hplain | ⟨j, c, hstart, hsuper, howner, hlt⟩
    · exact .inl hplain
    · refine .inr ⟨j, c, hstart, ?_, ?_, Nat.lt_succ_of_lt hlt⟩
      · exact (Function.update_of_ne hlt.ne _ _).trans hsuper
      · exact (Function.update_of_ne hlt.ne _ _).trans howner

theorem Owned.hiddenClassForObject (hW : Walks σ) (h : Owned σ none) (hframes : σ.frames = []) (obj : ℕ) :
    Owned (σ.hiddenClassForObject obj) none := by
  unfold State.hiddenClassForObject
  split
  · exact h
  · exact h.initHiddenClass hW hframes obj

theorem hiddenClassForObject_counts (σ : State Key) (obj : ℕ) :
    (σ.hiddenClassForObject obj).count = σ.count ∧ (σ.hiddenClassForObject obj).owned = σ.owned ∧
      (σ.hiddenClassForObject obj).objects = σ.objects := by
  unfold State.hiddenClassForObject
  split <;> exact ⟨rfl, rfl, rfl⟩

/-- A new object that nobody refers to yet. -/
theorem Owned.alloc (h : Owned σ none) (hframes : σ.frames = []) (cls : Class) :
    Owned { σ with objects := σ.objects + 1, isa := Function.update σ.isa σ.objects cls } none where
  accounts := h.accounts
  alive x j hx hj := by
    have hxo : x ≠ σ.objects := by
      rintro rfl
      exact absurd (h.fresh _ (le_refl _)) hx.ne'
    have hj : Function.update σ.isa σ.objects cls x = .hidden j := hj
    rw [Function.update_of_ne hxo] at hj
    exact h.alive x j hx hj
  frames := by
    show ∀ f ∈ σ.frames, _
    rw [hframes]
    simp
  fresh x hx := h.fresh x (Nat.le_of_succ_le hx)
  owner := h.owner
  destroyed := h.destroyed

/-- The program gets the reference to a new object. -/
theorem Owned.hold (h : Owned σ none) (hframes : σ.frames = []) {n : ℕ} (hzero : σ.count n = 0) (hn : n < σ.objects)
    (hclass : ∀ k, σ.isa n = .hidden k → ∃ cls, σ.heap k = some cls ∧ cls.owner = n) :
    Owned { σ with count := Function.update σ.count n 1, owned := Function.update σ.owned n 1 } none where
  accounts v := by
    have hv := h.accounts v
    show Function.update σ.owned n 1 v + tally (weigh v) σ.heap σ.classCount + (awaited σ.frames).count v + bit none v ≤
      Function.update σ.count n 1 v
    by_cases hvn : v = n
    · rw [hvn, hzero] at hv
      rw [hvn, Function.update_self, Function.update_self]
      omega
    · rw [Function.update_of_ne hvn, Function.update_of_ne hvn]
      exact hv
  alive x j hx hj := by
    by_cases hxn : x = n
    · rw [hxn] at hj ⊢
      exact hclass j hj
    · have hx : 0 < Function.update σ.count n 1 x := hx
      rw [Function.update_of_ne hxn] at hx
      exact h.alive x j hx hj
  frames := by
    show ∀ f ∈ σ.frames, _
    rw [hframes]
    simp
  fresh x hx := by
    show Function.update σ.count n 1 x = 0
    have hle : σ.objects ≤ x := hx
    rw [Function.update_of_ne (by omega)]
    exact h.fresh x hx
  owner := h.owner
  destroyed := h.destroyed

/-- The program has a reference more, or one less that is about to be released. -/
theorem Owned.setCounts (h : Owned σ none) (hframes : σ.frames = []) (extra : Option ℕ) (count owned : ℕ → ℕ)
    (haccounts : ∀ v, owned v + bit extra v + σ.count v ≤ count v + σ.owned v)
    (hpositive : ∀ v, 0 < count v → 0 < σ.count v) : Owned { σ with count := count, owned := owned } extra where
  accounts v := by
    have hv := h.accounts v
    have hcounts := haccounts v
    rw [bit_none] at hv
    show owned v + tally (weigh v) σ.heap σ.classCount + (awaited σ.frames).count v + bit extra v ≤ count v
    omega
  alive x j hx := h.alive x j (hpositive x hx)
  frames := by
    show ∀ f ∈ σ.frames, _
    rw [hframes]
    simp
  fresh x hx := by
    have hzero := h.fresh x hx
    by_contra hne
    exact absurd hzero (hpositive x (Nat.pos_of_ne_zero hne)).ne'
  owner := h.owner
  destroyed := h.destroyed

theorem hiddenClassForObject_isa (σ : State Key) (obj : ℕ) : ∃ k, (σ.hiddenClassForObject obj).isa obj = .hidden k := by
  unfold State.hiddenClassForObject State.findHiddenClass
  cases hisa : σ.isa obj with
  | hidden k => exact ⟨k, by simpa using hisa⟩
  | plain c => exact ⟨σ.classCount, Function.update_self ..⟩

theorem countRetained_apply (count : ℕ → ℕ) (prepared : Option ℕ) (v : ℕ) :
    countRetained count prepared v = count v + bit prepared v := by
  cases prepared with
  | none =>
    rw [bit_none]
    rfl
  | some w =>
    by_cases hv : v = w
    · rw [hv, bit_self]
      exact Function.update_self ..
    · rw [show bit (some w) v = 0 from if_neg (by simpa using fun heq => hv heq.symm)]
      exact Function.update_of_ne hv _ _

section Steps

variable [DecidableEq Key] {prototypeKey : Key}

theorem Owned.setAssociatedObject (hW : Walks σ) (h : Owned σ none) (hframes : σ.frames = []) {obj : ℕ}
    {key : Option Key} {value : Option ℕ} {policy : Policy} {fails : Bool}
    (hvalue : ∀ v, Reference.owned (⟨key, value, policy⟩ : Reference Key ℕ) = some v → 0 < σ.count v)
    (hs : σ.setAssociatedObject obj key value policy fails = some σ') : Owned σ' none := by
  have hmade := h.hiddenClassForObject hW hframes obj
  have hmadeWalks := hW.hiddenClassForObject hframes obj
  have hmadeFrames := (hiddenClassForObject_frames σ obj).trans hframes
  have hcount := (hiddenClassForObject_counts σ obj).1
  unfold State.setAssociatedObject at hs
  generalize σ.hiddenClassForObject obj = τ at hmade hmadeWalks hmadeFrames hcount hs
  obtain ⟨k, -, hs⟩ := Option.bind_eq_some_iff.mp hs
  obtain ⟨cls, hcls, hs⟩ := Option.bind_eq_some_iff.mp hs
  have hset := Associations.ownedBy_setReference cls.references key value policy fails
  generalize setReference cls.references key value policy fails = result at hs hset
  generalize Reference.owned (⟨key, value, policy⟩ : Reference Key ℕ) = prepared at hvalue hs hset
  obtain rfl := Option.some.inj hs
  -- the count of a value that is retained covers the slot that it comes into
  have hprepared := countRetained_apply τ.count prepared
  have hpositive : ∀ w, 0 < τ.count w + bit prepared w → 0 < τ.count w := by
    intro w hw
    by_cases hprep : prepared = some w
    · rw [hcount]
      exact hvalue w hprep
    · rw [show bit prepared w = 0 from if_neg hprep] at hw
      exact hw
  have hbit : ∀ w, Multiset.count w ((prepared.toList : List ℕ) : Multiset ℕ) = bit prepared w := by
    intro w
    cases prepared with
    | none => exact (bit_none w).symm
    | some v =>
      unfold bit
      simp [Multiset.count_singleton, eq_comm]
  have hwritten : ∀ w, Function.update τ.heap k (some { cls with references := result.1 }) w =
      if w = k then some { cls with references := result.1 } else τ.heap w := fun w => Function.update_apply ..
  refine ⟨fun w => ?_, fun x j hx hj => ?_, fun f hf => ?_, fun x hx => ?_, fun j c hj => ?_, hmade.destroyed⟩
  · have hw := hmade.accounts w
    have hmove := @tally_move _ (weigh w) τ.heap τ.classCount k (hmadeWalks.heap k cls hcls).2
      (some { cls with references := result.1 })
    have hset := congrArg (Multiset.count w) hset
    rw [Multiset.count_add, Multiset.count_add, hbit] at hset
    have hreleases : Multiset.count w ((result.2.1 : List ℕ) : Multiset ℕ) = (result.2.1).count w :=
      Multiset.coe_count ..
    have hold : weigh w (some cls) = (ownedBy cls.references.list).count w := rfl
    have hnew : weigh w (some { cls with references := result.1 }) = (ownedBy result.1.list).count w := rfl
    have hawaited : (awaited (.releasing result.2.1 :: τ.frames)).count w = (result.2.1).count w := by
      rw [hmadeFrames]
      simp [awaited, Frame.pending]
    rw [hcls] at hmove
    rw [bit_none, hmadeFrames] at hw
    have hzero : (awaited []).count w = 0 := rfl
    show τ.owned w + tally (weigh w) (Function.update τ.heap k _) τ.classCount +
      (awaited (.releasing result.2.1 :: τ.frames)).count w + bit none w ≤ countRetained τ.count prepared w
    rw [hawaited, bit_none, hprepared]
    omega
  · have hx := hpositive x (by rw [← hprepared]; exact hx)
    obtain ⟨c, hc, hcx⟩ := hmade.alive x j hx hj
    show ∃ d, Function.update τ.heap k _ j = some d ∧ _
    rw [hwritten]
    by_cases hjk : j = k
    · rw [hjk, hcls] at hc
      obtain rfl : cls = c := by simpa using hc
      exact ⟨_, if_pos hjk, hcx⟩
    · exact ⟨c, (if_neg hjk).trans hc, hcx⟩
  · rw [hmadeFrames] at hf
    obtain rfl := List.mem_singleton.mp hf
    trivial
  · have hzero := hmade.fresh x hx
    have hnot : ¬0 < τ.count x + bit prepared x := fun hpos => absurd (hpositive x hpos) (by omega)
    show countRetained τ.count prepared x = 0
    rw [hprepared]
    omega
  · have hj : Function.update τ.heap k (some { cls with references := result.1 }) j = some c := hj
    rw [hwritten] at hj
    by_cases hjk : j = k
    · rw [if_pos hjk] at hj
      obtain rfl := Option.some.inj hj
      rw [hjk]
      exact hmade.owner k cls hcls
    · rw [if_neg hjk] at hj
      exact hmade.owner j c hj

theorem Owned.clone (hW : Walks σ) (h : Owned σ none) (hframes : σ.frames = []) {obj : ℕ} {fails : Bool}
    (hobj : 0 < σ.owned obj) (hs : σ.clone prototypeKey obj fails = some σ') (hbegins : BeginsAlone σ σ') :
    Owned σ' none := by
  have hmade := h.hiddenClassForObject hW hframes obj
  have hmadeWalks := hW.hiddenClassForObject hframes obj
  have hmadeFrames := (hiddenClassForObject_frames σ obj).trans hframes
  obtain ⟨hcount, howned, -⟩ := hiddenClassForObject_counts σ obj
  obtain ⟨k, hk⟩ := hiddenClassForObject_isa σ obj
  unfold State.clone at hs
  generalize σ.hiddenClassForObject obj = τ at hmade hmadeWalks hmadeFrames hcount howned hk hs
  have hpos : 0 < τ.count obj := by
    have := hmade.accounts obj
    rw [howned] at this
    omega
  have hlt : obj < τ.objects := by
    by_contra hge
    exact absurd (hmade.fresh obj (not_lt.mp hge)) hpos.ne'
  have hzero : τ.count τ.objects = 0 := hmade.fresh _ (le_refl _)
  cases fails with
  | true =>
    -- the new instance has the hidden class of its prototype, which is not its own
    obtain rfl := Option.some.inj hs
    have halone := hbegins τ.objects (by
      rw [hframes, hmadeFrames]
      rfl)
    have hisa : Function.update τ.isa τ.objects (τ.isa obj) τ.objects = .hidden k := by
      rw [Function.update_self, hk]
    obtain ⟨cls, -, hcls, howner, -, -⟩ := halone k hisa
    obtain ⟨cls', hcls', howner'⟩ := hmade.alive obj k hpos hk
    have hsame : some cls' = some cls := hcls'.symm.trans hcls
    obtain rfl := Option.some.inj hsame
    exact absurd (howner'.symm.trans howner) hlt.ne
  | false =>
    have hwalks₁ := hmadeWalks.alloc hmadeFrames τ.objects _ (hmadeWalks.isa obj) (τ.objects + 1)
    have hwalks₂ := hwalks₁.initHiddenClass hmadeFrames τ.objects
    have howned₂ := (hmade.alloc hmadeFrames (τ.isa obj)).initHiddenClass hwalks₁ hmadeFrames τ.objects
    have howned₃ := howned₂.hold hmadeFrames hzero (Nat.lt_succ_self _) (fun j hj => by
      have hj : Function.update (Function.update τ.isa τ.objects (τ.isa obj)) τ.objects (.hidden τ.classCount)
        τ.objects = .hidden j := hj
      rw [Function.update_self] at hj
      obtain rfl : τ.classCount = j := by simpa using hj
      exact ⟨_, Function.update_self .., rfl⟩)
    refine Owned.setAssociatedObject (hwalks₂.setCounts _ _ _ ?_) howned₃ hmadeFrames (fun v hv => ?_) hs
    · intro f hf
      have hf : f ∈ τ.frames := hf
      rw [hmadeFrames] at hf
      simp at hf
    · obtain rfl : obj = v := by simpa [Reference.owned] using hv
      show 0 < Function.update τ.count τ.objects 1 obj
      rw [Function.update_of_ne hlt.ne]
      exact hpos

/-- **What an action keeps**, when no walk begins but of objects that are alone. -/
theorem Owned.next (hW : Walks σ) (h : Owned σ none) {a : Action Key} (hstep : step H prototypeKey σ a σ')
    (hbegins : BeginsAlone σ σ') : Owned σ' none := by
  obtain ⟨hen, hs⟩ := hstep
  have hcovered : ∀ v, 0 < σ.owned v → 0 < σ.count v := fun v hv => by
    have := h.accounts v
    omega
  have hadd : ∀ (f : ℕ → ℕ) obj v, Function.update f obj (f obj + 1) v = f v + bit (some obj) v := by
    intro f obj v
    by_cases hv : v = obj
    · rw [hv, bit_self, Function.update_self]
    · rw [Function.update_of_ne hv, show bit (some obj) v = 0 from if_neg (by simpa using fun heq => hv heq.symm)]
      rfl
  cases a with
  | new c =>
    obtain rfl := Option.some.inj hs
    refine (h.alloc hen (.plain c)).hold hen (h.fresh _ (le_refl _)) (Nat.lt_succ_self _) (fun k hk => ?_)
    have hk : Function.update σ.isa σ.objects (.plain c) σ.objects = .hidden k := hk
    rw [Function.update_self] at hk
    exact absurd hk (by simp)
  | retain obj =>
    obtain rfl := Option.some.inj hs
    refine h.setCounts hen.1 none _ _ (fun v => ?_) (fun v hv => ?_)
    · rw [hadd, hadd, bit_none]
      omega
    · rw [hadd] at hv
      by_cases hvo : v = obj
      · rw [hvo]
        exact hcovered obj hen.2
      · rw [show bit (some obj) v = 0 from if_neg (by simpa using fun heq => hvo heq.symm)] at hv
        exact hv
  | release obj =>
    have hless : Owned { σ with owned := Function.update σ.owned obj (σ.owned obj - 1) } (some obj) := by
      refine h.setCounts hen.1 (some obj) σ.count _ (fun v => ?_) (fun v hv => hv)
      by_cases hv : v = obj
      · rw [hv, Function.update_self, bit_self]
        have := hen.2
        omega
      · rw [Function.update_of_ne hv, show bit (some obj) v = 0 from if_neg (by simpa using fun heq => hv heq.symm)]
        omega
    obtain ⟨τ, hτ, hown⟩ := Owned.release (hW.setCounts σ.count _ σ.frames (by rw [hen.1]; simp)) hless
    obtain rfl : τ = σ' := Option.some.inj (hτ.symm.trans hs)
    exact hown hbegins
  | set obj key value policy fails =>
    exact h.setAssociatedObject hW hen.1 (fun v hv => hcovered v (hen.2.2 v hv)) hs
  | remove obj =>
    simp only [HiddenClasses.next] at hs
    cases hfind : σ.findHiddenClass obj with
    | none =>
      rw [hfind] at hs
      obtain rfl := Option.some.inj hs
      exact h
    | some k =>
      rw [hfind] at hs
      obtain ⟨cls, hcls, hs⟩ := Option.bind_eq_some_iff.mp hs
      obtain rfl := Option.some.inj hs
      have hisa : σ.isa obj = .hidden k := by
        unfold State.findHiddenClass at hfind
        split at hfind
        · next j hj => rw [hj, Option.some.inj hfind]
        · simp at hfind
      have hwritten := Owned.write hW h none { cls with references := { cls.references with removing := true } }
        hcls rfl rfl (fun v => le_refl _)
      refine { hwritten with accounts := fun v => ?_, frames := fun f hf => ?_ }
      · exact hwritten.accounts v
      · rw [hen.1] at hf
        obtain rfl := List.mem_singleton.mp hf
        exact ⟨hen.2, hisa⟩
  | addMethod obj method =>
    have hmade := h.hiddenClassForObject hW hen.1 obj
    have hmadeWalks := hW.hiddenClassForObject hen.1 obj
    simp only [HiddenClasses.next] at hs
    obtain ⟨k, -, hs⟩ := Option.bind_eq_some_iff.mp hs
    obtain ⟨cls, hcls, hs⟩ := Option.bind_eq_some_iff.mp hs
    obtain rfl := Option.some.inj hs
    exact Owned.write hmadeWalks hmade none _ hcls rfl rfl (fun v => le_refl _)
  | install k =>
    simp only [HiddenClasses.next] at hs
    obtain ⟨cls, hcls, hs⟩ := Option.bind_eq_some_iff.mp hs
    obtain rfl := Option.some.inj hs
    exact Owned.write hW h none _ hcls rfl rfl (fun v => le_refl _)
  | clone obj fails => exact h.clone hW hen.1 hen.2 hs hbegins
  | run =>
    obtain ⟨τ, hτ, hown, -⟩ := Owned.run hW h H
    obtain rfl : τ = σ' := Option.some.inj (hτ.symm.trans hs)
    exact hown hbegins

/-- The steps of the runs in which every walk that begins is one of an object that is alone. -/
def stepAlone (H : Hierarchy) (prototypeKey : Key) (σ : State Key) (a : Action Key) (σ' : State Key) : Prop :=
  step H prototypeKey σ a σ' ∧ BeginsAlone σ σ'

theorem invariants (h : Runs (stepAlone H prototypeKey) (State.initial : State Key) σ) : Walks σ ∧ Owned σ none := by
  have hinitial : Walks (State.initial : State Key) ∧ Owned (State.initial : State Key) none :=
    ⟨walks_initial, owned_initial⟩
  refine @Runs.invariant _ _ _ (fun τ : State Key => Walks τ ∧ Owned τ none) _ _ h hinitial ?_
  rintro τ a τ' ⟨hW, hO⟩ ⟨hs, hb⟩
  exact ⟨hW.next hs, hO.next hW hs hb⟩

/-! ## Walks end -/

/-- How far a class is from the end of its superclasses, if its superclass is a plain class. -/
def rank (superOf : ℕ → Class) : Class → ℕ
  | .plain c => 2 * c + 2
  | .hidden h => match superOf h with
    | .plain c => 2 * c + 4
    | .hidden _ => 0

def Frame.rank (superOf : ℕ → Class) : Frame → ℕ
  | .walking _ none _ _ => 1
  | .walking _ (some cls) _ _ => HiddenClasses.rank superOf cls
  | .cleaning _ _ _ cls _ _ => HiddenClasses.rank superOf cls + 1
  | .removing .. => 1
  | .releasing pending => pending.length + 1

/-- The slots that the innermost clean-up has before it. -/
def State.slotsLeft (σ : State Key) : ℕ :=
  match σ.frames with
  | .cleaning _ h i _ _ _ :: _ | .removing _ h i :: _ => (σ.heap h).elim 0 (·.references.list.length) - i
  | _ => 0

/-- How many objects have references. -/
def State.live (σ : State Key) : ℕ := ((Finset.range σ.objects).filter fun x => 0 < σ.count x).card

/-- What the calls in progress have before them. -/
def State.ahead (σ : State Key) : ℕ := (σ.frames.map (·.rank σ.superOf)).sum

/-- Later states have fewer live objects, or less before them, or fewer slots in the innermost clean-up. -/
def Less (σ' σ : State Key) : Prop :=
  σ'.live < σ.live ∨ σ'.live = σ.live ∧ (σ'.ahead < σ.ahead ∨ σ'.ahead = σ.ahead ∧ σ'.slotsLeft < σ.slotsLeft)

omit [DecidableEq Key] in
theorem less_wellFounded : WellFounded (Less : State Key → State Key → Prop) := by
  have hlex : WellFounded fun σ' σ : State Key =>
      toLex (σ'.live, toLex (σ'.ahead, σ'.slotsLeft)) < toLex (σ.live, toLex (σ.ahead, σ.slotsLeft)) :=
    InvImage.wf (fun σ : State Key => toLex (σ.live, toLex (σ.ahead, σ.slotsLeft)))
      wellFounded_lt
  refine Subrelation.wf ?_ hlex
  intro σ' σ h
  rw [Prod.Lex.toLex_lt_toLex, Prod.Lex.toLex_lt_toLex]
  exact h

omit [DecidableEq Key] in
/-- A release ends the life of an object, or leaves all but its count alone. -/
theorem release_live (hfresh : ∀ x, σ.objects ≤ x → σ.count x = 0) {v : ℕ} (h : σ.release v = some σ') :
    σ'.live < σ.live ∨
      σ'.live = σ.live ∧ σ'.frames = σ.frames ∧ σ'.superOf = σ.superOf ∧ σ'.heap = σ.heap := by
  have hlt : σ.count v ≠ 0 → v ∈ Finset.range σ.objects := by
    intro hne
    rw [Finset.mem_range]
    by_contra hge
    exact hne (hfresh v (not_lt.mp hge))
  unfold State.live
  rcases release_cases h with ⟨n, hcount, rfl⟩ | ⟨hcount, rfl⟩
  · refine .inr ⟨congrArg Finset.card (Finset.filter_congr fun x _ => ?_), rfl, rfl, rfl⟩
    show 0 < Function.update σ.count v (n + 1) x ↔ _
    by_cases hxv : x = v
    · rw [hxv, Function.update_self, hcount]
      simp
    · rw [Function.update_of_ne hxv]
  · left
    apply Finset.card_lt_card
    rw [Finset.ssubset_iff_of_subset]
    · refine ⟨v, Finset.mem_filter.mpr ⟨hlt (by omega), by omega⟩, fun hmem => ?_⟩
      have hpos : 0 < Function.update σ.count v 0 v := (Finset.mem_filter.mp hmem).2
      rw [Function.update_self] at hpos
      exact absurd hpos (lt_irrefl 0)
    · intro x hx
      obtain ⟨hx, hpos⟩ := Finset.mem_filter.mp hx
      have hpos : 0 < Function.update σ.count v 0 x := hpos
      refine Finset.mem_filter.mpr ⟨hx, ?_⟩
      by_cases hxv : x = v
      · rw [hxv, Function.update_self] at hpos
        exact absurd hpos (lt_irrefl 0)
      · rwa [Function.update_of_ne hxv] at hpos

omit [DecidableEq Key] in
theorem clearSlot_live (hfresh : ∀ x, σ.objects ≤ x → σ.count x = 0) {k i : ℕ} {cls : HiddenClass Key}
    {r : Reference Key ℕ} (hk : σ.heap k = some cls) (h : σ.clearSlot k cls i r = some σ') :
    σ'.live < σ.live ∨ σ'.live = σ.live ∧ σ'.frames = σ.frames ∧ σ'.superOf = σ.superOf ∧
      (σ'.heap k).elim 0 (·.references.list.length) = cls.references.list.length := by
  unfold State.clearSlot at h
  split at h
  · obtain rfl := Option.some.inj h
    exact .inr ⟨rfl, rfl, rfl, by rw [hk]; rfl⟩
  · have hlength : ((σ.setReferences k cls { cls.references with
        list := publishReference cls.references.list i .zeroed }).heap k).elim 0 (·.references.list.length) =
        cls.references.list.length := by
      show (Function.update σ.heap k _ k).elim 0 _ = _
      rw [Function.update_self]
      exact List.length_set
    cases howned : r.owned with
    | none =>
      rw [howned] at h
      obtain rfl := Option.some.inj h
      exact .inr ⟨rfl, rfl, rfl, hlength⟩
    | some v =>
      rw [howned] at h
      have h : (σ.setReferences k cls { cls.references with
        list := publishReference cls.references.list i .zeroed }).release v = some σ' := h
      rcases release_live (by exact hfresh) h with hlt | ⟨hlive, hframes, hsuper, hheap⟩
      · exact .inl hlt
      · exact .inr ⟨hlive, hframes, hsuper, by rw [hheap]; exact hlength⟩

omit [DecidableEq Key] in
/-- A step of what is in progress leaves less of it. -/
theorem Owned.less (hW : Walks σ) (h : Owned σ none) (hne : σ.frames ≠ []) (hr : σ.run H = some σ') : Less σ' σ := by
  unfold State.run at hr
  split at hr
  · next hframes => exact absurd hframes hne
  · next obj start freed frames hframes =>
    obtain rfl := Option.some.inj hr
    refine .inr ⟨rfl, .inl ?_⟩
    unfold State.ahead
    rw [hframes]
    simp [Frame.rank]
  · next obj c start freed frames hframes =>
    obtain rfl := Option.some.inj hr
    refine .inr ⟨rfl, .inl ?_⟩
    unfold State.ahead
    rw [hframes]
    cases hsuper : H.superClass c with
    | none => simp [Frame.rank, rank]
    | some d =>
      have hdescends := H.descends c d hsuper
      simp [Frame.rank, rank]
      omega
  · next obj k start freed frames hframes =>
    obtain ⟨-, halone⟩ := h.frame hframes
    obtain ⟨hisa, halone⟩ := halone k rfl
    obtain ⟨cls, c, hcls, -, hsuper, -⟩ := halone k hisa
    obtain ⟨cls', hcls', hr⟩ := Option.bind_eq_some_iff.mp hr
    obtain ⟨g, hg, hr⟩ := Option.bind_eq_some_iff.mp hr
    obtain ⟨found, hfound, hr⟩ := Option.bind_eq_some_iff.mp hr
    obtain rfl := Option.some.inj hr
    have hsame : some cls = some cls' := hcls.symm.trans hcls'
    obtain rfl := Option.some.inj hsame
    have hsuperOf : σ.superOf k = .plain c := (hW.heap k cls hcls).1.symm.trans hsuper
    refine .inr ⟨rfl, .inl ?_⟩
    unfold State.ahead
    rw [hframes, hsuper]
    simp [Frame.rank, rank, hsuperOf, State.setReferences]
  · next obj k i next start freed frames hframes =>
    obtain ⟨-, -, -, c, rfl⟩ := h.frame hframes
    obtain ⟨cls, hcls, hr⟩ := Option.bind_eq_some_iff.mp hr
    split at hr
    · next r hslot =>
      have hlt := (List.getElem?_eq_some_iff.mp hslot).1
      rcases clearSlot_live (by exact h.fresh) (by exact hcls) hr with hlive | ⟨hlive, hframes', hsuper, hlength⟩
      · exact .inl hlive
      · refine .inr ⟨hlive, .inr ⟨?_, ?_⟩⟩
        · unfold State.ahead
          rw [hframes', hsuper, hframes]
          rfl
        · unfold State.slotsLeft
          rw [hframes', hframes]
          show (σ'.heap k).elim 0 _ - (i + 1) < (σ.heap k).elim 0 (·.references.list.length) - i
          rw [hlength, hcls]
          show _ < cls.references.list.length - i
          omega
    · unfold State.freeHiddenClass at hr
      split at hr
      · simp at hr
      · obtain rfl := Option.some.inj hr
        refine .inr ⟨rfl, .inl ?_⟩
        unfold State.ahead
        rw [hframes]
        simp [Frame.rank, rank]
  · next obj k i frames hframes =>
    obtain ⟨cls, hcls, hr⟩ := Option.bind_eq_some_iff.mp hr
    split at hr
    · next r hslot =>
      have hlt := (List.getElem?_eq_some_iff.mp hslot).1
      rcases clearSlot_live (by exact h.fresh) (by exact hcls) hr with hlive | ⟨hlive, hframes', hsuper, hlength⟩
      · exact .inl hlive
      · refine .inr ⟨hlive, .inr ⟨?_, ?_⟩⟩
        · unfold State.ahead
          rw [hframes', hsuper, hframes]
          rfl
        · unfold State.slotsLeft
          rw [hframes', hframes]
          show (σ'.heap k).elim 0 _ - (i + 1) < (σ.heap k).elim 0 (·.references.list.length) - i
          rw [hlength, hcls]
          show _ < cls.references.list.length - i
          omega
    · obtain rfl := Option.some.inj hr
      refine .inr ⟨rfl, .inl ?_⟩
      unfold State.ahead
      rw [hframes]
      simp [Frame.rank, State.setReferences]
  · next frames hframes =>
    obtain rfl := Option.some.inj hr
    refine .inr ⟨rfl, .inl ?_⟩
    unfold State.ahead
    rw [hframes]
    simp [Frame.rank]
  · next v pending frames hframes =>
    rcases release_live (by exact h.fresh) hr with hlive | ⟨hlive, hframes', hsuper, -⟩
    · exact .inl hlive
    · refine .inr ⟨hlive, .inl ?_⟩
      unfold State.ahead
      rw [hframes', hsuper, hframes]
      simp [Frame.rank]

/-- **Walks of objects that are alone complete.** In every run in which no walk begins but of objects that are no
    clones and have none, each completed walk has freed the hidden class of its object and nothing else;
    what is in progress has a next step, which touches only the object that is walked and its hidden class;
    and it comes to its end. -/
theorem walks_complete (h : Runs (stepAlone H prototypeKey) (State.initial : State Key) σ) :
    (∀ d ∈ σ.destroyed, (∃ c, d.start = .plain c ∧ d.freed = []) ∨
      ∃ k, d.start = .hidden k ∧ d.freed = [k] ∧ σ.ownerOf k = d.obj) ∧
    (∃ σ', σ.run H = some σ' ∧ ∀ x, σ.walked = some x → Only x σ σ') ∧
    Acc (fun τ' τ => stepAlone H prototypeKey τ .run τ') σ := by
  obtain ⟨hW, hO⟩ := invariants h
  refine ⟨fun d hd => ?_, ?_, ?_⟩
  · have hchain := (hW.destroyed d hd).1
    rcases hO.destroyed d hd with ⟨c, hstart⟩ | ⟨k, c, hstart, hsuper, howner, -⟩
    · rw [hstart] at hchain
      exact .inl ⟨c, hstart, hchain.of_plain⟩
    · rw [hstart] at hchain
      cases hfreed : d.freed with
      | nil =>
        rw [hfreed] at hchain
        cases hchain
      | cons j rest =>
        rw [hfreed] at hchain
        obtain ⟨hj, hrest⟩ := hchain.eq_hidden
        obtain rfl : k = j := by simpa using hj
        rw [hsuper] at hrest
        rw [hrest.of_plain]
        exact .inr ⟨k, hstart, rfl, howner⟩
  · obtain ⟨σ', hr, -, honly⟩ := hO.run hW H
    exact ⟨σ', hr, honly⟩
  · clear h
    induction σ using less_wellFounded.induction with
    | _ σ ih =>
      refine Acc.intro σ fun τ hτ => ?_
      obtain ⟨hstep, hbegins⟩ := hτ
      exact ih τ (hO.less hW hstep.1 hstep.2) (hW.next hstep) (hO.next hW hstep hbegins)

omit [DecidableEq Key] in
theorem beginsAlone_of_length (h : (walkers σ'.frames).length ≤ (walkers σ.frames).length) : BeginsAlone σ σ' := by
  intro x hx
  rw [hx, List.length_cons] at h
  omega

end Steps

/-- An object with a method of its own goes. -/
theorem walks_complete_method :
    (finished (after (after (after .initial (.new 0)) (.addMethod 0 5)) (.release 0))).destroyed =
        [⟨0, .hidden 0, [0]⟩] ∧
      ∀ d ∈ (finished (after (after (after .initial (.new 0)) (.addMethod 0 5)) (.release 0))).destroyed,
        (∃ c, d.start = .plain c ∧ d.freed = []) ∨ ∃ k, d.start = .hidden k ∧ d.freed = [k] ∧
          (finished (after (after (after .initial (.new 0)) (.addMethod 0 5)) (.release 0))).ownerOf k = d.obj := by
  have hnew : stepAlone rootOnly 0 .initial (.new 0) (after .initial (.new 0)) :=
    ⟨⟨rfl, rfl⟩, beginsAlone_of_length (by decide)⟩
  have hmethod : stepAlone rootOnly 0 (after .initial (.new 0)) (.addMethod 0 5)
      (after (after .initial (.new 0)) (.addMethod 0 5)) :=
    ⟨⟨⟨rfl, by decide⟩, rfl⟩, beginsAlone_of_length (by decide)⟩
  have halone : BeginsAlone (after (after .initial (.new 0)) (.addMethod 0 5))
      (after (after (after .initial (.new 0)) (.addMethod 0 5)) (.release 0)) := by
    intro x hx h hh
    obtain rfl : 0 = x := by simpa using (List.cons.inj (show [0] = x :: [] from hx)).1
    obtain rfl : 0 = h := Class.hidden.inj (show Class.hidden 0 = .hidden h from hh)
    exact ⟨_, 0, rfl, rfl, rfl, rfl⟩
  have hrelease : stepAlone rootOnly 0 (after (after .initial (.new 0)) (.addMethod 0 5)) (.release 0)
      (after (after (after .initial (.new 0)) (.addMethod 0 5)) (.release 0)) :=
    ⟨⟨⟨rfl, by decide⟩, rfl⟩, halone⟩
  have hruns : Runs (stepAlone rootOnly 0) .initial
      (finished (after (after (after .initial (.new 0)) (.addMethod 0 5)) (.release 0))) :=
    (((Runs.single hnew).tail hmethod).tail hrelease).trans
      (runs_finish (fun _ _ hs hlength => ⟨hs, beginsAlone_of_length hlength⟩) 30 rfl)
  exact ⟨by decide, (walks_complete hruns).1⟩

end Libobjc2.Memory.HiddenClasses
