import Libobjc2.Memory.WeakSteps
import Mathlib.Data.Set.Finite.Lattice

/-!
# Runs with weak references (`src/memory/arc.mm`, lines 809–1143 and 1179–1438)

## Results
- `Inv.next`: a step of any thread keeps the blocks, the slots and the objects in accord;
- `weak_accounting`: between operations each block counts its slots, and each slot has its block;
- `loads_faithful`: a load returns what was stored last, or nil once its deallocation has begun;
- `weak_deadlockFree`: some operation in progress can go on, and uses no freed object.
-/

namespace Libobjc2.Memory.WeakTable

open Libobjc2.Common

variable {Thread : Type} [DecidableEq Thread] {numShards : ℕ} {σ : State Thread} {t : Thread}

/-! ## Calls and objects -/

omit [DecidableEq Thread] in
theorem inv_initial : Inv numShards (State.initial : State Thread) where
  table := table_empty
  locks l t := by simp [State.initial, Pc.held]
  nodup _ := List.nodup_nil
  threads _ := trivial
  exclusive _ _ _ _ hs := by cases hs
  objects := by constructor <;> simp [State.initial, Shared.initial]
  slots := by
    refine ⟨fun s => ⟨fun b hb => ?_, fun hs => ?_, fun hs => ?_, fun hs => ?_⟩, fun b t => ?_⟩
    · cases hb
    · cases hs
    · cases hs
    · cases hs
    · exact iff_of_false (Finset.notMem_empty _) (by simp [State.initial, Pc.carried])
  history _ he := by cases he

theorem Inv.call (h : Inv numShards σ) {op : Op} (henabled : enabled σ (.call t op)) :
    Inv numShards (σ.go t (op.start numShards)) := by
  obtain ⟨hpc, hready, hexclusive, huses⟩ := henabled
  have hother : ∀ u, u ≠ t → (σ.go t (op.start numShards)).pc u = σ.pc u := fun u hu => Function.update_of_ne hu ..
  have hself : (σ.go t (op.start numShards)).pc t = op.start numShards := Function.update_self ..
  have hop : (op.start numShards).op = some op := by cases op <;> rfl
  have hheld : (op.start numShards).held = [] := by cases op <;> rfl
  refine ⟨h.table, h.locks.keep fun u l => ?_, fun u => ?_, fun u => ?_, fun u v huv s hs hs' => ?_, h.objects,
    h.slots.go ?_ ?_, h.history⟩
  · rcases eq_or_ne u t with rfl | hu
    · rw [hself, hheld, hpc]
      rfl
    · rw [hother u hu]
  · rcases eq_or_ne u t with rfl | hu
    · rw [hself, hheld]
      exact List.nodup_nil
    · rw [hother u hu]
      exact h.nodup u
  · show σ.shared.OnPc numShards u _
    rcases eq_or_ne u t with rfl | hu
    · rw [hself]
      cases op with
      | init s a =>
        exact ⟨hready, ⟨by simp, fun a' ha => by simp [← Option.some.inj ha]⟩, by simp,
          List.pairwise_singleton _ _, fun _ => rfl⟩
      | deleteRefs a =>
        exact ⟨hready, ⟨by simp, fun a' ha => by simp [← Option.some.inj ha]⟩, by simp,
          List.pairwise_singleton _ _, fun _ => rfl⟩
      | _ => exact ⟨hready, by simp [Op.src]⟩
    · rw [hother u hu]
      exact h.threads u
  · rcases eq_or_ne u t with rfl | hu
    · rw [hself, Pc.exclusive, hop] at hs
      rw [hother v huv.symm] at hs'
      exact hexclusive v s hs hs'
    · rw [hother u hu] at hs
      rcases eq_or_ne v t with rfl | hv
      · rw [hself, Pc.uses, hop] at hs'
        exact huses u s hs' hs
      · rw [hother v hv] at hs'
        exact h.exclusive u v huv s hs hs'
  · rw [hpc]
    cases op <;> rfl
  · rw [hpc]
    cases op <;> rfl

/-- What a thread does outside of the operations. -/
theorem Inv.outside (h : Inv numShards σ) (hpc : σ.pc t = .idle) {m' : Shared Thread} (changed : List ℕ)
    (hchanged : ∀ u, ∀ s ∈ changed, s ∉ (σ.pc u).uses) (hkeeps : Keeps t changed changed [] σ.shared m')
    (htable : Table numShards m'.Mapped (m'.gone · = true) m'.shards) (hobjects : Objects m') (hslots : Slots m' σ.pc)
    (hhistory : m'.history = σ.shared.history) : Inv numShards { σ with shared := m' } := by
  have hsame : Function.update σ.pc t .idle = σ.pc := by
    rw [← hpc]
    exact Function.update_eq_self ..
  have hsub : ∀ u s, s ∈ (σ.pc u).exclusive → s ∈ (σ.pc u).uses := by
    intro u s hs
    unfold Pc.exclusive Pc.uses at *
    cases hop : (σ.pc u).op with
    | none => rw [hop] at hs; cases hs
    | some op => rw [hop] at hs; exact List.mem_append_left _ hs
  have hchange : Inv numShards ({ σ with shared := m' }.go t .idle) :=
    h.change (fun u _ => hchanged u) (fun u _ s hs hs' => hchanged u s hs (hsub u s hs')) (fun u _ l hl => by cases hl)
      hkeeps htable hobjects (by rwa [hsame]) (by rw [hhistory]; exact h.history) trivial (by rw [hpc]) (.inr rfl)
  unfold State.go at hchange
  rwa [show Function.update ({ σ with shared := m' } : State Thread).pc t .idle = σ.pc from hsame] at hchange

/-- An object changes, but not whether it is gone. -/
theorem Inv.setObject (h : Inv numShards σ) (hpc : σ.pc t = .idle) {a : ℕ} {o o' : Object Thread}
    (ho : σ.shared.object a = some o) (hallocation : o'.allocation = o.allocation)
    (howners : o'.owners = 0 ↔ o.owners = 0) (hdying : o'.dying = o.dying) (hdeleted : o'.weakDeleted = o.weakDeleted)
    (hmarked : o.Marked → o'.Marked) (hkeeps : ∀ u, u ≠ t → u ∈ o.owners → u ∈ o'.owners) :
    Inv numShards { σ with shared := σ.shared.setObject a (some o') } := by
  refine h.outside hpc [] (fun u s hs => by cases hs) (.setObject ho rfl rfl rfl rfl rfl (fun _ => id)
    fun u hu => ⟨hallocation, hkeeps u hu, fun hd => ⟨hdying.trans hd, hdeleted⟩, hmarked⟩) ?_
    (h.objects.set ho rfl rfl rfl hallocation howners hdying fun hd => ?_)
    (h.slots.congr rfl rfl rfl (fun _ => rfl) (fun _ => rfl) rfl fun _ => id) rfl
  · refine h.table.objects (fun c hc x hx => ?_) fun _ => id
    obtain ⟨p, hp, hn, hd, hm⟩ := h.table.mapped c hc x hx
    rcases eq_or_ne x a with rfl | hxa
    · obtain rfl := Option.some.inj (ho.symm.trans hp)
      exact ⟨o', Function.update_self .., hallocation.trans hn, hdeleted.trans hd, hmarked hm⟩
    · exact ⟨p, (Function.update_of_ne hxa ..).trans hp, hn, hd, hm⟩
  · rw [howners]
    exact h.objects.deleted a o ho (hdeleted.symm.trans hd)

theorem Inv.alloc (h : Inv numShards σ) (hpc : σ.pc t = .idle) {a : ℕ} (ha : σ.shared.object a = none) (isBlock : Bool) :
    Inv numShards { σ with shared := { σ.shared.setObject a
      (some ⟨σ.shared.allocations, isBlock, {t}, false, none, false⟩) with allocations := σ.shared.allocations + 1 } } := by
  have hother : ∀ x p, σ.shared.object x = some p → x ≠ a := by
    rintro x p hp rfl
    rw [ha] at hp
    cases hp
  have hcases : ∀ x p, Function.update σ.shared.object a
      (some ⟨σ.shared.allocations, isBlock, {t}, false, none, false⟩) x = some p →
      x = a ∧ p = ⟨σ.shared.allocations, isBlock, {t}, false, none, false⟩ ∨ σ.shared.object x = some p := by
    intro x p hp
    rcases eq_or_ne x a with rfl | hx
    · rw [Function.update_self] at hp
      exact .inl ⟨rfl, (Option.some.inj hp).symm⟩
    · rw [Function.update_of_ne hx] at hp
      exact .inr hp
  refine h.outside hpc [] (fun u s hs => by cases hs) ⟨fun _ _ => Iff.rfl, fun _ _ => rfl,
    fun _ _ _ _ hb _ => ⟨hb, rfl⟩, le_rfl, fun _ _ => rfl, fun _ _ _ => rfl, fun x p u _ hp _ => ⟨p, ?_, .refl u p⟩,
    fun _ => id⟩ (h.table.objects (fun c hc x hx => ?_) fun _ => id)
    ⟨fun x p hp => ?_, fun x p y q hp hq heq => ?_, fun x p hp => ?_, fun x p hp => ?_, fun x p hp hd => ?_, fun n hn => ?_⟩
    (h.slots.congr rfl rfl rfl (fun _ => rfl) (fun _ => rfl) rfl fun _ => id) rfl
  · exact (Function.update_of_ne (hother x p hp) ..).trans hp
  · obtain ⟨p, hp, hrest⟩ := h.table.mapped c hc x hx
    exact ⟨p, (Function.update_of_ne (hother x p hp) ..).trans hp, hrest⟩
  · rcases hcases x p hp with ⟨-, rfl⟩ | hp
    · exact Nat.lt_succ_self _
    · exact (h.objects.lt x p hp).trans (Nat.lt_succ_self _)
  · rcases hcases x p hp with ⟨hx, rfl⟩ | hp <;> rcases hcases y q hq with ⟨hy, rfl⟩ | hq
    · rw [hx, hy]
    · exact absurd heq.symm (h.objects.lt y q hq).ne
    · exact absurd heq (h.objects.lt x p hp).ne
    · exact h.objects.unique x p y q hp hq heq
  · rcases hcases x p hp with ⟨-, rfl⟩ | hp
    · simp [h.objects.fresh _ le_rfl, Shared.setObject]
    · exact h.objects.gone x p hp
  · rcases hcases x p hp with ⟨-, rfl⟩ | hp
    · simp
    · exact h.objects.dying x p hp
  · rcases hcases x p hp with ⟨-, rfl⟩ | hp
    · cases hd
    · exact h.objects.deleted x p hp hd
  · exact h.objects.fresh n ((Nat.le_succ _).trans hn)

/-- The last reference to an object is dropped. -/
theorem Inv.releaseLast (h : Inv numShards σ) (hpc : σ.pc t = .idle) {a : ℕ} {o : Object Thread}
    (ho : σ.shared.object a = some o) (ht : t ∈ o.owners) (hlast : o.owners.erase t = 0) :
    Inv numShards { σ with shared := { σ.shared.setObject a (some { o with owners := 0, dying := some t }) with
      gone := Function.update σ.shared.gone o.allocation true } } := by
  have hne := Objects.owners_ne_zero ht
  have hlive := (h.objects.dying a o ho).mpr hne
  have hgone : ∀ n, σ.shared.gone n = true → Function.update σ.shared.gone o.allocation true n = true := by
    intro n hn
    rcases eq_or_ne n o.allocation with rfl | hno
    · exact Function.update_self ..
    · rwa [Function.update_of_ne hno]
  have hcases : ∀ x p, Function.update σ.shared.object a (some { o with owners := 0, dying := some t }) x = some p →
      x = a ∧ p = { o with owners := 0, dying := some t } ∨ x ≠ a ∧ σ.shared.object x = some p := by
    intro x p hp
    rcases eq_or_ne x a with rfl | hx
    · rw [Function.update_self] at hp
      exact .inl ⟨rfl, (Option.some.inj hp).symm⟩
    · rw [Function.update_of_ne hx] at hp
      exact .inr ⟨hx, hp⟩
  have hallocation : ∀ x p, x ≠ a → σ.shared.object x = some p → p.allocation ≠ o.allocation :=
    fun x p hx hp heq => hx (h.objects.unique x p a o hp ho heq)
  refine h.outside hpc [] (fun u s hs => by cases hs) (.setObject ho rfl rfl rfl rfl rfl hgone
    fun u hu => ⟨rfl, fun hmem => ?_, fun hd => ?_, id⟩) (h.table.objects (fun c hc x hx => ?_) hgone)
    ⟨fun x p hp => ?_, fun x p y q hp hq heq => ?_, fun x p hp => ?_, fun x p hp => ?_, fun x p hp hd => ?_, fun n hn => ?_⟩
    (h.slots.congr rfl rfl rfl (fun _ => rfl) (fun _ => rfl) rfl hgone) rfl
  · rw [← hlast]
    exact (Multiset.mem_erase_of_ne hu).mpr hmem
  · rw [hlive] at hd
    cases hd
  · obtain ⟨p, hp, hn, hd, hm⟩ := h.table.mapped c hc x hx
    rcases eq_or_ne x a with rfl | hxa
    · obtain rfl := Option.some.inj (ho.symm.trans hp)
      exact ⟨_, Function.update_self .., hn, hd, hm⟩
    · exact ⟨p, (Function.update_of_ne hxa ..).trans hp, hn, hd, hm⟩
  · rcases hcases x p hp with ⟨-, rfl⟩ | ⟨-, hp⟩
    · exact h.objects.lt a o ho
    · exact h.objects.lt x p hp
  · rcases hcases x p hp with ⟨hx, rfl⟩ | ⟨hx, hp⟩ <;> rcases hcases y q hq with ⟨hy, rfl⟩ | ⟨hy, hq⟩
    · rw [hx, hy]
    · exact absurd heq.symm (hallocation y q hy hq)
    · exact absurd heq (hallocation x p hx hp)
    · exact h.objects.unique x p y q hp hq heq
  · rcases hcases x p hp with ⟨-, rfl⟩ | ⟨hx, hp⟩
    · exact iff_of_true (Function.update_self ..) rfl
    · refine Iff.trans ?_ (h.objects.gone x p hp)
      show Function.update σ.shared.gone o.allocation true p.allocation = true ↔ _
      rw [Function.update_of_ne (hallocation x p hx hp)]
  · rcases hcases x p hp with ⟨-, rfl⟩ | ⟨-, hp⟩
    · simp
    · exact h.objects.dying x p hp
  · rcases hcases x p hp with ⟨-, rfl⟩ | ⟨-, hp⟩
    · rfl
    · exact h.objects.deleted x p hp hd
  · have hno : n ≠ o.allocation := by
      rintro rfl
      exact absurd (h.objects.lt a o ho) (not_lt.mpr hn)
    exact (Function.update_of_ne hno ..).trans (h.objects.fresh n hn)

theorem Inv.free (h : Inv numShards σ) (hpc : σ.pc t = .idle) {a : ℕ} {o : Object Thread}
    (ho : σ.shared.object a = some o) (hdying : o.dying = some t)
    (hweak : o.weakDeleted = true ∨ o.isBlock = false ∧ o.weaklyReferenced = false) :
    Inv numShards { σ with shared := σ.shared.setObject a none } := by
  have hzero : o.owners = 0 := by
    by_contra hne
    rw [(h.objects.dying a o ho).mpr hne] at hdying
    cases hdying
  have hother : ∀ x p, Function.update σ.shared.object a none x = some p → σ.shared.object x = some p := by
    intro x p hp
    rcases eq_or_ne x a with rfl | hx
    · rw [Function.update_self] at hp
      cases hp
    · rwa [Function.update_of_ne hx] at hp
  refine h.outside hpc [] (fun u s hs => by cases hs) ⟨fun _ _ => Iff.rfl, fun _ _ => rfl,
    fun _ _ _ _ hb _ => ⟨hb, rfl⟩, le_rfl, fun _ _ => rfl, fun _ _ _ => rfl, fun x p u hu hp hor => ⟨p, ?_, .refl u p⟩,
    fun _ => id⟩ (h.table.objects (fun c hc x hx => ?_) fun _ => id)
    ⟨fun x p hp => h.objects.lt x p (hother x p hp), fun x p y q hp hq => h.objects.unique x p y q (hother x p hp)
      (hother y q hq), fun x p hp => h.objects.gone x p (hother x p hp), fun x p hp => h.objects.dying x p (hother x p hp),
      fun x p hp => h.objects.deleted x p (hother x p hp), h.objects.fresh⟩
    (h.slots.congr rfl rfl rfl (fun _ => rfl) (fun _ => rfl) rfl fun _ => id) rfl
  · have hx : x ≠ a := by
      rintro rfl
      obtain rfl := Option.some.inj (ho.symm.trans hp)
      rcases hor with hmem | hd
      · exact Objects.owners_ne_zero hmem hzero
      · exact hu (Option.some.inj (hd.symm.trans hdying))
    exact (Function.update_of_ne hx ..).trans hp
  · obtain ⟨p, hp, hn, hd, hm⟩ := h.table.mapped c hc x hx
    have hxa : x ≠ a := by
      rintro rfl
      obtain rfl := Option.some.inj (ho.symm.trans hp)
      rcases hweak with hweak | ⟨hblock, hweak⟩
      · rw [hd] at hweak
        cases hweak
      · rcases hm with hm | hm
        · rw [hblock] at hm
          cases hm
        · rw [hweak] at hm
          cases hm
    exact ⟨p, (Function.update_of_ne hxa ..).trans hp, hn, hd, hm⟩

theorem Inv.initPersistent (h : Inv numShards σ) (hpc : σ.pc t = .idle) {s : ℕ} (hs : s ∉ σ.shared.live)
    (huses : ∀ u, s ∉ (σ.pc u).uses) (p : Option ℕ) :
    Inv numShards { σ with shared := { σ.shared with
      slot := Function.update σ.shared.slot s (p.elim .nil .persistent)
      live := insert s σ.shared.live
      designated := Function.update σ.shared.designated s (p.elim .nil .persistent) } } := by
  have hcarried : (σ.pc t).carried = none := by rw [hpc]; rfl
  have hgiven : (σ.pc t).givenUp = none := by rw [hpc]; rfl
  have hsame : Function.update σ.pc t .idle = σ.pc := by
    rw [← hpc]
    exact Function.update_eq_self ..
  have hslots : Slots { σ.shared with
      slot := Function.update σ.shared.slot s (p.elim .nil .persistent), live := insert s σ.shared.live
      designated := Function.update σ.shared.designated s (p.elim .nil .persistent) } (Function.update σ.pc t .idle) :=
    h.slots.write (h.slots.not_held (.inl hs)) hcarried rfl (by cases p <;> simp) (by simp [hgiven])
      (by cases p <;> simp [Shared.current]) (by cases p <;> simp)
  rw [hsame] at hslots
  refine h.outside hpc [s] (fun u x hx => ?_) (.write (List.mem_singleton_self s)
    (.inl (List.mem_singleton_self s)) (.inr rfl) (fun x hx => Function.update_of_ne hx ..)
    (fun x hx => Function.update_of_ne hx ..) rfl rfl rfl (fun _ => rfl) fun _ _ => rfl) h.table
    (h.objects.congr rfl rfl rfl) hslots rfl
  rw [List.mem_singleton.mp hx]
  exact huses u

/-- **The invariant rule.** -/
theorem Inv.next {σ' : State Thread} (h : Inv numShards σ) {a : Action Thread} (hstep : step numShards σ a σ') :
    Inv numShards σ' := by
  obtain ⟨henabled, hs⟩ := hstep
  cases a with
  | call t op =>
    obtain rfl := Option.some.inj hs
    exact h.call henabled
  | initPersistent t s p =>
    obtain rfl := Option.some.inj hs
    exact h.initPersistent henabled.1 henabled.2.1 henabled.2.2 p
  | run t =>
    have hfree : ∀ l, σ.waits t = some l → σ.lock l = none := by
      intro l hl
      by_contra hlock
      have hs : σ.run numShards t = some σ' := hs
      unfold State.waits at hl
      unfold State.run at hs
      split at hl
      · next heq =>
        obtain rfl := Option.some.inj hl
        rw [heq] at hs
        simp only [hlock, if_false] at hs
        cases hs
      · cases hl
    obtain ⟨τ, hτ, hinv⟩ := h.run henabled.1 hfree
    obtain rfl := Option.some.inj (hτ.symm.trans hs)
    exact hinv henabled.2
  | alloc t a isBlock =>
    obtain rfl := Option.some.inj hs
    exact h.alloc henabled.1 henabled.2 isBlock
  | retain t a =>
    obtain ⟨hpc, o, ho, ht⟩ := henabled
    obtain ⟨o', ho', hs⟩ := Option.bind_eq_some_iff.mp hs
    obtain rfl := Option.some.inj (ho.symm.trans ho')
    obtain rfl := Option.some.inj hs
    exact h.setObject hpc ho rfl (by simp [Objects.owners_ne_zero ht]) rfl rfl id fun u _ => Multiset.mem_cons_of_mem
  | pass t a u =>
    obtain ⟨hpc, o, ho, ht⟩ := henabled
    obtain ⟨o', ho', hs⟩ := Option.bind_eq_some_iff.mp hs
    obtain rfl := Option.some.inj (ho.symm.trans ho')
    obtain rfl := Option.some.inj hs
    refine h.setObject hpc ho rfl (by simp [Objects.owners_ne_zero ht]) rfl rfl id fun v hv hmem => ?_
    exact Multiset.mem_cons_of_mem ((Multiset.mem_erase_of_ne hv).mpr hmem)
  | release t a =>
    obtain ⟨hpc, o, ho, ht⟩ := henabled
    obtain ⟨o', ho', hs⟩ := Option.bind_eq_some_iff.mp hs
    obtain rfl := Option.some.inj (ho.symm.trans ho')
    obtain rfl := Option.some.inj hs
    unfold Shared.release
    by_cases hlast : o.owners.erase t = 0
    · simp only [hlast, if_true]
      exact h.releaseLast hpc ho ht hlast
    · simp only [hlast, if_false]
      exact h.setObject hpc ho rfl (by simp [Objects.owners_ne_zero ht, hlast]) rfl rfl id
        fun u hu hmem => (Multiset.mem_erase_of_ne hu).mpr hmem
  | free t a =>
    obtain ⟨hpc, o, ho, hdying, hweak⟩ := henabled
    obtain rfl := Option.some.inj hs
    exact h.free hpc ho hdying hweak

theorem Inv.of_runs (h : Runs (step numShards) (State.initial : State Thread) σ) : Inv numShards σ :=
  h.invariant inv_initial fun _ _ _ hI hs => hI.next hs

/-! ## Whole runs -/

/-- The blocks, the slots and the objects agree. -/
structure Exact (numShards : ℕ) (m : Shared Thread) : Prop where
  count : ∀ b < m.shards.refCount, (m.shards.refs b).weakCount = (m.live.filter (m.slot · = .ref b)).card
  free : ∀ s b, b ∈ m.shards.freeList s ↔
    b < m.shards.refCount ∧ (m.shards.refs b).shardIndex = s ∧ ∀ x ∈ m.live, m.slot x ≠ .ref b
  once : ∀ s, (m.shards.freeList s).Nodup
  map : ∀ s a b, m.shards.map s a = some b ↔
    b < m.shards.refCount ∧ (m.shards.refs b).obj = some a ∧ indexFor numShards a = s
  mapped : ∀ b < m.shards.refCount, ∀ a, (m.shards.refs b).obj = some a → ∃ x ∈ m.live, m.slot x = .ref b
  slot : ∀ x ∈ m.live, ∀ b, m.slot x = .ref b → ∃ n, m.designated x = .object n ∧ match (m.shards.refs b).obj with
    | some a => ∃ o, m.object a = some o ∧ o.allocation = n
    | none => m.gone n = true

/-- The thread finishes its operation, while the others do nothing. -/
def State.finish (numShards : ℕ) (t : Thread) : ℕ → State Thread → Option (State Thread)
  | 0, σ => if σ.pc t = .idle then some σ else none
  | n + 1, σ =>
    if σ.pc t = .idle then some σ
    else if σ.Undisturbed t then (σ.run numShards t).bind (State.finish numShards t n) else none

theorem runs_finish (n : ℕ) {σ' : State Thread} (h : σ.finish numShards t n = some σ') : Runs (step numShards) σ σ' := by
  induction n generalizing σ with
  | zero =>
    unfold State.finish at h
    split at h
    · obtain rfl := Option.some.inj h
      exact .refl σ
    · cases h
  | succ n ih =>
    unfold State.finish at h
    split at h
    · obtain rfl := Option.some.inj h
      exact .refl σ
    · next hne =>
      split at h
      · next hok =>
        obtain ⟨τ, hτ, h⟩ := Option.bind_eq_some_iff.mp h
        exact (Runs.single (a := Action.run t) ⟨⟨hne, hok⟩, hτ⟩).trans (ih h)
      · cases h

def after (σ : State Bool) (a : Action Bool) : State Bool := (next 64 σ a).getD σ

def finished (σ : State Bool) (t : Bool) : State Bool := (σ.finish 64 t 12).getD σ

theorem runs_finished {σ : State Bool} {t : Bool} (h : (σ.finish 64 t 12).isSome) : Runs (step 64) σ (finished σ t) := by
  obtain ⟨σ', hσ'⟩ := Option.isSome_iff_exists.mp h
  rw [finished, hσ', Option.getD_some]
  exact runs_finish 12 hσ'

/-- A thread makes an object and a weak reference to it. -/
def referenced : State Bool := finished (after (after .initial (.alloc true 0 false)) (.call true (.init 0 0))) true

theorem runs_referenced : Runs (step 64) (.initial : State Bool) referenced := by
  have halloc : step 64 (.initial : State Bool) (.alloc true 0 false) (after .initial (.alloc true 0 false)) :=
    ⟨⟨rfl, rfl⟩, rfl⟩
  have hcall : step 64 (after .initial (.alloc true 0 false)) (.call true (.init 0 0))
      (after (after .initial (.alloc true 0 false)) (.call true (.init 0 0))) := by
    refine ⟨⟨rfl, ⟨by decide, _, rfl, .inl (by decide)⟩, ?_, ?_⟩, rfl⟩
    · exact fun u s _ hs => by cases hs
    · exact fun u s _ hs => by cases hs
  exact ((Runs.single halloc).tail hcall).trans (runs_finished (by decide))

/-- Two stores into an empty slot hold different stripes. Both blocks are counted, and the slot has one. -/
example :
    let σ : State Bool := after (after (after (after (after .initial (.alloc true 0 false)) (.alloc false 16 false))
      (.initPersistent true 0 none)) (.call true (.store 0 (.counted 0)))) (.call false (.store 0 (.counted 16)))
    let stored := finished (after ((List.replicate 6 (Action.run false)).foldl after
      ((List.replicate 6 (Action.run true)).foldl after σ)) (.run true)) true
    let σ' := finished (after stored (.run false)) false
    (σ'.shared.shards.refs 0).weakCount = 1 ∧ (σ'.shared.shards.refs 1).weakCount = 1 ∧ σ'.shared.slot 0 = .ref 1 := by
  decide

/-- **A load returns what the slot stands for.** In every run of any number of threads in which no slot that
    held no block is written by two operations at once, with addresses that are used again, each load returns
    what was last stored, copied or moved into its slot: the very allocation, as long as its deallocation has
    not begun, and nil from then on. -/
theorem loads_faithful (h : Runs (step numShards) (State.initial : State Thread) σ) :
    ∀ e ∈ σ.shared.history, e.result = e.expected := (Inv.of_runs h).history

/-- The reference is loaded while the object lives. -/
theorem loads_faithful_referenced : (finished (after referenced (.call true (.load 0))) true).shared.history =
    [⟨0, .object 0, .object 0⟩] ∧
      ∀ e ∈ (finished (after referenced (.call true (.load 0))) true).shared.history, e.result = e.expected := by
  have hcall : step 64 referenced (.call true (.load 0)) (after referenced (.call true (.load 0))) := by
    refine ⟨⟨by decide, (by decide : 0 ∈ referenced.shared.live), ?_, ?_⟩, rfl⟩
    · exact fun u s hs => by cases hs
    · decide
  exact ⟨by decide, loads_faithful ((runs_referenced.tail hcall).trans (runs_finished (by decide)))⟩

/-! ## Deadlocks -/

/-- Only finitely many threads are in an operation. -/
theorem finite_threads (h : Runs (step numShards) (State.initial : State Thread) σ) :
    Set.Finite {t | σ.pc t ≠ .idle} := by
  have hgo : ∀ {τ : State Thread}, Set.Finite {t | τ.pc t ≠ .idle} → ∀ t pc,
      Set.Finite {u | (τ.go t pc).pc u ≠ .idle} := by
    intro τ hτ t pc
    refine (hτ.insert t).subset fun u hu => ?_
    rcases eq_or_ne u t with rfl | hut
    · exact Set.mem_insert u _
    · have hu : Function.update τ.pc t pc u ≠ .idle := hu
      rw [Function.update_of_ne hut] at hu
      exact Set.mem_insert_of_mem t hu
  refine @Runs.invariant _ _ _ (fun τ : State Thread => Set.Finite {t | τ.pc t ≠ .idle}) _ _ h (by simp [State.initial]) ?_
  rintro τ a τ' hτ ⟨-, hs⟩
  cases a with
  | call t op =>
    obtain rfl := Option.some.inj hs
    exact hgo hτ t _
  | run t =>
    have hs : τ.run numShards t = some τ' := hs
    unfold State.run at hs
    split at hs
    · split at hs
      · obtain rfl := Option.some.inj hs
        exact hgo (τ := { τ with lock := _ }) hτ t _
      · cases hs
    · obtain rfl := Option.some.inj hs
      exact hgo hτ t _
    · obtain rfl := Option.some.inj hs
      exact hgo (τ := { τ with lock := _ }) hτ t _
    · obtain rfl := Option.some.inj hs
      exact hgo hτ t _
    · obtain ⟨r, -, hs⟩ := Option.bind_eq_some_iff.mp hs
      obtain rfl := Option.some.inj hs
      exact hgo (τ := { τ with shared := r.1 }) hτ t _
  | initPersistent _ _ _ =>
    obtain rfl := Option.some.inj hs
    exact hτ
  | alloc _ _ _ =>
    obtain rfl := Option.some.inj hs
    exact hτ
  | free _ _ =>
    obtain rfl := Option.some.inj hs
    exact hτ
  | _ =>
    obtain ⟨o, -, hs⟩ := Option.bind_eq_some_iff.mp hs
    obtain rfl := Option.some.inj hs
    exact hτ

/-- **No deadlock, and nothing freed is used.** In every such run, while a thread is in an operation, some thread
    in an operation has a next step: it waits for no lock, uses no freed object and meets the assertions. -/
theorem weak_deadlockFree (h : Runs (step numShards) (State.initial : State Thread) σ) (hne : σ.pc t ≠ .idle) :
    ∃ u, σ.pc u ≠ .idle ∧ ∃ σ', σ.run numShards u = some σ' := by
  have hI := Inv.of_runs h
  have hwaits : ∀ u l, σ.waits u = some l → l ∈ ((finite_threads h).toFinset.biUnion fun u => (σ.waits u).toFinset) := by
    intro u l hl
    refine Finset.mem_biUnion.mpr ⟨u, ?_, by simp [hl]⟩
    rw [Set.Finite.mem_toFinset]
    show σ.pc u ≠ .idle
    intro hidle
    unfold State.waits at hl
    rw [hidle] at hl
    cases hl
  have hordered : ∀ u l k, σ.lock l = some u → σ.waits u = some k → l < k := by
    intro u l k hl hk
    have hmem : l ∈ (σ.pc u).held := (hI.locks l u).mp hl
    have hon := hI.threads u
    unfold State.waits at hk
    split at hk
    · next heq =>
      rw [heq] at hmem hon
      obtain rfl := Option.some.inj hk
      exact hon.2.2.1 l hmem _ List.mem_cons_self
    · cases hk
  obtain ⟨u, hu, hready⟩ := exists_ready hwaits hordered t
  have hne' : σ.pc u ≠ .idle := by
    rcases hu with rfl | ⟨l, hl⟩
    · exact hne
    · intro hidle
      have hmem : l ∈ (σ.pc u).held := (hI.locks l u).mp hl
      rw [hidle] at hmem
      cases hmem
  obtain ⟨σ', hσ', -⟩ := hI.run hne' hready
  exact ⟨u, hne', σ', hσ'⟩

/-- A load has just begun. -/
theorem weak_deadlockFree_load : ∃ u, (after referenced (.call true (.load 0))).pc u ≠ .idle ∧
    ∃ σ', (after referenced (.call true (.load 0))).run 64 u = some σ' := by
  have hcall : step 64 referenced (.call true (.load 0)) (after referenced (.call true (.load 0))) := by
    refine ⟨⟨by decide, (by decide : 0 ∈ referenced.shared.live), ?_, ?_⟩, rfl⟩
    · exact fun u s hs => by cases hs
    · decide
  have hbusy : (after referenced (.call true (.load 0))).pc true ≠ .idle := by decide
  exact weak_deadlockFree (runs_referenced.tail hcall) hbusy

end Libobjc2.Memory.WeakTable
