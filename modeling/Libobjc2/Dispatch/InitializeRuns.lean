import Mathlib.Data.List.Perm.Subperm
import Libobjc2.Dispatch.Initialize

/-!
# Safety of the `+initialize` protocol

The invariant of the calls of `objc_send_initialize` and `dtable_for_class` under any
interleaving. A call that initialises a class holds the lock of the metaclass from before the
flags are set until after the tables are installed, and a thread is inside one call at a time.

Results:
* `initialize_safe`: `+initialize` is called at most once for a class, and not after that of a
  subclass; no other thread returns from `objc_send_initialize` before the initialisation has
  ended; the look-aside list holds two entries for each class between insertion and removal.
* `lookUp_waits`: `dtable_for_class` waits for `+initialize` when it finds the entry of a metaclass.
* `lookUp_overtakes`: it does not when it finds the entry of the class.
-/

namespace Libobjc2.Dispatch.Initialize

open Libobjc2.Common

/-! ## Phases of a call -/

namespace Pc

/-- A step of `objc_send_initialize`. -/
def sends : Pc → Bool
  | .look | .lookLock | .search | .syncEnter _ | .syncExit _ => false
  | _ => true

/-- The thread may be inside another call that was made from here. -/
def suspended : Pc → Bool
  | .afterSuper | .running => true
  | _ => false

/-- The superclass, if any, need not have been initialised. -/
def early : Pc → Bool
  | .start | .afterSuper => true
  | pc => !pc.sends

/-- The flag of the class was seen or set. -/
def flagged : Pc → Bool
  | .wait | .waited | .bail | .create
      _ | .created .. | .install .. | .insert .. | .inserted | .call | .running
  | .remove | .unlink | .removed | .leave => true
  | _ => false

/-- The call may still be about to call `+initialize`. -/
def pending : Pc → Bool
  | .setFlags _ | .create _ | .created .. | .insert .. | .inserted | .call => true
  | _ => false

/-- The call has set the flags and not installed the tables. -/
def initialising : Pc → Bool
  | .create _ | .created .. | .install .. | .insert .. | .inserted | .call | .running | .remove | .unlink => true
  | _ => false

/-- The call has set the flag of the metaclass. -/
def claimsMeta : Pc → Bool
  | .create skipMeta | .created skipMeta .. | .install skipMeta .. => !skipMeta
  | .insert .. | .inserted | .call | .running | .remove | .unlink => true
  | _ => false

/-- The look-aside entries of the call are in the list. -/
def listed : Pc → Bool
  | .inserted | .call | .running | .remove | .unlink => true
  | _ => false

/-- After this the call returns, or leaves only its locks: the class was initialised. -/
def settled : Pc → Bool
  | .waited | .bail | .install .. | .running | .remove | .unlink | .removed | .leave => true
  | _ => false

/-- `objc_send_initialize` returns. -/
def returns : Pc → Bool
  | .waited | .bail | .leave => true
  | _ => false

end Pc

namespace State

variable {H : Hierarchy} {σ τ : State} {i : ℕ} {c : Call} {pc : Pc}

/-! ## The steps of a call -/

/-- A step after which the call `i` is at `pc` and the rest of the state is as in `τ`. -/
inductive Move (H : Hierarchy) (σ : State) (i : ℕ) (c : Call) : Pc → State → Prop where
  | lock (L : Lock) (pc : Pc) (hfree : σ.Free H L c.thread)
      (h : (c.pc, L, pc) = (.lockRuntime, .runtime, .test) ∨
        (c.pc, L, pc) = (.wait, .object (H.isa c.cls), .waited) ∨
        (c.pc, L, pc) = (.enter, .object (H.isa c.cls), .lockRuntimeAgain) ∨
        (c.pc, L, pc) = (.lockRuntimeAgain, .runtime, .lockInitialize) ∨
        (c.pc, L, pc) = (.lockInitialize, .initializeLock, .testAgain) ∨
        (c.pc, L, pc) = (.remove, .initializeLock, .unlink) ∨
        (c.pc, L, pc) = (.lookLock, .initializeLock, .search) ∨
        ∃ n, (c.pc, L, pc) = (.syncEnter n, .object c.cls, .syncExit n)) : Move H σ i c pc σ
  | root (h : c.pc = .start) (hroot : H.superClass c.cls = none) : Move H σ i c .lockRuntime σ
  | afterSuper (h : c.pc = .afterSuper) : Move H σ i c .lockRuntime σ
  | wait (h : c.pc = .test) (hf : σ.initialized c.cls = true) : Move H σ i c .wait σ
  | enter (h : c.pc = .test) : Move H σ i c .enter σ
  | bail (h : c.pc = .testAgain) (hf : σ.initialized c.cls = true) : Move H σ i c .bail σ
  | pass (h : c.pc = .testAgain) (hf : σ.initialized c.cls = false) :
      Move H σ i c (.setFlags (σ.initialized (H.isa c.cls))) σ
  | setFlags (skipMeta : Bool) (h : c.pc = .setFlags skipMeta) :
      Move H σ i c (.create skipMeta) { σ with
        initialized := Function.update (Function.update σ.initialized c.cls true) (H.isa c.cls) true }
  | create (skipMeta : Bool) (t m : TableRef) (h : c.pc = .create skipMeta) :
      Move H σ i c (.created skipMeta t m) σ
  | found (t m : TableRef) (h : c.pc = .created false t m) : Move H σ i c (.insert t m) σ
  | notFound (skipMeta : Bool) (t m : TableRef) (h : c.pc = .created skipMeta t m) :
      Move H σ i c (.install skipMeta t m) σ
  | install (skipMeta : Bool) (t m : TableRef) (h : c.pc = .install skipMeta t m) :
      Move H σ i c .leave { σ with
        dtable := Function.update (if skipMeta then σ.dtable
            else Function.update σ.dtable (H.isa c.cls) (some m))
          c.cls (some t) }
  | insert (t m : TableRef) (h : c.pc = .insert t m) : Move H σ i c .inserted (σ.insertDtables H i c.cls t m)
  | inserted (h : c.pc = .inserted) : Move H σ i c .call σ
  | call (h : c.pc = .call) : Move H σ i c .running { σ with begun := σ.begun ++ [c.cls] }
  | ended (h : c.pc = .running) : Move H σ i c .remove σ
  | unlink (h : c.pc = .unlink) : Move H σ i c .removed (σ.removeDtable i)
  | removed (h : c.pc = .removed) : Move H σ i c .leave σ
  | look (h : c.pc = .look) : Move H σ i c .lookLock σ
  | search (n : Node) (h : c.pc = .search)
      (hn : σ.entries.find? (fun n => (σ.entry n).owner = c.cls) = some n) : Move H σ i c (.syncEnter n) σ

theorem acquire_some {L : Lock} {σ' : State} (h : σ.acquire H i c L pc = some σ') :
    σ.Free H L c.thread ∧ σ' = σ.setPc i c pc := by
  rw [acquire] at h
  split at h
  · next hf => exact ⟨hf, (Option.some.inj h).symm⟩
  · cases h

/-- **What a step of a call can be.** -/
theorem advance_cases {choice : Choice} {σ' : State} (h : σ.advance H i c choice = some σ') :
    σ' = σ.pop i c ∧ (c.pc.returns = true ∨ c.pc.sends = false) ∨
    (∃ sup, H.superClass c.cls = some sup ∧ c.pc = .start ∧
      σ' = (σ.setPc i c .afterSuper).push c.thread sup .start) ∨
    ∃ pc τ, Move H σ i c pc τ ∧ σ' = τ.setPc i c pc := by
  have hlock : ∀ {L pc}, σ.acquire H i c L pc = some σ' → (σ.Free H L c.thread → Move H σ i c pc σ) →
      ∃ pc τ, Move H σ i c pc τ ∧ σ' = τ.setPc i c pc := fun h hm =>
    ⟨_, σ, hm (acquire_some h).1, (acquire_some h).2⟩
  cases hpc : c.pc with
  | start =>
    simp only [advance, hpc] at h
    split at h
    · next sup hs => exact .inr (.inl ⟨sup, hs, rfl, (Option.some.inj h).symm⟩)
    · next hs => exact .inr (.inr ⟨_, σ, .root hpc hs, (Option.some.inj h).symm⟩)
  | test =>
    simp only [advance, hpc, Option.some.injEq] at h
    split at h
    · next hf => exact .inr (.inr ⟨_, σ, .wait hpc hf, h.symm⟩)
    · exact .inr (.inr ⟨_, σ, .enter hpc, h.symm⟩)
  | testAgain =>
    simp only [advance, hpc, Option.some.injEq] at h
    split at h
    · next hf => exact .inr (.inr ⟨_, σ, .bail hpc hf, h.symm⟩)
    · next hf => exact .inr (.inr ⟨_, σ, .pass hpc (by simpa using hf), h.symm⟩)
  | created skipMeta t m =>
    simp only [advance, hpc, Option.some.injEq] at h
    split at h
    · next hf =>
      obtain rfl : skipMeta = false := by
        cases skipMeta
        · rfl
        · simp at hf
      exact .inr (.inr ⟨_, σ, .found t m hpc, h.symm⟩)
    · exact .inr (.inr ⟨_, σ, .notFound skipMeta t m hpc, h.symm⟩)
  | look =>
    simp only [advance, hpc, Option.some.injEq] at h
    split at h
    · exact .inl ⟨h.symm, .inr rfl⟩
    · exact .inr (.inr ⟨_, σ, .look hpc, h.symm⟩)
  | search =>
    simp only [advance, hpc] at h
    split at h
    · exact .inl ⟨(Option.some.inj h).symm, .inr rfl⟩
    · split at h
      · next n hn => exact .inr (.inr ⟨_, σ, .search n hpc hn, (Option.some.inj h).symm⟩)
      · exact .inl ⟨(Option.some.inj h).symm, .inr rfl⟩
  | afterSuper => exact .inr (.inr ⟨_, σ, .afterSuper hpc, by simpa [advance, hpc] using h.symm⟩)
  | setFlags s => exact .inr (.inr ⟨_, _, .setFlags s hpc, by simpa [advance, hpc] using h.symm⟩)
  | create s => exact .inr (.inr ⟨_, σ, .create s _ _ hpc, by simpa [advance, hpc] using h.symm⟩)
  | install s t m => exact .inr (.inr ⟨_, _, .install s t m hpc, by simpa [advance, hpc] using h.symm⟩)
  | insert t m => exact .inr (.inr ⟨_, _, .insert t m hpc, by simpa [advance, hpc] using h.symm⟩)
  | inserted => exact .inr (.inr ⟨_, σ, .inserted hpc, by simpa [advance, hpc] using h.symm⟩)
  | call => exact .inr (.inr ⟨_, _, .call hpc, by simpa [advance, hpc] using h.symm⟩)
  | running => exact .inr (.inr ⟨_, σ, .ended hpc, by simpa [advance, hpc] using h.symm⟩)
  | unlink => exact .inr (.inr ⟨_, _, .unlink hpc, by simpa [advance, hpc] using h.symm⟩)
  | removed => exact .inr (.inr ⟨_, σ, .removed hpc, by simpa [advance, hpc] using h.symm⟩)
  | waited | bail | leave => exact .inl ⟨by simpa [advance, hpc] using h.symm, .inl rfl⟩
  | syncExit n => exact .inl ⟨by simpa [advance, hpc] using h.symm, .inr rfl⟩
  | lockRuntime | wait | enter | lockRuntimeAgain | lockInitialize | remove | lookLock | syncEnter n =>
    simp only [advance, hpc] at h
    exact .inr (.inr (hlock h fun hf => .lock _ _ hf (by simp [hpc])))

/-! ## Threads and locks -/

/-- The call `b` waits for the call `a`, which was made from it. -/
def Under (H : Hierarchy) (σ : State) (a b : ℕ) : Prop :=
  ∀ d, σ.call b = some d → d.pc = .running ∨ d.pc = .afterSuper ∧
    ∃ c, σ.call a = some c ∧ H.superClass d.cls = some c.cls ∧ c.pc.sends = true

/-- Every call is on the stack of its thread, the calls below the innermost one are waiting, and
    the calls that hold a lock are of one thread. -/
structure Threads (H : Hierarchy) (σ : State) : Prop where
  fresh : ∀ i, σ.nextCall ≤ i → σ.call i = none
  mem_stack : ∀ t i, i ∈ σ.stack t ↔ ∃ c, σ.call i = some c ∧ c.thread = t
  nodup : ∀ t, (σ.stack t).Nodup
  under : ∀ t pre a b post, σ.stack t = pre ++ a :: b :: post → σ.Under H a b
  excl : ∀ L i j c d, σ.call i = some c → σ.call j = some d → L ∈ c.pc.locks H c.cls →
      L ∈ d.pc.locks H d.cls →
    c.thread = d.thread

theorem Free.thread (hT : Threads H σ) {L : Lock} {t : Thread} (hf : σ.Free H L t) {j : ℕ} {d : Call}
    (hd : σ.call j = some d) (hL : L ∈ d.pc.locks H d.cls) : d.thread = t := by
  refine hf j (lt_of_not_ge fun hj => ?_) d hd hL
  rw [hT.fresh j hj] at hd
  cases hd

/-- A call of the stack that is not the innermost one is waiting. -/
theorem Threads.suspended (hT : Threads H σ) {t : Thread} {rest : List ℕ} {j : ℕ} {d : Call}
    (hs : σ.stack t = i :: rest) (hj : j ∈ rest) (hd : σ.call j = some d) : d.pc.suspended = true := by
  obtain ⟨pre, post, rfl⟩ := List.append_of_mem hj
  obtain ⟨pre', a, hpre⟩ : ∃ pre' a, i :: pre = pre' ++ [a] := by
    rcases List.eq_nil_or_concat (i :: pre) with h | ⟨pre', a, h⟩
    · cases h
    · exact ⟨pre', a, by simpa using h⟩
  have hstack : σ.stack t = pre' ++ a :: j :: post := by
    rw [hs, ← List.cons_append, hpre, List.append_assoc, List.singleton_append]
  rcases hT.under t pre' a j post hstack d hd with h | ⟨h, -⟩ <;> rw [h] <;> rfl

/-- **A thread is inside one call at a time.** -/
theorem Threads.busy_unique (hT : Threads H σ) {j : ℕ} {d : Call} (hc : σ.call i = some c)
    (hd : σ.call j = some d)
    (ht : c.thread = d.thread) (hcb : c.pc.suspended = false) (hdb : d.pc.suspended = false) : i = j := by
  have hi := (hT.mem_stack c.thread i).mpr ⟨c, hc, rfl⟩
  have hj := (hT.mem_stack c.thread j).mpr ⟨d, hd, ht.symm⟩
  obtain ⟨k, rest, hs⟩ := List.exists_cons_of_ne_nil (List.ne_nil_of_mem hi)
  rw [hs, List.mem_cons] at hi hj
  rcases hi with rfl | hi
  · rcases hj with rfl | hj
    · rfl
    · rw [hT.suspended hs hj hd] at hdb
      cases hdb
  · rw [hT.suspended hs hi hc] at hcb
    cases hcb

theorem Threads.mutex (hT : Threads H σ) {L : Lock} {j : ℕ} {d : Call} (hc : σ.call i = some c)
    (hd : σ.call j = some d) (hcL : L ∈ c.pc.locks H c.cls) (hdL : L ∈ d.pc.locks H d.cls)
    (hcb : c.pc.suspended = false) (hdb : d.pc.suspended = false) : i = j :=
  hT.busy_unique hc hd (hT.excl L i j c d hc hd hcL hdL) hcb hdb

theorem removeDtable_frame (σ : State) (i : ℕ) :
    (σ.removeDtable i).call = σ.call ∧ (σ.removeDtable i).nextCall = σ.nextCall ∧
      (σ.removeDtable i).stack = σ.stack ∧ (σ.removeDtable i).initialized = σ.initialized ∧
      (σ.removeDtable i).begun = σ.begun := by
  rw [removeDtable]
  split
  · exact ⟨rfl, rfl, rfl, rfl, rfl⟩
  · dsimp only
    split
    · exact ⟨rfl, rfl, rfl, rfl, rfl⟩
    · split <;> exact ⟨rfl, rfl, rfl, rfl, rfl⟩

namespace Move

theorem call_eq (h : Move H σ i c pc τ) : τ.call = σ.call := by
  cases h <;> first | rfl | exact (removeDtable_frame σ i).1

theorem nextCall_eq (h : Move H σ i c pc τ) : τ.nextCall = σ.nextCall := by
  cases h <;> first | rfl | exact (removeDtable_frame σ i).2.1

theorem stack_eq (h : Move H σ i c pc τ) : τ.stack = σ.stack := by
  cases h <;> first | rfl | exact (removeDtable_frame σ i).2.2.1

/-- What a step adds to the locks of its call was free. -/
theorem locks (h : Move H σ i c pc τ) {L : Lock} (hL : L ∈ pc.locks H c.cls) :
    L ∈ c.pc.locks H c.cls ∨ σ.Free H L c.thread := by
  cases h with
  | lock L' _ hfree h =>
    by_cases hLL : L = L'
    · exact .inr (hLL ▸ hfree)
    · refine .inl ?_
      rcases h with h | h | h | h | h | h | h | ⟨n, h⟩ <;>
        (simp only [Prod.mk.injEq] at h; obtain ⟨h₁, rfl, rfl⟩ := h; simp [h₁, Pc.locks] at hL ⊢; tauto)
  | _ => simp_all [Pc.locks] <;> tauto

theorem sends (h : Move H σ i c pc τ) (hc : c.pc.sends = true) : pc.sends = true := by
  cases h with
  | lock L' _ hfree h =>
    rcases h with h | h | h | h | h | h | h | ⟨n, h⟩ <;>
      (simp only [Prod.mk.injEq] at h; obtain ⟨h₁, rfl, rfl⟩ := h; simp_all [Pc.sends])
  | _ => simp_all [Pc.sends]

end Move

theorem setPc_call (σ : State) (i : ℕ) (c : Call) (pc : Pc) (j : ℕ) :
    (σ.setPc i c pc).call j = if j = i then some { c with pc } else σ.call j := Function.update_apply ..

theorem push_call (σ : State) (t : Thread) (cls : Class) (pc : Pc) (j : ℕ) :
    (σ.push t cls pc).call j = if j = σ.nextCall then some ⟨t, cls, pc⟩
    else σ.call j := Function.update_apply ..

theorem pop_call (σ : State) (i : ℕ) (c : Call) (j : ℕ) :
    (σ.pop i c).call j = if j = i then none else σ.call j := Function.update_apply ..

theorem push_stack (σ : State) (t : Thread) (cls : Class) (pc : Pc) (u : Thread) :
    (σ.push t cls pc).stack u = if u = t then σ.nextCall :: σ.stack t
    else σ.stack u := Function.update_apply ..

theorem pop_stack (σ : State) (i : ℕ) (c : Call) (u : Thread) :
    (σ.pop i c).stack u = if u = c.thread then (σ.stack c.thread).tail
    else σ.stack u := Function.update_apply ..

/-- The innermost call of its thread goes on to `pc`. -/
theorem Threads.setPc (hT : Threads H σ) {rest : List ℕ} (hc : σ.call i = some c)
    (hs : σ.stack c.thread = i :: rest) (hlocks : ∀ L ∈ pc.locks H c.cls, L ∈ c.pc.locks H c.cls ∨
      σ.Free H L c.thread) (hsends : c.pc.sends = true → pc.sends = true) : Threads H (σ.setPc i c pc) where
  fresh j hj := by
    rw [setPc_call, if_neg]
    · exact hT.fresh j hj
    · rintro rfl
      rw [hT.fresh j hj] at hc
      cases hc
  mem_stack t j := by
    refine (hT.mem_stack t j).trans ?_
    rw [setPc_call]
    split
    · next h =>
      subst h
      simp [hc]
    · rfl
  nodup := hT.nodup
  under := by
    intro t pre a b post hst d hd
    have hst' : σ.stack t = pre ++ a :: b :: post := hst
    rw [setPc_call] at hd
    split at hd
    · -- the innermost call is below no other
      next hb =>
      subst hb
      have ht : c.thread = t := by
        obtain ⟨c', hc', ht⟩ := (hT.mem_stack t b).mp (by rw [hst']; simp)
        rw [hc] at hc'
        cases hc'
        exact ht
      rw [ht, hst'] at hs
      have hn := hT.nodup t
      rw [hst'] at hn
      cases pre with
      | nil =>
        obtain ⟨rfl, _⟩ := List.cons.inj hs
        simp at hn
      | cons x pre =>
        obtain ⟨rfl, _⟩ := List.cons.inj hs
        simp at hn
    · refine (hT.under t pre a b post hst' d hd).imp_right fun ⟨hp, c', hc', hsup, hse⟩ => ⟨hp, ?_⟩
      rw [setPc_call]
      split
      · next ha =>
        subst ha
        rw [hc] at hc'
        cases hc'
        exact ⟨_, rfl, hsup, hsends hse⟩
      · exact ⟨c', hc', hsup, hse⟩
  excl := by
    have key : ∀ L j d, σ.call j = some d → L ∈ d.pc.locks H d.cls → L ∈ pc.locks H c.cls →
        d.thread = c.thread :=
      fun L j d hd hL hL' => by
        rcases hlocks L hL' with h | h
        · exact hT.excl L j i d c hd hc hL h
        · exact h.thread hT hd hL
    intro L j k d e hd he hdL heL
    rw [setPc_call] at hd he
    split at hd <;> split at he
    · cases hd
      cases he
      rfl
    · cases hd
      exact (key L k e he heL hdL).symm
    · cases he
      exact key L j d hd hdL heL
    · exact hT.excl L j k d e hd he hdL heL

/-- A thread makes a call, from inside `+initialize` or to initialise the superclass. -/
theorem Threads.push (hT : Threads H σ) {t : Thread} {cls : Class} (hlocks : pc.locks H cls = [])
    (hunder : ∀ j rest, σ.stack t = j :: rest → ∀ d, σ.call j = some d → d.pc = .running ∨
      d.pc = .afterSuper ∧ H.superClass d.cls = some cls ∧ pc.sends = true) :
      Threads H (σ.push t cls pc) := by
  have hnew : σ.call σ.nextCall = none := hT.fresh _ le_rfl
  have hnotmem : ∀ u, σ.nextCall ∉ σ.stack u := fun u h => by
    obtain ⟨c, hc, _⟩ := (hT.mem_stack u _).mp h
    rw [hnew] at hc
    cases hc
  constructor
  · intro j hj
    have hj' : σ.nextCall + 1 ≤ j := hj
    rw [push_call, if_neg (by omega)]
    exact hT.fresh j (by omega)
  · intro u j
    rw [push_stack, push_call]
    by_cases hj : j = σ.nextCall
    · subst hj
      rw [if_pos rfl]
      split
      · next h => simp [h]
      · next h => simp [hnotmem, Ne.symm h]
    · rw [if_neg hj, ← hT.mem_stack u j]
      split
      · next h => simp [hj, h]
      · rfl
  · intro u
    rw [push_stack]
    split
    · exact List.nodup_cons.mpr ⟨hnotmem t, hT.nodup t⟩
    · exact hT.nodup u
  · intro u pre a b post hst d hd
    have hold : ∀ pre, σ.stack u = pre ++ a :: b :: post → d.pc = .running ∨ d.pc = .afterSuper ∧
        ∃ c, (σ.push t cls pc).call a = some c ∧ H.superClass d.cls = some c.cls ∧ c.pc.sends = true := by
      intro pre hst
      have ha : a ≠ σ.nextCall := fun h => hnotmem u (by rw [hst, h]; simp)
      have hb : b ≠ σ.nextCall := fun h => hnotmem u (by rw [hst, h]; simp)
      rw [push_call, if_neg hb] at hd
      rw [push_call, if_neg ha]
      exact hT.under u pre a b post hst d hd
    rw [push_stack] at hst
    split at hst
    · next hu =>
      subst hu
      cases pre with
      | nil =>
        obtain ⟨rfl, hrest⟩ := List.cons.inj hst
        have hb : b ≠ σ.nextCall := fun h => hnotmem u (by rw [hrest, h]; simp)
        rw [push_call, if_neg hb] at hd
        refine (hunder b post hrest d hd).imp_right fun ⟨hp, hsup, hse⟩ => ⟨hp, ⟨u, cls, pc⟩, ?_, hsup, hse⟩
        rw [push_call, if_pos rfl]
      | cons x pre =>
        obtain ⟨rfl, hrest⟩ := List.cons.inj hst
        exact hold pre hrest
    · exact hold pre hst
  · intro L j k d e hd he hdL heL
    rw [push_call] at hd he
    split at hd
    · cases hd
      simp [hlocks] at hdL
    · split at he
      · cases he
        simp [hlocks] at heL
      · exact hT.excl L j k d e hd he hdL heL

/-- The innermost call of a thread returns. -/
theorem Threads.pop (hT : Threads H σ) {rest : List ℕ} (hc : σ.call i = some c)
    (hs : σ.stack c.thread = i :: rest) : Threads H (σ.pop i c) := by
  have hi : ∀ u, i ∈ (σ.pop i c).stack u → False := by
    intro u hu
    rw [pop_stack] at hu
    split at hu
    · have := hT.nodup c.thread
      rw [hs] at this hu
      exact (List.nodup_cons.mp this).1 hu
    · next hne =>
      obtain ⟨d, hd, ht⟩ := (hT.mem_stack u i).mp hu
      rw [hc] at hd
      cases hd
      exact hne ht.symm
  have hsub : ∀ u pre l, (σ.pop i c).stack u = pre ++ l → ∃ pre', σ.stack u = pre' ++ l := by
    intro u pre l h
    rw [pop_stack] at h
    split at h
    · next hu =>
      subst hu
      rw [hs, List.tail_cons] at h
      exact ⟨i :: pre, by rw [hs, h]; rfl⟩
    · exact ⟨pre, h⟩
  constructor
  · intro j hj
    rw [pop_call]
    split
    · rfl
    · exact hT.fresh j hj
  · intro u j
    by_cases hj : j = i
    · subst hj
      rw [pop_call, if_pos rfl]
      exact ⟨fun h => (hi u h).elim, fun ⟨_, h, _⟩ => by cases h⟩
    · rw [pop_call, if_neg hj, ← hT.mem_stack u j, pop_stack]
      split
      · next hu =>
        subst hu
        rw [hs]
        simp [hj]
      · rfl
  · intro u
    rw [pop_stack]
    split
    · exact (hT.nodup c.thread).sublist (List.tail_sublist _)
    · exact hT.nodup u
  · intro u pre a b post hst d hd
    have ha : a ≠ i := fun h => hi u (by rw [hst, h]; simp)
    have hb : b ≠ i := fun h => hi u (by rw [hst, h]; simp)
    obtain ⟨pre', hst'⟩ := hsub u pre _ hst
    rw [pop_call, if_neg hb] at hd
    rw [pop_call, if_neg ha]
    exact hT.under u pre' a b post hst' d hd
  · intro L j k d e hd he hdL heL
    rw [pop_call] at hd he
    split at hd
    · cases hd
    · split at he
      · cases he
      · exact hT.excl L j k d e hd he hdL heL

/-! ## Flags -/

/-- `+initialize` was called on the class, or will not be called any more. -/
def Settled (σ : State) (s : Class) : Prop :=
  σ.initialized s = true ∧ ∀ j d, σ.call j = some d → d.cls = s → d.pc.pending = false

/-- What the flags say about the calls, and which classes they initialise. -/
structure Flags (H : Hierarchy) (σ : State) : Prop where
  flagged : ∀ i c, σ.call i = some c → c.pc.flagged = true → σ.initialized c.cls = true
  claims : ∀ i c, σ.call i = some c → c.pc.claimsMeta = true → σ.initialized (H.isa c.cls) = true
  unset : ∀ i c skipMeta, σ.call i = some c → c.pc = .setFlags skipMeta →
    σ.initialized c.cls = false ∧ (skipMeta = false → σ.initialized (H.isa c.cls) = false)
  disjoint : ∀ i j c d, i ≠ j → σ.call i = some c → σ.call j = some d → c.pc.initialising = true →
    d.pc.initialising = true → c.cls ≠ d.cls ∧ (c.pc.claimsMeta = true → H.isa c.cls ≠ d.cls ∧
      (d.pc.claimsMeta = true → H.isa c.cls ≠ H.isa d.cls))
  settled : ∀ i c, σ.call i = some c → c.pc.settled = true → σ.Settled c.cls
  superSettled : ∀ i c s, σ.call i = some c → c.pc.early = false → H.superClass c.cls = some s → σ.Settled s
  afterSuper : ∀ t i rest c s, σ.stack t = i :: rest → σ.call i = some c → c.pc = .afterSuper →
    H.superClass c.cls = some s → σ.Settled s
  begun : ∀ x ∈ σ.begun, σ.Settled x ∧ ∀ s, H.superClass x = some s → σ.Settled s
  begun_nodup : σ.begun.Nodup
  begun_order : ∀ pre x post s, σ.begun = pre ++ x :: post → H.superClass x = some s → s ∉ post

/-- The flags after the calls have changed without getting nearer to `+initialize`. -/
theorem Settled.of_calls {σ' : State} {s : Class} (h : σ.Settled s) (hi : σ'.initialized = σ.initialized)
    (hc : ∀ j d, σ'.call j = some d → d.pc.pending = true → σ.call j = some d) : σ'.Settled s := by
  refine ⟨by rw [hi]; exact h.1, fun j d hd hs => ?_⟩
  by_contra hp
  rw [Bool.not_eq_false] at hp
  rw [h.2 j d (hc j d hd hp) hs] at hp
  cases hp

namespace Move

/-- Flags are never taken back. -/
theorem initialized (h : Move H σ i c pc τ) {x : Class} (hx : σ.initialized x = true) :
    τ.initialized x = true := by
  cases h with
  | setFlags =>
    dsimp only
    rw [Function.update_apply, Function.update_apply]
    split
    · rfl
    · split
      · rfl
      · exact hx
  | unlink => rw [(removeDtable_frame σ i).2.2.2.1, hx]
  | _ => exact hx

/-- Only the step of `setFlags` sets flags. -/
theorem initialized_eq (h : Move H σ i c pc τ) (hpc : ∀ s, c.pc ≠ .setFlags s) :
    τ.initialized = σ.initialized := by
  cases h with
  | setFlags s hs => exact absurd hs (hpc s)
  | unlink => exact (removeDtable_frame σ i).2.2.2.1
  | _ => rfl

theorem flagged (h : Move H σ i c pc τ) (hp : pc.flagged = true) :
    c.pc.flagged = true ∨ τ.initialized c.cls = true := by
  cases h with
  | lock L' _ hfree h =>
    rcases h with h | h | h | h | h | h | h | ⟨n, h⟩ <;>
      (simp only [Prod.mk.injEq] at h; obtain ⟨h₁, rfl, rfl⟩ := h; simp_all [Pc.flagged])
  | setFlags s _ =>
    refine .inr ?_
    dsimp only
    rw [Function.update_apply, Function.update_self, ite_self]
  | _ => simp_all [Pc.flagged]

theorem claims (h : Move H σ i c pc τ) (hp : pc.claimsMeta = true) :
    c.pc.claimsMeta = true ∨ ∃ s, c.pc = .setFlags s ∧ s = false ∧ τ.initialized (H.isa c.cls) = true := by
  cases h with
  | lock L' _ hfree h =>
    rcases h with h | h | h | h | h | h | h | ⟨n, h⟩ <;>
      (simp only [Prod.mk.injEq] at h; obtain ⟨h₁, rfl, rfl⟩ := h; simp_all [Pc.claimsMeta])
  | setFlags s hs =>
    refine .inr ⟨s, hs, by simpa [Pc.claimsMeta] using hp, ?_⟩
    dsimp only
    rw [Function.update_self]
  | _ => simp_all [Pc.claimsMeta]

theorem initialising (h : Move H σ i c pc τ) (hp : pc.initialising = true) :
    c.pc.initialising = true ∨ ∃ s, c.pc = .setFlags s ∧ pc = .create s := by
  cases h with
  | lock L' _ hfree h =>
    rcases h with h | h | h | h | h | h | h | ⟨n, h⟩ <;>
      (simp only [Prod.mk.injEq] at h; obtain ⟨h₁, rfl, rfl⟩ := h; simp_all [Pc.initialising])
  | _ => simp_all [Pc.initialising]

/-- A call comes nearer to `+initialize` only when the flag is not set. -/
theorem pending (h : Move H σ i c pc τ) (hp : pc.pending = true) :
    c.pc.pending = true ∨ σ.initialized c.cls = false := by
  cases h with
  | lock L' _ hfree h =>
    rcases h with h | h | h | h | h | h | h | ⟨n, h⟩ <;>
      (simp only [Prod.mk.injEq] at h; obtain ⟨h₁, rfl, rfl⟩ := h; simp_all [Pc.pending])
  | _ => simp_all [Pc.pending]

theorem early (h : Move H σ i c pc τ) (hp : pc.early = false) :
    c.pc.early = false ∨ H.superClass c.cls = none ∨ c.pc = .afterSuper := by
  cases h with
  | lock L' _ hfree h =>
    rcases h with h | h | h | h | h | h | h | ⟨n, h⟩ <;>
      (simp only [Prod.mk.injEq] at h; obtain ⟨h₁, rfl, rfl⟩ := h; simp_all [Pc.early, Pc.sends])
  | _ => simp_all [Pc.early, Pc.sends]

/-- A call that gets past the point where `+initialize` is called has, or can have, the lock of the
    metaclass. -/
theorem settled (h : Move H σ i c pc τ) (hp : pc.settled = true) :
    c.pc.settled = true ∨ pc.pending = false ∧ c.pc.suspended = false ∧
    (c.pc.flagged = true ∨ σ.initialized c.cls = true) ∧
      (.object (H.isa c.cls) ∈ c.pc.locks H c.cls ∨ σ.Free H (.object (H.isa c.cls)) c.thread) := by
  cases h with
  | lock L' _ hfree h =>
    rcases h with h | h | h | h | h | h | h | ⟨n, h⟩ <;>
      (simp only [Prod.mk.injEq] at h; obtain ⟨h₁, rfl, rfl⟩ := h
       simp_all [Pc.settled, Pc.pending, Pc.suspended, Pc.flagged, Pc.locks])
  | _ => simp_all [Pc.settled, Pc.pending, Pc.suspended, Pc.flagged, Pc.locks]

end Move

theorem pending_locks (h : c.pc.pending = true) :
    .object (H.isa c.cls) ∈ c.pc.locks H c.cls ∧ c.pc.suspended = false := by
  cases hpc : c.pc <;> simp_all [Pc.pending, Pc.locks, Pc.suspended]

theorem initialising_flagged (h : pc.initialising = true) : pc.flagged = true := by
  cases pc <;> simp_all [Pc.initialising, Pc.flagged]

theorem Move.ne_afterSuper (h : Move H σ i c pc τ) : pc ≠ .afterSuper := by
  cases h with
  | lock L' _ hfree h =>
    rcases h with h | h | h | h | h | h | h | ⟨n, h⟩ <;>
      (simp only [Prod.mk.injEq] at h; obtain ⟨h₁, rfl, rfl⟩ := h; simp)
  | _ => simp

theorem Move.begun (h : Move H σ i c pc τ) :
    τ.begun = σ.begun ∨ c.pc = .call ∧ pc = .running ∧ τ.begun = σ.begun ++ [c.cls] := by
  cases h with
  | call h => exact .inr ⟨h, rfl, rfl⟩
  | unlink => exact .inl (removeDtable_frame σ i).2.2.2.2
  | _ => exact .inl rfl

theorem Move.pass_of (h : Move H σ i c pc τ) {s : Bool} (hpc : pc = .setFlags s) :
    τ = σ ∧ σ.initialized c.cls = false ∧ s = σ.initialized (H.isa c.cls) := by
  subst hpc
  cases h with
  | lock L' _ hfree h => simp at h
  | pass _ hf => exact ⟨rfl, hf, rfl⟩

section Moves

variable (hT : Threads H σ) (hF : Flags H σ) {rest : List ℕ} (hc : σ.call i = some c)
  (hs : σ.stack c.thread = i :: rest) (hm : Move H σ i c pc τ)

include hm in
theorem Move.call_setPc (j : ℕ) : (τ.setPc i c pc).call j = if j = i then some { c with pc }
    else σ.call j := by
  rw [setPc_call, hm.call_eq]

include hc hm in
/-- A settled class stays settled. -/
theorem Settled.move {s : Class} (h : σ.Settled s) : (τ.setPc i c pc).Settled s := by
  refine ⟨hm.initialized h.1, fun j d hd hds => ?_⟩
  rw [hm.call_setPc] at hd
  split at hd
  · cases hd
    by_contra hp
    rcases hm.pending (by simpa using hp) with hp | hp
    · have := h.2 i c hc hds
      rw [hp] at this
      cases this
    · subst hds
      rw [h.1] at hp
      cases hp
  · exact h.2 j d hd hds

include hT hF hc hm in
/-- A call that is past the call of `+initialize` has settled its class: no other call is about to
    make it, since that would hold the lock of the metaclass. -/
theorem Flags.settled_move (hp : pc.settled = true) : (τ.setPc i c pc).Settled c.cls := by
  rcases hm.settled hp with hp | ⟨hnp, hb, hf, hL⟩
  · exact Settled.move hc hm (hF.settled i c hc hp)
  · refine ⟨hm.initialized (hf.elim (hF.flagged i c hc) id), fun j d hd hds => ?_⟩
    rw [hm.call_setPc] at hd
    split at hd
    · cases hd
      exact hnp
    · next hji =>
      by_contra hdp
      obtain ⟨hdL, hdb⟩ := pending_locks (H := H) (c := d) (by simpa using hdp)
      rw [hds] at hdL
      have ht : d.thread = c.thread := by
        rcases hL with hL | hL
        · exact hT.excl _ j i d c hd hc (by rwa [hds]) hL
        · exact hL.thread hT hd (by rwa [hds])
      exact hji (hT.busy_unique hd hc ht hdb hb)

include hF hc hs hm in
theorem Flags.superSettled_move {s : Class} (he : pc.early = false) (hsup : H.superClass c.cls = some s) :
    (τ.setPc i c pc).Settled s := by
  rcases hm.early he with he | hnone | ha
  · exact Settled.move hc hm (hF.superSettled i c s hc he hsup)
  · rw [hnone] at hsup
    cases hsup
  · exact Settled.move hc hm (hF.afterSuper c.thread i rest c s hs hc ha hsup)

include hF hc hm in
/-- Two calls that initialise classes have set different flags. -/
theorem Flags.disjoint_move {j : ℕ} {d : Call} (hji : j ≠ i) (hd : σ.call j = some d)
    (hdi : d.pc.initialising = true) (hpi : pc.initialising = true) :
    (c.cls ≠ d.cls ∧ (pc.claimsMeta = true → H.isa c.cls ≠ d.cls ∧
      (d.pc.claimsMeta = true → H.isa c.cls ≠ H.isa d.cls))) ∧
    (d.pc.claimsMeta = true → H.isa d.cls ≠ c.cls ∧ (pc.claimsMeta = true → H.isa d.cls ≠ H.isa c.cls)) := by
  rcases hm.initialising hpi with hci | ⟨s, hset, rfl⟩
  · have hcm : pc.claimsMeta = true → c.pc.claimsMeta = true := fun h => by
      rcases hm.claims h with h | ⟨s, hset, _⟩
      · exact h
      · rw [hset] at hci
        cases hci
    obtain ⟨h₁, h₂⟩ := hF.disjoint i j c d hji.symm hc hd hci hdi
    obtain ⟨_, h₃⟩ := hF.disjoint j i d c hji hd hc hdi hci
    exact ⟨⟨h₁, fun h => h₂ (hcm h)⟩, fun h => ⟨(h₃ h).1, fun h' => (h₃ h).2 (hcm h')⟩⟩
  · -- the flags that are set now were not set, those of the other call were
    obtain ⟨hcls, hmeta⟩ := hF.unset i c s hc hset
    have hdcls := hF.flagged j d hd (initialising_flagged hdi)
    have hne : ∀ {x y}, σ.initialized x = false → σ.initialized y = true → x ≠ y := fun hx hy e => by
      rw [e, hy] at hx
      cases hx
    have hs' : (Pc.create s).claimsMeta = true → s = false := by simp [Pc.claimsMeta]
    exact ⟨⟨hne hcls hdcls, fun h =>
        ⟨hne (hmeta (hs' h)) hdcls, fun h' => hne (hmeta (hs' h)) (hF.claims j d hd h')⟩⟩,
      fun h => ⟨(hne hcls (hF.claims j d hd h)).symm, fun h' =>
          (hne (hmeta (hs' h')) (hF.claims j d hd h)).symm⟩⟩

include hT hF hc hs hm in
theorem Flags.move : Flags H (τ.setPc i c pc) where
  flagged j d hd hp := by
    rw [hm.call_setPc] at hd
    split at hd
    · cases hd
      rcases hm.flagged hp with hp | hp
      · exact hm.initialized (hF.flagged i c hc hp)
      · exact hp
    · exact hm.initialized (hF.flagged j d hd hp)
  claims j d hd hp := by
    rw [hm.call_setPc] at hd
    split at hd
    · cases hd
      rcases hm.claims hp with hp | ⟨_, _, _, hp⟩
      · exact hm.initialized (hF.claims i c hc hp)
      · exact hp
    · exact hm.initialized (hF.claims j d hd hp)
  unset j d skipMeta hd hp := by
    rw [hm.call_setPc] at hd
    split at hd
    · cases hd
      obtain ⟨rfl, hf, hskip⟩ := hm.pass_of hp
      exact ⟨hf, fun h => hskip.symm.trans h⟩
    · next hji =>
      -- no other call sets flags meanwhile
      have hset : ∀ s, c.pc ≠ .setFlags s := fun s h => by
        refine hji (hT.mutex (L := .runtime) hd hc ?_ ?_ ?_ ?_) <;> simp [hp, h, Pc.locks, Pc.suspended]
      show τ.initialized d.cls = false ∧ (skipMeta = false → τ.initialized (H.isa d.cls) = false)
      rw [hm.initialized_eq hset]
      exact hF.unset j d skipMeta hd hp
  disjoint j k d e hjk hd he hdi hei := by
    rw [hm.call_setPc] at hd he
    split at hd <;> split at he
    · next h h' => exact absurd (h.trans h'.symm) hjk
    · next h h' =>
      cases hd
      exact (hF.disjoint_move hc hm h' he hei hdi).1
    · next h h' =>
      cases he
      obtain ⟨h₁, h₂⟩ := hF.disjoint_move hc hm h hd hdi hei
      exact ⟨h₁.1.symm, h₂⟩
    · exact hF.disjoint j k d e hjk hd he hdi hei
  settled j d hd hp := by
    rw [hm.call_setPc] at hd
    split at hd
    · cases hd
      exact hF.settled_move hT hc hm hp
    · exact Settled.move hc hm (hF.settled j d hd hp)
  superSettled j d s hd hp hsup := by
    rw [hm.call_setPc] at hd
    split at hd
    · cases hd
      exact hF.superSettled_move hc hs hm hp hsup
    · exact Settled.move hc hm (hF.superSettled j d s hd hp hsup)
  afterSuper t j rest' d s hst hd hp hsup := by
    rw [hm.call_setPc] at hd
    have hst' : τ.stack t = j :: rest' := hst
    rw [hm.stack_eq] at hst'
    split at hd
    · cases hd
      exact absurd hp hm.ne_afterSuper
    · exact Settled.move hc hm (hF.afterSuper t j rest' d s hst' hd hp hsup)
  begun x hx := by
    have hold : ∀ x ∈ σ.begun, (τ.setPc i c pc).Settled x ∧
        ∀ s, H.superClass x = some s → (τ.setPc i c pc).Settled s := fun x hx =>
      ⟨Settled.move hc hm (hF.begun x hx).1, fun s h => Settled.move hc hm ((hF.begun x hx).2 s h)⟩
    have hx' : x ∈ τ.begun := hx
    rcases hm.begun with h | ⟨_, rfl, h⟩
    · exact hold x (h ▸ hx')
    · rw [h, List.mem_append, List.mem_singleton] at hx'
      rcases hx' with hx' | rfl
      · exact hold x hx'
      · exact ⟨hF.settled_move hT hc hm rfl, fun s h => hF.superSettled_move hc hs hm rfl h⟩
  begun_nodup := by
    show τ.begun.Nodup
    rcases hm.begun with h | ⟨hcall, _, h⟩
    · rw [h]
      exact hF.begun_nodup
    · rw [h]
      refine List.nodup_append.mpr ⟨hF.begun_nodup, List.nodup_singleton _, fun x hx y hy hxy => ?_⟩
      rw [List.mem_singleton] at hy
      subst hxy hy
      have := (hF.begun _ hx).1.2 i c hc rfl
      rw [hcall] at this
      cases this
  begun_order pre x post s hb hsup := by
    have hb' : τ.begun = pre ++ x :: post := hb
    rcases hm.begun with h | ⟨hcall, _, h⟩
    · exact hF.begun_order pre x post s (h ▸ hb') hsup
    · rw [h] at hb'
      rcases List.eq_nil_or_concat post with rfl | ⟨post', y, rfl⟩
      · simp
      · rw [List.concat_eq_append, ← List.cons_append, ← List.append_assoc] at hb'
        obtain ⟨hpre, hy⟩ := List.append_inj' hb' rfl
        obtain rfl := List.singleton_inj.mp hy
        have hx : x ∈ σ.begun := by rw [hpre]; simp
        rw [List.concat_eq_append, List.mem_append, List.mem_singleton]
        rintro (hin | rfl)
        · exact hF.begun_order pre x post' s hpre hsup hin
        · -- the superclass is settled, so no call is about to call its method
          have := ((hF.begun x hx).2 _ hsup).2 i c hc rfl
          rw [hcall] at this
          cases this

end Moves

/-- A call that has just begun, or that waits for its superclass. -/
def inert (pc : Pc) : Bool :=
  match pc with
  | .start | .afterSuper | .look => true
  | _ => false

theorem inert_facts (h : inert pc = true) : pc.flagged = false ∧ pc.claimsMeta = false ∧
    (∀ s, pc ≠ .setFlags s) ∧
    pc.initialising = false ∧ pc.settled = false ∧ pc.early = true ∧ pc.pending = false ∧ pc.listed = false ∧
    pc ≠ .removed := by
  cases pc <;> simp_all [inert, Pc.flagged, Pc.claimsMeta, Pc.initialising, Pc.settled, Pc.early,
      Pc.sends, Pc.pending,
    Pc.listed]

/-- Calls may begin and return. -/
theorem Flags.of_calls {σ' : State} (hF : Flags H σ) (hi : σ'.initialized = σ.initialized)
    (hb : σ'.begun = σ.begun)
    (hcalls : ∀ j d, σ'.call j = some d → σ.call j = some d ∨ inert d.pc = true)
    (hafter : ∀ t i rest c s, σ'.stack t = i :: rest → σ'.call i = some c → c.pc = .afterSuper →
      H.superClass c.cls = some s → σ.Settled s) : Flags H σ' := by
  have hset : ∀ {s}, σ.Settled s → σ'.Settled s := fun h => h.of_calls hi fun j d hd hp => by
    refine (hcalls j d hd).resolve_right fun h => ?_
    rw [(inert_facts h).2.2.2.2.2.2.1] at hp
    cases hp
  refine ⟨fun j d hd hp => ?_, fun j d hd hp => ?_, fun j d k hd hp => ?_,
      fun j k d e hjk hd he hdi hei => ?_,
    fun j d hd hp => ?_, fun j d s hd hp hs => ?_, fun t j rest d s hst hd hp hs => ?_, fun x hx => ?_, ?_,
    fun pre x post s hx hs => ?_⟩
  · rcases hcalls j d hd with h | h
    · rw [hi]
      exact hF.flagged j d h hp
    · simp [(inert_facts h).1] at hp
  · rcases hcalls j d hd with h | h
    · rw [hi]
      exact hF.claims j d h hp
    · simp [(inert_facts h).2.1] at hp
  · rcases hcalls j d hd with h | h
    · rw [hi]
      exact hF.unset j d k h hp
    · exact absurd hp ((inert_facts h).2.2.1 k)
  · rcases hcalls j d hd with h | h
    · rcases hcalls k e he with h' | h'
      · exact hF.disjoint j k d e hjk h h' hdi hei
      · simp [(inert_facts h').2.2.2.1] at hei
    · simp [(inert_facts h).2.2.2.1] at hdi
  · rcases hcalls j d hd with h | h
    · exact hset (hF.settled j d h hp)
    · simp [(inert_facts h).2.2.2.2.1] at hp
  · rcases hcalls j d hd with h | h
    · exact hset (hF.superSettled j d s h hp hs)
    · simp [(inert_facts h).2.2.2.2.2.1] at hp
  · exact hset (hafter t j rest d s hst hd hp hs)
  · rw [hb] at hx
    exact ⟨hset (hF.begun x hx).1, fun s hs => hset ((hF.begun x hx).2 s hs)⟩
  · rw [hb]
    exact hF.begun_nodup
  · rw [hb] at hx
    exact hF.begun_order pre x post s hx hs

theorem Flags.push (hF : Flags H σ) {t : Thread} {cls : Class} (hp : pc = .start ∨ pc = .look) :
    Flags H (σ.push t cls pc) := by
  refine hF.of_calls rfl rfl (fun j d hd => ?_) fun u j rest d s hst hd hda hs => ?_
  · rw [push_call] at hd
    split at hd
    · cases hd
      rcases hp with rfl | rfl <;> exact .inr rfl
    · exact .inl hd
  · rw [push_call] at hd
    rw [push_stack] at hst
    split at hd
    · cases hd
      rcases hp with rfl | rfl <;> cases hda
    · next hj =>
      split at hst
      · exact absurd (List.cons.inj hst).1.symm hj
      · exact hF.afterSuper u j rest d s hst hd hda hs

/-- The superclass is to be initialised. -/
theorem Flags.superCall (hT : Threads H σ) (hF : Flags H σ) {sup : Class} (hc : σ.call i = some c) :
    Flags H ((σ.setPc i c .afterSuper).push c.thread sup .start) := by
  refine hF.of_calls rfl rfl (fun j d hd => ?_) fun u j rest d s hst hd hda hs => ?_
  · rw [push_call, setPc_call] at hd
    split at hd
    · cases hd
      exact .inr rfl
    · split at hd
      · cases hd
        exact .inr rfl
      · exact .inl hd
  · rw [push_call, setPc_call] at hd
    rw [push_stack] at hst
    split at hd
    · cases hd
      cases hda
    · next hj =>
      split at hst
      · exact absurd (List.cons.inj hst).1.symm hj
      · next hu =>
        have hst' : σ.stack u = j :: rest := hst
        split at hd
        · next hji =>
          subst hji
          obtain ⟨c', hc', ht⟩ := (hT.mem_stack u j).mp (by rw [hst']; simp)
          rw [hc] at hc'
          cases hc'
          exact absurd ht.symm hu
        · exact hF.afterSuper u j rest d s hst' hd hda hs

theorem Flags.pop (hT : Threads H σ) (hF : Flags H σ) {rest : List ℕ} (hc : σ.call i = some c)
    (hs : σ.stack c.thread = i :: rest) (hret : c.pc.returns = true ∨ c.pc.sends = false) :
    Flags H (σ.pop i c) := by
  have hcall : ∀ j d, (σ.pop i c).call j = some d → σ.call j = some d := by
    intro j d hd
    rw [pop_call] at hd
    split at hd
    · cases hd
    · exact hd
  refine hF.of_calls rfl rfl (fun j d hd => .inl (hcall j d hd)) fun u j rest' d s hst hd hda hsup => ?_
  rw [pop_stack] at hst
  split at hst
  · -- the call below waited for this one
    rw [hs, List.tail_cons] at hst
    rcases hT.under c.thread [] i j rest' (by rw [hs, hst]; rfl) d
        (hcall j d hd) with h | ⟨_, c', hc', hsup', hse⟩
    · rw [h] at hda
      cases hda
    · rw [hc] at hc'
      cases hc'
      rw [hsup] at hsup'
      obtain rfl := Option.some.inj hsup'
      refine hF.settled i c hc ?_
      rcases hret with h | h
      · cases hp : c.pc <;> simp_all [Pc.returns, Pc.settled]
      · rw [h] at hse
        cases hse
  · exact hF.afterSuper u j rest' d s hst (hcall j d hd) hda hsup

/-! ## The look-aside list -/

/-- The two entries of a call. -/
def entryPair (k : ℕ) : List Node := [⟨k, true⟩, ⟨k, false⟩]

theorem mem_flatMap_entryPair {ks : List ℕ} {n : Node} : n ∈ ks.flatMap entryPair ↔ n.call ∈ ks := by
  rcases n with ⟨k, _ | _⟩ <;> simp [entryPair]

/-- The list consists of the entries of the calls between insertion and removal. -/
structure Listed (H : Hierarchy) (σ : State) : Prop where
  chain : ∃ ks : List ℕ, Chain (fun n => (σ.entry n).next) σ.temporaryDtables
      (ks.flatMap entryPair) ∧ ks.Nodup ∧
    ∀ k, k ∈ ks ↔ ∃ c, σ.call k = some c ∧ c.pc.listed = true
  owners : ∀ k c, σ.call k = some c → c.pc.listed = true →
    (σ.entry ⟨k, true⟩).owner = H.isa c.cls ∧ (σ.entry ⟨k, false⟩).owner = c.cls
  installed : ∀ i c, σ.call i = some c → c.pc = .removed → σ.dtable c.cls ≠ none ∧
      σ.dtable (H.isa c.cls) ≠ none
  begun : ∀ x ∈ σ.begun, (∃ i c, σ.call i = some c ∧ c.cls = x ∧ c.pc.listed = true) ∨
    σ.dtable x ≠ none ∧ σ.dtable (H.isa x) ≠ none

theorem listed_initialising (h : pc.listed = true) : pc.initialising = true ∧ pc.claimsMeta = true := by
  cases pc <;> simp_all [Pc.listed, Pc.initialising, Pc.claimsMeta]

/-- With the calls that are listed, the walk from the head has fuel enough. -/
theorem entries_eq (hT : Threads H σ) {ks : List ℕ}
    (hch : Chain (fun n => (σ.entry n).next) σ.temporaryDtables (ks.flatMap entryPair)) (hn : ks.Nodup)
    (hks : ∀ k ∈ ks, ∃ c, σ.call k = some c) : σ.entries = ks.flatMap entryPair := by
  refine follow_eq hch ?_
  have hsub : ks ⊆ List.range σ.nextCall := fun k hk => by
    obtain ⟨c, hc⟩ := hks k hk
    refine List.mem_range.mpr (lt_of_not_ge fun h => ?_)
    rw [hT.fresh k h] at hc
    cases hc
  have hle := (List.subperm_of_subset hn hsub).length_le
  have hlen : (ks.flatMap entryPair).length = 2 * ks.length := by
    simp [entryPair, List.length_flatMap, Nat.mul_comm]
  rw [List.length_range] at hle
  omega

/-- The walk of `remove_dtable` stops before the entries of the call: no other entry has the owner
    of its metaclass entry. -/
theorem previous_eq (hT : Threads H σ) (hF : Flags H σ) (hL : Listed H σ) {pre post : List ℕ} {k : ℕ}
    (hch : Chain (fun n => (σ.entry n).next) σ.temporaryDtables
      (((pre ++ [k]) ++ i :: post).flatMap entryPair))
    (hn : ((pre ++ [k]) ++ i :: post).Nodup)
    (hks : ∀ j ∈ (pre ++ [k]) ++ i :: post, ∃ c, σ.call j = some c ∧ c.pc.listed = true) :
    σ.previous (σ.entry ⟨i, true⟩).owner = some ⟨k, false⟩ := by
  obtain ⟨c, hc, hcl⟩ := hks i (by simp)
  have hsplit : ((pre ++ [k]) ++ i :: post).flatMap entryPair =
      (pre.flatMap entryPair ++ [⟨k, true⟩]) ++ ⟨k, false⟩ :: ((i :: post).flatMap entryPair) := by
    simp [entryPair]
  rw [previous, entries_eq hT hch hn fun j hj => (hks j hj).imp fun _ h => h.1, hsplit]
  rw [hsplit] at hch
  rw [List.find?_eq_some_iff_append]
  refine ⟨?_, _, _, rfl, fun a ha => ?_⟩
  · have hnext := hch.suffix
    rw [List.flatMap_cons, entryPair, List.cons_append, chain_cons] at hnext
    simp [hnext.1]
  · -- the successor belongs to another call
    obtain ⟨n, hn', hmem⟩ := hch.next_mem a ha
    have hnk : n.call ∈ pre ++ [k] := by
      have : n ∈ (pre ++ [k]).flatMap entryPair := by
        rw [List.flatMap_append]
        simpa [entryPair, List.append_assoc] using hmem
      exact mem_flatMap_entryPair.mp this
    obtain ⟨d, hd, hdl⟩ := hks n.call (List.mem_append_left _ hnk)
    have hne : i ≠ n.call := by
      rintro rfl
      exact (List.nodup_append.mp hn).2.2 _ hnk _ (by simp) rfl
    obtain ⟨_, hdis⟩ := hF.disjoint i n.call c d hne hc hd (listed_initialising hcl).1
        (listed_initialising hdl).1
    obtain ⟨h₁, h₂⟩ := hdis (listed_initialising hcl).2
    obtain ⟨ho, ho'⟩ := hL.owners n.call d hd hdl
    have hown := (hL.owners i c hc hcl).1
    rw [hn', Option.any_some, hown]
    rcases n with ⟨q, _ | _⟩
    · simpa [ho'] using h₁.symm
    · simpa [ho] using (h₂ (listed_initialising hdl).2).symm

/-- **Removal** takes the two entries of the call out of the list, and no others, and installs both
    tables. -/
theorem removeDtable_spec (hT : Threads H σ) (hF : Flags H σ) (hL : Listed H σ) (hc : σ.call i = some c)
    (hpc : c.pc = .unlink) :
    (∃ ks : List ℕ, Chain (fun n => ((σ.removeDtable i).entry n).next) (σ.removeDtable i).temporaryDtables
      (ks.flatMap entryPair) ∧ ks.Nodup ∧ ∀ k, k ∈ ks ↔ k ≠ i ∧ ∃ c, σ.call k = some c ∧ c.pc.listed = true) ∧
    (∀ n, ((σ.removeDtable i).entry n).owner = (σ.entry n).owner) ∧
    (∀ x, σ.dtable x ≠ none → (σ.removeDtable i).dtable x ≠ none) ∧
    (σ.removeDtable i).dtable c.cls ≠ none ∧ (σ.removeDtable i).dtable (H.isa c.cls) ≠ none := by
  obtain ⟨ks, hch, hn, hks⟩ := hL.chain
  have hi : i ∈ ks := (hks i).mpr ⟨c, hc, by rw [hpc]; rfl⟩
  obtain ⟨pre, post, rfl⟩ := List.append_of_mem hi
  have hmem : ∀ k, k ∈ pre ++ post ↔ k ≠ i ∧ ∃ c, σ.call k = some c ∧ c.pc.listed = true := by
    intro k
    rw [← hks k]
    have : i ∉ pre ++ post := (List.nodup_middle.mp hn |> List.nodup_cons.mp).1
    constructor
    · intro h
      exact ⟨fun e => this (e ▸ h), by simp only [List.mem_append, List.mem_cons] at h ⊢; tauto⟩
    · rintro ⟨hne, h⟩
      simp only [List.mem_append, List.mem_cons] at h ⊢
      tauto
  have hn' : (pre ++ post).Nodup := (List.nodup_cons.mp (List.nodup_middle.mp hn)).2
  have hsplit : (pre ++ i :: post).flatMap entryPair =
      pre.flatMap entryPair ++ ⟨i, true⟩ :: (⟨i, false⟩ :: post.flatMap entryPair) := by
    simp [entryPair]
  obtain ⟨hnext, hrest⟩ := chain_cons.mp (hsplit ▸ hch).suffix
  obtain ⟨ho, ho'⟩ := hL.owners i c hc (by rw [hpc]; rfl)
  -- both tables are installed first
  have hinst : ∀ x, Function.update
      (Function.update σ.dtable (H.isa c.cls) (some (σ.entry ⟨i, true⟩).dtable)) c.cls
      (some (σ.entry ⟨i, false⟩).dtable) x ≠ none ↔ (x = c.cls ∨ x = H.isa c.cls) ∨ σ.dtable x ≠ none := by
    intro x
    rw [Function.update_apply, Function.update_apply]
    split
    · next h => simp [h]
    · split
      · next h => simp [h]
      · next h h' => simp [h, h']
  rw [removeDtable, hnext]
  dsimp only
  rw [ho, ho']
  rcases List.eq_nil_or_concat pre with rfl | ⟨pre, k, rfl⟩
  · have hhead : σ.temporaryDtables = some ⟨i, true⟩ := by
      rw [hsplit] at hch
      exact (chain_cons.mp hch).1
    rw [if_pos hhead]
    exact ⟨⟨post, hrest, hn', hmem⟩, fun _ => rfl, fun x hx => (hinst x).mpr (.inr hx),
      (hinst _).mpr (.inl (.inl rfl)), (hinst _).mpr (.inl (.inr rfl))⟩
  · rw [List.concat_eq_append] at *
    have hhead : σ.temporaryDtables ≠ some ⟨i, true⟩ := by
      intro h
      rw [h] at hch
      have hnd := hch.nodup
      rw [hsplit] at hch hnd
      cases hp : (pre ++ [k]).flatMap entryPair with
      | nil => simp [entryPair] at hp
      | cons x xs =>
        rw [hp] at hch hnd
        obtain rfl := Option.some.inj (chain_cons.mp hch).1
        simp at hnd
    have hprev := previous_eq hT hF hL hch hn fun j hj => (hks j).mp hj
    rw [if_neg hhead]
    rw [ho] at hprev
    have hprev' : State.previous { σ with dtable := Function.update (Function.update σ.dtable (H.isa c.cls)
        (some (σ.entry ⟨i, true⟩).dtable)) c.cls (some (σ.entry ⟨i, false⟩).dtable) } (H.isa c.cls) =
          some ⟨k, false⟩ := hprev
    rw [hprev']
    dsimp only
    have hupd : (fun n => (Function.update σ.entry ⟨k, false⟩ { σ.entry ⟨k, false⟩ with
        next := (σ.entry ⟨i, false⟩).next } n).next) =
        Function.update (fun n => (σ.entry n).next) ⟨k, false⟩ (σ.entry ⟨i, false⟩).next := by
      funext n
      rw [Function.update_apply, Function.update_apply]
      split <;> rfl
    refine ⟨⟨(pre ++ [k]) ++ post, ?_, hn', hmem⟩, fun n => ?_, fun x hx => (hinst x).mpr (.inr hx),
      (hinst _).mpr (.inl (.inl rfl)), (hinst _).mpr (.inl (.inr rfl))⟩
    · rw [hupd]
      have hcut : Chain (fun n => (σ.entry n).next) σ.temporaryDtables
          ((pre.flatMap entryPair ++ [⟨k, true⟩]) ++ ⟨k, false⟩ :: ([⟨i, true⟩, ⟨i, false⟩] ++
            post.flatMap entryPair)) := by
        rw [hsplit] at hch
        simpa [entryPair] using hch
      have := hcut.cut hrest
      simpa [entryPair] using this
    · rw [Function.update_apply]
      split
      · next h => rw [h]
      · rfl

theorem Move.entry_eq (h : Move H σ i c pc τ) (hins : ∀ t m, c.pc ≠ .insert t m) (hun : c.pc ≠ .unlink) :
    τ.entry = σ.entry ∧ τ.temporaryDtables = σ.temporaryDtables ∧ pc.listed = c.pc.listed ∧
    pc ≠ .removed := by
  cases h with
  | lock L' _ hfree h =>
    rcases h with h | h | h | h | h | h | h | ⟨n, h⟩ <;>
      (simp only [Prod.mk.injEq] at h; obtain ⟨h₁, rfl, rfl⟩ := h; simp [h₁, Pc.listed])
  | insert t m h => exact absurd h (hins t m)
  | unlink h => exact absurd h hun
  | _ => simp_all [Pc.listed]

/-- Tables are never uninstalled. -/
theorem Move.dtable (h : Move H σ i c pc τ) (hun : c.pc ≠ .unlink) {x : Class} (hx : σ.dtable x ≠ none) :
    τ.dtable x ≠ none := by
  cases h with
  | install s t m _ =>
    dsimp only
    rw [Function.update_apply]
    split
    · simp
    · split
      · exact hx
      · rw [Function.update_apply]
        split
        · simp
        · exact hx
  | unlink h => exact absurd h hun
  | _ => exact hx

theorem Listed.move (hT : Threads H σ) (hF : Flags H σ) (hL : Listed H σ) (hc : σ.call i = some c)
    (hm : Move H σ i c pc τ) : Listed H (τ.setPc i c pc) := by
  have hself : (τ.setPc i c pc).call i = some { c with pc } := by rw [hm.call_setPc, if_pos rfl]
  have hother : ∀ {j}, j ≠ i → (τ.setPc i c pc).call j = σ.call j := fun h => by rw [hm.call_setPc, if_neg h]
  have hold : ∀ {j d}, (τ.setPc i c pc).call j = some d → j ≠ i → σ.call j = some d := fun hd h => by
    rwa [hother h] at hd
  have hlist : ∀ k, (∃ d, (τ.setPc i c pc).call k = some d ∧ d.pc.listed = true) ↔
      k = i ∧ pc.listed = true ∨ k ≠ i ∧ ∃ d, σ.call k = some d ∧ d.pc.listed = true := by
    intro k
    by_cases hk : k = i
    · subst hk
      simp [hself]
    · simp [hother hk, hk]
  have hbegun : ∀ (hmono : ∀ x, σ.dtable x ≠ none → τ.dtable x ≠ none)
      (hin : c.pc.listed = true → pc.listed = true ∨ τ.dtable c.cls ≠ none ∧ τ.dtable (H.isa c.cls) ≠ none),
      ∀ x ∈ τ.begun, (∃ j d, (τ.setPc i c pc).call j = some d ∧ d.cls = x ∧ d.pc.listed = true) ∨
        τ.dtable x ≠ none ∧ τ.dtable (H.isa x) ≠ none := by
    intro hmono hin x hx
    have hcase : x ∈ σ.begun ∨ x = c.cls ∧ pc.listed = true := by
      rcases hm.begun with h | ⟨_, rfl, h⟩
      · exact .inl (h ▸ hx)
      · rw [h, List.mem_append, List.mem_singleton] at hx
        exact hx.imp_right fun h => ⟨h, rfl⟩
    rcases hcase with hx | ⟨rfl, hp⟩
    · rcases hL.begun x hx with ⟨j, d, hd, hds, hdl⟩ | ⟨h, h'⟩
      · by_cases hj : j = i
        · subst hj
          rw [hc] at hd
          cases hd
          rcases hin hdl with h | h
          · exact .inl ⟨j, _, hself, hds, h⟩
          · exact .inr (hds ▸ h)
        · exact .inl ⟨j, d, by rw [hother hj]; exact hd, hds, hdl⟩
      · exact .inr ⟨hmono x h, hmono _ h'⟩
    · exact .inl ⟨i, _, hself, rfl, hp⟩
  obtain ⟨ks, hch, hn, hks⟩ := hL.chain
  by_cases hun : c.pc = .unlink
  · -- the entries of this call are removed
    obtain ⟨⟨ks', hch', hn', hks'⟩, howner, hmono, hinst, hinst'⟩ := removeDtable_spec hT hF hL hc hun
    obtain ⟨rfl, rfl⟩ : pc = .removed ∧ τ = σ.removeDtable i := by cases hm <;> simp_all
    refine ⟨⟨ks', hch', hn', fun k => ?_⟩, fun k d hd hdl => ?_, fun j d hd hdr => ?_, hbegun hmono fun _ =>
      .inr ⟨hinst, hinst'⟩⟩
    · rw [hlist, hks' k]
      simp [Pc.listed]
    · by_cases hk : k = i
      · subst hk
        rw [hself] at hd
        cases hd
        cases hdl
      · show ((σ.removeDtable i).entry _).owner = _ ∧ ((σ.removeDtable i).entry _).owner = _
        rw [howner, howner]
        exact hL.owners k d (hold hd hk) hdl
    · by_cases hj : j = i
      · subst hj
        rw [hself] at hd
        cases hd
        exact ⟨hinst, hinst'⟩
      · exact (hL.installed j d (hold hd hj) hdr).imp (hmono _) (hmono _)
  have hmono : ∀ x, σ.dtable x ≠ none → τ.dtable x ≠ none := fun x => hm.dtable hun
  by_cases hins : ∃ t m, c.pc = .insert t m
  · -- the entries of this call are inserted
    obtain ⟨t, m, hins⟩ := hins
    obtain ⟨rfl, rfl⟩ : pc = .inserted ∧ τ = σ.insertDtables H i c.cls t m := by cases hm <;> simp_all
    have hik : i ∉ ks := fun h => by
      obtain ⟨d, hd, hdl⟩ := (hks i).mp h
      rw [hc] at hd
      cases hd
      rw [hins] at hdl
      cases hdl
    have hentry : ∀ n : Node, n.call ≠ i → (σ.insertDtables H i c.cls t m).entry n = σ.entry n := by
      intro n hn
      have h₁ : n ≠ ⟨i, true⟩ := fun h => hn (by rw [h])
      have h₂ : n ≠ ⟨i, false⟩ := fun h => hn (by rw [h])
      simp [insertDtables, h₁, h₂]
    have hmeta : (σ.insertDtables H i c.cls t m).entry ⟨i, true⟩ = ⟨H.isa c.cls, m, some ⟨i, false⟩⟩ := by
      simp [insertDtables]
    have hbuf : (σ.insertDtables H i c.cls t m).entry ⟨i, false⟩ = ⟨c.cls, t, σ.temporaryDtables⟩ := by
      simp [insertDtables]
    refine ⟨⟨i :: ks, ?_, List.nodup_cons.mpr ⟨hik, hn⟩, fun k => ?_⟩, fun k d hd hdl => ?_,
        fun j d hd hdr => ?_,
      hbegun hmono fun _ => .inl rfl⟩
    · show Chain (fun n => ((σ.insertDtables H i c.cls t m).entry n).next) (some ⟨i, true⟩) _
      refine .cons _ _ ?_
      rw [hmeta]
      refine .cons _ _ ?_
      rw [hbuf]
      refine hch.congr fun n hn => ?_
      rw [hentry n fun h => hik (h ▸ mem_flatMap_entryPair.mp hn)]
    · rw [hlist, List.mem_cons, hks k]
      constructor
      · rintro (h | h)
        · exact .inl ⟨h, rfl⟩
        · exact .inr ⟨fun e => hik ((hks i).mpr (e ▸ h)), h⟩
      · rintro (⟨h, _⟩ | ⟨_, h⟩)
        · exact .inl h
        · exact .inr h
    · show ((σ.insertDtables H i c.cls t m).entry _).owner = _ ∧
          ((σ.insertDtables H i c.cls t m).entry _).owner = _
      by_cases hk : k = i
      · subst hk
        rw [hself] at hd
        cases hd
        rw [hmeta, hbuf]
        exact ⟨rfl, rfl⟩
      · rw [hentry ⟨k, true⟩ hk, hentry ⟨k, false⟩ hk]
        exact hL.owners k d (hold hd hk) hdl
    · by_cases hj : j = i
      · subst hj
        rw [hself] at hd
        cases hd
        cases hdr
      · exact (hL.installed j d (hold hd hj) hdr).imp (hmono _) (hmono _)
  · obtain ⟨hen, htd, hpl, hnr⟩ := hm.entry_eq (fun t m h => hins ⟨t, m, h⟩) hun
    refine ⟨⟨ks, ?_, hn, fun k => ?_⟩, fun k d hd hdl => ?_, fun j d hd hdr => ?_, hbegun hmono fun h =>
      .inl (hpl.trans h)⟩
    · show Chain (fun n => (τ.entry n).next) τ.temporaryDtables _
      rw [hen, htd]
      exact hch
    · rw [hlist, hks k]
      by_cases hk : k = i
      · subst hk
        simp [hc, hpl]
      · simp [hk]
    · show (τ.entry _).owner = _ ∧ (τ.entry _).owner = _
      rw [hen]
      by_cases hk : k = i
      · subst hk
        rw [hself] at hd
        cases hd
        exact hL.owners k c hc (hpl.symm.trans hdl)
      · exact hL.owners k d (hold hd hk) hdl
    · by_cases hj : j = i
      · subst hj
        rw [hself] at hd
        cases hd
        exact absurd hdr hnr
      · exact (hL.installed j d (hold hd hj) hdr).imp (hmono _) (hmono _)

/-- Calls may begin, and return unless their entries are listed. -/
theorem Listed.of_calls {σ' : State} (hL : Listed H σ) (he : σ'.entry = σ.entry)
    (ht : σ'.temporaryDtables = σ.temporaryDtables) (hd : σ'.dtable = σ.dtable) (hb : σ'.begun = σ.begun)
    (hcalls : ∀ j d, σ'.call j = some d → σ.call j = some d ∨ inert d.pc = true)
    (hlisted : ∀ j d, σ.call j = some d → d.pc.listed = true → σ'.call j = some d) : Listed H σ' := by
  have hiff : ∀ j d, d.pc.listed = true → (σ'.call j = some d ↔ σ.call j = some d) := fun j d hdl =>
    ⟨fun h => (hcalls j d h).resolve_right fun hi => by simp [(inert_facts hi).2.2.2.2.2.2.2.1] at hdl,
      fun h => hlisted j d h hdl⟩
  obtain ⟨ks, hch, hn, hks⟩ := hL.chain
  refine ⟨⟨ks, by rw [he, ht]; exact hch, hn, fun k => (hks k).trans ?_⟩, fun k d hk hdl => ?_,
      fun j d hj hdr => ?_,
    fun x hx => ?_⟩
  · exact exists_congr fun d =>
        ⟨fun ⟨h, hdl⟩ => ⟨(hiff k d hdl).mpr h, hdl⟩, fun ⟨h, hdl⟩ => ⟨(hiff k d hdl).mp h, hdl⟩⟩
  · rw [he]
    exact hL.owners k d ((hiff k d hdl).mp hk) hdl
  · rw [hd]
    exact hL.installed j d ((hcalls j d hj).resolve_right fun hi => (inert_facts hi).2.2.2.2.2.2.2.2 hdr) hdr
  · rw [hd]
    rw [hb] at hx
    exact (hL.begun x hx).imp_left fun ⟨j, d, hj, hds, hdl⟩ => ⟨j, d, (hiff j d hdl).mpr hj, hds, hdl⟩

/-! ## Runs -/

/-- The invariant. -/
structure Safe (H : Hierarchy) (σ : State) : Prop where
  threads : Threads H σ
  flags : Flags H σ
  listed : Listed H σ

theorem safe_init (H : Hierarchy) : Safe H init := by
  have hnone : ∀ i c, init.call i = some c → False := fun i c h => by cases h
  refine ⟨⟨fun _ _ => rfl, fun t i => ?_, fun _ => List.nodup_nil, fun t pre a b post h => ?_,
    fun L i j c d h => (hnone i c h).elim⟩, ⟨fun i c h => (hnone i c h).elim, fun i c h => (hnone i c h).elim,
    fun i c s h => (hnone i c h).elim, fun i j c d _ h => (hnone i c h).elim, fun i c h => (hnone i c h).elim,
    fun i c s h => (hnone i c h).elim, fun t i rest c s _ h => (hnone i c h).elim, fun x h => ?_,
        List.nodup_nil,
    fun pre x post s h => ?_⟩, ⟨⟨[], .nil, List.nodup_nil, fun k => ?_⟩, fun k c h => (hnone k c h).elim,
    fun i c h => (hnone i c h).elim, fun x h => ?_⟩⟩
  · simp [init]
  · simp [init] at h
  · simp [init] at h
  · simp [init] at h
  · simp [init]
  · simp [init] at h

/-- A thread that may call is not inside another call. -/
theorem mayCall_top {t : Thread} (h : σ.mayCall t = true) {j : ℕ} {rest : List ℕ} (hs : σ.stack t = j :: rest)
    {d : Call} (hd : σ.call j = some d) : d.pc = .running := by
  rw [mayCall, hs] at h
  simpa [hd] using h

theorem Safe.push (h : Safe H σ) {t : Thread} {cls : Class} (hmay : σ.mayCall t = true)
    (hp : pc = .start ∨ pc = .look) : Safe H (σ.push t cls pc) := by
  have hnew : ∀ j d, σ.call j = some d → j ≠ σ.nextCall := by
    rintro j d hd rfl
    rw [h.threads.fresh _ le_rfl] at hd
    cases hd
  refine ⟨h.threads.push (by rcases hp with rfl | rfl <;> rfl) fun j rest hs d hd =>
      .inl (mayCall_top hmay hs hd),
    h.flags.push hp, h.listed.of_calls rfl rfl rfl rfl (fun j d hd => ?_) fun j d hd _ => ?_⟩
  · rw [push_call] at hd
    split at hd
    · cases hd
      rcases hp with rfl | rfl <;> exact .inr rfl
    · exact .inl hd
  · rwa [push_call, if_neg (hnew j d hd)]

/-- **The step lemma.** -/
theorem Safe.step (h : Safe H σ) {e : Event} {σ' : State} (he : Step H σ e σ') : Safe H σ' := by
  cases e with
  | send t cls =>
    rw [Step, exec] at he
    split at he
    · next hmay =>
      cases he
      exact h.push hmay (.inl rfl)
    · cases he
  | lookUp t cls =>
    rw [Step, exec] at he
    split at he
    · next hmay =>
      cases he
      exact h.push hmay (.inr rfl)
    · cases he
  | step t choice =>
    obtain ⟨i, rest, c, hs, hc, hadv⟩ : ∃ i rest c, σ.stack t = i :: rest ∧ σ.call i = some c ∧
        σ.advance H i c choice = some σ' := by
      simp only [Step, exec] at he
      split at he
      · cases he
      · next i rest hs =>
        obtain ⟨c, hc, he⟩ := Option.bind_eq_some_iff.mp he
        exact ⟨i, rest, c, hs, hc, he⟩
    obtain ⟨c', hc', rfl⟩ := (h.threads.mem_stack t i).mp (by rw [hs]; simp)
    rw [hc] at hc'
    cases hc'
    rcases advance_cases hadv with ⟨rfl, hret⟩ | ⟨sup, hsup, hpc, rfl⟩ | ⟨pc, τ, hm, rfl⟩
    · refine ⟨h.threads.pop hc hs, h.flags.pop h.threads hc hs hret, h.listed.of_calls rfl rfl rfl rfl
        (fun j d hd => .inl ?_) fun j d hd hdl => ?_⟩
      · rw [pop_call] at hd
        split at hd
        · cases hd
        · exact hd
      · rw [pop_call, if_neg]
        · exact hd
        · rintro rfl
          rw [hc] at hd
          cases hd
          cases hp : c.pc <;> simp_all [Pc.returns, Pc.sends, Pc.listed]
    · have hT : Threads H (σ.setPc i c .afterSuper) :=
        h.threads.setPc hc hs (fun L hL => by simp [Pc.locks] at hL) fun _ => rfl
      have hnew : ∀ j d, σ.call j = some d → j ≠ σ.nextCall := by
        rintro j d hd rfl
        rw [h.threads.fresh _ le_rfl] at hd
        cases hd
      refine ⟨hT.push rfl fun j rest' hs' d hd => .inr ?_, h.flags.superCall h.threads hc,
        h.listed.of_calls rfl rfl rfl rfl (fun j d hd => ?_) fun j d hd hdl => ?_⟩
      · have hs'' : σ.stack c.thread = j :: rest' := hs'
        rw [hs] at hs''
        obtain ⟨rfl, _⟩ := List.cons.inj hs''
        rw [setPc_call, if_pos rfl] at hd
        cases hd
        exact ⟨rfl, hsup, rfl⟩
      · rw [push_call, setPc_call] at hd
        split at hd
        · cases hd
          exact .inr rfl
        · split at hd
          · cases hd
            exact .inr rfl
          · exact .inl hd
      · have hji : j ≠ i := by
          rintro rfl
          rw [hc] at hd
          cases hd
          rw [hpc] at hdl
          cases hdl
        rw [push_call, setPc_call, if_neg hji]
        exact (if_neg (hnew j d hd)).trans hd
    · have hT : Threads H (τ.setPc i c pc) := by
        have := h.threads.setPc hc hs (fun L => hm.locks) hm.sends
        refine ⟨?_, ?_, ?_, ?_, ?_⟩
        · show ∀ j, τ.nextCall ≤ j → _
          rw [hm.nextCall_eq]
          exact fun j hj => by rw [hm.call_setPc, ← setPc_call]; exact this.fresh j hj
        · show ∀ u j, j ∈ τ.stack u ↔ _
          rw [hm.stack_eq]
          exact fun u j => by rw [hm.call_setPc, ← setPc_call]; exact this.mem_stack u j
        · show ∀ u, (τ.stack u).Nodup
          rw [hm.stack_eq]
          exact this.nodup
        · show ∀ u pre a b post, τ.stack u = _ → _
          rw [hm.stack_eq]
          intro u pre a b post hst d hd
          rw [hm.call_setPc, ← setPc_call] at hd
          rw [hm.call_setPc, ← setPc_call]
          exact this.under u pre a b post hst d hd
        · intro L j k d e hd he
          rw [hm.call_setPc, ← setPc_call] at hd he
          exact this.excl L j k d e hd he
      exact ⟨hT, h.flags.move h.threads hc hs hm, h.listed.move h.threads h.flags hc hm⟩

theorem safe_of_runs {σ : State} (h : Runs (Step H) init σ) : Safe H σ :=
  h.invariant (safe_init H) fun _ _ _ hs he => hs.step he

/-- What the protocol promises of a state:
    * `once`, `super_first`: `+initialize` was called once for each class in `begun`, and for no
      superclass after it;
    * `ended`: where a call returns, its class is initialised or its own thread is doing so;
    * `entries`, `owners`, `distinct`: the list has a metaclass entry and a class entry for every
      call between insertion and removal, and nothing else;
    * `installed`, `begun`: removal leaves both tables installed. -/
structure ProtocolSafe (H : Hierarchy) (σ : State) : Prop where
  once : σ.begun.Nodup
  super_first : ∀ pre x post s, σ.begun = pre ++ x :: post → H.superClass x = some s → s ∉ post
  ended : ∀ i c, σ.call i = some c → c.pc.returns = true → σ.initialized c.cls = true ∧
    ∀ j d, σ.call j = some d → d.cls = c.cls → d.pc.initialising = true → d.thread = c.thread
  entries : ∃ ks : List ℕ, Chain (fun n => (σ.entry n).next) σ.temporaryDtables
      (ks.flatMap entryPair) ∧ ks.Nodup ∧
    ∀ k, k ∈ ks ↔ ∃ c, σ.call k = some c ∧ c.pc.listed = true
  owners : ∀ k c, σ.call k = some c → c.pc.listed = true →
    (σ.entry ⟨k, true⟩).owner = H.isa c.cls ∧ (σ.entry ⟨k, false⟩).owner = c.cls
  distinct : ∀ j k c d, j ≠ k → σ.call j = some c → σ.call k = some d → c.pc.listed = true →
      d.pc.listed = true →
    c.cls ≠ d.cls ∧ H.isa c.cls ≠ d.cls ∧ H.isa c.cls ≠ H.isa d.cls
  installed : ∀ i c, σ.call i = some c → c.pc = .removed → σ.dtable c.cls ≠ none ∧
      σ.dtable (H.isa c.cls) ≠ none
  begun : ∀ x ∈ σ.begun, (∃ i c, σ.call i = some c ∧ c.cls = x ∧ c.pc.listed = true) ∨
    σ.dtable x ≠ none ∧ σ.dtable (H.isa x) ≠ none

theorem Safe.protocolSafe (h : Safe H σ) : ProtocolSafe H σ where
  once := h.flags.begun_nodup
  super_first := h.flags.begun_order
  ended i c hc hret := by
    refine ⟨h.flags.flagged i c hc ?_, fun j d hd hds hdi => ?_⟩
    · cases hp : c.pc <;> simp_all [Pc.returns, Pc.flagged]
    · -- the lock of the metaclass is held over the whole initialisation
      refine h.threads.excl (.object (H.isa c.cls)) j i d c hd hc ?_ ?_
      · rw [hds]
        cases hp : d.pc <;> simp_all [Pc.initialising, Pc.locks]
      · cases hp : c.pc <;> simp_all [Pc.returns, Pc.locks]
  entries := h.listed.chain
  owners := h.listed.owners
  distinct j k c d hjk hc hd hcl hdl := by
    obtain ⟨hci, hcm⟩ := listed_initialising hcl
    obtain ⟨hdi, hdm⟩ := listed_initialising hdl
    obtain ⟨h₁, h₂⟩ := h.flags.disjoint j k c d hjk hc hd hci hdi
    exact ⟨h₁, (h₂ hcm).1, (h₂ hcm).2 hdm⟩
  installed := h.listed.installed
  begun := h.listed.begun

/-- **The `+initialize` protocol is safe** under any interleaving. -/
theorem initialize_safe (H : Hierarchy) {σ : State} (h : Runs (Step H) init σ) : ProtocolSafe H σ :=
  (safe_of_runs h).protocolSafe

/-- A list of events, one after the other. -/
def execList (H : Hierarchy) : State → List Event → Option State
  | σ, [] => some σ
  | σ, e :: es => (σ.exec H e).bind fun σ' => execList H σ' es

theorem runs_of_execList : ∀ (es : List Event) {σ σ' : State}, execList H σ es = some σ' → Runs (Step H) σ σ'
  | [], σ, σ', h => by
    obtain rfl := Option.some.inj h
    exact Runs.refl σ
  | e :: es, σ, σ', h => by
    obtain ⟨τ, hτ, h⟩ := Option.bind_eq_some_iff.mp h
    exact (Runs.single (a := e) hτ).trans (runs_of_execList es h)

end State

/-- Class 0 with the metaclass 1. -/
def oneClass : Hierarchy where
  superClass _ := none
  isa _ := 1

/-- Thread 1 initialises class 0, as far as into `+initialize`. -/
def intoInitialize : List Event := .send 1 0 :: List.replicate 13 (.step 1 ⟨10, 11, true⟩)

/-- A thread sends a message to the class meanwhile. -/
theorem initialize_safe_race :
    State.ProtocolSafe oneClass ((State.execList oneClass init
      (intoInitialize ++ [.send 2 0, .step 2 ⟨0, 0, true⟩, .step 2 ⟨0, 0, true⟩])).get (by decide)) :=
  State.initialize_safe oneClass (State.runs_of_execList _ (Option.some_get _).symm)

/-! ## Looking up a table during `+initialize` -/

namespace Pc

/-- The look-aside entry that `dtable_for_class` has found. -/
def found : Pc → Option Node
  | .syncEnter n | .syncExit n => some n
  | _ => none

/-- The `+initialize` method has not returned. -/
def beforeReturn : Pc → Bool
  | .inserted | .call | .running => true
  | _ => false

end Pc

/-- Which classes are metaclasses. -/
structure Metaclasses (H : Hierarchy) (metaclass : Class → Bool) : Prop where
  isa : ∀ c, metaclass (H.isa c) = true
  superClass : ∀ c s, H.superClass c = some s → metaclass c = false → metaclass s = false

namespace State

variable {H : Hierarchy} {σ τ : State} {i : ℕ} {c : Call} {pc : Pc} {metaclass : Class → Bool}

/-- Messages go to classes, and no thread finds the entry of a class, as opposed to that of its
    metaclass, that another thread is initialising. -/
def EntryOk (metaclass : Class → Bool) (σ : State) : Event → Prop
  | .send _ cls => metaclass cls = false
  | .lookUp _ _ => True
  | .step t _ => ∀ i ∈ (σ.stack t).head?, ∀ c ∈ σ.call i, c.pc = .search →
      ∀ n ∈ σ.entries.find? (fun n => (σ.entry n).owner = c.cls), n.isMeta = false →
        ∀ d ∈ σ.call n.call, d.thread = t

instance (metaclass : Class → Bool) (σ : State) (e : Event) : Decidable (EntryOk metaclass σ e) :=
  match e with
  | .send _ cls => inferInstanceAs (Decidable (metaclass cls = false))
  | .lookUp _ _ => isTrue trivial
  | .step t _ => inferInstanceAs (Decidable (∀ i ∈ (σ.stack t).head?, ∀ c ∈ σ.call i, c.pc = .search →
      ∀ n ∈ σ.entries.find? (fun n => (σ.entry n).owner = c.cls), n.isMeta = false →
        ∀ d ∈ σ.call n.call, d.thread = t))

/-- What is known of the entry `n` that the call `c` has found. -/
def FoundOk (H : Hierarchy) (metaclass : Class → Bool) (σ : State) (c : Call) (n : Node) : Prop :=
  n.call < σ.nextCall ∧
    if n.isMeta then metaclass c.cls = true ∧ ∀ d, σ.call n.call = some d → H.isa d.cls = c.cls
    else ∃ d, σ.call n.call = some d ∧ d.thread = c.thread ∧ d.cls = c.cls ∧ d.pc.listed = true

structure LookUps (H : Hierarchy) (metaclass : Class → Bool) (σ : State) : Prop where
  classes : ∀ i c, σ.call i = some c → c.pc.sends = true → metaclass c.cls = false
  found : ∀ i c n, σ.call i = some c → c.pc.found = some n → FoundOk H metaclass σ c n

/-- Later states in which calls are still of the same class, and entries of the own thread are
    still there. -/
theorem FoundOk.mono {σ' : State} {n : Node} (h : FoundOk H metaclass σ c n)
    (hnext : σ.nextCall ≤ σ'.nextCall)
    (hcls : ∀ k d', k < σ.nextCall → σ'.call k = some d' → ∃ d, σ.call k = some d ∧ d.cls = d'.cls)
    (hkeep : ∀ d, σ.call n.call = some d → d.thread = c.thread → d.pc.listed = true →
      ∃ d', σ'.call n.call = some d' ∧ d'.thread = d.thread ∧ d'.cls = d.cls ∧ d'.pc.listed = true) :
    FoundOk H metaclass σ' c n := by
  obtain ⟨hlt, h⟩ := h
  refine ⟨hlt.trans_le hnext, ?_⟩
  cases hn : n.isMeta with
  | true =>
    rw [if_pos hn] at h
    rw [if_pos rfl]
    refine ⟨h.1, fun d' hd' => ?_⟩
    obtain ⟨d, hd, hdd⟩ := hcls _ d' hlt hd'
    rw [← hdd]
    exact h.2 d hd
  | false =>
    rw [if_neg (by simp [hn])] at h
    rw [if_neg Bool.false_ne_true]
    obtain ⟨d, hd, ht, hc, hl⟩ := h
    obtain ⟨d', hd', ht', hc', hl'⟩ := hkeep d hd ht hl
    exact ⟨d', hd', ht'.trans ht, hc'.trans hc, hl'⟩

theorem Move.found_back (h : Move H σ i c pc τ) {n : Node} (hp : pc.found = some n) :
    τ = σ ∧ (c.pc.found = some n ∨ c.pc = .search ∧
      σ.entries.find? (fun n => (σ.entry n).owner = c.cls) = some n) := by
  cases h with
  | lock L' _ hfree h =>
    rcases h with h | h | h | h | h | h | h | ⟨n, h⟩ <;>
      (simp only [Prod.mk.injEq] at h; obtain ⟨h₁, rfl, rfl⟩ := h; simp_all [Pc.found])
  | search n h hn =>
    obtain rfl := Option.some.inj hp
    exact ⟨rfl, .inr ⟨h, hn⟩⟩
  | _ => cases hp

theorem Move.sends_back (h : Move H σ i c pc τ) (hp : pc.sends = true) : c.pc.sends = true := by
  cases h with
  | lock L' _ hfree h =>
    rcases h with h | h | h | h | h | h | h | ⟨n, h⟩ <;>
      (simp only [Prod.mk.injEq] at h; obtain ⟨h₁, rfl, rfl⟩ := h; simp_all [Pc.sends])
  | _ => simp_all [Pc.sends]

theorem found_facts {n : Node} (h : pc.found = some n) :
    pc.suspended = false ∧ pc.listed = false ∧ pc.sends = false := by
  cases pc <;> simp_all [Pc.found, Pc.suspended, Pc.listed, Pc.sends]

/-- The entry that a look-up of the own thread has found is kept while the look-up lasts. -/
theorem Safe.found_ne (h : Safe H σ) {rest : List ℕ} (hc : σ.call i = some c)
    (hs : σ.stack c.thread = i :: rest)
    {j : ℕ} {e d : Call} {n : Node} (he : σ.call j = some e) (hf : e.pc.found = some n)
    (hd : σ.call n.call = some d) (ht : d.thread = e.thread) (hl : d.pc.listed = true) : n.call ≠ i := by
  rintro rfl
  rw [hc] at hd
  cases hd
  have hj := (h.threads.mem_stack c.thread j).mpr ⟨e, he, ht.symm⟩
  rw [hs] at hj
  rcases List.mem_cons.mp hj with rfl | hj
  · rw [hc] at he
    cases he
    rw [(found_facts hf).2.1] at hl
    cases hl
  · have := h.threads.suspended hs hj he
    rw [(found_facts hf).1] at this
    cases this

/-- What the search of `dtable_for_class` finds. -/
theorem Safe.foundOk (h : Safe H σ) (hM : Metaclasses H metaclass) {n : Node}
    (hn : σ.entries.find? (fun n => (σ.entry n).owner = c.cls) = some n)
    (hown : n.isMeta = false → ∀ d ∈ σ.call n.call, d.thread = c.thread) : FoundOk H metaclass σ c n := by
  obtain ⟨ks, hch, hnd, hks⟩ := h.listed.chain
  have hent := entries_eq h.threads hch hnd fun k hk => ((hks k).mp hk).imp fun _ h => h.1
  have hk : n.call ∈ ks := mem_flatMap_entryPair.mp (hent ▸ List.mem_of_find?_eq_some hn)
  have howner : (σ.entry n).owner = c.cls := by simpa using List.find?_some hn
  obtain ⟨d, hd, hl⟩ := (hks n.call).mp hk
  refine ⟨lt_of_not_ge fun hlt => ?_, ?_⟩
  · rw [h.threads.fresh _ hlt] at hd
    cases hd
  obtain ⟨ho, ho'⟩ := h.listed.owners n.call d hd hl
  rcases n with ⟨k, _ | _⟩
  · exact ⟨d, hd, hown rfl d hd, ho'.symm.trans howner, hl⟩
  · refine ⟨?_, fun d' hd' => ?_⟩
    · rw [← howner, ho]
      exact hM.isa _
    · dsimp only at hd'
      rw [hd] at hd'
      cases hd'
      exact ho.symm.trans howner

theorem LookUps.push (h : Safe H σ) (hL : LookUps H metaclass σ) {t : Thread} {cls : Class}
    (hp : pc.found = none) (hcls : pc.sends = true → metaclass cls = false) :
    LookUps H metaclass (σ.push t cls pc) := by
  have hnew : ∀ {j d}, σ.call j = some d → j ≠ σ.nextCall := by
    rintro j d hd rfl
    rw [h.threads.fresh _ le_rfl] at hd
    cases hd
  refine ⟨fun j d hd hse => ?_, fun j d n hd hf => ?_⟩ <;> rw [push_call] at hd <;> split at hd
  · cases hd
    exact hcls hse
  · exact hL.classes j d hd hse
  · cases hd
    rw [hp] at hf
    cases hf
  · refine (hL.found j d n hd hf).mono (Nat.le_succ _) (fun k d' hk hd' => ?_) fun e he het hel => ?_
    · rw [push_call, if_neg hk.ne] at hd'
      exact ⟨d', hd', rfl⟩
    · exact ⟨e, by rw [push_call, if_neg (hnew he)]; exact he, rfl, rfl, hel⟩

theorem LookUps.pop (h : Safe H σ) (hL : LookUps H metaclass σ) {rest : List ℕ} (hc : σ.call i = some c)
    (hs : σ.stack c.thread = i :: rest) : LookUps H metaclass (σ.pop i c) := by
  have hcall : ∀ {j d}, (σ.pop i c).call j = some d → σ.call j = some d := by
    intro j d hd
    rw [pop_call] at hd
    split at hd
    · cases hd
    · exact hd
  refine ⟨fun j d hd hse => hL.classes j d (hcall hd) hse, fun j d n hd hf => ?_⟩
  refine (hL.found j d n (hcall hd) hf).mono le_rfl (fun k d' hk hd' => ⟨d', hcall hd', rfl⟩) fun e
      he het hel => ?_
  exact ⟨e, by rw [pop_call, if_neg (h.found_ne hc hs (hcall hd) hf he het hel)]; exact he, rfl, rfl, hel⟩

theorem LookUps.setPc (h : Safe H σ) (hL : LookUps H metaclass σ) {rest : List ℕ} (hc : σ.call i = some c)
    (hs : σ.stack c.thread = i :: rest) (hcall : τ.call = σ.call) (hnext : τ.nextCall = σ.nextCall)
    (hsends : pc.sends = true → c.pc.sends = true)
    (hfound : ∀ n, pc.found = some n → c.pc.listed = false ∧ FoundOk H metaclass σ c n) :
    LookUps H metaclass (τ.setPc i c pc) := by
  have hcalls : ∀ j, (τ.setPc i c pc).call j = if j = i then some { c with pc } else σ.call j := fun j => by
    rw [setPc_call, hcall]
  have hmono : ∀ {e : Call} {n}, FoundOk H metaclass σ e n →
      (∀ d, σ.call n.call = some d → d.thread = e.thread → d.pc.listed = true → n.call ≠ i) →
      FoundOk H metaclass (τ.setPc i c pc) e n := fun h hne =>
    h.mono (show σ.nextCall ≤ τ.nextCall by rw [hnext]) (fun k d' _ hd' => by
      rw [hcalls] at hd'
      split at hd'
      · next hk =>
        cases hd'
        exact ⟨c, hk ▸ hc, rfl⟩
      · exact ⟨d', hd', rfl⟩) fun d hd ht hl =>
            ⟨d, by rw [hcalls, if_neg (hne d hd ht hl)]; exact hd, rfl, rfl, hl⟩
  refine ⟨fun j d hd hse => ?_, fun j d n hd hf => ?_⟩ <;> rw [hcalls] at hd <;> split at hd
  · cases hd
    exact hL.classes i c hc (hsends hse)
  · exact hL.classes j d hd hse
  · cases hd
    refine hmono (hfound n hf).2 fun d hd _ hl => ?_
    rintro rfl
    rw [hc] at hd
    cases hd
    rw [(hfound n hf).1] at hl
    cases hl
  · exact hmono (hL.found j d n hd hf) fun e he het hel => h.found_ne hc hs hd hf he het hel

/-- **The step lemma** for look-ups. -/
theorem LookUps.step (hM : Metaclasses H metaclass) (h : Safe H σ) (hL : LookUps H metaclass σ) {e : Event}
    (hok : EntryOk metaclass σ e) {σ' : State} (he : Step H σ e σ') : LookUps H metaclass σ' := by
  cases e with
  | send t cls =>
    rw [Step, exec] at he
    split at he
    · cases he
      exact hL.push h rfl fun _ => hok
    · cases he
  | lookUp t cls =>
    rw [Step, exec] at he
    split at he
    · cases he
      exact hL.push h rfl fun h => by cases h
    · cases he
  | step t choice =>
    obtain ⟨i, rest, c, hs, hc, hadv⟩ : ∃ i rest c, σ.stack t = i :: rest ∧ σ.call i = some c ∧
        σ.advance H i c choice = some σ' := by
      simp only [Step, exec] at he
      split at he
      · cases he
      · next i rest hs =>
        obtain ⟨c, hc, he⟩ := Option.bind_eq_some_iff.mp he
        exact ⟨i, rest, c, hs, hc, he⟩
    obtain ⟨c', hc', rfl⟩ := (h.threads.mem_stack t i).mp (by rw [hs]; simp)
    rw [hc] at hc'
    cases hc'
    rcases advance_cases hadv with ⟨rfl, _⟩ | ⟨sup, hsup, hpc, rfl⟩ | ⟨pc, τ, hm, rfl⟩
    · exact hL.pop h hc hs
    · -- the call for the superclass
      have hcls := hL.classes i c hc (by rw [hpc]; rfl)
      have hL₁ : LookUps H metaclass (σ.setPc i c .afterSuper) :=
        hL.setPc h hc hs rfl rfl (fun _ => by rw [hpc]; rfl) fun n hn => by cases hn
      have hfresh : (σ.setPc i c .afterSuper).call σ.nextCall = none := by
        rw [setPc_call, if_neg]
        · exact h.threads.fresh _ le_rfl
        · rintro rfl
          rw [h.threads.fresh _ le_rfl] at hc
          cases hc
      have hnew : ∀ {j d}, (σ.setPc i c .afterSuper).call j = some d → j ≠ σ.nextCall := by
        rintro j d hd rfl
        rw [hfresh] at hd
        cases hd
      refine ⟨fun j d hd hse => ?_, fun j d n hd hf => ?_⟩ <;> rw [push_call] at hd <;> split at hd
      · cases hd
        exact hM.superClass _ _ hsup hcls
      · exact hL₁.classes j d hd hse
      · cases hd
        cases hf
      · refine (hL₁.found j d n hd hf).mono (Nat.le_succ _) (fun k d' hk hd' => ?_) fun e he het hel => ?_
        · rw [push_call, if_neg (show k ≠ (σ.setPc i c .afterSuper).nextCall from hk.ne)] at hd'
          exact ⟨d', hd', rfl⟩
        · exact ⟨e, by rw [push_call]; exact (if_neg (hnew he)).trans he, rfl, rfl, hel⟩
    · refine hL.setPc h hc hs hm.call_eq hm.nextCall_eq hm.sends_back fun n hn => ?_
      rcases (hm.found_back hn).2 with hf | ⟨hsearch, hfind⟩
      · exact ⟨(found_facts hf).2.1, hL.found i c n hc hf⟩
      · refine ⟨by rw [hsearch]; rfl, h.foundOk hM hfind fun hnm => ?_⟩
        refine hok i ?_ c hc hsearch n hfind hnm
        rw [hs]
        rfl

/-- What `dtable_for_class` promises: a look-up that has found an entry does not return its table to
    another thread before the `+initialize` method has returned, and for the thread that runs the
    method the lock is free. -/
structure LookUpSafe (H : Hierarchy) (σ : State) : Prop where
  waits : ∀ i c n d, σ.call i = some c → c.pc = .syncExit n → σ.call n.call = some d →
      d.pc.beforeReturn = true →
    d.thread = c.thread
  own : ∀ i c n d, σ.call i = some c → c.pc = .syncEnter n → σ.call n.call = some d → d.pc.listed = true →
    d.thread = c.thread → σ.Free H (.object c.cls) c.thread

/-- The holders of the lock of a class that is being initialised are of the thread that does so. -/
theorem LookUps.free (h : Safe H σ) (hL : LookUps H metaclass σ) {n : Node} {d : Call}
    (hc : σ.call i = some c)
    (hf : c.pc.found = some n) (hd : σ.call n.call = some d) (hl : d.pc.listed = true)
    (hmeta : ∀ x, metaclass (H.isa x) = true) :
    σ.Free H (.object c.cls) d.thread := by
  have hdlock : .object (H.isa d.cls) ∈ d.pc.locks H d.cls := by
    cases hp : d.pc <;> simp_all [Pc.listed, Pc.locks]
  obtain ⟨_, hok⟩ := hL.found i c n hc hf
  intro j _ e he heL
  cases hn : n.isMeta with
  | true =>
    rw [if_pos hn] at hok
    exact h.threads.excl _ j n.call e d he hd heL (by rw [← hok.2 d hd]; exact hdlock)
  | false =>
    rw [if_neg (by simp [hn])] at hok
    obtain ⟨d', hd', _, hdc, _⟩ := hok
    rw [hd] at hd'
    cases hd'
    -- the class is no metaclass, so only look-ups of it hold its lock
    have hcls : metaclass c.cls = false := by
      rw [← hdc]
      exact hL.classes n.call d hd (by cases hp : d.pc <;> simp_all [Pc.listed, Pc.sends])
    have hexit : e.cls = c.cls ∧ ∃ m, e.pc.found = some m := by
      cases hp : e.pc <;> simp only [hp, Pc.locks, List.mem_cons, List.not_mem_nil, or_false, reduceCtorEq,
        Lock.object.injEq, or_self] at heL
      case syncExit m => exact ⟨heL.symm, m, rfl⟩
      all_goals
        rw [heL, hmeta] at hcls
        cases hcls
    obtain ⟨hec, m, hm⟩ := hexit
    obtain ⟨_, hok'⟩ := hL.found j e m he hm
    cases hmm : m.isMeta with
    | true =>
      rw [if_pos hmm, hec, hcls] at hok'
      cases hok'.1
    | false =>
      rw [if_neg (by simp [hmm])] at hok'
      obtain ⟨d'', hd'', ht, hdc'', hl''⟩ := hok'
      by_cases hk : n.call = m.call
      · rw [← hk, hd] at hd''
        cases hd''
        exact ht.symm
      · exact absurd (hdc.trans (hec.symm.trans hdc''.symm))
          ((h.protocolSafe.distinct n.call m.call d d'' hk hd hd'' hl hl'').1)

/-- **`dtable_for_class` waits for `+initialize`**, in runs in which no thread finds the entry of a
    class that another thread is initialising. -/
theorem lookUp_waits (hM : Metaclasses H metaclass) {σ : State}
    (hrun : Runs (fun σ e σ' => EntryOk metaclass σ e ∧ Step H σ e σ') init σ) : LookUpSafe H σ := by
  let Inv : State → Prop := fun σ => Safe H σ ∧ LookUps H metaclass σ
  obtain ⟨h, hL⟩ : Inv σ := by
    refine hrun.invariant ?_ ?_
    · refine ⟨safe_init H, fun i c h => ?_, fun i c n h => ?_⟩ <;> cases h
    · rintro τ e τ' ⟨hs, hl⟩ ⟨hok, he⟩
      exact ⟨hs.step he, hl.step hM hs hok he⟩
  have hlisted : ∀ {pc : Pc}, pc.beforeReturn = true → pc.listed = true := fun {pc} h => by
    cases pc <;> simp_all [Pc.beforeReturn, Pc.listed]
  refine ⟨fun i c n d hc hp hd hb => ?_, fun i c n d hc hp hd hl ht => ?_⟩
  · have hfree := hL.free h hc (by rw [hp]; rfl) hd (hlisted hb) hM.isa
    exact (hfree.thread h.threads hc (by rw [hp]; simp [Pc.locks])).symm
  · rw [← ht]
    exact hL.free h hc (by rw [hp]; rfl) hd hl hM.isa

/-- A list of events that meet `EntryOk`. -/
def execOk (H : Hierarchy) (metaclass : Class → Bool) : State → List Event → Option State
  | σ, [] => some σ
  | σ, e :: es => if EntryOk metaclass σ e then (σ.exec H e).bind fun σ' => execOk H metaclass σ' es else none

theorem runs_of_execOk : ∀ (es : List Event) {σ σ' : State}, execOk H metaclass σ es = some σ' →
    Runs (fun σ e σ' => EntryOk metaclass σ e ∧ Step H σ e σ') σ σ'
  | [], σ, σ', h => by
    obtain rfl := Option.some.inj h
    exact Runs.refl σ
  | e :: es, σ, σ', h => by
    rw [execOk] at h
    split at h
    · next hok =>
      obtain ⟨τ, hτ, h⟩ := Option.bind_eq_some_iff.mp h
      exact (Runs.single (a := e) ⟨hok, hτ⟩).trans (runs_of_execOk es h)
    · cases h

end State

/-- Another thread looks the table of a class up, as far as it gets. -/
def lookUpMeanwhile (cls : Class) (steps : ℕ) : List Event :=
  intoInitialize ++ .lookUp 2 cls :: List.replicate steps (.step 2 ⟨0, 0, true⟩)

/-- A message to the class waits. -/
theorem lookUp_waits_class :
    State.LookUpSafe oneClass
    ((State.execOk oneClass (fun c => c = 1) init (lookUpMeanwhile 1 3)).get (by decide)) :=
  State.lookUp_waits (⟨fun _ => rfl, fun _ _ h => by cases h⟩ : Metaclasses oneClass fun c => c = 1)
    (State.runs_of_execOk _ (Option.some_get _).symm)

/-- A message to an instance of the class does not wait: the look-up holds the table while the
    `+initialize` method of another thread is running. -/
theorem lookUp_overtakes : ∃ σ, Runs (Step oneClass) init σ ∧ ¬ State.LookUpSafe oneClass σ := by
  refine ⟨(State.execList oneClass init (lookUpMeanwhile 0 4)).get (by decide),
    State.runs_of_execList _ (Option.some_get _).symm, fun h => ?_⟩
  have := h.waits 1 ⟨2, 0, .syncExit ⟨0, false⟩⟩ ⟨0, false⟩ ⟨1, 0, .running⟩ (by decide) rfl (by decide) rfl
  revert this
  decide

end Libobjc2.Dispatch.Initialize
