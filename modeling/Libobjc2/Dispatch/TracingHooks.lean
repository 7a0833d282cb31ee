import Libobjc2.Dispatch.SparseArrayFailures

/-!
# Registering a tracing hook (`src/dispatch/dtable.c`, lines 327–379)

A hook is set for an untyped selector and for each of its typed variants, one insert after the other, in
the sparse array of hooks. When an insert runs out of memory the call ends its mutation, gives back its
temporary array and reports the error, but the selectors that came before keep the new hook.

Results:
* `HookTable.insert`: an insert into the array of hooks sets one hook, or leaves the array as it was.
* `objcRegisterTracingHook_eq`: every exit balances the mutation epoch and frees the temporary array.
* `registersAtomically_iff`: the registration is atomic just when the selectors before the first failing
  insert had the hook already.
-/

namespace Libobjc2.Dispatch.TracingHooks

open Libobjc2.Common

/-! ## Model -/

/-- A selector; an untyped one has no types. -/
structure Selector where
  types : Option String
  index : ℕ
  deriving DecidableEq, Repr

inductive Errno where
  | success
  | einval
  | enomem
  | eagain
  deriving DecidableEq, Repr

/-- `heap` holds the nodes of `tracing_dtable`, which shares none with another table: it is never copied.
    `selectorArrays` are the temporary arrays of selectors that are not freed yet. -/
structure State where
  heap : Heap ℕ
  tracingDtable : ℕ
  mutationEpoch : BitVec 64
  mutationWriterLock : Bool
  selectorArrays : ℕ

/-- The arguments, and what the call finds: the typed variants at its two calls of
    `sel_copyTypedSelectors_np`, and whether there is memory for the temporary array. -/
structure Call where
  aSel : Option Selector
  aHook : Option ℕ
  registered : List Selector
  registeredLater : List Selector
  allocated : Bool

/-- `sel_copyTypedSelectors_np` (`selector_table.cc`, lines 624–655) with room for `count` selectors, which is
    not 0: those that are stored, and the number of those found. -/
def selCopyTypedSelectors (registered : List Selector) (count : ℕ) : List Selector × ℕ :=
  (registered.take count, registered.length)

/-- The insert of one hook after the other, to the first that fails (lines 347–355 and 360–367). -/
def insertHooks (tracingDtable : ℕ) (aHook : Option ℕ) : List Selector → Heap ℕ → Option (Bool × Heap ℕ)
  | [], h => some (true, h)
  | selector :: selectors, h => do
    let (inserted, h) ← sparseArrayInsert h tracingDtable selector.index aHook
    if !inserted then return (false, h)
    insertHooks tracingDtable aHook selectors h

namespace State

/-- `mosaic_objc_beginRuntimeMutation`, which does not return while another writer has the flag. -/
def beginRuntimeMutation (s : State) : Option State :=
  if s.mutationWriterLock then none
  else some { s with mutationWriterLock := true, mutationEpoch := s.mutationEpoch + 1 }

/-- `mosaic_objc_endRuntimeMutation`. -/
def endRuntimeMutation (s : State) : State :=
  { s with mutationEpoch := s.mutationEpoch + 1, mutationWriterLock := false }

/-- `calloc` and `free` of the temporary array. -/
def callocSelectors (s : State) : State := { s with selectorArrays := s.selectorArrays + 1 }
def freeSelectors (s : State) : Option State :=
  if s.selectorArrays = 0 then none else some { s with selectorArrays := s.selectorArrays - 1 }

/-- Lines 331–343: the selectors to go through and whether their array is a temporary one, or an error. -/
def copySelectors (s : State) (c : Call) (aSel : Selector) :
    Option ((Errno ⊕ List Selector × Bool) × State) :=
  if aSel.types.isSome then some (.inr ([], false), s)
  else
    let (stackBuffer, count) := selCopyTypedSelectors c.registered 16
    if count > 16 then
      if !c.allocated then some (.inl .enomem, s)
      else
        let s := s.callocSelectors
        let (selectors, actual) := selCopyTypedSelectors c.registeredLater count
        if actual > count then s.freeSelectors.map (.inl .eagain, ·)
        else some (.inr (selectors, true), s)
    else some (.inr (stackBuffer, false), s)

/-- Lines 344–374: the hooks are set within a mutation, that of `aSel` last. -/
def setHooks (s : State) (aHook : Option ℕ) (selectors : List Selector) (temporary : Bool) (aSel : Selector) :
    Option (Errno × State) := do
  let s ← s.beginRuntimeMutation
  let (inserted, heap) ← insertHooks s.tracingDtable aHook selectors s.heap
  let s := { s with heap := heap }
  if !inserted then
    let s := s.endRuntimeMutation
    return (.enomem, ← if temporary then s.freeSelectors else some s)
  let s ← if temporary then s.freeSelectors else some s
  let (inserted, heap) ← sparseArrayInsert s.heap s.tracingDtable aSel.index aHook
  let s := { s with heap := heap }
  if !inserted then return (.enomem, s.endRuntimeMutation)
  return (.success, s.endRuntimeMutation)

/-- `objc_registerTracingHook`, where tracing is supported. -/
def objcRegisterTracingHook (s : State) (c : Call) : Option (Errno × State) :=
  match c.aSel with
  | none => some (.einval, s)
  | some aSel => do
    match ← s.copySelectors c aSel with
    | (.inl error, s) => return (error, s)
    | (.inr (selectors, temporary), s) => s.setHooks c.aHook selectors temporary aSel

/-- `tracing_dtable` as `init_dispatch_tables` makes it (line 278), which aborts without memory. -/
def initDispatchTables (fails : ℕ → Bool) (dtableDepth : ℕ) : Option State := do
  let (root, h) ← sparseArrayNewWithDepth (Heap.initial fails) dtableDepth
  if root = null then none
  else return ⟨h, root, 0, false, 0⟩

/-- `objc2_tracing_hook_for_selector`. -/
def hookFor (s : State) (index : ℕ) : Option (Option ℕ) := sparseArrayLookup s.heap s.tracingDtable index

end State

/-! ## Specification -/

/-- The typed variants of `aSel` that are registered when the call runs; a typed selector has none. -/
def Call.variants (c : Call) (aSel : Selector) : List Selector :=
  if aSel.types.isSome then []
  else if c.registered.length ≤ 16 then c.registered
  else c.registered ++ c.registeredLater

/-- Typed variants are only added. -/
def Call.Grows (c : Call) : Prop := c.registered ⊆ c.registeredLater

/-- The call returns 0 and set all hooks, or returns an error and set none; the epoch counted a begin and
    an end or neither, the flag is free, and there are as many temporary arrays as before. -/
def RegistersAtomically (s : State) (c : Call) : Prop :=
  ∃ r s', s.objcRegisterTracingHook c = some (r, s') ∧
    (r = .success → ∃ aSel, c.aSel = some aSel ∧
      ∀ x ∈ aSel :: c.variants aSel, s'.hookFor x.index = some c.aHook) ∧
    (r ≠ .success → ∀ index, s'.hookFor index = s.hookFor index) ∧
    (s'.mutationEpoch = s.mutationEpoch ∨ s'.mutationEpoch = s.mutationEpoch + 2) ∧
    s'.mutationWriterLock = false ∧ s'.selectorArrays = s.selectorArrays

/-- The selectors that the call inserts the hook for, in order, unless it ends before. -/
def Call.toInsert (c : Call) : Option (List Selector) :=
  c.aSel.bind fun aSel =>
    if aSel.types.isSome then some [aSel]
    else if c.registered.length ≤ 16 then some (c.registered ++ [aSel])
    else if c.allocated ∧ c.registeredLater.length ≤ c.registered.length then
      some (c.registeredLater ++ [aSel])
    else none

/-- Before the first insert that fails are only selectors that have the hook already. -/
def KeepsHooks (s : State) (c : Call) : Prop :=
  ∀ before x after h h', c.toInsert = some (before ++ x :: after) →
    insertHooks s.tracingDtable c.aHook before s.heap = some (true, h) →
    sparseArrayInsert h s.tracingDtable x.index c.aHook = some (false, h') →
    ∀ y ∈ before, s.hookFor y.index = some c.aHook

/-! ## The array of hooks -/

/-- No node has two owners. -/
def Unshared (h : Heap ℕ) : Prop := ∀ p n, h.nodes p = some n → n.refCount ≤ 1

/-- The array at `root` reads like `t`, and it is the only owner of its nodes. -/
structure HookTable (h : Heap ℕ) (root : ℕ) (t : Table ℕ) : Prop where
  wf : WellFormed h (credit root) ∅
  root_ge : 5 ≤ root
  root : RootOk h root t
  unshared : Unshared h

/-- Between calls: `tracing_dtable` reads like `t`, and no writer has the flag. -/
structure Traced (s : State) (t : Table ℕ) : Prop where
  table : HookTable s.heap s.tracingDtable t
  unlocked : s.mutationWriterLock = false

section

variable {h h' : Heap ℕ} {root : ℕ} {t : Table ℕ}

theorem unshared_initial (fails : ℕ → Bool) : Unshared (Heap.initial fails) := by
  intro p n hn
  have hn : emptyNode p = some n := hn
  unfold emptyNode at hn
  split at hn <;> cases hn <;> exact Nat.zero_le 1

theorem Unshared.countsFit (hu : Unshared h) (l : ℕ) : CountsFit h l := fun q m _ hm _ => by
  have := hu q m hm
  omega

theorem Unshared.update (hu : Unshared h) {p : ℕ} {n : SparseArray ℕ} (hn : n.refCount ≤ 1)
    (hnodes : h'.nodes = Function.update h.nodes p (some n)) : Unshared h' := by
  intro q m hm
  rw [hnodes] at hm
  rcases eq_or_ne q p with rfl | hne
  · rw [Function.update_self, Option.some.injEq] at hm
    rwa [← hm]
  · rw [Function.update_of_ne hne] at hm
    exact hu q m hm

theorem Unshared.calloc (hu : Unshared h) {n : SparseArray ℕ} (hn : n.refCount ≤ 1) :
    Unshared (h.calloc n).2 := by
  unfold Heap.calloc
  split
  · exact hu
  · exact hu.update hn rfl

theorem Unshared.setData (hu : Unshared h) {p : ℕ} {i : Fin 256} {w : Word ℕ}
    (hmod : h.modify p (·.setData i w) = some h') : Unshared h' := by
  obtain ⟨n, hn, rfl⟩ := Option.map_eq_some_iff.mp hmod
  exact hu.update (n := n.setData i w) (hu p n hn) rfl

/-- Nothing is copied: a node that is published replaces a static one. -/
theorem Unshared.replacementFor (hu : Unshared h) {shift child r : ℕ} {publish : Bool}
    (hrep : replacementFor h shift child = some (r, publish, h')) :
    Unshared h' ∧ (publish = true → isEmptyChild child = true) := by
  unfold Dispatch.replacementFor at hrep
  split at hrep
  · next hempty =>
    obtain ⟨data, -, hcalloc⟩ := Option.bind_eq_some_iff.mp hrep
    simp only [Option.pure_def, Option.some.injEq, Prod.mk.injEq] at hcalloc
    obtain ⟨-, -, rfl⟩ := hcalloc
    exact ⟨hu.calloc le_rfl, fun _ => hempty⟩
  · obtain ⟨c, hc, hrest⟩ := Option.bind_eq_some_iff.mp hrep
    have hone := hu child c hc
    rw [if_neg (by omega)] at hrest
    simp only [Option.pure_def, Option.some.injEq, Prod.mk.injEq] at hrest
    obtain ⟨-, rfl, rfl⟩ := hrest
    exact ⟨hu, nofun⟩

/-- An insert that succeeds shares no node. -/
theorem Unshared.insertFuel : ∀ (fuel : ℕ) {h h' : Heap ℕ} {p index : ℕ} {value : Option ℕ}, Unshared h →
    sparseArrayInsertFuel fuel h p index value = some (true, h') → Unshared h' := by
  intro fuel
  induction fuel with
  | zero => intro h h' p index value _ heq; cases heq
  | succ fuel ih =>
    intro h h' p index value hu heq
    rw [sparseArrayInsertFuel] at heq
    split at heq
    · cases heq
    obtain ⟨n, hn, heq⟩ := Option.bind_eq_some_iff.mp heq
    split at heq
    · obtain ⟨h₁, hmod, heq⟩ := Option.bind_eq_some_iff.mp heq
      cases heq
      exact hu.setData hmod
    obtain ⟨child, -, heq⟩ := Option.bind_eq_some_iff.mp heq
    obtain ⟨⟨r, publish, h₁⟩, hrep, heq⟩ := Option.bind_eq_some_iff.mp heq
    obtain ⟨hu₁, hstatic⟩ := hu.replacementFor hrep
    dsimp only at heq
    split at heq
    · cases heq
    obtain ⟨⟨inserted, h₂⟩, hrec, heq⟩ := Option.bind_eq_some_iff.mp heq
    cases inserted with
    | false =>
      rw [if_pos (by rfl)] at heq
      split at heq
      · obtain ⟨h₃, -, heq⟩ := Option.bind_eq_some_iff.mp heq
        cases heq
      · cases heq
    | true =>
      have hu₂ := ih hu₁ hrec
      simp only [Bool.not_true, Bool.false_eq_true, if_false] at heq
      split at heq
      · next hpublish =>
        obtain ⟨h₃, hmod, heq⟩ := Option.bind_eq_some_iff.mp heq
        rw [if_pos (hstatic hpublish)] at heq
        cases heq
        exact hu₂.setData hmod
      · cases heq
        exact hu₂

theorem HookTable.live (ht : HookTable h root t) : ∃ n, h.nodes root = some n :=
  (ht.wf.live root (by rw [credit_self ht.root_ge]; exact Nat.one_pos)).2.2

theorem HookTable.lookup (ht : HookTable h root t) (index : ℕ) :
    sparseArrayLookup h root index = some (t.content (index % 2 ^ t.depth)) := by
  obtain ⟨l, hl, -, ⟨b, hb, hbs⟩, hwalk⟩ := ht.root.reads
  obtain ⟨n, hn, rfl⟩ := body_eq_some_iff.mp hb
  rw [sparseArrayLookup_eq hn hl hbs, hwalk]

/-- An insert that fails gives back what it made. -/
theorem HookTable.restored (ht : HookTable h root t) (hres : Restored h h') : HookTable h' root t := by
  have hbody : h'.body = h.body := by
    unfold Heap.body
    rw [hres.nodes]
  refine ⟨hres.wellFormed ht.wf, ht.root_ge, ?_, fun p n hn => ht.unshared p n (by rwa [hres.nodes] at hn)⟩
  refine ht.root.keep ht.wf.toShaped (W := ∅) (fun q b _ hq => by rwa [hbody]) (by simp) (by simp) ?_
  rintro ⟨q, b, i, hq, hi⟩
  exact ⟨q, b, i, by rwa [hbody] at hq, hi⟩

/-- **An insert sets one hook, or leaves the array as it was.** -/
theorem HookTable.insert (ht : HookTable h root t) (index : ℕ) (aHook : Option ℕ) :
    ∃ ok h', sparseArrayInsert h root index aHook = some (ok, h') ∧
      HookTable h' root (if ok then t.insert index aHook else t) := by
  obtain ⟨n, hn⟩ := ht.live
  obtain ⟨l, hl, hd, ⟨b, hb, hbs⟩, hwalk⟩ := ht.root.reads
  obtain rfl : b = n.body := Option.some.inj (hb.symm.trans (body_eq_some hn))
  obtain ⟨ok, h', W, heq, hins⟩ := sparseArrayInsertFuel_spec l 4 index aHook (by omega) ht.wf
      ht.root_ge hn hbs
    (ht.unshared.countsFit l)
  refine ⟨ok, h', heq, ?_⟩
  cases ok with
  | true =>
    refine ⟨hins.wf, ht.root_ge,
        ⟨⟨l, hl, hd, hins.self, found_content hd hwalk (hins.found rfl)⟩, fun href => ?_⟩,
      ht.unshared.insertFuel 4 heq⟩
    exact ht.root.top (hins.referenced root ht.root_ge (ht.wf.lt_next hb) href)
  | false =>
    have htree : Tree h l root := ⟨_, hb, ht.wf.treeBody l root _ hb hbs⟩
    rcases insertFuel_outcome l 4 index aHook (by omega) hl ht.wf.ready htree
      (fun p k hp hk _ => (ht.wf.counts p k hp (by simp) hk).2.1) with ⟨h₁, heq₁, -⟩ | ⟨h₁, heq₁, hres, -⟩
    · rw [heq] at heq₁
      cases heq₁
    · rw [heq] at heq₁
      cases heq₁
      exact ht.restored hres

end

/-! ## The loop -/

/-- The table with the hook for every selector of a list. -/
def hookAll (aHook : Option ℕ) (t : Table ℕ) (selectors : List Selector) : Table ℕ :=
  selectors.foldl (fun t x => t.insert x.index aHook) t

section

variable {h h' : Heap ℕ} {root : ℕ} {t : Table ℕ} {aHook : Option ℕ}

@[simp] theorem hookAll_depth (selectors : List Selector) : (hookAll aHook t selectors).depth = t.depth := by
  induction selectors generalizing t with
  | nil => rfl
  | cons x selectors ih => exact ih

theorem hookAll_content (selectors : List Selector) (j : ℕ) :
    (hookAll aHook t selectors).content j =
      if ∃ x ∈ selectors, x.index % 2 ^ t.depth = j then aHook else t.content j := by
  induction selectors generalizing t with
  | nil => simp [hookAll]
  | cons x selectors ih =>
    have hstep : (hookAll aHook t (x :: selectors)).content j = _ := ih (t := t.insert x.index aHook)
    rw [hstep]
    show (if ∃ y ∈ selectors, y.index % 2 ^ t.depth = j then aHook
      else Function.update t.content (x.index % 2 ^ t.depth) aHook j) = _
    by_cases hrest : ∃ y ∈ selectors, y.index % 2 ^ t.depth = j
    · obtain ⟨y, hy, hj⟩ := hrest
      rw [if_pos ⟨y, hy, hj⟩, if_pos ⟨y, List.mem_cons_of_mem _ hy, hj⟩]
    · rw [if_neg hrest]
      by_cases hx : x.index % 2 ^ t.depth = j
      · rw [← hx, Function.update_self, if_pos ⟨x, List.mem_cons_self .., rfl⟩]
      · rw [Function.update_of_ne (Ne.symm hx), if_neg]
        rintro ⟨y, hy, hj⟩
        rcases List.mem_cons.mp hy with rfl | hy
        · exact hx hj
        · exact hrest ⟨y, hy, hj⟩

/-- The selectors of the list have the hook. -/
theorem HookTable.hooked {selectors : List Selector} (ht : HookTable h root (hookAll aHook t selectors))
    {x : Selector} (hx : x ∈ selectors) : sparseArrayLookup h root x.index = some aHook := by
  rw [ht.lookup, hookAll_depth, hookAll_content, if_pos ⟨x, hx, rfl⟩]

/-- Hooks that were set already change no lookup. -/
theorem HookTable.unchanged {h₀ : Heap ℕ} (ht₀ : HookTable h₀ root t) {selectors : List Selector}
    (ht : HookTable h root (hookAll aHook t selectors))
    (hhad : ∀ x ∈ selectors, sparseArrayLookup h₀ root x.index = some aHook) (index : ℕ) :
    sparseArrayLookup h root index = sparseArrayLookup h₀ root index := by
  rw [ht.lookup, hookAll_depth, hookAll_content, ht₀.lookup]
  split
  · next hset =>
    obtain ⟨x, hx, hidx⟩ := hset
    rw [← hidx, ← ht₀.lookup, hhad x hx]
  · rfl

theorem insertHooks_append (before after : List Selector) (h : Heap ℕ) :
    insertHooks root aHook (before ++ after) h = (insertHooks root aHook before h).bind fun r =>
      if r.1 then insertHooks root aHook after r.2 else some (false, r.2) := by
  induction before generalizing h with
  | nil => rfl
  | cons x before ih =>
    simp only [List.cons_append, insertHooks, Option.bind_eq_bind, Option.bind_assoc]
    refine Option.bind_congr fun ⟨inserted, h₁⟩ _ => ?_
    cases inserted with
    | true => exact ih h₁
    | false => rfl

theorem insertHooks_singleton (x : Selector) (h : Heap ℕ) :
    insertHooks root aHook [x] h = sparseArrayInsert h root x.index aHook := by
  rw [insertHooks]
  cases sparseArrayInsert h root x.index aHook with
  | none => rfl
  | some r =>
    obtain ⟨inserted, h₁⟩ := r
    cases inserted <;> rfl

/-- The loop sets every hook, or those before the first insert that fails. -/
theorem HookTable.insertHooks_outcome (ht : HookTable h root t) (aHook : Option ℕ)
    (selectors : List Selector) :
    (∃ h', insertHooks root aHook selectors h = some (true, h') ∧
      HookTable h' root (hookAll aHook t selectors)) ∨
    ∃ before x after h₁ h', selectors = before ++ x :: after ∧
      insertHooks root aHook before h = some (true, h₁) ∧
      sparseArrayInsert h₁ root x.index aHook = some (false, h') ∧
      insertHooks root aHook selectors h = some (false, h') ∧ HookTable h' root (hookAll aHook t before) := by
  induction selectors generalizing h t with
  | nil => exact .inl ⟨h, rfl, ht⟩
  | cons x selectors ih =>
    obtain ⟨ok, h₁, heq, ht₁⟩ := ht.insert x.index aHook
    cases ok with
    | false => exact .inr ⟨[], x, selectors, h, h₁, rfl, rfl, heq, by rw [insertHooks, heq]; rfl, ht₁⟩
    | true =>
      have hstep : ∀ rest, insertHooks root aHook (x :: rest) h =
          insertHooks root aHook rest h₁ := fun rest => by
        rw [insertHooks, heq]
        rfl
      rcases ih ht₁ with ⟨h', hall, ht'⟩ | ⟨before, y, after, h₂, h', rfl, hbefore, hfail, hall, ht'⟩
      · exact .inl ⟨h', (hstep _).trans hall, ht'⟩
      · exact .inr ⟨x :: before, y, after, h₂, h', rfl, (hstep _).trans hbefore, hfail,
            (hstep _).trans hall, ht'⟩

end

/-! ## The exits -/

section

variable {s : State} {c : Call}

/-- What a mutation that replaces the nodes leaves. -/
def State.mutated (s : State) (r : Bool × Heap ℕ) : Errno × State :=
  (if r.1 then .success else .enomem, { s with heap := r.2, mutationEpoch := s.mutationEpoch + 2 })

theorem setHooks_eq (hfree : s.mutationWriterLock = false) (aHook : Option ℕ) (selectors : List Selector)
    (aSel : Selector) :
    s.setHooks aHook selectors false aSel =
        (insertHooks s.tracingDtable aHook (selectors ++ [aSel]) s.heap).map s.mutated ∧
      s.callocSelectors.setHooks aHook selectors true aSel =
        (insertHooks s.tracingDtable aHook (selectors ++ [aSel]) s.heap).map s.mutated := by
  obtain ⟨heap, root, epoch, lock, arrays⟩ := s
  obtain rfl : lock = false := hfree
  have hepoch : epoch + 1#64 + 1#64 = epoch + 2#64 := by rw [BitVec.add_assoc]; rfl
  rw [insertHooks_append]
  simp only [insertHooks_singleton]
  constructor
  all_goals
    simp only [State.setHooks, State.beginRuntimeMutation, State.callocSelectors,
      Bool.false_eq_true, if_false,
      Option.bind_eq_bind, Option.bind_some]
    cases insertHooks root aHook selectors heap with
    | none => rfl
    | some r =>
      obtain ⟨inserted, h₁⟩ := r
      cases inserted with
      | false => simp [State.endRuntimeMutation, State.freeSelectors, State.mutated, hepoch]
      | true =>
        simp only [State.freeSelectors, Option.bind_some, Bool.not_true, Bool.false_eq_true,
          if_false, if_true]
        cases hins : sparseArrayInsert h₁ root aSel.index aHook with
        | none => simp [hins]
        | some r =>
          obtain ⟨inserted, h₂⟩ := r
          cases inserted <;> simp [hins, State.endRuntimeMutation, State.mutated, hepoch]

theorem copySelectors_eq (aSel : Selector) : s.copySelectors c aSel =
    if aSel.types.isSome then some (.inr ([], false), s)
    else if c.registered.length > 16 then
      if !c.allocated then some (.inl .enomem, s)
      else if c.registeredLater.length > c.registered.length then some (.inl .eagain, s)
      else some (.inr (c.registeredLater.take c.registered.length, true), s.callocSelectors)
    else some (.inr (c.registered.take 16, false), s) := rfl

/-- **Every exit gives back the flag and the temporary array**, and what the call does to the hooks is the
loop over the selectors of `toInsert`. -/
theorem objcRegisterTracingHook_eq (hfree : s.mutationWriterLock = false) :
    (∃ error, error ≠ .success ∧ c.toInsert = none ∧ s.objcRegisterTracingHook c = some (error, s)) ∨
    ∃ selectors, c.toInsert = some selectors ∧ s.objcRegisterTracingHook c =
      (insertHooks s.tracingDtable c.aHook selectors s.heap).map s.mutated := by
  obtain ⟨aSel, aHook, registered, registeredLater, allocated⟩ := c
  cases aSel with
  | none => exact .inl ⟨.einval, by decide, rfl, rfl⟩
  | some aSel =>
    simp only [State.objcRegisterTracingHook, copySelectors_eq, Call.toInsert, Option.bind_some]
    by_cases htyped : aSel.types.isSome = true
    · rw [if_pos htyped, if_pos htyped]
      exact .inr ⟨[aSel], rfl, (setHooks_eq hfree aHook [] aSel).1⟩
    rw [if_neg htyped, if_neg htyped]
    by_cases hfew : registered.length ≤ 16
    · rw [if_pos hfew, if_neg (show ¬ registered.length > 16 by omega), List.take_of_length_le hfew]
      exact .inr ⟨registered ++ [aSel], rfl, (setHooks_eq hfree aHook registered aSel).1⟩
    have hmany : registered.length > 16 := by omega
    rw [if_neg hfew, if_pos hmany]
    cases allocated with
    | false => exact .inl ⟨.enomem, by decide, by simp, rfl⟩
    | true =>
      by_cases hmore : registeredLater.length > registered.length
      · refine .inl ⟨.eagain, by decide, by simp [hmore], ?_⟩
        rw [if_neg (show ¬ (!true) = true by decide), if_pos hmore]
        rfl
      · refine .inr ⟨registeredLater ++ [aSel], if_pos ⟨rfl, by omega⟩, ?_⟩
        rw [if_neg (show ¬ (!true) = true by decide), if_neg hmore,
          List.take_of_length_le (show registeredLater.length ≤ registered.length by omega)]
        exact (setHooks_eq hfree aHook registeredLater aSel).2

end

/-! ## Reachable states -/

/-- One call that returns. -/
def State.Registers (s : State) (c : Call) (s' : State) : Prop := ∃ r, s.objcRegisterTracingHook c =
    some (r, s')

/-- The array of hooks is empty at first. -/
theorem traced_initDispatchTables {fails : ℕ → Bool} {dtableDepth : ℕ} {s : State}
    (hvalid : validDepth dtableDepth = true)
    (hinit : State.initDispatchTables fails dtableDepth = some s) :
    Traced s ⟨dtableDepth, fun _ => none⟩ := by
  obtain ⟨l, hl, rfl⟩ : ∃ l ≤ 3, dtableDepth = 8 * (l + 1) := by
    simp only [validDepth, Bool.and_eq_true, decide_eq_true_eq] at hvalid
    exact ⟨dtableDepth / 8 - 1, by omega, by omega⟩
  have hw : WellFormed (Heap.initial fails : Heap ℕ) (fun _ => 0) ∅ := wellFormed_initial fails
  obtain ⟨d, hdata, -⟩ := initPointers_spec hw.toShaped hl
  have hdepth : 8 * (l + 1) - 8 = 8 * l := by omega
  simp only [State.initDispatchTables, sparseArrayNewWithDepth, hvalid, Bool.not_true,
    Bool.false_eq_true, if_false,
    hdepth, hdata, Option.bind_eq_bind, Option.bind_some, Option.pure_def] at hinit
  cases hf : fails 5 with
  | true =>
    have hcalloc : (Heap.initial fails : Heap ℕ).calloc ⟨8 * l, 1, d⟩ = (null, _) := if_pos hf
    rw [hcalloc] at hinit
    cases hinit
  | false =>
    obtain ⟨h₁, hcalloc, hw₁, -, -, hbody, hold, hstatic, hreads⟩ := hw.calloc_empty hl hdata hf
    rw [hcalloc] at hinit
    cases hinit
    have hcredit : (fun q => 0 + credit (Heap.initial fails : Heap ℕ).next q) = credit 5 :=
      funext fun q => Nat.zero_add _
    refine ⟨⟨hcredit ▸ hw₁, le_rfl,
        ⟨⟨l, hl, rfl, ⟨_, by rw [hbody, Function.update_self], rfl⟩, hreads⟩, ?_⟩, ?_⟩, rfl⟩
    · rintro ⟨p, b, i, hp, hi⟩
      rw [hbody] at hp
      rcases eq_or_ne p 5 with rfl | hne
      · cases (Function.update_self ..).symm.trans hp
        exact absurd (hstatic i 5 hi) (Nat.lt_irrefl 5)
      · rw [show (Heap.initial fails : Heap ℕ).next = 5 from rfl, Function.update_of_ne hne] at hp
        exact hw.toShaped.not_referenced_next ⟨p, b, i, hp, hi⟩
    · have := (unshared_initial fails).calloc (n := ⟨8 * l, 1, d⟩) le_rfl
      rwa [hcalloc] at this

theorem traced_registers {s s' : State} {t : Table ℕ} {c : Call} (hs : Traced s t)
    (hcall : s.Registers c s') :
    ∃ t', Traced s' t' := by
  obtain ⟨r, hcall⟩ := hcall
  rcases objcRegisterTracingHook_eq (c := c) hs.unlocked with ⟨error, -, -, heq⟩ | ⟨selectors, -, heq⟩
  · rw [hcall] at heq
    cases heq
    exact ⟨t, hs⟩
  · rcases hs.table.insertHooks_outcome c.aHook selectors with
      ⟨h', hloop, ht'⟩ | ⟨before, _, _, _, h', -, -, -, hloop, ht'⟩
    all_goals
      rw [hcall, hloop] at heq
      cases heq
      exact ⟨_, ht', hs.unlocked⟩

/-- In every run the array of hooks stays one. -/
theorem traced_runs {s s' : State} {t : Table ℕ} (hs : Traced s t) (hrun : Runs State.Registers s s') :
    ∃ t', Traced s' t' := by
  refine @Runs.invariant _ _ _ (fun u => ∃ t, Traced u t) _ _ hrun ⟨t, hs⟩ fun u c u' hu hcall => ?_
  obtain ⟨t', hu⟩ := hu
  exact traced_registers hu hcall

/-! ## Atomic registrations -/

/-- The list that is inserted has the selector and every variant. -/
theorem mem_toInsert {c : Call} (hgrows : c.Grows) {selectors : List Selector}
    (hinsert : c.toInsert = some selectors) :
    ∃ aSel, c.aSel = some aSel ∧ ∀ x ∈ aSel :: c.variants aSel, x ∈ selectors := by
  obtain ⟨aSel, hsel, hinsert⟩ := Option.bind_eq_some_iff.mp hinsert
  refine ⟨aSel, hsel, fun x hx => ?_⟩
  unfold Call.variants at hx
  split at hinsert
  · next htyped =>
    rw [if_pos htyped] at hx
    rwa [← Option.some.inj hinsert]
  next htyped =>
  rw [if_neg htyped] at hx
  split at hinsert
  · next hfew =>
    rw [if_pos hfew] at hx
    rw [← Option.some.inj hinsert]
    simpa [or_comm] using hx
  next hfew =>
  rw [if_neg hfew] at hx
  split at hinsert
  · rw [← Option.some.inj hinsert]
    rcases List.mem_cons.mp hx with rfl | hx
    · exact List.mem_append_right _ (List.mem_singleton_self _)
    · rcases List.mem_append.mp hx with hx | hx
      · exact List.mem_append_left _ (hgrows hx)
      · exact List.mem_append_left _ hx
  · cases hinsert

/-- What a loop that fails in the middle leaves. -/
theorem HookTable.insertHooks_fails {h h₁ h' : Heap ℕ} {root : ℕ} {t : Table ℕ} {aHook : Option ℕ}
    (ht : HookTable h root t) {before : List Selector} {x : Selector} (after : List Selector)
    (hbefore : insertHooks root aHook before h = some (true, h₁))
    (hfail : sparseArrayInsert h₁ root x.index aHook = some (false, h')) :
    insertHooks root aHook (before ++ x :: after) h = some (false, h') ∧
      HookTable h' root (hookAll aHook t before) := by
  constructor
  · rw [insertHooks_append, hbefore, Option.bind_some, if_pos rfl, insertHooks, hfail]
    rfl
  · rcases ht.insertHooks_outcome aHook before with ⟨h₂, heq, ht₂⟩ | ⟨_, _, _, _,
        h₂, -, -, -, heq, -⟩
    · obtain rfl : h₁ = h₂ := by simpa [hbefore] using heq
      obtain ⟨ok, h₃, heq, ht₃⟩ := ht₂.insert x.index aHook
      obtain ⟨rfl, rfl⟩ : false = ok ∧ h' = h₃ := by simpa [hfail] using heq
      exact ht₃
    · rw [hbefore] at heq
      cases heq

/-- **The registration is atomic just when it keeps the hooks it set.** The selectors before the first insert
that fails must have the hook already. -/
theorem registersAtomically_iff {s : State} {t : Table ℕ} (hs : Traced s t) {c : Call} (hgrows : c.Grows) :
    RegistersAtomically s c ↔ KeepsHooks s c := by
  obtain ⟨ht, hfree⟩ := hs
  rcases objcRegisterTracingHook_eq (c := c) hfree with ⟨error, herror, hnone, hcall⟩ | ⟨selectors,
      hinsert, hcall⟩
  · refine iff_of_true ⟨error, s, hcall, fun h => absurd h herror, fun _ _ => rfl, .inl rfl, hfree, rfl⟩ ?_
    intro before x after h h' hsome
    rw [hnone] at hsome
    cases hsome
  constructor
  · rintro ⟨r, s', hcall', -, hfailed, -⟩ before x after h h' hsome hbefore hfail y hy
    obtain rfl : selectors = before ++ x :: after := Option.some.inj (hinsert.symm.trans hsome)
    obtain ⟨hloop, ht'⟩ := ht.insertHooks_fails after hbefore hfail
    rw [hcall', hloop, Option.map_some, Option.some.injEq] at hcall
    cases hcall
    exact (hfailed (show Errno.enomem ≠ .success by decide) y.index).symm.trans (ht'.hooked hy)
  · intro hkeeps
    rcases ht.insertHooks_outcome c.aHook selectors with
      ⟨h', hloop, ht'⟩ | ⟨before, x, after, h₁, h', hsplit, hbefore, hfail, hloop, ht'⟩
    · rw [hloop] at hcall
      obtain ⟨aSel, hsel, hmem⟩ := mem_toInsert hgrows hinsert
      exact ⟨.success, _, hcall, fun _ => ⟨aSel, hsel, fun x hx => ht'.hooked (hmem x hx)⟩,
        fun h => absurd rfl h, .inr rfl, hfree, rfl⟩
    · rw [hloop] at hcall
      rw [hsplit] at hinsert
      exact ⟨.enomem, _, hcall, nofun,
        fun _ => ht.unchanged ht' (hkeeps before x after h₁ h' hinsert hbefore hfail), .inr rfl, hfree, rfl⟩

/-- An untyped selector with one typed variant, far enough from it for a leaf of its own. -/
def oneVariant : Call := ⟨some ⟨none, 256⟩, some 9, [⟨some "v@:", 1⟩], [⟨some "v@:", 1⟩], true⟩

/-- There is no memory for the node of the second insert. -/
def outOfMemory : Option State := State.initDispatchTables (fun a => decide (a = 7)) 16

theorem traced_outOfMemory : outOfMemory = some (outOfMemory.get rfl) ∧
    Traced (outOfMemory.get rfl) ⟨16, fun _ => none⟩ := by
  have hinit : outOfMemory = some (outOfMemory.get rfl) := rfl
  exact ⟨hinit, traced_initDispatchTables (show validDepth 16 = true by decide) hinit⟩

theorem registersAtomically_iff_oneVariant :
    RegistersAtomically (outOfMemory.get rfl) oneVariant ↔ KeepsHooks (outOfMemory.get rfl) oneVariant :=
  registersAtomically_iff traced_outOfMemory.2 (List.Subset.refl _)

/-- The second insert fails, and the hook of the first stays. -/
theorem register_keepsFirst :
    ¬ ∀ (s : State) (t : Table ℕ) (c : Call), Traced s t → c.Grows → RegistersAtomically s c := by
  intro hall
  obtain ⟨hinit, hs⟩ := traced_outOfMemory
  obtain ⟨r, s', hcall, -, hfailed, -⟩ := hall _ _ oneVariant hs (List.Subset.refl _)
  have hreturns : (outOfMemory.bind (·.objcRegisterTracingHook oneVariant)).map
      (fun r => (r.1, r.2.hookFor 1)) = some (.enomem, some (some 9)) := rfl
  have hbefore : (outOfMemory.get rfl).hookFor 1 = some none := rfl
  rw [hinit, Option.bind_some, hcall] at hreturns
  simp only [Option.map_some, Option.some.injEq, Prod.mk.injEq] at hreturns
  obtain ⟨rfl, hhook⟩ := hreturns
  rw [hfailed (by decide) 1, hbefore] at hhook
  cases hhook

end Libobjc2.Dispatch.TracingHooks
