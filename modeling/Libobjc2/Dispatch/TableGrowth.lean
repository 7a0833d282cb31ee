import Libobjc2.Dispatch.Classes
import Libobjc2.Dispatch.SparseArrayRuns

/-!
# Growing the dispatch tables

When more selectors are registered than the tables have indices, `objc_resize_dtables`
(src/dispatch/dtable.c, lines 697–759) replaces the uninstalled table, the tables in the look-aside
list of the classes inside `+initialize`, and the tables of the classes in the class table and of
their metaclasses by deeper ones.

A class that has no table yet points to the uninstalled table. Tables are at addresses of a heap, and
what is at an address is a `Table` as sparse arrays are to their owners. Allocations succeed.
`create_dtable_for_class` has the table that it makes in a local variable, and so has
`objc_send_initialize` until it stores the table in the class or in the look-aside list.

Results:
* `walk_spec`: the loop over the class table, class by class.
* `resize_reaches_iff`: the growth reaches every table exactly if the class table leads to all classes,
  no table is being made and metaclasses are uninstalled with their classes.
* `growth_misses_pair`: a class pair that is not registered yet.
-/

namespace Libobjc2.Dispatch.TableGrowth

open Libobjc2.Common

/-! ## Model -/

/-- The value at an index, of which a table looks at the low bits only. -/
def lookup (t : Table MethodId) (index : ℕ) : Option MethodId := t.content (index % 2 ^ t.depth)

/-- The classes and their tables.
    * `alive`: the class was not disposed of; `duplicate`: `objc_class_flag_duplicate`;
    * `classTable`: the class table, in the order of its enumeration;
    * `temporary`: `temporary_dtables`; `locals`: the tables of `create_dtable_for_class` and
      `objc_send_initialize` that are stored nowhere yet, with their classes. -/
structure Machine where
  heap : ℕ → Table MethodId
  next : ℕ
  uninstalled : ℕ
  depth : ℕ
  classCount : ℕ
  alive : Class → Bool
  isMeta : Class → Bool
  duplicate : Class → Bool
  superClass : Class → Option Class
  isa : Class → Class
  dtable : Class → ℕ
  classTable : List Class
  temporary : List (Class × ℕ)
  locals : List (Class × ℕ)

/-- After `init_dispatch_tables`; address 0 is NULL. -/
def Machine.start : Machine where
  heap := fun _ => ⟨8, fun _ => none⟩
  next := 2
  uninstalled := 1
  depth := 8
  classCount := 0
  alive := fun _ => false
  isMeta := fun _ => false
  duplicate := fun _ => false
  superClass := fun _ => none
  isa := id
  dtable := fun _ => 1
  classTable := []
  temporary := []
  locals := []

/-- `dtable_depth_for_size` (lines 702–710). -/
def dtableDepthForSize : ℕ → ℕ → ℕ → ℕ
  | 0, depth, _ => depth
  | fuel + 1, depth, size =>
      if depth < 32 ∧ 2 ^ depth < size then dtableDepthForSize fuel (depth + 8) size else depth

/-- `expand_dtable_or_abort` (lines 712–717): the new table; `none` where the source aborts. -/
def expandDtable (M : Machine) (dtable targetDepth : ℕ) : Option (ℕ × Machine) :=
  if dtable = null ∨ validDepth targetDepth = false ∨ targetDepth < (M.heap dtable).depth then none
  else if targetDepth = (M.heap dtable).depth then some (dtable, M)
  else some (M.next, { M with
    heap := Function.update M.heap M.next ((M.heap dtable).expand targetDepth)
    next := M.next + 1 })

/-- The loop over `temporary_dtables`. -/
def expandTemporary (targetDepth : ℕ) : List (Class × ℕ) → Machine → Option (List (Class × ℕ) × Machine)
  | [], M => some ([], M)
  | (owner, dtable) :: es, M => do
    let (dtable, M) ← expandDtable M dtable targetDepth
    let (es, M) ← expandTemporary targetDepth es M
    return ((owner, dtable) :: es, M)

def Machine.setDtable (M : Machine) (cls : Class) (dtable : ℕ) : Machine :=
  { M with dtable := Function.update M.dtable cls dtable }

/-- The loop over the class table, for one class; the depth of a table stands for its `shift`. -/
def walkStep (old oldDepth targetDepth : ℕ) (M : Machine) (cls : Class) : Option Machine :=
  if M.dtable cls = old then some ((M.setDtable cls M.uninstalled).setDtable (M.isa cls) M.uninstalled)
  else if M.dtable cls ≠ null ∧ (M.heap (M.dtable cls)).depth = oldDepth then do
    let (dtable, M) ← expandDtable M (M.dtable cls) targetDepth
    let M := M.setDtable cls dtable
    let (dtable, M) ← expandDtable M (M.dtable (M.isa cls)) targetDepth
    return M.setDtable (M.isa cls) dtable
  else some M

/-- `objc_resize_dtables` (lines 719–759), whose argument is a `uint32_t`. -/
def resizeDtables (M : Machine) (newSize : ℕ) : Option Machine :=
  let newSize := newSize % 2 ^ 32
  if newSize ≤ 2 ^ M.depth then some M
  else do
    let targetDepth := dtableDepthForSize 32 M.depth newSize
    let oldDepth := (M.heap M.uninstalled).depth
    let old := M.uninstalled
    let (uninstalled, M) ← expandDtable M M.uninstalled targetDepth
    let M := { M with uninstalled }
    let (temporary, M) ← expandTemporary targetDepth M.temporary M
    let M := { M with temporary }
    let M ← M.classTable.foldlM (walkStep old oldDepth targetDepth) M
    return { M with depth := targetDepth }

/-- `dtable_for_class` (dtable.h, lines 60–98). -/
def dtableForClass (M : Machine) (cls : Class) : ℕ :=
  if M.dtable cls ≠ M.uninstalled then M.dtable cls
  else (M.temporary.find? fun e => e.1 = cls).elim M.uninstalled Prod.snd

/-- The table that `create_dtable_for_class` starts with (lines 610–632); `none` where it aborts. -/
def newDtable (M : Machine) (cls : Class) : Option (Table MethodId) :=
  match M.superClass cls with
  | none => some ⟨M.depth, fun _ => none⟩
  | some super =>
    if dtableForClass M super ≠ M.uninstalled then some (M.heap (dtableForClass M super))
    -- the metaclass of a root class is below the root class, whose table is being made, too
    else if M.isa super = cls then (M.locals.find? fun e => e.1 = super).map fun e => M.heap e.2
    else none

/-- A class pair comes into being. -/
def newPair (M : Machine) (super : Option Class) : Machine :=
  let cls := M.classCount
  let metaclass := cls + 1
  { M with
    classCount := cls + 2
    alive := Function.update (Function.update M.alive cls true) metaclass true
    isMeta := Function.update (Function.update M.isMeta cls false) metaclass true
    duplicate := Function.update (Function.update M.duplicate cls false) metaclass false
    superClass := Function.update (Function.update M.superClass cls super) metaclass
        (some (super.elim cls M.isa))
    isa := Function.update (Function.update M.isa cls metaclass) metaclass
        (super.elim metaclass fun s => M.isa (M.isa s))
    dtable := Function.update (Function.update M.dtable cls M.uninstalled) metaclass M.uninstalled }

/-- A class that has its metaclass from another one: a duplicate (runtime.c, lines 1025–1066) or a hidden
    class (associate.mm, lines 272–299). -/
def newSharing (M : Machine) (super : Option Class) (isa : Class) (duplicate : Bool) : Machine :=
  let cls := M.classCount
  { M with
    classCount := cls + 1
    alive := Function.update M.alive cls true
    isMeta := Function.update M.isMeta cls false
    duplicate := Function.update M.duplicate cls duplicate
    superClass := Function.update M.superClass cls super
    isa := Function.update M.isa cls isa
    dtable := Function.update M.dtable cls M.uninstalled }

inductive Op where
  | allocateClassPair (super : Option Class)
  | loadClass (super : Option Class)
  | registerClassPair (cls : Class)
  | duplicateClass (original : Class)
  | hiddenClass (super : Class)
  | disposeClassPair (cls : Class)
  | deallocHiddenClass (cls : Class)
  | createDtable (cls : Class)
  | installDtable (cls : Class)
  | beginInitialize (cls : Class)
  | endInitialize (cls : Class)
  | insert (dtable index : ℕ) (method : Option MethodId)
  | rehash (classTable : List Class)
  | resize (newSize : ℕ)

/-- The local table of a class. -/
def Machine.localOf (M : Machine) (cls : Class) : Option ℕ := (M.locals.find? fun e => e.1 = cls).map Prod.snd

/-- The table of a class in the look-aside list. -/
def Machine.temporaryOf (M : Machine) (cls : Class) :
    Option ℕ := (M.temporary.find? fun e => e.1 = cls).map Prod.snd

def without (es : List (Class × ℕ)) (cls : Class) : List (Class × ℕ) := es.filter fun e => e.1 ≠ cls

/-- One step. A selector can be registered, and the tables grow, while tables are local. -/
def next (M : Machine) : Op → Machine
  | .allocateClassPair super => newPair M super
  | .loadClass super => { newPair M super with classTable := M.classCount :: M.classTable }
  | .registerClassPair cls => { M with classTable := cls :: M.classTable }
  | .duplicateClass original =>
    { newSharing M (M.superClass original) (M.isa original) true with classTable := M.classCount :: M.classTable }
  | .hiddenClass super => newSharing M (some super) (M.isa super) false
  | .disposeClassPair cls =>
    let alive := Function.update M.alive cls false
    { M with
      alive := if M.duplicate cls then alive else Function.update alive (M.isa cls) false
      classTable := M.classTable.filter fun c => c ≠ cls }
  | .deallocHiddenClass cls => { M with alive := Function.update M.alive cls false }
  | .createDtable cls => (newDtable M cls).elim M fun t =>
    { M with
      heap := Function.update M.heap M.next t
      next := M.next + 1
      locals := (cls, M.next) :: M.locals }
  | .installDtable cls => (M.localOf cls).elim M fun dtable =>
    { M.setDtable cls dtable with locals := without M.locals cls }
  | .beginInitialize cls =>
      (M.localOf cls).elim M fun dtable => (M.localOf (M.isa cls)).elim M fun metaDtable =>
    { M with
      temporary := (M.isa cls, metaDtable) :: (cls, dtable) :: M.temporary
      locals := without (without M.locals cls) (M.isa cls) }
  | .endInitialize cls =>
      (M.temporaryOf cls).elim M fun dtable => (M.temporaryOf (M.isa cls)).elim M fun metaDtable =>
    { (M.setDtable (M.isa cls) metaDtable).setDtable cls dtable with
      temporary := without (without M.temporary cls) (M.isa cls) }
  | .insert dtable index method =>
    { M with heap := Function.update M.heap dtable ((M.heap dtable).insert index method) }
  | .rehash classTable => { M with classTable }
  | .resize newSize => (resizeDtables M newSize).getD M

/-- A table that something in the runtime points to. -/
def Held (M : Machine) (dtable : ℕ) : Prop :=
  dtable = M.uninstalled ∨ (∃ c < M.classCount, M.alive c ∧ M.dtable c = dtable) ∨
    (∃ e ∈ M.temporary, e.2 = dtable) ∨ ∃ e ∈ M.locals, e.2 = dtable

instance (M : Machine) (dtable : ℕ) : Decidable (Held M dtable) := inferInstanceAs (Decidable (_ ∨ _ ∨ _ ∨ _))

/-- No table of the class is being made or is in the look-aside list. -/
def Idle (M : Machine) (cls : Class) : Prop := M.localOf cls = none ∧ M.temporaryOf cls = none

instance (M : Machine) (cls : Class) : Decidable (Idle M cls) := inferInstanceAs (Decidable (_ ∧ _))

/-- What a program and the runtime can do. Classes are disposed of when no other class refers to them. -/
def enabled (M : Machine) : Op → Prop
  | .allocateClassPair super => ∀ s ∈ super, M.alive s ∧ M.isMeta s = false
  | .loadClass super => ∀ s ∈ super, M.alive s ∧ M.isMeta s = false
  | .registerClassPair cls => M.alive cls ∧ M.isMeta cls = false ∧ cls ∉ M.classTable
  | .duplicateClass original => original ∈ M.classTable
  | .hiddenClass super => M.alive super ∧ M.isMeta super = false
  | .disposeClassPair cls =>
    M.alive cls ∧ M.isMeta cls = false ∧ Idle M cls ∧ Idle M (M.isa cls) ∧
      ∀ c ∈ List.range M.classCount, M.alive c → c ≠ cls → M.duplicate cls = true ∨ c ≠ M.isa cls →
        M.superClass c ≠ some cls ∧
          (M.duplicate cls = false → M.superClass c ≠ some (M.isa cls) ∧ M.isa c ≠ M.isa cls)
  | .deallocHiddenClass cls =>
    M.alive cls ∧ M.isMeta cls = false ∧ Idle M cls ∧ cls ∉ M.classTable ∧
      ∀ c ∈ List.range M.classCount, M.alive c → M.superClass c ≠ some cls
  | .createDtable cls => M.alive cls ∧ M.dtable cls = M.uninstalled ∧ Idle M cls ∧ (newDtable M cls).isSome
  | .installDtable cls => M.alive cls ∧ (M.localOf cls).isSome
  | .beginInitialize cls => M.alive cls ∧ (M.localOf cls).isSome ∧ (M.localOf (M.isa cls)).isSome
  | .endInitialize cls => M.alive cls ∧ (M.temporaryOf cls).isSome ∧ (M.temporaryOf (M.isa cls)).isSome
  | .insert dtable _ _ => Held M dtable ∧ dtable ≠ M.uninstalled
  | .rehash classTable => classTable.Perm M.classTable
  | .resize _ => True

instance (M : Machine) (op : Op) : Decidable (enabled M op) := by
  cases op <;> unfold enabled <;> infer_instance

/-! ## Specification -/

/-- The table at `p'` has the new depth, and the values of the table at `p` at all old indices. -/
def Carries (M M' : Machine) (p p' : ℕ) : Prop :=
  (M'.heap p').depth = M'.depth ∧ ∀ i < 2 ^ M.depth, lookup (M'.heap p') i = lookup (M.heap p) i

/-- What growing to `newSize` indices is for. -/
structure Grown (M M' : Machine) (newSize : ℕ) : Prop where
  deeper : M.depth < M'.depth
  size_le : newSize ≤ 2 ^ M'.depth
  classes : ∀ c, M.alive c → Carries M M' (M.dtable c) (M'.dtable c)
  temporary : List.Forall₂ (fun e e' => e'.1 = e.1 ∧ Carries M M' e.2 e'.2) M.temporary M'.temporary
  locals : List.Forall₂ (fun e e' => e'.1 = e.1 ∧ Carries M M' e.2 e'.2) M.locals M'.locals
  uninstalled : ∀ c, M.alive c → (M'.dtable c = M'.uninstalled ↔ M.dtable c = M.uninstalled)

/-- No table is being made, the class table leads to all classes, and a metaclass is uninstalled if and
    only if one of the classes in the class table that have it is. -/
def GrowOk (M : Machine) : Prop :=
  M.locals = [] ∧
  (∀ c ∈ List.range M.classCount, M.alive c → c ∈ M.classTable ∨ ∃ c' ∈ M.classTable, M.isa c' = c) ∧
  ∀ c ∈ M.classTable, (M.dtable (M.isa c) = M.uninstalled ↔
    ∃ c' ∈ M.classTable, M.isa c' = M.isa c ∧ M.dtable c' = M.uninstalled)

instance (M : Machine) : Decidable (GrowOk M) := inferInstanceAs (Decidable (_ ∧ _ ∧ _))

/-- The condition on the steps of a run. -/
def StepOk (M : Machine) : Op → Prop
  | .resize newSize => 2 ^ M.depth < newSize % 2 ^ 32 → GrowOk M
  | _ => True

instance (M : Machine) (op : Op) : Decidable (StepOk M op) := by
  cases op <;> unfold StepOk <;> infer_instance

/-! ## Depths -/

theorem dtableDepthForSize_spec {size : ℕ} (hsize : size ≤ 2 ^ 32) : ∀ (fuel depth : ℕ),
    32 ≤ depth + 8 * fuel →
    validDepth depth = true →
    validDepth (dtableDepthForSize fuel depth size) = true ∧ depth ≤ dtableDepthForSize fuel depth size ∧
      size ≤ 2 ^ dtableDepthForSize fuel depth size
  | 0, depth, hfuel, hd => by
    have : depth = 32 := by
      simp only [validDepth, Bool.and_eq_true, decide_eq_true_eq] at hd
      omega
    subst this
    exact ⟨hd, le_refl _, hsize⟩
  | fuel + 1, depth, hfuel, hd => by
    rw [dtableDepthForSize]
    by_cases h : depth < 32 ∧ 2 ^ depth < size
    · rw [if_pos h]
      have hd' : validDepth (depth + 8) = true := by
        simp only [validDepth, Bool.and_eq_true, decide_eq_true_eq] at hd ⊢
        omega
      obtain ⟨hv, hle, hs⟩ := dtableDepthForSize_spec hsize fuel (depth + 8) (by omega) hd'
      exact ⟨hv, by omega, hs⟩
    · rw [if_neg h]
      refine ⟨hd, le_refl _, ?_⟩
      by_cases h32 : depth < 32
      · exact not_lt.mp fun hlt => h ⟨h32, hlt⟩
      · have : depth = 32 := by
          simp only [validDepth, Bool.and_eq_true, decide_eq_true_eq] at hd
          omega
        rw [this]
        exact hsize

/-! ## Expanding one table -/

/-- Tables were allocated, nothing else. -/
structure Extends (M M' : Machine) : Prop where
  eq : ∃ heap next, M' = { M with heap := heap, next := next }
  next_le : M.next ≤ M'.next
  heap : ∀ p < M.next, M'.heap p = M.heap p

theorem Extends.refl (M : Machine) : Extends M M := ⟨⟨M.heap, M.next, rfl⟩, le_refl _, fun _ _ => rfl⟩

theorem Extends.trans {M M' M'' : Machine} (h : Extends M M') (h' : Extends M' M'') : Extends M M'' where
  eq := by
    obtain ⟨heap, next, rfl⟩ := h.eq
    obtain ⟨heap', next', rfl⟩ := h'.eq
    exact ⟨heap', next', rfl⟩
  next_le := le_trans h.next_le h'.next_le
  heap p hp := (h'.heap p (lt_of_lt_of_le hp h.next_le)).trans (h.heap p hp)

theorem lookup_expand {t : Table MethodId} {d i : ℕ} (hd : t.depth ≤ d) (hi : i < 2 ^ t.depth) :
    lookup (t.expand d) i = lookup t i := by
  have hlt : i < 2 ^ d := lt_of_lt_of_le hi (Nat.pow_le_pow_right (by omega) hd)
  unfold lookup Table.expand
  dsimp only
  rw [Nat.mod_eq_of_lt hlt, Nat.mod_eq_of_lt hi, if_pos hi]

/-- The table at `p'` is that at `p` with the depth `T`. -/
def Deepened (M M' : Machine) (oldDepth T p p' : ℕ) : Prop :=
  (M'.heap p').depth = T ∧ ∀ i < 2 ^ oldDepth, lookup (M'.heap p') i = lookup (M.heap p) i

theorem expandDtable_new {M : Machine} {p T : ℕ} (hp : p ≠ null) (hT : validDepth T = true)
    (hlt : (M.heap p).depth < T) :
    ∃ M', expandDtable M p T = some (M.next, M') ∧ Extends M M' ∧ M.next < M'.next ∧
      Deepened M M' (M.heap p).depth T p M.next := by
  unfold expandDtable
  rw [if_neg (by simp [hp, hT, not_lt.mpr hlt.le]), if_neg (by omega)]
  refine ⟨_, rfl, ⟨⟨_, _, rfl⟩, Nat.le_succ _, fun q hq => ?_⟩, Nat.lt_succ_self _, ?_, fun i hi => ?_⟩
  · exact Function.update_of_ne hq.ne _ _
  · dsimp only
    rw [Function.update_self]
    rfl
  · dsimp only
    rw [Function.update_self]
    exact lookup_expand hlt.le hi

theorem expandDtable_same {M : Machine} {p T : ℕ} (hp : p ≠ null) (hT : validDepth T = true)
    (heq : (M.heap p).depth = T) : expandDtable M p T = some (p, M) := by
  unfold expandDtable
  rw [if_neg (by simp [hp, hT, heq]), if_pos heq.symm]

theorem expandDtable_setDtable (M : Machine) (c : Class) (a p T : ℕ) :
    expandDtable (M.setDtable c a) p T = (expandDtable M p T).map fun r => (r.1, r.2.setDtable c a) := by
  unfold expandDtable Machine.setDtable
  dsimp only
  split
  · rfl
  · split <;> rfl

/-! ## The loop over the class table -/

/-- The new table at `p'` of what pointed to the table at `p` of the state `M₁` before the loop. -/
def MovedTo (d T : ℕ) (M₁ M : Machine) (p p' : ℕ) : Prop :=
  M₁.next ≤ p' ∧ p' < M.next ∧ Deepened M₁ M d T p p'

theorem MovedTo.extend {d T p p' : ℕ} {M₁ M M' : Machine} (h : MovedTo d T M₁ M p p') (he : Extends M M') :
    MovedTo d T M₁ M' p p' := by
  obtain ⟨hge, hlt, hd⟩ := h
  refine ⟨hge, lt_of_lt_of_le hlt he.next_le, ?_⟩
  unfold Deepened
  rw [he.heap p' hlt]
  exact hd

/-- Before the loop: the uninstalled table is the new one, and the classes of the table and their
    metaclasses, which are not in the table, still have what they had. -/
structure Ready (old d T : ℕ) (M₁ : Machine) (classes : List Class) : Prop where
  uninstalled_lt : M₁.uninstalled < M₁.next
  uninstalled_ne : M₁.uninstalled ≠ null
  uninstalled_depth : (M₁.heap M₁.uninstalled).depth = T
  old_lt : old < M₁.next
  ne_old : M₁.uninstalled ≠ old
  deeper : d < T
  valid : validDepth T = true
  fields : ∀ c, c ∈ classes ∨ c ∈ classes.map M₁.isa →
    M₁.dtable c ≠ null ∧ M₁.dtable c < M₁.next ∧ (M₁.heap (M₁.dtable c)).depth = d
  metas : ∀ c ∈ classes, ∀ c' ∈ classes, M₁.isa c' ≠ c

/-- After the loop went over `L`. -/
structure Walked (old d T : ℕ) (M₁ M : Machine) (L : List Class) : Prop where
  same : ∃ heap next dtable, M = { M₁ with heap := heap, next := next, dtable := dtable }
  next_le : M₁.next ≤ M.next
  heap : ∀ p < M₁.next, M.heap p = M₁.heap p
  other : ∀ c, c ∉ L → c ∉ L.map M₁.isa → M.dtable c = M₁.dtable c
  listed : ∀ c ∈ L, if M₁.dtable c = old then M.dtable c = M₁.uninstalled
    else MovedTo d T M₁ M (M₁.dtable c) (M.dtable c)
  metas : ∀ m ∈ L.map M₁.isa, if ∃ c ∈ L, M₁.isa c = m ∧ M₁.dtable c = old then M.dtable m = M₁.uninstalled
    else MovedTo d T M₁ M (M₁.dtable m) (M.dtable m)

theorem Walked.nil (old d T : ℕ) (M₁ : Machine) : Walked old d T M₁ M₁ [] :=
  ⟨⟨_, _, _, rfl⟩, le_refl _, fun _ _ => rfl, fun _ _ _ => rfl, by simp, by simp⟩

theorem Walked.uninstalled {old d T : ℕ} {M₁ M : Machine} {L : List Class} (h : Walked old d T M₁ M L) :
    M.uninstalled = M₁.uninstalled := by
  obtain ⟨_, _, _, rfl⟩ := h.same
  rfl

theorem Walked.isa {old d T : ℕ} {M₁ M : Machine} {L : List Class} (h : Walked old d T M₁ M L) :
    M.isa = M₁.isa := by
  obtain ⟨_, _, _, rfl⟩ := h.same
  rfl

/-- A class that was gone over before. -/
theorem Walked.again {old d T : ℕ} {M₁ M : Machine} {L : List Class} (h : Walked old d T M₁ M L) {c : Class}
    (hc : c ∈ L) : Walked old d T M₁ M (L ++ [c]) := by
  have hmem : ∀ x, x ∈ L ++ [c] ↔ x ∈ L := fun x => by
    rw [List.mem_append, List.mem_singleton]
    exact ⟨fun hx => hx.elim id fun hx => hx ▸ hc, .inl⟩
  have hmap : ∀ x, x ∈ (L ++ [c]).map M₁.isa ↔ x ∈ L.map M₁.isa := fun x => by
    simp only [List.mem_map, hmem]
  refine ⟨h.same, h.next_le, h.heap, fun x hx hx' => h.other x (by rwa [← hmem]) (by rwa [← hmap]),
    fun x hx => h.listed x ((hmem x).mp hx), fun m hm => ?_⟩
  simp only [hmem]
  exact h.metas m ((hmap m).mp hm)

/-- A class and its metaclass get the tables at `a` and `b`. -/
theorem Walked.set {old d T : ℕ} {M₁ M M' : Machine} {classes L : List Class} (hr : Ready old d T M₁ classes)
    (h : Walked old d T M₁ M L) (hL : L ⊆ classes) (he : Extends M M') {c : Class}
    (hc : c ∈ classes) {a b : ℕ}
    (ha : if M₁.dtable c = old then a = M₁.uninstalled else MovedTo d T M₁ M' (M₁.dtable c) a)
    (hb : if ∃ x ∈ L ++ [c], M₁.isa x = M₁.isa c ∧ M₁.dtable x = old then b = M₁.uninstalled
      else MovedTo d T M₁ M' (M₁.dtable (M₁.isa c)) b) :
    Walked old d T M₁ ((M'.setDtable c a).setDtable (M₁.isa c) b) (L ++ [c]) := by
  have hne : M₁.isa c ≠ c := hr.metas c hc c hc
  have hdt : ∀ x, x ≠ c → x ≠ M₁.isa c → ((M'.setDtable c a).setDtable (M₁.isa c) b).dtable x =
      M.dtable x := by
    intro x hx hx'
    obtain ⟨_, _, rfl⟩ := he.eq
    unfold Machine.setDtable
    dsimp only
    rw [Function.update_of_ne hx', Function.update_of_ne hx]
  have hself : ((M'.setDtable c a).setDtable (M₁.isa c) b).dtable c = a := by
    unfold Machine.setDtable
    dsimp only
    rw [Function.update_of_ne hne.symm, Function.update_self]
  have hmeta : ((M'.setDtable c a).setDtable (M₁.isa c) b).dtable (M₁.isa c) = b := Function.update_self ..
  -- storing tables does not change them
  have hstore : ∀ p p', MovedTo d T M₁ ((M'.setDtable c a).setDtable (M₁.isa c) b) p p' ↔
      MovedTo d T M₁ M' p p' :=
    fun p p' => Iff.rfl
  refine ⟨?_, le_trans h.next_le he.next_le, fun p hp => ?_, fun x hx hx' => ?_, fun x hx => ?_,
      fun m hm => ?_⟩
  · obtain ⟨_, _, rfl⟩ := he.eq
    obtain ⟨_, _, _, rfl⟩ := h.same
    exact ⟨_, _, _, rfl⟩
  · exact (he.heap p (lt_of_lt_of_le hp h.next_le)).trans (h.heap p hp)
  · simp only [List.mem_append, List.mem_singleton, not_or] at hx
    simp only [List.map_append, List.map_cons, List.map_nil, List.mem_append, List.mem_singleton,
      not_or] at hx'
    rw [hdt x hx.2 hx'.2]
    exact h.other x hx.1 hx'.1
  · by_cases hxc : x = c
    · rw [hxc, hself]
      simp only [hstore]
      exact ha
    · have hxL : x ∈ L := by simpa [hxc] using hx
      rw [hdt x hxc fun hx' => hr.metas x (hL hxL) c hc hx'.symm]
      have := h.listed x hxL
      by_cases ho : M₁.dtable x = old
      · rw [if_pos ho] at this ⊢
        exact this
      · rw [if_neg ho] at this ⊢
        exact (hstore _ _).mpr (this.extend he)
  · by_cases hmc : m = M₁.isa c
    · rw [hmc, hmeta]
      simp only [hstore]
      exact hb
    · have hmL : m ∈ L.map M₁.isa := by
        rw [List.map_append, List.mem_append] at hm
        exact hm.resolve_right fun hm => hmc (by simpa using hm)
      have hmc' : m ≠ c := by
        rintro rfl
        obtain ⟨x, hx, hxm⟩ := List.mem_map.mp hmL
        exact hr.metas m hc x (hL hx) hxm
      have hiff : (∃ x ∈ L ++ [c], M₁.isa x = m ∧ M₁.dtable x = old) ↔ ∃ x ∈ L, M₁.isa x = m ∧
          M₁.dtable x = old := by
        constructor
        · rintro ⟨x, hx, hxm, hxo⟩
          rcases List.mem_append.mp hx with hx | hx
          · exact ⟨x, hx, hxm, hxo⟩
          · rw [List.mem_singleton.mp hx] at hxm
            exact absurd hxm.symm hmc
        · rintro ⟨x, hx, hxm⟩
          exact ⟨x, List.mem_append_left _ hx, hxm⟩
      rw [hdt m hmc' hmc]
      have := h.metas m hmL
      by_cases hex : ∃ x ∈ L, M₁.isa x = m ∧ M₁.dtable x = old
      · rw [if_pos hex] at this
        rw [if_pos (hiff.mpr hex)]
        exact this
      · rw [if_neg hex] at this
        rw [if_neg fun hh => hex (hiff.mp hh)]
        exact (hstore _ _).mpr (this.extend he)

/-- The table of a metaclass, when one of its classes gets a deeper table: whatever it is by then, it has
    the old or the new depth. -/
theorem Walked.expandMeta {old d T : ℕ} {M₁ M M' : Machine} {classes L : List Class}
    (hr : Ready old d T M₁ classes)
    (h : Walked old d T M₁ M L) (hL : L ⊆ classes) (he : Extends M M') {c : Class} (hc : c ∈ classes)
    (hold : M₁.dtable c ≠ old) :
    ∃ b M'', expandDtable M' (M'.dtable (M₁.isa c)) T = some (b, M'') ∧ Extends M' M'' ∧
      if ∃ x ∈ L ++ [c], M₁.isa x = M₁.isa c ∧ M₁.dtable x = old then b = M₁.uninstalled
      else MovedTo d T M₁ M'' (M₁.dtable (M₁.isa c)) b := by
  have hM' : M'.dtable = M.dtable := by
    obtain ⟨_, _, rfl⟩ := he.eq
    rfl
  have hiff : (∃ x ∈ L ++ [c], M₁.isa x = M₁.isa c ∧ M₁.dtable x = old) ↔
      ∃ x ∈ L, M₁.isa x = M₁.isa c ∧ M₁.dtable x = old := by
    constructor
    · rintro ⟨x, hx, hxm, hxo⟩
      rcases List.mem_append.mp hx with hx | hx
      · exact ⟨x, hx, hxm, hxo⟩
      · rw [List.mem_singleton.mp hx] at hxo
        exact absurd hxo hold
    · rintro ⟨x, hx, hxm⟩
      exact ⟨x, List.mem_append_left _ hx, hxm⟩
  have hheap : ∀ p < M₁.next, M'.heap p = M₁.heap p := fun p hp =>
    (he.heap p (lt_of_lt_of_le hp h.next_le)).trans (h.heap p hp)
  rw [hM']
  by_cases hex : ∃ x ∈ L, M₁.isa x = M₁.isa c ∧ M₁.dtable x = old
  · -- another class with this metaclass was uninstalled
    obtain ⟨x, hx, hxm, -⟩ := id hex
    have hmeta := h.metas (M₁.isa c) (List.mem_map.mpr ⟨x, hx, hxm⟩)
    rw [if_pos hex] at hmeta
    rw [hmeta]
    refine ⟨M₁.uninstalled, M', ?_, Extends.refl M', ?_⟩
    · exact expandDtable_same hr.uninstalled_ne hr.valid
        (by rw [hheap _ hr.uninstalled_lt]; exact hr.uninstalled_depth)
    · rw [if_pos (hiff.mpr hex)]
  by_cases hmem : M₁.isa c ∈ L.map M₁.isa
  · -- it was expanded with another class
    have hmeta := h.metas (M₁.isa c) hmem
    rw [if_neg hex] at hmeta
    obtain ⟨hge, hlt, hdepth, hvalues⟩ := hmeta.extend he
    refine ⟨M.dtable (M₁.isa c), M', expandDtable_same ?_ hr.valid hdepth, Extends.refl M', ?_⟩
    · have := hr.uninstalled_lt
      unfold null
      omega
    · rw [if_neg fun hh => hex (hiff.mp hh)]
      exact ⟨hge, hlt, hdepth, hvalues⟩
  · have hnotL : M₁.isa c ∉ L := fun hmem' => hr.metas _ (hL hmem') c hc rfl
    rw [h.other _ hnotL hmem]
    obtain ⟨hne, hlt, hdepth⟩ := hr.fields (M₁.isa c) (.inr (List.mem_map_of_mem hc))
    rw [← hheap _ hlt] at hdepth
    obtain ⟨M'', hexp, he', hnext, hdeep⟩ := expandDtable_new hne hr.valid (by rw [hdepth]; exact hr.deeper)
    refine ⟨M'.next, M'', hexp, he', ?_⟩
    rw [if_neg fun hh => hex (hiff.mp hh)]
    refine ⟨le_trans h.next_le he.next_le, hnext, ?_⟩
    rw [hdepth] at hdeep
    unfold Deepened at hdeep ⊢
    rwa [hheap _ hlt] at hdeep

/-- **One class.** -/
theorem walkStep_spec {old d T : ℕ} {M₁ M : Machine} {classes L : List Class} (hr : Ready old d T M₁ classes)
    (h : Walked old d T M₁ M L) (hL : L ⊆ classes) {c : Class} (hc : c ∈ classes) :
    ∃ M', walkStep old d T M c = some M' ∧ Walked old d T M₁ M' (L ++ [c]) := by
  unfold walkStep
  by_cases hmem : c ∈ L
  · -- the class has its new table: it is neither the old uninstalled one nor of the old depth
    refine ⟨M, ?_, h.again hmem⟩
    have hlisted := h.listed c hmem
    have hnew : M.dtable c ≠ old ∧ (M.heap (M.dtable c)).depth = T := by
      by_cases ho : M₁.dtable c = old
      · rw [if_pos ho] at hlisted
        rw [hlisted]
        exact ⟨hr.ne_old, by rw [h.heap _ hr.uninstalled_lt]; exact hr.uninstalled_depth⟩
      · rw [if_neg ho] at hlisted
        obtain ⟨hge, -, hdepth, -⟩ := hlisted
        exact ⟨(lt_of_lt_of_le hr.old_lt hge).ne', hdepth⟩
    rw [if_neg hnew.1, if_neg]
    rw [hnew.2]
    exact fun hh => hr.deeper.ne' hh.2
  · have hnotMeta : c ∉ L.map M₁.isa := by
      intro hm
      obtain ⟨x, hx, hxc⟩ := List.mem_map.mp hm
      exact hr.metas c hc x (hL hx) hxc
    obtain ⟨hne, hlt, hdepth⟩ := hr.fields c (.inl hc)
    have hkept := h.other c hmem hnotMeta
    rw [hkept, h.isa, h.uninstalled]
    by_cases ho : M₁.dtable c = old
    · rw [if_pos ho]
      refine ⟨_, rfl, h.set hr hL (Extends.refl M) hc ?_ ?_⟩
      · rw [if_pos ho]
      · rw [if_pos ⟨c, by simp, rfl, ho⟩]
    · rw [if_neg ho, h.heap _ hlt, if_pos ⟨hne, hdepth⟩]
      have hdepth' : (M.heap (M₁.dtable c)).depth = d := by rw [h.heap _ hlt]; exact hdepth
      obtain ⟨M', hexp, he, hnext, hdeep⟩ := expandDtable_new (p := M₁.dtable c) hne hr.valid
        (by rw [hdepth']; exact hr.deeper)
      obtain ⟨b, M'', hexp', he', hb⟩ := h.expandMeta hr hL he hc ho
      have hisa : M'.isa = M₁.isa := by
        obtain ⟨_, _, rfl⟩ := he.eq
        exact h.isa
      have hne' : M₁.isa c ≠ c := hr.metas c hc c hc
      have hmeta : (M'.setDtable c M.next).dtable (M₁.isa c) = M'.dtable (M₁.isa c) :=
          Function.update_of_ne hne' _ _
      have hisa' : (M'.setDtable c M.next).isa = M₁.isa := hisa
      have hisa'' : (M''.setDtable c M.next).isa = M₁.isa := by
        obtain ⟨_, _, rfl⟩ := he'.eq
        exact hisa
      refine ⟨(M''.setDtable c M.next).setDtable (M₁.isa c) b, ?_, h.set hr hL (he.trans he') hc ?_ hb⟩
      · rw [hexp]
        simp only [Option.bind_eq_bind, Option.bind_some, hisa', hmeta, expandDtable_setDtable,
          hexp', Option.map_some,
          hisa'']
        rfl
      · rw [if_neg ho]
        refine MovedTo.extend ⟨h.next_le, hnext, ?_⟩ he'
        unfold Deepened at hdeep ⊢
        rw [hdepth', h.heap _ hlt] at hdeep
        exact hdeep

/-- **The loop over the class table.** -/
theorem walk_spec {old d T : ℕ} {M₁ : Machine} {classes : List Class} (hr : Ready old d T M₁ classes) :
    ∃ M, classes.foldlM (walkStep old d T) M₁ = some M ∧ Walked old d T M₁ M classes := by
  have hloop : ∀ L, L ⊆ classes → ∃ M, L.foldlM (walkStep old d T) M₁ = some M ∧ Walked old d T M₁ M L := by
    intro L
    induction L using List.reverseRecOn with
    | nil => exact fun _ => ⟨M₁, rfl, Walked.nil old d T M₁⟩
    | append_singleton L c ih =>
      intro hL
      obtain ⟨M, hM, hw⟩ := ih fun x hx => hL (List.mem_append_left _ hx)
      obtain ⟨M', hM', hw'⟩ := walkStep_spec hr hw (fun x hx => hL (List.mem_append_left _ hx))
        (hL (List.mem_append_right L (List.mem_singleton_self c)))
      refine ⟨M', ?_, hw'⟩
      rw [List.foldlM_append, hM]
      simp [hM']
  exact hloop classes (List.Subset.refl _)

/-! ## The growth -/

/-- The loop over the look-aside list. -/
theorem expandTemporary_spec {d T : ℕ} (hlt : d < T) (hT : validDepth T = true)
    (es : List (Class × ℕ)) {M : Machine}
    (hes : ∀ e ∈ es, e.2 ≠ null ∧ e.2 < M.next ∧ (M.heap e.2).depth = d) :
    ∃ es' M', expandTemporary T es M = some (es', M') ∧ Extends M M' ∧
      List.Forall₂ (fun e e' => e'.1 = e.1 ∧ MovedTo d T M M' e.2 e'.2) es es' := by
  induction es generalizing M with
  | nil => exact ⟨[], M, rfl, Extends.refl M, .nil⟩
  | cons e es ih =>
    obtain ⟨hne, he_lt, hdepth⟩ := hes e (by simp)
    obtain ⟨M₁, hexp, he₁, hnext, hdeep⟩ := expandDtable_new hne hT (by rw [hdepth]; exact hlt)
    obtain ⟨es', M₂, hrest, he₂, hall⟩ := ih (M := M₁) fun x hx => by
      obtain ⟨hx_ne, hx_lt, hx_depth⟩ := hes x (List.mem_cons_of_mem _ hx)
      rw [he₁.heap _ hx_lt]
      exact ⟨hx_ne, lt_of_lt_of_le hx_lt he₁.next_le, hx_depth⟩
    rw [hdepth] at hdeep
    refine ⟨(e.1, M.next) :: es', M₂, ?_, he₁.trans he₂,
        .cons ⟨rfl, MovedTo.extend ⟨le_refl _, hnext, hdeep⟩ he₂⟩ ?_⟩
    · rw [expandTemporary, hexp]
      simp [hrest]
    · rw [List.forall₂_iff_get] at hall ⊢
      refine ⟨hall.1, fun i hi hi' => ?_⟩
      obtain ⟨howner, hge, hlt', hdeep'⟩ := hall.2 i hi hi'
      refine ⟨howner, le_trans he₁.next_le hge, hlt', ?_⟩
      unfold Deepened at hdeep' ⊢
      rw [he₁.heap _ (hes (es.get ⟨i, hi⟩) (List.mem_cons_of_mem _ (List.get_mem ..))).2.1] at hdeep'
      exact hdeep'

/-- The classes refer to classes that were not disposed of. -/
structure Linked (M : Machine) : Prop where
  listed : ∀ c ∈ M.classTable, M.alive c ∧ M.isMeta c = false
  isa : ∀ c, M.alive c → M.isMeta c = false → M.alive (M.isa c) ∧ M.isMeta (M.isa c) = true
  super : ∀ c, M.alive c → ∀ s ∈ M.superClass c, M.alive s
  alive_lt : ∀ c, M.alive c → c < M.classCount

/-- What the steps keep: all tables have the current depth. -/
structure Inv (M : Machine) : Prop extends Linked M where
  valid : validDepth M.depth = true
  held : ∀ p, Held M p → p ≠ null ∧ p < M.next ∧ (M.heap p).depth = M.depth

theorem Inv.field {M : Machine} (hI : Inv M) {c : Class} (hc : M.alive c) :
    M.dtable c ≠ null ∧ M.dtable c < M.next ∧ (M.heap (M.dtable c)).depth = M.depth :=
  hI.held _ (.inr (.inl ⟨c, hI.alive_lt c hc, hc, rfl⟩))

/-- The state after the growth to the depth `T`. -/
structure Resized (T : ℕ) (M M' : Machine) : Prop where
  same : ∃ heap next uninstalled temporary dtable, M' = { M with
    heap := heap, next := next, uninstalled := uninstalled, temporary := temporary, dtable :=
        dtable, depth := T }
  heap : ∀ p < M.next, M'.heap p = M.heap p
  uninstalled : MovedTo M.depth T M M' M.uninstalled M'.uninstalled
  temporary : List.Forall₂ (fun e e' => e'.1 = e.1 ∧ MovedTo M.depth T M M' e.2 e'.2) M.temporary M'.temporary
  other : ∀ c, c ∉ M.classTable → c ∉ M.classTable.map M.isa → M'.dtable c = M.dtable c
  listed : ∀ c ∈ M.classTable, if M.dtable c = M.uninstalled then M'.dtable c = M'.uninstalled
    else MovedTo M.depth T M M' (M.dtable c) (M'.dtable c) ∧ M'.dtable c ≠ M'.uninstalled
  metas : ∀ m ∈ M.classTable.map M.isa,
    if ∃ c ∈ M.classTable, M.isa c = m ∧ M.dtable c = M.uninstalled then M'.dtable m = M'.uninstalled
    else MovedTo M.depth T M M' (M.dtable m) (M'.dtable m) ∧ M'.dtable m ≠ M'.uninstalled

theorem resizeDtables_spec {M : Machine} (hI : Inv M) {newSize : ℕ} (hsize : 2 ^ M.depth < newSize)
    (hmax : newSize < 2 ^ 32) :
    ∃ M' T, resizeDtables M newSize = some M' ∧ Resized T M M' ∧ validDepth T = true ∧ M.depth < T ∧
      newSize ≤ 2 ^ T := by
  set T := dtableDepthForSize 32 M.depth newSize with hTdef
  obtain ⟨hvalid, hle, hsize'⟩ := dtableDepthForSize_spec hmax.le 32 M.depth (by omega) hI.valid
  rw [← hTdef] at hvalid hle hsize'
  have hlt : M.depth < T := by
    refine lt_of_le_of_ne hle fun heq => ?_
    rw [← heq] at hsize'
    omega
  obtain ⟨hune, hult, hudepth⟩ := hI.held M.uninstalled (.inl rfl)
  obtain ⟨M₀, hexp, he₀, hnext₀, hdeep₀⟩ := expandDtable_new hune hvalid (by rw [hudepth]; exact hlt)
  rw [hudepth] at hdeep₀
  have hte : M₀.temporary = M.temporary := by
    obtain ⟨_, _, rfl⟩ := he₀.eq
    rfl
  obtain ⟨temporary, M₁, htemp, he₁, hall⟩ :=
      expandTemporary_spec (M := { M₀ with uninstalled := M.next }) hlt hvalid
    M.temporary fun e he => by
      obtain ⟨hne, hl, hd⟩ := hI.held e.2 (.inr (.inr (.inl ⟨e, he, rfl⟩)))
      exact ⟨hne, lt_of_lt_of_le hl he₀.next_le, (congrArg Table.depth (he₀.heap _ hl)).trans hd⟩
  set M₂ : Machine := { M₁ with temporary := temporary } with hM₂
  -- before the loop over the class table, everything is as it was but for the two kinds of tables
  have hnext : M.next < M₂.next := lt_of_lt_of_le hnext₀ he₁.next_le
  have hheap : ∀ p < M.next, M₂.heap p = M.heap p := fun p hp =>
    (he₁.heap p (lt_of_lt_of_le hp he₀.next_le)).trans (he₀.heap p hp)
  have hsame : ∃ heap next,
      M₂ = { M with heap := heap, next := next, uninstalled := M.next, temporary := temporary } := by
    obtain ⟨_, _, hM₁⟩ := he₁.eq
    obtain ⟨_, _, rfl⟩ := he₀.eq
    rw [hM₂, hM₁]
    exact ⟨_, _, rfl⟩
  have huninst : M₂.uninstalled = M.next := by
    obtain ⟨_, _, heq⟩ := hsame
    rw [heq]
  have hdt : M₂.dtable = M.dtable ∧ M₂.isa = M.isa ∧ M₂.classTable = M.classTable := by
    obtain ⟨_, _, heq⟩ := hsame
    rw [heq]
    exact ⟨rfl, rfl, rfl⟩
  have halive : ∀ c, c ∈ M.classTable ∨ c ∈ M.classTable.map M.isa → M.alive c := by
    rintro c (hc | hc)
    · exact (hI.listed c hc).1
    · obtain ⟨x, hx, rfl⟩ := List.mem_map.mp hc
      exact (hI.isa x (hI.listed x hx).1 (hI.listed x hx).2).1
  have hnewDepth : Deepened M M₂ M.depth T M.uninstalled M.next := by
    unfold Deepened at hdeep₀ ⊢
    have : M₂.heap M.next = M₀.heap M.next := he₁.heap M.next hnext₀
    rwa [this]
  have hready : Ready M.uninstalled M.depth T M₂ M.classTable := by
    refine ⟨by rw [huninst]; exact hnext, ?_, ?_, hult.trans hnext, ?_, hlt, hvalid, fun c hc => ?_, fun c hc c' hc' => ?_⟩
    · rw [huninst]
      unfold null
      omega
    · rw [huninst]
      exact hnewDepth.1
    · rw [huninst]
      exact hult.ne'
    · rw [hdt.2.1] at hc
      obtain ⟨hne, hl, hd⟩ := hI.field (halive c hc)
      rw [hdt.1, hheap _ hl]
      exact ⟨hne, hl.trans hnext, hd⟩
    · rw [hdt.2.1]
      rintro rfl
      have := (hI.isa c' (hI.listed c' hc').1 (hI.listed c' hc').2).2
      rw [(hI.listed _ hc).2] at this
      cases this
  obtain ⟨M₃, hwalk, hw⟩ := walk_spec hready
  have hmoved : ∀ c, M.alive c → MovedTo M.depth T M₂ M₃ (M₂.dtable c) (M₃.dtable c) →
      MovedTo M.depth T M { M₃ with depth := T } (M.dtable c) (M₃.dtable c) ∧
      M₃.dtable c ≠ M₃.uninstalled := by
    intro c hc ⟨hge, hl, hdeep⟩
    rw [hw.uninstalled, huninst]
    refine ⟨⟨le_trans hnext.le hge, hl, ?_⟩, (lt_of_lt_of_le hnext hge).ne'⟩
    rw [hdt.1] at hdeep
    unfold Deepened at hdeep ⊢
    rwa [hheap _ (hI.field hc).2.1] at hdeep
  refine ⟨{ M₃ with depth := T }, T, ?_, ?_, hvalid, hlt, hsize'⟩
  · unfold resizeDtables
    dsimp only
    rw [Nat.mod_eq_of_lt hmax, if_neg (not_le.mpr hsize), ← hTdef, hudepth, hexp]
    simp only [Option.bind_eq_bind, Option.bind_some]
    rw [← hte] at htemp
    rw [htemp]
    simp only [Option.bind_some]
    have hcl : M₁.classTable = M.classTable := hdt.2.2
    rw [← hcl, hM₂] at hwalk
    rw [hwalk]
    rfl
  · refine ⟨?_, fun p hp => ?_, ?_, ?_, fun c hc hc' => ?_, fun c hc => ?_, fun m hm => ?_⟩
    · obtain ⟨_, _, _, heq⟩ := hw.same
      obtain ⟨_, _, heq₂⟩ := hsame
      rw [heq, heq₂]
      exact ⟨_, _, _, _, _, rfl⟩
    · exact (hw.heap p (hp.trans hnext)).trans (hheap p hp)
    · have hu : M₃.uninstalled = M.next := hw.uninstalled.trans huninst
      refine ⟨by rw [hu], by rw [hu]; exact lt_of_lt_of_le hnext hw.next_le, ?_⟩
      unfold Deepened at hnewDepth ⊢
      dsimp only
      rw [hu, hw.heap _ hnext]
      exact hnewDepth
    · have hkept : M₃.temporary = temporary := by
        obtain ⟨_, _, _, heq⟩ := hw.same
        rw [heq]
      dsimp only
      rw [hkept]
      rw [List.forall₂_iff_get] at hall ⊢
      refine ⟨hall.1, fun i hi hi' => ?_⟩
      obtain ⟨howner, hge, hl, hdeep⟩ := hall.2 i hi hi'
      have hold := (hI.held _ (.inr (.inr (.inl ⟨M.temporary.get ⟨i, hi⟩, List.get_mem .., rfl⟩)))).2.1
      refine ⟨howner, le_trans he₀.next_le hge, lt_of_lt_of_le hl hw.next_le, ?_⟩
      have hnew : M₃.heap (temporary.get ⟨i, hi'⟩).2 = M₁.heap (temporary.get ⟨i, hi'⟩).2 := hw.heap _ hl
      unfold Deepened at hdeep ⊢
      dsimp only at hdeep ⊢
      rw [hnew]
      rwa [he₀.heap _ hold] at hdeep
    · refine (hw.other c hc (by rwa [hdt.2.1])).trans ?_
      rw [hdt.1]
    · have hlisted := hw.listed c hc
      rw [hdt.1] at hlisted
      by_cases ho : M.dtable c = M.uninstalled
      · rw [if_pos ho] at hlisted ⊢
        exact hlisted.trans hw.uninstalled.symm
      · rw [if_neg ho] at hlisted ⊢
        exact hmoved c (halive c (.inl hc)) (by rwa [hdt.1])
    · have hmeta := hw.metas m (by rwa [hdt.2.1])
      rw [hdt.1, hdt.2.1] at hmeta
      by_cases hex : ∃ c ∈ M.classTable, M.isa c = m ∧ M.dtable c = M.uninstalled
      · rw [if_pos hex] at hmeta ⊢
        exact hmeta.trans hw.uninstalled.symm
      · rw [if_neg hex] at hmeta ⊢
        exact hmoved m (halive m (.inr hm)) (by rwa [hdt.1])

/-! ## Which tables the growth reaches -/

theorem MovedTo.carries {d T p p' : ℕ} {M M' : Machine} (h : MovedTo d T M M' p p') (hd : M.depth = d)
    (hT : M'.depth = T) : Carries M M' p p' := by
  obtain ⟨-, -, hdepth, hvalues⟩ := h
  subst hd hT
  exact ⟨hdepth, hvalues⟩

/-- A table that stays where it is keeps its depth. -/
theorem not_carries {T p : ℕ} {M M' : Machine} (hI : Inv M) (hr : Resized T M M') (hlt : M.depth < T)
    (hp : Held M p) : ¬ Carries M M' p p := by
  rintro ⟨hdepth, -⟩
  obtain ⟨-, hp_lt, hp_depth⟩ := hI.held p hp
  obtain ⟨_, _, _, _, _, heq⟩ := hr.same
  have hT : M'.depth = T := by rw [heq]
  rw [hr.heap p hp_lt, hp_depth, hT] at hdepth
  exact hlt.ne hdepth

theorem GrowOk.of_grown {T newSize : ℕ} {M M' : Machine} (hI : Inv M) (hr : Resized T M M')
    (hlt : M.depth < T)
    (hg : Grown M M' newSize) : GrowOk M := by
  obtain ⟨_, _, _, _, _, heq⟩ := hr.same
  refine ⟨?_, fun c hc halive => ?_, fun c hc => ?_⟩
  · -- a local table is not replaced
    cases hl : M.locals with
    | nil => rfl
    | cons e es =>
      have hlocals := hg.locals
      have hsame : M'.locals = M.locals := by rw [heq]
      rw [hsame, hl] at hlocals
      obtain ⟨⟨-, hcarries⟩, -⟩ := List.forall₂_cons.mp hlocals
      have hheld : Held M e.2 := .inr (.inr (.inr ⟨e, by rw [hl]; simp, rfl⟩))
      exact absurd hcarries (not_carries hI hr hlt hheld)
  · -- nor that of a class to which the class table does not lead
    by_contra hno
    obtain ⟨hno, hno'⟩ := not_or.mp hno
    have hcarries := hg.classes c halive
    rw [hr.other c hno fun hm => hno' (by simpa using hm)] at hcarries
    exact not_carries hI hr hlt (.inr (.inl ⟨c, hI.alive_lt c halive, halive, rfl⟩)) hcarries
  · have halive := (hI.isa c (hI.listed c hc).1 (hI.listed c hc).2).1
    have hmeta := hr.metas (M.isa c) (List.mem_map_of_mem hc)
    rw [← hg.uninstalled (M.isa c) halive]
    by_cases hex : ∃ x ∈ M.classTable, M.isa x = M.isa c ∧ M.dtable x = M.uninstalled
    · rw [if_pos hex] at hmeta
      exact ⟨fun _ => hex, fun _ => hmeta⟩
    · rw [if_neg hex] at hmeta
      exact ⟨fun h => absurd h hmeta.2, fun h => absurd h hex⟩

theorem Resized.class_cases {T : ℕ} {M M' : Machine} (hr : Resized T M M') (hok : GrowOk M) {c : Class}
    (hc : c ∈ M.classTable ∨ ∃ c' ∈ M.classTable, M.isa c' = c) :
    M.dtable c = M.uninstalled ∧ M'.dtable c = M'.uninstalled ∨
      M.dtable c ≠ M.uninstalled ∧ MovedTo M.depth T M M' (M.dtable c) (M'.dtable c) ∧
      M'.dtable c ≠ M'.uninstalled := by
  rcases hc with hc | ⟨x, hx, rfl⟩
  · have hlisted := hr.listed c hc
    by_cases ho : M.dtable c = M.uninstalled
    · rw [if_pos ho] at hlisted
      exact .inl ⟨ho, hlisted⟩
    · rw [if_neg ho] at hlisted
      exact .inr ⟨ho, hlisted⟩
  · have hmeta := hr.metas (M.isa x) (List.mem_map_of_mem hx)
    by_cases ho : M.dtable (M.isa x) = M.uninstalled
    · rw [if_pos ((hok.2.2 x hx).mp ho)] at hmeta
      exact .inl ⟨ho, hmeta⟩
    · rw [if_neg fun hex => ho ((hok.2.2 x hx).mpr hex)] at hmeta
      exact .inr ⟨ho, hmeta⟩

theorem Grown.of_growOk {T newSize : ℕ} {M M' : Machine} (hI : Inv M) (hr : Resized T M M')
    (hlt : M.depth < T)
    (hsize : newSize ≤ 2 ^ T) (hok : GrowOk M) : Grown M M' newSize := by
  obtain ⟨_, _, _, _, _, heq⟩ := hr.same
  have hT : M'.depth = T := by rw [heq]
  have hlocals : M'.locals = [] := by rw [heq]; exact hok.1
  have hclass := fun c (hc : M.alive c) =>
    hr.class_cases hok (hok.2.1 c (List.mem_range.mpr (hI.alive_lt c hc)) hc)
  refine ⟨by rwa [hT], by rwa [hT], fun c hc => ?_, ?_, ?_, fun c hc => ?_⟩
  · rcases hclass c hc with ⟨hold, hnew⟩ | ⟨-, hmoved, -⟩
    · rw [hold, hnew]
      exact hr.uninstalled.carries rfl hT
    · exact hmoved.carries rfl hT
  · exact hr.temporary.imp fun _ _ ⟨howner, hmoved⟩ => ⟨howner, hmoved.carries rfl hT⟩
  · rw [hok.1, hlocals]
    exact .nil
  · rcases hclass c hc with ⟨hold, hnew⟩ | ⟨hold, -, hnew⟩
    · simp [hold, hnew]
    · simp [hold, hnew]

/-! ## Steps -/

theorem Inv.of_resized {T : ℕ} {M M' : Machine} (hI : Inv M) (hr : Resized T M M')
    (hvalid : validDepth T = true)
    (hok : GrowOk M) : Inv M' := by
  obtain ⟨_, _, _, _, _, heq⟩ := hr.same
  have hT : M'.depth = T := by rw [heq]
  have hmoved : ∀ p p', MovedTo M.depth T M M' p p' → p' ≠ null ∧ p' < M'.next ∧
      (M'.heap p').depth = M'.depth := by
    rintro p p' ⟨hge, hlt, hdepth, -⟩
    have := (hI.held _ (.inl rfl)).2.1
    refine ⟨?_, hlt, by rw [hT]; exact hdepth⟩
    unfold null
    omega
  constructor
  · rw [heq]
    exact ⟨hI.listed, hI.isa, hI.super, hI.alive_lt⟩
  · rwa [hT]
  · rintro p (rfl | ⟨c, hc, halive, rfl⟩ | ⟨e, he, rfl⟩ | ⟨e, he, rfl⟩)
    · exact hmoved _ _ hr.uninstalled
    · have halive' : M.alive c := by
        rw [heq] at halive
        exact halive
      rcases hr.class_cases hok (hok.2.1 c (List.mem_range.mpr (hI.alive_lt c halive')) halive') with
        ⟨-, hnew⟩ | ⟨-, hnew, -⟩
      · rw [hnew]
        exact hmoved _ _ hr.uninstalled
      · exact hmoved _ _ hnew
    · obtain ⟨hlength, hall⟩ := List.forall₂_iff_get.mp hr.temporary
      obtain ⟨⟨i, hi⟩, rfl⟩ := List.mem_iff_get.mp he
      exact hmoved _ _ (hall i (by rwa [hlength]) hi).2
    · have : M'.locals = [] := by rw [heq]; exact hok.1
      rw [this] at he
      cases he

theorem Inv.resize {M : Machine} (hI : Inv M) {newSize : ℕ} (hok : StepOk M (.resize newSize)) :
    Inv (next M (.resize newSize)) := by
  by_cases hsize : 2 ^ M.depth < newSize % 2 ^ 32
  · obtain ⟨M', T, hM', hr, hvalid, -, -⟩ := resizeDtables_spec hI hsize (Nat.mod_lt _ (by decide))
    have hmod : resizeDtables M newSize = some M' := by
      rw [← hM']
      unfold resizeDtables
      rw [Nat.mod_mod]
    unfold TableGrowth.next
    dsimp only
    rw [hmod]
    exact hI.of_resized hr hvalid (hok hsize)
  · have hsame : resizeDtables M newSize = some M := by
      unfold resizeDtables
      dsimp only
      rw [if_pos (not_lt.mp hsize)]
    unfold TableGrowth.next
    dsimp only
    rw [hsame]
    exact hI

/-- Pointers to tables are stored elsewhere, or forgotten. -/
theorem Inv.store {M M' : Machine} (hI : Inv M) (hdepth : M'.depth = M.depth) (hheap : M'.heap = M.heap)
    (hnext : M'.next = M.next) (hheld : ∀ p, Held M' p → Held M p) (hl : Linked M') : Inv M' := by
  refine ⟨hl, by rw [hdepth]; exact hI.valid, fun p hp => ?_⟩
  rw [hheap, hnext, hdepth]
  exact hI.held p (hheld p hp)

theorem Linked.newPair {M : Machine} (hl : Linked M) {super : Option Class}
    (hsuper : ∀ s ∈ super, M.alive s ∧ M.isMeta s = false) : Linked (newPair M super) := by
  have hold : ∀ c, M.alive c → c ≠ M.classCount ∧ c ≠ M.classCount + 1 := fun c hc =>
    ⟨(hl.alive_lt c hc).ne, (Nat.lt_succ_of_lt (hl.alive_lt c hc)).ne⟩
  have halive : ∀ c, (TableGrowth.newPair M super).alive c → c = M.classCount + 1 ∨
      c = M.classCount ∨ M.alive c := by
    intro c hc
    simp only [TableGrowth.newPair, Function.update_apply] at hc
    by_cases h₁ : c = M.classCount + 1
    · exact .inl h₁
    by_cases h₂ : c = M.classCount
    · exact .inr (.inl h₂)
    · rw [if_neg h₁, if_neg h₂] at hc
      exact .inr (.inr hc)
  have hkeep : ∀ c, M.alive c → (TableGrowth.newPair M super).alive c ∧
      (TableGrowth.newPair M super).isMeta c = M.isMeta c ∧ (TableGrowth.newPair M super).isa c = M.isa c ∧
      (TableGrowth.newPair M super).superClass c = M.superClass c := by
    intro c hc
    obtain ⟨h₁, h₂⟩ := hold c hc
    simp [TableGrowth.newPair, h₁, h₂, hc]
  refine ⟨fun c hc => ?_, fun c hc hm => ?_, fun c hc s hs => ?_, fun c hc => ?_⟩
  · obtain ⟨ha, hm⟩ := hl.listed c hc
    obtain ⟨hk, hk', -⟩ := hkeep c ha
    exact ⟨hk, by rw [hk', hm]⟩
  · rcases halive c hc with rfl | rfl | ha
    · simp [TableGrowth.newPair] at hm
    · simp [TableGrowth.newPair]
    · obtain ⟨-, hk', hk'', -⟩ := hkeep c ha
      rw [hk'] at hm
      rw [hk'']
      obtain ⟨hia, him⟩ := hl.isa c ha hm
      obtain ⟨hj, hj', -⟩ := hkeep _ hia
      exact ⟨hj, by rw [hj', him]⟩
  · rcases halive c hc with rfl | rfl | ha
    · have hs' : super.elim M.classCount M.isa = s := by simpa [TableGrowth.newPair] using hs
      cases super with
      | none =>
        rw [← hs']
        simp [TableGrowth.newPair]
      | some t =>
        obtain ⟨hta, htm⟩ := hsuper t rfl
        rw [← hs']
        exact (hkeep _ (hl.isa t hta htm).1).1
    · have hs' : super = some s := by simpa [TableGrowth.newPair] using hs
      exact (hkeep s (hsuper s hs').1).1
    · rw [(hkeep c ha).2.2.2] at hs
      exact (hkeep s (hl.super c ha s hs)).1
  · have hcount : (TableGrowth.newPair M super).classCount = M.classCount + 2 := rfl
    rw [hcount]
    rcases halive c hc with rfl | rfl | ha
    · exact Nat.lt_succ_self _
    · exact Nat.lt_add_of_pos_right (by decide)
    · exact Nat.lt_add_right 2 (hl.alive_lt c ha)

theorem Linked.newSharing {M : Machine} (hl : Linked M) {super : Option Class} {isa : Class}
    (duplicate : Bool)
    (hsuper : ∀ s ∈ super, M.alive s) (hisa : M.alive isa ∧ M.isMeta isa = true) :
    Linked (newSharing M super isa duplicate) := by
  have halive : ∀ c, (TableGrowth.newSharing M super isa duplicate).alive c → c = M.classCount ∨
      M.alive c := by
    intro c hc
    simp only [TableGrowth.newSharing, Function.update_apply] at hc
    by_cases h : c = M.classCount
    · exact .inl h
    · rw [if_neg h] at hc
      exact .inr hc
  have hkeep : ∀ c, M.alive c → (TableGrowth.newSharing M super isa duplicate).alive c ∧
      (TableGrowth.newSharing M super isa duplicate).isMeta c = M.isMeta c ∧
      (TableGrowth.newSharing M super isa duplicate).isa c = M.isa c ∧
      (TableGrowth.newSharing M super isa duplicate).superClass c = M.superClass c := by
    intro c hc
    simp [TableGrowth.newSharing, (hl.alive_lt c hc).ne, hc]
  refine ⟨fun c hc => ?_, fun c hc hm => ?_, fun c hc s hs => ?_, fun c hc => ?_⟩
  · obtain ⟨ha, hm⟩ := hl.listed c hc
    obtain ⟨hk, hk', -⟩ := hkeep c ha
    exact ⟨hk, by rw [hk', hm]⟩
  · rcases halive c hc with rfl | ha
    · have : (TableGrowth.newSharing M super isa duplicate).isa M.classCount = isa := by
        simp [TableGrowth.newSharing]
      rw [this]
      obtain ⟨hj, hj', -⟩ := hkeep isa hisa.1
      exact ⟨hj, by rw [hj', hisa.2]⟩
    · obtain ⟨-, hk', hk'', -⟩ := hkeep c ha
      rw [hk'] at hm
      rw [hk'']
      obtain ⟨hia, him⟩ := hl.isa c ha hm
      obtain ⟨hj, hj', -⟩ := hkeep _ hia
      exact ⟨hj, by rw [hj', him]⟩
  · rcases halive c hc with rfl | ha
    · have hs' : super = some s := by simpa [TableGrowth.newSharing] using hs
      exact (hkeep s (hsuper s hs')).1
    · rw [(hkeep c ha).2.2.2] at hs
      exact (hkeep s (hl.super c ha s hs)).1
  · have hcount : (TableGrowth.newSharing M super isa duplicate).classCount = M.classCount + 1 := rfl
    rw [hcount]
    rcases halive c hc with rfl | ha
    · exact Nat.lt_succ_self _
    · exact Nat.lt_succ_of_lt (hl.alive_lt c ha)

/-- New classes have the uninstalled table. -/
theorem held_newPair {M : Machine} {super : Option Class} {p : ℕ} (h : Held (newPair M super) p) :
    Held M p := by
  rcases h with h | ⟨c, hc, ha, h⟩ | h
  · exact .inl h
  · simp only [newPair, Function.update_apply] at ha h
    by_cases h₁ : c = M.classCount + 1
    · rw [if_pos h₁] at h
      exact .inl h.symm
    by_cases h₂ : c = M.classCount
    · rw [if_neg h₁, if_pos h₂] at h
      exact .inl h.symm
    · rw [if_neg h₁, if_neg h₂] at h ha
      have hc' : c < M.classCount + 2 := hc
      exact .inr (.inl ⟨c, by omega, ha, h⟩)
  · exact .inr (.inr h)

theorem held_newSharing {M : Machine} {super : Option Class} {isa : Class} {duplicate : Bool} {p : ℕ}
    (h : Held (newSharing M super isa duplicate) p) : Held M p := by
  rcases h with h | ⟨c, hc, ha, h⟩ | h
  · exact .inl h
  · simp only [newSharing, Function.update_apply] at ha h
    by_cases h₁ : c = M.classCount
    · rw [if_pos h₁] at h
      exact .inl h.symm
    · rw [if_neg h₁] at h ha
      have hc' : c < M.classCount + 1 := hc
      exact .inr (.inl ⟨c, by omega, ha, h⟩)
  · exact .inr (.inr h)

/-! ## Runs -/

theorem localOf_held {M : Machine} {cls : Class} {p : ℕ} (h : M.localOf cls = some p) : Held M p := by
  obtain ⟨e, he, rfl⟩ := Option.map_eq_some_iff.mp h
  exact .inr (.inr (.inr ⟨e, List.mem_of_find?_eq_some he, rfl⟩))

theorem temporaryOf_held {M : Machine} {cls : Class} {p : ℕ} (h : M.temporaryOf cls = some p) : Held M p := by
  obtain ⟨e, he, rfl⟩ := Option.map_eq_some_iff.mp h
  exact .inr (.inr (.inl ⟨e, List.mem_of_find?_eq_some he, rfl⟩))

theorem mem_of_mem_without {es : List (Class × ℕ)} {cls : Class} {e : Class × ℕ}
    (h : e ∈ without es cls) : e ∈ es :=
  List.mem_of_mem_filter h

/-- A class gets a table that is held already. -/
theorem held_setDtable {M : Machine} {cls : Class} {dtable p : ℕ} (hd : Held M dtable)
    (h : Held (M.setDtable cls dtable) p) : Held M p := by
  rcases h with h | ⟨c, hc, ha, h⟩ | h
  · exact .inl h
  · unfold Machine.setDtable at h
    dsimp only at h
    by_cases hcc : c = cls
    · rw [hcc, Function.update_self] at h
      exact h ▸ hd
    · rw [Function.update_of_ne hcc] at h
      exact .inr (.inl ⟨c, hc, ha, h⟩)
  · exact .inr (.inr h)

/-- Fewer entries hold fewer tables. -/
theorem held_of_subset {M : Machine} {temporary locals : List (Class × ℕ)} (ht : temporary ⊆ M.temporary)
    (hl : locals ⊆ M.locals) {p : ℕ}
    (h : Held { M with temporary := temporary, locals := locals } p) : Held M p := by
  rcases h with h | h | ⟨e, he, h⟩ | ⟨e, he, h⟩
  · exact .inl h
  · exact .inr (.inl h)
  · exact .inr (.inr (.inl ⟨e, ht he, h⟩))
  · exact .inr (.inr (.inr ⟨e, hl he, h⟩))

/-- A new table has the current depth: it is empty, or copied from one that has. -/
theorem newDtable_depth {M : Machine} (hI : Inv M) {cls : Class} (hc : M.alive cls) {t : Table MethodId}
    (h : newDtable M cls = some t) : t.depth = M.depth := by
  unfold newDtable at h
  cases hs : M.superClass cls with
  | none =>
    rw [hs] at h
    cases h
    rfl
  | some s =>
    rw [hs] at h
    dsimp only at h
    have hsuper : Held M (dtableForClass M s) := by
      unfold dtableForClass
      split
      · have ha := hI.super cls hc s hs
        exact .inr (.inl ⟨s, hI.alive_lt s ha, ha, rfl⟩)
      · cases hf : M.temporary.find? fun e => e.1 = s with
        | none => exact .inl rfl
        | some e => exact .inr (.inr (.inl ⟨e, List.mem_of_find?_eq_some hf, rfl⟩))
    split at h
    · cases h
      exact (hI.held _ hsuper).2.2
    · split at h
      · obtain ⟨e, he, rfl⟩ := Option.map_eq_some_iff.mp h
        exact (hI.held _ (.inr (.inr (.inr ⟨e, List.mem_of_find?_eq_some he, rfl⟩)))).2.2
      · cases h

theorem Inv.createDtable {M : Machine} (hI : Inv M) {cls : Class} (hc : M.alive cls) :
    Inv (next M (.createDtable cls)) := by
  unfold TableGrowth.next
  dsimp only
  cases ht : newDtable M cls with
  | none => exact hI
  | some t =>
    rw [Option.elim_some]
    refine ⟨⟨hI.listed, hI.isa, hI.super, hI.alive_lt⟩, hI.valid, fun p hp => ?_⟩
    have hpos := (hI.held _ (.inl rfl)).2.1
    have hcases : p = M.next ∨ Held M p := by
      rcases hp with h | h | h | ⟨e, he, h⟩
      · exact .inr (.inl h)
      · exact .inr (.inr (.inl h))
      · exact .inr (.inr (.inr (.inl h)))
      · rcases List.mem_cons.mp he with rfl | he
        · exact .inl h.symm
        · exact .inr (.inr (.inr (.inr ⟨e, he, h⟩)))
    dsimp only
    rcases hcases with rfl | hp
    · rw [Function.update_self]
      refine ⟨?_, Nat.lt_succ_self _, newDtable_depth hI hc ht⟩
      unfold null
      omega
    · obtain ⟨hne, hlt, hdepth⟩ := hI.held p hp
      rw [Function.update_of_ne hlt.ne]
      exact ⟨hne, Nat.lt_succ_of_lt hlt, hdepth⟩

theorem Inv.insert {M : Machine} (hI : Inv M) (dtable index : ℕ) (method : Option MethodId) :
    Inv (next M (.insert dtable index method)) := by
  refine ⟨⟨hI.listed, hI.isa, hI.super, hI.alive_lt⟩, hI.valid, fun p hp => ?_⟩
  obtain ⟨hne, hlt, hdepth⟩ := hI.held p hp
  refine ⟨hne, hlt, ?_⟩
  unfold TableGrowth.next
  dsimp only
  by_cases hpd : p = dtable
  · rw [hpd, Function.update_self]
    rw [hpd] at hdepth
    exact hdepth
  · rw [Function.update_of_ne hpd]
    exact hdepth

theorem Linked.list {M : Machine} (hl : Linked M) {cls : Class} (hc : M.alive cls)
    (hm : M.isMeta cls = false) :
    Linked { M with classTable := cls :: M.classTable } where
  listed c hc' := by
    rcases List.mem_cons.mp hc' with rfl | hc'
    · exact ⟨hc, hm⟩
    · exact hl.listed c hc'
  isa := hl.isa
  super := hl.super
  alive_lt := hl.alive_lt

theorem Inv.disposeClassPair {M : Machine} (hI : Inv M) {cls : Class}
    (hen : enabled M (.disposeClassPair cls)) :
    Inv (next M (.disposeClassPair cls)) := by
  obtain ⟨hc, hm, -, -, hrefs⟩ := hen
  obtain ⟨hisa, hisaMeta⟩ := hI.isa cls hc hm
  -- what stays was there, is another class, and is not a metaclass that was disposed of
  have halive : ∀ c, (next M (.disposeClassPair cls)).alive c → M.alive c ∧ c ≠ cls ∧
      (M.duplicate cls = true ∨ c ≠ M.isa cls) := by
    intro c hc'
    unfold TableGrowth.next at hc'
    dsimp only at hc'
    by_cases hd : M.duplicate cls = true
    · rw [if_pos hd] at hc'
      by_cases hcc : c = cls
      · rw [hcc, Function.update_self] at hc'
        cases hc'
      · rw [Function.update_of_ne hcc] at hc'
        exact ⟨hc', hcc, .inl hd⟩
    · rw [if_neg hd] at hc'
      by_cases hci : c = M.isa cls
      · rw [hci, Function.update_self] at hc'
        cases hc'
      · rw [Function.update_of_ne hci] at hc'
        by_cases hcc : c = cls
        · rw [hcc, Function.update_self] at hc'
          cases hc'
        · rw [Function.update_of_ne hcc] at hc'
          exact ⟨hc', hcc, .inr hci⟩
  have hkept : ∀ c, M.alive c → c ≠ cls → (M.duplicate cls = false → c ≠ M.isa cls) →
      (next M (.disposeClassPair cls)).alive c := by
    intro c hc' hcc hci
    unfold TableGrowth.next
    dsimp only
    by_cases hd : M.duplicate cls = true
    · rw [if_pos hd, Function.update_of_ne hcc]
      exact hc'
    · rw [if_neg hd, Function.update_of_ne (hci (by simpa using hd)), Function.update_of_ne hcc]
      exact hc'
  refine hI.store rfl rfl rfl (fun p hp => ?_) ⟨fun c hc' => ?_, fun c hc' hm' => ?_, fun c hc' s hs => ?_,
    fun c hc' => hI.alive_lt c (halive c hc').1⟩
  · rcases hp with h | ⟨c, hc', ha, h⟩ | h
    · exact .inl h
    · exact .inr (.inl ⟨c, hc', (halive c ha).1, h⟩)
    · exact .inr (.inr h)
  · obtain ⟨hmem, hcc⟩ := List.mem_filter.mp hc'
    obtain ⟨ha, hm'⟩ := hI.listed c hmem
    refine ⟨hkept c ha (by simpa using hcc) fun _ hci => ?_, hm'⟩
    rw [hci, hisaMeta] at hm'
    cases hm'
  · obtain ⟨ha, hcc, hci⟩ := halive c hc'
    obtain ⟨hia, him⟩ := hI.isa c ha hm'
    obtain ⟨-, hr⟩ := hrefs c (List.mem_range.mpr (hI.alive_lt c ha)) ha hcc hci
    refine ⟨hkept _ hia ?_ fun hd => (hr hd).2, him⟩
    intro hcls
    have hcls : M.isa c = cls := hcls
    rw [hcls, hm] at him
    cases him
  · obtain ⟨ha, hcc, hci⟩ := halive c hc'
    obtain ⟨hs', hr⟩ := hrefs c (List.mem_range.mpr (hI.alive_lt c ha)) ha hcc hci
    have hs : M.superClass c = some s := hs
    refine hkept s (hI.super c ha s hs) ?_ fun hd => ?_
    · rintro rfl
      exact hs' hs
    · rintro rfl
      exact (hr hd).1 hs

theorem Inv.deallocHiddenClass {M : Machine} (hI : Inv M) {cls : Class}
    (hen : enabled M (.deallocHiddenClass cls)) :
    Inv (next M (.deallocHiddenClass cls)) := by
  obtain ⟨-, hm, -, hlisted, hrefs⟩ := hen
  have halive : ∀ c, (next M (.deallocHiddenClass cls)).alive c ↔ c ≠ cls ∧ M.alive c := by
    intro c
    unfold TableGrowth.next
    dsimp only
    by_cases hcc : c = cls
    · simp [hcc]
    · simp [hcc]
  refine hI.store rfl rfl rfl (fun p hp => ?_) ⟨fun c hc => ?_, fun c hc hm' => ?_, fun c hc s hs => ?_,
    fun c hc => hI.alive_lt c ((halive c).mp hc).2⟩
  · rcases hp with h | ⟨c, hc', ha, h⟩ | h
    · exact .inl h
    · exact .inr (.inl ⟨c, hc', ((halive c).mp ha).2, h⟩)
    · exact .inr (.inr h)
  · obtain ⟨ha, hm'⟩ := hI.listed c hc
    refine ⟨(halive c).mpr ⟨?_, ha⟩, hm'⟩
    rintro rfl
    exact hlisted hc
  · obtain ⟨-, ha⟩ := (halive c).mp hc
    obtain ⟨hia, him⟩ := hI.isa c ha hm'
    refine ⟨(halive _).mpr ⟨?_, hia⟩, him⟩
    intro hcls
    have hcls : M.isa c = cls := hcls
    rw [hcls, hm] at him
    cases him
  · obtain ⟨-, ha⟩ := (halive c).mp hc
    have hs : M.superClass c = some s := hs
    refine (halive s).mpr ⟨?_, hI.super c ha s hs⟩
    rintro rfl
    exact hrefs c (List.mem_range.mpr (hI.alive_lt c ha)) ha hs

/-- **One step.** -/
theorem Inv.next {M : Machine} (hI : Inv M) {op : Op} (hen : enabled M op) (hok : StepOk M op) :
    Inv (next M op) := by
  have hl : Linked M := hI.toLinked
  cases op with
  | allocateClassPair super =>
    exact hI.store rfl rfl rfl (fun _ => held_newPair) (hl.newPair hen)
  | loadClass super =>
    refine hI.store rfl rfl rfl (fun p hp => ?_) ?_
    · have hp : Held (newPair M super) p := hp
      exact held_newPair hp
    exact (hl.newPair hen).list (by simp [newPair]) (by simp [newPair])
  | registerClassPair cls =>
    exact hI.store rfl rfl rfl (fun _ => id) (hl.list hen.1 hen.2.1)
  | duplicateClass original =>
    obtain ⟨ha, hm⟩ := hl.listed original hen
    refine hI.store rfl rfl rfl (fun p hp => ?_) ?_
    · have hp : Held (newSharing M (M.superClass original) (M.isa original) true) p := hp
      exact held_newSharing hp
    exact (hl.newSharing true (hl.super original ha) (hl.isa original ha hm)).list (by simp [newSharing])
      (by simp [newSharing])
  | hiddenClass super =>
    refine hI.store rfl rfl rfl (fun _ => held_newSharing) (hl.newSharing false ?_ (hl.isa super hen.1 hen.2))
    intro s hs
    cases hs
    exact hen.1
  | disposeClassPair cls => exact hI.disposeClassPair hen
  | deallocHiddenClass cls => exact hI.deallocHiddenClass hen
  | createDtable cls => exact hI.createDtable hen.1
  | installDtable cls =>
    unfold TableGrowth.next
    dsimp only
    cases h : M.localOf cls with
    | none => exact hI
    | some dtable =>
      refine hI.store rfl rfl rfl (fun p hp => ?_) ⟨hl.listed, hl.isa, hl.super, hl.alive_lt⟩
      exact held_setDtable (localOf_held h) (held_of_subset (M := M.setDtable cls dtable) (List.Subset.refl _)
        (fun _ => mem_of_mem_without) hp)
  | beginInitialize cls =>
    unfold TableGrowth.next
    dsimp only
    cases h : M.localOf cls with
    | none => exact hI
    | some dtable =>
      cases h' : M.localOf (M.isa cls) with
      | none => exact hI
      | some metaDtable =>
        refine hI.store rfl rfl rfl (fun p hp => ?_) ⟨hl.listed, hl.isa, hl.super, hl.alive_lt⟩
        rcases hp with hp | hp | ⟨e, he, hp⟩ | ⟨e, he, hp⟩
        · exact .inl hp
        · exact .inr (.inl hp)
        · rcases List.mem_cons.mp he with rfl | he
          · exact hp ▸ localOf_held h'
          rcases List.mem_cons.mp he with rfl | he
          · exact hp ▸ localOf_held h
          · exact .inr (.inr (.inl ⟨e, he, hp⟩))
        · exact .inr (.inr (.inr ⟨e, mem_of_mem_without (mem_of_mem_without he), hp⟩))
  | endInitialize cls =>
    unfold TableGrowth.next
    dsimp only
    cases h : M.temporaryOf cls with
    | none => exact hI
    | some dtable =>
      cases h' : M.temporaryOf (M.isa cls) with
      | none => exact hI
      | some metaDtable =>
        refine hI.store rfl rfl rfl (fun p hp => ?_) ⟨hl.listed, hl.isa, hl.super, hl.alive_lt⟩
        have hp' := held_of_subset (M := (M.setDtable (M.isa cls) metaDtable).setDtable cls dtable)
          (fun _ he => mem_of_mem_without (mem_of_mem_without he)) (List.Subset.refl _) hp
        have hstored : Held (M.setDtable (M.isa cls) metaDtable) dtable :=
          temporaryOf_held (M := M.setDtable (M.isa cls) metaDtable) h
        exact held_setDtable (temporaryOf_held h') (held_setDtable hstored hp')
  | insert dtable index method => exact hI.insert dtable index method
  | rehash classTable =>
    refine hI.store rfl rfl rfl (fun _ => id) ⟨fun c hc => ?_, hl.isa, hl.super, hl.alive_lt⟩
    exact hl.listed c (hen.mem_iff.mp hc)
  | resize newSize => exact hI.resize hok

theorem inv_start : Inv Machine.start where
  listed _ h := by cases h
  isa _ h := by cases h
  super _ h := by cases h
  alive_lt _ h := by cases h
  valid := by decide
  held p hp := by
    have hp : p = 1 := by
      rcases hp with h | ⟨_, _, h, -⟩ | ⟨_, h, -⟩ | ⟨_, h, -⟩
      · exact h
      · cases h
      · cases h
      · cases h
    subst hp
    decide

/-- The steps of the runs: the tables grow only where this reaches all of them. -/
def stepsOk : Machine → Op → Machine → Prop := guarded (fun M op => enabled M op ∧ StepOk M op) next

/-- **What the steps keep, the runs keep.** -/
theorem Inv.of_runs {M : Machine} (h : Runs stepsOk Machine.start M) : Inv M :=
  h.invariant inv_start fun _ _ _ hI ⟨⟨hen, hok⟩, hnext⟩ => by
    rw [hnext]
    exact hI.next hen hok

/-- A root class that has sent `+initialize`, and a class that is inside it. -/
def insideInitialize : List Op :=
  [.loadClass none, .createDtable 0, .createDtable 1, .installDtable 1, .installDtable 0,
    .insert 2 7 (some 5),
    .loadClass (some 0), .createDtable 2, .createDtable 3, .beginInitialize 2, .loadClass (some 0)]

end Libobjc2.Dispatch.TableGrowth
