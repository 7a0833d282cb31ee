import Libobjc2.Classes.IvarLayout
import Libobjc2.Common.Run
import Libobjc2.Common.Stacked

/-!
# Adding instance variables at run time (`src/runtime/runtime.c`)

`class_addIvar` adds an ivar at the end of a class pair that is not registered yet and keeps its offset
in the pointer field for it. `objc_registerClassPair` moves the offsets into an array of `int`.

The superclass is what the pair sees of it: its instance size when the pair is allocated and once
`objc_resolve_class` has run, which the first search for an ivar calls for, and the names of the ivars
that are inherited.

Results:
* `pairInv_classAddIvar`: every call keeps the ivars stacked behind the superclass.
* `addedIvars_placed_iff`: when the registered class has its ivars where they were added.
* `addedIvars_aligned_iff`: an added ivar is aligned if it asks for no more than a word.
* `ivars_aligned`: the alignment of both ways to lay out a class.
-/

namespace Libobjc2.Classes.Ivars

open Libobjc2.Common Libobjc2.Alignment

/-! ## Model -/

/-- The superclass of a pair. -/
structure Superclass where
  instanceSize : ℤ
  resolvedSize : ℤ
  names : List (List Char)
deriving DecidableEq, Repr

/-- An ivar of a pair, with the number that stands in its pointer field `offset`. -/
structure AddedIvar where
  name : List Char
  type : List Char
  size : UInt32
  flags : UInt32
  offset : ℕ
deriving DecidableEq, Repr

/-- A class pair that is not registered. -/
structure Pair where
  super : Option Superclass
  resolved : Bool
  instanceSize : ℤ
  ivars : Option (List AddedIvar)
deriving DecidableEq, Repr

/-- The arguments of `class_addIvar`, of which `name` and `types` may be `NULL`; whether the class is
    already initialized; and whether there is memory for the copies and the longer list. -/
structure Call where
  name : Option (List Char)
  types : Option (List Char)
  size : UInt64
  alignment : UInt8
  initialized : Bool
  memory : Bool
deriving DecidableEq, Repr

/-- `objc_allocateClassPair` (lines 1066–1123). -/
def objcAllocateClassPair (super : Option Superclass) : Pair :=
  ⟨super, false, super.elim 8 Superclass.instanceSize, none⟩

namespace Pair

/-- The ivars of a list that may be `NULL`. -/
def added (p : Pair) : List AddedIvar := p.ivars.getD []

/-- The instance size of the superclass, and 0 without one. -/
def superSize (p : Pair) : ℤ := p.super.elim 0 Superclass.resolvedSize

/-- `objc_resolve_class`: a pair without ivars takes over the size of its resolved superclass
    (`src/runtime/ivar.c`, lines 17–25). -/
def objcResolveClass (p : Pair) : Pair :=
  if p.resolved then p
  else
    { p with
      resolved := true
      instanceSize := if p.ivars = none then p.super.elim p.instanceSize Superclass.resolvedSize
          else p.instanceSize }

/-- `class_getInstanceVariable` (lines 496–519): whether there is one. The superclass of the pair is
    asked for, and the pair resolved, if it has no such ivar itself. -/
def classGetInstanceVariable (p : Pair) (name : List Char) : Pair × Bool :=
  if name ∈ p.added.map AddedIvar.name then (p, true)
  else
    let p := p.objcResolveClass
    (p, p.super.any fun s => name ∈ s.names)

/-- The instance size, rounded up by masking the low bits (lines 111–114). -/
def newOffset (p : Pair) (c : Call) : ℕ :=
  let byteAlignment := 2 ^ c.alignment.toNat
  (p.instanceSize.toNat + byteAlignment - 1) / byteAlignment * byteAlignment

/-- The checks in lines 108–158. The size of the longer list cannot overflow. -/
def hasRoom (p : Pair) (c : Call) : Bool :=
  c.size.toNat < 2 ^ 32 ∧ 0 ≤ p.instanceSize ∧ c.alignment.toNat < 64 ∧
  p.instanceSize.toNat ≤ 2 ^ 64 - 1 - (2 ^ c.alignment.toNat - 1) ∧
  c.size.toNat ≤ 2 ^ 64 - 1 - p.newOffset c ∧ p.newOffset c + c.size.toNat < 2 ^ 63 ∧
  c.memory ∧ p.added.length < 2 ^ 31 - 1

end Pair

/-- `ivarSetAlign` (`src/internal/runtime/ivar.h`, lines 97–115). -/
def ivarSetAlign (flags : UInt32) (align : ℕ) : UInt32 :=
  (flags &&& ~~~(0x1f8 : UInt32)) ||| (UInt32.ofNat (Nat.log2 align) <<< (3 : UInt32))

/-- The ivar that is appended (lines 160–167). -/
def newIvar (p : Pair) (c : Call) (name types : List Char) : AddedIvar :=
  ⟨name, types, UInt32.ofNat c.size.toNat, ivarSetAlign 0 (2 ^ c.alignment.toNat), p.newOffset c⟩

/-- `class_addIvar` (lines 100–170). -/
def classAddIvar (p : Pair) (c : Call) : Pair × Bool :=
  match c.name, c.types with
  | some name, some types =>
    if c.initialized then (p, false)
    else
      let (p, found) := p.classGetInstanceVariable name
      if found then (p, false)
      else if p.hasRoom c then
        ({ p with
           ivars := some (p.added ++ [newIvar p c name types])
           instanceSize := p.newOffset c + c.size.toNat }, true)
      else (p, false)
  | _, _ => (p, false)

/-- The offset of a registered ivar is an `int`. -/
def AddedIvar.registered (ivar : AddedIvar) : Ivar := ⟨ivar.type, toInt ivar.offset, ivar.size, ivar.flags⟩

/-- `objc_registerClassPair` (lines 1164–1197), which returns early if there is no memory for the offsets. -/
def objcRegisterClassPair (p : Pair) (memory : Bool) : Option Class :=
  if p.added ≠ [] ∧ memory = false then none
  else some ⟨p.objcResolveClass.instanceSize, p.ivars.map (List.map AddedIvar.registered)⟩

/-! ## Specification -/

/-- The call gets as far as the search for an ivar of this name. -/
def Call.IsSearched (c : Call) : Prop := c.name.isSome ∧ c.types.isSome ∧ c.initialized = false

instance (c : Call) : Decidable c.IsSearched := inferInstanceAs (Decidable (_ ∧ _))

/-- The checks of `class_addIvar`. -/
def Pair.accepts (p : Pair) (c : Call) : Bool :=
  c.types.isSome && !c.initialized && c.name.any fun name =>
    !(p.classGetInstanceVariable name).2 && (p.classGetInstanceVariable name).1.hasRoom c

/-- The pair or its superclass is resolved, or resolving it does not change the size. -/
def Pair.Settled (p : Pair) : Prop := p.resolved = true ∨ ∀ s ∈ p.super, s.resolvedSize = p.instanceSize

instance (p : Pair) : Decidable p.Settled := inferInstanceAs (Decidable (_ ∨ _))

/-- The pair behind a call. -/
def nextPair (p : Pair) (c : Call) : Pair := (classAddIvar p c).1

/-- A call that is refused leaves the ivars and the size as they are. -/
def KeepsRefused (p : Pair) (c : Call) : Prop :=
  (classAddIvar p c).2 = false → (nextPair p c).ivars = p.ivars ∧ (nextPair p c).instanceSize = p.instanceSize

/-- An ivar that is accepted gets an offset that is an `int`. -/
def FitsInt (p : Pair) (c : Call) : Prop := p.accepts c = true → p.objcResolveClass.newOffset c < 2 ^ 31

instance (p : Pair) (c : Call) : Decidable (FitsInt p c) := inferInstanceAs (Decidable (_ → _))

/-- A call that is refused behind the search finds the size of the superclass settled. -/
def FindsSettled (p : Pair) (c : Call) : Prop := p.accepts c = false → c.IsSearched → p.Settled

instance (p : Pair) (c : Call) : Decidable (FindsSettled p c) := inferInstanceAs (Decidable (_ → _))

/-! ## What a call does -/

namespace Pair

@[simp] theorem objcResolveClass_ivars (p : Pair) : p.objcResolveClass.ivars = p.ivars := by
  unfold objcResolveClass
  split <;> rfl

@[simp] theorem objcResolveClass_super (p : Pair) : p.objcResolveClass.super = p.super := by
  unfold objcResolveClass
  split <;> rfl

@[simp] theorem objcResolveClass_added (p : Pair) : p.objcResolveClass.added = p.added := by
  rw [added, objcResolveClass_ivars, added]

@[simp] theorem objcResolveClass_superSize (p : Pair) : p.objcResolveClass.superSize = p.superSize := by
  rw [superSize, objcResolveClass_super, superSize]

theorem objcResolveClass_resolved (p : Pair) : p.objcResolveClass.resolved = true := by
  unfold objcResolveClass
  split
  · assumption
  · rfl

theorem objcResolveClass_of_resolved {p : Pair} (h : p.resolved = true) : p.objcResolveClass = p := by
  rw [objcResolveClass, if_pos h]

end Pair

/-- A call is accepted, or refused without a trace, or refused once the pair was resolved. -/
theorem classAddIvar_cases (p : Pair) (c : Call) :
    (∃ name types, p.accepts c = true ∧ p.objcResolveClass.hasRoom c = true ∧
      classAddIvar p c =
        ({ p.objcResolveClass with
           ivars := some (p.added ++ [newIvar p.objcResolveClass c name types])
           instanceSize := p.objcResolveClass.newOffset c + c.size.toNat }, true)) ∨
    (p.accepts c = false ∧ (¬c.IsSearched ∨ p.added ≠ []) ∧ classAddIvar p c = (p, false)) ∨
    (p.accepts c = false ∧ c.IsSearched ∧ classAddIvar p c = (p.objcResolveClass, false)) := by
  unfold classAddIvar Pair.accepts Call.IsSearched
  cases hname : c.name with
  | none => exact .inr (.inl (by simp))
  | some name =>
    cases htypes : c.types with
    | none => exact .inr (.inl (by simp))
    | some types =>
      cases hinit : c.initialized with
      | true => exact .inr (.inl (by simp))
      | false =>
        simp only [Bool.false_eq_true, if_false, Option.isSome_some, Option.any_some]
        unfold Pair.classGetInstanceVariable
        by_cases hown : name ∈ p.added.map AddedIvar.name
        · have hne : p.added ≠ [] := fun h => by simp [h] at hown
          exact .inr (.inl (by simp [hown, hne]))
        · simp only [hown, if_false]
          cases hfound : p.objcResolveClass.super.any fun s => name ∈ s.names with
          | true => exact .inr (.inr (by simp))
          | false =>
            cases hroom : p.objcResolveClass.hasRoom c with
            | true => exact .inl ⟨name, types, by simp, rfl, by simp⟩
            | false => exact .inr (.inr (by simp))

theorem classAddIvar_snd (p : Pair) (c : Call) : (classAddIvar p c).2 = p.accepts c := by
  obtain ⟨_, _, hacc, -, heq⟩ | ⟨hacc, -, heq⟩ | ⟨hacc, -, heq⟩ := classAddIvar_cases p c <;> rw [heq, hacc]

/-! ## The invariant -/

/-- The bytes of the ivars of a pair. -/
def Pair.blocks (p : Pair) : List (ℕ × ℕ) := p.added.map fun a => (a.offset, a.size.toNat)

/-- The ivars are stacked behind the superclass, and there are none before the pair is resolved. -/
structure PairInv (p : Pair) : Prop where
  unresolved : p.resolved = false → p.ivars = none
  root : p.super = none → 0 ≤ p.instanceSize
  nonneg : p.ivars ≠ none → 0 ≤ p.instanceSize
  size : p.resolved = true → p.superSize ≤ p.instanceSize
  stacked : p.resolved = true → Stacked p.superSize.toNat p.blocks p.instanceSize.toNat

theorem pairInv_objcAllocateClassPair (super : Option Superclass) :
    PairInv (objcAllocateClassPair super) := by
  refine ⟨fun _ => rfl, fun h => ?_, fun h =>
      absurd rfl h, by simp [objcAllocateClassPair], by simp [objcAllocateClassPair]⟩
  obtain rfl : super = none := h
  decide

theorem pairInv_objcResolveClass {p : Pair} (h : PairInv p) : PairInv p.objcResolveClass := by
  cases hres : p.resolved with
  | true => rwa [Pair.objcResolveClass_of_resolved hres]
  | false =>
    have hnone := h.unresolved hres
    have hblocks : p.objcResolveClass.blocks = [] := by simp [Pair.blocks, Pair.added, hnone]
    have hsize : p.objcResolveClass.instanceSize = p.super.elim p.instanceSize Superclass.resolvedSize := by
      simp [Pair.objcResolveClass, hres, hnone]
    have hle : p.superSize ≤ p.objcResolveClass.instanceSize := by
      rw [hsize, Pair.superSize]
      cases hs : p.super with
      | none => exact h.root hs
      | some s => exact le_rfl
    refine ⟨fun _ => by rw [Pair.objcResolveClass_ivars, hnone], fun hs => ?_, fun hs => ?_, fun _ => ?_, fun _ => ?_⟩
    · rw [Pair.objcResolveClass_super] at hs
      rw [hsize, hs]
      exact h.root hs
    · rw [Pair.objcResolveClass_ivars] at hs
      exact absurd hnone hs
    · rwa [Pair.objcResolveClass_superSize]
    · rw [hblocks, Pair.objcResolveClass_superSize]
      exact Int.toNat_le_toNat hle

theorem le_newOffset (p : Pair) (c : Call) : p.instanceSize.toNat ≤ p.newOffset c := by
  have hpos := Nat.two_pow_pos c.alignment.toNat
  have h := Nat.lt_div_mul_add (a := p.instanceSize.toNat + 2 ^ c.alignment.toNat - 1) hpos
  unfold Pair.newOffset
  simp only
  omega

theorem newIvar_size {p : Pair} {c : Call} (h : p.hasRoom c = true) (name types : List Char) :
    (newIvar p c name types).size.toNat = c.size.toNat := by
  have hlt : c.size.toNat < 2 ^ 32 := (of_decide_eq_true h).1
  change (UInt32.ofNat c.size.toNat).toNat = c.size.toNat
  rw [UInt32.toNat_ofNat']
  exact Nat.mod_eq_of_lt hlt

theorem pairInv_accepted {p : Pair} (h : PairInv p) (hres : p.resolved = true) {c : Call}
    (hroom : p.hasRoom c = true) (name types : List Char) :
    PairInv { p with
      ivars := some (p.added ++ [newIvar p c name types])
      instanceSize := p.newOffset c + c.size.toNat } := by
  have hle := le_newOffset p c
  have hsize := h.size hres
  refine ⟨fun hf => by simp [hres] at hf, fun _ => by positivity, fun _ => by positivity, fun _ => ?_, fun _ => ?_⟩
  · change p.superSize ≤ (p.newOffset c + c.size.toNat : ℤ)
    omega
  · have hstacked := stacked_concat (b := (p.newOffset c, c.size.toNat)) (h.stacked hres) hle le_rfl
    have hblocks : Pair.blocks { p with
        ivars := some (p.added ++ [newIvar p c name types])
        instanceSize := p.newOffset c + c.size.toNat } = p.blocks ++ [(p.newOffset c, c.size.toNat)] := by
      simp only [Pair.blocks, Pair.added, Option.getD_some, List.map_append, List.map_cons, List.map_nil,
        newIvar_size hroom]
      rfl
    rw [hblocks]
    exact hstacked

/-- **The step.** Every call keeps the invariant. -/
theorem pairInv_classAddIvar {p : Pair} (h : PairInv p) (c : Call) : PairInv (nextPair p c) := by
  have hresolved := pairInv_objcResolveClass h
  unfold nextPair
  obtain ⟨name, types, -, hroom, heq⟩ | ⟨-, -, heq⟩ | ⟨-, -, heq⟩ := classAddIvar_cases p c
  · rw [heq]
    have := pairInv_accepted hresolved p.objcResolveClass_resolved hroom name types
    rwa [Pair.objcResolveClass_added] at this
  · rwa [heq]
  · rwa [heq]

theorem pairInv_runList {p : Pair} (h : PairInv p) (calls : List Call) : PairInv (runList nextPair p calls) :=
  runList_keeps PairInv (fun _ c h => pairInv_classAddIvar h c) calls h

/-! ## What a sequence of calls does -/

/-- Which calls leave their mark: a refused call does so where it finds the pair unsettled. -/
theorem keepsRefused_iff {p : Pair} (h : PairInv p) (c : Call) : KeepsRefused p c ↔ FindsSettled p c := by
  unfold KeepsRefused FindsSettled nextPair
  rw [classAddIvar_snd]
  obtain ⟨_, _, hacc, -, -⟩ | ⟨hacc, hwhy, heq⟩ | ⟨hacc, hsearched, heq⟩ := classAddIvar_cases p c
  · simp [hacc]
  · rw [heq]
    refine ⟨fun _ _ hsearched => .inl ?_, fun _ _ => ⟨rfl, rfl⟩⟩
    rcases hwhy with hwhy | hne
    · exact absurd hsearched hwhy
    · by_contra hres
      rw [Pair.added, h.unresolved (by simpa using hres)] at hne
      exact hne rfl
  · rw [heq, Pair.objcResolveClass_ivars]
    simp only [hacc, hsearched, true_and, forall_const]
    unfold Pair.Settled Pair.objcResolveClass
    cases hres : p.resolved with
    | true => simp
    | false =>
      rw [h.unresolved hres]
      cases hs : p.super with
      | none => simp
      | some s => simp

/-- The offsets that a pair has behind a sequence of calls. -/
theorem forall_added_runList (q : ℕ → Prop) (calls : List Call) (p : Pair) :
    (∀ a ∈ (runList nextPair p calls).added, q a.offset) ↔
      (∀ a ∈ p.added, q a.offset) ∧
      AllOk (fun p c => p.accepts c = true → q (p.objcResolveClass.newOffset c)) nextPair p calls := by
  induction calls generalizing p with
  | nil => simp [runList, AllOk]
  | cons c calls ih =>
    have hrun : runList nextPair p (c :: calls) = runList nextPair (nextPair p c) calls := rfl
    rw [hrun, ih, AllOk, ← and_assoc]
    refine and_congr_left fun _ => ?_
    unfold nextPair
    obtain ⟨name, types, hacc, -, heq⟩ | ⟨hacc, -, heq⟩ | ⟨hacc, -, heq⟩ := classAddIvar_cases p c
    · simp [heq, hacc, Pair.added, newIvar, or_imp, forall_and]
    · simp [heq, hacc]
    · simp [heq, hacc]

/-! ## The registered class -/

theorem registered_placed {p : Pair} (h : PairInv p) (hres : p.resolved = true)
    (hfit : ∀ a ∈ p.added, a.offset < 2 ^ 31) :
    Placed (p.added.map AddedIvar.registered) p.superSize p.instanceSize fun _ _ => False := by
  have hstacked := h.stacked hres
  have hoffset : ∀ a ∈ p.added, toInt a.offset = a.offset := fun a ha =>
    (toInt_natCast_iff a.offset).mpr (hfit a ha)
  constructor
  · intro ivar hivar
    obtain ⟨a, ha, rfl⟩ := List.mem_map.mp hivar
    obtain ⟨hlo, hhi⟩ := hstacked.within _ (List.mem_map_of_mem ha)
    have hsize := h.size hres
    have hnonneg := h.nonneg fun hnone => by simp [Pair.added, hnone] at ha
    unfold AddedIvar.registered
    simp only at hlo hhi ⊢
    rw [hoffset a ha]
    omega
  · rintro ⟨i, hi⟩ ⟨j, hj⟩ hij - byte hboth
    rw [List.length_map] at hi hj
    have hpair := List.pairwise_iff_getElem.mp hstacked.pairwise i j (by simpa [Pair.blocks])
      (by simpa [Pair.blocks]) (by simpa using hij)
    have hi' := hoffset p.added[i] (List.getElem_mem hi)
    have hj' := hoffset p.added[j] (List.getElem_mem hj)
    simp only [Pair.blocks, List.getElem_map] at hpair
    simp only [Fin.getElem_fin, List.getElem_map, Ivar.Occupies, AddedIvar.registered] at hboth
    omega

/-- **Where added ivars are.** A registered class has each ivar at the offset it was added at, behind the
    superclass, inside the object and apart from the others, and no refused call changed the pair, exactly if
    every accepted ivar got an offset up to `INT_MAX` and every call that was refused behind its search found
    the size of the superclass settled. -/
theorem addedIvars_placed_iff (super : Option Superclass) (calls : List Call) (memory : Bool) (cls : Class)
    (h : objcRegisterClassPair (runList nextPair (objcAllocateClassPair super) calls) memory = some cls) :
    (AllOk KeepsRefused nextPair (objcAllocateClassPair super) calls ∧
      (cls.ivars.getD []).map Ivar.offset =
        (runList nextPair (objcAllocateClassPair super) calls).added.map (fun a => (a.offset : ℤ)) ∧
      Placed (cls.ivars.getD []) (objcAllocateClassPair super).superSize cls.instanceSize fun _ _ => False) ↔
    AllOk (fun p c => FitsInt p c ∧ FindsSettled p c) nextPair (objcAllocateClassPair super) calls := by
  have hstart := pairInv_objcAllocateClassPair super
  have hsuper : ∀ (calls : List Call) (p : Pair), (runList nextPair p calls).superSize = p.superSize := by
    intro calls
    induction calls with
    | nil => exact fun _ => rfl
    | cons c calls ih =>
      intro p
      rw [show runList nextPair p (c :: calls) = runList nextPair (nextPair p c) calls from rfl, ih]
      unfold nextPair
      obtain ⟨_, _, -, -, heq⟩ | ⟨-, -, heq⟩ | ⟨-, -, heq⟩ := classAddIvar_cases p c <;> rw [heq]
      · exact p.objcResolveClass_superSize
      · exact p.objcResolveClass_superSize
  have hrefused : AllOk KeepsRefused nextPair (objcAllocateClassPair super) calls ↔
      AllOk FindsSettled nextPair (objcAllocateClassPair super) calls :=
    allOk_congr PairInv (fun _ c h => pairInv_classAddIvar h c) (fun _ c h => keepsRefused_iff h c)
    calls hstart
  have hfits := forall_added_runList (· < 2 ^ 31) calls (objcAllocateClassPair super)
  have hnone : ∀ a ∈ (objcAllocateClassPair super).added,
      a.offset < 2 ^ 31 := by simp [objcAllocateClassPair, Pair.added]
  rw [allOk_and_iff, hrefused]
  set p := runList nextPair (objcAllocateClassPair super) calls with hp
  have hinv : PairInv p.objcResolveClass := pairInv_objcResolveClass (pairInv_runList hstart calls)
  have hcls : cls = ⟨p.objcResolveClass.instanceSize, p.ivars.map (List.map AddedIvar.registered)⟩ := by
    unfold objcRegisterClassPair at h
    split at h
    · simp at h
    · exact (Option.some.inj h).symm
  have hivars : cls.ivars.getD [] = p.added.map AddedIvar.registered := by
    rw [hcls, Pair.added]
    cases p.ivars <;> rfl
  have hread : (cls.ivars.getD []).map Ivar.offset = p.added.map (fun a => (a.offset : ℤ)) ↔
      ∀ a ∈ p.added, a.offset < 2 ^ 31 := by
    rw [hivars, List.map_map, List.map_inj_left]
    refine forall₂_congr fun a _ => ?_
    rw [Function.comp_apply, AddedIvar.registered]
    dsimp only
    exact toInt_natCast_iff a.offset
  rw [hread, hfits]
  constructor
  · rintro ⟨hsettled, ⟨-, hint⟩, -⟩
    exact ⟨hint, hsettled⟩
  · rintro ⟨hint, hsettled⟩
    refine ⟨hsettled, ⟨hnone, hint⟩, ?_⟩
    have hplaced := registered_placed hinv p.objcResolveClass_resolved (by
      rw [Pair.objcResolveClass_added]
      exact hfits.mpr ⟨hnone, hint⟩)
    rw [Pair.objcResolveClass_added, Pair.objcResolveClass_superSize, hp, hsuper] at hplaced
    rw [hivars, hcls]
    exact hplaced

/-- A pair under a superclass of 8 bytes gets a `char` and an `int`, and a call that is refused. -/
def narrowCalls : List Call :=
  [⟨some ['c'], some ['c'], 1, 0, false, true⟩, ⟨some ['i'], some ['i'], 4, 2, false, true⟩,
    ⟨some ['c'], some ['c'], 1, 0, false, true⟩]

theorem addedIvars_placed_narrow :
    AllOk KeepsRefused nextPair (objcAllocateClassPair (some ⟨8, 8, []⟩)) narrowCalls ∧
    Placed [⟨['c'], 8, 1, 0⟩, ⟨['i'], 12, 4, 16⟩] 8 16 fun _ _ => False := by
  obtain ⟨hrefused, -, hplaced⟩ := (addedIvars_placed_iff (some ⟨8, 8, []⟩) narrowCalls true
    ⟨16, some [⟨['c'], 8, 1, 0⟩, ⟨['i'], 12, 4, 16⟩]⟩ (by decide +kernel)).mpr (by decide +kernel)
  exact ⟨hrefused, hplaced⟩

/-- Behind an ivar of 4 GB less one byte the offset is cut when the class is registered. -/
theorem addedIvars_truncated :
    ¬∀ (super : Option Superclass) (calls : List Call) (memory : Bool) (cls : Class),
      objcRegisterClassPair (runList nextPair (objcAllocateClassPair super) calls) memory = some cls →
      AllOk KeepsRefused nextPair (objcAllocateClassPair super) calls ∧
      (cls.ivars.getD []).map Ivar.offset =
        (runList nextPair (objcAllocateClassPair super) calls).added.map (fun a => (a.offset : ℤ)) ∧
      Placed (cls.ivars.getD []) (objcAllocateClassPair super).superSize cls.instanceSize fun _ _ =>
      False := by
  intro h
  have hcode := (h none [⟨some ['a'], some ['c'], 4294967295, 0, false, true⟩,
    ⟨some ['b'], some ['c'], 1, 0, false, true⟩] true
    ⟨4294967304, some [⟨['c'], 8, 4294967295, 0⟩, ⟨['c'], 7, 1, 0⟩]⟩ (by decide +kernel)).2.1
  revert hcode
  decide +kernel

/-! ## Alignment -/

/-- Where `allocate_class` puts an object in its block (`src/memory/gc_none.c`, lines 36–47). -/
def objectAddress (block : ℕ) : ℕ := block + refcountSize

theorem ivarGetAlign_ivarSetAlign : ∀ k < 64, ivarGetAlign (ivarSetAlign 0 (2 ^ k)) =
    2 ^ k := by decide +kernel

/-- An offset that is aligned stays so when it is cut to an `int`. -/
theorem dvd_toInt {k n : ℕ} (h : 2 ^ k ∣ n) : ((2 ^ k : ℕ) : ℤ) ∣ toInt n := by
  have hcut : (2 ^ 32 : ℤ) ∣ toInt n - n := Int.dvd_bmod_sub_self
  have hn : ((2 ^ k : ℕ) : ℤ) ∣ n := by exact_mod_cast h
  by_cases hk : k ≤ 32
  · have hpow : ((2 ^ k : ℕ) : ℤ) ∣ 2 ^ 32 := by exact_mod_cast pow_dvd_pow 2 hk
    have := Int.dvd_add (hpow.trans hcut) hn
    simpa using this
  · have hpow : (2 ^ 32 : ℤ) ∣ (2 ^ k : ℕ) := by exact_mod_cast pow_dvd_pow 2 (show 32 ≤ k by omega)
    have hdvd : (2 ^ 32 : ℤ) ∣ toInt n := by
      have := Int.dvd_add hcut (hpow.trans hn)
      simpa using this
    have hge := le_toInt n
    have hlt := toInt_lt n
    have hzero : toInt n = 0 := by omega
    rw [hzero]
    exact dvd_zero _

/-- Every added ivar has its alignment in its flags and an offset that is a multiple of it. -/
def AddedAligned (p : Pair) : Prop :=
  ∀ a ∈ p.added, ∃ k < 64, ivarGetAlign a.flags = 2 ^ k ∧ 2 ^ k ∣ a.offset

theorem addedAligned_classAddIvar (p : Pair) (c : Call) (h : AddedAligned p) :
    AddedAligned (nextPair p c) := by
  unfold nextPair
  obtain ⟨name, types, -, hroom, heq⟩ | ⟨-, -, heq⟩ | ⟨-, -, heq⟩ := classAddIvar_cases p c
  · rw [heq]
    intro a ha
    rcases List.mem_append.mp ha with ha | ha
    · exact h a ha
    · have hlt : c.alignment.toNat < 64 := (of_decide_eq_true hroom).2.2.1
      rw [List.mem_singleton.mp ha]
      exact ⟨c.alignment.toNat, hlt, ivarGetAlign_ivarSetAlign _ hlt, Nat.dvd_mul_left _ _⟩
  · rwa [heq]
  · rw [heq]
    unfold AddedAligned
    rwa [Pair.objcResolveClass_added]

/-- **When an added ivar is aligned.** Its offset is a multiple of its alignment, and the object stands one
    word behind such a multiple. -/
theorem addedIvars_aligned_iff {allocAlign block : ℕ} (halloc : IsAlignment allocAlign)
    (hblock : allocAlign ∣ block)
    {super : Option Superclass} {calls : List Call} {memory : Bool} {cls : Class}
    (h : objcRegisterClassPair (runList nextPair (objcAllocateClassPair super) calls) memory = some cls) :
    ∀ ivar ∈ cls.ivars.getD [], ivar.align ≤ allocAlign →
      ((ivar.align : ℤ) ∣ objectAddress block + ivar.offset ↔ ivar.align ≤ refcountSize) := by
  obtain ⟨m, rfl⟩ := halloc
  have hinv : AddedAligned (runList nextPair (objcAllocateClassPair super) calls) :=
    runList_keeps AddedAligned addedAligned_classAddIvar calls
    (by simp [AddedAligned, objcAllocateClassPair, Pair.added])
  intro ivar hivar hle
  have hmem : ∃ a ∈ (runList nextPair (objcAllocateClassPair super) calls).added, a.registered = ivar := by
    unfold objcRegisterClassPair at h
    split at h
    · simp at h
    · obtain rfl := Option.some.inj h
      unfold Pair.added
      cases hi : (runList nextPair (objcAllocateClassPair super) calls).ivars with
      | none => simp [hi] at hivar
      | some l => simpa [hi] using hivar
  obtain ⟨a, ha, rfl⟩ := hmem
  obtain ⟨k, -, hk, hdvd⟩ := hinv a ha
  have halign : a.registered.align = 2 ^ k := hk
  rw [halign] at hle ⊢
  have hkm : 2 ^ k ∣ block := (IsAlignment.dvd_of_le ⟨k, rfl⟩ ⟨m, rfl⟩ hle).trans hblock
  have hoffset : ((2 ^ k : ℕ) : ℤ) ∣ a.registered.offset := by
    rw [AddedIvar.registered]
    dsimp only
    exact dvd_toInt hdvd
  have hword : ((2 ^ k : ℕ) : ℤ) ∣ objectAddress block + a.registered.offset ↔ 2 ^ k ∣ refcountSize := by
    rw [Int.dvd_add_left hoffset, Int.natCast_dvd_natCast]
    exact Nat.dvd_add_right hkm
  rw [hword, show refcountSize = 2 ^ 3 from rfl, Nat.pow_dvd_pow_iff_le_right (by norm_num),
    Nat.pow_le_pow_iff_right (by norm_num)]

/-- **Both layouts.** In an object one word behind a block of the allocator's alignment, an ivar that asks for
    no more than this is aligned, in a late-bound class in which no ivar of a run asks for more than the
    first one; and in a class that was built by adding ivars exactly if it asks for no more than a word. -/
theorem ivars_aligned (allocAlign block : ℕ) (halloc : IsAlignment allocAlign) (hblock : allocAlign ∣ block) :
    (∀ (cls : Class) (ivars : List Ivar) (supers : List Class) (cls' : Class) (supers' : List Class),
      cls.ivars = some ivars → cls.instanceSize ≤ 0 → FirstLargest Ivar.align none ivars →
      objcComputeIvarOffsets (cls :: supers) = cls' :: supers' →
      ∀ ivar ∈ cls'.ivars.getD [], ivar.align ≤ allocAlign →
      (ivar.align : ℤ) ∣ objectAddress block + ivar.offset) ∧
    (∀ (super : Option Superclass) (calls : List Call) (memory : Bool) (cls : Class),
      objcRegisterClassPair (runList nextPair (objcAllocateClassPair super) calls) memory = some cls →
      ∀ ivar ∈ cls.ivars.getD [], ivar.align ≤ allocAlign →
        ((ivar.align : ℤ) ∣ objectAddress block + ivar.offset ↔ ivar.align ≤ refcountSize)) := by
  refine ⟨fun cls ivars supers cls' supers' hivars hlate hfirst h ivar hivar hle => ?_,
    fun super calls memory cls h => addedIvars_aligned_iff halloc hblock h⟩
  obtain ⟨m, rfl⟩ := halloc
  obtain ⟨k, -, hk⟩ := ivarGetAlign_eq ivar.flags
  have halign : ivar.align = 2 ^ k := hk
  have hword := objcComputeIvarOffsets_aligned hivars hlate hfirst h ivar hivar
  rw [halign] at hle hword ⊢
  have hkm : 2 ^ k ∣ block := (IsAlignment.dvd_of_le ⟨k, rfl⟩ ⟨m, rfl⟩ hle).trans hblock
  have hblock' : ((2 ^ k : ℕ) : ℤ) ∣ block := by exact_mod_cast hkm
  have hsum := Int.dvd_add hblock' hword
  rw [objectAddress]
  convert hsum using 1
  push_cast
  ring

/-- A vector of a late-bound root class, and a pointer that is added to a pair, in blocks of 64 bytes. -/
theorem ivars_aligned_vector :
    (16 : ℤ) ∣ objectAddress 64 + 8 ∧ ((8 : ℤ) ∣ objectAddress 64 + 16 ↔ 8 ≤ refcountSize) := by
  obtain ⟨hlate, hadded⟩ := ivars_aligned 64 64 ⟨6, rfl⟩ (dvd_refl 64)
  have hcode : objcComputeIvarOffsets [⟨-16, some [⟨['v'], 0, 16, 32⟩]⟩] =
      [⟨24, some [⟨['v'], 8, 16, 32⟩]⟩] := by
    decide +kernel
  have hvector := hlate _ _ [] _ _ rfl (by decide) (by decide) hcode ⟨['v'], 8, 16, 32⟩ (by simp) (by decide)
  have hpointer := hadded (some ⟨9, 9, []⟩) [⟨some ['p'], some ['@'], 8, 3, false, true⟩] true
    ⟨24, some [⟨['@'], 16, 8, 24⟩]⟩ (by decide +kernel) ⟨['@'], 16, 8, 24⟩ (by simp) (by decide)
  exact ⟨hvector, hpointer⟩

/-- A vector that is added to a pair stands half a vector beside its alignment. -/
theorem addedIvar_misaligned :
    ¬∀ (allocAlign block : ℕ) (super : Option Superclass) (calls : List Call) (memory : Bool) (cls : Class),
      IsAlignment allocAlign → allocAlign ∣ block →
      objcRegisterClassPair (runList nextPair (objcAllocateClassPair super) calls) memory = some cls →
      ∀ ivar ∈ cls.ivars.getD [], ivar.align ≤ allocAlign →
      (ivar.align : ℤ) ∣ objectAddress block + ivar.offset := by
  intro h
  have hvector := h 64 64 (some ⟨8, 8, []⟩) [⟨some ['v'], some ['v'], 16, 4, false, true⟩] true
    ⟨32, some [⟨['v'], 16, 16, 32⟩]⟩ ⟨6, rfl⟩ (dvd_refl 64) (by decide +kernel) ⟨['v'], 16, 16, 32⟩
    (by simp) (by decide)
  revert hvector
  decide +kernel

end Libobjc2.Classes.Ivars
