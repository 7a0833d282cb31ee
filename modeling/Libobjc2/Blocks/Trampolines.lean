import Libobjc2.Common.LinkedList
import Libobjc2.Common.Run
import Mathlib.Algebra.Group.Nat.Defs

/-!
# Trampolines for blocks (`src/blocks/block_to_imp.c`)

A region is a page of headers and a page of code. The header with number `i` holds the block that the code
with number `i` calls, and the address of that code is the IMP. Headers that are not in use are linked
through the same field that holds the block otherwise.

Memory is a function of the address; NULL is 0. A function is `none` where it aborts or follows NULL.
What is kept for the time that a block is being released is left out, as are runtime mutation marks.

Results:
* `Linear.step`: what every call keeps of the headers and of the free lists.
* `trampolines_linear`: as long as `imp_removeBlock` gets live IMPs and pointers to no region, the free lists
  hold the headers that no live IMP has, and no others.
* `removed_twice`: an IMP that is removed again puts its header on the free list again.
-/

namespace Libobjc2.Blocks

open Libobjc2.Common

/-- `sizeof(struct block_header)` and `trampoline_header_per_page`. -/
structure Layout where
  headerSize : ℕ
  headersPerPage : ℕ
  headerSize_pos : 0 < headerSize
  headersPerPage_pos : 0 < headersPerPage

/-- `trampoline_page_size`, as `init_trampolines` asserts (lines 132–136). -/
def Layout.pageSize (L : Layout) : ℕ := L.headersPerPage * L.headerSize

/-- The `isa` of a block. -/
inductive BlockClass where
  | stack
  | malloc
  | global
deriving DecidableEq, Repr

/-- `struct Block_layout`. `useSret`: the flags `BLOCK_USE_SRET` are set. -/
structure Block where
  isa : BlockClass
  useSret : Bool
  reserved : ℤ
  invoke : ℕ
deriving DecidableEq, Repr

/-- * `trampolines`, `sretTrampolines`: the regions of the sets in the two lists;
    * `firstFree`: that of the set with a region, `none` for −1;
    * `block`, `fnptr`: the fields of the header at an address;
    * `blocks`: the blocks of the program;
    * `live`: the IMPs that were made and not removed since, with their blocks. -/
structure Trampolines where
  trampolines : List ℕ
  sretTrampolines : List ℕ
  firstFree : ℕ → Option ℕ
  block : ℕ → ℕ
  fnptr : ℕ → ℕ
  blocks : ℕ → Option Block
  live : ℕ → Option ℕ

/-- The address of the function `invalid`. -/
def invalid : ℕ := 1

def intMax : ℤ := 2147483647

namespace Trampolines

/-- `_Block_copy` (blocks_runtime.m, lines 229–255); `mallocAt` is what `gc->malloc` returns. -/
def blockCopy (blocks : ℕ → Option Block) (src mallocAt : ℕ) : Option ((ℕ → Option Block) × ℕ) :=
  (blocks src).bind fun self =>
    match self.isa with
    | .stack =>
      if mallocAt = 0 then some (blocks, 0)
      else some (Function.update blocks mallocAt (some { self with isa := .malloc, reserved := 1 }), mallocAt)
    | .malloc =>
      if self.reserved ≤ 0 ∨ self.reserved = intMax then none
      else some (Function.update blocks src (some { self with reserved := self.reserved + 1 }), src)
    | .global => some (blocks, src)

/-- `_Block_release` (blocks_runtime.m, lines 257–277). What is not a block on the heap is left alone. -/
def blockRelease (blocks : ℕ → Option Block) (src : ℕ) : Option (ℕ → Option Block) :=
  match blocks src with
  | some self =>
    if self.isa ≠ .malloc then some blocks
    else if self.reserved ≤ 0 then none
    else if self.reserved ≠ 1 then
      some (Function.update blocks src (some { self with reserved := self.reserved - 1 }))
    else some (Function.update blocks src none)
  | none => some blocks

section

variable (L : Layout)

/-- The header with number `i` of a region. -/
def header (region i : ℕ) : ℕ := region + i * L.headerSize

/-- The code with number `i` of a region. -/
def code (region i : ℕ) : ℕ := region + L.pageSize + i * L.headerSize

/-- The loop of `alloc_trampolines` (lines 190–196) over the first `n` headers. -/
def fillHeaders (σ : Trampolines) (region : ℕ) : ℕ → Trampolines
  | 0 => σ
  | i + 1 =>
    let σ := fillHeaders σ region i
    { σ with
      fnptr := Function.update σ.fnptr (header L region i) invalid
      block := Function.update σ.block (header L region i) (header L region (i + 1)) }

/-- `alloc_trampolines` (lines 177–210) when the pages are at `region`. -/
def allocTrampolines (σ : Trampolines) (region : ℕ) : Trampolines :=
  let σ := fillHeaders L σ region L.headersPerPage
  { σ with
    firstFree := Function.update σ.firstFree region (some 0)
    block := Function.update σ.block (header L region (L.headersPerPage - 1)) 0 }

/-- Lines 354–371: the free header with number `i` of a region gets the block. -/
def takeHeader (σ : Trampolines) (region i block : ℕ) (b : Block) : Option (Trampolines × ℕ) :=
  let next := σ.block (header L region i)
  if next ≠ 0 ∧ (next < region ∨ L.headersPerPage ≤ (next - region) / L.headerSize) then none
  else
    some ({ σ with
      firstFree := Function.update σ.firstFree region
        (if next = 0 then none else some ((next - region) / L.headerSize))
      fnptr := Function.update σ.fnptr (header L region i) b.invoke
      block := Function.update σ.block (header L region i) block
      live := Function.update σ.live (code L region i) (some block) }, code L region i)

/-- The list that `setptr` points to. -/
def sets (σ : Trampolines) (useSret : Bool) : List ℕ := if useSret then σ.sretTrampolines else σ.trampolines

/-- The set with a new region goes to the head of its list. -/
def pushSet (σ : Trampolines) (useSret : Bool) (region : ℕ) : Trampolines :=
  if useSret then { σ with sretTrampolines := region :: σ.sretTrampolines }
  else { σ with trampolines := region :: σ.trampolines }

/-- `imp_implementationWithBlock` (lines 313–375). `mallocAt` is what `gc->malloc` returns for a copy of the
    block, and `pages` where a new region is made, if that succeeds. -/
def implementationWithBlock (σ : Trampolines) (block mallocAt : ℕ) (pages : Option ℕ) :
    Option (Trampolines × ℕ) :=
  if block = 0 then some (σ, 0)
  else
    (σ.blocks block).bind fun original =>
      (blockCopy σ.blocks block mallocAt).bind fun (blocks, block) =>
        let σ := { σ with blocks }
        if block = 0 then some (σ, 0)
        else
          (σ.blocks block).bind fun b =>
            match (σ.sets original.useSret).find? fun set => (σ.firstFree set).isSome with
            | some set => (σ.firstFree set).bind fun i => σ.takeHeader L set i block b
            | none =>
              match pages with
              | some region =>
                  (((allocTrampolines L σ region).pushSet original.useSret region).takeHeader L
                  region 0 block b)
              | none => (blockRelease σ.blocks block).map fun blocks => ({ σ with blocks }, 0)

/-- The address is in the page of code of a region. -/
def InCode (region imp : ℕ) : Prop := region + L.pageSize ≤ imp ∧ imp < region + L.pageSize + L.pageSize

instance (region imp : ℕ) : Decidable (InCode L region imp) := inferInstanceAs (Decidable (_ ∧ _))

/-- `indexForIMP` (lines 377–392): the region with the address, and the number of the code. -/
def indexForIMP (sets : List ℕ) (anIMP : ℕ) : Option (ℕ × ℕ) :=
  (sets.find? fun region => InCode L region anIMP).map
    fun region => (region, (anIMP - (region + L.pageSize)) / L.headerSize)

/-- The look-up in both lists in `imp_getBlock` and `imp_removeBlock`. -/
def index (σ : Trampolines) (anImp : ℕ) : Option (ℕ × ℕ) :=
  (indexForIMP L σ.trampolines anImp).or (indexForIMP L σ.sretTrampolines anImp)

/-- `imp_getBlock` (lines 394–409). -/
def getBlock (σ : Trampolines) (anImp : ℕ) : ℕ :=
  (σ.index L anImp).elim 0 fun (region, idx) => σ.block (header L region idx)

/-- `imp_removeBlock` (lines 411–447); `retiring`: its allocation succeeds. -/
def removeBlock (σ : Trampolines) (anImp : ℕ) (retiring : Bool) : Option (Trampolines × Bool) :=
  if !retiring then some (σ, false)
  else
    match σ.index L anImp with
    | none => some (σ, false)
    | some (region, idx) =>
      let h := header L region idx
      let block := σ.block h
      if block = 0 then none
      else
        (blockRelease σ.blocks block).map fun blocks =>
          ({ σ with
            fnptr := Function.update σ.fnptr h invalid
            block := Function.update σ.block h ((σ.firstFree region).elim 0 (header L region))
            firstFree := Function.update σ.firstFree region (some idx)
            blocks
            live := Function.update σ.live anImp none }, true)

end

end Trampolines

/-- A call, or anything that the program does to its blocks. -/
inductive Call where
  | implementationWithBlock (block mallocAt : ℕ) (pages : Option ℕ)
  | getBlock (anImp : ℕ)
  | removeBlock (anImp : ℕ) (retiring : Bool)
  | program (blocks : ℕ → Option Block)

namespace Trampolines

def perform (L : Layout) (σ : Trampolines) : Call → Option Trampolines
  | .implementationWithBlock block mallocAt pages =>
      (σ.implementationWithBlock L block mallocAt pages).map Prod.fst
  | .getBlock _ => some σ
  | .removeBlock anImp retiring => (σ.removeBlock L anImp retiring).map Prod.fst
  | .program blocks => some { σ with blocks }

/-- A step: the call returns. -/
def Step (L : Layout) (σ : Trampolines) (c : Call) (σ' : Trampolines) : Prop := σ.perform L c = some σ'

def Initial (σ : Trampolines) : Prop := σ.trampolines = [] ∧ σ.sretTrampolines = [] ∧ ∀ imp, σ.live imp = none

/-! ## The invariant -/

/-- The regions of all sets. -/
def regions (σ : Trampolines) : List ℕ := σ.trampolines ++ σ.sretTrampolines

/-- Two regions do not overlap. -/
def Apart (L : Layout) (r s : ℕ) : Prop := r + 2 * L.pageSize ≤ s ∨ s + 2 * L.pageSize ≤ r

/-- The free link of the header at an address. -/
def link (σ : Trampolines) (h : ℕ) : Option ℕ := if σ.block h = 0 then none else some (σ.block h)

/-- The first free header of a region. -/
def firstHeader (L : Layout) (σ : Trampolines) (region : ℕ) :
    Option ℕ := (σ.firstFree region).map (header L region)

/-- * `owns`: a live IMP has the header before its code, with its block in it;
    * `free`: from `first_free` the links lead through the headers that no live IMP has. -/
structure Linear (L : Layout) (σ : Trampolines) : Prop where
  apart : ∀ r ∈ σ.regions, ∀ s ∈ σ.regions, r ≠ s → Apart L r s
  positive : ∀ r ∈ σ.regions, 0 < r
  owns : ∀ imp b, σ.live imp = some b → b ≠ 0 ∧ ∃ r ∈ σ.regions, ∃ i < L.headersPerPage,
    imp = code L r i ∧ σ.block (header L r i) = b
  free : ∀ r ∈ σ.regions, ∃ l, Chain σ.link (σ.firstHeader L r) l ∧
    ∀ h, h ∈ l ↔ ∃ i < L.headersPerPage, h = header L r i ∧ σ.live (code L r i) = none

/-- What `mmap` promises, and that `imp_removeBlock` gets a live IMP or a pointer to no region. -/
def Ok (L : Layout) (σ : Trampolines) : Call → Prop
  | .implementationWithBlock _ _ pages => ∀ region, pages = some region →
    0 < region ∧ ∀ r ∈ σ.regions, Apart L r region
  | .getBlock _ => True
  | .removeBlock anImp retiring => retiring = true ∧
    ((σ.live anImp).isSome ∨ ∀ r ∈ σ.regions, ¬ InCode L r anImp)
  | .program _ => True

/-! ## Addresses -/

section Addresses

variable {L : Layout} {σ : Trampolines}

theorem pageSize_pos (L : Layout) : 0 < L.pageSize := Nat.mul_pos L.headersPerPage_pos L.headerSize_pos

/-- The header with a number in range lies in the page. -/
theorem offset_lt {i : ℕ} (hi : i < L.headersPerPage) : i * L.headerSize + L.headerSize ≤ L.pageSize := by
  have h := Nat.mul_le_mul_right L.headerSize (Nat.succ_le_of_lt hi)
  rwa [Nat.succ_mul] at h

theorem offset_inj {i j : ℕ} (h : i * L.headerSize = j * L.headerSize) : i = j :=
  Nat.eq_of_mul_eq_mul_right L.headerSize_pos h

theorem header_inj {r i j : ℕ} (h : header L r i = header L r j) : i = j := by
  apply offset_inj (L := L)
  unfold header at h
  omega

theorem header_ne {r s i j : ℕ} (hrs : Apart L r s) (hi : i < L.headersPerPage) (hj : j < L.headersPerPage) :
    header L r i ≠ header L s j := by
  have h₁ := offset_lt hi
  have h₂ := offset_lt hj
  have h₃ := L.headerSize_pos
  unfold Apart at hrs
  unfold header
  omega

theorem code_eq_header (r i : ℕ) : code L r i = header L r i + L.pageSize := by
  unfold code header
  omega

theorem inCode_code {r i : ℕ} (hi : i < L.headersPerPage) : InCode L r (code L r i) := by
  have h₁ := offset_lt hi
  have h₂ := L.headerSize_pos
  unfold InCode code
  omega

theorem index_of_code (r i : ℕ) : (code L r i - (r + L.pageSize)) / L.headerSize = i := by
  unfold code
  rw [Nat.add_sub_cancel_left, Nat.mul_div_cancel i L.headerSize_pos]

theorem index_of_header (r i : ℕ) : (header L r i - r) / L.headerSize = i := by
  unfold header
  rw [Nat.add_sub_cancel_left, Nat.mul_div_cancel i L.headerSize_pos]

theorem Apart.symm {r s : ℕ} (h : Apart L r s) : Apart L s r := Or.symm h

theorem apart_irrefl (r : ℕ) : ¬ Apart L r r := by
  have := pageSize_pos L
  unfold Apart
  omega

/-- Only one region has an address in its page of code. -/
theorem Linear.inCode_unique (h : Linear L σ) {r s imp : ℕ} (hr : r ∈ σ.regions) (hs : s ∈ σ.regions)
    (h₁ : InCode L r imp) (h₂ : InCode L s imp) : r = s := by
  by_contra hne
  have hapart := h.apart r hr s hs hne
  unfold Apart at hapart
  unfold InCode at h₁ h₂
  omega

theorem index_eq (σ : Trampolines) (imp : ℕ) : σ.index L imp = indexForIMP L σ.regions imp := by
  unfold index indexForIMP regions
  rw [List.find?_append, Option.map_or]

theorem index_none {imp : ℕ} (h : ∀ r ∈ σ.regions, ¬ InCode L r imp) : σ.index L imp = none := by
  rw [index_eq, indexForIMP, Option.map_eq_none_iff, List.find?_eq_none]
  intro r hr
  rw [decide_eq_true_eq]
  exact h r hr

/-- The number of the code is recovered from the IMP. -/
theorem Linear.index_code (h : Linear L σ) {r i : ℕ} (hr : r ∈ σ.regions) (hi : i < L.headersPerPage) :
    σ.index L (code L r i) = some (r, i) := by
  have hin := inCode_code (r := r) hi
  have hsome : (σ.regions.find? fun s => InCode L s (code L r i)).isSome :=
    List.find?_isSome.mpr ⟨r, hr, decide_eq_true hin⟩
  obtain ⟨s, hs⟩ := Option.isSome_iff_exists.mp hsome
  have hsr : s = r := by
    apply h.inCode_unique (List.mem_of_find?_eq_some hs) hr _ hin
    simpa using List.find?_some hs
  rw [index_eq, indexForIMP, hs, hsr, Option.map_some, index_of_code]

end Addresses

/-! ## The free lists -/

section Lists

variable {L : Layout} {σ σ' : Trampolines}

/-- A header that is not on the free list of a region is written. -/
theorem chain_write {h block : ℕ} {head : Option ℕ} {l : List ℕ} (hc : Chain σ.link head l) (hh : h ∉ l)
    (hσ' : σ'.block = Function.update σ.block h block) : Chain σ'.link head l := by
  refine hc.congr fun n hn => ?_
  have hne : n ≠ h := by
    rintro rfl
    exact hh hn
  unfold link
  rw [hσ', Function.update_of_ne hne]

/-- What the first header of a region leads to. -/
theorem Linear.first (h : Linear L σ) {r i : ℕ} (hr : r ∈ σ.regions) (hfirst : σ.firstFree r = some i) :
    i < L.headersPerPage ∧ σ.live (code L r i) = none ∧ ∃ l, Chain σ.link (σ.link (header L r i)) l ∧
      ∀ a, a ∈ l ↔ ∃ j < L.headersPerPage, a = header L r j ∧ j ≠ i ∧ σ.live (code L r j) = none := by
  obtain ⟨l, hl, hmem⟩ := h.free r hr
  rw [firstHeader, hfirst, Option.map_some] at hl
  have hnodup := hl.nodup
  obtain ⟨l', rfl, hl'⟩ := chain_some.mp hl
  obtain ⟨j, hj, heq, hlive⟩ := (hmem _).mp List.mem_cons_self
  obtain rfl := header_inj heq
  refine ⟨hj, hlive, l', hl', fun a => ⟨fun ha => ?_, ?_⟩⟩
  · obtain ⟨k, hk, rfl, hklive⟩ := (hmem a).mp (List.mem_cons_of_mem _ ha)
    refine ⟨k, hk, rfl, ?_, hklive⟩
    rintro rfl
    exact (List.nodup_cons.mp hnodup).1 ha
  · rintro ⟨k, hk, rfl, hne, hklive⟩
    rcases List.mem_cons.mp ((hmem _).mpr ⟨k, hk, rfl, hklive⟩) with heq | ha
    · exact absurd (header_inj heq) hne
    · exact ha

theorem code_inj (h : Linear L σ) {r s i j : ℕ} (hr : r ∈ σ.regions) (hs : s ∈ σ.regions)
    (hi : i < L.headersPerPage) (hj : j < L.headersPerPage) (heq : code L r i = code L s j) :
    r = s ∧ i = j := by
  have hrs : r = s := h.inCode_unique hr hs (inCode_code hi) (heq ▸ inCode_code hj)
  subst hrs
  refine ⟨rfl, header_inj (L := L) (r := r) ?_⟩
  rw [code_eq_header, code_eq_header] at heq
  omega

/-- The other live IMPs keep their headers. -/
theorem Linear.owns_other (h : Linear L σ) {r j x imp b : ℕ} (himp : σ.live imp = some b)
    (hne : imp ≠ code L r j)
    (hblock : σ'.block = Function.update σ.block (header L r j) x) :
    b ≠ 0 ∧ ∃ s ∈ σ.regions, ∃ i < L.headersPerPage, imp = code L s i ∧ σ'.block (header L s i) = b := by
  obtain ⟨hb, s, hs, i, hi, rfl, hs'⟩ := h.owns imp b himp
  refine ⟨hb, s, hs, i, hi, rfl, ?_⟩
  rw [hblock, ← hs']
  apply Function.update_of_ne
  intro hheader
  apply hne
  rw [code_eq_header, code_eq_header, hheader]

/-- The free lists of the other regions stay as they are. -/
theorem Linear.free_other (h : Linear L σ) {r s j x : ℕ} {y : Option ℕ} (hr : r ∈ σ.regions)
    (hs : s ∈ σ.regions)
    (hj : j < L.headersPerPage) (hne : s ≠ r) (hblock : σ'.block = Function.update σ.block (header L r j) x)
    (hlive : σ'.live = Function.update σ.live (code L r j) y) (hfirst : σ'.firstFree s = σ.firstFree s) :
    ∃ l, Chain σ'.link (σ'.firstHeader L s) l ∧
      ∀ a, a ∈ l ↔ ∃ i < L.headersPerPage, a = header L s i ∧ σ'.live (code L s i) = none := by
  obtain ⟨l, hl, hmem⟩ := h.free s hs
  have hhead : σ'.firstHeader L s = σ.firstHeader L s := by
    unfold firstHeader
    rw [hfirst]
  refine ⟨l, ?_, fun a => ?_⟩
  · rw [hhead]
    apply chain_write hl _ hblock
    intro hin
    obtain ⟨i, hi, heq, -⟩ := (hmem _).mp hin
    exact header_ne (h.apart r hr s hs (Ne.symm hne)) hj hi heq
  · rw [hmem a]
    refine exists_congr fun i => and_congr_right fun hi => and_congr_right fun _ => ?_
    rw [hlive, Function.update_of_ne]
    intro heq
    exact hne (code_inj h hs hr hi hj heq).1

/-- The free header with number `i` becomes the header of a live IMP. -/
theorem Linear.takeHeader (h : Linear L σ) {r i block : ℕ} {b : Block} (hr : r ∈ σ.regions)
    (hfirst : σ.firstFree r = some i) (hb : block ≠ 0) :
    ∃ σ', σ.takeHeader L r i block b = some (σ', code L r i) ∧ Linear L σ' ∧
      σ.live (code L r i) = none ∧ σ'.live = Function.update σ.live (code L r i) (some block) := by
  obtain ⟨hi, hnone, l, hl, hmem⟩ := h.first hr hfirst
  -- the link of the header is NULL or the header of a number in range
  have hnext : σ.link (header L r i) = none ∧ σ.block (header L r i) = 0 ∨
      ∃ j < L.headersPerPage, σ.link (header L r i) = some (header L r j) ∧
        σ.block (header L r i) = header L r j ∧ σ.block (header L r i) ≠ 0 := by
    by_cases hz : σ.block (header L r i) = 0
    · exact .inl ⟨if_pos hz, hz⟩
    · have hlink : σ.link (header L r i) = some (σ.block (header L r i)) := if_neg hz
      rw [hlink] at hl
      obtain ⟨l', rfl, -⟩ := chain_some.mp hl
      obtain ⟨j, hj, heq, -⟩ := (hmem _).mp List.mem_cons_self
      exact .inr ⟨j, hj, by rw [hlink, heq], heq, hz⟩
  have hguard : ¬ (σ.block (header L r i) ≠ 0 ∧ (σ.block (header L r i) < r ∨
      L.headersPerPage ≤ (σ.block (header L r i) - r) / L.headerSize)) := by
    rintro ⟨hz, hout⟩
    rcases hnext with ⟨-, h0⟩ | ⟨j, hj, -, heq, -⟩
    · exact hz h0
    · rw [heq, index_of_header] at hout
      unfold header at hout
      omega
  refine ⟨_, if_neg hguard, ⟨h.apart, h.positive, fun imp b' himp => ?_, fun s hs => ?_⟩, hnone, rfl⟩
  · by_cases heq : imp = code L r i
    · subst heq
      have hb' : b' = block := by
        have : Function.update σ.live (code L r i) (some block) (code L r i) = some b' := himp
        rw [Function.update_self] at this
        exact (Option.some.inj this).symm
      subst hb'
      exact ⟨hb, r, hr, i, hi, rfl, Function.update_self ..⟩
    · have himp : σ.live imp = some b' := by
        rw [← himp]
        exact (Function.update_of_ne heq ..).symm
      exact h.owns_other himp heq rfl
  · by_cases hsr : s = r
    · subst hsr
      refine ⟨l, ?_, fun a => ?_⟩
      · have hfresh : header L s i ∉ l := by
          intro hin
          obtain ⟨j, -, heq, hne, -⟩ := (hmem _).mp hin
          exact hne (header_inj heq).symm
        have hhead : Option.map (header L s) (Function.update σ.firstFree s
            (if σ.block (header L s i) = 0 then none
              else some ((σ.block (header L s i) - s) / L.headerSize)) s) =
            σ.link (header L s i) := by
          rw [Function.update_self]
          rcases hnext with ⟨hlink, h0⟩ | ⟨j, hj, hlink, heq, hz⟩
          · rw [hlink, if_pos h0, Option.map_none]
          · rw [hlink, if_neg hz, heq, index_of_header, Option.map_some]
        unfold firstHeader
        dsimp only
        rw [hhead]
        exact chain_write hl hfresh rfl
      · rw [hmem a]
        refine exists_congr fun j => and_congr_right fun hj => and_congr_right fun _ => ?_
        show _ ↔ Function.update σ.live (code L s i) (some block) (code L s j) = none
        by_cases hji : j = i
        · subst hji
          simp
        · have hcode : code L s j ≠ code L s i := fun heq => hji (code_inj h hs hs hj hi heq).2
          rw [Function.update_of_ne hcode]
          simp [hji]
    · exact h.free_other hr hs hi hsr rfl rfl (Function.update_of_ne hsr ..)

/-- The header of a live IMP goes to the head of the free list of its region. -/
theorem Linear.freeHeader (h : Linear L σ) {r i b : ℕ} (hr : r ∈ σ.regions) (hi : i < L.headersPerPage)
    (hlive : σ.live (code L r i) = some b) (hregions : σ'.regions = σ.regions)
    (hblock : σ'.block = Function.update σ.block (header L r i) ((σ.firstHeader L r).getD 0))
    (hfirst : σ'.firstFree = Function.update σ.firstFree r (some i))
    (hlive' : σ'.live = Function.update σ.live (code L r i) none) : Linear L σ' := by
  refine ⟨by rw [hregions]; exact h.apart, by rw [hregions]; exact h.positive, fun imp b' himp => ?_, fun s hs => ?_⟩
  · have hne : imp ≠ code L r i := by
      rintro rfl
      rw [hlive', Function.update_self] at himp
      cases himp
    rw [hlive', Function.update_of_ne hne] at himp
    rw [hregions]
    exact h.owns_other himp hne hblock
  · rw [hregions] at hs
    by_cases hsr : s = r
    · subst hsr
      obtain ⟨l, hl, hmem⟩ := h.free s hs
      have hfresh : header L s i ∉ l := by
        intro hin
        obtain ⟨j, -, heq, hnone⟩ := (hmem _).mp hin
        obtain rfl := header_inj heq
        rw [hlive] at hnone
        cases hnone
      refine ⟨header L s i :: l, ?_, fun a => ?_⟩
      · have hhead : σ'.firstHeader L s = some (header L s i) := by
          unfold firstHeader
          rw [hfirst, Function.update_self, Option.map_some]
        -- the header that is freed leads to the one that was the first
        have hlink : σ'.link (header L s i) = σ.firstHeader L s := by
          have hcontent : σ'.block (header L s i) =
              (σ.firstHeader L s).getD 0 := by rw [hblock, Function.update_self]
          cases hold : σ.firstHeader L s with
          | none =>
            rw [hold] at hcontent
            exact if_pos hcontent
          | some a =>
            rw [hold] at hcontent hl
            obtain ⟨l', rfl, -⟩ := chain_some.mp hl
            obtain ⟨j, -, heq, -⟩ := (hmem a).mp List.mem_cons_self
            have hpos := h.positive s hs
            have hne : σ'.block (header L s i) ≠ 0 := by
              rw [hcontent, Option.getD_some, heq]
              unfold header
              omega
            rw [link, if_neg hne, hcontent, Option.getD_some]
        rw [hhead]
        apply chain_some.mpr
        refine ⟨l, rfl, ?_⟩
        rw [hlink]
        exact chain_write hl hfresh hblock
      · rw [List.mem_cons, hmem a, hlive']
        constructor
        · rintro (rfl | ⟨j, hj, rfl, hnone⟩)
          · exact ⟨i, hi, rfl, Function.update_self ..⟩
          · refine ⟨j, hj, rfl, ?_⟩
            rw [Function.update_apply, hnone, ite_self]
        · rintro ⟨j, hj, rfl, hnone⟩
          by_cases hji : j = i
          · exact .inl (hji ▸ rfl)
          · have hcode : code L s j ≠ code L s i := fun heq => hji (code_inj h hs hs hj hi heq).2
            rw [Function.update_of_ne hcode] at hnone
            exact .inr ⟨j, hj, rfl, hnone⟩
    · refine h.free_other hr hs hi hsr hblock hlive' ?_
      rw [hfirst, Function.update_of_ne hsr]

/-- What `imp_removeBlock` does to a live IMP. -/
theorem Linear.removeBlock (h : Linear L σ) {imp b : ℕ} {blocks : ℕ → Option Block}
    (hlive : σ.live imp = some b)
    (hrelease : blockRelease σ.blocks b = some blocks) :
    ∃ σ', σ.removeBlock L imp true = some (σ', true) ∧ Linear L σ' ∧ σ'.blocks = blocks ∧
      σ'.live = Function.update σ.live imp none := by
  obtain ⟨hb, r, hr, i, hi, rfl, hblock⟩ := h.owns imp b hlive
  have heq : σ.removeBlock L (code L r i) true = some ({ σ with
      fnptr := Function.update σ.fnptr (header L r i) invalid
      block := Function.update σ.block (header L r i) ((σ.firstFree r).elim 0 (header L r))
      firstFree := Function.update σ.firstFree r (some i)
      blocks
      live := Function.update σ.live (code L r i) none }, true) := by
    unfold Trampolines.removeBlock
    rw [h.index_code hr hi]
    simp [hblock, hb, hrelease]
  have hfree : (σ.firstFree r).elim 0 (header L r) = (σ.firstHeader L r).getD 0 := by
    unfold firstHeader
    cases σ.firstFree r <;> rfl
  rw [hfree] at heq
  exact ⟨_, heq, h.freeHeader hr hi hlive rfl rfl rfl rfl, rfl, rfl⟩

/-! ## A new region -/

theorem fillHeaders_block (region : ℕ) : ∀ n a, (fillHeaders L σ region n).block a =
    if ∃ i < n, a = header L region i then a + L.headerSize else σ.block a := by
  intro n
  induction n with
  | zero =>
    intro a
    rw [fillHeaders, if_neg]
    rintro ⟨i, hi, -⟩
    omega
  | succ n ih =>
    intro a
    have hnext : header L region (n + 1) = header L region n + L.headerSize := by
      unfold header
      rw [Nat.succ_mul]
      omega
    show Function.update (fillHeaders L σ region n).block (header L region n) (header L region (n + 1)) a = _
    by_cases ha : a = header L region n
    · subst ha
      rw [Function.update_self, hnext, if_pos ⟨n, Nat.lt_succ_self n, rfl⟩]
    · rw [Function.update_of_ne ha, ih a]
      refine if_congr ⟨?_, ?_⟩ rfl rfl
      · rintro ⟨i, hi, heq⟩
        exact ⟨i, by omega, heq⟩
      · rintro ⟨i, hi, rfl⟩
        rcases Nat.lt_succ_iff_lt_or_eq.mp hi with hi | rfl
        · exact ⟨i, hi, rfl⟩
        · exact absurd rfl ha

theorem fillHeaders_frame (region n : ℕ) : (fillHeaders L σ region n).trampolines = σ.trampolines ∧
    (fillHeaders L σ region n).sretTrampolines = σ.sretTrampolines ∧
    (fillHeaders L σ region n).firstFree = σ.firstFree ∧ (fillHeaders L σ region n).live = σ.live ∧
    (fillHeaders L σ region n).blocks = σ.blocks := by
  induction n with
  | zero => exact ⟨rfl, rfl, rfl, rfl, rfl⟩
  | succ n ih => exact ih

/-- The headers of a new region are linked in their order. -/
theorem chain_headers {region : ℕ} (hpos : 0 < region)
    (hblock : ∀ i < L.headersPerPage, σ.block (header L region i) =
      if i + 1 = L.headersPerPage then 0 else header L region (i + 1)) :
    ∀ n k, k + n = L.headersPerPage →
      Chain σ.link (if n = 0 then none else some (header L region k))
      ((List.range' k n).map (header L region)) := by
  intro n
  induction n with
  | zero => exact fun _ _ => .nil
  | succ n ih =>
    intro k hk
    have hrest := ih (k + 1) (by omega)
    rw [if_neg (Nat.succ_ne_zero n), List.range'_succ, List.map_cons]
    apply chain_some.mpr
    refine ⟨_, rfl, ?_⟩
    have hk' := hblock k (by omega)
    have hlink : σ.link (header L region k) = if n = 0 then none else some (header L region (k + 1)) := by
      by_cases hn : n = 0
      · rw [if_pos (by omega)] at hk'
        rw [if_pos hn, link, if_pos hk']
      · rw [if_neg (by omega)] at hk'
        have hne : header L region (k + 1) ≠ 0 := by
          unfold header
          omega
        rw [if_neg hn, link, hk', if_neg hne]
    rwa [hlink]

theorem allocTrampolines_block (region a : ℕ) : (allocTrampolines L σ region).block a =
    if a = header L region (L.headersPerPage - 1) then 0
    else if ∃ i < L.headersPerPage, a = header L region i then a + L.headerSize else σ.block a := by
  have hfill := fillHeaders_block (L := L) (σ := σ) region L.headersPerPage a
  show Function.update (fillHeaders L σ region L.headersPerPage).block _ 0 a = _
  rw [Function.update_apply, hfill]

/-- A new region has only free headers. -/
theorem Linear.newRegion (h : Linear L σ) {region : ℕ} (hpos : 0 < region)
    (hapart : ∀ r ∈ σ.regions, Apart L r region)
    (hlive : σ'.live = σ.live) (hregions : ∀ r, r ∈ σ'.regions ↔ r = region ∨ r ∈ σ.regions)
    (hfirst : σ'.firstFree = Function.update σ.firstFree region (some 0))
    (hblock : σ'.block = (allocTrampolines L σ region).block) : Linear L σ' := by
  have hblock : ∀ a, σ'.block a = if a = header L region (L.headersPerPage - 1) then 0
      else if ∃ i < L.headersPerPage, a = header L region i then a + L.headerSize else σ.block a := by
    intro a
    rw [hblock, allocTrampolines_block]
  have hN := L.headersPerPage_pos
  have hold : ∀ r ∈ σ.regions, ∀ i < L.headersPerPage, σ'.block (header L r i) = σ.block (header L r i) := by
    intro r hr i hi
    have hne : ∀ j < L.headersPerPage, header L r i ≠ header L region j := fun j hj =>
        header_ne (hapart r hr) hi hj
    rw [hblock, if_neg (hne _ (by omega)), if_neg]
    rintro ⟨j, hj, heq⟩
    exact hne j hj heq
  refine ⟨fun r hr s hs hne => ?_, fun r hr => ?_, fun imp b himp => ?_, fun r hr => ?_⟩
  · rcases (hregions r).mp hr with rfl | hr
    · rcases (hregions s).mp hs with rfl | hs
      · exact absurd rfl hne
      · exact (hapart s hs).symm
    · rcases (hregions s).mp hs with rfl | hs
      · exact hapart r hr
      · exact h.apart r hr s hs hne
  · rcases (hregions r).mp hr with rfl | hr
    · exact hpos
    · exact h.positive r hr
  · rw [hlive] at himp
    obtain ⟨hb, r, hr, i, hi, heq, hcontent⟩ := h.owns imp b himp
    exact ⟨hb, r, (hregions r).mpr (.inr hr), i, hi, heq, (hold r hr i hi).trans hcontent⟩
  · rcases (hregions r).mp hr with rfl | hr
    · have hlinks : ∀ i < L.headersPerPage, σ'.block (header L r i) =
          if i + 1 = L.headersPerPage then 0 else header L r (i + 1) := by
        intro i hi
        have hnext : header L r i + L.headerSize = header L r (i + 1) := by
          unfold header
          rw [Nat.succ_mul]
          omega
        have hfilled : (if ∃ j < L.headersPerPage, header L r i = header L r j then
          header L r i + L.headerSize
            else σ.block (header L r i)) = header L r (i + 1) := by rw [if_pos ⟨i, hi, rfl⟩, hnext]
        rw [hblock, hfilled]
        refine if_congr ⟨fun heq => ?_, fun heq => ?_⟩ rfl rfl
        · have := header_inj heq
          omega
        · congr 1
          omega
      have hchain := chain_headers hpos hlinks L.headersPerPage 0 (Nat.zero_add _)
      rw [if_neg (by omega)] at hchain
      refine ⟨(List.range' 0 L.headersPerPage).map (header L r), ?_, fun a => ?_⟩
      · have hhead : σ'.firstHeader L r = some (header L r 0) := by
          unfold firstHeader
          rw [hfirst, Function.update_self, Option.map_some]
        rw [hhead]
        exact hchain
      · have hfree : ∀ i < L.headersPerPage, σ'.live (code L r i) = none := by
          intro i hi
          rw [hlive]
          cases himp : σ.live (code L r i) with
          | none => rfl
          | some b =>
            obtain ⟨-, s, hs, j, hj, heq, -⟩ := h.owns _ b himp
            have h₁ := inCode_code (L := L) (r := r) hi
            have h₂ := inCode_code (L := L) (r := s) hj
            have h₃ := hapart s hs
            rw [← heq] at h₂
            unfold InCode at h₁ h₂
            unfold Apart at h₃
            omega
        rw [List.mem_map]
        constructor
        · rintro ⟨i, hi, rfl⟩
          have hi : i < L.headersPerPage := by
            have := List.mem_range'_1.mp hi
            omega
          exact ⟨i, hi, rfl, hfree i hi⟩
        · rintro ⟨i, hi, rfl, -⟩
          exact ⟨i, List.mem_range'_1.mpr ⟨Nat.zero_le i, by omega⟩, rfl⟩
    · obtain ⟨l, hl, hmem⟩ := h.free r hr
      have hne : r ≠ region := by
        rintro rfl
        exact apart_irrefl r (hapart r hr)
      refine ⟨l, ?_, fun a => ?_⟩
      · have hhead : σ'.firstHeader L r = σ.firstHeader L r := by
          unfold firstHeader
          rw [hfirst, Function.update_of_ne hne]
        rw [hhead]
        refine hl.congr fun a ha => ?_
        obtain ⟨i, hi, rfl, -⟩ := (hmem a).mp ha
        unfold link
        rw [hold r hr i hi]
      · rw [hmem a, hlive]

/-! ## Calls -/

theorem mem_sets {region : ℕ} {useSret : Bool} (h : region ∈ σ.sets useSret) : region ∈ σ.regions := by
  cases useSret with
  | false => exact List.mem_append_left _ h
  | true => exact List.mem_append_right _ h

theorem mem_pushSet {region : ℕ} {useSret : Bool} (r : ℕ) :
    r ∈ (σ.pushSet useSret region).regions ↔ r = region ∨ r ∈ σ.regions := by
  cases useSret <;> simp [pushSet, regions, or_left_comm]

theorem Linear.withBlocks (h : Linear L σ) (blocks : ℕ → Option Block) : Linear L { σ with blocks } :=
  ⟨h.apart, h.positive, h.owns, h.free⟩

/-- The IMP that `imp_implementationWithBlock` yields was not live before. -/
theorem Linear.implementationWithBlock (h : Linear L σ) {block mallocAt imp : ℕ} {pages : Option ℕ}
    (hok : σ.Ok L (.implementationWithBlock block mallocAt pages))
    (hmake : σ.implementationWithBlock L block mallocAt pages = some (σ', imp)) :
    Linear L σ' ∧ (imp = 0 ∧ σ'.live = σ.live ∨
      σ.live imp = none ∧ ∃ b, σ'.live = Function.update σ.live imp (some b)) := by
  unfold Trampolines.implementationWithBlock at hmake
  split at hmake
  · obtain ⟨rfl, rfl⟩ := Prod.mk.inj (Option.some.inj hmake)
    exact ⟨h, .inl ⟨rfl, rfl⟩⟩
  obtain ⟨original, -, hmake⟩ := Option.bind_eq_some_iff.mp hmake
  obtain ⟨⟨blocks, copy⟩, -, hmake⟩ := Option.bind_eq_some_iff.mp hmake
  have hcopied := h.withBlocks blocks
  dsimp only at hmake
  split at hmake
  · obtain ⟨rfl, rfl⟩ := Prod.mk.inj (Option.some.inj hmake)
    exact ⟨hcopied, .inl ⟨rfl, rfl⟩⟩
  next hcopy =>
  obtain ⟨b, -, hmake⟩ := Option.bind_eq_some_iff.mp hmake
  split at hmake
  · next set hset =>
    have hr := mem_sets (List.mem_of_find?_eq_some hset)
    obtain ⟨i, hfirst, hmake⟩ := Option.bind_eq_some_iff.mp hmake
    obtain ⟨τ, htake, hτ, hnone, hlive⟩ := hcopied.takeHeader (b := b) hr hfirst hcopy
    obtain ⟨rfl, rfl⟩ := Prod.mk.inj (Option.some.inj (htake.symm.trans hmake))
    exact ⟨hτ, .inr ⟨hnone, copy, hlive⟩⟩
  · cases pages with
    | some region =>
      dsimp only at hmake
      obtain ⟨hpos, hapart⟩ := hok region rfl
      obtain ⟨-, -, hfirst, hlive, -⟩ := fillHeaders_frame (L := L) (σ := { σ with blocks }) region
          L.headersPerPage
      have hnew : Linear L ((allocTrampolines L { σ with blocks } region).pushSet original.useSret
          region) := by
        apply hcopied.newRegion hpos hapart
        · cases original.useSret <;> exact hlive
        · intro r
          rw [mem_pushSet]
          obtain ⟨htramp, hsret, -⟩ := fillHeaders_frame (L := L) (σ := { σ with blocks }) region
              L.headersPerPage
          have hsame : (allocTrampolines L { σ with blocks } region).regions = σ.regions := by
            unfold regions allocTrampolines
            rw [htramp, hsret]
          rw [hsame]
          rfl
        · cases original.useSret <;> exact congrArg (Function.update · region (some 0)) hfirst
        · cases original.useSret <;> rfl
      have hmem : region ∈ ((allocTrampolines L { σ with blocks } region).pushSet original.useSret
          region).regions :=
        (mem_pushSet region).mpr (.inl rfl)
      have hzero : ((allocTrampolines L { σ with blocks } region).pushSet original.useSret
          region).firstFree region =
          some 0 := by
        cases original.useSret <;> exact Function.update_self ..
      obtain ⟨τ, htake, hτ, hnone, hlive'⟩ := hnew.takeHeader (b := b) hmem hzero hcopy
      obtain ⟨rfl, rfl⟩ := Prod.mk.inj (Option.some.inj (htake.symm.trans hmake))
      have hsame : ((allocTrampolines L { σ with blocks } region).pushSet original.useSret
          region).live = σ.live := by
        cases original.useSret <;> exact hlive
      rw [hsame] at hnone hlive'
      exact ⟨hτ, .inr ⟨hnone, copy, hlive'⟩⟩
    | none =>
      obtain ⟨released, -, heq⟩ := Option.map_eq_some_iff.mp hmake
      obtain ⟨rfl, rfl⟩ := Prod.mk.inj heq
      exact ⟨h.withBlocks released, .inl ⟨rfl, rfl⟩⟩

/-- `imp_removeBlock` of a pointer to no region. -/
theorem removeBlock_foreign {imp : ℕ} (h : ∀ r ∈ σ.regions, ¬ InCode L r imp) (retiring : Bool) :
    σ.removeBlock L imp retiring = some (σ, false) := by
  unfold removeBlock
  rw [index_none h]
  cases retiring <;> rfl

theorem Linear.getBlock (h : Linear L σ) {imp b : ℕ} (hlive : σ.live imp = some b) :
    σ.getBlock L imp = b := by
  obtain ⟨-, r, hr, i, hi, rfl, hblock⟩ := h.owns imp b hlive
  unfold Trampolines.getBlock
  rw [h.index_code hr hi]
  exact hblock

/-- What every call keeps of the headers and of the free lists. -/
theorem Linear.step (h : Linear L σ) {c : Call} (hok : σ.Ok L c) (hs : Step L σ c σ') : Linear L σ' := by
  cases c with
  | implementationWithBlock block mallocAt pages =>
    obtain ⟨⟨τ, imp⟩, hmake, rfl⟩ := Option.map_eq_some_iff.mp hs
    exact (h.implementationWithBlock hok hmake).1
  | getBlock anImp =>
    rw [← Option.some.inj hs]
    exact h
  | removeBlock anImp retiring =>
    obtain ⟨⟨τ, removed⟩, hremove, rfl⟩ := Option.map_eq_some_iff.mp hs
    obtain ⟨rfl, hlive | hforeign⟩ := hok
    · obtain ⟨b, hb⟩ := Option.isSome_iff_exists.mp hlive
      cases hrelease : blockRelease σ.blocks b with
      | none =>
        obtain ⟨hne, r, hr, i, hi, rfl, hblock⟩ := h.owns anImp b hb
        unfold Trampolines.removeBlock at hremove
        rw [h.index_code hr hi] at hremove
        simp [hblock, hne, hrelease] at hremove
      | some blocks =>
        obtain ⟨τ', hτ', hlin, -⟩ := h.removeBlock hb hrelease
        obtain ⟨rfl, -⟩ := Prod.mk.inj (Option.some.inj (hτ'.symm.trans hremove))
        exact hlin
    · rw [removeBlock_foreign hforeign] at hremove
      obtain ⟨rfl, -⟩ := Prod.mk.inj (Option.some.inj hremove)
      exact h
  | program blocks =>
    rw [← Option.some.inj hs]
    exact h.withBlocks blocks

end Lists

theorem Initial.linear {L : Layout} {σ : Trampolines} (h : Initial σ) : Linear L σ := by
  obtain ⟨htramp, hsret, hlive⟩ := h
  have hregions : σ.regions = [] := by rw [regions, htramp, hsret, List.append_nil]
  refine ⟨?_, ?_, fun imp b himp => ?_, ?_⟩
  · simp [hregions]
  · simp [hregions]
  · rw [hlive imp] at himp
    cases himp
  · simp [hregions]

/-! ## Runs -/

/-- The header of a live IMP. -/
def OwnsHeader (L : Layout) (σ : Trampolines) (imp h : ℕ) : Prop :=
  ∃ r ∈ σ.regions, ∃ i < L.headersPerPage, imp = code L r i ∧ h = header L r i

/-- As long as `imp_removeBlock` gets live IMPs and pointers to no region: a live IMP has a header for itself,
    in which `imp_getBlock` finds its block; the free list of a region goes through the headers that no live
    IMP has, once each; `imp_removeBlock` of a live IMP releases its block once and makes it non-live, and of
    any other pointer it returns `NO` and changes nothing. -/
theorem trampolines_linear {L : Layout} {σ₀ σ : Trampolines} (h₀ : Initial σ₀)
    (h : Runs (fun σ c σ' => σ.Ok L c ∧ Step L σ c σ') σ₀ σ) :
    (∀ imp b, σ.live imp = some b → σ.getBlock L imp = b ∧ ∃ h, OwnsHeader L σ imp h ∧ σ.block h = b ∧
      ∀ imp', (σ.live imp').isSome → OwnsHeader L σ imp' h → imp' = imp) ∧
    (∀ r ∈ σ.regions, ∃ l, Chain σ.link (σ.firstHeader L r) l ∧ l.Nodup ∧
      ∀ h, h ∈ l ↔ ∃ i < L.headersPerPage, h = header L r i ∧ σ.live (code L r i) = none) ∧
    (∀ imp b blocks, σ.live imp = some b → blockRelease σ.blocks b = some blocks →
      ∃ σ', σ.removeBlock L imp true = some (σ', true) ∧ σ'.blocks = blocks ∧
        σ'.live = Function.update σ.live imp none) ∧
    ∀ imp retiring, σ.live imp = none → σ.Ok L (.removeBlock imp retiring) →
      σ.removeBlock L imp retiring = some (σ, false) := by
  have hlin : Linear L σ := h.invariant h₀.linear fun _ _ _ hl hs => hl.step hs.1 hs.2
  refine ⟨fun imp b hb => ⟨hlin.getBlock hb, ?_⟩, fun r hr => ?_, fun imp b blocks hb hrelease => ?_,
    fun imp retiring hnone hok => ?_⟩
  · obtain ⟨-, r, hr, i, hi, rfl, hblock⟩ := hlin.owns imp b hb
    refine ⟨header L r i, ⟨r, hr, i, hi, rfl, rfl⟩, hblock, ?_⟩
    rintro imp' - ⟨s, hs, j, hj, rfl, heq⟩
    rw [code_eq_header, code_eq_header, heq]
  · obtain ⟨l, hl, hmem⟩ := hlin.free r hr
    exact ⟨l, hl, hl.nodup, hmem⟩
  · obtain ⟨σ', hremove, -, hblocks, hlive⟩ := hlin.removeBlock hb hrelease
    exact ⟨σ', hremove, hblocks, hlive⟩
  · rcases hok.2 with hlive | hforeign
    · rw [hnone] at hlive
      cases hlive
    · exact removeBlock_foreign hforeign retiring

/-! ## Removing an IMP twice -/

/-- The layout on x86-64. -/
def x64 : Layout := ⟨16, 256, by decide, by decide⟩

/-- A block on the stack at the address 8. -/
def noTrampolines : Trampolines where
  trampolines := []
  sretTrampolines := []
  firstFree := fun _ => none
  block := fun _ => 0
  fnptr := fun _ => 0
  blocks := fun a => if a = 8 then some ⟨.stack, false, 0, 64⟩ else none
  live := fun _ => none

/-- The block gets an IMP in a new region at `0x10000`; its copy is at 16. -/
def oneTrampoline : Trampolines :=
  (noTrampolines.perform x64 (.implementationWithBlock 8 16 (some 65536))).getD noTrampolines

theorem oneTrampoline_step : Step x64 noTrampolines (.implementationWithBlock 8 16 (some 65536))
    oneTrampoline := by
  have hsome : (noTrampolines.perform x64 (.implementationWithBlock 8 16 (some 65536))).isSome = true := by
    decide +kernel
  obtain ⟨σ, hσ⟩ := Option.isSome_iff_exists.mp hsome
  unfold Step oneTrampoline
  rw [hσ, Option.getD_some]

/-- The IMP is at `0x11000`. -/
theorem trampolines_linear_one : oneTrampoline.live 69632 = some 16 ∧
    oneTrampoline.getBlock x64 69632 = 16 := by
  have hlive : oneTrampoline.live 69632 = some 16 := by decide +kernel
  have hok : Ok x64 noTrampolines (.implementationWithBlock 8 16 (some 65536)) := by
    rintro region ⟨rfl⟩
    exact ⟨by decide, fun r hr => absurd hr List.not_mem_nil⟩
  have hrun : Runs (fun σ c σ' => σ.Ok x64 c ∧ Step x64 σ c σ') noTrampolines oneTrampoline :=
    Runs.single ⟨hok, oneTrampoline_step⟩
  have hinitial : Initial noTrampolines := ⟨rfl, rfl, fun _ => rfl⟩
  exact ⟨hlive, ((trampolines_linear hinitial hrun).1 69632 16 hlive).1⟩

/-- The IMP is removed. -/
def removedTrampoline : Trampolines := (oneTrampoline.perform x64 (.removeBlock 69632 true)).getD
    oneTrampoline

/-- `imp_removeBlock` of an IMP that has been removed returns `YES`, and afterwards the first free header is
    linked to itself. -/
theorem removed_twice : Initial noTrampolines ∧ ∃ σ σ', Runs (Step x64) noTrampolines σ ∧
    σ.live 69632 = none ∧
    σ.removeBlock x64 69632 true = some (σ', true) ∧
    σ'.block (header x64 65536 0) ≠ σ.block (header x64 65536 0) ∧
    σ'.firstHeader x64 65536 = some (header x64 65536 0) ∧
    σ'.link (header x64 65536 0) = some (header x64 65536 0) := by
  have hsome : (oneTrampoline.perform x64 (.removeBlock 69632 true)).isSome = true := by decide +kernel
  obtain ⟨σ, hσ⟩ := Option.isSome_iff_exists.mp hsome
  have hremoved : removedTrampoline = σ := by rw [removedTrampoline, hσ, Option.getD_some]
  have hstep : Step x64 oneTrampoline (.removeBlock 69632 true) removedTrampoline := by
    unfold Step
    rw [hσ, hremoved]
  have hagain : ((removedTrampoline.removeBlock x64 69632 true).map Prod.snd) = some true := by decide +kernel
  obtain ⟨⟨σ', removed⟩, hσ', hyes⟩ := Option.map_eq_some_iff.mp hagain
  obtain rfl : removed = true := hyes
  have hblock : ((removedTrampoline.removeBlock x64 69632 true).map fun (σ', _) =>
      (σ'.block (header x64 65536 0), σ'.firstHeader x64 65536, σ'.link (header x64 65536 0))) =
      some (65536, some 65536, some 65536) := by decide +kernel
  rw [hσ'] at hblock
  obtain ⟨h₁, h₂, h₃⟩ : σ'.block (header x64 65536 0) = 65536 ∧ σ'.firstHeader x64 65536 = some 65536 ∧
      σ'.link (header x64 65536 0) = some 65536 := by simpa using hblock
  have hnone : removedTrampoline.live 69632 = none := by decide +kernel
  have hold : removedTrampoline.block (header x64 65536 0) ≠ 65536 := by decide +kernel
  refine ⟨⟨rfl, rfl, fun _ => rfl⟩, removedTrampoline, σ',
      (Runs.single oneTrampoline_step).tail hstep, hnone, hσ', ?_,
    h₂, h₃⟩
  rw [h₁]
  exact Ne.symm hold

end Trampolines

end Libobjc2.Blocks
