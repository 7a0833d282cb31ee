import Libobjc2.Exceptions.Leb128

/-!
# `dwarf_eh_find_callsite` (`src/internal/exceptions/dwarf_eh.h`, lines 142–176 and 287–325)

The call-site table of a function lies directly before its action table. Its entries have a start, a size
and a landing pad in the encoding of the table, and an action as ULEB128; a search goes through them until
one has the instruction pointer or starts behind it.

A memory may have no byte at all where the action table would be. A search that has its result in every
memory with a given call-site table reads nothing at or behind the action table.

Results:
* `readValue_encodeValue`: what is read where a value is.
* `findLoop_fuel`: the loop ends, whatever the memory has.
* `lookup_inTable_iff`: the tables and instruction pointers for which the search stays inside the table.
* `lookup_readsActions`: a search behind the last entry.
-/

namespace Libobjc2.Exceptions

open Libobjc2.Common

/-! ## Values -/

/-- `enum dwarf_data_encoding`, with `DW_EH_PE_absptr`. -/
inductive DataEncoding where
  | absptr
  | uleb128
  | udata2
  | udata4
  | udata8
  | sleb128
  | sdata2
  | sdata4
  | sdata8
  deriving DecidableEq, Repr

/-- `get_encoding`; the others make `read_value` abort. -/
def getEncoding (x : BitVec 8) : Option DataEncoding :=
  match (x &&& 0xf).toNat with
  | 0x00 => some .absptr
  | 0x01 => some .uleb128
  | 0x02 => some .udata2
  | 0x03 => some .udata4
  | 0x04 => some .udata8
  | 0x09 => some .sleb128
  | 0x0a => some .sdata2
  | 0x0b => some .sdata4
  | 0x0c => some .sdata8
  | _ => none

/-- The size of a pointer, in bytes, and the order of the bytes of a number. -/
structure Target where
  pointerSize : ℕ
  pos : 0 < pointerSize
  bigEndian : Bool

/-- A C integer type, as its size and sign, or LEB128. -/
inductive Format where
  | fixed (size : ℕ) (signed : Bool)
  | uleb128
  | sleb128

variable (target : Target) (m : Bytes)

/-- The lines of the `switch` in `read_value`. -/
def DataEncoding.format : DataEncoding → Format
  | .udata2 => .fixed 2 false
  | .udata4 => .fixed 4 false
  | .udata8 => .fixed 8 false
  | .sdata2 => .fixed 2 true
  | .sdata4 => .fixed 4 true
  | .sdata8 => .fixed 8 true
  | .absptr => .fixed target.pointerSize true
  | .sleb128 => .sleb128
  | .uleb128 => .uleb128

/-- An integer of `size` bytes as a `uint64_t`. -/
def extend (size : ℕ) (signed : Bool) (value : ℕ) : BitVec 64 :=
  if signed then (BitVec.ofNat (8 * size) value).signExtend 64
      else (BitVec.ofNat (8 * size) value).setWidth 64

/-- The bytes of a number, in the order of the target. -/
def Target.inOrder (bytes : List (BitVec 8)) : List (BitVec 8) :=
  if target.bigEndian then bytes.reverse else bytes

/-- `*(type*)(*data)`, behind which `*data` is moved. -/
def readFixed (size : ℕ) (signed : Bool) (data : ℕ) : Option (BitVec 64 × ℕ) :=
  (readBytes m size data).map fun bytes =>
    (extend size signed (leValue (target.inOrder bytes)), data + size)

def Format.read : Format → ℕ → Option (BitVec 64 × ℕ)
  | .fixed size signed, data => readFixed target m size signed data
  | .uleb128, data => readUleb128 m data
  | .sleb128, data => readSleb128 m data

def readValue (encoding : BitVec 8) (data : ℕ) : Option (BitVec 64 × ℕ) :=
  (getEncoding encoding).bind fun type => (type.format target).read target m data

/-! ## The search -/

/-- What the search uses of `struct dwarf_eh_lsda`. -/
structure Lsda where
  landingPads : BitVec 64
  callSiteTable : ℕ
  actionTable : ℕ
  callsiteEncoding : BitVec 8

/-- What the search asks the unwinder for. -/
structure Context where
  ip : BitVec 64
  regionStart : BitVec 64

/-- `struct dwarf_eh_action`. -/
structure LandingAction where
  landingPad : BitVec 64
  actionRecord : BitVec 64
  deriving DecidableEq, Repr

/-- `{ 0, 0 }`. -/
def LandingAction.empty : LandingAction := ⟨0, 0⟩

/-- Lines 310–320. -/
def Lsda.result (lsda : Lsda) (landingPad action : BitVec 64) : LandingAction where
  landingPad := if landingPad ≠ 0 then lsda.landingPads + landingPad else 0
  actionRecord := if action ≠ 0 then BitVec.ofNat 64 lsda.actionTable + action - 1 else 0

/-- The loop. -/
def findLoop (lsda : Lsda) (ip : BitVec 64) : ℕ → ℕ → Option LandingAction
  | 0, _ => none
  | fuel + 1, callsiteTable =>
    if callsiteTable ≤ lsda.actionTable then
      (readValue target m lsda.callsiteEncoding callsiteTable).bind fun (callSiteStart, callsiteTable) =>
      (readValue target m lsda.callsiteEncoding callsiteTable).bind fun (callSiteSize, callsiteTable) =>
      if ip < callSiteStart then some .empty
      else
        (readValue target m lsda.callsiteEncoding callsiteTable).bind fun (landingPad, callsiteTable) =>
        (readUleb128 m callsiteTable).bind fun (action, callsiteTable) =>
        if callSiteStart ≤ ip ∧ ip ≤ callSiteStart + callSiteSize then some (lsda.result landingPad action)
        else findLoop lsda ip fuel callsiteTable
    else some .empty

/-- Every round reads at least one byte, so that there are not more rounds than addresses up to the action
    table. -/
def dwarfEhFindCallsite (context : Context) (lsda : Lsda) : Option LandingAction :=
  findLoop target m lsda (context.ip - context.regionStart) (lsda.actionTable + 2) lsda.callSiteTable

/-! ## Specification -/

/-- The bytes of a value. -/
def Format.encode : Format → BitVec 64 → List (BitVec 8)
  | .fixed size _, v => target.inOrder (leBytes size v.toNat)
  | .uleb128, v => encodeUleb v.toNat
  | .sleb128, v => encodeSleb v.toInt

/-- The type has the value. -/
def Format.Representable : Format → BitVec 64 → Prop
  | .fixed size signed, v => extend size signed (v.toNat % 2 ^ (8 * size)) = v
  | .uleb128, _ | .sleb128, _ => True

/-- The readers of LEB128 decode the value. -/
def Format.Decodable : Format → BitVec 64 → Prop
  | .fixed _ _, _ => True
  | .uleb128, v => v.toNat < 2 ^ 31
  | .sleb128, v => -2 ^ 27 ≤ v.toInt ∧ v.toInt < 2 ^ 31

instance (f : Format) (v : BitVec 64) : Decidable (f.Representable v) := by
  unfold Format.Representable
  split <;> infer_instance

instance (f : Format) (v : BitVec 64) : Decidable (f.Decodable v) := by
  unfold Format.Decodable
  split <;> infer_instance

/-- An entry of a call-site table. -/
structure CallSite where
  start : BitVec 64
  size : BitVec 64
  landingPad : BitVec 64
  action : BitVec 64

namespace CallSite

def encode (f : Format) (e : CallSite) : List (BitVec 8) :=
  f.encode target e.start ++ f.encode target e.size ++ f.encode target e.landingPad ++
    encodeUleb e.action.toNat

/-- The table has a place for every value of the entry, and the code it is about does not end behind the
    address space. -/
structure WellFormed (f : Format) (e : CallSite) : Prop where
  start : f.Representable e.start
  size : f.Representable e.size
  landingPad : f.Representable e.landingPad
  stop : e.start.toNat + e.size.toNat < 2 ^ 64

/-- The instruction pointer is in the code of the entry. -/
def Covers (ip : BitVec 64) (e : CallSite) : Prop := e.start ≤ ip ∧ ip ≤ e.start + e.size

instance (ip : BitVec 64) (e : CallSite) : Decidable (e.Covers ip) :=
  inferInstanceAs (Decidable (_ ∧ _))

end CallSite

/-- The bytes of a call-site table. -/
def encodeTable (f : Format) (es : List CallSite) : List (BitVec 8) := es.flatMap (CallSite.encode target f)

/-- What the first entry with the instruction pointer says. -/
def lookup (lsda : Lsda) (ip : BitVec 64) (es : List CallSite) : LandingAction :=
  match es.find? fun e => decide (e.Covers ip) with
  | some e => lsda.result e.landingPad e.action
  | none => .empty

/-- The search has its result in every memory with this call-site table. -/
def LooksUp (type : DataEncoding) (lsda : Lsda) (es : List CallSite) (context : Context) : Prop :=
  ∀ m, HoldsAt m lsda.callSiteTable (encodeTable target (type.format target) es) →
    dwarfEhFindCallsite target m context lsda = some (lookup lsda (context.ip - context.regionStart) es)

/-- Some entry ends at or behind the instruction pointer, and the LEB128 values up to that entry can be
    decoded, except for the landing pad and the action of an entry that starts behind the instruction
    pointer. -/
def Settled (f : Format) (ip : BitVec 64) : List CallSite → Prop
  | [] => False
  | e :: es =>
    (f.Decodable e.start ∧ f.Decodable e.size) ∧
      (e.start ≤ ip → f.Decodable e.landingPad ∧ e.action.toNat < 2 ^ 31) ∧
      (ip ≤ e.start + e.size ∨ Settled f ip es)

/-! ## Reading a value -/

section

variable {target m}

@[simp] theorem Target.length_inOrder (bytes : List (BitVec 8)) :
    (target.inOrder bytes).length = bytes.length := by
  unfold Target.inOrder
  split <;> simp

@[simp] theorem Target.inOrder_inOrder (bytes : List (BitVec 8)) :
    target.inOrder (target.inOrder bytes) = bytes := by
  unfold Target.inOrder
  split <;> simp

/-- A value is read back, and `*data` is behind its bytes. -/
theorem Format.read_encode {f : Format} {v : BitVec 64} {data : ℕ} (h : HoldsAt m data (f.encode target v))
    (hv : f.Representable v) :
    f.read target m data =
      if f.Decodable v then some (v, data + (f.encode target v).length) else none := by
  cases f with
  | fixed size signed =>
    have hread := readBytes_holdsAt h
    rw [Format.encode, Target.length_inOrder, length_leBytes] at hread
    have hvalue : extend size signed (v.toNat % 2 ^ (8 * size)) = v := hv
    have hdecodable : (Format.fixed size signed).Decodable v := trivial
    rw [Format.read, readFixed, hread, Option.map_some, Target.inOrder_inOrder, leValue_leBytes, hvalue,
      if_pos hdecodable, Format.encode, Target.length_inOrder, length_leBytes]
  | uleb128 =>
    rw [Format.read, readUleb128_encodeUleb h, BitVec.ofNat_toNat, BitVec.setWidth_eq]
    rfl
  | sleb128 =>
    rw [Format.read, readSleb128_encodeSleb h, BitVec.ofInt_toInt]
    rfl

theorem readValue_encodeValue {encoding : BitVec 8} {type : DataEncoding}
    (htype : getEncoding encoding = some type) {v : BitVec 64} {data : ℕ}
    (h : HoldsAt m data ((type.format target).encode target v)) (hv : (type.format target).Representable v) :
    readValue target m encoding data =
      if (type.format target).Decodable v then some (v, data + ((type.format target).encode target v).length)
      else none := by
  rw [readValue, htype, Option.bind_some, Format.read_encode h hv]

/-- There is a first byte to read. -/
theorem readDigits_none {data : ℕ} (h : m data = none) (left : ℕ) (uleb : BitVec 64) (bit : ℕ) :
    readDigits m left data uleb bit = none := by
  cases left with
  | zero => rfl
  | succ left =>
    rw [readDigits, h, Option.bind_none]
    exact ite_self none

theorem readValue_none {encoding : BitVec 8} {data : ℕ} (h : m data = none) :
    readValue target m encoding data = none := by
  have hfixed : ∀ size signed, 0 < size → readFixed target m size signed data = none := by
    intro size signed hpos
    obtain ⟨n, rfl⟩ := Nat.exists_eq_succ_of_ne_zero hpos.ne'
    rw [readFixed, readBytes_none h, Option.map_none]
  have hleb : readLeb128 m data = none := readDigits_none h 10 0 0
  rw [readValue, Option.bind_eq_none_iff]
  intro type _
  cases type with
  | absptr => exact hfixed _ true target.pos
  | uleb128 => rw [DataEncoding.format, Format.read, readUleb128, hleb, Option.map_none]
  | sleb128 => rw [DataEncoding.format, Format.read, readSleb128, hleb, Option.bind_none]
  | udata2 | udata4 | udata8 => exact hfixed _ false (by decide)
  | sdata2 | sdata4 | sdata8 => exact hfixed _ true (by decide)

/-! ## The loop -/

theorem readDigits_advances {left data bit : ℕ} {uleb : BitVec 64} {r : BitVec 64 × ℕ × ℕ}
    (h : readDigits m left data uleb bit = some r) : data < r.2.2 := by
  induction left generalizing data bit uleb with
  | zero => cases h
  | succ left ih =>
    rw [readDigits] at h
    split at h
    · obtain ⟨byte, -, h⟩ := Option.bind_eq_some_iff.mp h
      obtain ⟨term, -, h⟩ := Option.bind_eq_some_iff.mp h
      dsimp only at h
      split at h
      · exact (Nat.lt_succ_self data).trans (ih h)
      · cases h
        exact Nat.lt_succ_self data
    · cases h

theorem readUleb128_advances {data : ℕ} {r : BitVec 64 × ℕ} (h : readUleb128 m data = some r) :
    data < r.2 := by
  obtain ⟨r', hr', rfl⟩ := Option.map_eq_some_iff.mp h
  exact readDigits_advances hr'

theorem readSleb128_advances {data : ℕ} {r : BitVec 64 × ℕ} (h : readSleb128 m data = some r) :
    data < r.2 := by
  obtain ⟨⟨uleb, bits, data'⟩, hr', h⟩ := Option.bind_eq_some_iff.mp h
  have hlt : data < data' := readDigits_advances hr'
  dsimp only at h
  split at h
  · split at h
    · obtain ⟨ones, -, rfl⟩ := Option.map_eq_some_iff.mp h
      exact hlt
    · cases h
      exact hlt
  · cases h

theorem readValue_advances {encoding : BitVec 8} {data : ℕ} {r : BitVec 64 × ℕ}
    (h : readValue target m encoding data = some r) : data ≤ r.2 := by
  obtain ⟨type, -, h⟩ := Option.bind_eq_some_iff.mp h
  cases hf : type.format target with
  | fixed size signed =>
    rw [hf] at h
    obtain ⟨bytes, -, rfl⟩ := Option.map_eq_some_iff.mp h
    exact Nat.le_add_right data size
  | uleb128 =>
    rw [hf] at h
    exact (readUleb128_advances h).le
  | sleb128 =>
    rw [hf] at h
    exact (readSleb128_advances h).le

/-- **The loop ends**: more fuel than addresses up to the action table changes nothing. -/
theorem findLoop_fuel (lsda : Lsda) (ip : BitVec 64) {fuel cursor : ℕ} (hpos : 0 < fuel)
    (h : lsda.actionTable + 2 ≤ cursor + fuel) (more : ℕ) :
    findLoop target m lsda ip (fuel + more) cursor = findLoop target m lsda ip fuel cursor := by
  induction fuel generalizing cursor with
  | zero => exact absurd hpos (Nat.lt_irrefl 0)
  | succ fuel ih =>
    rw [Nat.add_right_comm, findLoop, findLoop]
    refine if_ctx_congr Iff.rfl (fun hle => ?_) fun _ => rfl
    refine Option.bind_congr fun start hstart => Option.bind_congr fun size hsize => ?_
    refine if_ctx_congr Iff.rfl (fun _ => rfl) fun _ => ?_
    refine Option.bind_congr fun landingPad hlandingPad => Option.bind_congr fun action haction => ?_
    have := readValue_advances hstart
    have := readValue_advances hsize
    have := readValue_advances hlandingPad
    have := readUleb128_advances haction
    exact if_ctx_congr Iff.rfl (fun _ => rfl) fun _ => ih (by omega) (by omega)

theorem ite_some_bind {α β : Type} {p : Prop} [Decidable p] (a : α) (f : α → Option β) :
    (if p then some a else none).bind f = if p then f a else none := by
  split <;> rfl

/-- A round that starts where an entry is. -/
theorem findLoop_entry {lsda : Lsda} {type : DataEncoding}
    (htype : getEncoding lsda.callsiteEncoding = some type)
    {e : CallSite} (he : e.WellFormed (type.format target)) {cursor : ℕ} (hcursor : cursor ≤ lsda.actionTable)
    (h : HoldsAt m cursor (e.encode target (type.format target))) (ip : BitVec 64) (fuel : ℕ) :
    findLoop target m lsda ip (fuel + 1) cursor =
      if (type.format target).Decodable e.start ∧ (type.format target).Decodable e.size then
        if ip < e.start then some .empty
        else if (type.format target).Decodable e.landingPad ∧ e.action.toNat < 2 ^ 31 then
          if e.Covers ip then some (lsda.result e.landingPad e.action)
          else findLoop target m lsda ip fuel (cursor + (e.encode target (type.format target)).length)
        else none
      else none := by
  rw [CallSite.encode, holdsAt_append, holdsAt_append, holdsAt_append] at h
  obtain ⟨⟨⟨hstart, hsize⟩, hlandingPad⟩, haction⟩ := h
  have hend : cursor + (e.encode target (type.format target)).length =
      cursor + ((type.format target).encode target e.start ++ (type.format target).encode target e.size ++
        (type.format target).encode target e.landingPad).length + (encodeUleb e.action.toNat).length := by
    rw [CallSite.encode, List.length_append, Nat.add_assoc]
  rw [hend]
  rw [List.length_append, ← Nat.add_assoc] at hlandingPad
  rw [List.length_append, List.length_append, ← Nat.add_assoc, ← Nat.add_assoc] at haction ⊢
  rw [findLoop, if_pos hcursor, readValue_encodeValue htype hstart he.start, ite_some_bind]
  dsimp only
  rw [readValue_encodeValue htype hsize he.size, ite_some_bind]
  dsimp only
  rw [readValue_encodeValue htype hlandingPad he.landingPad, ite_some_bind]
  dsimp only
  rw [readUleb128_encodeUleb haction, BitVec.ofNat_toNat, BitVec.setWidth_eq, ite_some_bind,
    ite_and (P := (type.format target).Decodable e.start),
    ite_and (P := (type.format target).Decodable e.landingPad)]
  rfl

theorem length_callSite_pos (f : Format) (e : CallSite) : 0 < (e.encode target f).length := by
  rw [CallSite.encode, List.length_append, encodeUleb, length_groups]
  exact Nat.add_pos_right _ (List.length_pos_iff.mpr (ulebDigits_ne_nil e.action.toNat))

theorem lookup_cons_of_covers {ip : BitVec 64} {e : CallSite} (h : e.Covers ip) (lsda : Lsda)
    (es : List CallSite) : lookup lsda ip (e :: es) = lsda.result e.landingPad e.action := by
  rw [lookup, List.find?_cons_of_pos (by simpa using h)]

theorem lookup_cons_of_not_covers {ip : BitVec 64} {e : CallSite} (h : ¬ e.Covers ip) (lsda : Lsda)
    (es : List CallSite) : lookup lsda ip (e :: es) = lookup lsda ip es := by
  rw [lookup, lookup, List.find?_cons_of_neg (by simpa using h)]

/-- Entries that start behind the instruction pointer. -/
theorem lookup_of_before {ip : BitVec 64} {es : List CallSite} (h : ∀ e ∈ es, ip < e.start) (lsda : Lsda) :
    lookup lsda ip es = .empty := by
  have hnone : es.find? (fun e => decide (e.Covers ip)) = none := by
    rw [List.find?_eq_none]
    intro e he hcovers
    exact BitVec.not_le.mpr (h e he) (of_decide_eq_true hcovers).1
  rw [lookup, hnone]

/-- An entry that starts behind the instruction pointer also ends there. -/
theorem CallSite.WellFormed.lt_stop {f : Format} {e : CallSite} (he : e.WellFormed f) {ip : BitVec 64}
    (h : ip < e.start) : ip ≤ e.start + e.size := by
  have hstop := he.stop
  rw [BitVec.le_def, BitVec.toNat_add, Nat.mod_eq_of_lt hstop]
  exact (BitVec.lt_def.mp h).le.trans (Nat.le_add_right _ _)

/-- The search through a table, entry by entry. -/
theorem findLoop_table {lsda : Lsda} {type : DataEncoding}
    (htype : getEncoding lsda.callsiteEncoding = some type)
    (ip : BitVec 64) {es : List CallSite} (hwf : ∀ e ∈ es, e.WellFormed (type.format target))
    (hsorted : es.Pairwise fun e e' => e.start ≤ e'.start) {cursor fuel : ℕ}
    (h : HoldsAt m cursor (encodeTable target (type.format target) es))
    (hend : cursor + (encodeTable target (type.format target) es).length = lsda.actionTable)
    (hfuel : lsda.actionTable + 2 ≤ cursor + fuel) :
    (Settled (type.format target) ip es → findLoop target m lsda ip fuel cursor = some (lookup lsda ip es)) ∧
      (¬ Settled (type.format target) ip es → m lsda.actionTable = none →
        findLoop target m lsda ip fuel cursor = none) := by
  obtain ⟨fuel, rfl⟩ : ∃ n, fuel = n + 1 := ⟨fuel - 1, by omega⟩
  induction es generalizing cursor fuel with
  | nil =>
    obtain rfl : cursor = lsda.actionTable := hend
    refine ⟨False.elim, fun _ hnone => ?_⟩
    rw [findLoop, if_pos (Nat.le_refl _), readValue_none hnone, Option.bind_none]
  | cons e es ih =>
    obtain ⟨he, hes⟩ := List.forall_mem_cons.mp hwf
    obtain ⟨hlater, hsorted⟩ := List.pairwise_cons.mp hsorted
    rw [encodeTable, List.flatMap_cons, holdsAt_append] at h
    rw [encodeTable, List.flatMap_cons, List.length_append, ← Nat.add_assoc] at hend
    have hpos : 0 < (e.encode target (type.format target)).length := length_callSite_pos _ e
    rw [findLoop_entry htype he (by omega) h.1]
    by_cases hfirst : (type.format target).Decodable e.start ∧ (type.format target).Decodable e.size
    · rw [if_pos hfirst]
      by_cases hbefore : ip < e.start
      · -- the entries behind this one start even later
        rw [if_pos hbefore]
        have hnot : ¬ e.start ≤ ip := BitVec.not_le.mpr hbefore
        have hall : ∀ e' ∈ e :: es, ip < e'.start :=
          List.forall_mem_cons.mpr
          ⟨hbefore, fun e' he' =>
          BitVec.lt_def.mpr ((BitVec.lt_def.mp hbefore).trans_le (BitVec.le_def.mp (hlater e' he')))⟩
        rw [lookup_of_before hall]
        exact ⟨fun _ => rfl, fun hsettled =>
            absurd ⟨hfirst, fun hle => absurd hle hnot, .inl (he.lt_stop hbefore)⟩
          hsettled⟩
      · rw [if_neg hbefore]
        have hstart : e.start ≤ ip := BitVec.not_lt.mp hbefore
        by_cases hsecond : (type.format target).Decodable e.landingPad ∧ e.action.toNat < 2 ^ 31
        · rw [if_pos hsecond]
          by_cases hcovers : e.Covers ip
          · rw [if_pos hcovers, lookup_cons_of_covers hcovers]
            exact ⟨fun _ => rfl, fun hsettled => absurd ⟨hfirst, fun _ => hsecond, .inl hcovers.2⟩ hsettled⟩
          · rw [if_neg hcovers, lookup_cons_of_not_covers hcovers]
            have hsettled : Settled (type.format target) ip (e :: es) ↔ Settled (type.format target) ip es :=
              ⟨fun hs => hs.2.2.resolve_left fun hle => hcovers ⟨hstart, hle⟩,
                fun hs => ⟨hfirst, fun _ => hsecond, .inr hs⟩⟩
            obtain ⟨fuel, rfl⟩ : ∃ n, fuel = n + 1 := ⟨fuel - 1, by omega⟩
            rw [hsettled]
            exact ih hes hsorted h.2 hend fuel (by omega)
        · rw [if_neg hsecond]
          exact ⟨fun hsettled => absurd (hsettled.2.1 hstart) hsecond, fun _ _ => rfl⟩
    · rw [if_neg hfirst]
      exact ⟨fun hsettled => absurd hsettled.1 hfirst, fun _ _ => rfl⟩

end

/-- **The search stays inside the table and has its result exactly if some entry ends at or behind the
    instruction pointer** (and the LEB128 values up to it can be decoded). -/
theorem lookup_inTable_iff (lsda : Lsda) (type : DataEncoding) (es : List CallSite)
    (context : Context) (htype : getEncoding lsda.callsiteEncoding = some type)
    (hwf : ∀ e ∈ es, e.WellFormed (type.format target)) (hsorted : es.Pairwise fun e e' => e.start ≤ e'.start)
    (hend : lsda.callSiteTable + (encodeTable target (type.format target) es).length = lsda.actionTable) :
    LooksUp target type lsda es context ↔
      Settled (type.format target) (context.ip - context.regionStart) es := by
  constructor
  · intro h
    by_contra hsettled
    have hplaced := holdsAt_placed lsda.callSiteTable (encodeTable target (type.format target) es)
    have hnone := (findLoop_table htype (context.ip - context.regionStart) hwf hsorted hplaced hend
      (Nat.le_add_left _ _)).2 hsettled (by rw [← hend, placed_end])
    have hsome := h _ hplaced
    rw [dwarfEhFindCallsite, hnone] at hsome
    cases hsome
  · intro hsettled m hm
    exact (findLoop_table htype _ hwf hsorted hm hend (Nat.le_add_left _ _)).1 hsettled

def amd64 : Target := ⟨8, by decide, false⟩

/-- A table with one entry, for the first five bytes of a function. -/
def oneEntry : List CallSite := [⟨0, 4, 8, 1⟩]

def oneEntryLsda : Lsda := ⟨0x1000, 0, 4, 0x01⟩

theorem oneEntry_wellFormed : ∀ e ∈ oneEntry, e.WellFormed .uleb128 :=
  List.forall_mem_cons.mpr ⟨⟨trivial, trivial, trivial, by decide⟩, fun _ h => absurd h List.not_mem_nil⟩

theorem encodeTable_oneEntry : encodeTable amd64 .uleb128 oneEntry = [0x00, 0x04, 0x08, 0x01] := by
  simp [encodeTable, oneEntry, CallSite.encode, Format.encode, encodeUleb, ulebDigits, groups]

theorem lookup_inTable_iff_oneEntry :
    LooksUp amd64 .uleb128 oneEntryLsda oneEntry ⟨2, 0⟩ ↔ Settled .uleb128 (2 - 0) oneEntry :=
  lookup_inTable_iff amd64 oneEntryLsda .uleb128 oneEntry ⟨2, 0⟩ rfl oneEntry_wellFormed
    (List.pairwise_singleton _ _) (congrArg (0 + List.length ·) encodeTable_oneEntry)

/-- With the instruction pointer behind the entry, the bytes `05 14 07 03` of the action table are taken for
    another entry. -/
theorem lookup_readsActions :
    (∀ e ∈ oneEntry, e.WellFormed .uleb128) ∧ (oneEntry.Pairwise fun e e' => e.start ≤ e'.start) ∧
      oneEntryLsda.callSiteTable + (encodeTable amd64 .uleb128 oneEntry).length = oneEntryLsda.actionTable ∧
      ¬ LooksUp amd64 .uleb128 oneEntryLsda oneEntry ⟨16, 0⟩ := by
  refine ⟨oneEntry_wellFormed, List.pairwise_singleton _ _, congrArg (0 + List.length ·) encodeTable_oneEntry,
    fun h => ?_⟩
  have hread := h (placed 0 [0x00, 0x04, 0x08, 0x01, 0x05, 0x14, 0x07, 0x03]) <| by
    change HoldsAt _ 0 (encodeTable amd64 .uleb128 oneEntry)
    rw [encodeTable_oneEntry]
    simp [HoldsAt, placed]
  have hfound : dwarfEhFindCallsite amd64 (placed 0 [0x00, 0x04, 0x08, 0x01, 0x05, 0x14, 0x07, 0x03]) ⟨16, 0⟩
      oneEntryLsda = some ⟨0x1007, 6⟩ := by decide
  rw [hfound] at hread
  revert hread
  decide

end Libobjc2.Exceptions
