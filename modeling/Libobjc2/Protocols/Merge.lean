import Libobjc2.Common.FirstWins
import Mathlib.Algebra.Group.Nat.Defs
import Mathlib.Algebra.Ring.Int.Defs
import Mathlib.Data.List.Induction
import Mathlib.Data.List.ReduceOption
import Mathlib.Logic.Function.Basic

/-!
# Merging definitions of a protocol

`protocol.c`, lines 56–354 and 757–777: what becomes of the lists of a protocol when further definitions of
its name are registered. A function is `none` where the source aborts, which includes an allocation that is
too large; that the memory for a smaller one is there is taken for granted.

Results:
* `mergeMethods_eq`, `mergeProperties_eq`, `mergeAdopted_eq`: each merge is a union in which the first wins.
* `mergeParts_spec`, `makeProtocolEqualToProtocol_spec`: the parts of a protocol are merged independently.
* `registered_first_wins`: any number of definitions.
* `property_dropped`: a list that would have more than `INT_MAX` properties is not merged.
-/

namespace Libobjc2.Protocols

open Libobjc2.Common

/-! ## Model -/

def INT_MAX : ℤ := 2 ^ 31 - 1

def SIZE_MAX : ℕ := 2 ^ 64 - 1

/-- A list of methods or properties in memory, of which the first `count` members are valid. -/
structure MemberList (α : Type*) where
  count : ℤ
  size : ℤ
  member : ℕ → α

namespace MemberList

variable {α : Type*}

def members (l : MemberList α) : List α := (List.range l.count.toNat).map l.member

/-- The members of a list that may be NULL. -/
def membersOf (l : Option (MemberList α)) : List α := (l.map members).getD []

/-- A new list with these members. -/
def ofList [Inhabited α] (size : ℤ) (l : List α) : MemberList α := ⟨l.length, size, fun i => l.getD i default⟩

end MemberList

/-- A selector; NULL is `none` wherever a selector is stored. -/
structure Selector where
  name : String
  types : Option String
deriving DecidableEq, Repr, Inhabited

/-- `protocol_selector_name` (protocol.c, lines 122–125). -/
def selectorName (selector : Option Selector) : Option String := selector.map Selector.name

/-- `struct objc_protocol_method_description`. -/
structure Method where
  selector : Option Selector
  types : Option String
deriving DecidableEq, Repr, Inhabited

/-- `struct objc_property`. -/
structure Property where
  name : Option String
  attributes : Option String
  type : Option String
  getter : Option Selector
  setter : Option Selector
deriving DecidableEq, Repr, Inhabited

/-- A pointer to a protocol, with the name that is found there. -/
structure ProtocolRef where
  address : ℕ
  name : Option String
deriving DecidableEq, Repr

inductive MethodKind where
  | requiredInstance
  | requiredClass
  | optionalInstance
  | optionalClass
deriving DecidableEq, Repr

inductive PropertyKind where
  | requiredInstance
  | optionalInstance
  | requiredClass
  | optionalClass
deriving DecidableEq, Repr

/-- The lists of a protocol. -/
inductive Part where
  | methods (kind : MethodKind)
  | adopted
  | properties (kind : PropertyKind)
deriving DecidableEq, Repr

/-- The text for the part in the report of a conflict. -/
def Part.kind : Part → String
  | .methods .requiredInstance => "required instance method"
  | .methods .requiredClass => "required class method"
  | .methods .optionalInstance => "optional instance method"
  | .methods .optionalClass => "optional class method"
  | .adopted => ""
  | .properties .requiredInstance => "required instance property"
  | .properties .optionalInstance => "optional instance property"
  | .properties .requiredClass => "required class property"
  | .properties .optionalClass => "optional class property"

/-- The class that the `isa` field of a protocol points to. -/
inductive ProtocolClass where
  | incompleteProtocol
  | protocolGCC
  | protocolGSv1
  | protocol
deriving DecidableEq, Repr

/-- `struct objc_protocol`. The lists that are chained through `next` are given as a list, which is empty for
    NULL. -/
structure Protocol where
  isa : ProtocolClass
  name : String
  protocolList : List (List (Option ProtocolRef))
  methods : MethodKind → Option (MemberList Method)
  properties : PropertyKind → List (MemberList Property)

/-- A conflict, as `protocol_report_conflict` reports it (protocol.c, lines 82–94). -/
structure Report where
  kind : String
  member : Option String
deriving DecidableEq, Repr

/-- `objc2_flexible_array_size`: whether there is such a size (allocation.h, lines 28–39). -/
def flexibleArraySize (headerSize count elementSize : ℕ) : Bool :=
  count * elementSize ≤ SIZE_MAX && headerSize ≤ SIZE_MAX - count * elementSize

/-- The loop that adds the members of the second list to `merged`, and reports those that differ from the
    member that is there already (protocol.c, lines 176–190 and 242–262). -/
def mergeLoop {α : Type*} (key : α → Option String) (same : α → α → Bool) (kind : String) :
    List α → List α → List Report → List α × List Report
  | merged, [], reports => (merged, reports)
  | merged, candidate :: rest, reports =>
    match merged.find? fun current => key current = key candidate with
    | some current =>
      let reports := if same current candidate then reports else reports ++ [⟨kind, key candidate⟩]
      mergeLoop key same kind merged rest reports
    | none => mergeLoop key same kind (merged ++ [candidate]) rest reports

/-- `sizeof(struct objc_protocol_method_description)`. -/
def methodSize : ℤ := 16

/-- `sizeof(struct objc_property)`. -/
def propertySize : ℤ := 40

/-- `protocol_merge_methods` (protocol.c, lines 141–192). -/
def mergeMethods (first second : Option (MemberList Method)) (kind : String) (reports : List Report) :
    Option (Option (MemberList Method) × List Report) :=
  match second with
  | none => some (first, reports)
  | some list =>
    if list.count ≤ 0 then some (first, reports)
    else if list.size < methodSize ∨ list.count < 0 then
      some (first, reports ++ [⟨kind, some "<invalid-list>"⟩])
    else if first.any fun canonical => canonical.count < 0 ∨ canonical.size < methodSize then
      some (first, reports ++ [⟨kind, some "<invalid-canonical-list>"⟩])
    else
      let firstCount := (first.map MemberList.count).getD 0
      let secondCount := list.count
      if firstCount > INT_MAX ∨ secondCount > INT_MAX ∨ secondCount > INT_MAX - firstCount then none
      else if flexibleArraySize 8 (firstCount + secondCount).toNat 16 then
        let merged := MemberList.membersOf first
        let r := mergeLoop (fun m : Method => selectorName m.selector) (fun a b => a.types = b.types) kind
          merged list.members reports
        some (some (.ofList methodSize r.1), r.2)
      else none

/-- `protocol_property_equal` (protocol.c, lines 194–201). -/
def propertyEqual (a b : Property) : Bool :=
  a.attributes = b.attributes && a.type = b.type && selectorName a.getter = selectorName b.getter &&
    selectorName a.setter = selectorName b.setter

/-- `protocol_property_count` (protocol.c, lines 203–213). -/
def propertyCount : List (MemberList Property) → ℕ → ℕ
  | [], count => count
  | list :: lists, count =>
    if list.count < 0 ∨ list.size < propertySize then SIZE_MAX
    else if list.count.toNat > SIZE_MAX - count then SIZE_MAX
    else propertyCount lists (count + list.count.toNat)

/-- `protocol_merge_properties` (protocol.c, lines 215–264). -/
def mergeProperties (first second : List (MemberList Property)) (kind : String) (reports : List Report) :
    Option (List (MemberList Property) × List Report) :=
  if second.isEmpty then some (first, reports)
  else
    let firstCount := propertyCount first 0
    let secondCount := propertyCount second 0
    if firstCount = SIZE_MAX ∨ secondCount = SIZE_MAX ∨ firstCount > INT_MAX.toNat ∨
        secondCount > INT_MAX.toNat - firstCount then
      some (first, reports ++ [⟨kind, some "<invalid-list>"⟩])
    else if flexibleArraySize 16 (firstCount + secondCount) 40 then
      let r := mergeLoop Property.name propertyEqual kind (first.flatMap MemberList.members)
        (second.flatMap MemberList.members) reports
      some ([.ofList propertySize r.1], r.2)
    else none

/-- The loop of `protocol_merge_adopted` over the entries (protocol.c, lines 287–303). -/
def adoptLoop {Ref : Type*} (name : Ref → Option String) : List Ref → List (Option Ref) → List Ref
  | merged, [] => merged
  | merged, none :: rest => adoptLoop name merged rest
  | merged, some candidate :: rest =>
    if (name candidate).isNone then adoptLoop name merged rest
    else if merged.any fun p => name p = name candidate then adoptLoop name merged rest
    else adoptLoop name (merged ++ [candidate]) rest

/-- `protocol_merge_adopted` (protocol.c, lines 266–305). -/
def mergeAdopted {Ref : Type*} (name : Ref → Option String) (first second : List (List (Option Ref))) :
    Option (List (List (Option Ref))) :=
  if second.isEmpty then some first
  else
    let entries := first.flatten ++ second.flatten
    if entries.length ≤ SIZE_MAX ∧ flexibleArraySize 16 entries.length 8 then
      some [(adoptLoop name [] entries).map some]
    else none

/-- Merges one part of `p2` into `p1`. -/
def mergePart (p2 : Protocol) (r : Protocol × List Report) (part : Part) : Option (Protocol × List Report) :=
  let (p1, reports) := r
  match part with
  | .methods kind =>
    (mergeMethods (p1.methods kind) (p2.methods kind) part.kind reports).map fun r =>
      ({ p1 with methods := Function.update p1.methods kind r.1 }, r.2)
  | .adopted =>
    (mergeAdopted ProtocolRef.name p1.protocolList p2.protocolList).map fun list =>
      ({ p1 with protocolList := list }, reports)
  | .properties kind =>
    (mergeProperties (p1.properties kind) (p2.properties kind) part.kind reports).map fun r =>
      ({ p1 with properties := Function.update p1.properties kind r.1 }, r.2)

/-- `protocol_hasOptionalMethodsAndProperties` (protocol.c, lines 61–68). -/
def hasOptionalMethodsAndProperties (p : Protocol) : Bool := p.isa ≠ .protocolGCC

/-- `protocol_hasClassProperties` (protocol.c, lines 56–59). -/
def hasClassProperties (p : Protocol) : Bool := p.isa = .protocol

/-- The parts that two protocols have in common, in the order in which they are merged. -/
def commonParts (p1 p2 : Protocol) : List Part :=
  [.methods .requiredInstance, .methods .requiredClass, .adopted] ++
    if hasOptionalMethodsAndProperties p1 && hasOptionalMethodsAndProperties p2 then
      [.methods .optionalInstance, .methods .optionalClass, .properties .requiredInstance,
        .properties .optionalInstance] ++
        if hasClassProperties p1 && hasClassProperties p2 then
          [.properties .requiredClass, .properties .optionalClass]
        else []
    else []

/-- `makeProtocolEqualToProtocol` (protocol.c, lines 307–339). -/
def makeProtocolEqualToProtocol (p1 p2 : Protocol) (reports : List Report) :
    Option (Protocol × List Report) :=
  (commonParts p1 p2).foldlM (mergePart p2) (p1, reports)

/-- `register_protocol_definition`, where `existing` is the protocol that the table has under the name
    (protocol.c, lines 757–777). -/
def registerProtocolDefinition (r : Option Protocol × List Report) (proto : Protocol) :
    Option (Option Protocol × List Report) :=
  let proto := { proto with isa := .protocol }
  match r.1 with
  | none => some (some proto, r.2)
  | some existing => (makeProtocolEqualToProtocol existing proto r.2).map fun r => (some r.1, r.2)

/-- A sequence of definitions of one name. -/
def registerAll (defs : List Protocol) : Option (Option Protocol × List Report) :=
  defs.foldlM registerProtocolDefinition (none, [])

/-! ## The members of the parts -/

/-- A member of any part. -/
inductive Member where
  | method (m : Method)
  | adopted (p : ProtocolRef)
  | property (p : Property)
deriving DecidableEq, Repr

namespace Member

/-- The name of the selector, of the protocol or of the property. -/
def key : Member → Option String
  | method m => selectorName m.selector
  | adopted p => p.name
  | property p => p.name

/-- The same content, as far as the merge compares it. -/
def same : Member → Member → Bool
  | method a, method b => a.types = b.types
  | property a, property b => propertyEqual a b
  | _, _ => true

theorem same_refl (a : Member) : same a a = true := by
  cases a <;> simp [same, propertyEqual]

end Member

open Member

/-- The members of a part of a protocol. -/
def Protocol.members (p : Protocol) : Part → List Member
  | .methods kind => (MemberList.membersOf (p.methods kind)).map .method
  | .adopted => (p.protocolList.flatten.filterMap id).map .adopted
  | .properties kind => ((p.properties kind).flatMap MemberList.members).map .property

/-- A list of methods that is well formed: the count is a count, and no member is smaller than
    the structure that the runtime knows. -/
def MethodsOk (l : Option (MemberList Method)) : Prop :=
  ∀ list ∈ l, 0 ≤ list.count ∧ list.count ≤ INT_MAX ∧ methodSize ≤ list.size

/-- A chain of lists of properties that are well formed. -/
def PropertiesOk (l : List (MemberList Property)) : Prop :=
  ∀ list ∈ l, 0 ≤ list.count ∧ list.count ≤ INT_MAX ∧ propertySize ≤ list.size

/-- A chain of lists of adopted protocols: each is there and has a name. -/
def AdoptedOk {Ref : Type*} (name : Ref → Option String) (l : List (List (Option Ref))) : Prop :=
  ∀ e ∈ l.flatten, ∃ q, e = some q ∧ name q ≠ none

/-- The lists of a protocol are well formed. -/
structure Protocol.WellFormed (p : Protocol) : Prop where
  methods : ∀ kind, MethodsOk (p.methods kind)
  adopted : AdoptedOk ProtocolRef.name p.protocolList
  properties : ∀ kind, PropertiesOk (p.properties kind)

/-- How many members a list of this part can have. -/
def Part.limit : Part → ℕ
  | .methods _ | .properties _ => INT_MAX.toNat
  | .adopted => (SIZE_MAX - 16) / 8

/-- A report for a member. -/
def Part.report (part : Part) (m : Member) : Report := ⟨part.kind, m.key⟩

theorem Part.kind_injective {part part' : Part} (h : part.kind = part'.kind) : part = part' := by
  cases part with
  | methods k => cases part' with
    | methods k' => cases k <;> cases k' <;> first | rfl | exact absurd h (by decide)
    | adopted => cases k <;> exact absurd h (by decide)
    | properties k' => cases k <;> cases k' <;> exact absurd h (by decide)
  | adopted => cases part' with
    | methods k' => cases k' <;> exact absurd h (by decide)
    | adopted => rfl
    | properties k' => cases k' <;> exact absurd h (by decide)
  | properties k => cases part' with
    | methods k' => cases k <;> cases k' <;> exact absurd h (by decide)
    | adopted => cases k <;> exact absurd h (by decide)
    | properties k' => cases k <;> cases k' <;> first | rfl | exact absurd h (by decide)

namespace MemberList

variable {α : Type*}

theorem length_members (l : MemberList α) : l.members.length = l.count.toNat := by simp [members]

theorem members_ofList [Inhabited α] (size : ℤ) (l : List α) : (ofList size l).members = l := by
  apply List.ext_getElem
  · simp [members, ofList]
  · intro i _ hi
    simp [members, ofList, hi]

end MemberList

/-! ## One merge -/

/-- The loop joins the lists so that the first wins, and reports the members that differ. -/
theorem mergeLoop_eq {α : Type*} (key : α → Option String) (same : α → α → Bool) (kind : String)
    (merged l : List α) (reports : List Report) :
    mergeLoop key same kind merged l reports =
      (firstsFrom key merged l, reports ++ (clashes key same merged l).map fun a => ⟨kind, key a⟩) := by
  induction l generalizing merged reports with
  | nil => simp [mergeLoop, firstsFrom, clashes]
  | cons a l ih =>
    rw [mergeLoop, firstsFrom, clashes]
    show (match lookup key merged (key a) with | some _ => _ | none => _) = _
    cases lookup key merged (key a) with
    | none => simpa using ih (merged ++ [a]) reports
    | some b =>
      by_cases hsame : same b a = true
      · simpa [hsame] using ih merged reports
      · simp only [hsame]
        rw [ih]
        simp

theorem adoptLoop_eq {Ref : Type*} (name : Ref → Option String) (merged : List Ref) (l : List (Option Ref))
    (h : ∀ e ∈ l, ∃ q, e = some q ∧ name q ≠ none) :
    adoptLoop name merged l = firstsFrom name merged (l.filterMap id) := by
  induction l generalizing merged with
  | nil => rfl
  | cons e l ih =>
    obtain ⟨q, rfl, hq⟩ := h e List.mem_cons_self
    have ih' := fun merged => ih merged fun e he => h e (List.mem_cons_of_mem _ he)
    have hname : (name q).isNone = false := by
      rw [← Bool.not_eq_true, Option.isNone_iff_eq_none]
      exact hq
    have hany : (merged.any fun p => decide (name p = name q)) = (lookup name merged (name q)).isSome := by
      rw [Bool.eq_iff_iff, lookup_isSome]
      simp
    rw [adoptLoop, hname, hany, List.filterMap_cons, id, firstsFrom]
    simp only [Bool.false_eq_true, if_false]
    split <;> exact ih' _

theorem flexibleArraySize_of_le {headerSize count elementSize : ℕ}
    (h : headerSize + count * elementSize ≤ SIZE_MAX) :
    flexibleArraySize headerSize count elementSize = true := by
  simp only [flexibleArraySize, Bool.and_eq_true, decide_eq_true_eq]
  omega

theorem intMax_array {n elementSize headerSize : ℕ} (hn : n ≤ INT_MAX.toNat) (he : elementSize ≤ 40)
    (hh : headerSize ≤ 16) : flexibleArraySize headerSize n elementSize = true := by
  apply flexibleArraySize_of_le
  have h := Nat.mul_le_mul hn he
  have hmax : INT_MAX.toNat * 40 + 16 ≤ SIZE_MAX := by decide
  omega

theorem length_firstsFrom_le {α : Type*} (key : α → Option String) (merged l : List α) :
    (firstsFrom key merged l).length ≤ merged.length + l.length := by
  rw [← List.length_append]
  exact (firstsFrom_sublist merged l).length_le

section

variable {reports : List Report} {kind : String}

theorem count_membersOf {l : Option (MemberList Method)} (h : MethodsOk l) :
    (l.map MemberList.count).getD 0 = (MemberList.membersOf l).length := by
  cases l with
  | none => rfl
  | some list =>
    show list.count = (list.members.length : ℤ)
    rw [MemberList.length_members, Int.toNat_of_nonneg (h list rfl).1]

/-- Well formed lists that have room in one list are merged. -/
theorem mergeMethods_eq {first second : Option (MemberList Method)} (hfirst : MethodsOk first)
    (hsecond : MethodsOk second)
    (hroom : (MemberList.membersOf first).length + (MemberList.membersOf second).length ≤ INT_MAX.toNat) :
    ∃ list, mergeMethods first second kind reports = some (list, reports ++
        (clashes (fun m : Method => selectorName m.selector) (fun a b => a.types = b.types)
          (MemberList.membersOf first) (MemberList.membersOf second)).map fun m =>
          ⟨kind, selectorName m.selector⟩) ∧
      MemberList.membersOf list = firstsFrom (fun m : Method => selectorName m.selector)
        (MemberList.membersOf first) (MemberList.membersOf second) ∧ MethodsOk list := by
  cases second with
  | none => exact ⟨first, by simp [mergeMethods, MemberList.membersOf, clashes], rfl, hfirst⟩
  | some list =>
    obtain ⟨hcount, hmax, hsize⟩ := hsecond list rfl
    by_cases hempty : list.count ≤ 0
    · -- an empty list leaves the first one as it is
      have hmembers : MemberList.membersOf (some list) = [] := by
        show list.members = []
        rw [← List.length_eq_zero_iff, MemberList.length_members]
        omega
      refine ⟨first, ?_, ?_, hfirst⟩
      · simp [mergeMethods, hempty, hmembers, clashes]
      · rw [hmembers, firstsFrom]
    · have hinvalid : ¬ (list.size < methodSize ∨ list.count < 0) := by omega
      have hcanonical : (first.any fun canonical => canonical.count < 0 ∨
          canonical.size < methodSize) = false := by
        cases first with
        | none => rfl
        | some canonical =>
          obtain ⟨h0, -, h1⟩ := hfirst canonical rfl
          simp only [Option.any_some, decide_eq_false_iff_not]
          omega
      have hlen : list.count = (MemberList.membersOf (some list)).length := count_membersOf hsecond
      have hlimit : INT_MAX.toNat = (INT_MAX : ℤ) := by decide
      have hover : ¬ ((first.map MemberList.count).getD 0 > INT_MAX ∨ list.count > INT_MAX ∨
          list.count > INT_MAX - (first.map MemberList.count).getD 0) := by
        rw [count_membersOf hfirst]
        omega
      have harray : flexibleArraySize 8 ((first.map MemberList.count).getD 0 + list.count).toNat
          16 = true := by
        refine intMax_array ?_ (by decide) (by decide)
        rw [count_membersOf hfirst]
        omega
      refine ⟨some (.ofList methodSize (firstsFrom (fun m : Method => selectorName m.selector)
        (MemberList.membersOf first) list.members)), ?_, ?_, ?_⟩
      · simp only [mergeMethods]
        rw [if_neg hempty, if_neg hinvalid, hcanonical, if_neg (by simp), if_neg hover,
          if_pos harray, mergeLoop_eq]
        rfl
      · exact MemberList.members_ofList methodSize _
      · rintro l ⟨⟩
        have hle := length_firstsFrom_le (fun m : Method => selectorName m.selector)
          (MemberList.membersOf first) (MemberList.membersOf (some list))
        refine ⟨Int.natCast_nonneg _, ?_, Int.le_refl _⟩
        show ((firstsFrom _ (MemberList.membersOf first)
            (MemberList.membersOf (some list))).length : ℤ) ≤ INT_MAX
        omega

theorem propertyCount_eq {l : List (MemberList Property)} (h : PropertiesOk l) {n : ℕ}
    (hroom : n + (l.flatMap MemberList.members).length < SIZE_MAX) :
    propertyCount l n = n + (l.flatMap MemberList.members).length := by
  induction l generalizing n with
  | nil => rfl
  | cons list l ih =>
    obtain ⟨h0, -, hsize⟩ := h list List.mem_cons_self
    rw [List.flatMap_cons, List.length_append, MemberList.length_members] at hroom ⊢
    rw [propertyCount, if_neg (by omega), if_neg (by omega),
      ih (fun l hl => h l (List.mem_cons_of_mem _ hl)) (by omega)]
    omega

/-- Well formed chains that have room in one list are merged. -/
theorem mergeProperties_eq {first second : List (MemberList Property)} (hfirst : PropertiesOk first)
    (hsecond : PropertiesOk second)
    (hroom : (first.flatMap MemberList.members).length +
      (second.flatMap MemberList.members).length ≤ INT_MAX.toNat) :
    ∃ list, mergeProperties first second kind reports = some (list, reports ++
        (clashes Property.name propertyEqual (first.flatMap MemberList.members)
          (second.flatMap MemberList.members)).map fun p => ⟨kind, p.name⟩) ∧
      list.flatMap MemberList.members = firstsFrom Property.name (first.flatMap MemberList.members)
        (second.flatMap MemberList.members) ∧ PropertiesOk list := by
  cases second with
  | nil => exact ⟨first, by simp [mergeProperties, clashes], by simp [firstsFrom], hfirst⟩
  | cons list second =>
    have hmax : INT_MAX.toNat < SIZE_MAX := by decide
    have hcount1 : propertyCount first 0 = (first.flatMap MemberList.members).length := by
      rw [propertyCount_eq hfirst (by omega), Nat.zero_add]
    have hcount2 : propertyCount (list :: second) 0 =
        ((list :: second).flatMap MemberList.members).length := by
      rw [propertyCount_eq hsecond (by omega), Nat.zero_add]
    refine ⟨[.ofList propertySize (firstsFrom Property.name (first.flatMap MemberList.members)
      ((list :: second).flatMap MemberList.members))], ?_, ?_, ?_⟩
    · simp only [mergeProperties, List.isEmpty_cons, Bool.false_eq_true, if_false]
      rw [hcount1, hcount2, if_neg (by omega),
        if_pos (intMax_array (by omega) (by decide) (by decide)), mergeLoop_eq]
    · rw [List.flatMap_singleton, MemberList.members_ofList]
    · intro l hl
      obtain rfl := List.mem_singleton.mp hl
      have hle := length_firstsFrom_le Property.name (first.flatMap MemberList.members)
        ((list :: second).flatMap MemberList.members)
      have hlimit : INT_MAX.toNat = (INT_MAX : ℤ) := by decide
      refine ⟨Int.natCast_nonneg _, ?_, Int.le_refl _⟩
      show ((firstsFrom Property.name (first.flatMap MemberList.members)
        ((list :: second).flatMap MemberList.members)).length : ℤ) ≤ INT_MAX
      omega

/-- Nothing is adopted that is not in one of the chains. -/
theorem adoptLoop_subset {Ref : Type*} (name : Ref → Option String) (merged : List Ref)
    (l : List (Option Ref)) :
    ∀ q ∈ adoptLoop name merged l, q ∈ merged ∨ some q ∈ l := by
  induction l generalizing merged with
  | nil => exact fun q hq => .inl hq
  | cons e l ih =>
    intro q hq
    cases e with
    | none => exact (ih merged q hq).imp id (List.mem_cons_of_mem _)
    | some candidate =>
      rw [adoptLoop] at hq
      split at hq
      · exact (ih merged q hq).imp id (List.mem_cons_of_mem _)
      · split at hq
        · exact (ih merged q hq).imp id (List.mem_cons_of_mem _)
        · rcases ih _ q hq with hmem | hmem
          · rcases List.mem_append.mp hmem with hmem | hmem
            · exact .inl hmem
            · exact .inr (List.mem_singleton.mp hmem ▸ List.mem_cons_self)
          · exact .inr (List.mem_cons_of_mem _ hmem)

theorem mergeAdopted_subset {Ref : Type*} {name : Ref → Option String}
    {first second list : List (List (Option Ref))}
    (h : mergeAdopted name first second = some list) : ∀ q ∈ list.flatten.filterMap id,
      some q ∈ first.flatten ∨ some q ∈ second.flatten := by
  intro q hq
  obtain ⟨e, he, rfl⟩ : ∃ e ∈ list.flatten, e = some q := by simpa using hq
  simp only [mergeAdopted] at h
  split at h
  · obtain rfl := Option.some.inj h
    exact .inl he
  · split at h
    · obtain rfl := Option.some.inj h
      obtain ⟨q', hq', heq⟩ : ∃ q' ∈ adoptLoop name [] (first.flatten ++ second.flatten),
          some q' = some q := by
        simpa using he
      obtain rfl := Option.some.inj heq
      rcases adoptLoop_subset name [] _ q' hq' with hmem | hmem
      · cases hmem
      · exact List.mem_append.mp hmem
    · cases h

theorem length_filterMap_adopted {Ref : Type*} {name : Ref → Option String} {l : List (List (Option Ref))}
    (h : AdoptedOk name l) : (l.flatten.filterMap id).length = l.flatten.length := by
  rw [← List.reduceOption, List.reduceOption_length_eq_iff]
  intro e he
  obtain ⟨q, rfl, -⟩ := h e he
  rfl

/-- Chains of adopted protocols that have room in one list are merged. -/
theorem mergeAdopted_eq {Ref : Type*} {name : Ref → Option String} {first second : List (List (Option Ref))}
    (hfirst : AdoptedOk name first) (hsecond : AdoptedOk name second)
    (hnodup : ((first.flatten.filterMap id).map name).Nodup)
    (hroom : (first.flatten.filterMap id).length + (second.flatten.filterMap id).length ≤
      (SIZE_MAX - 16) / 8) :
    ∃ list, mergeAdopted name first second = some list ∧
      list.flatten.filterMap id = firstsFrom name (first.flatten.filterMap id) (second.flatten.filterMap id) ∧
      AdoptedOk name list := by
  cases second with
  | nil => exact ⟨first, by simp [mergeAdopted], rfl, hfirst⟩
  | cons node second =>
    rw [length_filterMap_adopted hfirst, length_filterMap_adopted hsecond, ← List.length_append] at hroom
    have hok : ∀ e ∈ first.flatten ++ (node :: second).flatten, ∃ q, e = some q ∧ name q ≠ none := by
      intro e he
      exact (List.mem_append.mp he).elim (hfirst e) (hsecond e)
    have harray : (first.flatten ++ (node :: second).flatten).length ≤ SIZE_MAX ∧
        flexibleArraySize 16 (first.flatten ++ (node :: second).flatten).length 8 = true := by
      have hlarge : 16 ≤ SIZE_MAX := by decide
      refine ⟨by omega, flexibleArraySize_of_le ?_⟩
      omega
    have hloop := adoptLoop_eq name [] _ hok
    have hkept : firstsFrom name [] (first.flatten.filterMap id) = first.flatten.filterMap id :=
      firsts_of_nodup hnodup
    rw [List.filterMap_append, firstsFrom_append, hkept] at hloop
    refine ⟨_, by rw [mergeAdopted, if_neg (by simp), if_pos harray], ?_, ?_⟩
    · rw [hloop]
      simp
    · rw [hloop]
      intro e he
      obtain ⟨q, hq, rfl⟩ : ∃ q ∈ firstsFrom name (first.flatten.filterMap id)
          ((node :: second).flatten.filterMap id),
          some q = e := by simpa using he
      have hmem := (firstsFrom_sublist _ _).subset hq
      rw [← List.filterMap_append] at hmem
      obtain ⟨e, he, heq⟩ := List.mem_filterMap.mp hmem
      obtain ⟨q', rfl, hname⟩ := hok e he
      obtain rfl := Option.some.inj heq
      exact ⟨_, rfl, hname⟩

end

/-! ## One definition -/

/-- What the merge of a part does: the part becomes the union in which the first wins, the members that
    differ are reported, and the other parts stay as they are. -/
structure Merged (part : Part) (p1 p2 : Protocol) (reports : List Report)
    (r : Protocol × List Report) : Prop where
  members : r.1.members part = firstsFrom key (p1.members part) (p2.members part)
  others : ∀ part', part' ≠ part → r.1.members part' = p1.members part'
  reports : r.2 = reports ++ (clashes key same (p1.members part) (p2.members part)).map part.report
  isa : r.1.isa = p1.isa
  wellFormed : r.1.WellFormed

variable {p1 p2 : Protocol}

theorem mergePart_spec (reports : List Report) (h1 : p1.WellFormed) (h2 : p2.WellFormed)
    (hnodup : ((p1.members .adopted).map key).Nodup)
    (part : Part) (hroom : (p1.members part).length + (p2.members part).length ≤ part.limit) :
    ∃ r, mergePart p2 (p1, reports) part = some r ∧ Merged part p1 p2 reports r := by
  cases part with
  | methods kind =>
    simp only [Protocol.members, List.length_map] at hroom
    obtain ⟨list, hmerge, hmembers, hok⟩ := mergeMethods_eq (h1.methods kind) (h2.methods kind) hroom
    refine ⟨_, by rw [mergePart, hmerge, Option.map_some], ?_, fun part' hne => ?_, ?_, rfl, fun k => ?_, h1.adopted,
      h1.properties⟩
    · simp only [Protocol.members, Function.update_self]
      rw [hmembers, firstsFrom_map]
      rfl
    · cases part' with
      | methods k =>
        have hk : k ≠ kind := fun hk => hne (hk ▸ rfl)
        simp only [Protocol.members, Function.update_of_ne hk]
      | adopted => rfl
      | properties k => rfl
    · simp only [Protocol.members]
      rw [clashes_map, List.map_map]
      rfl
    · by_cases hk : k = kind
      · subst hk
        simpa using hok
      · simpa [hk] using h1.methods k
  | adopted =>
    simp only [Protocol.members, List.length_map] at hroom
    simp only [Protocol.members, List.map_map] at hnodup
    obtain ⟨list, hmerge, hmembers, hok⟩ := mergeAdopted_eq h1.adopted h2.adopted hnodup hroom
    refine ⟨_, by rw [mergePart, hmerge, Option.map_some], ?_, fun part' hne => ?_, ?_, rfl, h1.methods, hok,
      h1.properties⟩
    · simp only [Protocol.members]
      rw [hmembers, firstsFrom_map]
      rfl
    · cases part' with
      | methods k => rfl
      | adopted => exact absurd rfl hne
      | properties k => rfl
    · have hnone : ∀ merged l : List ProtocolRef, clashes key same (merged.map .adopted)
          (l.map .adopted) = [] := by
        intro merged l
        rw [clashes_map, List.map_eq_nil_iff]
        induction l generalizing merged with
        | nil => rfl
        | cons a l ih =>
          rw [clashes]
          split
          · exact ih merged
          · exact ih _
      simp only [Protocol.members, hnone, List.map_nil, List.append_nil]
  | properties kind =>
    simp only [Protocol.members, List.length_map] at hroom
    obtain ⟨list, hmerge, hmembers, hok⟩ := mergeProperties_eq (h1.properties kind) (h2.properties kind) hroom
    refine ⟨_, by rw [mergePart, hmerge, Option.map_some], ?_, fun part' hne => ?_, ?_, rfl, h1.methods, h1.adopted,
      fun k => ?_⟩
    · simp only [Protocol.members, Function.update_self]
      rw [hmembers, firstsFrom_map]
      rfl
    · cases part' with
      | methods k => rfl
      | adopted => rfl
      | properties k =>
        have hk : k ≠ kind := fun hk => hne (hk ▸ rfl)
        simp only [Protocol.members, Function.update_of_ne hk]
    · simp only [Protocol.members]
      rw [clashes_map, List.map_map]
      rfl
    · by_cases hk : k = kind
      · subst hk
        simpa using hok
      · simpa [hk] using h1.properties k

/-- The parts of a list are merged one after the other. -/
theorem mergeParts_spec (h2 : p2.WellFormed) : ∀ (parts : List Part) (p1 : Protocol) (reports : List Report),
    parts.Nodup → p1.WellFormed → ((p1.members .adopted).map key).Nodup →
    (∀ part ∈ parts, (p1.members part).length + (p2.members part).length ≤ part.limit) →
    ∃ r, parts.foldlM (mergePart p2) (p1, reports) = some r ∧
      (∀ part, r.1.members part =
        if part ∈ parts then firstsFrom key (p1.members part) (p2.members part) else p1.members part) ∧
      r.2 = reports ++ parts.flatMap (fun part =>
        (clashes key same (p1.members part) (p2.members part)).map part.report) ∧
      r.1.isa = p1.isa ∧ r.1.WellFormed
  | [], p1, reports, _, h1, _, _ => ⟨_, rfl, by simp, by simp, rfl, h1⟩
  | part :: parts, p1, reports, hparts, h1, hnodup, hroom => by
    obtain ⟨hpart, hparts⟩ := List.nodup_cons.mp hparts
    obtain ⟨r, hmerge, hr⟩ := mergePart_spec reports h1 h2 hnodup part (hroom part List.mem_cons_self)
    have hother : ∀ part' ∈ parts, r.1.members part' = p1.members part' := by
      intro part' hmem
      exact hr.others part' fun heq => hpart (heq ▸ hmem)
    have hnodup' : ((r.1.members .adopted).map key).Nodup := by
      by_cases heq : Part.adopted = part
      · subst heq
        rw [hr.members]
        exact nodup_firstsFrom _ _ hnodup
      · rwa [hr.others _ heq]
    obtain ⟨r', hrun, hmembers, hreports, hisa, hwf⟩ :=
        mergeParts_spec h2 parts r.1 r.2 hparts hr.wellFormed hnodup'
      fun part' hmem => by
        rw [hother part' hmem]
        exact hroom part' (List.mem_cons_of_mem part hmem)
    refine ⟨r', ?_, fun part' => ?_, ?_, hisa.trans hr.isa, hwf⟩
    · rw [List.foldlM_cons, hmerge]
      exact hrun
    · rw [hmembers]
      by_cases hmem : part' ∈ parts
      · rw [if_pos hmem, if_pos (List.mem_cons_of_mem part hmem), hother part' hmem]
      · rw [if_neg hmem]
        by_cases heq : part' = part
        · subst heq
          rw [if_pos List.mem_cons_self, hr.members]
        · rw [if_neg (by simp [heq, hmem]), hr.others _ heq]
    · rw [hreports, hr.reports, List.flatMap_cons, List.append_assoc]
      congr 2
      refine List.flatMap_congr fun part' hmem => ?_
      rw [hother part' hmem]

/-! ## Any number of definitions -/

/-- All parts, in the order in which they are merged. -/
def allParts : List Part :=
  [.methods .requiredInstance, .methods .requiredClass, .adopted, .methods .optionalInstance,
    .methods .optionalClass,
    .properties .requiredInstance, .properties .optionalInstance, .properties .requiredClass,
    .properties .optionalClass]

theorem mem_allParts (part : Part) : part ∈ allParts := by
  cases part with
  | methods k => cases k <;> decide
  | adopted => decide
  | properties k => cases k <;> decide

theorem commonParts_eq (h1 : p1.isa = .protocol) (h2 : p2.isa = .protocol) :
    commonParts p1 p2 = allParts := by
  simp [commonParts, hasOptionalMethodsAndProperties, hasClassProperties, h1, h2, allParts]

/-- The members of a part in the definitions, one definition after the other. -/
def membersIn (part : Part) (defs : List Protocol) : List Member := defs.flatMap fun d => d.members part

theorem membersIn_append_singleton (part : Part) (defs : List Protocol) (d : Protocol) :
    membersIn part (defs ++ [d]) = membersIn part defs ++ d.members part := by
  rw [membersIn, List.flatMap_append, List.flatMap_singleton, membersIn]

/-- The reports about members of a part. -/
def reportsOf (part : Part) (reports : List Report) : List Report := reports.filter fun r =>
    r.kind = part.kind

theorem reportsOf_append (part : Part) (r r' : List Report) :
    reportsOf part (r ++ r') = reportsOf part r ++ reportsOf part r' := List.filter_append ..

theorem reportsOf_report (part part' : Part) (l : List Member) :
    reportsOf part (l.map part'.report) = if part' = part then l.map part.report else [] := by
  split
  · rename_i h
    subst h
    rw [reportsOf, List.filter_eq_self]
    rintro r hr
    obtain ⟨m, -, rfl⟩ := List.mem_map.mp hr
    exact decide_eq_true rfl
  · rename_i h
    rw [reportsOf, List.filter_eq_nil_iff]
    rintro r hr
    obtain ⟨m, -, rfl⟩ := List.mem_map.mp hr
    intro heq
    exact h (Part.kind_injective (of_decide_eq_true heq))

theorem reportsOf_flatMap (part : Part) (f : Part → List Member) : ∀ {parts : List Part},
    parts.Nodup → part ∈ parts →
    reportsOf part (parts.flatMap fun p => (f p).map p.report) = (f part).map part.report
  | [], _, hmem => absurd hmem List.not_mem_nil
  | p :: parts, hnodup, hmem => by
    obtain ⟨hp, hnodup⟩ := List.nodup_cons.mp hnodup
    rw [List.flatMap_cons, reportsOf_append, reportsOf_report]
    by_cases heq : p = part
    · subst heq
      have hnone : reportsOf p (parts.flatMap fun p => (f p).map p.report) = [] := by
        rw [reportsOf, List.filter_eq_nil_iff]
        intro r hr
        obtain ⟨p', hp', hr⟩ := List.mem_flatMap.mp hr
        obtain ⟨m, -, rfl⟩ := List.mem_map.mp hr
        intro hkind
        exact hp (Part.kind_injective (of_decide_eq_true hkind) ▸ hp')
      rw [if_pos rfl, hnone, List.append_nil]
    · rw [if_neg heq, List.nil_append]
      exact reportsOf_flatMap part f hnodup ((List.mem_cons.mp hmem).resolve_left fun h => heq h.symm)

/-- The definition is merged into the protocol that is registered. -/
theorem makeProtocolEqualToProtocol_spec (reports : List Report) (hisa1 : p1.isa = .protocol)
    (hisa2 : p2.isa = .protocol)
    (h1 : p1.WellFormed) (h2 : p2.WellFormed) (hnodup : ((p1.members .adopted).map key).Nodup)
    (hroom : ∀ part, (p1.members part).length + (p2.members part).length ≤ part.limit) :
    ∃ r, makeProtocolEqualToProtocol p1 p2 reports = some r ∧
      (∀ part, r.1.members part = firstsFrom key (p1.members part) (p2.members part)) ∧
      (∀ part, reportsOf part r.2 = reportsOf part reports ++
        (clashes key same (p1.members part) (p2.members part)).map part.report) ∧
      r.1.isa = .protocol ∧ r.1.WellFormed := by
  have hparts : allParts.Nodup := by decide
  obtain ⟨r, hrun, hmembers, hreports, hisa, hwf⟩ :=
    mergeParts_spec h2 allParts p1 reports hparts h1 hnodup fun part _ => hroom part
  refine ⟨r, ?_, fun part => ?_, fun part => ?_, hisa.trans hisa1, hwf⟩
  · rw [makeProtocolEqualToProtocol, commonParts_eq hisa1 hisa2, hrun]
  · rw [hmembers, if_pos (mem_allParts part)]
  · rw [hreports, reportsOf_append, reportsOf_flatMap part _ hparts (mem_allParts part)]

/-- The registered protocol after the definitions `before`. -/
structure Joined (before : List Protocol) (canonical : Protocol) (reports : List Report) : Prop where
  isa : canonical.isa = .protocol
  wellFormed : canonical.WellFormed
  members : ∀ part, canonical.members part = firsts key (membersIn part before)
  reports : ∀ part, reportsOf part reports =
    ((membersIn part before).filter (differs key same (membersIn part before))).map part.report

/-- There is room for the members of `d`, next to those that are left of `before`. -/
def RoomFor (before : List Protocol) (d : Protocol) : Prop :=
  ∀ part, (firsts key (membersIn part before)).length + (d.members part).length ≤ part.limit

theorem Joined.register {before : List Protocol} {canonical d : Protocol} {reports : List Report}
    (h : Joined before canonical reports)
    (hd : d.WellFormed) (hroom : RoomFor before d) :
    ∃ canonical' reports', registerProtocolDefinition (some canonical, reports) d =
    some (some canonical', reports') ∧
      Joined (before ++ [d]) canonical' reports' := by
  have hnodup : ((canonical.members .adopted).map key).Nodup := by
    rw [h.members]
    exact nodup_firsts _
  have hd' : ({ d with isa := .protocol } : Protocol).WellFormed := ⟨hd.methods, hd.adopted, hd.properties⟩
  have hsame : ∀ part, ({ d with isa := .protocol } : Protocol).members part = d.members part := by
    intro part
    cases part <;> rfl
  obtain ⟨r, hrun, hmembers, hreports, hisa, hwf⟩ := makeProtocolEqualToProtocol_spec reports h.isa rfl
    h.wellFormed hd' hnodup fun part => by
      rw [h.members, hsame]
      exact hroom part
  refine ⟨r.1, r.2, ?_, hisa, hwf, fun part => ?_, fun part => ?_⟩
  · show (makeProtocolEqualToProtocol canonical { d with isa := .protocol } reports).map _ = _
    rw [hrun]
    rfl
  · rw [hmembers, h.members, hsame, membersIn_append_singleton, firsts_append]
  · rw [hreports, h.reports, h.members, hsame, clashes_eq Member.same_refl, membersIn_append_singleton,
      filter_differs_append, List.map_append]

theorem registerAll_joined {first : Protocol} (hfirst : first.WellFormed)
    (hnodup : ∀ part, ((first.members part).map key).Nodup) (later : List Protocol)
    (hwf : ∀ d ∈ later, d.WellFormed) (hroom : ∀ before d after, later = before ++ d :: after →
      RoomFor (first :: before) d) :
    ∃ canonical reports, registerAll (first :: later) = some (some canonical, reports) ∧
      Joined (first :: later) canonical reports := by
  induction later using List.reverseRecOn with
  | nil =>
    have hsame : ∀ part, ({ first with isa := .protocol } : Protocol).members part = membersIn part
        [first] := by
      intro part
      rw [membersIn, List.flatMap_singleton]
      cases part <;> rfl
    refine ⟨{ first with isa := .protocol }, [], rfl, rfl,
        ⟨hfirst.methods, hfirst.adopted, hfirst.properties⟩,
      fun part => ?_, fun part => ?_⟩
    · rw [hsame, firsts_of_nodup]
      simpa [membersIn] using hnodup part
    · rw [filter_differs_of_nodup Member.same_refl (by simpa [membersIn] using hnodup part)]
      rfl
  | append_singleton later d ih =>
    obtain ⟨canonical, reports, hrun, hjoined⟩ := ih (fun d hd => hwf d (List.mem_append_left _ hd))
      fun before d' after heq => hroom before d' (after ++ [d]) (by rw [heq]; simp)
    obtain ⟨canonical', reports', hstep, hjoined'⟩ := hjoined.register (hwf d (by simp))
        (hroom later d [] rfl)
    refine ⟨canonical', reports', ?_, hjoined'⟩
    rw [registerAll] at hrun ⊢
    rw [← List.cons_append, List.foldlM_append, hrun]
    show (List.foldlM registerProtocolDefinition (some canonical, reports) [d]) = _
    rw [List.foldlM_cons, hstep]
    rfl

/-- **First wins.** As long as each list has room, the registered protocol has for every key of a part the
    first of its members in all definitions, once, and in the order of the definitions; each later member
    that differs from it is reported once; and merging one of the definitions again changes no list. -/
theorem registered_first_wins (first : Protocol) (later : List Protocol) (hfirst : first.WellFormed)
    (hnodup : ∀ part, ((first.members part).map key).Nodup) (hwf : ∀ d ∈ later, d.WellFormed)
    (hroom : ∀ before d after, later = before ++ d :: after → RoomFor (first :: before) d) :
    ∃ canonical reports, registerAll (first :: later) = some (some canonical, reports) ∧
      (∀ part, ((canonical.members part).map key).Nodup ∧
        (∀ k, lookup key (canonical.members part) k = lookup key (membersIn part (first :: later)) k) ∧
        (canonical.members part).Sublist (membersIn part (first :: later)) ∧
        reportsOf part reports = ((membersIn part (first :: later)).filter
          (differs key same (membersIn part (first :: later)))).map part.report) ∧
      ∀ d ∈ first :: later, RoomFor (first :: later) d → ∃ canonical' reports',
        registerProtocolDefinition (some canonical, reports) d = some (some canonical', reports') ∧
        ∀ part, canonical'.members part = canonical.members part := by
  obtain ⟨canonical, reports, hrun, hjoined⟩ := registerAll_joined hfirst hnodup later hwf hroom
  refine ⟨canonical, reports, hrun, fun part => ⟨?_, fun k => ?_, ?_, hjoined.reports part⟩,
      fun d hd hagain => ?_⟩
  · rw [hjoined.members]
    exact nodup_firsts _
  · rw [hjoined.members, lookup_firsts]
  · rw [hjoined.members]
    exact firsts_sublist _
  · have hdwf : d.WellFormed := (List.mem_cons.mp hd).elim (fun h => h ▸ hfirst) (hwf d)
    obtain ⟨canonical', reports', hstep, hjoined'⟩ := hjoined.register hdwf hagain
    refine ⟨canonical', reports', hstep, fun part => ?_⟩
    rw [hjoined'.members, hjoined.members, membersIn_append_singleton, firsts_append]
    refine firstsFrom_of_known fun m hm => ?_
    rw [mem_map_firsts]
    exact List.mem_map_of_mem (List.mem_flatMap.mpr ⟨d, hd, hm⟩)

/-! ## Two definitions -/

/-- A definition with one list of properties. -/
def withProperties (count : ℤ) (property : ℕ → Property) : Protocol where
  isa := .protocol
  name := "Copying"
  protocolList := []
  methods _ := none
  properties
    | .requiredInstance => [⟨count, propertySize, property⟩]
    | _ => []

/-- A property of this name. -/
def propertyNamed (name : String) (attributes : String) :
    Property := ⟨some name, some attributes, none, none, none⟩

theorem wellFormed_withProperties {n : ℤ} (h0 : 0 ≤ n) (h1 : n ≤ INT_MAX) (property : ℕ → Property) :
    (withProperties n property).WellFormed := by
  refine ⟨fun kind l hl => (nomatch hl), fun e he => (nomatch he), fun kind l hl => ?_⟩
  cases kind with
  | requiredInstance =>
    obtain rfl := List.mem_singleton.mp hl
    exact ⟨h0, h1, Int.le_refl _⟩
  | _ => cases hl

theorem registered_first_wins_two : ∃ canonical reports,
    registerAll [withProperties 1 fun _ => propertyNamed "a" "Ti",
      withProperties 2 fun | 0 => propertyNamed "b" "Ti" | _ => propertyNamed "a" "Td"] =
        some (some canonical, reports) ∧
      lookup key (canonical.members (.properties .requiredInstance)) (some "a") =
        some (.property (propertyNamed "a" "Ti")) ∧
      reportsOf (.properties .requiredInstance) reports = [⟨"required instance property", some "a"⟩] := by
  have hlimit : ∀ part : Part, 3 ≤ part.limit := by
    intro part
    cases part with
    | adopted => decide
    | methods k | properties k => exact (by decide : 3 ≤ INT_MAX.toNat)
  obtain ⟨canonical, reports, hrun, hparts, -⟩ := registered_first_wins
    (withProperties 1 fun _ => propertyNamed "a" "Ti")
    [withProperties 2 fun | 0 => propertyNamed "b" "Ti" | _ => propertyNamed "a" "Td"]
    (wellFormed_withProperties (by decide) (by decide) _)
    (fun part => by
      cases part with
      | methods k => exact List.nodup_nil
      | adopted => exact List.nodup_nil
      | properties k => cases k <;> decide)
    (fun d hd => by
      obtain rfl := List.mem_singleton.mp hd
      exact wellFormed_withProperties (by decide) (by decide) _)
    (fun before d after heq part => by
      obtain ⟨rfl, rfl, -⟩ : before = [] ∧ d = _ ∧ after = [] := by
        cases before with
        | nil => exact ⟨rfl, (List.cons.inj heq).1.symm, (List.cons.inj heq).2.symm⟩
        | cons _ _ => simp at heq
      refine Nat.le_trans ?_ (hlimit part)
      cases part with
      | methods k => exact Nat.zero_le 3
      | adopted => exact Nat.zero_le 3
      | properties k => cases k <;> decide)
  refine ⟨canonical, reports, hrun, ?_, ?_⟩
  · rw [(hparts _).2.1]
    decide
  · rw [(hparts _).2.2.2]
    decide

/-- As many properties with different names as an `int` can count. -/
def fullProtocol : Protocol :=
  withProperties INT_MAX fun i => propertyNamed (String.ofList (List.replicate i 'a')) "Ti"

/-- The name of a property of `fullProtocol`. -/
def fullName (i : ℕ) : String := String.ofList (List.replicate i 'a')

theorem keys_fullProtocol : (fullProtocol.members (.properties .requiredInstance)).map key =
    (List.range INT_MAX.toNat).map fun i => some (fullName i) := by
  simp only [Protocol.members, fullProtocol, withProperties, List.flatMap_singleton,
    MemberList.members, List.map_map]
  rfl

theorem fullName_injective : Function.Injective fullName := by
  intro i j h
  have hlist := congrArg String.toList h
  simp only [fullName, String.toList_ofList] at hlist
  simpa using congrArg List.length hlist

theorem fullName_ne (i : ℕ) : fullName i ≠ "b" := by
  intro h
  have hmem : 'b' ∈ List.replicate i 'a' := by
    rw [← String.toList_ofList (l := List.replicate i 'a')]
    show 'b' ∈ (fullName i).toList
    rw [h]
    decide
  exact absurd (List.eq_of_mem_replicate hmem) (by decide)

/-- No part of `fullProtocol` takes anything from the second definition. -/
theorem mergePart_full (reports : List Report) (part : Part) : ∃ reports',
    mergePart { withProperties 1 fun _ => propertyNamed "b" "Ti" with isa := .protocol }
    (fullProtocol, reports) part =
      some (fullProtocol, reports') := by
  have hnone : ∀ kind, mergePart { withProperties 1 fun _ => propertyNamed "b" "Ti" with isa := .protocol }
      (fullProtocol, reports) (.properties kind) =
        (mergeProperties (fullProtocol.properties kind)
          ((withProperties 1 fun _ => propertyNamed "b" "Ti").properties kind) (Part.properties kind).kind
          reports).map fun r =>
          ({ fullProtocol with properties := Function.update fullProtocol.properties kind r.1 },
            r.2) := fun _ => rfl
  cases part with
  | methods kind =>
    exact ⟨reports, by simp [mergePart, withProperties, fullProtocol, mergeMethods]⟩
  | adopted => exact ⟨reports, rfl⟩
  | properties kind =>
    rw [hnone]
    cases kind with
    | requiredInstance =>
      have hcount : propertyCount (fullProtocol.properties .requiredInstance) 0 = INT_MAX.toNat := by decide
      have hcount' : propertyCount
          ((withProperties 1 fun _ => propertyNamed "b" "Ti").properties .requiredInstance) 0 =
          1 := by decide
      have hsecond : ((withProperties 1 fun _ => propertyNamed "b" "Ti").properties
          .requiredInstance).isEmpty = false :=
        rfl
      rw [mergeProperties, hsecond, hcount, hcount']
      simp only [Bool.false_eq_true, if_false]
      rw [if_pos (by decide), Option.map_some, Function.update_eq_self]
      exact ⟨_, rfl⟩
    | _ =>
      refine ⟨reports, ?_⟩
      show some (({ fullProtocol with properties := Function.update fullProtocol.properties _ _ } :
          Protocol), reports) = _
      rw [Function.update_eq_self]

/-- One more property is not merged, although it has a name of its own. -/
theorem property_dropped : fullProtocol.WellFormed ∧
    (∀ part, ((fullProtocol.members part).map key).Nodup) ∧
    (withProperties 1 fun _ => propertyNamed "b" "Ti").WellFormed ∧
    ∃ canonical reports, registerAll [fullProtocol, withProperties 1 fun _ => propertyNamed "b" "Ti"] =
      some (some canonical, reports) ∧
      some "b" ∉ (canonical.members (.properties .requiredInstance)).map key := by
  refine ⟨wellFormed_withProperties (by decide) (by decide) _, fun part => ?_,
    wellFormed_withProperties (by decide) (by decide) _, fullProtocol, ?_⟩
  · cases part with
    | methods kind => exact List.nodup_nil
    | adopted => exact List.nodup_nil
    | properties kind =>
      cases kind with
      | requiredInstance =>
        rw [keys_fullProtocol]
        refine List.nodup_range.map fun i j h => ?_
        exact fullName_injective (Option.some.inj h)
      | _ => exact List.nodup_nil
  · have hfold : ∀ (parts : List Part) (reports : List Report), ∃ reports', parts.foldlM
        (mergePart { withProperties 1 fun _ => propertyNamed "b" "Ti" with isa := .protocol })
        (fullProtocol, reports) =
          some (fullProtocol, reports') := by
      intro parts
      induction parts with
      | nil => exact fun reports => ⟨reports, rfl⟩
      | cons part parts ih =>
        intro reports
        obtain ⟨reports₁, hpart⟩ := mergePart_full reports part
        obtain ⟨reports₂, hrun⟩ := ih reports₁
        exact ⟨reports₂, by rw [List.foldlM_cons, hpart]; exact hrun⟩
    obtain ⟨reports, hrun⟩ := hfold (commonParts fullProtocol
      { withProperties 1 fun _ => propertyNamed "b" "Ti" with isa := .protocol }) []
    refine ⟨reports, ?_, ?_⟩
    · have hstep : registerProtocolDefinition (some fullProtocol, [])
          (withProperties 1 fun _ => propertyNamed "b" "Ti") =
          some (some fullProtocol, reports) := by
        rw [registerProtocolDefinition]
        show Option.map _ (makeProtocolEqualToProtocol fullProtocol _ []) = _
        rw [makeProtocolEqualToProtocol, hrun]
        rfl
      rw [registerAll, List.foldlM_cons]
      show List.foldlM registerProtocolDefinition (some fullProtocol, []) _ = _
      rw [List.foldlM_cons, hstep]
      rfl
    · rw [keys_fullProtocol]
      intro hmem
      obtain ⟨i, -, heq⟩ := List.mem_map.mp hmem
      exact fullName_ne i (Option.some.inj heq)

end Libobjc2.Protocols
