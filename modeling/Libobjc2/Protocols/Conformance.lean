import Libobjc2.Common.Search
import Libobjc2.Protocols.Canonical

/-!
# Conformance between protocols

Protocols that are built at run time, and what `protocol_conformsToProtocol` (protocol.c, lines 438–461)
answers about them and about those of the images. The query keeps no record of the protocols that it has
been to, and `protocol_addProtocol` lets two protocols adopt each other. Lists have at most `INT_MAX`
entries, which is what the query counts to.

Results:
* `protocolConformsToProtocol_eq`: the query is a depth first search without a record.
* `conformance_iff`: the query ends, with YES exactly for what is reached by following the lists, if and
  only if the search from the protocol goes down through no infinite sequence of protocols.
* `conformance_cyclic`: two protocols that adopt each other.
-/

namespace Libobjc2.Protocols

open Libobjc2.Common

namespace Registry

variable (im : Images)

/-! ## Model -/

/-- With the protocols whose `isa` is `_OBJC_CLASS___IncompleteProtocol`. -/
structure Building extends Registry where
  incomplete : ProtocolId → Bool

namespace Building

/-- Before the first load. -/
def start : Building where
  toRegistry := Registry.start im
  incomplete _ := false

/-- An address that is not in use. -/
def Fresh (β : Building) (p : ProtocolId) : Prop :=
  β.initialised p = false ∧ β.incomplete p = false ∧ β.protocolList p = none ∧ ∀ l, p ∉ β.entries l

/-- `objc_allocateProtocol` for the name of `p`, where the allocations succeed (protocol.c, lines
    744–756). -/
def objcAllocateProtocol (β : Building) (p : ProtocolId) : Building :=
  if im.name p = "" ∨ (β.table (im.name p)).isSome then β
  else { β with incomplete := Function.update β.incomplete p true }

/-- The size of a list that `protocol_addProtocol` asks for does not overflow. -/
def fits (oldCount : ℕ) : Bool := oldCount ≠ SIZE_MAX && flexibleArraySize 16 (oldCount + 1) 8

/-- `protocol_addProtocol` (protocol.c, lines 859–874); `room`: `realloc` succeeds. -/
def protocolAddProtocol (β : Building) (aProtocol addition : ProtocolId) (room : Bool) : Building :=
  if β.incomplete aProtocol then
    match β.protocolList aProtocol with
    | none =>
      if room then
        { β with
          entries := Function.update β.entries (.merged β.allocated) [addition]
          next := Function.update β.next (.merged β.allocated) none
          protocolList := Function.update β.protocolList aProtocol (some (.merged β.allocated))
          allocated := β.allocated + 1 }
      else β
    | some list =>
      if fits (β.entries list).length && room then
        { β with
          entries := Function.update β.entries list (β.entries list ++ [addition])
          next := if (β.entries list).isEmpty then Function.update β.next list none else β.next }
      else β
  else β

/-- `registerProtocol`, for a definition of an image (protocol.c, lines 757–777 and 787–792). -/
def define (fuel : ℕ) (β : Building) (proto : ProtocolId) : Option Building :=
  (β.registerProtocol im fuel proto).map fun σ =>
    { toRegistry := σ, incomplete := Function.update β.incomplete proto false }

/-- `objc_registerProtocol` (protocol.c, lines 757–786). -/
def objcRegisterProtocol (fuel : ℕ) (β : Building) (proto : ProtocolId) : Option Building :=
  if β.incomplete proto then β.define im fuel proto else some β

end Building

/-- What changes the protocols: a call from the program, the definition of an image, or going through a
    list that may be NULL. -/
inductive BuildAction where
  | allocate (p : ProtocolId)
  | add (aProtocol addition : ProtocolId) (room : Bool)
  | register (proto : ProtocolId)
  | define (proto : ProtocolId)
  | init (list : Option ListId)
deriving Repr

/-- A step. `init_protocols` aborts at a protocol that is incomplete, so that it initialises none. -/
def BuildStep (β : Building) : BuildAction → Building → Prop
  | .allocate p, β' => β.Fresh p ∧ β' = β.objcAllocateProtocol im p
  | .add aProtocol addition room, β' => β' = β.protocolAddProtocol aProtocol addition room
  | .register proto, β' => ∃ fuel, β.objcRegisterProtocol im fuel proto = some β'
  | .define proto, β' => ∃ fuel, β.define im fuel proto = some β'
  | .init list, β' => ∃ fuel σ, β.objcInitProtocols im fuel list = some σ ∧
      (∀ p, β.incomplete p = true → σ.initialised p = β.initialised p) ∧ β' = { β with toRegistry := σ }

/-! ## Reachability -/

/-- A protocol with the name of `q` is reached from `p` by following the lists of adopted protocols. -/
def ConformsTo (σ : Registry) (p q : ProtocolId) : Prop :=
  ∃ r, Relation.ReflTransGen (fun p e => InChain σ e (σ.protocolList p)) p r ∧ im.name r = im.name q

/-- A query for `q` goes down from `p` to `e`: neither has the name of `q`, and `e` is an adopted protocol
    of `p` with none before it that conforms to `q`. -/
def GoesDown (σ : Registry) (q e p : ProtocolId) : Prop :=
  im.name p ≠ im.name q ∧ im.name e ≠ im.name q ∧
    ∃ list front rest, σ.protocolList p = some list ∧ σ.entries list = front ++ e :: rest ∧
      ∀ c ∈ front, ¬ ConformsTo im σ c q

/-- A query for `q` goes down through no infinite sequence of protocols that starts with `p`. -/
def QueryEnds (σ : Registry) (p q : ProtocolId) : Prop := Acc (GoesDown im σ q) p

variable {im} {σ σ' : Registry} {β β' : Building} {p q e : ProtocolId} {fuel : ℕ}

/-! ## Lists are not chained -/

theorem makeProtocolEqualToProtocol_next {p1 p2 : ProtocolId}
    (h : σ.makeProtocolEqualToProtocol im fuel p1 p2 = some σ') : σ'.next = σ.next := by
  rw [makeProtocolEqualToProtocol] at h
  split at h
  · obtain rfl := Option.some.inj h
    rfl
  · obtain ⟨first, -, h⟩ := Option.bind_eq_some_iff.mp h
    obtain ⟨second, -, h⟩ := Option.bind_eq_some_iff.mp h
    obtain ⟨list, -, rfl⟩ := Option.map_eq_some_iff.mp h
    rfl

theorem uniqueProtocol_next {r : Registry × ProtocolId} (h : σ.uniqueProtocol im fuel p = some r) :
    r.1.next = σ.next := by
  rw [uniqueProtocol] at h
  split at h
  · obtain rfl := Option.some.inj h
    rfl
  · split at h
    · obtain ⟨σ', hmake, rfl⟩ := Option.map_eq_some_iff.mp h
      exact makeProtocolEqualToProtocol_next hmake
    · obtain rfl := Option.some.inj h
      rfl

theorem initProtocols_next : ∀ {fuel : ℕ} {σ σ' : Registry} {list : ListId} {i : ℕ},
    initProtocols im fuel σ list i = some σ' → σ'.next = σ.next
  | 0, _, _, _, _, h => by cases h
  | fuel + 1, σ, σ', list, i, h => by
    rw [initProtocols] at h
    split at h
    · obtain rfl := Option.some.inj h
      rfl
    · split at h
      · exact initProtocols_next h
      · obtain ⟨τ, hnested, h⟩ := Option.bind_eq_some_iff.mp h
        obtain ⟨r, hr, h⟩ := Option.bind_eq_some_iff.mp h
        have hτ : τ.next = σ.next := by
          split at hnested
          · have h := initProtocols_next hnested
            exact h
          · obtain rfl := Option.some.inj hnested
            rfl
        calc σ'.next = (r.1.setEntry list i r.2).next := initProtocols_next h
          _ = r.1.next := rfl
          _ = τ.next := uniqueProtocol_next hr
          _ = σ.next := hτ

theorem registerProtocol_next (h : σ.registerProtocol im fuel p = some σ') : σ'.next = σ.next := by
  rw [registerProtocol] at h
  split at h
  · obtain rfl := Option.some.inj h
    rfl
  · have h := makeProtocolEqualToProtocol_next h
    exact h

theorem define_next (h : β.define im fuel p = some β') : β'.next = β.next := by
  obtain ⟨σ, hσ, rfl⟩ := Option.map_eq_some_iff.mp h
  exact registerProtocol_next hσ

/-- No list has a successor. -/
def Unchained (σ : Registry) : Prop := ∀ l, σ.next l = none

theorem Unchained.addProtocol (h : Unchained β.toRegistry) (p e : ProtocolId) (room : Bool) :
    Unchained (β.protocolAddProtocol p e room).toRegistry := by
  have hupdate : ∀ l l', Function.update β.next l none l' = none := by
    intro l l'
    by_cases heq : l' = l
    · rw [heq, Function.update_self]
    · rw [Function.update_of_ne heq]
      exact h l'
  intro l
  rw [Building.protocolAddProtocol]
  split
  · split
    · split
      · exact hupdate _ l
      · exact h l
    · split
      · dsimp only
        split
        · exact hupdate _ l
        · exact h l
      · exact h l
  · exact h l

theorem Unchained.step {a : BuildAction} (h : Unchained β.toRegistry) (hstep : BuildStep im β a β') :
    Unchained β'.toRegistry := by
  cases a with
  | allocate p =>
    obtain ⟨-, rfl⟩ := hstep
    rw [Building.objcAllocateProtocol]
    split
    · exact h
    · exact h
  | add p e room =>
    obtain rfl := hstep
    exact h.addProtocol p e room
  | register p =>
    obtain ⟨fuel, hrun⟩ := hstep
    rw [Building.objcRegisterProtocol] at hrun
    split at hrun
    · rw [Unchained, define_next hrun]
      exact h
    · obtain rfl := Option.some.inj hrun
      exact h
  | define p =>
    obtain ⟨fuel, hrun⟩ := hstep
    rw [Unchained, define_next hrun]
    exact h
  | init list =>
    obtain ⟨fuel, σ, hrun, -, rfl⟩ := hstep
    cases list with
    | none =>
      obtain rfl := Option.some.inj hrun
      exact h
    | some l =>
      rw [Unchained, initProtocols_next hrun]
      exact h

/-- No list has a successor. -/
def Building.Flat (β : Building) : Prop := Unchained β.toRegistry

theorem unchained_of_runs (h : Runs (BuildStep im) (Building.start im) β) : Unchained β.toRegistry := by
  have hflat : β.Flat := by
    refine h.invariant (fun _ => rfl) fun u a u' hu hstep => ?_
    exact Unchained.step hu hstep
  exact hflat

/-! ## The query as a search -/

/-- The protocols that `p` adopts, in the order of the query. -/
def adopted (σ : Registry) (p : ProtocolId) : List ProtocolId :=
  match σ.protocolList p with
  | some list => σ.entries list
  | none => []

/-- What the query goes through with this much fuel. -/
def queried (σ : Registry) (fuel : ℕ) (p : ProtocolId) : Option (List ProtocolId) :=
  (σ.chain fuel (σ.protocolList p)).map fun lists => lists.flatMap σ.entries

/-- The name that is looked for. -/
def named (im : Images) (q p : ProtocolId) : Bool := decide (im.name p = im.name q)

theorem named_eq_true : named im q p = true ↔ im.name p = im.name q := decide_eq_true_iff

theorem named_eq_false : named im q p = false ↔ im.name p ≠ im.name q := decide_eq_false_iff_not

theorem protocolConformsToProtocol_eq (fuel : ℕ) (p : ProtocolId) :
    protocolConformsToProtocol im fuel σ p q = search (named im q) (queried σ) fuel p := by
  induction fuel generalizing p with
  | zero => rfl
  | succ fuel ih =>
    rw [protocolConformsToProtocol, search, queried, Option.bind_map]
    simp only [named_eq_true, ih]
    rfl

theorem computes_adopted (h : Unchained σ) : Computes (queried σ) (adopted σ) := by
  intro p
  rw [adopted]
  have hchain : ∀ n l, σ.chain (n + 1) (some l) = some [l] := by
    intro n l
    rw [chain, h l]
    cases n <;> rfl
  cases hlist : σ.protocolList p with
  | none =>
    have hnone : ∀ n, queried σ n p = some [] := by
      intro n
      rw [queried, hlist]
      cases n <;> rfl
    exact ⟨fun n l hl => (Option.some.inj ((hnone n).symm.trans hl)).symm, 0, fun n _ => hnone n⟩
  | some list =>
    have hsucc : ∀ n, queried σ (n + 1) p = some (σ.entries list) := by
      intro n
      rw [queried, hlist, hchain, Option.map_some, List.flatMap_cons, List.flatMap_nil, List.append_nil]
    refine ⟨fun n l hl => ?_, 1, fun n hn => ?_⟩
    · cases n with
      | zero =>
        rw [queried, hlist] at hl
        cases hl
      | succ n => exact (Option.some.inj ((hsucc n).symm.trans hl)).symm
    · obtain ⟨n, rfl⟩ := Nat.exists_eq_succ_of_ne_zero (by omega : n ≠ 0)
      exact hsucc n

theorem mem_adopted (h : Unchained σ) : e ∈ adopted σ p ↔ InChain σ e (σ.protocolList p) := by
  rw [adopted]
  cases σ.protocolList p with
  | none => exact ⟨fun he => (nomatch he), fun he => (nomatch he)⟩
  | some list =>
    refine ⟨InChain.here, fun he => ?_⟩
    cases he with
    | here he => exact he
    | there he =>
      rw [h list] at he
      cases he

theorem reaches_iff_conformsTo (h : Unchained σ) :
    Reaches (named im q) (adopted σ) p ↔ ConformsTo im σ p q := by
  have hrel : (fun a b => b ∈ adopted σ a) = fun p e => InChain σ e (σ.protocolList p) := by
    funext a b
    exact propext (mem_adopted h)
  rw [Reaches, hrel, ConformsTo]
  exact exists_congr fun r => and_congr_right' named_eq_true

theorem searchedFrom_iff (h : Unchained σ) :
    SearchedFrom (named im q) (adopted σ) e p ↔ GoesDown im σ q e p := by
  rw [SearchedFrom, GoesDown, named_eq_false, named_eq_false, adopted]
  simp only [reaches_iff_conformsTo h]
  refine and_congr_right' (and_congr_right' ?_)
  cases σ.protocolList p with
  | none => simp
  | some list => simp

/-- **Conformance.** For all protocols that the program has built, images have defined and merging has
    changed, a query ends and answers YES exactly for a protocol that is reached by following the lists, if
    and only if it goes down through no infinite sequence of protocols. -/
theorem conformance_iff (im : Images) (β : Building) (h : Runs (BuildStep im) (Building.start im) β)
    (p q : ProtocolId) :
    (∃ fuel b, protocolConformsToProtocol im fuel β.toRegistry p q = some b ∧
      (b = true ↔ ConformsTo im β.toRegistry p q)) ↔ QueryEnds im β.toRegistry p q := by
  have hun := unchained_of_runs h
  have hacc : SearchedFrom (named im q) (adopted β.toRegistry) = GoesDown im β.toRegistry q := by
    funext e p
    exact propext (searchedFrom_iff hun)
  rw [QueryEnds, ← hacc, ← search_iff (computes_adopted hun)]
  simp only [protocolConformsToProtocol_eq, reaches_iff_conformsTo hun]

/-- Three protocols that the program builds. -/
def threeProtocols : Images where
  name
    | 0 => "Reading"
    | 1 => "Writing"
    | _ => "Closing"
  protocolList _ := none
  entries _ := []
  classProtocols _ := none
  categoryProtocols _ := none

/-- The first adopts the second, which adopts the first or the third. -/
def adoptions (last : ProtocolId) : Building :=
  (((((Building.start threeProtocols).objcAllocateProtocol threeProtocols 0).objcAllocateProtocol
    threeProtocols 1).objcAllocateProtocol threeProtocols 2).protocolAddProtocol 0 1 true).protocolAddProtocol
      1 last true

theorem adoptions_runs (last : ProtocolId) :
    Runs (BuildStep threeProtocols) (Building.start threeProtocols) (adoptions last) := by
  have hnil : ∀ l, (Registry.start threeProtocols).entries l = [] := fun l => by cases l <;> rfl
  have hfresh : ∀ p (β : Building), β.initialised p = false → β.incomplete p = false →
      β.protocolList p = none → β.entries = (Registry.start threeProtocols).entries → β.Fresh p := by
    intro p β hi hc hl he
    refine ⟨hi, hc, hl, fun l hmem => ?_⟩
    rw [he, hnil] at hmem
    cases hmem
  refine (((((Runs.refl _).tail (a := .allocate 0) ⟨hfresh 0 _ rfl rfl rfl rfl, rfl⟩).tail
    (a := .allocate 1) ⟨hfresh 1 _ rfl rfl rfl rfl, rfl⟩).tail
    (a := .allocate 2) ⟨hfresh 2 _ rfl rfl rfl rfl, rfl⟩).tail (a := .add 0 1 true) rfl).tail
    (a := .add 1 last true) rfl

theorem adoptions_list (last : ProtocolId) :
    (adoptions last).protocolList 0 = some (.merged 0) ∧ (adoptions last).protocolList 1 = some (.merged 1) ∧
    (adoptions last).entries (.merged 0) = [1] ∧ (adoptions last).entries (.merged 1) = [last] :=
  ⟨rfl, rfl, rfl, rfl⟩

theorem conformance_iff_third : QueryEnds threeProtocols (adoptions 2).toRegistry 0 2 ∧
    ∃ fuel b, protocolConformsToProtocol threeProtocols fuel (adoptions 2).toRegistry 0 2 = some b ∧
      (b = true ↔ ConformsTo threeProtocols (adoptions 2).toRegistry 0 2) := by
  obtain ⟨h0, h1, he0, he1⟩ := adoptions_list 2
  have hlast : Acc (GoesDown threeProtocols (adoptions 2).toRegistry 2) 1 := by
    refine Acc.intro 1 fun e he => ?_
    obtain ⟨-, hname, list, front, rest, hlist, heq, -⟩ := he
    obtain rfl := Option.some.inj (h1.symm.trans hlist)
    have hmem : e ∈ (adoptions 2).entries (.merged 1) := by
      rw [heq]
      exact List.mem_append_right front List.mem_cons_self
    rw [he1, List.mem_singleton] at hmem
    exact absurd (congrArg threeProtocols.name hmem) hname
  have hends : QueryEnds threeProtocols (adoptions 2).toRegistry 0 2 := by
    refine Acc.intro 0 fun e he => ?_
    obtain ⟨-, -, list, front, rest, hlist, heq, -⟩ := he
    obtain rfl := Option.some.inj (h0.symm.trans hlist)
    have hmem : e ∈ (adoptions 2).entries (.merged 0) := by
      rw [heq]
      exact List.mem_append_right front List.mem_cons_self
    rw [he0, List.mem_singleton] at hmem
    rw [hmem]
    exact hlast
  exact ⟨hends, (conformance_iff threeProtocols (adoptions 2) (adoptions_runs 2) 0 2).mpr hends⟩

/-- Two protocols that adopt each other: a query for a third one that neither conforms to never ends. -/
theorem conformance_cyclic : ∃ β, Runs (BuildStep threeProtocols) (Building.start threeProtocols) β ∧
    ¬ ∃ fuel b, protocolConformsToProtocol threeProtocols fuel β.toRegistry 0 2 = some b := by
  refine ⟨adoptions 0, adoptions_runs 0, ?_⟩
  have hnever : ∀ fuel, protocolConformsToProtocol threeProtocols fuel (adoptions 0).toRegistry 0 2 = none ∧
      protocolConformsToProtocol threeProtocols fuel (adoptions 0).toRegistry 1 2 = none := by
    intro fuel
    induction fuel with
    | zero => exact ⟨rfl, rfl⟩
    | succ fuel ih =>
      have hstep : ∀ p e l, threeProtocols.name p ≠ threeProtocols.name 2 →
          threeProtocols.name e ≠ threeProtocols.name 2 → (adoptions 0).protocolList p = some l →
          (adoptions 0).next l = none → (adoptions 0).entries l = [e] →
          protocolConformsToProtocol threeProtocols fuel (adoptions 0).toRegistry e 2 = none →
          protocolConformsToProtocol threeProtocols (fuel + 1) (adoptions 0).toRegistry p 2 = none := by
        intro p e l hp he hl hnext hentries hnone
        rw [protocolConformsToProtocol, if_neg hp, hl]
        cases fuel with
        | zero => rfl
        | succ fuel =>
          rw [chain, hnext]
          have : chain (adoptions 0).toRegistry fuel none = some [] := by cases fuel <;> rfl
          rw [this]
          simp [hentries, he, hnone, List.anyM]
      exact ⟨hstep 0 1 (.merged 0) (by decide) (by decide) rfl rfl rfl ih.2,
        hstep 1 0 (.merged 1) (by decide) (by decide) rfl rfl rfl ih.1⟩
  intro h
  obtain ⟨fuel, b, hb⟩ := h
  rw [(hnever fuel).1] at hb
  cases hb

end Registry

end Libobjc2.Protocols
