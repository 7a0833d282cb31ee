import Libobjc2.Common.Forest

/-!
# Tables that inherit along a forest

Every node of a forest may define a value of its own; a node without one has the value of
its parent. The live nodes cache what they have in tables, which are changed in place when
a definition is added.

Results:
* `Coherent.eq_resolve`, `Coherent.of_eq_resolve`: coherent tables are those that hold what a walk
  up the forest finds.
* `Coherent.overwrite`: writing a new definition into the table of its node and of the nodes
  that inherited from it keeps tables coherent.
* `Coherent.install`: the same when these nodes are found by comparing table entries.
-/

namespace Libobjc2.Common

variable {Node Value : Type*} {parent : Node → Option Node} {live : Node → Prop}
  {own t : Node → Option Value}

/-- The first definition met on the way up from a node. -/
def resolve (parent : Node → Option Node) (own : Node → Option Value) : ℕ → Node → Option Value
  | 0, _ => none
  | fuel + 1, n => (own n).or ((parent n).bind (resolve parent own fuel))

/-- The table of every live node holds its own definition, or else what its parent's holds. -/
def Coherent (parent : Node → Option Node) (live : Node → Prop) (own t : Node → Option Value) : Prop :=
  ∀ n, live n → t n = (own n).or ((parent n).bind t)

/-- Live nodes have live parents. -/
def LiveUp (parent : Node → Option Node) (live : Node → Prop) : Prop :=
  ∀ n p, live n → parent n = some p → live p

/-- No value is defined at two nodes. -/
def OwnedOnce (own : Node → Option Value) : Prop :=
  ∀ a b v, own a = some v → own b = some v → a = b

theorem LiveUp.below (hup : LiveUp parent live) {n a : Node} (hn : live n) (h : Below parent n a) :
    live a := by
  induction h with
  | refl => exact hn
  | tail _ hba ih => exact hup _ _ ih hba

/-! ## What coherent tables hold -/

section Finite

variable {s : Finset Node}

/-- **With enough fuel, coherent tables hold what the walk finds.** -/
theorem Coherent.eq_resolve (hac : Acyclic parent) (hs : ∀ n p, parent n = some p → n ∈ s)
    (hup : LiveUp parent live) (hco : Coherent parent live own t) :
    ∀ fuel n, live n → depth parent s n < fuel → t n = resolve parent own fuel n := by
  intro fuel
  induction fuel with
  | zero => intro n _ h; omega
  | succ fuel ih =>
    intro n hn hd
    rw [hco n hn, resolve]
    cases hp : parent n with
    | none => rfl
    | some p =>
      have hlt := depth_lt hac (hs n p hp) hp
      simp only [Option.bind_some]
      rw [ih p (hup n p hn hp) (by omega)]

/-- The walk from a node goes on at its parent. -/
theorem resolve_eq (hac : Acyclic parent) (hs : ∀ n p, parent n = some p → n ∈ s) :
    ∀ fuel n, depth parent s n < fuel →
      resolve parent own fuel n = (own n).or ((parent n).bind (resolve parent own fuel)) := by
  intro fuel
  induction fuel with
  | zero => intro n h; omega
  | succ fuel ih =>
    intro n hd
    rw [resolve]
    cases hp : parent n with
    | none => rfl
    | some p =>
      have hlt := depth_lt hac (hs n p hp) hp
      simp only [Option.bind_some]
      rw [ih p (by omega)]
      rfl

/-- Tables that hold what the walk finds are coherent. -/
theorem Coherent.of_eq_resolve (hac : Acyclic parent) (hs : ∀ n p, parent n = some p → n ∈ s)
    (hup : LiveUp parent live) {fuel : ℕ} (hd : ∀ n, depth parent s n < fuel)
    (h : ∀ n, live n → t n = resolve parent own fuel n) : Coherent parent live own t := by
  intro n hn
  rw [h n hn, resolve_eq hac hs fuel n (hd n)]
  cases hp : parent n with
  | none => rfl
  | some p => rw [Option.bind_some, Option.bind_some, h p (hup n p hn hp)]

/-- What the walk finds is defined at the node or above it. -/
theorem resolve_owner : ∀ (fuel : ℕ) (n : Node) (v : Value), resolve parent own fuel n = some v →
    ∃ a, Below parent n a ∧ own a = some v
  | 0, _, _, h => by cases h
  | fuel + 1, n, v, h => by
    rw [resolve] at h
    cases ho : own n with
    | some w =>
      rw [ho] at h
      exact ⟨n, Below.refl n, ho.trans h⟩
    | none =>
      rw [ho, Option.none_or] at h
      obtain ⟨p, hp, hv⟩ := Option.bind_eq_some_iff.mp h
      obtain ⟨a, ha, hav⟩ := resolve_owner fuel p v hv
      exact ⟨a, (Below.of_parent hp).trans ha, hav⟩

/-- What a coherent table holds is defined at the node or above it. -/
theorem Coherent.owner (hac : Acyclic parent) (hs : ∀ n p, parent n = some p → n ∈ s)
    (hup : LiveUp parent live) (hco : Coherent parent live own t) {n : Node} (hn : live n) {v : Value}
    (hv : t n = some v) : ∃ a, Below parent n a ∧ own a = some v := by
  induction n using Acyclic.induction hac hs with
  | _ n ih =>
    rw [hco n hn] at hv
    cases ho : own n with
    | some w =>
      rw [ho] at hv
      exact ⟨n, Below.refl n, ho.trans hv⟩
    | none =>
      rw [ho, Option.none_or] at hv
      obtain ⟨p, hp, hv⟩ := Option.bind_eq_some_iff.mp hv
      obtain ⟨a, hpa, ha⟩ := ih p hp (hup n p hn hp) hv
      exact ⟨a, (Below.of_parent hp).trans hpa, ha⟩

/-- The nodes below `c` that have the entry of `c` are those that inherited it. -/
theorem Coherent.inherited (hac : Acyclic parent)
    (hs : ∀ n p, parent n = some p → n ∈ s) (hup : LiveUp parent live) (hco : Coherent parent live own t)
    (hone : OwnedOnce own) {c n : Node} (hlc : live c) (hown : own c = none) (hn : live n)
    (hnc : Below parent n c) (ht : t n = t c) : own n = none := by
  by_contra ho
  obtain ⟨w, hw⟩ := Option.ne_none_iff_exists'.mp ho
  have htn : t n = some w := by rw [hco n hn, hw, Option.some_or]
  obtain ⟨a, hca, ha⟩ := Coherent.owner hac hs hup hco hlc (ht ▸ htn)
  obtain rfl := hone n a w hw ha
  -- the definition would stand both below `c` and above it
  obtain rfl := Below.antisymm hac hnc hca
  exact ho hown

end Finite

/-! ## Writing a definition into the tables -/

section Write

variable [DecidableEq Node] {c : Node} {v : Value} {t' : Node → Option Value}

/-- **The overwriting rule.** `X` is a tree of nodes hanging from `c` in which only `c` has a
    definition of its own, and which stops at nodes that have one. -/
theorem Coherent.overwrite (hco : Coherent parent live own t) {X : Node → Prop} (hc : X c)
    (hX : ∀ n, X n → n ≠ c → own n = none ∧ ∃ p, parent n = some p ∧ X p)
    (hend : ∀ n p, live n → n ≠ c → parent n = some p → X p → ¬ X n → own n ≠ none)
    (hin : ∀ n, X n → t' n = some v) (hout : ∀ n, ¬ X n → t' n = t n) :
    Coherent parent live (Function.update own c (some v)) t' := by
  intro n hn
  by_cases hnc : n = c
  · subst hnc
    rw [Function.update_self, hin n hc, Option.some_or]
  rw [Function.update_of_ne hnc]
  by_cases hXn : X n
  · obtain ⟨ho, p, hp, hXp⟩ := hX n hXn hnc
    rw [hin n hXn, ho, hp, Option.none_or, Option.bind_some, hin p hXp]
  · rw [hout n hXn, hco n hn]
    cases hp : parent n with
    | none => rfl
    | some p =>
      simp only [Option.bind_some]
      by_cases hXp : X p
      · obtain ⟨w, hw⟩ := Option.ne_none_iff_exists'.mp (hend n p hn hnc hp hXp hXn)
        rw [hw, Option.some_or, Option.some_or]
      · rw [hout p hXp]

/-- **The installing rule.** A definition at a node that had none goes into the table of the
    node and, going down, of the live nodes with the same entry. -/
theorem Coherent.install (hac : Acyclic parent) {s : Finset Node}
    (hs : ∀ n p, parent n = some p → n ∈ s) (hup : LiveUp parent live) (hco : Coherent parent live own t)
    (hone : OwnedOnce own) (hlc : live c) (hown : own c = none)
    (hin : ∀ n, Within parent (fun x => live x ∧ t x = t c) c n → t' n = some v)
    (hout : ∀ n, ¬ Within parent (fun x => live x ∧ t x = t c) c n → t' n = t n) :
    Coherent parent live (Function.update own c (some v)) t' := by
  refine hco.overwrite ((Within.self_iff hac).mpr ⟨hlc, rfl⟩) (fun n hn hnc => ⟨?_, hn.up hnc⟩) ?_ hin hout
  · exact hco.inherited hac hs hup hone hlc hown hn.last.1 hn.1 hn.last.2
  · intro n p hn _ hp hXp hXn ho
    refine hXn (hXp.down hp ⟨hn, ?_⟩)
    rw [hco n hn, ho, hp, Option.none_or, Option.bind_some, hXp.last.2]

end Write

end Libobjc2.Common
