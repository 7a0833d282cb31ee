import Mathlib.Data.Finset.Card
import Mathlib.Logic.Relation

/-!
# Forests given by parent links

A forest is a partial function from nodes to their parents without cycles. Programs keep
such links in both directions and change a node and everything below it by recursion over
the children.

Results:
* `Acyclic.induction`: induction from the roots down.
* `acyclic_reparent`: moving a node under one that is not below it makes no cycle.
* `foldl_regions`: a loop over the children of a node, whose body works on the tree below
  one child, does to each tree what the body does to it alone.
-/

namespace Libobjc2.Common

variable {Node : Type*} {parent : Node → Option Node}

/-- `n` is `a` or lies below it. -/
def Below (parent : Node → Option Node) : Node → Node → Prop :=
  Relation.ReflTransGen fun n p => parent n = some p

/-- No node lies below one of its children. -/
def Acyclic (parent : Node → Option Node) : Prop := ∀ n p, parent n = some p → ¬ Below parent p n

/-! ## Ancestors -/

theorem Below.refl (n : Node) : Below parent n n := Relation.ReflTransGen.refl

theorem Below.trans {n a b : Node} (h : Below parent n a) (h' : Below parent a b) : Below parent n b :=
  Relation.ReflTransGen.trans h h'

theorem Below.of_parent {n p : Node} (h : parent n = some p) : Below parent n p :=
  Relation.ReflTransGen.single h

/-- A node below `a` is `a`, or its parent is below `a`. -/
theorem Below.cases {n a : Node} (h : Below parent n a) :
    n = a ∨ ∃ p, parent n = some p ∧ Below parent p a :=
  (Relation.ReflTransGen.cases_head h).imp_right fun ⟨p, hp, hpa⟩ => ⟨p, hp, hpa⟩

/-- A node below `a` is `a`, or below one of the children of `a`. -/
theorem Below.cases_child {n a : Node} (h : Below parent n a) :
    n = a ∨ ∃ e, parent e = some a ∧ Below parent n e :=
  (Relation.ReflTransGen.cases_tail h).imp Eq.symm fun ⟨e, hne, he⟩ => ⟨e, he, hne⟩

theorem acyclic_of_lt {parent : ℕ → Option ℕ} (h : ∀ n p, parent n = some p → p < n) : Acyclic parent := by
  have hle : ∀ n a, Below parent n a → a ≤ n := by
    intro n a ha
    induction ha with
    | refl => exact le_rfl
    | tail _ hba ih => exact (h _ _ hba).le.trans ih
  exact fun n p hp hpn => absurd (h n p hp) (hle p n hpn).not_gt

/-- The nodes above a node form a chain. -/
theorem Below.linear {n a b : Node} (ha : Below parent n a) (hb : Below parent n b) :
    Below parent a b ∨ Below parent b a := by
  induction ha using Relation.ReflTransGen.head_induction_on with
  | refl => exact .inl hb
  | head hn hpa ih =>
    rcases hb.cases with rfl | ⟨p, hp, hpb⟩
    · exact .inr ((Below.of_parent hn).trans hpa)
    · obtain rfl := Option.some.inj (hn.symm.trans hp)
      exact ih hpb

theorem Below.antisymm (hac : Acyclic parent) {a b : Node} (h : Below parent a b)
    (h' : Below parent b a) : a = b := by
  rcases h.cases with rfl | ⟨p, hp, hpb⟩
  · rfl
  · exact absurd (hpb.trans h') (hac a p hp)

/-- A node below a child of `c` is not `c`. -/
theorem Below.ne_of_child (hac : Acyclic parent) {n e c : Node} (he : parent e = some c)
    (h : Below parent n e) : n ≠ c := by
  rintro rfl
  exact hac e n he h

/-- The trees below two children of one node have no node in common. -/
theorem Below.child_unique (hac : Acyclic parent) {n e e' c : Node} (he : parent e = some c)
    (he' : parent e' = some c) (h : Below parent n e) (h' : Below parent n e') : e = e' := by
  have key : ∀ {x y}, parent x = some c → parent y = some c → Below parent x y → x = y := by
    intro x y hx hy hxy
    rcases hxy.cases with rfl | ⟨p, hp, hpy⟩
    · rfl
    · obtain rfl := Option.some.inj (hx.symm.trans hp)
      exact absurd hpy (hac y c hy)
  rcases h.linear h' with h | h
  · exact key he he' h
  · exact (key he' he h).symm

/-! ## Chains of nodes with a property -/

/-- `n` is below `a`, and every node from `n` up to `a` has the property `A`. -/
def Within (parent : Node → Option Node) (A : Node → Prop) (a n : Node) : Prop :=
  Below parent n a ∧ ∀ x, Below parent n x → Below parent x a → A x

theorem Within.self_iff (hac : Acyclic parent) {A : Node → Prop} {a : Node} :
    Within parent A a a ↔ A a := by
  constructor
  · exact fun h => h.2 a (Below.refl a) (Below.refl a)
  · intro h
    refine ⟨Below.refl a, fun x hax hxa => ?_⟩
    rwa [← Below.antisymm hac hax hxa]

theorem Within.last {A : Node → Prop} {a n : Node} (h : Within parent A a n) : A n :=
  h.2 n (Below.refl n) h.1

theorem Within.first {A : Node → Prop} {a n : Node} (h : Within parent A a n) : A a :=
  h.2 a h.1 (Below.refl a)

/-- One node further down. -/
theorem Within.down {A : Node → Prop} {a n p : Node} (hp : parent n = some p)
    (h : Within parent A a p) (hA : A n) : Within parent A a n := by
  refine ⟨(Below.of_parent hp).trans h.1, fun x hnx hxa => ?_⟩
  rcases hnx.cases with rfl | ⟨q, hq, hqx⟩
  · exact hA
  · obtain rfl := Option.some.inj (hp.symm.trans hq)
    exact h.2 x hqx hxa

/-- One node further up, unless the chain starts here. -/
theorem Within.up {A : Node → Prop} {a n : Node} (h : Within parent A a n) (hne : n ≠ a) :
    ∃ p, parent n = some p ∧ Within parent A a p := by
  rcases h.1.cases with rfl | ⟨p, hp, hpa⟩
  · exact absurd rfl hne
  · exact ⟨p, hp, hpa, fun x hpx hxa => h.2 x ((Below.of_parent hp).trans hpx) hxa⟩

/-- A chain below a child goes on to its parent. -/
theorem Within.of_child (hac : Acyclic parent) {A : Node → Prop} {c e n : Node}
    (he : parent e = some c) (hc : A c) (h : Within parent A e n) : Within parent A c n := by
  refine ⟨h.1.trans (Below.of_parent he), fun x hnx hxc => ?_⟩
  rcases h.1.linear hnx with hex | hxe
  · rcases hex.cases with rfl | ⟨p, hp, hpx⟩
    · exact h.first
    · obtain rfl := Option.some.inj (he.symm.trans hp)
      rwa [Below.antisymm hac hxc hpx]
  · exact h.2 x hnx hxe

theorem Within.cases_child {A : Node → Prop} {c n : Node} (h : Within parent A c n) :
    n = c ∨ ∃ e, parent e = some c ∧ Within parent A e n := by
  rcases h.1.cases_child with rfl | ⟨e, he, hne⟩
  · exact .inl rfl
  · exact .inr ⟨e, he, hne, fun x hnx hxe => h.2 x hnx (hxe.trans (Below.of_parent he))⟩

/-- Below the child `e` of `c`, a chain up to `c` is a chain up to `e`. -/
theorem within_child_iff (hac : Acyclic parent) {A : Node → Prop} {c e n : Node}
    (he : parent e = some c) (hc : A c) (hn : Below parent n e) :
    Within parent A c n ↔ Within parent A e n := by
  refine ⟨fun h => ?_, Within.of_child hac he hc⟩
  exact ⟨hn, fun x hnx hxe => h.2 x hnx (hxe.trans (Below.of_parent he))⟩

theorem Within.congr {A A' : Node → Prop} {a n : Node} (h : ∀ x, Below parent x a → (A x ↔ A' x)) :
    Within parent A a n ↔ Within parent A' a n :=
  and_congr_right fun _ => forall_congr' fun x => imp_congr_right fun _ =>
    imp_congr_ctx Iff.rfl fun hxa => h x hxa

/-! ## Finite forests -/

section Finite

open Classical in
/-- The number of nodes of `s` at or above `n`. -/
noncomputable def depth (parent : Node → Option Node) (s : Finset Node) (n : Node) : ℕ :=
  (s.filter fun a => Below parent n a).card

open Classical in
/-- The number of nodes of `s` at or below `a`. -/
noncomputable def height (parent : Node → Option Node) (s : Finset Node) (a : Node) : ℕ :=
  (s.filter fun n => Below parent n a).card

variable {s : Finset Node}

theorem depth_le (parent : Node → Option Node) (s : Finset Node) (n : Node) : depth parent s n ≤ s.card := by
  classical
  exact Finset.card_filter_le _ _

theorem height_le (parent : Node → Option Node) (s : Finset Node) (a : Node) :
    height parent s a ≤ s.card := by
  classical
  exact Finset.card_filter_le _ _

theorem depth_lt (hac : Acyclic parent) {n p : Node} (hn : n ∈ s) (hp : parent n = some p) :
    depth parent s p < depth parent s n := by
  classical
  refine Finset.card_lt_card (Finset.ssubset_iff_subset_ne.mpr ⟨?_, fun heq => ?_⟩)
  · exact Finset.monotone_filter_right _ fun a _ h => (Below.of_parent hp).trans h
  · have : n ∈ s.filter fun a => Below parent p a := by
      rw [heq]
      exact Finset.mem_filter.mpr ⟨hn, Below.refl n⟩
    exact hac n p hp (Finset.mem_filter.mp this).2

theorem height_lt (hac : Acyclic parent) {e c : Node} (hc : c ∈ s) (he : parent e = some c) :
    height parent s e < height parent s c := by
  classical
  refine Finset.card_lt_card (Finset.ssubset_iff_subset_ne.mpr ⟨?_, fun heq => ?_⟩)
  · exact Finset.monotone_filter_right _ fun a _ h => h.trans (Below.of_parent he)
  · have : c ∈ s.filter fun n => Below parent n e := by
      rw [heq]
      exact Finset.mem_filter.mpr ⟨hc, Below.refl c⟩
    exact hac e c he (Finset.mem_filter.mp this).2

/-- **Induction from the roots down.** -/
theorem Acyclic.induction (hac : Acyclic parent) (hs : ∀ n p, parent n = some p → n ∈ s)
    {P : Node → Prop} (h : ∀ n, (∀ p, parent n = some p → P p) → P n) (n : Node) : P n := by
  induction hd : depth parent s n using Nat.strong_induction_on generalizing n with
  | _ d ih =>
    subst hd
    exact h n fun p hp => ih _ (depth_lt hac (hs n p hp) hp) p rfl

end Finite

/-! ## Moving a node -/

section Reparent

variable [DecidableEq Node] {c q : Node}

/-- Every chain after the move is one from before, or goes up to `c` and on from `q`. -/
theorem below_reparent (hq : ¬ Below parent q c) {n a : Node}
    (h : Below (Function.update parent c (some q)) n a) :
    Below parent n a ∨ Below parent n c ∧ Below parent q a := by
  induction h with
  | refl => exact .inl (Below.refl n)
  | @tail b a _ hba ih =>
    by_cases hb : b = c
    · subst hb
      rw [Function.update_self] at hba
      obtain rfl := Option.some.inj hba
      rcases ih with h | ⟨_, h⟩
      · exact .inr ⟨h, Below.refl q⟩
      · exact absurd h hq
    · rw [Function.update_of_ne hb] at hba
      exact ih.imp (·.trans (Below.of_parent hba)) fun ⟨h, h'⟩ => ⟨h, h'.trans (Below.of_parent hba)⟩

/-- Moving `c` under a node that is not below it makes no cycle. -/
theorem acyclic_reparent (hac : Acyclic parent) (hq : ¬ Below parent q c) :
    Acyclic (Function.update parent c (some q)) := by
  intro n p hp hpn
  by_cases hn : n = c
  · subst hn
    rw [Function.update_self] at hp
    obtain rfl := Option.some.inj hp
    rcases below_reparent hq hpn with h | ⟨h, _⟩ <;> exact hq h
  · rw [Function.update_of_ne hn] at hp
    rcases below_reparent hq hpn with h | ⟨h, h'⟩
    · exact hac n p hp h
    · exact hq (h'.trans ((Below.of_parent hp).trans h))

end Reparent

/-! ## A loop over the children of a node -/

/-- **The region rule.** The body of the loop keeps `inv`, changes what is stored at the
    nodes below its child only, and establishes `P` there; `P` looks at these nodes and at `c`.
    Then the loop establishes `P` below every child, between its first and its last state. -/
theorem foldl_regions {S V : Type*} (hac : Acyclic parent) {c : Node} (view : S → Node → V)
    (inv : S → Prop) (step : S → Node → S) (P : Node → (Node → V) → (Node → V) → Node → Prop)
    (hcongr : ∀ e d₁ d₂ d₁' d₂' n, parent e = some c → Below parent n e →
      (∀ x, Below parent x e ∨ x = c → d₁ x = d₁' x ∧ d₂ x = d₂' x) → P e d₁ d₂ n → P e d₁' d₂' n) :
    ∀ (L : List Node) (s : S), L.Nodup → (∀ e ∈ L, parent e = some c) → inv s →
      (∀ s, ∀ e ∈ L, inv s → inv (step s e) ∧
        (∀ n, ¬ Below parent n e → view (step s e) n = view s n) ∧
        ∀ n, Below parent n e → P e (view s) (view (step s e)) n) →
      inv (L.foldl step s) ∧
        (∀ n, (∀ e ∈ L, ¬ Below parent n e) → view (L.foldl step s) n = view s n) ∧
        ∀ e ∈ L, ∀ n, Below parent n e → P e (view s) (view (L.foldl step s)) n
  | [], s, _, _, hs, _ => ⟨hs, fun _ _ => rfl, by simp⟩
  | e :: L, s, hnd, hpar, hs, hstep => by
    obtain ⟨heL, hnd⟩ := List.nodup_cons.mp hnd
    obtain ⟨hinv, hout, hin⟩ := hstep s e (by simp) hs
    obtain ⟨hinv', hout', hin'⟩ := foldl_regions hac view inv step P hcongr L (step s e) hnd
      (fun e' he' => hpar e' (by simp [he'])) hinv
      fun s e' he' => hstep s e' (by simp [he'])
    have hdisj : ∀ e' ∈ L, ∀ n, Below parent n e → ¬ Below parent n e' := fun e' he' n hn hn' =>
      heL (Below.child_unique hac (hpar e (by simp)) (hpar e' (by simp [he'])) hn hn' ▸ he')
    have hc : ∀ e' ∈ e :: L, ¬ Below parent c e' := fun e' he' h =>
      Below.ne_of_child hac (hpar e' he') h rfl
    refine ⟨hinv', fun n hn => ?_, fun e' he' n hn => ?_⟩
    · rw [List.foldl_cons, hout' n fun e' he' => hn e' (by simp [he']), hout n (hn e (by simp))]
    · rcases List.mem_cons.mp he' with rfl | he'L
      · -- the rest of the loop leaves this tree alone
        refine hcongr e' _ _ _ _ n (hpar e' (by simp)) hn
            (fun x hx => ⟨rfl, (hout' x fun e'' he'' => ?_).symm⟩) (hin n hn)
        rcases hx with hx | rfl
        · exact hdisj e'' he'' x hx
        · exact hc e'' (by simp [he''])
      · refine hcongr e' _ _ _ _ n (hpar e' he') hn (fun x hx => ⟨hout x ?_, rfl⟩) (hin' e' he'L n hn)
        rcases hx with hx | rfl
        · exact fun h => hdisj e' he'L x h hx
        · exact hc e (by simp)

end Libobjc2.Common
