import Mathlib.Data.List.Nodup
import Mathlib.Logic.Function.Basic

/-!
# Singly linked lists

Lists that are threaded through a `next` field of their nodes, as relations between a head
pointer and the list of the nodes that are met from it.

Results:
* `Chain.unique`, `Chain.nodup`: a head pointer has at most one list, and no node is in it twice.
* `Chain.push`, `Chain.cut`: a new head, and a section taken out by redirecting one pointer.
* `follow_eq`: walking the list with enough fuel yields it.
* `Chain.removeNext`: a node taken out after its predecessor has been looked for from the head.
* `Lists.push`, `Lists.pop`, `Lists.removeNext`: the lists of several owners, when a node enters one of
  them or leaves it.
* `Doubly.push`, `Doubly.remove`: the same with links in both directions, which are the inverses of
  each other (`Doubly.next_iff_prev`, `Doubly.prev_none_iff`).
-/

namespace Libobjc2.Common

variable {Node : Type*} {next next' : Node → Option Node}

/-- From `head`, the pointers lead through the nodes of the list and end. -/
inductive Chain (next : Node → Option Node) : Option Node → List Node → Prop where
  | nil : Chain next none []
  | cons (n : Node) (l : List Node) : Chain next (next n) l → Chain next (some n) (n :: l)

@[simp]
theorem chain_none {l : List Node} : Chain next none l ↔ l = [] :=
  ⟨fun h => by cases h; rfl, fun h => h ▸ .nil⟩

theorem chain_some {n : Node} {l : List Node} :
    Chain next (some n) l ↔ ∃ l', l = n :: l' ∧ Chain next (next n) l' := by
  refine ⟨fun h => ?_, fun ⟨l', hl, h⟩ => hl ▸ .cons n l' h⟩
  cases h with
  | cons _ l' h => exact ⟨l', rfl, h⟩

@[simp]
theorem chain_cons {head : Option Node} {n : Node} {l : List Node} :
    Chain next head (n :: l) ↔ head = some n ∧ Chain next (next n) l := by
  cases head with
  | none => simp
  | some m =>
    rw [chain_some]
    constructor
    · rintro ⟨l', hl, h⟩
      obtain ⟨rfl, rfl⟩ := List.cons.inj hl
      exact ⟨rfl, h⟩
    · rintro ⟨hm, h⟩
      obtain rfl := Option.some.inj hm
      exact ⟨l, rfl, h⟩

@[simp]
theorem chain_nil {head : Option Node} : Chain next head [] ↔ head = none :=
  ⟨fun h => by cases h; rfl, fun h => h ▸ .nil⟩

theorem Chain.unique {head : Option Node} {l l' : List Node} (h : Chain next head l)
    (h' : Chain next head l') :
    l = l' := by
  induction h generalizing l' with
  | nil => exact (chain_none.mp h').symm
  | cons n l _ ih =>
    obtain ⟨l'', hl, h''⟩ := chain_some.mp h'
    rw [hl, ih h'']

/-- The part of a list from one of its nodes on. -/
theorem Chain.suffix {head : Option Node} {l₁ l₂ : List Node} {n : Node}
    (h : Chain next head (l₁ ++ n :: l₂)) :
    Chain next (next n) l₂ := by
  induction l₁ generalizing head with
  | nil => exact (chain_cons.mp h).2
  | cons m l₁ ih => exact ih (chain_cons.mp h).2

theorem Chain.nodup {head : Option Node} {l : List Node} (h : Chain next head l) : l.Nodup := by
  induction h with
  | nil => exact List.nodup_nil
  | cons n l h ih =>
    refine List.nodup_cons.mpr ⟨fun hn => ?_, ih⟩
    -- behind its second occurrence the list would be longer than itself
    obtain ⟨l₁, l₂, rfl⟩ := List.append_of_mem hn
    have := congrArg List.length (h.unique h.suffix)
    simp at this
    omega

theorem Chain.congr {head : Option Node} {l : List Node} (h : Chain next head l)
    (hl : ∀ n ∈ l, next' n = next n) :
    Chain next' head l := by
  induction h with
  | nil => exact .nil
  | cons n l _ ih =>
    refine .cons n l ?_
    rw [hl n (by simp)]
    exact ih fun m hm => hl m (by simp [hm])

/-- The successor of a node that comes before `b` is `b` or comes before it. -/
theorem Chain.next_mem {head : Option Node} {l₁ l₂ : List Node} {b : Node}
    (h : Chain next head (l₁ ++ b :: l₂)) :
    ∀ a ∈ l₁, ∃ n, next a = some n ∧ n ∈ l₁ ++ [b] := by
  induction l₁ generalizing head with
  | nil => simp
  | cons x l₁ ih =>
    have hx := (chain_cons.mp h).2
    intro a ha
    rcases List.mem_cons.mp ha with rfl | ha
    · cases l₁ with
      | nil => exact ⟨b, (chain_cons.mp hx).1, by simp⟩
      | cons y l₁ => exact ⟨y, (chain_cons.mp hx).1, by simp⟩
    · obtain ⟨n, hn, hmem⟩ := ih hx a ha
      exact ⟨n, hn, List.mem_cons_of_mem x hmem⟩

section Update

variable [DecidableEq Node]

/-- A node becomes the head. -/
theorem Chain.push {head : Option Node} {l : List Node} (h : Chain next head l) {n : Node} (hn : n ∉ l) :
    Chain (Function.update next n head) (some n) (n :: l) := by
  refine .cons n l ?_
  rw [Function.update_self]
  exact h.congr fun m hm => Function.update_of_ne (fun e => hn (by rwa [← e])) ..

/-- The nodes between `p` and what `rest` points to are taken out of the list. -/
theorem Chain.cut {head rest : Option Node} {l₁ mid l₂ : List Node} {p : Node}
    (h : Chain next head (l₁ ++ p :: (mid ++ l₂))) (hrest : Chain next rest l₂) :
    Chain (Function.update next p rest) head (l₁ ++ p :: l₂) := by
  have hnodup := h.nodup
  induction l₁ generalizing head with
  | nil =>
    obtain ⟨rfl, _⟩ := chain_cons.mp h
    refine .cons p l₂ ?_
    rw [Function.update_self]
    refine hrest.congr fun m hm => Function.update_of_ne (fun e => ?_) ..
    subst e
    simp [hm] at hnodup
  | cons n l₁ ih =>
    obtain ⟨rfl, hn⟩ := chain_cons.mp h
    have hne : n ≠ p := by
      rintro rfl
      simp at hnodup
    refine .cons n _ ?_
    rw [Function.update_of_ne hne]
    exact ih hn (List.nodup_cons.mp hnodup).2

end Update

/-! ## Walking a list -/

/-- The nodes met from `head`, at most `fuel` of them. -/
def follow (next : Node → Option Node) : ℕ → Option Node → List Node
  | 0, _ => []
  | _, none => []
  | fuel + 1, some n => n :: follow next fuel (next n)

theorem follow_eq {head : Option Node} {l : List Node} (h : Chain next head l) {fuel : ℕ}
    (hf : l.length ≤ fuel) :
    follow next fuel head = l := by
  induction h generalizing fuel with
  | nil => cases fuel <;> rfl
  | cons n l _ ih =>
    cases fuel with
    | zero => simp at hf
    | succ fuel =>
      rw [follow, ih (by simpa using hf)]

section Walk

variable [DecidableEq Node]

/-- From `head` on, the first node whose successor is `n` gets the successor of `n`; `none` when
    `fuel` nodes are not enough. -/
def removeNext (next : Node → Option Node) : ℕ → Option Node → Node → Option (Node → Option Node)
  | 0, _, _ => none
  | _ + 1, none, _ => some next
  | fuel + 1, some sub, n =>
    if next sub = some n then some (Function.update next sub (next n)) else removeNext next fuel (next sub) n

/-- One pointer to `n` is redirected, if any. -/
theorem removeNext_cases {n : Node} : ∀ {fuel : ℕ} {head : Option Node},
    removeNext next fuel head n = some next' →
    next' = next ∨ ∃ sub, next sub = some n ∧ next' = Function.update next sub (next n)
  | 0, _, h => by cases h
  | _ + 1, none, h => .inl (Option.some.inj h).symm
  | fuel + 1, some sub, h => by
    rw [removeNext] at h
    split at h
    · next hsub => exact .inr ⟨sub, hsub, (Option.some.inj h).symm⟩
    · exact removeNext_cases h

theorem removeNext_of_ne {n m : Node} {fuel : ℕ} {head : Option Node}
    (h : removeNext next fuel head n = some next') (hm : next m ≠ some n) : next' m = next m := by
  rcases removeNext_cases h with rfl | ⟨sub, hsub, rfl⟩
  · rfl
  · refine Function.update_of_ne ?_ ..
    rintro rfl
    exact hm hsub

/-- Lists that `n` is not in are left alone. -/
theorem Chain.removeNext_of_not_mem {head head' : Option Node} {l : List Node} {n : Node} {fuel : ℕ}
    (h : Chain next head l) (hn : n ∉ l) (hr : removeNext next fuel head' n = some next') :
    Chain next' head l := by
  refine h.congr fun m hm => removeNext_of_ne hr fun hnext => hn ?_
  obtain ⟨l₁, l₂, rfl⟩ := List.append_of_mem hm
  have hrest := h.suffix
  rw [hnext] at hrest
  obtain ⟨l₃, rfl, -⟩ := chain_some.mp hrest
  simp

theorem Chain.removeNext {n : Node} {l : List Node} : ∀ {fuel : ℕ} {head : Option Node}, Chain next head l →
    n ∈ l → head ≠ some n → Common.removeNext next fuel head n = some next' →
    Chain next' head (l.erase n) := by
  induction l with
  | nil => simp
  | cons x l ih =>
    intro fuel head h hn hhead hr
    obtain ⟨rfl, hx⟩ := chain_cons.mp h
    have hxn : x ≠ n := fun e => hhead (by rw [e])
    have hmem : n ∈ l := (List.mem_cons.mp hn).resolve_left hxn.symm
    rw [List.erase_cons_tail (by simpa using hxn)]
    cases fuel with
    | zero => cases hr
    | succ fuel =>
      rw [Common.removeNext] at hr
      split at hr
      · next hnext =>
        obtain rfl := Option.some.inj hr
        rw [hnext] at hx
        obtain ⟨l₂, rfl, hrest⟩ := chain_some.mp hx
        rw [List.erase_cons_head]
        have hcut : Chain next (some x) ([] ++ x :: ([n] ++ l₂)) := h
        exact hcut.cut hrest
      · next hnext =>
        refine .cons x _ ?_
        rw [removeNext_of_ne hr hnext]
        exact ih hx hmem hnext hr

end Walk

/-! ## Families of lists -/

section Lists

variable {Owner : Type*} {first first' : Owner → Option Node} {mem mem' : Owner → Node → Prop}
  {good good' : Owner → Prop}

/-- For each owner in `good`, the list from `first P` has the nodes that `mem P` says. -/
def Lists (next : Node → Option Node) (first : Owner → Option Node) (mem : Owner → Node → Prop)
    (good : Owner → Prop) : Prop :=
  ∀ P, good P → ∃ l, Chain next (first P) l ∧ ∀ c, c ∈ l ↔ mem P c

theorem Lists.congr (h : Lists next first mem good) (hgood : ∀ P, good' P → good P)
    (hnext : ∀ P c, good' P → mem P c → next' c = next c) (hfirst : ∀ P, good' P → first' P = first P)
    (hmem : ∀ P c, good' P → (mem' P c ↔ mem P c)) : Lists next' first' mem' good' := by
  intro P hP
  obtain ⟨l, hl, hml⟩ := h P (hgood P hP)
  rw [hfirst P hP]
  exact ⟨l, hl.congr fun c hc => hnext P c hP ((hml c).mp hc), fun c => (hml c).trans (hmem P c hP).symm⟩

/-- More owners, whose lists are empty. -/
theorem Lists.extend (h : Lists next first mem good)
    (hnew : ∀ P, good' P → good P ∨ first P = none ∧ ∀ c, ¬ mem P c) : Lists next first mem good' := by
  intro P hP
  rcases hnew P hP with hg | ⟨hnone, hempty⟩
  · exact h P hg
  · rw [hnone]
    exact ⟨[], .nil, by simpa using hempty⟩

variable [DecidableEq Owner] {P : Owner} {c : Node}

/-- The head of a list is taken off it. -/
theorem Lists.pop (h : Lists next first mem good) (hhead : first P = some c)
    (hc : ∀ Q, good Q → Q ≠ P → ¬ mem Q c) :
    Lists next (Function.update first P (next c)) (fun Q d => mem Q d ∧ d ≠ c) good := by
  intro Q hQ
  obtain ⟨l, hl, hml⟩ := h Q hQ
  by_cases hQP : Q = P
  · subst hQP
    rw [Function.update_self]
    rw [hhead] at hl
    obtain ⟨l', rfl, hl'⟩ := chain_some.mp hl
    refine ⟨l', hl', fun d => ?_⟩
    have hcl : c ∉ l' := (List.nodup_cons.mp hl.nodup).1
    show d ∈ l' ↔ mem Q d ∧ d ≠ c
    rw [← hml, List.mem_cons]
    constructor
    · intro hd
      exact ⟨.inr hd, fun e => hcl (e ▸ hd)⟩
    · rintro ⟨hd, hne⟩
      exact hd.resolve_left hne
  · rw [Function.update_of_ne hQP]
    refine ⟨l, hl, fun d => ⟨fun hd => ⟨(hml d).mp hd, ?_⟩, fun hd => (hml d).mpr hd.1⟩⟩
    rintro rfl
    exact hc Q hQ hQP ((hml d).mp hd)

variable [DecidableEq Node]

/-- A node that is in no list becomes the head of one. -/
theorem Lists.push (h : Lists next first mem good) (hc : ∀ Q, good Q → ¬ mem Q c) :
    Lists (Function.update next c (first P)) (Function.update first P (some c))
      (fun Q d => mem Q d ∨ Q = P ∧ d = c) good := by
  intro Q hQ
  obtain ⟨l, hl, hml⟩ := h Q hQ
  have hcl : c ∉ l := fun hm => hc Q hQ ((hml c).mp hm)
  by_cases hQP : Q = P
  · subst hQP
    rw [Function.update_self]
    refine ⟨c :: l, hl.push hcl, fun d => ?_⟩
    rw [List.mem_cons, hml, or_comm]
    simp
  · rw [Function.update_of_ne hQP]
    refine ⟨l, hl.congr fun d hd => Function.update_of_ne (fun e => hcl ?_) .., fun d => ?_⟩
    · rwa [← e]
    · simp [hml, hQP]

/-- A node is looked for in a list and taken out of it. -/
theorem Lists.removeNext (h : Lists next first mem good) {fuel : ℕ} (hhead : first P ≠ some c)
    (hc : ∀ Q, good Q → Q ≠ P → ¬ mem Q c) (hr : Common.removeNext next fuel (first P) c = some next') :
    Lists next' first (fun Q d => mem Q d ∧ d ≠ c) good := by
  intro Q hQ
  obtain ⟨l, hl, hml⟩ := h Q hQ
  by_cases hcl : c ∈ l
  · have hQP : Q = P := by
      by_contra hne
      exact hc Q hQ hne ((hml c).mp hcl)
    subst hQP
    refine ⟨l.erase c, hl.removeNext hcl hhead hr, fun d => ?_⟩
    rw [hl.nodup.mem_erase_iff, hml, and_comm]
  · refine ⟨l, hl.removeNext_of_not_mem hcl hr, fun d => ?_⟩
    show d ∈ l ↔ mem Q d ∧ d ≠ c
    rw [← hml]
    exact ⟨fun hd => ⟨hd, fun e => hcl (e ▸ hd)⟩, And.left⟩

end Lists

/-! ## Doubly linked lists -/

/-- The first node of the list has `p` as its `prev`, and every other one the node before it. -/
def Back (prev : Node → Option Node) : Option Node → List Node → Prop
  | _, [] => True
  | p, n :: l => prev n = p ∧ Back prev (some n) l

/-- A list that is linked in both directions. -/
structure Doubly (next prev : Node → Option Node) (head : Option Node) (l : List Node) : Prop where
  chain : Chain next head l
  back : Back prev none l

theorem Back.congr {prev prev' : Node → Option Node} : ∀ {p : Option Node} {l : List Node}, Back prev p l →
    (∀ n ∈ l, prev' n = prev n) → Back prev' p l
  | _, [], _, _ => trivial
  | _, n :: _, h, hl => ⟨(hl n (by simp)).trans h.1, h.2.congr fun m hm => hl m (by simp [hm])⟩

theorem Back.suffix {prev : Node → Option Node} : ∀ {p : Option Node} {l₁ l₂ : List Node} {n : Node},
    Back prev p (l₁ ++ n :: l₂) → prev n = (l₁.getLast?.or p) ∧ Back prev (some n) l₂
  | p, [], _, _, h => h
  | p, x :: l₁, l₂, n, h => by
    have hback : Back prev (some x) (l₁ ++ n :: l₂) := h.2
    obtain ⟨hn, hrest⟩ := hback.suffix
    refine ⟨hn.trans ?_, hrest⟩
    rw [List.getLast?_cons]
    cases l₁.getLast? <;> rfl

theorem Doubly.congr {prev prev' : Node → Option Node} {head : Option Node} {l : List Node}
    (h : Doubly next prev head l) (hnext : ∀ n ∈ l, next' n = next n) (hprev : ∀ n ∈ l, prev' n = prev n) :
    Doubly next' prev' head l :=
  ⟨h.chain.congr hnext, h.back.congr hprev⟩

/-- The links in the two directions are inverse. -/
theorem Doubly.next_iff_prev {prev : Node → Option Node} {head : Option Node} {l : List Node}
    (h : Doubly next prev head l) {a b : Node} (ha : a ∈ l) (hb : b ∈ l) : next a = some b ↔
    prev b = some a := by
  constructor
  · intro hab
    obtain ⟨l₁, l₂, rfl⟩ := List.append_of_mem ha
    have hrest := h.chain.suffix
    rw [hab] at hrest
    obtain ⟨l₃, rfl, -⟩ := chain_some.mp hrest
    exact h.back.suffix.2.1
  · intro hba
    obtain ⟨l₁, l₂, rfl⟩ := List.append_of_mem hb
    have hlast := h.back.suffix.1.symm.trans hba
    rw [Option.or_none] at hlast
    obtain ⟨l₃, rfl⟩ := List.getLast?_eq_some_iff.mp hlast
    have hchain := h.chain
    rw [List.append_assoc, List.singleton_append] at hchain
    exact (chain_cons.mp hchain.suffix).1

/-- The head, and it alone, has nothing before it. -/
theorem Doubly.prev_none_iff {prev : Node → Option Node} {head : Option Node} {l : List Node}
    (h : Doubly next prev head l) {b : Node} (hb : b ∈ l) : prev b = none ↔ head = some b := by
  obtain ⟨l₁, l₂, rfl⟩ := List.append_of_mem hb
  rw [h.back.suffix.1, Option.or_none, List.getLast?_eq_none_iff]
  constructor
  · rintro rfl
    exact (chain_cons.mp h.chain).1
  · intro hhead
    cases l₁ with
    | nil => rfl
    | cons x l₁ =>
      have hx := (chain_cons.mp h.chain).1
      obtain rfl : x = b := Option.some.inj (hx.symm.trans hhead)
      have := h.chain.nodup
      simp at this

section Doubly

variable [DecidableEq Node] {prev : Node → Option Node}

/-- `prev` after `p` has become the predecessor of `n`, if there is one. -/
def setPrev (prev : Node → Option Node) (n p : Option Node) : Node → Option Node :=
  n.elim prev fun n => Function.update prev n p

theorem setPrev_of_ne {n p : Option Node} {m : Node} (h : n ≠ some m) : setPrev prev n p m = prev m := by
  cases n with
  | none => rfl
  | some n => exact Function.update_of_ne (fun e => h (by rw [e])) ..

theorem Doubly.push {head : Option Node} {l : List Node} (h : Doubly next prev head l) {n : Node} (hn : n ∉ l)
    (hprev : prev n = none) : Doubly (Function.update next n head) (setPrev prev head (some n))
    (some n) (n :: l) := by
  refine ⟨h.chain.push hn, ?_⟩
  cases l with
  | nil =>
    rw [chain_nil.mp h.chain]
    exact ⟨hprev, trivial⟩
  | cons x l =>
    obtain ⟨rfl, -⟩ := chain_cons.mp h.chain
    have hnx : n ≠ x := fun e => hn (by simp [e])
    refine ⟨?_, Function.update_self .., h.back.2.congr fun m hm => Function.update_of_ne ?_ ..⟩
    · exact (Function.update_of_ne hnx ..).trans hprev
    · rintro rfl
      exact (List.nodup_cons.mp h.chain.nodup).1 hm

theorem back_remove {n : Node} : ∀ {p : Option Node} {l₁ l₂ : List Node}, (l₁ ++ n :: l₂).Nodup →
    Back prev p (l₁ ++ n :: l₂) → Back (setPrev prev l₂.head? (prev n)) p (l₁ ++ l₂)
  | p, [], [], _, _ => trivial
  | p, [], y :: l₂, hd, h => by
    refine ⟨(Function.update_self ..).trans h.1, h.2.2.congr fun m hm => Function.update_of_ne ?_ ..⟩
    rintro rfl
    simp [hm] at hd
  | p, x :: l₁, l₂, hd, h => by
    refine ⟨?_, back_remove (List.nodup_cons.mp hd).2 h.2⟩
    refine (setPrev_of_ne fun e => ?_).trans h.1
    have := List.mem_of_head? e
    simp [this] at hd

/-- A node is taken out from between its neighbours. -/
theorem Doubly.remove {head : Option Node} {l₁ l₂ : List Node} {n : Node}
    (h : Doubly next prev head (l₁ ++ n :: l₂)) :
    Doubly ((prev n).elim next fun p => Function.update next p (next n)) (setPrev prev (next n) (prev n))
      ((prev n).elim (next n) fun _ => head) (l₁ ++ l₂) := by
  have hrest := h.chain.suffix
  have hhead : next n = l₂.head? := by
    cases l₂ with
    | nil => exact chain_nil.mp hrest
    | cons y l₂ => exact (chain_cons.mp hrest).1
  have hprev := h.back.suffix.1
  refine ⟨?_, hhead ▸ back_remove h.chain.nodup h.back⟩
  rcases List.eq_nil_or_concat l₁ with rfl | ⟨l₁, p, rfl⟩
  · rw [hprev]
    exact hrest
  · rw [List.concat_eq_append, List.getLast?_append] at hprev
    rw [hprev]
    have hchain := h.chain
    rw [List.concat_eq_append, List.append_assoc] at hchain
    rw [List.concat_eq_append, List.append_assoc]
    have hcut : Chain next head (l₁ ++ p :: ([n] ++ l₂)) := hchain
    exact hcut.cut hrest

end Doubly

end Libobjc2.Common
