import Mathlib.Logic.Relation
import Mathlib.Tactic.Common

/-!
# Depth first search without a record of the visited nodes

`search` looks for a goal among the nodes that a node leads to, one after the other, and goes down from
each of them before the next. Nothing keeps it from coming to a node again, so that it has a bound on its
depth. What a node leads to may need a bound as well.

Results:
* `search_answer`: an answer is right.
* `search_iff`: there is an answer, which is the right one, if and only if no infinite sequence of nodes
  starts at the node in which each one is searched from the one before.
-/

namespace Libobjc2.Common

variable {α : Type*}

/-- The search from a node. -/
def search (goal : α → Bool) (next : ℕ → α → Option (List α)) : ℕ → α → Option Bool
  | 0, _ => none
  | fuel + 1, a =>
    if goal a then some true
    else (next fuel a).bind fun l => l.anyM fun b => if goal b then some true else search goal next fuel b

/-- With enough fuel `next` is `leads`, and it is nothing else with less. -/
def Computes (next : ℕ → α → Option (List α)) (leads : α → List α) : Prop :=
  ∀ a, (∀ n l, next n a = some l → l = leads a) ∧ ∃ N, ∀ n, N ≤ n → next n a = some (leads a)

/-- A goal is reached from the node. -/
def Reaches (goal : α → Bool) (leads : α → List α) (a : α) : Prop :=
  ∃ b, Relation.ReflTransGen (fun a b => b ∈ leads a) a b ∧ goal b = true

/-- The search goes from the second node down to the first: neither is a goal, and no goal is reached from
    the nodes that come before. -/
def SearchedFrom (goal : α → Bool) (leads : α → List α) (b a : α) : Prop :=
  goal a = false ∧ goal b = false ∧
    ∃ front rest, leads a = front ++ b :: rest ∧ ∀ c ∈ front, ¬ Reaches goal leads c

variable {goal : α → Bool} {next : ℕ → α → Option (List α)} {leads : α → List α} {a b : α} {fuel : ℕ}

theorem reaches_of_goal (h : goal a = true) : Reaches goal leads a := ⟨a, .refl, h⟩

theorem reaches_iff (h : goal a = false) : Reaches goal leads a ↔ ∃ b ∈ leads a, Reaches goal leads b := by
  constructor
  · intro hreach
    obtain ⟨c, hpath, hc⟩ := hreach
    rcases Relation.ReflTransGen.cases_head hpath with heq | ⟨b, hb, hrest⟩
    · rw [heq, hc] at h
      cases h
    · exact ⟨b, hb, c, hrest, hc⟩
  · intro hreach
    obtain ⟨b, hb, c, hrest, hc⟩ := hreach
    exact ⟨c, hrest.head hb, hc⟩

/-- What one node contributes to the search of a list. -/
def searchEntry (goal : α → Bool) (next : ℕ → α → Option (List α)) (fuel : ℕ) (b : α) : Option Bool :=
  if goal b then some true else search goal next fuel b

theorem search_succ (h : goal a = false) : search goal next (fuel + 1) a =
    (next fuel a).bind fun l => l.anyM (searchEntry goal next fuel) := by
  rw [search, if_neg (by simp [h])]
  rfl

theorem searchEntry_eq (h : goal b = false) : searchEntry goal next fuel b = search goal next fuel b := by
  rw [searchEntry, if_neg (by simp [h])]

theorem searchEntry_goal (h : goal b = true) : searchEntry goal next fuel b = some true := by
  rw [searchEntry, if_pos h]

/-- Where the search of a list ends: at the first entry that answers yes, or behind the last one. -/
theorem anyM_eq_some {f : α → Option Bool} {r : Bool} : ∀ {l : List α}, l.anyM f = some r →
    (r = true ∧ ∃ front b rest, l = front ++ b :: rest ∧ (∀ c ∈ front, f c = some false) ∧
      f b = some true) ∨
    (r = false ∧ ∀ c ∈ l, f c = some false)
  | [], h => .inr ⟨(Option.some.inj h).symm, fun c hc => (List.not_mem_nil hc).elim⟩
  | b :: l, h => by
    rw [List.anyM] at h
    obtain ⟨v, hv, h⟩ := Option.bind_eq_some_iff.mp h
    cases v with
    | true => exact .inl ⟨(Option.some.inj h).symm, [], b, l, rfl, fun c hc => (List.not_mem_nil hc).elim, hv⟩
    | false =>
      rcases anyM_eq_some h with ⟨hr, front, b', rest, heq, hfront, hb'⟩ | ⟨hr, hall⟩
      · refine .inl ⟨hr, b :: front, b', rest, by rw [heq, List.cons_append], fun c hc => ?_, hb'⟩
        rcases List.mem_cons.mp hc with rfl | hc
        · exact hv
        · exact hfront c hc
      · refine .inr ⟨hr, fun c hc => ?_⟩
        rcases List.mem_cons.mp hc with rfl | hc
        · exact hv
        · exact hall c hc

/-- An answer is right, and the search that gave it has gone through no infinite sequence of nodes. -/
theorem search_sound (hnext : Computes next leads) : ∀ {fuel : ℕ} {a : α} {r : Bool},
    search goal next fuel a = some r →
    (r = true ↔ Reaches goal leads a) ∧ Acc (SearchedFrom goal leads) a
  | 0, _, _, h => by cases h
  | fuel + 1, a, r, h => by
    cases ha : goal a with
    | true =>
      rw [search, if_pos ha] at h
      obtain rfl := Option.some.inj h
      refine ⟨⟨fun _ => reaches_of_goal ha, fun _ => rfl⟩, Acc.intro a fun b hb => ?_⟩
      rw [hb.1] at ha
      cases ha
    | false =>
      rw [search_succ ha] at h
      obtain ⟨l, hl, hany⟩ := Option.bind_eq_some_iff.mp h
      obtain rfl := (hnext a).1 fuel l hl
      -- the entries that have been gone through
      have hentry : ∀ c v, searchEntry goal next fuel c = some v →
          (v = true ↔ Reaches goal leads c) ∧ (goal c = false → Acc (SearchedFrom goal leads) c) := by
        intro c v hv
        cases hc : goal c with
        | true =>
          rw [searchEntry_goal hc] at hv
          obtain rfl := Option.some.inj hv
          exact ⟨⟨fun _ => reaches_of_goal hc, fun _ => rfl⟩, fun h => (nomatch h)⟩
        | false =>
          rw [searchEntry_eq hc] at hv
          have ih := search_sound hnext hv
          exact ⟨ih.1, fun _ => ih.2⟩
      have hno : ∀ c, searchEntry goal next fuel c = some false → ¬ Reaches goal leads c := by
        intro c hc hreach
        exact Bool.false_ne_true ((hentry c false hc).1.mpr hreach)
      rcases anyM_eq_some hany with ⟨rfl, front, b, rest, heq, hfront, hb⟩ | ⟨rfl, hall⟩
      · have hreach : Reaches goal leads b := (hentry b true hb).1.mp rfl
        refine ⟨⟨fun _ => (reaches_iff ha).mpr ⟨b, ?_, hreach⟩, fun _ => rfl⟩, Acc.intro a fun d hd => ?_⟩
        · rw [heq]
          exact List.mem_append_right front List.mem_cons_self
        · -- `d` does not come behind `b`, from which a goal is reached
          obtain ⟨-, hd, front', rest', heq', hfront'⟩ := hd
          rcases List.append_eq_append_iff.mp (heq.symm.trans heq') with ⟨as, hfr, hrest⟩ | ⟨cs, hfr, hrest⟩
          · cases as with
            | nil =>
              obtain rfl := (List.cons.inj hrest).1
              exact (hentry b true hb).2 hd
            | cons x as =>
              obtain rfl := (List.cons.inj hrest).1
              refine absurd hreach (hfront' b ?_)
              rw [hfr]
              exact List.mem_append_right front List.mem_cons_self
          · cases cs with
            | nil =>
              obtain rfl := (List.cons.inj hrest).1
              exact (hentry d true hb).2 hd
            | cons x cs =>
              obtain rfl := (List.cons.inj hrest).1
              refine (hentry d false (hfront d ?_)).2 hd
              rw [hfr]
              exact List.mem_append_right front' List.mem_cons_self
      · refine ⟨⟨fun h => (nomatch h), fun hreach => ?_⟩, Acc.intro a fun d hd => ?_⟩
        · obtain ⟨c, hc, hreach⟩ := (reaches_iff ha).mp hreach
          exact absurd hreach (hno c (hall c hc))
        · obtain ⟨-, hd, front', rest', heq', -⟩ := hd
          refine (hentry d false (hall d ?_)).2 hd
          rw [heq']
          exact List.mem_append_right front' List.mem_cons_self

/-- An answer is right. -/
theorem search_answer (hnext : Computes next leads) {r : Bool} (h : search goal next fuel a = some r) :
    r = true ↔ Reaches goal leads a :=
  (search_sound hnext h).1

/-- With enough fuel the search answers `r`. -/
def Answers (goal : α → Bool) (next : ℕ → α → Option (List α)) (a : α) (r : Bool) : Prop :=
  ∃ N, ∀ n, N ≤ n → search goal next n a = some r

/-- The search of the end of a list, in front of which no goal is reached. -/
theorem anyM_answers (hentry : ∀ b front rest, leads a = front ++ b :: rest →
      (∀ c ∈ front, ¬ Reaches goal leads c) → goal b = false → ∃ r, Answers goal next b r)
    (hnext : Computes next leads) : ∀ (rest front : List α), leads a = front ++ rest →
    (∀ c ∈ front, ¬ Reaches goal leads c) →
    ∃ N r, ∀ n, N ≤ n → rest.anyM (searchEntry goal next n) = some r
  | [], _, _, _ => ⟨0, false, fun _ _ => rfl⟩
  | b :: rest, front, heq, hfront => by
    cases hb : goal b with
    | true =>
      refine ⟨0, true, fun n _ => ?_⟩
      rw [List.anyM, searchEntry_goal hb]
      rfl
    | false =>
      obtain ⟨r, N, hN⟩ := hentry b front rest heq hfront hb
      cases r with
      | true =>
        refine ⟨N, true, fun n hn => ?_⟩
        rw [List.anyM, searchEntry_eq hb, hN n hn]
        rfl
      | false =>
        have hno : ¬ Reaches goal leads b := by
          intro hreach
          exact Bool.false_ne_true ((search_answer hnext (hN N (Nat.le_refl N))).mpr hreach)
        obtain ⟨N', r, hN'⟩ := anyM_answers hentry hnext rest (front ++ [b])
          (by rw [heq, List.append_assoc, List.singleton_append]) fun c hc => by
            rcases List.mem_append.mp hc with hc | hc
            · exact hfront c hc
            · rwa [List.mem_singleton.mp hc]
        refine ⟨N + N', r, fun n hn => ?_⟩
        rw [List.anyM, searchEntry_eq hb, hN n (by omega)]
        exact hN' n (by omega)

/-- Where no infinite sequence of nodes is searched, the search answers. -/
theorem answers_of_acc (hnext : Computes next leads) (h : Acc (SearchedFrom goal leads) a) :
    ∃ r, Answers goal next a r := by
  induction h with
  | intro a _ ih =>
    cases ha : goal a with
    | true =>
      refine ⟨true, 1, fun n hn => ?_⟩
      obtain ⟨n, rfl⟩ := Nat.exists_eq_succ_of_ne_zero (by omega : n ≠ 0)
      rw [search, if_pos ha]
    | false =>
      obtain ⟨N, hN⟩ := (hnext a).2
      obtain ⟨N', r, hN'⟩ := anyM_answers (fun b front rest heq hfront hb =>
        ih b ⟨ha, hb, front, rest, heq, hfront⟩) hnext (leads a) [] rfl (fun c hc => (List.not_mem_nil hc).elim)
      refine ⟨r, N + N' + 1, fun n hn => ?_⟩
      obtain ⟨n, rfl⟩ := Nat.exists_eq_succ_of_ne_zero (by omega : n ≠ 0)
      rw [search_succ ha, hN n (by omega)]
      exact hN' n (by omega)

/-- There is an answer, which is right, exactly where no infinite sequence of nodes is searched. -/
theorem search_iff (hnext : Computes next leads) :
    (∃ fuel r, search goal next fuel a = some r ∧ (r = true ↔ Reaches goal leads a)) ↔
      Acc (SearchedFrom goal leads) a := by
  constructor
  · intro h
    obtain ⟨fuel, r, hr, -⟩ := h
    exact (search_sound hnext hr).2
  · intro h
    obtain ⟨r, N, hN⟩ := answers_of_acc hnext h
    exact ⟨N, r, hN N (Nat.le_refl N), search_answer hnext (hN N (Nat.le_refl N))⟩

end Libobjc2.Common
