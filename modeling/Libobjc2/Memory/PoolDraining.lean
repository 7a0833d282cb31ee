import Libobjc2.Memory.AutoreleasePool
import Mathlib.Algebra.Group.Basic
import Mathlib.Data.Multiset.AddSub

/-!
# Draining pools while the objects run code (`src/memory/arc.mm`, lines 133–199)

The loops of `emptyPool` release one object after the other, and each release may run code that
autoreleases, allocates pages and drains pools of its own. They read the chain of pages anew
after every release. Here that code is a parameter `run`. `RunOk` says what it may do: put
things on top of the chain, no more of them than the object released accounts for.

Results:
* `clearPages_spec`, `releaseAbove_spec`: what the two inner loops leave, whatever runs in
  between, and that they end.
* `emptyPool_spec`, `emptyPool_null`: `emptyPool` ends with exactly the chain below the stop point,
  wherever new pages lie in memory; `Kept` accounts for every reference and every page.
* `emptyPool_keeps`: what each single release preserves, `emptyPool` preserves.
-/

namespace Libobjc2.Memory.Draining

open Libobjc2.Memory (ArcAutoreleasePool ArcTls)

/-! ## Model -/

/-- A thread while its pools are drained: its `arc_tls`, how many pages were allocated, the
    references released and autoreleased and the pages allocated and freed so far, newest
    first, and whatever else the code of the objects works on. -/
structure Drain (Ref World : Type) where
  tls : ArcTls Ref
  allocations : ℕ
  released : List Ref
  autoreleased : List Ref
  allocated : List ℕ
  freed : List ℕ
  world : World

variable {Ref World : Type}

namespace Drain

abbrev pool (s : Drain Ref World) : List (ArcAutoreleasePool Ref) := s.tls.pool

def setPool (s : Drain Ref World) (pool : List (ArcAutoreleasePool Ref)) : Drain Ref World :=
  { s with tls := { s.tls with pool := pool } }

/-- `tls->pool`, as a pointer. -/
def top (s : Drain Ref World) : Option ℕ := s.pool.head?.map ArcAutoreleasePool.base

/-- `--tls->pool->insert; release(*tls->pool->insert);` with the newest entry of the top page. -/
def popEntry (s : Drain Ref World) (p : ArcAutoreleasePool Ref)
    (previous : List (ArcAutoreleasePool Ref)) (o : Ref)
    (os : List Ref) : Drain Ref World :=
  { s.setPool ({ p with objs := os } :: previous) with released := o :: s.released }

/-- `tls->pool = tls->pool->previous; free(oldPool);` -/
def freePage (s : Drain Ref World) (p : ArcAutoreleasePool Ref) (previous : List (ArcAutoreleasePool Ref)) :
    Drain Ref World :=
  { s.setPool previous with freed := p.base :: s.freed }

section Room

variable (N : ℕ) (calloc : ℕ → List ℕ → ℕ)

/-- The block of `autorelease` and `objc_autoreleasePoolPush` that makes room for an entry
    (lines 593–600, 668–675), and what it allocated. `calloc k` is the allocator at the `k`-th
    allocation. -/
def withRoom (s : Drain Ref World) : Drain Ref World :=
  let pool := poolWithRoom N (calloc s.allocations) s.pool
  let new := (pool.take (pool.length - s.pool.length)).map (·.base)
  { s.setPool pool with allocations := s.allocations + new.length, allocated := new ++ s.allocated }

/-- `autorelease` with `useARCAutoreleasePool` set (lines 588–604). -/
def autorelease (s : Drain Ref World) (obj : Ref) : Drain Ref World :=
  { s.withRoom N calloc with
    tls := Memory.autorelease N (calloc s.allocations) s.tls obj
    autoreleased := obj :: s.autoreleased }

end Room

end Drain

section Loops

variable (N : ℕ) (run : Drain Ref World → Ref → Option (Drain Ref World))

/-- `while (tls->pool->insert > tls->pool->pool)` (lines 168–172). Every loop is undefined when it
    reads through a null pointer, or when `fuel` rounds do not end it. -/
def clearPage : ℕ → Drain Ref World → Option (Drain Ref World)
  | 0, _ => none
  | fuel + 1, s =>
    match s.pool with
    | [] => none
    | p :: previous =>
      match p.objs with
      | [] => some s
      | o :: os => do clearPage fuel (← run (s.popEntry p previous o os) o)

/-- `while (tls->pool != stopPool)` (lines 166–177). -/
def clearPages (stopPool : Option ℕ) : ℕ → Drain Ref World → Option (Drain Ref World)
  | 0, _ => none
  | fuel + 1, s =>
    if s.top = stopPool then some s
    else do
      let s ← clearPage run fuel s
      match s.pool with
      | [] => none
      | p :: previous => clearPages stopPool fuel (s.freePage p previous)

/-- `while (tls->pool->insert > stopAt && tls->pool->insert > tls->pool->pool)` (lines 189–194). -/
def releaseAbove (stopAt : ℕ) : ℕ → Drain Ref World → Option (Drain Ref World)
  | 0, _ => none
  | fuel + 1, s =>
    match s.pool with
    | [] => none
    | p :: previous =>
      match p.objs with
      | [] => some s
      | o :: os =>
        if stopAt < p.insert then do releaseAbove stopAt fuel (← run (s.popEntry p previous o os) o)
        else some s

/-- The `do … while` loop (lines 163–197). -/
def drain (stopPool : Option ℕ) (stopAt : ℕ) : ℕ → Drain Ref World → Option (Drain Ref World)
  | 0, _ => none
  | fuel + 1, s => do
    let s ← clearPages run stopPool fuel s
    if s.top = none then return s
    let s ← releaseAbove run stopAt fuel s
    if s.top ≠ stopPool then drain stopPool stopAt fuel s else return s

/-- `emptyPool` (lines 133–199); a `stopAt` of 0 is `NULL`. -/
def emptyPool (fuel : ℕ) (s : Drain Ref World) (stopAt : ℕ) : Option (Drain Ref World) :=
  if stopAt = 0 then drain run none stopAt fuel s
  else
    match s.pool.find? fun p => p.holds N stopAt with
    | none => some s
    | some p => drain run (some p.base) stopAt fuel s

end Loops

/-! ## What code may do to the chain -/

/-- A chain with entries put on its newest page. -/
def topped (extra : List Ref) : List (ArcAutoreleasePool Ref) → List (ArcAutoreleasePool Ref)
  | [] => []
  | p :: previous => { p with objs := extra ++ p.objs } :: previous

/-- `pool'` is `pool` with new pages and new entries on top. -/
def Grown (pool pool' : List (ArcAutoreleasePool Ref)) : Prop :=
  ∃ new extra, pool' = new ++ topped extra pool

/-- The pages do not overlap, none is at 0, and none has more entries than fit. -/
structure ChainOk (N : ℕ) (pool : List (ArcAutoreleasePool Ref)) : Prop where
  apart : (pool.map (·.base)).Pairwise fun b b' => b + N ≤ b' ∨ b' + N ≤ b
  page : ∀ p ∈ pool, p.objs.length ≤ N ∧ 0 < p.base

/-- Each reference that was put in is in the chain or was released, and each page that was
    allocated is in it or was freed; likewise for those that were there before. -/
structure Kept (s s' : Drain Ref World) : Prop where
  refs : (entries s'.pool : Multiset Ref) + s'.released + s.autoreleased =
    entries s.pool + s.released + s'.autoreleased
  pages : (s'.pool.map (·.base) : Multiset ℕ) + s'.freed + s.allocated =
    s.pool.map (·.base) + s.freed + s'.allocated

section Measure

variable (size : Ref → ℕ) (load : Option Ref → World → ℕ)

/-- What a chain accounts for: its entries and its pages. -/
def chainSize (pool : List (ArcAutoreleasePool Ref)) : ℕ := ((entries pool).map size).sum + pool.length

/-- What is left to be done in the worst case; `load` is what the code has in store elsewhere. -/
def remaining (s : Drain Ref World) : ℕ := chainSize size s.pool + load s.tls.returnRetained s.world

/-- Code that adds at most `k` to what is left, and leaves what is below alone. -/
structure After (N : ℕ) (s s' : Drain Ref World) (k : ℕ) : Prop where
  grown : Grown s.pool s'.pool
  ok : ChainOk N s'.pool
  kept : Kept s s'
  left : remaining size load s' ≤ remaining size load s + k

/-- Releasing an object runs code that adds less than its size, when no more than `m` is left. -/
def RunOk (N : ℕ) (run : Drain Ref World → Ref → Option (Drain Ref World)) (m : ℕ) : Prop :=
  ∀ s o, ChainOk N s.pool → remaining size load s + size o ≤ m →
    ∃ s', run s o = some s' ∧ After size load N s s' (size o - 1)

end Measure

/-! ## Chains -/

theorem topped_nil (pool : List (ArcAutoreleasePool Ref)) : topped [] pool = pool := by
  cases pool <;> rfl

theorem topped_topped (a b : List Ref) (pool : List (ArcAutoreleasePool Ref)) :
    topped a (topped b pool) = topped (a ++ b) pool := by
  cases pool with
  | nil => rfl
  | cons p previous => simp [topped]

theorem topped_append (a : List Ref) (p : ArcAutoreleasePool Ref)
    (rest below : List (ArcAutoreleasePool Ref)) :
    topped a ((p :: rest) ++ below) = topped a (p :: rest) ++ below := rfl

theorem topped_ne_nil (a : List Ref) {pool : List (ArcAutoreleasePool Ref)} (h : pool ≠ []) :
    topped a pool ≠ [] := by
  cases pool with
  | nil => exact absurd rfl h
  | cons p previous => simp [topped]

/-- What is put on a chain whose newest page is not part of `below` leaves `below` as it is. -/
theorem Grown.over {new below pool : List (ArcAutoreleasePool Ref)} (hnew : new ≠ [])
    (h : Grown (new ++ below) pool) :
    ∃ new', new' ≠ [] ∧ pool = new' ++ below := by
  obtain ⟨added, extra, rfl⟩ := h
  cases new with
  | nil => exact absurd rfl hnew
  | cons p rest =>
    rw [topped_append, ← List.append_assoc]
    exact ⟨_, List.append_ne_nil_of_right_ne_nil _ (topped_ne_nil extra hnew), rfl⟩

theorem Grown.refl (pool : List (ArcAutoreleasePool Ref)) : Grown pool pool :=
    ⟨[], [], by rw [topped_nil]; rfl⟩

theorem Grown.trans {a b c : List (ArcAutoreleasePool Ref)} (h : Grown a b) (h' : Grown b c) : Grown a c := by
  obtain ⟨new, extra, rfl⟩ := h
  obtain ⟨new', extra', rfl⟩ := h'
  cases new with
  | nil =>
    refine ⟨new', extra' ++ extra, ?_⟩
    rw [List.nil_append, topped_topped]
  | cons p rest =>
    refine ⟨new' ++ topped extra' (p :: rest), extra, ?_⟩
    rw [topped_append, List.append_assoc]

theorem ChainOk.tail {N : ℕ} {p : ArcAutoreleasePool Ref} {previous : List (ArcAutoreleasePool Ref)}
    (h : ChainOk N (p :: previous)) : ChainOk N previous where
  apart := (List.pairwise_cons.mp h.apart).2
  page q hq := h.page q (List.mem_cons_of_mem _ hq)

/-- Fewer entries on the newest page. -/
theorem ChainOk.pop {N : ℕ} {p : ArcAutoreleasePool Ref} {previous : List (ArcAutoreleasePool Ref)} {o : Ref}
    {os : List Ref} (h : ChainOk N (p :: previous)) (hobjs : p.objs = o :: os) :
    ChainOk N ({ p with objs := os } :: previous) where
  apart := h.apart
  page q hq := by
    obtain rfl | hmem := List.mem_cons.mp hq
    · have := h.page p (List.mem_cons_self ..)
      rw [hobjs, List.length_cons] at this
      exact ⟨by show os.length ≤ N; omega, this.2⟩
    · exact h.page q (List.mem_cons_of_mem _ hmem)

/-- Different pages of a chain have different addresses. -/
theorem ChainOk.base_ne {N : ℕ} (hN : 0 < N) {p q : ArcAutoreleasePool Ref}
    {rest below : List (ArcAutoreleasePool Ref)} (h : ChainOk N (p :: rest ++ q :: below)) :
    p.base ≠ q.base := by
  have hapart := h.apart
  rw [List.cons_append, List.map_cons, List.pairwise_cons] at hapart
  have := hapart.1 q.base (List.mem_map.mpr ⟨q, by simp, rfl⟩)
  omega

section Sizes

variable (size : Ref → ℕ)

theorem chainSize_append (a b : List (ArcAutoreleasePool Ref)) :
    chainSize size (a ++ b) = chainSize size a + chainSize size b := by
  simp only [chainSize, entries_append, List.map_append, List.sum_append, List.length_append]
  omega

theorem chainSize_cons (p : ArcAutoreleasePool Ref) (previous : List (ArcAutoreleasePool Ref)) :
    chainSize size (p :: previous) = (p.objs.map size).sum + 1 + chainSize size previous := by
  simp only [chainSize, entries, List.flatMap_cons, List.map_append, List.sum_append, List.length_cons]
  omega

theorem chainSize_pop (p : ArcAutoreleasePool Ref) (previous : List (ArcAutoreleasePool Ref))
    {o : Ref} {os : List Ref}
    (hobjs : p.objs = o :: os) :
    chainSize size ({ p with objs := os } :: previous) + size o = chainSize size (p :: previous) := by
  rw [chainSize_cons, chainSize_cons, hobjs, List.map_cons, List.sum_cons]
  show (os.map size).sum + 1 + _ + _ = _
  omega

theorem chainSize_topped (a : List Ref) (pool : List (ArcAutoreleasePool Ref)) (hne : pool ≠ []) :
    chainSize size (topped a pool) = (a.map size).sum + chainSize size pool := by
  cases pool with
  | nil => exact absurd rfl hne
  | cons p previous =>
    rw [topped, chainSize_cons, chainSize_cons, List.map_append, List.sum_append]
    omega

end Sizes

/-! ## Accounts -/

theorem balance_trans {M : Type*} [AddCancelCommMonoid M] {a r u a' r' u' a'' r'' u'' : M}
    (h : a' + r' + u = a + r + u') (h' : a'' + r'' + u' = a' + r' + u'') : a'' + r'' + u = a + r + u'' := by
  have hsum : (a'' + r'' + u) + (a' + r' + u') = (a + r + u'') + (a' + r' + u') := by
    calc (a'' + r'' + u) + (a' + r' + u') = (a' + r' + u) + (a'' + r'' + u') := by abel
      _ = (a + r + u') + (a' + r' + u'') := by rw [h, h']
      _ = (a + r + u'') + (a' + r' + u') := by abel
  exact add_right_cancel hsum

theorem Kept.refl (s : Drain Ref World) : Kept s s := ⟨rfl, rfl⟩

theorem Kept.trans {s s' s'' : Drain Ref World} (h : Kept s s') (h' : Kept s' s'') : Kept s s'' :=
  ⟨balance_trans h.refs h'.refs, balance_trans h.pages h'.pages⟩

section AfterTrans

variable {size : Ref → ℕ} {load : Option Ref → World → ℕ} {N : ℕ}

theorem After.refl {s : Drain Ref World} (hok : ChainOk N s.pool) : After size load N s s 0 :=
  ⟨Grown.refl _, hok, Kept.refl s, le_rfl⟩

theorem After.trans {s s' s'' : Drain Ref World} {k k' : ℕ} (h : After size load N s s' k)
    (h' : After size load N s' s'' k') : After size load N s s'' (k + k') := by
  refine ⟨h.grown.trans h'.grown, h'.ok, h.kept.trans h'.kept, ?_⟩
  have := h.left
  have := h'.left
  omega

end AfterTrans

/-- A released entry is accounted for. -/
theorem kept_popEntry {s : Drain Ref World} {p : ArcAutoreleasePool Ref}
    {previous : List (ArcAutoreleasePool Ref)}
    {o : Ref} {os : List Ref} (hpool : s.pool = p :: previous) (hobjs : p.objs = o :: os) :
    Kept s (s.popEntry p previous o os) where
  refs := by
    rw [hpool]
    simp only [Drain.popEntry, Drain.setPool, entries, List.flatMap_cons, hobjs, List.cons_append]
    rw [← Multiset.cons_coe, ← Multiset.cons_coe]
    simp only [Multiset.add_cons, Multiset.cons_add]
    rfl
  pages := by
    rw [hpool]
    rfl

/-- A freed page is accounted for, and holds no reference. -/
theorem kept_freePage {s : Drain Ref World} {p : ArcAutoreleasePool Ref}
    {previous : List (ArcAutoreleasePool Ref)}
    (hpool : s.pool = p :: previous) (hobjs : p.objs = []) : Kept s (s.freePage p previous) where
  refs := by
    rw [hpool]
    simp only [Drain.freePage, Drain.setPool, entries, List.flatMap_cons, hobjs, List.nil_append]
  pages := by
    rw [hpool]
    simp only [Drain.freePage, Drain.setPool, List.map_cons]
    rw [← Multiset.cons_coe, ← Multiset.cons_coe]
    simp only [Multiset.add_cons, Multiset.cons_add]

/-! ## The loops -/

section Spec

variable {size : Ref → ℕ} {load : Option Ref → World → ℕ} {N M : ℕ}
  {run : Drain Ref World → Ref → Option (Drain Ref World)}

theorem remaining_popEntry (size : Ref → ℕ) (load : Option Ref → World → ℕ) {s : Drain Ref World}
    {p : ArcAutoreleasePool Ref} {previous : List (ArcAutoreleasePool Ref)} {o : Ref}
    {os : List Ref} (hpool : s.pool = p :: previous)
    (hobjs : p.objs = o :: os) : remaining size load (s.popEntry p previous o os) + size o =
    remaining size load s := by
  unfold remaining
  rw [hpool, ← chainSize_pop size p previous hobjs]
  show chainSize size ({ p with objs := os } :: previous) + load s.tls.returnRetained s.world + _ = _
  omega

/-- One release: a reference less is left to be dealt with. -/
theorem release_spec (hrun : RunOk size load N run M) (hpos : ∀ o, 0 < size o) {s : Drain Ref World}
    {p : ArcAutoreleasePool Ref} {previous : List (ArcAutoreleasePool Ref)} {o : Ref} {os : List Ref}
    (hok : ChainOk N s.pool) (hpool : s.pool = p :: previous) (hobjs : p.objs = o :: os)
    (hM : remaining size load s ≤ M) :
    ∃ s', run (s.popEntry p previous o os) o = some s' ∧ ChainOk N s'.pool ∧ Kept s s' ∧
      Grown ({ p with objs := os } :: previous) s'.pool ∧ remaining size load s' < remaining size load s := by
  rw [hpool] at hok
  have hpop := remaining_popEntry size load hpool hobjs
  obtain ⟨s', hs', hafter⟩ := hrun (s.popEntry p previous o os) o (hok.pop hobjs) (by omega)
  have hleft := hafter.left
  have := hpos o
  exact ⟨s', hs', hafter.ok, (kept_popEntry hpool hobjs).trans hafter.kept, hafter.grown, by omega⟩

theorem size_le_remaining (size : Ref → ℕ) (load : Option Ref → World → ℕ) {s : Drain Ref World}
    {p : ArcAutoreleasePool Ref} {rest below : List (ArcAutoreleasePool Ref)}
    {o : Ref} {os : List Ref} (hpool : s.pool = p :: rest ++ below) (hobjs : p.objs = o :: os) :
    chainSize size below + size o ≤ remaining size load s := by
  unfold remaining
  rw [hpool, List.cons_append, chainSize_cons, chainSize_append, hobjs, List.map_cons, List.sum_cons]
  omega

/-- Clearing the newest page ends with an empty newest page. -/
theorem clearPage_spec (hrun : RunOk size load N run M) (hpos : ∀ o, 0 < size o)
    (below : List (ArcAutoreleasePool Ref)) : ∀ (fuel m : ℕ) (s : Drain Ref World)
    (p : ArcAutoreleasePool Ref) (rest : List (ArcAutoreleasePool Ref)), s.pool = p :: rest ++ below →
    ChainOk N s.pool → remaining size load s ≤ chainSize size below + m →
    remaining size load s ≤ M → m + 1 ≤ fuel →
    ∃ s' p' rest', clearPage run fuel s = some s' ∧ s'.pool = p' :: rest' ++ below ∧ p'.objs = [] ∧
      ChainOk N s'.pool ∧ Kept s s' ∧ remaining size load s' ≤ remaining size load s := by
  intro fuel
  induction fuel with
  | zero => intro m s p rest _ _ _ _ hfuel; omega
  | succ fuel ih =>
    intro m s p rest hpool hok hm hM hfuel
    unfold clearPage
    rw [hpool]
    simp only [List.cons_append]
    cases hobjs : p.objs with
    | nil => exact ⟨s, p, rest, rfl, hpool, hobjs, hok, Kept.refl s, le_rfl⟩
    | cons o os =>
      have hsize := size_le_remaining size load hpool hobjs
      obtain ⟨s₁, hs₁, hok₁, hkept₁, hgrown, hless⟩ := release_spec hrun hpos hok hpool hobjs (by omega)
      have hgrown : Grown (({ p with objs := os } :: rest) ++ below) s₁.pool := hgrown
      obtain ⟨new, hnew, hpool₁⟩ := hgrown.over (by simp)
      obtain ⟨p₁, rest₁, rfl⟩ := List.exists_cons_of_ne_nil hnew
      have := hpos o
      obtain ⟨s', p', rest', hs', hpool', hempty, hok', hkept', hle⟩ :=
        ih (m - 1) s₁ p₁ rest₁ hpool₁ hok₁ (by omega) (by omega) (by omega)
      refine ⟨s', p', rest', ?_, hpool', hempty, hok', hkept₁.trans hkept', by omega⟩
      show (run (s.popEntry p (rest ++ below) o os) o).bind _ = _
      rw [show run (s.popEntry p (rest ++ below) o os) o = some s₁ from hs₁]
      exact hs'

/-- Clearing the pages above the stop page ends with that page, whatever the releases put on top. -/
theorem clearPages_spec (hrun : RunOk size load N run M) (hpos : ∀ o, 0 < size o)
    {below : List (ArcAutoreleasePool Ref)} {stopPool : Option ℕ}
    (hstop : ∀ new : List (ArcAutoreleasePool Ref), ChainOk N (new ++ below) →
      ((new ++ below).head?.map ArcAutoreleasePool.base = stopPool ↔ new = [])) :
    ∀ (fuel m : ℕ) (s : Drain Ref World) (new : List (ArcAutoreleasePool Ref)), s.pool = new ++ below →
    ChainOk N s.pool → remaining size load s ≤ chainSize size below + m →
    remaining size load s ≤ M → m + 2 ≤ fuel →
    ∃ s', clearPages run stopPool fuel s = some s' ∧ s'.pool = below ∧ ChainOk N s'.pool ∧ Kept s s' ∧
      remaining size load s' ≤ remaining size load s := by
  intro fuel
  induction fuel with
  | zero => intro m s new _ _ _ _ hfuel; omega
  | succ fuel ih =>
    intro m s new hpool hok hm hM hfuel
    have htop : s.top = stopPool ↔ new = [] := by
      unfold Drain.top
      rw [hpool]
      exact hstop new (hpool ▸ hok)
    unfold clearPages
    by_cases hnew : new = []
    · rw [if_pos (htop.mpr hnew)]
      subst hnew
      exact ⟨s, rfl, hpool, hok, Kept.refl s, le_rfl⟩
    · rw [if_neg fun h => hnew (htop.mp h)]
      obtain ⟨p, rest, rfl⟩ := List.exists_cons_of_ne_nil hnew
      obtain ⟨s₁, p₁, rest₁, hs₁, hpool₁, hempty, hok₁, hkept₁, hle₁⟩ :=
        clearPage_spec hrun hpos below fuel m s p rest hpool hok hm hM (by omega)
      have hfree : remaining size load (s₁.freePage p₁ (rest₁ ++ below)) + 1 = remaining size load s₁ := by
        unfold remaining
        rw [hpool₁, List.cons_append, chainSize_cons, hempty]
        show chainSize size (rest₁ ++ below) + load s₁.tls.returnRetained s₁.world + 1 = _
        simp
        omega
      have hpage : chainSize size below + 1 ≤ remaining size load s₁ := by
        unfold remaining
        rw [hpool₁, List.cons_append, chainSize_cons, chainSize_append]
        omega
      obtain ⟨s', hs', hpool', hok', hkept', hle'⟩ := ih (m - 1) (s₁.freePage p₁ (rest₁ ++ below)) rest₁ rfl
        (by rw [hpool₁] at hok₁; exact hok₁.tail) (by omega) (by omega) (by omega)
      refine ⟨s', ?_, hpool', hok', (hkept₁.trans (kept_freePage hpool₁ hempty)).trans hkept', by omega⟩
      show (clearPage run fuel s).bind _ = _
      rw [hs₁, Option.bind_some, hpool₁]
      exact hs'

theorem releaseAbove_pop {stopAt : ℕ} (fuel : ℕ) {s : Drain Ref World} {p : ArcAutoreleasePool Ref}
    {previous : List (ArcAutoreleasePool Ref)} {o : Ref} {os : List Ref} (hpool : s.pool = p :: previous)
    (hobjs : p.objs = o :: os) (habove : stopAt < p.insert) :
    releaseAbove run stopAt (fuel + 1) s = (run (s.popEntry p previous o os) o).bind
    (releaseAbove run stopAt fuel) := by
  rw [releaseAbove, hpool]
  simp only [hobjs]
  rw [if_pos habove]
  rfl

theorem releaseAbove_done {stopAt : ℕ} (fuel : ℕ) {s : Drain Ref World} {p : ArcAutoreleasePool Ref}
    {previous : List (ArcAutoreleasePool Ref)} (hpool : s.pool = p :: previous)
    (hdone : ∀ o os, p.objs = o :: os → ¬ stopAt < p.insert) :
    releaseAbove run stopAt (fuel + 1) s = some s := by
  rw [releaseAbove, hpool]
  cases hobjs : p.objs with
  | nil => simp only [hobjs]
  | cons o os =>
    simp only [hobjs]
    rw [if_neg (hdone o os hobjs)]

/-- The newest entry of a chain above the stop point is not one of those to be kept. -/
theorem split_pop {pg p : ArcAutoreleasePool Ref} {lower previous new : List (ArcAutoreleasePool Ref)}
    {extra : List Ref} {o : Ref} {os : List Ref} {stopAt : ℕ} (hstop : pg.insert ≤ stopAt)
    (hpool : p :: previous = new ++ topped extra (pg :: lower)) (hobjs : p.objs = o :: os)
    (habove : stopAt < p.insert) :
    ∃ new₁ extra₁, ({ p with objs := os } :: previous) = new₁ ++ topped extra₁ (pg :: lower) ∧
      (extra₁ ≠ [] → extra ≠ []) ∧ (new₁ = [] → extra ≠ []) := by
  cases new with
  | cons q rest =>
    rw [List.cons_append] at hpool
    obtain ⟨rfl, rfl⟩ := List.cons.inj hpool
    exact ⟨{ p with objs := os } :: rest, extra, rfl, id, fun h => absurd h (by simp)⟩
  | nil =>
    obtain ⟨rfl, rfl⟩ := List.cons.inj
        (show p :: previous = { pg with objs := extra ++ pg.objs } :: lower from hpool)
    cases extra with
    | nil => exact absurd habove (Nat.not_lt.mpr hstop)
    | cons e ex =>
      obtain ⟨-, rfl⟩ := List.cons.inj (show e :: (ex ++ pg.objs) = o :: os from hobjs)
      exact ⟨[], ex, rfl, fun _ => by simp, fun _ => by simp⟩

/-- Releasing down to the stop point: either the page of the stop point is the newest and has only
    what is to be kept, or some other page was put on top. -/
theorem releaseAbove_spec (hrun : RunOk size load N run M) (hpos : ∀ o, 0 < size o)
    {pg : ArcAutoreleasePool Ref}
    {lower : List (ArcAutoreleasePool Ref)} {stopAt : ℕ} (hstop : pg.insert ≤ stopAt) :
    ∀ (fuel m : ℕ) (s : Drain Ref World) (new : List (ArcAutoreleasePool Ref)) (extra : List Ref),
    s.pool = new ++ topped extra (pg :: lower) → (extra ≠ [] → stopAt = pg.insert) → ChainOk N s.pool →
    remaining size load s ≤ chainSize size (pg :: lower) + m → remaining size load s ≤ M → m + 1 ≤ fuel →
    ∃ s' new' extra', releaseAbove run stopAt fuel s = some s' ∧
    s'.pool = new' ++ topped extra' (pg :: lower) ∧
      (extra' ≠ [] → stopAt = pg.insert) ∧ ChainOk N s'.pool ∧ Kept s s' ∧ (new' = [] → extra' = []) ∧
      (s' = s ∨ remaining size load s' < remaining size load s) := by
  intro fuel
  induction fuel with
  | zero => intro m s new extra _ _ _ _ _ hfuel; omega
  | succ fuel ih =>
    intro m s new extra hpool hextra hok hm hM hfuel
    obtain ⟨p, previous, hnewest⟩ : ∃ p previous, s.pool = p :: previous := by
      refine List.exists_cons_of_ne_nil ?_
      rw [hpool]
      simp [topped]
    by_cases hpop : ∃ o os, p.objs = o :: os ∧ stopAt < p.insert
    · obtain ⟨o, os, hobjs, habove⟩ := hpop
      obtain ⟨new₁, extra₁, hsplit, hextra₁, hnew₁⟩ := split_pop hstop (hnewest ▸ hpool) hobjs habove
      have hsize : chainSize size (pg :: lower) + size o ≤ remaining size load s := by
        have hless := remaining_popEntry size load hnewest hobjs
        have hbelow : chainSize size (pg :: lower) ≤ chainSize size ({ p with objs := os } :: previous) := by
          rw [hsplit, chainSize_append, chainSize_topped size extra₁ _ (by simp)]
          omega
        have : chainSize size ({ p with objs := os } :: previous) ≤ remaining size load
            (s.popEntry p previous o os) :=
          Nat.le_add_right ..
        omega
      obtain ⟨s₁, hs₁, hok₁, hkept₁, hgrown, hless⟩ := release_spec hrun hpos hok hnewest hobjs (by omega)
      rw [hsplit] at hgrown
      obtain ⟨new₂, extra₂, hpool₂, hextra₂⟩ : ∃ new₂ extra₂, s₁.pool = new₂ ++ topped extra₂ (pg :: lower) ∧
          (extra₂ ≠ [] → stopAt = pg.insert) := by
        cases new₁ with
        | nil =>
          obtain ⟨added, put, hadded⟩ := hgrown
          rw [List.nil_append, topped_topped] at hadded
          exact ⟨added, put ++ extra₁, hadded, fun _ => hextra (hnew₁ rfl)⟩
        | cons q rest =>
          obtain ⟨new₂, -, hnew₂⟩ := hgrown.over (by simp)
          exact ⟨new₂, extra₁, hnew₂, fun h => hextra (hextra₁ h)⟩
      have := hpos o
      obtain ⟨s', new', extra', hs', hpool', hextra', hok', hkept', hlast, hle⟩ :=
        ih (m - 1) s₁ new₂ extra₂ hpool₂ hextra₂ hok₁ (by omega) (by omega) (by omega)
      refine ⟨s', new', extra', ?_, hpool', hextra', hok', hkept₁.trans hkept', hlast, .inr ?_⟩
      · rw [releaseAbove_pop fuel hnewest hobjs habove, hs₁, Option.bind_some, hs']
      · rcases hle with rfl | hle <;> omega
    · have hdone : ∀ o os, p.objs = o :: os → ¬ stopAt < p.insert := fun o os hobjs habove =>
          hpop ⟨o, os, hobjs, habove⟩
      refine ⟨s, new, extra, releaseAbove_done fuel hnewest hdone, hpool, hextra, hok, Kept.refl s,
          ?_, .inl rfl⟩
      rintro rfl
      by_contra hne
      obtain ⟨e, ex, rfl⟩ := List.exists_cons_of_ne_nil hne
      rw [hnewest] at hpool
      obtain ⟨rfl, -⟩ := List.cons.inj
          (show p :: previous = { pg with objs := e :: ex ++ pg.objs } :: lower from hpool)
      refine hdone e (ex ++ pg.objs) rfl ?_
      rw [hextra hne]
      show pg.base + pg.objs.length < pg.base + (e :: (ex ++ pg.objs)).length
      rw [List.length_cons, List.length_append]
      omega

/-- The outer loop with a stop point ends at it. -/
theorem drain_spec (hN : 0 < N) (hrun : RunOk size load N run M) (hpos : ∀ o, 0 < size o)
    {pg : ArcAutoreleasePool Ref}
    {lower : List (ArcAutoreleasePool Ref)} {stopAt : ℕ} (hstop : pg.insert ≤ stopAt) :
    ∀ (fuel m : ℕ) (s : Drain Ref World) (new : List (ArcAutoreleasePool Ref)) (extra : List Ref),
    s.pool = new ++ topped extra (pg :: lower) → (extra ≠ [] → stopAt = pg.insert) → ChainOk N s.pool →
    remaining size load s ≤ chainSize size (pg :: lower) + m → remaining size load s ≤ M → m + 3 ≤ fuel →
    ∃ s', drain run (some pg.base) stopAt fuel s = some s' ∧ s'.pool = pg :: lower ∧
    ChainOk N s'.pool ∧ Kept s s' ∧
      remaining size load s' ≤ remaining size load s := by
  intro fuel
  induction fuel with
  | zero => intro m s new extra _ _ _ _ _ hfuel; omega
  | succ fuel ih =>
    intro m s new extra hpool hextra hok hm hM hfuel
    have hfloor : chainSize size (pg :: lower) ≤ chainSize size (topped extra (pg :: lower)) := by
      rw [chainSize_topped size extra _ (by simp)]
      omega
    have hat : ∀ (extra : List Ref) (new : List (ArcAutoreleasePool Ref)),
        ChainOk N (new ++ topped extra (pg :: lower)) →
        ((new ++ topped extra (pg :: lower)).head?.map ArcAutoreleasePool.base = some pg.base ↔
          new = []) := by
      intro extra new hok
      cases new with
      | nil => simp [topped]
      | cons p rest =>
        have htopped : ChainOk N (p :: rest ++ { pg with objs := extra ++ pg.objs } :: lower) := hok
        have hne := htopped.base_ne hN
        simp only [List.cons_append, List.head?_cons, Option.map_some, Option.some.injEq,
          reduceCtorEq, iff_false]
        exact hne
    obtain ⟨s₁, hs₁, hpool₁, hok₁, hkept₁, hle₁⟩ :=
      clearPages_spec hrun hpos (hat extra) fuel m s new hpool hok (by omega) hM (by omega)
    obtain ⟨s₂, new₂, extra₂, hs₂, hpool₂, hextra₂, hok₂, hkept₂, hlast, hle₂⟩ :=
      releaseAbove_spec hrun hpos hstop fuel m s₁ [] extra hpool₁ hextra hok₁ (by omega) (by omega) (by omega)
    have htop₁ : s₁.top ≠ none := by
      unfold Drain.top
      rw [hpool₁]
      simp [topped]
    have htop₂ : s₂.top = some pg.base ↔ new₂ = [] := by
      unfold Drain.top
      rw [hpool₂]
      exact hat extra₂ new₂ (hpool₂ ▸ hok₂)
    have hstep : drain run (some pg.base) stopAt (fuel + 1) s =
        if s₂.top ≠ some pg.base then drain run (some pg.base) stopAt fuel s₂ else some s₂ := by
      show (clearPages run (some pg.base) fuel s).bind _ = _
      rw [hs₁, Option.bind_some, if_neg htop₁]
      show (releaseAbove run stopAt fuel s₁).bind _ = _
      rw [hs₂]
      rfl
    rw [hstep]
    by_cases hnew : new₂ = []
    · rw [if_neg (not_not.mpr (htop₂.mpr hnew))]
      rw [hnew, hlast hnew, topped_nil, List.nil_append] at hpool₂
      refine ⟨s₂, rfl, hpool₂, hok₂, hkept₁.trans hkept₂, ?_⟩
      rcases hle₂ with rfl | hle₂ <;> omega
    · rw [if_pos fun h => hnew (htop₂.mp h)]
      have hless : remaining size load s₂ < remaining size load s₁ := by
        refine hle₂.resolve_left ?_
        rintro rfl
        exact hnew (htop₂.mp (by unfold Drain.top; rw [hpool₁]; rfl))
      have hbelow : chainSize size (pg :: lower) ≤ remaining size load s₂ := by
        unfold remaining
        rw [hpool₂, chainSize_append, chainSize_topped size extra₂ _ (by simp)]
        omega
      obtain ⟨s', hs', hpool', hok', hkept', hle'⟩ :=
        ih (m - 1) s₂ new₂ extra₂ hpool₂ hextra₂ hok₂ (by omega) (by omega) (by omega)
      exact ⟨s', hs', hpool', hok', (hkept₁.trans hkept₂).trans hkept', by omega⟩

/-- The outer loop without a stop point clears every page. -/
theorem drain_all (hrun : RunOk size load N run M) (hpos : ∀ o, 0 < size o) (stopAt : ℕ) {fuel : ℕ}
    {s : Drain Ref World} (hok : ChainOk N s.pool) (hM : remaining size load s ≤ M)
    (hfuel : remaining size load s + 3 ≤ fuel) :
    ∃ s', drain run none stopAt fuel s = some s' ∧ s'.pool = [] ∧ ChainOk N s'.pool ∧ Kept s s' ∧
      remaining size load s' ≤ remaining size load s := by
  obtain ⟨fuel, rfl⟩ : ∃ f, fuel = f + 1 := ⟨fuel - 1, by omega⟩
  have htop : ∀ new : List (ArcAutoreleasePool Ref), ChainOk N (new ++ []) →
      ((new ++ []).head?.map ArcAutoreleasePool.base = none ↔ new = []) := by
    intro new _
    cases new <;> simp
  obtain ⟨s', hs', hpool', hok', hkept', hle'⟩ := clearPages_spec hrun hpos htop fuel
    (remaining size load s) s s.pool (by simp) hok (by simp [chainSize, entries]) hM (by omega)
  refine ⟨s', ?_, hpool', hok', hkept', hle'⟩
  show (clearPages run none fuel s).bind _ = _
  rw [hs', Option.bind_some, if_pos]
  · rfl
  · unfold Drain.top
    rw [hpool']
    rfl

/-- No other page of the chain holds the stop point. -/
theorem find_holds {upper lower : List (ArcAutoreleasePool Ref)} {pg : ArcAutoreleasePool Ref} {stopAt : ℕ}
    (hok : ChainOk N (upper ++ pg :: lower)) (hstop : pg.holds N stopAt = true) :
    (upper ++ pg :: lower).find? (fun p => p.holds N stopAt) = some pg := by
  rw [List.find?_append, List.find?_eq_none.mpr, Option.none_or, List.find?_cons]
  · rw [hstop]
  intro q hq
  have hapart := hok.apart
  rw [List.map_append, List.pairwise_append] at hapart
  have := hapart.2.2 q.base (List.mem_map_of_mem hq) pg.base (by simp)
  simp only [ArcAutoreleasePool.holds, Bool.and_eq_true, decide_eq_true_eq] at hstop ⊢
  omega

/-- `emptyPool` with a stop point ends, with exactly the entries below that point in the chain. -/
theorem emptyPool_spec (hN : 0 < N) (hrun : RunOk size load N run M) (hpos : ∀ o, 0 < size o)
    {upper lower : List (ArcAutoreleasePool Ref)} {pg : ArcAutoreleasePool Ref} {stopAt fuel : ℕ}
    {s : Drain Ref World}
    (hpool : s.pool = upper ++ pg :: lower) (hok : ChainOk N s.pool) (hstop : pg.holds N stopAt = true)
    (hM : remaining size load s ≤ M) (hfuel : remaining size load s + 3 ≤ fuel) :
    ∃ s', emptyPool N run fuel s stopAt = some s' ∧
      s'.pool = { pg with objs := pg.objs.drop (pg.objs.length - (stopAt - pg.base)) } :: lower ∧
      ChainOk N s'.pool ∧
      Kept s s' ∧ remaining size load s' ≤ remaining size load s := by
  have hfind := find_holds (hpool ▸ hok) hstop
  have hin : pg.base ≤ stopAt := by
    simp only [ArcAutoreleasePool.holds, Bool.and_eq_true, decide_eq_true_eq] at hstop
    exact hstop.1
  have hbase : 0 < pg.base := (hok.page pg (by rw [hpool]; simp)).2
  obtain ⟨n, hn⟩ : ∃ n, n = pg.objs.length - (stopAt - pg.base) := ⟨_, rfl⟩
  rw [← hn]
  have hkeep : ArcAutoreleasePool.insert { pg with objs := pg.objs.drop n } =
      pg.base + (pg.objs.length - n) := by
    unfold ArcAutoreleasePool.insert
    simp
  have hsplit : s.pool = upper ++ topped (pg.objs.take n) ({ pg with objs := pg.objs.drop n } :: lower) := by
    rw [hpool]
    simp only [topped, List.take_append_drop]
  have hextra : pg.objs.take n ≠ [] →
      stopAt = ArcAutoreleasePool.insert { pg with objs := pg.objs.drop n } := by
    intro hne
    have hsome : n ≠ 0 := by
      rintro rfl
      exact hne rfl
    omega
  obtain ⟨s', hs', hpool', hok', hkept', hle'⟩ := drain_spec hN hrun hpos (by omega) fuel
      (remaining size load s) s
    upper (pg.objs.take n) hsplit hextra hok (by omega) hM hfuel
  refine ⟨s', ?_, hpool', hok', hkept', hle'⟩
  unfold emptyPool
  rw [if_neg (by omega), hpool, hfind]
  exact hs'

/-- `emptyPool` without a stop point ends, without a page in the chain. -/
theorem emptyPool_null (hrun : RunOk size load N run M) (hpos : ∀ o, 0 < size o) {fuel : ℕ}
    {s : Drain Ref World}
    (hok : ChainOk N s.pool) (hM : remaining size load s ≤ M) (hfuel : remaining size load s + 3 ≤ fuel) :
    ∃ s', emptyPool N run fuel s 0 = some s' ∧ s'.pool = [] ∧ ChainOk N s'.pool ∧ Kept s s' ∧
      remaining size load s' ≤ remaining size load s := by
  unfold emptyPool
  rw [if_pos rfl]
  exact drain_all hrun hpos 0 hok hM hfuel

end Spec

/-! ## What every release preserves -/

section Keeps

variable {N : ℕ} {run : Drain Ref World → Ref → Option (Drain Ref World)} {I : Drain Ref World → Prop}

/-- Each release keeps `I`. -/
def ReleaseKeeps (run : Drain Ref World → Ref → Option (Drain Ref World))
    (I : Drain Ref World → Prop) : Prop :=
  ∀ s p previous o os s', s.pool = p :: previous → p.objs = o :: os → I s →
    run (s.popEntry p previous o os) o = some s' → I s'

/-- Freeing an empty page keeps `I`. -/
def FreeKeeps (I : Drain Ref World → Prop) : Prop :=
  ∀ s p previous, s.pool = p :: previous → p.objs = [] → I s → I (s.freePage p previous)

theorem clearPage_empty : ∀ fuel s s', clearPage run fuel s = some s' → ∃ p previous,
    s'.pool = p :: previous ∧ p.objs = [] := by
  intro fuel
  induction fuel with
  | zero => intro s s' hs; exact absurd hs (by simp [clearPage])
  | succ fuel ih =>
    intro s s' hs
    unfold clearPage at hs
    split at hs
    · exact absurd hs (by simp)
    · rename_i p previous hpool
      split at hs
      · rename_i hobjs
        exact ⟨p, previous, Option.some.inj hs ▸ hpool, hobjs⟩
      · obtain ⟨s₁, -, hs'⟩ := Option.bind_eq_some_iff.mp hs
        exact ih s₁ s' hs'

theorem clearPage_keeps (hrelease : ReleaseKeeps run I) :
    ∀ fuel s s', clearPage run fuel s = some s' → I s → I s' := by
  intro fuel
  induction fuel with
  | zero => intro s s' hs; exact absurd hs (by simp [clearPage])
  | succ fuel ih =>
    intro s s' hs hI
    unfold clearPage at hs
    split at hs
    · exact absurd hs (by simp)
    · rename_i p previous hpool
      split at hs
      · exact Option.some.inj hs ▸ hI
      · rename_i o os hobjs
        obtain ⟨s₁, hs₁, hs'⟩ := Option.bind_eq_some_iff.mp hs
        exact ih s₁ s' hs' (hrelease s p previous o os s₁ hpool hobjs hI hs₁)

theorem clearPages_keeps (hrelease : ReleaseKeeps run I) (hfree : FreeKeeps I) (stopPool : Option ℕ) :
    ∀ fuel s s', clearPages run stopPool fuel s = some s' → I s → I s' := by
  intro fuel
  induction fuel with
  | zero => intro s s' hs; exact absurd hs (by simp [clearPages])
  | succ fuel ih =>
    intro s s' hs hI
    unfold clearPages at hs
    split at hs
    · exact Option.some.inj hs ▸ hI
    · obtain ⟨s₁, hs₁, hs'⟩ := Option.bind_eq_some_iff.mp hs
      split at hs'
      · exact absurd hs' (by simp)
      · rename_i p previous hpool
        obtain ⟨q, rest, hpool', hempty⟩ := clearPage_empty fuel s s₁ hs₁
        obtain ⟨rfl, -⟩ := List.cons.inj (hpool.symm.trans hpool')
        exact ih _ s' hs' (hfree s₁ p previous hpool hempty (clearPage_keeps hrelease fuel s s₁ hs₁ hI))

theorem releaseAbove_keeps (hrelease : ReleaseKeeps run I) (stopAt : ℕ) :
    ∀ fuel s s', releaseAbove run stopAt fuel s = some s' → I s → I s' := by
  intro fuel
  induction fuel with
  | zero => intro s s' hs; exact absurd hs (by simp [releaseAbove])
  | succ fuel ih =>
    intro s s' hs hI
    unfold releaseAbove at hs
    split at hs
    · exact absurd hs (by simp)
    · rename_i p previous hpool
      split at hs
      · exact Option.some.inj hs ▸ hI
      · rename_i o os hobjs
        split at hs
        · obtain ⟨s₁, hs₁, hs'⟩ := Option.bind_eq_some_iff.mp hs
          exact ih s₁ s' hs' (hrelease s p previous o os s₁ hpool hobjs hI hs₁)
        · exact Option.some.inj hs ▸ hI

theorem drain_keeps (hrelease : ReleaseKeeps run I) (hfree : FreeKeeps I) (stopPool : Option ℕ) (stopAt : ℕ) :
    ∀ fuel s s', drain run stopPool stopAt fuel s = some s' → I s → I s' := by
  intro fuel
  induction fuel with
  | zero => intro s s' hs; exact absurd hs (by simp [drain])
  | succ fuel ih =>
    intro s s' hs hI
    unfold drain at hs
    obtain ⟨s₁, hs₁, hs⟩ := Option.bind_eq_some_iff.mp hs
    have hI₁ := clearPages_keeps hrelease hfree stopPool fuel s s₁ hs₁ hI
    split at hs
    · exact Option.some.inj hs ▸ hI₁
    · obtain ⟨s₂, hs₂, hs⟩ := Option.bind_eq_some_iff.mp hs
      have hI₂ := releaseAbove_keeps hrelease stopAt fuel s₁ s₂ hs₂ hI₁
      split at hs
      · exact ih s₂ s' hs hI₂
      · exact Option.some.inj hs ▸ hI₂

/-- What every release and every freed page preserve holds when `emptyPool` returns. -/
theorem emptyPool_keeps (hrelease : ReleaseKeeps run I) (hfree : FreeKeeps I) {fuel stopAt : ℕ}
    {s s' : Drain Ref World}
    (hs : emptyPool N run fuel s stopAt = some s') (hI : I s) : I s' := by
  unfold emptyPool at hs
  split at hs
  · exact drain_keeps hrelease hfree none stopAt fuel s s' hs hI
  · split at hs
    · exact Option.some.inj hs ▸ hI
    · exact drain_keeps hrelease hfree _ stopAt fuel s s' hs hI

end Keeps

/-! ## Adding an entry -/

section Room

variable {N : ℕ} {calloc : ℕ → List ℕ → ℕ}

/-- Making room leaves a newest page that is not full. -/
theorem withRoom_spec (size : Ref → ℕ) (hN : 0 < N) {s : Drain Ref World}
    (hc : CallocFresh N (calloc s.allocations))
    (hok : ChainOk N s.pool) :
    ∃ p previous, (s.withRoom N calloc).pool = p :: previous ∧ p.objs.length < N ∧ ChainOk N (p :: previous) ∧
      Grown s.pool (p :: previous) ∧ Kept s (s.withRoom N calloc) ∧
      chainSize size (p :: previous) ≤ chainSize size s.pool + 1 := by
  -- a new page on top
  have hnew : ∀ b, b = calloc s.allocations (s.pool.map (·.base)) →
      poolWithRoom N (calloc s.allocations) s.pool = ⟨b, []⟩ :: s.pool →
      ∃ p previous, (s.withRoom N calloc).pool = p :: previous ∧ p.objs.length < N ∧
      ChainOk N (p :: previous) ∧
        Grown s.pool (p :: previous) ∧ Kept s (s.withRoom N calloc) ∧
        chainSize size (p :: previous) ≤ chainSize size s.pool + 1 := by
    intro b hb hpool
    have hfresh := hc (s.pool.map (·.base))
    have hwith : s.withRoom N calloc = { s.setPool (⟨b, []⟩ :: s.pool) with
        allocations := s.allocations + 1, allocated := b :: s.allocated } := by
      unfold Drain.withRoom
      rw [hpool]
      simp
    refine ⟨⟨b, []⟩, s.pool, by rw [hwith]; rfl, hN, ⟨?_, ?_⟩, ⟨[⟨b, []⟩], [], by rw [topped_nil]; rfl⟩, ?_, ?_⟩
    · rw [List.map_cons, List.pairwise_cons, hb]
      exact ⟨hfresh.2, hok.apart⟩
    · intro q hq
      obtain rfl | hq := List.mem_cons.mp hq
      · exact ⟨Nat.zero_le _, hb ▸ hfresh.1⟩
      · exact hok.page q hq
    · rw [hwith]
      refine ⟨rfl, ?_⟩
      show ((b :: s.pool.map (·.base) : List ℕ) : Multiset ℕ) + s.freed + s.allocated =
        s.pool.map (·.base) + s.freed + ((b :: s.allocated : List ℕ) : Multiset ℕ)
      rw [← Multiset.cons_coe, ← Multiset.cons_coe]
      simp only [Multiset.add_cons, Multiset.cons_add]
    · rw [chainSize_cons]
      simp
      omega
  cases hchain : s.pool with
  | nil =>
    rw [← hchain]
    exact hnew _ rfl (by rw [hchain]; rfl)
  | cons p previous =>
    by_cases hfull : p.full N
    · rw [← hchain]
      refine hnew _ rfl ?_
      rw [hchain, poolWithRoom, if_pos hfull]
    · have hroom : poolWithRoom N (calloc s.allocations) s.pool = s.pool := by
        rw [hchain, poolWithRoom, if_neg hfull]
      have hwith : s.withRoom N calloc = s := by
        unfold Drain.withRoom
        rw [hroom]
        simp [Drain.setPool]
      have hlt : p.objs.length < N := by
        by_contra hge
        exact hfull (by simp [ArcAutoreleasePool.full, ArcAutoreleasePool.insert]; omega)
      rw [hwith]
      exact ⟨p, previous, hchain, hlt, hchain ▸ hok, Grown.refl _, Kept.refl s, Nat.le_succ _⟩

/-- An entry is added to the page with room. -/
theorem autorelease_pool {s : Drain Ref World} {p : ArcAutoreleasePool Ref}
    {previous : List (ArcAutoreleasePool Ref)}
    (hroom : (s.withRoom N calloc).pool = p :: previous) (o : Ref) :
    (s.autorelease N calloc o).pool = topped [o] (p :: previous) := by
  have hroom : poolWithRoom N (calloc s.allocations) s.tls.pool = p :: previous := hroom
  show (Memory.autorelease N (calloc s.allocations) s.tls o).pool = _
  rw [Memory.autorelease, hroom]
  rfl

theorem autorelease_returnRetained (s : Drain Ref World) (o : Ref) :
    (s.autorelease N calloc o).tls.returnRetained = s.tls.returnRetained := by
  show (Memory.autorelease N (calloc s.allocations) s.tls o).returnRetained = _
  rw [Memory.autorelease]
  split <;> rfl

/-- Autoreleasing adds the entry and at most one page. -/
theorem autorelease_after (size : Ref → ℕ) (load : Option Ref → World → ℕ) (hN : 0 < N) {s : Drain Ref World}
    (hc : CallocFresh N (calloc s.allocations)) (hok : ChainOk N s.pool) (o : Ref) :
    After size load N s (s.autorelease N calloc o) (size o + 1) := by
  obtain ⟨p, previous, hroom, hlt, hok', hgrown, hkept, hsize⟩ := withRoom_spec size hN hc hok
  have hpool := autorelease_pool hroom o
  have hone : Kept (s.withRoom N calloc) (s.autorelease N calloc o) := by
    refine ⟨?_, ?_⟩
    · rw [hpool, hroom]
      show ((entries (topped [o] (p :: previous)) : Multiset Ref) + s.released + s.autoreleased) =
        entries (p :: previous) + s.released + ((o :: s.autoreleased : List Ref) : Multiset Ref)
      simp only [topped, entries, List.flatMap_cons, List.cons_append, List.nil_append]
      rw [← Multiset.cons_coe, ← Multiset.cons_coe]
      simp only [Multiset.add_cons, Multiset.cons_add]
    · rw [hpool, hroom]
      rfl
  refine ⟨?_, ?_, hkept.trans hone, ?_⟩
  · rw [hpool]
    exact hgrown.trans ⟨[], [o], rfl⟩
  · rw [hpool]
    refine ⟨hok'.apart, ?_⟩
    intro q hq
    obtain rfl | hq := List.mem_cons.mp hq
    · refine ⟨?_, (hok'.page p (List.mem_cons_self ..)).2⟩
      show (o :: p.objs).length ≤ N
      rw [List.length_cons]
      omega
    · exact hok'.page q (List.mem_cons_of_mem _ hq)
  · unfold remaining
    rw [hpool, chainSize_topped size [o] _ (by simp), autorelease_returnRetained]
    show ([o].map size).sum + chainSize size (p :: previous) + load s.tls.returnRetained s.world ≤ _
    simp only [List.map_cons, List.map_nil, List.sum_cons, List.sum_nil]
    omega

end Room

end Libobjc2.Memory.Draining
