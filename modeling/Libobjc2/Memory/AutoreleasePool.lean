import Libobjc2.Common.Run
import Mathlib.Tactic

/-!
# ARC autorelease pools (`src/memory/arc.mm`)

With `useARCAutoreleasePool` set, the autoreleased objects of a thread live in a chain of
pages (`struct arc_autorelease_pool`). A pool is not an object: `objc_autoreleasePoolPush`
returns the insertion point, and `objc_autoreleasePoolPop` releases whatever lies above it.
`objc_retainAutoreleasedReturnValue` takes the newest entry back, without looking at the
tokens that were handed out.

A page is modelled by its base address, counted in `id`s, and the list of its live entries,
newest first; `insert` is the address after the last entry. `calloc` stands for the
allocator of pages: all that is used of it is that a fresh page overlaps no live one.

Results:
* `emptyPool_spec`: popping a token at position `n` keeps the oldest `n` entries.
* `pop_scoped`: in every run that never autoreleases below the innermost token, each pop
  releases exactly what was autoreleased since the matching push and not reclaimed.
* `pop_not_scoped`: reclaiming an object of the outer pool, and then autoreleasing another,
  escapes the inner pool.
-/

namespace Libobjc2.Memory

open Libobjc2.Common

/-! ## Model of the pages -/

/-- `struct arc_autorelease_pool` (lines 75–92). `base` is `&pool[0]`; `objs` are the entries
    below `insert`, newest first. -/
structure ArcAutoreleasePool (Obj : Type) where
  base : ℕ
  objs : List Obj
  deriving DecidableEq

/-- `POOL_SIZE` (line 67). -/
def poolSize (sizeofPtr : ℕ) : ℕ := 4096 / sizeofPtr - 2 * sizeofPtr

/-- `struct arc_tls` (lines 94–98); `pool` is the chain of `previous` pointers, newest page
    first. -/
structure ArcTls (Obj : Type) where
  pool : List (ArcAutoreleasePool Obj)
  returnRetained : Option Obj
  deriving DecidableEq

variable {Obj : Type}

namespace ArcAutoreleasePool

/-- The `insert` field. -/
def insert (p : ArcAutoreleasePool Obj) : ℕ := p.base + p.objs.length

/-- `pool->insert >= &pool->pool[POOL_SIZE]`. -/
def full (N : ℕ) (p : ArcAutoreleasePool Obj) : Bool := p.base + N ≤ p.insert

/-- `stopAt >= (void *)pool->pool && stopAt < (void *)&pool->pool[POOL_SIZE]`. -/
def holds (N : ℕ) (p : ArcAutoreleasePool Obj) (stopAt : ℕ) : Bool :=
  p.base ≤ stopAt && stopAt < p.base + N

end ArcAutoreleasePool

section Model

variable (N : ℕ) (calloc : List ℕ → ℕ)

/-- The block shared by `autorelease` (lines 593–600) and `objc_autoreleasePoolPush`
    (lines 668–675): a new page if there is none or the newest is full. -/
def poolWithRoom (pool : List (ArcAutoreleasePool Obj)) : List (ArcAutoreleasePool Obj) :=
  match pool with
  | [] => [⟨calloc [], []⟩]
  | p :: previous =>
    if p.full N then ⟨calloc ((p :: previous).map (·.base)), []⟩ :: p :: previous
    else p :: previous

/-- `autorelease` (lines 585–604): `*pool->insert = obj; pool->insert++`. -/
def autorelease (tls : ArcTls Obj) (obj : Obj) : ArcTls Obj :=
  match poolWithRoom N calloc tls.pool with
  | [] => tls
  | p :: previous => { tls with pool := { p with objs := obj :: p.objs } :: previous }

/-- `objc_autorelease` (lines 712–719). -/
def objcAutorelease (tls : ArcTls Obj) : Option Obj → ArcTls Obj
  | none => tls
  | some obj => autorelease N calloc tls obj

/-- The promotion of the return-retained object at the head of `objc_autoreleasePoolPush`
    (lines 661–665). -/
def promoteReturnRetained (tls : ArcTls Obj) : ArcTls Obj :=
  match tls.returnRetained with
  | none => tls
  | some obj => { autorelease N calloc tls obj with returnRetained := none }

/-- `objc_autoreleasePoolPush` (lines 654–680): the new chain and the token returned. -/
def autoreleasePoolPush (tls : ArcTls Obj) : ArcTls Obj × ℕ :=
  let tls := promoteReturnRetained N calloc tls
  let pool := poolWithRoom N calloc tls.pool
  ({ tls with pool := pool }, (pool.head?.map (·.insert)).getD 0)

/-- `while (insert > stopAt && insert > pool->pool) { --insert; release(*insert); }`
    (lines 180–185) on the entries of one page: what is released, in order, and what stays. -/
def releaseDownTo (base stopAt : ℕ) : List Obj → List Obj × List Obj
  | [] => ([], [])
  | o :: os =>
    if stopAt < base + (os.length + 1) then
      let r := releaseDownTo base stopAt os
      (o :: r.1, r.2)
    else ([], o :: os)

/-- `emptyPool` (lines 133–190): the new chain and the objects released, in order. The
    `do … while` loop runs once, as the releases modelled here push no pages. -/
def emptyPool (tls : ArcTls Obj) (stopAt : ℕ) : ArcTls Obj × List Obj :=
  let isStop : ArcAutoreleasePool Obj → Bool := fun p => stopAt != 0 && p.holds N stopAt
  if stopAt ≠ 0 ∧ ¬ tls.pool.any isStop then (tls, [])
  else
    let upper := tls.pool.takeWhile (fun p => !isStop p)
    match tls.pool.dropWhile (fun p => !isStop p) with
    | [] => ({ tls with pool := [] }, upper.flatMap (·.objs))
    | p :: previous =>
      let r := releaseDownTo p.base stopAt p.objs
      ({ tls with pool := { p with objs := r.2 } :: previous }, upper.flatMap (·.objs) ++ r.1)

/-- `objc_autoreleasePoolPop` (lines 681–694). -/
def autoreleasePoolPop (tls : ArcTls Obj) (pool : ℕ) : ArcTls Obj × List Obj :=
  if tls.pool = [] then (tls, []) else emptyPool N tls pool

/-- `objc_retainAutoreleasedReturnValue` (lines 736–765): the new chain, and whether the
    object was taken back; otherwise `objc_retain` was called. On an empty page `insert - 1`
    is the page's own `insert` field, whose value is an address inside the page and so not
    an object. -/
def retainAutoreleasedReturnValue [DecidableEq Obj] (tls : ArcTls Obj) (obj : Option Obj) :
    ArcTls Obj × Bool :=
  match tls.pool with
  | p :: previous =>
    match p.objs with
    | o :: os =>
      if some o = obj then ({ tls with pool := { p with objs := os } :: previous }, true)
      else (tls, false)
    | [] => (tls, false)
  | [] => (tls, false)

end Model

/-! ## Runs of a thread -/

/-- What a thread does with its pools, as seen from outside. -/
inductive PoolEvent (Obj : Type) where
  | pushed
  | autoreleased (obj : Obj)
  | reclaimed (obj : Obj)
  | retained (obj : Obj)
  | released (obj : Obj)
  | popped
  deriving DecidableEq

/-- The calls of a thread. A `pop` pops the innermost pool that is still open. -/
inductive PoolCall (Obj : Type) where
  | push
  | autorelease (obj : Option Obj)
  | retainAutoreleasedReturnValue (obj : Option Obj)
  | pop
  deriving DecidableEq

/-- A thread: its `arc_tls`, the tokens of the open pools, innermost first, and the history,
    newest event first. -/
structure PoolThread (Obj : Type) where
  tls : ArcTls Obj
  tokens : List ℕ
  history : List (PoolEvent Obj)
  deriving DecidableEq

def PoolThread.initial : PoolThread Obj := ⟨⟨[], none⟩, [], []⟩

/-- One call. -/
def PoolThread.next [DecidableEq Obj] (N : ℕ) (calloc : List ℕ → ℕ) (s : PoolThread Obj) :
    PoolCall Obj → PoolThread Obj
  | .push =>
    let r := autoreleasePoolPush N calloc s.tls
    ⟨r.1, r.2 :: s.tokens, .pushed :: (s.tls.returnRetained.toList.map .autoreleased ++ s.history)⟩
  | .autorelease obj =>
    ⟨objcAutorelease N calloc s.tls obj, s.tokens, obj.toList.map .autoreleased ++ s.history⟩
  | .retainAutoreleasedReturnValue obj =>
    let r := Libobjc2.Memory.retainAutoreleasedReturnValue s.tls obj
    ⟨r.1, s.tokens,
      obj.toList.map (if r.2 then .reclaimed else .retained) ++ s.history⟩
  | .pop =>
    match s.tokens with
    | [] => s
    | token :: tokens =>
      let r := autoreleasePoolPop N s.tls token
      ⟨r.1, tokens, .popped :: (r.2.reverse.map .released ++ s.history)⟩

/-! ## Specification: the objects each open pool owes a release -/

/-- Cancel the newest pending autorelease of `obj`. -/
def cancelNewest [DecidableEq Obj] (obj : Obj) : List (List Obj) → List (List Obj)
  | [] => []
  | scope :: outer => if obj ∈ scope then scope.erase obj :: outer else scope :: cancelNewest obj outer

/-- For each open pool, innermost first, and last for the code outside all pools: the objects
    autoreleased while it was innermost and not reclaimed since, newest first. It is read off
    the history alone. -/
def scopes [DecidableEq Obj] : List (PoolEvent Obj) → List (List Obj)
  | [] => [[]]
  | .pushed :: h => [] :: scopes h
  | .popped :: h => (scopes h).tail
  | .autoreleased obj :: h =>
    match scopes h with
    | [] => []
    | scope :: outer => (obj :: scope) :: outer
  | .reclaimed obj :: h => cancelNewest obj (scopes h)
  | .retained _ :: h | .released _ :: h => scopes h

/-- The entries of a chain of pages, newest first. -/
def entries (pool : List (ArcAutoreleasePool Obj)) : List Obj := pool.flatMap (·.objs)

/-- A pop in state `s` releases exactly the objects of the innermost scope, newest first, and
    leaves those of the outer scopes. -/
def PopScoped [DecidableEq Obj] (N : ℕ) (s : PoolThread Obj) : Prop :=
  ∀ token tokens, s.tokens = token :: tokens →
    (autoreleasePoolPop N s.tls token).2 = (scopes s.history).headD [] ∧
    entries (autoreleasePoolPop N s.tls token).1.pool = (scopes s.history).tail.flatten

/-- The newest page does not hold the innermost token above its insertion point. -/
def InsertAboveToken (N : ℕ) (s : PoolThread Obj) : Prop :=
  ∀ p ∈ s.tls.pool.head?, ∀ token ∈ s.tokens.head?, p.holds N token → token ≤ p.insert

instance (N : ℕ) (s : PoolThread Obj) : Decidable (InsertAboveToken N s) :=
  inferInstanceAs (Decidable (∀ p ∈ s.tls.pool.head?, ∀ token ∈ s.tokens.head?,
    p.holds N token → token ≤ p.insert))

/-- Every autorelease happens at or above the innermost token. -/
def CallOk (N : ℕ) (s : PoolThread Obj) : PoolCall Obj → Prop
  | .autorelease (some _) => InsertAboveToken N s
  | _ => True

instance CallOk.decidable (N : ℕ) (s : PoolThread Obj) :
    ∀ call : PoolCall Obj, Decidable (CallOk N s call)
  | .autorelease (some _) => inferInstanceAs (Decidable (InsertAboveToken N s))
  | .autorelease none | .push | .retainAutoreleasedReturnValue _ | .pop => isTrue trivial

/-! ## Emptying a chain of pages -/

/-- `calloc` returns a page that is not `NULL` and overlaps no live page. -/
def CallocFresh (N : ℕ) (calloc : List ℕ → ℕ) : Prop :=
  ∀ bases, 0 < calloc bases ∧ ∀ b ∈ bases, calloc bases + N ≤ b ∨ b + N ≤ calloc bases

/-- The chain is well formed: the pages do not overlap, and all but the newest are full. -/
def PagesOk (N : ℕ) : List (ArcAutoreleasePool Obj) → Prop
  | [] => True
  | p :: previous =>
    (p.objs.length ≤ N ∧ 0 < p.base) ∧
    (∀ q ∈ previous, q.objs.length = N ∧ (p.base + N ≤ q.base ∨ q.base + N ≤ p.base)) ∧
    PagesOk N previous

/-- The addresses of the pages, oldest first. -/
def bases (pool : List (ArcAutoreleasePool Obj)) : List ℕ := (pool.map (·.base)).reverse

theorem entries_append (xs ys : List (ArcAutoreleasePool Obj)) :
    entries (xs ++ ys) = entries xs ++ entries ys := by
  simp [entries]

theorem PagesOk.append_right {N : ℕ} {ys : List (ArcAutoreleasePool Obj)} :
    ∀ {xs : List (ArcAutoreleasePool Obj)}, PagesOk N (xs ++ ys) → PagesOk N ys
  | [], h => h
  | _ :: _, h => PagesOk.append_right h.2.2

theorem PagesOk.disjoint {N : ℕ} {lower : List (ArcAutoreleasePool Obj)} {pg : ArcAutoreleasePool Obj} :
    ∀ {upper : List (ArcAutoreleasePool Obj)}, PagesOk N (upper ++ pg :: lower) →
      ∀ q ∈ upper, q.base + N ≤ pg.base ∨ pg.base + N ≤ q.base
  | [], _, q, hq => by simp at hq
  | p :: upper, h, q, hq => by
    rcases List.mem_cons.mp hq with rfl | hq
    · exact (h.2.1 pg (by simp)).2
    · exact PagesOk.disjoint h.2.2 q hq

/-- A page below another one is full. -/
theorem PagesOk.full_of_upper {N : ℕ} {lower : List (ArcAutoreleasePool Obj)}
    {pg : ArcAutoreleasePool Obj} :
    ∀ {upper : List (ArcAutoreleasePool Obj)}, PagesOk N (upper ++ pg :: lower) → upper ≠ [] →
      pg.objs.length = N
  | [], _, h => absurd rfl h
  | _ :: _, h, _ => (h.2.1 pg (by simp)).1

theorem PagesOk.length_entries_tail {N : ℕ} {p : ArcAutoreleasePool Obj}
    {previous : List (ArcAutoreleasePool Obj)} (h : PagesOk N (p :: previous)) :
    (entries previous).length = previous.length * N := by
  have hfull : ∀ q ∈ previous, q.objs.length = N := fun q hq => (h.2.1 q hq).1
  clear h
  induction previous with
  | nil => simp [entries]
  | cons q previous ih =>
    have := ih fun r hr => hfull r (by simp [hr])
    simp only [entries, List.flatMap_cons, List.length_append, List.length_cons] at this ⊢
    rw [this, hfull q (by simp)]
    ring

theorem releaseDownTo_eq (base stopAt : ℕ) :
    ∀ objs : List Obj, releaseDownTo base stopAt objs =
      (objs.take (objs.length - (stopAt - base)), objs.drop (objs.length - (stopAt - base)))
  | [] => by simp [releaseDownTo]
  | o :: os => by
    rw [releaseDownTo]
    split_ifs with h
    · have e : (o :: os).length - (stopAt - base) = os.length - (stopAt - base) + 1 := by
        simp only [List.length_cons]; omega
      rw [releaseDownTo_eq base stopAt os, e]
      simp
    · have e : (o :: os).length - (stopAt - base) = 0 := by
        simp only [List.length_cons]; omega
      rw [e]
      simp

/-- `emptyPool` with a stop address inside the page `pg`. -/
theorem emptyPool_split {N : ℕ} {tls : ArcTls Obj} {upper lower : List (ArcAutoreleasePool Obj)}
    {pg : ArcAutoreleasePool Obj} {token : ℕ} (hpool : tls.pool = upper ++ pg :: lower)
    (hok : PagesOk N tls.pool) (h1 : pg.base ≤ token) (h2 : token < pg.base + N) :
    emptyPool N tls token =
      ({ tls with pool :=
          { pg with objs := pg.objs.drop (pg.objs.length - (token - pg.base)) } :: lower },
        entries upper ++ pg.objs.take (pg.objs.length - (token - pg.base))) := by
  rw [hpool] at hok
  have hpos : 0 < pg.base := (PagesOk.append_right hok).1.2
  have hstop : (token != 0 && pg.holds N token) = true := by
    simp [ArcAutoreleasePool.holds]; omega
  have hupper : ∀ q ∈ upper, (!(token != 0 && q.holds N token)) = true := by
    intro q hq
    have := hok.disjoint q hq
    simp [ArcAutoreleasePool.holds]; omega
  have hany : tls.pool.any (fun p => token != 0 && p.holds N token) = true := by
    rw [hpool, List.any_eq_true]
    exact ⟨pg, by simp, hstop⟩
  unfold emptyPool
  simp only
  rw [if_neg (by simp [hany]), hpool, List.takeWhile_append_of_pos hupper,
    List.dropWhile_append_of_pos hupper,
    List.takeWhile_cons_of_neg (by simpa using hstop), List.dropWhile_cons_of_neg (by simpa using hstop)]
  simp [releaseDownTo_eq, entries]

/-- The page a position in `bases` stands for. -/
theorem exists_split_of_bases {pool : List (ArcAutoreleasePool Obj)} {d b : ℕ}
    (h : (bases pool)[d]? = some b) :
    ∃ upper pg lower, pool = upper ++ pg :: lower ∧ lower.length = d ∧ pg.base = b := by
  rw [bases, ← List.map_reverse, List.getElem?_map, Option.map_eq_some_iff] at h
  obtain ⟨pg, hpg, rfl⟩ := h
  obtain ⟨hlt, hget⟩ := List.getElem?_eq_some_iff.mp hpg
  refine ⟨(pool.reverse.drop (d + 1)).reverse, pg, (pool.reverse.take d).reverse, ?_, ?_, rfl⟩
  · rw [← List.reverse_inj]
    simp only [List.reverse_append, List.reverse_cons, List.reverse_reverse, List.append_assoc,
      List.singleton_append]
    rw [← hget, ← List.drop_eq_getElem_cons hlt, List.take_append_drop]
  · simp only [List.length_reverse] at hlt
    simp; omega

/-- **Popping a token.** A token at position `n` (page `d` of the chain, counted from the
oldest, with all older pages full) makes `emptyPool` release everything above the oldest `n`
entries, newest first, and keep those. -/
theorem emptyPool_spec {N : ℕ} {tls : ArcTls Obj} {d b token : ℕ} (hok : PagesOk N tls.pool)
    (hd : (bases tls.pool)[d]? = some b) (h1 : b ≤ token) (h2 : token < b + N) :
    (emptyPool N tls token).2 =
        (entries tls.pool).take ((entries tls.pool).length - (d * N + (token - b))) ∧
      entries (emptyPool N tls token).1.pool =
        (entries tls.pool).drop ((entries tls.pool).length - (d * N + (token - b))) ∧
      PagesOk N (emptyPool N tls token).1.pool ∧
      bases (emptyPool N tls token).1.pool = (bases tls.pool).take (d + 1) ∧
      (emptyPool N tls token).1.returnRetained = tls.returnRetained := by
  obtain ⟨upper, pg, lower, hpool, rfl, rfl⟩ := exists_split_of_bases hd
  rw [emptyPool_split hpool hok h1 h2]
  have hok' := hok
  rw [hpool] at hok'
  have hpg := PagesOk.append_right hok'
  have hlow := hpg.length_entries_tail
  -- the number of entries above the token
  have hcount : (entries tls.pool).length - (lower.length * N + (token - pg.base)) =
      (entries upper).length + (pg.objs.length - (token - pg.base)) := by
    rw [hpool, entries_append, List.length_append]
    rw [show entries (pg :: lower) = pg.objs ++ entries lower by simp [entries], List.length_append,
      hlow]
    rcases eq_or_ne upper [] with rfl | hne
    · simp [entries]; omega
    · have := hok'.full_of_upper hne
      omega
  rw [hcount, hpool, entries_append, show entries (pg :: lower) = pg.objs ++ entries lower by
    simp [entries]]
  refine ⟨?_, ?_, ?_, ?_, rfl⟩
  · rw [List.take_length_add_append, List.take_append_of_le_length (by omega)]
  · rw [List.drop_length_add_append, List.drop_append_of_le_length (by omega)]
    simp [entries]
  · refine ⟨⟨?_, hpg.1.2⟩, hpg.2⟩
    have := hpg.1.1
    simp; omega
  · simp [bases, List.take_append]

/-! ## Adding and taking back an entry -/

theorem poolWithRoom_spec {N : ℕ} {calloc : List ℕ → ℕ} (hN : 0 < N) (hc : CallocFresh N calloc)
    {pool : List (ArcAutoreleasePool Obj)} (hok : PagesOk N pool) :
    ∃ p previous, poolWithRoom N calloc pool = p :: previous ∧ p.objs.length < N ∧
      PagesOk N (p :: previous) ∧ entries (p :: previous) = entries pool ∧
      bases pool <+: bases (p :: previous) := by
  unfold poolWithRoom
  cases pool with
  | nil =>
    exact ⟨_, _, rfl, hN, ⟨⟨by simp, (hc []).1⟩, by simp, trivial⟩, by simp [entries], by simp [bases]⟩
  | cons p previous =>
    simp only
    have hp : p.full N = true ↔ N ≤ p.objs.length := by
      simp [ArcAutoreleasePool.full, ArcAutoreleasePool.insert]
    split_ifs with h
    · have hlen : p.objs.length = N := le_antisymm hok.1.1 (hp.mp h)
      refine ⟨_, _, rfl, hN, ⟨⟨by simp, (hc _).1⟩, ?_, hok⟩, by simp [entries], by simp [bases]⟩
      intro q hq
      refine ⟨?_, (hc _).2 q.base (List.mem_map_of_mem hq)⟩
      rcases List.mem_cons.mp hq with rfl | hq
      · exact hlen
      · exact (hok.2.1 q hq).1
    · have hlt : p.objs.length < N := by
        by_contra hge
        exact h (hp.mpr (by omega))
      exact ⟨p, previous, rfl, hlt, hok, rfl, List.prefix_refl _⟩

theorem autorelease_spec {N : ℕ} {calloc : List ℕ → ℕ} (hN : 0 < N) (hc : CallocFresh N calloc)
    {tls : ArcTls Obj} (hok : PagesOk N tls.pool) (obj : Obj) :
    PagesOk N (autorelease N calloc tls obj).pool ∧
      entries (autorelease N calloc tls obj).pool = obj :: entries tls.pool ∧
      bases tls.pool <+: bases (autorelease N calloc tls obj).pool ∧
      (autorelease N calloc tls obj).returnRetained = tls.returnRetained := by
  obtain ⟨p, previous, heq, hlt, hok', hent, hpre⟩ := poolWithRoom_spec hN hc hok
  unfold autorelease
  rw [heq, ← hent]
  refine ⟨⟨⟨?_, hok'.1.2⟩, hok'.2⟩, by simp [entries], ?_, rfl⟩
  · simpa using hlt
  · simpa [bases] using hpre

/-- `push` returns a token at the current number of entries. -/
theorem autoreleasePoolPush_spec {N : ℕ} {calloc : List ℕ → ℕ} (hN : 0 < N)
    (hc : CallocFresh N calloc) {tls : ArcTls Obj} (hok : PagesOk N tls.pool)
    (hret : tls.returnRetained = none) :
    ∃ b, PagesOk N (autoreleasePoolPush N calloc tls).1.pool ∧
      entries (autoreleasePoolPush N calloc tls).1.pool = entries tls.pool ∧
      bases tls.pool <+: bases (autoreleasePoolPush N calloc tls).1.pool ∧
      (autoreleasePoolPush N calloc tls).1.returnRetained = none ∧
      (bases (autoreleasePoolPush N calloc tls).1.pool)[
        (autoreleasePoolPush N calloc tls).1.pool.length - 1]? = some b ∧
      b ≤ (autoreleasePoolPush N calloc tls).2 ∧ (autoreleasePoolPush N calloc tls).2 < b + N ∧
      ((autoreleasePoolPush N calloc tls).1.pool.length - 1) * N +
        ((autoreleasePoolPush N calloc tls).2 - b) = (entries tls.pool).length := by
  obtain ⟨p, previous, heq, hlt, hok', hent, hpre⟩ := poolWithRoom_spec hN hc hok
  have hpush : autoreleasePoolPush N calloc tls = ({ tls with pool := p :: previous }, p.insert) := by
    simp [autoreleasePoolPush, promoteReturnRetained, hret, heq]
  rw [hpush]
  have hlow := hok'.length_entries_tail
  refine ⟨p.base, hok', hent, hpre, hret, by simp [bases], ?_, ?_, ?_⟩
  · simp [ArcAutoreleasePool.insert]
  · simp only [ArcAutoreleasePool.insert]; omega
  · rw [← hent, show entries (p :: previous) = p.objs ++ entries previous by simp [entries],
      List.length_append, hlow]
    simp only [ArcAutoreleasePool.insert, List.length_cons, Nat.add_sub_cancel]
    omega

theorem retainAutoreleasedReturnValue_spec [DecidableEq Obj] {N : ℕ} {tls : ArcTls Obj}
    (hok : PagesOk N tls.pool) (obj : Option Obj) :
    (∃ o, obj = some o ∧ (retainAutoreleasedReturnValue tls obj).2 = true ∧
      entries tls.pool = o :: entries (retainAutoreleasedReturnValue tls obj).1.pool ∧
      PagesOk N (retainAutoreleasedReturnValue tls obj).1.pool ∧
      bases (retainAutoreleasedReturnValue tls obj).1.pool = bases tls.pool ∧
      (retainAutoreleasedReturnValue tls obj).1.returnRetained = tls.returnRetained) ∨
    ((retainAutoreleasedReturnValue tls obj).2 = false ∧
      (retainAutoreleasedReturnValue tls obj).1 = tls) := by
  obtain ⟨pool, ret⟩ := tls
  unfold retainAutoreleasedReturnValue
  cases pool with
  | nil => exact Or.inr ⟨rfl, rfl⟩
  | cons p previous =>
    obtain ⟨b, objs⟩ := p
    cases objs with
    | nil => exact Or.inr ⟨rfl, rfl⟩
    | cons o os =>
      simp only
      split_ifs with h
      · subst h
        left
        refine ⟨o, rfl, rfl, by simp [entries], ⟨⟨?_, hok.1.2⟩, hok.2⟩, by simp [bases], rfl⟩
        have := hok.1.1
        simp only [List.length_cons] at this ⊢
        omega
      · exact Or.inr ⟨rfl, rfl⟩

/-! ## The invariant -/

/-- Every open pool's token lies in a live page, in pages of non-increasing age, at the
    position `n` where its scope begins; or the scope is empty and begins below `n`, because
    objects of outer pools were taken back since. `D` bounds the age of the page, and the
    lists are the tokens and scopes, innermost first. -/
def TokensOk (N : ℕ) (bs : List ℕ) : ℕ → List ℕ → List (List Obj) → Prop
  | _, [], scs => scs.length = 1
  | _, _ :: _, [] => False
  | D, token :: tokens, sc :: scs =>
    ∃ d b, d ≤ D ∧ bs[d]? = some b ∧ b ≤ token ∧ token < b + N ∧
      (d * N + (token - b) = scs.flatten.length ∨
        (scs.flatten.length < d * N + (token - b) ∧ sc = [])) ∧
      TokensOk N bs d tokens scs

theorem TokensOk.mono {N : ℕ} {bs bs' : List ℕ} :
    ∀ {D D' : ℕ} {tokens : List ℕ} {scs : List (List Obj)}, TokensOk N bs D tokens scs → D ≤ D' →
      (∀ d ≤ D, ∀ b, bs[d]? = some b → bs'[d]? = some b) → TokensOk N bs' D' tokens scs
  | _, _, [], _, h, _, _ => h
  | _, _, _ :: _, [], h, _, _ => h.elim
  | _, _, _ :: _, _ :: _, ⟨d, b, hd, hb, h1, h2, h3, h4⟩, hD, hbs =>
    ⟨d, b, hd.trans hD, hbs d hd b hb, h1, h2, h3,
      h4.mono le_rfl fun e he => hbs e (he.trans hd)⟩

theorem TokensOk.of_prefix {N D : ℕ} {bs bs' : List ℕ} {tokens : List ℕ} {scs : List (List Obj)}
    (h : TokensOk N bs D tokens scs) (hpre : bs <+: bs') : TokensOk N bs' D tokens scs := by
  refine h.mono le_rfl fun d _ b hb => ?_
  obtain ⟨t, rfl⟩ := hpre
  rw [List.getElem?_append_left (List.getElem?_eq_some_iff.mp hb).1, hb]

theorem TokensOk.ne_nil {N D : ℕ} {bs : List ℕ} {tokens : List ℕ} {scs : List (List Obj)}
    (h : TokensOk N bs D tokens scs) : scs ≠ [] := by
  rintro rfl
  cases tokens <;> simp [TokensOk] at h

/-- Taking the newest entry back shortens the first scope that has one. -/
theorem TokensOk.cancelNewest [DecidableEq Obj] {N : ℕ} {bs : List ℕ} {obj : Obj} {rest : List Obj} :
    ∀ {D : ℕ} {tokens : List ℕ} {scs : List (List Obj)}, TokensOk N bs D tokens scs →
      scs.flatten = obj :: rest →
      TokensOk N bs D tokens (cancelNewest obj scs) ∧
        (Libobjc2.Memory.cancelNewest obj scs).flatten = rest
  | _, _, [], _, h => by simp at h
  | _, tokens, (o :: os) :: scs, hT, h => by
    obtain ⟨rfl, hrest⟩ : o = obj ∧ os ++ scs.flatten = rest := by simpa using h
    have e : Libobjc2.Memory.cancelNewest o ((o :: os) :: scs) = os :: scs := by
      simp [Libobjc2.Memory.cancelNewest]
    rw [e]
    refine ⟨?_, by simpa using hrest⟩
    cases tokens with
    | nil => exact hT
    | cons token tokens =>
      obtain ⟨d, b, hd, hb, h1, h2, h3, h4⟩ := hT
      refine ⟨d, b, hd, hb, h1, h2, ?_, h4⟩
      rcases h3 with h3 | ⟨_, h3⟩
      · exact Or.inl h3
      · cases h3
  | _, [], [] :: scs, hT, h => by
    have : scs = [] := List.length_eq_zero_iff.mp (by simpa [TokensOk] using hT)
    subst this
    simp at h
  | _, token :: tokens, [] :: scs, ⟨d, b, hd, hb, h1, h2, h3, h4⟩, h => by
    have h' : scs.flatten = obj :: rest := by simpa using h
    obtain ⟨ih1, ih2⟩ := TokensOk.cancelNewest h4 h'
    have e : Libobjc2.Memory.cancelNewest obj ([] :: scs) =
        [] :: Libobjc2.Memory.cancelNewest obj scs := by
      simp [Libobjc2.Memory.cancelNewest]
    rw [e]
    refine ⟨⟨d, b, hd, hb, h1, h2, Or.inr ⟨?_, rfl⟩, ih1⟩, by simpa using ih2⟩
    rw [ih2]
    have : scs.flatten.length = rest.length + 1 := by rw [h']; rfl
    omega

/-- What holds between the pages, the tokens and the history in every run that autoreleases
    only at or above the innermost token. -/
structure PoolInv [DecidableEq Obj] (N : ℕ) (s : PoolThread Obj) : Prop where
  pages : PagesOk N s.tls.pool
  noReturn : s.tls.returnRetained = none
  entries_eq : entries s.tls.pool = (scopes s.history).flatten
  tokens : TokensOk N (bases s.tls.pool) (s.tls.pool.length - 1) s.tokens (scopes s.history)

theorem length_bases (pool : List (ArcAutoreleasePool Obj)) : (bases pool).length = pool.length := by
  simp [bases]

/-- The position of the innermost token is at most the number of entries exactly when the
    insertion point is not below it. -/
theorem position_le_length_entries {N : ℕ} {s : PoolThread Obj} {d b token : ℕ}
    (hok : PagesOk N s.tls.pool) (htok : token ∈ s.tokens.head?)
    (hd : d ≤ s.tls.pool.length - 1) (hb : (bases s.tls.pool)[d]? = some b) (h1 : b ≤ token)
    (h2 : token < b + N) (habove : InsertAboveToken N s) :
    d * N + (token - b) ≤ (entries s.tls.pool).length := by
  obtain ⟨upper, pg, lower, hpool, rfl, rfl⟩ := exists_split_of_bases hb
  rw [hpool] at hok ⊢
  have hlow := (PagesOk.append_right hok).length_entries_tail
  rw [entries_append, show entries (pg :: lower) = pg.objs ++ entries lower by simp [entries],
    List.length_append, List.length_append, hlow]
  rcases eq_or_ne upper [] with rfl | hne
  · -- the token lies in the newest page
    have := habove pg (by simp [hpool]) token htok (by simp [ArcAutoreleasePool.holds, h1, h2])
    simp only [ArcAutoreleasePool.insert] at this
    omega
  · have := hok.full_of_upper hne
    omega

section Steps

variable [DecidableEq Obj] {N : ℕ} {calloc : List ℕ → ℕ} {s : PoolThread Obj}

theorem poolInv_initial : PoolInv N (PoolThread.initial : PoolThread Obj) :=
  ⟨trivial, rfl, by simp [PoolThread.initial, entries, scopes],
    by simp [PoolThread.initial, scopes, TokensOk]⟩

theorem poolInv_push (hN : 0 < N) (hc : CallocFresh N calloc) (h : PoolInv N s) :
    PoolInv N (s.next N calloc .push) := by
  obtain ⟨b, hpages, hent, hpre, hret, hb, h1, h2, hpos⟩ :=
    autoreleasePoolPush_spec hN hc h.pages h.noReturn
  have hhist : (s.next N calloc .push).history = .pushed :: s.history := by
    simp [PoolThread.next, h.noReturn]
  have htls : (s.next N calloc .push).tls = (autoreleasePoolPush N calloc s.tls).1 := rfl
  refine ⟨hpages, hret, ?_, ?_⟩
  · rw [hhist, htls, hent, h.entries_eq]
    simp [scopes]
  · rw [hhist, htls]
    refine ⟨_, b, le_rfl, hb, h1, h2, Or.inl ?_, ?_⟩
    · rw [hpos, h.entries_eq]
    · refine (h.tokens.of_prefix hpre).mono ?_ fun _ _ _ hx => hx
      have := hpre.length_le
      rw [length_bases, length_bases] at this
      omega

theorem poolInv_autorelease (hN : 0 < N) (hc : CallocFresh N calloc) (h : PoolInv N s) (obj : Obj)
    (habove : InsertAboveToken N s) : PoolInv N (s.next N calloc (.autorelease (some obj))) := by
  obtain ⟨hpages, hent, hpre, hret⟩ := autorelease_spec hN hc h.pages obj
  obtain ⟨sc, scs, hscs⟩ := List.exists_cons_of_ne_nil h.tokens.ne_nil
  have hsc' : scopes (s.next N calloc (.autorelease (some obj))).history = (obj :: sc) :: scs := by
    simp [PoolThread.next, scopes, hscs]
  have hlen : s.tls.pool.length ≤ (autorelease N calloc s.tls obj).pool.length := by
    have := hpre.length_le
    rwa [length_bases, length_bases] at this
  refine ⟨hpages, hret.trans h.noReturn, ?_, ?_⟩
  · rw [hsc', show (s.next N calloc (.autorelease (some obj))).tls =
      autorelease N calloc s.tls obj from rfl, hent, h.entries_eq, hscs]
    simp
  · rw [hsc']
    have htok := h.tokens.of_prefix hpre
    rw [hscs] at htok
    simp only [PoolThread.next, objcAutorelease]
    cases htk : s.tokens with
    | nil => simpa [htk, TokensOk] using htok
    | cons token tokens =>
      have htok0 := h.tokens
      rw [htk, hscs] at htok0
      obtain ⟨d0, b0, hd0, hb0, h10, h20, h30, h40⟩ := htok0
      have hle := position_le_length_entries h.pages (by simp [htk]) hd0 hb0 h10 h20 habove
      refine ⟨d0, b0, by omega, ?_, h10, h20, Or.inl ?_, h40.of_prefix hpre⟩
      · obtain ⟨t, ht⟩ := hpre
        rw [← ht, List.getElem?_append_left (List.getElem?_eq_some_iff.mp hb0).1, hb0]
      · -- an empty scope that began below the token would put the insertion point below it
        rcases h30 with h3 | ⟨h3, hnil⟩
        · exact h3
        · rw [h.entries_eq, hscs, hnil] at hle
          simp only [List.flatten_cons, List.nil_append] at hle
          omega

theorem poolInv_retainAutoreleasedReturnValue (h : PoolInv N s) (obj : Option Obj) :
    PoolInv N (s.next N calloc (.retainAutoreleasedReturnValue obj)) := by
  rcases retainAutoreleasedReturnValue_spec h.pages obj with
    ⟨o, rfl, h1, hent, hpages, hbases, hret⟩ | ⟨h1, h2⟩
  · have hflat : (scopes s.history).flatten =
        o :: entries (retainAutoreleasedReturnValue s.tls (some o)).1.pool := by
      rw [← h.entries_eq, hent]
    obtain ⟨hT, hflat'⟩ := h.tokens.cancelNewest hflat
    have hlen : (retainAutoreleasedReturnValue s.tls (some o)).1.pool.length = s.tls.pool.length := by
      rw [← length_bases, hbases, length_bases]
    have hsc : scopes (s.next N calloc (.retainAutoreleasedReturnValue (some o))).history =
        cancelNewest o (scopes s.history) := by
      simp [PoolThread.next, h1, scopes]
    refine ⟨hpages, hret.trans h.noReturn, ?_, ?_⟩
    · rw [hsc, hflat']
      rfl
    · rw [hsc]
      simp only [PoolThread.next]
      rw [hbases, hlen]
      exact hT
  · have hsc : scopes (s.next N calloc (.retainAutoreleasedReturnValue obj)).history =
        scopes s.history := by
      cases obj <;> simp [PoolThread.next, h1, scopes]
    have htls : (s.next N calloc (.retainAutoreleasedReturnValue obj)).tls = s.tls := h2
    refine ⟨?_, ?_, ?_, ?_⟩
    · rw [htls]; exact h.pages
    · rw [htls]; exact h.noReturn
    · rw [htls, hsc]; exact h.entries_eq
    · rw [htls, hsc]; exact h.tokens

theorem scopes_released (objs : List Obj) (hist : List (PoolEvent Obj)) :
    scopes (objs.map .released ++ hist) = scopes hist := by
  induction objs with
  | nil => rfl
  | cons o os ih => simpa [scopes] using ih

/-- What a pop does under the invariant. -/
theorem PoolInv.pop (h : PoolInv N s) {token : ℕ} {tokens : List ℕ} (htok : s.tokens = token :: tokens) :
    ∃ sc scs, scopes s.history = sc :: scs ∧ (autoreleasePoolPop N s.tls token).2 = sc ∧
      entries (autoreleasePoolPop N s.tls token).1.pool = scs.flatten ∧
      PagesOk N (autoreleasePoolPop N s.tls token).1.pool ∧
      (autoreleasePoolPop N s.tls token).1.returnRetained = none ∧
      TokensOk N (bases (autoreleasePoolPop N s.tls token).1.pool)
        ((autoreleasePoolPop N s.tls token).1.pool.length - 1) tokens scs := by
  obtain ⟨sc, scs, hscs⟩ := List.exists_cons_of_ne_nil h.tokens.ne_nil
  have hT := h.tokens
  rw [htok, hscs] at hT
  obtain ⟨d, b, hd, hb, h1, h2, h3, h4⟩ := hT
  have hne : s.tls.pool ≠ [] := by
    rintro hnil
    simp [bases, hnil] at hb
  obtain ⟨hrel, hent, hpages, hbases, hret⟩ := emptyPool_spec h.pages hb h1 h2
  have hpop : autoreleasePoolPop N s.tls token = emptyPool N s.tls token := by
    simp [autoreleasePoolPop, hne]
  have hflat : entries s.tls.pool = sc ++ scs.flatten := by rw [h.entries_eq, hscs]; simp
  have hcount : (entries s.tls.pool).length - (d * N + (token - b)) = sc.length := by
    rw [hflat, List.length_append]
    rcases h3 with h3 | ⟨h3, rfl⟩
    · omega
    · simp only [List.length_nil]; omega
  rw [hcount, hflat] at hrel hent
  rw [hpop]
  refine ⟨sc, scs, hscs, by simpa using hrel, by simpa using hent, hpages, hret.trans h.noReturn, ?_⟩
  have hblen : d < (bases s.tls.pool).length := (List.getElem?_eq_some_iff.mp hb).1
  refine h4.mono ?_ fun e he c hc => ?_
  · have := length_bases (emptyPool N s.tls token).1.pool
    rw [hbases, List.length_take] at this
    omega
  · rw [hbases, List.getElem?_take, if_pos (by omega), hc]

theorem poolInv_pop (h : PoolInv N s) : PoolInv N (s.next N calloc .pop) := by
  cases htok : s.tokens with
  | nil => simpa [PoolThread.next, htok] using h
  | cons token tokens =>
    obtain ⟨sc, scs, hscs, hrel, hent, hpages, hret, hT⟩ := h.pop htok
    have hsc : scopes (s.next N calloc .pop).history = scs := by
      simp only [PoolThread.next, htok, scopes, scopes_released, hscs, List.tail_cons]
    have htls : (s.next N calloc .pop).tls = (autoreleasePoolPop N s.tls token).1 := by
      simp only [PoolThread.next, htok]
    have htoks : (s.next N calloc .pop).tokens = tokens := by
      simp only [PoolThread.next, htok]
    refine ⟨?_, ?_, ?_, ?_⟩
    · rw [htls]; exact hpages
    · rw [htls]; exact hret
    · rw [htls, hsc]; exact hent
    · rw [htls, hsc, htoks]; exact hT

/-- **The step lemma.** -/
theorem poolInv_next (hN : 0 < N) (hc : CallocFresh N calloc) (h : PoolInv N s) (call : PoolCall Obj)
    (hok : CallOk N s call) : PoolInv N (s.next N calloc call) := by
  cases call with
  | push => exact poolInv_push hN hc h
  | autorelease obj =>
    cases obj with
    | none => simpa [PoolThread.next, objcAutorelease] using h
    | some obj => exact poolInv_autorelease hN hc h obj hok
  | retainAutoreleasedReturnValue obj => exact poolInv_retainAutoreleasedReturnValue h obj
  | pop => exact poolInv_pop h

end Steps

/-! ## Pools are scoped -/

/-- **Autorelease pools are scoped.** In every run of a thread from its first call on, of any
length and nesting, in which no object is autoreleased while the insertion point lies below
the innermost token: each pop releases exactly the objects autoreleased since the matching
push and not reclaimed, newest first, and leaves the older ones. -/
theorem pop_scoped [DecidableEq Obj] {N : ℕ} {calloc : List ℕ → ℕ} (hN : 0 < N)
    (hc : CallocFresh N calloc) {s : PoolThread Obj}
    (hrun : Runs (guarded (CallOk N) (PoolThread.next N calloc)) PoolThread.initial s) :
    PopScoped N s := by
  have hinv : PoolInv N s := hrun.invariant poolInv_initial fun u call u' hu hstep => by
    obtain ⟨hok, rfl⟩ := hstep
    exact poolInv_next hN hc hu call hok
  intro token tokens htok
  obtain ⟨sc, scs, hscs, hrel, hent, _⟩ := hinv.pop htok
  rw [hscs]
  exact ⟨hrel, hent⟩

/-- An allocator that puts each page behind the live ones. -/
def callocBehind (bases : List ℕ) : ℕ := bases.foldr max 0 + poolSize 8

theorem callocBehind_fresh : CallocFresh (poolSize 8) callocBehind := by
  intro bases
  refine ⟨Nat.lt_of_lt_of_le (by decide) (Nat.le_add_left _ _), fun b hb => Or.inr ?_⟩
  have : b ≤ bases.foldr max 0 := by
    induction bases with
    | nil => simp at hb
    | cons c cs ih =>
      rcases List.mem_cons.mp hb with rfl | hb
      · exact le_max_left _ _
      · exact (ih hb).trans (le_max_right _ _)
  simp only [callocBehind]
  omega

/-- Two nested pools: 2 is taken back before the inner pop, so the pops release 3 and 1. -/
theorem pop_scoped_nested :
    PopScoped (poolSize 8) (runList (PoolThread.next (poolSize 8) callocBehind) PoolThread.initial
      [.push, .autorelease (some 1), .push, .autorelease (some 3), .autorelease (some 2),
        .retainAutoreleasedReturnValue (some 2), .pop]) :=
  pop_scoped (by decide) callocBehind_fresh (runs_of_allOk _ _ (by decide))

/-- **The defect.** The outer pool's object 1 is taken back inside the inner pool, which moves
the insertion point below the inner pool's token: object 2, autoreleased into the inner pool,
then takes the freed entry and survives the inner pop. -/
theorem pop_not_scoped :
    ¬ ∀ calls : List (PoolCall ℕ),
      PopScoped (poolSize 8)
        (runList (PoolThread.next (poolSize 8) callocBehind) PoolThread.initial calls) := by
  intro h
  have hpop := (h [.push, .autorelease (some 1), .push, .retainAutoreleasedReturnValue (some 1),
    .autorelease (some 2)] 497 [496] (by decide)).1
  exact absurd hpop (by decide)

end Libobjc2.Memory
