import Libobjc2.Memory.PoolDraining

/-!
# Pools drained by objects that autorelease (`src/memory/arc.mm`, lines 133–199, 585–694)

A released object may autorelease further objects and open pools of its own, and these are
drained by the same `emptyPool`, called from inside the release. `Act` is what a release does,
a finite tree: each reference carries the calls that its release makes.

Results:
* `runActs_spec`: the calls of a release end, and leave the chain below as it was.
* `emptyPool_complete`: `emptyPool` ends, releases exactly what was above the stop point or was
  autoreleased meanwhile, frees exactly the pages above that of the stop point, and leaves the
  insertion point at the stop point or where it was below it.
* `emptyPool_token_above`: it does not move the insertion point up to a stop point above it.
-/

namespace Libobjc2.Memory.Draining.Reentrancy

/-! ## Model -/

/-- A call made while an object is released. Pools are opened and closed in a nested way. -/
inductive Act (Name : Type) where
  | autorelease (name : Name) (onRelease : List (Act Name))
  | withPool (body : List (Act Name))

/-- A reference that is to be released: to which object, and the calls that releasing it makes. -/
structure Reference (Name : Type) where
  name : Name
  onRelease : List (Act Name)

variable {Name : Type}

abbrev State (Name : Type) := Drain (Reference Name) Unit

section Model

variable (N : ℕ) (calloc : ℕ → List ℕ → ℕ)

/-- The promotion at the head of `objc_autoreleasePoolPush` (lines 661–665). -/
def promoteReturnRetained (s : State Name) : State Name :=
  match s.tls.returnRetained with
  | none => s
  | some obj =>
    let s := s.autorelease N calloc obj
    { s with tls := { s.tls with returnRetained := none } }

/-- `objc_autoreleasePoolPush` (lines 654–680): the thread afterwards and the token. -/
def autoreleasePoolPush (s : State Name) : State Name × ℕ :=
  let s := (promoteReturnRetained N calloc s).withRoom N calloc
  (s, (s.pool.head?.map ArcAutoreleasePool.insert).getD 0)

/-- `objc_autoreleasePoolPop` (lines 681–694). -/
def autoreleasePoolPop (run : State Name → Reference Name → Option (State Name)) (fuel : ℕ) (s : State Name)
    (pool : ℕ) : Option (State Name) :=
  if s.pool = [] then some s else emptyPool N run fuel s pool

/-- Calls one after the other; undefined when `fuel` does not reach. -/
def runActs : ℕ → State Name → List (Act Name) → Option (State Name)
  | 0, _, _ => none
  | _ + 1, s, [] => some s
  | fuel + 1, s, .autorelease name onRelease :: rest =>
      runActs fuel (s.autorelease N calloc ⟨name, onRelease⟩) rest
  | fuel + 1, s, .withPool body :: rest => do
    let (s, token) := autoreleasePoolPush N calloc s
    let s ← runActs fuel s body
    let s ← autoreleasePoolPop N (fun s o => runActs fuel s o.onRelease) fuel s token
    runActs fuel s rest

/-- `release`, as far as pools are concerned. -/
def release (fuel : ℕ) (s : State Name) (o : Reference Name) : Option (State Name) :=
  runActs N calloc fuel s o.onRelease

end Model

/-- A thread about to drain its pools, when nothing is accounted for yet. -/
def start (tls : ArcTls (Reference Name)) (allocations : ℕ) : State Name :=
    ⟨tls, allocations, [], [], [], [], ()⟩

/-! ## Sizes -/

mutual

/-- What a call may leave to be done, with the steps it takes itself. -/
def Act.size : Act Name → ℕ
  | .autorelease _ onRelease => 3 + sizes onRelease
  | .withPool body => 2 + sizes body

def sizes : List (Act Name) → ℕ
  | [] => 0
  | act :: rest => act.size + sizes rest

end

def Reference.size (o : Reference Name) : ℕ := 1 + sizes o.onRelease

/-- The object in the return slot may be put into a pool, on a page of its own. -/
def slotLoad : Option (Reference Name) → Unit → ℕ
  | none, _ => 0
  | some o, _ => o.size + 1

abbrev left (s : State Name) : ℕ := remaining Reference.size slotLoad s

/-! ## Opening a pool -/

section Spec

variable {N : ℕ} {calloc : ℕ → List ℕ → ℕ}

theorem promoteReturnRetained_after (hN : 0 < N) (hc : ∀ k, CallocFresh N (calloc k)) {s : State Name}
    (hok : ChainOk N s.pool) : After Reference.size slotLoad N s (promoteReturnRetained N calloc s) 0 := by
  unfold promoteReturnRetained
  cases hslot : s.tls.returnRetained with
  | none => exact After.refl hok
  | some o =>
    have hafter := autorelease_after Reference.size slotLoad hN (hc s.allocations) hok o
    refine ⟨hafter.grown, hafter.ok, ⟨hafter.kept.refs, hafter.kept.pages⟩, ?_⟩
    have hleft := hafter.left
    unfold remaining at hleft ⊢
    rw [autorelease_returnRetained, hslot] at hleft
    rw [hslot]
    show chainSize _ (s.autorelease N calloc o).pool + 0 ≤ _
    have : slotLoad (some o) () = o.size + 1 := rfl
    have : slotLoad (some o) (s.autorelease N calloc o).world = o.size + 1 := rfl
    omega

/-- A push leaves a newest page with room, and returns its insertion point. -/
theorem autoreleasePoolPush_spec (hN : 0 < N) (hc : ∀ k, CallocFresh N (calloc k)) {s : State Name}
    (hok : ChainOk N s.pool) :
    ∃ p previous, (autoreleasePoolPush N calloc s).1.pool = p :: previous ∧ p.objs.length < N ∧
      (autoreleasePoolPush N calloc s).2 = p.insert ∧
      After Reference.size slotLoad N s (autoreleasePoolPush N calloc s).1 1 := by
  have hpromoted := promoteReturnRetained_after hN hc hok
  obtain ⟨p, previous, hroom, hlt, hok', hgrown, hkept, hsize⟩ :=
    withRoom_spec Reference.size hN (hc (promoteReturnRetained N calloc s).allocations) hpromoted.ok
  have hafter : After Reference.size slotLoad N (promoteReturnRetained N calloc s)
      ((promoteReturnRetained N calloc s).withRoom N calloc) 1 := by
    refine ⟨hroom ▸ hgrown, hroom ▸ hok', hkept, ?_⟩
    unfold remaining
    rw [hroom]
    show chainSize _ (p :: previous) + slotLoad (promoteReturnRetained N calloc s).tls.returnRetained () ≤
      chainSize _ _ + slotLoad (promoteReturnRetained N calloc s).tls.returnRetained () + 1
    omega
  refine ⟨p, previous, hroom, hlt, ?_, Nat.zero_add 1 ▸ hpromoted.trans hafter⟩
  show (((promoteReturnRetained N calloc s).withRoom N calloc).pool.head?.map
      ArcAutoreleasePool.insert).getD 0 = _
  rw [hroom]
  rfl

/-! ## The calls of a release -/

/-- A pool opened and closed again leaves the chain as it was when it was opened. -/
theorem pop_spec (hN : 0 < N) {run : State Name → Reference Name → Option (State Name)} {fuel : ℕ}
    {s s' : State Name} {p : ArcAutoreleasePool (Reference Name)}
    {previous : List (ArcAutoreleasePool (Reference Name))}
    (hrun : RunOk Reference.size slotLoad N run (left s')) (hpool : s.pool = p :: previous)
    (hlt : p.objs.length < N)
    (hgrown : Grown s.pool s'.pool) (hok : ChainOk N s'.pool) (hfuel : left s' + 3 ≤ fuel) :
    ∃ s'', autoreleasePoolPop N run fuel s' p.insert = some s'' ∧ s''.pool = s.pool ∧
    ChainOk N s''.pool ∧ Kept s' s'' ∧
      left s'' ≤ left s' := by
  obtain ⟨new, extra, hpool'⟩ := hgrown
  rw [hpool] at hpool'
  have hholds : ArcAutoreleasePool.holds N { p with objs := extra ++ p.objs } p.insert = true := by
    simp [ArcAutoreleasePool.holds, ArcAutoreleasePool.insert]
    omega
  obtain ⟨s'', hs'', hpool'', hok'', hkept, hle⟩ := emptyPool_spec hN hrun
    (fun o => Nat.lt_of_lt_of_le Nat.one_pos (Nat.le_add_right 1 _)) hpool' hok hholds le_rfl hfuel
  refine ⟨s'', ?_, ?_, hok'', hkept, hle⟩
  · unfold autoreleasePoolPop
    rw [if_neg (by rw [hpool']; simp [topped]), hs'']
  · rw [hpool'', hpool]
    simp [ArcAutoreleasePool.insert]

theorem runActs_withPool (fuel : ℕ) (s : State Name) (body rest : List (Act Name)) :
    runActs N calloc (fuel + 1) s (.withPool body :: rest) =
      (runActs N calloc fuel (autoreleasePoolPush N calloc s).1 body).bind fun t =>
        (autoreleasePoolPop N (release N calloc fuel) fuel t (autoreleasePoolPush N calloc s).2).bind fun t =>
          runActs N calloc fuel t rest := rfl

/-- Where calls end, releases do. -/
theorem release_ok {fuel m : ℕ}
    (hacts : ∀ (s : State Name) (acts : List (Act Name)), ChainOk N s.pool → left s + sizes acts + 4 ≤ fuel →
      ∃ s', runActs N calloc fuel s acts = some s' ∧ After Reference.size slotLoad N s s' (sizes acts))
    (hfuel : m + 3 ≤ fuel) : RunOk Reference.size slotLoad N (@release Name N calloc fuel) m := by
  intro s o hok hmeasure
  have hmeasure : left s + o.size ≤ m := hmeasure
  have hsize : o.size = 1 + sizes o.onRelease := rfl
  obtain ⟨s', hs', hafter⟩ := hacts s o.onRelease hok (by omega)
  refine ⟨s', hs', ?_⟩
  rw [hsize, Nat.add_sub_cancel_left]
  exact hafter

/-- Calls end when there is fuel for all that is left, and leave what is below as it was. -/
theorem runActs_spec (hN : 0 < N) (hc : ∀ k, CallocFresh N (calloc k)) : ∀ (fuel : ℕ) (s : State Name)
    (acts : List (Act Name)), ChainOk N s.pool → left s + sizes acts + 4 ≤ fuel →
    ∃ s', runActs N calloc fuel s acts = some s' ∧ After Reference.size slotLoad N s s' (sizes acts) := by
  intro fuel
  induction fuel with
  | zero => intro s acts _ hfuel; omega
  | succ fuel ih =>
    intro s acts hok hfuel
    match acts with
    | [] => exact ⟨s, rfl, After.refl hok⟩
    | .autorelease name onRelease :: rest =>
      have hafter := autorelease_after Reference.size slotLoad hN (hc s.allocations) hok ⟨name, onRelease⟩
      have hleft : left (s.autorelease N calloc ⟨name, onRelease⟩) ≤ left s + _ := hafter.left
      have hcost : sizes (.autorelease name onRelease :: rest) = 3 + sizes onRelease + sizes rest := by
        rw [sizes, Act.size]
      have hsize : Reference.size ⟨name, onRelease⟩ = 1 + sizes onRelease := rfl
      obtain ⟨s', hs', hafter'⟩ := ih (s.autorelease N calloc ⟨name, onRelease⟩) rest hafter.ok (by omega)
      have hboth := hafter.trans hafter'
      exact ⟨s', hs', hboth.grown, hboth.ok, hboth.kept, hboth.left.trans (by omega)⟩
    | .withPool body :: rest =>
      have hcost : sizes (.withPool body :: rest) = 2 + sizes body + sizes rest := by rw [sizes, Act.size]
      obtain ⟨p, previous, hpool, hlt, htoken, hpush⟩ := autoreleasePoolPush_spec hN hc hok
      have hleft : left (autoreleasePoolPush N calloc s).1 ≤ left s + 1 := hpush.left
      obtain ⟨s₁, hs₁, hbody⟩ := ih (autoreleasePoolPush N calloc s).1 body hpush.ok (by omega)
      have hleft₁ : left s₁ ≤ left (autoreleasePoolPush N calloc s).1 + sizes body := hbody.left
      have hfuel₁ : left s₁ + 3 ≤ fuel := by omega
      obtain ⟨s₂, hs₂, hpool₂, hok₂, hkept₂, hle₂⟩ := pop_spec hN (release_ok ih hfuel₁) hpool hlt
        hbody.grown hbody.ok hfuel₁
      have hle₂ : left s₂ ≤ left s₁ := hle₂
      have hleft₂ : left s₂ ≤ left s + (2 + sizes body) := by omega
      have hclosed : After Reference.size slotLoad N s s₂ (2 + sizes body) :=
        ⟨hpool₂ ▸ hpush.grown, hok₂, (hpush.kept.trans hbody.kept).trans hkept₂, hleft₂⟩
      obtain ⟨s', hs', hafter'⟩ := ih s₂ rest hok₂ (by omega)
      refine ⟨s', ?_, hcost ▸ hclosed.trans hafter'⟩
      rw [runActs_withPool, hs₁, Option.bind_some, htoken, hs₂, Option.bind_some, hs']

/-- With the fuel for all that is left, releasing is code that `emptyPool` can run. -/
theorem release_runOk (hN : 0 < N) (hc : ∀ k, CallocFresh N (calloc k)) {fuel m : ℕ} (hfuel : m + 3 ≤ fuel) :
    RunOk Reference.size slotLoad N (@release Name N calloc fuel) m :=
  release_ok (runActs_spec hN hc fuel) hfuel

/-! ## Draining -/

/-- What the accounts of a thread say that started with none: everything that was above the stop
    point, or was added, was released or freed, and nothing else. -/
theorem accounts {tls : ArcTls (Reference Name)} {k : ℕ} {s' : State Name}
    (above kept : List (ArcAutoreleasePool (Reference Name))) (objs objs' : List (Reference Name))
    (hkept : Kept (start tls k) s') (hbefore : entries tls.pool = objs ++ objs')
    (hafter : entries s'.pool = objs')
    (hpages : tls.pool.map (·.base) = above.map (·.base) ++ kept.map (·.base))
    (hpages' : s'.pool.map (·.base) = kept.map (·.base)) :
    s'.released.Perm (objs ++ s'.autoreleased) ∧ s'.freed.Perm (above.map (·.base) ++ s'.allocated) := by
  have hrefs := hkept.refs
  have hbases := hkept.pages
  rw [show entries (start tls k).pool = objs ++ objs' from hbefore, hafter] at hrefs
  rw [show (start tls k).pool.map (·.base) = above.map (·.base) ++ kept.map (·.base) from hpages,
    hpages'] at hbases
  simp only [start, Multiset.coe_nil, add_zero, ← Multiset.coe_add] at hrefs hbases
  refine ⟨Multiset.coe_eq_coe.mp ?_, Multiset.coe_eq_coe.mp ?_⟩
  · rw [← Multiset.coe_add]
    refine add_left_cancel (a := (objs' : Multiset (Reference Name))) ?_
    rw [hrefs]
    abel
  · rw [← Multiset.coe_add]
    refine add_left_cancel (a := (kept.map (·.base) : Multiset ℕ)) ?_
    rw [hbases]
    abel

/-- Draining is complete: down to a stop point in any page of the chain, or of all pages, it ends,
    having released exactly what was above or was autoreleased meanwhile and freed exactly the
    pages above or allocated meanwhile. What was below the stop point is as it was. -/
theorem emptyPool_complete (hN : 0 < N) (hc : ∀ k, CallocFresh N (calloc k))
    (tls : ArcTls (Reference Name)) (k : ℕ)
    (hok : ChainOk N tls.pool) :
    ∃ bound, ∀ fuel ≥ bound,
      (∀ upper pg lower stopAt, tls.pool = upper ++ pg :: lower → pg.holds N stopAt = true →
        ∃ s', emptyPool N (release N calloc fuel) fuel (start tls k) stopAt = some s' ∧
          s'.released.Perm (entries upper ++ pg.objs.take (pg.objs.length - (stopAt - pg.base)) ++
            s'.autoreleased) ∧
          s'.freed.Perm (upper.map (·.base) ++ s'.allocated) ∧
          s'.pool = { pg with objs := pg.objs.drop (pg.objs.length - (stopAt - pg.base)) } :: lower ∧
          s'.pool.head?.map ArcAutoreleasePool.insert = some (min stopAt pg.insert)) ∧
      ∃ s', emptyPool N (release N calloc fuel) fuel (start tls k) 0 = some s' ∧
        s'.released.Perm (entries tls.pool ++ s'.autoreleased) ∧
        s'.freed.Perm (tls.pool.map (·.base) ++ s'.allocated) ∧ s'.pool = [] := by
  refine ⟨left (start tls k) + 3, fun fuel hfuel => ⟨?_, ?_⟩⟩
  · intro upper pg lower stopAt hpool hstop
    obtain ⟨s', hs', hpool', -, hkept, -⟩ := emptyPool_spec (s := start tls k) hN
        (release_runOk hN hc hfuel) (fun o =>
      Nat.lt_of_lt_of_le Nat.one_pos (Nat.le_add_right 1 _)) hpool hok hstop le_rfl hfuel
    have hbefore : entries tls.pool = entries upper ++ pg.objs.take (pg.objs.length - (stopAt - pg.base)) ++
        (pg.objs.drop (pg.objs.length - (stopAt - pg.base)) ++ entries lower) := by
      rw [hpool, entries_append, List.append_assoc, ← List.append_assoc (pg.objs.take _),
        List.take_append_drop]
      rfl
    obtain ⟨hrefs, hpages⟩ := accounts upper (pg :: lower)
      (entries upper ++ pg.objs.take (pg.objs.length - (stopAt - pg.base)))
      (pg.objs.drop (pg.objs.length - (stopAt - pg.base)) ++ entries lower) hkept hbefore
      (by rw [hpool']; rfl)
      (by rw [hpool]; simp) (by rw [hpool']; rfl)
    refine ⟨s', hs', hrefs, hpages, hpool', ?_⟩
    rw [hpool']
    simp only [ArcAutoreleasePool.holds, Bool.and_eq_true, decide_eq_true_eq] at hstop
    simp only [List.head?_cons, Option.map_some, ArcAutoreleasePool.insert, List.length_drop,
      Option.some.injEq]
    omega
  · obtain ⟨s', hs', hpool', -, hkept, -⟩ := emptyPool_null (s := start tls k)
        (release_runOk hN hc hfuel) (fun o =>
      Nat.lt_of_lt_of_le Nat.one_pos (Nat.le_add_right 1 _)) hok le_rfl hfuel
    obtain ⟨hrefs, hpages⟩ := accounts tls.pool [] (entries tls.pool) [] hkept (by simp)
      (by rw [hpool']; rfl) (by simp) (by rw [hpool', List.map_nil])
    exact ⟨s', hs', hrefs, hpages, hpool'⟩

end Spec

/-- One object that autoreleases another, above a stop point at the base of its page. -/
theorem emptyPool_complete_page :
    ∃ bound, ∀ fuel ≥ bound, ∃ s',
      emptyPool (poolSize 8) (release (poolSize 8) (fun _ => callocBehind) fuel) fuel
        (start ⟨[⟨8, [⟨'a', [.autorelease 'b' []]⟩]⟩], none⟩ 0) 8 = some s' ∧
      s'.pool.map ArcAutoreleasePool.insert = [8] := by
  have hok : ChainOk (poolSize 8)
      [(⟨8, [⟨'a', [.autorelease 'b' []]⟩]⟩ : ArcAutoreleasePool (Reference Char))] := by
    refine ⟨List.pairwise_singleton _ _, ?_⟩
    simp [poolSize]
  obtain ⟨bound, h⟩ := emptyPool_complete (by decide) (fun _ => callocBehind_fresh) ⟨_, none⟩ 0 hok
  refine ⟨bound, fun fuel hfuel => ?_⟩
  obtain ⟨s', hs', -, -, hpool, -⟩ := (h fuel hfuel).1 [] _ [] 8 rfl (by decide)
  refine ⟨s', hs', ?_⟩
  rw [hpool]
  rfl

/-- The newer of two entries autoreleases one object, and drains a pool with another. -/
example :
    (emptyPool 4 (release 4 (fun k _ => 100 + 10 * k) 40) 40
      (start ⟨[⟨8, [⟨'b', [.autorelease 'c' [], .withPool [.autorelease 'd' []]]⟩, ⟨'a', []⟩]⟩],
        none⟩ 0) 9).map
        (fun s => (s.pool.map ArcAutoreleasePool.insert, s.released.map Reference.name)) =
      some ([9], ['c', 'd', 'b']) := by
  rfl

/-- The insertion point does not always end at the stop point: after `push` returned 9 and the one
    entry below was taken back, the stop point lies above it. -/
theorem emptyPool_token_above :
    ∃ (s : PoolThread Char) (s' : State Char),
      s = [PoolCall.autorelease (some 'a'), .push, .retainAutoreleasedReturnValue (some 'a')].foldl
        (PoolThread.next 4 fun _ => 8) PoolThread.initial ∧
      s.tokens = [9] ∧ s.tls.pool = [⟨8, []⟩] ∧
      ArcAutoreleasePool.holds 4 (⟨8, []⟩ : ArcAutoreleasePool Char) 9 = true ∧
      emptyPool 4 (release 4 (fun _ _ => 8) 10) 10 (start ⟨[⟨8, []⟩], none⟩ 1) 9 = some s' ∧
      s'.pool.head?.map ArcAutoreleasePool.insert ≠ some 9 :=
  ⟨_, start ⟨[⟨8, []⟩], none⟩ 1, rfl, by decide, by decide, by decide, rfl, by decide⟩

end Libobjc2.Memory.Draining.Reentrancy
