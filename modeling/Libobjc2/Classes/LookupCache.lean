import Libobjc2.Common.Run
import Mathlib.Algebra.Group.Nat.Defs
import Mathlib.Logic.Function.Basic
import Mathlib.Order.Nat
import Mathlib.Tactic.Common

/-!
# The class lookup cache (`src/runtime/class_table.c`)

Every thread keeps the classes that it has looked up, by the address of the name it was given, in a cache of sixteen
sets of two ways. A change of the class table is followed by an increment of a global generation, and a thread that
sees another generation than the one of its cache empties the cache.

The threads take turns in the steps of the claim on `class_table_get_safe`: loading the generation, which empties a
stale cache, the probe, the table lookup and the fill; a mutation updates the table and then increments the
generation. Classes are numbers with a fixed name. The generation is an unsigned number of 64 bits.

Results:
* `Machine.Inv.next`: what is in a cache was registered when its generation was loaded, and has not been removed since
  without a change of the generation; every step keeps this.
* `lookups_transparent`: a lookup returns a class that was registered under the name while it took place, or none when
  there was a moment without such a class.
* `stale_class_returned`: after 2^64 changes the generation is the same again, and a removed class is found.
-/

namespace Libobjc2.Classes.LookupCache

open Libobjc2.Common

/-! ## The cache of a thread -/

/-- `class_lookup_cache` (lines 149–155). `keys` and `entries` take the set and the way. -/
structure Cache where
  generation : ℕ
  keys : ℕ → ℕ → ℕ
  entries : ℕ → ℕ → Option ℕ
  victim : ℕ → ℕ

/-- Thread-local storage starts with zeroes. -/
def Cache.zero : Cache := ⟨0, fun _ _ => 0, fun _ _ => none, fun _ => 0⟩

/-- `class_lookup_cache_set` (lines 157–164), on the address as a number of 64 bits. -/
def classLookupCacheSet (name : ℕ) : ℕ :=
  let key := name >>> 4
  let key := key ^^^ (key >>> 16)
  let key := key * 0x9e3779b1 % 2 ^ 64
  let key := key ^^^ (key >>> 13)
  key &&& 15

/-- Lines 217–223: a cache of another generation is emptied. -/
def Cache.load (cache : Cache) (generation : ℕ) : Cache :=
  if cache.generation ≠ generation then { Cache.zero with generation := generation } else cache

variable {ν : Type} (name : ℕ → ν)

/-- The loop of lines 225–234: the way that holds the class. `given` is the text at `key`. -/
def Cache.probe [DecidableEq ν] (cache : Cache) (key : ℕ) (given : ν) : Option (ℕ × ℕ) :=
  let set := classLookupCacheSet key
  [0, 1].findSome? fun way =>
    (cache.entries set way).bind fun cached =>
      if cache.keys set way = key ∧ name cached = given then some (way, cached) else none

/-- The way that was not used last is replaced next. -/
def Cache.used (cache : Cache) (key way : ℕ) : Cache :=
  { cache with victim := Function.update cache.victim (classLookupCacheSet key) (way ^^^ 1) }

/-- Lines 238–247: an empty way is taken first. -/
def Cache.wayFor (cache : Cache) (key : ℕ) : ℕ :=
  let set := classLookupCacheSet key
  ([0, 1].find? fun candidate => cache.entries set candidate = none).getD (cache.victim set)

/-- Lines 238–250. -/
def Cache.fill (cache : Cache) (key cls : ℕ) : Cache :=
  let set := classLookupCacheSet key
  let way := cache.wayFor key
  Cache.used { cache with
    keys := Function.update cache.keys set (Function.update (cache.keys set) way key)
    entries := Function.update cache.entries set
        (Function.update (cache.entries set) way (some cls)) } key way

/-! ## Threads and the class table -/

/-- What a thread does next. A lookup has the address of the name, its text and the moment it started at. -/
inductive Pc (ν : Type) where
  | idle
  | load (key : ℕ) (given : ν) (start : ℕ)
  | probe (key : ℕ) (given : ν) (start : ℕ)
  | lookup (key : ℕ) (given : ν) (start : ℕ)
  | fill (key : ℕ) (given : ν) (start : ℕ) (cls : ℕ)
  | returned (given : ν) (start stop : ℕ) (result : Option ℕ)
  | mutated (classes : List ℕ)

/-- The class table at a moment, and the classes whose change has not been followed by the increment yet. -/
structure Moment where
  table : List ℕ
  changing : ℕ → Prop

/-- * `table`: the classes of `class_table`;
    * `generation`: `class_table_generation`;
    * `cache`, `pc`: what each thread has;
    * `buffer`: the text at each address.

    The others are not part of the program: `changes` is the generation without wrapping, `recorded` its value when
    the thread last emptied its cache, and `moment` the history, up to `now`. -/
structure Machine (ν : Type) where
  table : List ℕ
  generation : ℕ
  cache : ℕ → Cache
  pc : ℕ → Pc ν
  buffer : ℕ → ν
  changes : ℕ
  recorded : ℕ → ℕ
  now : ℕ
  moment : ℕ → Moment

/-- The class is changing: a thread has changed the table for it and not incremented the generation. -/
def Machine.Changing (σ : Machine ν) (c : ℕ) : Prop := ∃ t classes, σ.pc t = .mutated classes ∧ c ∈ classes

/-- The present moment. -/
def Machine.present (σ : Machine ν) : Moment := ⟨σ.table, σ.Changing⟩

/-- The class may count as registered. -/
def Moment.Registered (m : Moment) (c : ℕ) : Prop := c ∈ m.table ∨ m.changing c

/-- The class may count as not registered. -/
def Moment.Unregistered (m : Moment) (c : ℕ) : Prop := c ∉ m.table ∨ m.changing c

/-- The thread is in a lookup with the name at this address. -/
def Pc.Reads (pc : Pc ν) (key : ℕ) : Prop :=
  match pc with
  | .load k _ _ | .probe k _ _ | .lookup k _ _ | .fill k _ _ _ => k = key
  | _ => False

/-- The thread can start a lookup or a mutation. -/
def Pc.Free (pc : Pc ν) : Prop :=
  match pc with
  | .idle | .returned _ _ _ _ => True
  | _ => False

inductive Action (ν : Type) where
  | call (t key : ℕ)
  | load (t : ℕ)
  | probe (t : ℕ)
  | tableGet (t : ℕ) (result : Option ℕ)
  | fill (t : ℕ)
  | insert (t cls : ℕ)
  | remove (t cls : ℕ) (old : Option ℕ)
  | replace (t cls : ℕ) (old : Option ℕ)
  | invalidate (t : ℕ)
  | write (key : ℕ) (text : ν)

/-- The table finds a class of this name, if it has one. -/
def Machine.Finds (σ : Machine ν) (given : ν) : Option ℕ → Prop
  | some c => c ∈ σ.table ∧ name c = given
  | none => ∀ c ∈ σ.table, name c ≠ given

/-- When a step can be taken. A name may be rewritten while no lookup reads it. -/
def Machine.Ok (σ : Machine ν) : Action ν → Prop
  | .call t key => (σ.pc t).Free ∧ key ≠ 0
  | .load t => ∃ key given start, σ.pc t = .load key given start
  | .probe t => ∃ key given start, σ.pc t = .probe key given start
  | .tableGet t result =>
      ∃ key given start, σ.pc t = .lookup key given start ∧ σ.Finds name (σ.buffer key) result
  | .fill t => ∃ key given start cls, σ.pc t = .fill key given start cls
  | .insert t _ => (σ.pc t).Free
  | .remove t cls old | .replace t cls old => (σ.pc t).Free ∧ σ.Finds name (name cls) old
  | .invalidate t => ∃ classes, σ.pc t = .mutated classes
  | .write key _ => ∀ t, ¬(σ.pc t).Reads key

/-- The thread goes on with `pc`. -/
def Machine.setPc (σ : Machine ν) (t : ℕ) (pc : Pc ν) :
    Machine ν := { σ with pc := Function.update σ.pc t pc }

theorem Machine.setPc_pc (σ : Machine ν) (t : ℕ) (pc : Pc ν) : (σ.setPc t pc).pc t = pc :=
    Function.update_self _ _ _

/-- The thread has this cache. -/
def Machine.setCache (σ : Machine ν) (t : ℕ) (cache : Cache) : Machine ν :=
  { σ with cache := Function.update σ.cache t cache }

/-- One step of a thread in its lookup. -/
def Machine.advance [DecidableEq ν] (σ : Machine ν) (t : ℕ) (found : Option ℕ) : Machine ν :=
  match σ.pc t with
  | .load key given start =>
    let cache := (σ.cache t).load σ.generation
    let recorded := if (σ.cache t).generation ≠ σ.generation then σ.changes else σ.recorded t
    { (σ.setCache t cache).setPc t (.probe key given start) with recorded := Function.update σ.recorded t recorded }
  | .probe key given start =>
    match (σ.cache t).probe name key (σ.buffer key) with
    | some (way, cached) =>
      (σ.setCache t ((σ.cache t).used key way)).setPc t (.returned given start σ.now (some cached))
    | none => σ.setPc t (.lookup key given start)
  | .lookup key given start =>
    match found with
    | some cls => σ.setPc t (.fill key given start cls)
    | none => σ.setPc t (.returned given start σ.now none)
  | .fill key given start cls =>
    (σ.setCache t ((σ.cache t).fill key cls)).setPc t (.returned given start σ.now (some cls))
  | _ => σ

/-- What a step does, apart from the history. `class_table_insert` (lines 207–210), `class_table_remove` (lines
1046–1051) and the replacement (lines 929–932) change the table first; `table_set` inserts when there is no class of
the name. -/
def Machine.act [DecidableEq ν] (σ : Machine ν) : Action ν → Machine ν
  | .call t key => σ.setPc t (.load key (σ.buffer key) σ.now)
  | .load t | .probe t | .fill t => σ.advance name t none
  | .tableGet t result => σ.advance name t result
  | .insert t cls => { σ.setPc t (.mutated [cls]) with table := cls :: σ.table }
  | .remove t _ old =>
    { σ.setPc t (.mutated old.toList) with table := old.elim σ.table σ.table.erase }
  | .replace t cls old =>
    { σ.setPc t (.mutated (cls :: old.toList)) with table := cls :: old.elim σ.table σ.table.erase }
  | .invalidate t =>
      { σ.setPc t .idle with generation := (σ.generation + 1) % 2 ^ 64, changes := σ.changes + 1 }
  | .write key text => { σ with buffer := Function.update σ.buffer key text }

/-- The history goes on with the moment that a step has led to. -/
def Machine.next [DecidableEq ν] (σ : Machine ν) (a : Action ν) : Machine ν :=
  { σ.act name a with
    now := σ.now + 1
    moment := Function.update σ.moment (σ.now + 1) (σ.act name a).present }

/-- No class yet, and the generation is one. -/
def Machine.initial (buffer : ℕ → ν) : Machine ν where
  table := []
  generation := 1
  cache := fun _ => Cache.zero
  pc := fun _ => .idle
  buffer := buffer
  changes := 1
  recorded := fun _ => 0
  now := 0
  moment := fun _ => ⟨[], fun _ => False⟩


/-! ## The invariant -/

section

variable {name}

/-- The class may count as registered at a moment from `start` to `stop`. -/
def Machine.Seen (σ : Machine ν) (start stop c : ℕ) : Prop :=
  ∃ k, start ≤ k ∧ k ≤ stop ∧ (σ.moment k).Registered c

variable (name) in
/-- A lookup's answer is right at a moment from its start to its end. -/
def Machine.Transparent (σ : Machine ν) (given : ν) (start stop : ℕ) : Option ℕ → Prop
  | some c => name c = given ∧ σ.Seen start stop c
  | none => ∃ k, start ≤ k ∧ k ≤ stop ∧ ∀ c, name c = given → (σ.moment k).Unregistered c

/-- A class that was registered when the generation was `recorded`: the generation has changed or is about to, or the
class is in the table. -/
def Machine.Holds (σ : Machine ν) (recorded c : ℕ) : Prop := recorded < σ.changes ∨ σ.present.Registered c

variable (name) in
/-- What a thread knows at its next step. -/
def Machine.PcInv (σ : Machine ν) (t : ℕ) : Pc ν → Prop
  | .load key given start => start ≤ σ.now ∧ σ.buffer key = given
  | .probe key given start => start ≤ σ.now ∧ σ.buffer key = given ∧
    ∀ set way c, (σ.cache t).entries set way = some c → σ.Seen start σ.now c
  | .lookup key given start => start ≤ σ.now ∧ σ.buffer key = given
  | .fill key given start c => start ≤ σ.now ∧ σ.buffer key = given ∧ name c = given ∧ σ.Seen start σ.now c ∧
    σ.Holds (σ.recorded t) c
  | .returned given start stop result => stop ≤ σ.now ∧ σ.Transparent name given start stop result
  | .idle | .mutated _ => True

variable (name) in
/-- What holds of a thread: its cache belongs to the generation that it recorded, and what is in it was registered then. -/
structure Machine.ThreadInv (σ : Machine ν) (t : ℕ) : Prop where
  cache_eq : (σ.cache t).generation = σ.recorded t % 2 ^ 64
  recorded_le : σ.recorded t ≤ σ.changes
  entry : ∀ set way c, (σ.cache t).entries set way = some c → σ.Holds (σ.recorded t) c
  thread : σ.PcInv name t (σ.pc t)

variable (name) in
structure Machine.Inv (σ : Machine ν) : Prop where
  generation_eq : σ.generation = σ.changes % 2 ^ 64
  moment_now : σ.moment σ.now = σ.present
  threads : ∀ t, σ.ThreadInv name t

theorem Machine.inv_initial (buffer : ℕ → ν) : (Machine.initial buffer).Inv name where
  generation_eq := rfl
  moment_now := by
    have hnone : (Machine.initial buffer).Changing = fun _ => False := by
      funext c
      simp [Changing, initial]
    rw [present, hnone]
    rfl
  threads _ := ⟨rfl, Nat.zero_le _, fun _ _ _ h => absurd h (by simp [initial, Cache.zero]), trivial⟩

/-! ## The thread that takes a step -/

/-- The thread that takes the step. -/
def Action.thread : Action ν → Option ℕ
  | .call t _ | .load t | .probe t | .tableGet t _ | .fill t | .insert t _ | .remove t _ _ | .replace t _ _
  | .invalidate t => some t
  | .write _ _ => none

theorem Machine.Ok.thread_ne {σ : Machine ν} {a : Action ν} (hok : σ.Ok name a) {t : ℕ} {classes : List ℕ}
    (hpc : σ.pc t = .mutated classes) (ha : ∀ u, a ≠ .invalidate u) : a.thread ≠ some t := by
  intro hthread
  cases a <;> simp_all [Action.thread, Ok, Pc.Free]

/-! ## What a probe and a fill do -/

variable [DecidableEq ν]

theorem Cache.probe_some {cache : Cache} {key : ℕ} {given : ν} {way c : ℕ}
    (h : cache.probe name key given = some (way, c)) :
    cache.entries (classLookupCacheSet key) way = some c ∧ name c = given := by
  obtain ⟨way', -, hway⟩ := List.exists_of_findSome?_eq_some h
  obtain ⟨cached, hcached, hhit⟩ := Option.bind_eq_some_iff.mp hway
  split at hhit
  · rename_i hkey
    obtain ⟨rfl, rfl⟩ := Prod.mk.inj (Option.some.inj hhit)
    exact ⟨hcached, hkey.2⟩
  · exact absurd hhit (by simp)

theorem Cache.entries_fill {cache : Cache} {key cls set way c : ℕ}
    (h : (cache.fill key cls).entries set way = some c) : cache.entries set way = some c ∨ c = cls := by
  simp only [fill, used, Function.update_apply] at h
  split at h
  · rename_i hset
    rw [Function.update_apply] at h
    split at h
    · exact .inr (Option.some.inj h).symm
    · exact .inl (hset ▸ h)
  · exact .inl h

/-! ## What a step keeps -/

variable (name) in
theorem Machine.advance_frame (σ : Machine ν) (t : ℕ) (found : Option ℕ) {u : ℕ} (h : u ≠ t) :
    (σ.advance name t found).pc u = σ.pc u ∧ (σ.advance name t found).cache u = σ.cache u ∧
      (σ.advance name t found).recorded u = σ.recorded u := by
  unfold advance
  split
  · simp [setPc, setCache, h]
  · split <;> simp [setPc, setCache, h]
  · split <;> simp [setPc, h]
  · simp [setPc, setCache, h]
  · exact ⟨rfl, rfl, rfl⟩

/-- The other threads stay where they are. -/
theorem Machine.act_frame (σ : Machine ν) (a : Action ν) {u : ℕ} (h : a.thread ≠ some u) :
    (σ.act name a).pc u = σ.pc u ∧ (σ.act name a).cache u = σ.cache u ∧
      (σ.act name a).recorded u = σ.recorded u := by
  cases a with
  | load t | probe t | tableGet t _ | fill t =>
    exact σ.advance_frame name t _ fun heq => h (by rw [heq]; rfl)
  | write _ _ => exact ⟨rfl, rfl, rfl⟩
  | call t _ | insert t _ | remove t _ _ | replace t _ _ | invalidate t =>
    have hne : u ≠ t := fun heq => h (by rw [heq]; rfl)
    simp [act, setPc, hne]

variable (name) in
theorem Machine.advance_shared (σ : Machine ν) (t : ℕ) (found : Option ℕ) :
    (σ.advance name t found).table = σ.table ∧ (σ.advance name t found).generation = σ.generation ∧
      (σ.advance name t found).changes = σ.changes ∧ (σ.advance name t found).buffer = σ.buffer := by
  unfold advance
  split
  · exact ⟨rfl, rfl, rfl, rfl⟩
  · split <;> exact ⟨rfl, rfl, rfl, rfl⟩
  · split <;> exact ⟨rfl, rfl, rfl, rfl⟩
  · exact ⟨rfl, rfl, rfl, rfl⟩
  · exact ⟨rfl, rfl, rfl, rfl⟩


theorem Machine.changing_act {σ : Machine ν} {a : Action ν} (hok : σ.Ok name a)
    (ha : ∀ u, a ≠ .invalidate u) {c : ℕ}
    (h : σ.Changing c) : (σ.act name a).Changing c := by
  obtain ⟨t, classes, hpc, hc⟩ := h
  exact ⟨t, classes, (σ.act_frame a (hok.thread_ne hpc ha)).1.trans hpc, hc⟩

/-- A class leaves the table for the classes that are changing. -/
theorem Machine.registered_act {σ : Machine ν} {a : Action ν} (hok : σ.Ok name a)
    (ha : ∀ u, a ≠ .invalidate u) {c : ℕ}
    (h : σ.present.Registered c) : (σ.act name a).present.Registered c := by
  rcases h with htable | hchanging
  · have herase (t : ℕ) (pc : Machine ν) (old : Option ℕ) (new : List ℕ)
        (hpc : pc.pc t = .mutated (new ++ old.toList))
        (hmem : ∀ x ∈ old.elim σ.table σ.table.erase, x ∈ pc.table) :
        pc.present.Registered c := by
      cases old with
      | none => exact .inl (hmem c htable)
      | some o =>
        by_cases hco : c = o
        · exact .inr ⟨t, _, hpc, by simp [hco]⟩
        · exact .inl (hmem c ((List.mem_erase_of_ne hco).mpr htable))
    cases a with
    | call t key => exact .inl htable
    | load t | probe t | fill t => exact .inl ((congrArg (c ∈ ·) (σ.advance_shared name t none).1).mpr htable)
    | tableGet t result => exact .inl ((congrArg (c ∈ ·) (σ.advance_shared name t result).1).mpr htable)
    | insert t cls => exact .inl (List.mem_cons_of_mem cls htable)
    | remove t cls old =>
      exact herase t _ old [] (by simp [act, setPc]) fun x hx => hx
    | replace t cls old =>
      exact herase t _ old [cls] (by simp [act, setPc]) fun x hx => List.mem_cons_of_mem cls hx
    | invalidate t => exact absurd rfl (ha t)
    | write key text => exact .inl htable
  · exact .inr (changing_act hok ha hchanging)

theorem Machine.changes_le_act (σ : Machine ν) (a : Action ν) : σ.changes ≤ (σ.act name a).changes := by
  cases a with
  | load t | probe t | fill t => exact (σ.advance_shared name t none).2.2.1.ge
  | tableGet t result => exact (σ.advance_shared name t result).2.2.1.ge
  | invalidate t => exact Nat.le_succ _
  | _ => exact le_rfl

theorem Machine.Holds.act {σ : Machine ν} {a : Action ν} (hok : σ.Ok name a) {recorded c : ℕ}
    (hle : recorded ≤ σ.changes) (h : σ.Holds recorded c) : (σ.act name a).Holds recorded c := by
  by_cases ha : ∃ u, a = .invalidate u
  · obtain ⟨u, rfl⟩ := ha
    exact .inl (Nat.lt_succ_of_le hle)
  · rcases h with hlt | hreg
    · exact .inl (hlt.trans_le (σ.changes_le_act a))
    · exact .inr (registered_act hok (fun u hu => ha ⟨u, hu⟩) hreg)

/-- The moments so far stay. -/
theorem Machine.moment_next (σ : Machine ν) (a : Action ν) {k : ℕ} (hk : k ≤ σ.now) :
    (σ.next name a).moment k = σ.moment k :=
  Function.update_of_ne (by omega) _ _

theorem Machine.moment_now_next (σ : Machine ν) (a : Action ν) :
    (σ.next name a).moment (σ.now + 1) = (σ.next name a).present :=
  Function.update_self _ _ _

theorem Machine.Seen.next {σ : Machine ν} (a : Action ν) {start stop stop' c : ℕ} (h : σ.Seen start stop c)
    (hstop : stop ≤ σ.now) (hle : stop ≤ stop') : (σ.next name a).Seen start stop' c := by
  obtain ⟨k, hstart, hk, hc⟩ := h
  refine ⟨k, hstart, hk.trans hle, ?_⟩
  rw [σ.moment_next a (hk.trans hstop)]
  exact hc

theorem Machine.Transparent.next {σ : Machine ν} (a : Action ν) {given : ν} {start stop : ℕ}
    {result : Option ℕ}
    (h : σ.Transparent name given start stop result) (hstop : stop ≤ σ.now) :
    (σ.next name a).Transparent name given start stop result := by
  cases result with
  | some c => exact ⟨h.1, h.2.next a hstop le_rfl⟩
  | none =>
    obtain ⟨k, hstart, hk, hc⟩ := h
    refine ⟨k, hstart, hk, ?_⟩
    rw [σ.moment_next a (hk.trans hstop)]
    exact hc

theorem Machine.buffer_act {σ : Machine ν} {a : Action ν} (hok : σ.Ok name a) {u key : ℕ}
    (h : (σ.pc u).Reads key) :
    (σ.act name a).buffer key = σ.buffer key := by
  cases a with
  | write key' text =>
    have hne : key ≠ key' := by
      rintro rfl
      exact hok u h
    exact Function.update_of_ne hne _ _
  | load t | probe t | fill t => rw [act, (σ.advance_shared name t none).2.2.2]
  | tableGet t result => rw [act, (σ.advance_shared name t result).2.2.2]
  | _ => rfl

/-- What a thread knows stays true when another one takes the step. -/
theorem Machine.PcInv.frame {σ : Machine ν} {a : Action ν} {u : ℕ} (hinv : σ.ThreadInv name u)
    (hok : σ.Ok name a)
    (hu : a.thread ≠ some u) : (σ.next name a).PcInv name u (σ.pc u) := by
  obtain ⟨-, hcache, hrecorded⟩ := σ.act_frame a hu
  have hthread := hinv.thread
  have hbuffer := fun key => @buffer_act _ name _ σ a hok u key
  have hcache' : (σ.next name a).cache u = σ.cache u := hcache
  have hrecorded' : (σ.next name a).recorded u = σ.recorded u := hrecorded
  cases h : σ.pc u with
  | idle => trivial
  | mutated classes => trivial
  | load key given start =>
    rw [h] at hthread
    exact ⟨hthread.1.trans (Nat.le_succ _), (hbuffer key (by rw [h]; rfl)).trans hthread.2⟩
  | probe key given start =>
    rw [h] at hthread
    refine ⟨hthread.1.trans (Nat.le_succ _), (hbuffer key (by rw [h]; rfl)).trans hthread.2.1, ?_⟩
    intro set way c hc
    rw [hcache'] at hc
    exact (hthread.2.2 set way c hc).next a le_rfl (Nat.le_succ _)
  | lookup key given start =>
    rw [h] at hthread
    exact ⟨hthread.1.trans (Nat.le_succ _), (hbuffer key (by rw [h]; rfl)).trans hthread.2⟩
  | fill key given start c =>
    rw [h] at hthread
    obtain ⟨hstart, hgiven, hname, hseen, hholds⟩ := hthread
    refine ⟨hstart.trans (Nat.le_succ _), (hbuffer key (by rw [h]; rfl)).trans hgiven, hname,
      hseen.next a le_rfl (Nat.le_succ _), ?_⟩
    rw [hrecorded']
    exact hholds.act hok hinv.recorded_le
  | returned given start stop result =>
    rw [h] at hthread
    exact ⟨hthread.1.trans (Nat.le_succ _), hthread.2.next a hthread.1⟩

theorem Machine.ThreadInv.frame {σ : Machine ν} {a : Action ν} {u : ℕ} (hinv : σ.ThreadInv name u)
    (hok : σ.Ok name a) (hu : a.thread ≠ some u) : (σ.next name a).ThreadInv name u := by
  obtain ⟨hpc, hcache, hrecorded⟩ := σ.act_frame a hu
  have hpc' : (σ.next name a).pc u = σ.pc u := hpc
  have hcache' : (σ.next name a).cache u = σ.cache u := hcache
  have hrecorded' : (σ.next name a).recorded u = σ.recorded u := hrecorded
  refine ⟨?_, ?_, ?_, ?_⟩
  · rw [hcache', hrecorded']
    exact hinv.cache_eq
  · rw [hrecorded']
    exact hinv.recorded_le.trans (σ.changes_le_act a)
  · intro set way c hc
    rw [hcache'] at hc
    rw [hrecorded']
    exact (hinv.entry set way c hc).act hok hinv.recorded_le
  · rw [hpc']
    exact PcInv.frame hinv hok hu

/-! ## The thread that takes the step -/

/-- The thread goes on, and its cache has nothing that was not in it. -/
theorem Machine.ThreadInv.goOn {σ : Machine ν} {a : Action ν} {t : ℕ} (hinv : σ.ThreadInv name t)
    (hok : σ.Ok name a) (hgen : ((σ.act name a).cache t).generation = (σ.cache t).generation)
    (hsub : ∀ set way c, ((σ.act name a).cache t).entries set way = some c →
      (σ.cache t).entries set way = some c ∨ σ.Holds (σ.recorded t) c)
    (hrecorded : (σ.act name a).recorded t = σ.recorded t)
    (hpc : (σ.next name a).PcInv name t ((σ.act name a).pc t)) : (σ.next name a).ThreadInv name t := by
  have hrecorded' : (σ.next name a).recorded t = σ.recorded t := hrecorded
  refine ⟨?_, ?_, ?_, hpc⟩
  · rw [hrecorded']
    exact hgen.trans hinv.cache_eq
  · rw [hrecorded']
    exact hinv.recorded_le.trans (σ.changes_le_act a)
  · intro set way c hc
    rw [hrecorded']
    rcases hsub set way c hc with hold | hnew
    · exact (hinv.entry set way c hold).act hok hinv.recorded_le
    · exact hnew.act hok hinv.recorded_le

variable (name) in
/-- When a step can be taken and, for the load of the generation, the thread has emptied its cache fewer than 2^64
changes ago. -/
def Machine.OkFew (σ : Machine ν) (a : Action ν) : Prop :=
  σ.Ok name a ∧ ∀ t, a = .load t → σ.changes < σ.recorded t + 2 ^ 64

theorem Machine.threadInv_load {σ : Machine ν} {t : ℕ} (hinv : σ.Inv name) (hok : σ.OkFew name (.load t)) :
    (σ.next name (.load t)).ThreadInv name t := by
  obtain ⟨key, given, start, hpc⟩ := hok.1
  have ht := hinv.threads t
  have hthread := ht.thread
  rw [hpc] at hthread
  have hpc' : (σ.act name (.load t)).pc t = .probe key given start := by
    simp [act, advance, hpc, setPc, setCache]
  have hbuffer : (σ.act name (.load t)).buffer key = σ.buffer key := by
    simp [act, advance, hpc, setPc, setCache]
  have hcache : (σ.act name (.load t)).cache t = (σ.cache t).load σ.generation := by
    simp [act, advance, hpc, setPc, setCache]
  have hrecorded : (σ.act name (.load t)).recorded t =
      if (σ.cache t).generation ≠ σ.generation then σ.changes else σ.recorded t := by
    simp [act, advance, hpc, setPc, setCache]
  by_cases hgen : (σ.cache t).generation = σ.generation
  · -- fewer than 2^64 changes: the same generation means that there has been none
    have hnone : σ.recorded t = σ.changes := by
      have hfew := hok.2 t rfl
      have hle := ht.recorded_le
      have hmod := ht.cache_eq
      rw [hgen, hinv.generation_eq] at hmod
      omega
    have hsame : (σ.act name (.load t)).cache t = σ.cache t := by
      rw [hcache, Cache.load, if_neg (not_not.mpr hgen)]
    refine ht.goOn hok.1 (by rw [hsame]) (fun set way c hc => .inl (by rwa [hsame] at hc))
      (by rw [hrecorded, if_neg (not_not.mpr hgen)]) ?_
    rw [hpc']
    refine ⟨hthread.1.trans (Nat.le_succ _), hbuffer.trans hthread.2, ?_⟩
    intro set way c hc
    have hold : (σ.cache t).entries set way = some c := by
      rw [← hsame]
      exact hc
    have hreg : σ.present.Registered c := by
      rcases ht.entry set way c hold with hlt | hreg
      · omega
      · exact hreg
    have hseen : σ.Seen start σ.now c := ⟨σ.now, hthread.1, le_rfl, hinv.moment_now ▸ hreg⟩
    exact hseen.next _ le_rfl (Nat.le_succ _)
  · have hempty : (σ.act name (.load t)).cache t = { Cache.zero with generation := σ.generation } := by
      rw [hcache, Cache.load, if_pos hgen]
    have hchanges : (σ.act name (.load t)).changes = σ.changes := (σ.advance_shared name t none).2.2.1
    have hnow : (σ.act name (.load t)).recorded t = σ.changes := by rw [hrecorded, if_pos hgen]
    have hcache' : (σ.next name (.load t)).cache t = { Cache.zero with generation := σ.generation } := hempty
    have hrecorded' : (σ.next name (.load t)).recorded t = σ.changes := hnow
    refine ⟨?_, ?_, ?_, ?_⟩
    · rw [hcache', hrecorded']
      exact hinv.generation_eq
    · rw [hrecorded']
      exact hchanges.ge
    · intro set way c hc
      rw [hcache'] at hc
      exact absurd hc (by simp [Cache.zero])
    · have hpc'' : (σ.next name (.load t)).pc t = .probe key given start := hpc'
      rw [hpc'']
      refine ⟨hthread.1.trans (Nat.le_succ _), hbuffer.trans hthread.2, ?_⟩
      intro set way c hc
      rw [hcache'] at hc
      exact absurd hc (by simp [Cache.zero])

theorem Machine.threadInv_probe {σ : Machine ν} {t : ℕ} (hinv : σ.Inv name) (hok : σ.Ok name (.probe t)) :
    (σ.next name (.probe t)).ThreadInv name t := by
  obtain ⟨key, given, start, hpc⟩ := hok
  have ht := hinv.threads t
  have hthread := ht.thread
  rw [hpc] at hthread
  obtain ⟨hstart, hgiven, hseen⟩ := hthread
  have hok : σ.Ok name (.probe t) := ⟨key, given, start, hpc⟩
  cases hprobe : (σ.cache t).probe name key (σ.buffer key) with
  | none =>
    have hact : σ.act name (.probe t) = σ.setPc t (.lookup key given start) := by
      simp [act, advance, hpc, hprobe]
    refine ht.goOn hok (by rw [hact]; rfl) (fun set way c hc => .inl (by rwa [hact] at hc))
        (by rw [hact]; rfl) ?_
    rw [hact, setPc_pc]
    refine ⟨hstart.trans (Nat.le_succ _), ?_⟩
    simpa [next, hact, setPc] using hgiven
  | some hit =>
    obtain ⟨way, cached⟩ := hit
    obtain ⟨hentry, hname⟩ := Cache.probe_some hprobe
    have hact : σ.act name (.probe t) = (σ.setCache t ((σ.cache t).used key way)).setPc t
        (.returned given start σ.now (some cached)) := by
      simp [act, advance, hpc, hprobe]
    refine ht.goOn hok (by rw [hact]; simp [setPc, setCache, Cache.used]) (fun set way c hc => .inl ?_)
      (by rw [hact]; rfl) ?_
    · rw [hact] at hc
      simpa [setPc, setCache, Cache.used] using hc
    · rw [hact, setPc_pc]
      exact ⟨Nat.le_succ _, hname.trans hgiven, (hseen _ _ _ hentry).next _ le_rfl le_rfl⟩

theorem Machine.threadInv_tableGet {σ : Machine ν} {t : ℕ} {result : Option ℕ} (hinv : σ.Inv name)
    (hok : σ.Ok name (.tableGet t result)) : (σ.next name (.tableGet t result)).ThreadInv name t := by
  obtain ⟨key, given, start, hpc, hfinds⟩ := hok
  have ht := hinv.threads t
  have hthread := ht.thread
  rw [hpc] at hthread
  obtain ⟨hstart, hgiven⟩ := hthread
  have hok : σ.Ok name (.tableGet t result) := ⟨key, given, start, hpc, hfinds⟩
  rw [hgiven] at hfinds
  cases result with
  | none =>
    have hact : σ.act name (.tableGet t none) = σ.setPc t (.returned given start σ.now none) := by
      simp [act, advance, hpc]
    refine ht.goOn hok (by rw [hact]; rfl) (fun set way c hc => .inl (by rwa [hact] at hc))
        (by rw [hact]; rfl) ?_
    rw [hact, setPc_pc]
    refine ⟨Nat.le_succ _, Transparent.next _ ⟨σ.now, hstart, le_rfl, fun c hc => .inl ?_⟩ le_rfl⟩
    rw [hinv.moment_now]
    exact fun hmem => hfinds c hmem hc
  | some c =>
    have hact : σ.act name (.tableGet t (some c)) = σ.setPc t (.fill key given start c) := by
      simp [act, advance, hpc]
    have hreg : σ.present.Registered c := .inl hfinds.1
    have hseen : σ.Seen start σ.now c := ⟨σ.now, hstart, le_rfl, hinv.moment_now ▸ hreg⟩
    refine ht.goOn hok (by rw [hact]; rfl) (fun set way c hc => .inl (by rwa [hact] at hc))
        (by rw [hact]; rfl) ?_
    have hholds := Holds.act hok ht.recorded_le (.inr hreg)
    have hrecorded : (σ.next name (.tableGet t (some c))).recorded t = σ.recorded t := by
      simp [next, hact, setPc]
    rw [hact, setPc_pc]
    refine ⟨hstart.trans (Nat.le_succ _), ?_, hfinds.2, hseen.next _ le_rfl (Nat.le_succ _), ?_⟩
    · simpa [next, hact, setPc] using hgiven
    · rw [hrecorded]
      exact hholds

theorem Machine.threadInv_fill {σ : Machine ν} {t : ℕ} (hinv : σ.Inv name) (hok : σ.Ok name (.fill t)) :
    (σ.next name (.fill t)).ThreadInv name t := by
  obtain ⟨key, given, start, c, hpc⟩ := hok
  have ht := hinv.threads t
  have hthread := ht.thread
  rw [hpc] at hthread
  obtain ⟨hstart, -, hname, hseen, hholds⟩ := hthread
  have hok : σ.Ok name (.fill t) := ⟨key, given, start, c, hpc⟩
  have hact : σ.act name (.fill t) = (σ.setCache t ((σ.cache t).fill key c)).setPc t
      (.returned given start σ.now (some c)) := by
    simp [act, advance, hpc]
  refine ht.goOn hok (by rw [hact]; simp [setPc, setCache, Cache.fill, Cache.used]) (fun set way c' hc => ?_)
    (by rw [hact]; rfl) ?_
  · rw [hact] at hc
    have hfill : ((σ.cache t).fill key c).entries set way = some c' := by
      simpa [setPc, setCache] using hc
    rcases Cache.entries_fill hfill with hold | rfl
    · exact .inl hold
    · exact .inr hholds
  · rw [hact, setPc_pc]
    exact ⟨Nat.le_succ _, hname, hseen.next _ le_rfl le_rfl⟩

theorem Machine.threadInv_call {σ : Machine ν} {t key : ℕ} (hinv : σ.Inv name)
    (hok : σ.Ok name (.call t key)) :
    (σ.next name (.call t key)).ThreadInv name t := by
  refine (hinv.threads t).goOn hok rfl (fun set way c hc => .inl hc) rfl ?_
  rw [act, setPc_pc]
  exact ⟨Nat.le_succ _, rfl⟩

/-- A mutation leaves the cache of its own thread alone. -/
theorem Machine.threadInv_mutation {σ : Machine ν} {a : Action ν} {t : ℕ} (hinv : σ.Inv name)
    (hok : σ.Ok name a)
    (hcache : (σ.act name a).cache t = σ.cache t) (hrecorded : (σ.act name a).recorded t = σ.recorded t)
    (hpc : (∃ classes, (σ.act name a).pc t = .mutated classes) ∨ (σ.act name a).pc t = .idle) :
    (σ.next name a).ThreadInv name t := by
  refine (hinv.threads t).goOn hok (by rw [hcache])
      (fun set way c hc => .inl (by rwa [hcache] at hc)) hrecorded ?_
  rcases hpc with ⟨classes, hpc⟩ | hpc
  · rw [hpc]
    trivial
  · rw [hpc]
    trivial

/-! ## Runs -/

theorem Machine.generation_act {σ : Machine ν} (hinv : σ.Inv name) (a : Action ν) :
    (σ.act name a).generation = (σ.act name a).changes % 2 ^ 64 := by
  cases a with
  | load t | probe t | fill t =>
    rw [act, (σ.advance_shared name t none).2.1, (σ.advance_shared name t none).2.2.1, hinv.generation_eq]
  | tableGet t result =>
    rw [act, (σ.advance_shared name t result).2.1, (σ.advance_shared name t result).2.2.1, hinv.generation_eq]
  | invalidate t =>
    have := hinv.generation_eq
    simp only [act]
    omega
  | _ => exact hinv.generation_eq

/-- **The step lemma.** -/
theorem Machine.Inv.next {σ : Machine ν} {a : Action ν} (hinv : σ.Inv name) (hok : σ.OkFew name a) :
    (σ.next name a).Inv name := by
  refine ⟨generation_act hinv a, σ.moment_now_next a, fun u => ?_⟩
  by_cases hu : a.thread = some u
  · cases a with
    | call t key =>
      obtain rfl := Option.some.inj hu
      exact threadInv_call hinv hok.1
    | load t =>
      obtain rfl := Option.some.inj hu
      exact threadInv_load hinv hok
    | probe t =>
      obtain rfl := Option.some.inj hu
      exact threadInv_probe hinv hok.1
    | tableGet t result =>
      obtain rfl := Option.some.inj hu
      exact threadInv_tableGet hinv hok.1
    | fill t =>
      obtain rfl := Option.some.inj hu
      exact threadInv_fill hinv hok.1
    | insert t cls | remove t cls old | replace t cls old =>
      obtain rfl := Option.some.inj hu
      exact threadInv_mutation hinv hok.1 rfl rfl (.inl ⟨_, Function.update_self _ _ _⟩)
    | invalidate t =>
      obtain rfl := Option.some.inj hu
      exact threadInv_mutation hinv hok.1 rfl rfl (.inr (Function.update_self _ _ _))
    | write key text => exact absurd hu (by simp [Action.thread])
  · exact (hinv.threads u).frame hok.1 hu

variable (name) in
/-- As long as no thread comes back to a cache that it last emptied 2^64 or more changes ago, every lookup is transparent. -/
theorem lookups_transparent (buffer : ℕ → ν) {σ : Machine ν}
    (h : Runs (guarded (Machine.OkFew name) (Machine.next name)) (Machine.initial buffer) σ) (t : ℕ)
    (given : ν)
    (start stop : ℕ) (result : Option ℕ) (hpc : σ.pc t = .returned given start stop result) :
    σ.Transparent name given start stop result := by
  have hinv : σ.Inv name := by
    refine h.invariant (Machine.inv_initial buffer) fun u a u' hu hstep => ?_
    rw [hstep.2]
    exact hu.next hstep.1
  have ht := (hinv.threads t).thread
  rw [hpc] at ht
  exact ht.2

variable (name) in
/-- A thread that takes no step of a run stays where it is. -/
theorem Machine.pc_runList {u : ℕ} (as : List (Action ν)) (h : ∀ a ∈ as, a.thread ≠ some u) (σ : Machine ν) :
    (runList (Machine.next name) σ as).pc u = σ.pc u := by
  induction as generalizing σ with
  | nil => rfl
  | cons a as ih =>
    have hrest := ih (fun b hb => h b (List.mem_cons_of_mem a hb)) (σ.next name a)
    exact hrest.trans (σ.act_frame a (h a List.mem_cons_self)).1

end

/-! ## A generation that comes back -/

/-- The text at every address is 0, and so is the name of class 0. -/
abbrev start : Machine ℕ := .initial fun _ => 0

/-- Class 0 is registered, and thread 0 looks it up. -/
def firstLookup : List (Action ℕ) :=
  [.insert 1 0, .invalidate 1, .call 0 16, .load 0, .probe 0, .tableGet 0 (some 0), .fill 0]

theorem allOk_firstLookup : AllOk (Machine.OkFew id) (Machine.next id) start firstLookup := by
  refine ⟨?_, ?_, ?_, ?_, ?_, ?_, ?_, trivial⟩
  · exact ⟨trivial, by simp⟩
  · exact ⟨⟨[0], rfl⟩, by simp⟩
  · exact ⟨⟨trivial, by decide⟩, by simp⟩
  · refine ⟨⟨16, 0, 2, rfl⟩, fun t ht => ?_⟩
    obtain rfl := Action.load.inj ht
    decide
  · exact ⟨⟨16, 0, 2, rfl⟩, by simp⟩
  · exact ⟨⟨16, 0, 2, rfl, List.mem_cons_self, rfl⟩, by simp⟩
  · exact ⟨⟨16, 0, 2, 0, rfl⟩, by simp⟩

theorem lookups_transparent_hit :
    (runList (Machine.next id) start firstLookup).Transparent id 0 2 6 (some 0) :=
  lookups_transparent id (fun _ => 0) (runs_of_allOk _ _ allOk_firstLookup) 0 0 2 6 (some 0) rfl

/-- The cache of a thread that has looked up class 0 when the generation was 2. -/
def filled : Cache := (Cache.zero.load 2).fill 16 0

/-- Class 0 has been removed and `n` classes have come and gone since; thread 0 has not looked up anything. -/
structure Gone (n : ℕ) (σ : Machine ℕ) : Prop where
  table : σ.table = []
  generation : σ.generation = (3 + 2 * n) % 2 ^ 64
  cache : σ.cache 0 = filled
  buffer : σ.buffer = fun _ => 0
  reader : (σ.pc 0).Free
  writer : σ.pc 1 = .idle
  others : ∀ t classes, σ.pc t ≠ .mutated classes

theorem runs_firstLookup :
    ∃ σ, Runs (guarded (Machine.Ok id) (Machine.next id)) start σ ∧ Gone 0 σ := by
  refine ⟨runList (Machine.next id) start (firstLookup ++ [.remove 1 0 (some 0), .invalidate 1]),
    runs_of_allOk _ _ ?_, ?_⟩
  · refine ⟨?_, ?_, ?_, ?_, ?_, ?_, ?_, ?_, ?_, trivial⟩
    · exact trivial
    · exact ⟨[0], rfl⟩
    · exact ⟨trivial, by decide⟩
    · exact ⟨16, 0, 2, rfl⟩
    · exact ⟨16, 0, 2, rfl⟩
    · exact ⟨16, 0, 2, rfl, List.mem_cons_self, rfl⟩
    · exact ⟨16, 0, 2, 0, rfl⟩
    · exact ⟨trivial, List.mem_cons_self, rfl⟩
    · exact ⟨[0], rfl⟩
  · refine ⟨rfl, rfl, rfl, rfl, trivial, rfl, ?_⟩
    intro t classes
    by_cases h1 : t = 1
    · subst h1
      nofun
    · by_cases h0 : t = 0
      · subst h0
        nofun
      · have hpc := start.pc_runList id (u := t) (firstLookup ++ [.remove 1 0 (some 0), .invalidate 1])
          (by simp [firstLookup, Action.thread, Ne.symm h0, Ne.symm h1])
        rw [hpc]
        nofun

/-- Class 1 is registered and removed again. -/
theorem Gone.next {n : ℕ} {σ : Machine ℕ} (h : Gone n σ) :
    ∃ σ', Runs (guarded (Machine.Ok id) (Machine.next id)) σ σ' ∧ Gone (n + 1) σ' := by
  refine ⟨_, runs_of_allOk [.insert 1 1, .invalidate 1, .remove 1 1 (some 1), .invalidate 1] σ
    ⟨?_, ?_, ?_, ?_, trivial⟩, ?_⟩
  · exact show (σ.pc 1).Free by rw [h.writer]; trivial
  · exact ⟨[1], by simp [Machine.next, Machine.act, Machine.setPc]⟩
  · refine ⟨?_, ?_⟩
    · simp [Machine.next, Machine.act, Machine.setPc, Pc.Free]
    · simp [Machine.next, Machine.act, Machine.setPc, Machine.Finds]
  · exact ⟨[1], by simp [Machine.next, Machine.act, Machine.setPc]⟩
  · refine ⟨?_, ?_, ?_, ?_, ?_, ?_, ?_⟩
    · simp [runList, Machine.next, Machine.act, Machine.setPc, h.table]
    · have := h.generation
      simp only [runList, List.foldl, Machine.next, Machine.act, Machine.setPc]
      omega
    · simpa [runList, Machine.next, Machine.act, Machine.setPc] using h.cache
    · simpa [runList, Machine.next, Machine.act, Machine.setPc] using h.buffer
    · simpa [runList, Machine.next, Machine.act, Machine.setPc] using h.reader
    · simp [runList, Machine.next, Machine.act, Machine.setPc]
    · intro t classes
      have := h.others t classes
      by_cases h1 : t = 1
      · simp [runList, Machine.next, Machine.act, Machine.setPc, h1]
      · simpa [runList, Machine.next, Machine.act, Machine.setPc, h1] using this

theorem runs_gone (n : ℕ) : ∃ σ, Runs (guarded (Machine.Ok id) (Machine.next id)) start σ ∧ Gone n σ := by
  induction n with
  | zero => exact runs_firstLookup
  | succ n ih =>
    obtain ⟨σ, hruns, hgone⟩ := ih
    obtain ⟨σ', hruns', hgone'⟩ := hgone.next
    exact ⟨σ', hruns.trans hruns', hgone'⟩

/-- The generation is 2 once more, and thread 0 looks up the name of class 0 again. -/
def secondLookup : List (Action ℕ) := [.insert 1 1, .invalidate 1, .call 0 16, .load 0, .probe 0]

theorem Gone.allOk_secondLookup {σ : Machine ℕ} (h : Gone (2 ^ 63 - 1) σ) :
    AllOk (Machine.Ok id) (Machine.next id) σ secondLookup := by
  refine ⟨?_, ?_, ?_, ?_, ?_, trivial⟩
  · exact show (σ.pc 1).Free by rw [h.writer]; trivial
  · exact ⟨[1], by simp [Machine.next, Machine.act, Machine.setPc]⟩
  · refine ⟨?_, by decide⟩
    simpa [Machine.next, Machine.act, Machine.setPc] using h.reader
  · exact ⟨16, 0, σ.now + 2, by simp [Machine.next, Machine.act, Machine.setPc, h.buffer]⟩
  · refine ⟨16, 0, σ.now + 2, ?_⟩
    simp [Machine.next, Machine.act, Machine.advance, Machine.setPc, Machine.setCache, h.buffer]

theorem Gone.returned {σ : Machine ℕ} (h : Gone (2 ^ 63 - 1) σ) :
    (runList (Machine.next id) σ secondLookup).pc 0 = .returned 0 (σ.now + 2) (σ.now + 4) (some 0) := by
  have hprobe : filled.probe id 16 0 = some (0, 0) := rfl
  have hgen : (σ.generation + 1) % 2 ^ 64 = 2 := by
    have := h.generation
    omega
  have hload : filled.load 2 = filled := rfl
  simp only [Nat.reducePow] at hgen
  simp [runList, secondLookup, Machine.next, Machine.act, Machine.advance, Machine.setPc,
    Machine.setCache, h.buffer,
    h.cache, hgen, hload, hprobe]

/-- Class 0 is not in the table, and no mutation is under way. -/
def Machine.Quiet (σ : Machine ℕ) : Prop := 0 ∉ σ.table ∧ ∀ t classes, σ.pc t ≠ .mutated classes

theorem Machine.Quiet.not_registered {σ : Machine ℕ} (h : σ.Quiet) : ¬σ.present.Registered 0 := by
  rintro (htable | ⟨t, classes, hpc, -⟩)
  · exact h.1 htable
  · exact h.2 t classes hpc

theorem Machine.Quiet.call {σ : Machine ℕ} (h : σ.Quiet) (t key : ℕ) : (σ.next id (.call t key)).Quiet := by
  refine ⟨h.1, fun u classes => ?_⟩
  by_cases hu : u = t
  · subst hu
    simp [next, act, setPc]
  · simpa [next, act, setPc, hu] using h.2 u classes

theorem Machine.Quiet.load {σ : Machine ℕ} (h : σ.Quiet) {t key given start : ℕ}
    (hpc : σ.pc t = .load key given start) :
    (σ.next id (.load t)).Quiet := by
  refine ⟨?_, fun u classes => ?_⟩
  · simpa [next, act, advance, hpc, setPc, setCache] using h.1
  · by_cases hu : u = t
    · subst hu
      simp [next, act, advance, hpc, setPc, setCache]
    · simpa [next, act, advance, hpc, setPc, setCache, hu] using h.2 u classes

/-- Class 0 is not registered while the second lookup takes place. -/
theorem Gone.not_seen {σ : Machine ℕ} (h : Gone (2 ^ 63 - 1) σ) :
    ¬(runList (Machine.next id) σ secondLookup).Seen (σ.now + 2) (σ.now + 4) 0 := by
  have hcalled : (σ.next id (.insert 1 1) |>.next id (.invalidate 1)).Quiet := by
    refine ⟨by simp [Machine.next, Machine.act, Machine.setPc, h.table], fun t classes => ?_⟩
    by_cases ht : t = 1
    · simp [Machine.next, Machine.act, Machine.setPc, ht]
    · simpa [Machine.next, Machine.act, Machine.setPc, ht] using h.others t classes
  generalize hτ : (σ.next id (.insert 1 1)).next id (.invalidate 1) = τ at hcalled
  have hnow : τ.now = σ.now + 2 := by rw [← hτ]; rfl
  have hmoment : τ.moment τ.now = τ.present := by
    rw [← hτ]
    exact Function.update_self _ _ _
  have hload := hcalled.call 0 16
  have hpc : (τ.next id (.call 0 16)).pc 0 = .load 16 (τ.buffer 16) τ.now := τ.setPc_pc 0 _
  have hprobe := hload.load hpc
  have hrun : runList (Machine.next id) σ secondLookup =
      ((τ.next id (.call 0 16)).next id (.load 0)).next id (.probe 0) := by rw [← hτ]; rfl
  rintro ⟨k, hstart, hstop, hreg⟩
  rw [hrun] at hreg
  obtain rfl | rfl | rfl : k = τ.now ∨ k = τ.now + 1 ∨ k = τ.now + 2 := by omega
  · rw [Machine.moment_next _ _ (show τ.now ≤ τ.now + 2 by omega),
      Machine.moment_next _ _ (show τ.now ≤ τ.now + 1 by omega), Machine.moment_next _ _ le_rfl,
      hmoment] at hreg
    exact hcalled.not_registered hreg
  · rw [Machine.moment_next _ _ (show τ.now + 1 ≤ τ.now + 2 by omega),
      Machine.moment_next _ _ (show τ.now + 1 ≤ τ.now + 1 by omega), Machine.moment_now_next] at hreg
    exact hload.not_registered hreg
  · have hnow' : (τ.next id (.call 0 16)).now + 1 = τ.now + 2 := rfl
    rw [Machine.moment_next _ _ (show τ.now + 2 ≤ τ.now + 2 by omega), ← hnow',
      Machine.moment_now_next] at hreg
    exact hprobe.not_registered hreg

/-- After 2^64 changes of the class table a lookup returns a class that has been removed long ago. -/
theorem stale_class_returned : ¬∀ σ : Machine ℕ, Runs (guarded (Machine.Ok id) (Machine.next id)) start σ →
    ∀ t given start stop result, σ.pc t = .returned given start stop result →
      σ.Transparent id given start stop result := by
  intro hall
  obtain ⟨σ, hruns, hgone⟩ := runs_gone (2 ^ 63 - 1)
  have hlast := hruns.trans (runs_of_allOk secondLookup σ hgone.allOk_secondLookup)
  exact hgone.not_seen (hall _ hlast 0 0 _ _ _ hgone.returned).2

end Libobjc2.Classes.LookupCache
