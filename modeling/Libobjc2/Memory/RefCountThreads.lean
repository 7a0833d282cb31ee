import Libobjc2.Common.Run
import Libobjc2.Memory.RefCount

/-!
# Threads sharing one reference count (`src/memory/arc.mm`, class `RefCount`)

Threads call the methods of `RefCount` on one object. Every load, `fetch_add`, `fetch_sub`
and compare-exchange is one step, and the steps of different threads interleave freely; a
compare-exchange may fail spuriously. A thread calls `increment` and `decrement` only while it
owns a reference, and a `decrement` gives one up.

Results:
* `countInv_next`: every step keeps `CountInv`, which ties the word to the number of
  references owned by all threads.
* `counting_safe`: in every run the last reference is dropped at most once, when no thread
  owns one; it reports the weak flag truthfully, and no weak-to-strong retain succeeds later.
-/

namespace Libobjc2.Memory.RefCount

open Libobjc2.Common

/-! ## Model -/

/-- Where a thread is: outside every method, before the undo of `increment` or of
    `decrement`, or at the head of a compare-exchange loop with the value it last read. -/
inductive Pc where
  | idle
  | undoIncrement
  | undoDecrement
  | incrementIfLive (v : Word)
  | markWeaklyReferenced (v : Word)
  deriving DecidableEq

/-- What the methods return and exchange, as it happens. -/
inductive Event where
  | incremented
  | decremented (wasWeaklyReferenced : Option Bool)
  | incrementedIfLive (r : Bool)
  | exchangedWeakFlag
  deriving DecidableEq

/-- The first atomic step of a method, or the next one of the method in progress. -/
inductive Action where
  | increment
  | decrement
  | incrementIfLive
  | markWeaklyReferenced
  | resume (spurious : Bool)
  deriving DecidableEq

/-- The word, the threads, the references each owns, and the history, newest event first. -/
structure State (Thread : Type) where
  word : Word
  pc : Thread → Pc
  owned : Thread → ℕ
  history : List Event

variable {Thread : Type}

/-- A new object whose references are held as `owned` says. -/
def State.initial [Fintype Thread] (owned : Thread → ℕ) : State Thread :=
  ⟨encode false (∑ t, owned t - 1), fun _ => .idle, owned, []⟩

namespace State

section Steps

variable [DecidableEq Thread] (s : State Thread) (t : Thread)

def setPc (pc : Pc) : State Thread := { s with pc := Function.update s.pc t pc }

def gain : State Thread := { s with owned := Function.update s.owned t (s.owned t + 1) }

def giveUp : State Thread := { s with owned := Function.update s.owned t (s.owned t - 1) }

def emit (e : Event) : State Thread := { s with history := e :: s.history }

/-- A compare-exchange of `v` by `updated`. -/
def exchanges (v : Word) (spurious : Bool) : Bool := s.word = v && !spurious

/-- The turn of the `incrementIfLive` loop that read `v`. -/
def resumeIncrementIfLive (v : Word) (spurious : Bool) : State Thread :=
  match RefCount.incrementIfLive v with
  | .done r => (((if r then s.gain t else s).setPc t .idle).emit (.incrementedIfLive r))
  | .exchange updated =>
    if s.exchanges v spurious then
      ((({ s with word := updated }).gain t).setPc t .idle).emit (.incrementedIfLive true)
    else s.setPc t (.incrementIfLive s.word)

/-- The turn of the `markWeaklyReferenced` loop that read `v`. -/
def resumeMarkWeaklyReferenced (v : Word) (spurious : Bool) : State Thread :=
  match RefCount.markWeaklyReferenced v with
  | .done _ => s.setPc t .idle
  | .exchange updated =>
    if s.exchanges v spurious then
      (({ s with word := updated }).setPc t .idle).emit .exchangedWeakFlag
    else s.setPc t (.markWeaklyReferenced s.word)

/-- One atomic step of thread `t`. -/
def next (a : Thread × Action) : State Thread :=
  match a with
  | (t, .increment) =>
    let s' := { s with word := s.word + 1 }
    if incrementSaturated s.word then s'.setPc t .undoIncrement
    else (s'.gain t).emit .incremented
  | (t, .decrement) =>
    let s' := ({ s with word := s.word - 1 }).giveUp t
    match decrementOutcome s.word with
    | .live => s'.emit (.decremented none)
    | .saturated => s'.setPc t .undoDecrement
    | .last wasWeaklyReferenced => s'.emit (.decremented (some wasWeaklyReferenced))
  | (t, .incrementIfLive) => s.setPc t (.incrementIfLive s.word)
  | (t, .markWeaklyReferenced) => s.setPc t (.markWeaklyReferenced s.word)
  | (t, .resume spurious) =>
    match s.pc t with
    | .idle => s
    | .undoIncrement => ((({ s with word := s.word - 1 }).gain t).setPc t .idle).emit .incremented
    | .undoDecrement => (({ s with word := s.word + 1 }).setPc t .idle).emit (.decremented none)
    | .incrementIfLive v => s.resumeIncrementIfLive t v spurious
    | .markWeaklyReferenced v => s.resumeMarkWeaklyReferenced t v spurious

end Steps

variable (s : State Thread)

/-- A thread starts a method outside of every other one, and `increment` and `decrement` only
    while it owns a reference. -/
def Calls : Thread × Action → Prop
  | (t, .increment) | (t, .decrement) => s.pc t = .idle ∧ 0 < s.owned t
  | (t, .incrementIfLive) | (t, .markWeaklyReferenced) => s.pc t = .idle
  | (t, .resume _) => s.pc t ≠ .idle

variable [Fintype Thread]

/-- The references outstanding. -/
def outstanding : ℕ := ∑ t, s.owned t

/-- A step that may be taken, with fewer than `count_max` minus the number of threads
    references outstanding. -/
def Allowed (a : Thread × Action) : Prop :=
  s.outstanding < countMax.toNat - Fintype.card Thread ∧ s.Calls a

instance (a : Thread × Action) : Decidable (s.Calls a) := by
  unfold Calls
  split <;> infer_instance

instance (a : Thread × Action) : Decidable (s.Allowed a) :=
  inferInstanceAs (Decidable (_ ∧ _))

end State

/-! ## Specification -/

/-- The history of a safe run: the last reference is dropped at most once, then reports
    exactly whether the weak flag was exchanged in before, and no weak-to-strong retain
    succeeds after it. -/
def SafeHistory : List Event → Prop
  | [] => True
  | .decremented (some w) :: earlier =>
    (∀ w', .decremented (some w') ∉ earlier) ∧ (w = true ↔ .exchangedWeakFlag ∈ earlier) ∧
      SafeHistory earlier
  | .incrementedIfLive true :: earlier =>
    (∀ w', .decremented (some w') ∉ earlier) ∧ SafeHistory earlier
  | _ :: earlier => SafeHistory earlier

/-! ## The invariant -/

/-- No thread is about to undo, and no `incrementIfLive` loop read a saturated count. -/
def Pc.Ok : Pc → Prop
  | .idle | .markWeaklyReferenced _ => True
  | .undoIncrement | .undoDecrement => False
  | .incrementIfLive v => count v ≠ countMax

/-- Some `decrement` returned `true`. -/
def Dropped (history : List Event) : Prop := ∃ w, .decremented (some w) ∈ history

/-- Before the last reference is dropped the word counts the references outstanding and
    carries the weak flag; afterwards it stays at the sentinel. -/
structure CountInv [Fintype Thread] (s : State Thread) : Prop where
  pcs : ∀ t, (s.pc t).Ok
  history : SafeHistory s.history
  live : ¬ Dropped s.history →
    ∃ n, s.outstanding = n + 1 ∧ s.word = encode (decide (.exchangedWeakFlag ∈ s.history)) n
  dropped : Dropped s.history → s.outstanding = 0 ∧ count s.word = countMask

section

variable {s : State Thread} {t : Thread}

theorem pcs_setPc [DecidableEq Thread] (h : ∀ u, (s.pc u).Ok) {pc : Pc} (hpc : pc.Ok) (u : Thread) :
    ((s.setPc t pc).pc u).Ok := by
  unfold State.setPc
  rcases eq_or_ne u t with rfl | hne
  · simpa using hpc
  · simpa [Function.update_of_ne hne] using h u

variable [Fintype Thread]

@[simp] theorem outstanding_emit (e : Event) : (s.emit e).outstanding = s.outstanding := rfl

theorem owned_le_outstanding : s.owned t ≤ s.outstanding :=
  Finset.single_le_sum (fun _ _ => Nat.zero_le _) (Finset.mem_univ t)

/-- With few references outstanding the counter of the word is not saturated. -/
theorem CountInv.count_ne_countMax (h : CountInv s) (hfew : s.outstanding ≤ countMax.toNat) :
    count s.word ≠ countMax := by
  rw [countMax_toNat] at hfew
  by_cases hd : Dropped s.history
  · rw [(h.dropped hd).2]
    decide
  · obtain ⟨n, hn, hw⟩ := h.live hd
    rw [hw]
    exact count_encode_ne_countMax (by omega)

/-- A successful exchange hits a live word: the loops give up on the sentinel. -/
theorem CountInv.live_of_exchanges (h : CountInv s) {v : Word} {spurious : Bool}
    (hv : count v ≠ countMask) (hx : s.exchanges v spurious = true) :
    ¬ Dropped s.history ∧ s.word = v := by
  have hword : s.word = v := by
    rw [State.exchanges, Bool.and_eq_true, decide_eq_true_eq] at hx
    exact hx.1
  refine ⟨fun hd => hv ?_, hword⟩
  rw [← hword]
  exact (h.dropped hd).2

theorem countInv_initial {owned : Thread → ℕ} (h : 0 < ∑ t, owned t) :
    CountInv (State.initial owned) := by
  refine ⟨fun _ => trivial, trivial, fun _ => ⟨∑ t, owned t - 1, ?_, by simp [State.initial]⟩, ?_⟩
  · simp only [State.outstanding, State.initial]
    omega
  · rintro ⟨w, hw⟩
    simp [State.initial] at hw

variable [DecidableEq Thread]

@[simp] theorem outstanding_setPc (pc : Pc) : (s.setPc t pc).outstanding = s.outstanding := rfl

theorem outstanding_gain : (s.gain t).outstanding = s.outstanding + 1 := by
  unfold State.outstanding State.gain
  rw [Finset.sum_update_of_mem (Finset.mem_univ t),
    Finset.sum_eq_add_sum_sdiff_singleton_of_mem (Finset.mem_univ t) s.owned]
  ring

theorem outstanding_giveUp (h : 0 < s.owned t) : (s.giveUp t).outstanding + 1 = s.outstanding := by
  unfold State.outstanding State.giveUp
  rw [Finset.sum_update_of_mem (Finset.mem_univ t),
    Finset.sum_eq_add_sum_sdiff_singleton_of_mem (Finset.mem_univ t) s.owned]
  omega

/-- Moving one thread to another place keeps the invariant. -/
theorem CountInv.setPc (h : CountInv s) {pc : Pc} (hpc : pc.Ok) : CountInv (s.setPc t pc) :=
  ⟨pcs_setPc h.pcs hpc, h.history, h.live, h.dropped⟩

theorem countInv_increment (h : CountInv s) (hfew : s.outstanding < 2 ^ 62 - 2) (howns : 0 < s.owned t) :
    CountInv (s.next (t, .increment)) := by
  have hpos : 0 < s.outstanding := howns.trans_le owned_le_outstanding
  have hd : ¬ Dropped s.history := fun hd => by
    have := (h.dropped hd).1
    omega
  obtain ⟨n, hn, hw⟩ := h.live hd
  have hsat : incrementSaturated s.word = false := by
    rw [hw]
    exact incrementSaturated_encode (by omega)
  have hnext : s.next (t, .increment) = (({ s with word := s.word + 1 }).gain t).emit .incremented := by
    simp [State.next, hsat]
  have hd' : ¬ Dropped (s.next (t, .increment)).history := by
    rintro ⟨w, hmem⟩
    rw [hnext] at hmem
    exact hd ⟨w, by simpa [State.emit, State.gain] using hmem⟩
  refine ⟨?_, ?_, fun _ => ⟨n + 1, ?_, ?_⟩, fun hdrop => absurd hdrop hd'⟩
  · rw [hnext]
    exact h.pcs
  · rw [hnext]
    exact h.history
  · rw [hnext, outstanding_emit, outstanding_gain]
    exact congrArg (· + 1) hn
  · rw [hnext]
    simp only [State.emit, State.gain, List.mem_cons, reduceCtorEq, false_or]
    rw [hw, encode_add_one]

theorem countInv_decrement (h : CountInv s) (hfew : s.outstanding < 2 ^ 62 - 2) (howns : 0 < s.owned t) :
    CountInv (s.next (t, .decrement)) := by
  have hpos : 0 < s.outstanding := howns.trans_le owned_le_outstanding
  have hd : ¬ Dropped s.history := fun hd => by
    have := (h.dropped hd).1
    omega
  obtain ⟨n, hn, hw⟩ := h.live hd
  have hout : ∀ word, (({ s with word := word } : State Thread).giveUp t).outstanding = n := by
    intro word
    have : (({ s with word := word } : State Thread).giveUp t).outstanding + 1 = s.outstanding :=
      outstanding_giveUp (s := { s with word := word }) howns
    omega
  have hdec : decrementOutcome s.word =
      if n = 0 then .last (decide (.exchangedWeakFlag ∈ s.history)) else .live := by
    rw [hw]
    exact decrementOutcome_encode (by omega)
  cases n with
  | zero =>
    have hnext : s.next (t, .decrement) =
        (({ s with word := s.word - 1 }).giveUp t).emit
          (.decremented (some (decide (Event.exchangedWeakFlag ∈ s.history)))) := by
      simp [State.next, hdec]
    rw [hnext]
    refine ⟨h.pcs, ⟨fun w hw => hd ⟨w, hw⟩, by simp [State.giveUp], h.history⟩, ?_, fun _ => ⟨?_, ?_⟩⟩
    · exact fun hnd => absurd ⟨_, List.mem_cons_self⟩ hnd
    · rw [outstanding_emit, hout]
    · have := encode_zero_sub_one_deallocating (decide (.exchangedWeakFlag ∈ s.history))
      rw [← hw, isDeallocating, beq_iff_eq] at this
      exact this
  | succ n =>
    have hnext : s.next (t, .decrement) =
        (({ s with word := s.word - 1 }).giveUp t).emit (.decremented none) := by
      simp [State.next, hdec]
    have hd' : ¬ Dropped (s.next (t, .decrement)).history := by
      rintro ⟨w, hmem⟩
      rw [hnext] at hmem
      exact hd ⟨w, by simpa [State.emit, State.giveUp] using hmem⟩
    refine ⟨?_, ?_, fun _ => ⟨n, ?_, ?_⟩, fun hdrop => absurd hdrop hd'⟩
    · rw [hnext]
      exact h.pcs
    · rw [hnext]
      exact h.history
    · rw [hnext, outstanding_emit, hout]
    · rw [hnext]
      simp only [State.emit, State.giveUp, List.mem_cons, reduceCtorEq, false_or]
      rw [hw, encode_succ_sub_one]

theorem countInv_resumeIncrementIfLive (h : CountInv s) (hfew : s.outstanding < 2 ^ 62 - 2) {v : Word}
    (hv : count v ≠ countMax) (spurious : Bool) : CountInv (s.resumeIncrementIfLive t v spurious) := by
  unfold State.resumeIncrementIfLive
  by_cases hmask : count v = countMask
  · have hdone : RefCount.incrementIfLive v = .done false := by simp [RefCount.incrementIfLive, hmask]
    simp only [hdone, Bool.false_eq_true, if_false]
    have hd : Dropped ((s.setPc t .idle).emit (.incrementedIfLive false)).history ↔ Dropped s.history := by
      simp [Dropped, State.emit, State.setPc]
    have : CountInv (s.setPc t .idle) := h.setPc trivial
    refine ⟨this.pcs, this.history, fun hn => ?_, fun hn => this.dropped (hd.mp hn)⟩
    obtain ⟨n, hout, hw⟩ := this.live fun hs => hn (hd.mpr hs)
    exact ⟨n, hout, by simpa [State.emit] using hw⟩
  · have hexch : RefCount.incrementIfLive v = .exchange ((count v + 1) ||| (v &&& weakFlag)) := by
      simp [RefCount.incrementIfLive, hmask, hv]
    simp only [hexch]
    split_ifs with hx
    · obtain ⟨hd, rfl⟩ := h.live_of_exchanges hmask hx
      obtain ⟨n, hn, hw⟩ := h.live hd
      have hupd : (count s.word + 1) ||| (s.word &&& weakFlag) =
          encode (decide (.exchangedWeakFlag ∈ s.history)) (n + 1) := by
        have hlive := @incrementIfLive_encode (decide (Event.exchangedWeakFlag ∈ s.history)) n (by omega)
        rw [← hw, hexch] at hlive
        exact Attempt.exchange.inj hlive
      refine ⟨?_, ⟨fun w hw => hd ⟨w, hw⟩, h.history⟩, fun _ => ⟨n + 1, ?_, ?_⟩, ?_⟩
      · exact pcs_setPc (s := ({ s with word := _ } : State Thread).gain t) h.pcs trivial
      · rw [outstanding_emit, outstanding_setPc, outstanding_gain]
        exact congrArg (· + 1) hn
      · simp only [State.emit, State.setPc, State.gain, List.mem_cons, reduceCtorEq, false_or]
        exact hupd
      · rintro ⟨w, hmem⟩
        exact absurd ⟨w, by simpa [State.emit, State.setPc, State.gain] using hmem⟩ hd
    · refine h.setPc (h.count_ne_countMax ?_)
      rw [countMax_toNat]
      omega

theorem countInv_resumeMarkWeaklyReferenced (h : CountInv s) (hfew : s.outstanding < 2 ^ 62 - 2)
    (v : Word) (spurious : Bool) : CountInv (s.resumeMarkWeaklyReferenced t v spurious) := by
  unfold State.resumeMarkWeaklyReferenced
  cases hm : RefCount.markWeaklyReferenced v with
  | done => exact h.setPc trivial
  | exchange updated =>
    have hmask : count v ≠ countMask := by
      intro hmask
      simp [RefCount.markWeaklyReferenced, hmask] at hm
    simp only
    split_ifs with hx
    · obtain ⟨hd, rfl⟩ := h.live_of_exchanges hmask hx
      obtain ⟨n, hn, hw⟩ := h.live hd
      rw [hw, markWeaklyReferenced_encode (by omega)] at hm
      have hupd : updated = encode true n := by
        split_ifs at hm
        exact (Attempt.exchange.inj hm).symm
      refine ⟨?_, h.history, fun _ => ⟨n, hn, ?_⟩, ?_⟩
      · exact pcs_setPc (s := ({ s with word := _ } : State Thread)) h.pcs trivial
      · simp [State.emit, State.setPc, hupd]
      · rintro ⟨w, hmem⟩
        exact absurd ⟨w, by simpa [State.emit, State.setPc] using hmem⟩ hd
    · exact h.setPc trivial

/-- **The step lemma.** -/
theorem countInv_next (h : CountInv s) (a : Thread × Action) (hok : s.Allowed a) :
    CountInv (s.next a) := by
  obtain ⟨hfew, hcall⟩ := hok
  rw [countMax_toNat] at hfew
  have hfew' : s.outstanding < 2 ^ 62 - 2 := by omega
  obtain ⟨t, act⟩ := a
  cases act with
  | increment => exact countInv_increment h hfew' hcall.2
  | decrement => exact countInv_decrement h hfew' hcall.2
  | incrementIfLive =>
    refine h.setPc (h.count_ne_countMax ?_)
    rw [countMax_toNat]
    omega
  | markWeaklyReferenced => exact h.setPc trivial
  | resume spurious =>
    have hpc := h.pcs t
    unfold State.next
    simp only
    cases heq : s.pc t with
    | idle => exact h
    | undoIncrement => rw [heq] at hpc; exact hpc.elim
    | undoDecrement => rw [heq] at hpc; exact hpc.elim
    | incrementIfLive v =>
      rw [heq] at hpc
      exact countInv_resumeIncrementIfLive h hfew' hpc spurious
    | markWeaklyReferenced v => exact countInv_resumeMarkWeaklyReferenced h hfew' v spurious

end

/-! ## Reference counting is safe -/

theorem SafeHistory.tail {e : Event} {history : List Event} (h : SafeHistory (e :: history)) :
    SafeHistory history := by
  cases e with
  | decremented w =>
    cases w with
    | none => exact h
    | some w => exact h.2.2
  | incrementedIfLive r =>
    cases r with
    | false => exact h
    | true => exact h.2
  | incremented => exact h
  | exchangedWeakFlag => exact h

theorem SafeHistory.of_append {earlier : List Event} :
    ∀ {later : List Event}, SafeHistory (later ++ earlier) → SafeHistory earlier
  | [], h => h
  | _ :: _, h => SafeHistory.of_append h.tail

/-- After the last reference was dropped no `decrement` drops it again, and no
    `incrementIfLive` succeeds. -/
theorem SafeHistory.later {later earlier : List Event} {w : Bool}
    (h : SafeHistory (later ++ .decremented (some w) :: earlier)) :
    (∀ w', .decremented (some w') ∉ later) ∧ .incrementedIfLive true ∉ later := by
  refine ⟨fun w' hmem => ?_, fun hmem => ?_⟩
  · obtain ⟨l₁, l₂, rfl⟩ := List.append_of_mem hmem
    rw [List.append_assoc] at h
    exact h.of_append.1 w (by simp)
  · obtain ⟨l₁, l₂, rfl⟩ := List.append_of_mem hmem
    rw [List.append_assoc] at h
    exact h.of_append.1 w (by simp)

/-- **Reference counting is safe under any interleaving.** Let any number of threads run on a
new object, each holding some of its references. In every state reached: if some `decrement`
returned `true`, no thread owns a reference; no other `decrement` returned `true`, before or
after; what it reported is whether the weak flag had been exchanged in earlier; and no
`incrementIfLive` that returned later returned `true`. -/
theorem counting_safe [Fintype Thread] [DecidableEq Thread] {owned : Thread → ℕ} {s : State Thread}
    (hlive : 0 < ∑ t, owned t)
    (hrun : Runs (guarded (fun s => s.Allowed) State.next) (State.initial owned) s)
    {later earlier : List Event} {wasWeaklyReferenced : Bool}
    (hdrop : s.history = later ++ .decremented (some wasWeaklyReferenced) :: earlier) :
    (∀ t, s.owned t = 0) ∧
      (∀ w, .decremented (some w) ∉ later ∧ .decremented (some w) ∉ earlier) ∧
      (wasWeaklyReferenced = true ↔ .exchangedWeakFlag ∈ earlier) ∧
      .incrementedIfLive true ∉ later := by
  have hinv : CountInv s := hrun.invariant (countInv_initial hlive) fun u a u' hu hstep => by
    obtain ⟨hok, rfl⟩ := hstep
    exact countInv_next hu a hok
  have hsafe := hinv.history
  rw [hdrop] at hsafe
  obtain ⟨hearlier, hweak, _⟩ := hsafe.of_append
  refine ⟨fun t => ?_, fun w => ⟨hsafe.later.1 w, hearlier w⟩, hweak, hsafe.later.2⟩
  have hzero := (hinv.dropped ⟨wasWeaklyReferenced, by simp [hdrop]⟩).1
  exact Nat.le_zero.mp (hzero ▸ owned_le_outstanding)

/-- One thread drops the only reference between the two steps of another one's weak-to-strong
retain. -/
theorem counting_safe_race :
    (runList State.next (State.initial ![1, 0]) [(1, .markWeaklyReferenced), (1, .resume false),
      (1, .incrementIfLive), (0, .decrement), (1, .resume false), (1, .resume false)]).owned 1 = 0 :=
  (counting_safe (by decide) (runs_of_allOk _ (State.initial ![1, 0]) (by decide))
    (show _ = [Event.incrementedIfLive false] ++ .decremented (some true) :: [.exchangedWeakFlag] by
      decide)).1 1

end Libobjc2.Memory.RefCount
