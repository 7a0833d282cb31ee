import Libobjc2.Memory.WeakReferences

/-!
# The steps of operations on weak references (`src/memory/arc.mm`, lines 1024–1074 and 1179–1438)

Each step of a thread that is in an operation keeps the invariant, and exists unless the thread waits for a
lock. The body of an operation begins with what its slot held at the last look.
-/

namespace Libobjc2.Memory.WeakTable

open Libobjc2.Common

variable {Thread : Type} [DecidableEq Thread] {numShards : ℕ} {σ : State Thread} {t : Thread}

/-! ## The body of an operation -/

omit [DecidableEq Thread] in
/-- A thread that holds the stripe of the block in its slot is the only one to change them. -/
theorem Inv.stable (h : Inv numShards σ) {s : ℕ} {raw : Pointer} (hs : s ∈ σ.shared.live) (hslot : σ.shared.slot s = raw)
    (hheld : ∀ b, raw = .ref b → (σ.shared.shards.refs b).shardIndex ∈ (σ.pc t).held)
    (hgiven : (σ.pc t).givenUp = none) : σ.shared.Stable s raw := by
  rintro b rfl
  refine ⟨hslot, (((h.slots.slot s).held hs b hslot).2).resolve_right ?_⟩
  rintro ⟨u, hu⟩
  have hpc := h.threads u
  -- the thread that gave it up has the same stripe
  have hmem : (σ.shared.shards.refs b).shardIndex ∈ (σ.pc u).held := by
    revert hpc hu
    cases hcase : σ.pc u with
    | inspecting op raw held =>
      cases op with
      | store s' obj =>
        cases raw with
        | ref c =>
          intro hu hpc
          obtain rfl : s' = s := Option.some.inj hu
          obtain ⟨-, hlocked, -, hgiven⟩ := hpc
          obtain rfl : c = b := Pointer.ref.inj ((hgiven c rfl).1.symm.trans hslot)
          exact (hlocked.1 c rfl).2
        | _ => exact fun hu => by cases hu
      | _ => exact fun hu => by cases hu
    | storing op raw new held =>
      cases op with
      | store s' obj =>
        cases raw with
        | ref c =>
          intro hu hpc
          obtain rfl : s' = s := Option.some.inj hu
          obtain ⟨-, hlocked, hgiven, -⟩ := hpc
          obtain rfl : c = b := Pointer.ref.inj ((hgiven c rfl).1.symm.trans hslot)
          exact (hlocked.1 c rfl).2
        | _ => exact fun hu => by cases hu
      | load s' =>
        cases raw with
        | ref c =>
          intro hu hpc
          obtain rfl : s' = s := Option.some.inj hu
          obtain ⟨-, hlocked, hgiven, -⟩ := hpc
          obtain rfl : c = b := Pointer.ref.inj ((hgiven c rfl).1.symm.trans hslot)
          exact (hlocked.1 c rfl).2
        | _ => exact fun hu => by cases hu
      | _ => exact fun hu => by cases hu
    | _ => exact fun hu => by cases hu
  obtain rfl := h.locks.only (hheld b rfl) hmem
  rw [hgiven] at hu
  cases hu

omit [DecidableEq Thread] in
/-- What a slot stands for, from what it holds. -/
theorem Inv.copied (h : Inv numShards σ) {s : ℕ} {raw : Pointer} (hs : s ∈ σ.shared.live) (hslot : σ.shared.slot s = raw)
    (hstable : σ.shared.Stable s raw) : σ.shared.Copied (σ.shared.designated s) raw := by
  cases raw with
  | nil => exact (h.slots.slot s).nil hs hslot
  | persistent p => exact (h.slots.slot s).persistent hs p hslot
  | ref b => exact ((h.slots.slot s).holds b (hstable b rfl).2).2.2

omit [DecidableEq Thread] in
/-- A load from a slot returns what the slot stands for. -/
theorem Inv.loaded (h : Inv numShards σ) {s : ℕ} {v : Value} (hv : v = σ.shared.current (σ.shared.designated s)) :
    ∀ e ∈ (σ.shared.loaded s v).history, e.result = e.expected := by
  intro e he
  rcases List.mem_cons.mp he with rfl | he
  · exact hv
  · exact h.history e he

/-- The release of a block of a stripe that is held. -/
theorem keeps_releaseRef {m : Shared Thread} {s : ℕ} {raw : Pointer} {exclusive uses held : List ℕ}
    (hheld : ∀ b, raw = .ref b → (m.shards.refs b).shardIndex ∈ held) :
    Keeps t exclusive uses held m (m.releaseRef s raw) := by
  cases raw with
  | ref b =>
    have hrefs : (m.shards.releaseRef b (.slot s)).refs = _ := releaseRef_refs (.slot s)
    refine .shards rfl rfl rfl rfl rfl (releaseRef_refCount _).ge (fun c hc => ?_) fun c hc hnot => ?_
    · show ((m.shards.releaseRef b (.slot s)).refs c).shardIndex = _
      rw [hrefs]
      rcases eq_or_ne c b with rfl | hcb
      · rw [Function.update_self]
        rfl
      · rw [Function.update_of_ne hcb]
    · show (m.shards.releaseRef b (.slot s)).refs c = _
      rw [hrefs]
      have hcb : c ≠ b := fun heq => hnot (by rw [heq]; exact hheld b rfl)
      exact Function.update_of_ne hcb _ _
  | nil => exact .refl
  | persistent p => exact .refl

/-- The block of a slot is released. -/
theorem Inv.table_releaseRef (h : Inv numShards σ) {m : Shared Thread} (hshards : m.shards = σ.shared.shards)
    (hmapped : ∀ a n, σ.shared.Mapped a n → m.Mapped a n) (hgone : m.gone = σ.shared.gone) {s : ℕ} {raw : Pointer}
    (hstable : σ.shared.Stable s raw) :
    Table numShards m.Mapped (m.gone · = true) (m.releaseRef s raw).shards := by
  have htable : Table numShards m.Mapped (m.gone · = true) m.shards := by
    rw [hshards, hgone]
    exact h.table.objects (fun b hb a ha => hmapped a _ (h.table.mapped b hb a ha)) fun _ => id
  cases raw with
  | ref b =>
    have hholder := (hstable b rfl).2
    rw [← hshards] at hholder
    exact htable.releaseRef hholder
  | nil => exact htable
  | persistent p => exact htable

theorem releaseRef_locked {m : Shared Thread} {s : ℕ} {op : Op} {raw raw' : Pointer} {locks : List ℕ}
    (h : m.Locked numShards op raw locks) : (m.releaseRef s raw').Locked numShards op raw locks := by
  refine ⟨fun b hb => ?_, h.2⟩
  obtain ⟨hlt, hmem⟩ := h.1 b hb
  cases raw' with
  | ref c =>
    refine ⟨hlt.trans_eq (releaseRef_refCount _).symm, ?_⟩
    have hshard : ((m.shards.releaseRef c (.slot s)).refs b).shardIndex = (m.shards.refs b).shardIndex := by
      rw [releaseRef_refs]
      rcases eq_or_ne b c with rfl | hbc
      · rw [Function.update_self]
        rfl
      · rw [Function.update_of_ne hbc]
    show ((m.shards.releaseRef c (.slot s)).refs b).shardIndex ∈ locks
    rwa [hshard]
  | nil => exact ⟨hlt, hmem⟩
  | persistent p => exact ⟨hlt, hmem⟩

theorem body_store (m : Shared Thread) (s : ℕ) (obj : Target) (raw : Pointer) (held : List ℕ) :
    m.body (.store s obj) raw held =
      if m.old raw = obj ∧ (obj ≠ .nil ∨ m.stripe raw = none) then (m, .unlocking none held)
      else (m, .marking (.store s obj) raw held) := by
  cases raw <;> rfl

theorem body_copy (m : Shared Thread) (dest src : ℕ) (raw : Pointer) (held : List ℕ) :
    m.body (.copy dest src) raw held = (m, .copying dest src raw (m.designated src) held) := by
  cases raw <;> rfl

theorem body_move (m : Shared Thread) (dest src : ℕ) (raw : Pointer) (held : List ℕ) :
    m.body (.move dest src) raw held = (m, .moving dest src raw held) := by
  cases raw <;> rfl

theorem body_destroy (m : Shared Thread) (s : ℕ) (raw : Pointer) (held : List ℕ) :
    m.body (.destroy s) raw held = ({ m.releaseRef s raw with live := m.live.erase s }, .unlocking none held) := by
  cases raw <;> rfl

/-- **The body of an operation** begins once the slot is known to hold `raw`. -/
theorem Inv.body (h : Inv numShards σ) {op : Op} {s : ℕ} {raw : Pointer} (hsrc : op.src = some s)
    (hop : (σ.pc t).op = some op) (hready : σ.shared.Ready t op)
    (hlocked : σ.shared.Locked numShards op raw (σ.pc t).held) (hslot : σ.shared.slot s = raw)
    (hgiven : (σ.pc t).givenUp = none) (hcarried : (σ.pc t).carried = none) :
    Inv numShards ({ σ with shared := (σ.shared.body op raw (σ.pc t).held).1 }.go t
      (σ.shared.body op raw (σ.pc t).held).2) := by
  have hheld : ∀ b, raw = .ref b → (σ.shared.shards.refs b).shardIndex ∈ (σ.pc t).held := fun b hb => (hlocked.1 b hb).2
  cases op with
  | init _ _ => cases hsrc
  | deleteRefs _ => cases hsrc
  | store s' obj =>
    obtain rfl : s' = s := Option.some.inj hsrc
    have hstable := h.stable hready.1 hslot hheld hgiven
    rw [body_store]
    split
    · exact h.goOn (fun _ hagain => by cases hagain) rfl (.inr rfl) hgiven.symm hcarried.symm
    · exact h.goOn ⟨hready, hlocked, hstable⟩ rfl (.inl hop.symm) hgiven.symm hcarried.symm
  | load s' =>
    obtain rfl : s' = s := Option.some.inj hsrc
    have hstable := h.stable hready hslot hheld hgiven
    have hcopied := h.copied hready hslot hstable
    have hloaded : ∀ v : Value, v = σ.shared.current (σ.shared.designated s') →
        Inv numShards ({ σ with shared := σ.shared.loaded s' v }.go t (.unlocking none (σ.pc t).held)) := by
      intro v hv
      have hslots : Slots (σ.shared.loaded s' v) σ.pc :=
        h.slots.congr rfl rfl rfl (fun _ => rfl) (fun _ => rfl) rfl fun _ => id
      exact h.advance (.shards rfl rfl rfl rfl rfl le_rfl (fun _ _ => rfl) fun _ _ _ => rfl) h.table
        (h.objects.congr rfl rfl rfl) (hslots.go hgiven.symm hcarried.symm) (h.loaded hv) (fun _ hagain => by cases hagain) rfl (.inr rfl)
    cases raw with
    | nil => exact hloaded _ hcopied.symm
    | persistent p => exact hloaded _ (by rw [show σ.shared.designated s' = .persistent p from hcopied]; rfl)
    | ref b =>
      obtain ⟨hb, hmem⟩ := hlocked.1 b rfl
      have hholder := (hstable b rfl).2
      cases hobj : (σ.shared.shards.refs b).obj with
      | some a =>
        have hbody : σ.shared.body (.load s') (.ref b) (σ.pc t).held =
            (σ.shared, .retaining s' b a (σ.pc t).held) := by simp only [Shared.body, hobj]
        rw [hbody]
        exact h.goOn ⟨hready, hlocked, hstable, hobj⟩ rfl (.inl hop.symm) hgiven.symm hcarried.symm
      | none =>
        -- the object is gone
        have hbody : σ.shared.body (.load s') (.ref b) (σ.pc t).held =
            ((σ.shared.loaded s' .nil).releaseRef s' (.ref b), .storing (.load s') (.ref b) .nil (σ.pc t).held) := by
          simp only [Shared.body, hobj]
        rw [hbody]
        have hnil : σ.shared.current (σ.shared.designated s') = .nil := by
          rw [show σ.shared.designated s' = .object _ from hcopied]
          exact if_pos (h.table.deleted b hb (Finset.ne_empty_of_mem hholder) hobj)
        have hslots : Slots (σ.shared.loaded s' .nil) σ.pc :=
          h.slots.congr rfl rfl rfl (fun _ => rfl) (fun _ => rfl) rfl fun _ => id
        refine h.advance ?_ (h.table_releaseRef (m := σ.shared.loaded s' .nil) rfl (fun _ _ => id) rfl hstable)
          (h.objects.congr rfl rfl rfl) (hslots.giveUp hslot hb hgiven rfl hcarried.symm) (h.loaded hnil.symm)
          ⟨hready, releaseRef_locked hlocked, ?_, ⟨b, rfl⟩, rfl, hnil⟩ rfl (.inl hop.symm)
        · have hloaded : Keeps t (σ.pc t).exclusive (σ.pc t).uses (σ.pc t).held σ.shared (σ.shared.loaded s' .nil) :=
            .shards rfl rfl rfl rfl rfl le_rfl (fun _ _ => rfl) fun _ _ _ => rfl
          exact hloaded.trans
            (keeps_releaseRef (m := σ.shared.loaded s' .nil) hheld)
        · rintro c hc
          obtain rfl := Pointer.ref.inj hc
          exact ⟨hslot, released_not_held (m := σ.shared.loaded s' .nil) hslot hslots _⟩
  | copy dest src =>
    obtain rfl : src = s := Option.some.inj hsrc
    have hstable := h.stable hready.2 hslot hheld hgiven
    rw [body_copy]
    exact h.goOn ⟨hready, hlocked, hstable, h.copied hready.2 hslot hstable⟩ rfl (.inl hop.symm) hgiven.symm
      hcarried.symm
  | move dest src =>
    obtain rfl : src = s := Option.some.inj hsrc
    rw [body_move]
    exact h.goOn ⟨hready, hlocked, h.stable hready.2 hslot hheld hgiven⟩ rfl (.inl hop.symm) hgiven.symm hcarried.symm
  | destroy s' =>
    obtain rfl : s' = s := Option.some.inj hsrc
    have hstable := h.stable hready hslot hheld hgiven
    rw [body_destroy]
    refine h.advance ?_ ?_ ?_
      (h.slots.destroy hslot hgiven hcarried.symm) ?_ (fun _ hagain => by cases hagain) rfl (.inr rfl)
    · have hk : Keeps t (σ.pc t).exclusive (σ.pc t).uses (σ.pc t).held σ.shared (σ.shared.releaseRef s' raw) :=
        keeps_releaseRef hheld
      have hexclusive : s' ∈ (σ.pc t).exclusive := by simp [Pc.exclusive, hop, Op.exclusive]
      refine { hk with live := fun x hx => ?_ }
      have hne : x ≠ s' := fun heq => hx (heq ▸ hexclusive)
      show x ∈ σ.shared.live.erase s' ↔ _
      simp [hne]
    · exact by
        have htable := h.table_releaseRef (m := { σ.shared with live := σ.shared.live.erase s' }) rfl (fun _ _ => id) rfl
          hstable
        cases raw <;> exact htable
    · cases raw <;> exact h.objects.congr rfl rfl rfl
    · cases raw <;> exact h.history

/-! ## Steps -/

/-- A thread that is in an operation has its next step, and the step keeps the invariant. -/
def Advances (numShards : ℕ) (σ : State Thread) (t : Thread) : Prop :=
  ∃ r, σ.shared.run numShards t (σ.pc t) = some r ∧
    (σ.Undisturbed t → Inv numShards ({ σ with shared := r.1 }.go t r.2))

theorem guardOrder_mem {i j : Option ℕ} {l : ℕ} : l ∈ guardOrder i j ↔ i = some l ∨ j = some l := by
  rcases i with _ | i <;> rcases j with _ | j
  · simp [guardOrder]
  · simp [guardOrder, eq_comm]
  · simp [guardOrder, eq_comm]
  · have heq : guardOrder (some i) (some j) = if i = j then [i] else if i < j then [i, j] else [j, i] := rfl
    rw [heq]
    split
    · next hij => simp [hij, eq_comm]
    · split
      · simp [eq_comm]
      · simp [eq_comm, or_comm]

theorem guardOrder_pairwise (i j : Option ℕ) : (guardOrder i j).Pairwise (· < ·) := by
  rcases i with _ | i <;> rcases j with _ | j
  · exact .nil
  · exact List.pairwise_singleton _ _
  · exact List.pairwise_singleton _ _
  · have heq : guardOrder (some i) (some j) = if i = j then [i] else if i < j then [i, j] else [j, i] := rfl
    rw [heq]
    split
    · exact List.pairwise_singleton _ _
    · next hne =>
      split
      · next hlt => simpa using hlt
      · next hlt => simpa using lt_of_le_of_ne (not_lt.mp hlt) (Ne.symm hne)

theorem run_peeking (m : Shared Thread) {op : Op} {s : ℕ} (hs : op.src = some s) (hop : ∀ s' obj, op ≠ .store s' obj) :
    m.run numShards t (.peeking op) = some (match m.slot s with
      | .ref b => (m, .locking op (.ref b) [] [(m.shards.refs b).shardIndex])
      | raw => m.body op raw []) := by
  cases op with
  | store s' obj => exact absurd rfl (hop s' obj)
  | init _ _ => cases hs
  | deleteRefs _ => cases hs
  | _ =>
    obtain rfl := Option.some.inj hs
    cases hraw : m.slot _ <;> simp [Shared.run, Op.src, hraw]

theorem Inv.peeking (h : Inv numShards σ) {op : Op} (hpc : σ.pc t = .peeking op) : Advances numShards σ t := by
  obtain ⟨hready, hsrc⟩ : σ.shared.OnPc numShards t (.peeking op) := hpc ▸ h.threads t
  obtain ⟨s, hs⟩ := Option.ne_none_iff_exists'.mp hsrc
  have hop : (σ.pc t).op = some op := by rw [hpc]; rfl
  have hheld : (σ.pc t).held = [] := by rw [hpc]; rfl
  have hgiven : (σ.pc t).givenUp = none := by rw [hpc]; rfl
  have hcarried : (σ.pc t).carried = none := by rw [hpc]; rfl
  have hlive : s ∈ σ.shared.live := by
    cases op with
    | init _ _ => cases hs
    | deleteRefs _ => cases hs
    | store s' obj => exact Option.some.inj hs ▸ hready.1
    | load s' => exact Option.some.inj hs ▸ hready
    | destroy s' => exact Option.some.inj hs ▸ hready
    | copy dest src => exact Option.some.inj hs ▸ hready.2
    | move dest src => exact Option.some.inj hs ▸ hready.2
  have hbound : ∀ b, σ.shared.slot s = .ref b → b < σ.shared.shards.refCount :=
    fun b hb => ((h.slots.slot s).held hlive b hb).1
  -- the locks of the stripes that are found
  have hlock : ∀ ahead : List ℕ, (∀ b, σ.shared.slot s = .ref b → (σ.shared.shards.refs b).shardIndex ∈ ahead) →
      (∀ a, op.object = some a → indexFor numShards a ∈ ahead) → ahead.Pairwise (· < ·) →
      Inv numShards (σ.go t (.locking op (σ.shared.slot s) [] ahead)) := by
    intro ahead hraw hobject hsorted
    refine h.goOn ⟨hready, ⟨fun b hb => ⟨hbound b hb, hraw b hb⟩, hobject⟩, by simp, hsorted, ?_⟩
      hheld.symm (.inl hop.symm) hgiven.symm hcarried.symm
    rw [hs]
    exact fun heq => by cases heq
  -- a slot without a block
  have hbody : (∀ b, σ.shared.slot s ≠ .ref b) → op.object = none →
      Inv numShards ({ σ with shared := (σ.shared.body op (σ.shared.slot s) []).1 }.go t
        (σ.shared.body op (σ.shared.slot s) []).2) := by
    intro hraw hobject
    have hlocked : σ.shared.Locked numShards op (σ.shared.slot s) (σ.pc t).held :=
      ⟨fun b hb => absurd hb (hraw b), by simp [hobject]⟩
    have hadvance := h.body hs hop hready hlocked rfl hgiven hcarried
    rwa [hheld] at hadvance
  unfold Advances
  rw [hpc]
  by_cases hstore : ∃ s' obj, op = .store s' obj
  · obtain ⟨s', obj, rfl⟩ := hstore
    obtain rfl : s' = s := Option.some.inj hs
    refine ⟨_, rfl, fun _ => hlock _ (fun b hb => ?_) (fun a ha => ?_) (guardOrder_pairwise _ _)⟩
    · rw [hb]
      exact guardOrder_mem.mpr (.inl rfl)
    · exact guardOrder_mem.mpr (.inr (by rw [ha]; rfl))
  · have hobject : op.object = none := by
      cases op with
      | store s' obj => exact absurd ⟨s', obj, rfl⟩ hstore
      | init _ _ => cases hs
      | deleteRefs _ => cases hs
      | _ => rfl
    rw [run_peeking σ.shared hs fun s' obj heq => hstore ⟨s', obj, heq⟩]
    refine ⟨_, rfl, fun _ => ?_⟩
    cases hraw : σ.shared.slot s with
    | ref b =>
      rw [hraw] at hlock
      exact hlock _ (fun c hc => by simp [Pointer.ref.inj hc]) (by simp [hobject]) (List.pairwise_singleton _ _)
    | nil =>
      rw [hraw] at hbody
      exact hbody (fun b hb => by cases hb) hobject
    | persistent p =>
      rw [hraw] at hbody
      exact hbody (fun b hb => by cases hb) hobject

theorem Inv.checking (h : Inv numShards σ) {op : Op} {raw : Pointer} {held : List ℕ}
    (hpc : σ.pc t = .checking op raw held) : Advances numShards σ t := by
  obtain ⟨hready, hlocked, hsrc⟩ : σ.shared.OnPc numShards t (.checking op raw held) := hpc ▸ h.threads t
  obtain ⟨s, hs⟩ := Option.ne_none_iff_exists'.mp hsrc
  have hop : (σ.pc t).op = some op := by rw [hpc]; rfl
  have hheld : (σ.pc t).held = held := by rw [hpc]; rfl
  have hgiven : (σ.pc t).givenUp = none := by rw [hpc]; rfl
  have hcarried : (σ.pc t).carried = none := by rw [hpc]; rfl
  unfold Advances
  rw [hpc]
  refine ⟨if σ.shared.slot s = raw then σ.shared.body op raw held else (σ.shared, .unlocking (some op) held), ?_,
    fun _ => ?_⟩
  · simp [Shared.run, hs]
  · split
    · next hslot =>
      have hbody := h.body hs hop hready (by rwa [hheld]) hslot hgiven hcarried
      rwa [hheld] at hbody
    · refine h.goOn (fun op' heq => ?_) hheld.symm (.inl hop.symm) hgiven.symm hcarried.symm
      obtain rfl := Option.some.inj heq
      exact ⟨hready, hsrc⟩

/-- The states differ in their objects only, and none is mapped any less. -/
structure SameSlots (m m' : Shared Thread) : Prop where
  slot : m'.slot = m.slot
  live : m'.live = m.live
  shards : m'.shards = m.shards
  gone : m'.gone = m.gone
  designated : m'.designated = m.designated
  history : m'.history = m.history
  mapped : ∀ x n, m.Mapped x n → m'.Mapped x n

omit [DecidableEq Thread] in
theorem SameSlots.refl {m : Shared Thread} : SameSlots m m := ⟨rfl, rfl, rfl, rfl, rfl, rfl, fun _ _ => id⟩

omit [DecidableEq Thread] in
theorem SameSlots.slots {m m' : Shared Thread} {pc : Thread → Pc} (h : SameSlots m m') (hslots : Slots m pc) :
    Slots m' pc :=
  hslots.congr h.live h.slot h.designated (fun b => by rw [h.shards]) (fun b => by rw [h.shards]) (by rw [h.shards])
    fun n hn => by rwa [h.gone]

/-- What `markWeakTarget` does. -/
structure Marks (t : Thread) (a : ℕ) (m m' : Shared Thread) : Prop extends SameSlots m m' where
  objects : Objects m'
  usable : ∀ x, m.Usable t x → m'.Usable t x
  marked : ∃ o, m'.object a = some o ∧ (o.Marked ∨ o.dying = some t)
  keeps : ∀ exclusive uses held, Keeps t exclusive uses held m m'

theorem mark_spec {m : Shared Thread} (h : Objects m) {a : ℕ} (ha : m.Usable t a) :
    ∃ m', m.mark a = some m' ∧ Marks t a m m' := by
  obtain ⟨o, ho, hor⟩ := ha
  by_cases hnone : o.isBlock = true ∨ o.owners = 0
  · refine ⟨m, by simp [Shared.mark, ho, hnone], .refl, h, fun _ => id, ⟨o, ho, ?_⟩, fun _ _ _ => .refl⟩
    rcases hnone with hblock | hzero
    · exact .inl (.inl hblock)
    · exact .inr (hor.resolve_left fun hmem => Objects.owners_ne_zero hmem hzero)
  · have hobject : ∀ x p, m.object x = some p → ∃ p', Function.update m.object a
        (some { o with weaklyReferenced := true }) x = some p' ∧ p'.allocation = p.allocation ∧
        p'.owners = p.owners ∧ p'.dying = p.dying ∧ p'.weakDeleted = p.weakDeleted ∧ (p.Marked → p'.Marked) := by
      intro x p hp
      rcases eq_or_ne x a with rfl | hx
      · obtain rfl := Option.some.inj (ho.symm.trans hp)
        exact ⟨_, Function.update_self .., rfl, rfl, rfl, rfl, fun _ => .inr rfl⟩
      · exact ⟨p, by rw [Function.update_of_ne hx, hp], rfl, rfl, rfl, rfl, id⟩
    refine ⟨{ m with object := Function.update m.object a (some { o with weaklyReferenced := true }) },
      by simp [Shared.mark, ho, hnone], ⟨rfl, rfl, rfl, rfl, rfl, rfl, fun x n hx => ?_⟩,
      h.set ho rfl rfl rfl rfl Iff.rfl rfl (h.deleted a o ho), fun x hx => ?_,
      ⟨_, Function.update_self .., .inl (.inr rfl)⟩,
      fun _ _ _ => .setObject ho rfl rfl rfl rfl rfl (fun _ => id) fun u _ => ⟨rfl, id, fun hd => ⟨hd, rfl⟩, fun _ => .inr rfl⟩⟩
    · obtain ⟨p, hp, hn, hdeleted, hmarked⟩ := hx
      obtain ⟨p', hp', hn', -, -, hdeleted', hmarked'⟩ := hobject x p hp
      exact ⟨p', hp', hn'.trans hn, hdeleted'.trans hdeleted, hmarked' hmarked⟩
    · obtain ⟨p, hp, hor⟩ := hx
      obtain ⟨p', hp', -, howners, hdying, -⟩ := hobject x p hp
      exact ⟨p', hp', by rwa [howners, hdying]⟩

/-- A store releases what its slot held. -/
theorem Inv.giveUp (h : Inv numShards σ) {s : ℕ} {obj : Target} {raw : Pointer} {held : List ℕ}
    (hpc : σ.pc t = .marking (.store s obj) raw held) {m : Shared Thread} (hsame : SameSlots σ.shared m)
    (hobjects : Objects m) (hkeeps : Keeps t (σ.pc t).exclusive (σ.pc t).uses (σ.pc t).held σ.shared m)
    {pc' : Pc} (hop : pc'.op = some (.store s obj)) (hheld : pc'.held = held)
    (hgiven : ∀ b, raw = .ref b → pc'.givenUp = some s) (hgiven' : (∀ b, raw ≠ .ref b) → pc'.givenUp = none)
    (hcarried : pc'.carried = none)
    (hon : (m.releaseRef s raw).Locked numShards (.store s obj) raw held → (m.releaseRef s raw).GivenUp s raw →
      (m.releaseRef s raw).OnPc numShards t pc') :
    Inv numShards ({ σ with shared := m.releaseRef s raw }.go t pc') := by
  obtain ⟨hready, hlocked, hstable⟩ : σ.shared.OnPc numShards t (.marking (.store s obj) raw held) := hpc ▸ h.threads t
  have hpcHeld : (σ.pc t).held = held := by rw [hpc]; rfl
  have hpcGiven : (σ.pc t).givenUp = none := by rw [hpc]; rfl
  have hpcCarried : (σ.pc t).carried = none := by rw [hpc]; rfl
  have hstripe : ∀ b, raw = .ref b → (m.shards.refs b).shardIndex ∈ (σ.pc t).held := by
    intro b hb
    rw [hsame.shards, hpcHeld]
    exact (hlocked.1 b hb).2
  have hslots : Slots m σ.pc := hsame.slots h.slots
  have hlocked' : m.Locked numShards (.store s obj) raw held := by
    unfold Shared.Locked
    rw [hsame.shards]
    exact hlocked
  refine h.advance (hkeeps.trans (keeps_releaseRef hstripe)) ?_ ?_ ?_ ?_ (hon (releaseRef_locked hlocked') ?_)
    (hheld.trans hpcHeld.symm) (.inl (by rw [hop, hpc]; rfl))
  · have htable := h.table_releaseRef hsame.shards hsame.mapped hsame.gone hstable
    cases raw <;> exact htable
  · cases raw <;> exact hobjects.congr rfl rfl rfl
  · cases raw with
    | ref b =>
      refine hslots.giveUp ?_ ?_ hpcGiven (hgiven b rfl) (hcarried.trans hpcCarried.symm)
      · rw [hsame.slot]
        exact (hstable b rfl).1
      · rw [hsame.shards]
        exact (hlocked.1 b rfl).1
    | nil => exact hslots.go ((hgiven' (by simp)).trans hpcGiven.symm) (hcarried.trans hpcCarried.symm)
    | persistent p => exact hslots.go ((hgiven' (by simp)).trans hpcGiven.symm) (hcarried.trans hpcCarried.symm)
  · intro e he
    refine h.history e ?_
    rw [← hsame.history]
    cases raw <;> exact he
  · rintro b rfl
    have hslot' : m.slot s = .ref b := by
      rw [hsame.slot]
      exact (hstable b rfl).1
    exact ⟨hslot', released_not_held hslot' hslots b⟩

theorem Inv.marking (h : Inv numShards σ) {op : Op} {raw : Pointer} {held : List ℕ}
    (hpc : σ.pc t = .marking op raw held) : Advances numShards σ t := by
  obtain ⟨hready, hlocked, hop⟩ : σ.shared.OnPc numShards t (.marking op raw held) := hpc ▸ h.threads t
  have hpcOp : (σ.pc t).op = some op := by rw [hpc]; rfl
  have hpcHeld : (σ.pc t).held = held := by rw [hpc]; rfl
  have hpcGiven : (σ.pc t).givenUp = none := by rw [hpc]; rfl
  have hpcCarried : (σ.pc t).carried = none := by rw [hpc]; rfl
  unfold Advances
  rw [hpc]
  cases op with
  | init s a =>
    obtain ⟨m, hm, hmarks⟩ := mark_spec h.objects hready.2
    obtain ⟨o, ho, hmarked⟩ := hmarks.marked
    refine ⟨(m, .inspecting (.init s a) raw held), by simp [Shared.run, hm], fun _ => ?_⟩
    refine h.advance (hmarks.keeps _ _ _) ?_ hmarks.objects ?_ ?_ ⟨⟨?_, hmarks.usable a hready.2⟩, ?_,
      ⟨a, o, rfl, ho, hmarked⟩, hop⟩ hpcHeld.symm (.inl hpcOp.symm)
    · rw [hmarks.shards, hmarks.gone]
      exact h.table.objects (fun b hb x hx => hmarks.mapped x _ (h.table.mapped b hb x hx)) fun _ => id
    · refine (hmarks.slots h.slots).go ?_ hpcCarried.symm
      rw [hpcGiven]
      rfl
    · rw [hmarks.history]
      exact h.history
    · rw [hmarks.live]
      exact hready.1
    · unfold Shared.Locked
      rw [hmarks.shards]
      exact hlocked
  | store s obj =>
    cases obj with
    | nil =>
      refine ⟨(σ.shared.releaseRef s raw, .storing (.store s .nil) raw .nil held), rfl, fun _ => ?_⟩
      refine h.giveUp hpc .refl h.objects .refl rfl rfl ?_ ?_ rfl
        fun hlocked' hgiven => ⟨?_, hlocked', hgiven, .inl rfl⟩
      · rintro b rfl
        rfl
      · intro hraw
        cases raw with
        | ref b => exact absurd rfl (hraw b)
        | _ => rfl
      · cases raw <;> exact hready
    | persistent p =>
      refine ⟨(σ.shared.releaseRef s raw, .storing (.store s (.persistent p)) raw (.persistent p) held), rfl, fun _ => ?_⟩
      refine h.giveUp hpc .refl h.objects .refl rfl rfl ?_ ?_ rfl
        fun hlocked' hgiven => ⟨?_, hlocked', hgiven, rfl⟩
      · rintro b rfl
        rfl
      · intro hraw
        cases raw with
        | ref b => exact absurd rfl (hraw b)
        | _ => rfl
      · cases raw <;> exact hready
    | counted a =>
      obtain ⟨m, hm, hmarks⟩ := mark_spec h.objects (hready.2 a rfl)
      obtain ⟨o, ho, hmarked⟩ := hmarks.marked
      refine ⟨(m.releaseRef s raw, .inspecting (.store s (.counted a)) raw held), by simp [Shared.run, hm], fun _ => ?_⟩
      have hready' : m.Ready t (.store s (.counted a)) := by
        refine ⟨by rw [hmarks.live]; exact hready.1, fun a' heq => ?_⟩
        exact hmarks.usable a' (hready.2 a' heq)
      refine h.giveUp hpc hmarks.toSameSlots hmarks.objects (hmarks.keeps _ _ _) rfl rfl ?_ ?_ rfl
        fun hlocked' hgiven => ⟨?_, hlocked', ⟨a, o, rfl, ?_, hmarked⟩, hgiven⟩
      · rintro b rfl
        rfl
      · intro hraw
        cases raw with
        | ref b => exact absurd rfl (hraw b)
        | _ => rfl
      · cases raw <;> exact hready'
      · cases raw <;> exact ho
  | _ => exact hop.elim

/-- The thread that may use an object owns a reference, unless the deallocation has begun. -/
theorem Objects.owner {m : Shared Thread} (h : Objects m) {a : ℕ} {o : Object Thread} (ho : m.object a = some o)
    (ha : m.Usable t a) : if o.owners = 0 then o.dying = some t else t ∈ o.owners ∧ o.dying = none := by
  obtain ⟨o', ho', hor⟩ := ha
  obtain rfl := Option.some.inj (ho.symm.trans ho')
  split
  · next hzero => exact hor.resolve_left fun hmem => Objects.owners_ne_zero hmem hzero
  · next hne =>
    have hdying := (h.dying a o ho).mpr hne
    exact ⟨hor.resolve_right (by rw [hdying]; simp), hdying⟩

omit [DecidableEq Thread] in
theorem Ready_object {m : Shared Thread} {op : Op} {a : ℕ} (h : m.Ready t op) (ha : op.object = some a) :
    m.Usable t a := by
  cases op with
  | init s a' =>
    obtain rfl := Option.some.inj ha
    exact h.2
  | store s obj =>
    cases obj with
    | counted a' =>
      obtain rfl := Option.some.inj ha
      exact h.2 a' rfl
    | _ => cases ha
  | deleteRefs a' =>
    obtain rfl := Option.some.inj ha
    obtain ⟨o, ho, hdying, -⟩ := h
    exact ⟨o, ho, .inr hdying⟩
  | _ => cases ha

theorem Inv.inspecting (h : Inv numShards σ) {op : Op} {raw : Pointer} {held : List ℕ}
    (hpc : σ.pc t = .inspecting op raw held) : Advances numShards σ t := by
  obtain ⟨hready, hlocked, ⟨a, o, ha, ho, hmarked⟩, hop⟩ :
    σ.shared.OnPc numShards t (.inspecting op raw held) := hpc ▸ h.threads t
  have hpcOp : (σ.pc t).op = some op := by rw [hpc]; rfl
  have hpcHeld : (σ.pc t).held = held := by rw [hpc]; rfl
  have hpcCarried : (σ.pc t).carried = none := by rw [hpc]; rfl
  have hgiven : ∀ new, (Pc.storing op raw new held).givenUp = (σ.pc t).givenUp := by
    intro new
    rw [hpc]
    cases op with
    | store s obj => cases raw <;> rfl
    | init s a => cases raw <;> rfl
    | _ => exact hop.elim
  have howner := h.objects.owner ho (Ready_object hready ha)
  have hobj : ∀ s obj, op = .store s obj → obj = .counted a := by
    rintro s obj rfl
    cases obj with
    | counted a' =>
      obtain rfl := Option.some.inj ha
      rfl
    | _ => cases ha
  unfold Advances
  rw [hpc]
  by_cases hzero : o.owners = 0
  · -- the deallocation of the target has begun
    rw [if_pos hzero] at howner
    refine ⟨(σ.shared, .storing op raw .nil held), by simp [Shared.run, ha, ho, hzero], fun _ => ?_⟩
    refine h.goOn ⟨hready, hlocked, ?_⟩ hpcHeld.symm (.inl hpcOp.symm) (hgiven _) hpcCarried.symm
    cases op with
    | init s a' =>
      obtain rfl := Option.some.inj ha
      exact ⟨hop, .inr ⟨a', o, rfl, ho, howner⟩⟩
    | store s obj => exact ⟨hop, .inr ⟨a, o, hobj s obj rfl, ho, howner⟩⟩
    | _ => exact hop.elim
  · rw [if_neg hzero] at howner
    have hmapped : σ.shared.Mapped a o.allocation := by
      refine ⟨o, ho, rfl, ?_, hmarked.resolve_right (by rw [howner.2]; simp)⟩
      cases hdeleted : o.weakDeleted with
      | false => rfl
      | true => exact absurd (h.objects.deleted a o ho hdeleted) hzero
    have hunique : ∀ n, σ.shared.Mapped a n → n = o.allocation := by
      rintro n ⟨o', ho', hn, -⟩
      rw [← hn, Option.some.inj (ho.symm.trans ho')]
    have hnot : ∀ b, .thread t ∉ (σ.shared.shards.refs b).holders := by
      intro b hb
      have := (h.slots.carried b t).mp hb
      rw [hpcCarried] at this
      cases this
    obtain ⟨τ, b, hincrement, htable, hinc⟩ := h.table.increment hmapped hunique hnot
    refine ⟨({ σ.shared with shards := τ }, .storing op raw (.ref b) held),
      by simp [Shared.run, ha, ho, hzero, hincrement], fun _ => ?_⟩
    have hstripe : indexFor numShards a ∈ held := hlocked.2 a ha
    have hshard : ∀ c < σ.shared.shards.refCount, (τ.refs c).shardIndex = (σ.shared.shards.refs c).shardIndex := by
      intro c hc
      rcases eq_or_ne c b with rfl | hcb
      · rw [hinc.home, hinc.home_before hc]
      · rw [hinc.others c hcb]
    have hlocked' : ({ σ.shared with shards := τ } : Shared Thread).Locked numShards op raw held := by
      refine ⟨fun c hc => ?_, hlocked.2⟩
      obtain ⟨hlt, hmem⟩ := hlocked.1 c hc
      exact ⟨hlt.trans_le hinc.refCount, by show (τ.refs c).shardIndex ∈ held; rwa [hshard c hlt]⟩
    have hfresh : ({ σ.shared with shards := τ } : Shared Thread).Fresh t (.counted a) held (.ref b) :=
      ⟨hinc.lt, by show (τ.refs b).shardIndex ∈ held; rwa [hinc.home], a, o, rfl, ho, howner.1, hinc.allocation⟩
    refine h.advance (.shards rfl rfl rfl rfl rfl hinc.refCount hshard fun c hc hnotHeld => ?_) htable
      (h.objects.congr rfl rfl rfl) (h.slots.carry hinc hpcCarried rfl (hgiven _)) h.history ⟨hready, hlocked', ?_⟩
      hpcHeld.symm (.inl hpcOp.symm)
    · refine hinc.others c fun hcb => hnotHeld ?_
      rw [hpcHeld, hcb, hinc.home_before (hcb ▸ hc)]
      exact hstripe
    · cases op with
      | init s a' =>
        obtain rfl := Option.some.inj ha
        exact ⟨hop, hfresh⟩
      | store s obj =>
        obtain rfl := hobj s obj rfl
        refine ⟨fun c hc => ?_, hfresh⟩
        obtain ⟨hslot, hholder⟩ := hop c hc
        refine ⟨hslot, fun hmem => hholder ?_⟩
        have hmem : .slot s ∈ (τ.refs c).holders := hmem
        rcases eq_or_ne c b with rfl | hcb
        · exact ((hinc.holders _).mp hmem).resolve_left (by simp)
        · rwa [hinc.others c hcb] at hmem
      | _ => exact hop.elim

omit [DecidableEq Thread] in
/-- A slot of the operation is written. -/
theorem Keeps.write {m m' : Shared Thread} {exclusive uses held : List ℕ} {s : ℕ}
    (hs : s ∈ uses) (hslot : s ∈ exclusive ∨ s ∈ m.live ∧ ∀ b, m.slot s = .ref b → (m.shards.refs b).shardIndex ∈ held)
    (hlive : m'.live = m.live ∨ m'.live = insert s m.live) (hother : ∀ x, x ≠ s → m'.slot x = m.slot x)
    (hdesignated : ∀ x, x ≠ s → m'.designated x = m.designated x) (hobject : m'.object = m.object)
    (hgone : m'.gone = m.gone) (hcount : m'.shards.refCount = m.shards.refCount)
    (hshard : ∀ b, (m'.shards.refs b).shardIndex = (m.shards.refs b).shardIndex)
    (hrefs : ∀ b, (m.shards.refs b).shardIndex ∉ held → m'.shards.refs b = m.shards.refs b) :
    Keeps t exclusive uses held m m' where
  live x hx := by
    rcases hlive with hlive | hlive
    · rw [hlive]
    · rw [hlive, Finset.mem_insert]
      refine or_iff_right_of_imp ?_
      rintro rfl
      exact (hslot.resolve_left hx).1
  slot x hx := hother x fun heq => hx (heq ▸ hs)
  ref x hx b _ hb hnot := by
    have hne : x ≠ s := by
      rintro rfl
      exact hnot ((hslot.resolve_left hx).2 b hb)
    exact ⟨(hother x hne).trans hb, hdesignated x hne⟩
  refCount := hcount.ge
  shard b _ := hshard b
  refs b _ hnot := hrefs b hnot
  object a o u _ ho _ := ⟨o, by rw [hobject]; exact ho, .refl u o⟩
  gone n hn := by rw [hgone]; exact hn

theorem transfer_shard {τ : Shards Thread} {b : ℕ} {x y : Holder Thread} (c : ℕ) :
    ((τ.transfer b x y).refs c).shardIndex = (τ.refs c).shardIndex := by
  rcases eq_or_ne c b with rfl | hc
  · simp [Shards.transfer]
  · simp [Shards.transfer, setRef_refs_of_ne hc]

/-- What a store makes of the target, and the block. -/
def Shared.written (m : Shared Thread) (t : Thread) (s : ℕ) (obj : Target) (new : Pointer) : Shared Thread :=
  { m with
    slot := Function.update m.slot s new
    live := insert s m.live
    designated := Function.update m.designated s (m.valueOf obj)
    shards := match new with
      | .ref b => m.shards.transfer b (.thread t) (.slot s)
      | _ => m.shards }

/-- A store writes its slot. -/
theorem Inv.written (h : Inv numShards σ) {s : ℕ} {obj : Target} {new : Pointer}
    (hs : s ∈ (σ.pc t).uses) (hslot : s ∈ (σ.pc t).exclusive ∨ s ∈ σ.shared.live ∧
      ∀ b, σ.shared.slot s = .ref b → (σ.shared.shards.refs b).shardIndex ∈ (σ.pc t).held)
    (hnot : ∀ b, .slot s ∉ (σ.shared.shards.refs b).holders) (hfresh : σ.shared.Fresh t obj (σ.pc t).held new)
    (hgiven : ∀ x, (σ.pc t).givenUp = some x → x = s) (hcarried : (σ.pc t).carried = new.block) :
    Inv numShards ({ σ with shared := σ.shared.written t s obj new }.go t (.unlocking none (σ.pc t).held)) := by
  cases new with
  | ref b =>
    obtain ⟨hb, hmem, a, o, rfl, ho, howner, hallocation⟩ := hfresh
    have hvalue : σ.shared.valueOf (.counted a) = .object (σ.shared.shards.refs b).allocation := by
      simp [Shared.valueOf, ho, hallocation]
    have hslots : Slots _ (Function.update σ.pc t (.unlocking none (σ.pc t).held)) :=
      h.slots.writeRef hnot hb hcarried rfl hgiven
    rw [← hvalue] at hslots
    refine h.advance (.write hs hslot (.inr rfl) (fun x hx => Function.update_of_ne hx ..)
      (fun x hx => Function.update_of_ne hx ..) rfl rfl rfl (fun c => transfer_shard c) fun c hc => ?_) ?_
      (h.objects.congr rfl rfl rfl) hslots h.history (fun _ hagain => by cases hagain) rfl (.inr rfl)
    · have hcb : c ≠ b := by
        rintro rfl
        exact hc hmem
      exact setRef_refs_of_ne hcb _
    · exact h.table.transfer ((h.slots.carried b t).mpr hcarried) (hnot b)
  | nil =>
    refine h.advance (.write hs hslot (.inr rfl) (fun x hx => Function.update_of_ne hx ..)
      (fun x hx => Function.update_of_ne hx ..) rfl rfl rfl (fun _ => rfl) fun _ _ => rfl) h.table
      (h.objects.congr rfl rfl rfl) (h.slots.write hnot hcarried rfl (by simp) hgiven (fun _ => ?_) (by simp)) h.history
      (fun _ hagain => by cases hagain) rfl (.inr rfl)
    rcases hfresh with rfl | ⟨a, o, rfl, ho, hdying⟩
    · rfl
    · have hzero : o.owners = 0 := by
        by_contra hne
        rw [(h.objects.dying a o ho).mpr hne] at hdying
        cases hdying
      simp [Shared.valueOf, ho, Shared.current, (h.objects.gone a o ho).mpr hzero]
  | persistent p =>
    obtain rfl : obj = .persistent p := hfresh
    refine h.advance (.write hs hslot (.inr rfl) (fun x hx => Function.update_of_ne hx ..)
      (fun x hx => Function.update_of_ne hx ..) rfl rfl rfl (fun _ => rfl) fun _ _ => rfl) h.table
      (h.objects.congr rfl rfl rfl) (h.slots.write hnot hcarried rfl (by simp) hgiven (by simp) fun q hq => ?_) h.history
      (fun _ hagain => by cases hagain) rfl (.inr rfl)
    exact congrArg Value.persistent (Pointer.persistent.inj hq)

theorem Inv.storing (h : Inv numShards σ) {op : Op} {raw new : Pointer} {held : List ℕ}
    (hpc : σ.pc t = .storing op raw new held) : Advances numShards σ t := by
  obtain ⟨hready, hlocked, hop⟩ : σ.shared.OnPc numShards t (.storing op raw new held) := hpc ▸ h.threads t
  have hpcHeld : (σ.pc t).held = held := by rw [hpc]; rfl
  have hcarried : (σ.pc t).carried = new.block := by
    rw [hpc]
    cases new <;> rfl
  have hundisturbed : ∀ s obj, op = .store s obj → σ.Undisturbed t → raw.block ≠ none ∨ σ.shared.slot s = raw := by
    rintro s obj rfl hraw
    unfold State.Undisturbed at hraw
    rwa [hpc] at hraw
  -- the stripe of the block that the slot still holds
  have hstripe : ∀ s, σ.shared.GivenUp s raw → (raw.block ≠ none ∨ σ.shared.slot s = raw) →
      ∀ b, σ.shared.slot s = .ref b → (σ.shared.shards.refs b).shardIndex ∈ (σ.pc t).held := by
    intro s hgiven hraw b hb
    have hb' : raw = .ref b := by
      rcases hraw with hraw | hraw
      · obtain ⟨c, hc⟩ := block_ne_none hraw
        have hslot := (hgiven c hc).1
        rw [hb] at hslot
        rw [hc, hslot]
      · rw [← hraw, hb]
    rw [hpcHeld]
    exact (hlocked.1 b hb').2
  unfold Advances
  rw [hpc]
  cases op with
  | init s a =>
    refine ⟨(σ.shared.written t s (.counted a) new, .unlocking none held), rfl, fun _ => ?_⟩
    have hs : s ∈ (σ.pc t).exclusive := by
      rw [hpc]
      exact List.mem_singleton_self s
    rw [← hpcHeld]
    refine h.written (by rw [hpc]; exact List.mem_singleton_self s) (.inl hs) (h.slots.not_held (.inl hready.1)) ?_
      (fun x hx => ?_) hcarried
    · rw [hpcHeld]
      exact hop.2
    · rw [hpc, hop.1] at hx
      cases hx
  | store s obj =>
    refine ⟨(σ.shared.written t s obj new, .unlocking none held), rfl, fun hraw => ?_⟩
    have hraw := hundisturbed s obj rfl hraw
    have hs : s ∈ (σ.pc t).uses := by
      rw [hpc]
      exact List.mem_singleton_self s
    rw [← hpcHeld]
    refine h.written hs (.inr ⟨hready.1, hstripe s hop.1 hraw⟩) (h.slots.not_held_givenUp hop.1 hraw) ?_ (fun x hx => ?_)
      hcarried
    · rw [hpcHeld]
      exact hop.2
    · rw [hpc] at hx
      cases raw with
      | ref b => exact (Option.some.inj hx).symm
      | _ => cases hx
  | load s =>
    obtain ⟨hgiven, hblock, rfl, hnil⟩ := hop
    have hraw : raw.block ≠ none := by
      obtain ⟨b, rfl⟩ := hblock
      exact Option.some_ne_none b
    refine ⟨({ σ.shared with slot := Function.update σ.shared.slot s .nil }, .unlocking none held), rfl, fun _ => ?_⟩
    have hs : s ∈ (σ.pc t).uses := by
      rw [hpc]
      exact List.mem_singleton_self s
    have hslots : Slots { σ.shared with
        slot := Function.update σ.shared.slot s .nil, live := insert s σ.shared.live
        designated := Function.update σ.shared.designated s (σ.shared.designated s) }
        (Function.update σ.pc t (.unlocking none held)) := by
      refine h.slots.write (h.slots.not_held_givenUp hgiven (.inl hraw)) hcarried rfl (by simp) (fun x hx => ?_)
        (fun _ => hnil) (by simp)
      obtain ⟨b, rfl⟩ := hblock
      rw [hpc] at hx
      exact (Option.some.inj hx).symm
    rw [Function.update_eq_self, Finset.insert_eq_self.mpr hready] at hslots
    exact h.advance (.write hs (.inr ⟨hready, hstripe s hgiven (.inl hraw)⟩) (.inl rfl)
      (fun x hx => Function.update_of_ne hx ..) (fun _ _ => rfl) rfl rfl rfl (fun _ => rfl) fun _ _ => rfl) h.table
      (h.objects.congr rfl rfl rfl) hslots h.history (fun _ hagain => by cases hagain) hpcHeld.symm (.inr rfl)
  | _ => exact hop.elim

theorem Inv.copying (h : Inv numShards σ) {dest src : ℕ} {raw : Pointer} {value : Value} {held : List ℕ}
    (hpc : σ.pc t = .copying dest src raw value held) : Advances numShards σ t := by
  obtain ⟨hready, hlocked, hstable, hcopied⟩ :
    σ.shared.OnPc numShards t (.copying dest src raw value held) := hpc ▸ h.threads t
  have hheld : (σ.pc t).held = held := by rw [hpc]; rfl
  have hgiven : (σ.pc t).givenUp = none := by rw [hpc]; rfl
  have hcarried : (σ.pc t).carried = none := by rw [hpc]; rfl
  have hnot := h.slots.not_held (.inl hready.1)
  have hdest : dest ∈ (σ.pc t).exclusive := by
    rw [hpc]
    exact List.mem_singleton_self dest
  have huses : dest ∈ (σ.pc t).uses := by
    rw [hpc]
    exact List.mem_cons_self
  unfold Advances
  rw [hpc]
  cases raw with
  | ref b =>
    obtain ⟨hb, hmem⟩ := hlocked.1 b rfl
    obtain rfl : value = .object (σ.shared.shards.refs b).allocation := hcopied
    refine ⟨_, rfl, fun _ => ?_⟩
    refine h.advance (.write huses (.inl hdest) (.inr rfl) (fun x hx => Function.update_of_ne hx ..)
      (fun x hx => Function.update_of_ne hx ..) rfl rfl rfl (fun c => ?_) fun c hc => ?_)
      (h.table.addSlot (hstable b rfl).2 (hnot b)) (h.objects.congr rfl rfl rfl)
      (h.slots.copyRef hnot hb hcarried rfl hgiven) h.history (fun _ hagain => by cases hagain) hheld.symm (.inr rfl)
    · rcases eq_or_ne c b with rfl | hcb
      · simp [Shards.addSlot]
      · simp [Shards.addSlot, setRef_refs_of_ne hcb]
    · have hcb : c ≠ b := by
        rintro rfl
        rw [hheld] at hc
        exact hc hmem
      exact setRef_refs_of_ne hcb _
  | nil =>
    refine ⟨_, rfl, fun _ => ?_⟩
    exact h.advance (.write huses (.inl hdest) (.inr rfl) (fun x hx => Function.update_of_ne hx ..)
      (fun x hx => Function.update_of_ne hx ..) rfl rfl rfl (fun _ => rfl) fun _ _ => rfl) h.table
      (h.objects.congr rfl rfl rfl) (h.slots.write hnot hcarried rfl (by simp) (by simp [hgiven]) (fun _ => hcopied)
      (by simp)) h.history (fun _ hagain => by cases hagain) hheld.symm (.inr rfl)
  | persistent p =>
    refine ⟨_, rfl, fun _ => ?_⟩
    refine h.advance (.write huses (.inl hdest) (.inr rfl) (fun x hx => Function.update_of_ne hx ..)
      (fun x hx => Function.update_of_ne hx ..) rfl rfl rfl (fun _ => rfl) fun _ _ => rfl) h.table
      (h.objects.congr rfl rfl rfl) (h.slots.write hnot hcarried rfl (by simp) (by simp [hgiven]) (by simp)
      fun q hq => ?_) h.history (fun _ hagain => by cases hagain) hheld.symm (.inr rfl)
    rw [← Pointer.persistent.inj hq]
    exact hcopied

theorem Inv.moving (h : Inv numShards σ) {dest src : ℕ} {raw : Pointer} {held : List ℕ}
    (hpc : σ.pc t = .moving dest src raw held) : Advances numShards σ t := by
  obtain ⟨hready, hlocked, hstable⟩ : σ.shared.OnPc numShards t (.moving dest src raw held) := hpc ▸ h.threads t
  have hheld : (σ.pc t).held = held := by rw [hpc]; rfl
  have hgiven : (σ.pc t).givenUp = none := by rw [hpc]; rfl
  have hcarried : (σ.pc t).carried = none := by rw [hpc]; rfl
  have hdest : dest ∈ (σ.pc t).exclusive := by
    rw [hpc]
    exact List.mem_singleton_self dest
  have huses : dest ∈ (σ.pc t).uses := by
    rw [hpc]
    exact List.mem_cons_self
  have hne : src ≠ dest := by
    rintro rfl
    exact hready.1 hready.2
  unfold Advances
  rw [hpc]
  refine ⟨_, rfl, fun _ => ?_⟩
  refine h.advance (.write huses (.inl hdest) (.inl rfl) (fun x hx => Function.update_of_ne hx ..) (fun _ _ => rfl) rfl
    rfl rfl (fun _ => rfl) fun _ _ => rfl) h.table (h.objects.congr rfl rfl rfl)
    (h.slots.scratch hready.1 raw hcarried.symm hgiven.symm) h.history
    ⟨hready, hlocked, fun b hb => ⟨(Function.update_of_ne hne ..).trans (hstable b hb).1, (hstable b hb).2⟩,
      Function.update_self ..⟩ hheld.symm (.inl (by rw [hpc]; rfl))

theorem Inv.clearing (h : Inv numShards σ) {dest src : ℕ} {raw : Pointer} {held : List ℕ}
    (hpc : σ.pc t = .clearing dest src raw held) : Advances numShards σ t := by
  obtain ⟨hready, hlocked, hstable, hdest⟩ :
    σ.shared.OnPc numShards t (.clearing dest src raw held) := hpc ▸ h.threads t
  have hheld : (σ.pc t).held = held := by rw [hpc]; rfl
  have hgiven : (σ.pc t).givenUp = none := by rw [hpc]; rfl
  have hcarried : (σ.pc t).carried = none := by rw [hpc]; rfl
  have hexclusive : (σ.pc t).exclusive = [dest] := by rw [hpc]; rfl
  have huses : (σ.pc t).uses = [dest, src] := by rw [hpc]; rfl
  have hundisturbed : σ.Undisturbed t → σ.shared.slot src = raw := by
    intro hraw
    unfold State.Undisturbed at hraw
    rw [hpc] at hraw
    rcases hraw with hraw | hraw
    · obtain ⟨b, hb⟩ := block_ne_none hraw
      rw [hb]
      exact (hstable b hb).1
    · exact hraw
  unfold Advances
  rw [hpc]
  refine ⟨_, rfl, fun hraw => ?_⟩
  have hslot := hundisturbed hraw
  have hslots : Slots _ (Function.update σ.pc t (.unlocking none held)) :=
    h.slots.clear hready.1 hready.2 hdest hslot hstable hcarried rfl hgiven
  refine h.advance ?_ ?_ (h.objects.congr rfl rfl rfl) hslots h.history (fun _ hagain => by cases hagain) hheld.symm
    (.inr rfl)
  · rw [hexclusive, huses, hheld]
    refine ⟨fun x hx => ?_, fun x hx => ?_, fun x hx b _ hb hmem => ?_, ?_, fun b _ => ?_, fun b _ hmem => ?_,
      fun a o u _ ho _ => ⟨o, ho, .refl u o⟩, fun _ => id⟩
    · have hx : x ≠ dest := by simpa using hx
      simp [hx]
    · have hx : x ≠ dest ∧ x ≠ src := by simpa using hx
      exact Function.update_of_ne hx.2 ..
    · have hx : x ≠ dest := by simpa using hx
      have hx' : x ≠ src := by
        rintro rfl
        exact hmem (hlocked.1 b (hslot.symm.trans hb)).2
      refine ⟨(Function.update_of_ne hx' ..).trans hb, ?_⟩
      show Function.update (Function.update _ _ _) _ _ x = _
      rw [Function.update_of_ne hx', Function.update_of_ne hx]
    · cases raw <;> exact le_rfl
    · cases raw with
      | ref c => exact transfer_shard b
      | _ => rfl
    · cases raw with
      | ref c =>
        have hbc : b ≠ c := by
          rintro rfl
          exact hmem (hlocked.1 b rfl).2
        exact setRef_refs_of_ne hbc _
      | _ => rfl
  · cases raw with
    | ref b => exact h.table.transfer (hstable b rfl).2 (h.slots.not_held (.inl hready.1) b)
    | _ => exact h.table

theorem Inv.retaining (h : Inv numShards σ) {s b a : ℕ} {held : List ℕ} (hpc : σ.pc t = .retaining s b a held) :
    Advances numShards σ t := by
  obtain ⟨hready, hlocked, hstable, hobj⟩ :
    σ.shared.OnPc numShards t (.retaining s b a held) := hpc ▸ h.threads t
  have hheld : (σ.pc t).held = held := by rw [hpc]; rfl
  have hgiven : (σ.pc t).givenUp = none := by rw [hpc]; rfl
  have hcarried : (σ.pc t).carried = none := by rw [hpc]; rfl
  obtain ⟨o, ho, hallocation, hdeleted, hmarked⟩ := h.table.mapped b (hlocked.1 b rfl).1 a hobj
  have hdesignated : σ.shared.designated s = .object o.allocation := by
    rw [((h.slots.slot s).holds b (hstable b rfl).2).2.2, hallocation]
  have hgone := h.objects.gone a o ho
  unfold Advances
  rw [hpc]
  by_cases hzero : o.owners = 0
  · refine ⟨(σ.shared.loaded s .nil, .unlocking none held), by simp [Shared.run, ho, hzero], fun _ => ?_⟩
    have hslots : Slots (σ.shared.loaded s .nil) σ.pc :=
      h.slots.congr rfl rfl rfl (fun _ => rfl) (fun _ => rfl) rfl fun _ => id
    refine h.advance (.shards rfl rfl rfl rfl rfl le_rfl (fun _ _ => rfl) fun _ _ _ => rfl) h.table
      (h.objects.congr rfl rfl rfl) (hslots.go hgiven.symm hcarried.symm) (h.loaded ?_) (fun _ hagain => by cases hagain)
      hheld.symm (.inr rfl)
    rw [hdesignated]
    exact (if_pos (hgone.mpr hzero)).symm
  · refine ⟨({ σ.shared.loaded s (.object o.allocation) with
      object := Function.update σ.shared.object a (some { o with owners := t ::ₘ o.owners }) },
      .unlocking none held), by simp [Shared.run, ho, hzero, Shared.loaded], fun _ => ?_⟩
    have hslots : Slots { σ.shared.loaded s (.object o.allocation) with
        object := Function.update σ.shared.object a (some { o with owners := t ::ₘ o.owners }) } σ.pc :=
      h.slots.congr rfl rfl rfl (fun _ => rfl) (fun _ => rfl) rfl fun _ => id
    refine h.advance (.setObject ho rfl rfl rfl rfl rfl (fun _ => id) fun u _ => ⟨rfl, Multiset.mem_cons_of_mem, fun hd =>
      ⟨hd, rfl⟩, id⟩) ?_ (h.objects.set ho rfl rfl rfl rfl (by simp [hzero]) rfl fun hd => ?_)
      (hslots.go hgiven.symm hcarried.symm) ?_ (fun _ hagain => by cases hagain) hheld.symm (.inr rfl)
    · refine h.table.objects (fun c hc x hx => ?_) fun _ => id
      obtain ⟨p, hp, hn, hd, hm⟩ := h.table.mapped c hc x hx
      rcases eq_or_ne x a with rfl | hxa
      · obtain rfl := Option.some.inj (ho.symm.trans hp)
        exact ⟨_, Function.update_self .., hn, hd, hm⟩
      · exact ⟨p, (Function.update_of_ne hxa ..).trans hp, hn, hd, hm⟩
    · exact absurd (h.objects.deleted a o ho hd) hzero
    · refine h.loaded ?_
      rw [hdesignated]
      exact (if_neg fun heq => hzero (hgone.mp heq)).symm

theorem Inv.deleting (h : Inv numShards σ) {a : ℕ} {held : List ℕ} (hpc : σ.pc t = .deleting a held) :
    Advances numShards σ t := by
  obtain ⟨⟨o, ho, hdying, hdeleted⟩, hmem⟩ : σ.shared.OnPc numShards t (.deleting a held) := hpc ▸ h.threads t
  have hheld : (σ.pc t).held = held := by rw [hpc]; rfl
  have hgiven : (σ.pc t).givenUp = none := by rw [hpc]; rfl
  have hcarried : (σ.pc t).carried = none := by rw [hpc]; rfl
  have hzero : o.owners = 0 := by
    by_contra hne
    rw [(h.objects.dying a o ho).mpr hne] at hdying
    cases hdying
  have hgone : ∀ n, σ.shared.Mapped a n → σ.shared.gone n = true := by
    rintro n ⟨o', ho', rfl, -⟩
    obtain rfl := Option.some.inj (ho.symm.trans ho')
    exact (h.objects.gone a o ho).mpr hzero
  obtain ⟨τ, hdelete, htable, hspec⟩ := h.table.deleteRef hgone
  have hrefs : ∀ c, (τ.refs c).holders = (σ.shared.shards.refs c).holders ∧
      (τ.refs c).allocation = (σ.shared.shards.refs c).allocation ∧
      (τ.refs c).shardIndex = (σ.shared.shards.refs c).shardIndex := by
    intro c
    rcases hspec.refs c with hc | ⟨-, -, hc⟩ <;> rw [hc] <;> exact ⟨rfl, rfl, rfl⟩
  unfold Advances
  rw [hpc]
  refine ⟨({ σ.shared with
      shards := τ
      object := Function.update σ.shared.object a (some { o with weakDeleted := true }) }, .unlocking none held),
    by simp [Shared.run, ho, hzero, hdelete], fun _ => ?_⟩
  have hslots : Slots { σ.shared with
      shards := τ
      object := Function.update σ.shared.object a (some { o with weakDeleted := true }) } σ.pc :=
    h.slots.congr rfl rfl rfl (fun c => (hrefs c).1) (fun c => (hrefs c).2.1) hspec.refCount fun _ => id
  have hkeeps : Keeps t (σ.pc t).exclusive (σ.pc t).uses (σ.pc t).held σ.shared
      { σ.shared with object := Function.update σ.shared.object a (some { o with weakDeleted := true }) } := by
    refine .setObject ho rfl rfl rfl rfl rfl (fun _ => id) fun u hu => ⟨rfl, id, fun hd => ?_, id⟩
    exact absurd (Option.some.inj (hd.symm.trans hdying)) hu
  refine h.advance (hkeeps.trans (.shards rfl rfl rfl rfl rfl hspec.refCount.ge (fun c _ => (hrefs c).2.2)
    fun c hc hnot => ?_)) ?_ (h.objects.set ho rfl rfl rfl rfl Iff.rfl rfl fun _ => hzero)
    (hslots.go hgiven.symm hcarried.symm) h.history (fun _ hagain => by cases hagain) hheld.symm (.inr rfl)
  · refine (hspec.refs c).resolve_right ?_
    rintro ⟨-, hobj, -⟩
    refine hnot ?_
    rw [hheld]
    show (σ.shared.shards.refs c).shardIndex ∈ held
    rwa [h.table.home c hc a hobj]
  · refine htable.objects (fun c hc x hx => ?_) fun _ => id
    obtain ⟨p, hp, hn, hd, hm⟩ := htable.mapped c hc x hx
    have hxa : x ≠ a := by
      rintro rfl
      exact hspec.absent c (hc.trans_eq hspec.refCount) hx
    exact ⟨p, (Function.update_of_ne hxa ..).trans hp, hn, hd, hm⟩

/-! ## Locks -/

/-- A thread takes or gives up a lock. -/
theorem Inv.lockStep (h : Inv numShards σ) {pc' : Pc} {lock' : ℕ → Option Thread}
    (hlocks : Held lock' fun u => (Function.update σ.pc t pc' u).held) (hnodup : pc'.held.Nodup)
    (hpc : σ.shared.OnPc numShards t pc') (hop : pc'.op = (σ.pc t).op) (hgiven : pc'.givenUp = (σ.pc t).givenUp)
    (hcarried : pc'.carried = (σ.pc t).carried) : Inv numShards ({ σ with lock := lock' }.go t pc') := by
  have hop' : ∀ u, (Function.update σ.pc t pc' u).op = (σ.pc u).op := by
    intro u
    rcases eq_or_ne u t with rfl | hu
    · rw [Function.update_self, hop]
    · rw [Function.update_of_ne hu]
  refine ⟨h.table, hlocks, fun u => ?_, fun u => ?_, fun u v huv s hs hs' => ?_, h.objects,
    h.slots.go hgiven hcarried, h.history⟩
  · show (Function.update σ.pc t pc' u).held.Nodup
    rcases eq_or_ne u t with rfl | hu
    · rwa [Function.update_self]
    · rw [Function.update_of_ne hu]
      exact h.nodup u
  · show σ.shared.OnPc numShards u (Function.update σ.pc t pc' u)
    rcases eq_or_ne u t with rfl | hu
    · rwa [Function.update_self]
    · rw [Function.update_of_ne hu]
      exact h.threads u
  · have hs : s ∈ (Function.update σ.pc t pc' u).exclusive := hs
    have hs' : s ∈ (Function.update σ.pc t pc' v).uses := hs'
    rw [Pc.exclusive, hop'] at hs
    rw [Pc.uses, hop'] at hs'
    exact h.exclusive u v huv s hs hs'

/-- A thread waits for a lock. -/
def State.waits (σ : State Thread) (t : Thread) : Option ℕ :=
  match σ.pc t with
  | .locking _ _ _ (l :: _) => some l
  | _ => none

/-- **One step of a thread.** If the lock that it waits for is free, it has a next step: it uses no freed object
    and meets the assertions. -/
theorem Inv.run (h : Inv numShards σ) (hne : σ.pc t ≠ .idle) (hfree : ∀ l, σ.waits t = some l → σ.lock l = none) :
    ∃ σ', σ.run numShards t = some σ' ∧ (σ.Undisturbed t → Inv numShards σ') := by
  have hothers : ∀ pc' u, u ≠ t → (Function.update σ.pc t pc' u).held = (σ.pc u).held :=
    fun pc' u hu => by rw [Function.update_of_ne hu]
  have hon := h.threads t
  -- the steps without locks
  have hshared : Advances numShards σ t → (∀ op raw held ahead, σ.pc t ≠ .locking op raw held ahead) →
      (∀ again held, σ.pc t ≠ .unlocking again held) →
      ∃ σ', σ.run numShards t = some σ' ∧ (σ.Undisturbed t → Inv numShards σ') := by
    rintro ⟨r, hr, hinv⟩ hlocking hunlocking
    refine ⟨_, ?_, hinv⟩
    unfold State.run
    split
    · next heq => exact absurd heq (hlocking _ _ _ _)
    · next heq => exact absurd heq (hlocking _ _ _ _)
    · next heq => exact absurd heq (hunlocking _ _)
    · next heq => exact absurd heq (hunlocking _ _)
    · rw [hr]
      rfl
  cases hpc : σ.pc t with
  | idle => exact absurd hpc hne
  | peeking op => exact hshared (h.peeking hpc) (by simp [hpc]) (by simp [hpc])
  | checking op raw held => exact hshared (h.checking hpc) (by simp [hpc]) (by simp [hpc])
  | marking op raw held => exact hshared (h.marking hpc) (by simp [hpc]) (by simp [hpc])
  | inspecting op raw held => exact hshared (h.inspecting hpc) (by simp [hpc]) (by simp [hpc])
  | storing op raw new held => exact hshared (h.storing hpc) (by simp [hpc]) (by simp [hpc])
  | copying dest src raw value held => exact hshared (h.copying hpc) (by simp [hpc]) (by simp [hpc])
  | moving dest src raw held => exact hshared (h.moving hpc) (by simp [hpc]) (by simp [hpc])
  | clearing dest src raw held => exact hshared (h.clearing hpc) (by simp [hpc]) (by simp [hpc])
  | retaining s b a held => exact hshared (h.retaining hpc) (by simp [hpc]) (by simp [hpc])
  | deleting a held => exact hshared (h.deleting hpc) (by simp [hpc]) (by simp [hpc])
  | locking op raw held ahead =>
    rw [hpc] at hon
    obtain ⟨hready, hlocked, hordered, hsorted, hraw⟩ := hon
    cases ahead with
    | cons l ahead =>
      have hl : σ.lock l = none := hfree l (by rw [State.waits, hpc])
      have hnot : l ∉ held := fun hmem => lt_irrefl l (hordered l hmem l List.mem_cons_self)
      refine ⟨{ σ with lock := Function.update σ.lock l (some t) }.go t (.locking op raw (l :: held) ahead),
        by simp only [State.run, hpc, hl, if_true], fun _ => ?_⟩
      refine h.lockStep (h.locks.take hl (fun k => ?_) (hothers _)) ?_ ⟨hready, ?_, ?_, (List.pairwise_cons.mp hsorted).2,
        hraw⟩ (by rw [hpc]; rfl) (by rw [hpc]; rfl) (by rw [hpc]; rfl)
      · rw [Function.update_self, hpc]
        exact List.mem_cons
      · have hnodup := h.nodup t
        rw [hpc] at hnodup
        exact List.nodup_cons.mpr ⟨hnot, hnodup⟩
      · refine ⟨fun b hb => ?_, fun a ha => ?_⟩
        · obtain ⟨hlt, hmem⟩ := hlocked.1 b hb
          exact ⟨hlt, by simpa [or_left_comm] using hmem⟩
        · simpa [or_left_comm] using hlocked.2 a ha
      · intro k hk j hj
        rcases List.mem_cons.mp hk with rfl | hk
        · exact (List.pairwise_cons.mp hsorted).1 j hj
        · exact hordered k hk j (List.mem_cons_of_mem _ hj)
    | nil =>
      rw [List.append_nil] at hlocked
      refine ⟨σ.go t (op.locked raw held), by simp only [State.run, hpc], fun _ => ?_⟩
      cases op with
      | init s a =>
        exact h.goOn ⟨hready, hlocked, hraw rfl⟩ (by rw [hpc]; rfl) (.inl (by rw [hpc]; rfl)) (by rw [hpc]; rfl)
          (by rw [hpc]; rfl)
      | deleteRefs a =>
        exact h.goOn ⟨hready, hlocked.2 a rfl⟩ (by rw [hpc]; rfl) (.inl (by rw [hpc]; rfl)) (by rw [hpc]; rfl)
          (by rw [hpc]; rfl)
      | _ =>
        exact h.goOn ⟨hready, hlocked, by simp [Op.src]⟩ (by rw [hpc]; rfl) (.inl (by rw [hpc]; rfl)) (by rw [hpc]; rfl)
          (by rw [hpc]; rfl)
  | unlocking again held =>
    rw [hpc] at hon
    cases held with
    | cons l held =>
      have hnodup := h.nodup t
      rw [hpc] at hnodup
      obtain ⟨hnot, hnodup⟩ := List.nodup_cons.mp hnodup
      refine ⟨{ σ with lock := Function.update σ.lock l none }.go t (.unlocking again held),
        by simp only [State.run, hpc], fun _ => ?_⟩
      refine h.lockStep (h.locks.unlock (l := l) (t := t) ?_ (fun k => ?_) (hothers _)) hnodup hon (by rw [hpc]; rfl)
        (by rw [hpc]; rfl) (by rw [hpc]; rfl)
      · show l ∈ (σ.pc t).held
        rw [hpc]
        exact List.mem_cons_self
      · rw [Function.update_self, hpc]
        show k ∈ held ↔ k ≠ l ∧ k ∈ l :: held
        rw [List.mem_cons]
        constructor
        · intro hk
          refine ⟨?_, .inr hk⟩
          rintro rfl
          exact hnot hk
        · exact fun hk => hk.2.resolve_left hk.1
    | nil =>
      refine ⟨σ.go t (again.elim .idle .peeking), by simp only [State.run, hpc], fun _ => ?_⟩
      cases again with
      | none => exact h.goOn trivial (by rw [hpc]; rfl) (.inr rfl) (by rw [hpc]; rfl) (by rw [hpc]; rfl)
      | some op =>
        exact h.goOn (hon op rfl) (by rw [hpc]; rfl) (.inl (by rw [hpc]; rfl)) (by rw [hpc]; rfl) (by rw [hpc]; rfl)

end Libobjc2.Memory.WeakTable
