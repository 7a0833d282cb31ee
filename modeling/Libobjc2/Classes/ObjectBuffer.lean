import Mathlib.Algebra.Group.Nat.Defs
import Mathlib.Data.List.Basic
import Mathlib.Tactic.Common

/-!
# The buffer of waiting objects

`src/internal/support/buffer.h`: a fixed array of 128 entries, followed by an overflow array that is
reallocated to twice its size when it is full. An operation is `none` where the source returns 0 (which
makes its callers abort) or reads outside of the arrays.

Results:
* `Holds`: the entries in use, as one list, wherever they are stored.
* `Holds.append`, `Holds.set`, `Holds.compactBuffer`: what the three operations do to that list.
* `appendBufferedObject_isSome`: appending fails only where memory or the counter runs out.
-/

namespace Libobjc2.Classes

/-! ## Model -/

def BUFFER_SIZE : ℕ := 128

def UINT_MAX : ℕ := 2 ^ 32 - 1

def SIZE_MAX : ℕ := 2 ^ 64 - 1

/-- `buffered_object_buffer`, `buffered_object_overflow` with `buffered_object_overflow_space` entries, and
    `buffered_objects`. `none` is NULL. -/
structure ObjectBuffer (α : Type*) where
  buffer : Vector (Option α) BUFFER_SIZE
  overflow : List (Option α)
  bufferedObjects : ℕ

namespace ObjectBuffer

variable {α : Type*}

def empty : ObjectBuffer α := ⟨Vector.replicate BUFFER_SIZE none, [], 0⟩

/-- `while (overflowIndex >= newSpace)` (buffer.h, lines 27–31). -/
def growSpace (overflowIndex newSpace : ℕ) (hpos : 0 < newSpace) : Option ℕ :=
  if overflowIndex < newSpace then some newSpace
  else if newSpace > SIZE_MAX / 2 then none
  else growSpace overflowIndex (newSpace * 2) (by omega)
termination_by overflowIndex + 1 - newSpace

section

-- `realloc`: whether the allocation of this many bytes succeeds; `junk`: what the memory behind the old
-- content is found to hold.
variable (realloc : ℕ → Bool) (junk : Option α)

/-- `set_buffered_object_at_index` (buffer.h, lines 16–43). -/
def setBufferedObjectAtIndex (b : ObjectBuffer α) (value : Option α) (index : ℕ) : Option (ObjectBuffer α) :=
  if h : index < BUFFER_SIZE then some { b with buffer := b.buffer.set index value }
  else
    let overflowIndex := index - BUFFER_SIZE
    let space := b.overflow.length
    let newSpace :=
      if h : space = 0 then growSpace overflowIndex BUFFER_SIZE (by decide)
      else growSpace overflowIndex space (by omega)
    newSpace.bind fun newSpace =>
      if newSpace = space then some { b with overflow := b.overflow.set overflowIndex value }
      else if newSpace > SIZE_MAX / 8 ∨ realloc (newSpace * 8) = false then none
      else
        let newBuffer := b.overflow ++ List.replicate (newSpace - space) junk
        some { b with overflow := newBuffer.set overflowIndex value }

/-- `append_buffered_object` (buffer.h, lines 45–51). -/
def appendBufferedObject (b : ObjectBuffer α) (value : Option α) : Option (ObjectBuffer α) :=
  if b.bufferedObjects = UINT_MAX then none
  else
    (b.setBufferedObjectAtIndex realloc junk value b.bufferedObjects).map fun b =>
      { b with bufferedObjects := b.bufferedObjects + 1 }

/-- `buffered_object_at_index` (buffer.h, lines 53–57). -/
def bufferedObjectAtIndex (b : ObjectBuffer α) (i : ℕ) : Option (Option α) :=
  if h : i < BUFFER_SIZE then some b.buffer[i] else b.overflow[i - BUFFER_SIZE]?

/-- The loop of `compact_buffer`, with `todo` entries to go (buffer.h, lines 63–70). -/
def compactFrom : ℕ → ℕ → ℕ → ObjectBuffer α → Option (ObjectBuffer α × ℕ)
  | 0, _, insert, b => some (b, insert)
  | todo + 1, i, insert, b =>
    (b.bufferedObjectAtIndex i).bind fun value =>
      if value.isSome then
        (b.setBufferedObjectAtIndex realloc junk value insert).bind (compactFrom todo (i + 1) (insert + 1))
      else compactFrom todo (i + 1) insert b

/-- `compact_buffer` (buffer.h, lines 59–72). -/
def compactBuffer (b : ObjectBuffer α) : Option (ObjectBuffer α) :=
  (compactFrom realloc junk b.bufferedObjects 0 0 b).map fun r => { r.1 with bufferedObjects := r.2 }

end

/-! ## The entries in use -/

/-- The two arrays one after the other. -/
def cells (b : ObjectBuffer α) : List (Option α) := b.buffer.toList ++ b.overflow

/-- The entries in use are those of `l`. -/
structure Holds (b : ObjectBuffer α) (l : List (Option α)) : Prop where
  objects : b.bufferedObjects = l.length
  entries : l <+: b.cells

theorem holds_empty : Holds (empty : ObjectBuffer α) [] := ⟨rfl, List.nil_prefix⟩

theorem Holds.length_le {b : ObjectBuffer α} {l : List (Option α)} (h : Holds b l) :
    l.length ≤ b.cells.length :=
  h.entries.length_le

theorem length_cells (b : ObjectBuffer α) : b.cells.length = BUFFER_SIZE + b.overflow.length := by
  simp [cells]

theorem bufferedObjectAtIndex_eq (b : ObjectBuffer α) (i : ℕ) : b.bufferedObjectAtIndex i = b.cells[i]? := by
  rw [bufferedObjectAtIndex, cells]
  by_cases h : i < BUFFER_SIZE
  · rw [dif_pos h, List.getElem?_append_left (by simpa using h)]
    simp [h]
  · rw [dif_neg h, List.getElem?_append_right (by simpa using h)]
    simp

theorem Holds.at {b : ObjectBuffer α} {pre rest : List (Option α)} {value : Option α}
    (h : Holds b (pre ++ value :: rest)) : b.bufferedObjectAtIndex pre.length = some value := by
  obtain ⟨tail, htail⟩ := h.entries
  rw [bufferedObjectAtIndex_eq, ← htail, List.append_assoc,
    List.getElem?_append_right (Nat.le_refl _)]
  simp

/-! ## Growing -/

theorem growSpace_of_lt {overflowIndex newSpace : ℕ} (hpos : 0 < newSpace) (h : overflowIndex < newSpace) :
    growSpace overflowIndex newSpace hpos = some newSpace := by
  rw [growSpace, if_pos h]

/-- The new size has room for the index, and it is the old one or at most twice the index. -/
theorem growSpace_spec {overflowIndex newSpace : ℕ} (hpos : 0 < newSpace) {space : ℕ}
    (h : growSpace overflowIndex newSpace hpos = some space) :
    overflowIndex < space ∧ newSpace ≤ space ∧ (space = newSpace ∨ space ≤ 2 * overflowIndex) := by
  fun_induction growSpace overflowIndex newSpace hpos with
  | case1 newSpace hpos hlt =>
    obtain rfl := Option.some.inj h
    exact ⟨hlt, Nat.le_refl _, .inl rfl⟩
  | case2 => cases h
  | case3 newSpace hpos hge _ ih =>
    obtain ⟨hlt, hle, hbound⟩ := ih h
    refine ⟨hlt, by omega, .inr ?_⟩
    omega

theorem growSpace_isSome {overflowIndex newSpace : ℕ} (hpos : 0 < newSpace)
    (h : overflowIndex ≤ SIZE_MAX / 2) :
    (growSpace overflowIndex newSpace hpos).isSome := by
  fun_induction growSpace overflowIndex newSpace hpos with
  | case1 => rfl
  | case2 newSpace _ hge hmax => omega
  | case3 _ _ _ _ ih => exact ih

variable {realloc : ℕ → Bool} {junk : Option α} {b b' : ObjectBuffer α} {l pre rest : List (Option α)}
  {value : Option α} {index : ℕ}

theorem cells_set_buffer (h : index < BUFFER_SIZE) :
    cells { b with buffer := b.buffer.set index value } = b.cells.set index value := by
  simp only [cells, Vector.toList_set]
  rw [List.set_append_left _ _ (by simpa using h)]

theorem cells_set_overflow (h : ¬ index < BUFFER_SIZE) (overflow : List (Option α)) :
    cells { b with overflow := overflow.set (index - BUFFER_SIZE) value } =
      (b.buffer.toList ++ overflow).set index value := by
  simp only [cells]
  rw [List.set_append_right _ _ (by simpa using h)]
  simp

/-- What is stored, and where: the arrays have grown to have room for it. -/
theorem setBufferedObjectAtIndex_cases
    (h : b.setBufferedObjectAtIndex realloc junk value index = some b') :
    ∃ grown, index < (b.cells ++ grown).length ∧ b'.cells = (b.cells ++ grown).set index value ∧
      b'.bufferedObjects = b.bufferedObjects := by
  rw [setBufferedObjectAtIndex] at h
  split at h
  · rename_i hlt
    obtain rfl := Option.some.inj h
    refine ⟨[], ?_, ?_, rfl⟩
    · rw [List.append_nil, length_cells]
      omega
    · rw [List.append_nil, cells_set_buffer hlt]
  · rename_i hge
    obtain ⟨newSpace, hspace, h⟩ := Option.bind_eq_some_iff.mp h
    have hgrow : index - BUFFER_SIZE < newSpace ∧ b.overflow.length ≤ newSpace := by
      split at hspace
      · have := growSpace_spec _ hspace
        omega
      · have := growSpace_spec _ hspace
        omega
    split at h
    · rename_i heq
      obtain rfl := Option.some.inj h
      refine ⟨[], ?_, ?_, rfl⟩
      · rw [List.append_nil, length_cells]
        omega
      · rw [List.append_nil, cells_set_overflow hge, cells]
    · split at h
      · cases h
      · obtain rfl := Option.some.inj h
        refine ⟨List.replicate (newSpace - b.overflow.length) junk, ?_, ?_, rfl⟩
        · rw [List.length_append, length_cells, List.length_replicate]
          omega
        · rw [cells_set_overflow hge, cells, List.append_assoc]

/-! ## The operations -/

/-- An index that is in the arrays needs no allocation. -/
theorem setBufferedObjectAtIndex_of_lt (h : index < b.cells.length) :
    ∃ b', b.setBufferedObjectAtIndex realloc junk value index = some b' ∧
      b'.cells = b.cells.set index value ∧ b'.bufferedObjects = b.bufferedObjects := by
  rw [length_cells] at h
  rw [setBufferedObjectAtIndex]
  by_cases hlt : index < BUFFER_SIZE
  · rw [dif_pos hlt]
    exact ⟨_, rfl, cells_set_buffer hlt, rfl⟩
  · have hspace : b.overflow.length ≠ 0 := by omega
    rw [dif_neg hlt]
    simp only [hspace, dite_false]
    rw [growSpace_of_lt (by omega) (by omega), Option.bind_some, if_pos rfl]
    exact ⟨_, rfl, cells_set_overflow hlt b.overflow, rfl⟩

theorem Holds.set (h : Holds b (pre ++ value :: rest)) (value' : Option α) :
    ∃ b', b.setBufferedObjectAtIndex realloc junk value' pre.length = some b' ∧
    Holds b' (pre ++ value' :: rest) := by
  have hlt : pre.length < b.cells.length := by
    have := h.length_le
    simp only [List.length_append, List.length_cons] at this
    omega
  obtain ⟨b', hset, hcells, hobjects⟩ :=
    setBufferedObjectAtIndex_of_lt hlt
  obtain ⟨tail, htail⟩ := h.entries
  refine ⟨b', hset, ?_, tail, ?_⟩
  · rw [hobjects, h.objects]
    simp
  · rw [hcells, ← htail]
    simp

theorem Holds.append (h : Holds b l) (hb : b.appendBufferedObject realloc junk value = some b') :
    Holds b' (l ++ [value]) := by
  rw [appendBufferedObject] at hb
  split at hb
  · cases hb
  · obtain ⟨b₁, hset, rfl⟩ := Option.map_eq_some_iff.mp hb
    obtain ⟨grown, hlt, hcells, hobjects⟩ := setBufferedObjectAtIndex_cases hset
    obtain ⟨tail, htail⟩ := h.entries
    rw [h.objects, ← htail, List.append_assoc] at hlt hcells
    -- the arrays have grown to an entry behind those of `l`
    obtain ⟨old, tail', htail'⟩ : ∃ old tail', tail ++ grown = old :: tail' := by
      apply List.exists_cons_of_ne_nil
      intro hnil
      rw [hnil] at hlt
      simp at hlt
    refine ⟨?_, tail', ?_⟩
    · show b₁.bufferedObjects + 1 = _
      rw [hobjects, h.objects, List.length_append, List.length_singleton]
    · show _ = b₁.cells
      rw [hcells, htail']
      simp

/-- `compactFrom` has moved the entries of `pre` to the front, with `gap` entries behind them that it has
    read already. -/
theorem compactFrom_spec : ∀ (rest pre gap : List (Option α)) (b : ObjectBuffer α),
    Holds b (pre ++ gap ++ rest) → ∃ b' kept, compactFrom realloc junk rest.length
    (pre ++ gap).length pre.length b =
      some (b', kept) ∧ kept = (pre ++ rest.filter Option.isSome).length ∧
      pre ++ rest.filter Option.isSome <+: b'.cells
  | [], pre, gap, b, h => by
    refine ⟨b, pre.length, rfl, by simp, ?_⟩
    simp only [List.filter_nil, List.append_nil] at h ⊢
    exact (List.prefix_append pre gap).trans h.entries
  | none :: rest, pre, gap, b, h => by
    obtain ⟨b', kept, hrun, hkept, hentries⟩ := compactFrom_spec rest pre (gap ++ [none]) b (by simpa using h)
    refine ⟨b', kept, ?_, hkept, hentries⟩
    rw [List.length_cons, compactFrom, h.at]
    simpa [Nat.add_assoc] using hrun
  | some x :: rest, pre, gap, b, h => by
    rw [List.length_cons, compactFrom, h.at]
    obtain ⟨gap', hgap⟩ : ∃ gap', gap ++ [some x] = gap' ∧ gap' ≠ [] := ⟨_, rfl, by simp⟩
    obtain ⟨first, gap', rfl⟩ := List.exists_cons_of_ne_nil hgap.2
    have hholds : Holds b (pre ++ first :: (gap' ++ rest)) := by
      have heq : pre ++ gap ++ some x :: rest = pre ++ first :: (gap' ++ rest) := by
        rw [List.append_assoc, ← List.cons_append, ← hgap.1]
        simp
      exact heq ▸ h
    obtain ⟨b₁, hset, hb₁⟩ := hholds.set (some x)
    obtain ⟨b', kept, hrun, hkept, hentries⟩ := compactFrom_spec rest (pre ++ [some x]) gap' b₁
        (by simpa using hb₁)
    have hlen : (pre ++ [some x] ++ gap').length = (pre ++ gap).length + 1 := by
      have := congrArg List.length hgap.1
      simp only [List.length_append, List.length_cons, List.length_nil] at this ⊢
      omega
    refine ⟨b', kept, ?_, by simpa using hkept, by simpa using hentries⟩
    simp only [Option.bind_some, Option.isSome_some, if_true]
    rw [hset, Option.bind_some, ← hlen]
    simpa using hrun

/-- **Compaction** keeps the entries that are not NULL, each once and in their order. -/
theorem Holds.compactBuffer (h : Holds b l) :
    ∃ b', b.compactBuffer realloc junk = some b' ∧ Holds b' (l.filter Option.isSome) := by
  obtain ⟨b', kept, hrun, hkept, hentries⟩ := compactFrom_spec l [] [] b h
  rw [ObjectBuffer.compactBuffer, h.objects, show compactFrom realloc junk l.length 0 0 b =
    some (b', kept) from hrun]
  exact ⟨_, rfl, hkept, hentries⟩

theorem setBufferedObjectAtIndex_isSome (hindex : index < UINT_MAX) (hrealloc : ∀ bytes, realloc bytes = true)
    (hspace : b.overflow.length ≤ 2 * UINT_MAX) :
    ∃ b', b.setBufferedObjectAtIndex realloc junk value index = some b' ∧
    b'.overflow.length ≤ 2 * UINT_MAX := by
  rw [setBufferedObjectAtIndex]
  by_cases hlt : index < BUFFER_SIZE
  · rw [dif_pos hlt]
    exact ⟨_, rfl, hspace⟩
  · rw [dif_neg hlt]
    -- the size that is asked for stays far below `SIZE_MAX`
    have hgrow : ∃ newSpace,
        (if h : b.overflow.length = 0 then growSpace (index - BUFFER_SIZE) BUFFER_SIZE (by decide)
        else growSpace (index - BUFFER_SIZE) b.overflow.length (by omega)) = some newSpace ∧
        newSpace ≤ 2 * UINT_MAX ∧ b.overflow.length ≤ newSpace := by
      have hindex' : index - BUFFER_SIZE ≤ SIZE_MAX / 2 := by
        unfold SIZE_MAX
        unfold UINT_MAX at hindex
        omega
      split
      · obtain ⟨space, hspace⟩ := Option.isSome_iff_exists.mp
            (growSpace_isSome (by decide : 0 < BUFFER_SIZE) hindex')
        have hbound := growSpace_spec _ hspace
        refine ⟨space, hspace, ?_, by omega⟩
        unfold UINT_MAX BUFFER_SIZE at *
        omega
      · obtain ⟨space, hspace'⟩ := Option.isSome_iff_exists.mp
          (growSpace_isSome (by omega : 0 < b.overflow.length) hindex')
        have hbound := growSpace_spec _ hspace'
        exact ⟨space, hspace', by omega, hbound.2.1⟩
    obtain ⟨newSpace, hgrow, hle, hold⟩ := hgrow
    simp only [hgrow, Option.bind_some]
    split
    · exact ⟨_, rfl, by simpa using hspace⟩
    · have hbytes : ¬ (newSpace > SIZE_MAX / 8 ∨ realloc (newSpace * 8) = false) := by
        rw [hrealloc]
        unfold SIZE_MAX
        unfold UINT_MAX at hle
        simp only [Bool.true_eq_false, or_false]
        omega
      rw [if_neg hbytes]
      refine ⟨_, rfl, ?_⟩
      simp only [List.length_set, List.length_append, List.length_replicate]
      omega

/-- Appending fails only where the counter or memory runs out. -/
theorem appendBufferedObject_isSome (hcount : b.bufferedObjects < UINT_MAX)
    (hrealloc : ∀ bytes, realloc bytes = true) (hspace : b.overflow.length ≤ 2 * UINT_MAX) :
    ∃ b', b.appendBufferedObject realloc junk value = some b' ∧ b'.overflow.length ≤ 2 * UINT_MAX := by
  obtain ⟨b', hset, hb'⟩ := setBufferedObjectAtIndex_isSome hcount hrealloc hspace
  rw [appendBufferedObject, if_neg (by omega), hset]
  exact ⟨_, rfl, hb'⟩

end ObjectBuffer

end Libobjc2.Classes
