import Mathlib.Data.List.Basic
import Mathlib.Tactic.Common

/-!
# Blocks that are written piece by piece

A block of memory as a list of cells, each of which has been written or not. A write outside the block
is `none`.

Results:
* `writeAll_bind_writeAll`: texts that are written one behind the other are one text.
* `writeAll_append`: a text that is written over cells of its length, wherever they are in the block.
* `writeAll_blank`: the same for the first cells of a part that has not been written yet.
-/

namespace Libobjc2.Common

/-- The cells of a block. -/
abbrev Buffer (α : Type*) := List (Option α)

namespace Buffer

variable {α : Type*}

/-- A block of which nothing has been written. -/
def blank (n : ℕ) : Buffer α := List.replicate n none

/-- A write to one cell. -/
def write (b : Buffer α) (pos : ℕ) (x : α) : Option (Buffer α) :=
  if pos < b.length then some (b.set pos (some x)) else none

/-- `memcpy` to a position of the block. -/
def writeAll : Buffer α → ℕ → List α → Option (Buffer α)
  | b, _, [] => some b
  | b, pos, x :: xs => (b.write pos x).bind fun b => writeAll b (pos + 1) xs

/-- A text that has been written. -/
def text (xs : List α) : Buffer α := xs.map some

@[simp] theorem length_blank (n : ℕ) : (blank n : Buffer α).length = n := List.length_replicate

@[simp] theorem length_text (xs : List α) : (text xs).length = xs.length := List.length_map _

theorem blank_add (m n : ℕ) : (blank (m + n) : Buffer α) = blank m ++ blank n :=
  List.replicate_add m n none

@[simp] theorem text_append (xs ys : List α) : text (xs ++ ys) = text xs ++ text ys := List.map_append

/-- One cell is a text of length one. -/
theorem write_eq_writeAll (b : Buffer α) (pos : ℕ) (x : α) : b.write pos x = b.writeAll pos [x] := by
  rw [writeAll]
  cases b.write pos x <;> rfl

/-- Texts that are written one behind the other. -/
theorem writeAll_bind_writeAll (b : Buffer α) (pos : ℕ) (xs ys : List α) :
    ((b.writeAll pos xs).bind fun b => b.writeAll (pos + xs.length) ys) = b.writeAll pos (xs ++ ys) := by
  induction xs generalizing b pos with
  | nil => rfl
  | cons x xs ih =>
    rw [List.cons_append, writeAll, writeAll, Option.bind_assoc]
    congr 1
    funext b
    rw [← ih b (pos + 1)]
    congr 1
    funext b
    congr 1
    rw [List.length_cons]
    omega

/-- A text goes over as many cells. -/
theorem writeAll_append (xs : List α) (a b : Buffer α) {old : Buffer α} (h : old.length = xs.length) :
    writeAll (a ++ (old ++ b)) a.length xs = some (a ++ (text xs ++ b)) := by
  induction xs generalizing a old with
  | nil =>
    obtain rfl := List.length_eq_zero_iff.mp h
    rfl
  | cons x xs ih =>
    cases old with
    | nil => exact absurd h (by simp)
    | cons o old =>
      have hin : a.length < (a ++ (o :: old ++ b)).length := by simp
      have hset : (a ++ (o :: old ++ b)).set a.length (some x) = (a ++ [some x]) ++ (old ++ b) := by
        rw [List.set_append_right _ _ (Nat.le_refl _)]
        simp
      have hnext := ih (a ++ [some x]) (Nat.succ.inj h)
      rw [List.length_append, List.length_singleton] at hnext
      rw [writeAll, write, if_pos hin, Option.bind_some, hset, hnext]
      simp [text]

/-- A text goes into cells that have not been written. -/
theorem writeAll_blank (xs : List α) {n : ℕ} (h : xs.length ≤ n) (a b : Buffer α) :
    writeAll (a ++ (blank n ++ b)) a.length xs = some (a ++ (text xs ++ (blank (n - xs.length) ++ b))) := by
  have hsplit : (blank n : Buffer α) = blank xs.length ++ blank (n - xs.length) := by
    rw [← blank_add]
    congr 1
    omega
  rw [hsplit, List.append_assoc]
  exact writeAll_append xs a _ (length_blank _)

/-- The cell at a position of the text in the middle. -/
theorem getElem?_text (a b : Buffer α) (xs : List α) {i : ℕ} (h : i < xs.length) :
    (a ++ (text xs ++ b))[a.length + i]? = some (some xs[i]) := by
  rw [List.getElem?_append_right (Nat.le_add_right _ _), Nat.add_sub_cancel_left,
    List.getElem?_append_left (by simpa using h)]
  simp [text, h]

end Buffer

end Libobjc2.Common
