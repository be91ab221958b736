import Mathlib.Data.List.Basic
import Mathlib.Data.Nat.ModEq

/-!
# A ring buffer of fixed depth as a queue

The entries in use start at `head` and wrap around the depth. As long as the
count stays below the depth, a push writes a cell that holds no entry in use,
and the buffer behaves as the list of its entries, oldest first.
-/

namespace SparkRing

open Function

/-- Cells of a ring buffer, the index of its oldest entry and their number. -/
structure RingBuffer (α : Type*) where
  /-- The cells; the buffer uses those below its depth. -/
  cells : ℕ → α
  /-- Index of the oldest entry. -/
  head : ℕ
  /-- Entries in use. -/
  count : ℕ

namespace RingBuffer

variable {α : Type*} {depth i : ℕ} {r : RingBuffer α}

/-- Cell of the i-th entry in use. -/
def index (depth : ℕ) (r : RingBuffer α) (i : ℕ) : ℕ := (r.head + i) % depth

/-- The entries in use, oldest first. -/
def toList (depth : ℕ) (r : RingBuffer α) : List α :=
  (List.range r.count).map fun i => r.cells (index depth r i)

/-- Write a new entry behind the newest one. -/
def push (depth : ℕ) (r : RingBuffer α) (a : α) : RingBuffer α :=
  { r with cells := Function.update r.cells (index depth r r.count) a, count := r.count + 1 }

/-- Drop the oldest entry, if there is one. -/
def pop (depth : ℕ) (r : RingBuffer α) : RingBuffer α :=
  if r.count = 0 then r else { r with head := (r.head + 1) % depth, count := r.count - 1 }

/-- Rewrite the i-th entry in use. -/
def modify (depth : ℕ) (f : α → α) (r : RingBuffer α) (i : ℕ) : RingBuffer α :=
  { r with cells := Function.update r.cells (index depth r i) (f (r.cells (index depth r i))) }

@[simp] theorem length_toList : (r.toList depth).length = r.count := by
  simp [toList]

/-- Different entries in use have different cells. -/
theorem index_ne {j : ℕ} (hj : j < depth) (hij : i < j) : index depth r i ≠ index depth r j := by
  intro h
  have hd : (r.head + i) % depth = (r.head + j) % depth := h
  have hmod : (r.head + i) ≡ (r.head + j) [MOD depth] := hd
  have hlt : i ≡ j [MOD depth] := Nat.ModEq.add_left_cancel' r.head hmod
  rw [Nat.ModEq, Nat.mod_eq_of_lt (hij.trans hj), Nat.mod_eq_of_lt hj] at hlt
  omega

/-- A push below the depth overwrites no entry in use and appends the new one. -/
theorem toList_push (hc : r.count < depth) (a : α) : (r.push depth a).toList depth = r.toList depth ++ [a] := by
  have hcells : ∀ i < r.count, (r.push depth a).cells (index depth r i) = r.cells (index depth r i) := by
    intro i hi
    exact update_of_ne (index_ne hc hi) _ _
  have hnew : (r.push depth a).cells (index depth r r.count) = a := update_self _ _ _
  have hidx : ∀ i, index depth (r.push depth a) i = index depth r i := fun _ => rfl
  simp only [toList, hidx]
  rw [show (r.push depth a).count = r.count + 1 from rfl, List.range_succ, List.map_append]
  congr 1
  · exact List.map_congr_left fun i hi => hcells i (List.mem_range.mp hi)
  · simp [hnew]

/-- A pop drops the oldest entry. -/
theorem toList_pop : (r.pop depth).toList depth = (r.toList depth).tail := by
  unfold pop
  split
  case isTrue h => simp [toList, h]
  case isFalse h =>
    obtain ⟨n, hn⟩ := Nat.exists_eq_succ_of_ne_zero h
    simp only [toList, hn, Nat.succ_sub_one, List.range_succ_eq_map, List.map_cons, List.tail_cons,
      List.map_map]
    refine List.map_congr_left fun i _ => ?_
    simp only [comp_apply, index, Nat.mod_add_mod]
    congr 2
    omega

/-- Rewriting one entry in use leaves the others. -/
theorem toList_modify (hc : r.count ≤ depth) (f : α → α) (hi : i < r.count) :
    (r.modify depth f i).toList depth = (r.toList depth).set i (f (r.cells (index depth r i))) := by
  have hidx : ∀ j, index depth (r.modify depth f i) j = index depth r j := fun _ => rfl
  refine List.ext_getElem (by simp [toList, modify]) fun j hj _ => ?_
  have hj' : j < r.count := by simpa [toList, modify] using hj
  simp only [toList, hidx, List.getElem_map, List.getElem_range, List.getElem_set]
  simp only [modify]
  rcases Nat.lt_trichotomy i j with hlt | rfl | hgt
  · rw [update_of_ne (index_ne (by omega) hlt).symm, if_neg (by omega)]
  · rw [update_self, if_pos rfl]
  · rw [update_of_ne (index_ne (by omega) hgt), if_neg (by omega)]

/-- The entries in use around the one that is rewritten. -/
theorem toList_modify_split (hc : r.count ≤ depth) (f : α → α) (hi : i < r.count) :
    ∃ older newer, r.toList depth = older ++ r.cells (index depth r i) :: newer ∧
      (r.modify depth f i).toList depth = older ++ f (r.cells (index depth r i)) :: newer := by
  have hlen : i < (r.toList depth).length := by simpa using hi
  have hget : (r.toList depth)[i] = r.cells (index depth r i) := by simp [toList]
  refine ⟨(r.toList depth).take i, (r.toList depth).drop (i + 1), ?_, ?_⟩
  · rw [← hget, List.getElem_cons_drop, List.take_append_drop]
  · rw [toList_modify hc f hi, List.set_eq_take_append_cons_drop, if_pos hlen]

end RingBuffer

end SparkRing
