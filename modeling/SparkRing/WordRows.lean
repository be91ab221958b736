import Mathlib.Data.Nat.Basic
import Mathlib.Order.Basic

/-!
# Rows of words

Words of one size at a fixed distance form a row. Words of rows that follow one
another share no byte.
-/

namespace SparkRing.WordRows

/-- Words of one size at a fixed distance. -/
structure Row where
  start : ℕ
  stride : ℕ
  count : ℕ
  size : ℕ

def Row.word (row : Row) (i : ℕ) : ℕ := row.start + i * row.stride

def Row.stop (row : Row) : ℕ := row.start + row.count * row.stride

/-- Two byte ranges share no byte. -/
def Clear (a size b size' : ℕ) : Prop := a + size ≤ b ∨ b + size' ≤ a

/-- Rows one after another in `[lo, hi)`, whose words do not reach the next word. -/
def Placed : List Row → ℕ → ℕ → Prop
  | [], lo, hi => lo ≤ hi
  | row :: rows, lo, hi => lo ≤ row.start ∧ row.size ≤ row.stride ∧ Placed rows row.stop hi

variable {rows : List Row} {row row' : Row} {lo hi i j k l : ℕ}

theorem Row.word_add_le (hij : i < j) (hsize : row.size ≤ row.stride) : row.word i + row.size ≤ row.word j := by
  have hnext : (i + 1) * row.stride ≤ j * row.stride := Nat.mul_le_mul_right _ hij
  rw [Nat.succ_mul] at hnext
  unfold Row.word
  omega

theorem Placed.le (h : Placed rows lo hi) : lo ≤ hi := by
  induction rows generalizing lo with
  | nil => exact h
  | cons row rows ih => exact (h.1.trans (Nat.le_add_right _ _)).trans (ih h.2.2)

theorem Placed.inside (h : Placed rows lo hi) (hk : rows[k]? = some row) (hcount : i < row.count) :
    lo ≤ row.word i ∧ row.word i + row.size ≤ hi := by
  induction rows generalizing lo k with
  | nil => cases hk
  | cons first rest ih =>
    obtain ⟨hstart, hsize, hrest⟩ := h
    cases k with
    | zero =>
      cases hk
      exact ⟨hstart.trans (Nat.le_add_right _ _), (Row.word_add_le hcount hsize).trans hrest.le⟩
    | succ k =>
      obtain ⟨hle, hin⟩ := ih hrest hk
      exact ⟨(hstart.trans (Nat.le_add_right _ _)).trans hle, hin⟩

/-- Two words share no byte. -/
theorem Placed.clear (h : Placed rows lo hi) (hk : rows[k]? = some row) (hl : rows[l]? = some row')
    (hcount : i < row.count) (hcount' : j < row'.count) (hne : (k, i) ≠ (l, j)) : Clear (row.word i) row.size (row'.word j) row'.size := by
  induction rows generalizing lo k l with
  | nil => cases hk
  | cons first rest ih =>
    obtain ⟨-, hsize, hrest⟩ := h
    cases k with
    | zero =>
      cases hk
      cases l with
      | zero =>
        cases hl
        rcases Nat.lt_or_gt_of_ne fun hij : i = j => hne (hij ▸ rfl) with hlt | hgt
        · exact .inl (Row.word_add_le hlt hsize)
        · exact .inr (Row.word_add_le hgt hsize)
      | succ l => exact .inl ((Row.word_add_le hcount hsize).trans (hrest.inside hl hcount').1)
    | succ k =>
      cases l with
      | zero =>
        cases hl
        exact .inr ((Row.word_add_le hcount' hsize).trans (hrest.inside hk hcount).1)
      | succ l => exact ih hrest hk hl fun heq => hne (by cases heq; rfl)

/-- Words of a buffer share no byte, and lie inside. -/
def Apart {W : Type} (Has : W → Prop) (range : W → ℕ × ℕ) (total : ℕ) : Prop :=
  ∀ w, Has w → (range w).1 + (range w).2 ≤ total ∧
    ∀ w', Has w' → w ≠ w' → Clear (range w).1 (range w).2 (range w').1 (range w').2

variable {W : Type} {Has : W → Prop} {range : W → ℕ × ℕ} {total : ℕ}

/-- Words with places of their own in rows. -/
theorem Apart.of_placed {place : W → ℕ × ℕ} (h : Placed rows 0 total)
    (hrow : ∀ w, Has w → ∃ row, rows[(place w).1]? = some row ∧ (place w).2 < row.count ∧ range w = (row.word (place w).2, row.size))
    (hinj : ∀ w w', Has w → Has w' → place w = place w' → w = w') : Apart Has range total := by
  intro w hw
  obtain ⟨row, hk, hcount, hrange⟩ := hrow w hw
  rw [hrange]
  refine ⟨(h.inside hk hcount).2, fun w' hw' hne => ?_⟩
  obtain ⟨row', hk', hcount', hrange'⟩ := hrow w' hw'
  rw [hrange']
  exact h.clear hk hk' hcount hcount' fun heq => hne (hinj w w' hw hw' heq)

/-- Digits of different ranges. -/
theorem digits_inj {a b c d m : ℕ} (hb : b < m) (hd : d < m) (h : a * m + b = c * m + d) : a = c ∧ b = d := by
  have hmod := congrArg (· % m) h
  simp only [Nat.mul_add_mod_self_right, Nat.mod_eq_of_lt hb, Nat.mod_eq_of_lt hd] at hmod
  subst hmod
  exact ⟨Nat.eq_of_mul_eq_mul_right (Nat.zero_lt_of_lt hb) (Nat.add_right_cancel h), rfl⟩

theorem digits_lt {a b n m : ℕ} (ha : a < n) (hb : b < m) : a * m + b < n * m := by
  have h := Nat.mul_le_mul_right m ha
  rw [Nat.succ_mul] at h
  omega

end SparkRing.WordRows
