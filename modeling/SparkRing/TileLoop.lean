import Mathlib.Data.Nat.Basic
import Mathlib.Tactic.ByContra

/-!
# Loops that advance by a tile

A loop of machine words, `for (column = start; column < total; column += tile)`: its
columns are words of a fixed modulus, so a column can fail to move because the tile is zero
or because the sum does not fit the word. Such a loop moves forward in every iteration
exactly when neither happens, and then it ends.
-/

namespace SparkRing.TileLoop

variable {modulus start total tile column n : ℕ}

/-- The column after one iteration. -/
def advance (modulus tile column : ℕ) : ℕ := (column + tile) % modulus

/-- The column after `n` iterations. -/
def columnAt (modulus start tile : ℕ) : ℕ → ℕ
  | 0 => start
  | n + 1 => advance modulus tile (columnAt modulus start tile n)

/-- The columns whose iteration runs. -/
inductive Reached (modulus start total tile : ℕ) : ℕ → Prop
  | start : start < total → Reached modulus start total tile start
  | next {column : ℕ} : Reached modulus start total tile column → advance modulus tile column < total →
      Reached modulus start total tile (advance modulus tile column)

/-- Every iteration moves forward. -/
def Advances (modulus start total tile : ℕ) : Prop :=
  ∀ column, Reached modulus start total tile column → column < advance modulus tile column

/-- The loop is left after finitely many iterations. -/
def Ends (modulus start total tile : ℕ) : Prop := ∃ n, total ≤ columnAt modulus start tile n

/-- The last column is followed by a word. -/
def Fits (modulus start total tile : ℕ) : Prop :=
  start + (total - 1 - start) / tile * tile + tile < modulus

instance : Decidable (Fits modulus start total tile) := inferInstanceAs (Decidable (_ < _))

/-- The iterations that run are below the bound. -/
theorem Reached.lt (h : Reached modulus start total tile column) : column < total := by
  induction h with
  | start hlt | next _ hlt _ => exact hlt

/-- A sum that fits the word is the next column. -/
theorem advance_of_lt (h : column + tile < modulus) : advance modulus tile column = column + tile := Nat.mod_eq_of_lt h

/-- A sum that does not fit falls back by the modulus. -/
theorem advance_lt_of_wraps (hcolumn : column < modulus) (htile : tile < modulus) (h : modulus ≤ column + tile) :
    advance modulus tile column < column := by
  have hsub : advance modulus tile column = (column + tile - modulus) % modulus := Nat.mod_eq_sub_mod h
  rw [hsub, Nat.mod_eq_of_lt (by omega)]
  omega

/-- While sums fit, columns are whole tiles from the start. -/
theorem Reached.multiple (hfits : Fits modulus start total tile) (h : Reached modulus start total tile column) :
    ∃ k, column = start + k * tile ∧ k * tile ≤ (total - 1 - start) / tile * tile := by
  induction h with
  | start _ => exact ⟨0, by omega, by omega⟩
  | next hreached hlt ih =>
    obtain ⟨k, hk, hbound⟩ := ih
    have hroom : start + k * tile + tile < modulus := by
      unfold Fits at hfits
      omega
    rw [hk, advance_of_lt hroom] at hlt ⊢
    have hstep : (k + 1) * tile = k * tile + tile := Nat.succ_mul k tile
    refine ⟨k + 1, by omega, ?_⟩
    rcases Nat.eq_zero_or_pos tile with hzero | hpos
    · simp [hzero]
    · exact Nat.mul_le_mul_right tile ((Nat.le_div_iff_mul_le hpos).mpr (by omega))

/-- A loop with a positive tile whose last sum fits moves forward. -/
theorem advances_of_fits (htile : 0 < tile) (hfits : Fits modulus start total tile) : Advances modulus start total tile := by
  intro column hreached
  obtain ⟨k, hk, hbound⟩ := hreached.multiple hfits
  rw [advance_of_lt (by unfold Fits at hfits; omega)]
  omega

/-- Every whole tile below the bound is reached. -/
theorem reached_multiple (hstart : start < total) (htotal : total ≤ modulus) :
    ∀ k, start + k * tile < total → Reached modulus start total tile (start + k * tile) := by
  intro k
  induction k with
  | zero =>
    intro _
    rw [Nat.zero_mul, Nat.add_zero]
    exact .start hstart
  | succ k ih =>
    intro hlt
    have hstep : (k + 1) * tile = k * tile + tile := Nat.succ_mul k tile
    have hreached := ih (by omega)
    have hsum : advance modulus tile (start + k * tile) = start + (k + 1) * tile := by
      rw [advance_of_lt (by omega)]
      omega
    rw [← hsum] at hlt ⊢
    exact hreached.next hlt

/-- A loop that runs moves forward in every iteration exactly when its tile is positive and
its last sum fits the word. -/
theorem advances_iff (hstart : start < total) (htotal : total ≤ modulus) (htile : tile < modulus) :
    Advances modulus start total tile ↔ 0 < tile ∧ Fits modulus start total tile := by
  constructor
  · intro hadvances
    have hpos : 0 < tile := by
      have hfirst := hadvances start (.start hstart)
      rcases Nat.eq_zero_or_pos tile with hzero | hpos
      · rw [hzero, advance, Nat.add_zero, Nat.mod_eq_of_lt (by omega)] at hfirst
        omega
      · exact hpos
    refine ⟨hpos, ?_⟩
    by_contra hwraps
    -- the last column below the bound is reached and its sum falls back
    have hdiv := Nat.div_mul_le_self (total - 1 - start) tile
    have hlast : Reached modulus start total tile (start + (total - 1 - start) / tile * tile) :=
      reached_multiple hstart htotal _ (by omega)
    have hback := advance_lt_of_wraps (by omega) htile (Nat.le_of_not_lt hwraps)
    have hforward := hadvances _ hlast
    omega
  · rintro ⟨hpos, hfits⟩
    exact advances_of_fits hpos hfits

/-- A loop that moves forward in every iteration ends. -/
theorem Advances.ends (hadvances : Advances modulus start total tile) : Ends modulus start total tile := by
  by_contra hnever
  have hbelow : ∀ n, columnAt modulus start tile n < total := fun n =>
    Nat.lt_of_not_le fun hle => hnever ⟨n, hle⟩
  have hall : ∀ n, Reached modulus start total tile (columnAt modulus start tile n) := by
    intro n
    induction n with
    | zero => exact .start (hbelow 0)
    | succ n ih => exact ih.next (hbelow (n + 1))
  have hgrows : ∀ n, n ≤ columnAt modulus start tile n := by
    intro n
    induction n with
    | zero => exact Nat.zero_le _
    | succ n ih => exact Nat.lt_of_le_of_lt ih (hadvances _ (hall n))
  exact absurd (hgrows total) (Nat.not_le_of_lt (hbelow total))

/-- A loop without work runs no iteration. -/
theorem reached_none (h : total ≤ start) : ¬Reached modulus start total tile column := by
  intro hreached
  induction hreached with
  | start hlt => omega
  | next _ _ ih => exact ih

theorem advances_of_le (h : total ≤ start) : Advances modulus start total tile := fun _ hreached =>
  (reached_none h hreached).elim

/-- A tile of zero leaves the loop where it started. -/
theorem columnAt_zero (hstart : start < modulus) : columnAt modulus start 0 n = start := by
  induction n with
  | zero => rfl
  | succ n ih =>
    rw [columnAt, ih, advance, Nat.add_zero]
    exact Nat.mod_eq_of_lt hstart

/-- The columns of the iterations from `column` on, within `fuel` tests of the bound. -/
def columns (modulus total tile : ℕ) : ℕ → ℕ → Option (List ℕ)
  | 0, _ => none
  | fuel + 1, column =>
    if column < total then (columns modulus total tile fuel (advance modulus tile column)).map (column :: ·) else some []

/-- The columns of a counted range. -/
def range (start stop step : ℕ) : List ℕ := List.range' start ((stop - start + step - 1) / step) step

/-- A range that is not empty starts with its first column. -/
theorem range_cons (hstep : 0 < tile) (hlt : start < total) : range start total tile = start :: range (start + tile) total tile := by
  have hcount : (total - start + tile - 1) / tile = (total - (start + tile) + tile - 1) / tile + 1 := by
    rcases Nat.lt_or_ge (start + tile) total with hmore | hlast
    · rw [← Nat.add_div_right _ hstep]
      congr 1
      omega
    · rw [Nat.div_eq_of_lt (a := total - (start + tile) + tile - 1) (by omega), Nat.div_eq_of_lt_le] <;> omega
  rw [range, hcount, List.range'_succ]
  rfl

/-- A range past its end is empty. -/
theorem range_nil (hstep : 0 < tile) (hle : total ≤ start) : range start total tile = [] := by
  rw [range, Nat.sub_eq_zero_of_le hle, Nat.div_eq_of_lt (by omega)]
  rfl

/-- The steps of a counted range, each up to the next one or the end, are the whole range. -/
theorem flatMap_range (htile : 0 < tile) (base start total : ℕ) :
    (range start total tile).flatMap (fun offset => List.range' (base + offset) (min tile (total - offset))) =
      List.range' (base + start) (total - start) := by
  induction hleft : total - start using Nat.strong_induction_on generalizing start with
  | h left ih =>
    by_cases hlt : start < total
    · rw [range_cons htile hlt, List.flatMap_cons, ih (total - (start + tile)) (by omega) (start + tile) rfl, hleft, ← Nat.add_assoc]
      rcases Nat.le_total tile left with hmore | hlast
      · rw [min_eq_left hmore, List.range'_append_1]
        congr 1
        omega
      · rw [min_eq_right hlast, show total - (start + tile) = 0 by omega, List.range'_zero, List.append_nil]
    · rw [range_nil htile (by omega), show left = 0 by omega]
      rfl

/-- A loop whose columns fit the word runs over the columns of a range. -/
theorem columns_eq_range (htile : 0 < tile) (hroom : total + tile ≤ modulus) :
    ∀ fuel column, total - column < fuel → columns modulus total tile fuel column = some (range column total tile) := by
  intro fuel
  induction fuel with
  | zero =>
    intro column hfuel
    omega
  | succ fuel ih =>
    intro column hfuel
    unfold columns
    split_ifs with hlt
    · rw [advance_of_lt (by omega), ih (column + tile) (by omega), range_cons htile hlt]
      rfl
    · rw [range_nil htile (by omega)]

end SparkRing.TileLoop
