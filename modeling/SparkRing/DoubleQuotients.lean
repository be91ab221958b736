import SparkRing.RelayPieces

/-!
# Quotients of whole numbers in doubles

Halves of whole numbers below `2 ^ 53` are held exactly, and a quotient of whole numbers below
`2 ^ 20` keeps its floor when it is rounded.
-/

namespace SparkRing.RelayPieces

variable {x : ℚ} {n : ℤ}

theorem nearestEven_intCast : nearestEven n = n := by
  exact if_pos (by norm_num)

/-- Rounding never falls below the floor and moves up by half at most. -/
theorem nearestEven_bounds (x : ℚ) : ⌊x⌋ ≤ nearestEven x ∧ (nearestEven x : ℚ) ≤ x + 1 / 2 := by
  have hfloor := Int.floor_le x
  unfold nearestEven
  by_cases hbelow : x - ⌊x⌋ < 1 / 2
  · rw [if_pos hbelow]
    exact ⟨le_refl _, by linarith⟩
  have hup : (((⌊x⌋ + 1 : ℤ)) : ℚ) ≤ x + 1 / 2 := by
    push_cast
    linarith
  rw [if_neg hbelow]
  split
  · exact ⟨by omega, hup⟩
  split_ifs with heven
  · exact ⟨le_refl _, by linarith⟩
  · exact ⟨by omega, hup⟩

theorem place_pos (x : ℚ) : (0 : ℚ) < 2 ^ (Int.log 2 x - 52) := zpow_pos (by norm_num) _

/-- A number that is a whole number of its last places is held exactly. -/
theorem double_of_places (h : x = n * 2 ^ (Int.log 2 x - 52)) : double x = x := by
  have hpos := place_pos x
  have hplaces : x / 2 ^ (Int.log 2 x - 52) = n := by
    rw [div_eq_iff hpos.ne']
    exact h
  rw [double, hplaces, nearestEven_intCast]
  exact h.symm

/-- The last place of a positive number. -/
theorem place_le (hx : 0 < x) : (2 : ℚ) ^ (Int.log 2 x - 52) ≤ x / 2 ^ 52 := by
  have hlog : (2 : ℚ) ^ Int.log 2 x ≤ x := by exact_mod_cast Int.zpow_log_le_self (by norm_num) hx
  calc (2 : ℚ) ^ (Int.log 2 x - 52) = 2 ^ Int.log 2 x / 2 ^ 52 := by
        rw [zpow_sub₀ (by norm_num)]
        norm_num
    _ ≤ x / 2 ^ 52 := div_le_div_of_nonneg_right hlog (by norm_num)

/-- Rounding moves up by half a last place at most. -/
theorem double_le (hx : 0 < x) : double x ≤ x + x / 2 ^ 53 := by
  have hpos := place_pos x
  have hround := (nearestEven_bounds (x / 2 ^ (Int.log 2 x - 52))).2
  calc double x ≤ (x / 2 ^ (Int.log 2 x - 52) + 1 / 2) * 2 ^ (Int.log 2 x - 52) := mul_le_mul_of_nonneg_right hround hpos.le
    _ = x + 2 ^ (Int.log 2 x - 52) / 2 := by field_simp
    _ ≤ x + x / 2 ^ 53 := by
      have := place_le hx
      linarith

/-- Rounding moves down by less than a last place. -/
theorem lt_double (hx : 0 < x) : x - x / 2 ^ 52 < double x := by
  have hpos := place_pos x
  have hround : x / 2 ^ (Int.log 2 x - 52) - 1 < nearestEven (x / 2 ^ (Int.log 2 x - 52)) := by
    have hfloor := Int.sub_one_lt_floor (x / 2 ^ (Int.log 2 x - 52))
    have hle : (⌊x / 2 ^ (Int.log 2 x - 52)⌋ : ℚ) ≤ nearestEven (x / 2 ^ (Int.log 2 x - 52)) := by
      exact_mod_cast (nearestEven_bounds _).1
    linarith
  calc x - x / 2 ^ 52 ≤ x - 2 ^ (Int.log 2 x - 52) := by
        have := place_le hx
        linarith
    _ = (x / 2 ^ (Int.log 2 x - 52) - 1) * 2 ^ (Int.log 2 x - 52) := by field_simp
    _ < double x := mul_lt_mul_of_pos_right hround hpos

/-- Whole numbers below the last places' range bound rounding from below. -/
theorem le_double (hn : (n : ℚ) ≤ x) (hsmall : Int.log 2 x ≤ 52) : (n : ℚ) ≤ double x := by
  have hpos := place_pos x
  obtain ⟨k, hk⟩ : ∃ k : ℕ, Int.log 2 x - 52 = -(k : ℤ) := ⟨(52 - Int.log 2 x).toNat, by omega⟩
  have hplaces : ((n * 2 ^ k : ℤ) : ℚ) ≤ x / 2 ^ (Int.log 2 x - 52) := by
    rw [hk, zpow_neg, zpow_natCast, div_inv_eq_mul]
    push_cast
    gcongr
  have hround : ((n * 2 ^ k : ℤ) : ℚ) ≤ nearestEven (x / 2 ^ (Int.log 2 x - 52)) := by
    exact_mod_cast (Int.le_floor.mpr hplaces).trans (nearestEven_bounds _).1
  calc (n : ℚ) = ((n * 2 ^ k : ℤ) : ℚ) * 2 ^ (Int.log 2 x - 52) := by
        rw [hk, zpow_neg, zpow_natCast]
        push_cast
        field_simp
    _ ≤ double x := mul_le_mul_of_nonneg_right hround hpos.le

/-- Halves of whole numbers below `2 ^ 53` are held exactly. -/
theorem double_half {c : ℕ} (hc : 0 < c) (hsmall : c < 2 ^ 53) (k : ℕ) : double (c / 2 ^ k) = c / 2 ^ k := by
  have hpos : (0 : ℚ) < c / 2 ^ k := by positivity
  have hlog : Int.log 2 ((c : ℚ) / 2 ^ k) < 53 - k := by
    rw [← Int.lt_zpow_iff_log_lt (by norm_num) hpos, zpow_sub₀ (by norm_num), zpow_natCast, Nat.cast_ofNat]
    refine div_lt_div_of_pos_right ?_ (by positivity)
    exact_mod_cast hsmall
  obtain ⟨e, he⟩ : ∃ e : ℕ, Int.log 2 ((c : ℚ) / 2 ^ k) - 52 = -(k : ℤ) - e := ⟨(52 - k - Int.log 2 ((c : ℚ) / 2 ^ k)).toNat, by omega⟩
  refine double_of_places (n := c * 2 ^ e) ?_
  rw [he, zpow_sub₀ (by norm_num), zpow_neg, zpow_natCast, zpow_natCast]
  push_cast
  field_simp

/-- A quotient of whole numbers keeps its floor in a double. -/
theorem floor_double_div {m c : ℕ} (hm : 0 < m) (hsmall : m < 2 ^ 52) (hc : 0 < c) : ⌊double (m / c)⌋ = (m / c : ℕ) := by
  have hcast : (0 : ℚ) < c := by exact_mod_cast hc
  have hx : (0 : ℚ) < m / c := div_pos (by exact_mod_cast hm) hcast
  rw [Int.floor_eq_iff]
  constructor
  · refine le_double ?_ (Int.lt_add_one_iff.mp ((Int.lt_zpow_iff_log_lt (by norm_num) hx).mp ?_))
    · rw [le_div_iff₀ hcast]
      exact_mod_cast Nat.div_mul_le_self m c
    calc (m / c : ℚ) ≤ m := div_le_self (by positivity) (by exact_mod_cast hc)
      _ < 2 ^ 52 := by exact_mod_cast hsmall
      _ ≤ ((2 : ℕ) : ℚ) ^ ((52 : ℤ) + 1) := by norm_num
  have hrest : (m : ℚ) + 1 ≤ ((m / c : ℕ) + 1) * c := by
    have hlt : m + 1 ≤ (m / c + 1) * c := Nat.lt_div_mul_add hc |>.trans_eq (by ring)
    exact_mod_cast hlt
  have hplace : (m : ℚ) / 2 ^ 53 < 1 := by
    rw [div_lt_one (by norm_num)]
    exact_mod_cast hsmall.trans (by norm_num)
  calc double (m / c) ≤ m / c + m / c / 2 ^ 53 := double_le hx
    _ = (m + m / 2 ^ 53) / c := by ring
    _ < (m / c : ℕ) + 1 := by
      rw [div_lt_iff₀ hcast]
      linarith

end SparkRing.RelayPieces
