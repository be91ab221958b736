import Mathlib.Algebra.Order.BigOperators.Group.Finset
import Mathlib.Tactic.Linarith

/-!
# Items of successive launches, taken by blocks

Launches follow each other, each with some items; the items of all launches are
numbered on from a start. The blocks of a launch take its items in strides: block `b`
takes items `b`, `b + blocks` and so on. An item is passed when its launch finished, or
its launch is the one that runs and its block went on from it.
-/

namespace SparkRing.LaunchItems

open Function

/-- Number of a launch's first item. -/
def first (start : ℕ) (count : ℕ → ℕ) : ℕ → ℕ
  | 0 => start
  | k + 1 => first start count k + count k

/-- The first item of a block in a launch of some items. -/
def enter (count : ℕ) (b : ℕ) : Option ℕ := if b < count then some b else none

/-- The next item of a block. -/
def stride (count blocks i : ℕ) : Option ℕ := if i + blocks < count then some (i + blocks) else none

variable {start : ℕ} {count : ℕ → ℕ}

theorem first_le_first {k l : ℕ} (h : k ≤ l) : first start count k ≤ first start count l := by
  induction l with
  | zero =>
    obtain rfl : k = 0 := Nat.le_zero.mp h
    rfl
  | succ l ih =>
    rcases Nat.lt_or_ge k (l + 1) with hlt | hge
    · exact (ih (Nat.lt_succ_iff.mp hlt)).trans (Nat.le_add_right _ _)
    · rw [Nat.le_antisymm h hge]

theorem start_le_first (k : ℕ) : start ≤ first start count k := first_le_first (Nat.zero_le k)

/-- A launch's items come before those of later launches. -/
theorem item_lt_first {k l i : ℕ} (hi : i < count k) (h : k < l) : first start count k + i < first start count l := by
  have hnext : first start count k + count k ≤ first start count l := first_le_first (Nat.succ_le_of_lt h)
  omega

/-- Where every launch has an item, every number from the start on is an item's. -/
theorem exists_item (hpos : ∀ k, 0 < count k) {g : ℕ} (hg : start ≤ g) : ∃ k i, i < count k ∧ first start count k + i = g := by
  induction g, hg using Nat.le_induction with
  | base => exact ⟨0, 0, hpos 0, rfl⟩
  | succ g _ ih =>
    obtain ⟨k, i, hi, hg⟩ := ih
    rcases Nat.lt_or_ge (i + 1) (count k) with hlt | hge
    · exact ⟨k, i + 1, hlt, by omega⟩
    refine ⟨k + 1, 0, hpos (k + 1), ?_⟩
    simp only [first]
    omega

/-- Items of one number are the same. -/
theorem item_unique {k l i j : ℕ} (hi : i < count k) (hj : j < count l)
    (h : first start count k + i = first start count l + j) : k = l ∧ i = j := by
  rcases Nat.lt_trichotomy k l with hlt | rfl | hgt
  · have hbefore : first start count k + i < first start count l := item_lt_first hi hlt
    omega
  · exact ⟨rfl, by omega⟩
  · have hbefore : first start count l + j < first start count k := item_lt_first hj hgt
    omega

/-- An item that its block passed: the launches that finished, and what every block of
the running launch is at. -/
def Passed (start : ℕ) (count : ℕ → ℕ) (blocks finished : ℕ) (cur : ℕ → Option ℕ) (g : ℕ) : Prop :=
  ∃ k i, i < count k ∧ first start count k + i = g ∧
    (k < finished ∨ k = finished ∧ ∀ j, cur (i % blocks) = some j → i < j)

/-- Blocks are at items of their own. -/
def Aligned (count : ℕ → ℕ) (blocks finished : ℕ) (cur : ℕ → Option ℕ) : Prop :=
  ∀ b < blocks, ∀ i, cur b = some i → i % blocks = b ∧ i < count finished

variable {blocks finished b i g : ℕ} {cur : ℕ → Option ℕ}

/-- The item a block is at is not passed. -/
theorem not_passed_current (ha : Aligned count blocks finished cur) (hb : b < blocks) (hcur : cur b = some i) :
    ¬Passed start count blocks finished cur (first start count finished + i) := by
  obtain ⟨hmod, hi⟩ := ha b hb i hcur
  rintro ⟨k, j, hj, hg, hpassed⟩
  obtain ⟨rfl, rfl⟩ := item_unique hj hi hg
  rcases hpassed with hlt | ⟨-, hall⟩
  · exact Nat.lt_irrefl _ hlt
  · rw [hmod] at hall
    exact Nat.lt_irrefl _ (hall j hcur)

/-- What is passed comes before the launches to come. -/
theorem Passed.lt_next (h : Passed start count blocks finished cur g) : g < first start count (finished + 1) := by
  obtain ⟨k, i, hi, rfl, hk⟩ := h
  refine item_lt_first hi ?_
  rcases hk with hlt | ⟨rfl, -⟩ <;> omega

/-- A block that goes on to its next item has passed one more. -/
theorem passed_stride (ha : Aligned count blocks finished cur) (hb : b < blocks) (hcur : cur b = some i) :
    Passed start count blocks finished (update cur b (stride (count finished) blocks i)) g ↔
      g = first start count finished + i ∨ Passed start count blocks finished cur g := by
  obtain ⟨hmod, hi⟩ := ha b hb i hcur
  constructor
  · rintro ⟨k, j, hj, hg, hpassed⟩
    rcases hpassed with hlt | ⟨rfl, hall⟩
    · exact .inr ⟨k, j, hj, hg, .inl hlt⟩
    by_cases hjb : j % blocks = b
    · rw [hjb, update_self] at hall
      by_cases hji : j = i
      · exact .inl (hji ▸ hg.symm)
      refine .inr ⟨k, j, hj, hg, .inr ⟨rfl, fun l hl => ?_⟩⟩
      rw [hjb, hcur, Option.some.injEq] at hl
      -- `j` is in the block's stride, before its next item, and is not `i`
      have hnext : j < i + blocks := by
        unfold stride at hall
        split at hall
        case isTrue => exact hall _ rfl
        case isFalse hend => omega
      have hdiv := Nat.div_add_mod j blocks
      have hdiv' := Nat.div_add_mod i blocks
      by_contra hge
      have hlt : j / blocks < i / blocks + 1 := by
        by_contra hle
        have hmul : blocks * (i / blocks + 1) ≤ blocks * (j / blocks) := Nat.mul_le_mul_left _ (by omega)
        rw [Nat.mul_add, Nat.mul_one] at hmul
        omega
      have hle : blocks * (j / blocks) ≤ blocks * (i / blocks) := Nat.mul_le_mul_left _ (by omega)
      omega
    · rw [update_of_ne hjb] at hall
      exact .inr ⟨k, j, hj, hg, .inr ⟨rfl, hall⟩⟩
  · rintro (rfl | ⟨k, j, hj, hg, hpassed⟩)
    · refine ⟨finished, i, hi, rfl, .inr ⟨rfl, fun l hl => ?_⟩⟩
      rw [hmod, update_self] at hl
      unfold stride at hl
      obtain ⟨-, rfl⟩ := Option.ite_some_none_eq_some.mp hl
      omega
    refine ⟨k, j, hj, hg, hpassed.imp_right fun ⟨hk, hall⟩ => ⟨hk, fun l hl => ?_⟩⟩
    by_cases hjb : j % blocks = b
    · rw [hjb] at hall hl
      have hji := hall i hcur
      rw [update_self] at hl
      unfold stride at hl
      obtain ⟨-, rfl⟩ := Option.ite_some_none_eq_some.mp hl
      omega
    · rw [update_of_ne hjb] at hl
      exact hall l hl

/-- A block that leaves a launch passes what is left of it. -/
theorem passed_leave (h : Passed start count blocks finished cur g) : Passed start count blocks finished (update cur b none) g := by
  obtain ⟨k, j, hj, hg, hpassed⟩ := h
  refine ⟨k, j, hj, hg, hpassed.imp_right fun ⟨hk, hall⟩ => ⟨hk, fun l hl => ?_⟩⟩
  by_cases hjb : j % blocks = b
  · rw [hjb, update_self] at hl
    cases hl
  · rw [update_of_ne hjb] at hl
    exact hall l hl

/-- A launch whose blocks have all left finishes; the next one's blocks enter. -/
theorem passed_finish (hblocks : 0 < blocks) (hnone : ∀ b < blocks, cur b = none) :
    Passed start count blocks (finished + 1) (enter (count (finished + 1))) g ↔ Passed start count blocks finished cur g := by
  constructor
  · rintro ⟨k, j, hj, hg, hpassed⟩
    rcases hpassed with hlt | ⟨rfl, hall⟩
    · refine ⟨k, j, hj, hg, ?_⟩
      rcases Nat.lt_or_ge k finished with hk | hk
      · exact .inl hk
      refine .inr ⟨by omega, fun l hl => ?_⟩
      rw [hnone _ (Nat.mod_lt _ hblocks)] at hl
      cases hl
    have hself : enter (count (finished + 1)) (j % blocks) = some (j % blocks) :=
      if_pos (lt_of_le_of_lt (Nat.mod_le _ _) hj)
    have hlt := hall _ hself
    exact absurd (Nat.mod_le j blocks) (Nat.not_le.mpr hlt)
  · rintro ⟨k, j, hj, hg, hpassed⟩
    refine ⟨k, j, hj, hg, .inl ?_⟩
    rcases hpassed with hlt | ⟨rfl, -⟩ <;> omega

/-- Before the first launch was served no item is passed. -/
theorem not_passed_enter {start : ℕ} {count : ℕ → ℕ} {blocks g : ℕ} : ¬Passed start count blocks 0 (enter (count 0)) g := by
  rintro ⟨k, i, hi, -, hlt | ⟨rfl, hall⟩⟩
  · exact Nat.not_lt_zero _ hlt
  · have hself : enter (count 0) (i % blocks) = some (i % blocks) := if_pos (lt_of_le_of_lt (Nat.mod_le _ _) hi)
    exact absurd (hall _ hself) (Nat.not_lt.mpr (Nat.mod_le _ _))

theorem aligned_enter (count : ℕ → ℕ) (blocks finished : ℕ) : Aligned count blocks finished (enter (count finished)) := by
  intro b hb i hi
  unfold enter at hi
  obtain ⟨hlt, rfl⟩ := Option.ite_some_none_eq_some.mp hi
  exact ⟨Nat.mod_eq_of_lt hb, hlt⟩

section

variable (ha : Aligned count blocks finished cur)

include ha

theorem Aligned.stride (hb : b < blocks) (hcur : cur b = some i) :
    Aligned count blocks finished (update cur b (stride (count finished) blocks i)) := by
  intro c hc j hj
  by_cases hcb : c = b
  · subst hcb
    rw [update_self] at hj
    unfold LaunchItems.stride at hj
    obtain ⟨hlt, rfl⟩ := Option.ite_some_none_eq_some.mp hj
    rw [Nat.add_mod_right]
    exact ⟨(ha c hc i hcur).1, hlt⟩
  · rw [update_of_ne hcb] at hj
    exact ha c hc j hj

theorem Aligned.leave : Aligned count blocks finished (update cur b none) := by
  intro c hc j hj
  by_cases hcb : c = b
  · rw [hcb, update_self] at hj
    cases hj
  · rw [update_of_ne hcb] at hj
    exact ha c hc j hj

/-- A block that is not at its first item has passed the one before. -/
theorem passed_before (hb : b < blocks) (hcur : cur b = some i) :
    i = b ∨ blocks ≤ i ∧ Passed start count blocks finished cur (first start count finished + (i - blocks)) := by
  obtain ⟨hmod, hi⟩ := ha b hb i hcur
  rcases Nat.lt_or_ge i blocks with hlt | hge
  · exact .inl ((Nat.mod_eq_of_lt hlt).symm.trans hmod)
  have hsub : (i - blocks) % blocks = b := by
    rw [← hmod, ← Nat.mod_eq_sub_mod hge]
  refine .inr ⟨hge, finished, i - blocks, by omega, rfl, .inr ⟨rfl, fun j hj => ?_⟩⟩
  rw [hsub, hcur, Option.some.injEq] at hj
  omega

end

/-- No block is further ahead of what is passed than there are blocks. -/
theorem current_lt (hpos : ∀ k, 0 < count k) (ha : Aligned count blocks finished cur) (hb : b < blocks) (hcur : cur b = some i)
    {bound : ℕ} (hstart : start ≤ bound) (hpassed : ∀ g, Passed start count blocks finished cur g → g < bound) :
    first start count finished + i < bound + blocks := by
  have hcases : i = b ∨ blocks ≤ i ∧ Passed start count blocks finished cur (first start count finished + (i - blocks)) :=
    passed_before ha hb hcur
  rcases hcases with rfl | ⟨hge, hbefore⟩
  · have hfirst : first start count finished ≤ bound := by
      cases finished with
      | zero => exact hstart
      | succ k =>
        have hlast := hpassed (first start count k + (count k - 1))
          ⟨k, count k - 1, Nat.sub_lt (hpos k) Nat.zero_lt_one, rfl, .inl (Nat.lt_succ_self k)⟩
        simp only [first]
        omega
    omega
  · have hlt := hpassed _ hbefore
    omega

/-- Where every launch has an item, an item not passed is one a block is at or before, or
of a launch to come. -/
theorem current_of_not_passed (hi : i < count finished)
    (h : ¬Passed start count blocks finished cur (first start count finished + i)) : ∃ j ≤ i, cur (i % blocks) = some j := by
  by_contra hnone
  refine h ⟨finished, i, hi, rfl, .inr ⟨rfl, fun j hj => ?_⟩⟩
  by_contra hge
  exact hnone ⟨j, by omega, hj⟩

/-- One of the values of a sum becomes less. -/
theorem sum_update_lt {α : Type*} {n b : ℕ} (hb : b < n) {f : ℕ → α} {a : α} {w : α → ℕ} (h : w a < w (f b)) :
    ∑ c ∈ Finset.range n, w (update f b a c) < ∑ c ∈ Finset.range n, w (f c) := by
  refine Finset.sum_lt_sum (fun c _ => ?_) ⟨b, Finset.mem_range.mpr hb, ?_⟩
  · by_cases hcb : c = b
    · rw [hcb, update_self]
      exact h.le
    · rw [update_of_ne hcb]
  · rw [update_self]
    exact h

end SparkRing.LaunchItems
